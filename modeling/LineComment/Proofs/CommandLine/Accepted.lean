import LineComment.Proofs.CommandLine.Words

/-! What an accepted command line comes to. Reading keeps track of the options met so far: those that take a value are
given one, and of the two switches for dry runs the last one counts. Whatever is accepted has been read by the grammar
of words to its end, and what it asks for goes together. -/

namespace LineComment.CommandLine

variable {flag : Flag} {flags others : List Flag} {arguments changed : Arguments} {progress next : Progress}
  {word letters value : Bytes} {words : List Bytes} {waits : Bool}

/-- The last switch for dry runs. -/
def lastSwitch (flags : List Flag) : Option Flag :=
  (flags.filter fun flag => flag = .dryRun ∨ flag = .noDryRun).getLast?

theorem lastSwitch_append_singleton : lastSwitch (flags ++ [flag]) =
    if flag = .dryRun ∨ flag = .noDryRun then some flag else lastSwitch flags := by
  by_cases hflag : flag = .dryRun ∨ flag = .noDryRun
  · simp [lastSwitch, hflag]
  · simp [lastSwitch, hflag]

theorem lastSwitch_eq_none (h : ∀ flag ∈ flags, flag ≠ .dryRun ∧ flag ≠ .noDryRun) : lastSwitch flags = none := by
  rw [lastSwitch, List.getLast?_eq_none_iff, List.filter_eq_nil_iff]
  intro flag hflag
  simpa using h flag hflag

theorem eq_of_lastSwitch (h : lastSwitch flags = some flag) : flag = .dryRun ∨ flag = .noDryRun := by
  have hmem := List.mem_filter.mp (List.mem_of_getLast? h)
  simpa using hmem.2

/-- What the options mean for the arguments. -/
structure Arguments.Reflects (arguments : Arguments) (flags : List Flag) : Prop where
  given : ∀ flag, flag.takesValue = true → (Progress.isGiven arguments flag = true ↔ flag ∈ flags)
  dryRun : arguments.dryRun = true ↔ lastSwitch flags = some .dryRun
  noDryRun : arguments.noDryRun = true ↔ lastSwitch flags = some .noDryRun

/-- What goes together in a command line. -/
structure Arguments.Coherent (arguments : Arguments) : Prop where
  line : arguments.line.isSome = true → arguments.startLabel = none ∧ arguments.endLabel = none
  labels : arguments.startLabel.isSome = true ↔ arguments.endLabel.isSome = true
  syntaxes : ¬(arguments.language.isSome = true ∧ arguments.marker.isSome = true)
  switches : ¬(arguments.dryRun = true ∧ arguments.noDryRun = true)

namespace Arguments.Reflects

theorem empty (h : ∀ flag ∈ flags, flag.takesValue = false ∧ flag ≠ .dryRun ∧ flag ≠ .noDryRun) :
    Reflects {} flags := by
  have hlast : lastSwitch flags = none := lastSwitch_eq_none fun flag hflag => (h flag hflag).2
  refine ⟨fun flag hvalue => ?_, by simp [hlast], by simp [hlast]⟩
  have hgiven : Progress.isGiven {} flag = false := by cases flag <;> rfl
  have hflag : flag ∉ flags := fun hflag => by simp [(h flag hflag).1] at hvalue
  simp [hgiven, hflag]

theorem isDryRun_eq (h : arguments.Reflects flags) (configured : Bool) :
    arguments.isDryRun configured = (lastSwitch flags).elim configured fun switch => switch = .dryRun := by
  have hdry := h.dryRun
  have hnoDry := h.noDryRun
  cases hlast : lastSwitch flags with
  | none => simp_all [isDryRun]
  | some switch => rcases eq_of_lastSwitch hlast with rfl | rfl <;> simp_all [isDryRun]

theorem not_both (h : arguments.Reflects flags) : ¬(arguments.dryRun = true ∧ arguments.noDryRun = true) := by
  rintro ⟨hdry, hnoDry⟩
  have heq := (h.dryRun.mp hdry).symm.trans (h.noDryRun.mp hnoDry)
  simp at heq

end Arguments.Reflects

/-- The option that has been met but is not in the arguments yet. -/
def Pending.awaited : Pending → List Flag
  | .needsValue flag | .hasValue flag _ => [flag]
  | .nothing | .hasShell _ => []

namespace Progress

theorem bind_eq_ok {α β ε : Type} {first : Except ε α} {rest : α → Except ε β} {result : β} :
    (first >>= rest) = .ok result ↔ ∃ value, first = .ok value ∧ rest value = .ok result := by
  cases first <;> simp [bind, Except.bind]

theorem assign_eq_ok (h : assign arguments flag value = .ok changed) (hvalue : flag.takesValue = true) :
    (∀ other, isGiven changed other = (isGiven arguments other || other = flag)) ∧
      changed.dryRun = arguments.dryRun ∧ changed.noDryRun = arguments.noDryRun := by
  cases flag <;> cases hvalue
  all_goals
    simp only [assign] at h
    split at h
    · cases h
    · obtain ⟨text, -, htext⟩ := bind_eq_ok.mp h
      cases htext
      refine ⟨fun other => ?_, rfl, rfl⟩
      cases other <;> simp [isGiven]

theorem reflects_of_assign (h : arguments.Reflects flags) (hassign : assign arguments flag value = .ok changed)
    (hvalue : flag.takesValue = true) : changed.Reflects (flags ++ [flag]) := by
  obtain ⟨hgiven, hdry, hnoDry⟩ := assign_eq_ok hassign hvalue
  have hlast : lastSwitch (flags ++ [flag]) = lastSwitch flags := by
    rw [lastSwitch_append_singleton, if_neg]
    rintro (rfl | rfl) <;> cases hvalue
  refine ⟨fun other hother => ?_, by rw [hdry, hlast, h.dryRun], by rw [hnoDry, hlast, h.noDryRun]⟩
  rw [hgiven, Bool.or_eq_true, h.given other hother]
  simp

theorem reflects_of_switch (h : arguments.Reflects flags) (hswitch : flag.takesValue = false)
    (hgiven : ∀ other, isGiven changed other = isGiven arguments other)
    (hdry : changed.dryRun = true ↔ lastSwitch (flags ++ [flag]) = some .dryRun)
    (hnoDry : changed.noDryRun = true ↔ lastSwitch (flags ++ [flag]) = some .noDryRun) :
    changed.Reflects (flags ++ [flag]) := by
  refine ⟨fun other hother => ?_, hdry, hnoDry⟩
  have hne : other ≠ flag := by
    rintro rfl
    simp [hother] at hswitch
  rw [hgiven, h.given other hother]
  simp [hne]

/-- Whether the next word has to be a value. -/
def isWaiting (progress : Progress) : Bool :=
  match progress.pending with
  | .needsValue _ => true
  | _ => false

/-- The options met so far. Up to one they are in the arguments already; the last may be waiting to be looked at. -/
def Told (progress : Progress) (flags : List Flag) : Prop :=
  ∃ settled, flags = settled ++ progress.pending.awaited ∧ progress.arguments.Reflects settled ∧
    ∀ flag ∈ progress.pending.awaited, flag.takesValue = true

theorem told_iff (h : progress.pending = .nothing) : progress.Told flags ↔ progress.arguments.Reflects flags := by
  simp [Told, h, Pending.awaited]

/-- What has been read up to here has been looked at there. -/
structure Settles (progress next : Progress) : Prop where
  settled : progress.isWaiting = false
  pending : next.pending = .nothing
  escaped : next.isEscaped = progress.isEscaped
  reflects : ∀ flags, progress.Told flags → next.arguments.Reflects flags

/-- Reading comes from here to there by some options, after which the next word has to be a value or not. -/
structure Reads (allowed : Flag → Bool) (progress : Progress) (flags : List Flag) (waits : Bool) (next : Progress) :
    Prop where
  settled : progress.isWaiting = false
  waits : next.isWaiting = waits
  escaped : next.isEscaped = progress.isEscaped
  allowed : ∀ flag ∈ flags, allowed flag = true
  told : ∀ before, progress.Told before → next.Told (before ++ flags)

variable {allowed : Flag → Bool}

theorem Reads.cons {middle : Progress} (h : progress.Reads allowed [flag] false middle)
    (hrest : middle.Reads allowed flags waits next) : progress.Reads allowed (flag :: flags) waits next where
  settled := h.settled
  waits := hrest.waits
  escaped := hrest.escaped.trans h.escaped
  allowed := List.forall_mem_cons.mpr ⟨h.allowed flag (List.mem_singleton_self flag), hrest.allowed⟩
  told before hbefore := by simpa using hrest.told _ (h.told before hbefore)

theorem settles_of_settle (h : progress.settle = .ok next) : progress.Settles next := by
  unfold settle at h
  split at h
  · next hpending =>
      cases h
      exact ⟨by simp [isWaiting, hpending], hpending, rfl, fun flags => (told_iff hpending).mp⟩
  · cases h
  · next flag value hpending =>
      obtain ⟨changed, hchanged, hnext⟩ := bind_eq_ok.mp h
      cases hnext
      refine ⟨by simp [isWaiting, hpending], rfl, rfl, ?_⟩
      rintro flags ⟨settled, rfl, hreflects, hvalue⟩
      simp only [hpending, Pending.awaited, List.mem_singleton, forall_eq] at hvalue ⊢
      exact reflects_of_assign hreflects hchanged hvalue
  · next name hpending =>
      obtain ⟨shell, -, hnext⟩ := bind_eq_ok.mp h
      cases hnext
      refine ⟨by simp [isWaiting, hpending], rfl, rfl, ?_⟩
      rintro flags ⟨settled, rfl, hreflects, -⟩
      simpa [hpending, Pending.awaited] using hreflects

theorem reads_of_expect {value : Option Bytes} (h : progress.expect flag value = .ok next)
    (hallowed : allowed flag = true) (hvalue : flag.takesValue = true) :
    progress.Reads allowed [flag] value.isNone next := by
  obtain ⟨settled, hsettled, hnext⟩ := bind_eq_ok.mp h
  have hsettles := settles_of_settle hsettled
  cases value with
  | none =>
      cases hnext
      refine ⟨hsettles.settled, rfl, hsettles.escaped, by simpa using hallowed, fun before hbefore => ?_⟩
      exact ⟨before, rfl, hsettles.reflects before hbefore, by simpa [Pending.awaited] using hvalue⟩
  | some value =>
      obtain ⟨changed, hchanged, hnext⟩ := bind_eq_ok.mp hnext
      cases hnext
      refine ⟨hsettles.settled, by simp [isWaiting, hsettles.pending], hsettles.escaped, by simpa using hallowed, ?_⟩
      intro before hbefore
      refine (told_iff ?_).mpr (reflects_of_assign (hsettles.reflects before hbefore) hchanged hvalue)
      exact hsettles.pending

/-- A switch settles what has been read before, and changes nothing that the next word depends on. -/
theorem exists_settled_of_raise (h : progress.raise flag = .ok next) (hswitch : flag.takesValue = false) :
    ∃ settled, progress.settle = .ok settled ∧ next.isEscaped = settled.isEscaped ∧ next.pending = settled.pending ∧
      ∀ before, settled.arguments.Reflects before → next.arguments.Reflects (before ++ [flag]) := by
  obtain ⟨settled, hsettled, hnext⟩ := bind_eq_ok.mp h
  refine ⟨settled, hsettled, ?_⟩
  cases flag <;> cases hswitch
  case verbose =>
    cases hnext
    refine ⟨rfl, rfl, fun before h => reflects_of_switch h rfl (fun _ => rfl) ?_ ?_⟩
    · simpa [lastSwitch_append_singleton] using h.dryRun
    · simpa [lastSwitch_append_singleton] using h.noDryRun
  case help => cases hnext
  case version => cases hnext
  all_goals
    simp only at hnext
    split at hnext
    · cases hnext
    · cases hnext
      refine ⟨rfl, rfl, fun before h => reflects_of_switch h rfl (fun other => by cases other <;> rfl) ?_ ?_⟩
      · simp [lastSwitch_append_singleton]
      · simp [lastSwitch_append_singleton]

theorem reads_of_raise (h : progress.raise flag = .ok next) (hallowed : allowed flag = true)
    (hswitch : flag.takesValue = false) : progress.Reads allowed [flag] false next := by
  obtain ⟨settled, hsettled, hescaped, hpending, hreflects⟩ := exists_settled_of_raise h hswitch
  have hsettles := settles_of_settle hsettled
  have hnothing : next.pending = .nothing := hpending.trans hsettles.pending
  refine ⟨hsettles.settled, by simp [isWaiting, hnothing], hescaped.trans hsettles.escaped, by simpa using hallowed,
    fun before hbefore => ?_⟩
  exact (told_iff hnothing).mpr (hreflects before (hsettles.reflects before hbefore))

theorem reads_of_anyFlag {anyFlag : Bool} (h : Reads allowed { progress with anyFlag := anyFlag } flags waits next) :
    progress.Reads allowed flags waits next := ⟨h.settled, h.waits, h.escaped, h.allowed, h.told⟩

theorem exists_letters (h : progress.takeLetters allowed letters = .ok next) (hne : letters ≠ []) :
    ∃ flags waits, Letters letters flags waits ∧ progress.Reads allowed flags waits next := by
  induction letters generalizing progress with
  | nil => exact absurd rfl hne
  | cons letter rest ih =>
      unfold takeLetters at h
      cases hflag : (Flag.ofShort? letter).filter allowed with
      | none => simp [hflag] at h
      | some flag =>
          obtain ⟨hfound, hallowed⟩ := Option.filter_eq_some_iff.mp hflag
          have hletter := Flag.hasLetter_of_ofShort? hfound
          simp only [hflag] at h
          split at h
          · next hvalue =>
              have hreads := reads_of_anyFlag (reads_of_expect h hallowed hvalue)
              cases rest with
              | nil => exact ⟨[flag], true, hvalue ▸ .last hletter, hreads⟩
              | cons first value => exact ⟨[flag], false, .value hletter hvalue (List.cons_ne_nil _ _), hreads⟩
          · next hvalue =>
              have hswitch : flag.takesValue = false := Bool.eq_false_iff.mpr hvalue
              obtain ⟨middle, hmiddle, hnext⟩ := bind_eq_ok.mp h
              have hreads := reads_of_anyFlag (reads_of_raise hmiddle hallowed hswitch)
              by_cases hrest : rest = []
              · subst hrest
                cases hnext
                exact ⟨[flag], false, hswitch ▸ .last hletter, hreads⟩
              · obtain ⟨flags, waits, hletters, hothers⟩ := ih hnext hrest
                exact ⟨flag :: flags, waits, .switch hletter hswitch hletters, hreads.cons hothers⟩

theorem exists_opens_of_takeName {name : Bytes} {value : Option Bytes}
    (h : progress.takeName allowed name value = .ok next) :
    ∃ flags waits, Opens (dash :: dash :: (name ++ value.elim [] (equals :: ·))) flags waits ∧
      progress.Reads allowed flags waits next := by
  rw [takeName] at h
  cases hflag : (Flag.ofLong? name).filter allowed with
  | none => simp [hflag] at h
  | some flag =>
      obtain ⟨hfound, hallowed⟩ := Option.filter_eq_some_iff.mp hflag
      obtain rfl := Flag.name_of_ofLong? hfound
      simp only [hflag] at h
      split at h
      · next hvalue =>
          have hreads := reads_of_anyFlag (reads_of_expect h hallowed hvalue)
          cases value with
          | none => exact ⟨[flag], true, by simpa [hvalue] using Opens.name flag, hreads⟩
          | some value => exact ⟨[flag], false, .value hvalue value, hreads⟩
      · next hvalue =>
          have hswitch : flag.takesValue = false := Bool.eq_false_iff.mpr hvalue
          cases value with
          | some value => simp at h
          | none =>
              simp only [Option.isSome_none, Bool.false_eq_true, if_false] at h
              exact ⟨[flag], false, by simpa [hswitch] using Opens.name flag,
                reads_of_anyFlag (reads_of_raise h hallowed hswitch)⟩

/-- What is still to come after some words, by the state they have left behind. -/
inductive Continues (progress : Progress) : List Bytes → List Flag → Prop
  | escaped (hescaped : progress.isEscaped = true) (hwaits : progress.isWaiting = false) (words : List Bytes) :
      Continues progress words []
  | waiting {value : Bytes} {words : List Bytes} {flags : List Flag} (hescaped : progress.isEscaped = false)
      (hwaits : progress.isWaiting = true) (hvalue : IsPlain value) (h : Says words flags) :
      Continues progress (value :: words) flags
  | free {words : List Bytes} {flags : List Flag} (hescaped : progress.isEscaped = false)
      (hwaits : progress.isWaiting = false) (h : Says words flags) : Continues progress words flags

variable {plain : Progress → Bytes → Except Refusal Progress}

theorem Continues.of_opens (hescaped : progress.isEscaped = false) (hopens : Opens word flags waits)
    (hreads : progress.Reads allowed flags waits next) (hrest : next.Continues words others) :
    progress.Continues (word :: words) (flags ++ others) := by
  have hnext : next.isEscaped = false := hreads.escaped.trans hescaped
  cases hrest with
  | escaped hnot _ _ => simp [hnext] at hnot
  | waiting _ hwaits hvalue hsays =>
      obtain rfl : true = waits := hwaits.symm.trans hreads.waits
      exact .free hescaped hreads.settled (.valued hopens hvalue hsays)
  | free _ hwaits hsays =>
      obtain rfl : false = waits := hwaits.symm.trans hreads.waits
      exact .free hescaped hreads.settled (.options hopens hsays)

theorem Continues.of_plain (hword : progress.isEscaped = false → IsPlain word)
    (hreads : progress.Reads allowed [] false next) (hrest : next.Continues words others) :
    progress.Continues (word :: words) others := by
  cases hrest with
  | escaped hescaped _ _ => exact .escaped (hreads.escaped.symm.trans hescaped) hreads.settled _
  | waiting _ hwaits _ _ => simp [hreads.waits] at hwaits
  | free hescaped _ hsays =>
      have hfree : progress.isEscaped = false := hreads.escaped.symm.trans hescaped
      exact .free hfree hreads.settled (.plain (hword hfree) hsays)

/-- One word: either it says which options come next, or it ends them, or it says nothing about them. -/
theorem exists_flags_of_take
    (hplain : ∀ {progress word next}, plain progress word = .ok next → progress.Reads allowed [] false next)
    (h : progress.take allowed plain word = .ok next) (hrest : next.Continues words others) :
    ∃ flags, progress.Continues (word :: words) (flags ++ others) ∧ (∀ flag ∈ flags, allowed flag = true) ∧
      ∀ before, progress.Told before → next.Told (before ++ flags) := by
  unfold take at h
  split at h
  · next hescaped =>
      have hreads := hplain h
      exact ⟨[], .of_plain (fun hnot => by simp [hescaped] at hnot) hreads hrest, hreads.allowed, hreads.told⟩
  · next hnot =>
      have hescaped : progress.isEscaped = false := Bool.eq_false_iff.mpr hnot
      have hspells := Word.spells_ofBytes word
      split at h
      · next hword =>
          rw [hword] at hspells
          cases hspells
          cases h
          refine ⟨[], ?_, by simp, fun before hbefore => by rwa [List.append_nil]⟩
          cases hrest with
          | escaped _ hwaits _ => exact .free hescaped hwaits (.escape _)
          | waiting hnext _ _ _ => cases hnext
          | free hnext _ _ => cases hnext
      · next name value hword =>
          rw [hword] at hspells
          cases hspells
          obtain ⟨flags, waits, hopens, hreads⟩ := exists_opens_of_takeName h
          exact ⟨flags, .of_opens hescaped hopens hreads hrest, hreads.allowed, hreads.told⟩
      · next letters hword =>
          rw [hword] at hspells
          obtain ⟨rfl, hne⟩ := hspells
          obtain ⟨flags, waits, hletters, hreads⟩ := exists_letters h hne
          exact ⟨flags, .of_opens hescaped (.letters hletters) hreads hrest, hreads.allowed, hreads.told⟩
      · next hword =>
          rw [hword] at hspells
          split at h
          · next flag hpending =>
              cases h
              refine ⟨[], ?_, by simp, ?_⟩
              · cases hrest with
                | escaped hnext _ _ => exact absurd hnext hnot
                | waiting _ hnext _ _ => cases hnext
                | free _ _ hsays => exact .waiting hescaped (by simp [isWaiting, hpending]) hspells hsays
              · rintro before ⟨settled, rfl, hreflects, hvalue⟩
                rw [hpending] at hvalue ⊢
                exact ⟨settled, by simp [Pending.awaited], hreflects, hvalue⟩
          · have hreads := hplain h
            exact ⟨[], .of_plain (fun _ => hspells) hreads hrest, hreads.allowed, hreads.told⟩

/-- Reading to the end follows the grammar, if words that have nothing to do with options say nothing about them. -/
theorem exists_flags_of_foldlM {final : Progress}
    (hplain : ∀ {progress word next}, plain progress word = .ok next → progress.Reads allowed [] false next)
    (hrun : words.foldlM (take allowed plain) progress = .ok final) (hfinal : final.isWaiting = false) :
    ∃ flags, progress.Continues words flags ∧ (∀ flag ∈ flags, allowed flag = true) ∧
      ∀ before, progress.Told before → final.Told (before ++ flags) := by
  induction words generalizing progress with
  | nil =>
      obtain rfl : progress = final := Except.ok.inj hrun
      refine ⟨[], ?_, by simp, by simp⟩
      cases hescaped : progress.isEscaped with
      | true => exact .escaped hescaped hfinal []
      | false => exact .free hescaped hfinal .nil
  | cons word words ih =>
      rw [List.foldlM_cons] at hrun
      obtain ⟨next, hnext, hrest⟩ := bind_eq_ok.mp hrun
      obtain ⟨others, hothers, hothersAllowed, hothersTold⟩ := ih hrest
      obtain ⟨flags, hcontinues, hallowed, htold⟩ := exists_flags_of_take hplain hnext hothers
      refine ⟨flags ++ others, hcontinues, List.forall_mem_append.mpr ⟨hallowed, hothersAllowed⟩, ?_⟩
      intro before hbefore
      rw [← List.append_assoc]
      exact hothersTold _ (htold before hbefore)

/-- What has been read from the start and settled at the end is what the words say. -/
theorem exists_says_of_foldlM {final settled : Progress}
    (hplain : ∀ {progress word next}, plain progress word = .ok next → progress.Reads allowed [] false next)
    (hrun : words.foldlM (take allowed plain) {} = .ok final) (hsettled : final.settle = .ok settled) :
    ∃ flags, Says words flags ∧ (∀ flag ∈ flags, allowed flag = true) ∧ settled.arguments.Reflects flags := by
  have hsettles := settles_of_settle hsettled
  obtain ⟨flags, hcontinues, hallowed, htold⟩ := exists_flags_of_foldlM hplain hrun hsettles.settled
  refine ⟨flags, ?_, hallowed, ?_⟩
  · cases hcontinues with
    | escaped hnot _ _ => cases hnot
    | waiting _ hnot _ _ => cases hnot
    | free _ _ hsays => exact hsays
  · have hstart : Told {} [] := (told_iff rfl).mpr (.empty (by simp))
    exact hsettles.reflects flags (htold [] hstart)

theorem reads_of_plainOfCompletions (h : plainOfCompletions progress word = .ok next) :
    progress.Reads allowed [] false next := by
  unfold plainOfCompletions at h
  split at h
  · next hpending =>
      cases h
      refine ⟨by simp [isWaiting, hpending], rfl, rfl, by simp, fun before hbefore => ?_⟩
      rw [told_iff hpending] at hbefore
      exact ⟨before, by simp [Pending.awaited], hbefore, by simp [Pending.awaited]⟩
  · cases h

theorem plainOfTop_ne_ok : plainOfTop progress word ≠ .ok next := by
  unfold plainOfTop
  split_ifs <;> simp

variable {invocation : Invocation}

theorem finish_eq_ok (h : progress.finish = .ok invocation) : ∃ settled, progress.settle = .ok settled ∧
    invocation.command = none ∧ invocation.arguments = settled.arguments ∧ hasConflict settled.arguments = false ∧
      settled.arguments.startLabel.isSome = settled.arguments.endLabel.isSome := by
  obtain ⟨settled, hsettled, hrest⟩ := bind_eq_ok.mp h
  dsimp only at hrest
  split_ifs at hrest with hflag hconflict hlabels
  cases hrest
  exact ⟨settled, hsettled, rfl, rfl, by simpa using hconflict, by simpa using hlabels⟩

theorem parseLanguages_eq_ok (h : parseLanguages words = .ok invocation) :
    invocation.arguments = {} ∧ ∃ flags, Says words flags ∧ ∀ flag ∈ flags, flag.isGlobal = true := by
  obtain ⟨final, hfinal, hrest⟩ := bind_eq_ok.mp h
  obtain ⟨settled, hsettled, hnext⟩ := bind_eq_ok.mp hrest
  cases hnext
  obtain ⟨flags, hsays, hallowed, -⟩ := exists_says_of_foldlM (fun h => by cases h) hfinal hsettled
  exact ⟨rfl, flags, hsays, hallowed⟩

theorem parseCompletions_eq_ok (h : parseCompletions words = .ok invocation) :
    invocation.arguments = {} ∧ ∃ flags, Says words flags ∧ ∀ flag ∈ flags, flag.isGlobal = true := by
  obtain ⟨final, hfinal, hrest⟩ := bind_eq_ok.mp h
  obtain ⟨settled, hsettled, hnext⟩ := bind_eq_ok.mp hrest
  obtain ⟨flags, hsays, hallowed, -⟩ := exists_says_of_foldlM reads_of_plainOfCompletions hfinal hsettled
  refine ⟨?_, flags, hsays, hallowed⟩
  split at hnext
  · cases hnext
    rfl
  · cases hnext

theorem parseHelp_ne_ok : parseHelp words ≠ .ok invocation := by
  unfold parseHelp
  split <;> simp

end Progress

namespace Arguments

theorem Coherent.empty : Coherent {} := by constructor <;> simp

/-- Options that may stand behind a subcommand leave the arguments alone. -/
theorem Reflects.of_global (h : ∀ flag ∈ flags, flag.isGlobal = true) : Reflects {} flags :=
  .empty fun flag hflag => by
    have hglobal := h flag hflag
    cases flag <;> cases hglobal <;> simp [Flag.takesValue]

theorem Reflects.coherent (h : arguments.Reflects flags) (hconflict : Progress.hasConflict arguments = false)
    (hlabels : arguments.startLabel.isSome = arguments.endLabel.isSome) : arguments.Coherent := by
  obtain ⟨hline, hsyntaxes⟩ := Bool.or_eq_false_iff.mp hconflict
  refine ⟨fun hset => ?_, by rw [hlabels], fun ⟨hlanguage, hmarker⟩ => ?_, h.not_both⟩
  · rw [hset, Bool.true_and, Bool.or_eq_false_iff] at hline
    exact ⟨Option.isNone_iff_eq_none.mp (by simpa using hline.1), Option.isNone_iff_eq_none.mp (by simpa using hline.2)⟩
  · simp [hlanguage, hmarker] at hsyntaxes

end Arguments

variable {invocation : Invocation}

/-- A command line that is accepted follows the grammar to its end. -/
theorem exists_says_of_parse (h : parse words = .ok invocation) : ∃ flags, Says words flags ∧
    invocation.arguments.Reflects flags ∧ invocation.arguments.Coherent ∧
      (invocation.command.isSome = true → invocation.arguments = {}) := by
  unfold parse at h
  split at h
  · cases h
  · next first rest =>
      split_ifs at h with hlanguages hcompletions hhelp
      · subst hlanguages
        obtain ⟨harguments, flags, hsays, hglobal⟩ := Progress.parseLanguages_eq_ok h
        rw [harguments]
        exact ⟨flags, .plain (by decide) hsays, .of_global hglobal, .empty, fun _ => rfl⟩
      · subst hcompletions
        obtain ⟨harguments, flags, hsays, hglobal⟩ := Progress.parseCompletions_eq_ok h
        rw [harguments]
        exact ⟨flags, .plain (by decide) hsays, .of_global hglobal, .empty, fun _ => rfl⟩
      · exact absurd h Progress.parseHelp_ne_ok
      · obtain ⟨final, hfinal, hfinish⟩ := Progress.bind_eq_ok.mp h
        obtain ⟨settled, hsettled, hcommand, harguments, hconflict, hlabels⟩ := Progress.finish_eq_ok hfinish
        obtain ⟨flags, hsays, -, hreflects⟩ :=
          Progress.exists_says_of_foldlM (fun h => absurd h Progress.plainOfTop_ne_ok) hfinal hsettled
        rw [harguments, hcommand]
        exact ⟨flags, hsays, hreflects, hreflects.coherent hconflict hlabels, fun h => nomatch h⟩

/-- An accepted command line is coherent. Its words can be read in one way only, an argument is there if and only if its
option is, and the last switch for dry runs decides, the settings being consulted only where there is none. -/
theorem parse_coherent (h : parse words = .ok invocation) :
    invocation.arguments.Coherent ∧ (invocation.command.isSome = true → invocation.arguments = {}) ∧
      (∃! flags, Says words flags) ∧ ∀ flags, Says words flags →
        (∀ flag, flag.takesValue = true → (Progress.isGiven invocation.arguments flag = true ↔ flag ∈ flags)) ∧
          ∀ configured, invocation.arguments.isDryRun configured =
            (lastSwitch flags).elim configured fun switch => switch = .dryRun := by
  obtain ⟨flags, hsays, hreflects, hcoherent, hcommand⟩ := exists_says_of_parse h
  refine ⟨hcoherent, hcommand, ⟨flags, hsays, fun other hother => hother.unique hsays⟩, fun other hother => ?_⟩
  obtain rfl := hsays.unique hother
  exact ⟨hreflects.given, hreflects.isDryRun_eq⟩

theorem parse_coherent_cluster :
    let words := ["-vdf=a.rs", "--no-dry-run", "-m", ";;", "-dv", "-s--no-dry-run", "--end-label=-d"].map fun word =>
      Utf8.encode word.toList
    ∃ invocation, parse words = .ok invocation ∧ invocation.arguments.Coherent ∧
      ∀ configured, invocation.arguments.isDryRun configured = true := by
  intro words
  let arguments : Arguments := { file := some "a.rs", startLabel := some "--no-dry-run", endLabel := some "-d",
                                 marker := some ";;", dryRun := true }
  have hparse : parse words = .ok { arguments, verbosity := 2 } := by decide +kernel
  obtain ⟨hcoherent, -, -, hflags⟩ := parse_coherent hparse
  have hcluster : Opens (Utf8.encode "-vdf=a.rs".toList) [.verbose, .dryRun, .file] false :=
    .letters (.switch (by decide) rfl (.switch (by decide) rfl (.value (by decide) rfl (by decide))))
  have hmarker : Opens (Utf8.encode "-m".toList) [.marker] true :=
    .letters (.last (by decide : Flag.marker.HasLetter 0x6d))
  have hlast : Opens (Utf8.encode "-dv".toList) [.dryRun, .verbose] false :=
    .letters (.switch (by decide) rfl (.last (by decide : Flag.verbose.HasLetter 0x76)))
  have hstart : Opens (Utf8.encode "-s--no-dry-run".toList) [.startLabel] false :=
    .letters (.value (by decide) rfl (by decide))
  have hend : Opens (Utf8.encode "--end-label=-d".toList) [.endLabel] false :=
    Opens.value (by decide : Flag.endLabel.takesValue = true) (Utf8.encode "-d".toList)
  have hsays : Says words [.verbose, .dryRun, .file, .noDryRun, .marker, .dryRun, .verbose, .startLabel, .endLabel] :=
    .options hcluster (.options (.name .noDryRun) (.valued hmarker (by decide) (.options hlast (.options hstart
      (.options hend .nil)))))
  exact ⟨_, hparse, hcoherent, (hflags _ hsays).2⟩

end LineComment.CommandLine
