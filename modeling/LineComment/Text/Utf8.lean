import LineComment.Bytes

/-! UTF-8 in both directions. Decoding goes byte by byte: between bytes it knows how many bytes the
character under way still needs and the interval the next one must lie in. A byte outside its interval
closes the ill-formed run before it, and is then read as the start of something new, so each longest
ill-formed run is reported once and never takes a byte of the character that follows. -/

namespace LineComment.Utf8

def encodeOne (c : Char) : Bytes := String.utf8EncodeChar c

def encode (text : List Char) : Bytes := text.flatMap encodeOne

/-- A character under way: how many bytes it needs after the next one, between which values that one must lie, and the
bits read so far. -/
structure Unfinished where
  later : Nat
  low : UInt8
  high : UInt8
  bits : Nat
  deriving DecidableEq, Repr

/-- What a byte does. -/
inductive Reading where
  | complete (c : Char)
  | more (rest : Unfinished)
  | refused
  deriving DecidableEq, Repr

/-- A byte read as the first of a character. The intervals leave out overlong forms, surrogates and
everything above the last code point. -/
def lead (b : UInt8) : Reading :=
  if b < 0x80 then .complete (Char.ofNat b.toNat)
  else if b < 0xc2 then .refused
  else if b < 0xe0 then .more ⟨0, 0x80, 0xbf, b.toNat - 0xc0⟩
  else if b = 0xe0 then .more ⟨1, 0xa0, 0xbf, 0⟩
  else if b = 0xed then .more ⟨1, 0x80, 0x9f, 0xd⟩
  else if b < 0xf0 then .more ⟨1, 0x80, 0xbf, b.toNat - 0xe0⟩
  else if b = 0xf0 then .more ⟨2, 0x90, 0xbf, 0⟩
  else if b < 0xf4 then .more ⟨2, 0x80, 0xbf, b.toNat - 0xf0⟩
  else if b = 0xf4 then .more ⟨2, 0x80, 0x8f, 4⟩
  else .refused

/-- A byte read as the next of a character under way. -/
def Unfinished.next (u : Unfinished) (b : UInt8) : Reading :=
  if u.low ≤ b ∧ b ≤ u.high then
    let bits := u.bits * 64 + (b.toNat - 0x80)
    match u.later with
    | 0 => .complete (Char.ofNat bits)
    | later + 1 => .more ⟨later, 0x80, 0xbf, bits⟩
  else .refused

/-- What a first byte yields: a character or the mark of an ill-formed run, and what it leaves open. -/
def start (b : UInt8) : List (Option Char) × Option Unfinished :=
  match lead b with
  | .complete c => ([some c], none)
  | .more u => ([], some u)
  | .refused => ([none], none)

def feed (pending : Option Unfinished) (b : UInt8) : List (Option Char) × Option Unfinished :=
  match pending with
  | none => start b
  | some u =>
    match u.next b with
    | .complete c => ([some c], none)
    | .more u => ([], some u)
    | .refused => (none :: (start b).1, (start b).2)

/-- The characters of a run of bytes, with `none` for each longest ill-formed run, from a point where
`pending` is under way. -/
def unitsFrom : Option Unfinished → Bytes → List (Option Char)
  | none, [] => []
  | some _, [] => [none]
  | pending, b :: rest => (feed pending b).1 ++ unitsFrom (feed pending b).2 rest

def units (bytes : Bytes) : List (Option Char) := unitsFrom none bytes

/-- The text of a run of bytes, U+FFFD standing for each longest ill-formed run. -/
def lossy (bytes : Bytes) : List Char := (units bytes).map fun unit => unit.getD '\ufffd'

def decode? (bytes : Bytes) : Option (List Char) := (units bytes).mapM id

def isValid (bytes : Bytes) : Bool := (units bytes).all Option.isSome

end LineComment.Utf8
