/-! Readers of a text from left to right: each takes some characters off the front or refuses. The first ones after the
general ones take what stands between the tokens of a TOML document: blanks, ends of lines and comments. -/

namespace LineComment.Toml

/-- A reader, which gives a value and the characters it left, or refuses. -/
abbrev Scanner (α : Type) := StateT (List Char) Option α

namespace Scanner

def satisfy (p : Char → Bool) : Scanner Char := fun
  | c :: rest => if p c then some (c, rest) else none
  | [] => none

def char (c : Char) : Scanner Unit := discard (satisfy (· == c))

def takeWhile (p : Char → Bool) : Scanner (List Char) := fun text =>
  some (text.takeWhile p, text.dropWhile p)

def takeWhile1 (p : Char → Bool) : Scanner (List Char) := do
  let taken ← takeWhile p
  guard (taken ≠ [])
  return taken

/-- Takes exactly `count` characters of a class. -/
def exactly (count : Nat) (p : Char → Bool) : Scanner (List Char) := fun text =>
  if (text.take count).length = count ∧ (text.take count).all p then
    some (text.take count, text.drop count)
  else none

def word (expected : String) : Scanner Unit := fun text =>
  (expected.toList.isPrefixOf? text).map fun rest => ((), rest)

def finish : Scanner Unit := fun text => if text = [] then some ((), []) else none

def optional {α : Type} (scanner : Scanner α) : Scanner (Option α) :=
  (some <$> scanner) <|> pure none

/-- Reads something as often as it is there. It has to take a character each time. -/
def manyFrom {α : Type} (scanner : Scanner α) (text : List Char) : List α × List Char :=
  match scanner text with
  | none => ([], text)
  | some (value, rest) =>
    if rest.length < text.length then
      ((value :: (manyFrom scanner rest).1), (manyFrom scanner rest).2)
    else ([], text)
  termination_by text.length

def many {α : Type} (scanner : Scanner α) : Scanner (List α) := fun text => some (manyFrom scanner text)

/-- Reads something once or more often, with a character in between. -/
def separated1 {α : Type} (separator : Char) (scanner : Scanner α) : Scanner (List α) := do
  let first ← scanner
  return first :: (← many (char separator *> scanner))

def separated {α : Type} (separator : Char) (scanner : Scanner α) : Scanner (List α) :=
  separated1 separator scanner <|> pure []

end Scanner

def isBlank (c : Char) : Bool := c == ' ' || c == '\t'

/-- A character that may stand in a comment: a tab or anything that is no ASCII control character. -/
def isPrintable (c : Char) : Bool := c == '\t' || (0x20 ≤ c.toNat && c.toNat ≠ 0x7f)

namespace Scanner

def blanks : Scanner Unit := discard (takeWhile isBlank)

/-- Takes a line feed, with a carriage return before it if there is one. -/
def newline : Scanner Unit := word "\n" <|> word "\r\n"

def comment : Scanner Unit := do
  char '#'
  discard (takeWhile isPrintable)

/-- Takes what may stand behind the last token of a line, and the end of the line. -/
def lineEnd : Scanner Unit := do
  blanks
  discard (optional comment)
  newline <|> finish

/-- Takes what may stand between the items of an array. -/
def gap : Scanner Unit :=
  discard (many (discard (takeWhile1 isBlank) <|> (do discard (optional comment); newline)))

end Scanner

end LineComment.Toml
