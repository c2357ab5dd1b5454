/-! Texts as lists of characters. Blanks are the characters with the Unicode property White_Space: around a marker,
a range or a target they carry no meaning, and between the tokens of a marker they separate. Numerals are written
with ASCII digits. -/

namespace LineComment.Text

/-- The intervals of code points with the property White_Space. -/
def blankIntervals : List (Nat × Nat) :=
  [(0x09, 0x0d), (0x20, 0x20), (0x85, 0x85), (0xa0, 0xa0), (0x1680, 0x1680), (0x2000, 0x200a),
   (0x2028, 0x2029), (0x202f, 0x202f), (0x205f, 0x205f), (0x3000, 0x3000)]

def isBlank (c : Char) : Bool :=
  blankIntervals.any fun (low, high) => low ≤ c.toNat && c.toNat ≤ high

def trimStart (text : List Char) : List Char := text.dropWhile isBlank

def trimEnd (text : List Char) : List Char := (text.reverse.dropWhile isBlank).reverse

def trim (text : List Char) : List Char := trimEnd (trimStart text)

/-- The longest runs of characters that are not blank, in order. -/
def words (text : List Char) : List (List Char) :=
  (text.splitOnP isBlank).filter fun word => !word.isEmpty

def isAllBlank (text : List Char) : Bool := text.all isBlank

/-- A text with the letters A to Z in lower case and every other character as it is. -/
def lowercase (text : String) : String := String.ofList (text.toList.map Char.toLower)

def digit? (c : Char) : Option Nat := if c.isDigit then some (c.toNat - '0'.toNat) else none

/-- The value of a run of digits, read after digits of the value `value`. -/
def digitsValue (value : Nat) : List Char → Option Nat
  | [] => some value
  | c :: rest => do digitsValue (value * 10 + (← digit? c)) rest

/-- The greatest line number, which takes up 64 bits. -/
def maxLine : Nat := 0xffffffffffffffff

/-- The value of a numeral: one or more digits, after one plus sign if there is one, with a value that
is no more than `maxLine`. Leading zeros are allowed. -/
def numeral? (text : List Char) : Option Nat := do
  let digits := match text with
    | '+' :: rest => rest
    | _ => text
  guard !digits.isEmpty
  let value ← digitsValue 0 digits
  guard (value ≤ maxLine)
  return value

/-- Whether `needle` stands somewhere in a list, its members one right after the other. -/
def occursIn {α : Type} [BEq α] (needle : List α) : List α → Bool
  | [] => needle.isEmpty
  | a :: rest => needle.isPrefixOf (a :: rest) || occursIn needle rest

/-- What stands before and after the last `separator` of a list, if it has one. -/
def splitLast? {α : Type} [BEq α] (separator : α) (list : List α) : Option (List α × List α) :=
  match list.reverse.dropWhile (· != separator) with
  | [] => none
  | _ :: before => some (before.reverse, (list.reverse.takeWhile (· != separator)).reverse)

end LineComment.Text
