import LineComment.Toml.Quoted
import LineComment.Toml.Value

/-! Numbers, dates and times in TOML. Underscores may stand between digits. Integers lie in the signed 64-bit range,
and a float must not be so large that the nearest binary float is positive infinity. The days are those of the
Gregorian calendar, and a minute may have a leap second. -/

namespace LineComment.Toml

namespace Scanner

/-- Reads digits of a class with single underscores between them, and drops the underscores. -/
def digits (isDigit : Char → Bool) : Scanner (List Char) := do
  let first ← satisfy isDigit
  return first :: (← many (satisfy isDigit <|> (char '_' *> satisfy isDigit)))

/-- Reads a sign, if there is one; gives whether it is a minus. -/
def sign : Scanner Bool := (char '-' *> pure true) <|> (char '+' *> pure false) <|> pure false

/-- Reads decimal digits without a leading zero, unless they are a zero alone. -/
def plainDigits : Scanner (List Char) := do
  match ← satisfy Char.isDigit with
  | '0' => return ['0']
  | first => return first :: (← many (satisfy Char.isDigit <|> (char '_' *> satisfy Char.isDigit)))

/-- The least number too large for an integer; with a minus it is the least integer. -/
def integerLimit : Nat := 0x8000000000000000

def decimal : Scanner Int := do
  let negative ← sign
  let value := numeralValue 10 (← plainDigits)
  guard (if negative then value ≤ integerLimit else value < integerLimit)
  return if negative then -(value : Int) else value

/-- Reads an integer written with the digits of a base behind a mark. -/
def based (mark : String) (base : Nat) (isDigit : Char → Bool) : Scanner Int := do
  word mark
  let value := numeralValue base (← digits isDigit)
  guard (value < integerLimit)
  return value

def integer : Scanner Int :=
  based "0x" 16 (fun c => (hexDigit? c).isSome)
    <|> based "0o" 8 (fun c => '0' ≤ c && c ≤ '7')
    <|> based "0b" 2 (fun c => c == '0' || c == '1')
    <|> decimal

/-- The least number that is rounded to infinity: half a unit above the greatest finite binary float. -/
def floatLimit : Nat := Nat.pow 2 1024 - Nat.pow 2 970

/-- Whether digits, taken as an integer and times a power of ten, stay below the limit for floats. -/
def isFinite (digits : List Char) (exponent : Int) : Bool :=
  let significant := digits.dropWhile (· == '0')
  let magnitude := (significant.length : Int) + exponent
  if significant = [] ∨ magnitude < 309 then true
  else if 309 < magnitude then false
  else if exponent < 0 then numeralValue 10 significant < floatLimit * Nat.pow 10 (-exponent).toNat
  else numeralValue 10 significant * Nat.pow 10 exponent.toNat < floatLimit

def exponent : Scanner Int := do
  discard (satisfy fun c => c == 'e' || c == 'E')
  let negative ← sign
  let value := numeralValue 10 (← digits Char.isDigit)
  return if negative then -(value : Int) else value

/-- Reads a float that is written with digits, and gives it without underscores. -/
def decimalFloat : Scanner String := do
  let negative ← sign
  let whole ← plainDigits
  let part ← optional (char '.' *> digits Char.isDigit)
  let power ← if part.isSome then optional exponent else some <$> exponent
  let part := part.getD []
  guard (negative ∨ isFinite (whole ++ part) (power.getD 0 - part.length))
  return (if negative then "-" else "") ++ String.ofList (whole ++ '.' :: part) ++ "e" ++ (power.getD 0).repr

/-- Reads a float that is no finite number. -/
def specialFloat : Scanner String := do
  let mark := if ← sign then "-" else ""
  (word "inf" *> pure (mark ++ "inf")) <|> (word "nan" *> pure (mark ++ "nan"))

end Scanner

def daysInMonth (year month : Nat) : Nat :=
  if month = 2 then
    if (year % 4 = 0 ∧ year % 100 ≠ 0) ∨ year % 400 = 0 then 29 else 28
  else if month = 4 ∨ month = 6 ∨ month = 9 ∨ month = 11 then 30 else 31

namespace Scanner

/-- Reads a number of exactly `count` digits between two bounds; gives its text. -/
def field (count low high : Nat) : Scanner (List Char) := do
  let text ← exactly count Char.isDigit
  guard (low ≤ numeralValue 10 text ∧ numeralValue 10 text ≤ high)
  return text

def date : Scanner (List Char) := do
  let year ← field 4 0 9999
  char '-'
  let month ← field 2 1 12
  char '-'
  let day ← field 2 1 (daysInMonth (numeralValue 10 year) (numeralValue 10 month))
  return year ++ '-' :: month ++ '-' :: day

def time : Scanner (List Char) := do
  let hour ← field 2 0 23
  char ':'
  let minute ← field 2 0 59
  char ':'
  let second ← field 2 0 60
  let fraction ← optional (char '.' *> takeWhile1 Char.isDigit)
  return hour ++ ':' :: minute ++ ':' :: second ++ (fraction.map ('.' :: ·)).getD []

/-- Reads the distance from universal time. -/
def offset : Scanner (List Char) :=
  (satisfy (fun c => c == 'Z' || c == 'z') *> pure ['Z']) <|> do
    let mark ← satisfy fun c => c == '+' || c == '-'
    let hour ← field 2 0 23
    char ':'
    return mark :: hour ++ ':' :: (← field 2 0 59)

/-- Reads what follows a date to make it a point in time. -/
def timeOfDate : Scanner (List Char) := do
  discard (satisfy fun c => c == 'T' || c == 't' || c == ' ')
  let time ← time
  return 'T' :: time ++ ((← optional offset).getD [])

def datetime : Scanner String :=
  (do let date ← date
      return String.ofList (date ++ ((← optional timeOfDate).getD [])))
    <|> String.ofList <$> time

end Scanner

end LineComment.Toml
