import LineComment.Toml.Scanner

/-! Strings in TOML: in double quotes with escapes or in single quotes without, on one line or, with three
quotes on each side, on several. A line end in a string counts as a line feed. -/

namespace LineComment.Toml

def hexDigit? (c : Char) : Option Nat :=
  if c.isDigit then some (c.toNat - '0'.toNat)
  else if 'a' ≤ c ∧ c ≤ 'f' then some (c.toNat - 'a'.toNat + 10)
  else if 'A' ≤ c ∧ c ≤ 'F' then some (c.toNat - 'A'.toNat + 10)
  else none

def numeralValue (base : Nat) (digits : List Char) : Nat :=
  digits.foldl (fun value c => value * base + (hexDigit? c).getD 0) 0

namespace Scanner

/-- Reads the code point of an escape with `count` hexadecimal digits. -/
def codePoint (count : Nat) : Scanner Char := do
  let value := numeralValue 16 (← exactly count fun c => (hexDigit? c).isSome)
  if value.isValidChar then return Char.ofNat value else failure

/-- Reads what a backslash stands in front of. -/
def escaped : Scanner Char := do
  match ← satisfy fun _ => true with
  | 'b' => return '\x08'
  | 't' => return '\t'
  | 'n' => return '\n'
  | 'f' => return '\x0c'
  | 'r' => return '\r'
  | '"' => return '"'
  | '\\' => return '\\'
  | 'u' => codePoint 4
  | 'U' => codePoint 8
  | _ => failure

/-- Reads a character of a string in double quotes. -/
def basicChar : Scanner Char :=
  satisfy (fun c => isPrintable c && c != '"' && c != '\\') <|> (char '\\' *> escaped)

/-- Reads a character of a string in single quotes. -/
def literalChar : Scanner Char := satisfy fun c => isPrintable c && c != '\''

def basicString : Scanner (List Char) := char '"' *> many basicChar <* char '"'

def literalString : Scanner (List Char) := char '\'' *> many literalChar <* char '\''

/-- Takes a backslash at the end of a line, with all blanks and line ends behind it. -/
def continuation : Scanner Unit := do
  char '\\'
  blanks
  newline
  discard (many (discard (takeWhile1 isBlank) <|> newline))

/-- Reads one or two quotes, which do not end a string of several lines. -/
def innerQuotes (quote : Char) : Scanner (List Char) := do
  let quotes ← takeWhile1 (· == quote)
  guard (quotes.length < 3)
  return quotes

/-- Reads the end of a string of several lines. Up to two more quotes in front of it belong to the string. -/
def closingQuotes (quote : Char) : Scanner (List Char) := do
  let quotes ← takeWhile1 (· == quote)
  guard (3 ≤ quotes.length ∧ quotes.length ≤ 5)
  return quotes.drop 3

/-- Reads a string of several lines, whose content is made of the given pieces and of quotes. A line end
right behind the opening quotes is skipped. -/
def multiline (quote : Char) (piece : Scanner (List Char)) : Scanner (List Char) := do
  word (String.ofList [quote, quote, quote])
  discard (optional newline)
  let pieces ← many (piece <|> (newline *> pure ['\n']) <|> innerQuotes quote)
  return pieces.flatten ++ (← closingQuotes quote)

def quoted : Scanner (List Char) :=
  multiline '"' ((continuation *> pure []) <|> (fun c => [c]) <$> basicChar)
    <|> multiline '\'' ((fun c => [c]) <$> literalChar)
    <|> basicString <|> literalString

end Scanner

end LineComment.Toml
