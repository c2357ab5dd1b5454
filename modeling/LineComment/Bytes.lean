/-! Lines and files are raw bytes. The blanks cut off here are the five ASCII blanks, vertical tab not among them, so
that no byte of another encoding is ever taken for one. An input is cut after each line feed. A line's end is the
line feed and a carriage return right before it; the last line may lack an end, and is given a line feed when it is
written. -/

namespace LineComment

abbrev Bytes := List UInt8

namespace Bytes

def lineFeed : UInt8 := 0x0a

def carriageReturn : UInt8 := 0x0d

/-- The byte put between a marker and the line. -/
def space : UInt8 := 0x20

/-- Space, tab, line feed, form feed and carriage return. -/
def isBlank (b : UInt8) : Bool :=
  b == space || b == 0x09 || b == lineFeed || b == 0x0c || b == carriageReturn

def leading (line : Bytes) : Bytes := line.takeWhile isBlank

def trailing (line : Bytes) : Bytes := (line.reverse.takeWhile isBlank).reverse

def trimStart (line : Bytes) : Bytes := line.dropWhile isBlank

def trimEnd (line : Bytes) : Bytes := (line.reverse.dropWhile isBlank).reverse

def trim (line : Bytes) : Bytes := line.trimStart.trimEnd

def dropSpace : Bytes → Bytes
  | [] => []
  | b :: rest => if b = space then rest else b :: rest

def dropLastSpace (line : Bytes) : Bytes := (dropSpace line.reverse).reverse

theorem leading_append_trimStart (line : Bytes) : line.leading ++ line.trimStart = line :=
  List.takeWhile_append_dropWhile

theorem trimEnd_append_trailing (line : Bytes) : line.trimEnd ++ line.trailing = line := by
  rw [trimEnd, trailing, ← List.reverse_append, List.takeWhile_append_dropWhile, List.reverse_reverse]

end Bytes

/-- A line and the bytes that end it. -/
structure Line where
  content : Bytes
  ending : Bytes
  deriving DecidableEq, Repr

namespace Line

/-- A raw line, which has a line feed at most at its end, taken apart. -/
def ofRaw (raw : Bytes) : Line :=
  match [Bytes.carriageReturn, Bytes.lineFeed].isSuffixOf? raw with
  | some content => ⟨content, [Bytes.carriageReturn, Bytes.lineFeed]⟩
  | none =>
    match [Bytes.lineFeed].isSuffixOf? raw with
    | some content => ⟨content, [Bytes.lineFeed]⟩
    | none => ⟨raw, [Bytes.lineFeed]⟩

/-- The raw lines of an input that end with a line feed. -/
def terminated (input : Bytes) : List Bytes :=
  (input.splitOn Bytes.lineFeed).dropLast.map (· ++ [Bytes.lineFeed])

/-- What stands after the last line feed of an input. -/
def unterminated (input : Bytes) : Bytes := ((input.splitOn Bytes.lineFeed).getLast?).getD []

/-- The raw lines of an input; what stands after the last line feed is one too, unless it is empty. -/
def raw (input : Bytes) : List Bytes :=
  terminated input ++ if unterminated input = [] then [] else [unterminated input]

end Line

end LineComment
