import LineComment.Toml.Number

/-! Reading a TOML document: first into the lines it is made of, which are keys with values and headers, and
then these into one table. A key may be given once only, and a table only by one header. -/

namespace LineComment.Toml

/-- A value under a dotted key, given as the keys on the way and the last one. -/
structure Assignment where
  way : List String
  last : String
  value : Value
  deriving Repr

/-- A header with the assignments under it. In double brackets it opens one of several tables. -/
structure Section where
  isItem : Bool
  way : List String
  last : String
  assignments : List Assignment
  deriving Repr

/-- How deep values may be nested, and how many keys a dotted key may have. -/
def maxDepth : Nat := 79

def isKeyChar (c : Char) : Bool := c.isAlphanum || c == '_' || c == '-'

def Entries.assign (entries : Entries) : List Assignment → Option Entries
  | [] => some entries
  | ⟨way, last, value⟩ :: rest => do assign (← entries.addValue way last value) rest

/-- Adds a section to the table of a document. A header may open a table that so far was only on the way to
others, and one more of several tables. -/
def Entries.addSection (root : Entries) (part : Section) : Option Entries :=
  root.alter part.way part.last fun old =>
    match part.isItem, old with
    | false, none => (Entries.assign [] part.assignments).map (.table .header)
    | false, some (.table .implied entries) => (Entries.assign entries part.assignments).map (.table .header)
    | true, none => (Entries.assign [] part.assignments).map fun item => .tables [item]
    | true, some (.tables items) =>
      (Entries.assign [] part.assignments).map fun item => .tables (items ++ [item])
    | _, _ => none

namespace Scanner

def simpleKey : Scanner String :=
  String.ofList <$> (basicString <|> literalString <|> takeWhile1 isKeyChar)

/-- Reads a dotted key; gives the keys on the way and the last one. -/
def key : Scanner (List String × String) := do
  let keys ← separated1 '.' (blanks *> simpleKey <* blanks)
  guard (keys.length ≤ maxDepth)
  match keys.getLast? with
  | some last => return (keys.dropLast, last)
  | none => failure

/-- Reads a value that holds no other values. -/
def scalar : Scanner Value :=
  (fun text => .string (String.ofList text)) <$> quoted
    <|> .datetime <$> datetime
    <|> .float <$> decimalFloat
    <|> .integer <$> integer
    <|> .float <$> specialFloat
    <|> (word "true" *> pure (.boolean true))
    <|> (word "false" *> pure (.boolean false))

def assignment (value : Scanner Value) : Scanner Assignment := do
  let (way, last) ← key
  char '='
  blanks
  return ⟨way, last, ← value⟩

/-- Reads a value in which others are nested no deeper than `depth`. -/
def value : Nat → Scanner Value
  | 0 => scalar
  | depth + 1 => scalar <|> array (value depth) <|> inlineTable (value depth)
where
  array (value : Scanner Value) : Scanner Value := do
    char '['
    let items ← separated ',' (gap *> value <* gap)
    if items ≠ [] then discard (optional (char ','))
    gap
    char ']'
    return .array items
  inlineTable (value : Scanner Value) : Scanner Value := do
    char '\x7b'
    let assignments ← separated ',' (assignment value <* blanks)
    blanks
    char '\x7d'
    match Entries.assign [] assignments with
    | some entries => return .table .inline entries
    | none => failure

/-- Reads a line, which may be empty but for a comment. -/
def line : Scanner (Option Assignment) := do
  blanks
  let statement ← optional (assignment (value maxDepth))
  lineEnd
  return statement

def lines : Scanner (List Assignment) := do return (← many line).filterMap id

/-- Reads a header; gives whether it opens one of several tables, and its keys. -/
def header : Scanner (Bool × List String × String) :=
  (word "[[" *> (fun keys => (true, keys)) <$> key <* word "]]")
    <|> (char '[' *> (fun keys => (false, keys)) <$> key <* char ']')

def headed : Scanner Section := do
  blanks
  let (isItem, way, last) ← header
  lineEnd
  return ⟨isItem, way, last, ← lines⟩

/-- Reads a document, which may start with a byte order mark. -/
def document : Scanner (List Assignment × List Section) := do
  discard (optional (char '\ufeff'))
  let top ← lines
  let sections ← many headed
  finish
  return (top, sections)

end Scanner

def parse (text : List Char) : Option Entries := do
  let ((top, sections), _) ← Scanner.document.run text
  sections.foldlM Entries.addSection (← Entries.assign [] top)

end LineComment.Toml
