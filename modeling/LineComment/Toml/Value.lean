/-! The values of a TOML document. A table remembers how it was written, because that decides what may still
be added to it. -/

namespace LineComment.Toml

/-- How a table was written: in braces, so that nothing may be added to it, under a header of its own, or on the way to
some other header or to the last key of a dotted key. -/
inductive Origin where
  | inline
  | header
  | implied
  | dotted
  deriving DecidableEq, Repr

/-- A TOML value. Floats and dates are kept as they were written. The tables under headers in double brackets are kept
together. -/
inductive Value where
  | string (text : String)
  | integer (number : Int)
  | float (literal : String)
  | boolean (value : Bool)
  | datetime (literal : String)
  | array (items : List Value)
  | tables (items : List (List (String × Value)))
  | table (origin : Origin) (entries : List (String × Value))
  deriving Repr, Inhabited

abbrev Entries := List (String × Value)

namespace Value

def string? : Value → Option String
  | string text => some text
  | _ => none

def boolean? : Value → Option Bool
  | boolean value => some value
  | _ => none

/-- The items of an array, however it was written. -/
def items? : Value → Option (List Value)
  | array items => some items
  | tables items => some (items.map (table .header))
  | _ => none

def entries? : Value → Option Entries
  | table _ entries => some entries
  | _ => none

end Value

namespace Entries

/-- Puts a value under a key, in place of the one that is there. -/
def put (entries : Entries) (key : String) (value : Value) : Entries :=
  if entries.any (·.1 == key) then
    entries.map fun item => if item.1 = key then (key, value) else item
  else entries ++ [(key, value)]

/-- Adds a value under a dotted key, given as the keys on the way and the last one. The way may lead through
tables written by dotted keys, and, if it makes a new table behind them, through the tables on the way to a
header and the last of several tables. -/
def addValue (entries : Entries) (way : List String) (last : String) (value : Value) : Option Entries :=
  match way with
  | [] => if (entries.lookup last).isSome then none else some (entries.put last value)
  | key :: rest =>
    match entries.lookup key with
    | none => do return entries.put key (.table .dotted (← addValue [] rest last value))
    | some (.table .dotted inner) => do
      return entries.put key (.table .dotted (← addValue inner rest last value))
    | some (.table .implied inner) => do
      guard (rest ≠ [])
      return entries.put key (.table .implied (← addValue inner rest last value))
    | some (.tables items) => do
      guard (rest ≠ [])
      return entries.put key (.tables (items.dropLast ++ [← addValue (← items.getLast?) rest last value]))
    | some _ => none

/-- Changes what stands under the last key of a header's path. Tables on the way are made where they are
missing; of several tables the last one is taken. -/
def alter (entries : Entries) (way : List String) (last : String) (f : Option Value → Option Value) :
    Option Entries :=
  match way with
  | [] => do return entries.put last (← f (entries.lookup last))
  | key :: rest =>
    match entries.lookup key with
    | none => do return entries.put key (.table .implied (← alter [] rest last f))
    | some (.table .inline _) => none
    | some (.table origin inner) => do return entries.put key (.table origin (← alter inner rest last f))
    | some (.tables items) => do
      return entries.put key (.tables (items.dropLast ++ [← alter (← items.getLast?) rest last f]))
    | some _ => none

end Entries

end LineComment.Toml
