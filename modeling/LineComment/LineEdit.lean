import LineComment.Error
import LineComment.Text

/-! A marker is what turns a line into a comment: a token in front of the line, or a pair of tokens around it. The
actions add and remove it. Lines are bytes, and a marker stands for the bytes of its tokens; whether a line is a
comment is decided by those bytes alone, so a string literal that starts with the marker counts as one. A line from
which nothing can be removed is left as it is. -/

namespace LineComment

/-- The comment syntax of a language. -/
inductive Marker where
  | simple (token : String)
  | paired (opening closing : String)
  deriving DecidableEq, Repr

namespace Marker

def parse (text : String) : Except Error Marker :=
  match Text.words text.toList with
  | [token] => .ok (simple (String.ofList token))
  | [opening, closing] => .ok (paired (String.ofList opening) (String.ofList closing))
  | _ => .error (.invalidMarker text)

def print : Marker → String
  | simple token => token
  | paired opening closing => opening ++ " " ++ closing

end Marker

inductive Action where
  | comment
  | uncomment
  | toggle
  deriving DecidableEq, Repr

namespace Action

instance : Inhabited Action := ⟨toggle⟩

def name : Action → String
  | comment => "comment"
  | uncomment => "uncomment"
  | toggle => "toggle"

def ofName? (name : String) : Option Action :=
  [comment, uncomment, toggle].find? fun action => action.name == name

/-- Reads an action in any ASCII case and with blanks around it. A blank text means toggling. -/
def parse (text : String) : Except Error Action :=
  let word := Text.lowercase (String.ofList (Text.trim text.toList))
  if word = "" then .ok toggle
  else match ofName? word with
    | some action => .ok action
    | none => .error (.invalidAction word)

end Action

namespace Marker

def bytes (token : String) : Bytes := Utf8.encode token.toList

/-- Adds the marker and a space on the inner side of each token. -/
def comment (marker : Marker) (line : Bytes) : Bytes :=
  match marker with
  | simple token => bytes token ++ Bytes.space :: line
  | paired opening closing => bytes opening ++ Bytes.space :: line ++ Bytes.space :: bytes closing

/-- What stands between two delimiters that a text starts and ends with and that do not overlap in it. -/
def body? (opening closing text : Bytes) : Option Bytes :=
  if text.length < opening.length + closing.length then none
  else do closing.isSuffixOf? (← opening.isPrefixOf? text)

/-- Whether a line carries the marker, blanks around it aside. -/
def isCommented (marker : Marker) (line : Bytes) : Bool :=
  match marker with
  | simple token => (bytes token).isPrefixOf line.trimStart
  | paired opening closing => (body? (bytes opening) (bytes closing) line.trim).isSome

/-- Removes the marker and one space on the inner side of each token, and keeps the blanks around them. -/
def uncomment (marker : Marker) (line : Bytes) : Bytes :=
  match marker with
  | simple token =>
    match (bytes token).isPrefixOf? line.trimStart with
    | some rest => line.leading ++ Bytes.dropSpace rest
    | none => line
  | paired opening closing =>
    match body? (bytes opening) (bytes closing) line.trim with
    | some body => line.leading ++ Bytes.dropLastSpace (Bytes.dropSpace body) ++ line.trailing
    | none => line

def toggle (marker : Marker) (line : Bytes) : Bytes :=
  if marker.isCommented line then marker.uncomment line else marker.comment line

end Marker

def Action.apply (action : Action) (marker : Marker) (line : Bytes) : Bytes :=
  match action with
  | comment => marker.comment line
  | uncomment => marker.uncomment line
  | toggle => marker.toggle line

end LineComment
