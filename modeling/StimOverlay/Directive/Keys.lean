import StimOverlay.Numeric.Numeral
import StimOverlay.Text.Pieces

/-! The keys of a directive. A directive body is a sequence of items, each a bare word or an
assignment `KEY=value`; keys and words are upper-cased. A value is bare, quoted, or parenthesized,
the parentheses being part of it. -/

namespace StimOverlay.Directive

open Numeric

inductive Item where
  | word (name : List Char)
  | assignment (key value : List Char)
deriving DecidableEq

def Item.key : Item → String
  | word name => String.ofList name
  | assignment key _ => String.ofList key

/-- Reads the value at the start of a text: the value, and how many characters it takes up. Quotes and
parentheses that are not closed extend to the end. -/
def readValue : List Char → List Char × Nat
  | '"' :: rest =>
      match Text.splitOnce? (· == '"') rest with
      | some (value, _) => (value, value.length + 2)
      | none => (rest, rest.length + 1)
  | '(' :: rest =>
      let (value, _) := Text.splitAfter (· == ')') ('(' :: rest)
      (value, value.length)
  | rest =>
      let value := Text.before Text.isBlank rest
      (value, value.length)

/-- A value as it is written behind `KEY=`: in quotes if a blank would cut it short. -/
def writeValue (value : List Char) : List Char :=
  if value.any Text.isBlank && value.head? != some '(' then '"' :: value ++ ['"'] else value

/-- Reads the item that starts with the character `c` of a name: the item, and how many characters of
`rest` it takes up. -/
def readItem (c : Char) (rest : List Char) : Item × Nat :=
  let more := rest.takeWhile Text.isNameRest
  let name := (c :: more).map Char.toUpper
  let after := rest.drop more.length
  let gap := after.takeWhile Text.isAsciiBlank
  match after.drop gap.length with
  | '=' :: value =>
      let blanks := value.takeWhile Text.isAsciiBlank
      let (v, taken) := readValue (value.drop blanks.length)
      (.assignment name v, more.length + gap.length + 1 + blanks.length + taken)
  | _ => (.word name, more.length)

/-- The items of what remains of a text after `skip` characters. Anything that cannot start an item is
passed over up to the next blank. -/
def itemsAfter : Nat → List Char → List Item
  | _, [] => []
  | skip + 1, _ :: rest => itemsAfter skip rest
  | 0, c :: rest =>
      if Text.isAsciiBlank c then itemsAfter 0 rest
      else if Text.isNameStart c then
        let (item, taken) := readItem c rest
        item :: itemsAfter taken rest
      else itemsAfter (Text.before Text.isAsciiBlank rest).length rest

def items (s : List Char) : List Item := itemsAfter 0 s

/-- Bare words in order, and the value of each key. A bare word is also a key; its value is empty
unless it is assigned one elsewhere. -/
structure Keys where
  words : List String := []
  values : List (String × String) := []
deriving DecidableEq

namespace Keys

/-- The value that the items give to `key`: that of the last assignment, or else the empty one if the
key occurs as a word. -/
def valueIn (items : List Item) (key : String) : Option String :=
  items.foldl (fun found item => match item with
    | .assignment k v => if String.ofList k == key then some (String.ofList v) else found
    | .word w => if String.ofList w == key then found.or (some "") else found) none

def ofItems (items : List Item) : Keys where
  words := items.filterMap fun
    | .word name => some (String.ofList name)
    | .assignment .. => none
  values := (items.map Item.key).eraseDups.filterMap fun key =>
    (valueIn items key).map (key, ·)

def read (s : List Char) : Keys := ofItems (items s)

def contains (keys : Keys) (key : String) : Bool := keys.values.any (·.1 == key)

/-- The value of a key; an empty one counts as absent. -/
def get? (keys : Keys) (key : String) : Option String :=
  (keys.values.lookup key).filter (!·.isEmpty)

/-- The value of a key that is a finite number. -/
def getNumber? (keys : Keys) (key : String) : Option Binary64 :=
  (keys.get? key).bind fun v => Binary.readFinite? .binary64 v.toList

/-- Whether a flag is set: it occurs, without a value or with an affirmative one. -/
def isSet (keys : Keys) (key : String) : Bool :=
  keys.contains key &&
    match keys.get? key with
    | none => true
    | some v => ["1", "true", "yes"].contains (String.ofList (v.toList.map Char.toLower))

/-- Forgets a key, and its word if that comes first. -/
def dropLeading (keys : Keys) (key : String) : Keys :=
  if keys.words.head? = some key then
    { words := keys.words.tail, values := keys.values.filter (·.1 != key) }
  else keys

end Keys

end StimOverlay.Directive
