import StimOverlay.Yaml.Block
import StimOverlay.Yaml.Plain
import StimOverlay.Yaml.Quoted

/-! Tokens of YAML documents. Indentation opens and closes block collections, which therefore have tokens
that are written nowhere. That a scalar or a collection in brackets is a key shows only at the colon
behind it: its token, and that of the mapping it may open, are inserted afterwards. -/

namespace StimOverlay.Yaml

inductive Token where
  | documentStart
  | documentEnd
  /-- The start of a block sequence. -/
  | sequenceStart
  /-- The start of a block mapping. -/
  | mappingStart
  /-- The end of a block collection. -/
  | blockEnd
  | openBracket
  | closeBracket
  | openBrace
  | closeBrace
  | comma
  /-- The dash in front of an item. -/
  | dash
  /-- What stands in front of a key, written or not. -/
  | key
  /-- The colon in front of a value. -/
  | value
  | scalar (quoted : Bool) (text : String)
deriving DecidableEq

/-- A place in a text. -/
structure Place where
  rest : List Char
  line : Nat := 0
  column : Nat := 0

/-- The place behind the characters that precede `rest`. -/
def Place.moveTo (p : Place) (rest : List Char) : Place :=
  (p.rest.take (p.rest.length - rest.length)).foldl
    (fun p c =>
      if isBreak c then { p with line := p.line + 1, column := 0 }
      else { p with column := p.column + 1 })
    { p with rest }

/-- Where a key may have started. -/
structure KeyStart where
  /-- How many tokens stand in front of it. -/
  count : Nat
  line : Nat
  column : Nat
  /-- Whether nothing but a key can stand there. -/
  required : Bool

/-- A key lies within one line and has a limited length. -/
def KeyStart.isPast (k : KeyStart) (p : Place) : Bool :=
  k.line < p.line || k.column + 1024 < p.column

/-- How far a text has been cut into tokens. -/
structure Scan where
  place : Place
  tokens : List Token := []
  /-- The columns of the open block collections, the inner ones first. -/
  columns : List Nat := []
  /-- The last token that a colon would make a key. -/
  start : Option KeyStart := none
  /-- The same in front of each open bracket, the inner ones first. -/
  outer : List (Option KeyStart) := []
  /-- Whether a key may start here. -/
  keyAllowed : Bool := true

namespace Scan

/-- Whether a bracket is open. Within brackets indentation means nothing. -/
def inFlow (s : Scan) : Bool := !s.outer.isEmpty

/-- The least column of what belongs to the innermost block collection. -/
def margin (s : Scan) : Nat :=
  match s.columns with
  | [] => 0
  | column :: _ => column + 1

def emit (s : Scan) (t : Token) : Scan := { s with tokens := s.tokens ++ [t] }

/-- Puts a token behind the first `count`. -/
def insert (s : Scan) (count : Nat) (t : Token) : Scan :=
  { s with tokens := s.tokens.take count ++ t :: s.tokens.drop count }

def moveTo (s : Scan) (rest : List Char) : Scan := { s with place := s.place.moveTo rest }

/-- Emits the token of the next `n` characters. -/
def take (s : Scan) (n : Nat) (t : Token) : Scan := (s.emit t).moveTo (s.place.rest.drop n)

/-- Opens a block collection, unless one is open in that column or further right. Its first `count`
tokens stand in front of it. -/
def openBlock (s : Scan) (column count : Nat) (t : Token) : Scan :=
  if s.inFlow || column < s.margin then s
  else { s.insert count t with columns := column :: s.columns }

/-- Closes the block collections in the given column and those further right. -/
def closeBlocks (s : Scan) (column : Nat) : Scan :=
  if s.inFlow then s
  else
    let closed := s.columns.takeWhile (column ≤ ·)
    { s with
      tokens := s.tokens ++ closed.map fun _ => .blockEnd
      columns := s.columns.drop closed.length }

/-- Gives up the key that may have started, unless there has to be one. -/
def dropKey (s : Scan) : Option Scan :=
  if s.start.any (·.required) then none else some { s with start := none }

/-- Gives up the keys that cannot reach as far as this place. -/
def dropPastKeys (s : Scan) : Option Scan :=
  let past (start : Option KeyStart) : Bool := start.any (·.isPast s.place)
  if (s.start :: s.outer).any fun start => past start && start.any (·.required) then none
  else
    let keep (start : Option KeyStart) : Option KeyStart := start.filter (!·.isPast s.place)
    some { s with start := keep s.start, outer := s.outer.map keep }

/-- Notes that a key may start here. It has to where the keys of the innermost mapping stand. -/
def startKey (s : Scan) : Option Scan :=
  if s.keyAllowed then
    let required := !s.inFlow && s.columns.head? == some s.place.column
    s.dropKey.map fun s =>
      { s with start := some ⟨s.tokens.length, s.place.line, s.place.column, required⟩ }
  else some s

/-- Passes over blanks, line ends and comments; what is left, and whether a key may start there. A byte
order mark may start a line, and tabs may not indent a key. -/
def skipSpace (inFlow : Bool) (inComment keyAllowed : Bool) (column : Nat) :
    List Char → List Char × Bool
  | [] => ([], keyAllowed)
  | c :: rest =>
      if isBreak c then skipSpace inFlow false (keyAllowed || !inFlow) 0 rest
      else if inComment || c == ' ' || (c == '\t' && (inFlow || !keyAllowed)) ||
          (c == '\ufeff' && column == 0) then
        skipSpace inFlow inComment keyAllowed (column + 1) rest
      else if c == '#' then skipSpace inFlow true keyAllowed (column + 1) rest
      else (c :: rest, keyAllowed)

def skip (s : Scan) : Scan :=
  let (rest, keyAllowed) := skipSpace s.inFlow false s.keyAllowed s.place.column s.place.rest
  { s.moveTo rest with keyAllowed }

/-- The mark at the start or the end of a document, which closes everything. -/
def takeMark (s : Scan) (t : Token) : Option Scan :=
  (s.closeBlocks 0).dropKey.map fun s => { s.take 3 t with keyAllowed := false }

def takeOpening (s : Scan) (t : Token) : Option Scan :=
  s.startKey.map fun s =>
    { s.take 1 t with start := none, outer := s.start :: s.outer, keyAllowed := true }

def takeClosing (s : Scan) (t : Token) : Option Scan :=
  s.dropKey.map fun s =>
    let s := { s.take 1 t with keyAllowed := false }
    match s.outer with
    | [] => s
    | start :: outer => { s with start, outer }

def takeComma (s : Scan) : Option Scan :=
  s.dropKey.map fun s => { s.take 1 .comma with keyAllowed := true }

def takeDash (s : Scan) : Option Scan :=
  if s.inFlow || s.keyAllowed then
    (s.openBlock s.place.column s.tokens.length .sequenceStart).dropKey.map fun s =>
      { s.take 1 .dash with keyAllowed := true }
  else none

/-- The question mark in front of a key. -/
def takeKey (s : Scan) : Option Scan :=
  if s.inFlow || s.keyAllowed then
    (s.openBlock s.place.column s.tokens.length .mappingStart).dropKey.map fun s =>
      { s.take 1 .key with keyAllowed := !s.inFlow }
  else none

/-- A colon, which makes the token that may have started a key to one. -/
def takeValue (s : Scan) : Option Scan :=
  match s.start with
  | some k =>
      let s := (s.insert k.count .key).openBlock k.column k.count .mappingStart
      some { s.take 1 .value with start := none, keyAllowed := false }
  | none =>
      if s.inFlow || s.keyAllowed then
        let s := s.openBlock s.place.column s.tokens.length .mappingStart
        some { s.take 1 .value with keyAllowed := !s.inFlow }
      else none

def takeQuoted (s : Scan) (mark : Char) (body : List Char) : Option Scan := do
  let s ← s.startKey
  let (text, rest) ← readQuoted mark body
  some { (s.emit (.scalar true (String.ofList text))).moveTo rest with keyAllowed := false }

def takePlain (s : Scan) : Option Scan := do
  let s ← s.startKey
  let scalar ← readPlain s.inFlow s.margin {} s.place.rest
  let token := Token.scalar false (String.ofList scalar.text)
  some { (s.emit token).moveTo scalar.rest with keyAllowed := scalar.endsLine }

def takeBlock (s : Scan) (folded : Bool) (body : List Char) : Option Scan := do
  let s ← s.dropKey
  let (text, rest) ← readBlock folded s.margin body
  some { (s.emit (.scalar true (String.ofList text))).moveTo rest with keyAllowed := true }

/-- Reads the token that starts here. Anchors, aliases, tags and directives are not supported. -/
def takeToken (s : Scan) : Option Scan :=
  match s.place.rest with
  | [] => none
  | c :: rest =>
      let atLine := s.place.column == 0
      if atLine && c == '%' then none
      else if atLine && startsWithMark '-' (c :: rest) then s.takeMark .documentStart
      else if atLine && startsWithMark '.' (c :: rest) then s.takeMark .documentEnd
      else if c == '[' then s.takeOpening .openBracket
      else if c == '\x7b' then s.takeOpening .openBrace
      else if c == ']' then s.takeClosing .closeBracket
      else if c == '\x7d' then s.takeClosing .closeBrace
      else if c == ',' then s.takeComma
      else if c == '-' && endsWord rest then s.takeDash
      else if c == '?' && (s.inFlow || endsWord rest) then s.takeKey
      else if c == ':' && (s.inFlow || endsWord rest) then s.takeValue
      else if (c == '|' || c == '>') && !s.inFlow then s.takeBlock (c == '>') rest
      else if c == '\'' || c == '"' then s.takeQuoted c rest
      else if isSpace c || isReserved c then none
      else s.takePlain

/-- Reads tokens up to the end of the text, at least one character each. -/
def run : Nat → Scan → Option (List Token)
  | 0, _ => none
  | fuel + 1, s => do
      let s ← s.skip.dropPastKeys
      let s := s.closeBlocks (s.place.column + 1)
      if s.place.rest.isEmpty then (s.closeBlocks 0).dropKey.map (·.tokens)
      else run fuel (← s.takeToken)

end Scan

/-- The tokens of a text, if it can be cut into tokens. -/
def tokens? (text : List Char) : Option (List Token) :=
  Scan.run (text.length + 1) { place := { rest := text } }

end StimOverlay.Yaml
