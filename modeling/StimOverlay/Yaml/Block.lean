import StimOverlay.Yaml.Character

/-! Block scalars, whose text are the lines that are indented further than the collection they stand in.
Behind a bar the lines are kept; behind a `>` a line end between two lines stands for a space unless one
of them starts with a blank. -/

namespace StimOverlay.Yaml

/-- What becomes of the line ends behind the last line. -/
inductive Chomping where
  | strip
  /-- The first one is kept. -/
  | clip
  | keep
deriving DecidableEq

def Chomping.ofSign? (c : Char) : Option Chomping :=
  match c with
  | '-' => some .strip
  | '+' => some .keep
  | _ => none

def Chomping.apply : Chomping → (first further : List Char) → List Char
  | .strip, _, _ => []
  | .clip, first, _ => first
  | .keep, first, further => first ++ further

/-- What stands between the indicator of a block scalar and its lines. -/
structure BlockHeader where
  chomping : Chomping
  /-- How far the lines are indented against the collection around them, if that is said. -/
  indent : Option Nat

/-- Splits off an indentation, which is not zero. -/
def splitIndent : List Char → Option (Option Nat × List Char)
  | c :: rest =>
      if c == '0' then none
      else if c.isDigit then some (some (c.toNat - '0'.toNat), rest)
      else some (none, c :: rest)
  | [] => some (none, [])

def splitChomping : List Char → Option Chomping × List Char
  | c :: rest =>
      match Chomping.ofSign? c with
      | some chomping => (some chomping, rest)
      | none => (none, c :: rest)
  | [] => (none, [])

/-- Reads a header up to the end of its line. Its two parts may come in either order. -/
def readHeader (s : List Char) : Option (BlockHeader × List Char) := do
  let (chomping, rest) := splitChomping s
  let (indent, rest) ← splitIndent rest
  let (chomping, rest) := if chomping.isNone then splitChomping rest else (chomping, rest)
  let rest := rest.dropWhile isGap
  let rest := if rest.head? = some '#' then rest.dropWhile (!isBreak ·) else rest
  if rest.head?.all isBreak then some (⟨chomping.getD .clip, indent⟩, rest.drop 1) else none

/-- The lines of a text with their ends. -/
def linesWithEnds : List Char → List (List Char)
  | [] => []
  | c :: rest =>
      if isBreak c then [c] :: linesWithEnds rest
      else match linesWithEnds rest with
        | [] => [[c]]
        | line :: lines => (c :: line) :: lines

def leadingSpaces (line : List Char) : Nat := (line.takeWhile (· == ' ')).length

/-- The indentation of the first line that is not empty, or of an empty one before it that has more
spaces, but at least `margin`. No tab may stand there. -/
def findIndent (margin : Nat) : List (List Char) → Option Nat
  | [] => some margin
  | line :: lines =>
      let indent := max margin (leadingSpaces line)
      match line.drop (leadingSpaces line) with
      | [] => some indent
      | c :: _ => if c == '\t' then none else if isBreak c then findIndent indent lines else some indent

/-- The text of lines that are indented as given, and what follows them. The line end of the last line
with text is `first`, `further` are those of the empty lines behind it, and `blank` says whether that
line starts with a blank. -/
def readLines (folded : Bool) (chomping : Chomping) (indent : Nat) (first further : List Char)
    (blank : Bool) : List (List Char) → Option (List Char × List Char)
  | [] => some (chomping.apply first further, [])
  | line :: lines =>
      let spaces := min indent (leadingSpaces line)
      match line.drop spaces with
      | [] => some (chomping.apply first further, [])
      | c :: rest =>
          if isBreak c then readLines folded chomping indent first (further ++ [c]) blank lines
          else if spaces < indent then
            if c == '\t' then none
            else some (chomping.apply first further, c :: rest ++ lines.flatten)
          else do
            let joined := folded && first == ['\n'] && !blank && !isGap c
            let space :=
              if !joined then first ++ further else if further.isEmpty then [' '] else further
            let text := (c :: rest).takeWhile (!isBreak ·)
            let ended := (c :: rest).dropWhile (!isBreak ·)
            let (more, rest) ← readLines folded chomping indent ended [] (isGap c) lines
            some (space ++ text ++ more, rest)

/-- Reads a block scalar behind its indicator, where `margin` is the least column of what belongs to the
collection around it. -/
def readBlock (folded : Bool) (margin : Nat) (s : List Char) : Option (List Char × List Char) := do
  let (header, rest) ← readHeader s
  let lines := linesWithEnds rest
  let indent ← match header.indent with
    | some n => some (margin - 1 + n)
    | none => findIndent (max margin 1) lines
  readLines folded header.chomping indent [] [] false lines

end StimOverlay.Yaml
