/-! Replacing one text by another, left to right and without overlaps. -/

namespace StimOverlay.Text

/-- Replaces what remains of the text after `skip` characters, which belong to an occurrence that
has already been replaced. -/
def replaceAfter (old new : List Char) : Nat → List Char → List Char
  | _, [] => []
  | skip + 1, _ :: rest => replaceAfter old new skip rest
  | 0, c :: rest =>
      if old.isPrefixOf (c :: rest) then new ++ replaceAfter old new (old.length - 1) rest
      else c :: replaceAfter old new 0 rest

/-- Every occurrence of the non-empty text `old` becomes `new`. -/
def replace (old new : List Char) (s : List Char) : List Char := replaceAfter old new 0 s

/-- The replacements of a list, each applied to the result of the one before. -/
def replaceEach (rules : List (String × String)) (s : List Char) : List Char :=
  rules.foldl (fun s rule => replace rule.1.toList rule.2.toList s) s

end StimOverlay.Text
