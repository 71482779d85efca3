/-! YAML documents as far as configuration files use them: scalars, sequences and mappings, without
anchors, aliases and tags. -/

namespace StimOverlay.Yaml

inductive Node where
  /-- A scalar as it is written, apart from its quotes and escapes. -/
  | scalar (quoted : Bool) (text : String)
  | sequence (items : List Node)
  | mapping (entries : List (Node × Node))

namespace Node

/-- What stands where nothing is written. -/
def absent : Node := .scalar false ""

/-- The text of a scalar. -/
def text? : Node → Option String
  | scalar _ text => some text
  | _ => none

/-- The text of a scalar without quotes. -/
def plain? : Node → Option String
  | scalar false text => some text
  | _ => none

/-- The entries of a mapping by the texts of their keys. Nothing at all is a mapping without
entries. -/
def fields? : Node → Option (List (String × Node))
  | mapping entries => entries.mapM fun entry => entry.1.text?.map (·, entry.2)
  | scalar false text => if text.isEmpty then some [] else none
  | _ => none

end Node

end StimOverlay.Yaml
