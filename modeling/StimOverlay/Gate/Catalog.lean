import StimOverlay.Gate.Basic

/-! Catalogs: which names stand for which gates. -/

namespace StimOverlay

/-- What another name for a gate stands for. -/
inductive Alias where
  /-- The gate `canonical`, each pair of targets swapped first when `swapped`. -/
  | renamed (canonical : String) (swapped : Bool)
  /-- An instruction without any place in the layout; it is skipped. -/
  | ignored
deriving DecidableEq

/-- Two partial maps from names; aliases are looked up before gates. -/
structure Catalog where
  gate? : String → Option Gate
  alias? : String → Option Alias

namespace Catalog

/-- The catalog that holds the listed entries, the first of several with one name. -/
def ofLists (gates : List Gate) (aliases : List (String × Alias)) : Catalog where
  gate? name := gates.find? (·.name == name)
  alias? name := (aliases.find? (·.1 == name)).map (·.2)

/-- The entries of `c`, and those of `d` for names that `c` does not know. -/
def orElse (c d : Catalog) : Catalog where
  gate? name := (c.gate? name).or (d.gate? name)
  alias? name := (c.alias? name).or (d.alias? name)

end Catalog

end StimOverlay
