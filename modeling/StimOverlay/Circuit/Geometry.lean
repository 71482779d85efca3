import StimOverlay.Circuit.Basic

/-! Moving a circuit about. A transform is applied to every copy of the coordinates alike: the
declared ones, the listed ones and those of the panel. -/

namespace StimOverlay

open Numeric

/-- The map that shifts by `dx` and `dy` and then scales. -/
structure CoordTransform where
  dx : Binary64
  dy : Binary64
  scale : Binary64

def CoordTransform.apply (t : CoordTransform) (p : Point) : Point :=
  ⟨(p.x + t.dx) * t.scale, (p.y + t.dy) * t.scale⟩

namespace Circuit

/-- The circuit with every point moved by `f`. -/
def mapPoints (c : Circuit) (f : Point → Point) : Circuit :=
  { c with
    coords := c.coords.map fun _ p => f p
    packed := c.packed.map f
    qubits := c.qubits.map fun q => { q with stim := f q.stim, panel := f q.panel } }

def shift (c : Circuit) (dx dy : Binary64) : Circuit :=
  c.mapPoints fun p => ⟨p.x + dx, p.y + dy⟩

/-- Turns the layout by an eighth of a circle and stretches it by the square root of two. -/
def rotate45 (c : Circuit) : Circuit := c.mapPoints fun p => ⟨p.x - p.y, p.x + p.y⟩

/-- The circuit shifted by nothing, which takes the sign off every zero. -/
def copy (c : Circuit) : Circuit := c.shift .zero .zero

/-- Appends a qubit at `p`. -/
def append (c : Circuit) (p : Point) : Circuit :=
  let q := c.packed.size
  { c with packed := c.packed.push p, coords := c.coords.insert q p }.modifyQubit q (·.moveTo p)

def isListed (c : Circuit) (p : Point) : Bool := c.packed.any (·.place == p.place)

/-- Appends a qubit for every point whose place no listed qubit has. -/
def includePoints (c : Circuit) (points : List Point) : Circuit :=
  points.foldl (fun c p => if c.isListed p then c else c.append p) c

end Circuit

end StimOverlay
