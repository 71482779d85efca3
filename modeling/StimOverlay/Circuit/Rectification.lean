import StimOverlay.Circuit.Geometry

/-! Rectification: moving a layout to the origin and scaling its coarsest common grid step to one,
or to one half on a checkerboard. -/

namespace StimOverlay

open Numeric

namespace Circuit

/-- The listed points without those at the place of an earlier one. -/
def distinctPoints (c : Circuit) : List Point :=
  c.packed.toList.eraseDupsBy fun a b => a.place == b.place

/-- The grid steps that are tried: `2 ^ 8` halved at most `halvings` times. -/
def coarsestStep (fits : Binary64 → Bool) : Nat → Binary64 → Binary64
  | 0, step => step
  | halvings + 1, step =>
      if fits step then step else coarsestStep fits halvings (step / .ofNat .binary64 2)

/-- The finest grid step that is tried, `2 ^ (-8)`; it stands for the absence of a common grid. -/
def finestStep : Binary64 := .ofDecimal .binary64 false 390625 (-8)

/-- The coarsest power of two up to `2 ^ 8` that divides all coordinates. -/
def gridStep (points : List Point) : Binary64 :=
  points.foldl
    (fun step p => coarsestStep (fun s => (p.x.rem s).isZero && (p.y.rem s).isZero ||
      !(s.compare? finestStep == some .gt)) 16 step)
    (.ofNat .binary64 256)

/-- Whether `p` lies on the two diagonals through `corner` of a board with fields of size `step`. -/
def diagonals (step : Binary64) (corner p : Point) : Bool × Bool :=
  let double := Binary.ofNat .binary64 2 * step
  ((((p.x - corner.x) + p.y) - corner.y).rem double |>.isZero,
    (((p.x - corner.x) - p.y) + corner.y).rem double |>.isZero)

/-- The transform of a rectification. On a checkerboard the fields of one colour are the points; when
the corner has the other colour, the origin moves one field to the left of it. -/
def rectification (c : Circuit) : CoordTransform :=
  let points := c.distinctPoints
  let step := gridStep points
  if points.isEmpty then ⟨.zero, .zero, .ofNat .binary64 1 / step⟩
  else
    let corner : Point := points.foldl (fun m p => ⟨m.x.least p.x, m.y.least p.y⟩)
      ⟨.infinite false, .infinite false⟩
    let colours := points.map (diagonals step corner)
    let half := Binary.ofDecimal .binary64 false 5 (-1) / step
    if !(step.compare? finestStep == some .gt) then ⟨-corner.x, -corner.y, .ofNat .binary64 1⟩
    else if colours.all fun d => d.1 && d.2 then ⟨-corner.x, -corner.y, half⟩
    else if colours.all fun d => !d.1 && !d.2 then ⟨-(corner.x - step), -corner.y, half⟩
    else ⟨-corner.x, -corner.y, .ofNat .binary64 1 / step⟩

def rectified (c : Circuit) : Circuit := c.mapPoints c.rectification.apply

end Circuit

end StimOverlay
