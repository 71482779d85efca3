import StimOverlay.Build.Anchor
import StimOverlay.Circuit.Detectors

/-! Detectors and observables while a circuit is built. Each measurement that an instruction names
gets a marker on the layer where it took place. An instruction that names anything else is ignored
with a warning. -/

namespace StimOverlay.Build

open Numeric

namespace State

/-- The site that a target refers to. -/
def site? (s : State) : Target → Except Problem Site
  | .record offset =>
      let position := (s.record.size : Int) + offset
      match if offset < 0 ∧ 0 ≤ position then s.record[position.toNat]? else none with
      | some site => .ok site
      | none => .error (.recordRange (Target.record offset).text s.record.size)
  | t => .error (.recordTarget t.text)

/-- The sites that the targets refer to, or the problem with the first one that has none. -/
def sites (s : State) : List Target → Except Problem (List Site)
  | [] => .ok []
  | t :: rest => do
      let site ← s.site? t
      let more ← s.sites rest
      .ok (site :: more)

/-- Puts a marker on the layer of each site. -/
def markSites (s : State) (gate : Gate) (tag : String) (index : Binary32) (line : Nat)
    (sites : List Site) : State :=
  sites.foldl (fun s site =>
    s.mapSchedule (·.modify site.layer (·.mark (.onQubit gate tag [index] site.qubit line)))) s

/-- The index of a detector or observable. Detectors are numbered as they are accepted; an observable
has its index as argument, a natural number, or zero without one. -/
def markerIndex (s : State) (line : Nat) (i : Instruction) : Step (Binary32 × State) :=
  if i.name = detectorName then
    .ok (.ofNat .binary32 s.detectors, { s with detectors := s.detectors + 1 })
  else match i.args.head? with
    | none => .ok (.zero, s)
    | some v =>
        if v.isWhole && v.compare? .zero != some .lt then .ok (v.convert .binary32, s)
        else s.halt line (.instruction (.badArgument v.text))

/-- Builds a detector or an observable; `source` is the line as written. -/
def buildMarker (s : State) (ctx : Context) (line : Nat) (source : List Char) (i : Instruction) :
    Step State :=
  match s.sites i.targets with
  | .error p => .ok (s.report line p)
  | .ok sites => do
      let (index, s) ← s.markerIndex line i
      match ctx.catalog.gate? i.name with
      | none => .ok (s.report line (.gateUnknown (String.ofList source)))
      | some gate => .ok (s.markSites gate i.tag index line sites)

end State

end StimOverlay.Build
