import Std.Data.TreeSet
import StimOverlay.Schedule

/-! Circuits: a schedule of layers together with the tables of declared coordinates, sheets and
qubits. Changes give a new circuit. -/

namespace StimOverlay

open Numeric

structure Circuit where
  schedule : Schedule := .empty
  /-- Declared or completed coordinates, by qubit. -/
  coords : Std.TreeMap QubitId Point := ∅
  /-- The coordinates of the qubits from zero on, as they were when last listed. -/
  packed : Array Point := #[]
  sheets : List Sheet := [⟨defaultSheet, 0, []⟩]
  /-- The qubits, each at the position of its own number. -/
  qubits : Array Qubit := #[]

namespace Circuit

def empty : Circuit := {}

def layers (c : Circuit) : List Layer := c.schedule.toList

def sheet? (c : Circuit) (name : String) : Option Sheet := c.sheets.find? (·.name == name)

/-- Changes the first element that satisfies `p`. -/
def modifyFirst (p : α → Bool) (f : α → α) : List α → List α
  | [] => []
  | a :: rest => if p a then f a :: rest else a :: modifyFirst p f rest

/-- Changes the sheet of the given name. -/
def modifySheet (c : Circuit) (name : String) (f : Sheet → Sheet) : Except CircuitError Circuit :=
  if c.sheets.any (·.name == name) then
    .ok { c with sheets := modifyFirst (·.name == name) f c.sheets }
  else .error (.noSuchSheet name)

def addSheet (c : Circuit) (s : Sheet) : Circuit := { c with sheets := c.sheets ++ [s] }

def qubit? (c : Circuit) (q : QubitId) : Option Qubit := c.qubits[q]?

/-- The qubits, with fresh ones appended up to number `q`. -/
def grow (qubits : Array Qubit) (q : QubitId) : Array Qubit :=
  qubits ++ (Array.range (q + 1 - qubits.size)).map fun k => { id := qubits.size + k }

/-- Changes qubit `q`, first making it and those before it if need be. -/
def modifyQubit (c : Circuit) (q : QubitId) (f : Qubit → Qubit) : Circuit :=
  { c with qubits := (grow c.qubits q).modify q f }

/-- The first qubit declared at the place of `p`. -/
def qubitAt? (c : Circuit) (p : Point) : Option QubitId :=
  (c.coords.toList.find? fun entry => entry.2.place == p.place).map (·.1)

/-- Declares the coordinates of a qubit. A later declaration of the same qubit replaces an earlier
one; the place of another qubit cannot be taken. -/
def declare (c : Circuit) (q : QubitId) (p : Point) : Except CircuitError Circuit :=
  match c.qubitAt? p with
  | some owner =>
      if owner = q then
        .ok ({ c with coords := c.coords.insert q p }.modifyQubit q (·.moveTo p))
      else .error (.coordinatesTaken p owner)
  | none => .ok ({ c with coords := c.coords.insert q p }.modifyQubit q (·.moveTo p))

/-- The listed coordinates of `q`; the origin when there are none. -/
def coordsOf (c : Circuit) (q : QubitId) : Point := c.packed[q]?.getD .origin

/-- Lists the coordinates anew, in the order of the qubits. -/
def pack (c : Circuit) : Circuit := { c with packed := (c.coords.toList.map (·.2)).toArray }

def operationsAndMarkers (c : Circuit) : List Operation :=
  c.layers.flatMap Layer.operationsAndMarkers

/-- Every qubit that an operation or a marker acts on, in ascending order. -/
def activeQubits (c : Circuit) : List QubitId :=
  (Std.TreeSet.ofList (c.operationsAndMarkers.flatMap (·.targets))).toList

/-- Every qubit that an overlay refers to. -/
def overlayQubits (c : Circuit) : List QubitId :=
  c.layers.flatMap fun l => l.overlays.toList.flatMap Overlay.qubits

def measurements (c : Circuit) : Nat := total (c.layers.map Layer.measurements)

/-- The listed places with the qubit found there, the last one where several share a place. -/
def places (c : Circuit) : List (QubitId × Point) :=
  let listed := c.packed.toList.zipIdx.map fun entry => (entry.2, entry.1.place)
  (listed.reverse.eraseDupsBy fun a b => a.2 == b.2).reverse

end Circuit

end StimOverlay
