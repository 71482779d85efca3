import StimOverlay.Proofs.RoundTrip.TextRuns

/-! A clean parse. The text of an expressible circuit is parsed without diagnostics: sheets are declared
before anything else, each qubit is declared, under its new number, at the place that it had, and every
header meets its own polygon. -/

namespace StimOverlay

open Build Numeric

theorem Numeric.Binary.unsignedZero_unsignedZero {f : Format} (x : Binary f) :
    x.unsignedZero.unsignedZero = x.unsignedZero := by
  cases x with
  | finite negative m e h =>
      by_cases hm : m = 0
      · simp [unsignedZero, hm, zero]
      · simp [unsignedZero, hm]
  | _ => rfl

@[simp] theorem Point.place_place (p : Point) : p.place.place = p.place := by
  simp [Point.place, Binary.unsignedZero_unsignedZero]

namespace Emission

variable {n : Numbering} {c : Circuit} {d : Detail} {p q r : Page} {ls xs ys : List Line}

theorem FollowsFrom.append (hxs : FollowsFrom n p xs) (hys : FollowsFrom n (pageBehind n p xs) ys) :
    FollowsFrom n p (xs ++ ys) := by
  induction hxs with
  | nil => exact hys
  | cons head _ ih => exact .cons head (ih hys)

theorem FollowsFrom.of_append (h : FollowsFrom n p (xs ++ ys)) : FollowsFrom n p xs := by
  induction xs generalizing p with
  | nil => exact .nil p
  | cons l rest ih =>
      cases h with
      | cons head tail => exact .cons head (ih tail)

/-- Lines that may follow on page `p` and lead to page `q`, apart from whether it has begun. -/
structure Leads (n : Numbering) (p : Page) (ls : List Line) (q : Page) : Prop where
  follows : FollowsFrom n p ls
  behind : ∃ begun, pageBehind n p ls = { q with begun }

theorem Leads.nil (n : Numbering) (p : Page) : Leads n p [] p := ⟨.nil p, p.begun, rfl⟩

theorem Leads.append (hxs : Leads n p xs q)
    (hys : ∀ begun, Leads n { q with begun } ys { r with begun }) : Leads n p (xs ++ ys) r := by
  obtain ⟨hfollows, begun, hbehind⟩ := hxs
  obtain ⟨hnext, last, hlast⟩ := hys begun
  refine ⟨hfollows.append (hbehind ▸ hnext), last, ?_⟩
  rw [pageBehind, List.foldl_append, ← pageBehind, ← pageBehind, hbehind, hlast]

theorem Leads.cons {l : Line} (hl : l.Follows p) (hls : Leads n (l.turn n p) ls q) :
    Leads n p (l :: ls) q := ⟨.cons hl hls.follows, hls.behind⟩

/-- A line that neither declares nor draws. -/
def Line.Still : Line → Prop
  | .operations .. => True
  | .products .. => True
  | .detector .. => True
  | .observable .. => True
  | _ => False

theorem Line.Still.leads {l : Line} (h : l.Still) (hheader : p.header = none) : Leads n p [l] p := by
  have hsame : l.Follows p ∧ l.turn n p = { p with begun := true } := by
    cases l <;> first | exact h.elim | exact ⟨hheader, rfl⟩
  exact .cons hsame.1 ⟨.nil _, true, hsame.2⟩

/-- Whatever neither declares nor draws leaves the page as it is. -/
theorem Leads.still (hxs : Leads n p xs q) (hheader : q.header = none) (h : ∀ l ∈ ys, l.Still) :
    Leads n p (xs ++ ys) q := by
  induction ys generalizing xs with
  | nil => rwa [List.append_nil]
  | cons l rest ih =>
      obtain ⟨hl, hrest⟩ := List.forall_mem_cons.1 h
      rw [List.append_cons]
      exact ih (hxs.append fun _ => hl.leads hheader) hrest

/-- Sheets of new names can be declared at the top of a page. -/
theorem leads_sheets {sheets : List (String × Int)} (hheader : p.header = none) (htop : p.begun = false)
    (hlayer : p.layer = 0) (hnodup : ((p.sheets ++ sheets).map (·.1)).Nodup) :
    Leads n p (sheets.map fun e => .sheet e.1 e.2) { p with sheets := p.sheets ++ sheets } := by
  induction sheets generalizing p with
  | nil => exact ⟨.nil p, p.begun, by rw [List.append_nil]; rfl⟩
  | cons e rest ih =>
      rw [List.append_cons] at hnodup ⊢
      have hnew : e.1 ∉ p.sheets.map (·.1) := by
        rw [List.map_append, List.map_append] at hnodup
        intro hmem
        exact (List.nodup_append.1 (List.nodup_append.1 hnodup).1).2.2 e.1 hmem e.1
          (List.mem_singleton_self _) rfl
      exact .cons ⟨hheader, htop, hlayer, hnew⟩
        (ih (p := { p with sheets := p.sheets ++ [e] }) hheader htop hlayer hnodup)

/-- The declarations of qubits. -/
def declarations (c : Circuit) (qubits : List QubitId) : List Line :=
  qubits.map fun q => .coordinates (c.coordsOf q) q

/-- Coordinates that hold some qubits, under their new numbers and at their places, and nothing
else. -/
def Holds (n : Numbering) (c : Circuit) (coords : Std.TreeMap QubitId Point)
    (qubits : List QubitId) : Prop :=
  ∀ r p, coords[r]? = some p ↔ ∃ q ∈ qubits, n.number q = r ∧ p = (c.coordsOf q).place

/-- Qubits at places of their own, under numbers of their own, can be declared one after another. -/
theorem Holds.leads {done qubits : List QubitId} (h : Holds n c p.coords done)
    (hheader : p.header = none) (hnodup : (done ++ qubits).Nodup)
    (hnumber : ∀ q ∈ done ++ qubits, ∀ r ∈ done ++ qubits, n.number q = n.number r → q = r)
    (hplace : ∀ q ∈ done ++ qubits, ∀ r ∈ done ++ qubits,
      (c.coordsOf q).place = (c.coordsOf r).place → q = r) :
    ∃ coords, Leads n p (declarations c qubits) { p with coords } ∧
      Holds n c coords (done ++ qubits) := by
  induction qubits generalizing done p with
  | nil => exact ⟨p.coords, .nil n p, by rwa [List.append_nil]⟩
  | cons q rest ih =>
      have hq : q ∈ done ++ q :: rest := List.mem_append_right _ List.mem_cons_self
      have hnew : q ∉ done := fun hmem =>
        (List.nodup_append.1 hnodup).2.2 q hmem q List.mem_cons_self rfl
      have hvacant : ({ coords := p.coords } : Circuit).qubitAt? (c.coordsOf q).place = none := by
        refine qubitAt?_eq_none.2 fun r p hr hp => ?_
        obtain ⟨q', hq', -, rfl⟩ := (h r p).1 hr
        rw [Point.place_place, Point.place_place] at hp
        exact hnew (hplace q' (List.mem_append_left _ hq') q hq hp ▸ hq')
      have hheld : Holds n c ((Line.coordinates (c.coordsOf q) q).turn n p).coords (done ++ [q]) := by
        intro r p
        rw [Line.turn, getElem?_insert_of_nat]
        split
        case isTrue heq =>
          constructor
          · rintro hp
            cases hp
            exact ⟨q, List.mem_append_right _ (List.mem_singleton_self q), heq, rfl⟩
          · rintro ⟨q', hq', hr, rfl⟩
            have hmem : q' ∈ done ++ q :: rest := by
              rcases List.mem_append.1 hq' with hq' | hq'
              · exact List.mem_append_left _ hq'
              · exact List.mem_append_right _ (List.mem_singleton.1 hq' ▸ List.mem_cons_self)
            rw [hnumber q' hmem q hq (hr.trans heq.symm)]
        case isFalse hne =>
          rw [h r p]
          constructor
          · rintro ⟨q', hq', hr, rfl⟩
            exact ⟨q', List.mem_append_left _ hq', hr, rfl⟩
          · rintro ⟨q', hq', hr, rfl⟩
            rcases List.mem_append.1 hq' with hq' | hq'
            · exact ⟨q', hq', hr, rfl⟩
            · exact absurd (List.mem_singleton.1 hq' ▸ hr) hne
      rw [List.append_cons] at hnodup hnumber hplace ⊢
      obtain ⟨coords, hleads, hall⟩ := ih hheld hheader hnodup hnumber hplace
      exact ⟨coords, .cons ⟨hheader, hvacant⟩ ⟨hleads.follows, hleads.behind⟩, hall⟩

/-- What is drawn of a layer. -/
def drawnOf (d : Detail) (l : Layer) : List Figure := if d = .annotated then figuresOf l else []

/-- What is drawn of layers, each figure with its layer and under new numbers. -/
def drawnFrom (n : Numbering) (d : Detail) (k : Nat) (layers : List Layer) : List (Nat × Figure) :=
  (layers.zipIdx k).flatMap fun e => (drawnOf d e.1).map fun f => (e.2, f.renumber n)

/-- A header is followed by its own polygon. -/
theorem leads_figures {figures : List Figure} (hheader : p.header = none)
    (hsheets : ∀ f ∈ figures, f.style.sheet ∈ p.sheets.map (·.1)) :
    Leads n p (figures.flatMap fun f => [.polygonHeader f.style.sheet f.style.stroke f.style.fill,
      .polygonBody f.body.colour f.body.corners])
      { p with figures := p.figures ++ figures.map fun f => (p.layer, f.renumber n) } := by
  induction figures generalizing p with
  | nil => exact ⟨.nil p, p.begun, by rw [List.map_nil, List.append_nil]; rfl⟩
  | cons f rest ih =>
      obtain ⟨hsheet, hrest⟩ := List.forall_mem_cons.1 hsheets
      let drawn : Page :=
        { p with begun := true, figures := p.figures ++ [(p.layer, f.renumber n)] }
      have hturn : (Line.polygonBody f.body.colour f.body.corners).turn n
          ((Line.polygonHeader f.style.sheet f.style.stroke f.style.fill).turn n p) = drawn := by
        rw [Line.turn, Line.turn, ← hheader]
        rfl
      obtain ⟨hfollows, begun, hbehind⟩ := ih (p := drawn) hheader hrest
      refine .cons ⟨hheader, hsheet⟩ (.cons rfl ⟨hturn ▸ hfollows, begun, hturn ▸ hbehind.trans ?_⟩)
      simp [drawn]

theorem still_groupLines {heading : String} {ops : List Operation} :
    ∀ l ∈ groupLines heading ops, l.Still := by
  intro l hl
  cases ops with
  | nil => cases hl
  | cons first rest =>
      rw [groupLines] at hl
      split_ifs at hl
      · cases hl
      · rw [List.mem_singleton.1 hl]
        trivial
      · rw [List.mem_singleton.1 hl]
        trivial
      · obtain ⟨op, -, rfl⟩ := List.mem_map.1 hl
        trivial

theorem Line.Refers.still {l : Line} (h : l.Refers) : l.Still := by
  cases l <;> first | exact h.elim | trivial

theorem leads_layerLines {l : Layer} (hheader : p.header = none)
    (hsheets : ∀ f ∈ drawnOf d l, f.style.sheet ∈ p.sheets.map (·.1)) :
    Leads n p (layerLines d l)
      { p with figures := p.figures ++ (drawnOf d l).map fun f => (p.layer, f.renumber n) } := by
  have hfigures : (if d = .annotated then l.overlays.toList.flatMap overlayLines else []) =
      (drawnOf d l).flatMap fun f => [.polygonHeader f.style.sheet f.style.stroke f.style.fill,
        .polygonBody f.body.colour f.body.corners] := by
    rw [drawnOf]
    split_ifs
    · exact flatMap_overlayLines l
    · rfl
  rw [layerLines, hfigures]
  refine (leads_figures hheader hsheets).still hheader fun line hline => ?_
  obtain ⟨group, -, hline⟩ := List.mem_flatMap.1 hline
  exact still_groupLines line hline

/-- Layer by layer, figures are drawn and a tick follows. -/
theorem leads_bodyLines {layers : List Layer} {pending : Pending} (hheader : p.header = none)
    (hsheets : ∀ l ∈ layers, ∀ f ∈ drawnOf d l, f.style.sheet ∈ p.sheets.map (·.1)) :
    Leads n p (bodyLines c d pending layers) { p with
      layer := p.layer + layers.length, figures := p.figures ++ drawnFrom n d p.layer layers } := by
  induction layers generalizing p pending with
  | nil =>
      refine ⟨.nil p, p.begun, ?_⟩
      rw [drawnFrom, List.zipIdx_nil, List.flatMap_nil, List.append_nil]
      rfl
  | cons l rest ih =>
      obtain ⟨hl, hrest⟩ := List.forall_mem_cons.1 hsheets
      have hrefers {xs : List Line} (h : ∀ l ∈ xs, l.Refers) : ∀ l ∈ xs, l.Still := fun l hl =>
        (h l hl).still
      rw [bodyLines_cons, ← List.append_assoc, ← List.append_assoc]
      refine (((leads_layerLines hheader hl).still hheader (hrefers (refers_writeDetectors c _))).still
        hheader (hrefers (refers_writeObservables _))).append fun _ => .cons hheader ?_
      obtain ⟨hfollows, begun, hbehind⟩ := ih (p := { p with
        begun := true, layer := p.layer + 1,
        figures := p.figures ++ (drawnOf d l).map fun f => (p.layer, f.renumber n) }) hheader hrest
      refine ⟨hfollows, begun, hbehind.trans ?_⟩
      simp [drawnFrom, Nat.add_assoc, Nat.add_comm 1]

/-- The sheets that are there when those that are written have been declared. -/
def declaredOf (d : Detail) (c : Circuit) : List (String × Int) :=
  if d = .annotated then sheetsOf c else [(defaultSheet, 0)]

/-- A page on which all of a circuit is declared and drawn that is written in the given detail. -/
structure Filled (n : Numbering) (d : Detail) (c : Circuit) (p : Page) : Prop where
  header : p.header = none
  coords : Holds n c p.coords (mentioned c d)
  sheets : p.sheets = declaredOf d c
  figures : p.figures = drawnFrom n d 0 c.layers

/-- The sheet that needs no declaration, and the others. -/
theorem sheetsOf_eq (h : Declarable (sheetsOf c)) : sheetsOf c = (defaultSheet, 0) ::
    (c.sheets.filter (·.name != defaultSheet)).map fun sheet => (sheet.name, sheet.z) := by
  obtain ⟨hfirst, hnodup, -, -⟩ := h
  rw [sheetsOf] at hfirst hnodup ⊢
  cases hsheets : c.sheets with
  | nil =>
      rw [hsheets] at hfirst
      cases hfirst
  | cons first rest =>
      rw [hsheets, List.map_cons, List.head?_cons, Option.some_inj] at hfirst
      rw [hsheets, List.map_cons, List.map_cons, List.nodup_cons] at hnodup
      have hname : first.name = defaultSheet := congrArg Prod.fst hfirst
      have hothers : rest.filter (·.name != defaultSheet) = rest := by
        rw [List.filter_eq_self]
        intro sheet hsheet
        rw [bne_iff_ne]
        intro heq
        exact hnodup.1 (List.mem_map.2 ⟨_, List.mem_map_of_mem hsheet, heq.trans hname.symm⟩)
      rw [List.map_cons, hfirst, List.filter_cons_of_neg (by simp [hname]), hothers]

theorem leads_headerLines (h : Declarable (sheetsOf c)) (hnumber : ∀ q ∈ mentioned c d,
      ∀ r ∈ mentioned c d, n.number q = n.number r → q = r)
    (hplace : ∀ q ∈ mentioned c d, ∀ r ∈ mentioned c d,
      (c.coordsOf q).place = (c.coordsOf r).place → q = r) :
    ∃ coords, Leads n {} (headerLines c d) { coords, sheets := declaredOf d c } ∧
      Holds n c coords (mentioned c d) := by
  have hmem {q : QubitId} : q ∈ [] ++ numbered c d ↔ q ∈ mentioned c d := (numbered_perm c d).mem_iff
  have hsheets : Leads n {} (if d = .annotated then
      (c.sheets.filter (·.name != defaultSheet)).map fun s => .sheet s.name s.z else [])
      { sheets := declaredOf d c } := by
    cases d with
    | plain => exact .nil n {}
    | annotated =>
        have hnodup := h.nodup
        rw [declaredOf, if_pos rfl, if_pos rfl, sheetsOf_eq h]
        rw [sheetsOf_eq h] at hnodup
        have hleads := leads_sheets (n := n) (p := {}) rfl rfl rfl hnodup
        rwa [List.map_map] at hleads
  have hstart : Holds n c ∅ [] := fun r p => by simp
  obtain ⟨hfollows, begun, hbehind⟩ := hsheets
  obtain ⟨coords, hleads, hheld⟩ := hstart.leads (p := { sheets := declaredOf d c, begun }) rfl
    (show ([] ++ numbered c d).Nodup from nodup_numbered c d)
    (fun q hq r hr => hnumber q (hmem.1 hq) r (hmem.1 hr))
    (fun q hq r hr => hplace q (hmem.1 hq) r (hmem.1 hr))
  obtain ⟨hnext, last, hlast⟩ := hleads
  refine ⟨coords, ⟨hfollows.append (hbehind ▸ hnext), last, ?_⟩, fun r p => ?_⟩
  · rw [headerLines, pageBehind, List.foldl_append, ← pageBehind, ← pageBehind, hbehind]
    exact hlast
  · rw [hheld r p]
    exact exists_congr fun q => and_congr_left fun _ => hmem

theorem pageBehind_ticks (n : Numbering) (p : Page) (k : Nat) : ∃ begun layer,
    pageBehind n p (List.replicate k .tick) = { p with begun, layer } := by
  induction k generalizing p with
  | zero => exact ⟨p.begun, p.layer, rfl⟩
  | succ k ih =>
      obtain ⟨begun, layer, hbehind⟩ := ih (Line.tick.turn n p)
      exact ⟨begun, layer, hbehind⟩

/-- The lines of a circuit may follow one another, and fill a page with it. -/
theorem filled_lines (h : Declarable (sheetsOf c)) (hnumber : ∀ q ∈ mentioned c d,
      ∀ r ∈ mentioned c d, n.number q = n.number r → q = r)
    (hplace : ∀ q ∈ mentioned c d, ∀ r ∈ mentioned c d,
      (c.coordsOf q).place = (c.coordsOf r).place → q = r)
    (hsheets : ∀ l ∈ c.layers, ∀ f ∈ figuresOf l, f.style.sheet ∈ (sheetsOf c).map (·.1)) :
    FollowsFrom n {} (lines c d) ∧ Filled n d c (pageBehind n {} (lines c d)) := by
  obtain ⟨coords, hheader, hheld⟩ := leads_headerLines h hnumber hplace
  have hlisted : ∀ l ∈ c.layers, ∀ f ∈ drawnOf d l, f.style.sheet ∈ (declaredOf d c).map (·.1) := by
    intro l hl f hf
    cases d with
    | plain => cases hf
    | annotated => exact hsheets l hl f hf
  let filled : Page :=
    { coords, sheets := declaredOf d c, layer := 0 + c.layers.length,
      figures := drawnFrom n d 0 c.layers }
  have hall : Leads n {} (headerLines c d ++ bodyLines c d (.ofCircuit c) c.layers) filled :=
    hheader.append fun begun =>
      leads_bodyLines (p := { coords, sheets := declaredOf d c, begun }) rfl hlisted
  obtain ⟨k, hticks⟩ := exists_ticks c d
  rw [hticks] at hall
  obtain ⟨hfollows, begun, hbehind⟩ := hall
  obtain ⟨begun', layer, hlast⟩ := pageBehind_ticks n (pageBehind n {} (lines c d)) k
  rw [pageBehind, List.foldl_append, ← pageBehind, ← pageBehind, hlast] at hbehind
  generalize pageBehind n {} (lines c d) = p at hbehind ⊢
  obtain ⟨hcoords, hsheets, -, -, hheader, hfigures⟩ := Page.mk.inj hbehind
  exact ⟨hfollows.of_append, hheader, fun r p => by rw [hcoords, hheld r p], hsheets,
    hfigures⟩

theorem length_recordOf_written (k : Nat) (ls : List Line) :
    (recordOf (written k ls)).length = measurementsOf ls := by
  induction ls generalizing k with
  | nil => rfl
  | cons l rest ih =>
      have hsum : measurementsOf (l :: rest) = l.measurements + measurementsOf rest := rfl
      rw [written, recordOf_append, List.length_append, ih, recordOf_map, List.length_map,
        ← List.countP_eq_length_filter, hsum]
      rfl

end Emission

namespace Build

open Emission

variable {text : String} {d : Detail}

theorem measurementsOf_lines (text : String) (d : Detail) :
    measurementsOf (lines (parse text).circuit d) = (parse text).circuit.measurements := by
  rw [← length_recordOf_written 0, written_parse, ← length_recordOf_parse text]
  rfl

theorem filled_parse (text : String) (d : Detail) :
    FollowsFrom (numberingOf (parse text).circuit d) {} (lines (parse text).circuit d) ∧
      Filled (numberingOf (parse text).circuit d) d (parse text).circuit
        (pageBehind (numberingOf (parse text).circuit d) {} (lines (parse text).circuit d)) :=
  filled_lines (declarable_parseWith .standard text) (fun _ hq _ hr => number_injective hq hr)
    (fun _ hq _ hr => eq_of_coordsOf_parse hq hr) fun _ hl _ hf => sheet_of_figure hl hf

theorem text_eq_textOf (c : Circuit) (d : Detail) :
    Emission.text c d = textOf (numberingOf c d) (lines c d) := rfl

/-- Text that can be written is parsed without diagnostics. -/
theorem retraced_parse (h : ExpressibleIn d (parse text).circuit)
    (hrecord : (parse text).circuit.measurements ≤ Lexeme.offsetBound) :
    Retraced (numberingOf (parse text).circuit d) (lines (parse text).circuit d) := by
  obtain ⟨hfollows, hfilled⟩ := filled_parse text d
  refine retraced_of_sound (soundFrom_lines h) hfollows hfilled.header
    ((measurementsOf_lines text d).trans_le hrecord) ?_
  rw [written_parse]
  exact replayable_parse h

/-- Every qubit that is written is declared at its place under its new number. -/
theorem coordsOf_parse_text (h : ExpressibleIn d (parse text).circuit)
    (hrecord : (parse text).circuit.measurements ≤ Lexeme.offsetBound) {q : QubitId}
    (hq : q ∈ mentioned (parse text).circuit d) :
    (parse (Emission.text (parse text).circuit d)).circuit.coordsOf
      ((numberingOf (parse text).circuit d).number q) = ((parse text).circuit.coordsOf q).place := by
  refine coordsOf_parseWith_of_declared .standard _ ?_
  rw [draft, text_eq_textOf, (retraced_parse h hrecord).shows.coords]
  exact ((filled_parse text d).2.coords _ _).2 ⟨q, hq, rfl, rfl⟩

end Build

end StimOverlay
