import Mathlib.Data.List.Nodup
import StimOverlay.Proofs.Run.PlacedOperations

/-! Names of gates. The name of a product gives away its family and its bases, and no other standard
gate has a name with a colon; so a gate that is known to the standard context is determined by its
name. -/

namespace StimOverlay

namespace Pauli

theorem letter_injective : Function.Injective letter := by
  intro a b h
  cases a <;> cases b <;> first | rfl | exact absurd h (by decide)

end Pauli

namespace Gate

theorem colon_notMem_family {family : String} (h : family ∈ productFamilies) :
    ':' ∉ family.toList := by
  revert family
  decide

theorem toList_product_name (family : String) (bases : List Pauli) :
    (product family bases).name.toList = family.toList ++ ':' :: bases.map Pauli.letter := by
  simp only [product, String.toList_append, String.toList_ofList, List.append_assoc]
  rfl

theorem span_product_name {family : String} (h : family ∈ productFamilies) (bases : List Pauli) :
    (product family bases).name.toList.takeWhile (· != ':') = family.toList ∧
      (product family bases).name.toList.dropWhile (· != ':') =
        ':' :: bases.map Pauli.letter := by
  have hall : ∀ c ∈ family.toList, (c != ':') = true := fun c hc => by
    rw [bne_iff_ne]
    exact fun heq => colon_notMem_family h (heq ▸ hc)
  rw [toList_product_name]
  constructor
  · rw [List.takeWhile_append_of_pos hall]
    simp
  · rw [List.dropWhile_append_of_pos hall]
    simp

theorem bases?_product {family : String} (h : family ∈ productFamilies) (bases : List Pauli) :
    (product family bases).bases? = some (bases.map Pauli.letter) := by
  rw [bases?, (span_product_name h bases).2]

theorem family_product {family : String} (h : family ∈ productFamilies) (bases : List Pauli) :
    (product family bases).family = family := by
  rw [Gate.family, (span_product_name h bases).1, String.ofList_toList]

theorem bases?_of_mem_standard {g : Gate} (h : g ∈ standard) : g.bases? = none := by
  revert g
  decide

theorem nodup_standard_names : (standard.map Gate.name).Nodup := by decide

end Gate

namespace Build

theorem Context.Knows.cases {g : Gate} (h : Context.standard.Knows g) :
    g ∈ Gate.standard ∨
      ∃ family ∈ Gate.productFamilies, ∃ bases, bases ≠ [] ∧ g = .product family bases := by
  refine h.imp_left fun ⟨name, hname⟩ => ?_
  have hfind : Gate.standard.find? (·.name == name) = some g := hname
  exact List.mem_of_find?_eq_some hfind

/-- A known gate is determined by its name. -/
theorem Context.Knows.eq_of_name_eq {g h : Gate} (hg : Context.standard.Knows g)
    (hh : Context.standard.Knows h) (hname : g.name = h.name) : g = h := by
  have hbases : g.bases? = h.bases? := by rw [Gate.bases?, Gate.bases?, hname]
  have hfamily : g.family = h.family := by rw [Gate.family, Gate.family, hname]
  rcases hg.cases with hg | ⟨f, hf, bs, -, rfl⟩
  · rcases hh.cases with hh | ⟨f', hf', bs', -, rfl⟩
    · exact List.inj_on_of_nodup_map Gate.nodup_standard_names hg hh hname
    · rw [Gate.bases?_of_mem_standard hg, Gate.bases?_product hf'] at hbases
      cases hbases
  · rcases hh.cases with hh | ⟨f', hf', bs', -, rfl⟩
    · rw [Gate.bases?_of_mem_standard hh, Gate.bases?_product hf] at hbases
      cases hbases
    · rw [Gate.bases?_product hf, Gate.bases?_product hf', Option.some_inj] at hbases
      rw [Gate.family_product hf, Gate.family_product hf'] at hfamily
      rw [hfamily, (List.map_inj_right fun _ _ h => Pauli.letter_injective h).1 hbases]

end Build

namespace Gate

theorem name_ne_of_colon {g : Gate} {name : String} (hg : ':' ∈ g.name.toList)
    (hname : ':' ∉ name.toList) : g.name ≠ name :=
  fun h => hname (h ▸ hg)

theorem colon_mem_product_name (family : String) (bases : List Pauli) :
    ':' ∈ (product family bases).name.toList := by
  rw [toList_product_name]
  exact List.mem_append_right _ List.mem_cons_self

end Gate

namespace Build

theorem gate?_standard_name {name : String} {g : Gate}
    (h : Context.standard.catalog.gate? name = some g) : g.name = name := by
  have hfind : Gate.standard.find? (·.name == name) = some g := h
  simpa using List.find?_some hfind

theorem alias?_standard_mem {name : String} {a : Alias}
    (h : Context.standard.catalog.alias? name = some a) : ∃ n, (n, a) ∈ Alias.standard := by
  have hfind : (Alias.standard.find? (·.1 == name)).map (·.2) = some a := h
  obtain ⟨e, he, rfl⟩ := Option.map_eq_some_iff.1 hfind
  exact ⟨e.1, List.mem_of_find?_eq_some he⟩

/-- No other name stands for a detector or an observable. -/
theorem renamed_ne_marker {n canonical : String} {swapped : Bool}
    (h : (n, Alias.renamed canonical swapped) ∈ Alias.standard) :
    canonical ≠ detectorName ∧ canonical ≠ observableName := by
  have hall : ∀ e ∈ Alias.standard, ∀ canonical swapped, e.2 = .renamed canonical swapped →
      canonical ≠ detectorName ∧ canonical ≠ observableName := by
    intro e he canonical swapped heq
    have hmem : canonical ∈ Alias.standard.filterMap fun e => match e.2 with
        | .renamed canonical _ => some canonical
        | .ignored => none :=
      List.mem_filterMap.2 ⟨e, he, by rw [heq]⟩
    revert hmem
    generalize canonical = c
    revert c
    decide
  exact hall _ h _ _ rfl

/-- A move that a run with the standard gates can make. -/
def Move.Legal : Move → Prop
  | .place op => WellBuilt .standard op ∧ op.gate.name ≠ detectorName ∧
      op.gate.name ≠ observableName
  | .mark op => WellBuilt .standard op ∧ op.gate.name = "ERR"
  | _ => True

/-- What an instruction that is for neither a detector nor an observable places is for neither. -/
theorem PlacedBy.gate_ne_marker {i : Instruction} {op : Operation} (h : PlacedBy .standard i op)
    (hname : i.name ≠ detectorName ∧ i.name ≠ observableName) :
    op.gate.name ≠ detectorName ∧ op.gate.name ≠ observableName := by
  rcases h.gate with (hgate | ⟨canonical, swapped, halias, hgate⟩) | ⟨-, bases, -, hgate⟩
  · rw [gate?_standard_name hgate]
    exact hname
  · obtain ⟨other, hother⟩ := alias?_standard_mem halias
    rw [gate?_standard_name hgate]
    exact renamed_ne_marker hother
  · rw [hgate]
    have hcolon := Gate.colon_mem_product_name i.name bases
    exact ⟨Gate.name_ne_of_colon hcolon (by decide), Gate.name_ne_of_colon hcolon (by decide)⟩

theorem Move.IsFeedback.legal {line : Nat} {i : Instruction} {m : Move}
    (h : m.IsFeedback .standard line i) (hrange : InRange i) : m.Legal := by
  obtain ⟨err, q, herr, ⟨t, ht, hq⟩, rfl⟩ := h
  have hgate : err = ⟨"ERR", 1, false, .marker⟩ := by
    have hfind : Context.standard.catalog.gate? "ERR" = some ⟨"ERR", 1, false, .marker⟩ := by
      decide
    rw [hfind] at herr
    exact (Option.some_inj.1 herr).symm
  refine ⟨⟨.inl ⟨"ERR", herr⟩, ?_, ?_⟩, ?_⟩
  · rw [hgate]
    rfl
  · intro q' hq'
    rw [List.mem_singleton.1 hq']
    exact hrange t ht q hq
  · rw [hgate]
    rfl

theorem legal_of_instructionMoves {n line : Nat} {i : Instruction} {m : Move} (hrange : InRange i)
    (h : m ∈ instructionMoves .standard n line i) : m.Legal := by
  obtain ⟨-, rfl⟩ | ⟨-, hm⟩ | ⟨hname, ⟨op, rfl, hplaced⟩ | hfeedback⟩ := instructionMoves_cases h
  · trivial
  · obtain ⟨_, -, ⟨-, rfl⟩ | ⟨_, -, rfl⟩⟩ := detector_or_observable_of_markerMoves hm
    · trivial
    · trivial
  · exact ⟨hplaced.wellBuilt hrange, hplaced.gate_ne_marker hname⟩
  · exact hfeedback.legal hrange

theorem legal_of_mem_moves {acts : List Act} {m : Move} (h : m ∈ moves .standard acts) :
    m.Legal := by
  obtain ⟨a, -, k, hk⟩ := mem_movesFrom h
  obtain ⟨line, i, hi, hm⟩ := instruction_of_mem_moves hk
  exact legal_of_instructionMoves (inRange_of_instruction? hi) hm

end Build

end StimOverlay
