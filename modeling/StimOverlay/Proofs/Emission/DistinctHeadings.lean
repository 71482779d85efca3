import StimOverlay.Proofs.Emission.WrittenLayers
import StimOverlay.Proofs.Source.EscapedTags

/-! Headings tell operations apart. What stands behind the name of a heading is read back as the tag and the
arguments, whatever the tag is made of, so that operations under one heading have the same gate, or products
of the same family, with the same tag and the same arguments. -/

namespace StimOverlay

open Numeric Emission

namespace Numeric.Binary

variable {f : Format}

theorem read?_text_infinite (negative : Bool) :
    read? f (infinite negative : Binary f).text.toList = some (infinite negative) := by
  have hmagnitude (negative : Bool) :
      readMagnitude? f negative ['i', 'n', 'f'] = some (infinite negative) := by
    have hword : ['i', 'n', 'f'].map Char.toLower = ['i', 'n', 'f'] := by decide
    rw [readMagnitude?, hword, if_neg (by decide), if_pos (by decide)]
  cases negative with
  | false =>
      have htext : (infinite false : Binary f).text.toList = ['i', 'n', 'f'] :=
        show "inf".toList = _ by decide
      rw [htext]
      exact hmagnitude false
  | true =>
      have htext : (infinite true : Binary f).text.toList = ['-', 'i', 'n', 'f'] :=
        show "-inf".toList = _ by decide
      rw [htext]
      exact hmagnitude true

theorem read?_text_nan (negative : Bool) :
    read? f (nan negative : Binary f).text.toList = some (nan false) := by
  have htext : (nan negative : Binary f).text.toList = ['N', 'a', 'N'] :=
    show "NaN".toList = _ by decide
  have hmagnitude : readMagnitude? f false ['N', 'a', 'N'] = some (nan false) := by
    have hword : ['N', 'a', 'N'].map Char.toLower = ['n', 'a', 'n'] := by decide
    rw [readMagnitude?, hword, if_pos (by decide)]
  rw [htext]
  exact hmagnitude

/-- Only the sign of not-a-number is lost in its text. -/
theorem text_eq_iff (hf : f.Ample) {x y : Binary f} :
    x.text = y.text ↔ x = y ∨ x.isNaN = true ∧ y.isNaN = true := by
  have hread (x : Binary f) :
      read? f x.text.toList = some (if x.isNaN then nan false else x) := by
    cases x with
    | nan negative => exact read?_text_nan negative
    | infinite negative => exact read?_text_infinite negative
    | finite negative m e h => exact read?_text hf rfl
  constructor
  · intro h
    have hsame := (hread x).symm.trans (h ▸ hread y)
    rw [Option.some_inj] at hsame
    by_cases hx : x.isNaN
    · by_cases hy : y.isNaN
      · exact .inr ⟨hx, hy⟩
      · rw [if_pos hx, if_neg hy] at hsame
        exact absurd (hsame ▸ rfl) hy
    · by_cases hy : y.isNaN
      · rw [if_neg hx, if_pos hy] at hsame
        exact absurd (hsame ▸ rfl) hx
      · rw [if_neg hx, if_neg hy] at hsame
        exact .inl hsame
  · rintro (rfl | ⟨hx, hy⟩)
    · rfl
    · cases x with
      | nan negative =>
          cases y with
          | nan negative' => rfl
          | _ => cases hy
      | _ => cases hx

end Numeric.Binary

theorem Text.intercalate_injective {c : Char} {gap : List Char} {xs ys : List (List Char)}
    (hgap : c ∉ gap) (hxs : ∀ x ∈ xs, c ∉ x) (hys : ∀ y ∈ ys, c ∉ y) (hx : xs ≠ []) (hy : ys ≠ [])
    (h : (c :: gap).intercalate xs = (c :: gap).intercalate ys) : xs = ys := by
  -- The gap is taken as the beginning of the piece behind it.
  have hsplit {x : List Char} {xs : List (List Char)} (hxs : ∀ y ∈ x :: xs, c ∉ y) :
      splitWhere (c == ·) ((c :: gap).intercalate (x :: xs)) = x :: xs.map (gap ++ ·) := by
    have hpieces : (c :: gap).intercalate (x :: xs) =
        [c].intercalate (x :: xs.map (gap ++ ·)) := by
      rw [intercalate_cons, intercalate_cons, List.flatMap_map]
      rfl
    rw [hpieces]
    refine splitWhere_intercalate (beq_self_eq_true c) (List.cons_ne_nil _ _) ?_
    intro piece hpiece d hd
    rw [beq_eq_false_iff_ne]
    rintro rfl
    rcases List.mem_cons.1 hpiece with rfl | hpiece
    · exact hxs _ List.mem_cons_self hd
    · obtain ⟨y, hmem, rfl⟩ := List.mem_map.1 hpiece
      rcases List.mem_append.1 hd with hd | hd
      · exact hgap hd
      · exact hxs y (List.mem_cons_of_mem _ hmem) hd
  obtain ⟨x, xs, rfl⟩ := List.exists_cons_of_ne_nil hx
  obtain ⟨y, ys, rfl⟩ := List.exists_cons_of_ne_nil hy
  have hpieces := (hsplit hxs).symm.trans ((congrArg _ h).trans (hsplit hys))
  obtain ⟨hhead, htail⟩ := List.cons.inj hpieces
  rw [hhead, (List.map_inj_right fun _ _ h => List.append_cancel_left h).1 htail]

namespace Operation

/-- The arguments as they stand in a heading: nothing, or a list in parentheses. -/
def argumentText (op : Operation) : List Char :=
  if op.args.isEmpty then []
  else '(' :: ([',', ' '].intercalate (op.args.map (·.text.toList)) ++ [')'])

/-- The tag and the arguments as they stand in a heading. -/
def behindName (op : Operation) : List Char :=
  (if op.tag.isEmpty then [] else '[' :: (escapeTag op.tag.toList ++ [']'])) ++ op.argumentText

theorem heading_eq (op : Operation) : op.heading.toList = op.headName.toList ++ op.behindName := by
  have htag : (if op.tag.isEmpty then "" else "[" ++ String.ofList (escapeTag op.tag.toList) ++ "]").toList =
      if op.tag.isEmpty then [] else '[' :: (escapeTag op.tag.toList ++ [']']) := by
    split_ifs
    · rfl
    · simp
  have hargs : (if op.args.isEmpty then ""
      else "(" ++ String.intercalate ", " (op.args.map Binary.text) ++ ")").toList = op.argumentText := by
    rw [argumentText]
    split_ifs
    · rfl
    · simp [String.toList_intercalate, List.map_map, Function.comp_def]
  rw [heading, String.toList_append, String.toList_append, htag, hargs, headName, behindName,
    List.append_assoc]

theorem readTag_behindName (op : Operation) :
    Instruction.readTag op.behindName = .ok (op.tag.toList, op.argumentText) := by
  rw [behindName]
  split_ifs with htag
  · rw [String.isEmpty_iff.1 htag, List.nil_append, argumentText]
    split_ifs <;> rfl
  · rw [List.cons_append, List.append_assoc, List.singleton_append, Instruction.readTag, Tag.read,
      Tag.readFrom_escapeTag]
    rfl

theorem comma_notMem_text (x : Binary32) : ',' ∉ x.text.toList := fun h =>
  absurd (Binary.mem_numberChars h) (by decide)

/-- Arguments with the same texts. -/
theorem texts_of_argumentText {a b : Operation} (h : a.argumentText = b.argumentText) :
    a.args.map Binary.text = b.args.map Binary.text := by
  rw [argumentText, argumentText] at h
  split_ifs at h with ha hb hb
  · rw [List.isEmpty_iff.1 ha, List.isEmpty_iff.1 hb]
  · have hplain (op : Operation) : ∀ t ∈ op.args.map (·.text.toList), ',' ∉ t := by
      intro t ht
      obtain ⟨x, -, rfl⟩ := List.mem_map.1 ht
      exact comma_notMem_text x
    have hne {op : Operation} (hop : ¬op.args.isEmpty) : op.args.map (·.text.toList) ≠ [] := by
      simpa using hop
    have htexts := Text.intercalate_injective (by decide) (hplain a) (hplain b) (hne ha) (hne hb)
      (List.append_cancel_right (List.cons.inj h).2)
    have hmap (op : Operation) : op.args.map (·.text.toList) =
        (op.args.map Binary.text).map String.toList := by
      rw [List.map_map]
      rfl
    rw [hmap, hmap] at htexts
    exact (List.map_inj_right fun _ _ => String.toList_inj.1).1 htexts

/-- The gate is a standard one or a product of a standard family. -/
def Ordinary (op : Operation) : Prop :=
  op.gate ∈ Gate.standard ∨ ∃ family ∈ Gate.productFamilies, ∃ bases, op.gate = .product family bases

/-- The same standard gate, or two products of one family. -/
inductive SameName : Gate → Gate → Prop where
  | gate {g : Gate} (standard : g ∈ Gate.standard) : SameName g g
  | product {family : String} (known : family ∈ Gate.productFamilies) (bases bases' : List Pauli) :
      SameName (.product family bases) (.product family bases')

/-- Operations that differ in nothing but their targets, the bases of products and the signs of arguments
that are not numbers. -/
structure Alike (a b : Operation) : Prop where
  gate : SameName a.gate b.gate
  tag : a.tag = b.tag
  args : List.Forall₂ (fun x y : Binary32 => x = y ∨ x.isNaN = true ∧ y.isNaN = true) a.args b.args

variable {a b : Operation}

theorem Ordinary.plain (h : a.Ordinary) : Plain a.headName := by
  rcases h with hgate | ⟨family, hfamily, bases, hgate⟩
  · rw [headName_of_mem_standard hgate]
    exact plain_standard _ hgate
  · rw [headName_product hfamily hgate]
    exact (plain_families family hfamily).1

theorem headName_eq_iff (ha : a.Ordinary) (hb : b.Ordinary) :
    a.headName = b.headName ↔ SameName a.gate b.gate := by
  constructor
  · intro h
    rcases ha with ha | ⟨family, hfamily, bases, ha⟩
    · rcases hb with hb | ⟨family', hfamily', bases', hb⟩
      · rw [headName_of_mem_standard ha, headName_of_mem_standard hb] at h
        rw [← List.inj_on_of_nodup_map Gate.nodup_standard_names ha hb h]
        exact .gate ha
      · rw [headName_of_mem_standard ha, headName_product hfamily' hb] at h
        exact absurd (h ▸ hfamily') (family_notMem_standard _ ha)
    · rcases hb with hb | ⟨family', hfamily', bases', hb⟩
      · rw [headName_product hfamily ha, headName_of_mem_standard hb] at h
        exact absurd (h ▸ hfamily) (family_notMem_standard _ hb)
      · rw [headName_product hfamily ha, headName_product hfamily' hb] at h
        rw [ha, hb, ← h]
        exact .product hfamily bases bases'
  · intro h
    generalize hga : a.gate = g, hgb : b.gate = g' at h
    cases h with
    | gate => rw [headName, headName, hga, hgb]
    | product known bases bases' => rw [headName_product known hga, headName_product known hgb]

/-- The heading says everything but what `Alike` leaves open. -/
theorem heading_eq_iff (ha : a.Ordinary) (hb : b.Ordinary) : a.heading = b.heading ↔ Alike a b := by
  constructor
  · intro h
    have hname := headName_of_heading ha.plain hb.plain h
    have hbehind : a.behindName = b.behindName := by
      have hlists := congrArg String.toList h
      rw [heading_eq, heading_eq, hname] at hlists
      exact List.append_cancel_left hlists
    have hread := (readTag_behindName a).symm.trans (hbehind ▸ readTag_behindName b)
    obtain ⟨htag, hargs⟩ := Prod.mk.inj (Except.ok.inj hread)
    refine ⟨(headName_eq_iff ha hb).1 hname, String.toList_inj.1 htag, ?_⟩
    have htexts := texts_of_argumentText hargs
    rw [← List.forall₂_eq_eq_eq, List.forall₂_map_left_iff, List.forall₂_map_right_iff] at htexts
    exact htexts.imp fun _ _ => (Binary.text_eq_iff Format.ample_binary32).1
  · rintro ⟨hgate, htag, hargs⟩
    have htexts : a.args.map Binary.text = b.args.map Binary.text := by
      rw [← List.forall₂_eq_eq_eq, List.forall₂_map_left_iff, List.forall₂_map_right_iff]
      exact hargs.imp fun _ _ => (Binary.text_eq_iff Format.ample_binary32).2
    have hempty : a.args.isEmpty = b.args.isEmpty := by
      rw [Bool.eq_iff_iff, List.isEmpty_iff_length_eq_zero, List.isEmpty_iff_length_eq_zero,
        hargs.length_eq]
    have hname := (headName_eq_iff ha hb).2 hgate
    rw [headName, headName] at hname
    rw [heading, heading, hname, htag, htexts, hempty]

end Operation

namespace Emission

open Operation

/-- **Headings tell operations apart**: they agree exactly for operations with the same gate, or products of the
same family, with the same tag and the same arguments. So each operation on a written line stands under a
heading of its own name, tag and arguments, and shares the line only with operations alike. -/
theorem heading_tells_apart :
    (∀ a b : Operation, a.Ordinary → b.Ordinary → (a.heading = b.heading ↔ Alike a b)) ∧
      ∀ (c : Circuit) (d : Detail), (∀ op ∈ c.operationsAndMarkers, op.Ordinary) →
        ∀ line ∈ lines c d, ∀ a ∈ line.ops, line.heading? = some a.heading ∧
          ∀ b ∈ line.ops, Alike a b := by
  refine ⟨fun a b => heading_eq_iff, fun c d hordinary line hline a ha => ?_⟩
  obtain ⟨hmema, hheadinga⟩ := mem_lines_of_operation hline ha
  refine ⟨hheadinga, fun b hb => ?_⟩
  obtain ⟨hmemb, hheadingb⟩ := mem_lines_of_operation hline hb
  have hsame : a.heading = b.heading := Option.some.inj (hheadinga.symm.trans hheadingb)
  exact (heading_eq_iff (hordinary a (Build.mem_operationsAndMarkers.2 hmema))
    (hordinary b (Build.mem_operationsAndMarkers.2 hmemb))).1 hsame

/-- Two products under one heading, and a gate whose tag looks like the end of theirs. -/
theorem heading_tells_apart_products :
    let pair : Operation := ⟨.product "MPP" [.x, .z], "a](1", [], [0, 1], 1, by decide⟩
    let single : Operation := ⟨.product "MPP" [.y], "a](1", [], [2], 2, by decide⟩
    let argued : Operation := ⟨.product "MPP" [.y], "a", [.ofNat _ 1], [3], 3, by decide⟩
    let c : Circuit := { schedule := ⟨#[], ((Layer.startingWith pair).insert single).insert argued⟩ }
    pair.heading = single.heading ∧ single.heading ≠ argued.heading ∧
      (∀ op ∈ c.operationsAndMarkers, op.Ordinary) ∧
      ∀ line ∈ lines c .plain, ∀ a ∈ line.ops, line.heading? = some a.heading ∧
        ∀ b ∈ line.ops, Alike a b := by
  intro pair single argued c
  have hfamily : "MPP" ∈ Gate.productFamilies := by decide
  have hpair : pair.Ordinary := .inr ⟨"MPP", hfamily, _, rfl⟩
  have hsingle : single.Ordinary := .inr ⟨"MPP", hfamily, _, rfl⟩
  have hargued : argued.Ordinary := .inr ⟨"MPP", hfamily, _, rfl⟩
  have hordinary : ∀ op ∈ c.operationsAndMarkers, op.Ordinary := by
    have hops : c.operationsAndMarkers = [pair, single, argued] := rfl
    rw [hops]
    exact List.forall_mem_cons.2 ⟨hpair, List.forall_mem_cons.2 ⟨hsingle, List.forall_mem_singleton.2 hargued⟩⟩
  refine ⟨?_, fun h => ?_, hordinary, heading_tells_apart.2 c .plain hordinary⟩
  · exact (heading_tells_apart.1 pair single hpair hsingle).2 ⟨.product hfamily _ _, rfl, .nil⟩
  · have htag := ((heading_tells_apart.1 single argued hsingle hargued).1 h).tag
    exact absurd htag (by decide)

end Emission

end StimOverlay
