import StimOverlay.Proofs.Source.SpelledOutLines

/-! Spelling out again. The first rules of the shorthand write abbreviations in full, all others do nothing
but put underscores back. When a text that has been spelled out is spelled out once more, its underscores are
blanks at first. No abbreviation is left in it then, and the blanks differ from the text that the underscores
were put into only where an abbreviation brought an underscore along. A rule puts each of these back before
any other rule could notice, so the second result is the first one. -/

namespace StimOverlay

namespace Text

variable {old new s : List Char}

/-- A map that takes what is put in to the same text as what it replaces does not notice. -/
theorem map_replaceAfter {g : Char → Char} (hne : old ≠ []) (h : new.map g = old.map g) (skip : Nat)
    (s : List Char) : (replaceAfter old new skip s).map g = (s.drop skip).map g := by
  induction s generalizing skip with
  | nil => simp [replaceAfter]
  | cons c s ih =>
      cases skip with
      | succ skip => exact ih skip
      | zero =>
          rw [replaceAfter]
          split
          · rename_i hstart
            obtain ⟨d, old, rfl⟩ := List.exists_cons_of_ne_nil hne
            obtain ⟨rest, hrest⟩ := List.isPrefixOf_iff_prefix.1 hstart
            rw [List.cons_append] at hrest
            obtain ⟨rfl, rfl⟩ := List.cons.inj hrest
            rw [List.map_append, ih, h, ← List.map_append, List.length_cons, Nat.add_sub_cancel,
              List.drop_left]
            rfl
          · rw [List.map_cons, ih]
            rfl

theorem replaceAfter_length (s rest : List Char) :
    replaceAfter old new s.length (s ++ rest) = replaceAfter old new 0 rest := by
  induction s with
  | nil => rfl
  | cons c s ih => exact ih

theorem contained_of_notMem {p : Char → Bool} {c : Char} (h : c ∉ s) : contained p (c :: old) s := by
  induction s with
  | nil => rfl
  | cons d s ih =>
      obtain ⟨hd, hs⟩ := not_or.1 (mt List.mem_cons.2 h)
      have hno : (d :: s).isPrefixOf (c :: old) = false := by
        rw [List.isPrefixOf_cons_cons, beq_eq_false_iff_ne.2 (Ne.symm hd), Bool.false_and]
      rw [contained, reaches, hno, ih hs]
      rfl

/-- Nothing is replaced in a text that no occurrence of `old` starts in. -/
theorem replaceAfter_behind (hcontained : contained (fun _ => true) old s) (hnot : ¬old <:+: s)
    (rest : List Char) : replaceAfter old new 0 (s ++ rest) = s ++ replaceAfter old new 0 rest := by
  induction s with
  | nil => rfl
  | cons c s ih =>
      rw [contained, Bool.and_eq_true, Bool.not_eq_true'] at hcontained
      have hno : ¬old.isPrefixOf (c :: (s ++ rest)) = true := by
        have hsame : old.isPrefixOf (c :: s ++ rest) = old.isPrefixOf (c :: s) :=
          isPrefixOf_append hcontained.1 fun _ _ => rfl
        rw [← List.cons_append, hsame, List.isPrefixOf_iff_prefix]
        exact fun hstart => hnot hstart.isInfix
      rw [List.cons_append, replaceAfter, if_neg hno,
        ih hcontained.2 fun hin => hnot (hin.trans (List.suffix_cons c s).isInfix), List.cons_append]

theorem replaceEach_cons (rule : String × String) (rules : List (String × String)) (s : List Char) :
    replaceEach (rule :: rules) s = replaceEach rules (replace rule.1.toList rule.2.toList s) := rfl

theorem replaceEach_rules_append (rules rules' : List (String × String)) (s : List Char) :
    replaceEach (rules ++ rules') s = replaceEach rules' (replaceEach rules s) := List.foldl_append

/-- What every rule keeps is kept by all of them, one after the other. -/
theorem replaceEach_induction {P : List Char → Prop} {rules : List (String × String)}
    (hstep : ∀ rule ∈ rules, ∀ s, P s → P (replace rule.1.toList rule.2.toList s)) (h : P s) :
    P (replaceEach rules s) :=
  List.foldlRecOn (motive := P) rules _ h fun s hs rule hrule => hstep rule hrule s hs

/-- Nowhere is `a` followed by `b`. -/
def Apart (a b : Char) (s : List Char) : Prop := s.IsChain fun c d => ¬(c = a ∧ d = b)

variable {a b c d : Char}

theorem Apart.not_contains (h : Apart a b s) : ¬[a, b] <:+: s := fun hin => by
  have hpair : Apart a b [a, b] := List.IsChain.infix h hin
  simp [Apart] at hpair

theorem prefix_pair : [c, d] <+: a :: s ↔ a = c ∧ s.head? = some d := by
  cases s with
  | nil => simp [List.cons_prefix_cons]
  | cons e s => simp [List.cons_prefix_cons, eq_comm]

/-- The text that a pair is replaced by starts with the same character. -/
theorem head?_replace (hfirst : new.head? = some c) (s : List Char) :
    (replace [c, d] new s).head? = s.head? := by
  cases s with
  | nil => rfl
  | cons e s =>
      rw [replace, replaceAfter]
      split
      · rename_i hstart
        rw [List.head?_append, hfirst, (prefix_pair.1 (List.isPrefixOf_iff_prefix.1 hstart)).1]
        rfl
      · rfl

/-- Replacing pairs leaves none of them, and brings no pair of another kind together. -/
theorem apart_replaceAfter (hnew : Apart a b new) (hfirst : new.head? = some c)
    (hlast : new.getLast? ≠ some a) {skip : Nat} (h : (c, d) = (a, b) ∨ Apart a b s) :
    Apart a b (replaceAfter [c, d] new skip s) := by
  induction s generalizing skip with
  | nil => simp [replaceAfter, Apart]
  | cons e s ih =>
      have htail : (c, d) = (a, b) ∨ Apart a b s := h.imp_right fun h => (List.isChain_cons.1 h).2
      cases skip with
      | succ skip => exact ih htail
      | zero =>
          rw [replaceAfter]
          split
          · refine List.isChain_append.2 ⟨hnew, ih htail, ?_⟩
            rintro f hf g - ⟨rfl, -⟩
            exact hlast hf
          · rename_i hno
            refine List.isChain_cons.2 ⟨?_, ih htail⟩
            have hhead : (replaceAfter [c, d] new 0 s).head? = s.head? := head?_replace hfirst s
            rw [hhead]
            rintro g hg ⟨rfl, rfl⟩
            rcases h with h | h
            · obtain ⟨rfl, rfl⟩ := Prod.mk.inj h
              exact hno (List.isPrefixOf_iff_prefix.2 (prefix_pair.2 ⟨rfl, hg⟩))
            · exact (List.isChain_cons.1 h).1 g hg ⟨rfl, rfl⟩

instance : Decidable (Apart a b s) := inferInstanceAs (Decidable (s.IsChain _))

/-- A rule that replaces pairs of one kind and brings no pair `a b` along. -/
def Spares (a b : Char) (rule : String × String) : Prop :=
  rule.1.toList.length = 2 ∧ rule.2.toList.head? = rule.1.toList.head? ∧ Apart a b rule.2.toList ∧
    rule.2.toList.getLast? ≠ some a

instance (rule : String × String) : Decidable (Spares a b rule) := instDecidableAnd

theorem apart_replaceEach {rules : List (String × String)} (hrules : ∀ rule ∈ rules, Spares a b rule)
    (h : [a, b] ∈ rules.map (·.1.toList) ∨ Apart a b s) : Apart a b (replaceEach rules s) := by
  induction rules generalizing s with
  | nil => exact h.resolve_left List.not_mem_nil
  | cons rule rules ih =>
      obtain ⟨⟨hlength, hfirst, hnew, hlast⟩, hrules⟩ := List.forall_mem_cons.1 hrules
      obtain ⟨c, d, hold⟩ := List.length_eq_two.1 hlength
      rw [hold] at hfirst
      rw [List.map_cons, List.mem_cons, hold, or_assoc] at h
      have hreplaced (h : [a, b] = [c, d] ∨ Apart a b s) :
          Apart a b (replace rule.1.toList rule.2.toList s) := by
        rw [hold]
        refine apart_replaceAfter hnew hfirst hlast (h.imp_left fun h => ?_)
        simpa [eq_comm] using h
      rw [replaceEach_cons]
      refine ih hrules ?_
      rcases h with h | h | h
      · exact .inr (hreplaced (.inl h))
      · exact .inl h
      · exact .inr (hreplaced (.inr h))

end Text

namespace Source

/-- The rules that write abbreviations in full. -/
def expansions : List (String × String) := shorthand.take 3

/-- The rules that put underscores back. -/
def restorations : List (String × String) := shorthand.drop 3

/-- Two words stand behind an underscore where an abbreviation is written in full. -/
def coordinatesWord : List Char := "COORDS".toList

def includeWord : List Char := "INCLUDE".toList

/-- The rules between those for the two words. -/
def middleRestorations : List (String × String) := (restorations.drop 1).take 11

/-- The rules behind those for the two words. -/
def lastRestorations : List (String × String) := restorations.drop 13

theorem shorthand_eq : shorthand = expansions ++ restorations := rfl

theorem restorations_eq : restorations = (" COORDS", "_COORDS") :: (middleRestorations ++
    (" INCLUDE", "_INCLUDE") :: lastRestorations) := rfl

/-- The text with its underscores as blanks. -/
def blanked (s : List Char) : List Char := s.map fun c => if c == '_' then ' ' else c

/-- Putting `new` in place of `old` only makes underscores of blanks. -/
def Restores (old new : List Char) : Prop := old ≠ [] ∧ '_' ∉ old ∧ blanked new = old

instance (old new : List Char) : Decidable (Restores old new) := instDecidableAnd

theorem blanked_append (s t : List Char) : blanked (s ++ t) = blanked s ++ blanked t := List.map_append

theorem blanked_eq_self {s : List Char} (h : '_' ∉ s) : blanked s = s := map_of_underscore_notMem h

theorem underscore_notMem_blanked (s : List Char) : '_' ∉ blanked s := by
  intro hmem
  obtain ⟨c, -, hc⟩ := List.mem_map.1 hmem
  split_ifs at hc with hunderscore
  · cases hc
  · exact hunderscore (by simpa using hc)

/-- A word without blanks stands in the text as well if it stands there when underscores are blanks. -/
theorem prefix_of_blanked {word s : List Char} (hword : ' ' ∉ word) (h : word <+: blanked s) :
    word <+: s := by
  induction word generalizing s with
  | nil => exact List.nil_prefix
  | cons c word ih =>
      obtain ⟨hc, hword⟩ := not_or.1 (mt List.mem_cons.2 hword)
      cases s with
      | nil => exact absurd h (by simp [blanked])
      | cons d s =>
          obtain ⟨hd, hs⟩ := List.cons_prefix_cons.1 h
          dsimp only at hd
          split_ifs at hd
          · exact absurd hd.symm hc
          · exact hd ▸ (List.prefix_cons_inj c).2 (ih hword hs)

theorem blanked_mono {s t : List Char} (h : s <+: t) : blanked s <+: blanked t := h.map _

theorem restores_word {word : List Char} (h : '_' ∉ word) : Restores (' ' :: word) ('_' :: word) :=
  ⟨List.cons_ne_nil _ _, by simp [h], congrArg (' ' :: ·) (blanked_eq_self h)⟩

theorem Restores.blanked_replaceAfter {old new : List Char} (h : Restores old new) (s : List Char) :
    blanked (Text.replaceAfter old new 0 s) = blanked s := by
  obtain ⟨hne, hunderscore, hsame⟩ := h
  exact Text.map_replaceAfter hne (hsame.trans (blanked_eq_self hunderscore).symm) 0 s

/-- The second text is the first one with blanks in place of some underscores, each of which stands in front
of one of the words. -/
inductive Loosened (words : List (List Char)) : List Char → List Char → Prop where
  | nil : Loosened words [] []
  | same (c : Char) {s t : List Char} (h : Loosened words s t) : Loosened words (c :: s) (c :: t)
  | blank {word s t : List Char} (hword : word ∈ words) (hstart : word <+: blanked s)
      (h : Loosened words s t) : Loosened words ('_' :: s) (' ' :: t)

/-- Whether a blank of `old` can stand in front of the word. -/
def meets (word : List Char) : List Char → Bool
  | [] => false
  | c :: old => (c == ' ' && (old.isPrefixOf word || word.isPrefixOf old)) || meets word old

namespace Loosened

variable {words : List (List Char)} {s t s' t' : List Char}

theorem refl (s : List Char) : Loosened words s s := by
  induction s with
  | nil => exact .nil
  | cons c s ih => exact .same c ih

theorem append (h : Loosened words s t) (h' : Loosened words s' t') :
    Loosened words (s ++ s') (t ++ t') := by
  induction h with
  | nil => exact h'
  | same c _ ih => exact .same c ih
  | blank hword hstart _ ih =>
      exact .blank hword (hstart.trans (blanked_mono (List.prefix_append _ _))) ih

theorem blanked_eq (h : Loosened words s t) : blanked s = blanked t := by
  induction h with
  | nil => rfl
  | same c _ ih => exact congrArg (_ :: ·) ih
  | blank _ _ _ ih => exact congrArg (' ' :: ·) ih

theorem eq_of_nil (h : Loosened [] s t) : s = t := by
  induction h with
  | nil => rfl
  | same c _ ih => rw [ih]
  | blank hword => cases hword

/-- An occurrence whose blanks stand in front of none of the words is in both texts or in neither. -/
theorem prefix_iff {old : List Char} (h : Loosened words s t) (hunderscore : '_' ∉ old)
    (hmeets : ∀ word ∈ words, meets word old = false) : old <+: s ↔ old <+: t := by
  induction h generalizing old with
  | nil => rfl
  | same c _ ih =>
      cases old with
      | nil => simp
      | cons d old =>
          have htail : ∀ word ∈ words, meets word old = false := fun word hword =>
            (Bool.or_eq_false_iff.1 (hmeets word hword)).2
          rw [List.cons_prefix_cons, List.cons_prefix_cons,
            ih (mt (List.mem_cons_of_mem d) hunderscore) htail]
  | @blank word s t hword hstart h ih =>
      cases old with
      | nil => simp
      | cons d old =>
          rw [List.cons_prefix_cons, List.cons_prefix_cons]
          refine iff_of_false (fun hs => hunderscore (hs.1 ▸ List.mem_cons_self)) ?_
          rintro ⟨rfl, ht⟩
          have hno := (Bool.or_eq_false_iff.1 (hmeets word hword)).1
          rw [beq_self_eq_true, Bool.true_and, Bool.or_eq_false_iff] at hno
          -- Both stand behind the blank, so one of them starts with the other.
          have hold : old <+: blanked s := by
            rw [h.blanked_eq, ← blanked_eq_self (mt (List.mem_cons_of_mem _) hunderscore)]
            exact blanked_mono ht
          rcases List.prefix_or_prefix_of_prefix hold hstart with hle | hle
          · exact absurd (List.isPrefixOf_iff_prefix.2 hle) (by simp [hno.1])
          · exact absurd (List.isPrefixOf_iff_prefix.2 hle) (by simp [hno.2])

/-- A rule whose blanks stand in front of none of the words does the same to both texts. -/
theorem replaceAfter {old new : List Char} (h : Loosened words s t) (hrule : Restores old new)
    (hmeets : ∀ word ∈ words, meets word old = false) (skip : Nat) :
    Loosened words (Text.replaceAfter old new skip s) (Text.replaceAfter old new skip t) := by
  induction h generalizing skip with
  | nil => exact refl _
  | @same c s t h ih =>
      cases skip with
      | succ skip => exact ih skip
      | zero =>
          have hiff := (h.same c).prefix_iff hrule.2.1 hmeets
          rw [Text.replaceAfter, Text.replaceAfter]
          simp only [List.isPrefixOf_iff_prefix, hiff]
          split
          · exact (refl _).append (ih _)
          · exact (ih 0).same c
  | @blank word s t hword hstart h ih =>
      cases skip with
      | succ skip => exact ih skip
      | zero =>
          have hiff := (h.blank hword hstart).prefix_iff hrule.2.1 hmeets
          have hno : ¬old <+: '_' :: s := fun hs => by
            obtain ⟨c, old, rfl⟩ := List.exists_cons_of_ne_nil hrule.1
            exact hrule.2.1 ((List.cons_prefix_cons.1 hs).1 ▸ List.mem_cons_self)
          rw [Text.replaceAfter, Text.replaceAfter,
            if_neg (mt List.isPrefixOf_iff_prefix.1 hno),
            if_neg (mt List.isPrefixOf_iff_prefix.1 (mt hiff.2 hno))]
          refine .blank hword ?_ (ih 0)
          rwa [hrule.blanked_replaceAfter]

theorem replaceEach {rules : List (String × String)} (h : Loosened words s t)
    (hrules : ∀ rule ∈ rules, Restores rule.1.toList rule.2.toList ∧
      ∀ word ∈ words, meets word rule.1.toList = false) :
    Loosened words (Text.replaceEach rules s) (Text.replaceEach rules t) := by
  induction rules generalizing s t with
  | nil => exact h
  | cons rule rules ih =>
      obtain ⟨hrule, hrules⟩ := List.forall_mem_cons.1 hrules
      exact ih (h.replaceAfter hrule.1 hrule.2 0) hrules

/-- The rule for a word puts the underscores in front of it back. -/
theorem restore {word : List Char} (h : Loosened (word :: words) s t) (hblank : ' ' ∉ word)
    (hunderscore : '_' ∉ word) (skip : Nat) :
    Loosened words (Text.replaceAfter (' ' :: word) ('_' :: word) skip s)
      (Text.replaceAfter (' ' :: word) ('_' :: word) skip t) := by
  have hstart {s t : List Char} (h : Loosened (word :: words) s t) : word <+: s ↔ word <+: t := by
    have hplain (s : List Char) : word <+: s ↔ word <+: blanked s :=
      ⟨fun hs => blanked_eq_self hunderscore ▸ blanked_mono hs, prefix_of_blanked hblank⟩
    rw [hplain, hplain t, h.blanked_eq]
  induction h generalizing skip with
  | nil => exact refl _
  | @same c s t h ih =>
      cases skip with
      | succ skip => exact ih skip
      | zero =>
          rw [Text.replaceAfter, Text.replaceAfter]
          simp only [List.isPrefixOf_iff_prefix, List.cons_prefix_cons, hstart h]
          split
          · exact (refl _).append (ih _)
          · exact (ih 0).same c
  | @blank word' s t hword' hstart' h ih =>
      cases skip with
      | succ skip => exact ih skip
      | zero =>
          rw [Text.replaceAfter, Text.replaceAfter, if_neg (by simp)]
          by_cases hword : word <+: t
          · -- The underscore is put back, and the word behind it is skipped here and copied there.
            rw [if_pos (by simpa using hword)]
            obtain ⟨rest, rfl⟩ := (hstart h).2 hword
            have hcopied : Text.replaceAfter (' ' :: word) ('_' :: word) 0 (word ++ rest) =
                word ++ Text.replaceAfter (' ' :: word) ('_' :: word) word.length (word ++ rest) := by
              rw [Text.replaceAfter_length]
              exact Text.replaceAfter_behind (Text.contained_of_notMem hblank)
                (fun hin => hblank (hin.subset List.mem_cons_self)) rest
            rw [hcopied]
            exact (refl ('_' :: word)).append (ih word.length)
          · rw [if_neg (by simpa using hword)]
            rcases List.mem_cons.1 hword' with rfl | hword'
            · exact absurd ((hstart h).1 (prefix_of_blanked hblank hstart')) hword
            · refine .blank hword' ?_ (ih 0)
              rwa [(restores_word hunderscore).blanked_replaceAfter]

/-- The rules behind the first three do the same to both texts if the words are the two that abbreviations
bring along. -/
theorem replaceEach_restorations (h : Loosened [coordinatesWord, includeWord] s t) :
    Text.replaceEach restorations s = Text.replaceEach restorations t := by
  have hmiddle : ∀ rule ∈ middleRestorations, Restores rule.1.toList rule.2.toList ∧
      ∀ word ∈ [includeWord], meets word rule.1.toList = false := by decide
  have hcoordinates := h.restore (by decide) (by decide) 0
  have hinclude := (hcoordinates.replaceEach hmiddle).restore (by decide) (by decide) 0
  rw [restorations_eq]
  simp only [Text.replaceEach_rules_append, Text.replaceEach_cons]
  exact congrArg _ hinclude.eq_of_nil

end Loosened

/-- The abbreviations as pairs of characters. -/
def abbreviated : List (Char × Char) := [('Q', '('), ('D', 'T'), ('O', 'I')]

theorem mem_abbreviated : ∀ rule ∈ expansions, ∃ pair ∈ abbreviated, rule.1.toList = [pair.1, pair.2] := by
  decide

theorem letters_abbreviated : ∀ pair ∈ abbreviated, pair.1 ≠ ' ' ∧ pair.2 ≠ ' ' := by decide

theorem spares_expansions : ∀ pair ∈ abbreviated, ∀ rule ∈ expansions,
    Text.Spares pair.1 pair.2 rule := by decide

theorem apart_blanked {a b : Char} {s : List Char} (ha : a ≠ ' ') (hb : b ≠ ' ') (h : Text.Apart a b s) :
    Text.Apart a b (blanked s) := by
  have hplain {c d : Char} (hd : d ≠ ' ') (h : (if c == '_' then ' ' else c) = d) : c = d := by
    split_ifs at h
    · exact absurd h.symm hd
    · exact h
  refine (List.isChain_map _).2 (List.IsChain.imp (fun c d hcd hmap => ?_) h)
  exact hcd ⟨hplain ha hmap.1, hplain hb hmap.2⟩

/-- No abbreviation is left when underscores become blanks again. -/
theorem expanded_eq_self (s : List Char) :
    Text.replaceEach expansions (blanked (Text.replaceEach expansions s)) =
      blanked (Text.replaceEach expansions s) := by
  refine Text.replaceEach_of_not_infix fun rule hrule => ?_
  obtain ⟨pair, hpair, hold⟩ := mem_abbreviated rule hrule
  obtain ⟨ha, hb⟩ := letters_abbreviated pair hpair
  have hone : [pair.1, pair.2] ∈ expansions.map (·.1.toList) :=
    hold ▸ List.mem_map_of_mem (f := (·.1.toList)) hrule
  rw [hold]
  exact (apart_blanked ha hb (Text.apart_replaceEach (spares_expansions pair hpair) (.inl hone))).not_contains

/-- Whether every underscore stands in front of one of the words. -/
def isMarked (words : List (List Char)) : List Char → Bool
  | [] => true
  | c :: s => (c != '_' || words.any (·.isPrefixOf (blanked s))) && isMarked words s

/-- A word that no occurrence of `old` starts in, without blanks and underscores. -/
def Whole (old word : List Char) : Prop :=
  ' ' ∉ word ∧ '_' ∉ word ∧ Text.contained (fun _ => true) old word ∧ ¬old <:+: word

instance (old word : List Char) : Decidable (Whole old word) := instDecidableAnd

variable {words : List (List Char)} {s t old new word : List Char}

theorem loosened_of_isMarked (h : isMarked words s) : Loosened words s (blanked s) := by
  induction s with
  | nil => exact .nil
  | cons c s ih =>
      rw [isMarked, Bool.and_eq_true] at h
      by_cases hc : c = '_'
      · subst hc
        have hany := (Bool.or_eq_true_iff.1 h.1).resolve_left (by simp)
        obtain ⟨word, hword, hstart⟩ := List.any_eq_true.1 hany
        exact .blank hword (List.isPrefixOf_iff_prefix.1 hstart) (ih h.2)
      · have hsame : blanked (c :: s) = c :: blanked s := by simp [blanked, hc]
        exact hsame ▸ .same c (ih h.2)

theorem isMarked_of_notMem (h : '_' ∉ s) : isMarked words s := by
  induction s with
  | nil => rfl
  | cons c s ih =>
      obtain ⟨hc, hs⟩ := not_or.1 (mt List.mem_cons.2 h)
      rw [isMarked, bne_iff_ne.2 (Ne.symm hc), ih hs]
      rfl

/-- A marked text stays marked when what follows its first character is changed behind the words. -/
theorem isMarked_cons {c : Char} (h : isMarked words (c :: s)) (ht : isMarked words t)
    (hkeep : ∀ word ∈ words, word <+: blanked s → word <+: blanked t) : isMarked words (c :: t) := by
  rw [isMarked, Bool.and_eq_true, Bool.or_eq_true] at h
  rw [isMarked, ht, Bool.and_true, Bool.or_eq_true]
  refine h.1.imp_right fun h => ?_
  obtain ⟨word, hword, hstart⟩ := List.any_eq_true.1 h
  have hstart := hkeep word hword (List.isPrefixOf_iff_prefix.1 hstart)
  exact List.any_eq_true.2 ⟨word, hword, List.isPrefixOf_iff_prefix.2 hstart⟩

theorem isMarked_tail {c : Char} (h : isMarked words (c :: s)) : isMarked words s :=
  (Bool.and_eq_true_iff.1 h).2

theorem isMarked_append (h : isMarked words s) (h' : isMarked words t) : isMarked words (s ++ t) := by
  induction s with
  | nil => exact h'
  | cons c s ih =>
      exact isMarked_cons h (ih (isMarked_tail h)) fun word _ hstart =>
        hstart.trans (blanked_mono (List.prefix_append s t))

theorem Whole.prefix_replaceAfter (h : Whole old word) (hstart : word <+: blanked s) :
    word <+: blanked (Text.replaceAfter old new 0 s) := by
  obtain ⟨hblank, hunderscore, hcontained, hnot⟩ := h
  obtain ⟨rest, rfl⟩ := prefix_of_blanked hblank hstart
  rw [Text.replaceAfter_behind hcontained hnot, blanked_append, blanked_eq_self hunderscore]
  exact List.prefix_append _ _

theorem isMarked_replaceAfter (hnew : isMarked words new) (hwhole : ∀ word ∈ words, Whole old word)
    (h : isMarked words s) (skip : Nat) : isMarked words (Text.replaceAfter old new skip s) := by
  induction s generalizing skip with
  | nil => simp [Text.replaceAfter, isMarked]
  | cons c s ih =>
      have ih := ih (isMarked_tail h)
      cases skip with
      | succ skip => exact ih skip
      | zero =>
          rw [Text.replaceAfter]
          split
          · exact isMarked_append hnew (ih _)
          · exact isMarked_cons h (ih 0) fun word hword => (hwhole word hword).prefix_replaceAfter

/-- Where abbreviations are written in full, underscores stand in front of two words only. -/
theorem isMarked_expansions (h : '_' ∉ s) :
    isMarked [coordinatesWord, includeWord] (Text.replaceEach expansions s) := by
  have hrules : ∀ rule ∈ expansions, isMarked [coordinatesWord, includeWord] rule.2.toList ∧
      ∀ word ∈ [coordinatesWord, includeWord], Whole rule.1.toList word := by decide
  refine Text.replaceEach_induction (P := fun s => isMarked [coordinatesWord, includeWord] s)
    (fun rule hrule s hs => ?_) (isMarked_of_notMem h)
  exact isMarked_replaceAfter (hrules rule hrule).1 (hrules rule hrule).2 hs 0

theorem spellOut_eq (s : List Char) :
    spellOut s = Text.replaceEach restorations (Text.replaceEach expansions (blanked s)) := by
  rw [← Text.replaceEach_rules_append, ← shorthand_eq]
  rfl

/-- Putting underscores back leaves the blanks and letters as they were. -/
theorem blanked_restorations (s : List Char) : blanked (Text.replaceEach restorations s) = blanked s := by
  have hrules : ∀ rule ∈ restorations, Restores rule.1.toList rule.2.toList := by decide
  refine Text.replaceEach_induction (P := fun t => blanked t = blanked s) (fun rule hrule t ht => ?_) rfl
  exact ((hrules rule hrule).blanked_replaceAfter t).trans ht

/-- A text that has been spelled out is spelled out to itself. -/
theorem spellOut_spellOut (s : List Char) : spellOut (spellOut s) = spellOut s := by
  have hmarked := isMarked_expansions (underscore_notMem_blanked s)
  have hblanked : blanked (spellOut s) = blanked (Text.replaceEach expansions (blanked s)) := by
    rw [spellOut_eq, blanked_restorations]
  calc spellOut (spellOut s)
      = Text.replaceEach restorations (Text.replaceEach expansions (blanked (spellOut s))) :=
        spellOut_eq _
    _ = Text.replaceEach restorations (blanked (Text.replaceEach expansions (blanked s))) := by
        rw [hblanked, expanded_eq_self]
    _ = Text.replaceEach restorations (Text.replaceEach expansions (blanked s)) :=
        (loosened_of_isMarked hmarked).replaceEach_restorations.symm
    _ = spellOut s := (spellOut_eq s).symm

end Source

end StimOverlay
