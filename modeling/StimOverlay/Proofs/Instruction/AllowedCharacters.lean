import StimOverlay.Proofs.Instruction.TargetSpellings

/-! The characters of an instruction that is read. Behind the name and the tag stand numerals, letters
of Pauli targets and of references, and a few marks, whatever the instruction is; the underscore and most
capitals can occur in a name or a tag only. -/

namespace StimOverlay

open Numeric

namespace Numeric.Binary

/-- What stands in a numeral with a finite value. -/
def isNumeric (c : Char) : Bool := c.isDigit || ['.', '-', '+', 'e', 'E'].contains c

theorem isNumeric_of_readExponent? {s : List Char} {e : Int} (h : readExponent? s = some e) :
    ∀ c ∈ s, isNumeric c := by
  have hdigits {ds : List Char} {value : Option Int}
      (h : (if ds.isEmpty || ds.any (!·.isDigit) then none else value) = some e) :
      ∀ c ∈ ds, isNumeric c := by
    split_ifs at h with hnone
    simp only [Bool.or_eq_true, not_or, List.any_eq_true, not_exists, not_and] at hnone
    intro c hc
    have hc := hnone.2 c hc
    simp_all [isNumeric]
  unfold readExponent? at h
  split at h
  · simp
  · split at h
    · rename_i c rest hletter
      have hc : isNumeric c := by
        rcases (by simpa using hletter : c = 'e' ∨ c = 'E') with rfl | rfl <;> rfl
      dsimp only at h
      split at h
      · exact List.forall_mem_cons.2 ⟨hc, List.forall_mem_cons.2 ⟨rfl, hdigits h⟩⟩
      · exact List.forall_mem_cons.2 ⟨hc, List.forall_mem_cons.2 ⟨rfl, hdigits h⟩⟩
      · exact List.forall_mem_cons.2 ⟨hc, hdigits h⟩
    · cases h

theorem isNumeric_of_readMagnitude? {f : Format} {negative : Bool} {s : List Char} {x : Binary f}
    (h : readMagnitude? f negative s = some x) (hx : x.isFinite) : ∀ c ∈ s, isNumeric c := by
  have htake {t : List Char} : ∀ c ∈ t.takeWhile Char.isDigit, isNumeric c := fun c hc => by
    simp [isNumeric, List.mem_takeWhile_imp hc]
  have hexponent {t : List Char} {g : Int → Binary f} (h : (readExponent? t).map g = some x) :
      ∀ c ∈ t, isNumeric c := by
    obtain ⟨e, he, -⟩ := Option.map_eq_some_iff.1 h
    exact isNumeric_of_readExponent? he
  rw [readMagnitude?] at h
  dsimp only at h
  split_ifs at h with hnan hinf
  · cases h
    cases hx
  · cases h
    cases hx
  · rw [← List.takeWhile_append_dropWhile (p := Char.isDigit) (l := s)]
    refine List.forall_mem_append.2 ⟨htake, ?_⟩
    split at h
    · rename_i more heq
      rw [heq, ← List.takeWhile_append_dropWhile (p := Char.isDigit) (l := more)]
      exact List.forall_mem_cons.2 ⟨rfl, List.forall_mem_append.2 ⟨htake, hexponent h⟩⟩
    · exact hexponent h

theorem isNumeric_of_readFinite? {f : Format} {s : List Char} {x : Binary f}
    (h : readFinite? f s = some x) : ∀ c ∈ s, isNumeric c := by
  rw [readFinite?, Option.filter_eq_some_iff] at h
  obtain ⟨h, hx⟩ := h
  unfold read? at h
  split at h
  · exact List.forall_mem_cons.2 ⟨rfl, isNumeric_of_readMagnitude? h hx⟩
  · exact List.forall_mem_cons.2 ⟨rfl, isNumeric_of_readMagnitude? h hx⟩
  · exact isNumeric_of_readMagnitude? h hx

end Numeric.Binary

namespace Lexeme

/-- A lexeme at the start of a text: a part of it, and made of separators or of what stands in targets
in range unless it is stray. -/
structure Starts (l : Lexeme) (s : List Char) : Prop where
  nonempty : l.text ≠ []
  start : l.text <+: s
  gap : ∀ text, l = .gap text → ∀ c ∈ text, isSeparator c
  target : ∀ t text, l = .target t text → Fits t ∧ ∀ c ∈ text, isTargetChar c

theorem starts_first (c : Char) (rest : List Char) : Starts (first c rest) (c :: rest) := by
  by_cases hc : isSeparator c
  · unfold first
    rw [if_pos hc]
    exact {
      nonempty := List.cons_ne_nil _ _
      start := (List.prefix_cons_inj c).2 (List.takeWhile_prefix _)
      gap := by
        rintro text ⟨⟩
        exact List.forall_mem_cons.2 ⟨hc, fun d hd => List.mem_takeWhile_imp hd⟩
      target := by simp }
  · have hreads := reads_first (by simpa using hc) rest
    exact {
      nonempty := hreads.nonempty
      start := hreads.start
      gap := fun text heq => by
        have hplain := hreads.plain
        rw [heq] at hplain
        cases hplain
      target := fun t text heq =>
        ⟨(hreads.spelled t text heq).fits, (hreads.spelled t text heq).isTargetChar⟩ }

end Lexeme

namespace Text

theorem mem_dropWhile_or {p : Char → Bool} {s : List Char} {c : Char} (h : c ∈ s) :
    c ∈ s.dropWhile p ∨ p c := by
  rw [← List.takeWhile_append_dropWhile (p := p) (l := s), List.mem_append] at h
  exact h.symm.imp_right List.mem_takeWhile_imp

theorem mem_trimEnd_or {s : List Char} {c : Char} (h : c ∈ s) : c ∈ trimEnd s ∨ isBlank c := by
  rw [trimEnd, List.mem_reverse]
  exact mem_dropWhile_or (List.mem_reverse.2 h)

theorem mem_trim_or {s : List Char} {c : Char} (h : c ∈ s) : c ∈ trim s ∨ isBlank c := by
  rcases mem_dropWhile_or h with h | h
  · exact mem_trimEnd_or h
  · exact .inr h

theorem trimEnd_prefix (s : List Char) : trimEnd s <+: s := by
  rw [trimEnd, ← List.reverse_suffix, List.reverse_reverse]
  exact List.dropWhile_suffix _

theorem splitOnce?_eq_some {p : Char → Bool} {s before after : List Char}
    (h : splitOnce? p s = some (before, after)) :
    ∃ c, p c ∧ s = before ++ c :: after := by
  unfold splitOnce? at h
  split at h
  · cases h
  · rename_i c rest hdrop
    cases h
    have hc : p c := by
      have hhead := List.head?_dropWhile_not (!p ·) s
      simpa [hdrop] using hhead
    exact ⟨c, hc, by rw [← hdrop, List.takeWhile_append_dropWhile]⟩

theorem head?_trim (s : List Char) : ∀ c ∈ (trim s).head?, isBlank c = false := by
  intro c hc
  obtain ⟨blanks, hblanks⟩ := trimEnd_prefix (trimStart s)
  have hfirst : c ∈ (trimStart s).head? := by
    rw [← hblanks, List.head?_append, ← trim, Option.mem_def.1 hc]
    rfl
  have hhead := List.head?_dropWhile_not isBlank s
  rw [← trimStart, Option.mem_def.1 hfirst] at hhead
  simpa using hhead

theorem trim_trim (s : List Char) : trim (trim s) = trim s := by
  refine Source.trim_eq_self (head?_trim s) fun c hc => ?_
  have hhead := List.head?_dropWhile_not isBlank (trimStart s).reverse
  rw [trim, trimEnd, List.getLast?_reverse, Option.mem_def] at hc
  rw [hc] at hhead
  simpa using hhead

theorem exists_piece {p : Char → Bool} {s : List Char} {c : Char} (h : c ∈ s) :
    p c ∨ ∃ piece ∈ splitWhere p s, c ∈ piece := by
  induction s with
  | nil => cases h
  | cons d s ih =>
      rw [splitWhere]
      split
      · rename_i hd
        rcases List.mem_cons.1 h with rfl | h
        · exact .inl hd
        · refine (ih h).imp_right ?_
          rintro ⟨piece, hpiece, hc⟩
          exact ⟨piece, List.mem_cons_of_mem _ hpiece, hc⟩
      · split
        · rename_i hnil
          exact absurd hnil (splitWhere_ne_nil p s)
        · rename_i first pieces hpieces
          rw [hpieces] at ih
          rcases List.mem_cons.1 h with rfl | h
          · exact .inr ⟨_, List.mem_cons_self, List.mem_cons_self⟩
          · refine (ih h).imp_right ?_
            rintro ⟨piece, hpiece, hc⟩
            rcases List.mem_cons.1 hpiece with rfl | hpiece
            · exact ⟨_, List.mem_cons_self, List.mem_cons_of_mem _ hc⟩
            · exact ⟨piece, List.mem_cons_of_mem _ hpiece, hc⟩

end Text

namespace Tag

theorem readFrom_eq_ok {body s tag after : List Char} (h : readFrom body s = .ok (tag, after)) :
    ∃ raw, s = raw ++ ']' :: after ∧ ']' ∉ raw := by
  fun_induction readFrom body s generalizing tag with
  | case1 => cases h
  | case2 rest =>
      cases h
      exact ⟨[], rfl, by simp⟩
  | case3 => cases h
  | case4 c rest hc => cases h
  | case5 c rest d hd ih =>
      have hne : c ≠ ']' := by
        rintro rfl
        cases hd
      cases hrest : readFrom body rest with
      | error e => rw [hrest] at h; cases h
      | ok r =>
          rw [hrest] at h
          cases h
          obtain ⟨raw, rfl, hraw⟩ := ih hrest
          exact ⟨'\\' :: c :: raw, rfl, by simp [hraw, hne.symm]⟩
  | case6 c rest hclose hlast hback ih =>
      cases hrest : readFrom body rest with
      | error e => rw [hrest] at h; cases h
      | ok r =>
          rw [hrest] at h
          cases h
          obtain ⟨raw, rfl, hraw⟩ := ih hrest
          exact ⟨c :: raw, rfl, by simp [hraw, Ne.symm hclose]⟩

end Tag

namespace Instruction

/-- What stands behind the name and the tag of an instruction. -/
def isRead (c : Char) : Bool :=
  Text.isBlank c || Binary.isNumeric c || Lexeme.isTargetChar c || [',', '(', ')'].contains c

theorem isRead_of_isSeparator {c : Char} (h : Lexeme.isSeparator c) : isRead c := by
  simp only [Lexeme.isSeparator, Bool.or_eq_true, beq_iff_eq] at h
  rcases h with h | rfl
  · simp [isRead, Text.isBlank_of_isAsciiBlank h]
  · rfl

theorem isRead_of_collectTargets {skip : Nat} {s : List Char} {ts : List Target}
    (h : collectTargets (Lexeme.scanAfter skip s) = .ok ts) : ∀ c ∈ s.drop skip, isRead c := by
  induction s generalizing skip ts with
  | nil => simp
  | cons c s ih =>
      cases skip with
      | succ skip => exact ih h
      | zero =>
          rw [Lexeme.scanAfter] at h
          obtain ⟨hne, hstart, hgap, htarget⟩ := Lexeme.starts_first c s
          obtain ⟨more, hmore⟩ := hstart
          generalize Lexeme.first c s = l at *
          have hrest : s.drop (l.text.length - 1) = more := by
            obtain ⟨d, text, htext⟩ := List.exists_cons_of_ne_nil hne
            rw [htext, List.cons_append] at hmore
            obtain ⟨-, rfl⟩ := List.cons.inj hmore
            simp [htext]
          have ih {ts : List Target}
              (h : collectTargets (Lexeme.scanAfter (l.text.length - 1) s) = .ok ts) :
              ∀ d ∈ more, isRead d := hrest ▸ ih h
          rw [List.drop_zero, ← hmore, List.forall_mem_append]
          cases l with
          | gap text => exact ⟨fun d hd => isRead_of_isSeparator (hgap _ rfl d hd), ih h⟩
          | stray text => cases h
          | target t text =>
              rw [collectTargets] at h
              split_ifs at h
              cases hrest : collectTargets
                  (Lexeme.scanAfter ((Lexeme.target t text).text.length - 1) s) with
              | error e => rw [hrest] at h; cases h
              | ok rest => exact ⟨fun d hd => by simp [isRead, (htarget t text rfl).2 d hd], ih hrest⟩

theorem isRead_of_readTargets {s : List Char} {ts : List Target}
    (h : readTargets (Text.trim s) = .ok ts) : ∀ c ∈ s, isRead c := by
  intro c hc
  rcases Text.mem_trim_or hc with hc | hc
  · exact isRead_of_collectTargets (Build.collected_of_readTargets h).1 c hc
  · simp [isRead, hc]

theorem isRead_of_readArgs {parts : List (List Char)} {args : List Binary64}
    (h : readArgs parts = .ok args) : ∀ part ∈ parts, ∀ c ∈ part, isRead c := by
  induction parts generalizing args with
  | nil => simp
  | cons part parts ih =>
      have hchars (hnumeric : ∀ c ∈ Text.trim part, Binary.isNumeric c) : ∀ c ∈ part, isRead c := by
        intro c hc
        rcases Text.mem_trim_or hc with hc | hc
        · simp [isRead, hnumeric c hc]
        · simp [isRead, hc]
      rw [readArgs] at h
      rw [List.forall_mem_cons]
      split at h
      · rename_i hnil
        exact ⟨hchars (by simp [List.isEmpty_iff.1 hnil]), ih h⟩
      · split at h
        · cases h
        · rename_i hread
          cases hargs : readArgs parts with
          | error e => rw [hargs] at h; cases h
          | ok rest => exact ⟨hchars (Binary.isNumeric_of_readFinite? hread), ih hargs⟩

/-- Arguments and targets are read off a text, without the blanks at its end. -/
def Accepts (rest : List Char) : Prop :=
  ∃ line args targets ts, readArguments line (Text.trimEnd rest) = .ok (args, targets) ∧
    readTargets (Text.trim targets) = .ok ts

theorem isRead_of_accepts {rest : List Char} (h : Accepts rest) : ∀ c ∈ rest, isRead c := by
  obtain ⟨line, args, targets, ts, hargs, htargets⟩ := h
  have htargets := isRead_of_readTargets htargets
  have hrest {s : List Char} (h : ∀ c ∈ Text.trimEnd s, isRead c) : ∀ c ∈ s, isRead c := by
    intro c hc
    rcases Text.mem_trimEnd_or hc with hc | hc
    · exact h c hc
    · simp [isRead, hc]
  refine hrest ?_
  unfold readArguments at hargs
  split at hargs
  · rename_i inner hinner
    split at hargs
    · cases hargs
    · rename_i inside after hsplit
      cases hread : readArgs (Text.splitWhere (· == ',') inside) with
      | error e => rw [hread] at hargs; cases hargs
      | ok parts =>
          rw [hread] at hargs
          cases hargs
          obtain ⟨close, hclose, rfl⟩ := Text.splitOnce?_eq_some hsplit
          have hinside : ∀ c ∈ inside, isRead c := by
            intro c hc
            rcases Text.exists_piece (p := (· == ',')) hc with hc | ⟨piece, hpiece, hc⟩
            · rw [beq_iff_eq.1 hc]
              rfl
            · exact isRead_of_readArgs hread piece hpiece c hc
          have hinner : ∀ c ∈ Text.trimStart (Text.trimEnd rest), isRead c := by
            rw [hinner, beq_iff_eq.1 hclose]
            exact List.forall_mem_cons.2 ⟨rfl, List.forall_mem_append.2
              ⟨hinside, List.forall_mem_cons.2 ⟨rfl, htargets⟩⟩⟩
          intro c hc
          rcases Text.mem_dropWhile_or hc with hc | hc
          · exact hinner c hc
          · simp [isRead, hc]
  · split_ifs at hargs
    cases hargs
    exact htargets

theorem readTag_eq_ok {s : List Char} {t : List Char × List Char} (h : readTag s = .ok t) :
    (t.2 = s ∧ ∀ c ∈ s.head?, c ≠ '[') ∨ ∃ raw, s = '[' :: (raw ++ ']' :: t.2) ∧ ']' ∉ raw := by
  unfold readTag at h
  split at h
  · rename_i body
    cases hread : Tag.read body with
    | error e => rw [hread] at h; cases h
    | ok r =>
        rw [hread] at h
        cases h
        obtain ⟨raw, hraw, hclose⟩ := Tag.readFrom_eq_ok hread
        exact .inr ⟨raw, by rw [hraw], hclose⟩
  · rename_i hbracket
    cases h
    refine .inl ⟨rfl, ?_⟩
    rintro c hc rfl
    obtain ⟨rest, rfl⟩ := List.head?_eq_some_iff.1 hc
    exact hbracket rest rfl

theorem suffix_of_readTag {s : List Char} {t : List Char × List Char} (h : readTag s = .ok t) :
    t.2 <:+ s := by
  rcases readTag_eq_ok h with ⟨hsame, -⟩ | ⟨raw, hraw, -⟩
  · rw [hsame]
  · exact ⟨'[' :: (raw ++ [']']), by rw [hraw]; simp⟩

theorem read_trim (s : List Char) : read (Text.trim s) = read s := by
  rw [read, read, Text.trim_trim]

/-- The steps of reading a line without a comment: what stands behind its name is read as a tag or
none, then as arguments, then as targets. -/
theorem exists_parts {name rest : List Char} {i : Instruction} (hname : isKept name)
    (hends : ∀ c ∈ rest.head?, Text.endsName c) (hhash : '#' ∉ rest)
    (h : read (name ++ rest) = .ok i) :
    ∃ t a ts, readTag (Text.trimEnd rest) = .ok t ∧
      readArguments (Text.trim (name ++ rest)) t.2 = .ok a ∧
      readTargets (Text.trim a.2) = .ok ts := by
  simp only [isKept, Bool.and_eq_true, List.all_eq_true, beq_iff_eq] at hname
  obtain ⟨⟨hisname, hplain⟩, -⟩ := hname
  have hblank : ∀ c ∈ name, Text.isBlank c = false := by
    intro c hc
    have hc := hplain c hc
    simp only [Text.endsName, Bool.not_eq_true', Bool.or_eq_false_iff] at hc
    exact hc.2
  have htrim : Text.trim (name ++ rest) = name ++ Text.trimEnd rest := by
    cases name with
    | nil => cases hisname
    | cons c name =>
        have hstart : Text.trimStart (c :: name ++ rest) = c :: name ++ rest := by
          rw [Text.trimStart, List.cons_append,
            List.dropWhile_cons_of_neg (by simp [hblank c List.mem_cons_self])]
        rw [Text.trim, hstart, Text.trimEnd_append fun d hd => hblank d (List.mem_of_getLast? hd)]
  obtain ⟨blanks, hblanks⟩ := Text.trimEnd_prefix rest
  have hstop : ∀ c ∈ (Text.trimEnd rest).head?, (!Text.endsName c) = false := fun c hc => by
    have hend := hends c (by rw [← hblanks, List.head?_append, Option.mem_def.1 hc]; rfl)
    simp [hend]
  obtain ⟨htake, -⟩ := Text.takeWhile_run hplain hstop
  rw [read, htrim] at h
  simp only [htake, hisname, Bool.not_true, Bool.false_eq_true, if_false, List.drop_left, bind,
    Except.bind] at h
  split at h
  · cases h
  · rename_i t htag
    have hbefore : Text.before (· == '#') t.2 = t.2 := by
      rw [Text.before, List.takeWhile_eq_self_iff]
      intro c hc
      simp only [Bool.not_eq_true', beq_eq_false_iff_ne]
      rintro rfl
      exact hhash ((Text.trimEnd_prefix rest).subset ((suffix_of_readTag htag).subset hc))
    rw [hbefore] at h
    split at h
    · cases h
    · rename_i a hargs
      split at h
      · cases h
      · rename_i ts htargets
        exact ⟨t, a, ts, htag, htrim ▸ hargs, htargets⟩

/-- What stands behind the name of a line that is read: a tag or none, and what arguments and targets
are read off. -/
theorem exists_accepts {name rest : List Char} {i : Instruction} (hname : isKept name)
    (hends : ∀ c ∈ rest.head?, Text.endsName c) (hhash : '#' ∉ rest)
    (h : read (name ++ rest) = .ok i) :
    (Accepts rest ∧ ∀ c ∈ rest.head?, c ≠ '[') ∨
      ∃ raw after, rest = '[' :: (raw ++ ']' :: after) ∧ ']' ∉ raw ∧ Accepts after := by
  obtain ⟨t, a, ts, htag, hargs, htargets⟩ := exists_parts hname hends hhash h
  obtain ⟨blanks, hblanks⟩ := Text.trimEnd_prefix rest
  rcases readTag_eq_ok htag with ⟨hsame, hbracket⟩ | ⟨raw, hraw, hclose⟩
  · refine .inl ⟨⟨_, a.1, a.2, ts, hsame ▸ hargs, htargets⟩, ?_⟩
    rintro c hc rfl
    cases rest with
    | nil => cases hc
    | cons d rest =>
        cases hc
        have htrimmed := Text.trimEnd_append (s := ['[']) (by simp [Text.isBlank]) rest
        exact hbracket '[' (by rw [List.singleton_append] at htrimmed; rw [htrimmed]; rfl) rfl
  · have hrest : rest = '[' :: raw ++ [']'] ++ (t.2 ++ blanks) := by
      rw [← hblanks, hraw]
      simp
    have hafter : Text.trimEnd (t.2 ++ blanks) = t.2 := by
      have hlast : ∀ c ∈ ('[' :: raw ++ [']']).getLast?, Text.isBlank c = false := by
        rw [List.getLast?_append]
        rintro c ⟨⟩
        decide
      have htrimmed := Text.trimEnd_append hlast (t.2 ++ blanks)
      rw [← hrest, hraw] at htrimmed
      simpa using htrimmed.symm
    exact .inr ⟨raw, t.2 ++ blanks, by simpa using hrest, hclose,
      _, a.1, a.2, ts, by rw [hafter, hargs], htargets⟩

end Instruction

end StimOverlay
