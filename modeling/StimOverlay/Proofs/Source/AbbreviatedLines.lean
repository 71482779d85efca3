import StimOverlay.Proofs.Emission.LineBuilding
import StimOverlay.Proofs.Source.CompactText

/-! Abbreviated lines. A line without a tag is spelled out to the same text whether its name is written
in full or abbreviated, apart from the blanks behind commas and closing parentheses, and these do not
count when it is read. -/

namespace StimOverlay

open Build Numeric

namespace Instruction

theorem readArgs_congr {parts parts' : List (List Char)}
    (h : parts'.map Text.trim = parts.map Text.trim) : readArgs parts' = readArgs parts := by
  induction parts generalizing parts' with
  | nil => rw [List.map_eq_nil_iff.1 h]
  | cons part parts ih =>
      obtain ⟨part', rest, rfl, hpart, hrest⟩ := List.map_eq_cons_iff.1 h
      rw [readArgs, readArgs, hpart, ih hrest]

theorem readArgs_tighten {inside : List Char} (hclose : ')' ∉ inside) :
    readArgs (Text.splitWhere (· == ',') (Text.tighten inside)) =
      readArgs (Text.splitWhere (· == ',') inside) := by
  obtain ⟨first, rest, rest', hsplit, htight, htrim⟩ := Text.splitWhere_tighten inside hclose
  rw [hsplit, htight]
  exact readArgs_congr (by rw [List.map_cons, List.map_cons, htrim])

end Instruction

namespace ShareLink

open Source

/-- The start of a line, up to what ends its name. -/
def isStart (s : List Char) : Bool :=
  s.head?.any Char.isUpper && s.any Text.endsName &&
    s.all fun c => !([';', '#', '\n', '\r', '[', ',', ')', '%', '&'].contains c)

/-- A start, behind which any characters with `p` may follow, that is spelled out as `full` when it is
abbreviated. -/
def isShared (p : Char → Bool) (head full : List Char) : Bool :=
  let short := Text.replaceEach nameAbbreviations head
  isStart head && isStart short && isStart full && (short.contains '(' || !p '[') &&
    Text.eachContained p nameAbbreviations head &&
    (full.map fun c => if c == '_' then ' ' else c) == (head.map fun c => if c == '_' then ' ' else c) &&
    (short == head ||
      Text.eachContained p shorthand (short.map fun c => if c == '_' then ' ' else c) &&
        spellOut short == full)

/-- What stands in arguments and in the targets behind them. -/
def isCalled (c : Char) : Bool :=
  isArgument c || ['*', 'X', 'Y', 'Z', 'i', 'n', 'f', 'N', 'a'].contains c

/-- The names of written instructions. -/
def writtenNames : List String :=
  coordinatesName :: Gate.productFamilies ++ Gate.standard.map Gate.name

theorem isShared_gate : ∀ g ∈ Gate.standard,
    isShared isListed (g.name.toList ++ [' ']) (g.name.toList ++ [' ']) := by
  decide +kernel

theorem isShared_product : ∀ family ∈ Gate.productFamilies,
    isShared isFactor (family.toList ++ [' ']) (family.toList ++ [' ']) := by
  decide +kernel

theorem isShared_call : ∀ name ∈ writtenNames,
    isShared isCalled (name.toList ++ ['(']) (spellOut (name.toList ++ ['('])) := by
  decide +kernel

theorem isOpening_call : ∀ name ∈ writtenNames,
    isOpening isCalled (spellOut (name.toList ++ ['('])) := by
  decide +kernel

/-- The underscores that stand for blanks in compact text. -/
def underscored (s : List Char) : List Char := s.map fun c => if c == ' ' then '_' else c

theorem spellOut_underscored (s : List Char) : spellOut (underscored s) = spellOut s := by
  have hmap : (underscored s).map (fun c => if c == '_' then ' ' else c) =
      s.map fun c => if c == '_' then ' ' else c := by
    rw [underscored, List.map_map]
    refine List.map_congr_left fun c _ => ?_
    by_cases hc : c = ' '
    · subst hc
      rfl
    · simp [hc]
  rw [spellOut, spellOut, hmap]

variable {p : Char → Bool} {head full tail : List Char}

theorem plain_of_isStart {s : List Char} (h : isStart s) : ∀ c ∈ s, c ≠ ';' ∧ c ≠ '#' ∧
    c ≠ '\n' ∧ c ≠ '\r' ∧ c ≠ '[' ∧ c ≠ ',' ∧ c ≠ ')' ∧ c ≠ '%' ∧ c ≠ '&' := by
  intro c hc
  simp only [isStart, Bool.and_eq_true, List.all_eq_true] at h
  simpa using h.2 c hc

theorem exists_upper_of_isStart {s : List Char} (h : isStart s) :
    ∃ c rest, s = c :: rest ∧ c.isUpper := by
  simp only [isStart, Bool.and_eq_true] at h
  cases s with
  | nil => cases h.1.1
  | cons c rest => exact ⟨c, rest, rfl, by simpa using h.1.1⟩

theorem normalizeLine_start (hstart : isStart head)
    (htag : ∀ d ∈ ((head ++ tail).dropWhile (!Text.endsName ·)).head?, d ≠ '[') :
    normalizeLine (head ++ tail) = spellOut (head ++ tail) := by
  obtain ⟨c, rest, rfl, hc⟩ := exists_upper_of_isStart hstart
  exact normalizeLine_eq_spellOut hc htag

/-- What is known of a start and of the text behind it. -/
structure Shared (p : Char → Bool) (head full tail : List Char) : Prop where
  inert : isInert p
  opening : isOpening p full
  shared : isShared p head full
  spelled : spellOut head = full
  chars : ∀ c ∈ tail, p c

namespace Shared

/-- The abbreviated start. -/
def short (_ : Shared p head full tail) : List Char := Text.replaceEach nameAbbreviations head

theorem parts (h : Shared p head full tail) :
    isStart head ∧ isStart h.short ∧ isStart full ∧ ('(' ∈ h.short ∨ p '[' = false) ∧
      Text.eachContained p nameAbbreviations head ∧
      Text.eachContained p shorthand (head.map fun c => if c == '_' then ' ' else c) ∧
      Text.eachContained p shorthand (h.short.map fun c => if c == '_' then ' ' else c) ∧
      spellOut h.short = full := by
  obtain ⟨-, hopening, hshared, hspelled, -⟩ := h
  simp only [isShared, Bool.and_eq_true, Bool.or_eq_true, List.contains_iff_mem,
    Bool.not_eq_true'] at hshared
  obtain ⟨⟨⟨⟨⟨⟨hhead, hshort⟩, hfull⟩, hbracket⟩, hcontained⟩, hspaced⟩, hsame⟩ := hshared
  have heach : Text.eachContained p shorthand
      (head.map fun c => if c == '_' then ' ' else c) := by
    rw [← eq_of_beq hspaced]
    simp only [isOpening, Bool.and_eq_true] at hopening
    exact hopening.1.2
  refine ⟨hhead, hshort, hfull, hbracket, hcontained, heach, ?_⟩
  rcases hsame with heq | ⟨hshort, hspell⟩
  · rw [short, eq_of_beq heq]
    exact ⟨heach, hspelled⟩
  · exact ⟨hshort, eq_of_beq hspell⟩

theorem solid (h : Shared p head full tail) : Solid (head ++ tail) where
  nonempty := by
    obtain ⟨c, rest, rfl, -⟩ := exists_upper_of_isStart h.parts.1
    exact List.cons_ne_nil _ _
  plain c hc := by
    rcases List.mem_append.1 hc with hc | hc
    · obtain ⟨h1, h2, h3, h4, -⟩ := plain_of_isStart h.parts.1 c hc
      exact ⟨h1, h2, h3, h4⟩
    · have hpc := h.chars c hc
      have hp := h.inert
      refine ⟨?_, ?_, ?_, ?_⟩ <;>
        · rintro rfl
          simp [isInert, hpc] at hp

theorem normalizeLine (h : Shared p head full tail) :
    normalizeLine (head ++ tail) = full ++ tail := by
  obtain ⟨hhead, -, -, -, -, heach, -⟩ := h.parts
  have hends : head.any Text.endsName := by
    simp only [isStart, Bool.and_eq_true] at hhead
    exact hhead.1.2
  have htag := ne_bracket_of_opening hends
    (fun hmem => (plain_of_isStart hhead _ hmem).2.2.2.2.1 rfl) tail
  rw [normalizeLine_start hhead htag,
    spellOut_append (underscore_of_isInert h.inert) heach h.chars, h.spelled]

theorem compact_eq (h : Shared p head full tail) :
    compact (head ++ tail) = underscored (h.short ++ Text.tighten tail) := by
  obtain ⟨-, hshort, -, -, hcontained, -⟩ := h.parts
  have hr : '\r' ∉ head ++ tail := fun hmem => (h.solid.plain _ hmem).2.2.2 rfl
  have htight : Text.tighten (h.short ++ tail) = h.short ++ Text.tighten tail := by
    refine Text.tightenBehind_append (fun c hc => ?_) tail
    obtain ⟨-, -, -, -, -, hcomma, hclose, -⟩ := plain_of_isStart hshort c hc
    simp [hcomma, hclose]
  have hwhole : Text.replaceEach nameAbbreviations (head ++ tail) = h.short ++ tail :=
    Text.replaceEach_append hcontained h.chars
  rw [ShareLink.compact_eq hr, hwhole, htight, underscored]
  refine List.map_congr_left fun c hc => ?_
  have hplain : c ≠ '\n' := by
    rcases List.mem_append.1 hc with hc | hc
    · exact (plain_of_isStart hshort c hc).2.2.1
    · exact (h.solid.plain c (List.mem_append_right _ (Text.mem_tighten hc))).2.2.1
  simp [hplain]

/-- The compact line is spelled out to the full one, without the blanks that were left out. -/
theorem normalizeLine_compact (h : Shared p head full tail) :
    Source.normalizeLine (compact (head ++ tail)) = full ++ Text.tighten tail := by
  obtain ⟨-, hshort, -, hbracket, -, -, heach, hspell⟩ := h.parts
  have hchars : ∀ c ∈ Text.tighten tail, p c := fun c hc => h.chars c (Text.mem_tighten hc)
  have hsplit : underscored (h.short ++ Text.tighten tail) =
      underscored h.short ++ underscored (Text.tighten tail) := List.map_append
  have hmem : ∀ {s : List Char} {c : Char}, c ≠ '_' → c ∈ underscored s → c ∈ s := by
    intro s c hne hc
    obtain ⟨d, hd, hdc⟩ := List.mem_map.1 hc
    split at hdc
    · exact absurd hdc.symm hne
    · exact hdc ▸ hd
  have htag : ∀ d ∈ ((underscored h.short ++ underscored (Text.tighten tail)).dropWhile
      (!Text.endsName ·)).head?, d ≠ '[' := by
    have hno : '[' ∉ underscored h.short := fun hc =>
      (plain_of_isStart hshort _ (hmem (by decide) hc)).2.2.2.2.1 rfl
    rcases hbracket with hparenthesis | hp
    · refine ne_bracket_of_opening (List.any_eq_true.2 ⟨'(', ?_, rfl⟩) hno _
      exact List.mem_map.2 ⟨'(', hparenthesis, rfl⟩
    · rintro d hd rfl
      have hd := (List.dropWhile_suffix _).subset (List.mem_of_head? hd)
      rcases List.mem_append.1 hd with hd | hd
      · exact hno hd
      · rw [hchars _ (hmem (by decide) hd)] at hp
        cases hp
  obtain ⟨c, rest, heq, hc⟩ := exists_upper_of_isStart hshort
  have hupper : underscored h.short = c :: underscored rest := by
    have hblank : (c == ' ') = false := by
      rw [beq_eq_false_iff_ne]
      rintro rfl
      cases hc
    rw [heq, underscored, List.map_cons, hblank]
    rfl
  have hline : Source.normalizeLine (underscored h.short ++ underscored (Text.tighten tail)) =
      spellOut (underscored h.short ++ underscored (Text.tighten tail)) := by
    rw [hupper, List.cons_append] at htag ⊢
    exact normalizeLine_eq_spellOut hc htag
  rw [h.compact_eq, hsplit, hline, ← hsplit, spellOut_underscored,
    spellOut_append (underscore_of_isInert h.inert) heach hchars, hspell]

/-- No comma and no closing parenthesis stands in the full start. -/
theorem tighten_normalizeLine (h : Shared p head full tail) :
    Text.tighten (full ++ tail) = full ++ Text.tighten tail := by
  refine Text.tightenBehind_append (fun c hc => ?_) tail
  obtain ⟨-, -, -, -, -, hcomma, hclose, -⟩ := plain_of_isStart h.parts.2.2.1 c hc
  simp [hcomma, hclose]

end Shared

/-- What a line in normal form is built into depends on it only through the instruction that it is
read as. -/
theorem buildLine_settled {line : List Char} (h : Settled line) (s : State) (ctx : Context)
    (number : Nat) :
    s.buildLine ctx number line = match Instruction.read line with
      | .error fault => s.halt number (.instruction fault)
      | .ok i => ({ s with contentSeen := true } : State).buildInstruction ctx number line i := by
  obtain ⟨htrivia, hdirective⟩ := h.isInstruction
  cases hread : Instruction.read line with
  | error fault =>
      simp only [State.buildLine, h.trimmed, htrivia, hdirective, hread, Bool.false_eq_true, if_false]
  | ok i =>
      simp only [State.buildLine, h.trimmed, htrivia, hdirective, hread, Bool.false_eq_true, if_false]

/-- An instruction that no message about its line can be given for. -/
structure Recognized (i : Instruction) : Prop where
  name : i.name ∈ writtenNames
  target : i.name = coordinatesName → ∃ q inverted, i.targets = [.qubit q inverted]

theorem gate?_writtenNames : ∀ name ∈ writtenNames, name = coordinatesName ∨
    name ∈ Gate.productFamilies ∨ (Context.standard.catalog.alias? name = none ∧
      (Context.standard.catalog.gate? name).isSome) := by
  decide

theorem build_recognized {i : Instruction} (h : Recognized i) (s : State) (number : Nat)
    (source source' : List Char) :
    s.build .standard number source i = s.build .standard number source' i := by
  have hknown : i.name ≠ coordinatesName → i.name ∉ Gate.productFamilies →
      ∃ gate, Context.standard.catalog.alias? i.name = none ∧
        Context.standard.catalog.gate? i.name = some gate := by
    intro hcoordinates hproduct
    obtain ⟨halias, hgate⟩ :=
      ((gate?_writtenNames _ h.name).resolve_left hcoordinates).resolve_left hproduct
    exact (Option.isSome_iff_exists.1 hgate).imp fun gate hgate => ⟨halias, hgate⟩
  rw [State.build, State.build]
  split_ifs with htick hcoordinates hpolygon hmarker hproduct
  · rfl
  · obtain ⟨q, inverted, htarget⟩ := h.target hcoordinates
    rw [State.buildCoordinates, State.buildCoordinates, htarget]
  · rfl
  · have hproduct : i.name ∉ Gate.productFamilies := by
      rcases hmarker with hname | hname <;> rw [hname] <;> decide
    obtain ⟨gate, -, hgate⟩ := hknown hcoordinates hproduct
    rw [State.buildMarker, State.buildMarker, hgate]
  · rfl
  · obtain ⟨gate, halias, hgate⟩ := hknown hcoordinates hproduct
    rw [State.buildNamed, State.buildNamed, halias]
    simp only [hgate]

theorem buildInstruction_recognized {i : Instruction} (h : Recognized i) (s : State) (number : Nat)
    (source source' : List Char) :
    s.buildInstruction .standard number source i = s.buildInstruction .standard number source' i := by
  rw [State.buildInstruction, State.buildInstruction, build_recognized h s number source source']

/-- Lines in normal form that are read as one recognized instruction, or refused alike, are built
alike. -/
theorem buildLine_congr {line line' : List Char} (h : Settled line) (h' : Settled line')
    (hread : Instruction.read line' = Instruction.read line)
    (hknown : ∀ i, Instruction.read line = .ok i → Recognized i) (s : State) (number : Nat) :
    s.buildLine .standard number line' = s.buildLine .standard number line := by
  rw [buildLine_settled h, buildLine_settled h', hread]
  cases hi : Instruction.read line with
  | error fault => rfl
  | ok i => exact buildInstruction_recognized (hknown i hi) _ _ _ _

/-- A name with arguments between parentheses and targets behind them. Coordinates are given to a single
qubit. -/
structure Call (name : String) (inside body : List Char) : Prop where
  known : name ∈ writtenNames
  chars : ∀ c ∈ inside ++ body, isCalled c ∧ c ≠ ')'
  comma : ',' ∉ body
  last : ∃ c ∈ body.getLast?, Text.isBlank c = false
  target : name = coordinatesName → ∀ ts, Instruction.readTargets (Text.trim body) = .ok ts →
    ∃ q inverted, ts = [.qubit q inverted]

/-- A line as it is written without a tag: a tick, or targets behind a name, or behind a name and
arguments. -/
inductive Written : List Char → Prop where
  | tick : Written tickName.toList
  | gate {g : Gate} {body : List Char} (known : g ∈ Gate.standard) (chars : ∀ c ∈ body, isListed c)
      (last : ∃ c ∈ body.getLast?, Text.isBlank c = false) :
      Written (g.name.toList ++ ' ' :: body)
  | product {family : String} {body : List Char} (known : family ∈ Gate.productFamilies)
      (chars : ∀ c ∈ body, isFactor c) (last : ∃ c ∈ body.getLast?, Text.isBlank c = false) :
      Written (family.toList ++ ' ' :: body)
  | call {name : String} {inside body : List Char} (call : Call name inside body) :
      Written (name.toList ++ '(' :: (inside ++ ')' :: ' ' :: body))

/-- What becomes of a line when it is abbreviated: in normal form it lacks blanks, and is otherwise the
same. -/
structure Shares (l : List Char) : Prop where
  solid : Solid l
  plain : ∀ c ∈ l, c ≠ '%' ∧ c ≠ '&'
  compacted : normalizeLine (compact l) = Text.tighten (normalizeLine l)
  settled : Settled (normalizeLine l)
  tight : Settled (Text.tighten (normalizeLine l))
  read : Instruction.read (Text.tighten (normalizeLine l)) = Instruction.read (normalizeLine l)
  built : ∀ (s : State) (number : Nat),
    s.buildLine .standard number (Text.tighten (normalizeLine l)) =
      s.buildLine .standard number (normalizeLine l)

namespace Shared

theorem plain (h : Shared p head full tail) (hp : ['%', '&'].all (!p ·)) :
    ∀ c ∈ head ++ tail, c ≠ '%' ∧ c ≠ '&' := by
  intro c hc
  rcases List.mem_append.1 hc with hc | hc
  · obtain ⟨-, -, -, -, -, -, -, hpercent, hand⟩ := plain_of_isStart h.parts.1 c hc
    exact ⟨hpercent, hand⟩
  · have hpc := h.chars c hc
    constructor
    · rintro rfl
      simp [hpc] at hp
    · rintro rfl
      simp [hpc] at hp

theorem settled (h : Shared p head full tail)
    (hlast : ∃ c ∈ tail.getLast?, Text.isBlank c = false) : Settled (full ++ tail) := by
  obtain ⟨c, hc, hblank⟩ := hlast
  refine settled_of_opening h.inert h.opening h.chars fun d hd => ?_
  rw [List.getLast?_append, Option.mem_def.1 hc] at hd
  cases hd
  exact hblank

/-- Only the reading of its targets is left open by a line. -/
theorem shares (h : Shared p head full tail) (hp : ['%', '&'].all (!p ·))
    (hsettled : Settled (full ++ tail)) (htight : Settled (full ++ Text.tighten tail))
    (hread : Instruction.read (full ++ Text.tighten tail) = Instruction.read (full ++ tail))
    (hbuilt : ∀ (s : State) (number : Nat), s.buildLine .standard number (full ++ Text.tighten tail) =
      s.buildLine .standard number (full ++ tail)) : Shares (head ++ tail) := by
  refine ⟨h.solid, h.plain hp, ?_, ?_, ?_, ?_, ?_⟩
  · rw [h.normalizeLine_compact, h.normalizeLine, h.tighten_normalizeLine]
  · rwa [h.normalizeLine]
  · rwa [h.normalizeLine, h.tighten_normalizeLine]
  · rwa [h.normalizeLine, h.tighten_normalizeLine]
  · rwa [h.normalizeLine, h.tighten_normalizeLine]

/-- A line without commas and parentheses stays as it is. -/
theorem shares_of_plain (h : Shared p head full tail)
    (hp : [',', ')', '%', '&'].all (!p ·))
    (hlast : ∃ c ∈ tail.getLast?, Text.isBlank c = false) : Shares (head ++ tail) := by
  simp only [List.all_cons, List.all_nil, Bool.and_true, Bool.and_eq_true, Bool.not_eq_true'] at hp
  have htail : Text.tighten tail = tail := by
    refine Text.tightenBehind_eq_self fun c hc => ?_
    have hpc := h.chars c hc
    rw [Bool.or_eq_false_iff, beq_eq_false_iff_ne, beq_eq_false_iff_ne]
    constructor <;>
      · rintro rfl
        simp [hpc] at hp
  have hsettled : Settled (full ++ tail) := h.settled hlast
  exact h.shares (by simp [hp]) hsettled (by rwa [htail]) (by rw [htail]) fun s n => by rw [htail]

end Shared

/-- The name of a call is spelled out, or it is torn apart in front of a letter that starts no
target. -/
theorem spellOut_call : ∀ name ∈ writtenNames,
    (Instruction.isKept name.toList ∧ spellOut (name.toList ++ ['(']) = name.toList ++ ['(']) ∨
      ∃ n ∈ List.range 12, Instruction.isKept (name.toList.take n) ∧
        spellOut (name.toList ++ ['(']) =
          name.toList.take n ++ ' ' :: 'D' :: name.toList.drop (n + 2) ++ ['('] := by
  decide +kernel

variable {inside body : List Char}

/-- Arguments and targets behind a kept name are read piece by piece. -/
theorem read_call {name : List Char} (hname : Instruction.isKept name) (hclose : ')' ∉ inside)
    (hsettled : Settled (name ++ '(' :: (inside ++ ')' :: body))) :
    Instruction.read (name ++ '(' :: (inside ++ ')' :: body)) =
      (Instruction.readArgs (Text.splitWhere (· == ',') inside)).bind fun args =>
        (Instruction.readTargets (Text.trim body)).bind fun ts =>
          .ok ⟨String.ofList name, "", args, ts⟩ := by
  have hhash : '#' ∉ '(' :: (inside ++ ')' :: body) := fun hmem =>
    (hsettled.plain '#' (List.mem_append_right _ hmem)).2.1 rfl
  rw [Instruction.read_untagged hname (by simp [Text.endsName]) hhash hsettled.trimmed,
    Instruction.readArguments_call hclose]
  cases Instruction.readArgs (Text.splitWhere (· == ',') inside) <;> rfl

namespace Call

variable {name : String}

theorem close_notMem (h : Call name inside body) : ')' ∉ inside := fun hmem =>
  (h.chars _ (List.mem_append_left _ hmem)).2 rfl

theorem tighten (h : Call name inside body) :
    Text.tighten (inside ++ ')' :: ' ' :: body) = Text.tighten inside ++ ')' :: body := by
  have htight : Text.tighten body = body := by
    refine Text.tightenBehind_eq_self fun c hc => ?_
    have hclose := (h.chars c (List.mem_append_right _ hc)).2
    have hcomma : c ≠ ',' := fun heq => h.comma (heq ▸ hc)
    simp [hclose, hcomma]
  have hafter : Text.tighten (')' :: ' ' :: body) = ')' :: Text.tighten body := rfl
  rw [Text.tighten_append (by decide), hafter, htight]

theorem chars_tail (h : Call name inside body) :
    ∀ c ∈ inside ++ ')' :: ' ' :: body, isCalled c := by
  intro c hc
  simp only [List.mem_append, List.mem_cons] at hc
  rcases hc with hc | rfl | rfl | hc
  · exact (h.chars c (List.mem_append_left _ hc)).1
  · rfl
  · rfl
  · exact (h.chars c (List.mem_append_right _ hc)).1

theorem shared (h : Call name inside body) {tail : List Char} (htail : ∀ c ∈ tail, isCalled c) :
    Shared isCalled (name.toList ++ ['(']) (spellOut (name.toList ++ ['('])) tail :=
  ⟨by decide, isOpening_call name h.known, isShared_call name h.known, rfl, htail⟩

theorem settled (h : Call name inside body) :
    Settled (spellOut (name.toList ++ ['(']) ++ (inside ++ ')' :: ' ' :: body)) := by
  obtain ⟨c, hc, hblank⟩ := h.last
  exact (h.shared h.chars_tail).settled
    ⟨c, by simp [List.getLast?_cons, Option.mem_def.1 hc], hblank⟩

theorem settled_tighten (h : Call name inside body) :
    Settled (spellOut (name.toList ++ ['(']) ++ (Text.tighten inside ++ ')' :: body)) := by
  obtain ⟨c, hc, hblank⟩ := h.last
  have htail : ∀ c ∈ Text.tighten inside ++ ')' :: body, isCalled c := fun c hc =>
    h.chars_tail c (Text.mem_tighten (h.tighten ▸ hc))
  exact (h.shared htail).settled ⟨c, by simp [List.getLast?_cons, Option.mem_def.1 hc], hblank⟩

/-- A call of a name that is spelled out is read without regard to the blanks that are left out. -/
theorem read_of_kept (h : Call name inside body) (hkept : Instruction.isKept name.toList)
    (hspell : spellOut (name.toList ++ ['(']) = name.toList ++ ['(']) :
    Instruction.read (spellOut (name.toList ++ ['(']) ++ (Text.tighten inside ++ ')' :: body)) =
        Instruction.read (spellOut (name.toList ++ ['(']) ++ (inside ++ ')' :: ' ' :: body)) ∧
      ∀ i, Instruction.read (spellOut (name.toList ++ ['(']) ++ (inside ++ ')' :: ' ' :: body)) =
        .ok i → Recognized i := by
  have hline := h.settled
  have htight := h.settled_tighten
  rw [hspell] at hline htight ⊢
  simp only [List.append_assoc, List.singleton_append] at hline htight ⊢
  have hread := read_call hkept h.close_notMem hline
  have hread' := read_call hkept (fun hmem => h.close_notMem (Text.mem_tighten hmem)) htight
  rw [Instruction.readArgs_tighten h.close_notMem] at hread'
  rw [Instruction.trim_blank] at hread
  refine ⟨hread'.trans hread.symm, fun i hi => ?_⟩
  rw [hread, String.ofList_toList] at hi
  cases hargs : Instruction.readArgs (Text.splitWhere (· == ',') inside) with
  | error fault =>
      rw [hargs] at hi
      cases hi
  | ok args =>
      cases hts : Instruction.readTargets (Text.trim body) with
      | error fault =>
          rw [hargs, hts] at hi
          cases hi
      | ok ts =>
          rw [hargs, hts] at hi
          cases hi
          exact ⟨h.known, fun hname => h.target hname ts hts⟩

/-- A call of a name that is torn apart is refused for the letter behind the blank. -/
theorem read_of_torn {n : Nat} {tail : List Char}
    (hkept : Instruction.isKept (name.toList.take n))
    (hspell : spellOut (name.toList ++ ['(']) =
      name.toList.take n ++ ' ' :: 'D' :: name.toList.drop (n + 2) ++ ['('])
    (hsettled : Settled (spellOut (name.toList ++ ['(']) ++ tail)) :
    Instruction.read (spellOut (name.toList ++ ['(']) ++ tail) =
      .error (.badTarget (String.ofList ['D'])) := by
  have hsplit : spellOut (name.toList ++ ['(']) ++ tail =
      name.toList.take n ++ ' ' :: 'D' :: (name.toList.drop (n + 2) ++ '(' :: tail) := by
    rw [hspell]
    simp
  rw [hsplit] at hsettled ⊢
  exact Instruction.read_stray hkept (Lexeme.first_stray (.inr rfl)) (by decide)
    (fun hmem => (hsettled.plain '#' (List.mem_append_right _ hmem)).2.1 rfl) hsettled.trimmed

theorem read (h : Call name inside body) :
    Instruction.read (spellOut (name.toList ++ ['(']) ++ (Text.tighten inside ++ ')' :: body)) =
        Instruction.read (spellOut (name.toList ++ ['(']) ++ (inside ++ ')' :: ' ' :: body)) ∧
      ∀ i, Instruction.read (spellOut (name.toList ++ ['(']) ++ (inside ++ ')' :: ' ' :: body)) =
        .ok i → Recognized i := by
  rcases spellOut_call name h.known with ⟨hkept, hspell⟩ | ⟨n, -, hkept, hspell⟩
  · exact h.read_of_kept hkept hspell
  · have hline := read_of_torn hkept hspell h.settled
    refine ⟨(read_of_torn hkept hspell h.settled_tighten).trans hline.symm, fun i hi => ?_⟩
    rw [hline] at hi
    cases hi

theorem shares (h : Call name inside body) :
    Shares (name.toList ++ '(' :: (inside ++ ')' :: ' ' :: body)) := by
  obtain ⟨hread, hknown⟩ := h.read
  have hbuilt := buildLine_congr h.settled h.settled_tighten hread hknown
  have hsettled := h.settled_tighten
  rw [← h.tighten] at hread hbuilt hsettled
  have hshares := (h.shared h.chars_tail).shares (by decide) h.settled hsettled hread hbuilt
  rwa [List.append_assoc] at hshares

end Call

theorem Written.shares {l : List Char} (h : Written l) : Shares l := by
  cases h with
  | tick =>
      have hcompact : compact tickName.toList = tickName.toList := by decide
      have htight : Text.tighten tickName.toList = tickName.toList := by decide
      have hnormal := settled_tick.normal
      refine ⟨settled_tick.solid, List.all_iff_forall_prop.1 (by decide), ?_, ?_, ?_, ?_, ?_⟩
      · rw [hcompact, hnormal, htight]
      · rw [hnormal]
        exact settled_tick
      · rw [hnormal, htight]
        exact settled_tick
      · rw [hnormal, htight]
      · intro s number
        rw [hnormal, htight]
  | @gate g body known chars last =>
      have hopening := isOpening_gate g known
      have hspell : spellOut (g.name.toList ++ [' ']) = g.name.toList ++ [' '] := by
        simp only [isOpening, Bool.and_eq_true] at hopening
        exact eq_of_beq hopening.2
      have hshared : Shared isListed (g.name.toList ++ [' ']) (g.name.toList ++ [' ']) body :=
        ⟨by decide, hopening, isShared_gate g known, hspell, chars⟩
      simpa using hshared.shares_of_plain (by decide) last
  | @product family body known chars last =>
      have hopening := isOpening_product family known
      have hspell : spellOut (family.toList ++ [' ']) = family.toList ++ [' '] := by
        simp only [isOpening, Bool.and_eq_true] at hopening
        exact eq_of_beq hopening.2
      have hshared : Shared isFactor (family.toList ++ [' ']) (family.toList ++ [' ']) body :=
        ⟨by decide, hopening, isShared_product family known, hspell, chars⟩
      simpa using hshared.shares_of_plain (by decide) last
  | call call => exact call.shares

end ShareLink

end StimOverlay
