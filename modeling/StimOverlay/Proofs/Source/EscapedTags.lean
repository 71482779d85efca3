import StimOverlay.Proofs.Circuit.PackedCoordinates
import StimOverlay.Proofs.Emission.LineBuilding
import StimOverlay.Proofs.Source.PragmaMarkers
import StimOverlay.Proofs.Source.SpelledOutLines

/-! Escaped tags. Escaping hides everything in a tag that would end the tag or its line, so that the tag
is read back from any text that it is written into. Between the brackets of a line nothing is rewritten
and no comment begins; only a semicolon and a pragma marker are seen in front of the line structure. -/

namespace StimOverlay

open Build

namespace Tag

variable {tag : List Char}

theorem escapeTag_cons (c : Char) (tag : List Char) : escapeTag (c :: tag) = escapeTag [c] ++ escapeTag tag :=
  @List.flatMap_append _ _ [c] tag _

/-- An escaped character is a letter behind a backslash, or the character as it is. -/
theorem escapeTag_cases (c : Char) :
    (∃ d, escapeTag [c] = ['\\', d] ∧ unescape? d = some c) ∨
      escapeTag [c] = [c] ∧ c ≠ '\\' ∧ c ≠ ']' ∧ c ≠ '\r' ∧ c ≠ '\n' := by
  rw [escapeTag, List.flatMap_singleton]
  split_ifs with hback hclose hreturn hfeed
  · exact .inl ⟨'B', rfl, by rw [beq_iff_eq.1 hback]; rfl⟩
  · exact .inl ⟨'C', rfl, by rw [beq_iff_eq.1 hclose]; rfl⟩
  · exact .inl ⟨'r', rfl, by rw [beq_iff_eq.1 hreturn]; rfl⟩
  · exact .inl ⟨'n', rfl, by rw [beq_iff_eq.1 hfeed]; rfl⟩
  · simp only [beq_iff_eq] at hback hclose hreturn hfeed
    exact .inr ⟨rfl, hback, hclose, hreturn, hfeed⟩

theorem letter_of_unescape? {c d : Char} (h : unescape? d = some c) : d ∈ ['C', 'r', 'n', 'B'] := by
  rw [unescape?] at h
  split_ifs at h with hC hr hn hB <;> simp_all

/-- What is read in front of other text is the escaped character. -/
theorem readFrom_escapeTag_singleton (body : List Char) (c : Char) (rest : List Char) :
    readFrom body (escapeTag [c] ++ rest) = (readFrom body rest).map fun r => (c :: r.1, r.2) := by
  rcases escapeTag_cases c with ⟨d, hd, hc⟩ | ⟨hc, hback, hclose, -, -⟩
  · rw [hd, List.cons_append, List.cons_append, List.nil_append, readFrom, hc]
  · rw [hc, List.singleton_append, readFrom]
    · exact hclose
    · rintro rfl
      exact absurd rfl hback
    · rintro d more rfl
      exact absurd rfl hback

theorem readFrom_escapeTag (body tag rest : List Char) :
    readFrom body (escapeTag tag ++ ']' :: rest) = .ok (tag, rest) := by
  induction tag with
  | nil => rfl
  | cons c tag ih =>
      rw [escapeTag_cons, List.append_assoc, readFrom_escapeTag_singleton, ih]
      rfl

theorem mem_escapeTag {d : Char} (h : d ∈ escapeTag tag) :
    d ∈ ['\\', 'C', 'r', 'n', 'B'] ∨ d ∈ tag ∧ d ≠ ']' ∧ d ≠ '\r' ∧ d ≠ '\n' := by
  induction tag with
  | nil => cases h
  | cons c tag ih =>
      rw [escapeTag_cons, List.mem_append] at h
      rcases h with h | h
      · rcases escapeTag_cases c with ⟨e, he, hletter⟩ | ⟨hc, -, hclose, hreturn, hfeed⟩
        · rw [he] at h
          have hletter := letter_of_unescape? hletter
          rcases List.mem_pair.1 h with rfl | rfl
          · exact .inl List.mem_cons_self
          · exact .inl (List.mem_cons_of_mem _ hletter)
        · rw [hc, List.mem_singleton] at h
          subst h
          exact .inr ⟨List.mem_cons_self, hclose, hreturn, hfeed⟩
      · exact (ih h).imp_right fun ⟨hd, hplain⟩ => ⟨List.mem_cons_of_mem _ hd, hplain⟩

theorem prefix_of_prefix_escapeTag {old : List Char} (hold : '\\' ∉ old)
    (h : old <+: escapeTag tag) : old <+: tag := by
  induction tag generalizing old with
  | nil => exact h
  | cons c tag ih =>
      cases old with
      | nil => exact List.nil_prefix
      | cons d old =>
          rw [escapeTag_cons] at h
          rcases escapeTag_cases c with ⟨e, he, -⟩ | ⟨hc, -⟩
          · rw [he] at h
            exact absurd (List.cons_prefix_cons.1 h).1 (by rintro rfl; exact hold List.mem_cons_self)
          · rw [hc, List.singleton_append, List.cons_prefix_cons] at h
            obtain ⟨rfl, h⟩ := h
            exact List.cons_prefix_cons.2
              ⟨rfl, ih (fun hmem => hold (List.mem_cons_of_mem _ hmem)) h⟩

/-- A text that neither has a backslash nor starts like an escaped character is in an escaped tag only if it
is in the tag. -/
theorem infix_of_infix_escapeTag {old : List Char} (hold : '\\' ∉ old)
    (hhead : ∀ c ∈ old.head?, c ∉ ['C', 'r', 'n', 'B']) (h : old <:+: escapeTag tag) : old <:+: tag := by
  cases old with
  | nil => exact List.nil_infix
  | cons o old =>
      induction tag with
      | nil => exact h
      | cons c tag ih =>
          have hstart : o :: old <+: escapeTag (c :: tag) → o :: old <:+: c :: tag := fun h =>
            (prefix_of_prefix_escapeTag hold h).isInfix
          have hrest : o :: old <:+: escapeTag tag → o :: old <:+: c :: tag := fun h =>
            (ih h).trans (List.suffix_cons c tag).isInfix
          rw [escapeTag_cons] at h hstart
          rcases escapeTag_cases c with ⟨e, he, hletter⟩ | ⟨hc, -⟩
          · rw [he] at h hstart
            rcases List.infix_cons_iff.1 h with h | h
            · exact hstart h
            · rcases List.infix_cons_iff.1 h with h | h
              · have hoe := (List.cons_prefix_cons.1 h).1
                exact absurd (letter_of_unescape? hletter) (hoe ▸ hhead o rfl)
              · exact hrest h
          · rw [hc] at h hstart
            rcases List.infix_cons_iff.1 h with h | h
            · exact hstart h
            · exact hrest h

end Tag

namespace Source

variable {name raw after tag : List Char}

/-- Pragma markers have no brackets, so they are dropped in a tag and around it on their own. -/
theorem dropPragmas_tagged (name raw after : List Char) :
    dropPragmas (name ++ '[' :: (raw ++ ']' :: after)) =
      dropPragmas name ++ '[' :: (dropPragmas raw ++ ']' :: dropPragmas after) := by
  rw [dropPragmas, Text.replaceEach_separator (by decide), Text.replaceEach_separator (by decide)]
  rfl

theorem dropPragmas_escapeTag (h : ¬"#!pragma".toList <:+: tag) :
    dropPragmas (escapeTag tag) = escapeTag tag := by
  refine Text.replaceEach_of_not_infix fun rule hrule hin => h ?_
  have hrules : ∀ rule ∈ pragmaNames.map fun name => (pragmaMarker ++ name, name),
      "#!pragma".toList <+: rule.1.toList := by decide
  have hmarker : "#!pragma".toList <:+: escapeTag tag := (hrules rule hrule).isInfix.trans hin
  exact Tag.infix_of_infix_escapeTag (by decide) (by rintro c ⟨⟩; decide) hmarker

/-- A line with a tag is left as it is if what stands around the tag is. -/
theorem normalize_tagged {c : Char} (hc : c.isUpper)
    (hname : ∀ d ∈ c :: name, Text.endsName d = false) (hraw : ']' ∉ raw)
    (hplain : ∀ d ∈ c :: name ++ '[' :: (raw ++ ']' :: after), d ≠ ';' ∧ d ≠ '\n')
    (hspelled : spellOut (c :: name) = c :: name ∧ spellOut after = after)
    (hdropped : dropPragmas (c :: name) = c :: name ∧ dropPragmas raw = raw ∧
      dropPragmas after = after) :
    normalize (c :: name ++ '[' :: (raw ++ ']' :: after)) =
      [c :: name ++ '[' :: (raw ++ ']' :: after)] := by
  have hdrop : dropPragmas (c :: name ++ '[' :: (raw ++ ']' :: after)) =
      c :: name ++ '[' :: (raw ++ ']' :: after) := by
    rw [dropPragmas_tagged, hdropped.1, hdropped.2.1, hdropped.2.2]
  rw [normalize_undropped (by simp) hplain hdrop, normalizeLine_tagged hc hname hraw, hspelled.1,
    hspelled.2]

end Source

namespace Instruction

/-- A line with a kept name and an escaped tag is read as its arguments and targets are. -/
theorem read_tagged {name tag after line : List Char} (hname : isKept name)
    (hline : line = name ++ '[' :: (escapeTag tag ++ ']' :: after)) (htrim : Text.trim line = line) :
    read line = (readArguments line (Text.before (· == '#') after)).bind fun a =>
      (readTargets (Text.trim a.2)).bind fun ts =>
        .ok ⟨String.ofList name, String.ofList tag, a.1, ts⟩ := by
  simp only [isKept, Bool.and_eq_true, List.all_eq_true, beq_iff_eq] at hname
  obtain ⟨⟨hisname, hplain⟩, hupper⟩ := hname
  have htake : line.takeWhile (!Text.endsName ·) = name := by
    rw [hline, List.takeWhile_append_of_pos hplain, List.takeWhile_cons_of_neg (by decide),
      List.append_nil]
  have hdrop : line.drop name.length = '[' :: (escapeTag tag ++ ']' :: after) := by
    rw [hline, List.drop_left]
  have htag : readTag ('[' :: (escapeTag tag ++ ']' :: after)) = .ok (tag, after) := by
    rw [readTag, Tag.read, Tag.readFrom_escapeTag]
    rfl
  rw [read, htrim]
  simp only [htake, hisname, Bool.not_true, Bool.false_eq_true, if_false, hdrop, htag, bind,
    Except.bind, hupper]

end Instruction

namespace Build

/-- The gate of the lines below. -/
def hadamard : Gate := ⟨"H", 1, true, .unitary⟩

theorem gate?_hadamard : Context.standard.catalog.gate? "H" = some hadamard ∧
    Context.standard.catalog.alias? "H" = none := by
  decide

/-- The state behind a first line that applies the gate to qubit 0. -/
def hadamardState (tag : String) : State where
  circuit := { Circuit.empty with
    schedule := ⟨#[], .startingWith (.onQubit hadamard tag [] 0 1)⟩ }
  contentSeen := true

theorem buildLine_hadamard {line : List Char} {tag : String} (htrim : Text.trim line = line)
    (hplain : State.isTrivia line = false ∧ Source.isDirective line = false)
    (hread : Instruction.read line = .ok ⟨"H", tag, [], [.qubit 0 false]⟩) :
    ({} : State).buildLine .standard 1 line = .ok (hadamardState tag) := by
  obtain ⟨hgate, halias⟩ := gate?_hadamard
  let i : Instruction := ⟨"H", tag, [], [.qubit 0 false]⟩
  have hgateBuilt (s : State) : s.build .standard 1 line i = s.buildGate .standard 1 i hadamard false := by
    have hother : "H" ≠ tickName ∧ "H" ≠ coordinatesName ∧ "H" ≠ polygonName ∧
        ¬("H" = detectorName ∨ "H" = observableName) ∧ "H" ∉ Gate.productFamilies := by decide
    obtain ⟨htick, hcoordinates, hpolygon, hmarker, hproduct⟩ := hother
    rw [State.build, if_neg htick, if_neg hcoordinates, if_neg hpolygon, if_neg hmarker,
      if_neg hproduct, State.buildNamed, halias]
    simp only [i, hgate]
  have hfaults : i.targets.findSome? (gateFault? hadamard i) = none := rfl
  have hcount : i.targets.length % max hadamard.arity 1 = 0 := Nat.mod_one _
  have hbuild : ({ contentSeen := true } : State).build .standard 1 line i =
      .ok (.applied "H" [0] 0, hadamardState tag) := by
    rw [hgateBuilt, State.buildGate]
    simp only [hfaults, hcount]
    rfl
  rw [State.buildLine, htrim, hplain.1, hplain.2, hread]
  exact buildInstruction_of_build hbuild (by simp) rfl rfl

/-- The line that applies the gate to qubit 0 with a tag. -/
def hadamardLine (tag : List Char) : List Char :=
  ['H'] ++ '[' :: (escapeTag tag ++ ']' :: [' ', '0'])

variable {tag : List Char}

theorem trim_hadamardLine (tag : List Char) : Text.trim (hadamardLine tag) = hadamardLine tag := by
  refine Source.trim_eq_self (by rintro c ⟨⟩; rfl) fun c hc => ?_
  have hline : hadamardLine tag = ['H', '['] ++ escapeTag tag ++ [']', ' '] ++ ['0'] := by
    simp [hadamardLine]
  rw [hline, List.getLast?_concat] at hc
  cases hc
  rfl

theorem normalize_hadamardLine (hsemicolon : ';' ∉ tag) (hmarker : ¬"#!pragma".toList <:+: tag) :
    Source.normalize (hadamardLine tag) = [hadamardLine tag] := by
  have hescaped : ']' ∉ escapeTag tag ∧ ∀ c ∈ escapeTag tag, c ≠ ';' ∧ c ≠ '\n' := by
    have hletters : ∀ c ∈ ['\\', 'C', 'r', 'n', 'B'], c ≠ ']' ∧ c ≠ ';' ∧ c ≠ '\n' :=
      List.all_iff_forall_prop.1 (by decide)
    have hall {c : Char} (hc : c ∈ escapeTag tag) : c ≠ ']' ∧ c ≠ ';' ∧ c ≠ '\n' := by
      rcases Tag.mem_escapeTag hc with hc | ⟨hc, hclose, -, hfeed⟩
      · exact hletters c hc
      · exact ⟨hclose, fun heq => hsemicolon (heq ▸ hc), hfeed⟩
    exact ⟨fun hmem => (hall hmem).1 rfl, fun c hc => (hall hc).2⟩
  have hplain : ∀ c ∈ hadamardLine tag, c ≠ ';' ∧ c ≠ '\n' := by
    have haround : ∀ c ∈ ['H', '[', ']', ' ', '0'], c ≠ ';' ∧ c ≠ '\n' :=
      List.all_iff_forall_prop.1 (by decide)
    intro c hc
    simp only [hadamardLine, List.cons_append, List.nil_append, List.mem_cons, List.mem_append,
      List.not_mem_nil, or_false] at hc
    rcases hc with rfl | rfl | hc | rfl | rfl | rfl
    · exact haround _ (by decide)
    · exact haround _ (by decide)
    · exact hescaped.2 c hc
    all_goals exact haround _ (by decide)
  have hname : ∀ c ∈ ['H'], Text.endsName c = false := List.all_iff_forall_prop.1 (by decide)
  exact Source.normalize_tagged rfl hname hescaped.1 hplain (by decide)
    ⟨by decide, Source.dropPragmas_escapeTag hmarker, by decide⟩

theorem read_hadamardLine (tag : List Char) : Instruction.read (hadamardLine tag) =
    .ok ⟨"H", String.ofList tag, [], [.qubit 0 false]⟩ := by
  have hbefore : Text.before (· == '#') [' ', '0'] = [' ', '0'] := by decide
  have hargs := Instruction.readArguments_blank (c := '0') rfl (by decide) (hadamardLine tag) []
  have htargets : Instruction.readTargets (Text.trim [' ', '0']) = .ok [.qubit 0 false] := by decide
  have hkept : Instruction.isKept ['H'] := by decide
  rw [Instruction.read_tagged hkept (hadamardLine.eq_1 tag) (trim_hadamardLine tag), hbefore, hargs]
  simp only [Except.bind, htargets]

theorem finalState_hadamardLine (tag : List Char) :
    finalState .standard [hadamardLine tag] = hadamardState (String.ofList tag) := by
  have hmark : ∀ t ∈ [hadamardLine tag], Block.mark (Text.trim t) = .plain := by
    intro t ht
    rw [List.mem_singleton.1 ht, trim_hadamardLine]
    exact Source.mark_eq_plain rfl (by simp)
  have hplain : State.isTrivia (hadamardLine tag) = false ∧
      Source.isDirective (hadamardLine tag) = false :=
    Source.isInstruction_cons rfl (by decide) _
  refine (run_of_unblocked hmark rfl ?_).1
  exact (bind_pure _).trans
    (buildLine_hadamard (trim_hadamardLine tag) hplain (read_hadamardLine tag))

theorem parse_of_hadamardLine {text : String} (htext : text.toList = hadamardLine tag)
    (hsemicolon : ';' ∉ tag) (hmarker : ¬"#!pragma".toList <:+: tag) :
    (parse text).diagnostics = [] ∧ (parse text).circuit.layers =
      [.startingWith (.onQubit hadamard (String.ofList tag) [] 0 1)] := by
  have hnormal : Source.normalize text.toList = [hadamardLine tag] := by
    rw [htext, normalize_hadamardLine hsemicolon hmarker]
  have hfinal := finalState_hadamardLine tag
  constructor
  · rw [parse, parseWith, hnormal, hfinal]
    rfl
  · obtain ⟨inserted, hlayers⟩ := layers_parseWith .standard text
    have htrimmed : (hadamardState (String.ofList tag)).circuit.schedule.trimEnd.toList =
        [.startingWith (.onQubit hadamard (String.ofList tag) [] 0 1)] := rfl
    have hundrawn (op : Operation) : (Layer.startingWith op).overlays = #[] := rfl
    rw [parse, hlayers, draft, hnormal, hfinal, htrimmed, List.map_singleton, hundrawn, Array.map_empty,
      ← hundrawn]

/-- **A tag is read back** from its escaped form whatever follows, and so it is from the line of a gate,
unless the tag has a semicolon or a pragma marker. -/
theorem parse_escapeTag (tag : List Char) :
    (∀ rest, Tag.read (escapeTag tag ++ ']' :: rest) = .ok (tag, rest)) ∧
      (';' ∉ tag → ¬"#!pragma".toList <:+: tag →
        let parsed := parse ("H[" ++ String.ofList (escapeTag tag) ++ "] 0")
        parsed.diagnostics = [] ∧ parsed.circuit.layers =
          [.startingWith (.onQubit hadamard (String.ofList tag) [] 0 1)]) := by
  refine ⟨fun rest => Tag.readFrom_escapeTag _ tag rest, fun hsemicolon hmarker => ?_⟩
  have htext : ("H[" ++ String.ofList (escapeTag tag) ++ "] 0").toList = hadamardLine tag := by
    simp [hadamardLine]
  exact parse_of_hadamardLine htext hsemicolon hmarker

/-- A tag with brackets, a backslash, a line break, a comment and the beginnings of two rules. -/
theorem parse_escapeTag_hostile :
    let tag := "a]b\\[c\n#!prag_DAG Q(".toList
    ';' ∉ tag ∧ ¬"#!pragma".toList <:+: tag ∧
      String.ofList (escapeTag tag) = "a\\Cb\\B[c\\n#!prag_DAG Q(" ∧
      (parse ("H[" ++ String.ofList (escapeTag tag) ++ "] 0")).diagnostics = [] ∧
      (parse ("H[" ++ String.ofList (escapeTag tag) ++ "] 0")).circuit.layers =
        [.startingWith (.onQubit hadamard (String.ofList tag) [] 0 1)] := by
  intro tag
  have hsemicolon : ';' ∉ tag := by decide
  have hmarker : ¬"#!pragma".toList <:+: tag := by decide
  exact ⟨hsemicolon, hmarker, by decide, (parse_escapeTag tag).2 hsemicolon hmarker⟩

end Build

end StimOverlay
