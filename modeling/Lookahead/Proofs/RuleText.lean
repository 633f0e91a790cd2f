import Lookahead.Proofs.Draft
import Lookahead.Proofs.RuleLine

/-!
# Reading rule text

A text is any run of bytes, and it is read line by line.  The rules of its lines are gathered, and
the first line that is not legal ends the reading.

**Rule text is read as it is written** (`parse_reads_written`).  A grammar comes of texts exactly if
all of their lines are legal and not all are blank, and it is the one that the lines write.  If a
line is not legal, the error is about the first such line and lies within it.  If all lines are
blank, nothing is defined.  There are no other errors: what a legal line writes is always something
that a grammar may hold.
-/

namespace Lookahead

namespace Text

/-- The lines that a text splits into at its line feeds. -/
structure Splits (text : List UInt8) (lines : List (List UInt8)) : Prop where
  ne_nil : lines ≠ []
  joined : [lineFeed].intercalate lines = text
  lineFeed_notMem : ∀ line ∈ lines, lineFeed ∉ line

theorem lineFeed_notMem_lines {text line : List UInt8} (h : line ∈ lines text) :
    lineFeed ∉ line := by
  induction text generalizing line with
  | nil =>
      rw [lines_nil, List.mem_singleton] at h
      simp [h]
  | cons b text ih =>
      by_cases hb : b = lineFeed
      · rw [hb, lines_lineFeed_cons] at h
        rcases List.mem_cons.mp h with rfl | h
        · simp
        · exact ih h
      · rw [lines_cons hb] at h
        rcases List.mem_cons.mp h with rfl | h
        · have hfirst : lineFeed ∉ (splitFirst text).1 := ih List.mem_cons_self
          simp [hfirst, Ne.symm hb]
        · exact ih (List.mem_cons_of_mem _ h)

theorem splits_lines (text : List UInt8) : Splits text (lines text) where
  ne_nil := List.cons_ne_nil _ _
  joined := intercalate_lines text
  lineFeed_notMem := fun _ => lineFeed_notMem_lines

end Text

namespace RuleText

/-! ### Lines that are all legal -/

/-- The rules that some lines write, in order. -/
inductive Written : List (List UInt8) → List (Symbol × List Production) → Prop where
  | nil : Written [] []
  | blank {line : List UInt8} {lines : List (List UInt8)} {rs : List (Symbol × List Production)}
      (hline : Blank line) (h : Written lines rs) : Written (line :: lines) rs
  | rule {line : List UInt8} {lines : List (List UInt8)} {rs : List (Symbol × List Production)}
      {A : Symbol} {ps : List Production} (hline : WritesRule (tokens line) A ps)
      (h : Written lines rs) : Written (line :: lines) ((A, ps) :: rs)

variable {lines : List (List UInt8)} {rs : List (Symbol × List Production)}

theorem exists_written (h : ∀ line ∈ lines, Legal line) : ∃ rs, Written lines rs := by
  induction lines with
  | nil => exact ⟨[], .nil⟩
  | cons line lines ih =>
      obtain ⟨hline, hlines⟩ := List.forall_mem_cons.mp h
      obtain ⟨rs, hrs⟩ := ih hlines
      rcases hline with hline | ⟨A, ps, hline⟩
      · exact ⟨rs, .blank hline hrs⟩
      · exact ⟨(A, ps) :: rs, .rule hline hrs⟩

theorem Written.legal (h : Written lines rs) : ∀ line ∈ lines, Legal line := by
  induction h with
  | nil => simp
  | blank hline _ ih => exact List.forall_mem_cons.mpr ⟨Or.inl hline, ih⟩
  | rule hline _ ih => exact List.forall_mem_cons.mpr ⟨Or.inr ⟨_, _, hline⟩, ih⟩

theorem WritesRule.not_blank {line : List UInt8} {A : Symbol} {ps : List Production}
    (h : WritesRule (tokens line) A ps) : ¬ Blank line := by
  intro hline
  rw [hline] at h
  cases h

/-- Lines write a rule exactly if one of them is not blank. -/
theorem Written.ne_nil_iff (h : Written lines rs) : rs ≠ [] ↔ ∃ line ∈ lines, ¬ Blank line := by
  induction h with
  | nil => simp
  | blank hline _ ih => simp [ih, hline]
  | rule hline _ _ => simp [hline.not_blank]

/-! ### Reading on -/

variable {d : Draft} {name : List UInt8}

/-- Reading legal lines gathers the rules that they write. -/
theorem Written.gathers {new : List (Symbol × List Production)} (h : Written lines new)
    (hd : d.Gathers name rs) (first : Nat) :
    ∃ d', (lines.zipIdx first).foldlM addLine d = .ok d' ∧ d'.Gathers name (rs ++ new) := by
  induction h generalizing d rs first with
  | nil => exact ⟨d, rfl, by rwa [List.append_nil]⟩
  | @blank line lines new hline _ ih =>
      have hadd : addLine d (line, first) = .ok d := by
        simp [addLine, parseLine_eq_ok_none_iff.mpr hline]
      obtain ⟨d', hd', hgathers⟩ := ih hd (first + 1)
      exact ⟨d', by rwa [List.zipIdx_cons, List.foldlM_cons, hadd], hgathers⟩
  | @rule line lines new A ps hline _ ih =>
      have hadd : addLine d (line, first) = .ok (d.define A ps) := by
        simp [addLine, parseLine_eq_ok_some_iff.mpr hline]
      have hsound : ∀ t ∈ tokens line, t.Sound line.length :=
        fun _ => sound_of_mem_tokens
      have hdefine := hd.define (hline.isNonterminal hsound) (hline.proper hsound)
      obtain ⟨d', hd', hgathers⟩ := ih hdefine (first + 1)
      rw [List.append_assoc, List.singleton_append] at hgathers
      exact ⟨d', by rwa [List.zipIdx_cons, List.foldlM_cons, hadd], hgathers⟩

/-- Reading ends at a line that is not legal. -/
theorem addLine_of_not_legal {line : List UInt8} (h : ¬ Legal line) :
    ∃ span fault, span.Within line.length ∧
      ∀ d number, addLine d (line, number) = .error (.rule ⟨number, span, line, fault⟩) := by
  cases hparse : parseLine line with
  | ok r => exact absurd (legal_iff.mpr ⟨r, hparse⟩) h
  | error e =>
      obtain ⟨span, fault⟩ := e
      exact ⟨span, fault, within_of_parseLine hparse, fun d number => by simp [addLine, hparse]⟩

variable {texts : List (List UInt8)}

theorem parse_of_written_nil (name : List UInt8) (h : Written (texts.flatMap Text.lines) []) :
    parse name texts = .error (.draft .empty) := by
  obtain ⟨d, hd, hgathers⟩ := h.gathers (Draft.gathers_empty name) 1
  rw [parse, hd]
  show d.grammar.mapError Error.draft = .error (Error.draft .empty)
  rw [hgathers.grammar_nil]
  rfl

theorem parse_of_written (name : List UInt8) (h : Written (texts.flatMap Text.lines) rs)
    (hrs : rs ≠ []) :
    ∃ g, parse name texts = .ok g ∧ g.name = name ∧ g.definitions = Definition.gathered rs := by
  obtain ⟨d, hd, hgathers⟩ := h.gathers (Draft.gathers_empty name) 1
  obtain ⟨g, hg, hname, hdefinitions⟩ := hgathers.grammar hrs
  refine ⟨g, ?_, hname, hdefinitions⟩
  rw [parse, hd]
  show d.grammar.mapError Error.draft = .ok g
  rw [hg]
  rfl

theorem parse_of_not_legal (name : List UInt8) {before after : List (List UInt8)}
    {line : List UInt8} (hlines : texts.flatMap Text.lines = before ++ line :: after)
    (hbefore : ∀ l ∈ before, Legal l) (hline : ¬ Legal line) :
    ∃ span fault, parse name texts = .error (.rule ⟨before.length + 1, span, line, fault⟩) ∧
      span.Within line.length := by
  obtain ⟨rs, hrs⟩ := exists_written hbefore
  obtain ⟨d, hd, -⟩ := hrs.gathers (Draft.gathers_empty name) 1
  obtain ⟨span, fault, hspan, hadd⟩ := addLine_of_not_legal hline
  refine ⟨span, fault, ?_, hspan⟩
  rw [parse, hlines, List.zipIdx_append, List.foldlM_append, hd, List.zipIdx_cons]
  simp [bind, Except.bind, hadd, Nat.add_comm]

/-! ### The first line at fault -/

theorem exists_first_not_legal (h : ¬ ∀ line ∈ lines, Legal line) :
    ∃ before line after, lines = before ++ line :: after ∧ (∀ l ∈ before, Legal l) ∧
      ¬ Legal line := by
  induction lines with
  | nil => exact absurd (by simp) h
  | cons line lines ih =>
      by_cases hline : Legal line
      · have hlines : ¬ ∀ l ∈ lines, Legal l := fun hall =>
          h (List.forall_mem_cons.mpr ⟨hline, hall⟩)
        obtain ⟨before, l, after, rfl, hbefore, hl⟩ := ih hlines
        exact ⟨line :: before, l, after, rfl, List.forall_mem_cons.mpr ⟨hline, hbefore⟩, hl⟩
      · exact ⟨[], line, lines, rfl, by simp, hline⟩

/-- A grammar that is read is the one that the lines write. -/
theorem written_of_parse {g : Grammar} (h : parse name texts = .ok g) :
    ∃ rs, Written (texts.flatMap Text.lines) rs ∧ rs ≠ [] ∧ g.name = name ∧
      g.definitions = Definition.gathered rs := by
  by_cases hlegal : ∀ line ∈ texts.flatMap Text.lines, Legal line
  · obtain ⟨rs, hrs⟩ := exists_written hlegal
    have hne : rs ≠ [] := by
      rintro rfl
      cases h.symm.trans (parse_of_written_nil name hrs)
    obtain ⟨g', hg', hname, hdefinitions⟩ := parse_of_written name hrs hne
    obtain rfl := Except.ok.inj (h.symm.trans hg')
    exact ⟨rs, hrs, hne, hname, hdefinitions⟩
  · obtain ⟨before, line, after, hlines, hbefore, hline⟩ := exists_first_not_legal hlegal
    obtain ⟨span, fault, herror, -⟩ := parse_of_not_legal name hlines hbefore hline
    cases h.symm.trans herror

theorem isEmpty_of_parse {g : Grammar} (h : parse name texts = .ok g) : g.isEmpty = false := by
  obtain ⟨rs, -, hne, -, hdefinitions⟩ := written_of_parse h
  simpa [Grammar.isEmpty, hdefinitions] using Definition.gathered_ne_nil hne

theorem exists_parse_iff :
    (∃ g, parse name texts = .ok g) ↔ (∀ line ∈ texts.flatMap Text.lines, Legal line) ∧
      ∃ line ∈ texts.flatMap Text.lines, ¬ Blank line := by
  refine ⟨?_, ?_⟩
  · rintro ⟨g, hg⟩
    obtain ⟨rs, hrs, hne, -⟩ := written_of_parse hg
    exact ⟨hrs.legal, hrs.ne_nil_iff.mp hne⟩
  · rintro ⟨hlegal, hblank⟩
    obtain ⟨rs, hrs⟩ := exists_written hlegal
    obtain ⟨g, hg, -⟩ := parse_of_written name hrs (hrs.ne_nil_iff.mpr hblank)
    exact ⟨g, hg⟩

theorem parse_of_blank (hblank : ∀ line ∈ texts.flatMap Text.lines, Blank line) :
    parse name texts = .error (.draft .empty) := by
  obtain ⟨rs, hrs⟩ := exists_written fun line hline => Or.inl (hblank line hline)
  cases rs with
  | nil => exact parse_of_written_nil name hrs
  | cons r rest =>
      obtain ⟨line, hline, hnot⟩ := hrs.ne_nil_iff.mp (List.cons_ne_nil r rest)
      exact absurd (hblank line hline) hnot

/-- Nothing that a legal line writes is refused when it is defined. -/
theorem eq_of_parse_error {e : Error} (he : parse name texts = .error e) :
    e = .draft .empty ∨ ∃ fault, e = .rule fault := by
  by_cases hlegal : ∀ line ∈ texts.flatMap Text.lines, Legal line
  · obtain ⟨rs, hrs⟩ := exists_written hlegal
    cases rs with
    | nil => exact Or.inl (Except.error.inj (he.symm.trans (parse_of_written_nil name hrs)))
    | cons r rest =>
        obtain ⟨g, hg, -⟩ := parse_of_written name hrs (List.cons_ne_nil r rest)
        cases he.symm.trans hg
  · obtain ⟨before, line, after, hlines, hbefore, hline⟩ := exists_first_not_legal hlegal
    obtain ⟨span, fault, herror, -⟩ := parse_of_not_legal name hlines hbefore hline
    exact Or.inr ⟨_, Except.error.inj (he.symm.trans herror)⟩

/-- **Rule text is read as it is written.**  All texts are split into lines; a grammar is read
exactly if all lines are legal and one of them is not blank, and its definitions gather the rules
that the lines write.  The first line that is not legal is reported with its number and with columns
within it.  Otherwise the only error is that nothing is defined. -/
theorem parse_reads_written (name : List UInt8) (texts : List (List UInt8)) :
    let lines := texts.flatMap Text.lines
    (∀ text ∈ texts, Text.Splits text (Text.lines text)) ∧
    ((∃ g, parse name texts = .ok g) ↔
      (∀ line ∈ lines, Legal line) ∧ ∃ line ∈ lines, ¬ Blank line) ∧
    (∀ g, parse name texts = .ok g →
      g.name = name ∧ ∃ rs, Written lines rs ∧ g.definitions = Definition.gathered rs) ∧
    (∀ before line after, lines = before ++ line :: after → (∀ l ∈ before, Legal l) →
      ¬ Legal line →
      ∃ span fault, parse name texts = .error (.rule ⟨before.length + 1, span, line, fault⟩) ∧
        span.Within line.length) ∧
    ((∀ line ∈ lines, Blank line) → parse name texts = .error (.draft .empty)) ∧
    ∀ e, parse name texts = .error e → e = .draft .empty ∨ ∃ fault, e = .rule fault := by
  intro lines
  refine ⟨fun text _ => Text.splits_lines text, exists_parse_iff, fun g hg => ?_,
    fun _ _ _ => parse_of_not_legal name, parse_of_blank, fun _ => eq_of_parse_error⟩
  obtain ⟨rs, hrs, -, hname, hdefinitions⟩ := written_of_parse hg
  exact ⟨hname, rs, hrs, hdefinitions⟩

/-- A byte that is part of no character does no harm in a comment. -/
example :
    let stray := Text.bytes "S -> c \x7b" ++ [0xFF] ++ Text.bytes "\x7d"
    ((parse defaultName [Text.bytes "S -> aB | ϵ\n\nB ->", stray]).toOption.map
        Grammar.definitions) =
      some [⟨.nonterminal 18, [[.terminal 0, .nonterminal 1], [.epsilon], [.terminal 2]]⟩,
        ⟨.nonterminal 1, [[.epsilon]]⟩] := by
  decide +kernel

end RuleText

end Lookahead
