import Lookahead.Digest
import Lookahead.Proofs.Printing
import Lookahead.Proofs.Session

/-!
# Reports that are kept

A session keeps its reports under fingerprints and goes on using them when the grammar is cleared
and written anew.  A fingerprint is a digest of the printed grammar.  The text that is digested puts
each line between quotes, and no printed line holds a quote, so the text determines the lines
(`Grammar.lines_eq_of_digested_eq`), and these determine a grammar that was read.

Along a session every report at hand stays the report that is made afresh of some grammar whose text
was digested (`faithful_after`).  A report that is found for a grammar is therefore its own, as long
as the digest tells the texts apart that it was given.

**Keeping reports does not show** (`run_eq_afresh`).  On any screen, a run comes to what it comes to
without any report at hand.
-/

namespace Lookahead

/-! ### Words between separators -/

theorem append_cons_inj_of_notMem {α : Type} {q : α} {l m s t : List α} (hl : q ∉ l) (hm : q ∉ m)
    (h : l ++ q :: s = m ++ q :: t) : l = m ∧ s = t := by
  induction l generalizing m with
  | nil =>
      cases m with
      | nil => exact ⟨rfl, (List.cons.inj h).2⟩
      | cons b m =>
          obtain rfl := (List.cons.inj h).1
          exact absurd List.mem_cons_self hm
  | cons a l ih =>
      cases m with
      | nil =>
          obtain rfl := (List.cons.inj h).1
          exact absurd List.mem_cons_self hl
      | cons b m =>
          rw [List.mem_cons, not_or] at hl hm
          obtain ⟨rfl, hrest⟩ := List.cons.inj h
          obtain ⟨rfl, hst⟩ := ih hl.2 hm.2 hrest
          exact ⟨rfl, hst⟩

/-- Words between separators determine the words, none of which holds the first letter of the
separator. -/
theorem eq_of_intercalate_eq {α : Type} {q : α} {sep : List α} {ls ms : List (List α)}
    (hls : ∀ l ∈ ls, q ∉ l) (hms : ∀ m ∈ ms, q ∉ m) (hls' : ls ≠ []) (hms' : ms ≠ [])
    (h : (q :: sep).intercalate ls = (q :: sep).intercalate ms) : ls = ms := by
  induction ls generalizing ms with
  | nil => exact absurd rfl hls'
  | cons l ls ih =>
      cases ms with
      | nil => exact absurd rfl hms'
      | cons m ms =>
          obtain ⟨hl, hrest⟩ := List.forall_mem_cons.mp hls
          obtain ⟨hm, hrest'⟩ := List.forall_mem_cons.mp hms
          cases ls with
          | nil =>
              cases ms with
              | nil => simpa using h
              | cons m' ms =>
                  rw [List.intercalate_singleton, List.intercalate_cons_cons] at h
                  exact absurd (h ▸ by simp) hl
          | cons l' ls =>
              cases ms with
              | nil =>
                  rw [List.intercalate_singleton, List.intercalate_cons_cons] at h
                  exact absurd (h ▸ by simp) hm
              | cons m' ms =>
                  rw [List.intercalate_cons_cons, List.intercalate_cons_cons, List.append_assoc,
                    List.append_assoc] at h
                  obtain ⟨rfl, htail⟩ := append_cons_inj_of_notMem hl hm h
                  rw [ih hrest hrest' (by simp) (by simp) (List.append_cancel_left htail)]

/-- Quoting all words is quoting the text, with the quotes in the separators. -/
theorem intercalate_quoted {q comma : Char} {ls : List (List Char)} (hls : ls ≠ []) :
    [comma].intercalate (ls.map fun l => q :: (l ++ [q])) =
      q :: ([q, comma, q].intercalate ls ++ [q]) := by
  induction ls with
  | nil => exact absurd rfl hls
  | cons l ls ih =>
      cases ls with
      | nil => simp
      | cons m ls =>
          have hrest := ih (List.cons_ne_nil m ls)
          rw [List.map_cons] at hrest
          rw [List.map_cons, List.map_cons, List.intercalate_cons_cons, hrest,
            List.intercalate_cons_cons]
          simp

/-- Quoted words between commas determine the words, none of which holds a quote. -/
theorem eq_of_intercalate_quoted {q comma : Char} {ls ms : List (List Char)}
    (hls : ∀ l ∈ ls, q ∉ l) (hms : ∀ m ∈ ms, q ∉ m)
    (h : [comma].intercalate (ls.map fun l => q :: (l ++ [q])) =
      [comma].intercalate (ms.map fun m => q :: (m ++ [q]))) : ls = ms := by
  by_cases hls' : ls = [] <;> by_cases hms' : ms = []
  · rw [hls', hms']
  · rw [hls', intercalate_quoted hms'] at h
    cases h
  · rw [hms', intercalate_quoted hls'] at h
    cases h
  · rw [intercalate_quoted hls', intercalate_quoted hms'] at h
    exact eq_of_intercalate_eq hls hms hls' hms' (List.append_cancel_right (List.cons.inj h).2)

/-! ### The text behind a fingerprint -/

namespace Grammar

variable {g g' : Grammar}

/-- The text whose digest is the fingerprint. -/
def digested (g : Grammar) : String :=
  "\x7bRules:[" ++ ",".intercalate (g.lines.map fun l => "\"" ++ l ++ "\"") ++ "]\x7d"

theorem fingerprint_eq (digest : String → String) (g : Grammar) :
    g.fingerprint digest = "v1_" ++ digest g.digested := rfl

theorem lines_eq_of_digested_eq (h : g.digested = g'.digested) : g.lines = g'.lines := by
  have hchars : ∀ g : Grammar, g.digested.toList = "\x7bRules:[".toList ++
      [','].intercalate ((g.lines.map String.toList).map fun l =>
        Text.doubleQuote :: (l ++ [Text.doubleQuote])) ++ "]\x7d".toList := by
    intro g
    rw [digested, String.toList_append, String.toList_append, String.toList_intercalate,
      List.map_map, List.map_map]
    congr 3
    refine List.map_congr_left fun l _ => ?_
    rw [Function.comp_apply, String.toList_append, String.toList_append]
    rfl
  have hquote : ∀ g : Grammar, ∀ l ∈ g.lines.map String.toList, Text.doubleQuote ∉ l := by
    intro g l hl hmem
    obtain ⟨line, hline, rfl⟩ := List.mem_map.mp hl
    exact (printed_of_mem_lines hline hmem).ne.2 rfl
  have hlists := congrArg String.toList h
  rw [hchars, hchars, List.append_left_inj, List.append_right_inj] at hlists
  exact (List.map_injective_iff.mpr fun _ _ => String.toList_inj.mp)
    (eq_of_intercalate_quoted (hquote g) (hquote g') hlists)

end Grammar

/-- Grammars that were read under one name and have one text digested are the same. -/
theorem RuleText.eq_of_digested_eq {name : List UInt8} {texts texts' : List (List UInt8)}
    {g g' : Grammar} (h : parse name texts = .ok g) (h' : parse name texts' = .ok g')
    (hdigested : g.digested = g'.digested) : g = g' := by
  have hread := parse_lines_of_parse h
  rw [Grammar.lines_eq_of_digested_eq hdigested, parse_lines_of_parse h'] at hread
  exact (Except.ok.inj hread).symm

theorem mem_of_lookup {α β : Type} [BEq α] [LawfulBEq α] {a : α} {b : β} {l : List (α × β)}
    (h : l.lookup a = some b) : (a, b) ∈ l := by
  obtain ⟨l₁, l₂, rfl, -⟩ := List.lookup_eq_some_iff.mp h
  simp

namespace Session

variable {digest : String → String} {screen : Screen} {settings : List Setting}
  {inputs : List (List UInt8)} {line : List UInt8}

/-! ### What the digest is given -/

/-- The text that is digested for a line behind some inputs. -/
def digestedFor? (inputs : List (List UInt8)) (line : List UInt8) : Option String :=
  if command? line = some .run then
    (RuleText.parse RuleText.defaultName (kept inputs)).toOption.map Grammar.digested
  else none

/-- The texts that are digested for inputs behind others. -/
def digestedFrom (before : List (List UInt8)) : List (List UInt8) → List String
  | [] => []
  | line :: rest => (digestedFor? before line).toList ++ digestedFrom (before ++ [line]) rest

/-- The texts that are digested along some inputs. -/
def digestedAlong (inputs : List (List UInt8)) : List String := digestedFrom [] inputs

theorem digestedFrom_append (before inputs more : List (List UInt8)) :
    digestedFrom before (inputs ++ more) =
      digestedFrom before inputs ++ digestedFrom (before ++ inputs) more := by
  induction inputs generalizing before with
  | nil => simp [digestedFrom]
  | cons line rest ih => simp [digestedFrom, ih]

theorem digestedAlong_concat (inputs : List (List UInt8)) (line : List UInt8) :
    digestedAlong (inputs ++ [line]) =
      digestedAlong inputs ++ (digestedFor? inputs line).toList := by
  rw [digestedAlong, digestedFrom_append]
  simp [digestedFrom, digestedAlong]

theorem mem_digestedAlong_concat {g : Grammar} (hline : command? line = some .run)
    (hg : RuleText.parse RuleText.defaultName (kept inputs) = .ok g) :
    g.digested ∈ digestedAlong (inputs ++ [line]) := by
  rw [digestedAlong_concat, digestedFor?, if_pos hline, hg]
  exact List.mem_append_right _ List.mem_cons_self

/-! ### What is at hand -/

/-- A report under the fingerprint of the grammar that it was made of, whose text was digested. -/
def Genuine (digest : String → String) (settings : List Setting) (texts : List String)
    (entry : String × Report) : Prop :=
  ∃ lines g a, RuleText.parse RuleText.defaultName lines = .ok g ∧ g.digested ∈ texts ∧
    g.analyze settings = .ok a ∧ entry = (g.fingerprint digest, .ofAnalysis digest a)

theorem Genuine.mono {texts more : List String} {entry : String × Report}
    (h : Genuine digest settings texts entry) (hsub : texts ⊆ more) :
    Genuine digest settings more entry := by
  obtain ⟨lines, g, a, hg, hmem, ha, rfl⟩ := h
  exact ⟨lines, g, a, hg, hsub hmem, ha, rfl⟩

/-- One more line keeps the reports genuine. -/
theorem genuine_eval
    (h : ∀ entry ∈ (after digest screen settings inputs).reports,
      Genuine digest settings (digestedAlong inputs) entry) (line : List UInt8) :
    ∀ entry ∈ ((after digest screen settings inputs).eval digest screen line).1.reports,
      Genuine digest settings (digestedAlong (inputs ++ [line])) entry := by
  have hold : ∀ entry ∈ (after digest screen settings inputs).reports,
      Genuine digest settings (digestedAlong (inputs ++ [line])) entry := by
    intro entry hentry
    rw [digestedAlong_concat]
    exact (h entry hentry).mono (List.subset_append_left _ _)
  generalize heval : (after digest screen settings inputs).eval digest screen line = next
  cases heval ▸ moves_eval digest screen (after digest screen settings inputs) line with
  | cleared | kept | idle => exact hold
  | @reported g a hline hg ha =>
      rw [grammar_after] at hg
      rw [settings_after] at ha
      intro entry hentry
      rcases List.mem_append.mp hentry with hentry | hentry
      · exact hold entry hentry
      · exact ⟨kept inputs, g, a, hg, mem_digestedAlong_concat hline hg, ha,
          List.mem_singleton.mp hentry⟩

/-- All reports at hand are genuine. -/
theorem faithful_after (digest : String → String) (screen : Screen) (settings : List Setting)
    (inputs : List (List UInt8)) :
    ∀ entry ∈ (after digest screen settings inputs).reports,
      Genuine digest settings (digestedAlong inputs) entry := by
  induction inputs using List.reverseRecOn with
  | nil => simp [after, new]
  | append_singleton inputs line ih =>
      rw [after_concat]
      exact genuine_eval ih line

/-- **Keeping reports does not show.**  Whatever the screen, settings and inputs, a run fails or
prints as it does if the kept lines are read and analysed afresh.  The digest need only tell the
texts apart that the runs so far, this one included, have it digest. -/
theorem run_eq_afresh (digest : String → String) (screen : Screen) (settings : List Setting)
    (inputs : List (List UInt8)) (line : List UInt8) (hline : command? line = some .run)
    (hdigest : ∀ t ∈ digestedAlong (inputs ++ [line]), ∀ t' ∈ digestedAlong (inputs ++ [line]),
      digest t = digest t' → t = t') :
    ((after digest screen settings inputs).eval digest screen line).2 =
      runAfresh digest screen settings (kept inputs) := by
  have hrun := outcome_run digest screen (after digest screen settings inputs)
  rw [settings_after, lines_after] at hrun
  rw [eval_of_command hline]
  rcases hrun with hrun | ⟨g, rep, hg, hlookup, hrun⟩
  · exact hrun
  · rw [grammar_after] at hg
    obtain ⟨lines, g', a, hg', hmem, ha, hentry⟩ :=
      faithful_after digest screen settings inputs _ (mem_of_lookup hlookup)
    obtain ⟨hkey, rfl⟩ := Prod.mk.inj hentry
    have hsame : g.digested = g'.digested := by
      refine hdigest _ (mem_digestedAlong_concat hline hg) _ ?_ ?_
      · rw [digestedAlong_concat]
        exact List.mem_append_left _ hmem
      · rw [Grammar.fingerprint_eq, Grammar.fingerprint_eq] at hkey
        exact (String.append_right_inj _).mp hkey
    obtain rfl := RuleText.eq_of_digested_eq hg hg' hsame
    show (run digest screen _).2 = _
    rw [hrun, runAfresh, hg]
    simp [Except.bind, ha]

/-- A grammar is written again in other words, with a comment on a byte that is part of no
character, and its report is at hand: the last run adds none. -/
theorem run_again_eq_afresh :
    let commented := Text.bytes "S->a B\x7b" ++ [0xFF] ++ Text.bytes "\x7d"
    let inputs := [Text.bytes "S -> aB\nB -> b", Text.bytes ":run", Text.bytes "B ->",
      Text.bytes ":run", Text.bytes ":reset", commented, Text.bytes "B → b"]
    let s := after Digest.hex Terminal.screen [] inputs
    let next := s.eval Digest.hex Terminal.screen (Text.bytes ":run")
    (s.reports.length = 2 ∧ next.1.reports.length = 2) ∧
      next.2 = runAfresh Digest.hex Terminal.screen [] [commented, Text.bytes "B → b"] := by
  intro commented inputs s next
  refine ⟨by decide +kernel, ?_⟩
  have hkept : kept inputs = [commented, Text.bytes "B → b"] := by decide +kernel
  rw [← hkept]
  exact run_eq_afresh Digest.hex Terminal.screen [] inputs (Text.bytes ":run")
    (by decide +kernel) (by decide +kernel)

end Session

end Lookahead
