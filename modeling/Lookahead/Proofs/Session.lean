import Mathlib.Data.List.DropRight
import Lookahead.Digest
import Lookahead.Session.Basic
import Lookahead.Terminal
import Lookahead.Proofs.Analysis
import Lookahead.Proofs.RuleText
import Lookahead.Proofs.Violations

/-!
# Sessions line by line

A session takes any runs of bytes as lines, and whatever the screen makes of its output, the same is
remembered.  `Moves` says once what a line can do: it clears the grammar, it is kept, it adds a
report, or it changes nothing.  What a session holds after some inputs follows from there.
Its settings are those it began with (`settings_after`), and its lines are the ones accepted since
the grammar was last cleared (`lines_after`).

Lines are accepted one at a time and read together.  This is safe because reading is a matter of the
lines alone: texts that are legal each on its own are legal together
(`RuleText.exists_parse_of_forall`).

**A session never gets stuck** (`never_stuck`).  No command on the grammar fails for a line that was
kept, and it finds nothing defined exactly if nothing was accepted since the grammar was cleared.
-/

namespace Lookahead

/-! ### Texts that are legal each on its own -/

namespace RuleText

variable {name : List UInt8} {texts : List (List UInt8)}

theorem exists_parse_of_forall (hne : texts ≠ [])
    (h : ∀ text ∈ texts, ∃ g, parse name [text] = .ok g) : ∃ g, parse name texts = .ok g := by
  have hown : ∀ text ∈ texts, (∀ line ∈ Text.lines text, Legal line) ∧
      ∃ line ∈ Text.lines text, ¬ Blank line := by
    intro text htext
    simpa using exists_parse_iff.mp (h text htext)
  refine exists_parse_iff.mpr ⟨?_, ?_⟩
  · intro line hline
    obtain ⟨text, htext, hline⟩ := List.mem_flatMap.mp hline
    exact (hown text htext).1 line hline
  · obtain ⟨text, htext⟩ := List.exists_mem_of_ne_nil texts hne
    obtain ⟨line, hline, hblank⟩ := (hown text htext).2
    exact ⟨line, List.mem_flatMap.mpr ⟨text, htext, hline⟩, hblank⟩

theorem parse_nil (name : List UInt8) : parse name [] = .error (.draft .empty) :=
  parse_of_blank (by simp)

end RuleText

/-! ### What the stages can find wrong -/

namespace Grammar

variable {g : Grammar} {e : Error}

theorem violation_of_check (h : g.check = .error e) : ∃ v, e = .violation v := by
  rcases check_eq_error h with ⟨A, r, -, rfl, -⟩ | ⟨A, o, r, X, rfl, -⟩
  · exact ⟨_, rfl⟩
  · exact ⟨_, rfl⟩

theorem kind_of_analyze_error {settings : List Setting} (hg : g.isEmpty = false)
    (h : g.analyze settings = .error e) : (∃ l, e = .letter l) ∨ ∃ v, e = .violation v := by
  rw [analyze_eq, hg] at h
  cases hc : Config.ofSettings settings with
  | error l =>
      rw [hc] at h
      exact .inl ⟨l, (Except.error.inj h).symm⟩
  | ok c =>
      rw [hc] at h
      cases hskip : c.skipCheck with
      | true => simp [hskip] at h
      | false =>
          cases hcheck : g.check with
          | ok _ => simp [hskip, hcheck] at h
          | error e' =>
              obtain rfl : e' = e := by simpa [hskip, hcheck] using h
              exact .inr (violation_of_check hcheck)

end Grammar

namespace Session

variable {digest : String → String} {screen : Screen} {s : Session} {line : List UInt8}

/-! ### One line -/

/-- The command that a line gives; rule text gives none. -/
def command? (line : List UInt8) : Option Command :=
  if line.head? = some colon then some (.ofWord (Text.firstWord line)) else none

/-- A line of rule text that can be read on its own. -/
def accepts (line : List UInt8) : Bool :=
  (command? line).isNone && (RuleText.parse RuleText.defaultName [line]).isOk

theorem accepts_iff :
    accepts line = true ↔
      command? line = none ∧ ∃ g, RuleText.parse RuleText.defaultName [line] = .ok g := by
  rw [accepts, Bool.and_eq_true, Option.isNone_iff_eq_none]
  cases RuleText.parse RuleText.defaultName [line] <;> simp [Except.isOk, Except.toBool]

theorem eval_of_command {c : Command} (h : command? line = some c) :
    s.eval digest screen line = s.execute digest screen c := by
  unfold command? at h
  split at h
  · rename_i hcolon
    obtain rfl := Option.some.inj h
    rw [eval, if_pos hcolon]
  · cases h

theorem eval_of_rule (h : command? line = none) :
    s.eval digest screen line = s.addRule screen line := by
  unfold command? at h
  split at h
  · cases h
  · rename_i hcolon
    rw [eval, if_neg hcolon]

/-- What a run comes to, case by case. -/
theorem run_eq (digest : String → String) (screen : Screen) (s : Session) :
    s.run digest screen =
      match s.grammar with
      | .error e => (s, .failed screen e)
      | .ok g =>
        match s.reports.lookup (g.fingerprint digest) with
        | some rep => (s, .done (screen.report rep))
        | none =>
          match g.analyze s.settings with
          | .error e => (s, .failed screen e)
          | .ok a =>
            ({ s with reports := s.reports ++ [(g.fingerprint digest, .ofAnalysis digest a)] },
              .done (screen.report (.ofAnalysis digest a))) := by
  rw [run]
  cases s.grammar with
  | error e => rfl
  | ok g =>
      simp only [Except.bind, report]
      cases s.reports.lookup (g.fingerprint digest) with
      | some rep => rfl
      | none => cases g.analyze s.settings <;> rfl

/-- What one line can do to a session. -/
inductive Moves (digest : String → String) (s : Session) (line : List UInt8) :
    Session × Outcome → Prop where
  | cleared (h : command? line = some .reset) (printed : List UInt8) :
      Moves digest s line ({ s with lines := [] }, .done printed)
  | kept (h : accepts line = true) (printed : List UInt8) :
      Moves digest s line ({ s with lines := s.lines ++ [line] }, .done printed)
  | reported {g : Grammar} {a : Analysis} (h : command? line = some .run)
      (hg : s.grammar = .ok g) (ha : g.analyze s.settings = .ok a) (printed : List UInt8) :
      Moves digest s line
        ({ s with reports := s.reports ++ [(g.fingerprint digest, .ofAnalysis digest a)] },
          .done printed)
  | idle (hreset : command? line ≠ some .reset) (h : accepts line = false) (o : Outcome) :
      Moves digest s line (s, o)

theorem moves_run (h : command? line = some .run) :
    Moves digest s line (s.run digest screen) := by
  have hidle : ∀ o, Moves digest s line (s, o) := .idle (by simp [h]) (by simp [accepts, h])
  rw [run_eq]
  cases hg : s.grammar with
  | error e => exact hidle _
  | ok g =>
      dsimp only
      cases s.reports.lookup (g.fingerprint digest) with
      | some rep => exact hidle _
      | none =>
          cases ha : g.analyze s.settings with
          | error e => exact hidle _
          | ok a => exact .reported h hg ha _

theorem moves_eval (digest : String → String) (screen : Screen) (s : Session)
    (line : List UInt8) :
    Moves digest s line (s.eval digest screen line) := by
  cases hcommand : command? line with
  | none =>
      rw [eval_of_rule hcommand]
      delta addRule
      cases hparse : RuleText.parse RuleText.defaultName [line] with
      | error e =>
          refine .idle (by simp [hcommand]) (Bool.eq_false_iff.mpr fun haccepts => ?_) _
          obtain ⟨-, g, hg⟩ := accepts_iff.mp haccepts
          cases hg.symm.trans hparse
      | ok g => exact .kept (accepts_iff.mpr ⟨hcommand, g, hparse⟩) _
  | some c =>
      rw [eval_of_command hcommand]
      cases c with
      | run => exact moves_run hcommand
      | reset => exact .cleared hcommand _
      | _ => exact .idle (by simp [hcommand]) (by simp [accepts, hcommand]) _

theorem lines_eval (digest : String → String) (screen : Screen) (s : Session)
    (line : List UInt8) :
    (s.eval digest screen line).1.lines =
      if command? line = some .reset then []
      else if accepts line then s.lines ++ [line] else s.lines := by
  generalize heval : s.eval digest screen line = next
  cases heval ▸ moves_eval digest screen s line with
  | cleared h => rw [if_pos h]
  | kept h => rw [if_neg (by simp [(accepts_iff.mp h).1]), if_pos h]
  | reported h => rw [if_neg (by simp [h]), if_neg (by simp [accepts, h])]
  | idle hreset h => rw [if_neg hreset, if_neg (by simp [h])]

theorem settings_eval (digest : String → String) (screen : Screen) (s : Session)
    (line : List UInt8) :
    (s.eval digest screen line).1.settings = s.settings := by
  generalize heval : s.eval digest screen line = next
  cases heval ▸ moves_eval digest screen s line <;> rfl

/-- A line that fails leaves the lines as they were. -/
theorem lines_eval_of_error {e : Error} (h : (s.eval digest screen line).2.error? = some e) :
    (s.eval digest screen line).1.lines = s.lines := by
  generalize heval : s.eval digest screen line = next at h
  cases heval ▸ moves_eval digest screen s line with
  | cleared | kept => cases h
  | reported | idle => rfl

/-! ### Many lines -/

/-- The session after some inputs. -/
def after (digest : String → String) (screen : Screen) (settings : List Setting)
    (inputs : List (List UInt8)) : Session :=
  inputs.foldl (fun s line => (s.eval digest screen line).1) (new settings)

/-- The inputs that were accepted as rule text since the grammar was last cleared. -/
def kept (inputs : List (List UInt8)) : List (List UInt8) :=
  (inputs.rtakeWhile fun line => command? line ≠ some .reset).filter accepts

variable {settings : List Setting} {inputs : List (List UInt8)}

theorem after_concat (digest : String → String) (screen : Screen) (settings : List Setting)
    (inputs : List (List UInt8)) (line : List UInt8) :
    after digest screen settings (inputs ++ [line]) =
      ((after digest screen settings inputs).eval digest screen line).1 := by
  rw [after, after, List.foldl_append]
  rfl

theorem kept_concat (inputs : List (List UInt8)) (line : List UInt8) :
    kept (inputs ++ [line]) =
      if command? line = some .reset then []
      else if accepts line then kept inputs ++ [line] else kept inputs := by
  by_cases hreset : command? line = some .reset
  · rw [kept, List.rtakeWhile_concat_neg _ _ _ (by simp [hreset]), if_pos hreset]
    rfl
  · rw [kept, List.rtakeWhile_concat_pos _ _ _ (by simp [hreset]), if_neg hreset,
      List.filter_append]
    by_cases haccepts : accepts line
    · rw [if_pos haccepts, List.filter_cons_of_pos haccepts]
      rfl
    · rw [if_neg haccepts, List.filter_cons_of_neg haccepts, List.filter_nil, List.append_nil]
      rfl

/-- A session holds what it accepted since the grammar was last cleared. -/
theorem lines_after (digest : String → String) (screen : Screen) (settings : List Setting)
    (inputs : List (List UInt8)) : (after digest screen settings inputs).lines = kept inputs := by
  induction inputs using List.reverseRecOn with
  | nil => rfl
  | append_singleton inputs line ih => rw [after_concat, lines_eval, kept_concat, ih]

theorem settings_after (digest : String → String) (screen : Screen) (settings : List Setting)
    (inputs : List (List UInt8)) : (after digest screen settings inputs).settings = settings := by
  induction inputs using List.reverseRecOn with
  | nil => rfl
  | append_singleton inputs line ih => rw [after_concat, settings_eval, ih]

theorem exists_parse_of_mem_kept (h : line ∈ kept inputs) :
    ∃ g, RuleText.parse RuleText.defaultName [line] = .ok g :=
  (accepts_iff.mp (List.mem_filter.mp h).2).2

/-- What was kept can be read, unless there is nothing. -/
theorem parse_kept (inputs : List (List UInt8)) :
    (kept inputs = [] ∧
        RuleText.parse RuleText.defaultName (kept inputs) = .error (.draft .empty)) ∨
      kept inputs ≠ [] ∧ ∃ g, RuleText.parse RuleText.defaultName (kept inputs) = .ok g := by
  by_cases hkept : kept inputs = []
  · exact .inl ⟨hkept, hkept ▸ RuleText.parse_nil _⟩
  · exact .inr ⟨hkept, RuleText.exists_parse_of_forall hkept fun _ => exists_parse_of_mem_kept⟩

theorem grammar_after (digest : String → String) (screen : Screen) (settings : List Setting)
    (inputs : List (List UInt8)) :
    (after digest screen settings inputs).grammar =
      RuleText.parse RuleText.defaultName (kept inputs) := by
  rw [grammar, lines_after]

/-! ### Commands on the grammar -/

/-- A command that reads the grammar. -/
def Reads (c : Command) : Prop := c = .run ∨ c = .check ∨ c = .list

/-- What listing the rules comes to, by the grammar that was read. -/
def listed (screen : Screen) : Except Error Grammar → Outcome
  | .error e => .failed screen e
  | .ok g => .done (g.rules.flatMap screen.rule)

/-- What checking comes to, by the grammar that was read. -/
def checked (screen : Screen) (read : Except Error Grammar) : Outcome :=
  match read.bind Grammar.check with
  | .error e => .failed screen e
  | .ok () => .done (screen.notice (Text.bytes "grammar passes the LL(1) check"))

theorem list_eq (screen : Screen) (s : Session) : s.list screen = listed screen s.grammar := by
  cases hg : s.grammar <;> simp [list, listed, hg]

theorem check_eq (screen : Screen) (s : Session) : s.check screen = checked screen s.grammar := by
  cases hg : s.grammar.bind Grammar.check <;> simp [check, checked, hg]

/-- What a run comes to if no report is at hand. -/
def runAfresh (digest : String → String) (screen : Screen) (settings : List Setting)
    (lines : List (List UInt8)) : Outcome :=
  match (RuleText.parse RuleText.defaultName lines).bind (·.analyze settings) with
  | .error e => .failed screen e
  | .ok a => .done (screen.report (.ofAnalysis digest a))

/-- A run prints what it comes to afresh, or a report that is at hand for the grammar. -/
theorem outcome_run (digest : String → String) (screen : Screen) (s : Session) :
    (s.run digest screen).2 = runAfresh digest screen s.settings s.lines ∨
      ∃ g rep, s.grammar = .ok g ∧ s.reports.lookup (g.fingerprint digest) = some rep ∧
        (s.run digest screen).2 = .done (screen.report rep) := by
  rw [run_eq, runAfresh, ← grammar]
  cases hg : s.grammar with
  | error e => exact .inl rfl
  | ok g =>
      cases hlookup : s.reports.lookup (g.fingerprint digest) with
      | some rep => exact .inr ⟨g, rep, rfl, hlookup, by simp [hlookup]⟩
      | none =>
          left
          cases ha : g.analyze s.settings <;> simp [Except.bind, hlookup, ha]

theorem error_execute_of_grammar {c : Command} (hc : Reads c) {e : Error}
    (hg : s.grammar = .error e) : (s.execute digest screen c).2.error? = some e := by
  rcases hc with rfl | rfl | rfl
  · rw [execute, run_eq, hg]
    rfl
  · rw [execute, check, hg]
    rfl
  · rw [execute, list, hg]
    rfl

/-- What a command on a grammar can find wrong is never about its text. -/
theorem kind_of_error_execute {c : Command} (hc : Reads c) {g : Grammar} (hg : s.grammar = .ok g)
    {e : Error} (h : (s.execute digest screen c).2.error? = some e) :
    (∃ l, e = .letter l) ∨ ∃ v, e = .violation v := by
  rcases hc with rfl | rfl | rfl
  · rw [execute, run_eq, hg] at h
    dsimp only at h
    split at h
    · cases h
    · split at h
      · rename_i e' ha
        obtain rfl := Option.some.inj h
        exact Grammar.kind_of_analyze_error (RuleText.isEmpty_of_parse hg) ha
      · cases h
  · rw [execute, check, hg] at h
    split at h
    · rename_i e' hcheck
      obtain rfl := Option.some.inj h
      exact .inr (Grammar.violation_of_check hcheck)
    · cases h
  · rw [execute, list, hg] at h
    cases h

/-- **A session never gets stuck.**  After any inputs:
* the session holds the inputs accepted since the grammar was last cleared, and each of them can be
  read on its own;
* a line that fails leaves the lines as they were;
* a command on the grammar never fails for what a kept line says, and it finds nothing defined
  exactly if nothing is kept;
* the grammar it is about is the one that the kept lines write. -/
theorem never_stuck (digest : String → String) (screen : Screen) (settings : List Setting)
    (inputs : List (List UInt8)) :
    let s := after digest screen settings inputs
    let read := RuleText.parse RuleText.defaultName (kept inputs)
    s.lines = kept inputs ∧
    (∀ line ∈ s.lines, ∃ g, RuleText.parse RuleText.defaultName [line] = .ok g) ∧
    (∀ line e, (s.eval digest screen line).2.error? = some e →
      (s.eval digest screen line).1.lines = s.lines) ∧
    (∀ line c, command? line = some c → Reads c →
      (∀ fault, (s.eval digest screen line).2.error? ≠ some (.rule fault)) ∧
      (∀ fault, (s.eval digest screen line).2.error? = some (.draft fault) → fault = .empty) ∧
      ((s.eval digest screen line).2.error? = some (.draft .empty) ↔ kept inputs = [])) ∧
    (∀ line, command? line = some .list → (s.eval digest screen line).2 = listed screen read) ∧
    (∀ line, command? line = some .check → (s.eval digest screen line).2 = checked screen read) ∧
    ∀ line, command? line = some .run →
      (s.eval digest screen line).2 = runAfresh digest screen settings (kept inputs) ∨
        ∃ g rep, read = .ok g ∧ s.reports.lookup (g.fingerprint digest) = some rep ∧
          (s.eval digest screen line).2 = .done (screen.report rep) := by
  intro s read
  have hlines : s.lines = kept inputs := lines_after digest screen settings inputs
  have hgrammar : s.grammar = read := grammar_after digest screen settings inputs
  refine ⟨hlines, ?_, fun line e => lines_eval_of_error, ?_, ?_, ?_, ?_⟩
  · rw [hlines]
    exact fun line => exists_parse_of_mem_kept
  · intro line c hline hc
    rw [eval_of_command hline]
    rcases parse_kept inputs with ⟨hkept, hread⟩ | ⟨hkept, g, hread⟩
    · have herror : (s.execute digest screen c).2.error? = some (.draft .empty) :=
        error_execute_of_grammar hc (hgrammar.trans hread)
      simp [herror, hkept]
    · have hkind : ∀ e, (s.execute digest screen c).2.error? = some e →
          (∃ l, e = .letter l) ∨ ∃ v, e = .violation v := fun e =>
        kind_of_error_execute hc (hgrammar.trans hread)
      refine ⟨fun fault h => ?_, fun fault h => ?_, fun h => ?_, fun h => absurd h hkept⟩
      all_goals simpa using hkind _ h
  · intro line hline
    rw [eval_of_command hline, execute, list_eq, hgrammar]
  · intro line hline
    rw [eval_of_command hline, execute, check_eq, hgrammar]
  · intro line hline
    rw [eval_of_command hline, execute, ← hgrammar, ← hlines,
      ← settings_after digest screen settings inputs]
    exact outcome_run digest screen s

/-- The grammar is cleared, and two rules in one input are kept with their comment, which holds a
byte that is part of no character.  Such a byte is refused where a letter is expected. -/
theorem kept_despite_refusal :
    let rules := Text.bytes "S -> aB \x7b" ++ [0xFF] ++ Text.bytes "\x7d\n\nB ->"
    let inputs := [Text.bytes "S -> a", Text.bytes ":reset now", rules,
      Text.bytes "S -> " ++ [0xFF], Text.bytes "B -> b | ϵ"]
    kept inputs = [rules, Text.bytes "B -> b | ϵ"] ∧
      ((after Digest.hex Terminal.screen [] inputs).eval Digest.hex Terminal.screen
        (Text.bytes ":check")).2.error? ≠ some (.draft .empty) := by
  intro rules inputs
  have hkept : kept inputs = [rules, Text.bytes "B -> b | ϵ"] := by decide +kernel
  refine ⟨hkept, fun herror => ?_⟩
  obtain ⟨-, -, -, hreads, -⟩ := never_stuck Digest.hex Terminal.screen [] inputs
  have hcheck := hreads (Text.bytes ":check") .check (by decide +kernel) (.inr (.inl rfl))
  exact List.cons_ne_nil _ _ (hkept.symm.trans (hcheck.2.2.mp herror))

end Session

end Lookahead
