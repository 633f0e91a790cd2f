import Lookahead.Analysis
import Lookahead.Proofs.First

/-!
# When there is an analysis

A grammar that comes of a draft defines something, so its analysis can only fail on a bad start
letter or on the LL(1) check.  Whatever the settings, an analysis that comes out is the one that
runs all stages under the configuration they give (`eq_ofConfig_of_analyze`), and if the check is
left out or passes it does come out (`analyze_of_skipCheck`, `analyze_of_check_ok`).
-/

namespace Lookahead

/-- A grammar that comes of a draft defines something. -/
theorem Draft.isEmpty_of_grammar {d : Draft} {g : Grammar} (h : d.grammar = .ok g) :
    g.isEmpty = false := by
  unfold Draft.grammar at h
  split at h
  · cases h
  · split at h
    · cases h
    · rename_i hne
      obtain rfl := Except.ok.inj h
      simpa [Grammar.isEmpty] using hne

namespace Grammar

variable {g : Grammar} {settings : List Setting}

/-- The analysis, case by case. -/
theorem analyze_eq (g : Grammar) (settings : List Setting) :
    g.analyze settings =
      if g.isEmpty then .error (.draft .empty)
      else match Config.ofSettings settings with
        | .error e => .error (.letter e)
        | .ok c =>
          if c.skipCheck then .ok (Analysis.ofConfig g c)
          else match g.check with
            | .error e => .error e
            | .ok _ => .ok (Analysis.ofConfig g c) := by
  unfold analyze
  cases g.isEmpty with
  | true => rfl
  | false =>
      cases Config.ofSettings settings with
      | error e => rfl
      | ok c =>
          cases hskip : c.skipCheck with
          | true => simp [hskip, Except.mapError, bind, Except.bind, pure, Except.pure]
          | false =>
              cases g.check <;>
                simp [hskip, Except.mapError, bind, Except.bind, pure, Except.pure]

/-- Without the check all stages are run. -/
theorem analyze_of_skipCheck {c : Config} (hg : g.isEmpty = false)
    (hc : Config.ofSettings settings = .ok c) (hskip : c.skipCheck = true) :
    g.analyze settings = .ok (Analysis.ofConfig g c) := by
  rw [analyze_eq, hg, hc]
  simp [hskip]

/-- If the check passes, all stages are run whether or not it is left out. -/
theorem analyze_of_check_ok {c : Config} (hg : g.isEmpty = false)
    (hc : Config.ofSettings settings = .ok c) (hcheck : g.check = .ok ()) :
    g.analyze settings = .ok (Analysis.ofConfig g c) := by
  rw [analyze_eq, hg, hc, hcheck]
  cases hskip : c.skipCheck <;> simp [hskip]

/-- An analysis that comes out is the one under the configuration of the settings. -/
theorem eq_ofConfig_of_analyze {c : Config} {a : Analysis}
    (hc : Config.ofSettings settings = .ok c) (ha : g.analyze settings = .ok a) :
    a = Analysis.ofConfig g c := by
  rw [analyze_eq, hc] at ha
  cases hempty : g.isEmpty with
  | true => simp [hempty] at ha
  | false =>
      cases hskip : c.skipCheck with
      | true => simpa [hempty, hskip, eq_comm] using ha
      | false =>
          cases hcheck : g.check with
          | error e => simp [hempty, hskip, hcheck] at ha
          | ok _ => simpa [hempty, hskip, hcheck, eq_comm] using ha

end Grammar

end Lookahead
