import Lookahead.Proofs.Building
import Lookahead.Proofs.ReportCache

/-!
# What a fingerprint tells

Grammars of one fingerprint have the same text digested, so long as the digest tells their texts
apart, and the digested text determines the lines.  A line determines the nonterminal in front of
the arrow.  Behind the arrow stand words without blanks, and bars between blanks in between, so the
words can be read off as well (`eq_of_intercalate_eq`), and different symbols are different letters.

There is one exception.  Nothing is printed behind the arrow of a definition without alternatives,
and nothing either where the one alternative is the production without symbols
(`Definition.shown`).  A line says what its definition shows, and no more
(`Definition.text_eq_text_iff`).

**Fingerprints and rules** (`Grammar.rules_of_fingerprint_eq`).  Grammars of one fingerprint have
the same nonterminals and show the same.  They have the same rules exactly if the same nonterminals
are without rules in both.
-/

namespace Lookahead

/-! ### What a line shows -/

theorem Symbol.char_ne_blank (X : Symbol) : X.char ≠ ' ' := by
  intro h
  have hX : X = .absent := by rw [← Symbol.ofChar_char X, h]; rfl
  subst hX
  exact absurd h (by decide)

namespace Production

theorem toList_text (p : Production) : p.text.toList = p.map Symbol.char := by
  rw [text, String.toList_ofList]

theorem toList_text_injective : Function.Injective fun p : Production => p.text.toList := by
  intro p q (h : p.text.toList = q.text.toList)
  rw [toList_text, toList_text] at h
  exact List.map_injective_iff.mpr (fun _ _ => Symbol.char_injective) h

theorem blank_notMem_text (p : Production) : ' ' ∉ p.text.toList := by
  rw [toList_text, List.mem_map]
  rintro ⟨X, -, hX⟩
  exact X.char_ne_blank hX

end Production

namespace Definition

variable {d e : Definition}

/-- The alternatives that a line shows.  Without any it shows as much as with the production
without symbols. -/
def shown (d : Definition) : List Production :=
  if d.alternatives = [] then [[]] else d.alternatives

theorem shown_ne_nil (d : Definition) : d.shown ≠ [] := by
  rw [shown]
  split
  · simp
  · assumption

theorem toList_text (hd : d.lhs.isNonterminal) :
    d.text.toList = d.lhs.char :: (" -> ".toList ++
      " | ".toList.intercalate (d.shown.map fun p => p.text.toList)) := by
  have halternatives : (" | ".intercalate (d.alternatives.map Production.text)).toList =
      " | ".toList.intercalate (d.shown.map fun p => p.text.toList) := by
    rw [String.toList_intercalate, List.map_map, shown]
    split
    · rename_i hnone
      rw [hnone]
      rfl
    · rfl
  rw [text, String.toList_append, String.toList_append, halternatives,
    Symbol.text_of_isNonterminal hd]
  simp

theorem blank_notMem_shown (d : Definition) :
    ∀ word ∈ d.shown.map fun p => p.text.toList, ' ' ∉ word := by
  intro word hword
  obtain ⟨p, -, rfl⟩ := List.mem_map.mp hword
  exact p.blank_notMem_text

/-- A line says whose alternatives it shows and which. -/
theorem text_eq_text_iff (hd : d.lhs.isNonterminal) (he : e.lhs.isNonterminal) :
    d.text = e.text ↔ d.lhs = e.lhs ∧ d.shown = e.shown := by
  rw [← String.toList_inj, toList_text hd, toList_text he]
  refine ⟨fun h => ?_, ?_⟩
  · obtain ⟨hchar, hbehind⟩ := List.cons.inj h
    have hwords := eq_of_intercalate_eq d.blank_notMem_shown e.blank_notMem_shown
      (List.map_eq_nil_iff.not.mpr d.shown_ne_nil) (List.map_eq_nil_iff.not.mpr e.shown_ne_nil)
      (List.append_cancel_left hbehind)
    exact ⟨Symbol.char_injective hchar,
      List.map_injective_iff.mpr Production.toList_text_injective hwords⟩
  · rintro ⟨hlhs, hshown⟩
    rw [hlhs, hshown]

end Definition

/-! ### What the lines show -/

/-- Two lists have the same image under one function as soon as they have it under another, if the
functions tell the same members apart. -/
theorem map_eq_map_iff_of_forall {α β γ : Type} {f : α → β} {k : α → γ} {ls ms : List α}
    (h : ∀ a ∈ ls, ∀ b ∈ ms, f a = f b ↔ k a = k b) :
    ls.map f = ms.map f ↔ ls.map k = ms.map k := by
  induction ls generalizing ms with
  | nil => simp [eq_comm]
  | cons a ls ih =>
      cases ms with
      | nil => simp
      | cons b ms =>
          have hhead := h a List.mem_cons_self b List.mem_cons_self
          have htail := ih fun a ha b hb =>
            h a (List.mem_cons_of_mem _ ha) b (List.mem_cons_of_mem _ hb)
          simp only [List.map_cons, List.cons.injEq, hhead, htail]

namespace Grammar

variable {g g' : Grammar}

/-- The productions of a nonterminal as its line shows them. -/
def shown (g : Grammar) (A : Symbol) : List Production := (Definition.mk A (g.productions A)).shown

theorem lines_eq_iff :
    g.lines = g'.lines ↔
      g.nonterminals = g'.nonterminals ∧ ∀ A ∈ g.nonterminals, g.shown A = g'.shown A := by
  have hown : ∀ g : Grammar, (g.definitions.map fun d => (d.lhs, d.shown)) =
      g.nonterminals.map fun A => (A, g.shown A) := by
    intro g
    rw [nonterminals, List.map_map]
    exact List.map_congr_left fun d hd => by rw [Function.comp_apply, shown, productions_lhs hd]
  have hlines : g.lines = g'.lines ↔
      (g.nonterminals.map fun A => (A, g.shown A)) =
        g'.nonterminals.map fun A => (A, g'.shown A) := by
    rw [← hown, ← hown]
    refine map_eq_map_iff_of_forall fun d hd e he => ?_
    rw [Definition.text_eq_text_iff (g.wellFormed.nonterminal d hd)
      (g'.wellFormed.nonterminal e he), Prod.mk.injEq]
  refine hlines.trans ⟨fun h => ?_, ?_⟩
  · have hsame : g.nonterminals = g'.nonterminals := by
      simpa [Function.comp_def] using congrArg (List.map Prod.fst) h
    rw [← hsame, List.map_inj_left] at h
    exact ⟨hsame, fun A hA => (Prod.mk.inj (h A hA)).2⟩
  · rintro ⟨hsame, hshown⟩
    rw [← hsame]
    exact List.map_congr_left fun A hA => by rw [hshown A hA]

theorem fingerprint_eq_of_lines_eq (h : g.lines = g'.lines) (digest : String → String) :
    g.fingerprint digest = g'.fingerprint digest := by
  rw [fingerprint_eq, fingerprint_eq, digested, digested, h]

theorem fingerprint_eq_iff_lines_eq {digest : String → String}
    (hdigest : digest g.digested = digest g'.digested → g.digested = g'.digested) :
    g.fingerprint digest = g'.fingerprint digest ↔ g.lines = g'.lines := by
  refine ⟨fun h => ?_, fun h => fingerprint_eq_of_lines_eq h digest⟩
  rw [fingerprint_eq, fingerprint_eq, String.append_right_inj] at h
  exact lines_eq_of_digested_eq (hdigest h)

/-- Where the same is shown, the productions are the same if they are missing on both sides or on
neither. -/
theorem productions_eq_iff_of_shown_eq {A : Symbol} (h : g.shown A = g'.shown A) :
    g.productions A = g'.productions A ↔ (g.productions A = [] ↔ g'.productions A = []) := by
  refine ⟨fun hsame => by rw [hsame], fun hnone => ?_⟩
  by_cases hA : g.productions A = []
  · rw [hA, hnone.mp hA]
  · simpa [shown, Definition.shown, hA, hnone.not.mp hA] using h

theorem rules_eq_iff (hsame : g.nonterminals = g'.nonterminals) :
    g.rules = g'.rules ↔ ∀ A ∈ g.nonterminals, g.productions A = g'.productions A := by
  refine ⟨fun h A _ => by rw [productions, productions, rulesFor, rulesFor, h], fun h => ?_⟩
  have hsides : g.sides = g'.sides := by
    rw [sides_eq, sides_eq, ← hsame]
    exact List.flatMap_congr fun A hA => by rw [h A hA]
  rw [rules, rules, hsides]

/-- **Fingerprints and rules.**  Grammars have one fingerprint exactly if they have the same
nonterminals in the same order and show the same of each.  Grammars of one fingerprint have the same
rules, number by number, exactly if the same nonterminals are without rules in both.  All the digest
has to do is to tell the texts of the two grammars apart. -/
theorem rules_of_fingerprint_eq (digest : String → String) (g g' : Grammar)
    (hdigest : digest g.digested = digest g'.digested → g.digested = g'.digested) :
    (g.fingerprint digest = g'.fingerprint digest ↔
      g.nonterminals = g'.nonterminals ∧ ∀ A ∈ g.nonterminals, g.shown A = g'.shown A) ∧
    (g.fingerprint digest = g'.fingerprint digest →
      (g.rules = g'.rules ↔
        ∀ A ∈ g.nonterminals, g.productions A = [] ↔ g'.productions A = [])) := by
  have hfingerprint := (fingerprint_eq_iff_lines_eq hdigest).trans lines_eq_iff
  refine ⟨hfingerprint, fun h => ?_⟩
  obtain ⟨hsame, hshown⟩ := hfingerprint.mp h
  rw [rules_eq_iff hsame]
  exact forall₂_congr fun A hA => productions_eq_iff_of_shown_eq (hshown A hA)

/-- Rules that are defined in turn and rules that are defined together come to one fingerprint. -/
theorem rules_of_fingerprint_eq_regrouped :
    let S := Symbol.ofChar 'S'
    let A := Symbol.ofChar 'A'
    let inTurn := (Draft.empty (Text.bytes "G")).defineAll
      [(S, [Symbol.word "Ab"]), (A, [Symbol.word "a"]), (S, [[]]), (A, [Production.epsilon])]
    let together := (Draft.empty (Text.bytes "H")).defineAll
      [(S, [Symbol.word "Ab", []]), (A, [Symbol.word "a", Production.epsilon])]
    ∃ g g', inTurn.grammar = .ok g ∧ together.grammar = .ok g' ∧
      g.fingerprint Digest.hex = g'.fingerprint Digest.hex ∧ g.rules = g'.rules := by
  intro S A inTurn together
  refine ⟨_, _, rfl, rfl, ?_⟩
  obtain ⟨hfingerprint, hrules⟩ := rules_of_fingerprint_eq Digest.hex
    ⟨Text.bytes "G", inTurn.definitions, inTurn.wellFormed⟩
    ⟨Text.bytes "H", together.definitions, together.wellFormed⟩
    fun _ => by decide +kernel
  have hsame := hfingerprint.mpr ⟨by decide +kernel, by decide +kernel⟩
  exact ⟨hsame, (hrules hsame).mpr (by decide +kernel)⟩

/-- A nonterminal without alternatives has no rule, and one with the empty production has one, but
both come to one line, which no digest can tell apart. -/
theorem bare_fingerprint_eq_blank :
    let A := Symbol.ofChar 'A'
    let bare := (Draft.empty (Text.bytes "G")).defineAll [(A, [])]
    let blank := (Draft.empty (Text.bytes "G")).defineAll [(A, [[]])]
    ∃ g g', bare.grammar = .ok g ∧ blank.grammar = .ok g' ∧
      (∀ digest, g.fingerprint digest = g'.fingerprint digest) ∧
      g.rules = [] ∧ g'.rules = [⟨1, A, []⟩] := by
  intro A bare blank
  exact ⟨_, _, rfl, rfl, fingerprint_eq_of_lines_eq (by decide +kernel), rfl, rfl⟩

end Grammar

end Lookahead
