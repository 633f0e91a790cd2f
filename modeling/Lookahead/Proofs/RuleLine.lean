import Lookahead.RuleText
import Lookahead.Proofs.Scan

/-!
# Lines of rule text

The language of a line, said over its tokens.  An alternative is a run of letters or a run of `ϵ`;
alternatives stand between bars; a rule is a nonterminal, an arrow and alternatives.  The relations
`WritesAlternative`, `WritesAlternatives` and `WritesRule` say this together with what is written.

**A line is read as it is written** (`parseLine_eq_ok_none_iff`, `parseLine_eq_ok_some_iff`).
Reading gives no rule exactly for a line without tokens, and a rule exactly if the tokens write it.
So a line that is not legal has a fault, and **the fault is within the line**
(`within_of_parseLine`).

The reader keeps letters and `ϵ` of an alternative apart and judges it when it ends.  `Holds` says
which tokens such an alternative stands for; the induction over the right side carries the tokens
read since the last bar.
-/

namespace Lookahead

/-! ### Results in sequence -/

section Results

variable {ε α β : Type} {x : Except ε α} {f : α → Except ε β}

theorem bind_eq_ok_iff {b : β} : (x >>= f) = .ok b ↔ ∃ a, x = .ok a ∧ f a = .ok b := by
  cases x <;> simp [bind, Except.bind]

theorem bind_eq_error_iff {e : ε} :
    (x >>= f) = .error e ↔ x = .error e ∨ ∃ a, x = .ok a ∧ f a = .error e := by
  cases x <;> simp [bind, Except.bind]

theorem map_eq_ok_iff {g : α → β} {b : β} : x.map g = .ok b ↔ ∃ a, x = .ok a ∧ g a = b := by
  cases x <;> simp [Except.map]

theorem map_eq_error_iff {g : α → β} {e : ε} : x.map g = .error e ↔ x = .error e := by
  cases x <;> simp [Except.map]

theorem toOption_eq_some_iff {a : α} : x.toOption = some a ↔ x = .ok a := by
  cases x <;> simp [Except.toOption]

end Results

/-- Whether a token is a letter. -/
def Token.isLetter (t : Token) : Bool := t.kind = .nonterminal || t.kind = .terminal

theorem Token.isLetter_iff {t : Token} :
    t.isLetter = true ↔ t.kind = .nonterminal ∨ t.kind = .terminal := by
  simp [isLetter]

namespace RuleText

/-! ### The language -/

/-- The production that the tokens of one alternative write. -/
inductive WritesAlternative : List Token → Production → Prop where
  | nothing : WritesAlternative [] Production.epsilon
  | letters {ts : List Token} (hne : ts ≠ []) (h : ∀ t ∈ ts, t.isLetter) :
      WritesAlternative ts (ts.map Token.symbol)
  | epsilon {ts : List Token} (hne : ts ≠ []) (h : ∀ t ∈ ts, t.kind = .epsilon) :
      WritesAlternative ts Production.epsilon

/-- The productions that alternatives between bars write. -/
inductive WritesAlternatives : List Token → List Production → Prop where
  | last {ts : List Token} {p : Production} (h : WritesAlternative ts p) :
      WritesAlternatives ts [p]
  | more {ts rest : List Token} {bar : Token} {p : Production} {ps : List Production}
      (h : WritesAlternative ts p) (hbar : bar.kind = .bar) (hrest : WritesAlternatives rest ps) :
      WritesAlternatives (ts ++ bar :: rest) (p :: ps)

/-- The rule that a nonterminal, an arrow and alternatives write. -/
inductive WritesRule : List Token → Symbol → List Production → Prop where
  | intro {lhs arrow : Token} {rest : List Token} {ps : List Production}
      (hlhs : lhs.kind = .nonterminal) (harrow : arrow.kind = .arrow)
      (h : WritesAlternatives rest ps) :
      WritesRule (lhs :: arrow :: rest) lhs.symbol ps

/-- A line without tokens. -/
def Blank (line : List UInt8) : Prop := tokens line = []

/-- A line that is blank or writes a rule. -/
def Legal (line : List UInt8) : Prop := Blank line ∨ ∃ A ps, WritesRule (tokens line) A ps

theorem WritesAlternative.kind {ts : List Token} {p : Production} (h : WritesAlternative ts p)
    {t : Token} (ht : t ∈ ts) : t.isLetter ∨ t.kind = .epsilon := by
  cases h with
  | nothing => cases ht
  | letters _ h => exact Or.inl (h t ht)
  | epsilon _ h => exact Or.inr (h t ht)

theorem WritesAlternatives.kind {ts : List Token} {ps : List Production}
    (h : WritesAlternatives ts ps) {t : Token} (ht : t ∈ ts) :
    t.isLetter ∨ t.kind = .epsilon ∨ t.kind = .bar := by
  induction h with
  | last h => exact (h.kind ht).imp_right Or.inl
  | more h hbar _ ih =>
      rcases List.mem_append.mp ht with ht | ht
      · exact (h.kind ht).imp_right Or.inl
      · rcases List.mem_cons.mp ht with rfl | ht
        · exact Or.inr (Or.inr hbar)
        · exact ih ht

theorem WritesRule.ne_illegal {ts : List Token} {A : Symbol} {ps : List Production}
    (h : WritesRule ts A ps) {t : Token} (ht : t ∈ ts) : t.kind ≠ .illegal := by
  obtain ⟨hlhs, harrow, h⟩ := h
  intro hk
  rcases List.mem_cons.mp ht with rfl | ht
  · simp [hk] at hlhs
  rcases List.mem_cons.mp ht with rfl | ht
  · simp [hk] at harrow
  · simpa [Token.isLetter, hk] using h.kind ht

/-- Tokens that stand within one alternative. -/
def WithinAlternative (ts : List Token) : Prop := ∀ t ∈ ts, t.isLetter ∨ t.kind = .epsilon

theorem WithinAlternative.ne_bar {ts : List Token} (h : WithinAlternative ts) {t : Token}
    (ht : t ∈ ts) : t.kind ≠ .bar := by
  intro hbar
  simpa [Token.isLetter, hbar] using h t ht

theorem writesAlternatives_of_within {ts : List Token} (hts : WithinAlternative ts)
    {ps : List Production} :
    WritesAlternatives ts ps ↔ ∃ p, ps = [p] ∧ WritesAlternative ts p := by
  refine ⟨fun h => ?_, ?_⟩
  · cases h with
    | last h => exact ⟨_, rfl, h⟩
    | more _ hbar _ => exact absurd hbar (hts.ne_bar (by simp))
  · rintro ⟨p, rfl, h⟩
    exact .last h

/-- The first bar ends the first alternative. -/
theorem writesAlternatives_append_bar {ts rest : List Token} (hts : WithinAlternative ts)
    {bar : Token} (hbar : bar.kind = .bar) {ps : List Production} :
    WritesAlternatives (ts ++ bar :: rest) ps ↔
      ∃ p qs, ps = p :: qs ∧ WritesAlternative ts p ∧ WritesAlternatives rest qs := by
  refine ⟨fun h => ?_, ?_⟩
  · generalize heq : ts ++ bar :: rest = all at h
    cases h with
    | last h =>
        have hmem : bar ∈ all := by simp [← heq]
        exact absurd hbar (WithinAlternative.ne_bar (fun _ => h.kind) hmem)
    | @more ts' rest' bar' p qs h hbar' hrest =>
        have hts' : WithinAlternative ts' := fun _ => h.kind
        rcases List.append_eq_append_iff.mp heq with ⟨mid, rfl, hmid⟩ | ⟨mid, rfl, hmid⟩
        · cases mid with
          | nil =>
              obtain ⟨rfl, rfl⟩ := List.cons.inj hmid
              rw [List.append_nil] at h
              exact ⟨p, qs, rfl, h, hrest⟩
          | cons t mid =>
              obtain ⟨rfl, -⟩ := List.cons.inj hmid
              exact absurd hbar (hts'.ne_bar (by simp))
        · cases mid with
          | nil =>
              obtain ⟨rfl, rfl⟩ := List.cons.inj hmid
              rw [List.append_nil]
              exact ⟨p, qs, rfl, h, hrest⟩
          | cons t mid =>
              obtain ⟨rfl, -⟩ := List.cons.inj hmid
              exact absurd hbar' (hts.ne_bar (by simp))
  · rintro ⟨p, qs, rfl, h, hrest⟩
    exact .more h hbar hrest

/-! ### What is written is proper -/

theorem WritesAlternative.proper {ts : List Token} {p : Production} {length : Nat}
    (h : WritesAlternative ts p) (hts : ∀ t ∈ ts, t.Sound length) : p.Proper := by
  cases h with
  | nothing => exact Or.inl rfl
  | epsilon => exact Or.inl rfl
  | letters _ h =>
      refine Or.inr fun X hX => ?_
      obtain ⟨t, ht, rfl⟩ := List.mem_map.mp hX
      exact (Token.isLetter_iff.mp (h t ht)).imp (hts t ht).nonterminal (hts t ht).terminal

theorem WritesAlternatives.proper {ts : List Token} {ps : List Production} {length : Nat}
    (h : WritesAlternatives ts ps) (hts : ∀ t ∈ ts, t.Sound length) : ∀ p ∈ ps, p.Proper := by
  induction h with
  | last h => simpa using h.proper hts
  | more h _ _ ih =>
      refine List.forall_mem_cons.mpr ⟨h.proper fun t ht => hts t (by simp [ht]), ?_⟩
      exact ih fun t ht => hts t (by simp [ht])

theorem WritesRule.isNonterminal {ts : List Token} {A : Symbol} {ps : List Production}
    {length : Nat} (h : WritesRule ts A ps) (hts : ∀ t ∈ ts, t.Sound length) :
    A.isNonterminal := by
  obtain ⟨hlhs, -, -⟩ := h
  exact (hts _ (by simp)).nonterminal hlhs

theorem WritesRule.proper {ts : List Token} {A : Symbol} {ps : List Production} {length : Nat}
    (h : WritesRule ts A ps) (hts : ∀ t ∈ ts, t.Sound length) : ∀ p ∈ ps, p.Proper := by
  obtain ⟨-, -, h⟩ := h
  exact h.proper fun t ht => hts t (by simp [ht])

/-! ### Alternatives that have not ended -/

namespace Alternative

/-- The alternative that is begun with some tokens. -/
structure Holds (alt : Alternative) (read : List Token) : Prop where
  within : WithinAlternative read
  symbols : alt.symbols = (read.filter Token.isLetter).map Token.symbol
  epsilon : alt.epsilonAt? = none ↔ ∀ t ∈ read, t.isLetter

variable {alt : Alternative} {read : List Token} {t : Token}

theorem holds_empty : empty.Holds [] := ⟨by simp [WithinAlternative], rfl, by simp [empty]⟩

theorem Holds.within_concat (h : alt.Holds read) (ht : t.isLetter ∨ t.kind = .epsilon) :
    WithinAlternative (read ++ [t]) := by
  intro u hu
  rcases List.mem_append.mp hu with hu | hu
  · exact h.within u hu
  · rw [List.mem_singleton.mp hu]
    exact ht

theorem Holds.letter (h : alt.Holds read) (ht : t.isLetter) :
    Holds { alt with symbols := alt.symbols ++ [t.symbol] } (read ++ [t]) where
  within := h.within_concat (Or.inl ht)
  symbols := by simp [h.symbols, ht]
  epsilon := by simpa [or_imp, forall_and, ht] using h.epsilon

theorem Holds.readEpsilon (h : alt.Holds read) (ht : t.kind = .epsilon) :
    Holds { alt with epsilonAt? := some t.span } (read ++ [t]) where
  within := h.within_concat (Or.inr ht)
  symbols := by simp [h.symbols, Token.isLetter, ht]
  epsilon := by simp [Token.isLetter, ht]

theorem Holds.symbols_eq_nil_iff (h : alt.Holds read) :
    alt.symbols = [] ↔ ∀ t ∈ read, t.kind = .epsilon := by
  rw [h.symbols, List.map_eq_nil_iff, List.filter_eq_nil_iff]
  refine forall₂_congr fun t ht => ⟨(h.within t ht).resolve_left, fun hk => ?_⟩
  simp [Token.isLetter, hk]

/-- An alternative ends well exactly if its tokens write a production, which is then its own. -/
theorem Holds.close_eq_ok_iff (h : alt.Holds read) {p : Production} :
    alt.close = .ok p ↔ WritesAlternative read p := by
  have hletters : alt.epsilonAt? = none → alt.symbols = read.map Token.symbol := fun hnone => by
    rw [h.symbols, List.filter_eq_self.mpr (h.epsilon.mp hnone)]
  refine ⟨fun hclose => ?_, fun hwrites => ?_⟩
  · unfold close at hclose
    split at hclose
    · rename_i hsymbols
      cases hclose
      by_cases hread : read = []
      · rw [hread]
        exact .nothing
      · exact .epsilon hread (h.symbols_eq_nil_iff.mp hsymbols)
    · rename_i X rest hsymbols hnone
      cases hclose
      rw [← hsymbols, hletters hnone]
      refine .letters ?_ (h.epsilon.mp hnone)
      rintro rfl
      rw [h.symbols] at hsymbols
      cases hsymbols
    · cases hclose
  · cases hwrites with
    | nothing => simp [close, h.symbols]
    | letters hne hall =>
        have hnone := h.epsilon.mpr hall
        rw [← hletters hnone]
        cases hsymbols : alt.symbols with
        | nil => simp [hletters hnone, hne] at hsymbols
        | cons X rest => simp [close, hsymbols, hnone]
    | epsilon _ hall => simp [close, h.symbols_eq_nil_iff.mpr hall]

theorem epsilonAt?_of_close {e : Located} (h : alt.close = .error e) :
    alt.epsilonAt? = some e.1 := by
  unfold close at h
  split at h
  · cases h
  · cases h
  · rename_i hspan
    cases h
    exact hspan

end Alternative

/-! ### The right side -/

/-- The right side is read as it is written, whatever of its first alternative is read already. -/
theorem alternatives_eq_ok_iff {length : Nat} {ts : List Token}
    (hts : ∀ t ∈ ts, t.Sound length ∧ t.kind ≠ .illegal) {alt : Alternative} {read : List Token}
    (h : alt.Holds read) {ps : List Production} :
    alternatives alt ts = .ok ps ↔ WritesAlternatives (read ++ ts) ps := by
  induction ts generalizing alt read ps with
  | nil =>
      rw [List.append_nil, writesAlternatives_of_within h.within]
      simp only [alternatives, bind_eq_ok_iff, ← h.close_eq_ok_iff, pure, Except.pure]
      simp [and_comm, eq_comm]
  | cons t rest ih =>
      obtain ⟨⟨hsound, hlegal⟩, hrest⟩ := List.forall_mem_cons.mp hts
      have hassoc : read ++ t :: rest = read ++ [t] ++ rest := by simp
      rcases hsound.kind with hk | hk | hk | hk | hk | hk
      · exact absurd hk hlegal
      · rw [hassoc, ← ih hrest (h.letter (by simp [Token.isLetter, hk]))]
        simp only [alternatives, hk]
      · rw [hassoc, ← ih hrest (h.letter (by simp [Token.isLetter, hk]))]
        simp only [alternatives, hk]
      · refine ⟨fun hok => by simp [alternatives, hk] at hok, fun hwrites => ?_⟩
        have := hwrites.kind (t := t) (by simp)
        simp [Token.isLetter, hk] at this
      · rw [writesAlternatives_append_bar h.within hk]
        have hbehind : ∀ qs, alternatives .empty rest = .ok qs ↔ WritesAlternatives rest qs :=
          fun qs => ih hrest Alternative.holds_empty
        simp only [alternatives, hk, bind_eq_ok_iff, ← h.close_eq_ok_iff, ← hbehind, pure,
          Except.pure]
        refine ⟨?_, ?_⟩
        · rintro ⟨p, hp, qs, hqs, hps⟩
          exact ⟨p, qs, (Except.ok.inj hps).symm, hp, hqs⟩
        · rintro ⟨p, qs, rfl, hp, hqs⟩
          exact ⟨p, hp, qs, hqs, rfl⟩
      · rw [hassoc, ← ih hrest (h.readEpsilon hk)]
        simp only [alternatives, hk]

/-- A fault of the right side is at one of its tokens, or at an `ϵ` that is read already. -/
theorem span_of_alternatives {alt : Alternative} {ts : List Token} {e : Located}
    (h : alternatives alt ts = .error e) :
    alt.epsilonAt? = some e.1 ∨ ∃ t ∈ ts, t.span = e.1 := by
  have behind : ∀ {t : Token} {rest : List Token}, (∃ u ∈ rest, u.span = e.1) →
      ∃ u ∈ t :: rest, u.span = e.1 :=
    fun ⟨u, hu, hspan⟩ => ⟨u, List.mem_cons_of_mem _ hu, hspan⟩
  fun_induction alternatives alt ts with
  | case1 alt =>
      rcases bind_eq_error_iff.mp h with hclose | ⟨p, -, h⟩
      · exact Or.inl (Alternative.epsilonAt?_of_close hclose)
      · cases h
  | case2 alt t rest hk ih | case3 alt t rest hk ih => exact (ih h).imp_right behind
  | case4 alt t rest hk ih =>
      rcases ih h with hspan | hspan
      · exact Or.inr ⟨t, List.mem_cons_self, Option.some.inj hspan⟩
      · exact Or.inr (behind hspan)
  | case5 alt t rest hk ih =>
      rcases bind_eq_error_iff.mp h with hclose | ⟨p, -, h⟩
      · exact Or.inl (Alternative.epsilonAt?_of_close hclose)
      · rcases bind_eq_error_iff.mp h with h | ⟨qs, -, h⟩
        · exact Or.inr (behind ((ih h).resolve_left (by simp [Alternative.empty])))
        · cases h
  | case6 alt t rest hk =>
      cases h
      exact Or.inr ⟨t, List.mem_cons_self, rfl⟩
  | case7 alt t rest hk ih | case8 alt t rest hk ih | case9 alt t rest code hk ih =>
      exact (ih h).imp_right behind

/-! ### Rules -/

/-- How the tokens `first :: behind` are judged, in the order of the judgements. -/
inductive Judged (length : Nat) (first : Token) (behind : List Token) :
    Except Located (Option (Symbol × List Production)) → Prop where
  | unexpected {t : Token} (ht : t ∈ first :: behind) (hk : t.kind = .illegal) :
      Judged length first behind (.error (t.span, .unexpected t.lexeme))
  | missingArrow (hlegal : ∀ t ∈ first :: behind, t.kind ≠ .illegal)
      (h : ∀ t ∈ first :: behind, t.kind ≠ .arrow) :
      Judged length first behind (.error (⟨0, length⟩, .missingArrow))
  | leftSide {arrow : Token} (hlegal : ∀ t ∈ first :: behind, t.kind ≠ .illegal)
      (hmem : arrow ∈ first :: behind) (harrow : arrow.kind = .arrow)
      (h : first.kind = .nonterminal → ∀ t rest, behind = t :: rest → t.kind ≠ .arrow) :
      Judged length first behind (.error (⟨first.span.start, arrow.span.start⟩, .leftSide))
  | rightSide {arrow : Token} {rest : List Token}
      {result : Except Located (Option (Symbol × List Production))}
      (hlegal : ∀ t ∈ first :: behind, t.kind ≠ .illegal) (hfirst : first.kind = .nonterminal)
      (hbehind : behind = arrow :: rest) (harrow : arrow.kind = .arrow)
      (h : (alternatives .empty rest).map (fun ps => some (first.symbol, ps)) = result) :
      Judged length first behind result

theorem judged_ofTokens (length : Nat) (first : Token) (behind : List Token) :
    Judged length first behind (ofTokens length (first :: behind)) := by
  cases hillegal : illegal? (first :: behind) with
  | some t =>
      simp only [ofTokens, hillegal]
      refine .unexpected (List.mem_of_find?_eq_some hillegal) ?_
      simpa using List.find?_some hillegal
  | none =>
      have hlegal : ∀ t ∈ first :: behind, t.kind ≠ .illegal := by
        simpa [illegal?] using hillegal
      cases hfind : (first :: behind).find? fun t => t.kind = .arrow with
      | none =>
          simp only [ofTokens, hillegal, hfind]
          exact .missingArrow hlegal (by simpa using hfind)
      | some arrow =>
          simp only [ofTokens, hillegal, hfind]
          split
          · rename_i rest hfirst
            refine .rightSide hlegal hfirst rfl rfl ?_
            cases alternatives .empty rest <;> rfl
          · rename_i hside
            refine .leftSide hlegal (List.mem_of_find?_eq_some hfind)
              (by simpa using List.find?_some hfind) ?_
            rintro hfirst ⟨kind, lexeme, span⟩ rest rfl rfl
            exact hside _ _ _ hfirst rfl

theorem ofTokens_eq_ok_none_iff {length : Nat} {ts : List Token} :
    ofTokens length ts = .ok none ↔ ts = [] := by
  refine ⟨fun h => ?_, ?_⟩
  · cases ts with
    | nil => rfl
    | cons first behind =>
        have judged := h ▸ judged_ofTokens length first behind
        cases judged with
        | rightSide _ _ _ _ h => simp [map_eq_ok_iff] at h
  · rintro rfl
    rfl

theorem ofTokens_eq_ok_some_iff {length : Nat} {ts : List Token}
    (hts : ∀ t ∈ ts, t.Sound length) {A : Symbol} {ps : List Production} :
    ofTokens length ts = .ok (some (A, ps)) ↔ WritesRule ts A ps := by
  have side : ∀ {lhs arrow : Token} {rest : List Token} {qs : List Production},
      ts = lhs :: arrow :: rest → (∀ t ∈ ts, t.kind ≠ .illegal) →
      (alternatives .empty rest = .ok qs ↔ WritesAlternatives rest qs) := by
    rintro lhs arrow rest qs rfl hlegal
    have hmem : ∀ t ∈ rest, t ∈ lhs :: arrow :: rest := by simp +contextual
    exact alternatives_eq_ok_iff (fun t ht => ⟨hts t (hmem t ht), hlegal t (hmem t ht)⟩)
      Alternative.holds_empty
  refine ⟨fun h => ?_, ?_⟩
  · cases ts with
    | nil => cases h
    | cons first behind =>
        have judged := h ▸ judged_ofTokens length first behind
        cases judged with
        | rightSide hlegal hfirst hbehind harrow hresult =>
            subst hbehind
            obtain ⟨qs, hqs, heq⟩ := map_eq_ok_iff.mp hresult
            cases heq
            exact .intro hfirst harrow ((side rfl hlegal).mp hqs)
  · rintro ⟨hlhs, harrow, h⟩
    rename_i lhs arrow rest
    have judged := judged_ofTokens length lhs (arrow :: rest)
    generalize ofTokens length (lhs :: arrow :: rest) = result at judged ⊢
    cases judged with
    | unexpected ht hk => exact absurd hk (WritesRule.ne_illegal (.intro hlhs harrow h) ht)
    | missingArrow _ hno => exact absurd harrow (hno arrow (by simp))
    | leftSide _ _ _ hno => exact absurd harrow (hno hlhs arrow rest rfl)
    | rightSide hlegal _ hbehind _ hresult =>
        cases hbehind
        rw [← hresult, (side rfl hlegal).mpr h]
        rfl

/-- A fault is within the line. -/
theorem within_of_ofTokens {length : Nat} {ts : List Token} (hts : ∀ t ∈ ts, t.Sound length)
    (hordered : ts.Pairwise fun s t => s.span.stop ≤ t.span.start) {e : Located}
    (h : ofTokens length ts = .error e) : e.1.Within length := by
  cases ts with
  | nil => cases h
  | cons first behind =>
      have judged := h ▸ judged_ofTokens length first behind
      cases judged with
      | unexpected ht _ => exact (hts _ ht).span
      | missingArrow => exact ⟨by simp, by simp, by simp⟩
      | @leftSide arrow _ hmem _ _ =>
          have hfirst := (hts first (by simp)).span
          have harrow := (hts arrow hmem).span
          have hle : first.span.start ≤ arrow.span.start := by
            rcases List.mem_cons.mp hmem with rfl | hmem
            · exact Int.le_refl _
            · exact Int.le_trans hfirst.start_le_stop (List.rel_of_pairwise_cons hordered hmem)
          exact ⟨hfirst.start_nonneg, hle, Int.le_trans harrow.start_le_stop harrow.stop_le⟩
      | rightSide _ _ hbehind _ hresult =>
          subst hbehind
          rcases span_of_alternatives (map_eq_error_iff.mp hresult) with hspan | ⟨t, ht, hspan⟩
          · cases hspan
          · rw [← hspan]
            exact (hts t (by simp [ht])).span

/-! ### Lines -/

variable {line : List UInt8}

theorem parseLine_eq_ok_none_iff : parseLine line = .ok none ↔ Blank line :=
  ofTokens_eq_ok_none_iff

theorem parseLine_eq_ok_some_iff {A : Symbol} {ps : List Production} :
    parseLine line = .ok (some (A, ps)) ↔ WritesRule (tokens line) A ps :=
  ofTokens_eq_ok_some_iff fun _ => sound_of_mem_tokens

theorem within_of_parseLine {e : Located} (h : parseLine line = .error e) :
    e.1.Within line.length :=
  within_of_ofTokens (fun _ => sound_of_mem_tokens) (pairwise_tokens _) h

/-- A byte that is part of no character is a fault outside of comments. -/
example : parseLine (Text.bytes "S->" ++ [0xFF]) = .error (⟨3, 4⟩, .unexpected [0xFF]) := by
  rfl

/-- A line is legal exactly if it can be read. -/
theorem legal_iff : Legal line ↔ ∃ r, parseLine line = .ok r := by
  refine ⟨?_, ?_⟩
  · rintro (h | ⟨A, ps, h⟩)
    · exact ⟨none, parseLine_eq_ok_none_iff.mpr h⟩
    · exact ⟨some (A, ps), parseLine_eq_ok_some_iff.mpr h⟩
  · rintro ⟨_ | ⟨A, ps⟩, h⟩
    · exact Or.inl (parseLine_eq_ok_none_iff.mp h)
    · exact Or.inr ⟨A, ps, parseLine_eq_ok_some_iff.mp h⟩

end RuleText

end Lookahead
