import Lookahead.Token.Lexer

/-!
# What scanning finds

**Every token stands where its span says** (`foundFrom_of_mem_scanFrom`).  A token is handed out at
a position that is not passed over, and it is what can be read there: a token of the kind found at
the front of the bytes from that position on, or an illegal one.  From this follow the two facts
that a reader of tokens relies on.

**Tokens come in order** (`pairwise_tokens`): each ends before the next starts.

**Tokens are sound** (`sound_of_mem_tokens`): their kinds are those used for rules, a token of a
letter writes a symbol of the letter's kind, and spans lie within the input.
-/

namespace Lookahead

/-- A span within a line of some length. -/
structure Span.Within (s : Span) (length : Nat) : Prop where
  start_nonneg : 0 ≤ s.start
  start_le_stop : s.start ≤ s.stop
  stop_le : s.stop ≤ length

/-! ### Fronts -/

namespace Lexeme

theorem spelled_eq_token {kind kind' : TokenKind} {wanted rest : List UInt8} {more : Nat}
    (h : spelled kind wanted rest = .token kind' more) : kind' = kind := by
  unfold spelled at h
  dsimp only at h
  split at h
  · injection h with h
    exact h.symm
  · cases h

theorem comment_ne_token {rest : List UInt8} {kind : TokenKind} {more : Nat} :
    comment rest ≠ .token kind more := by
  intro h
  unfold comment at h
  dsimp only at h
  split at h <;> cases h

/-- The kinds of token that stand at a front, with the letters that write nonterminals and
terminals. -/
theorem front_eq_token {b : UInt8} {rest : List UInt8} {kind : TokenKind} {more : Nat}
    (h : front b rest = .token kind more) :
    kind = .nonterminal ∧ 0x41 ≤ b.toNat ∧ b.toNat ≤ 0x5A ∨
      kind = .terminal ∧ 0x61 ≤ b.toNat ∧ b.toNat ≤ 0x7A ∨
      kind = .arrow ∨ kind = .bar ∨ kind = .epsilon := by
  unfold front at h
  split at h
  · cases h
  split at h
  · exact absurd h comment_ne_token
  split at h
  · rename_i hb
    injection h with h
    exact Or.inl ⟨h.symm, hb⟩
  split at h
  · rename_i hb
    injection h with h
    exact Or.inr (Or.inl ⟨h.symm, hb⟩)
  split at h
  · simp [spelled_eq_token h]
  split at h
  · simp [spelled_eq_token h]
  split at h
  · injection h with h
    simp [← h]
  split at h
  · simp [spelled_eq_token h]
  · cases h

end Lexeme

/-! ### Positions -/

/-- What the scanner hands out at `pos` where the bytes go on with `b :: rest`. -/
inductive Scanned.StandsAt (pos : Nat) (b : UInt8) (rest : List UInt8) : Scanned → Prop where
  | legal {kind : TokenKind} {more : Nat} (h : Lexeme.front b rest = .token kind more) :
      StandsAt pos b rest (.legal pos kind (b :: rest.take more))
  | illegal {more : Nat} (h : Lexeme.front b rest = .stuck more) :
      StandsAt pos b rest (.illegal pos (b :: rest.take (Lexeme.extent more rest)) more)

namespace Scanned

/-- A token that stands behind bytes that are passed, the skipped ones among them. -/
def FoundFrom (skip pos : Nat) (bs : List UInt8) (s : Scanned) : Prop :=
  ∃ passed b rest, bs = passed ++ b :: rest ∧ skip ≤ passed.length ∧
    s.StandsAt (pos + passed.length) b rest

theorem FoundFrom.cons {skip skip' pos : Nat} {c : UInt8} {bs : List UInt8} {s : Scanned}
    (h : s.FoundFrom skip' (pos + 1) bs) (hle : skip ≤ skip' + 1) :
    s.FoundFrom skip pos (c :: bs) := by
  obtain ⟨passed, b, rest, rfl, hskip, hs⟩ := h
  refine ⟨c :: passed, b, rest, rfl, by rw [List.length_cons]; omega, ?_⟩
  rwa [List.length_cons, Nat.add_comm passed.length, ← Nat.add_assoc]

end Scanned

/-- The scanner hands out what it finds. -/
theorem foundFrom_of_mem_scanFrom {s : Scanned} {skip pos : Nat} {bs : List UInt8}
    (h : s ∈ scanFrom skip pos bs) : s.FoundFrom skip pos bs := by
  fun_induction scanFrom skip pos bs with
  | case1 => simp at h
  | case2 pos skip c rest ih => exact (ih h).cons (Nat.le_refl _)
  | case3 pos b rest more hfront ih => exact (ih h).cons (Nat.zero_le _)
  | case4 pos b rest kind more hfront ih =>
      rcases List.mem_cons.mp h with rfl | h
      · exact ⟨[], b, rest, rfl, Nat.le_refl _, .legal hfront⟩
      · exact (ih h).cons (Nat.zero_le _)
  | case5 pos b rest more hfront extent ih =>
      rcases List.mem_cons.mp h with rfl | h
      · exact ⟨[], b, rest, rfl, Nat.le_refl _, .illegal hfront⟩
      · exact (ih h).cons (Nat.zero_le _)

namespace Scanned.StandsAt

variable {pos : Nat} {b : UInt8} {rest : List UInt8} {s : Scanned}

theorem span_start (h : s.StandsAt pos b rest) : s.token.span.start = pos := by
  cases h <;> rfl

theorem start_lt_stop (h : s.StandsAt pos b rest) : s.token.span.start < s.token.span.stop := by
  cases h <;> simp only [Scanned.legal, Scanned.illegal, List.length_cons] <;> omega

theorem stop_le (h : s.StandsAt pos b rest) :
    s.token.span.stop ≤ (pos + (b :: rest).length : Nat) := by
  cases h <;> simp only [Scanned.legal, Scanned.illegal, List.length_cons, List.length_take] <;>
    omega

end Scanned.StandsAt

/-! ### Order -/

theorem le_start_of_mem_scanFrom {s : Scanned} {skip pos : Nat} {bs : List UInt8}
    (h : s ∈ scanFrom skip pos bs) : (pos + skip : Nat) ≤ s.token.span.start := by
  obtain ⟨passed, b, rest, -, hskip, hs⟩ := foundFrom_of_mem_scanFrom h
  rw [hs.span_start]
  omega

theorem pairwise_scanFrom (skip pos : Nat) (bs : List UInt8) :
    (scanFrom skip pos bs).Pairwise fun s t => s.token.span.stop ≤ t.token.span.start := by
  fun_induction scanFrom skip pos bs with
  | case1 => exact .nil
  | case2 pos skip c rest ih => exact ih
  | case3 pos b rest more hfront ih => exact ih
  | case4 pos b rest kind more hfront ih =>
      refine List.pairwise_cons.mpr ⟨fun t ht => ?_, ih⟩
      have := le_start_of_mem_scanFrom ht
      simp only [Scanned.legal, List.length_cons, List.length_take]
      omega
  | case5 pos b rest more hfront extent ih =>
      refine List.pairwise_cons.mpr ⟨fun t ht => ?_, ih⟩
      have := le_start_of_mem_scanFrom ht
      simp only [Scanned.illegal, List.length_cons, List.length_take]
      omega

/-- Each token ends before the next starts. -/
theorem pairwise_tokens (input : List UInt8) :
    (tokens input).Pairwise fun s t => s.span.stop ≤ t.span.start :=
  List.pairwise_map.mpr (pairwise_scanFrom 0 0 input)

/-! ### Soundness -/

namespace Token

/-- A token as it is found in an input of some length. -/
structure Sound (length : Nat) (t : Token) : Prop where
  kind : t.kind = .illegal ∨ t.kind = .nonterminal ∨ t.kind = .terminal ∨ t.kind = .arrow ∨
    t.kind = .bar ∨ t.kind = .epsilon
  nonterminal : t.kind = .nonterminal → t.symbol.isNonterminal
  terminal : t.kind = .terminal → t.symbol.isTerminal
  span : t.span.Within length

end Token

theorem Symbol.isNonterminal_ofChar {n : Nat} (h : 0x41 ≤ n) (h' : n ≤ 0x5A) :
    (Symbol.ofChar (Char.ofNat n)).isNonterminal := by
  have letter := Symbol.ofChar_char (.nonterminal ⟨n - 0x41, by omega⟩)
  rw [Symbol.char, show 65 + (n - 0x41) = n by omega] at letter
  rw [letter]
  rfl

theorem Symbol.isTerminal_ofChar {n : Nat} (h : 0x61 ≤ n) (h' : n ≤ 0x7A) :
    (Symbol.ofChar (Char.ofNat n)).isTerminal := by
  have letter := Symbol.ofChar_char (.terminal ⟨n - 0x61, by omega⟩)
  rw [Symbol.char, show 97 + (n - 0x61) = n by omega] at letter
  rw [letter]
  rfl

/-- A token that stands within an input is sound. -/
theorem Scanned.StandsAt.sound {pos length : Nat} {b : UInt8} {rest : List UInt8} {s : Scanned}
    (h : s.StandsAt pos b rest) (hlength : pos + (b :: rest).length ≤ length) :
    s.token.Sound length where
  kind := by
    cases h with
    | legal hfront =>
        rcases Lexeme.front_eq_token hfront with h | h | h | h | h <;> simp [Scanned.legal, h]
    | illegal => exact Or.inl rfl
  nonterminal := by
    cases h with
    | legal hfront =>
        rintro rfl
        rcases Lexeme.front_eq_token hfront with ⟨-, h, h'⟩ | h | h | h | h
        · exact Symbol.isNonterminal_ofChar h h'
        all_goals simp at h
    | illegal => exact fun h => nomatch h
  terminal := by
    cases h with
    | legal hfront =>
        rintro rfl
        rcases Lexeme.front_eq_token hfront with h | ⟨-, h, h'⟩ | h | h | h
        · simp at h
        · exact Symbol.isTerminal_ofChar h h'
        all_goals simp at h
    | illegal => exact fun h => nomatch h
  span := by
    refine ⟨?_, Int.le_of_lt h.start_lt_stop, ?_⟩
    · rw [h.span_start]
      omega
    · have := h.stop_le
      omega

/-- Every token of an input is sound. -/
theorem sound_of_mem_tokens {input : List UInt8} {t : Token} (h : t ∈ tokens input) :
    t.Sound input.length := by
  obtain ⟨s, hs, rfl⟩ := List.mem_map.mp h
  obtain ⟨passed, b, rest, rfl, -, stands⟩ := foundFrom_of_mem_scanFrom hs
  exact stands.sound (by simp)

end Lookahead
