import Lookahead.Proofs.Spelling

/-!
# The front of the bytes is their longest match

What the scanner can read is given by eight patterns.  Two of them, white space and comments, are
passed over; the others are tokens.  `Pattern.Matches` says which words a pattern matches.

At the front of some bytes stands the longest word that any pattern matches there
(`Pattern.Longest`).  Where no pattern matches, reading fails just behind the first byte with which
no pattern can go on, or at the end of the bytes if some pattern could still go on there
(`Pattern.Fails`).  `Lexeme.IsFront` puts the three cases together.

**Longest match** (`Lexeme.front_eq_iff`).  `Lexeme.front` finds just that.  A first byte belongs to
at most one pattern (`Pattern.first_of_matches`), so each of its cases answers to one pattern alone.
-/

namespace Lookahead

/-! ### Patterns -/

/-- What the scanner can read. -/
inductive Pattern where
  /-- A comment in braces, up to its first closing brace. -/
  | comment
  /-- White space. -/
  | blank
  /-- A letter from `A` to `Z`. -/
  | upper
  /-- A letter from `a` to `z`. -/
  | lower
  /-- The arrow `->`. -/
  | arrow
  /-- The arrow `→`. -/
  | longArrow
  | bar
  | epsilon
deriving DecidableEq, Repr

namespace Pattern

/-- The words that a pattern matches. -/
def Matches : Pattern → List UInt8 → Prop
  | .comment, w => ∃ inner, 0x7D ∉ inner ∧ w = 0x7B :: (inner ++ [0x7D])
  | .blank, w => w ≠ [] ∧ ∀ b ∈ w, Lexeme.isSpace b
  | .upper, w => ∃ b, (0x41 ≤ b ∧ b ≤ 0x5A) ∧ w = [b]
  | .lower, w => ∃ b, (0x61 ≤ b ∧ b ≤ 0x7A) ∧ w = [b]
  | .arrow, w => w = [0x2D, 0x3E]
  | .longArrow, w => w = [0xE2, 0x86, 0x92]
  | .bar, w => w = [0x7C]
  | .epsilon, w => w = [0xCF, 0xB5]

/-- The kind of token that a pattern reads, unless it is passed over. -/
def kind? : Pattern → Option TokenKind
  | .comment | .blank => none
  | .upper => some .nonterminal
  | .lower => some .terminal
  | .arrow | .longArrow => some .arrow
  | .bar => some .bar
  | .epsilon => some .epsilon

/-- `w` is the longest word at the front of `bs` that any pattern matches, and `p` matches it. -/
structure Longest (bs : List UInt8) (p : Pattern) (w : List UInt8) : Prop where
  matched : p.Matches w
  atFront : w <+: bs
  longest : ∀ (q : Pattern) v, q.Matches v → v <+: bs → v.length ≤ w.length

/-- Some pattern can go on behind `w`, or ends there. -/
def Viable (w : List UInt8) : Prop := ∃ (p : Pattern) (v : List UInt8), p.Matches (w ++ v)

/-- No pattern matches at the front of `bs`, and `stop` is just behind the first byte with which no
pattern can go on, or the end of `bs` if there is no such byte. -/
structure Fails (bs : List UInt8) (stop : Nat) : Prop where
  unmatched : ∀ (p : Pattern) w, p.Matches w → ¬ w <+: bs
  pos : 0 < stop
  within : stop ≤ bs.length
  viable : ∀ n < stop, Viable (bs.take n)
  stopped : stop = bs.length ∨ ¬ Viable (bs.take stop)

/-- The pattern whose words begin with `b`, if there is one. -/
def first (b : UInt8) : Option Pattern :=
  if Lexeme.isSpace b then some .blank
  else if b = 0x7B then some .comment
  else if 0x41 ≤ b ∧ b ≤ 0x5A then some .upper
  else if 0x61 ≤ b ∧ b ≤ 0x7A then some .lower
  else if b = 0x2D then some .arrow
  else if b = 0xE2 then some .longArrow
  else if b = 0x7C then some .bar
  else if b = 0xCF then some .epsilon
  else none

theorem not_space_of_letter {b : UInt8} (h : 0x41 ≤ b ∧ b ≤ 0x5A ∨ 0x61 ≤ b ∧ b ≤ 0x7A) :
    Lexeme.isSpace b = false ∧ b ≠ 0x7B := by
  simp only [UInt8.le_iff_toNat_le] at h
  simp only [Lexeme.isSpace, Bool.or_eq_false_iff, beq_eq_false_iff_ne, ne_eq,
    ← UInt8.toNat_inj]
  simp only [UInt8.toNat_ofNat] at h ⊢
  omega

/-- A word begins with a byte that belongs to its pattern. -/
theorem first_of_matches {p : Pattern} {w : List UInt8} (h : p.Matches w) :
    ∃ b v, w = b :: v ∧ first b = some p := by
  cases p with
  | comment =>
      obtain ⟨inner, -, rfl⟩ := h
      exact ⟨_, _, rfl, rfl⟩
  | blank =>
      obtain ⟨hne, hspace⟩ := h
      obtain ⟨b, v, rfl⟩ := List.exists_cons_of_ne_nil hne
      exact ⟨b, v, rfl, if_pos (hspace b List.mem_cons_self)⟩
  | upper =>
      obtain ⟨b, hb, rfl⟩ := h
      obtain ⟨hspace, hbrace⟩ := not_space_of_letter (.inl hb)
      exact ⟨b, [], rfl, by simp [first, hspace, hbrace, hb]⟩
  | lower =>
      obtain ⟨b, hb, rfl⟩ := h
      obtain ⟨hspace, hbrace⟩ := not_space_of_letter (.inr hb)
      have hupper : ¬ b ≤ 0x5A := by
        have hge := hb.1
        simp only [UInt8.le_iff_toNat_le, UInt8.toNat_ofNat] at hge ⊢
        omega
      exact ⟨b, [], rfl, by simp [first, hspace, hbrace, hupper, hb]⟩
  | arrow | longArrow | bar | epsilon =>
      obtain rfl := h
      exact ⟨_, _, rfl, rfl⟩

/-- A word at the front of `b :: rest` is matched by the pattern of `b`. -/
theorem first_of_matches_front {p : Pattern} {w rest : List UInt8} {b : UInt8}
    (h : p.Matches w) (hw : w <+: b :: rest) : first b = some p := by
  obtain ⟨c, v, rfl, hc⟩ := first_of_matches h
  rwa [← (List.cons_prefix_cons.mp hw).1]

/-- One word belongs to one pattern. -/
theorem eq_of_matches {p q : Pattern} {w : List UInt8} (hp : p.Matches w) (hq : q.Matches w) :
    p = q := by
  obtain ⟨b, v, rfl, hb⟩ := first_of_matches hp
  have hb' := first_of_matches_front hq (List.prefix_rfl)
  exact Option.some.inj (hb.symm.trans hb')

theorem viable_nil : Viable [] := ⟨.bar, [0x7C], rfl⟩

/-- Only the pattern of `b` can go on behind `b`. -/
theorem viable_cons {p : Pattern} {b : UInt8} (hb : first b = some p) {w : List UInt8} :
    Viable (b :: w) ↔ ∃ v, p.Matches (b :: (w ++ v)) := by
  refine ⟨?_, fun ⟨v, hv⟩ => ⟨p, v, hv⟩⟩
  rintro ⟨q, v, hv⟩
  have hq := first_of_matches_front hv (List.prefix_rfl)
  obtain rfl : p = q := Option.some.inj (hb.symm.trans hq)
  exact ⟨v, hv⟩

/-- To be longest, a word has to be longest for the pattern of its first byte. -/
theorem Longest.of_first {p : Pattern} {b : UInt8} {w rest : List UInt8} (hb : first b = some p)
    (hp : p.Matches w) (hw : w <+: b :: rest)
    (hlongest : ∀ v, p.Matches v → v <+: b :: rest → v.length ≤ w.length) :
    Longest (b :: rest) p w where
  matched := hp
  atFront := hw
  longest q v hq hv := by
    obtain rfl : p = q := Option.some.inj (hb.symm.trans (first_of_matches_front hq hv))
    exact hlongest v hq hv

/-- To fail, reading has to fail for the pattern of the first byte. -/
theorem Fails.of_first {p : Pattern} {b : UInt8} {rest : List UInt8} {more : Nat}
    (hb : first b = some p) (hunmatched : ∀ v, p.Matches v → ¬ v <+: b :: rest)
    (hwithin : more ≤ rest.length)
    (hviable : ∀ n < more, ∃ v, p.Matches (b :: (rest.take n ++ v)))
    (hstopped : more = rest.length ∨ ∀ v, ¬ p.Matches (b :: (rest.take more ++ v))) :
    Fails (b :: rest) (more + 1) where
  unmatched q w hq hw := by
    obtain rfl : p = q := Option.some.inj (hb.symm.trans (first_of_matches_front hq hw))
    exact hunmatched w hq hw
  pos := Nat.succ_pos more
  within := Nat.succ_le_succ hwithin
  viable n hn := by
    cases n with
    | zero => exact viable_nil
    | succ n => exact (viable_cons hb).mpr (hviable n (Nat.lt_of_succ_lt_succ hn))
  stopped := by
    rcases hstopped with rfl | hstopped
    · exact .inl rfl
    · refine .inr fun h => ?_
      obtain ⟨v, hv⟩ := (viable_cons hb).mp h
      exact hstopped v hv

/-- Where no pattern begins with the first byte, reading fails behind it. -/
theorem Fails.of_first_none {b : UInt8} {rest : List UInt8} (hb : first b = none) :
    Fails (b :: rest) 1 where
  unmatched q w hq hw := by
    cases hb.symm.trans (first_of_matches_front hq hw)
  pos := Nat.one_pos
  within := Nat.succ_le_succ (Nat.zero_le _)
  viable n hn := by
    obtain rfl : n = 0 := Nat.lt_one_iff.mp hn
    exact viable_nil
  stopped := by
    refine .inr ?_
    rintro ⟨q, v, hv⟩
    cases hb.symm.trans (first_of_matches_front hv List.prefix_rfl)

theorem Longest.unique {bs v w : List UInt8} {p q : Pattern} (hv : Longest bs p v)
    (hw : Longest bs q w) : p = q ∧ v = w := by
  have hlength : v.length = w.length :=
    Nat.le_antisymm (hw.longest p v hv.matched hv.atFront) (hv.longest q w hw.matched hw.atFront)
  have hprefix : v <+: w :=
    List.prefix_of_prefix_length_le hv.atFront hw.atFront (Nat.le_of_eq hlength)
  obtain rfl := hprefix.eq_of_length hlength
  exact ⟨eq_of_matches hv.matched hw.matched, rfl⟩

theorem Fails.le {bs : List UInt8} {m n : Nat} (hm : Fails bs m) (hn : Fails bs n) : m ≤ n := by
  refine Nat.le_of_not_lt fun hlt => ?_
  rcases hn.stopped with rfl | hstopped
  · exact absurd hm.within (Nat.not_le.mpr hlt)
  · exact hstopped (hm.viable n hlt)

theorem Fails.unique {bs : List UInt8} {m n : Nat} (hm : Fails bs m) (hn : Fails bs n) : m = n :=
  Nat.le_antisymm (hm.le hn) (hn.le hm)

end Pattern

/-! ### Fronts -/

namespace Lexeme

open Pattern (Longest Fails first)

/-- What stands at the front of some bytes: the longest match, by its length, or the place at which
reading fails. -/
inductive IsFront (bs : List UInt8) : Lexeme → Prop where
  | skipped {p : Pattern} {w : List UInt8} {more : Nat} (h : Longest bs p w)
      (hkind : p.kind? = none) (hlength : w.length = more + 1) : IsFront bs (.skipped more)
  | token {p : Pattern} {w : List UInt8} {kind : TokenKind} {more : Nat} (h : Longest bs p w)
      (hkind : p.kind? = some kind) (hlength : w.length = more + 1) : IsFront bs (.token kind more)
  | stuck {more : Nat} (h : Fails bs (more + 1)) : IsFront bs (.stuck more)

/-- A word of which all bytes are of one sort is not longer than the run of them it stands in. -/
theorem length_le_takeWhile {p : UInt8 → Bool} {v bs : List UInt8} (hv : ∀ b ∈ v, p b)
    (h : v <+: bs) : v.length ≤ (bs.takeWhile p).length := by
  obtain ⟨rest, rfl⟩ := h
  rw [List.takeWhile_append_of_pos hv, List.length_append]
  exact Nat.le_add_right _ _

theorem isFront_blank {b : UInt8} (hb : isSpace b) (rest : List UInt8) :
    IsFront (b :: rest) (.skipped (rest.takeWhile isSpace).length) := by
  have hrun : (b :: rest).takeWhile isSpace = b :: rest.takeWhile isSpace :=
    List.takeWhile_cons_of_pos hb
  have hlongest : Longest (b :: rest) .blank (b :: rest.takeWhile isSpace) := by
    refine .of_first (if_pos hb) ⟨List.cons_ne_nil _ _, fun c hc => ?_⟩ ?_ fun v hv hprefix => ?_
    · rcases List.mem_cons.mp hc with rfl | hc
      · exact hb
      · exact List.all_eq_true.mp List.all_takeWhile c hc
    · exact List.cons_prefix_cons.mpr ⟨rfl, List.takeWhile_prefix _⟩
    · rw [← hrun]
      exact length_le_takeWhile hv.2 hprefix
  exact .skipped hlongest rfl rfl

/-- A comment is read to its first closing brace; without one, reading goes on to the end. -/
theorem isFront_comment (rest : List UInt8) : IsFront (0x7B :: rest) (comment rest) := by
  have hb : first 0x7B = some .comment := rfl
  by_cases hclosed : 0x7D ∈ rest
  · obtain ⟨inner, behind, rfl, hopen⟩ := List.eq_append_cons_of_mem hclosed
    have hlongest : Longest (0x7B :: (inner ++ 0x7D :: behind)) .comment
        (0x7B :: (inner ++ [0x7D])) := by
      refine .of_first hb ⟨inner, hopen, rfl⟩ ⟨behind, by simp⟩ ?_
      rintro v ⟨inside, hinside, rfl⟩ hv
      -- the inside of a comment is part of the run before the first closing brace
      have hprefix : inside <+: inner ++ 0x7D :: behind :=
        (List.prefix_append inside [0x7D]).trans (List.cons_prefix_cons.mp hv).2
      have hle := length_le_takeWhile (ne_closing_of_notMem hinside) hprefix
      rw [takeWhile_closing hopen] at hle
      simpa using hle
    rw [comment_append hopen]
    exact .skipped hlongest rfl (by simp)
  · have hstuck : comment rest = .stuck rest.length := by
      have hrun : rest.takeWhile (fun b => b != 0x7D) = rest :=
        (List.takeWhile_prefix _).eq_of_length_le
          (length_le_takeWhile (ne_closing_of_notMem hclosed) List.prefix_rfl)
      simp only [comment, hrun, if_true]
    rw [hstuck]
    refine .stuck (.of_first hb ?_ (Nat.le_refl _) (fun n _ => ?_) (.inl rfl))
    · rintro v ⟨inside, -, rfl⟩ hv
      exact hclosed ((List.cons_prefix_cons.mp hv).2.subset (by simp))
    · exact ⟨[0x7D], rest.take n, fun h => hclosed (List.mem_of_mem_take h), rfl⟩

/-- The longest common front of two words; `spelled` looks at its length. -/
theorem exists_agreeing (wanted rest : List UInt8) :
    ∃ common : List UInt8,
      ((wanted.zip rest).takeWhile fun pair => pair.1 == pair.2).length = common.length ∧
      common <+: wanted ∧ common <+: rest ∧
      ∀ v : List UInt8, v <+: wanted → v <+: rest → v.length ≤ common.length := by
  induction wanted generalizing rest with
  | nil => exact ⟨[], rfl, List.prefix_rfl, List.nil_prefix, fun v hv _ => hv.length_le⟩
  | cons b wanted ih =>
      cases rest with
      | nil => exact ⟨[], rfl, List.nil_prefix, List.prefix_rfl, fun v _ hv => hv.length_le⟩
      | cons c rest =>
          by_cases hbc : b = c
          · subst hbc
            obtain ⟨common, hlength, hwanted, hrest, hlongest⟩ := ih rest
            refine ⟨b :: common, by simp [hlength], List.cons_prefix_cons.mpr ⟨rfl, hwanted⟩,
              List.cons_prefix_cons.mpr ⟨rfl, hrest⟩, fun v hv hv' => ?_⟩
            cases v with
            | nil => exact Nat.zero_le _
            | cons d v =>
                exact Nat.succ_le_succ (hlongest v (List.cons_prefix_cons.mp hv).2
                  (List.cons_prefix_cons.mp hv').2)
          · refine ⟨[], by simp [hbc], List.nil_prefix, List.nil_prefix, fun v hv hv' => ?_⟩
            cases v with
            | nil => exact Nat.le_refl _
            | cons d v =>
                exact absurd ((List.cons_prefix_cons.mp hv).1.symm.trans
                  (List.cons_prefix_cons.mp hv').1) hbc

/-- A token that is spelled out is read whole, or reading fails behind the first byte that is not
the wanted one. -/
theorem isFront_spelled {p : Pattern} {kind : TokenKind} {b : UInt8} {wanted : List UInt8}
    (hb : first b = some p) (hp : ∀ w, p.Matches (b :: w) ↔ w = wanted)
    (hkind : p.kind? = some kind) (rest : List UInt8) :
    IsFront (b :: rest) (spelled kind wanted rest) := by
  obtain ⟨common, hlength, hwanted, hrest, hlongest⟩ := exists_agreeing wanted rest
  have hspelled : spelled kind wanted rest =
      if common.length = wanted.length then .token kind common.length
      else .stuck (min (common.length + 1) rest.length) := by
    simp only [spelled, hlength]
  have hword : ∀ v, p.Matches v → v <+: b :: rest → v = b :: wanted ∧ wanted <+: rest := by
    intro v hv hprefix
    obtain ⟨c, w, rfl, -⟩ := Pattern.first_of_matches hv
    obtain ⟨rfl, hw⟩ := List.cons_prefix_cons.mp hprefix
    obtain rfl := (hp w).mp hv
    exact ⟨rfl, hw⟩
  rw [hspelled]
  split
  · rename_i hall
    obtain rfl := hwanted.eq_of_length hall
    have hfound : Longest (b :: rest) p (b :: common) := by
      refine .of_first hb ((hp common).mpr rfl) (List.cons_prefix_cons.mpr ⟨rfl, hrest⟩) ?_
      intro v hv hprefix
      exact Nat.le_of_eq (congrArg List.length (hword v hv hprefix).1)
    exact .token hfound hkind rfl
  · rename_i hpart
    refine .stuck (.of_first hb (fun v hv hprefix => ?_) (Nat.min_le_right _ _)
      (fun n hn => ?_) ?_)
    · have hle := hlongest wanted List.prefix_rfl (hword v hv hprefix).2
      exact hpart (Nat.le_antisymm hwanted.length_le hle)
    · -- up to here the bytes are the wanted ones
      have hle : n ≤ common.length := by omega
      have htake : rest.take n <+: wanted := by
        obtain ⟨behind, rfl⟩ := hrest
        rw [List.take_append_of_le_length hle]
        exact (List.take_prefix n common).trans hwanted
      obtain ⟨v, hv⟩ := htake
      exact ⟨v, (hp _).mpr hv⟩
    · rcases Nat.lt_or_ge common.length rest.length with hlt | hge
      · refine .inr fun v hv => ?_
        have hmin : min (common.length + 1) rest.length = common.length + 1 := by omega
        rw [hmin] at hv
        have hle := hlongest (rest.take (common.length + 1)) ⟨v, (hp _).mp hv⟩
          (List.take_prefix _ _)
        rw [List.length_take] at hle
        omega
      · exact .inl (by omega)

/-- A token of one byte is read whole. -/
theorem isFront_single {p : Pattern} {kind : TokenKind} {b : UInt8} (hp : p.Matches [b])
    (hsingle : ∀ v, p.Matches v → v.length = 1) (hkind : p.kind? = some kind)
    (rest : List UInt8) : IsFront (b :: rest) (.token kind 0) := by
  have hlongest : Longest (b :: rest) p [b] := by
    refine .of_first (Pattern.first_of_matches_front hp List.prefix_rfl) hp ⟨rest, rfl⟩ ?_
    intro v hv _
    exact Nat.le_of_eq (hsingle v hv)
  exact .token hlongest hkind rfl

/-- **The front is a longest match**, or reading fails. -/
theorem isFront_front (b : UInt8) (rest : List UInt8) : IsFront (b :: rest) (front b rest) := by
  unfold front
  split
  · exact isFront_blank ‹_› rest
  split
  · rename_i hb
    exact hb ▸ isFront_comment rest
  split
  · rename_i hb
    exact isFront_single (p := .upper) ⟨b, hb, rfl⟩ (by rintro v ⟨c, -, rfl⟩; rfl) rfl rest
  split
  · rename_i hb
    exact isFront_single (p := .lower) ⟨b, hb, rfl⟩ (by rintro v ⟨c, -, rfl⟩; rfl) rfl rest
  split
  · rename_i hb
    exact hb ▸ isFront_spelled (p := .arrow) rfl (by simp [Pattern.Matches]) rfl rest
  split
  · rename_i hb
    exact hb ▸ isFront_spelled (p := .longArrow) rfl (by simp [Pattern.Matches]) rfl rest
  split
  · rename_i hb
    exact isFront_single (p := .bar) (congrArg (List.cons · []) hb) (by rintro v rfl; rfl) rfl rest
  split
  · rename_i hb
    exact hb ▸ isFront_spelled (p := .epsilon) rfl (by simp [Pattern.Matches]) rfl rest
  · exact .stuck (.of_first_none (by simp [first, *]))

/-- At most one thing stands at a front. -/
theorem IsFront.unique {bs : List UInt8} {l l' : Lexeme} (h : IsFront bs l) (h' : IsFront bs l') :
    l = l' := by
  cases h with
  | skipped h hkind hlength =>
      cases h' with
      | skipped h' _ hlength' =>
          obtain ⟨-, rfl⟩ := h.unique h'
          rw [Nat.succ.inj (hlength.symm.trans hlength')]
      | token h' hkind' _ =>
          obtain ⟨rfl, -⟩ := h.unique h'
          cases hkind.symm.trans hkind'
      | stuck h' => exact absurd h.atFront (h'.unmatched _ _ h.matched)
  | token h hkind hlength =>
      cases h' with
      | skipped h' hkind' _ =>
          obtain ⟨rfl, -⟩ := h.unique h'
          cases hkind.symm.trans hkind'
      | token h' hkind' hlength' =>
          obtain ⟨rfl, rfl⟩ := h.unique h'
          obtain rfl := Option.some.inj (hkind.symm.trans hkind')
          rw [Nat.succ.inj (hlength.symm.trans hlength')]
      | stuck h' => exact absurd h.atFront (h'.unmatched _ _ h.matched)
  | stuck h =>
      cases h' with
      | skipped h' _ _ | token h' _ _ => exact absurd h'.atFront (h.unmatched _ _ h'.matched)
      | stuck h' => rw [Nat.succ.inj (h.unique h')]

/-- **Longest match.**  `front` finds what stands at the front of the bytes. -/
theorem front_eq_iff {b : UInt8} {rest : List UInt8} {l : Lexeme} :
    front b rest = l ↔ IsFront (b :: rest) l :=
  ⟨fun h => h ▸ isFront_front b rest, fun h => (isFront_front b rest).unique h⟩

end Lexeme
end Lookahead
