import Lookahead.Token.Lexer

/-!
# Scanning what is spelled out

A text can be put together from pieces: marks, each of which is a legal token as it can be written,
and gaps, each a character of white space or a comment.  No mark can go on into what is written
behind it, so marks and gaps may follow one another in any way.

**Scanning undoes spelling** (`scan_spell`).  The scanner finds the marks of a text in order, each
where it was written, and nothing else.
-/

namespace Lookahead

/-! ### Marks and gaps -/

/-- A legal token as it can be written. -/
inductive Mark where
  | nonterminal (letter : Fin 26)
  | terminal (letter : Fin 26)
  | epsilon
  /-- The arrow `->`. -/
  | arrow
  /-- The arrow `→`. -/
  | longArrow
  | bar
deriving DecidableEq, Repr

namespace Mark

def kind : Mark → TokenKind
  | .nonterminal _ => .nonterminal
  | .terminal _ => .terminal
  | .epsilon => .epsilon
  | .arrow | .longArrow => .arrow
  | .bar => .bar

/-- The bytes of a mark. -/
def spelling : Mark → List UInt8
  | .nonterminal letter => [UInt8.ofNat (0x41 + letter.val)]
  | .terminal letter => [UInt8.ofNat (0x61 + letter.val)]
  | .epsilon => [0xCF, 0xB5]
  | .arrow => [0x2D, 0x3E]
  | .longArrow => [0xE2, 0x86, 0x92]
  | .bar => [0x7C]

/-- A mark that is read at `pos`. -/
def scanned (pos : Nat) (m : Mark) : Scanned := .legal pos m.kind m.spelling

end Mark

/-- What may stand between marks. -/
inductive Gap where
  | space (b : UInt8) (h : Lexeme.isSpace b)
  | comment (inner : List UInt8) (h : 0x7D ∉ inner)

/-- The bytes of a gap. -/
def Gap.spelling : Gap → List UInt8
  | .space b _ => [b]
  | .comment inner _ => 0x7B :: (inner ++ [0x7D])

/-- The bytes of some gaps. -/
def spacing (gs : List Gap) : List UInt8 := gs.flatMap Gap.spelling

/-- A mark or a gap. -/
inductive Piece where
  | mark (m : Mark)
  | gap (g : Gap)

/-- The bytes of a piece. -/
def Piece.spelling : Piece → List UInt8
  | .mark m => m.spelling
  | .gap g => g.spelling

/-- The text that is put together from some pieces. -/
def spell (ps : List Piece) : List UInt8 := ps.flatMap Piece.spelling

/-- The marks among some pieces that are written from `pos` on, each where it stands. -/
def marksFrom (pos : Nat) : List Piece → List Scanned
  | [] => []
  | .mark m :: rest => m.scanned pos :: marksFrom (pos + m.spelling.length) rest
  | .gap g :: rest => marksFrom (pos + g.spelling.length) rest

@[simp] theorem spell_nil : spell [] = [] := rfl

@[simp] theorem spell_cons (p : Piece) (ps : List Piece) :
    spell (p :: ps) = p.spelling ++ spell ps := rfl

@[simp] theorem spell_append (ps qs : List Piece) : spell (ps ++ qs) = spell ps ++ spell qs :=
  List.flatMap_append

theorem marksFrom_append (ps qs : List Piece) (pos : Nat) :
    marksFrom pos (ps ++ qs) = marksFrom pos ps ++ marksFrom (pos + (spell ps).length) qs := by
  induction ps generalizing pos with
  | nil => rfl
  | cons p rest ih =>
      rw [spell_cons, List.length_append, ← Nat.add_assoc]
      cases p with
      | mark m => rw [List.cons_append, marksFrom, marksFrom, ih, List.cons_append, Piece.spelling]
      | gap g => rw [List.cons_append, marksFrom, marksFrom, ih, Piece.spelling]

/-! ### Fronts -/

namespace Lexeme

theorem spelled_append (kind : TokenKind) (wanted rest : List UInt8) :
    spelled kind wanted (wanted ++ rest) = .token kind wanted.length := by
  have hagree : ((wanted.zip (wanted ++ rest)).takeWhile fun pair => pair.1 == pair.2).length =
      wanted.length := by
    induction wanted with
    | nil => rfl
    | cons b wanted ih => simp [ih]
  simp only [spelled, hagree, if_true]

theorem ne_closing_of_notMem {bs : List UInt8} (h : 0x7D ∉ bs) : ∀ b ∈ bs, (b != 0x7D) = true := by
  intro b hb
  simpa using fun e : b = 0x7D => h (e ▸ hb)

theorem takeWhile_closing {inner : List UInt8} (h : 0x7D ∉ inner) (rest : List UInt8) :
    (inner ++ 0x7D :: rest).takeWhile (fun b => b != 0x7D) = inner := by
  rw [List.takeWhile_append_of_pos (ne_closing_of_notMem h)]
  simp

theorem comment_append {inner : List UInt8} (h : 0x7D ∉ inner) (rest : List UInt8) :
    comment (inner ++ 0x7D :: rest) = .skipped (inner.length + 1) := by
  simp [comment, takeWhile_closing h]

theorem front_nonterminal (letter : Fin 26) (rest : List UInt8) :
    front (UInt8.ofNat (0x41 + letter.val)) rest = .token .nonterminal 0 := by
  have hb : ∀ i : Fin 26, isSpace (UInt8.ofNat (0x41 + i.val)) = false ∧
      UInt8.ofNat (0x41 + i.val) ≠ 0x7B ∧ 0x41 ≤ UInt8.ofNat (0x41 + i.val) ∧
      UInt8.ofNat (0x41 + i.val) ≤ 0x5A := by decide
  obtain ⟨hspace, hbrace, hle, hge⟩ := hb letter
  simp only [front, hspace, hbrace, hle, hge, and_self, if_true, if_false, Bool.false_eq_true]

theorem front_terminal (letter : Fin 26) (rest : List UInt8) :
    front (UInt8.ofNat (0x61 + letter.val)) rest = .token .terminal 0 := by
  have hb : ∀ i : Fin 26, isSpace (UInt8.ofNat (0x61 + i.val)) = false ∧
      UInt8.ofNat (0x61 + i.val) ≠ 0x7B ∧ ¬ UInt8.ofNat (0x61 + i.val) ≤ 0x5A ∧
      0x61 ≤ UInt8.ofNat (0x61 + i.val) ∧ UInt8.ofNat (0x61 + i.val) ≤ 0x7A := by decide
  obtain ⟨hspace, hbrace, hupper, hle, hge⟩ := hb letter
  simp only [front, hspace, hbrace, hupper, hle, hge, and_self, and_false, if_true, if_false,
    Bool.false_eq_true]

/-- **A mark is read whole**, whatever is written behind it. -/
theorem front_mark (m : Mark) :
    ∃ b more, m.spelling = b :: more ∧
      ∀ rest, front b (more ++ rest) = .token m.kind more.length := by
  cases m with
  | nonterminal letter => exact ⟨_, [], rfl, front_nonterminal letter⟩
  | terminal letter => exact ⟨_, [], rfl, front_terminal letter⟩
  | epsilon => exact ⟨0xCF, [0xB5], rfl, spelled_append .epsilon [0xB5]⟩
  | arrow => exact ⟨0x2D, [0x3E], rfl, spelled_append .arrow [0x3E]⟩
  | longArrow => exact ⟨0xE2, [0x86, 0x92], rfl, spelled_append .arrow [0x86, 0x92]⟩
  | bar => exact ⟨0x7C, [], rfl, fun _ => rfl⟩

end Lexeme

/-! ### Scanning -/

theorem scanFrom_length_append (read rest : List UInt8) (pos : Nat) :
    scanFrom read.length pos (read ++ rest) = scanFrom 0 (pos + read.length) rest := by
  induction read generalizing pos with
  | nil => rfl
  | cons b read ih =>
      rw [List.cons_append, List.length_cons, scanFrom, ih, Nat.add_assoc, Nat.add_comm 1]

theorem scanFrom_mark (m : Mark) (pos : Nat) (rest : List UInt8) :
    scanFrom 0 pos (m.spelling ++ rest) =
      m.scanned pos :: scanFrom 0 (pos + m.spelling.length) rest := by
  obtain ⟨b, more, hm, hfront⟩ := Lexeme.front_mark m
  rw [Mark.scanned, hm, List.cons_append, scanFrom, hfront]
  simp only [List.take_left, scanFrom_length_append, List.length_cons, Nat.add_assoc,
    Nat.add_comm 1]

/-- White space may be passed over a character at a time. -/
theorem scanFrom_takeWhile_isSpace (pos : Nat) (rest : List UInt8) :
    scanFrom (rest.takeWhile Lexeme.isSpace).length pos rest = scanFrom 0 pos rest := by
  cases rest with
  | nil => rfl
  | cons b rest =>
      by_cases hb : Lexeme.isSpace b
      · simp [hb, scanFrom, Lexeme.front]
      · simp [hb]

theorem scanFrom_gap (g : Gap) (pos : Nat) (rest : List UInt8) :
    scanFrom 0 pos (g.spelling ++ rest) = scanFrom 0 (pos + g.spelling.length) rest := by
  cases g with
  | space b hb =>
      have hfront : Lexeme.front b rest = .skipped (rest.takeWhile Lexeme.isSpace).length := by
        rw [Lexeme.front, if_pos hb]
      rw [Gap.spelling, List.singleton_append, scanFrom, hfront]
      exact scanFrom_takeWhile_isSpace (pos + 1) rest
  | comment inner h =>
      have hfront : Lexeme.front 0x7B (inner ++ [0x7D] ++ rest) = .skipped (inner.length + 1) := by
        rw [List.append_assoc]
        exact Lexeme.comment_append h rest
      calc scanFrom 0 pos (0x7B :: (inner ++ [0x7D]) ++ rest)
        _ = scanFrom (inner.length + 1) (pos + 1) (inner ++ [0x7D] ++ rest) := by
            rw [List.cons_append, scanFrom, hfront]
        _ = scanFrom 0 (pos + 1 + (inner ++ [0x7D]).length) rest := by
            rw [← scanFrom_length_append, List.length_append, List.length_singleton]
        _ = scanFrom 0 (pos + (0x7B :: (inner ++ [0x7D])).length) rest := by
            rw [List.length_cons, Nat.add_assoc, Nat.add_comm 1]

/-- **Scanning undoes spelling**, wherever the text stands. -/
theorem scanFrom_spell (ps : List Piece) (pos : Nat) :
    scanFrom 0 pos (spell ps) = marksFrom pos ps := by
  induction ps generalizing pos with
  | nil => rfl
  | cons p rest ih =>
      cases p with
      | mark m => rw [spell_cons, Piece.spelling, scanFrom_mark, marksFrom, ih]
      | gap g => rw [spell_cons, Piece.spelling, scanFrom_gap, marksFrom, ih]

theorem scan_spell (ps : List Piece) : scan (spell ps) = marksFrom 0 ps := scanFrom_spell ps 0

end Lookahead
