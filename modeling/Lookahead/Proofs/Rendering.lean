import Lookahead.Proofs.Spelling

/-!
# Scanning undoes rendering

Marks are rendered as text with spacing before, between and behind them: any white space and any
comments, or nothing at all.

**Scanning undoes rendering** (`tokens_render`).  The scanner finds the marks again, in order, each
where it was rendered, and nothing is at fault.
-/

namespace Lookahead

/-- A mark as text. -/
def Mark.text : Mark → String
  | .nonterminal letter => .ofList [Char.ofNat ('A'.toNat + letter.val)]
  | .terminal letter => .ofList [Char.ofNat ('a'.toNat + letter.val)]
  | .epsilon => "ϵ"
  | .arrow => "->"
  | .longArrow => "→"
  | .bar => "|"

/-- A mark, and what is rendered between it and the next one or the end. -/
structure Part where
  mark : Mark
  behind : List Gap

def Part.bytes (part : Part) : List UInt8 := Text.bytes part.mark.text ++ spacing part.behind

/-- The text of some marks, with spacing before, between and behind them. -/
def render (lead : List Gap) (parts : List Part) : List UInt8 :=
  spacing lead ++ parts.flatMap Part.bytes

/-- The token that a mark is, if it is rendered at `pos`. -/
def Mark.rendered (pos : Nat) (m : Mark) : Token :=
  ⟨m.kind, Text.bytes m.text, ⟨pos, pos + (Text.bytes m.text).length⟩⟩

/-! ### Rendered text is spelled out -/

theorem Mark.bytes_text (m : Mark) : Text.bytes m.text = m.spelling := by
  cases m with
  | nonterminal letter => revert letter; decide
  | terminal letter => revert letter; decide
  | epsilon | arrow | longArrow | bar => decide

theorem Mark.token_scanned (pos : Nat) (m : Mark) : (m.scanned pos).token = m.rendered pos := by
  rw [rendered, bytes_text]
  rfl

def Part.pieces (part : Part) : List Piece := .mark part.mark :: part.behind.map .gap

theorem spell_gaps (gs : List Gap) : spell (gs.map .gap) = spacing gs := List.flatMap_map ..

theorem Part.spell_pieces (part : Part) : spell part.pieces = part.bytes := by
  rw [pieces, spell_cons, spell_gaps, Piece.spelling, bytes, Mark.bytes_text]

theorem spell_parts (parts : List Part) :
    spell (parts.flatMap Part.pieces) = parts.flatMap Part.bytes := by
  rw [spell, List.flatMap_assoc]
  exact congrArg (parts.flatMap ·) (funext Part.spell_pieces)

theorem spell_render (lead : List Gap) (parts : List Part) :
    spell (lead.map .gap ++ parts.flatMap Part.pieces) = render lead parts := by
  rw [spell_append, spell_gaps, spell_parts, render]

/-! ### The marks of rendered text -/

theorem marksFrom_gaps (gs : List Gap) (pos : Nat) : marksFrom pos (gs.map .gap) = [] := by
  induction gs generalizing pos with
  | nil => rfl
  | cons g gs ih => rw [List.map_cons, marksFrom, ih]

theorem Part.marksFrom_pieces (part : Part) (pos : Nat) :
    marksFrom pos part.pieces = [part.mark.scanned pos] := by
  rw [pieces, marksFrom, marksFrom_gaps]

/-- Each mark stands behind what is rendered of the parts before it. -/
theorem marksFrom_parts (parts : List Part) (pos : Nat) :
    marksFrom pos (parts.flatMap Part.pieces) = parts.mapIdx fun i part =>
      part.mark.scanned (pos + ((parts.take i).flatMap Part.bytes).length) := by
  induction parts generalizing pos with
  | nil => rfl
  | cons part parts ih =>
      rw [List.flatMap_cons, marksFrom_append, Part.marksFrom_pieces, Part.spell_pieces, ih,
        List.mapIdx_cons]
      simp only [List.take_succ_cons, List.flatMap_cons, List.length_append, Nat.add_assoc]
      rfl

theorem scan_render (lead : List Gap) (parts : List Part) :
    scan (render lead parts) = parts.mapIdx fun i part =>
      part.mark.scanned (render lead (parts.take i)).length := by
  rw [← spell_render, scan_spell, marksFrom_append, marksFrom_gaps, List.nil_append,
    marksFrom_parts, spell_gaps]
  simp only [render, List.length_append, Nat.zero_add]

/-- **Scanning undoes rendering.** -/
theorem tokens_render (lead : List Gap) (parts : List Part) :
    tokens (render lead parts) = (parts.mapIdx fun i part =>
        part.mark.rendered (render lead (parts.take i)).length) ∧
      firstFault? (render lead parts) = none := by
  constructor
  · refine List.ext_getElem? fun i => ?_
    simp only [tokens, scan_render, List.getElem?_map, List.getElem?_mapIdx, Option.map_map,
      Function.comp_def, Mark.token_scanned]
  · rw [firstFault?, scan_render, List.findSome?_eq_none_iff]
    intro t ht
    obtain ⟨i, hi, rfl⟩ := List.mem_mapIdx.mp ht
    rfl

end Lookahead
