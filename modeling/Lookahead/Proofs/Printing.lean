import Mathlib.Data.List.Basic
import Lookahead.Proofs.Boundary
import Lookahead.Proofs.RuleText
import Lookahead.Proofs.Spelling

/-!
# Printed grammars are read back

A grammar is printed as rule text, a line for each definition.  Such a line is put together from
pieces (`Definition.pieces`), so the scanner finds in it the letters, arrow and bars that were
printed, and these write the definition (`Definition.writesRule_text`).

Two things are lost in print: a definition without alternatives and an alternative without symbols
both leave nothing between the arrow and the bars.  A grammar that has neither is `Explicit`, and so
is every grammar that was read (`RuleText.explicit_of_parse`).

**Printed grammars are read back** (`RuleText.parse_lines`): reading the lines of an explicit
grammar gives the grammar again, whatever the texts it was first read from looked like.
-/

namespace Lookahead

/-! ### Text in bytes and in lines -/

theorem flatMap_intercalate {α β : Type} (f : α → List β) (sep : List α) (ls : List (List α)) :
    (sep.intercalate ls).flatMap f = (sep.flatMap f).intercalate (ls.map (List.flatMap f)) := by
  induction ls with
  | nil => rfl
  | cons l rest ih =>
      cases rest with
      | nil => simp
      | cons m rest =>
          simp only [List.intercalate_cons_cons, List.flatMap_append, ih, List.map_cons]

namespace Text

theorem bytes_intercalate (sep : String) (ls : List String) :
    bytes (sep.intercalate ls) = (bytes sep).intercalate (ls.map bytes) := by
  rw [bytes, String.toList_intercalate, flatMap_intercalate, List.map_map]
  rfl

/-- A text without line feeds is a single line. -/
theorem lines_of_lineFeed_notMem {text : List UInt8} (h : lineFeed ∉ text) :
    lines text = [text] := by
  induction text with
  | nil => rfl
  | cons b text ih =>
      rw [List.mem_cons, not_or] at h
      obtain ⟨hfirst, hrest⟩ := List.cons.inj (ih h.2)
      rw [lines_cons (Ne.symm h.1), hfirst, hrest]

end Text

/-! ### Pieces of a printed definition -/

/-- The space that is printed between words. -/
def Piece.blank : Piece := .gap (.space 0x20 rfl)

/-- A symbol as it is printed.  Neither the absent symbol nor the end marker is ever printed. -/
def Symbol.pieces : Symbol → List Piece
  | .nonterminal letter => [.mark (.nonterminal letter)]
  | .terminal letter => [.mark (.terminal letter)]
  | .epsilon => [.mark .epsilon]
  | .absent | .endMarker => []

/-- A production as it is printed. -/
def Production.pieces (p : Production) : List Piece := p.flatMap Symbol.pieces

namespace Definition

/-- What is printed between two alternatives. -/
def between : List Piece := [.blank, .mark .bar, .blank]

/-- A definition as it is printed. -/
def pieces (d : Definition) : List Piece :=
  d.lhs.pieces ++ [.blank, .mark .arrow, .blank] ++
    between.intercalate (d.alternatives.map Production.pieces)

end Definition

/-! ### The bytes that are printed -/

theorem Symbol.spell_pieces {X : Symbol}
    (h : X.isNonterminal ∨ X.isTerminal ∨ X = .epsilon) :
    spell X.pieces = String.utf8EncodeChar X.char := by
  cases X with
  | nonterminal i => revert i; decide
  | terminal i => revert i; decide
  | epsilon => decide
  | absent | endMarker => simp [isNonterminal, isTerminal] at h

theorem Production.spell_pieces {p : Production} (h : p.Proper) :
    spell p.pieces = Text.bytes p.text := by
  have hkind : ∀ X ∈ p, X.isNonterminal ∨ X.isTerminal ∨ X = .epsilon := by
    intro X hX
    rcases h with rfl | h
    · exact .inr (.inr (List.mem_singleton.mp hX))
    · exact (h X hX).imp_right .inl
  rw [spell, pieces, List.flatMap_assoc, Text.bytes, text, String.toList_ofList,
    List.flatMap_map]
  exact List.flatMap_congr fun X hX => Symbol.spell_pieces (hkind X hX)

theorem Symbol.text_of_isNonterminal {X : Symbol} (h : X.isNonterminal) :
    X.text = X.char.toString := by
  cases X with
  | nonterminal i => rfl
  | _ => cases h

/-- The bytes of a printed definition. -/
theorem Definition.spell_pieces {d : Definition} (hlhs : d.lhs.isNonterminal)
    (hproper : ∀ p ∈ d.alternatives, p.Proper) : spell d.pieces = Text.bytes d.text := by
  have hside : spell d.lhs.pieces = Text.bytes d.lhs.text := by
    rw [Symbol.spell_pieces (.inl hlhs), Symbol.text_of_isNonterminal hlhs]
    simp [Text.bytes, Char.toString]
  have hright : spell (between.intercalate (d.alternatives.map Production.pieces)) =
      Text.bytes (" | ".intercalate (d.alternatives.map Production.text)) := by
    have hbar : between.flatMap Piece.spelling = Text.bytes " | " := by decide
    rw [spell, flatMap_intercalate, Text.bytes_intercalate, List.map_map, List.map_map, hbar]
    exact congrArg _ (List.map_congr_left fun p hp => Production.spell_pieces (hproper p hp))
  have harrow : spell [.blank, .mark .arrow, .blank] = Text.bytes " -> " := by decide
  rw [pieces, text, spell_append, spell_append, Text.bytes_append, Text.bytes_append, hside, hright,
    harrow]

/-! ### The tokens that are printed -/

theorem Mark.symbol_nonterminal (letter : Fin 26) (pos : Nat) :
    ((Mark.nonterminal letter).scanned pos).token.symbol = .nonterminal letter := by
  show Symbol.ofChar (Char.ofNat (UInt8.ofNat (0x41 + letter.val)).toNat) = .nonterminal letter
  revert letter
  decide

theorem Mark.symbol_terminal (letter : Fin 26) (pos : Nat) :
    ((Mark.terminal letter).scanned pos).token.symbol = .terminal letter := by
  show Symbol.ofChar (Char.ofNat (UInt8.ofNat (0x61 + letter.val)).toNat) = .terminal letter
  revert letter
  decide

namespace Production

variable {p : Production}

/-- Printed letters are letters again, and they write the symbols that they were printed for. -/
theorem letters_pieces (h : ∀ X ∈ p, X.isNonterminal ∨ X.isTerminal) (pos : Nat) :
    (∀ t ∈ (marksFrom pos p.pieces).map Scanned.token, t.isLetter) ∧
      ((marksFrom pos p.pieces).map Scanned.token).map Token.symbol = p := by
  induction p generalizing pos with
  | nil => simp [pieces, marksFrom]
  | cons X rest ih =>
      obtain ⟨hX, hrest⟩ := List.forall_mem_cons.mp h
      cases X with
      | nonterminal i =>
          obtain ⟨hletters, hsymbols⟩ := ih hrest (pos + 1)
          exact ⟨List.forall_mem_cons.mpr ⟨rfl, hletters⟩,
            congrArg₂ List.cons (Mark.symbol_nonterminal i pos) hsymbols⟩
      | terminal i =>
          obtain ⟨hletters, hsymbols⟩ := ih hrest (pos + 1)
          exact ⟨List.forall_mem_cons.mpr ⟨rfl, hletters⟩,
            congrArg₂ List.cons (Mark.symbol_terminal i pos) hsymbols⟩
      | _ => simp [Symbol.isNonterminal, Symbol.isTerminal] at hX

/-- The tokens of a printed production write it, unless there is nothing to print. -/
theorem writesAlternative_pieces (hp : p.Proper) (hne : p ≠ []) (pos : Nat) :
    RuleText.WritesAlternative ((marksFrom pos p.pieces).map Scanned.token) p := by
  rcases hp with rfl | h
  · refine .epsilon (List.cons_ne_nil _ _) fun t ht => ?_
    rw [List.mem_singleton.mp ht]
    rfl
  · obtain ⟨hletters, hsymbols⟩ := letters_pieces h pos
    have hsome : (marksFrom pos p.pieces).map Scanned.token ≠ [] := by
      intro hnil
      rw [hnil] at hsymbols
      exact hne hsymbols.symm
    have hwrites := RuleText.WritesAlternative.letters hsome hletters
    rwa [hsymbols] at hwrites

end Production

namespace Definition

theorem writesAlternatives_pieces {ps : List Production} (hproper : ∀ p ∈ ps, p.Proper)
    (hne : ps ≠ []) (hps : ∀ p ∈ ps, p ≠ []) (pos : Nat) :
    RuleText.WritesAlternatives
      ((marksFrom pos (between.intercalate (ps.map Production.pieces))).map Scanned.token) ps := by
  induction ps generalizing pos with
  | nil => exact absurd rfl hne
  | cons p rest ih =>
      obtain ⟨hp, hrest⟩ := List.forall_mem_cons.mp hproper
      obtain ⟨hpne, hrestne⟩ := List.forall_mem_cons.mp hps
      cases rest with
      | nil => simpa using .last (Production.writesAlternative_pieces hp hpne pos)
      | cons q rest =>
          rw [List.map_cons, List.map_cons, List.intercalate_cons_cons, List.append_assoc,
            marksFrom_append, List.map_append]
          exact .more (Production.writesAlternative_pieces hp hpne pos) rfl
            (ih hrest (by simp) hrestne _)

variable {d : Definition}

/-- A printed definition is a line that writes it. -/
theorem writesRule_text (hlhs : d.lhs.isNonterminal) (hproper : ∀ p ∈ d.alternatives, p.Proper)
    (hne : d.alternatives ≠ []) (hps : ∀ p ∈ d.alternatives, p ≠ []) :
    RuleText.WritesRule (tokens (Text.bytes d.text)) d.lhs d.alternatives := by
  rw [← spell_pieces hlhs hproper, tokens, scan_spell]
  obtain ⟨A, ps⟩ := d
  cases A with
  | nonterminal i =>
      -- the alternatives begin behind the five bytes of the left side and the arrow
      have hright := writesAlternatives_pieces hproper hne hps 5
      have hwrites : RuleText.WritesRule
          (((Mark.nonterminal i).scanned 0).token :: (Mark.arrow.scanned 2).token :: _)
          ((Mark.nonterminal i).scanned 0).token.symbol ps := .intro rfl rfl hright
      rwa [Mark.symbol_nonterminal] at hwrites
  | _ => cases hlhs

end Definition

/-! ### The characters that are printed -/

/-- What is printed besides symbols. -/
def punctuation : List Char := [' ', '-', '>', '|']

/-- A character that a printed grammar may hold. -/
def Printed (c : Char) : Prop := c ∈ punctuation ∨ ∃ X : Symbol, c = X.char

/-- Neither the line feed nor the quote is ever printed. -/
theorem Printed.ne {c : Char} (h : Printed c) : c ≠ '\n' ∧ c ≠ Text.doubleQuote := by
  rcases h with h | ⟨X, rfl⟩
  · have hnone : '\n' ∉ punctuation ∧ Text.doubleQuote ∉ punctuation := by decide
    exact ⟨fun hc => hnone.1 (hc ▸ h), fun hc => hnone.2 (hc ▸ h)⟩
  · cases X with
    | nonterminal i => revert i; decide
    | terminal i => revert i; decide
    | _ => decide

theorem mem_intercalate {α : Type} {a : α} {sep : List α} {ls : List (List α)}
    (h : a ∈ sep.intercalate ls) : a ∈ sep ∨ ∃ l ∈ ls, a ∈ l := by
  induction ls with
  | nil => cases h
  | cons l rest ih =>
      cases rest with
      | nil => exact .inr ⟨l, by simp, by simpa using h⟩
      | cons m rest =>
          rw [List.intercalate_cons_cons, List.mem_append, List.mem_append] at h
          rcases h with (h | h) | h
          · exact .inr ⟨l, by simp, h⟩
          · exact .inl h
          · obtain hsep | ⟨k, hk, ha⟩ := ih h
            · exact .inl hsep
            · exact .inr ⟨k, List.mem_cons_of_mem l hk, ha⟩

theorem Definition.printed_of_mem_text {d : Definition} (hlhs : d.lhs.isNonterminal) {c : Char}
    (h : c ∈ d.text.toList) : Printed c := by
  rw [text, String.toList_append, String.toList_append, String.toList_intercalate,
    List.mem_append, List.mem_append, Symbol.text_of_isNonterminal hlhs] at h
  have harrow : " -> ".toList ⊆ punctuation := by decide
  have hbar : " | ".toList ⊆ punctuation := by decide
  rcases h with (h | h) | h
  · exact .inr ⟨d.lhs, by simpa [Char.toString] using h⟩
  · exact .inl (harrow h)
  · obtain hsep | ⟨l, hl, hc⟩ := mem_intercalate h
    · exact .inl (hbar hsep)
    · rw [List.map_map, List.mem_map] at hl
      obtain ⟨p, -, rfl⟩ := hl
      rw [Function.comp_apply, Production.text, String.toList_ofList, List.mem_map] at hc
      obtain ⟨X, -, rfl⟩ := hc
      exact .inr ⟨X, rfl⟩

namespace Grammar

variable {g : Grammar}

theorem printed_of_mem_lines {line : String} (hline : line ∈ g.lines) {c : Char}
    (hc : c ∈ line.toList) : Printed c := by
  obtain ⟨d, hd, rfl⟩ := List.mem_map.mp hline
  exact Definition.printed_of_mem_text (g.wellFormed.nonterminal d hd) hc

/-- Each printed line stays a line when it is read. -/
theorem flatMap_lines (g : Grammar) :
    (g.lines.map Text.bytes).flatMap Text.lines = g.lines.map Text.bytes := by
  have hsingle : ∀ line ∈ g.lines.map Text.bytes, Text.lines line = [line] := by
    intro text htext
    obtain ⟨line, hline, rfl⟩ := List.mem_map.mp htext
    exact Text.lines_of_lineFeed_notMem fun hmem =>
      (printed_of_mem_lines hline (Text.mem_of_ascii_mem_bytes (by decide) hmem)).ne.1 rfl
  rw [List.flatMap_congr hsingle, List.flatMap_singleton']

/-! ### Explicit grammars -/

/-- Nothing of the grammar is lost in print: every definition has an alternative, and every
alternative a symbol. -/
structure Explicit (g : Grammar) : Prop where
  alternatives_ne_nil : ∀ d ∈ g.definitions, d.alternatives ≠ []
  production_ne_nil : ∀ d ∈ g.definitions, ∀ p ∈ d.alternatives, p ≠ []

/-- The lines of an explicit grammar write its definitions. -/
theorem Explicit.written (h : g.Explicit) :
    RuleText.Written (g.lines.map Text.bytes)
      (g.definitions.map fun d => (d.lhs, d.alternatives)) := by
  have hwrites : ∀ d ∈ g.definitions,
      RuleText.WritesRule (tokens (Text.bytes d.text)) d.lhs d.alternatives := fun d hd =>
    Definition.writesRule_text (g.wellFormed.nonterminal d hd) (g.wellFormed.proper d hd)
      (h.alternatives_ne_nil d hd) (h.production_ne_nil d hd)
  rw [lines]
  generalize g.definitions = ds at hwrites
  induction ds with
  | nil => exact .nil
  | cons d rest ih =>
      obtain ⟨hd, hrest⟩ := List.forall_mem_cons.mp hwrites
      exact .rule hd (ih hrest)

end Grammar

namespace RuleText

variable {name : List UInt8} {texts lines : List (List UInt8)} {g : Grammar}

theorem WritesAlternative.ne_nil {ts : List Token} {p : Production}
    (h : WritesAlternative ts p) : p ≠ [] := by
  cases h with
  | nothing | epsilon => exact List.cons_ne_nil _ _
  | letters hne => simpa using hne

theorem WritesAlternatives.ne_nil {ts : List Token} {ps : List Production}
    (h : WritesAlternatives ts ps) : ps ≠ [] ∧ ∀ p ∈ ps, p ≠ [] := by
  induction h with
  | last h => simpa using h.ne_nil
  | more h _ _ ih => exact ⟨List.cons_ne_nil _ _, List.forall_mem_cons.mpr ⟨h.ne_nil, ih.2⟩⟩

theorem WritesRule.ne_nil {ts : List Token} {A : Symbol} {ps : List Production}
    (h : WritesRule ts A ps) : ps ≠ [] ∧ ∀ p ∈ ps, p ≠ [] := by
  obtain ⟨-, -, halternatives⟩ := h
  exact halternatives.ne_nil

theorem Written.ne_nil {rs : List (Symbol × List Production)} (h : Written lines rs) :
    ∀ r ∈ rs, r.2 ≠ [] ∧ ∀ p ∈ r.2, p ≠ [] := by
  induction h with
  | nil => simp
  | blank _ _ ih => exact ih
  | rule hline _ ih => exact List.forall_mem_cons.mpr ⟨hline.ne_nil, ih⟩

/-- A grammar that was read is explicit. -/
theorem explicit_of_parse (h : parse name texts = .ok g) : g.Explicit := by
  obtain ⟨rs, hrs, -, -, hdefinitions⟩ := written_of_parse h
  refine ⟨?_, ?_⟩
  · intro d hd
    rw [hdefinitions] at hd
    obtain ⟨⟨A, ps⟩, hr, hsub⟩ := Definition.exists_of_mem_gathered hd
    obtain ⟨p, hp⟩ := List.exists_mem_of_ne_nil ps (hrs.ne_nil _ hr).1
    exact List.ne_nil_of_mem (hsub p hp)
  · intro d hd p hp
    rw [hdefinitions] at hd
    obtain ⟨r, hr, hmem⟩ := Definition.exists_of_mem_alternatives hd hp
    exact (hrs.ne_nil r hr).2 p hmem

/-- **Printed grammars are read back.** -/
theorem parse_lines (name : List UInt8) (hg : g.isEmpty = false) (h : g.Explicit) :
    parse name (g.lines.map Text.bytes) = .ok { g with name := name } := by
  have hwritten := h.written
  rw [← g.flatMap_lines] at hwritten
  have hne : (g.definitions.map fun d => (d.lhs, d.alternatives)) ≠ [] := by
    simpa [Grammar.isEmpty] using hg
  obtain ⟨⟨name', ds, hds⟩, hparse, rfl, hdefinitions⟩ := parse_of_written name hwritten hne
  rw [Definition.gathered_of_nodup g.wellFormed.nodup] at hdefinitions
  obtain rfl : ds = g.definitions := hdefinitions
  exact hparse

theorem parse_lines_of_parse (h : parse name texts = .ok g) :
    parse name (g.lines.map Text.bytes) = .ok g := by
  obtain ⟨-, -, -, rfl, -⟩ := written_of_parse h
  exact parse_lines g.name (isEmpty_of_parse h) (explicit_of_parse h)

/-- Grammars that were read and are printed alike are alike but for their names. -/
theorem definitions_eq_of_lines_eq {name' : List UInt8} {texts' : List (List UInt8)} {g' : Grammar}
    (h : parse name texts = .ok g) (h' : parse name' texts' = .ok g')
    (hlines : g'.lines = g.lines) : g'.definitions = g.definitions := by
  have hread := parse_lines name' (isEmpty_of_parse h) (explicit_of_parse h)
  rw [← hlines, parse_lines_of_parse h'] at hread
  rw [Except.ok.inj hread]

/-- **A grammar that was read and printed is read as itself.**  However its texts were written, the
printed lines give the same grammar, and so the same rules with the same numbers, the same symbols
in the same order, the same lines and the same fingerprint.  Grammars that were read and are printed
alike have the same rules. -/
theorem reread_eq_self (h : parse name texts = .ok g) :
    parse name (g.lines.map Text.bytes) = .ok g ∧
      ∀ (name' : List UInt8) (texts' : List (List UInt8)) (g' : Grammar),
        parse name' texts' = .ok g' → g'.lines = g.lines → g'.rules = g.rules := by
  refine ⟨parse_lines_of_parse h, ?_⟩
  intro name' texts' g' h' hlines
  rw [Grammar.rules, Grammar.sides, definitions_eq_of_lines_eq h h' hlines]
  rfl

/-- A nonterminal is defined in two texts, and `ϵ` is written as a comment on a byte that is part of
no character, as a blank and as itself. -/
theorem scattered_reread :
    let stray := Text.bytes "S -> aB | \x7b" ++ [0xFF] ++ Text.bytes "\x7d\n\nB ->"
    ∃ g, parse defaultName [stray, Text.bytes "S -> c | ϵϵ"] = .ok g ∧
      g.lines = ["S -> aB | ϵ | c | ϵ", "B -> ϵ"] ∧
      parse defaultName (["S -> aB | ϵ | c | ϵ", "B -> ϵ"].map Text.bytes) = .ok g ∧
      g.rules.length = 5 := by
  intro stray
  have hread : (parse defaultName [stray, Text.bytes "S -> c | ϵϵ"]).toOption.map
      (fun g => (g.lines, g.rules.length)) = some (["S -> aB | ϵ | c | ϵ", "B -> ϵ"], 5) := by
    decide +kernel
  obtain ⟨g, hg, hprinted⟩ := Option.map_eq_some_iff.mp hread
  have hparse := toOption_eq_some_iff.mp hg
  obtain ⟨hlines, hrules⟩ := Prod.mk.inj hprinted
  exact ⟨g, hparse, hlines, hlines ▸ (reread_eq_self hparse).1, hrules⟩

end RuleText

end Lookahead
