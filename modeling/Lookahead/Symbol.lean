/-!
# Symbols

A grammar is written over single characters.  The letters `A` to `Z` are nonterminals, `a` to `z`
are terminals, `ϵ` is the empty word and `←` the end of input.  A character that is none of these
names no symbol; `Symbol.absent` stands in its place, so that a rule with a hole in it can still be
written down and refused.

Symbols are ordered by their characters.  Different symbols have different characters
(`Symbol.char_injective`), so this order is the order of a set of symbols, and it lists
nonterminals before terminals before `ϵ` before `←`.
-/

namespace Lookahead

/-- An atom of a grammar. -/
inductive Symbol where
  /-- No symbol at all. -/
  | absent
  /-- One of the letters `A` to `Z`, by its place in the alphabet. -/
  | nonterminal (letter : Fin 26)
  /-- One of the letters `a` to `z`, by its place in the alphabet. -/
  | terminal (letter : Fin 26)
  /-- The empty word `ϵ`. -/
  | epsilon
  /-- The end of input `←`. -/
  | endMarker
deriving DecidableEq, Repr

namespace Symbol

/-! ### Kinds -/

def isNonterminal : Symbol → Bool
  | .nonterminal _ => true
  | _ => false

def isTerminal : Symbol → Bool
  | .terminal _ => true
  | _ => false

def isEpsilon : Symbol → Bool
  | .epsilon => true
  | _ => false

def isEndMarker : Symbol → Bool
  | .endMarker => true
  | _ => false

def isAbsent : Symbol → Bool
  | .absent => true
  | _ => false

/-! ### Characters -/

/-- The character that writes a symbol; the absent symbol is written as the character zero. -/
def char : Symbol → Char
  | .absent => Char.ofNat 0
  | .nonterminal letter => Char.ofNat (65 + letter.val)
  | .terminal letter => Char.ofNat (97 + letter.val)
  | .epsilon => 'ϵ'
  | .endMarker => '←'

/-- The place of `c` among the 26 letters that begin with `first`. -/
def letterFrom (first c : Char) : Option (Fin 26) :=
  if h : first.toNat ≤ c.toNat ∧ c.toNat < first.toNat + 26 then
    some ⟨c.toNat - first.toNat, by omega⟩
  else
    none

/-- The symbol that `c` writes, if it writes one. -/
def ofChar? (c : Char) : Option Symbol :=
  if c = 'ϵ' then some .epsilon
  else if c = '←' then some .endMarker
  else ((letterFrom 'A' c).map .nonterminal).orElse fun _ => (letterFrom 'a' c).map .terminal

/-- The symbol that `c` writes, absent if it writes none. -/
def ofChar (c : Char) : Symbol := (ofChar? c).getD .absent

/-- A symbol as text; an absent one shows as `<none>`. -/
def text : Symbol → String
  | .absent => "<none>"
  | X => X.char.toString

/-- The symbols written by the characters of a string. -/
def word (s : String) : List Symbol := s.toList.map ofChar

/-! ### The dense index -/

/-- How many symbols there are, the absent one not counted. -/
def count : Nat := 54

/-- The place of a symbol among all symbols, `-1` for the absent one. -/
def index : Symbol → Int
  | .absent => -1
  | .nonterminal letter => letter.val
  | .terminal letter => 26 + letter.val
  | .epsilon => 52
  | .endMarker => 53

/-- The symbol at a place, absent outside the places of symbols. -/
def atIndex : Int → Symbol
  | .ofNat i =>
    if h : i < 26 then .nonterminal ⟨i, h⟩
    else if h : i < 52 then .terminal ⟨i - 26, by omega⟩
    else if i = 52 then .epsilon
    else if i = 53 then .endMarker
    else .absent
  | .negSucc _ => .absent

@[simp] theorem atIndex_index (X : Symbol) : atIndex X.index = X := by
  cases X with
  | absent => rfl
  | nonterminal i => revert i; decide
  | terminal i => revert i; decide
  | epsilon => rfl
  | endMarker => rfl

/-! ### Order -/

/-- One symbol stands before another if its character does. -/
instance : LT Symbol where
  lt X Y := X.char.toNat < Y.char.toNat

instance (X Y : Symbol) : Decidable (X < Y) := Nat.decLt _ _

theorem lt_iff {X Y : Symbol} : X < Y ↔ X.char.toNat < Y.char.toNat := Iff.rfl

/-- Every symbol is read back from its character, the absent one as absent. -/
@[simp] theorem ofChar_char (X : Symbol) : ofChar X.char = X := by
  cases X with
  | absent => rfl
  | nonterminal i => revert i; decide
  | terminal i => revert i; decide
  | epsilon => rfl
  | endMarker => rfl

/-- Different symbols are written by different characters. -/
theorem char_injective {X Y : Symbol} (h : X.char = Y.char) : X = Y := by
  rw [← ofChar_char X, h, ofChar_char]

end Symbol

end Lookahead
