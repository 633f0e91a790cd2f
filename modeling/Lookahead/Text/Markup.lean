/-!
# Markup

Text for a screen can carry markup of two kinds.  A *tag* is a name in angle brackets, made of
letters and the characters `_ = , ;`; the name may be empty, and a slash may stand before it.  Text
counts as tagged only if it holds the closing tag `</>`.  A *colour code* is the escape character,
an opening bracket, at least one digit, semicolon or question mark, and the letter `m`.

Text is shown without either.  Where tags are taken out, what stood around them can form tags
again, so tags are taken out until no closing tag is left.  Colour codes are taken out in one pass,
and tags once more behind it, since a code can stand inside a tag.

All markup is ASCII, so bytes are looked at one by one; those that are part of no character are left
alone.
-/

namespace Lookahead.Text

/-- The character of a byte, its number being that of the byte. -/
def asChar (b : UInt8) : Char := Char.ofNat b.toNat

/-- The byte that begins a colour code. -/
def escape : UInt8 := 0x1B

/-- A byte of a tag's name. -/
def isTagByte (b : UInt8) : Bool :=
  (asChar b).isAlpha || ['_', '=', ',', ';'].contains (asChar b)

/-- A byte between the bracket and the letter of a colour code. -/
def isCodeByte (b : UInt8) : Bool := (asChar b).isDigit || [';', '?'].contains (asChar b)

/-- The length of a piece of which `n` bytes have been read: bytes of a class up to and with the
character `last`; zero if another byte comes first. -/
def lengthTo (inClass : UInt8 → Bool) (last : Char) (n : Nat) : List UInt8 → Nat
  | [] => 0
  | b :: bs =>
    if asChar b = last then n + 1
    else if inClass b then lengthTo inClass last (n + 1) bs
    else 0

/-- The closing tag. -/
def closingTag : List UInt8 := [0x3C, 0x2F, 0x3E]

/-- The length of the tag at the front, zero if there is none. -/
def tagLength : List UInt8 → Nat
  | 0x3C :: 0x2F :: bs => lengthTo isTagByte '>' 2 bs
  | 0x3C :: bs => lengthTo isTagByte '>' 1 bs
  | _ => 0

/-- The length of the colour code at the front, zero if there is none. -/
def codeLength : List UInt8 → Nat
  | e :: 0x5B :: b :: bs =>
    if e = escape ∧ isCodeByte b then lengthTo isCodeByte 'm' 3 bs else 0
  | _ => 0

/-- Leaves out the next `skip` bytes, and behind them each piece to which `len` gives a length, from
left to right. -/
def eraseMatches (len : List UInt8 → Nat) : (skip : Nat) → List UInt8 → List UInt8
  | _, [] => []
  | skip + 1, _ :: bs => eraseMatches len skip bs
  | 0, b :: bs =>
    match len (b :: bs) with
    | 0 => b :: eraseMatches len 0 bs
    | n + 1 => eraseMatches len n bs

/-- The closing tag occurs. -/
def hasClosing : List UInt8 → Bool
  | [] => false
  | b :: bs => closingTag.isPrefixOf (b :: bs) || hasClosing bs

theorem length_eraseMatches_le (len : List UInt8 → Nat) (skip : Nat) (bs : List UInt8) :
    (eraseMatches len skip bs).length ≤ bs.length := by
  fun_induction eraseMatches len skip bs with
  | case1 => simp
  | case2 skip b bs ih => exact Nat.le_succ_of_le ih
  | case3 b bs _ ih => exact Nat.succ_le_succ ih
  | case4 b bs n _ ih => exact Nat.le_succ_of_le ih

/-- A pass over tagged text takes out at least the closing tag. -/
theorem length_eraseMatches_lt {bs : List UInt8} (h : hasClosing bs) :
    (eraseMatches tagLength 0 bs).length < bs.length := by
  induction bs with
  | nil => simp [hasClosing] at h
  | cons b bs ih =>
    rw [eraseMatches]
    split
    · rename_i hlen
      refine Nat.succ_lt_succ (ih ?_)
      rw [hasClosing, Bool.or_eq_true] at h
      refine h.resolve_left fun hfront => ?_
      obtain ⟨rest, hrest⟩ := List.isPrefixOf_iff_prefix.1 hfront
      rw [← hrest] at hlen
      simp [closingTag, tagLength, lengthTo, asChar] at hlen
    · exact Nat.lt_succ_of_le (length_eraseMatches_le ..)

/-- Text without its tags, as far as it is tagged. -/
def dropTags (bs : List UInt8) : List UInt8 :=
  if hasClosing bs then dropTags (eraseMatches tagLength 0 bs) else bs
termination_by bs.length
decreasing_by exact length_eraseMatches_lt ‹_›

/-- Text without its colour codes. -/
def dropCodes (bs : List UInt8) : List UInt8 := eraseMatches codeLength 0 bs

/-- Text as it is shown, without markup. -/
def shown (bs : List UInt8) : List UInt8 := dropTags (dropCodes (dropTags bs))

end Lookahead.Text
