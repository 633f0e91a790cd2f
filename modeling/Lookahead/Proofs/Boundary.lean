import Lookahead.Text.Utf8

/-!
# Character boundaries

The UTF-8 form of a string can be cut where a character begins.  Two kinds of places are known to be
such: those in front of a byte that does not continue a character (`exists_cut`), and those behind
the form of a string that stands in front (`exists_rest`).  An ASCII byte is a character of its own,
so a string can also be cut behind it (`exists_cut_ascii`), and it is found among the bytes only where
it is found among the characters (`mem_of_ascii_mem_bytes`).
-/

namespace Lookahead.Text

/-- A place, by its number of bytes, at which a string can be cut between two characters. -/
def IsBoundary (s : String) (i : Int) : Prop :=
  ∃ before behind : String, s = before ++ behind ∧ (bytes before).length = i

theorem bytes_append (s t : String) : bytes (s ++ t) = bytes s ++ bytes t := by
  simp [bytes]

theorem bytes_ofList (cs : List Char) :
    bytes (String.ofList cs) = cs.flatMap String.utf8EncodeChar := by
  simp [bytes]

/-! ### One character -/

theorem isContinuation_ofNat {n : Nat} (h : 0x80 ≤ n) (h' : n < 0xC0) :
    isContinuation (UInt8.ofNat n) := by
  have hn : (UInt8.ofNat n).toNat = n := by
    rw [UInt8.toNat_ofNat']
    omega
  simp only [isContinuation, Bool.and_eq_true, decide_eq_true_eq, UInt8.le_iff_toNat_le,
    UInt8.lt_iff_toNat_lt, hn]
  exact ⟨h, h'⟩

/-- Behind its first byte, a character has bytes that continue it. -/
theorem isContinuation_of_mem_tail {c : Char} {b : UInt8}
    (h : b ∈ (String.utf8EncodeChar c).tail) : isContinuation b := by
  unfold String.utf8EncodeChar at h
  dsimp only at h
  split at h
  · simp at h
  split at h
  · simp only [List.tail_cons, List.mem_singleton] at h
    exact h ▸ isContinuation_ofNat (by omega) (by omega)
  split at h
  · simp only [List.tail_cons, List.mem_cons, List.not_mem_nil, or_false] at h
    rcases h with rfl | rfl <;> exact isContinuation_ofNat (by omega) (by omega)
  · simp only [List.tail_cons, List.mem_cons, List.not_mem_nil, or_false] at h
    rcases h with rfl | rfl | rfl <;> exact isContinuation_ofNat (by omega) (by omega)

/-- A character is known from the front of what it begins. -/
theorem eq_of_utf8EncodeChar_append {c d : Char} {x y : List UInt8}
    (h : String.utf8EncodeChar c ++ x = String.utf8EncodeChar d ++ y) : c = d ∧ x = y := by
  have hdecode := congrArg (fun bs => bs.toByteArray.utf8DecodeChar? 0) h
  simp only [List.toByteArray_append, ByteArray.utf8DecodeChar?_utf8EncodeChar_append] at hdecode
  obtain rfl := Option.some.inj hdecode
  exact ⟨rfl, List.append_cancel_left h⟩

/-! ### Cuts -/

theorem exists_cut_chars {cs : List Char} {x y : List UInt8}
    (h : cs.flatMap String.utf8EncodeChar = x ++ y) (hy : ∀ b ∈ y.head?, ¬ isContinuation b) :
    ∃ before behind, cs = before ++ behind ∧ before.flatMap String.utf8EncodeChar = x ∧
      behind.flatMap String.utf8EncodeChar = y := by
  induction cs generalizing x with
  | nil =>
      obtain ⟨rfl, rfl⟩ := List.append_eq_nil_iff.mp h.symm
      exact ⟨[], [], rfl, rfl, rfl⟩
  | cons c cs ih =>
      rw [List.flatMap_cons] at h
      cases x with
      | nil => exact ⟨[], c :: cs, rfl, rfl, h⟩
      | cons a x =>
          rcases List.append_eq_append_iff.mp h with ⟨x', hx, hcs⟩ | ⟨inside, hc, rfl⟩
          · obtain ⟨before, behind, rfl, rfl, rfl⟩ := ih hcs
            exact ⟨c :: before, behind, rfl, hx.symm, rfl⟩
          · -- the cut is not inside the character, whose later bytes continue it
            cases inside with
            | nil => exact ⟨[c], cs, rfl, by simpa using hc, rfl⟩
            | cons b inside =>
                have hb : b ∈ (String.utf8EncodeChar c).tail := by simp [hc]
                exact absurd (isContinuation_of_mem_tail hb) (hy b rfl)

theorem exists_rest_chars {cs ds : List Char} {y : List UInt8}
    (h : cs.flatMap String.utf8EncodeChar = ds.flatMap String.utf8EncodeChar ++ y) :
    ∃ behind, cs = ds ++ behind ∧ behind.flatMap String.utf8EncodeChar = y := by
  induction ds generalizing cs with
  | nil => exact ⟨cs, rfl, h⟩
  | cons d ds ih =>
      cases cs with
      | nil => simp [String.utf8EncodeChar_ne_nil] at h
      | cons c cs =>
          simp only [List.flatMap_cons, List.append_assoc] at h
          obtain ⟨rfl, htail⟩ := eq_of_utf8EncodeChar_append h
          obtain ⟨behind, rfl, hy⟩ := ih htail
          exact ⟨behind, rfl, hy⟩

/-- In front of a byte that continues no character, a string can be cut. -/
theorem exists_cut {s : String} {x y : List UInt8} (h : bytes s = x ++ y)
    (hy : ∀ b ∈ y.head?, ¬ isContinuation b) :
    ∃ before behind : String, s = before ++ behind ∧ bytes before = x ∧ bytes behind = y := by
  obtain ⟨before, behind, hs, hx, hy⟩ := exists_cut_chars h hy
  refine ⟨.ofList before, .ofList behind, ?_, ?_, ?_⟩
  · rw [← String.ofList_append, ← hs, String.ofList_toList]
  · rw [bytes_ofList, hx]
  · rw [bytes_ofList, hy]

/-- Behind the form of a string, another string goes on. -/
theorem exists_rest {s t : String} {y : List UInt8} (h : bytes s = bytes t ++ y) :
    ∃ behind : String, s = t ++ behind ∧ bytes behind = y := by
  obtain ⟨behind, hs, hy⟩ := exists_rest_chars h
  refine ⟨.ofList behind, ?_, ?_⟩
  · rw [← String.ofList_toList (s := s), hs, String.ofList_append, String.ofList_toList]
  · rw [bytes_ofList, hy]

theorem not_isContinuation_of_ascii {b : UInt8} (hb : b < 0x80) : ¬ isContinuation b := by
  intro h
  simp only [isContinuation, Bool.and_eq_true, decide_eq_true_eq] at h
  exact absurd hb (UInt8.not_lt.mpr h.1)

/-- An ASCII byte is a character of its own. -/
theorem utf8EncodeChar_ascii {b : UInt8} (hb : b < 0x80) :
    String.utf8EncodeChar (Char.ofNat b.toNat) = [b] := by
  have hform : ∀ n < 0x80, String.utf8EncodeChar (Char.ofNat n) = [UInt8.ofNat n] := by decide
  rw [hform b.toNat (UInt8.lt_iff_toNat_lt.mp hb), UInt8.ofNat_toNat]

theorem exists_bytes_ascii {b : UInt8} (hb : b < 0x80) : ∃ t : String, bytes t = [b] := by
  refine ⟨.ofList [Char.ofNat b.toNat], ?_⟩
  rw [bytes_ofList, List.flatMap_singleton, utf8EncodeChar_ascii hb]

/-- An ASCII byte is in the form of no other character. -/
theorem eq_of_ascii_mem {c : Char} {b : UInt8} (hb : b < 0x80)
    (h : b ∈ String.utf8EncodeChar c) : c = Char.ofNat b.toNat := by
  cases hform : String.utf8EncodeChar c with
  | nil => exact absurd hform String.utf8EncodeChar_ne_nil
  | cons a rest =>
      rw [hform] at h
      rcases List.mem_cons.mp h with rfl | h
      · have hfront : String.utf8EncodeChar c ++ [] =
            String.utf8EncodeChar (Char.ofNat b.toNat) ++ rest := by
          rw [hform, utf8EncodeChar_ascii hb, List.append_nil, List.singleton_append]
        exact (eq_of_utf8EncodeChar_append hfront).1
      · have htail : b ∈ (String.utf8EncodeChar c).tail := by rwa [hform]
        exact absurd (isContinuation_of_mem_tail htail) (not_isContinuation_of_ascii hb)

theorem mem_of_ascii_mem_bytes {s : String} {b : UInt8} (hb : b < 0x80) (h : b ∈ bytes s) :
    Char.ofNat b.toNat ∈ s.toList := by
  obtain ⟨c, hc, hmem⟩ := List.mem_flatMap.mp h
  rwa [← eq_of_ascii_mem hb hmem]

/-- Behind an ASCII byte, a string can be cut. -/
theorem exists_cut_ascii {s : String} {x y : List UInt8} {b : UInt8} (hb : b < 0x80)
    (h : bytes s = x ++ [b] ++ y) :
    ∃ before behind : String, s = before ++ behind ∧ bytes before = x ++ [b] ∧
      bytes behind = y := by
  rw [List.append_assoc] at h
  obtain ⟨before, rest, rfl, rfl, hrest⟩ :=
    exists_cut h (by simpa using not_isContinuation_of_ascii hb)
  obtain ⟨t, ht⟩ := exists_bytes_ascii hb
  obtain ⟨behind, rfl, rfl⟩ := exists_rest (hrest.trans (congrArg (· ++ y) ht.symm))
  exact ⟨before ++ t, behind, String.append_assoc.symm, by rw [bytes_append, ht], rfl⟩

end Lookahead.Text
