import Lookahead.Proofs.Boundary
import Lookahead.Proofs.LongestMatch
import Lookahead.Proofs.Scan

/-!
# How tokens lie in their input

The scanner goes through its input piece by piece.  `Reads` is such a passage: every piece is either
passed over or handed out, and the passage goes on behind it (`reads_scanFrom`).  What holds of one
piece, whatever stands at its front, holds of the whole passage.

**Nothing is lost** (`Reads.isSpacing_of_mem_gapsFrom`).  What lies before, between and behind the
tokens is white space and closed comments.

**Characters stay whole** (`Reads.isWhole`).  In a text of whole characters every piece is a text of
whole characters, also where the scanner is stuck.

**The calls of a scanner** (`Scanner.call_eq`) hand out the tokens one by one, and then the end.
-/

namespace Lookahead

/-! ### Spacing -/

/-- Bytes that are put together from white space and closed comments. -/
def IsSpacing (bs : List UInt8) : Prop := ∃ gs : List Gap, bs = spacing gs

namespace IsSpacing

theorem nil : IsSpacing [] := ⟨[], rfl⟩

theorem append {xs ys : List UInt8} (hx : IsSpacing xs) (hy : IsSpacing ys) :
    IsSpacing (xs ++ ys) := by
  obtain ⟨gs, rfl⟩ := hx
  obtain ⟨hs, rfl⟩ := hy
  exact ⟨gs ++ hs, List.flatMap_append.symm⟩

theorem of_gap (g : Gap) : IsSpacing g.spelling := ⟨[g], by simp [spacing]⟩

theorem of_spaces {bs : List UInt8} (h : ∀ b ∈ bs, Lexeme.isSpace b) : IsSpacing bs := by
  induction bs with
  | nil => exact nil
  | cons b bs ih =>
      obtain ⟨hb, hbs⟩ := List.forall_mem_cons.mp h
      exact (of_gap (.space b hb)).append (ih hbs)

/-- What the patterns pass over is spacing. -/
theorem of_matches {p : Pattern} {w : List UInt8} (h : p.Matches w) (hkind : p.kind? = none) :
    IsSpacing w := by
  cases p with
  | comment =>
      obtain ⟨inner, hinner, rfl⟩ := h
      exact of_gap (.comment inner hinner)
  | blank => exact of_spaces h.2
  | upper | lower | arrow | longArrow | bar | epsilon => cases hkind

end IsSpacing

/-! ### Pieces -/

/-- Behind a word that a pattern matches, a text can be cut. -/
theorem Pattern.exists_cut {p : Pattern} {w y : List UInt8} {s : String} (hw : p.Matches w)
    (h : Text.bytes s = w ++ y) :
    ∃ before behind : String, s = before ++ behind ∧ Text.bytes before = w ∧
      Text.bytes behind = y := by
  cases p with
  | comment =>
      obtain ⟨inner, -, rfl⟩ := hw
      exact Text.exists_cut_ascii (x := 0x7B :: inner) (by decide) h
  | blank =>
      obtain ⟨hne, hspace⟩ := hw
      have hlast : w.getLast hne < 0x80 := by
        have hb := hspace _ (List.getLast_mem hne)
        simp only [Lexeme.isSpace, Bool.or_eq_true, beq_iff_eq] at hb
        rcases hb with ((hb | hb) | hb) | hb <;> rw [hb] <;> decide
      rw [← List.dropLast_concat_getLast hne] at h ⊢
      exact Text.exists_cut_ascii hlast h
  | upper | lower =>
      obtain ⟨b, hb, rfl⟩ := hw
      exact Text.exists_cut_ascii (x := []) (UInt8.lt_of_le_of_lt hb.2 (by decide)) h
  | arrow =>
      obtain rfl := hw
      exact Text.exists_cut_ascii (x := [0x2D]) (by decide) h
  | bar =>
      obtain rfl := hw
      exact Text.exists_cut_ascii (x := []) (by decide) h
  | longArrow =>
      obtain rfl := hw
      obtain ⟨behind, rfl, rfl⟩ := Text.exists_rest (t := "→") h
      exact ⟨"→", behind, rfl, rfl, rfl⟩
  | epsilon =>
      obtain rfl := hw
      obtain ⟨behind, rfl, rfl⟩ := Text.exists_rest (t := "ϵ") h
      exact ⟨"ϵ", behind, rfl, rfl, rfl⟩

namespace Lexeme

variable {b : UInt8} {rest : List UInt8} {more : Nat}

/-- How many bytes behind its first one a piece takes up. -/
def reach (rest : List UInt8) : Lexeme → Nat
  | .skipped more | .token _ more => more
  | .stuck more => extent more rest

/-- The piece at the front of `b :: rest`. -/
def read (b : UInt8) (rest : List UInt8) : List UInt8 := b :: rest.take ((front b rest).reach rest)

/-- The bytes behind the piece at the front of `b :: rest`. -/
def behind (b : UInt8) (rest : List UInt8) : List UInt8 := rest.drop ((front b rest).reach rest)

theorem read_append_behind (b : UInt8) (rest : List UInt8) :
    read b rest ++ behind b rest = b :: rest := by
  rw [read, behind, List.cons_append, List.take_append_drop]

/-- A longest match is the piece at the front. -/
theorem read_of_longest {w : List UInt8} {p : Pattern} (h : Pattern.Longest (b :: rest) p w)
    (hlength : w.length = more + 1) (hreach : (front b rest).reach rest = more) :
    read b rest = w := by
  have hw := List.prefix_iff_eq_take.mp h.atFront
  rw [hlength, List.take_succ_cons] at hw
  rw [read, hreach, hw]

theorem le_length_of_longest {w : List UInt8} {p : Pattern} (h : Pattern.Longest (b :: rest) p w)
    (hlength : w.length = more + 1) : more ≤ rest.length := by
  have hle := h.atFront.length_le
  rw [hlength] at hle
  exact Nat.le_of_succ_le_succ hle

theorem isSpacing_read (h : front b rest = .skipped more) : IsSpacing (read b rest) := by
  obtain ⟨hlongest, hkind, hlength⟩ := front_eq_iff.mp h
  rw [read_of_longest hlongest hlength (h ▸ rfl)]
  exact .of_matches hlongest.matched hkind

theorem extent_le (h : more ≤ rest.length) : extent more rest ≤ rest.length := by
  have hle := (List.takeWhile_prefix Text.isContinuation (l := rest.drop more)).length_le
  rw [List.length_drop] at hle
  rw [extent]
  omega

theorem drop_extent (more : Nat) (rest : List UInt8) :
    rest.drop (extent more rest) = (rest.drop more).dropWhile Text.isContinuation := by
  have hsplit : rest.drop more = (rest.drop more).takeWhile Text.isContinuation ++
      (rest.drop more).dropWhile Text.isContinuation := List.takeWhile_append_dropWhile.symm
  rw [extent, ← List.drop_drop]
  exact (congrArg (List.drop _) hsplit).trans List.drop_left

/-- A piece ends with its bytes at the latest. -/
theorem IsFront.reach_le {l : Lexeme} (h : IsFront (b :: rest) l) :
    l.reach rest ≤ rest.length := by
  cases h with
  | skipped h _ hlength | token h _ hlength => exact le_length_of_longest h hlength
  | stuck h => exact extent_le (Nat.le_of_succ_le_succ h.within)

theorem length_read (b : UInt8) (rest : List UInt8) :
    (read b rest).length = (front b rest).reach rest + 1 := by
  rw [read, List.length_cons, List.length_take_of_le (isFront_front b rest).reach_le]

/-- **Pieces keep characters whole.**  Where the scanner is stuck, the bytes that continue a
character are taken along. -/
theorem exists_cut_read {s : String} (h : Text.bytes s = b :: rest) :
    ∃ before after : String, s = before ++ after ∧ Text.bytes before = read b rest ∧
      Text.bytes after = behind b rest := by
  rw [← read_append_behind] at h
  generalize hl : front b rest = l
  cases front_eq_iff.mp hl with
  | skipped hlongest _ hlength | token hlongest _ hlength =>
      rw [read_of_longest hlongest hlength (hl ▸ rfl)] at h ⊢
      exact Pattern.exists_cut hlongest.matched h
  | @stuck more _ =>
      refine Text.exists_cut h fun c hc => ?_
      rw [behind, hl, reach, drop_extent] at hc
      have hstop := List.head?_dropWhile_not Text.isContinuation (rest.drop more)
      rw [hc] at hstop
      simpa using hstop

end Lexeme

/-! ### Passages -/

namespace Scanned.StandsAt

variable {pos : Nat} {b : UInt8} {rest : List UInt8} {t : Scanned}

theorem span_eq (h : t.StandsAt pos b rest) :
    t.token.span = ⟨pos, (pos + t.token.lexeme.length : Nat)⟩ := by
  cases h <;> rfl

/-- A token is the piece that it stands for. -/
theorem lexeme_eq (h : t.StandsAt pos b rest) : t.token.lexeme = Lexeme.read b rest := by
  cases h with
  | legal hfront | illegal hfront => rw [Lexeme.read, hfront]; rfl

end Scanned.StandsAt

/-- How the scanner goes through the bytes from `pos` on: the piece at the front is passed over or
handed out, and the scanner goes on behind it. -/
inductive Reads : Nat → List UInt8 → List Scanned → Prop where
  | done {pos : Nat} : Reads pos [] []
  | passed {pos more : Nat} {b : UInt8} {rest : List UInt8} {ts : List Scanned}
      (hfront : Lexeme.front b rest = .skipped more)
      (tail : Reads (pos + (Lexeme.read b rest).length) (Lexeme.behind b rest) ts) :
      Reads pos (b :: rest) ts
  | found {pos : Nat} {b : UInt8} {rest : List UInt8} {t : Scanned} {ts : List Scanned}
      (h : t.StandsAt pos b rest)
      (tail : Reads (pos + (Lexeme.read b rest).length) (Lexeme.behind b rest) ts) :
      Reads pos (b :: rest) (t :: ts)

/-- The scanner goes through its bytes. -/
theorem reads_scanFrom (skip pos : Nat) (bs : List UInt8) :
    Reads (pos + skip) (bs.drop skip) (scanFrom skip pos bs) := by
  have tail {pos : Nat} {b : UInt8} {rest : List UInt8} {more : Nat} {ts : List Scanned}
      (hreach : (Lexeme.front b rest).reach rest = more)
      (h : Reads (pos + 1 + more) (rest.drop more) ts) :
      Reads (pos + (Lexeme.read b rest).length) (Lexeme.behind b rest) ts := by
    rwa [Lexeme.length_read, Lexeme.behind, hreach, Nat.add_comm more, ← Nat.add_assoc]
  fun_induction scanFrom skip pos bs with
  | case1 =>
      rw [List.drop_nil]
      exact .done
  | case2 pos skip c rest ih => rwa [Nat.add_right_comm] at ih
  | case3 pos b rest more hfront ih => exact .passed hfront (tail (hfront ▸ rfl) ih)
  | case4 pos b rest kind more hfront ih => exact .found (.legal hfront) (tail (hfront ▸ rfl) ih)
  | case5 pos b rest more hfront extent ih =>
      exact .found (.illegal hfront) (tail (hfront ▸ rfl) ih)

theorem reads_scan (input : List UInt8) : Reads 0 input (scan input) := reads_scanFrom 0 0 input

/-! ### Spans and gaps -/

/-- The bytes of an input that a span covers. -/
def Span.slice (s : Span) (input : List UInt8) : List UInt8 :=
  (input.take s.stop.toNat).drop s.start.toNat

theorem Span.slice_append (x y z : List UInt8) :
    Span.slice ⟨x.length, (x.length + y.length : Nat)⟩ (x ++ y ++ z) = y := by
  rw [slice, Int.toNat_natCast, Int.toNat_natCast, ← List.length_append, List.take_left,
    List.drop_left]

/-- What tokens leave free from `start` to `stop`: before the first of them, between any two
neighbours, and behind the last. -/
def gapsFrom (start stop : Int) : List Token → List Span
  | [] => [⟨start, stop⟩]
  | t :: ts => ⟨start, t.span.start⟩ :: gapsFrom t.span.stop stop ts

/-- How tokens lie in their input. -/
structure Covers (input : List UInt8) (ts : List Token) : Prop where
  nonempty : ∀ t ∈ ts, t.span.start < t.span.stop
  within : ∀ t ∈ ts, t.span.Within input.length
  ordered : ts.Pairwise fun s t => s.span.stop ≤ t.span.start
  lexeme : ∀ t ∈ ts, t.lexeme = t.span.slice input
  gaps : ∀ gap ∈ gapsFrom 0 input.length ts, IsSpacing (gap.slice input)

/-- **Nothing is lost.**  What tokens leave free is spacing, if what has been passed over since the
last of them, or since the front of the input, is. -/
theorem Reads.isSpacing_of_mem_gapsFrom {pos : Nat} {bs : List UInt8} {ts : List Scanned}
    (h : Reads pos bs ts) (taken passed : List UInt8) (hpos : pos = (taken ++ passed).length)
    (hpassed : IsSpacing passed) {gap : Span}
    (hgap : gap ∈ gapsFrom taken.length (taken ++ passed ++ bs).length (ts.map Scanned.token)) :
    IsSpacing (gap.slice (taken ++ passed ++ bs)) := by
  induction h generalizing taken passed with
  | done =>
      obtain rfl := List.mem_singleton.mp hgap
      rw [List.append_nil, List.length_append, ← List.append_nil (taken ++ passed),
        Span.slice_append]
      exact hpassed
  | @passed pos more b rest ts hfront tail ih =>
      have hinput : taken ++ passed ++ b :: rest =
          taken ++ (passed ++ Lexeme.read b rest) ++ Lexeme.behind b rest := by
        rw [← Lexeme.read_append_behind b rest]
        simp only [List.append_assoc]
      rw [hinput] at hgap ⊢
      refine ih _ _ ?_ (hpassed.append (Lexeme.isSpacing_read hfront)) hgap
      rw [hpos, ← List.append_assoc]
      exact List.length_append.symm
  | @found pos b rest t ts hstands tail ih =>
      rw [List.map_cons, gapsFrom, List.mem_cons, hstands.span_eq] at hgap
      rcases hgap with rfl | hgap
      · rw [hpos, List.length_append, Span.slice_append]
        exact hpassed
      · have hinput : taken ++ passed ++ b :: rest =
            taken ++ passed ++ Lexeme.read b rest ++ [] ++ Lexeme.behind b rest := by
          rw [← Lexeme.read_append_behind b rest]
          simp only [List.append_assoc, List.nil_append]
        have hstop : pos + t.token.lexeme.length =
            (taken ++ passed ++ Lexeme.read b rest).length := by
          rw [hpos, hstands.lexeme_eq]
          exact List.length_append.symm
        rw [hinput, hstop] at hgap
        rw [hinput]
        refine ih _ [] ?_ .nil hgap
        rw [List.append_nil, ← hstop, hstands.lexeme_eq]

/-- A token that covers whole characters of a text that starts at `pos`. -/
def Scanned.IsWhole (s : String) (pos : Nat) (t : Scanned) : Prop :=
  ∃ before word behind : String, s = before ++ word ++ behind ∧
    t.token.span = ⟨(pos + (Text.bytes before).length : Nat),
      (pos + (Text.bytes (before ++ word)).length : Nat)⟩

theorem Scanned.IsWhole.append_left {read s : String} {pos : Nat} {t : Scanned}
    (h : t.IsWhole s (pos + (Text.bytes read).length)) : t.IsWhole (read ++ s) pos := by
  obtain ⟨before, word, behind, rfl, hspan⟩ := h
  refine ⟨read ++ before, word, behind, by simp only [String.append_assoc], ?_⟩
  rw [hspan, String.append_assoc, Text.bytes_append read, Text.bytes_append read,
    List.length_append, List.length_append, Nat.add_assoc, Nat.add_assoc]

/-- **Characters stay whole.**  In a text of whole characters, so are the tokens. -/
theorem Reads.isWhole {pos : Nat} {bs : List UInt8} {ts : List Scanned} (h : Reads pos bs ts)
    {s : String} (hs : Text.bytes s = bs) {t : Scanned} (ht : t ∈ ts) : t.IsWhole s pos := by
  induction h generalizing s with
  | done => cases ht
  | passed hfront tail ih =>
      obtain ⟨read, rest, rfl, hread, hrest⟩ := Lexeme.exists_cut_read hs
      exact .append_left (hread ▸ ih hrest ht)
  | found hstands tail ih =>
      obtain ⟨read, rest, rfl, hread, hrest⟩ := Lexeme.exists_cut_read hs
      rcases List.mem_cons.mp ht with rfl | ht
      · refine ⟨"", read, rest, by rw [String.empty_append], ?_⟩
        rw [hstands.span_eq, hstands.lexeme_eq, String.empty_append, hread]
        rfl
      · exact .append_left (hread ▸ ih hrest ht)

/-- **The tokens of an input cover it**, up to spacing. -/
theorem covers_tokens (input : List UInt8) : Covers input (tokens input) where
  nonempty t ht := by
    obtain ⟨u, hu, rfl⟩ := List.mem_map.mp ht
    obtain ⟨passed, b, rest, -, -, hstands⟩ := foundFrom_of_mem_scanFrom hu
    exact hstands.start_lt_stop
  within t ht := (sound_of_mem_tokens ht).span
  ordered := pairwise_tokens input
  lexeme t ht := by
    obtain ⟨u, hu, rfl⟩ := List.mem_map.mp ht
    obtain ⟨passed, b, rest, rfl, -, hstands⟩ := foundFrom_of_mem_scanFrom hu
    rw [hstands.span_eq, hstands.lexeme_eq, Nat.zero_add, ← Lexeme.read_append_behind,
      ← List.append_assoc, Span.slice_append]
  gaps gap hgap := (reads_scan input).isSpacing_of_mem_gapsFrom [] [] rfl .nil hgap

/-! ### Calls -/

theorem scanFrom_eq_drop (skip pos : Nat) (bs : List UInt8) :
    scanFrom skip pos bs = scanFrom 0 (pos + skip) (bs.drop skip) := by
  induction bs generalizing skip pos with
  | nil => simp [scanFrom]
  | cons b bs ih =>
      cases skip with
      | zero => rfl
      | succ skip => rw [scanFrom, ih, List.drop_succ_cons, Nat.add_assoc, Nat.add_comm 1]

/-- To scan is to find the first token and to scan behind it. -/
theorem scanFrom_eq_findFrom (skip pos : Nat) (bs : List UInt8) :
    scanFrom skip pos bs = match findFrom skip pos bs with
      | none => []
      | some (t, pos, rest) => t :: scanFrom 0 pos rest := by
  fun_induction findFrom skip pos bs with
  | case1 => rw [scanFrom]
  | case2 pos skip b rest ih => rw [scanFrom, ih]
  | case3 pos b rest more hfront ih => simp only [scanFrom, hfront, ih]
  | case4 pos b rest kind more hfront => simp only [scanFrom, hfront, ← scanFrom_eq_drop]
  | case5 pos b rest more hfront extent => simp only [scanFrom, hfront, ← scanFrom_eq_drop, extent]

namespace Scanner

/-- What a scanner hands out when it is asked once more after `k` calls. -/
def call (s : Scanner) : Nat → Scanned
  | 0 => s.next.1
  | k + 1 => s.next.2.call k

/-- The end of the input, as it is handed out. -/
def ended (s : Scanner) : Scanned := ⟨⟨.eof, [], ⟨s.stop, s.stop⟩⟩, none⟩

theorem next_of_findFrom_none {s : Scanner} (h : findFrom 0 s.pos s.rest = none) :
    s.next = (s.ended, s) := by
  rw [next, h]
  rfl

theorem next_of_findFrom_some {s : Scanner} {t : Scanned} {pos : Nat} {rest : List UInt8}
    (h : findFrom 0 s.pos s.rest = some (t, pos, rest)) :
    s.next = (t, { s with pos, rest }) := by
  rw [next, h]

/-- **A call hands out one token**, and after the last token the end. -/
theorem call_eq (s : Scanner) (k : Nat) :
    s.call k = (scanFrom 0 s.pos s.rest)[k]?.getD s.ended := by
  induction k generalizing s with
  | zero =>
      rw [call, scanFrom_eq_findFrom]
      cases h : findFrom 0 s.pos s.rest with
      | none => rw [next_of_findFrom_none h]; rfl
      | some found => rw [next_of_findFrom_some h]; rfl
  | succ k ih =>
      rw [call, scanFrom_eq_findFrom]
      cases h : findFrom 0 s.pos s.rest with
      | none =>
          rw [next_of_findFrom_none h, ih, scanFrom_eq_findFrom, h]
          rfl
      | some found => rw [next_of_findFrom_some h, ih]; rfl

/-- A scanner that hands out some tokens, one a call, and from then on the end.  It reports a fault
with each illegal token and with no other. -/
structure HandsOut (s : Scanner) (ts : List Scanned) : Prop where
  found : ∀ k (h : k < ts.length), s.call k = ts[k]
  ne_eof : ∀ t ∈ ts, t.token.kind ≠ .eof
  eof : ∀ k, ts.length ≤ k → (s.call k).token.kind = .eof
  fault_iff : ∀ k, (s.call k).fault?.isSome ↔ (s.call k).token.kind = .illegal

end Scanner

theorem ne_eof_of_mem_scan {input : List UInt8} {t : Scanned} (h : t ∈ scan input) :
    t.token.kind ≠ .eof := by
  have hkind := (sound_of_mem_tokens (List.mem_map_of_mem h)).kind
  intro heof
  simp [heof] at hkind

/-- Just the illegal tokens have faults. -/
theorem fault_iff_of_mem_scan {input : List UInt8} {t : Scanned} (h : t ∈ scan input) :
    t.fault?.isSome ↔ t.token.kind = .illegal := by
  obtain ⟨passed, b, rest, -, -, hstands⟩ := foundFrom_of_mem_scanFrom h
  cases hstands with
  | legal hfront =>
      rcases Lexeme.front_eq_token hfront with h | h | h | h | h <;> simp [Scanned.legal, h]
  | illegal => exact iff_of_true rfl rfl

theorem handsOut_ofInput (input : List UInt8) : (Scanner.ofInput input).HandsOut (scan input) := by
  have hfound : ∀ k (h : k < (scan input).length),
      (Scanner.ofInput input).call k = (scan input)[k] := by
    intro k h
    rw [Scanner.call_eq]
    exact congrArg (Option.getD · _) (List.getElem?_eq_getElem h)
  have hended : ∀ k, (scan input).length ≤ k →
      (Scanner.ofInput input).call k = (Scanner.ofInput input).ended := by
    intro k h
    rw [Scanner.call_eq]
    exact congrArg (Option.getD · _) (List.getElem?_eq_none h)
  refine ⟨hfound, fun t ht => ne_eof_of_mem_scan ht, fun k h => ?_, fun k => ?_⟩
  · rw [hended k h]
    rfl
  · rcases Nat.lt_or_ge k (scan input).length with h | h
    · rw [hfound k h]
      exact fault_iff_of_mem_scan (List.getElem_mem h)
    · rw [hended k h]
      exact iff_of_false Bool.false_ne_true TokenKind.noConfusion

theorem isSome_firstFault?_iff (input : List UInt8) :
    (firstFault? input).isSome ↔ ∃ t ∈ tokens input, t.kind = .illegal := by
  rw [firstFault?, List.findSome?_isSome_iff, tokens]
  constructor
  · rintro ⟨t, ht, hfault⟩
    exact ⟨t.token, List.mem_map_of_mem ht, (fault_iff_of_mem_scan ht).mp hfault⟩
  · rintro ⟨_, ht, hkind⟩
    obtain ⟨u, hu, rfl⟩ := List.mem_map.mp ht
    exact ⟨u, hu, (fault_iff_of_mem_scan hu).mpr hkind⟩

theorem isBoundary_of_mem_tokens {s : String} {t : Token} (ht : t ∈ tokens (Text.bytes s)) :
    Text.IsBoundary s t.span.start ∧ Text.IsBoundary s t.span.stop := by
  obtain ⟨u, hu, rfl⟩ := List.mem_map.mp ht
  obtain ⟨before, word, behind, rfl, hspan⟩ := (reads_scan _).isWhole rfl hu
  rw [hspan, Nat.zero_add, Nat.zero_add]
  exact ⟨⟨before, word ++ behind, String.append_assoc, rfl⟩, ⟨before ++ word, behind, rfl, rfl⟩⟩

/-- **The scanner loses nothing and always ends.**  Called again and again, it hands out finitely
many tokens and then the end.  The tokens cover the input up to spacing.  There is a fault just
where there is an illegal token, and if the input is a text of whole characters, tokens start and
end between characters. -/
theorem scanner_covers (input : List UInt8) :
    (Scanner.ofInput input).HandsOut (scan input) ∧
      Covers input (tokens input) ∧
      ((firstFault? input).isSome ↔ ∃ t ∈ tokens input, t.kind = .illegal) ∧
      ∀ s : String, Text.bytes s = input → ∀ t ∈ tokens input,
        Text.IsBoundary s t.span.start ∧ Text.IsBoundary s t.span.stop := by
  refine ⟨handsOut_ofInput input, covers_tokens input, isSome_firstFault?_iff input, ?_⟩
  rintro s rfl t ht
  exact isBoundary_of_mem_tokens ht

/-- In `A -äb`, a dash and the character that stops it are one illegal token. -/
theorem scanner_covers_dash :
    (tokens (Text.bytes "A -äb")).map (fun t => (t.kind, t.span)) =
        [(.nonterminal, ⟨0, 1⟩), (.illegal, ⟨2, 5⟩), (.terminal, ⟨5, 6⟩)] ∧
      ∀ t ∈ tokens (Text.bytes "A -äb"),
        Text.IsBoundary "A -äb" t.span.start ∧ Text.IsBoundary "A -äb" t.span.stop :=
  ⟨by decide +kernel, (scanner_covers (Text.bytes "A -äb")).2.2.2 "A -äb" rfl⟩

end Lookahead
