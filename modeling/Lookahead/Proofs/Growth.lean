import Lookahead.Saturation

/-!
# Growing steps

Every pass of the analysis is made of small steps that only add: a step never shrinks what it is
given, and if it does not enlarge it, it leaves it alone.  Such steps can be put one behind the
other (`Grows.foldl`), and a pass that changes nothing consists of steps that change nothing
(`Grows.visit_of_foldl`).  Together with a bound on sizes this says what saturation ends with: a
point where no step has anything to add (`Grows.visit_saturate`).
-/

namespace Lookahead

variable {α β : Type} {P : α → Prop} {size : α → Nat}

/-- Steps that change nothing change nothing together. -/
theorem foldl_eq_self {visit : α → β → α} {l : List β} {x : α} (h : ∀ b ∈ l, visit x b = x) :
    l.foldl visit x = x := by
  induction l with
  | nil => rfl
  | cons b rest ih =>
      obtain ⟨hb, hrest⟩ := List.forall_mem_cons.mp h
      rw [List.foldl_cons, hb, ih hrest]

/-- `f` keeps `P`, never shrinks, and leaves alone what it does not enlarge. -/
structure Grows (P : α → Prop) (size : α → Nat) (f : α → α) : Prop where
  keeps : ∀ x, P x → P (f x)
  le : ∀ x, P x → size x ≤ size (f x)
  fixed : ∀ x, P x → size (f x) ≤ size x → f x = x

namespace Grows

theorem refl : Grows P size fun x => x :=
  ⟨fun _ hx => hx, fun _ _ => Nat.le_refl _, fun _ _ _ => rfl⟩

theorem comp {f f' : α → α} (h : Grows P size f) (h' : Grows P size f') :
    Grows P size fun x => f' (f x) where
  keeps x hx := h'.keeps _ (h.keeps x hx)
  le x hx := Nat.le_trans (h.le x hx) (h'.le _ (h.keeps x hx))
  fixed x hx hle := by
    have hf : f x = x := h.fixed x hx (Nat.le_trans (h'.le _ (h.keeps x hx)) hle)
    rw [hf] at hle ⊢
    exact h'.fixed x hx hle

/-- Steps one behind the other, one for each member of a list. -/
theorem foldl {visit : α → β → α} {l : List β} (h : ∀ b ∈ l, Grows P size fun x => visit x b) :
    Grows P size fun x => l.foldl visit x := by
  induction l with
  | nil => exact refl
  | cons b rest ih =>
      have hb : Grows P size fun x => visit x b := h b (by simp)
      exact hb.comp (ih fun c hc => h c (List.mem_cons_of_mem _ hc))

/-- Where the steps together change nothing, no step does. -/
theorem visit_of_foldl {visit : α → β → α} {l : List β}
    (h : ∀ b ∈ l, Grows P size fun x => visit x b) {x : α} (hx : P x)
    (hfix : l.foldl visit x = x) : ∀ b ∈ l, visit x b = x := by
  induction l with
  | nil => intro b hb; exact absurd hb List.not_mem_nil
  | cons c rest ih =>
      have hc : Grows P size fun x => visit x c := h c (by simp)
      have hrest : ∀ b ∈ rest, Grows P size fun x => visit x b :=
        fun b hb => h b (List.mem_cons_of_mem _ hb)
      rw [List.foldl_cons] at hfix
      -- the rest does not shrink what the first step left, so the first step added nothing
      have hle : size (visit x c) ≤ size x := by
        have := (foldl hrest).le _ (hc.keeps x hx)
        rwa [hfix] at this
      have hx' : visit x c = x := hc.fixed x hx hle
      rw [hx'] at hfix
      intro b hb
      rcases List.mem_cons.mp hb with rfl | hb
      · exact hx'
      · exact ih hrest hfix b hb

/-- **Saturation by growing passes.**  A pass adds nothing to what saturation ends with, as long as
the fuel covers the distance to a bound on all sizes. -/
theorem step_saturate {step : α → α} {bound fuel : Nat} {x : α} (h : Grows P size step)
    (hbound : ∀ y, P y → size y ≤ bound) (hx : P x) (hfuel : bound < size x + fuel) :
    step (saturate step size fuel x) = saturate step size fuel x :=
  Lookahead.step_saturate h.keeps hbound h.fixed hx hfuel

/-- Saturation by a pass over a list ends where none of the steps has anything to add. -/
theorem visit_saturate {visit : α → β → α} {l : List β} {bound fuel : Nat} {x : α}
    (h : ∀ b ∈ l, Grows P size fun x => visit x b) (hbound : ∀ y, P y → size y ≤ bound) (hx : P x)
    (hfuel : bound < size x + fuel) :
    ∀ b ∈ l, visit (saturate (fun x => l.foldl visit x) size fuel x) b =
      saturate (fun x => l.foldl visit x) size fuel x :=
  have hpass : Grows P size fun x => l.foldl visit x := foldl h
  visit_of_foldl h (saturate_induction hpass.keeps fuel hx)
    (hpass.step_saturate hbound hx hfuel)

end Grows

end Lookahead
