/-!
# Saturation

The analysis grows its sets and relations by passes: each pass adds what follows from what is
there, and the passes end when one of them adds nothing.  `saturate` is this loop.  A pass that
never shrinks its argument, and that leaves an argument alone if it does not enlarge it, reaches a
point where it adds nothing as long as sizes are bounded (`step_saturate`).
-/

namespace Lookahead

variable {α : Type}

/-- Applies `step` until it no longer enlarges its argument, at most `fuel` times. -/
def saturate (step : α → α) (size : α → Nat) : (fuel : Nat) → α → α
  | 0, x => x
  | fuel + 1, x =>
    let y := step x
    if size y ≤ size x then x else saturate step size fuel y

/-- What holds at the start and survives a step holds at the end. -/
theorem saturate_induction {P : α → Prop} {step : α → α} {size : α → Nat}
    (hstep : ∀ x, P x → P (step x)) (fuel : Nat) {x : α} (hx : P x) :
    P (saturate step size fuel x) := by
  induction fuel generalizing x with
  | zero => exact hx
  | succ fuel ih =>
    simp only [saturate]
    split
    · exact hx
    · exact ih (hstep x hx)

/-- **Saturation ends at a fixpoint.**  The fuel has to cover the distance from the start to a
bound on all sizes that can occur. -/
theorem step_saturate {P : α → Prop} {step : α → α} {size : α → Nat} {bound : Nat}
    (hstep : ∀ x, P x → P (step x)) (hbound : ∀ x, P x → size x ≤ bound)
    (hstable : ∀ x, P x → size (step x) ≤ size x → step x = x)
    {fuel : Nat} {x : α} (hx : P x) (hfuel : bound < size x + fuel) :
    step (saturate step size fuel x) = saturate step size fuel x := by
  induction fuel generalizing x with
  | zero =>
    have := hbound x hx
    omega
  | succ fuel ih =>
    simp only [saturate]
    split
    · rename_i h
      exact hstable x hx h
    · rename_i h
      exact ih (hstep x hx) (by omega)

end Lookahead
