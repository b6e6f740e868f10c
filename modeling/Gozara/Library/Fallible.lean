import Mathlib.Tactic.Common

/-!
# Fallible actions on a state

An action takes a state to a result or an error and to a state, also when it fails. The rules
say what a sequence of two actions does, from what the first one does.
-/
namespace Fallible

variable {ε σ α β : Type} {x : ExceptT ε (StateM σ) α} {f : α → ExceptT ε (StateM σ) β}
  {s t u : σ} {a : α} {b : β} {e : ε}

lemma bind_of_ok (h : x s = (.ok a,t)) : (x >>= f) s = f a t := by
  change ExceptT.bindCont f (x s).1 (x s).2 = _
  rw [h]
  rfl

lemma bind_of_error (h : x s = (.error e,t)) : (x >>= f) s = (.error e,t) := by
  change ExceptT.bindCont f (x s).1 (x s).2 = _
  rw [h]
  rfl

/-- A sequence that succeeds, with the states in between. -/
theorem bind_eq_pair :
    (x >>= f) s = (.ok b,u) ↔ ∃ a t, x s = (.ok a,t) ∧ f a t = (.ok b,u) := by
  constructor
  · intro h
    rcases hx : x s with ⟨e | a,t⟩
    · rw [bind_of_error hx] at h
      cases h
    · rw [bind_of_ok hx] at h
      exact ⟨a,t,rfl,h⟩
  · rintro ⟨a,t,hx,hf⟩
    rw [bind_of_ok hx]
    exact hf

/-- A sequence succeeds when both parts do, the second on the state the first leaves. -/
theorem bind_eq_ok : ((x >>= f) s).1 = .ok b ↔ ∃ a, (x s).1 = .ok a ∧ (f a (x s).2).1 = .ok b := by
  rcases hx : x s with ⟨e | a,t⟩
  · simp [bind_of_error hx]
  · simp [bind_of_ok hx]

theorem bind_snd_of_ok (h : (x s).1 = .ok a) : ((x >>= f) s).2 = (f a (x s).2).2 := by
  rw [bind_of_ok (Prod.ext h rfl : x s = (.ok a,(x s).2))]

end Fallible
