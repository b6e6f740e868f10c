import Gozara.Library.Transition
import Mathlib.Logic.Relation

/-!
# Refinement of a step relation

A guarded step function refines a step relation on abstract states when, under an invariant,
every step of it is one abstract step or none. Runs then give abstract runs, and what abstract
steps preserve holds on along them.
-/
namespace Transition

variable {σ ε A : Type*} {step : σ → ε → Option σ} {Step : A → A → Prop}

theorem refines_run (abs : σ → A) {P : σ → Prop}
    (hinv : ∀ s e t, step s e = some t → P s → P t)
    (hsim : ∀ s e t, step s e = some t → P s → abs t = abs s ∨ Step (abs s) (abs t))
    {s t : σ} {es : List ε} (hrun : run step s es = some t) (hs : P s) :
    Relation.ReflTransGen Step (abs s) (abs t) := by
  induction es generalizing s with
  | nil =>
    cases hrun
    exact .refl
  | cons e es ih =>
    obtain ⟨u,hu,hrest⟩ := run_cons_eq_some.mp hrun
    have hlater := ih hrest (hinv s e u hu hs)
    rcases hsim s e u hu hs with heq | hstep
    · rwa [heq] at hlater
    · exact hlater.head hstep

theorem stable_of_steps {Q : A → Prop} (hstep : ∀ a b, Step a b → Q a → Q b) {a b : A}
    (h : Relation.ReflTransGen Step a b) (ha : Q a) : Q b := by
  induction h with
  | refl => exact ha
  | tail _ hbc ih => exact hstep _ _ hbc ih

end Transition
