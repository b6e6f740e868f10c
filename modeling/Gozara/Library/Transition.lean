import Mathlib.Data.List.Basic
import Mathlib.Tactic.Common

/-!
# Runs of guarded step functions

A system is an executable step function: `step s e` is `none` when the event `e` is not
enabled in `s`. Invariants, conditions on every step of a run and projections onto a
component are stated for such functions once and used by name.
-/
namespace Transition

variable {σ ε τ φ : Type*}

/-- Execute a list of events, failing at the first one that is not enabled. -/
def run (step : σ → ε → Option σ) : σ → List ε → Option σ
  | s,[] => some s
  | s,e::es => (step s e).bind fun t => run step t es

/-- `R` holds of every step that the run takes. -/
def Along (step : σ → ε → Option σ) (R : σ → ε → σ → Prop) : σ → List ε → Prop
  | _,[] => True
  | s,e::es => ∀ t, step s e = some t → R s e t ∧ Along step R t es

variable {step : σ → ε → Option σ} {R R' : σ → ε → σ → Prop} {P : σ → Prop}

theorem run_cons (s : σ) (e : ε) (es : List ε) :
    run step s (e::es) = (step s e).bind fun t => run step t es := rfl

lemma run_cons_eq_some {s u : σ} {e : ε} {es : List ε} :
    run step s (e::es) = some u ↔ ∃ t, step s e = some t ∧ run step t es = some u := by
  rw [run_cons,Option.bind_eq_some_iff]

theorem run_append (s : σ) (es fs : List ε) :
    run step s (es ++ fs) = (run step s es).bind fun t => run step t fs := by
  induction es generalizing s with
  | nil => rfl
  | cons e es ih =>
    simp only [List.cons_append,run_cons,Option.bind_assoc]
    congr 1
    funext t
    exact ih t

lemma run_append_eq_some {s u : σ} {es fs : List ε} :
    run step s (es ++ fs) = some u ↔ ∃ t, run step s es = some t ∧ run step t fs = some u := by
  rw [run_append,Option.bind_eq_some_iff]

/-- What one step preserves under `R`, a run whose steps all satisfy `R` preserves. -/
theorem Along.preserves (hstep : ∀ s e t, step s e = some t → R s e t → P s → P t)
    {s t : σ} {es : List ε} (hR : Along step R s es) (hrun : run step s es = some t)
    (hs : P s) : P t := by
  induction es generalizing s with
  | nil =>
    cases hrun
    exact hs
  | cons e es ih =>
    obtain ⟨u,hu,hrest⟩ := run_cons_eq_some.mp hrun
    obtain ⟨hhead,htail⟩ := hR u hu
    exact ih htail hrest (hstep s e u hu hhead hs)

theorem along_true (s : σ) (es : List ε) : Along step (fun _ _ _ => True) s es := by
  induction es generalizing s with
  | nil => trivial
  | cons e es ih => exact fun t _ => ⟨trivial,ih t⟩

/-- An invariant of every step holds at the end of every run. -/
theorem run_preserves (hstep : ∀ s e t, step s e = some t → P s → P t)
    {s t : σ} {es : List ε} (hrun : run step s es = some t) (hs : P s) : P t :=
  (along_true s es).preserves (fun s e t h _ => hstep s e t h) hrun hs

/-- Under an invariant, a fact about single steps carries over to all steps of a run. -/
theorem Along.mono (hstep : ∀ s e t, step s e = some t → P s → P t)
    (hR : ∀ s e t, step s e = some t → P s → R s e t → R' s e t)
    {s : σ} {es : List ε} (hs : P s) (h : Along step R s es) : Along step R' s es := by
  induction es generalizing s with
  | nil => trivial
  | cons e es ih =>
    intro t ht
    obtain ⟨hhead,htail⟩ := h t ht
    exact ⟨hR s e t ht hs hhead,ih (hstep s e t ht hs) htail⟩

/-- `Along.mono` where the implication may also use what the condition preserves. -/
theorem Along.imp (hstep : ∀ s e t, step s e = some t → R s e t → P s → P t)
    (hR : ∀ s e t, step s e = some t → P s → R s e t → R' s e t)
    {s : σ} {es : List ε} (hs : P s) (h : Along step R s es) : Along step R' s es := by
  induction es generalizing s with
  | nil => trivial
  | cons e es ih =>
    intro t ht
    obtain ⟨hhead,htail⟩ := h t ht
    exact ⟨hR s e t ht hs hhead,ih (hstep s e t ht hhead hs) htail⟩

lemma along_cons_of_some {s t : σ} {e : ε} {es : List ε} (h : step s e = some t) :
    Along step R s (e::es) ↔ R s e t ∧ Along step R t es := by
  constructor
  · exact fun hall => hall t h
  · intro hall u hu
    cases h.symm.trans hu
    exact hall

instance [∀ s e t, Decidable (R s e t)] : ∀ (s : σ) (es : List ε), Decidable (Along step R s es)
  | _,[] => isTrue trivial
  | s,e::es =>
    match h : step s e with
    | none => isTrue fun t ht => by rw [h] at ht; cases ht
    | some t =>
      have := instDecidableAlong t es
      decidable_of_iff _ (along_cons_of_some h).symm

/-- A condition on the events alone. -/
theorem along_of_forall {Q : ε → Prop} (s : σ) {es : List ε} (h : ∀ e ∈ es, Q e) :
    Along step (fun _ e _ => Q e) s es := by
  induction es generalizing s with
  | nil => trivial
  | cons e es ih =>
    exact fun t _ => ⟨h e List.mem_cons_self,ih t fun f hf => h f (List.mem_cons_of_mem _ hf)⟩

theorem Along.and {s : σ} {es : List ε} (h : Along step R s es) (h' : Along step R' s es) :
    Along step (fun s e t => R s e t ∧ R' s e t) s es := by
  induction es generalizing s with
  | nil => trivial
  | cons e es ih =>
    intro t ht
    exact ⟨⟨(h t ht).1,(h' t ht).1⟩,ih (h t ht).2 (h' t ht).2⟩

theorem along_append {s t : σ} {es fs : List ε} (hrun : run step s es = some t) :
    Along step R s (es ++ fs) ↔ Along step R s es ∧ Along step R t fs := by
  induction es generalizing s with
  | nil =>
    cases hrun
    simp [Along]
  | cons e es ih =>
    obtain ⟨u,hu,hrest⟩ := run_cons_eq_some.mp hrun
    constructor
    · intro h
      obtain ⟨hhead,htail⟩ := h u hu
      obtain ⟨h₁,h₂⟩ := (ih hrest).mp htail
      refine ⟨fun v hv => ?_,h₂⟩
      cases hu.symm.trans hv
      exact ⟨hhead,h₁⟩
    · rintro ⟨h₁,h₂⟩ v hv
      cases hu.symm.trans hv
      obtain ⟨hhead,htail⟩ := h₁ u hu
      exact ⟨hhead,(ih hrest).mpr ⟨htail,h₂⟩⟩

/-- `Q` holds of every step that the run takes, with the events before the step. -/
def AlongPast (step : σ → ε → Option σ) (Q : List ε → σ → ε → σ → Prop) :
    List ε → σ → List ε → Prop
  | _,_,[] => True
  | past,s,e::es => ∀ t, step s e = some t → Q past s e t ∧ AlongPast step Q (past ++ [e]) t es

/-- Where an invariant ties the state to its past, a condition on steps and their past may be
one on steps alone. -/
theorem alongPast_iff {I : List ε → σ → Prop} {Q : List ε → σ → ε → σ → Prop}
    (hstep : ∀ past s e t, step s e = some t → I past s → I (past ++ [e]) t)
    (hQ : ∀ past s e t, step s e = some t → I past s → (Q past s e t ↔ R s e t))
    {past : List ε} {s : σ} {es : List ε} (hI : I past s) :
    AlongPast step Q past s es ↔ Along step R s es := by
  induction es generalizing past s with
  | nil => exact Iff.rfl
  | cons e es ih =>
    refine forall_congr' fun t => forall_congr' fun ht => ?_
    exact and_congr (hQ past s e t ht hI) (ih (hstep past s e t ht hI))

/-- An invariant that ties the state to the events so far holds at the end of every run. -/
theorem run_past {I : List ε → σ → Prop}
    (hstep : ∀ past s e t, step s e = some t → I past s → I (past ++ [e]) t)
    {past : List ε} {s t : σ} {es : List ε} (hrun : run step s es = some t) (hs : I past s) :
    I (past ++ es) t := by
  induction es generalizing past s with
  | nil =>
    cases hrun
    rwa [List.append_nil]
  | cons e es ih =>
    obtain ⟨u,hu,hrest⟩ := run_cons_eq_some.mp hrun
    rw [List.append_cons]
    exact ih hrest (hstep past s e u hu hs)

/-- When every step of a system is zero or more steps of a component, every run of the
system is a run of the component. -/
theorem run_project {stepC : τ → φ → Option τ} (f : σ → τ)
    (hstep : ∀ s e t, step s e = some t → ∃ fs, run stepC (f s) fs = some (f t))
    {s t : σ} {es : List ε} (hrun : run step s es = some t) :
    ∃ fs, run stepC (f s) fs = some (f t) := by
  induction es generalizing s with
  | nil =>
    cases hrun
    exact ⟨[],rfl⟩
  | cons e es ih =>
    obtain ⟨u,hu,hrest⟩ := run_cons_eq_some.mp hrun
    obtain ⟨fs,hfs⟩ := hstep s e u hu
    obtain ⟨gs,hgs⟩ := ih hrest
    exact ⟨fs ++ gs,run_append_eq_some.mpr ⟨f u,hfs,hgs⟩⟩

/-- A component that an event does not touch takes no step. -/
lemma stutter {stepC : τ → φ → Option τ} {a b : τ} (h : b = a) :
    ∃ fs, run stepC a fs = some b := ⟨[],by rw [h]; rfl⟩

lemma single {stepC : τ → φ → Option τ} {a b : τ} {e : φ} (h : stepC a e = some b) :
    ∃ fs, run stepC a fs = some b := ⟨[e],run_cons_eq_some.mpr ⟨b,h,rfl⟩⟩

end Transition
