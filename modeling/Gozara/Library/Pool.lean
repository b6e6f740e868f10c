import Mathlib.Algebra.Order.BigOperators.Group.List
import Mathlib.Algebra.Order.Ring.Nat
import Mathlib.Tactic.Common
import Gozara.Library.Transition

/-!
# Threads over a shared state

Any number of threads, numbered in the order in which they were started, act one at a time
on a shared state that an environment may change as well. An invariant is split into a
part about the shared state and a part about each thread; a thread answers for both parts,
and the parts of the other threads have to be stable under what it does to the shared
state. The last obligation may use a condition on pairs of threads, for runs in which some
interference is excluded.
-/
namespace Pool

variable {σ θ α β γ : Type*}

structure State (σ θ : Type*) where
  shared : σ
  threads : List θ

/-- What starting a thread, an action of a thread and the environment do. The number of
the thread is passed along. -/
structure Program (σ θ α β γ : Type*) where
  spawn : ℕ → σ → β → σ × θ
  act : ℕ → σ → θ → α → Option (σ × θ)
  env : σ → γ → Option σ

inductive Event (α β γ : Type*)
  | spawn (b : β)
  | act (i : ℕ) (a : α)
  | env (g : γ)
  deriving DecidableEq

def step (p : Program σ θ α β γ) (s : State σ θ) : Event α β γ → Option (State σ θ)
  | .spawn b =>
    let r := p.spawn s.threads.length s.shared b
    some ⟨r.1,s.threads ++ [r.2]⟩
  | .act i a => s.threads[i]?.bind fun t =>
      (p.act i s.shared t a).map fun r => ⟨r.1,s.threads.set i r.2⟩
  | .env g => (p.env s.shared g).map fun sh => ⟨sh,s.threads⟩

lemma getElem?_concat_eq_some {l : List θ} {a t : θ} {i : ℕ} (h : (l ++ [a])[i]? = some t) :
    l[i]? = some t ∨ i = l.length ∧ a = t := by
  rw [List.getElem?_append] at h
  split_ifs at h with hi
  · exact Or.inl h
  · rw [List.getElem?_singleton] at h
    split_ifs at h with h₀
    exact Or.inr ⟨by omega,Option.some.inj h⟩

variable {p : Program σ θ α β γ}

theorem step_act_eq_some {s s' : State σ θ} {i : ℕ} {a : α} :
    step p s (.act i a) = some s' ↔ ∃ t sh t', s.threads[i]? = some t ∧
      p.act i s.shared t a = some (sh,t') ∧ s' = ⟨sh,s.threads.set i t'⟩ := by
  simp only [step,Option.bind_eq_some_iff,Option.map_eq_some_iff]
  constructor
  · rintro ⟨t,ht,⟨sh,t'⟩,hact,rfl⟩
    exact ⟨t,sh,t',ht,hact,rfl⟩
  · rintro ⟨t,sh,t',ht,hact,rfl⟩
    exact ⟨t,ht,(sh,t'),hact,rfl⟩

theorem step_env_eq_some {s s' : State σ θ} {g : γ} :
    step p s (.env g) = some s' ↔ ∃ sh, p.env s.shared g = some sh ∧ s' = ⟨sh,s.threads⟩ := by
  simp only [step,Option.map_eq_some_iff]
  exact exists_congr fun sh => and_congr_right fun _ => eq_comm

structure Holds (I : ℕ → σ → Prop) (L : ℕ → σ → θ → Prop) (s : State σ θ) : Prop where
  shared : I s.threads.length s.shared
  thread : ∀ (i : ℕ) (t : θ), s.threads[i]? = some t → L i s.shared t

/-- The proof obligations. `C i t a j u` may be assumed when thread `i`, in local state
`t`, does `a` while thread `j` is in local state `u`. -/
structure Preserved (p : Program σ θ α β γ) (C : ℕ → θ → α → ℕ → θ → Prop)
    (I : ℕ → σ → Prop) (L : ℕ → σ → θ → Prop) : Prop where
  spawn : ∀ {n sh b}, I n sh →
    I (n+1) (p.spawn n sh b).1 ∧ L n (p.spawn n sh b).1 (p.spawn n sh b).2
  spawn_stable : ∀ {n sh b i t}, I n sh → i < n → L i sh t → L i (p.spawn n sh b).1 t
  act : ∀ {n i sh t a sh' t'}, I n sh → i < n → L i sh t →
    p.act i sh t a = some (sh',t') → I n sh' ∧ L i sh' t'
  act_stable : ∀ {n i sh t a sh' t' j u}, I n sh → i < n → L i sh t →
    p.act i sh t a = some (sh',t') → j ≠ i → C i t a j u → L j sh u → L j sh' u
  env : ∀ {n sh g sh'}, I n sh → p.env sh g = some sh' → I n sh'
  env_stable : ∀ {n sh g sh' i t}, I n sh → p.env sh g = some sh' → L i sh t → L i sh' t

/-- The pair condition at one event: the acting thread against every other one. -/
def Undisturbed (C : ℕ → θ → α → ℕ → θ → Prop) (s : State σ θ) : Event α β γ → Prop
  | .act i a => ∀ t, s.threads[i]? = some t →
      ∀ (j : ℕ) (u : θ), j ≠ i → s.threads[j]? = some u → C i t a j u
  | _ => True

theorem Preserved.step {C : ℕ → θ → α → ℕ → θ → Prop} {I : ℕ → σ → Prop}
    {L : ℕ → σ → θ → Prop} (hp : Preserved p C I L) {s s' : State σ θ} {e : Event α β γ}
    (hstep : Pool.step p s e = some s') (hC : Undisturbed C s e) (h : Holds I L s) :
    Holds I L s' := by
  cases e with
  | spawn b =>
    cases hstep
    obtain ⟨hI,hL⟩ := hp.spawn (b := b) h.shared
    refine ⟨by simpa using hI,fun i t ht => ?_⟩
    rcases getElem?_concat_eq_some ht with ht | ⟨rfl,rfl⟩
    · exact hp.spawn_stable h.shared (List.getElem?_eq_some_iff.mp ht).1 (h.thread i t ht)
    · exact hL
  | act i a =>
    obtain ⟨t,sh,t',ht,hact,rfl⟩ := step_act_eq_some.mp hstep
    have hi : i < s.threads.length := (List.getElem?_eq_some_iff.mp ht).1
    obtain ⟨hI,hL⟩ := hp.act h.shared hi (h.thread i t ht) hact
    refine ⟨by simpa using hI,fun j u hu => ?_⟩
    by_cases hj : j = i
    · subst j
      rw [List.getElem?_set_self hi] at hu
      cases hu
      exact hL
    · rw [List.getElem?_set_ne (Ne.symm hj)] at hu
      exact hp.act_stable h.shared hi (h.thread i t ht) hact hj (hC t ht j u hj hu) (h.thread j u hu)
  | env g =>
    obtain ⟨sh,henv,rfl⟩ := step_env_eq_some.mp hstep
    exact ⟨hp.env h.shared henv,fun i t ht => hp.env_stable h.shared henv (h.thread i t ht)⟩

/-- Without a condition on pairs, an invariant holds after every run. -/
theorem Preserved.run {I : ℕ → σ → Prop} {L : ℕ → σ → θ → Prop}
    (hp : Preserved p (fun _ _ _ _ _ => True) I L) {s s' : State σ θ} {es : List (Event α β γ)}
    (hrun : Transition.run (Pool.step p) s es = some s') (h : Holds I L s) : Holds I L s' :=
  Transition.run_preserves (fun _ e _ hstep => hp.step hstep (by cases e <;> simp [Undisturbed]))
    hrun h

section Total

/-- The sum over all threads of what each of them holds. -/
def total (m : θ → ℕ) (s : State σ θ) : ℕ := (s.threads.map m).sum

lemma sum_map_set (m : θ → ℕ) {l : List θ} {i : ℕ} {t : θ} (ht : l[i]? = some t) (t' : θ) :
    ((l.set i t').map m).sum+m t = (l.map m).sum+m t' := by
  induction l generalizing i with
  | nil => simp at ht
  | cons a l ih =>
    cases i with
    | zero =>
      have ha : a = t := by simpa using ht
      simp only [List.set_cons_zero,List.map_cons,List.sum_cons,ha]
      omega
    | succ i =>
      have h := ih (i := i) (by simpa using ht)
      simp only [List.set_cons_succ,List.map_cons,List.sum_cons]
      omega

/-- A thread that has begun to give out what `f` says adds it to what all give out. -/
lemma perm_flatMap_set (f : θ → List β) {l : List θ} {i : ℕ} {t : θ} (ht : l[i]? = some t)
    (hf : f t = []) (t' : θ) : ((l.set i t').flatMap f).Perm (l.flatMap f ++ f t') := by
  induction l generalizing i with
  | nil => simp at ht
  | cons a l ih =>
    cases i with
    | zero =>
      have ha : a = t := by simpa using ht
      rw [List.set_cons_zero,List.flatMap_cons,List.flatMap_cons,ha,hf,List.nil_append]
      exact List.perm_append_comm
    | succ i =>
      have h := ih (i := i) (by simpa using ht)
      rw [List.set_cons_succ,List.flatMap_cons,List.flatMap_cons,List.append_assoc]
      exact h.append_left (f a)

end Total

end Pool
