import Gozara.Library.Transition

/-!
# What can be reached

A state can be reached from another by events of a given kind. When every state that is not
a goal leads on to one with a smaller measure, a goal can be reached; and what a component
can reach, a system that takes the steps of the component can reach as well. Events that
are not of the kind can be counted: they are spent in a given order.
-/
namespace Transition

variable {σ ε τ φ : Type*} {step : σ → ε → Option σ} {Q Q' : ε → Prop} {s t u : σ}

/-- Some events, all of the kind `Q`, lead from `s` to `t`. -/
def Reaches (step : σ → ε → Option σ) (Q : ε → Prop) (s t : σ) : Prop :=
  ∃ es, (∀ e ∈ es, Q e) ∧ run step s es = some t

theorem Reaches.refl (s : σ) : Reaches step Q s s := ⟨[],by simp,rfl⟩

theorem Reaches.single {e : ε} (he : Q e) (h : step s e = some t) : Reaches step Q s t :=
  ⟨[e],by simpa using he,run_cons_eq_some.mpr ⟨t,h,rfl⟩⟩

theorem Reaches.trans (h : Reaches step Q s t) (h' : Reaches step Q t u) :
    Reaches step Q s u := by
  obtain ⟨es,hes,hrun⟩ := h
  obtain ⟨fs,hfs,hrun'⟩ := h'
  refine ⟨es ++ fs,fun e he => ?_,run_append_eq_some.mpr ⟨t,hrun,hrun'⟩⟩
  rcases List.mem_append.mp he with he | he
  · exact hes e he
  · exact hfs e he

theorem Reaches.head {e : ε} (he : Q e) (h : step s e = some t) (h' : Reaches step Q t u) :
    Reaches step Q s u := (Reaches.single he h).trans h'

theorem Reaches.mono (hQ : ∀ e, Q e → Q' e) (h : Reaches step Q s t) : Reaches step Q' s t := by
  obtain ⟨es,hes,hrun⟩ := h
  exact ⟨es,fun e he => hQ e (hes e he),hrun⟩

/-- What events of the kind `Q` keep holds of all that they reach. -/
theorem Reaches.preserves {P : σ → Prop}
    (hstep : ∀ s e t, step s e = some t → Q e → P s → P t)
    (h : Reaches step Q s t) (hs : P s) : P t := by
  obtain ⟨es,hes,hrun⟩ := h
  exact (along_of_forall s hes).preserves hstep hrun hs

/-- Where a state that is not a goal leads to a smaller one, a goal can be reached. -/
theorem reaches_of_measure {P goal : σ → Prop} (m : σ → ℕ)
    (h : ∀ s, P s → ¬goal s → ∃ t, Reaches step Q s t ∧ P t ∧ m t < m s) (hs : P s) :
    ∃ t, Reaches step Q s t ∧ P t ∧ goal t := by
  induction hm : m s using Nat.strongRecOn generalizing s with
  | ind n ih =>
    by_cases hgoal : goal s
    · exact ⟨s,.refl s,hs,hgoal⟩
    · obtain ⟨t,hreach,ht,hlt⟩ := h s hs hgoal
      obtain ⟨u,hreach',hu⟩ := ih (m t) (hm ▸ hlt) ht rfl
      exact ⟨u,hreach.trans hreach',hu⟩

/-- A system that can do what its component does can follow it wherever it goes. -/
theorem Reaches.lift {stepS : τ → φ → Option τ} {QS : φ → Prop} {f : τ → σ} {J : τ → Prop}
    (hstep : ∀ a e s, step (f a) e = some s → Q e → J a →
      ∃ b, Reaches stepS QS a b ∧ J b ∧ f b = s)
    {a : τ} (h : Reaches step Q (f a) t) (ha : J a) :
    ∃ b, Reaches stepS QS a b ∧ J b ∧ f b = t := by
  obtain ⟨es,hes,hrun⟩ := h
  induction es generalizing a with
  | nil =>
    cases hrun
    exact ⟨a,.refl a,ha,rfl⟩
  | cons e es ih =>
    obtain ⟨s,hs,hrest⟩ := run_cons_eq_some.mp hrun
    obtain ⟨b,hreach,hb,rfl⟩ := hstep a e s hs (hes e List.mem_cons_self) ha
    obtain ⟨c,hreach',hc⟩ := ih hb (fun e he => hes e (List.mem_cons_of_mem _ he)) hrest
    exact ⟨c,hreach.trans hreach',hc⟩

section Spending

/-- Events of the kind `Q`, and in between the events of the list in their order, lead from
`s` to `t`. -/
def Spends (step : σ → ε → Option σ) (Q : ε → Prop) : List ε → σ → σ → Prop
  | [],s,t => Reaches step Q s t
  | e::es,s,t => ∃ u v, Reaches step Q s u ∧ step u e = some v ∧ Spends step Q es v t

variable {es : List ε}

theorem Spends.mono (hQ : ∀ e, Q e → Q' e) (h : Spends step Q es s t) :
    Spends step Q' es s t := by
  induction es generalizing s with
  | nil => exact Reaches.mono hQ h
  | cons e es ih =>
    obtain ⟨u,v,hreach,hstep,hrest⟩ := h
    exact ⟨u,v,hreach.mono hQ,hstep,ih hrest⟩

/-- The events that are spent are in the run as often as they are listed. -/
theorem Spends.exists_run [DecidableEq ε] (h : Spends step Q es s t) :
    ∃ fs, run step s fs = some t ∧ (∀ e ∈ fs, Q e ∨ e ∈ es) ∧
      ∀ e, ¬Q e → fs.count e = es.count e := by
  induction es generalizing s with
  | nil =>
    obtain ⟨fs,hfs,hrun⟩ := h
    exact ⟨fs,hrun,fun e he => Or.inl (hfs e he),fun e he =>
      List.count_eq_zero.mpr fun hmem => he (hfs e hmem)⟩
  | cons d es ih =>
    obtain ⟨u,v,⟨fs,hfs,hrun⟩,hstep,hrest⟩ := h
    obtain ⟨gs,hrun',hgs,hcount⟩ := ih hrest
    refine ⟨fs ++ d::gs,run_append_eq_some.mpr ⟨u,hrun,run_cons_eq_some.mpr ⟨v,hstep,hrun'⟩⟩,
      fun e he => ?_,fun e he => ?_⟩
    · rcases List.mem_append.mp he with he | he
      · exact Or.inl (hfs e he)
      · rcases List.mem_cons.mp he with rfl | he
        · exact Or.inr List.mem_cons_self
        · exact (hgs e he).imp id (List.mem_cons_of_mem _)
    · have hnone : fs.count e = 0 := List.count_eq_zero.mpr fun hmem => he (hfs e hmem)
      rw [List.count_append,hnone,Nat.zero_add,List.count_cons,List.count_cons,hcount e he]

/-- A system spends what its component spends, event by event. -/
theorem Spends.lift {stepS : τ → φ → Option τ} {QS : φ → Prop} {f : τ → σ} {J : τ → Prop}
    (g : ε → φ) (hstep : ∀ a e s, step (f a) e = some s → Q e → J a →
      ∃ b, Reaches stepS QS a b ∧ J b ∧ f b = s)
    (hspend : ∀ a s, ∀ e ∈ es, step (f a) e = some s → J a →
      ∃ b, stepS a (g e) = some b ∧ J b ∧ f b = s)
    {a : τ} (h : Spends step Q es (f a) t) (ha : J a) :
    ∃ b, Spends stepS QS (es.map g) a b ∧ J b ∧ f b = t := by
  induction es generalizing a with
  | nil => exact Reaches.lift hstep h ha
  | cons e es ih =>
    obtain ⟨u,v,hreach,hnext,hrest⟩ := h
    obtain ⟨b,hreach',hb,rfl⟩ := hreach.lift hstep ha
    obtain ⟨c,hnext',hc,rfl⟩ := hspend b v e List.mem_cons_self hnext hb
    obtain ⟨d,hrest',hd⟩ := ih (fun a s e he => hspend a s e (List.mem_cons_of_mem _ he)) hrest hc
    exact ⟨d,⟨b,c,hreach',hnext',hrest'⟩,hd⟩

end Spending

end Transition
