import Gozara.Library.Transition
import Mathlib.Data.Nat.Notation
import Mathlib.Logic.Relation

/-!
# Tasks that wait for each other

A task that waits on a channel waits for the task that receives from it. Where every wait
goes down in a rank, no chain of waits comes back to its start. `Leads` says that steps of
tasks other than a given one reach a state with a given property.
-/
namespace WaitFor

variable {σ ε θ χ : Type*}

/-- `p` waits on a channel of which `q` is the consumer. -/
def WaitsFor (waits : θ → χ → Prop) (consumer : χ → θ) (p q : θ) : Prop :=
  ∃ c, waits p c ∧ consumer c = q

section Chains
variable {waits : θ → χ → Prop} {consumer : χ → θ} (rank : θ → ℕ)

theorem rank_lt_of_chain (hrank : ∀ p c, waits p c → rank (consumer c) < rank p) {p q : θ}
    (h : Relation.TransGen (WaitsFor waits consumer) p q) : rank q < rank p := by
  induction h with
  | single hpq =>
    obtain ⟨c,hc,rfl⟩ := hpq
    exact hrank _ c hc
  | tail _ hqr ih =>
    obtain ⟨c,hc,rfl⟩ := hqr
    exact Nat.lt_trans (hrank _ c hc) ih

theorem acyclic (hrank : ∀ p c, waits p c → rank (consumer c) < rank p) (p : θ) :
    ¬Relation.TransGen (WaitsFor waits consumer) p p := fun h =>
  Nat.lt_irrefl _ (rank_lt_of_chain rank hrank h)

end Chains

/-- Steps of tasks other than `p`, given by `task`, lead to a state with `P`. -/
def Leads (step : σ → ε → Option σ) (task : ε → Option θ) (p : θ) (P : σ → Prop) (s : σ) : Prop :=
  ∃ es t, Transition.run step s es = some t ∧ (∀ e ∈ es, ∃ q, task e = some q ∧ q ≠ p) ∧ P t

variable {step : σ → ε → Option σ} {task : ε → Option θ} {p q : θ} {P Q : σ → Prop} {s t : σ}

theorem leads_here (h : P s) : Leads step task p P s := ⟨[],s,rfl,by simp,h⟩

theorem leads_cons {e : ε} (hstep : step s e = some t) (htask : task e = some q) (hne : q ≠ p)
    (h : Leads step task p P t) : Leads step task p P s := by
  obtain ⟨es,u,hrun,hes,hu⟩ := h
  refine ⟨e::es,u,Transition.run_cons_eq_some.mpr ⟨t,hstep,hrun⟩,fun f hf => ?_,hu⟩
  rcases List.mem_cons.mp hf with rfl | hf
  · exact ⟨q,htask,hne⟩
  · exact hes f hf

theorem leads_step {e : ε} (hstep : step s e = some t) (htask : task e = some q) (hne : q ≠ p)
    (h : P t) : Leads step task p P s := leads_cons hstep htask hne (leads_here h)

theorem Leads.trans (h : Leads step task p P s) (h' : ∀ t, P t → Leads step task p Q t) :
    Leads step task p Q s := by
  obtain ⟨es,t,hrun,hes,ht⟩ := h
  obtain ⟨fs,u,hrun',hfs,hu⟩ := h' t ht
  refine ⟨es ++ fs,u,Transition.run_append_eq_some.mpr ⟨t,hrun,hrun'⟩,fun e he => ?_,hu⟩
  rcases List.mem_append.mp he with he | he
  · exact hes e he
  · exact hfs e he

end WaitFor
