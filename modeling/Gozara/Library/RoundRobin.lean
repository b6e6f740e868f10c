import Mathlib.Algebra.Order.BigOperators.Group.List
import Mathlib.Data.Nat.Count
import Mathlib.Data.Int.CardIntervalMod
import Mathlib.Tactic.Common

/-!
# Dealing in turn

Items are dealt one after the other to the members of a list, from its first member on.
One deal is balanced. Several deals that all start at the first member are balanced
together exactly when at most one of them stops in the middle of the list.
-/
namespace RoundRobin

/-- How many of `k` items the member at position `j` of `n` gets. -/
def share (n j k : ℕ) : ℕ := k/n+if j < k%n then 1 else 0

/-- What that member gets in deals of these sizes. -/
def total (n j : ℕ) (ks : List ℕ) : ℕ := (ks.map (share n j)).sum

/-- The number of deals that stop in the middle of the list. -/
def broken (n : ℕ) (ks : List ℕ) : ℕ := ks.countP fun k => k%n ≠ 0

section Deal
variable {α : Type*}

/-- The members that get `k` items, from position `i` on. -/
def deal (l : List α) : Fin l.length → ℕ → List α
  | _,0 => []
  | i,k+1 => l.get i::deal l ⟨(i.val+1)%l.length,Nat.mod_lt _ i.pos⟩ k

@[simp] theorem length_deal (l : List α) (i : Fin l.length) (k : ℕ) :
    (deal l i k).length = k := by
  induction k generalizing i with
  | zero => rfl
  | succ k ih => simp [deal,ih]

lemma mem_of_mem_deal {l : List α} {i : Fin l.length} {k : ℕ} {a : α} (h : a ∈ deal l i k) :
    a ∈ l := by
  induction k generalizing i with
  | zero => cases h
  | succ k ih =>
    rcases List.mem_cons.mp h with rfl | h
    · exact List.get_mem l i
    · exact ih h

theorem take_deal (l : List α) (i : Fin l.length) (j k : ℕ) :
    (deal l i k).take j = deal l i (min j k) := by
  induction j generalizing i k with
  | zero => simp [deal]
  | succ j ih =>
    cases k with
    | zero => simp [deal]
    | succ k => simp [deal,ih,Nat.succ_min_succ]

variable [DecidableEq α]

/-- The members in turn are at the positions `i`, `i+1`, … modulo the length. -/
theorem count_deal_eq {l : List α} (hl : l.Nodup) (i j : Fin l.length) (k : ℕ) :
    (deal l i k).count (l.get j) = Nat.count (fun m => (i.val+m)%l.length = j.val) k := by
  induction k generalizing i with
  | zero => simp [deal]
  | succ k ih =>
    have hhead : l.get i = l.get j ↔ (i.val+0)%l.length = j.val := by
      rw [hl.get_inj_iff,Nat.add_zero,Nat.mod_eq_of_lt i.isLt,Fin.ext_iff]
    have htail : (fun m => ((i.val+1)%l.length+m)%l.length = j.val) =
        fun m => (i.val+(m+1))%l.length = j.val := by
      funext m
      rw [Nat.mod_add_mod,Nat.add_assoc,Nat.add_comm 1 m]
    rw [deal,List.count_cons,ih,Nat.count_succ']
    simp only [htail,beq_iff_eq,hhead]

/-- From the first position on, every member gets its share. -/
theorem count_deal {l : List α} (hl : l.Nodup) (h : 0 < l.length) (j : Fin l.length) (k : ℕ) :
    (deal l ⟨0,h⟩ k).count (l.get j) = share l.length j.val k := by
  have hmod : (fun m => (0+m)%l.length = j.val) = fun m => m ≡ j.val [MOD l.length] := by
    funext m
    rw [Nat.ModEq,Nat.zero_add,Nat.mod_eq_of_lt j.isLt]
  rw [count_deal_eq hl]
  simp only [hmod]
  rw [Nat.count_modEq_card k h,Nat.mod_eq_of_lt j.isLt,share]

end Deal

section Total
variable {n i j : ℕ} {ks : List ℕ}

lemma share_anti (h : i ≤ j) (k : ℕ) : share n j k ≤ share n i k := by
  unfold share
  split_ifs <;> omega

lemma total_cons (n j k : ℕ) (ks : List ℕ) : total n j (k::ks) = share n j k+total n j ks := by
  simp [total]

lemma broken_cons (n k : ℕ) (ks : List ℕ) :
    broken n (k::ks) = broken n ks+if k%n ≠ 0 then 1 else 0 := by
  simp [broken,List.countP_cons]

/-- An earlier member gets no less. -/
theorem total_anti (h : i ≤ j) (ks : List ℕ) : total n j ks ≤ total n i ks := by
  induction ks with
  | nil => rfl
  | cons k ks ih =>
    rw [total_cons,total_cons]
    exact Nat.add_le_add (share_anti h k) ih

/-- The first member is ahead of the last by one item for each broken deal. -/
theorem total_first (hn : 0 < n) (ks : List ℕ) :
    total n 0 ks = total n (n-1) ks+broken n ks := by
  induction ks with
  | nil => rfl
  | cons k ks ih =>
    have hlt := Nat.mod_lt k hn
    rw [total_cons,total_cons,broken_cons,ih]
    unfold share
    split_ifs <;> omega

theorem total_le (i : ℕ) (hj : j < n) (ks : List ℕ) :
    total n i ks ≤ total n j ks+broken n ks := by
  calc total n i ks ≤ total n 0 ks := total_anti (Nat.zero_le i) ks
    _ = total n (n-1) ks+broken n ks := total_first (by omega) ks
    _ ≤ total n j ks+broken n ks := Nat.add_le_add_right (total_anti (by omega) ks) _

/-- All totals are within one exactly when at most one deal is broken. -/
theorem balanced_iff (hn : 0 < n) (ks : List ℕ) :
    (∀ i j, i < n → j < n → total n i ks ≤ total n j ks+1) ↔ broken n ks ≤ 1 := by
  constructor
  · intro h
    have hends := h 0 (n-1) hn (by omega)
    rw [total_first hn] at hends
    omega
  · intro h i j _ hj
    have hle := total_le i hj ks
    omega

end Total

end RoundRobin
