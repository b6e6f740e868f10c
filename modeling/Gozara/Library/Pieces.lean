import Mathlib.Algebra.Order.Group.Nat
import Mathlib.Data.List.Basic
import Mathlib.Tactic.Common

/-!
# Splitting a list into pieces of one size

All pieces but the last have the size, and the last has one element or more. A list of
lists with these properties is the split of its concatenation.
-/
namespace Pieces
variable {α : Type*}

def pieces (n : ℕ) (l : List α) : List (List α) :=
  if _h : l = [] ∨ n = 0 then [] else l.take n::pieces n (l.drop n)
termination_by l.length
decreasing_by
  have hpos := List.length_pos_iff.mpr fun hl => _h (Or.inl hl)
  rw [List.length_drop]
  omega

variable {n : ℕ} {l : List α}

@[simp] theorem pieces_nil (n : ℕ) : pieces n ([] : List α) = [] := by
  rw [pieces,dif_pos (Or.inl rfl)]

theorem pieces_of_ne_nil (hn : 0 < n) (hl : l ≠ []) :
    pieces n l = l.take n::pieces n (l.drop n) := by
  rw [pieces,dif_neg (by simp [hl,hn.ne'])]

/-- A full piece in front is the first piece. -/
theorem pieces_append {c : List α} (hn : 0 < n) (hc : c.length = n) (l : List α) :
    pieces n (c ++ l) = c::pieces n l := by
  have hne : c ++ l ≠ [] := by
    intro h
    rw [(List.append_eq_nil_iff.mp h).1] at hc
    exact hn.ne hc
  rw [pieces_of_ne_nil hn hne,List.take_append_of_le_length hc.ge,List.take_of_length_le hc.le,
    List.drop_append_of_le_length hc.ge,List.drop_of_length_le hc.le,List.nil_append]

theorem pieces_flatten_append (hn : 0 < n) {ls : List (List α)} (hls : ∀ c ∈ ls, c.length = n)
    (l : List α) : pieces n (ls.flatten ++ l) = ls ++ pieces n l := by
  induction ls with
  | nil => rfl
  | cons c ls ih =>
    rw [List.flatten_cons,List.append_assoc,pieces_append hn (hls c List.mem_cons_self),
      ih fun d hd => hls d (List.mem_cons_of_mem _ hd)]
    rfl

theorem pieces_short (hpos : 0 < l.length) (hle : l.length ≤ n) : pieces n l = [l] := by
  have hne : l ≠ [] := List.length_pos_iff.mp hpos
  rw [pieces_of_ne_nil (by omega) hne,List.take_of_length_le hle,List.drop_of_length_le hle,
    pieces_nil]

@[simp] theorem flatten_pieces (hn : 0 < n) (l : List α) : (pieces n l).flatten = l := by
  fun_induction pieces n l with
  | case1 l h =>
    rcases h with h | h
    · simp [h]
    · omega
  | case2 l h ih => rw [List.flatten_cons,ih,List.take_append_drop]

/-- The pieces of a list with an element: all but the last are full. -/
theorem pieces_full (hn : 0 < n) (hl : l ≠ []) : ∃ front last, pieces n l = front ++ [last] ∧
    (∀ c ∈ front, c.length = n) ∧ 0 < last.length ∧ last.length ≤ n := by
  fun_induction pieces n l with
  | case1 l h =>
    rcases h with h | h
    · exact absurd h hl
    · omega
  | case2 l h ih =>
    have hpos := List.length_pos_iff.mpr hl
    by_cases hrest : l.drop n = []
    · refine ⟨[],l.take n,by rw [hrest,pieces_nil,List.nil_append],by simp,?_,?_⟩
      · rw [List.length_take]
        omega
      · exact List.length_take_le n l
    · obtain ⟨front,last,heq,hfront,hlast,hle⟩ := ih hrest
      refine ⟨l.take n::front,last,by rw [heq,List.cons_append],?_,hlast,hle⟩
      have hlen := List.length_pos_iff.mpr hrest
      rw [List.length_drop] at hlen
      intro c hc
      rcases List.mem_cons.mp hc with rfl | hc
      · rw [List.length_take]
        omega
      · exact hfront c hc

theorem length_flatten_of_full {ls : List (List α)} (h : ∀ c ∈ ls, c.length = n) :
    ls.flatten.length = ls.length*n := by
  induction ls with
  | nil => simp
  | cons c ls ih =>
    rw [List.flatten_cons,List.length_append,h c List.mem_cons_self,
      ih fun d hd => h d (List.mem_cons_of_mem _ hd),List.length_cons,Nat.succ_mul,Nat.add_comm]

end Pieces
