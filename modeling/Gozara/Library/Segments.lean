import Mathlib.Data.List.Basic
import Mathlib.Tactic.Common

/-!
# A stream that arrives in segments

Elements arrive in segments of any lengths, empty ones included. One read takes what it can
of the next segment, and a reader of a given number of elements reads until it has them or
nothing more arrives. What it gets depends on the concatenation of the segments alone.
-/
namespace Segments

variable {α : Type*}

/-- Take exactly `n` elements, `none` when the stream ends before. The segments left are
those that have not been touched, after what is left of the current one. -/
def takeExact : ℕ → List (List α) → Option (List α) × List (List α)
  | 0,segs => (some [],segs)
  | _+1,[] => (none,[])
  | n+1,seg::segs =>
    if n+1 ≤ seg.length then (some (seg.take (n+1)),seg.drop (n+1)::segs)
    else
      let rest := takeExact (n+1-seg.length) segs
      (rest.1.map (seg ++ ·),rest.2)

theorem takeExact_flatten (n : ℕ) (segs : List (List α)) :
    (takeExact n segs).1 = (if n ≤ segs.flatten.length then some (segs.flatten.take n) else none) ∧
    (takeExact n segs).2.flatten = if n ≤ segs.flatten.length then segs.flatten.drop n else [] := by
  induction segs generalizing n with
  | nil => cases n <;> simp [takeExact]
  | cons seg segs ih =>
    cases n with
    | zero => simp [takeExact]
    | succ n =>
      simp only [takeExact,List.flatten_cons,List.length_append]
      split_ifs with hseg hall hall
      · simp [List.take_append_of_le_length hseg,List.drop_append_of_le_length hseg]
      · omega
      · obtain ⟨htake,hdrop⟩ := ih (n+1-seg.length)
        have hall' : seg.take (n+1) = seg := List.take_of_length_le (by omega)
        have hnone : seg.drop (n+1) = [] := List.drop_of_length_le (by omega)
        rw [if_pos (by omega)] at htake hdrop
        rw [List.take_append,List.drop_append,hall',hnone]
        exact ⟨by rw [htake,Option.map_some],hdrop⟩
      · obtain ⟨htake,hdrop⟩ := ih (n+1-seg.length)
        rw [if_neg (by omega)] at htake hdrop
        exact ⟨by rw [htake,Option.map_none],hdrop⟩

end Segments
