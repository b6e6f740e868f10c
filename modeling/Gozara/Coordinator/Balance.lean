import Gozara.Coordinator.Assignment

/-!
# How even the assignment is over several calls

Each call of `assign_chunks` starts at the first peer. Calls one after the other, with the
same peers, are balanced together exactly when at most one of them stops in the middle of
the list of peers.
-/
namespace Gozara

namespace Pipeline
open RoundRobin

/-- The chunks that calls, each on a pipeline at an instant, assign to a peer. -/
def assignedTo (peer : PeerId) (calls : List (Pipeline × Instant)) : ℕ :=
  (calls.map fun c => ((c.1.assignChunks c.2).2.map UploadTask.peer).count peer).sum

/-- The numbers of chunks that the calls assign. -/
def callSizes (calls : List (Pipeline × Instant)) : List ℕ :=
  calls.map fun c => (c.1.assignChunks c.2).2.length

lemma map_peer_tasks (now : Instant) (es : List (Sigma fun _ : Hash => Chunk))
    (peers : List PeerId) : (List.zipWith (taskFor now) es peers).map UploadTask.peer =
      peers.take (min es.length peers.length) := by
  induction es generalizing peers with
  | nil => simp
  | cons e es ih =>
    cases peers with
    | nil => simp
    | cons peer peers => simp [ih,taskFor,Nat.succ_min_succ]

/-- A call gives the first so many turns. -/
theorem peers_assignChunks {p : Pipeline} {now : Instant} {peers : List PeerId}
    (h : p.eligiblePeers now = peers) (hpos : 0 < peers.length) :
    (p.assignChunks now).2.map UploadTask.peer =
      deal peers ⟨0,hpos⟩ (p.assignChunks now).2.length := by
  subst h
  cases hcur : p.currentBlob with
  | none =>
    rw [assignChunks_idle (Or.inl hcur)]
    rfl
  | some b =>
    rw [(assignChunks_eq hcur hpos).1,map_peer_tasks,List.length_zipWith,length_deal,take_deal]
    congr 1
    omega

lemma nodup_eligiblePeers (p : Pipeline) (now : Instant) : (p.eligiblePeers now).Nodup := by
  have hsub : (p.eligiblePeers now).Sublist p.storagePermits.keys :=
    List.filter_sublist.map Sigma.fst
  exact p.storagePermits.keys_nodup.sublist hsub

theorem assignedTo_eq {peers : List PeerId} (hnodup : peers.Nodup)
    {calls : List (Pipeline × Instant)} (h : ∀ c ∈ calls, c.1.eligiblePeers c.2 = peers)
    (j : Fin peers.length) :
    assignedTo (peers.get j) calls = total peers.length j.val (callSizes calls) := by
  rw [assignedTo,total,callSizes,List.map_map]
  congr 1
  refine List.map_congr_left fun c hc => ?_
  rw [peers_assignChunks (h c hc) j.pos,count_deal hnodup]
  rfl

lemma exists_get_of_mem {peers : List PeerId} {q : PeerId} (hq : q ∈ peers) :
    ∃ j : Fin peers.length, peers.get j = q := by
  obtain ⟨j,hj⟩ := List.get_of_mem hq
  exact ⟨j,hj⟩

/-- While the peers with an unexpired permit stay the same, in the same order, two of them
get numbers of chunks that differ by at most the number of calls that stop in the middle of
the list. The numbers are within one for all of them exactly when there is at most one such
call, as when there is one call alone. -/
theorem round_robin_balance {peers : List PeerId} {calls : List (Pipeline × Instant)}
    (h : ∀ c ∈ calls, c.1.eligiblePeers c.2 = peers) :
    (∀ q ∈ peers, ∀ q' ∈ peers,
      assignedTo q calls ≤ assignedTo q' calls+broken peers.length (callSizes calls)) ∧
    ((∀ q ∈ peers, ∀ q' ∈ peers, assignedTo q calls ≤ assignedTo q' calls+1) ↔
      broken peers.length (callSizes calls) ≤ 1) := by
  cases calls with
  | nil => simp [assignedTo,callSizes,broken]
  | cons c calls =>
    have hnodup : peers.Nodup := by
      rw [← h c List.mem_cons_self]
      exact nodup_eligiblePeers c.1 c.2
    refine ⟨?_,?_⟩
    · intro q hq q' hq'
      obtain ⟨i,rfl⟩ := exists_get_of_mem hq
      obtain ⟨j,rfl⟩ := exists_get_of_mem hq'
      rw [assignedTo_eq hnodup h,assignedTo_eq hnodup h]
      exact total_le i j.isLt _
    · by_cases hnil : peers = []
      · -- Nothing is assigned, and no call stops anywhere.
        have hzero : broken peers.length (callSizes (c::calls)) = 0 := by
          rw [broken,List.countP_eq_zero]
          intro k hk
          obtain ⟨d,hd,rfl⟩ := List.mem_map.mp hk
          simp [assignChunks_idle (Or.inr ((h d hd).trans hnil))]
        exact iff_of_true (by simp [hnil]) (by omega)
      · rw [← balanced_iff (List.length_pos_iff.mpr hnil)]
        constructor
        · intro hall i j hi hj
          have hij := hall _ (List.get_mem peers ⟨i,hi⟩) _ (List.get_mem peers ⟨j,hj⟩)
          rwa [assignedTo_eq hnodup h,assignedTo_eq hnodup h] at hij
        · intro hall q hq q' hq'
          obtain ⟨i,rfl⟩ := exists_get_of_mem hq
          obtain ⟨j,rfl⟩ := exists_get_of_mem hq'
          rw [assignedTo_eq hnodup h,assignedTo_eq hnodup h]
          exact hall i j i.isLt j.isLt

end Pipeline

namespace Uploads
open Pipeline RoundRobin

/-- A call, then the second chunk's push to its peer fails and is reported. -/
def retry : List Event := [.input .timerAssign,.finish 1 none,.report 1,.recvInternal]

def calls (ss : List Uploads) : List (Pipeline × Instant) :=
  ss.map fun s => (s.coordinator.pipeline,s.clock)

/-- Three calls of one run: the first assigns two chunks to two peers, and the others, which
assign the chunk that failed, stop in the middle. -/
theorem round_robin_balance_retry : ∃ s₁ s₂ s₃ : Uploads,
    Transition.run step init opening = some s₁ ∧ Transition.run step s₁ retry = some s₂ ∧
    Transition.run step s₂ retry = some s₃ ∧ callSizes (calls [s₁,s₂,s₃]) = [2,1,1] ∧
    (∀ q ∈ [⟨[9]⟩,⟨[8]⟩], ∀ q' ∈ [⟨[9]⟩,⟨[8]⟩],
      assignedTo q (calls [s₁,s₂,s₃]) ≤ assignedTo q' (calls [s₁,s₂,s₃])+2) ∧
    ¬∀ q ∈ [⟨[9]⟩,⟨[8]⟩], ∀ q' ∈ [⟨[9]⟩,⟨[8]⟩],
      assignedTo q (calls [s₁,s₂,s₃]) ≤ assignedTo q' (calls [s₁,s₂,s₃])+1 := by
  have hall : ((Transition.run step init opening).bind fun s₁ =>
      (Transition.run step s₁ retry).bind fun s₂ => (Transition.run step s₂ retry).map fun s₃ =>
        ((calls [s₁,s₂,s₃]).map fun c => c.1.eligiblePeers c.2,callSizes (calls [s₁,s₂,s₃]))) =
      some (List.replicate 3 [⟨[9]⟩,⟨[8]⟩],[2,1,1]) := by decide
  obtain ⟨s₁,h₁,hall⟩ := Option.bind_eq_some_iff.mp hall
  obtain ⟨s₂,h₂,hall⟩ := Option.bind_eq_some_iff.mp hall
  obtain ⟨s₃,h₃,hall⟩ := Option.map_eq_some_iff.mp hall
  obtain ⟨hpeers,hsizes⟩ := Prod.mk.inj hall
  have h : ∀ c ∈ calls [s₁,s₂,s₃], c.1.eligiblePeers c.2 = [⟨[9]⟩,⟨[8]⟩] := by
    intro c hc
    have hmem := List.mem_map_of_mem (f := fun c => c.1.eligiblePeers c.2) hc
    rw [hpeers] at hmem
    exact List.eq_of_mem_replicate hmem
  have hbroken : broken 2 (callSizes (calls [s₁,s₂,s₃])) = 2 := by rw [hsizes]; rfl
  obtain ⟨hle,hiff⟩ := round_robin_balance h
  refine ⟨s₁,s₂,s₃,h₁,h₂,h₃,hsizes,?_,?_⟩
  · simpa only [List.length_cons,List.length_nil,hbroken] using hle
  · rw [hiff]
    simp [hbroken]

/-- Three calls of one run, on one blob and with the same two peers: the first assigns both
chunks, the others the chunk that failed, and each starts at the first peer again. -/
theorem retry_unbalanced : ∃ s₁ s₂ s₃ : Uploads, Transition.run step init opening = some s₁ ∧
    Transition.run step s₁ retry = some s₂ ∧ Transition.run step s₂ retry = some s₃ ∧
    ([s₁,s₂,s₃].map fun s => s.coordinator.pipeline.eligiblePeers s.clock) =
      List.replicate 3 [⟨[9]⟩,⟨[8]⟩] ∧
    ([s₁,s₂,s₃].map fun s => s.coordinator.pipeline.currentBlob.map LocalBlob.id) =
      List.replicate 3 (some blobId) ∧
    assignedTo ⟨[9]⟩ (calls [s₁,s₂,s₃]) = 3 ∧ assignedTo ⟨[8]⟩ (calls [s₁,s₂,s₃]) = 1 := by
  have hall : ((Transition.run step init opening).bind fun s₁ =>
      (Transition.run step s₁ retry).bind fun s₂ => (Transition.run step s₂ retry).map fun s₃ =>
        (([s₁,s₂,s₃].map fun s => s.coordinator.pipeline.eligiblePeers s.clock),
          ([s₁,s₂,s₃].map fun s => s.coordinator.pipeline.currentBlob.map LocalBlob.id),
          assignedTo ⟨[9]⟩ (calls [s₁,s₂,s₃]),assignedTo ⟨[8]⟩ (calls [s₁,s₂,s₃]))) =
      some (List.replicate 3 [⟨[9]⟩,⟨[8]⟩],List.replicate 3 (some blobId),3,1) := by decide
  obtain ⟨s₁,h₁,hall⟩ := Option.bind_eq_some_iff.mp hall
  obtain ⟨s₂,h₂,hall⟩ := Option.bind_eq_some_iff.mp hall
  obtain ⟨s₃,h₃,hall⟩ := Option.map_eq_some_iff.mp hall
  simp only [Prod.mk.injEq] at hall
  exact ⟨s₁,s₂,s₃,h₁,h₂,h₃,hall⟩

end Uploads

end Gozara
