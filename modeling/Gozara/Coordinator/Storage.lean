import Gozara.Coordinator.Queue
import Gozara.Coordinator.Uploads

/-!
# Finalized chunks were pushed

A report of success, wherever it waits and whichever blob is current when it is handled,
goes back to a push of that hash that returned normally; and whatever is pushed is a chunk
of a blob that was received. So are, in the end, all chunks of an announced blob.
-/
namespace Gozara

namespace Coordinator

/-- The owner of every finalized chunk satisfies `P`. -/
def Owned (P : Hash → PeerId → Prop) (b : LocalBlob) : Prop :=
  ∀ h c owner, b.chunks.lookup h = some c → c.status.status = .finalized owner → P h owner

/-- The hash and the bytes of every chunk of every blob received. -/
def pool (c : Coordinator) : List (Hash × Bytes) := c.received.flatMap AdmittedBlob.chunks

variable {P : Hash → PeerId → Prop} {c c' : Coordinator} {now : Instant} {i : Input}
  {eff : Effects}

lemma Owned.mono {Q : Hash → PeerId → Prop} {b : LocalBlob} (h : Owned P b)
    (hPQ : ∀ h o, P h o → Q h o) : Owned Q b :=
  fun k d o hd ho => hPQ k o (h k d o hd ho)

lemma owned_localBlob (now : Instant) (a : AdmittedBlob) : Owned P (Pipeline.localBlob now a) := by
  intro h d o hd ho
  rw [Pipeline.localBlob_pending hd] at ho
  cases ho

/-- Chunks change by assignments and by the update at hand. -/
lemma Owned.evolves {b b' : LocalBlob} (h : Owned P b)
    (hupd : ∀ k o, i = .updateChunkStatus k (.finalized o) → P k o)
    (hev : LocalBlob.Evolves (Change now i) b b') : Owned P b' := by
  intro k d' o hd' ho
  obtain ⟨d,hd,hchange⟩ := hev.lookup_some' hd'
  have hfin : d'.isFinalized = true := by
    simp [Chunk.isFinalized,ho,ChunkUploadStatus.isFinalized]
  have hold := Pipeline.Assigned.isFinalized_eq hchange
  rw [hfin] at hold
  rw [Pipeline.Assigned.eq_of_isFinalized hchange hold.symm] at ho
  by_cases hi : ∃ st, i = .updateChunkStatus k st
  · obtain ⟨st,rfl⟩ := hi
    simp only [updated,if_true,Chunk.setStatus_status] at ho
    exact hupd k o (by rw [ho])
  · push Not at hi
    rw [updated_of_ne hi] at ho
    exact h k d o hd ho

/-- Every blob of the coordinator keeps its finalized chunks accounted for. -/
theorem Moves.owned (h : Moves now c i c' eff) (hc : ∀ b ∈ c.held ++ c.announced, Owned P b)
    (hupd : ∀ k o, i = .updateChunkStatus k (.finalized o) → P k o) :
    ∀ b ∈ c'.held ++ c'.announced, Owned P b := by
  have hcur : ∀ b, c.pipeline.currentBlob = some b → Owned P b := fun b hb =>
    hc b (by simp [held,hb])
  have hwait : ∀ b ∈ c.pipeline.pendingLocalBlobs, Owned P b := fun b hb =>
    hc b (by simp [held,hb])
  have hann : ∀ b ∈ c.announced, Owned P b := fun b hb => hc b (by simp [hb])
  have hnew : ∀ a, ∀ b ∈ c.pipeline.pendingLocalBlobs ++ [Pipeline.localBlob now a],
      Owned P b := by
    intro a b hb
    rcases List.mem_append.mp hb with hb | hb
    · exact hwait b hb
    · rw [List.mem_singleton.mp hb]
      exact owned_localBlob now a
  intro b hb
  rw [List.mem_append,held,List.mem_append,Option.mem_toList] at hb
  cases h with
  | stay received announced keeps spawned input point pointOk =>
    rw [announced,keeps.waiting] at hb
    rcases hb with (hb | hb) | hb
    · have hrel := keeps.current
      rw [hb] at hrel
      obtain ⟨b₀,hb₀,hev⟩ := HashMap.exists_of_rel_some' hrel
      exact (hcur b₀ hb₀).evolves hupd hev
    · exact hwait b hb
    · exact hann b hb
  | wait head received announced front current waiting point =>
    rw [announced,waiting,current,← front] at hb
    rcases hb with (hb | hb) | hb
    · exact hcur b hb
    · exact hnew _ b hb
    · exact hann b hb
  | begin head received announced front current waiting point =>
    rw [announced,waiting,current] at hb
    rcases hb with (hb | hb) | hb
    · exact hnew _ b (List.mem_of_mem_head? hb)
    · exact hnew _ b (List.mem_of_mem_tail hb)
    · exact hann b hb
  | archive suspended received announced front current waiting spawned point =>
    rw [announced,waiting] at hb
    rcases hb with (hb | hb) | hb
    · rw [hb] at current
      obtain ⟨b₀,hb₀,hev⟩ := HashMap.exists_of_rel_some' current
      have hchange : LocalBlob.Evolves (Change now .bridgeSend) b₀ b := hev
      exact (hwait b₀ (List.mem_of_mem_head? hb₀)).evolves (by simp) hchange
    · exact hwait b (List.mem_of_mem_tail hb)
    · rcases List.mem_append.mp hb with hb | hb
      · exact hann b hb
      · rw [List.mem_singleton.mp hb]
        exact hcur _ front
  | stop head =>
    rcases hb with (hb | hb) | hb
    · cases hb
    · cases hb
    · exact hann b hb

/-- Only finished blobs are announced. -/
theorem Moves.announced_finished (h : Moves now c i c' eff) (hpoint : c.PointOk)
    (hc : ∀ b ∈ c.announced, b.Finished) : ∀ b ∈ c'.announced, b.Finished := by
  cases h with
  | stay received announced =>
    rw [announced]
    exact hc
  | wait head received announced =>
    rw [announced]
    exact hc
  | begin head received announced =>
    rw [announced]
    exact hc
  | archive suspended received announced front =>
    rw [announced]
    intro b hb
    rcases List.mem_append.mp hb with hb | hb
    · exact hc b hb
    · obtain ⟨b₀,hb₀,hfin,-⟩ := hpoint.sending _ suspended
      rw [front] at hb₀
      cases hb₀
      rw [List.mem_singleton.mp hb]
      exact hfin
  | stop => exact hc

/-- Every blob of the coordinator is one that it received, up to the statuses of its chunks. -/
theorem Orderly.origin (ho : c.Orderly) {b : LocalBlob} (hb : b ∈ c.held ++ c.announced) :
    ∃ a ∈ c.received, a.manifest = b.manifest := by
  have hmem : b.manifest ∈ c.received.map AdmittedBlob.manifest := by
    rcases List.mem_append.mp hb with hb | hb
    · have hrun : c.point ≠ .stopped := by
        intro hstop
        obtain ⟨hcur,hwait⟩ := ho.ended hstop
        simp [held,hcur,hwait] at hb
      rw [← ho.customers hrun]
      rcases List.mem_append.mp hb with hb | hb
      · have hcur := Option.mem_toList.mp hb
        simp [ServiceQueue.customers,queue,Option.mem_def.mp hcur]
      · exact List.mem_append_right _ (List.mem_map_of_mem hb)
    · exact ho.order.subset (List.mem_map_of_mem hb)
  exact List.mem_map.mp hmem

/-- The blobs of the coordinator consist of chunks that were received. -/
theorem Orderly.mem_pool (ho : c.Orderly) {b : LocalBlob} {h : Hash} {d : Chunk}
    (hb : b ∈ c.held ++ c.announced) (hd : b.chunks.lookup h = some d) : (h,d.data) ∈ c.pool := by
  obtain ⟨a,ha,hab⟩ := ho.origin hb
  have hdata : a.manifest.data h = some d.data := by
    rw [hab]
    simp [LocalBlob.manifest,hd]
  exact List.mem_flatMap.mpr ⟨a,ha,HashMap.mem_of_lookup_collect hdata⟩

lemma Moves.pool_subset (h : Moves now c i c' eff) : c.pool ⊆ c'.pool := by
  unfold pool
  rw [h.received_eq,List.flatMap_append]
  exact List.subset_append_left _ _

lemma Moves.spawned_mem_pool (h : Moves now c i c' eff) (ho : c'.Orderly) :
    ∀ u ∈ eff.spawned, (u.hash,u.payload) ∈ c'.pool := by
  have hspawned : ∀ u ∈ eff.spawned, ∃ b d, c'.pipeline.currentBlob = some b ∧
      b.chunks.lookup u.hash = some d ∧ u.payload = d.data := by
    intro u hu
    have hmem : ∀ {f o}, Pipeline.Spawned now f o c'.pipeline.currentBlob eff.spawned →
        ∃ b d, c'.pipeline.currentBlob = some b ∧ b.chunks.lookup u.hash = some d ∧
          u.payload = d.data := by
      intro f o hs
      obtain ⟨b,d,hb,hd,hdata,-⟩ := hs.mem hu
      exact ⟨b,d,hb,hd,hdata⟩
    cases h with
    | stay _ _ _ spawned => exact hmem spawned
    | archive _ _ _ _ _ _ spawned => exact hmem spawned
    | _ => simp at hu
  intro u hu
  obtain ⟨b,d,hb,hd,hdata⟩ := hspawned u hu
  rw [hdata]
  exact ho.mem_pool (by simp [held,hb]) hd

end Coordinator

namespace Uploads
open Coordinator

/-- A push of this hash to this peer returned normally. -/
def Acked (s : Uploads) (h : Hash) (owner : PeerId) : Prop :=
  ∃ p ∈ s.acked, p.hash = h ∧ p.peer = owner

/-- The invariant about pushes, reports and statuses. -/
structure Stored (s : Uploads) : Prop where
  orderly : s.coordinator.Orderly
  tasks : ∀ t ∈ s.tasks, (t.upload.hash,t.upload.payload) ∈ s.coordinator.pool
  acked : ∀ p ∈ s.acked, (p.hash,p.data) ∈ s.coordinator.pool
  reporting : ∀ t ∈ s.tasks, ∀ o, t.phase = .reporting (.finalized o) → s.Acked t.upload.hash o
  reports : ∀ h o, (h,.finalized o) ∈ s.internal → s.Acked h o
  owned : ∀ b ∈ s.coordinator.held ++ s.coordinator.announced, Owned s.Acked b
  announced : ∀ b ∈ s.coordinator.announced, b.Finished

theorem stored_init : Stored init where
  orderly := orderly_init
  tasks := by simp [init]
  acked := by simp [init]
  reporting := by simp [init]
  reports := by simp [init]
  owned := by simp [init,Coordinator.init,held,Pipeline.new]
  announced := by simp [init,Coordinator.init]

variable {s s' : Uploads} {e : Event} {dropped : List LocalBlob}

/-- The blob that an event brings to the coordinator. -/
def newBlob? : Event → Option AdmittedBlob
  | .input i => Coordinator.newBlob? i
  | _ => none

lemma inputOf_newBlob {i : Input} (hi : s.inputOf e = some i) :
    Coordinator.newBlob? i = newBlob? e := by
  cases e with
  | input j =>
    cases hi
    rfl
  | recvInternal =>
    obtain ⟨m,-,rfl⟩ := Option.map_eq_some_iff.mp hi
    rfl
  | _ => cases hi

lemma remaining_subset (s : Uploads) (e : Event) : s.remaining e ⊆ s.internal := by
  unfold remaining
  split
  · exact List.tail_subset _
  · exact fun _ h => h

lemma orderly_releasePermit {c : Coordinator} (h : c.Orderly) : (releasePermit c).Orderly :=
  ⟨h.customers,h.busy,h.waiting,⟨h.pointOk.running,h.pointOk.sending⟩,h.order,h.ended⟩

/-- Tasks, permits and acknowledged pushes do not concern the blobs of the coordinator. -/
lemma Stored.release (h : Stored s) {tasks : List Task} {internal : List (Hash × ChunkUploadStatus)}
    {acked : List AckedPush} {c : Coordinator}
    (hc : c = s.coordinator ∨ c = releasePermit s.coordinator)
    (htasks : ∀ t ∈ tasks, (t.upload.hash,t.upload.payload) ∈ s.coordinator.pool)
    (hacked : ∀ p ∈ acked, (p.hash,p.data) ∈ s.coordinator.pool) (hsub : s.acked ⊆ acked)
    (hreporting : ∀ t ∈ tasks, ∀ o, t.phase = .reporting (.finalized o) →
      ∃ p ∈ acked, p.hash = t.upload.hash ∧ p.peer = o)
    (hreports : ∀ h o, (h,.finalized o) ∈ internal → ∃ p ∈ acked, p.hash = h ∧ p.peer = o) :
    Stored { s with coordinator := c,tasks := tasks,internal := internal,acked := acked } := by
  have howned : ∀ b ∈ s.coordinator.held ++ s.coordinator.announced,
      Owned (fun h o => ∃ p ∈ acked, p.hash = h ∧ p.peer = o) b := by
    intro b hb
    refine (h.owned b hb).mono ?_
    rintro k o ⟨p,hp,hk⟩
    exact ⟨p,hsub hp,hk⟩
  rcases hc with rfl | rfl
  · exact ⟨h.orderly,htasks,hacked,hreporting,hreports,howned,h.announced⟩
  · exact ⟨orderly_releasePermit h.orderly,htasks,hacked,hreporting,hreports,howned,h.announced⟩

lemma Stored.of_mem_set (h : Stored s) {k : ℕ} {u : UploadTask} {phase phase' : TaskPhase}
    (ht : s.tasks[k]? = some ⟨u,phase⟩) {t : Task} (hmem : t ∈ s.tasks.set k ⟨u,phase'⟩) :
    (t.upload.hash,t.upload.payload) ∈ s.coordinator.pool ∧ (t ∈ s.tasks ∨ t = ⟨u,phase'⟩) := by
  have hpool := h.tasks _ (List.mem_of_getElem? ht)
  rcases List.mem_or_eq_of_mem_set hmem with hmem | rfl
  · exact ⟨h.tasks t hmem,Or.inl hmem⟩
  · exact ⟨hpool,Or.inr rfl⟩

theorem Steps.orderly (hstep : Steps s e s' dropped) (h : s.coordinator.Orderly)
    (hnew : ∀ a, newBlob? e = some a → a.chunks ≠ []) : s'.coordinator.Orderly := by
  cases hstep with
  | loop input direct moves =>
    refine moves.orderly h ?_
    rintro a rfl
    exact hnew a ((inputOf_newBlob input).symm.trans rfl)
  | tick => exact h
  | report => exact h
  | _ => exact orderly_releasePermit h

/-- One event keeps the invariant when the blob it brings has a chunk. -/
theorem Steps.stored (hstep : Steps s e s' dropped) (h : Stored s)
    (hnew : ∀ a, newBlob? e = some a → a.chunks ≠ []) : Stored s' := by
  cases hstep with
  | tick => exact ⟨h.orderly,h.tasks,h.acked,h.reporting,h.reports,h.owned,h.announced⟩
  | @loop e i c eff input direct moves exec =>
    have ho : c.Orderly := (Steps.loop input direct moves exec).orderly h.orderly hnew
    have hupd : ∀ k o, i = .updateChunkStatus k (.finalized o) → s.Acked k o := by
      rintro k o rfl
      exact h.reports k o (by rw [direct k _ rfl]; exact List.mem_cons_self)
    refine ⟨ho,?_,fun p hp => moves.pool_subset (h.acked p hp),?_,?_,moves.owned h.owned hupd,
      moves.announced_finished h.orderly.pointOk h.announced⟩
    · intro t ht
      rcases List.mem_append.mp ht with ht | ht
      · exact moves.pool_subset (h.tasks t ht)
      · obtain ⟨u,hu,rfl⟩ := List.mem_map.mp ht
        exact moves.spawned_mem_pool ho u hu
    · intro t ht o hphase
      rcases List.mem_append.mp ht with ht | ht
      · exact h.reporting t ht o hphase
      · obtain ⟨u,-,rfl⟩ := List.mem_map.mp ht
        cases hphase
    · intro k o hmem
      split_ifs at hmem
      · cases hmem
      · exact h.reports k o (remaining_subset s e hmem)
  | @acknowledged k u stream task ok =>
    have hpool := h.tasks _ (List.mem_of_getElem? task)
    refine h.release (Or.inr rfl) (fun t ht => (h.of_mem_set task ht).1) ?_
      (List.subset_append_left _ _) ?_ ?_
    · intro p hp
      rcases List.mem_append.mp hp with hp | hp
      · exact h.acked p hp
      · rw [List.mem_singleton.mp hp]
        exact hpool
    · intro t ht o hphase
      rcases (h.of_mem_set task ht).2 with ht | rfl
      · obtain ⟨p,hp,hpt⟩ := h.reporting t ht o hphase
        exact ⟨p,List.mem_append_left _ hp,hpt⟩
      · cases hphase
        exact ⟨_,List.mem_append_right _ List.mem_cons_self,rfl,rfl⟩
    · intro j o hmem
      obtain ⟨p,hp,hpt⟩ := h.reports j o hmem
      exact ⟨p,List.mem_append_left _ hp,hpt⟩
  | @failed k u stream task =>
    refine h.release (Or.inr rfl) (fun t ht => (h.of_mem_set task ht).1) h.acked
      (fun _ hp => hp) ?_ h.reports
    intro t ht o hphase
    rcases (h.of_mem_set task ht).2 with ht | rfl
    · exact h.reporting t ht o hphase
    · cases hphase
  | @timeout k u task =>
    have hsub : ∀ t ∈ s.tasks.eraseIdx k, t ∈ s.tasks := fun t ht => List.mem_of_mem_eraseIdx ht
    exact h.release (Or.inr rfl) (fun t ht => h.tasks t (hsub t ht)) h.acked (fun _ hp => hp)
      (fun t ht => h.reporting t (hsub t ht)) h.reports
  | @report k u status task =>
    have hsub : ∀ t ∈ s.tasks.eraseIdx k, t ∈ s.tasks := fun t ht => List.mem_of_mem_eraseIdx ht
    refine h.release (Or.inl rfl) (fun t ht => h.tasks t (hsub t ht)) h.acked (fun _ hp => hp)
      (fun t ht => h.reporting t (hsub t ht)) ?_
    intro j o hmem
    split_ifs at hmem
    · exact h.reports j o hmem
    · rcases List.mem_append.mp hmem with hmem | hmem
      · exact h.reports j o hmem
      · cases List.mem_singleton.mp hmem
        exact h.reporting _ (List.mem_of_getElem? task) o rfl

end Uploads

end Gozara
