import Gozara.Coordinator.Storage

/-!
# When a finalized chunk stays finalized

A report names a chunk by its hash alone and overwrites whatever status the chunk has. A
finalized chunk of the current blob is undone exactly when the report of a failed attempt
is handled for it. That cannot happen while the outcome of every attempt is handled before
its chunk is offered again: then there is one attempt for a chunk at a time.
-/
namespace Gozara.Uploads
open Coordinator Pipeline

/-- The chunk with hash `h` of the current blob. -/
def chunk? (s : Uploads) (h : Hash) : Option Chunk :=
  s.coordinator.pipeline.currentBlob.bind fun b => b.chunks.lookup h

/-- The finalized chunks of the current blob stay so, or the blob is archived, or the
coordinator ends. -/
def StaysFinalized (s s' : Uploads) : Prop :=
  ∀ b h d, s.coordinator.pipeline.currentBlob = some b → b.chunks.lookup h = some d →
    d.isFinalized = true →
    s'.coordinator.announced = s.coordinator.announced ++ [b] ∨
    (s'.coordinator.point = .stopped ∧ s.coordinator.point ≠ .stopped) ∨
    ∃ b' d', s'.coordinator.pipeline.currentBlob = some b' ∧ b'.manifest = b.manifest ∧
      b'.chunks.lookup h = some d' ∧ d'.isFinalized = true

/-- The report that is handled next is of a failed attempt, for a chunk that is finalized. -/
def StaleFailure (s : Uploads) (e : Event) : Prop :=
  e = .recvInternal ∧ ∃ h st d, s.internal.head? = some (h,st) ∧ st.isFinalized = false ∧
    s.chunk? h = some d ∧ d.isFinalized = true

/-- The outcome of every attempt that is out for longer than the window, and whose chunk
could be offered again at this event, is already handled: no task and no report is left. -/
def Timely (s : Uploads) (e : Event) : Prop :=
  ∀ h d peer, s.chunk? h = some d → d.status.status = .inflight peer →
    chunkUploadWindow < s.clock.secsSince d.status.stamp →
    (∀ t ∈ s.tasks, t.upload.hash ≠ h) ∧ ∀ m ∈ s.remaining e, m.1 ≠ h

variable {s s' : Uploads} {e : Event} {dropped : List LocalBlob}

lemma chunk?_eq_some {h : Hash} {d : Chunk} : s.chunk? h = some d ↔
    ∃ b, s.coordinator.pipeline.currentBlob = some b ∧ b.chunks.lookup h = some d :=
  Option.bind_eq_some_iff

/-- The update of a chunk, where it is not the undoing of a finalized one. -/
lemma updated_isFinalized {now : Instant} {i : Input} {h : Hash} {d : Chunk}
    (hd : d.isFinalized = true)
    (hi : ∀ st, i = .updateChunkStatus h st → st.isFinalized = true) :
    (updated now i h d).isFinalized = true := by
  by_cases hst : ∃ st, i = .updateChunkStatus h st
  · obtain ⟨st,rfl⟩ := hst
    simpa [updated,Chunk.isFinalized] using hi st rfl
  · push Not at hst
    rwa [updated_of_ne hst]

/-- An update status comes from the head of the internal channel. -/
lemma head_of_update {i : Input} {h : Hash} {st : ChunkUploadStatus} (hi : s.inputOf e = some i)
    (direct : ∀ h st, i = .updateChunkStatus h st → s.internal = (h,st)::s.remaining e)
    (heq : i = .updateChunkStatus h st) : e = .recvInternal ∧ s.internal.head? = some (h,st) := by
  have hint := direct h st heq
  cases e with
  | recvInternal => exact ⟨rfl,by rw [hint]; rfl⟩
  | input j =>
    -- A direct input leaves the channel as it is.
    have hlen := congrArg List.length hint
    simp [remaining] at hlen
  | _ => cases hi

theorem Steps.stays_finalized (hstep : Steps s e s' dropped) (h : ¬StaleFailure s e) :
    StaysFinalized s s' := by
  intro b k d hb hd hfin
  have hsame : ∀ {q : Uploads}, q.coordinator.pipeline.currentBlob = some b →
      ∃ b' d', q.coordinator.pipeline.currentBlob = some b' ∧ b'.manifest = b.manifest ∧
        b'.chunks.lookup k = some d' ∧ d'.isFinalized = true := fun hq => ⟨b,d,hq,rfl,hd,hfin⟩
  cases hstep with
  | @loop e i c eff input direct moves =>
    cases moves with
    | stay received announced keeps spawned =>
      right; right
      have hrel := keeps.current
      rw [hb] at hrel
      obtain ⟨b',hb',hev⟩ := HashMap.exists_of_rel_some hrel
      obtain ⟨d',hd',hchange⟩ := hev.lookup_some hd
      refine ⟨b',d',hb',hev.manifest_eq fun _ _ _ => Change.data_eq,hd',?_⟩
      rw [Assigned.isFinalized_eq hchange]
      apply updated_isFinalized hfin
      intro st hi
      obtain ⟨rfl,hhead⟩ := head_of_update input direct hi
      by_contra hst
      exact h ⟨rfl,k,st,d,hhead,by simpa using hst,chunk?_eq_some.mpr ⟨b,hb,hd⟩,hfin⟩
    | wait head received announced front current =>
      rw [hb] at front
      cases front
      exact Or.inr (Or.inr (hsame current))
    | begin head received announced front =>
      rw [hb] at front
      cases front
    | archive suspended received announced front =>
      rw [hb] at front
      cases front
      exact Or.inl announced
    | stop head => exact Or.inr (Or.inl ⟨rfl,by rw [head]; simp⟩)
  | _ => exact Or.inr (Or.inr (hsame hb))

/-- The report of a failure undoes a finalized chunk. -/
theorem Steps.not_stays_finalized (hstep : Steps s e s' dropped) (h : StaleFailure s e) :
    ¬StaysFinalized s s' := by
  obtain ⟨rfl,k,st,d,hhead,hst,hchunk,hfin⟩ := h
  obtain ⟨b,hb,hd⟩ := chunk?_eq_some.mp hchunk
  intro hstays
  cases hstep with
  | @loop e i c eff input direct moves =>
    have hi : i = .updateChunkStatus k st := by
      simpa [inputOf,hhead] using input.symm
    subst hi
    cases moves with
    | stay received announced keeps spawned inputs point =>
      rcases hstays b k d hb hd hfin with hann | ⟨hstop,hrun⟩ | ⟨b',d',hb',-,hd',hfin'⟩
      · have hlen := congrArg List.length (announced.symm.trans hann)
        simp at hlen
      · exact hrun (point.mp hstop)
      · have hrel := keeps.current
        rw [hb] at hrel
        obtain ⟨b₁,hb₁,hev⟩ := HashMap.exists_of_rel_some hrel
        obtain ⟨d₁,hd₁,hchange⟩ := hev.lookup_some hd
        cases hb'.symm.trans hb₁
        cases hd'.symm.trans hd₁
        rw [Assigned.isFinalized_eq hchange] at hfin'
        simp [updated,Chunk.isFinalized,hst] at hfin'

/-- The hashes of the attempts whose outcome is not handled yet. -/
def outstanding (s : Uploads) : List Hash :=
  s.tasks.map (fun t => t.upload.hash) ++ s.internal.map Prod.fst

/-- While the coordinator runs, there is one attempt for a chunk at a time, and its chunk is
in flight. -/
structure Single (s : Uploads) : Prop where
  nodup : s.outstanding.Nodup
  inflight : ∀ h ∈ s.outstanding, ∃ d peer, s.chunk? h = some d ∧ d.status.status = .inflight peer

lemma isEligible_inflight {now : Instant} {d : Chunk} {peer : PeerId}
    (hd : d.status.status = .inflight peer)
    (h : ¬chunkUploadWindow < now.secsSince d.status.stamp) : isEligible now d = false := by
  simp [isEligible,hd,h]

/-- What is left of the channel after an event is part of it. -/
lemma sublist_remaining (s : Uploads) (e : Event) : (s.remaining e).Sublist s.internal := by
  unfold remaining
  split
  · exact List.tail_sublist _
  · exact List.Sublist.refl _

/-- The state after an input whose spawned tasks are for new chunks. -/
lemma single_loop {c : Coordinator} {ts : List UploadTask}
    {internal : List (Hash × ChunkUploadStatus)}
    (hnodup : (s.tasks.map (fun t => t.upload.hash) ++ internal.map Prod.fst).Nodup)
    (hnew : (ts.map UploadTask.hash).Nodup)
    (hdisj : ∀ u ∈ ts, u.hash ∉ s.tasks.map (fun t => t.upload.hash) ++ internal.map Prod.fst)
    (hold : ∀ h ∈ s.tasks.map (fun t => t.upload.hash) ++ internal.map Prod.fst,
      ∃ b d peer, c.pipeline.currentBlob = some b ∧ b.chunks.lookup h = some d ∧
        d.status.status = .inflight peer)
    (hspawned : ∀ u ∈ ts, ∃ b d peer, c.pipeline.currentBlob = some b ∧
      b.chunks.lookup u.hash = some d ∧ d.status.status = .inflight peer) :
    Single { s with
      coordinator := c,internal := internal,tasks := s.tasks ++ ts.map fun u => ⟨u,.uploading⟩ } := by
  have hperm : (s.tasks.map (fun t => t.upload.hash) ++ ts.map UploadTask.hash ++
      internal.map Prod.fst).Perm (s.tasks.map (fun t => t.upload.hash) ++ internal.map Prod.fst ++
        ts.map UploadTask.hash) := by
    rw [List.append_assoc,List.append_assoc]
    exact List.Perm.append_left _ List.perm_append_comm
  have hout : outstanding { s with
        coordinator := c,internal := internal,tasks := s.tasks ++ ts.map fun u => ⟨u,.uploading⟩ } =
      s.tasks.map (fun t => t.upload.hash) ++ ts.map UploadTask.hash ++ internal.map Prod.fst := by
    simp [outstanding,Function.comp_def]
  refine ⟨?_,?_⟩
  · rw [hout,hperm.nodup_iff,List.nodup_append']
    refine ⟨hnodup,hnew,?_⟩
    intro h hh hmem
    obtain ⟨u,hu,rfl⟩ := List.mem_map.mp hmem
    exact hdisj u hu hh
  · intro h hh
    rw [hout,hperm.mem_iff] at hh
    rcases List.mem_append.mp hh with hh | hh
    · obtain ⟨b,d,peer,hb,hd,hst⟩ := hold h hh
      exact ⟨d,peer,chunk?_eq_some.mpr ⟨b,hb,hd⟩,hst⟩
    · obtain ⟨u,hu,rfl⟩ := List.mem_map.mp hh
      obtain ⟨b,d,peer,hb,hd,hst⟩ := hspawned u hu
      exact ⟨d,peer,chunk?_eq_some.mpr ⟨b,hb,hd⟩,hst⟩

/-- Attempts that stay out are for chunks that cannot be offered again now. -/
lemma Single.kept (h : Single s) (ht : Timely s e) {i : Input} {k : Hash}
    (direct : ∀ h st, i = .updateChunkStatus h st → s.internal = (h,st)::s.remaining e)
    (hk : k ∈ s.tasks.map (fun t => t.upload.hash) ++ (s.remaining e).map Prod.fst) :
    ∃ b d peer, s.coordinator.pipeline.currentBlob = some b ∧ b.chunks.lookup k = some d ∧
      d.status.status = .inflight peer ∧ updated s.clock i k d = d ∧ isEligible s.clock d = false := by
  have hsub : (s.tasks.map (fun t => t.upload.hash) ++ (s.remaining e).map Prod.fst).Sublist
      s.outstanding := (List.Sublist.refl _).append ((sublist_remaining s e).map _)
  obtain ⟨d,peer,hchunk,hst⟩ := h.inflight k (hsub.subset hk)
  obtain ⟨b,hb,hd⟩ := chunk?_eq_some.mp hchunk
  refine ⟨b,d,peer,hb,hd,hst,updated_of_ne ?_ d,isEligible_inflight hst ?_⟩
  · -- The report at hand is the only one for its chunk.
    intro st hi
    have hnodup := h.nodup
    rw [outstanding,direct k st hi,List.map_cons,List.nodup_middle] at hnodup
    exact (List.nodup_cons.mp hnodup).1 hk
  · intro hlate
    obtain ⟨htasks,hreports⟩ := ht k d peer hchunk hst hlate
    rcases List.mem_append.mp hk with hk | hk
    · obtain ⟨t,ht,rfl⟩ := List.mem_map.mp hk
      exact htasks t ht rfl
    · obtain ⟨m,hm,rfl⟩ := List.mem_map.mp hk
      exact hreports m hm rfl

lemma nodup_kept (h : Single s) (e : Event) :
    (s.tasks.map (fun t => t.upload.hash) ++ (s.remaining e).map Prod.fst).Nodup :=
  h.nodup.sublist ((List.Sublist.refl _).append ((sublist_remaining s e).map _))

theorem single_of_moves {i : Input} {c : Coordinator} {eff : Effects} (h : Single s)
    (hp : s.coordinator.PointOk) (ht : Timely s e)
    (direct : ∀ h st, i = .updateChunkStatus h st → s.internal = (h,st)::s.remaining e)
    (moves : Moves s.clock s.coordinator i c eff) (hi : i ≠ .stop) :
    Single { s with
      coordinator := c,internal := s.remaining e
      tasks := s.tasks ++ eff.spawned.map fun u => ⟨u,.uploading⟩ } := by
  have hnone : ∀ k ∈ s.tasks.map (fun t => t.upload.hash) ++ (s.remaining e).map Prod.fst,
      ∃ b, s.coordinator.pipeline.currentBlob = some b ∧ ¬b.Finished := by
    intro k hk
    obtain ⟨b,d,peer,hb,hd,hst,-⟩ := h.kept ht direct hk
    refine ⟨b,hb,fun hfin => ?_⟩
    have hfinal := LocalBlob.finished_iff.mp hfin k d hd
    simp [Chunk.isFinalized,hst,ChunkUploadStatus.isFinalized] at hfinal
  cases moves with
  | @stay i c ts received announced keeps spawned =>
    refine single_loop (nodup_kept h e) spawned.nodup ?_ ?_ ?_
    · intro u hu hmem
      obtain ⟨b,d,peer,hb,hd,-,hupd,hel⟩ := h.kept ht direct hmem
      obtain ⟨b₁,-,d₁,hb₁,-,hd₁,hel₁,-⟩ := spawned.task u hu
      cases hb.symm.trans hb₁
      cases hd.symm.trans hd₁
      rw [hupd,hel] at hel₁
      cases hel₁
    · intro k hk
      obtain ⟨b,d,peer,hb,hd,hst,hupd,hel⟩ := h.kept ht direct hk
      have hrel := keeps.current
      rw [hb] at hrel
      obtain ⟨b',hb',hev⟩ := HashMap.exists_of_rel_some hrel
      obtain ⟨d',hd',hchange⟩ := hev.lookup_some hd
      have hass : Assigned s.clock d d' := by
        rw [← hupd]
        exact hchange
      rcases hass with rfl | ⟨htrue,-⟩
      · exact ⟨b',d',peer,hb',hd',hst⟩
      · rw [hel] at htrue
        cases htrue
    · intro u hu
      obtain ⟨b',d',hb',hd',-,hst⟩ := spawned.mem hu
      exact ⟨b',d',u.peer,hb',hd',hst⟩
  | wait head received announced front current =>
    refine single_loop (nodup_kept h e) List.nodup_nil (by simp) ?_ (by simp)
    intro k hk
    obtain ⟨b,d,peer,hb,hd,hst,-⟩ := h.kept ht direct hk
    rw [front] at hb
    cases hb
    exact ⟨_,d,peer,current,hd,hst⟩
  | begin head received announced front =>
    refine single_loop (nodup_kept h e) List.nodup_nil (by simp) ?_ (by simp)
    intro k hk
    obtain ⟨b,hb,-⟩ := hnone k hk
    rw [front] at hb
    cases hb
  | archive suspended received announced front current waiting spawned =>
    -- The archived blob is finished, so that no attempt is out.
    have hempty : ∀ k, k ∉ s.tasks.map (fun t => t.upload.hash) ++ (s.remaining e).map Prod.fst := by
      intro k hk
      obtain ⟨b,hb,hunfinished⟩ := hnone k hk
      obtain ⟨b',hb',hfin,-⟩ := hp.sending _ suspended
      cases hb.symm.trans hb'
      exact hunfinished hfin
    refine single_loop (nodup_kept h e) spawned.nodup (fun u _ => hempty u.hash)
      (fun k hk => absurd hk (hempty k)) ?_
    intro u hu
    obtain ⟨b',d',hb',hd',-,hst⟩ := spawned.mem hu
    exact ⟨b',d',u.peer,hb',hd',hst⟩
  | stop => exact absurd rfl hi

/-- Attempts end and are reported without a second one for the same chunk. -/
lemma Single.congr (h : Single s) (hcur : s'.coordinator.pipeline.currentBlob =
      s.coordinator.pipeline.currentBlob) (hnodup : s'.outstanding.Nodup)
    (hsub : s'.outstanding ⊆ s.outstanding) : Single s' := by
  refine ⟨hnodup,fun k hk => ?_⟩
  obtain ⟨d,peer,hd,hst⟩ := h.inflight k (hsub hk)
  refine ⟨d,peer,?_,hst⟩
  unfold chunk?
  rw [hcur]
  exact hd

lemma map_hash_set {tasks : List Task} {k : ℕ} {u : UploadTask} {phase phase' : TaskPhase}
    (h : tasks[k]? = some ⟨u,phase⟩) :
    (tasks.set k ⟨u,phase'⟩).map (fun t => t.upload.hash) = tasks.map fun t => t.upload.hash := by
  apply List.ext_getElem?
  intro j
  rw [List.getElem?_map,List.getElem?_map]
  by_cases hj : k = j
  · subst hj
    rw [List.getElem?_set_self (List.getElem?_eq_some_iff.mp h).1,h]
    rfl
  · rw [List.getElem?_set_ne hj]

theorem Steps.single (hstep : Steps s e s' dropped)
    (h : s.coordinator.point ≠ .stopped → Single s) (hp : s.coordinator.PointOk)
    (ht : Timely s e) : s'.coordinator.point ≠ .stopped → Single s' := by
  intro hrun
  cases hstep with
  | tick => exact ⟨(h hrun).nodup,(h hrun).inflight⟩
  | @loop e i c eff input direct moves =>
    simp only at hrun
    simp only [if_neg hrun]
    have hi : i ≠ .stop := by
      rintro rfl
      cases moves with
      | stay _ _ _ _ inputs => exact inputs.2.2 rfl
      | stop => exact hrun rfl
    exact single_of_moves (h ((moves.not_stopped hi).mpr hrun)) hp ht direct moves hi
  | acknowledged task ok =>
    refine (h hrun).congr rfl ?_ ?_ <;> simp only [outstanding,map_hash_set task]
    · exact (h hrun).nodup
    · exact fun _ hk => hk
  | failed task =>
    refine (h hrun).congr rfl ?_ ?_ <;> simp only [outstanding,map_hash_set task]
    · exact (h hrun).nodup
    · exact fun _ hk => hk
  | @timeout k u task =>
    have hsub : ((s.tasks.eraseIdx k).map (fun t => t.upload.hash) ++
        s.internal.map Prod.fst).Sublist s.outstanding :=
      ((List.eraseIdx_sublist _ _).map _).append (List.Sublist.refl _)
    exact (h hrun).congr rfl ((h hrun).nodup.sublist hsub) hsub.subset
  | @report k u status task =>
    have hsingle := h hrun
    have hrun' : s.coordinator.point ≠ .stopped := hrun
    obtain ⟨hk,hget⟩ := List.getElem?_eq_some_iff.mp task
    have htasks : (u.hash::(s.tasks.eraseIdx k).map fun t => t.upload.hash).Perm
        (s.tasks.map fun t => t.upload.hash) := by
      have hperm := (List.getElem_cons_eraseIdx_perm hk).map fun t => t.upload.hash
      simpa [hget] using hperm
    have hperm : ((s.tasks.eraseIdx k).map (fun t => t.upload.hash) ++
        (s.internal ++ [(u.hash,status)]).map Prod.fst).Perm s.outstanding := by
      rw [List.map_append,← List.append_assoc]
      refine List.Perm.trans List.perm_append_comm ?_
      exact htasks.append_right _
    simp only [if_neg hrun']
    exact hsingle.congr rfl (hperm.nodup_iff.mpr hsingle.nodup) hperm.subset

/-- Under one attempt at a time no report of a failure comes for a finalized chunk. -/
lemma not_staleFailure (ho : s.coordinator.Orderly) (h : s.coordinator.point ≠ .stopped → Single s) :
    ¬StaleFailure s e := by
  rintro ⟨-,k,st,d,hhead,-,hchunk,hfin⟩
  obtain ⟨b,hb,hd⟩ := chunk?_eq_some.mp hchunk
  have hrun : s.coordinator.point ≠ .stopped := by
    intro hstop
    rw [(ho.ended hstop).1] at hb
    cases hb
  have hmem : k ∈ s.outstanding :=
    List.mem_append_right _ (List.mem_map.mpr ⟨(k,st),List.mem_of_mem_head? hhead,rfl⟩)
  obtain ⟨d',peer,hd',hst⟩ := (h hrun).inflight k hmem
  cases hchunk.symm.trans hd'
  simp [Chunk.isFinalized,hst,ChunkUploadStatus.isFinalized] at hfin

/-- A run keeps every finalized chunk of the current blob finalized exactly when no report
of a failed attempt is handled for such a chunk. It is enough that the outcome of every
attempt is handled before its chunk can be offered again, and that every blob has a chunk. -/
theorem stays_finalized_iff (es : List Event) :
    (Transition.Along step (fun s _ s' => StaysFinalized s s') init es ↔
      Transition.Along step (fun s e _ => ¬StaleFailure s e) init es) ∧
    (Transition.Along step
        (fun s e _ => Timely s e ∧ ∀ a, newBlob? e = some a → a.chunks ≠ []) init es →
      Transition.Along step (fun s _ s' => StaysFinalized s s') init es) := by
  refine ⟨⟨?_,?_⟩,?_⟩
  · refine Transition.Along.mono (P := fun _ => True) (fun _ _ _ _ _ => trivial) ?_ trivial
    intro s e s' hstep _ hstays hstale
    obtain ⟨dropped,hsteps⟩ := steps_of_step hstep
    exact hsteps.not_stays_finalized hstale hstays
  · refine Transition.Along.mono (P := fun _ => True) (fun _ _ _ _ _ => trivial) ?_ trivial
    intro s e s' hstep _ hstale
    obtain ⟨dropped,hsteps⟩ := steps_of_step hstep
    exact hsteps.stays_finalized hstale
  · refine Transition.Along.imp (P := fun s => s.coordinator.Orderly ∧
      (s.coordinator.point ≠ .stopped → Single s)) ?_ ?_ ⟨orderly_init,fun _ => ⟨?_,?_⟩⟩
    · rintro s e s' hstep ⟨ht,hnew⟩ ⟨ho,h⟩
      obtain ⟨dropped,hsteps⟩ := steps_of_step hstep
      exact ⟨hsteps.orderly ho hnew,hsteps.single h ho.pointOk ht⟩
    · rintro s e s' hstep ⟨ho,h⟩ -
      obtain ⟨dropped,hsteps⟩ := steps_of_step hstep
      exact hsteps.stays_finalized (not_staleFailure ho h)
    · exact List.nodup_nil
    · simp [outstanding,init]

section Undone

/-- Two chunks, of which the first will be acknowledged. -/
def twoChunkBlob : AdmittedBlob :=
  ⟨blobId,Deps.sampleHash [],⟨[Deps.sampleHash [1],Deps.sampleHash [2]]⟩,
    [(Deps.sampleHash [1],[1]),(Deps.sampleHash [2],[2])],2⟩

/-- The first attempt for the first chunk succeeds, but its report waits until the chunk is
offered again; the second attempt fails. -/
def lateReport : List Event :=
  [.input (.admission (.newBlob twoChunkBlob)),
    .input (.handler (.response ⟨[9]⟩ 0 (.issuedStoragePermit 1000))),
    .finish 1 (some ⟨[1],[],none⟩),.report 1,.tick 30000000000,.timeout 0,.tick 1000000000,
    .input .timerAssign,.recvInternal,.finish 1 none,.report 1]

theorem lateReport_undoes : ∃ s s', Transition.run step init lateReport = some s ∧
    step s .recvInternal = some s' ∧
    (s.chunk? (Deps.sampleHash [1])).map (fun d => d.status.status) = some (.finalized ⟨[9]⟩) ∧
    (s'.chunk? (Deps.sampleHash [1])).map (fun d => d.status.status) = some .pending ∧
    ¬StaysFinalized s s' := by
  have hrun : (Transition.run step init (lateReport ++ [.recvInternal])).isSome := by decide
  obtain ⟨s',hs'⟩ := Option.isSome_iff_exists.mp hrun
  obtain ⟨s,hs,hlast⟩ := Transition.run_append_eq_some.mp hs'
  obtain ⟨t,hstep,hnil⟩ := Transition.run_cons_eq_some.mp hlast
  cases hnil
  have hbefore : (Transition.run step init lateReport).map
      (fun s => (s.internal,s.chunk? (Deps.sampleHash [1]))) =
      some ([(Deps.sampleHash [1],.pending)],
        some ⟨[1],⟨31000000000,.finalized ⟨[9]⟩⟩⟩) := by decide
  have hafter : (Transition.run step init (lateReport ++ [.recvInternal])).map
      (fun s => s.chunk? (Deps.sampleHash [1])) =
      some (some ⟨[1],⟨31000000000,.pending⟩⟩) := by decide
  rw [hs,Option.map_some,Option.some.injEq,Prod.mk.injEq] at hbefore
  rw [hs',Option.map_some,Option.some.injEq] at hafter
  obtain ⟨hinternal,hchunk⟩ := hbefore
  refine ⟨s,s',hs,hstep,by rw [hchunk]; rfl,by rw [hafter]; rfl,?_⟩
  obtain ⟨dropped,hsteps⟩ := steps_of_step hstep
  exact hsteps.not_stays_finalized ⟨rfl,_,.pending,_,by rw [hinternal]; rfl,rfl,hchunk,rfl⟩

end Undone

end Gozara.Uploads
