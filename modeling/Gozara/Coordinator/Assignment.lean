import Gozara.Library.RoundRobin
import Gozara.Library.Transition
import Gozara.Coordinator.Uploads

/-!
# What assigning does, exactly

`assign_chunks` deals the eligible chunks, in the order of the map, to the peers with an
unexpired permit, in the order of theirs, until the chunks or the upload permits run out.
Every permit that it takes is held by a task until the task ends.
-/
namespace Gozara

namespace LocalBlob

/-- The entries of the chunks that can be assigned. -/
def eligible (now : Instant) (b : LocalBlob) : List (Sigma fun _ : Hash => Chunk) :=
  b.chunks.entries.filter fun e => Pipeline.isEligible now e.2

end LocalBlob

namespace Pipeline
open RoundRobin

def taskFor (now : Instant) (e : Sigma fun _ : Hash => Chunk) (peer : PeerId) : UploadTask :=
  ⟨e.1,peer,e.2.data,now⟩

/-- The chunk with hash `h` once these tasks are spawned. -/
def mark (now : Instant) (ts : List UploadTask) (h : Hash) (c : Chunk) : Chunk :=
  match ts.find? fun t => t.hash = h with
  | some t => c.setStatus now (.inflight t.peer)
  | none => c

theorem isEligible_iff {now : Instant} {c : Chunk} : isEligible now c = true ↔
    c.status.status = .pending ∨ (∃ peer, c.status.status = .inflight peer) ∧
      chunkUploadWindow < now.secsSince c.status.stamp := by
  unfold isEligible
  cases c.status.status <;> simp

section Loop
variable {now : Instant} {peers : List PeerId} {es : List (Sigma fun _ : Hash => Chunk)}

/-- The tasks are for the first eligible entries, the peers taking turns. -/
theorem tasks_assignLoop (now : Instant) (peers : List PeerId)
    (es : List (Sigma fun _ : Hash => Chunk)) (i : Fin peers.length) (k : ℕ) :
    (assignLoop now peers k i k es).2.2 =
      List.zipWith (taskFor now) (es.filter fun e => isEligible now e.2) (deal peers i k) := by
  induction es generalizing i k with
  | nil => simp [assignLoop]
  | cons e es ih =>
    cases k with
    | zero => simp [assignLoop,deal]
    | succ k =>
      simp only [assignLoop]
      split_ifs with he
      · rw [List.filter_cons_of_pos (by exact he),deal,List.zipWith_cons_cons,← ih]
        rfl
      · rw [List.filter_cons_of_neg (by exact he),← ih]

theorem allowance_assignLoop (now : Instant) (peers : List PeerId)
    (es : List (Sigma fun _ : Hash => Chunk)) (i : Fin peers.length) (k : ℕ) :
    (assignLoop now peers k i k es).2.1+(assignLoop now peers k i k es).2.2.length = k := by
  induction es generalizing i k with
  | nil => simp [assignLoop]
  | cons e es ih =>
    cases k with
    | zero => simp [assignLoop]
    | succ k =>
      simp only [assignLoop]
      split_ifs
      · have hrest := ih (nextPeer i) k
        simp only [List.length_cons]
        omega
      · exact ih i (k+1)

lemma mark_cons_of_ne {t : UploadTask} {ts : List UploadTask} {h : Hash} (hne : t.hash ≠ h)
    (c : Chunk) : mark now (t::ts) h c = mark now ts h c := by
  simp [mark,hne]

lemma mark_of_notMem {ts : List UploadTask} {h : Hash} (hts : h ∉ ts.map UploadTask.hash)
    (c : Chunk) : mark now ts h c = c := by
  have hnone : ts.find? (fun t => t.hash = h) = none := by
    rw [List.find?_eq_none]
    intro t ht heq
    exact hts (List.mem_map.mpr ⟨t,ht,by simpa using heq⟩)
  rw [mark,hnone]

/-- The entries that have a task are in flight, the others are as before. -/
theorem entries_assignLoop (hes : es.NodupKeys) (i : Fin peers.length) (k : ℕ) :
    (assignLoop now peers k i k es).1 =
      es.map fun e => ⟨e.1,mark now (assignLoop now peers k i k es).2.2 e.1 e.2⟩ := by
  induction es generalizing i k with
  | nil => simp [assignLoop]
  | cons e es ih =>
    obtain ⟨hnot,hnodup⟩ := List.nodupKeys_cons.mp hes
    cases k with
    | zero => simp [assignLoop,mark]
    | succ k =>
      simp only [assignLoop]
      split_ifs
      · have hhead : mark now (⟨e.1,peers.get i,e.2.data,now⟩::
            (assignLoop now peers k (nextPeer i) k es).2.2) e.1 e.2 =
            e.2.setStatus now (.inflight (peers.get i)) := by
          simp [mark]
        have htail : es.map (fun f => (⟨f.1,mark now (⟨e.1,peers.get i,e.2.data,now⟩::
              (assignLoop now peers k (nextPeer i) k es).2.2) f.1 f.2⟩ : Sigma fun _ : Hash => Chunk)) =
            (assignLoop now peers k (nextPeer i) k es).1 := by
          rw [ih hnodup]
          refine List.map_congr_left fun f hf => ?_
          rw [mark_cons_of_ne]
          intro heq
          exact hnot ((show e.1 = f.1 from heq) ▸ List.mem_keys_of_mem hf)
        simp only [List.map_cons,hhead,htail]
      · have hhead : mark now (assignLoop now peers (k+1) i (k+1) es).2.2 e.1 e.2 = e.2 :=
          mark_of_notMem (fun hmem => hnot ((sublist_assignLoop _ _ _ _ _ _).subset hmem)) _
        rw [List.map_cons,hhead,← ih hnodup]

end Loop

/-- What a call does when there is a current blob and a peer to assign to. -/
structure Assigns (p : Pipeline) (now : Instant) (b : LocalBlob)
    (r : Pipeline × List UploadTask) : Prop where
  count : r.2.length = min (b.eligible now).length p.uploadAllowance
  once : (r.2.map UploadTask.hash).Nodup
  task : ∀ t ∈ r.2, t.started = now ∧ ∃ c, b.chunks.lookup t.hash = some c ∧
    t.payload = c.data ∧ (c.status.status = .pending ∨ (∃ peer, c.status.status = .inflight peer) ∧
      chunkUploadWindow < now.secsSince c.status.stamp)
  permitted : ∀ t ∈ r.2, ∃ expiresAt, p.storagePermits.lookup t.peer = some expiresAt ∧
    now < expiresAt
  /-- Nothing else changes. -/
  pipeline : r.1 = { p with
    currentBlob := some { b with chunks := b.chunks.mapVal (mark now r.2) }
    uploadAllowance := p.uploadAllowance-r.2.length }

lemma mem_eligiblePeers {p : Pipeline} {now : Instant} {peer : PeerId} :
    peer ∈ p.eligiblePeers now ↔
      ∃ expiresAt, p.storagePermits.lookup peer = some expiresAt ∧ now < expiresAt := by
  simp only [eligiblePeers,List.mem_map,List.mem_filter,decide_eq_true_eq,
    HashMap.lookup_eq_some_iff]
  constructor
  · rintro ⟨e,⟨he,hlt⟩,rfl⟩
    exact ⟨e.2,he,hlt⟩
  · rintro ⟨expiresAt,he,hlt⟩
    exact ⟨_,⟨he,hlt⟩,rfl⟩

lemma mapVal_mark_nil (now : Instant) (m : HashMap Hash Chunk) : m.mapVal (mark now []) = m := by
  apply AList.ext
  simp [HashMap.mapVal,HashMap.withEntries,mark]

lemma exists_of_mem_tasks {now : Instant} {es : List (Sigma fun _ : Hash => Chunk)}
    {peers : List PeerId} {t : UploadTask} (ht : t ∈ List.zipWith (taskFor now) es peers) :
    t.started = now ∧ t.peer ∈ peers := by
  rw [← List.map_uncurry_zip_eq_zipWith] at ht
  obtain ⟨⟨e,peer⟩,hmem,rfl⟩ := List.mem_map.mp ht
  exact ⟨rfl,(List.of_mem_zip hmem).2⟩

/-- The call itself, when it gets as far as the loop. -/
lemma assignChunks_eq {p : Pipeline} {now : Instant} {b : LocalBlob}
    (hb : p.currentBlob = some b) (h : 0 < (p.eligiblePeers now).length) :
    (p.assignChunks now).2 =
        List.zipWith (taskFor now) (b.eligible now) (deal (p.eligiblePeers now) ⟨0,h⟩ p.uploadAllowance) ∧
      (p.assignChunks now).1 = { p with
        currentBlob := some { b with chunks := b.chunks.mapVal (mark now (p.assignChunks now).2) }
        uploadAllowance := p.uploadAllowance-(p.assignChunks now).2.length } := by
  obtain ⟨remote,pending,current,hints,permits,allowance⟩ := p
  simp only at hb
  subst hb
  cases allowance with
  | zero => simp [assignChunks,deal,mapVal_mark_nil]
  | succ k =>
    simp only [assignChunks,Nat.add_one_ne_zero,if_false,dif_pos h]
    refine ⟨tasks_assignLoop _ _ _ _ _,?_⟩
    have hallowance := allowance_assignLoop now _ b.chunks.entries ⟨0,h⟩ (k+1)
    have hentries := @entries_assignLoop now _ _ b.chunks.nodupKeys ⟨0,h⟩ (k+1)
    congr 3
    · apply AList.ext
      exact hentries
    · omega

/-- Without a current blob or a peer the call does nothing. -/
theorem assignChunks_idle {p : Pipeline} {now : Instant}
    (h : p.currentBlob = none ∨ p.eligiblePeers now = []) : p.assignChunks now = (p,[]) := by
  unfold assignChunks
  by_cases hzero : p.uploadAllowance = 0
  · rw [if_pos hzero]
  · rw [if_neg hzero]
    rcases h with h | h
    · simp only [h]
    · cases p.currentBlob with
      | none => rfl
      | some b => exact dif_neg (by simp [h])

theorem assignChunks_assigns {p : Pipeline} {now : Instant} {b : LocalBlob}
    (hb : p.currentBlob = some b) (h : 0 < (p.eligiblePeers now).length) :
    Assigns p now b (p.assignChunks now) := by
  obtain ⟨htasks,hpipe⟩ := assignChunks_eq hb h
  refine ⟨?_,(assignChunks_spawned p now).nodup,fun t ht => ?_,fun t ht => ?_,hpipe⟩
  · rw [htasks,List.length_zipWith,length_deal]
  · obtain ⟨b₀,-,c,hb₀,-,hc,hel,-,hdata⟩ := (assignChunks_spawned p now).task t ht
    cases hb.symm.trans hb₀
    rw [htasks] at ht
    exact ⟨(exists_of_mem_tasks ht).1,c,hc,hdata,isEligible_iff.mp hel⟩
  · rw [htasks] at ht
    exact mem_eligiblePeers.mp (mem_of_mem_deal (exists_of_mem_tasks ht).2)

theorem allowance_assignChunks (p : Pipeline) (now : Instant) :
    (p.assignChunks now).1.uploadAllowance+(p.assignChunks now).2.length = p.uploadAllowance := by
  by_cases hidle : p.currentBlob = none ∨ p.eligiblePeers now = []
  · rw [assignChunks_idle hidle]
    rfl
  · push Not at hidle
    obtain ⟨b,hb⟩ := Option.ne_none_iff_exists'.mp hidle.1
    have h := assignChunks_assigns hb (List.length_pos_iff.mpr hidle.2)
    have hcount := h.count
    rw [h.pipeline]
    dsimp only
    omega

lemma started_assignChunks (p : Pipeline) (now : Instant) :
    ∀ t ∈ (p.assignChunks now).2, t.started = now := by
  by_cases hidle : p.currentBlob = none ∨ p.eligiblePeers now = []
  · rw [assignChunks_idle hidle]
    simp
  · push Not at hidle
    obtain ⟨b,hb⟩ := Option.ne_none_iff_exists'.mp hidle.1
    exact fun t ht => ((assignChunks_assigns hb (List.length_pos_iff.mpr hidle.2)).task t ht).1

lemma allowance_beginNextBlob (p : Pipeline) (now : Instant) :
    (p.beginNextBlob now).1.uploadAllowance = p.uploadAllowance := by
  cases hcur : p.currentBlob with
  | some b => rw [beginNextBlob_of_some hcur]
  | none =>
    obtain ⟨permits,heq⟩ := beginNextBlob_of_none hcur now
    rw [heq]

end Pipeline

namespace Coordinator
open Pipeline

/-- Every task that a result spawns has a permit, out of `n`, and starts now. -/
structure Permitted (n : ℕ) (now : Instant) (r : Coordinator × List UploadTask) : Prop where
  permits : r.1.pipeline.uploadAllowance+r.2.length = n
  started : ∀ t ∈ r.2, t.started = now

lemma permitted_nil {n : ℕ} {now : Instant} {c : Coordinator}
    (h : c.pipeline.uploadAllowance = n) : Permitted n now (c,[]) := ⟨h,by simp⟩

variable {c c' : Coordinator} {now : Instant} {i : Input} {eff : Effects}

lemma permitted_assign {n : ℕ} {p : Pipeline} (h : p.uploadAllowance = n) :
    Permitted n now (c.assign now p) := by
  subst h
  exact ⟨allowance_assignChunks p now,started_assignChunks p now⟩

lemma permitted_resume (c : Coordinator) (now : Instant) (p : Pipeline) (after : Resume) :
    Permitted p.uploadAllowance now (c.resume now p after) := by
  cases after with
  | head => exact permitted_nil rfl
  | assign => exact permitted_assign rfl

lemma permitted_settle (c : Coordinator) (now : Instant) (r : Pipeline × Option (List PeerId))
    (after : Resume) : Permitted r.1.uploadAllowance now (c.settle now r after) := by
  unfold settle
  split
  · exact permitted_nil rfl
  · exact permitted_resume c now r.1 after

lemma permitted_onTimerStale (c : Coordinator) (now : Instant) :
    Permitted c.pipeline.uploadAllowance now (c.onTimerStale now) := by
  unfold onTimerStale
  dsimp only
  split_ifs
  · obtain ⟨permits,heq⟩ := requestStoragePermits_spec { c.pipeline with
      storageProviderHints := c.pipeline.storageProviderHints.retain fun _ createdAt =>
        now.secsSince createdAt < storageProviderDecay } now
    have h := permitted_settle c now (Pipeline.requestStoragePermits { c.pipeline with
      storageProviderHints := c.pipeline.storageProviderHints.retain fun _ createdAt =>
        now.secsSince createdAt < storageProviderDecay } now) .head
    rwa [heq] at h
  · exact permitted_nil rfl

lemma permitted_onHandler (c : Coordinator) (now : Instant) (msg : HandlerMessage) :
    Permitted c.pipeline.uploadAllowance now (c.onHandler now msg) := by
  unfold onHandler
  split
  · exact permitted_nil rfl
  · exact permitted_nil rfl
  · exact permitted_assign rfl
  · exact permitted_nil rfl

lemma permitted_onAdmission (c : Coordinator) (now : Instant) (msg : ToPipeline) :
    Permitted c.pipeline.uploadAllowance now (c.onAdmission now msg) := by
  cases msg with
  | getBlob id => exact permitted_nil rfl
  | newBlob a =>
    have h := permitted_settle { c with received := c.received ++ [a] } now
      ((c.pipeline.addLocalBlob now a).beginNextBlob now) .head
    rw [allowance_beginNextBlob] at h
    exact h

lemma permitted_onUpdateChunkStatus (c : Coordinator) (now : Instant) (hash : Hash)
    (st : ChunkUploadStatus) :
    Permitted c.pipeline.uploadAllowance now (c.onUpdateChunkStatus now hash st) := by
  have hreported := reported_onUpdateChunkStatus c now hash st
  generalize c.onUpdateChunkStatus now hash st = r at hreported ⊢
  cases hreported with
  | ignored => exact permitted_nil rfl
  | noted => exact permitted_nil rfl
  | announced => exact permitted_nil rfl
  | assigned => exact permitted_assign rfl

lemma permitted_onAnnounced (c : Coordinator) (now : Instant) (b : LocalBlob) (p : Pipeline) :
    Permitted p.uploadAllowance now (c.onAnnounced now b p) := by
  have h := permitted_settle { c with announced := c.announced ++ [b] } now
    (p.beginNextBlob now) .assign
  rw [allowance_beginNextBlob] at h
  exact h

/-- Every enabled input takes one permit for each task that it spawns. -/
theorem permitted_of_exec (h : c.exec now i = some (c',eff)) :
    Permitted c.pipeline.uploadAllowance now (c',eff.spawned) := by
  cases arms_of_exec h with
  | rehash orders =>
    obtain ⟨current,rfl,-⟩ := rehash_spec orders
    exact permitted_nil rfl
  | swarmSend => exact permitted_resume c now c.pipeline _
  | bridgeSend => exact permitted_onAnnounced c now _ { c.pipeline with currentBlob := none }
  | stop => exact permitted_nil rfl
  | timerStale => exact permitted_onTimerStale c now
  | timerAssign => exact permitted_assign rfl
  | handler => exact permitted_onHandler c now _
  | admission => exact permitted_onAdmission c now _
  | updateChunkStatus => exact permitted_onUpdateChunkStatus c now _ _

end Coordinator

namespace Uploads
open Pipeline RoundRobin

/-- The tasks that hold an upload permit. -/
def holding (s : Uploads) : ℕ := s.tasks.countP fun t => t.phase = .uploading

/-- The permits of `upload_allowance` that are available and those that tasks hold. -/
def PermitsBalance (s : Uploads) : Prop :=
  s.coordinator.pipeline.uploadAllowance+s.holding = Pipeline.new.uploadAllowance

variable {s s' : Uploads} {e : Event} {dropped : List LocalBlob}

/-- A task that is uploading counts for one. -/
lemma countP_eraseIdx {k : ℕ} {u : UploadTask} (h : s.tasks[k]? = some ⟨u,.uploading⟩) :
    (s.tasks.eraseIdx k).countP (fun t => t.phase = .uploading)+1 = s.holding := by
  obtain ⟨hk,hget⟩ := List.getElem?_eq_some_iff.mp h
  have hperm := List.getElem_cons_eraseIdx_perm hk
  rw [holding,← hperm.countP_eq,List.countP_cons,hget]
  simp

lemma countP_set {k : ℕ} {u : UploadTask} (h : s.tasks[k]? = some ⟨u,.uploading⟩)
    (status : ChunkUploadStatus) :
    (s.tasks.set k ⟨u,.reporting status⟩).countP (fun t => t.phase = .uploading)+1 = s.holding := by
  obtain ⟨hk,-⟩ := List.getElem?_eq_some_iff.mp h
  rw [(List.set_perm_cons_eraseIdx hk _).countP_eq,List.countP_cons_of_neg (by simp),
    countP_eraseIdx h]

/-- A task takes its permit when it is spawned and gives it back when it ends, in
whichever way. -/
theorem Steps.permitsBalance (h : Steps s e s' dropped) (hs : PermitsBalance s) :
    PermitsBalance s' := by
  unfold PermitsBalance at hs ⊢
  rw [← hs]
  cases h with
  | tick => rfl
  | @loop e i c eff input direct moves exec =>
    have hpaid : c.pipeline.uploadAllowance+eff.spawned.length =
        s.coordinator.pipeline.uploadAllowance := (Coordinator.permitted_of_exec exec).permits
    have hnew : (eff.spawned.map fun u => (⟨u,.uploading⟩ : Task)).countP
        (fun t => t.phase = .uploading) = eff.spawned.length := by
      rw [List.countP_map,List.countP_eq_length.mpr (by simp)]
    simp only [holding,List.countP_append,hnew]
    omega
  | @acknowledged k u stream task =>
    have hcount := countP_set task (.finalized u.peer)
    simp only [holding,releasePermit] at hcount ⊢
    omega
  | @failed k u stream task =>
    have hcount := countP_set task .pending
    simp only [holding,releasePermit] at hcount ⊢
    omega
  | @timeout k u task =>
    have hcount := countP_eraseIdx task
    simp only [holding,releasePermit] at hcount ⊢
    omega
  | @report k u status task =>
    obtain ⟨hk,hget⟩ := List.getElem?_eq_some_iff.mp task
    have hperm := List.getElem_cons_eraseIdx_perm hk
    simp only [holding]
    rw [← hperm.countP_eq,hget,List.countP_cons_of_neg (by simp)]

theorem permitsBalance_run {es : List Event} (hrun : Transition.run step init es = some s) :
    PermitsBalance s := by
  refine Transition.run_preserves (P := PermitsBalance) ?_ hrun rfl
  intro s e s' hstep hs
  obtain ⟨dropped,hsteps⟩ := steps_of_step hstep
  exact hsteps.permitsBalance hs

/-- In every run the available permits and those that tasks hold are the initial ones, and
a call on any pipeline, with its maps in any order, assigns as many eligible chunks as there
are permits, or does nothing when there is no blob or no peer. -/
theorem assign_chunks_exact {es : List Event} (hrun : Transition.run step init es = some s) :
    PermitsBalance s ∧ ∀ (p : Pipeline) (now : Instant),
      (∀ b, p.currentBlob = some b →
        (∃ peer expiresAt, p.storagePermits.lookup peer = some expiresAt ∧ now < expiresAt) →
          Assigns p now b (p.assignChunks now)) ∧
      ((p.currentBlob = none ∨ ∀ peer expiresAt, p.storagePermits.lookup peer = some expiresAt →
        expiresAt ≤ now) → p.assignChunks now = (p,[])) := by
  refine ⟨permitsBalance_run hrun,fun p now => ⟨?_,fun hidle => assignChunks_idle ?_⟩⟩
  · rintro b hb ⟨peer,hpeer⟩
    exact assignChunks_assigns hb (List.length_pos_of_mem (mem_eligiblePeers.mpr hpeer))
  · refine hidle.imp_right fun hexpired => List.eq_nil_iff_forall_not_mem.mpr fun peer hpeer => ?_
    obtain ⟨expiresAt,hlook,hlt⟩ := mem_eligiblePeers.mp hpeer
    exact absurd (hexpired peer expiresAt hlook) (by simpa using hlt)

/-- A blob with two chunks. -/
def pairBlob : AdmittedBlob :=
  ⟨blobId,Deps.sampleHash [],⟨[Deps.sampleHash [1],Deps.sampleHash [2]]⟩,
    [(Deps.sampleHash [1],[1]),(Deps.sampleHash [2],[2])],2⟩

/-- Two peers issue permits, then the blob arrives. -/
def opening : List Event :=
  [.input (.handler (.response ⟨[8]⟩ 0 (.issuedStoragePermit 1000))),
    .input (.handler (.response ⟨[9]⟩ 1 (.issuedStoragePermit 1000))),
    .input (.admission (.newBlob pairBlob))]

theorem assign_chunks_exact_opening : ∃ s b, Transition.run step init opening = some s ∧
    PermitsBalance s ∧ s.coordinator.pipeline.currentBlob = some b ∧
    Assigns s.coordinator.pipeline s.clock b
      (s.coordinator.pipeline.assignChunks s.clock) := by
  obtain ⟨s,hrun,hs⟩ := Option.map_eq_some_iff.mp (by decide :
    (Transition.run step init opening).map (fun s => (s.clock,s.coordinator.pipeline.currentBlob.isSome,
      s.coordinator.pipeline.storagePermits.lookup ⟨[8]⟩)) = some (0,true,some 1000000000000))
  obtain ⟨hclock,hs⟩ := Prod.mk.inj hs
  obtain ⟨hsome,hpermit⟩ := Prod.mk.inj hs
  obtain ⟨b,hb⟩ := Option.isSome_iff_exists.mp hsome
  obtain ⟨hbalance,hcall⟩ := assign_chunks_exact hrun
  exact ⟨s,b,hrun,hbalance,hb,(hcall _ _).1 b hb ⟨⟨[8]⟩,_,hpermit,by rw [hclock]; decide⟩⟩

end Uploads

end Gozara
