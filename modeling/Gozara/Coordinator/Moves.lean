import Gozara.Coordinator.Manifest

/-!
# What one input does to the blobs of the coordinator

Every input leaves the blobs where they are and changes statuses of the current blob's
chunks, or takes in a new blob, or archives the current one and moves the next in front, or
ends the loop. The invariants of the coordinator are derived from this case distinction.
-/
namespace Gozara

namespace Pipeline

/-- The blobs stay where they are; chunks of the current one change as `R` says. -/
structure Keeps (R : Hash → Chunk → Chunk → Prop) (p p' : Pipeline) : Prop where
  waiting : p'.pendingLocalBlobs = p.pendingLocalBlobs
  current : Option.Rel (LocalBlob.Evolves R) p.currentBlob p'.currentBlob

variable {R : Hash → Chunk → Chunk → Prop} {p p' : Pipeline}

lemma Keeps.of_eq (hR : ∀ h c, R h c c) (hw : p'.pendingLocalBlobs = p.pendingLocalBlobs)
    (hc : p'.currentBlob = p.currentBlob) : Keeps R p p' :=
  ⟨hw,by rw [hc]; exact HashMap.rel_self (LocalBlob.Evolves.refl hR) _⟩

theorem assignChunks_keeps (p : Pipeline) (now : Instant) :
    Keeps (fun _ => Assigned now) p (p.assignChunks now).1 := by
  obtain ⟨current,allowance,heq,hrel⟩ := assignChunks_spec p now
  rw [heq]
  exact ⟨rfl,hrel⟩

lemma Spawned.mem {now : Instant} {f : Hash → Chunk → Chunk} {o o' : Option LocalBlob}
    {ts : List UploadTask} (h : Spawned now f o o' ts) {t : UploadTask} (ht : t ∈ ts) :
    ∃ b' c', o' = some b' ∧ b'.chunks.lookup t.hash = some c' ∧ t.payload = c'.data ∧
      c'.status.status = .inflight t.peer := by
  obtain ⟨b,b',c,-,hb',-,-,hc',hdata⟩ := h.task t ht
  exact ⟨b',_,hb',hc',hdata,rfl⟩

end Pipeline

/-- At the head or about to come back to it without archiving a blob. -/
def Point.Running (pt : Point) : Prop := pt = .head ∨ ∃ peers after, pt = .sendSwarm peers after

lemma Point.Running.ne_stopped {pt : Point} (h : pt.Running) : pt ≠ .stopped := by
  rcases h with rfl | ⟨peers,after,rfl⟩ <;> simp

namespace Coordinator
open Pipeline

/-- The current blob is unfinished while the loop runs, and finished while its status is
being sent to the bridge. -/
structure PointOk (c : Coordinator) : Prop where
  running : c.point.Running → ∀ b, c.pipeline.currentBlob = some b → ¬b.Finished
  sending : ∀ msg, c.point = .sendBridge msg →
    ∃ b, c.pipeline.currentBlob = some b ∧ b.Finished ∧ msg = .updateStatus b.id .finalized

variable {c c' : Coordinator} {now : Instant} {p : Pipeline}

/-- The chunk with hash `h` after the update that an input brings. -/
def updated (now : Instant) (i : Input) (h : Hash) (d : Chunk) : Chunk :=
  match i with
  | .updateChunkStatus hash st => if h = hash then d.setStatus now st else d
  | _ => d

/-- How an input may change the chunk with hash `h`. -/
def Change (now : Instant) (i : Input) (h : Hash) (d d' : Chunk) : Prop :=
  Assigned now (updated now i h d) d'

lemma updated_data (now : Instant) (i : Input) (h : Hash) (d : Chunk) :
    (updated now i h d).data = d.data := by
  unfold updated
  split
  · split_ifs <;> rfl
  · rfl

lemma updated_of_ne {i : Input} {h : Hash} (hi : ∀ st, i ≠ .updateChunkStatus h st) (d : Chunk) :
    updated now i h d = d := by
  unfold updated
  split
  · rename_i hash st
    exact if_neg fun he => hi st (by rw [he])
  · rfl

lemma Change.data_eq {i : Input} {h : Hash} {d d' : Chunk} (hc : Change now i h d d') :
    d'.data = d.data := (Assigned.data_eq hc).trans (updated_data now i h d)

/-- The part of a result that all arms share. -/
structure Continues (c : Coordinator) (now : Instant) (p : Pipeline)
    (r : Coordinator × List UploadTask) : Prop where
  received : r.1.received = c.received
  announced : r.1.announced = c.announced
  keeps : Keeps (fun _ => Assigned now) p r.1.pipeline
  spawned : Spawned now (fun _ d => d) p.currentBlob r.1.pipeline.currentBlob r.2
  point : r.1.point.Running

lemma continues_atHead (c : Coordinator) (now : Instant) (p : Pipeline) :
    Continues c now p (c.atHead p,[]) :=
  ⟨rfl,rfl,Keeps.of_eq (fun _ _ => Or.inl rfl) rfl rfl,spawned_nil _ _ _ _,Or.inl rfl⟩

theorem continues_assign (c : Coordinator) (now : Instant) (p : Pipeline) :
    Continues c now p (c.assign now p) :=
  ⟨rfl,rfl,assignChunks_keeps p now,assignChunks_spawned p now,Or.inl rfl⟩

theorem continues_resume (c : Coordinator) (now : Instant) (p : Pipeline) (after : Resume) :
    Continues c now p (c.resume now p after) := by
  cases after with
  | head => exact continues_atHead c now p
  | assign => exact continues_assign c now p

theorem continues_settle (c : Coordinator) (now : Instant) (r : Pipeline × Option (List PeerId))
    (after : Resume) : Continues c now r.1 (c.settle now r after) := by
  unfold settle
  split
  · exact ⟨rfl,rfl,Keeps.of_eq (fun _ _ => Or.inl rfl) rfl rfl,spawned_nil _ _ _ _,
      Or.inr ⟨_,_,rfl⟩⟩
  · exact continues_resume c now r.1 after

/-- The pipeline of the caller may differ in fields other than the blobs. -/
lemma Continues.congr {q : Pipeline} {r : Coordinator × List UploadTask}
    (h : Continues c now p r) (hw : p.pendingLocalBlobs = q.pendingLocalBlobs)
    (hc : p.currentBlob = q.currentBlob) : Continues c now q r :=
  { h with
    keeps := ⟨h.keeps.waiting.trans hw,by rw [← hc]; exact h.keeps.current⟩
    spawned := by rw [← hc]; exact h.spawned }

theorem continues_onTimerStale (c : Coordinator) (now : Instant) :
    Continues c now c.pipeline (c.onTimerStale now) := by
  unfold onTimerStale
  dsimp only
  split_ifs
  · obtain ⟨permits,hp⟩ := requestStoragePermits_spec { c.pipeline with
      storageProviderHints := c.pipeline.storageProviderHints.retain fun _ createdAt =>
        now.secsSince createdAt < storageProviderDecay } now
    exact (continues_settle c now _ .head).congr (by rw [hp]) (by rw [hp])
  · exact (continues_atHead c now _).congr rfl rfl

theorem continues_onHandler (c : Coordinator) (now : Instant) (msg : HandlerMessage) :
    Continues c now c.pipeline (c.onHandler now msg) := by
  unfold onHandler
  split
  · exact (continues_atHead c now _).congr rfl rfl
  · exact continues_atHead c now _
  · exact (continues_assign c now _).congr rfl rfl
  · exact continues_atHead c now _

/-- Assigning finishes no blob and unfinishes none. -/
lemma pointOk_of_keeps {q : Coordinator} (hrun : q.point.Running)
    (hk : Keeps (fun _ => Assigned now) p q.pipeline)
    (hp : ∀ b, p.currentBlob = some b → ¬b.Finished) : q.PointOk := by
  refine ⟨fun _ b hb => ?_,fun msg hmsg => ?_⟩
  · have hrel := hk.current
    rw [hb] at hrel
    obtain ⟨b₀,hb₀,hev⟩ := HashMap.exists_of_rel_some' hrel
    rw [hev.finished_iff fun _ _ _ h => h.isFinalized_eq]
    exact hp b₀ hb₀
  · rcases hrun with h | ⟨peers,after,h⟩ <;> rw [h] at hmsg <;> cases hmsg

/-- The cases. Promotion is written with `head?` and `tail` of the blobs waiting. -/
inductive Moves (now : Instant) (c : Coordinator) : Input → Coordinator → Effects → Prop
  | stay {i : Input} {c' : Coordinator} {ts : List UploadTask}
      (received : c'.received = c.received) (announced : c'.announced = c.announced)
      (keeps : Keeps (Change now i) c.pipeline c'.pipeline)
      (spawned : Spawned now (updated now i) c.pipeline.currentBlob c'.pipeline.currentBlob ts)
      (input : (∀ a, i ≠ .admission (.newBlob a)) ∧ i ≠ .bridgeSend ∧ i ≠ .stop)
      (point : c'.point = .stopped ↔ c.point = .stopped) (pointOk : c.PointOk → c'.PointOk) :
      Moves now c i c' ⟨ts,[]⟩
  | wait {a : AdmittedBlob} {c' : Coordinator} {b : LocalBlob} (head : c.point = .head)
      (received : c'.received = c.received ++ [a]) (announced : c'.announced = c.announced)
      (front : c.pipeline.currentBlob = some b) (current : c'.pipeline.currentBlob = some b)
      (waiting : c'.pipeline.pendingLocalBlobs =
        c.pipeline.pendingLocalBlobs ++ [localBlob now a])
      (point : c'.point.Running) :
      Moves now c (.admission (.newBlob a)) c' ⟨[],[]⟩
  | begin {a : AdmittedBlob} {c' : Coordinator} (head : c.point = .head)
      (received : c'.received = c.received ++ [a]) (announced : c'.announced = c.announced)
      (front : c.pipeline.currentBlob = none)
      (current : c'.pipeline.currentBlob =
        (c.pipeline.pendingLocalBlobs ++ [localBlob now a]).head?)
      (waiting : c'.pipeline.pendingLocalBlobs =
        (c.pipeline.pendingLocalBlobs ++ [localBlob now a]).tail)
      (point : c'.point.Running) :
      Moves now c (.admission (.newBlob a)) c' ⟨[],[]⟩
  | archive {msg : ToBridge} {b : LocalBlob} {c' : Coordinator} {ts : List UploadTask}
      (suspended : c.point = .sendBridge msg)
      (received : c'.received = c.received) (announced : c'.announced = c.announced ++ [b])
      (front : c.pipeline.currentBlob = some b)
      (current : Option.Rel (LocalBlob.Evolves fun _ => Assigned now)
        c.pipeline.pendingLocalBlobs.head? c'.pipeline.currentBlob)
      (waiting : c'.pipeline.pendingLocalBlobs = c.pipeline.pendingLocalBlobs.tail)
      (spawned : Spawned now (fun _ d => d) c.pipeline.pendingLocalBlobs.head?
        c'.pipeline.currentBlob ts) (point : c'.point.Running) :
      Moves now c .bridgeSend c' ⟨ts,[b]⟩
  | stop (head : c.point = .head) : Moves now c .stop c.onStop ⟨[],c.held⟩

/-- An arm that continues with the blobs as they are. -/
lemma Continues.moves {i : Input} {r : Coordinator × List UploadTask}
    (h : Continues c now c.pipeline r) (hrun : c.point.Running)
    (hi : ∀ hash st, i ≠ .updateChunkStatus hash st)
    (input : (∀ a, i ≠ .admission (.newBlob a)) ∧ i ≠ .bridgeSend ∧ i ≠ .stop) :
    Moves now c i r.1 ⟨r.2,[]⟩ := by
  have hupd : updated now i = fun _ d => d := by
    funext k d
    exact updated_of_ne (hi k) d
  have hchange : Change now i = fun _ => Assigned now := by
    unfold Change
    rw [hupd]
  refine .stay h.received h.announced ⟨h.keeps.waiting,?_⟩ ?_ input
    (iff_of_false h.point.ne_stopped hrun.ne_stopped)
    (fun hc => pointOk_of_keeps h.point h.keeps (hc.running hrun))
  · rw [hchange]
    exact h.keeps.current
  · rw [hupd]
    exact h.spawned

lemma settle_head_spawned (r : Pipeline × Option (List PeerId)) :
    (c.settle now r .head).2 = [] := by
  unfold settle
  split <;> rfl

theorem moves_newBlob (head : c.point = .head) (a : AdmittedBlob) :
    Moves now c (.admission (.newBlob a)) (c.onAdmission now (.newBlob a)).1
      ⟨(c.onAdmission now (.newBlob a)).2,[]⟩ := by
  have hspawn : (c.onAdmission now (.newBlob a)).2 = [] := settle_head_spawned _
  have hset := continues_settle { c with received := c.received ++ [a] } now
    ((c.pipeline.addLocalBlob now a).beginNextBlob now) .head
  -- A send or a return to the head leaves the pipeline as `begin_next_blob` left it.
  have hpipe : (c.onAdmission now (.newBlob a)).1.pipeline =
      ((c.pipeline.addLocalBlob now a).beginNextBlob now).1 := by
    simp only [onAdmission,settle]
    split <;> rfl
  rw [hspawn]
  cases hcur : c.pipeline.currentBlob with
  | some b =>
    have hbegin := beginNextBlob_of_some (p := c.pipeline.addLocalBlob now a) hcur now
    rw [hbegin] at hpipe
    exact .wait head hset.received hset.announced hcur (by rw [hpipe]; exact hcur)
      (by rw [hpipe]; rfl) hset.point
  | none =>
    obtain ⟨permits,hbegin⟩ := beginNextBlob_of_none (p := c.pipeline.addLocalBlob now a) hcur now
    rw [hbegin] at hpipe
    exact .begin head hset.received hset.announced hcur (by rw [hpipe]; rfl) (by rw [hpipe]; rfl)
      hset.point

theorem moves_bridgeSend {msg : ToBridge} (suspended : c.point = .sendBridge msg) {b : LocalBlob}
    (hcur : c.pipeline.currentBlob = some b) :
    Moves now c .bridgeSend (c.onAnnounced now b { c.pipeline with currentBlob := none }).1
      ⟨(c.onAnnounced now b { c.pipeline with currentBlob := none }).2,[b]⟩ := by
  obtain ⟨permits,hbegin⟩ :=
    beginNextBlob_of_none (p := { c.pipeline with currentBlob := none }) rfl now
  have hset := continues_settle { c with announced := c.announced ++ [b] } now
    (Pipeline.beginNextBlob { c.pipeline with currentBlob := none } now) .assign
  refine .archive suspended hset.received hset.announced hcur ?_ ?_ ?_ hset.point
  · have hrel := hset.keeps.current
    rw [hbegin] at hrel
    exact hrel
  · have hw := hset.keeps.waiting
    rw [hbegin] at hw
    exact hw
  · have hspawned := hset.spawned
    rw [hbegin] at hspawned
    exact hspawned

/-- How an update of a chunk's status ends: it names no chunk of the current blob, it is
noted, or it finalizes a chunk and thereby the blob, or not. -/
inductive Reported (now : Instant) (c : Coordinator) (hash : Hash) (st : ChunkUploadStatus) :
    Coordinator × List UploadTask → Prop
  | ignored (missing : ∀ b, c.pipeline.currentBlob = some b → b.chunks.lookup hash = none) :
      Reported now c hash st (c.atHead c.pipeline,[])
  | noted {b : LocalBlob} {chunk : Chunk} (front : c.pipeline.currentBlob = some b)
      (found : b.chunks.lookup hash = some chunk) (status : st.isFinalized = false) :
      Reported now c hash st (c.atHead { c.pipeline with
        currentBlob := some (b.setChunk hash (chunk.setStatus now st)) },[])
  | announced {b : LocalBlob} {chunk : Chunk} (front : c.pipeline.currentBlob = some b)
      (found : b.chunks.lookup hash = some chunk) (status : st.isFinalized = true)
      (finished : (b.setChunk hash (chunk.setStatus now st)).Finished) :
      Reported now c hash st ({ c with
        pipeline := { c.pipeline with
          currentBlob := some (b.setChunk hash (chunk.setStatus now st)) }
        point := .sendBridge (.updateStatus b.id .finalized) },[])
  | assigned {b : LocalBlob} {chunk : Chunk} (front : c.pipeline.currentBlob = some b)
      (found : b.chunks.lookup hash = some chunk) (status : st.isFinalized = true)
      (unfinished : ¬(b.setChunk hash (chunk.setStatus now st)).Finished) :
      Reported now c hash st (c.assign now { c.pipeline with
        currentBlob := some (b.setChunk hash (chunk.setStatus now st)) })

/-- Every update ends in one of these ways. -/
theorem reported_onUpdateChunkStatus (c : Coordinator) (now : Instant) (hash : Hash)
    (st : ChunkUploadStatus) : Reported now c hash st (c.onUpdateChunkStatus now hash st) := by
  unfold onUpdateChunkStatus
  split
  · rename_i hcur
    exact .ignored (by simp [hcur])
  · rename_i b hcur
    split
    · rename_i hchunk
      refine .ignored fun b' hb' => ?_
      rw [hcur] at hb'
      cases hb'
      exact hchunk
    · rename_i chunk hchunk
      dsimp only
      split
      · split_ifs with hall
        · exact .announced hcur hchunk rfl hall
        · exact .assigned hcur hchunk rfl hall
      · rename_i hst
        refine .noted hcur hchunk ?_
        cases st with
        | finalized owner => exact absurd rfl (hst owner)
        | pending => rfl
        | inflight peer => rfl

/-- The blob with the updated chunk, when the update concerns the current blob. -/
theorem keeps_updateChunkStatus {b : LocalBlob} {chunk : Chunk} {hash : Hash}
    {st : ChunkUploadStatus} (hb : c.pipeline.currentBlob = some b)
    (hchunk : b.chunks.lookup hash = some chunk) {q : Pipeline}
    (hq : Keeps (fun _ => Assigned now)
      { c.pipeline with currentBlob := some (b.setChunk hash (chunk.setStatus now st)) } q) :
    Keeps (Change now (.updateChunkStatus hash st)) c.pipeline q := by
  refine ⟨hq.waiting,?_⟩
  rw [hb]
  obtain ⟨b',hb',hev⟩ := HashMap.exists_of_rel_some hq.current
  rw [hb']
  obtain ⟨⟨chunks,rfl⟩,hev⟩ := hev
  refine Option.Rel.some ⟨⟨_,rfl⟩,fun h => ?_⟩
  have hset := (LocalBlob.setChunk_evolves now st hchunk).2 h
  have hass := hev h
  simp only at hass
  generalize b.chunks.lookup h = o at hset ⊢
  generalize (b.setChunk hash (chunk.setStatus now st)).chunks.lookup h = o' at hset hass
  generalize chunks.lookup h = o'' at hass ⊢
  cases hset with
  | none =>
    cases hass
    exact Option.Rel.none
  | some hset =>
    subst hset
    cases hass with
    | some hass => exact Option.Rel.some hass

/-- The tasks spawned after the update are for chunks that were eligible in its light. -/
theorem spawned_updateChunkStatus {b : LocalBlob} {chunk : Chunk} {hash : Hash}
    {st : ChunkUploadStatus} (hb : c.pipeline.currentBlob = some b)
    (hchunk : b.chunks.lookup hash = some chunk) {o' : Option LocalBlob} {ts : List UploadTask}
    (hs : Spawned now (fun _ d => d) (some (b.setChunk hash (chunk.setStatus now st))) o' ts) :
    Spawned now (updated now (.updateChunkStatus hash st)) c.pipeline.currentBlob o' ts := by
  refine ⟨fun t ht => ?_,hs.nodup⟩
  obtain ⟨b₀,b',d,hb₀,hb',hd,hel,hd',hdata⟩ := hs.task t ht
  cases hb₀
  obtain ⟨d₀,hd₀,rfl⟩ := (LocalBlob.setChunk_evolves now st hchunk).lookup_some' hd
  exact ⟨b,b',d₀,hb,hb',hd₀,hel,hd',hdata⟩

theorem moves_updateChunkStatus (head : c.point = .head) (hash : Hash) (st : ChunkUploadStatus) :
    Moves now c (.updateChunkStatus hash st) (c.onUpdateChunkStatus now hash st).1
      ⟨(c.onUpdateChunkStatus now hash st).2,[]⟩ := by
  have hinput : (∀ a, Input.updateChunkStatus hash st ≠ .admission (.newBlob a)) ∧
      Input.updateChunkStatus hash st ≠ .bridgeSend ∧ Input.updateChunkStatus hash st ≠ .stop := by
    simp
  have hreported := reported_onUpdateChunkStatus c now hash st
  generalize c.onUpdateChunkStatus now hash st = r at hreported ⊢
  cases hreported with
  | ignored missing =>
    refine .stay rfl rfl ⟨rfl,?_⟩ (spawned_nil _ _ _ _) hinput (by simp [atHead,head])
      (fun hc => pointOk_of_keeps (Or.inl rfl) (continues_atHead c now c.pipeline).keeps
        (hc.running (Or.inl head)))
    cases hcur : c.pipeline.currentBlob with
    | none =>
      simp only [atHead,hcur]
      exact Option.Rel.none
    | some b =>
      -- The update names a chunk that the current blob does not have.
      simp only [atHead,hcur]
      refine Option.Rel.some ⟨⟨_,rfl⟩,fun h => ?_⟩
      by_cases hh : h = hash
      · rw [hh,missing b hcur]
        exact Option.Rel.none
      · exact HashMap.rel_self (R := Change now (.updateChunkStatus hash st) h)
          (fun d => Or.inl (if_neg hh).symm) _
  | @noted b chunk front found status =>
    refine .stay rfl rfl
      (keeps_updateChunkStatus front found (Keeps.of_eq (fun _ _ => Or.inl rfl) rfl rfl))
      (spawned_nil _ _ _ _) hinput (by simp [atHead,head]) (fun _ => ?_)
    -- A status other than `finalized` leaves the blob unfinished.
    refine pointOk_of_keeps (Or.inl rfl) (continues_atHead c now _).keeps ?_
    rintro b' ⟨⟩ hfin
    have hlook : (b.setChunk hash (chunk.setStatus now st)).chunks.lookup hash =
        some (chunk.setStatus now st) := by
      simp [LocalBlob.setChunk,HashMap.lookup_modify,found]
    have htrue := LocalBlob.finished_iff.mp hfin _ _ hlook
    simp [Chunk.isFinalized,status] at htrue
  | announced front found status finished =>
    refine .stay rfl rfl
      (keeps_updateChunkStatus front found (Keeps.of_eq (fun _ _ => Or.inl rfl) rfl rfl))
      (spawned_nil _ _ _ _) hinput (by simp [head]) (fun _ => ⟨?_,?_⟩)
    · rintro (h | ⟨peers,after,h⟩) <;> cases h
    · rintro msg ⟨⟩
      exact ⟨_,rfl,finished,rfl⟩
  | @assigned b chunk front found status unfinished =>
    have hass := continues_assign c now { c.pipeline with
      currentBlob := some (b.setChunk hash (chunk.setStatus now st)) }
    exact .stay hass.received hass.announced (keeps_updateChunkStatus front found hass.keeps)
      (spawned_updateChunkStatus front found hass.spawned) hinput
      (by simp [assign,atHead,head])
      (fun _ => pointOk_of_keeps hass.point hass.keeps (by rintro b' ⟨⟩; exact unfinished))

lemma moves_rehash {chunks : HashMap Hash Chunk} {hints permits : HashMap PeerId Instant}
    {q : Pipeline} (hq : c.pipeline.rehash chunks hints permits = some q) :
    Moves now c (.rehash chunks hints permits) { c with pipeline := q } ⟨[],[]⟩ := by
  obtain ⟨current,rfl,hrel⟩ := rehash_spec hq
  have hkeep : Keeps (fun _ => Assigned now) c.pipeline { c.pipeline with
      currentBlob := current,storageProviderHints := hints,storagePermits := permits } := by
    refine ⟨rfl,HashMap.rel_mono ?_ hrel⟩
    rintro b b' ⟨hb,hchunks⟩
    exact ⟨hb,fun k => HashMap.rel_mono (fun _ _ hd => Or.inl hd) (hchunks k)⟩
  refine .stay rfl rfl hkeep (spawned_nil _ _ _ _) (by simp) Iff.rfl (fun hc => ⟨?_,?_⟩)
  · exact fun hrun => (pointOk_of_keeps hrun hkeep (hc.running hrun)).running hrun
  · intro msg hmsg
    obtain ⟨b,hb,hfin,rfl⟩ := hc.sending msg hmsg
    have hcur := hkeep.current
    rw [hb] at hcur
    obtain ⟨b',hb',hev⟩ := HashMap.exists_of_rel_some hcur
    refine ⟨b',hb',(hev.finished_iff fun _ _ _ h => h.isFinalized_eq).mpr hfin,?_⟩
    obtain ⟨⟨chunks,rfl⟩,-⟩ := hev
    rfl

/-- Every enabled input is one of the cases. -/
theorem moves_of_exec {i : Input} {c' : Coordinator} {eff : Effects}
    (h : c.exec now i = some (c',eff)) : Moves now c i c' eff := by
  cases arms_of_exec h with
  | rehash orders => exact moves_rehash orders
  | swarmSend suspended =>
    exact (continues_resume c now c.pipeline _).moves (Or.inr ⟨_,_,suspended⟩) (by simp) (by simp)
  | bridgeSend suspended front => exact moves_bridgeSend suspended front
  | stop head => exact .stop head
  | timerStale head =>
    exact (continues_onTimerStale c now).moves (Or.inl head) (by simp) (by simp)
  | timerAssign head =>
    exact (continues_assign c now c.pipeline).moves (Or.inl head) (by simp) (by simp)
  | handler head => exact (continues_onHandler c now _).moves (Or.inl head) (by simp) (by simp)
  | updateChunkStatus head => exact moves_updateChunkStatus head _ _
  | @admission msg head =>
    cases msg with
    | getBlob id =>
      exact Continues.moves (i := .admission (.getBlob id))
        ((continues_atHead c now _).congr rfl rfl) (Or.inl head) (by simp) (by simp)
    | newBlob a => exact moves_newBlob head a

end Coordinator

end Gozara
