import Gozara.Types

/-!
# The coordinator's pipeline

`Pipeline` of `coordinator.rs` with its operations. Sending on a channel suspends the
select loop, so an operation that sends returns the message and leaves the rest of its
caller to the loop; spawned upload tasks are returned as well. Fields that no operation
reads (creation times, the empty contents of a remote blob, the download allowance) are
left out.
-/
namespace Gozara

/-- `CHUNK_UPLOAD_WINDOW`, in seconds. -/
def chunkUploadWindow : ℕ := 30

/-- `STORAGE_PROVIDER_DECAY`, in seconds. -/
def storageProviderDecay : ℕ := 5*60

inductive ChunkUploadStatus
  | pending
  | inflight (peer : PeerId)
  | finalized (owner : PeerId)
  deriving DecidableEq

namespace ChunkUploadStatus

def isFinalized : ChunkUploadStatus → Bool
  | finalized _ => true
  | _ => false

theorem isFinalized_iff {st : ChunkUploadStatus} :
    st.isFinalized = true ↔ ∃ owner, st = .finalized owner := by
  cases st <;> simp [isFinalized]

end ChunkUploadStatus

/-- The `at` of the source is the stamp. -/
structure TimestampedStatus where
  stamp : Instant
  status : ChunkUploadStatus
  deriving DecidableEq

structure Chunk where
  data : Bytes
  status : TimestampedStatus
  deriving DecidableEq

namespace Chunk

def isFinalized (c : Chunk) : Bool := c.status.status.isFinalized

def setStatus (now : Instant) (st : ChunkUploadStatus) (c : Chunk) : Chunk :=
  { c with status := ⟨now,st⟩ }

@[simp] theorem setStatus_status (now : Instant) (st : ChunkUploadStatus) (c : Chunk) :
    (c.setStatus now st).status = ⟨now,st⟩ := rfl

end Chunk

structure LocalBlob where
  id : String
  rootHash : Hash
  merkleTree : MerkleTree
  chunks : HashMap Hash Chunk
  allowance : ℕ
  deriving DecidableEq

/-- An upload task that `assign_chunks` spawns. -/
structure UploadTask where
  hash : Hash
  peer : PeerId
  payload : Bytes
  started : Instant
  deriving DecidableEq

structure Pipeline where
  remoteBlobs : Finset String
  pendingLocalBlobs : List LocalBlob
  currentBlob : Option LocalBlob
  storageProviderHints : HashMap PeerId Instant
  storagePermits : HashMap PeerId Instant
  /-- Available permits of `upload_allowance`. -/
  uploadAllowance : ℕ
  deriving DecidableEq

namespace Pipeline

/-- `Pipeline::new`. -/
def new : Pipeline := ⟨∅,[],none,∅,∅,20⟩

/-- The blob that `add_local_blob` builds: repeated chunks are merged, all are pending. -/
def localBlob (now : Instant) (a : AdmittedBlob) : LocalBlob where
  id := a.id
  rootHash := a.rootHash
  merkleTree := a.merkleTree
  chunks := HashMap.collect (a.chunks.map fun e => (e.1,⟨e.2,⟨now,.pending⟩⟩))
  allowance := a.allowance

def addLocalBlob (p : Pipeline) (now : Instant) (a : AdmittedBlob) : Pipeline :=
  { p with pendingLocalBlobs := p.pendingLocalBlobs ++ [localBlob now a] }

/-- The blob taken and dropped; `none` is the panic of `unwrap`. -/
def archiveCurBlob (p : Pipeline) : Option (LocalBlob × Pipeline) :=
  p.currentBlob.map fun b => (b,{ p with currentBlob := none })

/-- The peers of the message that is about to be sent, if any. -/
def requestStoragePermits (p : Pipeline) (now : Instant) : Pipeline × Option (List PeerId) :=
  if p.storageProviderHints.entries.isEmpty then (p,none)
  else
    let p' := { p with storagePermits := p.storagePermits.retain fun _ expiresAt => now < expiresAt }
    if p'.storagePermits.entries.isEmpty then (p',some p'.storageProviderHints.keys)
    else (p',none)

def beginNextBlob (p : Pipeline) (now : Instant) : Pipeline × Option (List PeerId) :=
  match p.currentBlob with
  | some _ => (p,none)
  | none =>
    match p.pendingLocalBlobs with
    | [] => (p,none)
    | b::bs => requestStoragePermits { p with currentBlob := some b,pendingLocalBlobs := bs } now

/-- `is_eligible`. -/
def isEligible (now : Instant) (c : Chunk) : Bool :=
  match c.status.status with
  | .pending => true
  | .inflight _ => chunkUploadWindow < now.secsSince c.status.stamp
  | .finalized _ => false

/-- The next position in the list of peers, wrapping around. -/
def nextPeer {n : ℕ} (i : Fin n) : Fin n := ⟨(i.val+1)%n,Nat.mod_lt _ i.pos⟩

/-- The loop of `assign_chunks` over the entries that are left: at most `take` eligible
chunks, each with a permit of its own. Returns the entries, the permits that remain
available and the tasks spawned. -/
def assignLoop (now : Instant) (peers : List PeerId) :
    ℕ → Fin peers.length → ℕ → List (Sigma fun _ : Hash => Chunk) →
      List (Sigma fun _ : Hash => Chunk) × ℕ × List UploadTask
  | _,_,allowance,[] => ([],allowance,[])
  | 0,_,allowance,es => (es,allowance,[])
  | take+1,i,allowance,e::es =>
    if isEligible now e.2 then
      match allowance with
      | 0 => (e::es,0,[])
      | allowance+1 =>
        let peer := peers.get i
        let rest := assignLoop now peers take (nextPeer i) allowance es
        (⟨e.1,e.2.setStatus now (.inflight peer)⟩::rest.1,rest.2.1,
          ⟨e.1,peer,e.2.data,now⟩::rest.2.2)
    else
      let rest := assignLoop now peers (take+1) i allowance es
      (e::rest.1,rest.2)

/-- What assigning does to one chunk. -/
def Assigned (now : Instant) (c c' : Chunk) : Prop :=
  c' = c ∨ isEligible now c = true ∧ ∃ peer, c' = c.setStatus now (.inflight peer)

theorem forall₂_assignLoop (now : Instant) (peers : List PeerId)
    (es : List (Sigma fun _ : Hash => Chunk)) (take : ℕ) (i : Fin peers.length) (allowance : ℕ) :
    List.Forall₂ (fun e f => f.1 = e.1 ∧ Assigned now e.2 f.2) es
      (assignLoop now peers take i allowance es).1 := by
  have hrefl : ∀ es : List (Sigma fun _ : Hash => Chunk),
      List.Forall₂ (fun e f => f.1 = e.1 ∧ Assigned now e.2 f.2) es es := fun es =>
    List.forall₂_same.mpr fun e _ => ⟨rfl,Or.inl rfl⟩
  induction es generalizing take i allowance with
  | nil => simp [assignLoop]
  | cons e es ih =>
    cases take with
    | zero => exact hrefl _
    | succ take =>
      simp only [assignLoop]
      split_ifs with he
      · cases allowance with
        | zero => exact hrefl _
        | succ allowance => exact List.Forall₂.cons ⟨rfl,Or.inr ⟨he,_,rfl⟩⟩ (ih _ _ _)
      · exact List.Forall₂.cons ⟨rfl,Or.inl rfl⟩ (ih _ _ _)

lemma keys_assignLoop (now : Instant) (peers : List PeerId)
    (es : List (Sigma fun _ : Hash => Chunk)) (take : ℕ) (i : Fin peers.length) (allowance : ℕ) :
    (assignLoop now peers take i allowance es).1.keys = es.keys := by
  have h := forall₂_assignLoop now peers es take i allowance
  generalize (assignLoop now peers take i allowance es).1 = fs at h
  induction h with
  | nil => rfl
  | cons hef _ ih => rw [List.keys_cons,List.keys_cons,hef.1,ih]

/-- A spawned task carries the hash and the bytes of a chunk that was eligible and is now
in flight to the task's peer. -/
theorem task_of_mem_assignLoop (now : Instant) (peers : List PeerId)
    (es : List (Sigma fun _ : Hash => Chunk)) (take : ℕ) (i : Fin peers.length) (allowance : ℕ)
    {t : UploadTask} (ht : t ∈ (assignLoop now peers take i allowance es).2.2) :
    ∃ c, (⟨t.hash,c⟩ : Sigma fun _ : Hash => Chunk) ∈ es ∧ isEligible now c = true ∧
      (⟨t.hash,c.setStatus now (.inflight t.peer)⟩ : Sigma fun _ : Hash => Chunk) ∈
        (assignLoop now peers take i allowance es).1 ∧ t.payload = c.data := by
  induction es generalizing take i allowance with
  | nil => simp [assignLoop] at ht
  | cons e es ih =>
    cases take with
    | zero => simp [assignLoop] at ht
    | succ take =>
      simp only [assignLoop] at ht ⊢
      split_ifs at ht ⊢ with he
      · cases allowance with
        | zero => simp at ht
        | succ allowance =>
          rcases List.mem_cons.mp ht with rfl | ht
          · exact ⟨e.2,List.mem_cons_self,he,List.mem_cons_self,rfl⟩
          · obtain ⟨c,hc,hel,hmem,hdata⟩ := ih take (nextPeer i) allowance ht
            exact ⟨c,List.mem_cons_of_mem _ hc,hel,List.mem_cons_of_mem _ hmem,hdata⟩
      · obtain ⟨c,hc,hel,hmem,hdata⟩ := ih (take+1) i allowance ht
        exact ⟨c,List.mem_cons_of_mem _ hc,hel,List.mem_cons_of_mem _ hmem,hdata⟩

/-- The tasks are spawned in the order of the entries, one for an entry. -/
theorem sublist_assignLoop (now : Instant) (peers : List PeerId)
    (es : List (Sigma fun _ : Hash => Chunk)) (take : ℕ) (i : Fin peers.length) (allowance : ℕ) :
    ((assignLoop now peers take i allowance es).2.2.map UploadTask.hash).Sublist es.keys := by
  induction es generalizing take i allowance with
  | nil => simp [assignLoop]
  | cons e es ih =>
    rw [List.keys_cons]
    cases take with
    | zero => simp [assignLoop]
    | succ take =>
      simp only [assignLoop]
      split_ifs
      · cases allowance with
        | zero => simp
        | succ allowance => exact (ih _ _ _).cons_cons _
      · exact (ih _ _ _).cons _

/-- The peers with an unexpired storage permit. -/
def eligiblePeers (p : Pipeline) (now : Instant) : List PeerId :=
  (p.storagePermits.entries.filter fun e => now < e.2).map Sigma.fst

def assignChunks (p : Pipeline) (now : Instant) : Pipeline × List UploadTask :=
  if p.uploadAllowance = 0 then (p,[])
  else
    match p.currentBlob with
    | none => (p,[])
    | some blob =>
      if h : 0 < (p.eligiblePeers now).length then
        let r := assignLoop now (p.eligiblePeers now) p.uploadAllowance ⟨0,h⟩ p.uploadAllowance
          blob.chunks.entries
        ({ p with
            currentBlob := some { blob with
              chunks := blob.chunks.withEntries r.1 (keys_assignLoop _ _ _ _ _ _) }
            uploadAllowance := r.2.1 },r.2.2)
      else (p,[])

/-- The iteration orders of the hash maps are arbitrary: any reordering of the entries. -/
def rehash (p : Pipeline) (chunks : HashMap Hash Chunk) (hints permits : HashMap PeerId Instant) :
    Option Pipeline :=
  if hints.entries.Perm p.storageProviderHints.entries ∧
      permits.entries.Perm p.storagePermits.entries then
    match p.currentBlob with
    | none => some { p with storageProviderHints := hints,storagePermits := permits }
    | some b =>
      if chunks.entries.Perm b.chunks.entries then
        some { p with
          currentBlob := some { b with chunks := chunks }
          storageProviderHints := hints
          storagePermits := permits }
      else none
  else none

end Pipeline

end Gozara
