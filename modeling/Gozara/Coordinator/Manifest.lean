import Gozara.Coordinator.Loop

/-!
# What the pipeline's operations keep

A blob's manifest is everything about it but the statuses of its chunks. Each operation of
the pipeline is described by its effect on the blob in front, on the blobs waiting and on
the chunks: manifests never change, statuses change by `Assigned` or by an update.
-/
namespace Gozara

structure Manifest where
  id : String
  rootHash : Hash
  merkleTree : MerkleTree
  allowance : ℕ
  data : Hash → Option Bytes

def AdmittedBlob.manifest (a : AdmittedBlob) : Manifest :=
  ⟨a.id,a.rootHash,a.merkleTree,a.allowance,(HashMap.collect a.chunks).lookup⟩

namespace LocalBlob

def manifest (b : LocalBlob) : Manifest :=
  ⟨b.id,b.rootHash,b.merkleTree,b.allowance,fun h => (b.chunks.lookup h).map Chunk.data⟩

/-- Only the chunks differ, key by key as `R` says. -/
def Evolves (R : Hash → Chunk → Chunk → Prop) (b b' : LocalBlob) : Prop :=
  (∃ chunks, b' = { b with chunks := chunks }) ∧
    ∀ h, Option.Rel (R h) (b.chunks.lookup h) (b'.chunks.lookup h)

variable {R : Hash → Chunk → Chunk → Prop} {b b' : LocalBlob}

lemma Evolves.refl (hR : ∀ h c, R h c c) (b : LocalBlob) : Evolves R b b :=
  ⟨⟨b.chunks,rfl⟩,fun h => HashMap.rel_self (hR h) _⟩

theorem Evolves.manifest_eq (hR : ∀ h c c', R h c c' → c'.data = c.data)
    (hb : Evolves R b b') : b'.manifest = b.manifest := by
  obtain ⟨⟨chunks,rfl⟩,hchunks⟩ := hb
  simp only [manifest,Manifest.mk.injEq,true_and]
  funext h
  have hrel := hchunks h
  simp only at hrel
  generalize b.chunks.lookup h = o at hrel ⊢
  generalize chunks.lookup h = o' at hrel ⊢
  cases hrel with
  | none => rfl
  | some hc => exact congrArg some (hR h _ _ hc)

lemma Evolves.lookup_some (hb : Evolves R b b') {h : Hash} {c : Chunk}
    (hc : b.chunks.lookup h = some c) : ∃ c', b'.chunks.lookup h = some c' ∧ R h c c' := by
  have hrel := hb.2 h
  rw [hc] at hrel
  exact HashMap.exists_of_rel_some hrel

lemma Evolves.lookup_some' (hb : Evolves R b b') {h : Hash} {c' : Chunk}
    (hc' : b'.chunks.lookup h = some c') : ∃ c, b.chunks.lookup h = some c ∧ R h c c' := by
  have hrel := hb.2 h
  rw [hc'] at hrel
  exact HashMap.exists_of_rel_some' hrel

/-- Every chunk of the blob is finalized. -/
def Finished (b : LocalBlob) : Prop := b.chunks.all Chunk.isFinalized = true

instance (b : LocalBlob) : Decidable b.Finished := inferInstanceAs (Decidable (_ = true))

theorem finished_iff : b.Finished ↔ ∀ h c, b.chunks.lookup h = some c → c.isFinalized = true :=
  HashMap.all_eq_true

theorem Evolves.finished_iff (hR : ∀ h c c', R h c c' → c'.isFinalized = c.isFinalized)
    (hb : Evolves R b b') : b'.Finished ↔ b.Finished := by
  rw [LocalBlob.finished_iff,LocalBlob.finished_iff]
  constructor
  · intro h k c hc
    obtain ⟨c',hc',hRc⟩ := hb.lookup_some hc
    rw [← hR k c c' hRc]
    exact h k c' hc'
  · intro h k c' hc'
    obtain ⟨c,hc,hRc⟩ := hb.lookup_some' hc'
    rw [hR k c c' hRc]
    exact h k c hc

/-- The update of one chunk's status. -/
def setChunk (b : LocalBlob) (hash : Hash) (c : Chunk) : LocalBlob :=
  { b with chunks := b.chunks.modify hash c }

theorem setChunk_evolves {hash : Hash} {c : Chunk} (now : Instant) (st : ChunkUploadStatus)
    (hc : b.chunks.lookup hash = some c) :
    Evolves (fun h d d' => d' = if h = hash then d.setStatus now st else d) b
      (b.setChunk hash (c.setStatus now st)) := by
  refine ⟨⟨_,rfl⟩,fun h => ?_⟩
  change Option.Rel _ (b.chunks.lookup h) ((b.chunks.modify hash (c.setStatus now st)).lookup h)
  rw [HashMap.lookup_modify]
  split_ifs with hh
  · subst h
    rw [hc]
    exact Option.Rel.some (by simp)
  · exact HashMap.rel_self (fun d => by simp only [if_neg hh]) _

end LocalBlob

namespace Pipeline

theorem manifest_localBlob (now : Instant) (a : AdmittedBlob) :
    (localBlob now a).manifest = a.manifest := by
  simp only [localBlob,LocalBlob.manifest,AdmittedBlob.manifest,Manifest.mk.injEq,true_and]
  funext h
  rw [HashMap.lookup_collect_map (fun d => (⟨d,⟨now,.pending⟩⟩ : Chunk)),Option.map_map]
  exact Option.map_id'

theorem localBlob_pending {now : Instant} {a : AdmittedBlob} {h : Hash} {c : Chunk}
    (hc : (localBlob now a).chunks.lookup h = some c) : c.status = ⟨now,.pending⟩ := by
  have hmem := HashMap.mem_of_lookup_collect hc
  obtain ⟨e,-,he⟩ := List.mem_map.mp hmem
  cases he
  rfl

/-- A blob with a chunk is not finished when it arrives. -/
theorem localBlob_not_finished {now : Instant} {a : AdmittedBlob} (ha : a.chunks ≠ []) :
    ¬(localBlob now a).Finished := by
  intro h
  obtain ⟨e,he⟩ := List.exists_mem_of_ne_nil _ ha
  obtain ⟨c,hc⟩ := HashMap.lookup_collect_isSome
    (List.mem_map.mpr ⟨e,he,rfl⟩ : (e.1,(⟨e.2,⟨now,.pending⟩⟩ : Chunk)) ∈
      a.chunks.map fun e => (e.1,⟨e.2,⟨now,.pending⟩⟩))
  have hfin := LocalBlob.finished_iff.mp h _ _ hc
  simp [Chunk.isFinalized,localBlob_pending hc,ChunkUploadStatus.isFinalized] at hfin

lemma Assigned.data_eq {now : Instant} {c c' : Chunk} (h : Assigned now c c') :
    c'.data = c.data := by
  obtain rfl | ⟨-,peer,rfl⟩ := h <;> rfl

lemma isFinalized_of_isEligible {now : Instant} {c : Chunk} (h : isEligible now c = true) :
    c.isFinalized = false := by
  unfold isEligible at h
  unfold Chunk.isFinalized
  cases hst : c.status.status <;> simp_all [ChunkUploadStatus.isFinalized]

/-- Assigning touches no finalized chunk and finalizes none. -/
lemma Assigned.isFinalized_eq {now : Instant} {c c' : Chunk} (h : Assigned now c c') :
    c'.isFinalized = c.isFinalized := by
  obtain rfl | ⟨he,peer,rfl⟩ := h
  · rfl
  · rw [isFinalized_of_isEligible he]
    rfl

lemma Assigned.eq_of_isFinalized {now : Instant} {c c' : Chunk} (h : Assigned now c c')
    (hc : c.isFinalized = true) : c' = c := by
  obtain rfl | ⟨he,-⟩ := h
  · rfl
  · rw [isFinalized_of_isEligible he] at hc
    cases hc

/-- `assign_chunks` changes the statuses of the current blob's chunks, the permits that are
available and nothing else. -/
theorem assignChunks_spec (p : Pipeline) (now : Instant) :
    ∃ current allowance, (p.assignChunks now).1 =
        { p with currentBlob := current,uploadAllowance := allowance } ∧
      Option.Rel (LocalBlob.Evolves fun _ => Assigned now) p.currentBlob current := by
  have hsame : Option.Rel (LocalBlob.Evolves fun _ => Assigned now) p.currentBlob p.currentBlob :=
    HashMap.rel_self (LocalBlob.Evolves.refl fun _ _ => Or.inl rfl) _
  unfold assignChunks
  by_cases hzero : p.uploadAllowance = 0
  · rw [if_pos hzero]
    exact ⟨p.currentBlob,p.uploadAllowance,rfl,hsame⟩
  · rw [if_neg hzero]
    cases hcur : p.currentBlob with
    | none => exact ⟨p.currentBlob,p.uploadAllowance,rfl,by rw [← hcur]; exact hsame⟩
    | some blob =>
      dsimp only
      split_ifs
      · refine ⟨_,_,rfl,Option.Rel.some ⟨⟨_,rfl⟩,fun h => ?_⟩⟩
        exact HashMap.rel_dlookup (R := fun _ => Assigned now) (forall₂_assignLoop _ _ _ _ _ _) h
      · exact ⟨p.currentBlob,p.uploadAllowance,rfl,by rw [← hcur]; exact hsame⟩

/-- The tasks are for different chunks of the blob, which after `f` were eligible and are
now in flight. -/
structure Spawned (now : Instant) (f : Hash → Chunk → Chunk) (o o' : Option LocalBlob)
    (ts : List UploadTask) : Prop where
  task : ∀ t ∈ ts, ∃ b b' c, o = some b ∧ o' = some b' ∧ b.chunks.lookup t.hash = some c ∧
    isEligible now (f t.hash c) = true ∧
    b'.chunks.lookup t.hash = some ((f t.hash c).setStatus now (.inflight t.peer)) ∧
    t.payload = (f t.hash c).data
  nodup : (ts.map UploadTask.hash).Nodup

lemma spawned_nil (now : Instant) (f : Hash → Chunk → Chunk) (o o' : Option LocalBlob) :
    Spawned now f o o' [] := ⟨fun _ ht => absurd ht (by simp),List.nodup_nil⟩

theorem assignChunks_spawned (p : Pipeline) (now : Instant) :
    Spawned now (fun _ c => c) p.currentBlob (p.assignChunks now).1.currentBlob
      (p.assignChunks now).2 := by
  unfold assignChunks
  by_cases hzero : p.uploadAllowance = 0
  · rw [if_pos hzero]
    exact spawned_nil _ _ _ _
  · rw [if_neg hzero]
    cases hcur : p.currentBlob with
    | none => exact spawned_nil _ _ _ _
    | some blob =>
      dsimp only
      split_ifs
      · refine ⟨fun t ht => ?_,?_⟩
        · obtain ⟨c,hc,hel,hmem,hdata⟩ := task_of_mem_assignLoop _ _ _ _ _ _ ht
          exact ⟨blob,_,c,rfl,rfl,HashMap.lookup_eq_some_iff.mpr hc,hel,
            HashMap.lookup_eq_some_iff.mpr hmem,hdata⟩
        · exact List.Nodup.sublist (sublist_assignLoop _ _ _ _ _ _) blob.chunks.keys_nodup
      · exact spawned_nil _ _ _ _

theorem requestStoragePermits_spec (p : Pipeline) (now : Instant) :
    ∃ permits, (p.requestStoragePermits now).1 = { p with storagePermits := permits } := by
  unfold requestStoragePermits
  split_ifs
  · exact ⟨p.storagePermits,rfl⟩
  · dsimp only
    split_ifs <;> exact ⟨_,rfl⟩

lemma beginNextBlob_of_some {p : Pipeline} {b : LocalBlob} (h : p.currentBlob = some b)
    (now : Instant) : p.beginNextBlob now = (p,none) := by
  simp only [beginNextBlob,h]

/-- With nothing in front, `begin_next_blob` moves the first waiting blob there. -/
theorem beginNextBlob_of_none {p : Pipeline} (h : p.currentBlob = none) (now : Instant) :
    ∃ permits, (p.beginNextBlob now).1 = { p with
      storagePermits := permits
      currentBlob := p.pendingLocalBlobs.head?
      pendingLocalBlobs := p.pendingLocalBlobs.tail } := by
  obtain ⟨remote,pending,current,hints,permits,allowance⟩ := p
  simp only at h
  subst current
  cases pending with
  | nil => exact ⟨permits,rfl⟩
  | cons b bs => exact requestStoragePermits_spec ⟨remote,bs,some b,hints,permits,allowance⟩ now

theorem rehash_spec {p p' : Pipeline} {chunks : HashMap Hash Chunk}
    {hints permits : HashMap PeerId Instant} (h : p.rehash chunks hints permits = some p') :
    ∃ current, p' = { p with
        currentBlob := current,storageProviderHints := hints,storagePermits := permits } ∧
      Option.Rel (LocalBlob.Evolves fun _ c c' => c' = c) p.currentBlob current := by
  unfold rehash at h
  split_ifs at h
  split at h
  · rename_i hcur
    cases h
    exact ⟨none,by rw [hcur],by rw [hcur]; exact Option.Rel.none⟩
  · rename_i b hcur
    split_ifs at h with hperm
    cases h
    refine ⟨_,rfl,?_⟩
    rw [hcur]
    refine Option.Rel.some ⟨⟨_,rfl⟩,fun k => ?_⟩
    change Option.Rel _ (b.chunks.lookup k) (chunks.lookup k)
    rw [HashMap.lookup_of_perm hperm]
    exact HashMap.rel_self (R := fun c c' => c' = c) (fun _ => rfl) _

end Pipeline

end Gozara
