import Gozara.BlobTransfer.Push
import Gozara.Node.Storage

/-!
# Receivers accept what the client pushes

What the upload tasks push are chunks that `new_blob` cut and hashed. An honest receiver,
whose limit is the size of a chunk, accepts each of them when nothing is cut.
-/
namespace Gozara.Node
open BlobTransfer

variable {D : Deps} {s : Node} {es : List Event}

/-- A task carries a chunk with its hash, no longer than a chunk or a body may be. -/
theorem Linked.task (h : Linked D s) {t : Gozara.Task} (ht : t ∈ s.engine.tasks) :
    D.blake3 t.upload.payload = t.upload.hash ∧ t.upload.payload.length ≤ D.chunkSize ∧
      t.upload.payload.length ≤ maxBlobSize := by
  obtain ⟨hhash,i,a,k,hlog,hmem⟩ := h.mem_chunkData (h.stored.tasks t ht)
  obtain ⟨_,_,_,_,_,_,_,hwhole⟩ := h.newBlob hlog
  obtain ⟨front,last,hchunks,hfront,-,hlast⟩ := hwhole.full
  refine ⟨hhash.symm,?_,hwhole.chunk_le_maxBlobSize hmem⟩
  rw [hchunks] at hmem
  rcases List.mem_append.mp hmem with hmem | hmem
  · exact (hfront _ hmem).le
  · rw [← List.mem_singleton.mp hmem] at hlast
    exact hlast

/-- The two ends of a push agree. Whatever is cut, the receiver emits at most one message,
and a push that returns normally stands for one with its hash and its data, which the
receiver has compared. When nothing is cut a push succeeds exactly if the data has a length
of 32 bits, is within the limit and has the hash; a wrong hash alone gives the receiver's
reason. So an honest receiver of chunks accepts everything that upload tasks push. -/
theorem push_agreement (D : Deps) :
    (∀ there back peer hash data maxPayloadLen,
      ((pushSession D there back peer hash data maxPayloadLen).sender = .ok () →
        (pushSession D there back peer hash data maxPayloadLen).emitted = [⟨peer,hash,data⟩] ∧
          D.blake3 data = hash ∧ data.length ≤ maxPayloadLen) ∧
      (pushSession D there back peer hash data maxPayloadLen).emitted.length ≤ 1) ∧
    (∀ peer hash data maxPayloadLen,
      ((pushSession D .whole .whole peer hash data maxPayloadLen).sender = .ok () ↔
        data.length < 2^32 ∧ data.length ≤ maxPayloadLen ∧ D.blake3 data = hash) ∧
      (data.length < 2^32 → data.length ≤ maxPayloadLen → D.blake3 data ≠ hash →
        (pushSession D .whole .whole peer hash data maxPayloadLen).sender =
          .error (.rejected (reasonFor (D.blake3 data))))) ∧
    (∀ actualHash, (reasonFor actualHash).length ≤ reasonMaxLen) ∧
    ∀ es s, Transition.run (step D) init es = some s → ∀ t ∈ s.engine.tasks, ∀ peer,
      (pushSession D .whole .whole peer t.upload.hash t.upload.payload D.chunkSize).sender =
          .ok () ∧
        (pushSession D .whole .whole peer t.upload.hash t.upload.payload D.chunkSize).emitted =
          [⟨peer,t.upload.hash,t.upload.payload⟩] := by
  refine ⟨fun there back peer hash data maxPayloadLen => ⟨fun hok => ?_,?_⟩,
    fun peer hash data maxPayloadLen => ⟨⟨fun hok => ?_,?_⟩,whole_rejected⟩,fun actualHash => ?_,
    fun es s hrun t ht peer => ?_⟩
  · obtain ⟨hemitted,heq,hmax,-⟩ := emitted_of_ok hok
    exact ⟨hemitted,heq,hmax⟩
  · exact length_emitted_le D there back peer hash data maxPayloadLen
  · obtain ⟨-,heq,hmax,hlt⟩ := emitted_of_ok hok
    exact ⟨hlt,hmax,heq⟩
  · rintro ⟨hlt,hmax,heq⟩
    exact whole_ok hlt hmax heq
  · rw [length_reasonFor]
    decide
  · obtain ⟨heq,hle,hmax⟩ := (linked_run hrun).task ht
    have hlt : t.upload.payload.length < 2^32 := lt_of_le_of_lt hmax (by decide)
    have hok : (pushSession D .whole .whole peer t.upload.hash t.upload.payload D.chunkSize).sender =
        .ok () := whole_ok hlt hle heq
    exact ⟨hok,(emitted_of_ok hok).1⟩

/-- An upload of one byte, up to the task that pushes it. -/
def pushing : List Event :=
  [.request (.post blobId (some [49])),.act 0 .acquire,.act 0 (.frame [7]),.act 0 .hashStart,
    .act 0 .hashDone,.act 0 .bodyEnd,.act 0 .enqueue,.act 0 .commit,.recvAdmission,
    .engine (.input (.handler (.response ⟨[1]⟩ 0 (.issuedStoragePermit 60))))]

theorem push_agreement_pushing :
    ∃ s t, Transition.run (step (Deps.sample 1 Nat.one_pos)) init pushing = some s ∧
      t ∈ s.engine.tasks ∧ t.upload.payload = [7] ∧
      (pushSession (Deps.sample 1 Nat.one_pos) .whole .whole ⟨[2]⟩ t.upload.hash t.upload.payload
        1).emitted = [⟨⟨[2]⟩,t.upload.hash,[7]⟩] := by
  have hsome : (Transition.run (step (Deps.sample 1 Nat.one_pos)) init pushing).isSome := by decide
  have hrun := (Option.some_get hsome).symm
  obtain ⟨-,-,-,haccept⟩ := push_agreement (Deps.sample 1 Nat.one_pos)
  have htask : (⟨⟨Deps.sampleHash [7],⟨[1]⟩,[7],0⟩,.uploading⟩ : Gozara.Task) ∈
      ((Transition.run (step (Deps.sample 1 Nat.one_pos)) init pushing).get hsome).engine.tasks :=
    List.mem_singleton_self _
  exact ⟨_,_,hrun,htask,rfl,(haccept pushing _ hrun _ htask ⟨[2]⟩).2⟩

end Gozara.Node
