import Gozara.BlobTransfer.Pull
import Gozara.Node.Contents

/-!
# What is stored can be pulled back

For every leaf of a blob that is reported stored the coordinator has named an owner. Pulled leaf
by leaf, the blob is the body that was uploaded: from owners that answer with what they have
acknowledged every pull succeeds, and from whoever answers nothing else is ever accepted.
-/
namespace Gozara

namespace BlobTransfer
variable {D : Deps} {hash : Hash} {maxPayloadLen : ℕ} {data : Bytes}

/-- An answer with the right payload is what an uncut pull returns. -/
theorem pullSession_found {peer : PeerId} {consumer : Option (IncomingPull → Reply)}
    (hreply : replyTo consumer ⟨peer,hash⟩ = .respond (some data)) (heq : D.blake3 data = hash)
    (hlt : data.length < 2^32) (hmax : data.length ≤ maxPayloadLen) :
    pullSession D .whole .whole peer consumer hash maxPayloadLen = .ok (some data) := by
  rw [pullSession_whole,hreply,Reply.data,answered,if_pos hlt]
  exact (readFound_present (s := ⟨[],frame hash.bytes,none⟩) _).mpr ⟨heq,hmax,hlt,List.prefix_rfl⟩

end BlobTransfer

namespace Node
open BlobTransfer

/-- Every peer answers a pull with what it has acknowledged under that hash. -/
def Honest (s : Node) (consumer : PeerId → Option (IncomingPull → Reply)) : Prop :=
  ∀ p ∈ s.engine.acked, ∀ requester,
    replyTo (consumer p.peer) ⟨requester,p.hash⟩ = .respond (some p.data)

variable {D : Deps} {s : Node} {es : List Event} {b : LocalBlob} {ps : List AckedPush}

/-- An acknowledged payload has its hash and the size of a chunk. -/
lemma Linked.ackedPush (h : Linked D s) {p : AckedPush} (hp : p ∈ s.engine.acked) :
    D.blake3 p.data = p.hash ∧ p.data ∈ s.chunkData ∧ p.data.length ≤ D.chunkSize ∧
      p.data.length < 2^32 := by
  obtain ⟨hhash,i,a,k,hlog,hmem⟩ := h.mem_chunkData (h.stored.acked p hp)
  obtain ⟨_,_,_,_,_,_,_,hwhole⟩ := h.newBlob hlog
  exact ⟨hhash.symm,⟨i,a,k,hlog,hmem⟩,hwhole.length_chunk_le _ hmem,
    lt_of_le_of_lt (hwhole.chunk_le_maxBlobSize hmem) (by decide)⟩

/-- The owners that a blob names answer every pull of a leaf. -/
theorem Kept.pulled (h : Linked D s) (hkept : Kept s b ps)
    {consumer : PeerId → Option (IncomingPull → Reply)} (hhonest : s.Honest consumer)
    (requester : PeerId) :
    List.Forall₂ (fun leaf piece => ∃ c owner, b.chunks.lookup leaf = some c ∧
      c.status.status = .finalized owner ∧
        pullSession D .whole .whole requester (consumer owner) leaf D.chunkSize =
          .ok (some piece)) b.merkleTree.leaves (ps.map AckedPush.data) := by
  rw [← hkept.leaves,List.forall₂_map_left_iff,List.forall₂_map_right_iff,List.forall₂_same]
  intro p hp
  obtain ⟨c,hc,howner⟩ := hkept.owners p hp
  obtain ⟨hhash,-,hmax,hlt⟩ := h.ackedPush (hkept.acked p hp)
  exact ⟨c,p.peer,hc,howner,
    pullSession_found (hhonest p (hkept.acked p hp) requester) hhash hlt hmax⟩

/-- Pieces with the hashes of the leaves are the payloads that were acknowledged. -/
theorem Kept.eq_of_hashes (h : Linked D s) (hkept : Kept s b ps) {pieces : List Bytes}
    (hinj : Set.InjOn D.blake3 (s.chunkData ∪ {d | d ∈ pieces}))
    (hpieces : pieces.map D.blake3 = b.merkleTree.leaves) : pieces = ps.map AckedPush.data := by
  have hhashes : pieces.map D.blake3 = ps.map fun p => D.blake3 p.data := by
    rw [hpieces,← hkept.leaves]
    exact List.map_congr_left fun p hp => (h.ackedPush (hkept.acked p hp)).1.symm
  have hlen : pieces.length = ps.length := by simpa using congrArg List.length hhashes
  refine List.ext_getElem (by simpa using hlen) fun i hi hi' => ?_
  rw [List.length_map] at hi'
  rw [List.getElem_map]
  refine hinj (Or.inr (List.getElem_mem hi))
    (Or.inl (h.ackedPush (hkept.acked _ (List.getElem_mem hi'))).2.1) ?_
  have heq := congrArg (fun l => l[i]?) hhashes
  simpa [hi,hi'] using heq

/-- A blob that is reported stored can be pulled back. Pulled leaf by leaf, over uncut streams
and from the owners that the coordinator has named, it is the body of the request that posted
it, provided that the peers answer with what they have acknowledged. And whatever streams the
pulls are given, when all of them return a payload, these are together that body, as long as no
two different payloads have one hash. -/
theorem stored_blob_retrieved (hrun : Transition.run (step D) init es = some s)
    (hinj : Set.InjOn D.blake3 s.chunkData) {k : String} {entry : Entry}
    (hentry : s.bridge.shared.statusMap.lookup k = some entry)
    (hfin : .finalized ∈ entry.history) :
    ∃ b ∈ s.engine.coordinator.announced, b.id = k ∧
      (∀ consumer, s.Honest consumer → ∀ requester, ∃ pieces,
        List.Forall₂ (fun leaf piece => ∃ c owner, b.chunks.lookup leaf = some c ∧
          c.status.status = .finalized owner ∧
            pullSession D .whole .whole requester (consumer owner) leaf D.chunkSize =
              .ok (some piece)) b.merkleTree.leaves pieces ∧
        pieces.flatten = bodyOf entry.inserter es) ∧
      ∀ pieces, List.Forall₂ (fun leaf piece => ∃ stream maxPayloadLen,
          pull D stream leaf maxPayloadLen = .ok (some piece)) b.merkleTree.leaves pieces →
        Set.InjOn D.blake3 (s.chunkData ∪ {d | d ∈ pieces}) →
          pieces.flatten = bodyOf entry.inserter es := by
  have h := linked_run hrun
  obtain ⟨b,hb,hid,a,ha,hab,hwhole,-⟩ := uploaded_of_finalized hrun hentry hfin
  obtain ⟨ps,hkept,hbody⟩ := h.kept hinj hb ha hab hwhole
  refine ⟨b,hb,hid,fun consumer hhonest requester =>
    ⟨ps.map AckedPush.data,hkept.pulled h hhonest requester,hbody⟩,fun pieces hpulls hinj' => ?_⟩
  have hhashes : List.Forall₂ (· = ·) b.merkleTree.leaves (pieces.map D.blake3) := by
    rw [List.forall₂_map_right_iff]
    refine hpulls.imp fun leaf piece hpull => ?_
    obtain ⟨stream,maxPayloadLen,hok⟩ := hpull
    exact (pull_sound hok).1.symm
  rw [List.forall₂_eq_eq_eq] at hhashes
  rw [hkept.eq_of_hashes h hinj' hhashes.symm]
  exact hbody

/-- A peer that keeps the two chunks of `interleaved`. -/
def keeper (p : IncomingPull) : Reply :=
  .respond (if p.hash = Deps.sampleHash [7] then some [7] else some [8])

theorem stored_blob_retrieved_interleaved :
    ∃ s b pieces, Transition.run (step (Deps.sample 1 Nat.one_pos)) init interleaved = some s ∧
      b ∈ s.engine.coordinator.announced ∧ b.id = blobId ∧ List.flatten pieces = [7,8] ∧
      List.Forall₂ (fun leaf piece => ∃ c owner, b.chunks.lookup leaf = some c ∧
        c.status.status = .finalized owner ∧
          pullSession (Deps.sample 1 Nat.one_pos) .whole .whole ⟨[9]⟩ (some keeper) leaf 1 =
            .ok (some piece)) b.merkleTree.leaves pieces := by
  obtain ⟨s,hrun,hinj,hentry,hacked⟩ := interleaved_stored
  have hhonest : s.Honest fun _ => some keeper := by
    intro p hp requester
    have hmem := List.mem_map_of_mem (f := fun p : AckedPush => (p.peer,p.hash,p.data)) hp
    rw [hacked] at hmem
    simp only [List.mem_cons,Prod.mk.injEq,List.not_mem_nil,or_false] at hmem
    rcases hmem with ⟨-,hhash,hdata⟩ | ⟨-,hhash,hdata⟩
    · have hne : Deps.sampleHash [8] ≠ Deps.sampleHash [7] := by decide
      simp [replyTo,keeper,hhash,hdata,hne]
    · simp [replyTo,keeper,hhash,hdata]
  obtain ⟨b,hb,hid,hcomplete,-⟩ := stored_blob_retrieved hrun hinj hentry (by simp)
  obtain ⟨pieces,hpulls,hbody⟩ := hcomplete _ hhonest ⟨[9]⟩
  exact ⟨s,b,pieces,hrun,hb,hid,hbody,hpulls⟩

end Node

end Gozara
