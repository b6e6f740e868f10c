import Gozara.Node.Links

/-!
# Storage claims are sound

A `Finalized` in the status map goes back, over the bridge channel, to a blob that the
coordinator announced, from there to the message of an upload that was admitted, and chunk
by chunk to pushes that peers acknowledged. Hashes connect the chunks with the bytes pushed.
-/
namespace Gozara.Node
open BridgeState Coordinator

/-- The chunks that the handlers hashed for the messages they enqueued. -/
def chunkData (s : Node) : Set Bytes :=
  {d | ∃ i a h, (i,.newBlob a) ∈ s.bridge.shared.enqueued ∧ (h,d) ∈ a.chunks}

/-- A push of these bytes under this hash to `owner` returned normally, on the tag 1. -/
def Pushed (s : Node) (h : Hash) (d : Bytes) (owner : PeerId) : Prop :=
  ∃ p ∈ s.engine.acked, p.hash = h ∧ p.data = d ∧ p.peer = owner ∧
    ∃ stream, p.stream = some stream ∧ stream.incoming.head? = some 1

variable {D : Deps} {s : Node} {es : List Event}

lemma injOn_chunkData {l : List Bytes} (hl : (l.map D.blake3).Nodup)
    (hs : s.chunkData ⊆ {d | d ∈ l}) : Set.InjOn D.blake3 s.chunkData :=
  fun _ hd _ hd' => List.inj_on_of_nodup_map hl (hs hd) (hs hd')

/-- What the coordinator has of a chunk is its hash and its bytes. -/
theorem Linked.mem_chunkData (h : Linked D s) {k : Hash} {d : Bytes}
    (hd : (k,d) ∈ s.engine.coordinator.pool) : k = D.blake3 d ∧ d ∈ s.chunkData := by
  obtain ⟨a,ha,hmem⟩ := List.mem_flatMap.mp hd
  obtain ⟨i,hi⟩ := h.origin a ha
  obtain ⟨_,_,_,_,_,_,_,hwhole⟩ := h.newBlob hi
  exact ⟨hwhole.hash_eq _ hmem,i,a,k,hi,hmem⟩

/-- The bytes pushed under a hash are those of every chunk with that hash. -/
theorem Linked.pushed (h : Linked D s) (hinj : Set.InjOn D.blake3 s.chunkData) {k : Hash}
    {d : Bytes} {owner : PeerId} (hd : (k,d) ∈ s.engine.coordinator.pool)
    (hack : s.engine.Acked k owner) : s.Pushed k d owner := by
  obtain ⟨p,hp,rfl,rfl⟩ := hack
  obtain ⟨hhash,hmem⟩ := h.mem_chunkData hd
  obtain ⟨hhash',hmem'⟩ := h.mem_chunkData (h.stored.acked p hp)
  have hdata : p.data = d := hinj hmem' hmem (hhash'.symm.trans hhash)
  exact ⟨p,hp,rfl,hdata,rfl,p.tag⟩

/-- All chunks of an announced blob, by the list that its upload sent. -/
theorem Linked.announced_pushed (h : Linked D s) (hinj : Set.InjOn D.blake3 s.chunkData)
    {b : LocalBlob} (hb : b ∈ s.engine.coordinator.announced) {a : AdmittedBlob}
    (ha : a ∈ s.engine.coordinator.received) (hab : a.manifest = b.manifest) {k : Hash} {d : Bytes}
    (hd : (k,d) ∈ a.chunks) : ∃ owner, s.Pushed k d owner := by
  obtain ⟨d',hd'⟩ := HashMap.lookup_collect_isSome hd
  have hdata : (b.chunks.lookup k).map Chunk.data = some d' := by
    change b.manifest.data k = some d'
    rw [← hab]
    exact hd'
  obtain ⟨c,hc,-⟩ := Option.map_eq_some_iff.mp hdata
  have hfin := LocalBlob.finished_iff.mp (h.stored.announced b hb) k c hc
  obtain ⟨owner,howner⟩ := ChunkUploadStatus.isFinalized_iff.mp hfin
  have hack := h.stored.owned b (List.mem_append_right _ hb) k c owner hc howner
  exact ⟨owner,h.pushed hinj (List.mem_flatMap.mpr ⟨a,ha,hd⟩) hack⟩

/-- Storage claims are sound: when the history of an id contains `Finalized`, the request
that inserted its entry sent a blob under that id, and each of the blob's chunks was pushed,
byte for byte, to a peer that acknowledged it; and each chunk of a blob of the coordinator
that is finalized was so pushed to the peer its status names. -/
theorem storage_claims_sound (hrun : Transition.run (step D) init es = some s)
    (hinj : Set.InjOn D.blake3 s.chunkData) :
    (∀ id e, s.bridge.shared.statusMap.lookup id = some e → .finalized ∈ e.history →
      ∃ t adm a, s.bridge.threads[e.inserter]? = some t ∧ t.post = some (id,adm) ∧
        adm.id = id ∧ (e.inserter,.newBlob a) ∈ s.bridge.shared.enqueued ∧ a.id = id ∧
        ∀ h d, (h,d) ∈ a.chunks → h = D.blake3 d ∧ ∃ owner, s.Pushed h d owner) ∧
    ∀ b ∈ s.engine.coordinator.held ++ s.engine.coordinator.announced, ∀ h c owner,
      b.chunks.lookup h = some c → c.status.status = .finalized owner →
        h = D.blake3 c.data ∧ s.Pushed h c.data owner := by
  have h := linked_run hrun
  constructor
  · intro id e he hfin
    obtain ⟨b,hb,rfl⟩ := h.histories id e he hfin
    obtain ⟨a,ha,hab⟩ := h.stored.orderly.origin (List.mem_append_right _ hb)
    have hid : a.id = b.id := congrArg Manifest.id hab
    obtain ⟨i,hi⟩ := h.origin a ha
    obtain ⟨t,adm,body,ht,hsent,hpost,hcan,hwhole⟩ := h.newBlob hi
    -- The key is canonical, so that the id of the path is the id of the entry.
    rw [hid,h.holds.shared.canonical _ _ he] at hcan
    have hadm : adm.id = b.id := (Option.some.inj hcan).symm
    obtain ⟨e',he',rfl⟩ := inserterOf_eq_some.mp
      ((h.holds.thread i t ht).owns _ (Handler.guard_of_sent hsent hpost))
    rw [hadm,he] at he'
    cases he'
    rw [hid] at hpost
    refine ⟨t,adm,a,ht,hpost,hadm,hi,hid,fun k d hd => ⟨hwhole.hash_eq _ hd,?_⟩⟩
    exact h.announced_pushed hinj hb ha hab hd
  · intro b hb k c owner hc howner
    have hpool := h.stored.orderly.mem_pool hb hc
    exact ⟨(h.mem_chunkData hpool).1,h.pushed hinj hpool (h.stored.owned b hb k c owner hc howner)⟩

/-- The upload by request `i` of a body of two bytes, a chunk each. -/
def uploadPair (i : ℕ) (id : String) (x y : UInt8) : List Event :=
  [.request (.post id (some [50])),.act i .acquire,.act i (.frame [x]),.act i .hashStart,
    .act i .hashDone,.act i (.frame [y]),.act i .hashStart,.act i .hashDone,.act i .bodyEnd,
    .act i .enqueue,.act i .commit,.recvAdmission]

/-- The pushes of two tasks end well and are reported, and their blob is announced. -/
def storePair : List Event :=
  [.engine (.finish 0 (some ⟨[1],[],none⟩)),.engine (.finish 1 (some ⟨[1],[],none⟩)),
    .engine (.report 0),.engine (.report 0),.engine .recvInternal,.engine .recvInternal,.sendBridge,
    .recvUpdate]

/-- Two blobs with the same two chunks, in different orders, run through the client. -/
def stored : List Event :=
  uploadPair 0 blobId 7 8 ++ uploadPair 1 fileId 8 7 ++
    [.engine (.input (.handler (.response ⟨[1]⟩ 0 (.issuedStoragePermit 60))))] ++
      storePair ++ storePair

theorem storage_claims_sound_stored :
    ∃ s, Transition.run (step (Deps.sample 1 Nat.one_pos)) init stored = some s ∧
      ∀ id ∈ [blobId,fileId],
        (∃ e, s.bridge.shared.statusMap.lookup id = some e ∧ .finalized ∈ e.history) ∧
        ∃ i a, (i,.newBlob a) ∈ s.bridge.shared.enqueued ∧ a.id = id ∧
          ∀ h d, (h,d) ∈ a.chunks → h = Deps.sampleHash d ∧ ∃ owner, s.Pushed h d owner := by
  have hlast : (Transition.run (step (Deps.sample 1 Nat.one_pos)) init stored).map (fun s =>
      (s.bridge.shared.enqueued,s.bridge.shared.statusMap.lookup blobId,
        s.bridge.shared.statusMap.lookup fileId)) =
      some ([(0,.newBlob ⟨blobId,_,_,[(Deps.sampleHash [7],[7]),(Deps.sampleHash [8],[8])],2⟩),
        (1,.newBlob ⟨fileId,_,_,[(Deps.sampleHash [8],[8]),(Deps.sampleHash [7],[7])],2⟩)],
        some ⟨0,[.pending,.finalized]⟩,some ⟨1,[.pending,.finalized]⟩) := rfl
  obtain ⟨s,hrun,hparts⟩ := Option.map_eq_some_iff.mp hlast
  simp only [Prod.mk.injEq] at hparts
  obtain ⟨hlog,hblob,hfile⟩ := hparts
  have hinj : Set.InjOn (Deps.sample 1 Nat.one_pos).blake3 s.chunkData := by
    refine injOn_chunkData (l := [[7],[8]]) (by decide) ?_
    rintro d ⟨i,a,h,hmem,hd⟩
    rw [hlog] at hmem
    rcases List.mem_pair.mp hmem with hmem | hmem <;> cases hmem <;>
      rcases List.mem_pair.mp hd with hd | hd <;> cases hd <;> simp
  have hentry : ∀ id ∈ [blobId,fileId], ∃ e, s.bridge.shared.statusMap.lookup id = some e ∧
      .finalized ∈ e.history := by
    intro id hid
    rcases List.mem_pair.mp hid with rfl | rfl
    · exact ⟨_,hblob,by simp⟩
    · exact ⟨_,hfile,by simp⟩
  refine ⟨s,hrun,fun id hid => ?_⟩
  obtain ⟨e,he,hfin⟩ := hentry id hid
  obtain ⟨-,-,a,-,-,-,ha,hid,hchunks⟩ := (storage_claims_sound hrun hinj).1 id e he hfin
  exact ⟨⟨e,he,hfin⟩,_,a,ha,hid,hchunks⟩

end Gozara.Node
