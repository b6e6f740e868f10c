import Gozara.Bridge.Bodies
import Gozara.Node.Histories
import Gozara.Node.Storage

/-!
# What is stored is what was uploaded

The frames of a request reach its own handler alone, whatever runs in between, and its handler
sends them whole. So the payloads that peers have acknowledged for a blob that is reported
stored are, in the order of the leaves of its Merkle tree, the body of one request.
-/
namespace Gozara.Node
open BridgeState

def Event.request? : Event → Option Request
  | .request b => some b
  | _ => none

/-- The bytes that an event hands to request `i`. -/
def Event.bytesTo (i : ℕ) : Event → Bytes
  | .act j a => if j = i then a.bytes else []
  | _ => []

/-- The requests of a run, in order. -/
def requests (es : List Event) : List Request := es.filterMap Event.request?

/-- The frames of request `i`, one after the other. -/
def bodyOf (i : ℕ) (es : List Event) : Bytes := es.flatMap (Event.bytesTo i)

/-- The bridge has streamed what its clients sent. -/
def Streamed (D : Deps) (es : List Event) (s : Node) : Prop :=
  Bridge.Streams D (requests es) (fun i => bodyOf i es) s.bridge

variable {D : Deps} {s s' : Node} {e : Event} {es past : List Event}

lemma requests_append (past : List Event) (e : Event) :
    requests (past ++ [e]) = requests past ++ e.request?.toList := by
  rw [requests,List.filterMap_append]
  cases he : e.request? <;> simp [requests,he]

lemma bodyOf_append (i : ℕ) (past : List Event) (e : Event) :
    bodyOf i (past ++ [e]) = bodyOf i past ++ e.bytesTo i := by
  simp [bodyOf]

/-- A step of the bridge that is part of an event of the client. -/
lemma Streamed.bridge (h : Streamed D past s) (be : Bridge.Event) {b : Bridge}
    (hb : Bridge.step D s.bridge be = some b) (hs' : s'.bridge = b)
    (hrequest : Bridge.request? be = e.request?)
    (hbytes : ∀ i, Bridge.bytesTo i be = e.bytesTo i) : Streamed D (past ++ [e]) s' := by
  have hstep := Bridge.Streams.step h hb
  rw [hrequest] at hstep
  simp only [hbytes] at hstep
  simp only [Streamed,requests_append,bodyOf_append,hs']
  exact hstep

theorem Streamed.step (h : Streamed D past s) (hstep : Node.step D s e = some s') :
    Streamed D (past ++ [e]) s' := by
  have hdoes := does_of_step hstep
  cases hdoes with
  | bridge hb event =>
    rcases event with ⟨r,rfl,rfl⟩ | ⟨i,a,rfl,rfl⟩ | ⟨rfl,rfl⟩
    · exact h.bridge _ hb rfl rfl fun _ => rfl
    · exact h.bridge _ hb rfl rfl fun _ => rfl
    · exact h.bridge _ hb rfl rfl fun _ => rfl
  | enqueue running room handler outbox hb => exact h.bridge _ hb rfl rfl fun _ => rfl
  | update updating head hb => exact h.bridge _ hb rfl rfl fun _ => rfl
  | stopUpdates =>
    simp only [Streamed,requests_append,bodyOf_append,Event.request?,Event.bytesTo,
      Option.toList_none,List.append_nil]
    exact h
  | @drive e ue u dropped admission updates event =>
    -- The coordinator only gives permits back.
    have hquiet : e.request? = none ∧ ∀ i, e.bytesTo i = [] := by
      rcases event with ⟨rfl,-⟩ | ⟨rfl,-⟩ | ⟨rfl,-⟩ <;> exact ⟨rfl,fun _ => rfl⟩
    exact h.bridge (.env (.release _)) rfl rfl hquiet.1.symm fun i => (hquiet.2 i).symm

theorem streamed_run (hrun : Transition.run (Node.step D) init es = some s) :
    Streamed D es s := by
  have hinit : Streamed D [] init := Bridge.streams_init D
  exact Transition.run_past (fun _ _ _ _ hstep h => Streamed.step h hstep) hrun hinit

/-- Acknowledged pushes of the leaves of a blob, in order, to the owners that the blob names. -/
structure Kept (s : Node) (b : LocalBlob) (ps : List AckedPush) : Prop where
  acked : ∀ p ∈ ps, p ∈ s.engine.acked
  leaves : ps.map AckedPush.hash = b.merkleTree.leaves
  owners : ∀ p ∈ ps, ∃ c, b.chunks.lookup p.hash = some c ∧ c.status.status = .finalized p.peer

/-- Each chunk of an announced blob was pushed to the owner that the blob names. -/
lemma Linked.owner_pushed (h : Linked D s) (hinj : Set.InjOn D.blake3 s.chunkData)
    {b : LocalBlob} (hb : b ∈ s.engine.coordinator.announced) {a : AdmittedBlob}
    (ha : a ∈ s.engine.coordinator.received) (hab : a.manifest = b.manifest) {e : Hash × Bytes}
    (he : e ∈ a.chunks) : ∃ p ∈ s.engine.acked, p.hash = e.1 ∧ p.data = e.2 ∧
      ∃ c, b.chunks.lookup p.hash = some c ∧ c.status.status = .finalized p.peer := by
  obtain ⟨d,hd⟩ := HashMap.lookup_collect_isSome he
  have hdata : (b.chunks.lookup e.1).map Chunk.data = some d := by
    change b.manifest.data e.1 = some d
    rw [← hab]
    exact hd
  obtain ⟨c,hc,-⟩ := Option.map_eq_some_iff.mp hdata
  have hfin := LocalBlob.finished_iff.mp (h.stored.announced b hb) e.1 c hc
  obtain ⟨owner,howner⟩ := ChunkUploadStatus.isFinalized_iff.mp hfin
  have hack := h.stored.owned b (List.mem_append_right _ hb) e.1 c owner hc howner
  obtain ⟨p,hp,hhash,hpdata,rfl,-⟩ := h.pushed hinj (List.mem_flatMap.mpr ⟨a,ha,he⟩) hack
  exact ⟨p,hp,hhash,hpdata,c,by rw [hhash]; exact hc,howner⟩

/-- One acknowledged push for each leaf, and together the body. -/
theorem Linked.kept (h : Linked D s) (hinj : Set.InjOn D.blake3 s.chunkData) {b : LocalBlob}
    (hb : b ∈ s.engine.coordinator.announced) {a : AdmittedBlob}
    (ha : a ∈ s.engine.coordinator.received) (hab : a.manifest = b.manifest) {body : Bytes}
    (hwhole : a.Whole D body) :
    ∃ ps, Kept s b ps ∧ (ps.map AckedPush.data).flatten = body := by
  choose p hacked hhash hdata howner using
    fun e (he : e ∈ a.chunks) => h.owner_pushed hinj hb ha hab he
  have hmap : ∀ {β : Type} (f : AckedPush → β) (g : Hash × Bytes → β),
      (∀ e he, f (p e he) = g e) → (a.chunks.pmap p fun _ he => he).map f = a.chunks.map g := by
    intro β f g hfg
    rw [List.map_pmap,← List.pmap_eq_map (p := fun e => e ∈ a.chunks) fun _ he => he]
    exact List.pmap_congr_left _ fun e _ he _ => hfg e he
  refine ⟨a.chunks.pmap p fun _ he => he,⟨?_,?_,?_⟩,?_⟩
  · rintro q hq
    obtain ⟨e,he,rfl⟩ := List.mem_pmap.mp hq
    exact hacked e he
  · have htree : a.merkleTree = b.merkleTree := congrArg Manifest.merkleTree hab
    rw [hmap AckedPush.hash Prod.fst hhash,← htree,hwhole.tree]
  · rintro q hq
    obtain ⟨e,he,rfl⟩ := List.mem_pmap.mp hq
    exact howner e he
  · rw [hmap AckedPush.data Prod.snd hdata]
    exact hwhole.body_eq

/-- The blob of a key that is finalized was sent by the request that inserted the entry. -/
theorem uploaded_of_finalized (hrun : Transition.run (Node.step D) init es = some s) {k : String}
    {entry : Entry} (hentry : s.bridge.shared.statusMap.lookup k = some entry)
    (hfin : .finalized ∈ entry.history) : ∃ b ∈ s.engine.coordinator.announced, b.id = k ∧
      ∃ a ∈ s.engine.coordinator.received, a.manifest = b.manifest ∧
        a.Whole D (bodyOf entry.inserter es) ∧ ∃ r : Request,
          (requests es)[entry.inserter]? = some r ∧ r.declared? = some (a.id,a.body.length) := by
  have h := linked_run hrun
  obtain ⟨b,hb,rfl⟩ := h.histories k entry hentry hfin
  obtain ⟨a,ha,hab⟩ := h.stored.orderly.origin (List.mem_append_right _ hb)
  have hid : a.id = b.id := congrArg Manifest.id hab
  obtain ⟨i,hi⟩ := h.origin a ha
  -- The key is canonical, so that the upload that sent the blob inserted its entry.
  have hcan : D.magicTypeId a.id = some a.id := by
    rw [hid]
    exact h.holds.shared.canonical _ _ hentry
  obtain ⟨-,-,-,-,-,-,hins⟩ := h.inserterOf_blob hi hcan
  obtain ⟨e,he,rfl⟩ := inserterOf_eq_some.mp hins
  rw [hid,hentry] at he
  cases he
  exact ⟨b,hb,rfl,a,ha,hab,(streamed_run hrun).sent _ a hi⟩

/-- A blob that is reported stored is the body of one request. When the history of a key
contains `Finalized`, the request that inserted the entry posted under that very id and declared
the length of its body, and the coordinator has announced a blob whose leaves, in the order of
its Merkle tree, peers have acknowledged with payloads that are together the frames of that
request, in order, whatever the other requests did in between. -/
theorem finalized_contents (hrun : Transition.run (Node.step D) init es = some s)
    (hinj : Set.InjOn D.blake3 s.chunkData) {k : String} {entry : Entry}
    (hentry : s.bridge.shared.statusMap.lookup k = some entry)
    (hfin : .finalized ∈ entry.history) :
    (∃ contentLength, (requests es)[entry.inserter]? = some (.post k contentLength) ∧
      declaredLen contentLength = some (bodyOf entry.inserter es).length) ∧
    ∃ b ∈ s.engine.coordinator.announced, b.id = k ∧
      D.merkleRoot b.merkleTree.leaves = some b.rootHash ∧
        ∃ ps, Kept s b ps ∧ (ps.map AckedPush.data).flatten = bodyOf entry.inserter es := by
  have h := linked_run hrun
  obtain ⟨b,hb,rfl,a,ha,hab,hwhole,r,hr,hdecl⟩ := uploaded_of_finalized hrun hentry hfin
  have hid : a.id = b.id := congrArg Manifest.id hab
  have htree : a.merkleTree = b.merkleTree := congrArg Manifest.merkleTree hab
  have hroot : a.rootHash = b.rootHash := congrArg Manifest.rootHash hab
  refine ⟨?_,b,hb,rfl,?_,h.kept hinj hb ha hab hwhole⟩
  · cases r with
    | post id contentLength =>
      obtain ⟨n,hn,hpair⟩ := Option.map_eq_some_iff.mp hdecl
      simp only [Prod.mk.injEq] at hpair
      obtain ⟨rfl,rfl⟩ := hpair
      refine ⟨contentLength,by rw [hr,hid],?_⟩
      rw [hn,hwhole.body_eq]
    | get id => cases hdecl
  · rw [← htree,← hroot,hwhole.tree]
    exact hwhole.root

/-- Two uploads whose frames take turns; the first is stored. -/
def interleaved : List Event :=
  [.request (.post blobId (some [50])),.request (.post fileId (some [49])),.act 0 .acquire,
    .act 1 .acquire,.act 0 (.frame [7]),.act 1 (.frame [9]),.act 0 .hashStart,.act 1 .hashStart,
    .act 1 .hashDone,.act 0 .hashDone,.act 0 (.frame [8]),.act 1 .bodyEnd,.act 0 .hashStart,
    .act 0 .hashDone,.act 0 .bodyEnd,.act 0 .enqueue,.act 0 .commit,.recvAdmission,
    .engine (.input (.handler (.response ⟨[1]⟩ 0 (.issuedStoragePermit 60)))),
    .engine (.finish 0 (some ⟨[1],[],none⟩)),.engine (.finish 1 (some ⟨[1],[],none⟩)),
    .engine (.report 0),.engine (.report 0),.engine .recvInternal,.engine .recvInternal,
    .sendBridge,.recvUpdate]

lemma interleaved_stored : ∃ s,
    Transition.run (step (Deps.sample 1 Nat.one_pos)) init interleaved = some s ∧
      Set.InjOn (Deps.sample 1 Nat.one_pos).blake3 s.chunkData ∧
      s.bridge.shared.statusMap.lookup blobId = some ⟨0,[.pending,.finalized]⟩ ∧
      s.engine.acked.map (fun p => (p.peer,p.hash,p.data)) =
        [(⟨[1]⟩,Deps.sampleHash [8],[8]),(⟨[1]⟩,Deps.sampleHash [7],[7])] := by
  have hsome : (Transition.run (step (Deps.sample 1 Nat.one_pos)) init interleaved).isSome := by
    decide
  have hlog : ((Transition.run (step (Deps.sample 1 Nat.one_pos)) init interleaved).get
      hsome).bridge.shared.enqueued = [(0,.newBlob ⟨blobId,_,_,
        [(Deps.sampleHash [7],[7]),(Deps.sampleHash [8],[8])],2⟩)] := rfl
  refine ⟨_,(Option.some_get hsome).symm,injOn_chunkData (l := [[7],[8]]) (by decide) ?_,rfl,rfl⟩
  rintro d ⟨i,a,h,hmem,hd⟩
  rw [hlog] at hmem
  cases List.mem_singleton.mp hmem
  rcases List.mem_pair.mp hd with hd | hd <;> cases hd <;> simp

theorem finalized_contents_interleaved :
    ∃ s b ps, Transition.run (step (Deps.sample 1 Nat.one_pos)) init interleaved = some s ∧
      b ∈ s.engine.coordinator.announced ∧ b.id = blobId ∧ Kept s b ps ∧
        (ps.map AckedPush.data).flatten = [7,8] := by
  obtain ⟨s,hrun,hinj,hentry,-⟩ := interleaved_stored
  obtain ⟨-,b,hb,hid,-,ps,hkept,hbody⟩ := finalized_contents hrun hinj hentry (by simp)
  exact ⟨s,b,ps,hrun,hb,hid,hkept,hbody⟩

end Gozara.Node
