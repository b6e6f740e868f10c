import Gozara.Node.Links

/-!
# One blob, one key

`Admission` keeps the id as the library renders it, the message for the coordinator and the
status requests carry it as it was written. The two spellings meet in the status map: there
a committed upload is found, and its report is taken, exactly when they are the same.
-/
namespace Gozara

namespace Bridge
variable {D : Deps} {s s' : Bridge} {i : ℕ} {id : String} {adm : Option Admission}
  {reply : Option Response}

/-- A request that has ended takes no further step. -/
theorem posted_step {e : Event} (hstep : step D s e = some s')
    (ht : s.threads[i]? = some (.posted id adm reply)) :
    s'.threads[i]? = some (.posted id adm reply) := by
  have hi : i < s.threads.length := (List.getElem?_eq_some_iff.mp ht).1
  cases e with
  | spawn b =>
    cases hstep
    rwa [List.getElem?_append_left hi]
  | act j a =>
    obtain ⟨t,sh,t',hj,hact,rfl⟩ := Pool.step_act_eq_some.mp hstep
    have hij : j ≠ i := by
      rintro rfl
      cases ht.symm.trans hj
      cases hact
    rwa [List.getElem?_set_ne hij]
  | env g =>
    obtain ⟨sh,-,rfl⟩ := Pool.step_env_eq_some.mp hstep
    exact ht

end Bridge

namespace Node
open BridgeState

/-- A status request with this path finds the entry that request `i` inserted. -/
def Finds (s : Node) (i : ℕ) (id : String) : Prop :=
  ∃ e, s.bridge.shared.statusMap.lookup id = some e ∧ e.inserter = i ∧
    s.bridge.shared.statusMap.getStatus id = e.history.getLast?.map fun st => ⟨.ok,none,.json st⟩

/-- The bridge takes the coordinator's report on the blob of request `i` off its channel. -/
def Reported (D : Deps) (s : Node) (i : ℕ) (s' : Node) : Prop :=
  ∃ blob rest, (i,.newBlob blob) ∈ s.bridge.shared.enqueued ∧
    s.updates = .updateStatus blob.id .finalized::rest ∧ step D s .recvUpdate = some s'

/-- The report is appended to the entry that request `i` inserted. -/
def Appends (s : Node) (i : ℕ) (s' : Node) : Prop :=
  ∃ k e, s.bridge.shared.statusMap.lookup k = some e ∧ e.inserter = i ∧
    s'.bridge.shared.statusMap.lookup k = some { e with history := e.history ++ [.finalized] }

variable {D : Deps} {s s' : Node} {es : List Event} {i : ℕ} {id : String} {adm : Admission}
  {reply : Option Response}

lemma posted_run {fs : List Event} (hrun : Transition.run (step D) s fs = some s')
    (ht : s.bridge.threads[i]? = some (.posted id (some adm) reply)) :
    s'.bridge.threads[i]? = some (.posted id (some adm) reply) := by
  have hstep : ∀ u e v, step D u e = some v →
      u.bridge.threads[i]? = some (.posted id (some adm) reply) →
        v.bridge.threads[i]? = some (.posted id (some adm) reply) := by
    intro u e v huv hu
    obtain ⟨fs,hfs⟩ := bridge_project huv
    exact Transition.run_preserves (P := fun b : Bridge => b.threads[i]? = _)
      (fun _ _ _ hs => Bridge.posted_step hs) hfs hu
  exact Transition.run_preserves hstep hrun ht

/-- The entry of a committed upload is under the rendered id, and nowhere else. -/
lemma Linked.committed (h : Linked D s)
    (ht : s.bridge.threads[i]? = some (.posted id (some adm) reply)) (hc : adm.committed = true) :
    D.magicTypeId id = some adm.id ∧
      (∃ e, s.bridge.shared.statusMap.lookup adm.id = some e ∧ e.inserter = i) ∧
      ∀ blob, (i,.newBlob blob) ∈ s.bridge.shared.enqueued → blob.id = id := by
  have hL := h.holds.thread i _ ht
  refine ⟨hL.canonical id adm rfl,inserterOf_eq_some.mp (hL.owns adm.id ?_),?_⟩
  · simp [Handler.guard,hc]
  · intro blob hb
    obtain ⟨-,⟨adm',hpost⟩,-⟩ := hL.newBlob blob hb
    cases hpost
    rfl

/-- No entry is under an id that the library renders in another way. -/
lemma Linked.lookup_none (h : Linked D s) (hid : D.magicTypeId id ≠ some id) :
    s.bridge.shared.statusMap.lookup id = none := by
  rw [Option.eq_none_iff_forall_ne_some]
  exact fun e he => hid (h.holds.shared.canonical id e he)

lemma statusMap_recvUpdate {msg : ToBridge} {rest : List ToBridge} (hhead : s.updates = msg::rest)
    (hstep : step D s .recvUpdate = some s') :
    s'.bridge.shared.statusMap = s.bridge.shared.statusMap.update msg := by
  simp only [step,hhead] at hstep
  split_ifs at hstep
  obtain ⟨t,ht,rfl⟩ := Option.map_eq_some_iff.mp hstep
  obtain ⟨b,hb,rfl⟩ := Option.map_eq_some_iff.mp ht
  obtain ⟨sh,henv,rfl⟩ := Pool.step_env_eq_some.mp hb
  cases henv
  rfl

/-- After every continuation of a run in which a POST has committed, its entry is found
under the id of its path, and the coordinator's report on its blob is appended to that
entry, exactly when the library renders the id as it was written. Otherwise a status request
with that id answers 404 for ever and the report is discarded. -/
theorem one_key_iff_canonical (hrun : Transition.run (step D) init es = some s)
    (ht : s.bridge.threads[i]? = some (.posted id (some adm) reply)) (hc : adm.committed = true) :
    ((∀ fs s', Transition.run (step D) s fs = some s' →
        Finds s' i id ∧ ∀ s'', Reported D s' i s'' → Appends s' i s'') ↔
      D.magicTypeId id = some id) ∧
    (D.magicTypeId id ≠ some id → ∀ fs s', Transition.run (step D) s fs = some s' →
      s'.bridge.shared.statusMap.getStatus id = some ⟨.notFound,none,.empty⟩ ∧
        ∀ s'', Reported D s' i s'' →
          s''.bridge.shared.statusMap = s'.bridge.shared.statusMap) := by
  have hlater : ∀ {fs s'}, Transition.run (step D) s fs = some s' →
      Linked D s' ∧ s'.bridge.threads[i]? = some (.posted id (some adm) reply) := fun hfs =>
    ⟨Transition.run_preserves (fun _ _ _ hs h => Linked.step h hs) hfs (linked_run hrun),
      posted_run hfs ht⟩
  refine ⟨⟨fun hall => ?_,fun hid fs s' hfs => ?_⟩,fun hid fs s' hfs => ?_⟩
  · obtain ⟨⟨e,he,-,-⟩,-⟩ := hall [] s rfl
    exact (linked_run hrun).holds.shared.canonical id e he
  · obtain ⟨h',ht'⟩ := hlater hfs
    obtain ⟨hrender,⟨e,he,hi⟩,hblob⟩ := h'.committed ht' hc
    -- The two spellings are the same key.
    have hkey : adm.id = id := Option.some.inj (hrender.symm.trans hid)
    rw [hkey] at he
    refine ⟨⟨e,he,hi,by simp only [StatusMap.getStatus,he]⟩,?_⟩
    rintro s'' ⟨blob,rest,hlog,hhead,hstep⟩
    refine ⟨id,e,he,hi,?_⟩
    rw [statusMap_recvUpdate hhead hstep,hblob blob hlog]
    simp only [StatusMap.update,he,AList.lookup_insert]
  · obtain ⟨h',ht'⟩ := hlater hfs
    have hnone := h'.lookup_none hid
    refine ⟨by simp only [StatusMap.getStatus,hnone],?_⟩
    rintro s'' ⟨blob,rest,hlog,hhead,hstep⟩
    rw [statusMap_recvUpdate hhead hstep,(h'.committed ht' hc).2.2 blob hlog]
    simp only [StatusMap.update,hnone]

/-- An upload of one byte under an id, from its request to the report on its blob. -/
def reportedUpload (id : String) : List Event :=
  [.request (.post id (some [49])),.act 0 .acquire,.act 0 (.frame [7]),.act 0 .hashStart,
    .act 0 .hashDone,.act 0 .bodyEnd,.act 0 .enqueue,.act 0 .commit,.recvAdmission,
    .engine (.input (.handler (.response ⟨[1]⟩ 0 (.issuedStoragePermit 60)))),
    .engine (.finish 0 (some ⟨[1],[],none⟩)),.engine (.report 0),.engine .recvInternal,.sendBridge]

theorem one_key_iff_canonical_canonical :
    ∃ s, Transition.run (step (Deps.sample 1 Nat.one_pos)) init (reportedUpload blobId) = some s ∧
      Finds s 0 blobId ∧ (∃ s', Reported (Deps.sample 1 Nat.one_pos) s 0 s') ∧
      ∀ s', Reported (Deps.sample 1 Nat.one_pos) s 0 s' → Appends s 0 s' := by
  have hsome : (Transition.run (step (Deps.sample 1 Nat.one_pos)) init
      (reportedUpload blobId)).isSome := by decide
  have hrun := (Option.some_get hsome).symm
  have hiff := (one_key_iff_canonical (i := 0) hrun rfl rfl).1
  obtain ⟨hfinds,happends⟩ := hiff.mpr rfl [] _ rfl
  exact ⟨_,hrun,hfinds,⟨_,_,[],List.mem_singleton_self _,rfl,rfl⟩,happends⟩

/-- Written in upper case, the id of a committed upload is not found, and the report that
its chunks are stored is discarded. -/
theorem upper_case_not_found :
    ∃ s s', Transition.run (step (Deps.sample 1 Nat.one_pos)) init (reportedUpload upperId) =
        some s ∧ step (Deps.sample 1 Nat.one_pos) s .recvUpdate = some s' ∧
      (∃ adm reply, s.bridge.threads[0]? = some (.posted upperId (some adm) reply) ∧
        adm.committed = true) ∧ ¬Finds s 0 upperId ∧
      Reported (Deps.sample 1 Nat.one_pos) s 0 s' ∧ ¬Appends s 0 s' ∧
      s'.bridge.shared.statusMap.getStatus upperId = some ⟨.notFound,none,.empty⟩ ∧
      s'.bridge.shared.statusMap.getStatus blobId = some ⟨.ok,none,.json .pending⟩ := by
  refine ⟨_,_,rfl,rfl,⟨_,_,rfl,rfl⟩,?_,⟨_,[],List.mem_singleton_self _,rfl,rfl⟩,?_,rfl,rfl⟩
  · rintro ⟨e,he,-⟩
    cases he
  · rintro ⟨k,e,he,-,he'⟩
    have hsame := Option.some.inj (he.symm.trans he')
    have hlen := congrArg (fun e : Entry => e.history.length) hsame
    simp at hlen

end Node

end Gozara
