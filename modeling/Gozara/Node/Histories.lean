import Gozara.Node.Delivery

/-!
# Status histories

A request enqueues at most one message, so that a key has at most one announced blob, and
its entry takes at most one `Finalized` in. An entry that was finalized belongs to an upload
that has sent its message: nothing removes it, and every update only appends.
-/
namespace Gozara

/-- The id of the blob that a message brings. -/
def ToPipeline.blobId? : ToPipeline → Option String
  | .newBlob blob => some blob.id
  | .getBlob _ => none

namespace Bridge
open BridgeState
variable {D : Deps} {s s' : Bridge} {e : Event} {i : ℕ} {msg : ToPipeline}

/-- Each request has enqueued at most one message. -/
def Once (s : Bridge) : Prop := (s.shared.enqueued.map Prod.fst).Nodup

/-- A handler in its send has enqueued nothing. -/
lemma not_mem_of_outbox (h : Pool.Holds (Sane D) (Guarded D) s) {t : Handler}
    (ht : s.threads[i]? = some t) (hout : t.outbox = some msg) :
    i ∉ s.shared.enqueued.map Prod.fst := by
  intro hi
  obtain ⟨⟨j,m⟩,hlog,rfl⟩ := List.mem_map.mp hi
  have hL := h.thread j t ht
  cases m with
  | newBlob a =>
    have hsent := (hL.newBlob a hlog).1
    cases t <;> simp_all [Handler.outbox,Handler.Sent]
  | getBlob id =>
    rw [(hL.getBlob id).mp hlog] at hout
    cases hout

theorem once_step (h : Pool.Holds (Sane D) (Guarded D) s) (honce : Once s)
    (hstep : step D s e = some s') : Once s' := by
  by_cases hsend : ∃ i, e = .act i .enqueue
  · obtain ⟨i,rfl⟩ := hsend
    obtain ⟨t,sh,t',ht,hact,-⟩ := Pool.step_act_eq_some.mp hstep
    obtain ⟨msg,hout⟩ := act_enqueue_iff.mp ⟨_,hact⟩
    rw [Once,enqueued_send h ht hout hstep,List.map_append,List.map_singleton,
      ← List.concat_eq_append]
    exact (List.nodup_concat _ _).mpr ⟨not_mem_of_outbox h ht hout,honce⟩
  · rw [Once,enqueued_quiet h hstep (not_exists.mp hsend)]
    exact honce

/-- How often the history of a key contains `Finalized`. -/
def finals (s : Bridge) (k : String) : ℕ :=
  ((s.shared.statusMap.lookup k).map fun e => e.history.count .finalized).getD 0

end Bridge

/-- An update appends to the entry of its id and leaves the others. -/
theorem StatusMap.lookup_update (m : StatusMap) (id k : String) (status : Status) :
    (m.update (.updateStatus id status)).lookup k = (m.lookup k).map fun e =>
      if k = id then { e with history := e.history ++ [status] } else e := by
  simp only [StatusMap.update]
  by_cases hk : k = id
  · subst hk
    cases hm : m.lookup k <;> simp [hm]
  · cases hm : m.lookup id <;> simp [hk]

namespace Node
open BridgeState
variable {D : Deps} {s s' : Node} {e : Event} {es : List Event} {i : ℕ} {k : String}

/-- The history of a key contains `Finalized`. -/
def Finalized (s : Node) (k : String) : Prop :=
  ∃ e, s.bridge.shared.statusMap.lookup k = some e ∧ .finalized ∈ e.history

/-- The requests that enqueued a blob, in order, by the blob's id. -/
def blobsSent (s : Node) : List String :=
  s.bridge.shared.enqueued.filterMap fun e => e.2.blobId?

/-- The upload that sent a blob under the id of a key owns the entry of the key. -/
lemma Linked.inserterOf_blob (h : Linked D s) {a : AdmittedBlob}
    (ha : (i,.newBlob a) ∈ s.bridge.shared.enqueued) (hk : D.magicTypeId a.id = some a.id) :
    ∃ t adm, s.bridge.threads[i]? = some t ∧ t.Sent ∧ t.post = some (a.id,adm) ∧ adm.id = a.id ∧
      s.bridge.shared.inserterOf a.id = some i := by
  obtain ⟨t,adm,-,ht,hsent,hpost,hcan,-⟩ := h.newBlob ha
  have hid : adm.id = a.id := Option.some.inj (hcan.symm.trans hk)
  refine ⟨t,adm,ht,hsent,hpost,hid,?_⟩
  rw [← hid]
  exact (h.holds.thread i t ht).owns adm.id (Handler.guard_of_sent hsent hpost)

/-- Only one request has enqueued a blob under a key. -/
theorem Linked.count_blobsSent (h : Linked D s) (honce : Bridge.Once s.bridge)
    (hk : D.magicTypeId k = some k) : s.blobsSent.count k ≤ 1 := by
  have howner : ∀ e ∈ s.bridge.shared.enqueued, e.2.blobId? = some k →
      s.bridge.shared.inserterOf k = some e.1 := by
    rintro ⟨j,msg⟩ hlog hid
    cases msg with
    | newBlob a =>
      obtain rfl := Option.some.inj hid
      obtain ⟨-,-,-,-,-,-,hins⟩ := h.inserterOf_blob hlog hk
      exact hins
    | getBlob id => cases hid
  calc s.blobsSent.count k
      = s.bridge.shared.enqueued.countP fun e => e.2.blobId? == some k := by
        rw [blobsSent,List.count_filterMap]
    _ ≤ (s.bridge.shared.enqueued.map Prod.fst).count ((s.bridge.shared.inserterOf k).getD 0) := by
        rw [List.count,List.countP_map]
        refine List.countP_mono_left fun e he hid => ?_
        rw [howner e he (by simpa using hid)]
        simp
    _ ≤ 1 := List.nodup_iff_count_le_one.mp honce _

/-- The counts that bound the updates of a key, and the histories that they leave. -/
structure Counted (D : Deps) (s : Node) : Prop where
  linked : Linked D s
  once : Bridge.Once s.bridge
  arrivals : (s.engine.coordinator.received.map AdmittedBlob.id ++
    s.admission.filterMap ToPipeline.blobId?).Sublist s.blobsSent
  tally : ∀ k, s.bridge.finals k + s.updates.count (.updateStatus k .finalized) ≤
    (s.engine.coordinator.announced.map LocalBlob.id).count k
  shape : ∀ k e, s.bridge.shared.statusMap.lookup k = some e →
    ∃ n, e.history = .pending::List.replicate n .finalized

theorem counted_init (D : Deps) : Counted D init where
  linked := linked_init D
  once := List.nodup_nil
  arrivals := List.Sublist.slnil
  tally := by simp [init,Bridge.finals,Bridge.init,new]
  shape := by simp [init,Bridge.init,new]

/-- A key has at most one announced blob. -/
theorem Counted.count_announced (h : Counted D s) (hk : D.magicTypeId k = some k) :
    (s.engine.coordinator.announced.map LocalBlob.id).count k ≤ 1 := by
  have horder := (h.linked.stored.orderly.order.map Manifest.id).sublist
  have hids : (s.engine.coordinator.announced.map LocalBlob.id).Sublist
      (s.engine.coordinator.received.map AdmittedBlob.id) := by
    simpa [Coordinator.queue,Function.comp_def,LocalBlob.manifest,AdmittedBlob.manifest] using horder
  calc (s.engine.coordinator.announced.map LocalBlob.id).count k
      ≤ (s.engine.coordinator.received.map AdmittedBlob.id).count k := hids.count_le k
    _ ≤ s.blobsSent.count k :=
        ((List.sublist_append_left _ _).trans h.arrivals).count_le k
    _ ≤ 1 := h.linked.count_blobsSent h.once hk

/-- An entry is pending, or pending and then finalized. -/
theorem Counted.history (h : Counted D s) {e : Entry}
    (he : s.bridge.shared.statusMap.lookup k = some e) :
    e.history = [.pending] ∨ e.history = [.pending,.finalized] := by
  obtain ⟨n,hn⟩ := h.shape k e he
  have hcount : s.bridge.finals k = n := by
    simp [Bridge.finals,he,hn]
  have htally := h.tally k
  have hone := h.count_announced (h.linked.holds.shared.canonical k e he)
  have hle : n ≤ 1 := by omega
  rw [hn]
  rcases Nat.le_one_iff_eq_zero_or_eq_one.mp hle with rfl | rfl
  · exact Or.inl rfl
  · exact Or.inr rfl

/-- Without an update an entry is kept, removed or made anew. -/
lemma Counted.quiet (h : Counted D s) {be : Bridge.Event} {b : Bridge}
    (hb : Bridge.step D s.bridge be = some b) (hne : ∀ msg, be ≠ .env (.update msg)) (k : String) :
    b.finals k ≤ s.bridge.finals k ∧
      ∀ e, b.shared.statusMap.lookup k = some e →
        ∃ n, e.history = .pending::List.replicate n .finalized := by
  constructor
  · simp only [Bridge.finals]
    cases hk : b.shared.statusMap.lookup k with
    | none => exact Nat.zero_le _
    | some e =>
      rcases Bridge.lookup_of_step h.linked.holds hb hne hk with hold | hnew
      · rw [hold]
      · simp [hnew]
  · intro e hk
    rcases Bridge.lookup_of_step h.linked.holds hb hne hk with hold | hnew
    · exact h.shape k e hold
    · exact ⟨0,hnew⟩

/-- An update moves one `Finalized` from the channel to the history. -/
lemma Counted.update (h : Counted D s) {l : LocalBlob} {rest : List ToBridge} {b : Bridge}
    (head : s.updates = .updateStatus l.id .finalized::rest)
    (hb : Bridge.step D s.bridge (.env (.update (.updateStatus l.id .finalized))) = some b)
    (k : String) :
    b.finals k + rest.count (.updateStatus k .finalized) ≤
        s.bridge.finals k + s.updates.count (.updateStatus k .finalized) ∧
      ∀ e, b.shared.statusMap.lookup k = some e →
        ∃ n, e.history = .pending::List.replicate n .finalized := by
  obtain ⟨sh,henv,rfl⟩ := Pool.step_env_eq_some.mp hb
  cases henv
  simp only [Bridge.finals,StatusMap.lookup_update,head]
  cases hk : s.bridge.shared.statusMap.lookup k with
  | none => simp [List.count_cons]
  | some e =>
    obtain ⟨n,hn⟩ := h.shape k e hk
    by_cases hkl : k = l.id
    · subst hkl
      refine ⟨?_,fun e' he' => ⟨n+1,?_⟩⟩
      · simp [List.count_append]
        omega
      · simp only [Option.map_some,if_true,Option.some.injEq] at he'
        rw [← he',hn,List.replicate_succ']
        rfl
    · refine ⟨?_,fun e' he' => ⟨n,?_⟩⟩
      · have hne : (ToBridge.updateStatus l.id .finalized) ≠ .updateStatus k .finalized := by
          simp [Ne.symm hkl]
        simp [hkl,List.count_cons_of_ne hne]
      · simp only [Option.map_some,if_neg hkl,Option.some.injEq] at he'
        rw [← he',hn]

theorem Counted.step (h : Counted D s) (hstep : Node.step D s e = some s') : Counted D s' := by
  have hlinked := h.linked.step hstep
  have hdoes := does_of_step hstep
  cases hdoes with
  | @bridge e be b hb event unsent =>
    have hne := ne_update event
    have hlog := Bridge.enqueued_quiet h.linked.holds hb unsent
    refine ⟨hlinked,Bridge.once_step h.linked.holds h.once hb,?_,fun k => ?_,
      fun k => (h.quiet hb hne k).2⟩
    · simp only [blobsSent,hlog]
      exact h.arrivals
    · exact (Nat.add_le_add_right (h.quiet hb hne k).1 _).trans (h.tally k)
  | @enqueue i t msg b running room handler outbox hb =>
    have hlog := Bridge.enqueued_send h.linked.holds handler outbox hb
    refine ⟨hlinked,Bridge.once_step h.linked.holds h.once hb,?_,fun k => ?_,
      fun k => (h.quiet hb (by simp) k).2⟩
    · simp only [blobsSent,hlog,List.filterMap_append,← List.append_assoc]
      exact h.arrivals.append (List.Sublist.refl _)
    · exact (Nat.add_le_add_right (h.quiet hb (by simp) k).1 _).trans (h.tally k)
  | @update msg rest b updating head hb =>
    obtain ⟨l,-,rfl⟩ := h.linked.updates msg (by rw [head]; exact List.mem_cons_self)
    have hlog := Bridge.enqueued_quiet h.linked.holds hb (by simp)
    refine ⟨hlinked,Bridge.once_step h.linked.holds h.once hb,?_,
      fun k => (h.update head hb k).1.trans (h.tally k),fun k => (h.update head hb k).2⟩
    simp only [blobsSent,hlog]
    exact h.arrivals
  | stopUpdates =>
    refine ⟨hlinked,h.once,h.arrivals,fun k => ?_,h.shape⟩
    exact (Nat.le_add_right (s.bridge.finals k) _).trans (h.tally k)
  | @drive e ue u dropped admission updates event steps source target =>
    refine ⟨hlinked,h.once,?_,fun k => ?_,h.shape⟩
    · -- A message that is taken in moves from the channel to the blobs received.
      have hmoved : (u.coordinator.received.map AdmittedBlob.id ++
          admission.filterMap ToPipeline.blobId?).Sublist s.blobsSent := by
        rw [steps.received_eq,List.map_append,List.append_assoc]
        rcases source with ⟨msg,rfl,heq⟩ | ⟨hne,rfl⟩
        · have harrivals := h.arrivals
          rw [heq] at harrivals
          cases msg <;> exact harrivals
        · have hnone : Uploads.newBlob? ue = none := by
            rw [Option.eq_none_iff_forall_ne_some]
            exact fun a ha => hne _ (newBlob?_eq_some ha)
          rw [hnone]
          exact h.arrivals
      refine List.Sublist.trans ?_ hmoved
      refine List.Sublist.append (List.Sublist.refl _) (List.Sublist.filterMap _ ?_)
      split_ifs
      · exact List.nil_sublist _
      · exact List.Sublist.refl _
    · have htally := h.tally k
      change s.bridge.finals k + updates.count _ ≤ (u.coordinator.announced.map LocalBlob.id).count k
      rcases h.linked.announced_drive steps target with ⟨b,hann,rfl⟩ | ⟨hann,rfl⟩
      · rw [hann,List.map_append,List.count_append,List.map_singleton]
        have hone : [ToBridge.updateStatus b.id .finalized].count (.updateStatus k .finalized) =
            [b.id].count k := by
          simp [List.count_cons]
        split_ifs
        · rw [List.count_append,hone]
          omega
        · omega
      · rw [hann]
        exact htally

theorem counted_run (hrun : Transition.run (step D) init es = some s) : Counted D s :=
  Transition.run_preserves (fun _ _ _ hstep h => Counted.step h hstep) hrun (counted_init D)

/-- A key that was finalized stays so. -/
theorem Linked.finalized_step (h : Linked D s) (hstep : Node.step D s e = some s')
    (hfin : s.Finalized k) : s'.Finalized k := by
  obtain ⟨entry,he,hmem⟩ := hfin
  have hkept : ∀ {be b}, Bridge.step D s.bridge be = some b → (∀ msg, be ≠ .env (.update msg)) →
      b.shared.statusMap.lookup k = some entry := by
    intro be b hb hne
    -- The entry is that of an upload that has sent its message.
    obtain ⟨l,hl,rfl⟩ := h.histories k entry he hmem
    obtain ⟨a,ha,hab⟩ := h.stored.orderly.origin (List.mem_append_right _ hl)
    obtain ⟨i,hi⟩ := h.origin a ha
    have hid : a.id = l.id := congrArg Manifest.id hab
    have hcan := h.holds.shared.canonical _ _ he
    rw [← hid] at hcan he ⊢
    obtain ⟨t,adm,ht,hsent,hpost,hadm,-⟩ := h.inserterOf_blob hi hcan
    have hlookup := Bridge.lookup_sent h.holds hb hne ht hsent hpost
    rw [hadm] at hlookup
    rw [hlookup,he]
  have hdoes := does_of_step hstep
  cases hdoes with
  | @bridge e be b hb event unsent =>
    exact ⟨entry,hkept hb (ne_update event),hmem⟩
  | enqueue _ _ _ _ hb => exact ⟨entry,hkept hb (by simp),hmem⟩
  | @update msg rest b updating head hb =>
    obtain ⟨sh,henv,rfl⟩ := Pool.step_env_eq_some.mp hb
    cases henv
    obtain ⟨id,status⟩ := msg
    refine ⟨if k = id then { entry with history := entry.history ++ [status] } else entry,?_,?_⟩
    · rw [StatusMap.lookup_update,he]
      rfl
    · split_ifs
      · exact List.mem_append_left _ hmem
      · exact hmem
  | stopUpdates => exact ⟨entry,he,hmem⟩
  | drive => exact ⟨entry,he,hmem⟩

/-- The two requests that read a status. -/
inductive Read
  | status
  | blob
  deriving DecidableEq

/-- A request with this path that is handled now answers that the blob is finalized. -/
def Observes (D : Deps) (s : Node) (id : String) : Read → Prop
  | .status => s.bridge.shared.statusMap.getStatus id = some ⟨.ok,none,.json .finalized⟩
  | .blob => ∃ k, (getBlob D s.bridge.threads.length s.bridge.shared.statusMap id).2 =
      .got k (some ⟨.ok,none,.text k⟩)

/-- The last status of every entry is pending or finalized. -/
lemma Counted.last (h : Counted D s) {e : Entry}
    (he : s.bridge.shared.statusMap.lookup k = some e) :
    e.history.getLast? = some .pending ∧ .finalized ∉ e.history ∨
      e.history.getLast? = some .finalized ∧ .finalized ∈ e.history := by
  rcases h.history he with hh | hh
  · exact Or.inl (by simp [hh])
  · exact Or.inr (by simp [hh])

theorem Counted.observes_status (h : Counted D s) (id : String) :
    Observes D s id .status ↔ s.Finalized id := by
  simp only [Observes,StatusMap.getStatus,Finalized]
  cases he : s.bridge.shared.statusMap.lookup id with
  | none => simp
  | some e =>
    rcases h.last he with ⟨hlast,hfin⟩ | ⟨hlast,hfin⟩
    · simp [hlast,hfin]
    · simp [hlast,hfin]

theorem Counted.observes_blob (h : Counted D s) (id : String) :
    Observes D s id .blob ↔ ∃ k, D.magicTypeId id = some k ∧ s.Finalized k := by
  simp only [Observes,getBlob,Finalized]
  cases hid : D.magicTypeId id with
  | none => simp [Response.reject]
  | some k =>
    cases he : s.bridge.shared.statusMap.lookup k with
    | none => simp [he]
    | some e =>
      rcases h.last he with ⟨hlast,hfin⟩ | ⟨hlast,hfin⟩
      · simp [he,hlast,hfin]
      · simp [he,hlast,hfin]

/-- No read panics. -/
lemma Counted.reads (h : Counted D s) (id : String) :
    s.bridge.shared.statusMap.getStatus id ≠ none ∧
      ∀ k, (getBlob D s.bridge.threads.length s.bridge.shared.statusMap id).2 ≠ .got k none := by
  constructor
  · simp only [StatusMap.getStatus]
    cases he : s.bridge.shared.statusMap.lookup id with
    | none => simp
    | some e => rcases h.last he with ⟨hlast,-⟩ | ⟨hlast,-⟩ <;> simp [hlast]
  · intro k
    simp only [getBlob]
    cases hid : D.magicTypeId id with
    | none => simp
    | some k' =>
      cases he : s.bridge.shared.statusMap.lookup k' with
      | none => simp [he]
      | some e => rcases h.last he with ⟨hlast,-⟩ | ⟨hlast,-⟩ <;> simp [he,hlast]

/-- In every reachable state each history is `Pending`, or `Pending` and then `Finalized`, and
no read panics. Once a read has observed that a blob is finalized, every later download
request observes it too, and a later status request does exactly when the id is spelled as
the library renders it. -/
theorem status_histories (hrun : Transition.run (step D) init es = some s) :
    (∀ k e, s.bridge.shared.statusMap.lookup k = some e →
      e.history = [.pending] ∨ e.history = [.pending,.finalized]) ∧
    (∀ id, s.bridge.shared.statusMap.getStatus id ≠ none ∧
      ∀ k, (getBlob D s.bridge.threads.length s.bridge.shared.statusMap id).2 ≠ .got k none) ∧
    ∀ id r, Observes D s id r → ∀ fs s', Transition.run (step D) s fs = some s' →
      ∀ r', Observes D s' id r' ↔ r' = .blob ∨ D.magicTypeId id = some id := by
  have h := counted_run hrun
  refine ⟨fun k e he => h.history he,h.reads,fun id r hobs fs s' hfs => ?_⟩
  have h' : Counted D s' := Transition.run_preserves (fun _ _ _ hs h => Counted.step h hs) hfs h
  -- Both reads found the entry of the rendered id.
  obtain ⟨k,hid,hfin⟩ : ∃ k, D.magicTypeId id = some k ∧ s.Finalized k := by
    cases r with
    | status =>
      have hfin := (h.observes_status id).mp hobs
      have hcan : D.magicTypeId id = some id := by
        obtain ⟨e,he,-⟩ := hfin
        exact h.linked.holds.shared.canonical id e he
      exact ⟨id,hcan,hfin⟩
    | blob => exact (h.observes_blob id).mp hobs
  have hfin' : s'.Finalized k := by
    refine (Transition.run_preserves (P := fun s => Linked D s ∧ s.Finalized k) ?_ hfs
      ⟨h.linked,hfin⟩).2
    rintro u e v huv ⟨hu,hk⟩
    exact ⟨hu.step huv,hu.finalized_step huv hk⟩
  intro r'
  cases r' with
  | status =>
    rw [h'.observes_status]
    constructor
    · rintro ⟨e,he,-⟩
      exact Or.inr (h'.linked.holds.shared.canonical id e he)
    · rintro (hr | hcan)
      · cases hr
      · rw [hid] at hcan
        cases hcan
        exact hfin'
  | blob => exact iff_of_true ((h'.observes_blob id).mpr ⟨k,hid,hfin'⟩) (Or.inl rfl)

/-- An upload of one byte that is reported, and a download request in another spelling. -/
def observed : List Event :=
  [.request (.post blobId (some [49])),.act 0 .acquire,.act 0 (.frame [7]),.act 0 .hashStart,
    .act 0 .hashDone,.act 0 .bodyEnd,.act 0 .enqueue,.recvAdmission,
    .engine (.input (.handler (.response ⟨[1]⟩ 0 (.issuedStoragePermit 60)))),
    .engine (.finish 0 (some ⟨[1],[],none⟩)),.engine (.report 0),.engine .recvInternal,.sendBridge,
    .recvUpdate,.act 0 .commit,.request (.get upperId)]

/-- The report arrives before the upload commits, and both reads observe it. -/
theorem status_histories_observed :
    ∃ s, Transition.run (step (Deps.sample 1 Nat.one_pos)) init observed = some s ∧
      Observes (Deps.sample 1 Nat.one_pos) s blobId .blob ∧
      Observes (Deps.sample 1 Nat.one_pos) s blobId .status := by
  have hsome : (Transition.run (step (Deps.sample 1 Nat.one_pos)) init observed).isSome := by decide
  have hrun := (Option.some_get hsome).symm
  obtain ⟨-,-,hlater⟩ := status_histories hrun
  have hiff := hlater blobId .blob ⟨blobId,rfl⟩ [] _ rfl
  exact ⟨_,hrun,(hiff .blob).mpr (Or.inl rfl),(hiff .status).mpr (Or.inr rfl)⟩

/-- The download request was told that the blob is finalized; a status request with the same
path is told that there is none. -/
theorem upper_case_observed :
    ∃ s, Transition.run (step (Deps.sample 1 Nat.one_pos)) init observed = some s ∧
      s.bridge.threads[1]? = some (.got blobId (some ⟨.ok,none,.text blobId⟩)) ∧
      Observes (Deps.sample 1 Nat.one_pos) s upperId .blob ∧
      ¬Observes (Deps.sample 1 Nat.one_pos) s upperId .status ∧
      s.bridge.shared.statusMap.getStatus upperId = some ⟨.notFound,none,.empty⟩ := by
  have hlast : (Transition.run (step (Deps.sample 1 Nat.one_pos)) init observed).map (fun s =>
      (s.bridge.threads[1]?,(getBlob (Deps.sample 1 Nat.one_pos) s.bridge.threads.length
        s.bridge.shared.statusMap upperId).2,s.bridge.shared.statusMap.getStatus upperId)) =
      some (some (.got blobId (some ⟨.ok,none,.text blobId⟩)),
        .got blobId (some ⟨.ok,none,.text blobId⟩),some ⟨.notFound,none,.empty⟩) := by decide
  obtain ⟨s,hrun,hparts⟩ := Option.map_eq_some_iff.mp hlast
  simp only [Prod.mk.injEq] at hparts
  obtain ⟨hthread,hblob,hstatus⟩ := hparts
  refine ⟨s,hrun,hthread,⟨blobId,hblob⟩,?_,hstatus⟩
  rw [Observes,hstatus]
  simp

end Node

end Gozara
