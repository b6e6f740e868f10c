import Gozara.Node.Histories

/-!
# One line from the handlers to the status map

The blobs that handlers have sent are, in the order in which they were sent, those reported
in the status map, those on the bridge channel, those that the coordinator holds and those
on the admission channel. So no report overtakes another, whatever is dropped at the end.
-/
namespace Gozara

def ToPipeline.blob? : ToPipeline → Option AdmittedBlob
  | .newBlob blob => some blob
  | .getBlob _ => none

def ToBridge.id : ToBridge → String
  | .updateStatus id _ => id

namespace Node
open BridgeState

/-- The blobs that handlers have enqueued, in order. -/
def sent (s : Node) : List AdmittedBlob := s.bridge.shared.enqueued.filterMap fun e => e.2.blob?

/-- The blobs on the admission channel. -/
def queued (s : Node) : List AdmittedBlob := s.admission.filterMap ToPipeline.blob?

/-- The line, with the ids of the reports that the status map has taken in. -/
structure InLine (D : Deps) (s : Node) (done : List String) : Prop where
  counted : Counted D s
  arrived : s.engine.coordinator.point ≠ .stopped →
    s.sent = s.engine.coordinator.received ++ s.queued
  order : s.engine.coordinator.received <+: s.sent
  announced : s.updating = true →
    s.engine.coordinator.announced.map LocalBlob.id = done ++ s.updates.map ToBridge.id
  applied : done <+: s.engine.coordinator.announced.map LocalBlob.id
  reported : ∀ k, s.Finalized k ↔ k ∈ done ∧ D.magicTypeId k = some k

variable {D : Deps} {s s' : Node} {e : Event} {es : List Event} {done : List String}

theorem inLine_init (D : Deps) : InLine D init [] where
  counted := counted_init D
  arrived := fun _ => rfl
  order := List.prefix_rfl
  announced := fun _ => rfl
  applied := List.prefix_rfl
  reported := by simp [Finalized,init,Bridge.init,new]

/-- Without an update the same keys are finalized. -/
lemma Linked.finalized_quiet (h : Linked D s) {be : Bridge.Event} {b : Bridge}
    (hb : Bridge.step D s.bridge be = some b) (hne : ∀ msg, be ≠ .env (.update msg)) (k : String)
    (hkeep : s.Finalized k → s'.Finalized k) (hs' : s'.bridge = b) :
    s'.Finalized k ↔ s.Finalized k := by
  refine ⟨?_,hkeep⟩
  rintro ⟨entry,he,hfin⟩
  rw [hs'] at he
  rcases Bridge.lookup_of_step h.holds hb hne he with hold | hnew
  · exact ⟨entry,hold,hfin⟩
  · simp [hnew] at hfin

/-- An update finalizes its id, when that is a key. -/
lemma InLine.finalized_update (h : InLine D s done) {l : LocalBlob} {rest : List ToBridge}
    {b : Bridge} (hl : l ∈ s.engine.coordinator.announced)
    (hb : Bridge.step D s.bridge (.env (.update (.updateStatus l.id .finalized))) = some b)
    (k : String) : Finalized { s with bridge := b,updates := rest } k ↔
      k ∈ done ++ [l.id] ∧ D.magicTypeId k = some k := by
  obtain ⟨sh,henv,rfl⟩ := Pool.step_env_eq_some.mp hb
  cases henv
  have hlinked := h.counted.linked
  simp only [Finalized,StatusMap.lookup_update,List.mem_append,List.mem_singleton]
  constructor
  · rintro ⟨entry,he,hfin⟩
    obtain ⟨e₀,he₀,rfl⟩ := Option.map_eq_some_iff.mp he
    refine ⟨?_,hlinked.holds.shared.canonical k e₀ he₀⟩
    by_cases hk : k = l.id
    · exact Or.inr hk
    · rw [if_neg hk] at hfin
      exact Or.inl ((h.reported k).mp ⟨e₀,he₀,hfin⟩).1
  · rintro ⟨hk,hcan⟩
    have hentry : ∃ e₀, s.bridge.shared.statusMap.lookup k = some e₀ ∧
        (k = l.id ∨ .finalized ∈ e₀.history) := by
      rcases hk with hk | rfl
      · obtain ⟨e₀,he₀,hfin⟩ := (h.reported k).mpr ⟨hk,hcan⟩
        exact ⟨e₀,he₀,Or.inr hfin⟩
      · -- The entry of the upload that sent the blob.
        obtain ⟨a,ha,hab⟩ := hlinked.stored.orderly.origin (List.mem_append_right _ hl)
        obtain ⟨i,hi⟩ := hlinked.origin a ha
        have hid : a.id = l.id := congrArg Manifest.id hab
        obtain ⟨-,-,-,-,-,-,hins⟩ := hlinked.inserterOf_blob hi (by rw [hid]; exact hcan)
        obtain ⟨e₀,he₀,-⟩ := inserterOf_eq_some.mp hins
        rw [hid] at he₀
        exact ⟨e₀,he₀,Or.inl rfl⟩
    obtain ⟨e₀,he₀,hfin⟩ := hentry
    refine ⟨_,by rw [he₀]; rfl,?_⟩
    split_ifs with hkl
    · simp
    · exact hfin.resolve_left hkl

/-- A blob that is taken in moves from the channel to those received. -/
lemma InLine.drive (h : InLine D s done) {ue : Uploads.Event} {u : Uploads}
    {dropped : List LocalBlob} {admission : List ToPipeline}
    (steps : Uploads.Steps s.engine ue u dropped) (hrun : s.engine.coordinator.point ≠ .stopped)
    (source : (∃ msg, ue = .input (.admission msg) ∧ s.admission = msg::admission) ∨
      (∀ msg, ue ≠ .input (.admission msg)) ∧ admission = s.admission) :
    s.sent = u.coordinator.received ++ admission.filterMap ToPipeline.blob? := by
  rw [h.arrived hrun,steps.received_eq,queued]
  rcases source with ⟨msg,rfl,heq⟩ | ⟨hne,rfl⟩
  · rw [heq]
    cases msg <;>
      simp [Uploads.newBlob?,Coordinator.newBlob?,ToPipeline.blob?,List.filterMap_cons]
  · have hnone : Uploads.newBlob? ue = none := by
      rw [Option.eq_none_iff_forall_ne_some]
      exact fun a ha => hne _ (newBlob?_eq_some ha)
    simp [hnone]

theorem InLine.step (h : InLine D s done) (hstep : Node.step D s e = some s') :
    ∃ done', InLine D s' done' := by
  have hcounted := h.counted.step hstep
  have hlinked := h.counted.linked
  have hkeep : ∀ k, s.Finalized k → s'.Finalized k := fun k => hlinked.finalized_step hstep
  have hdoes := does_of_step hstep
  cases hdoes with
  | @bridge e be b hb event unsent =>
    have hlog := Bridge.enqueued_quiet hlinked.holds hb unsent
    refine ⟨done,hcounted,?_,?_,h.announced,h.applied,fun k => ?_⟩
    · simp only [sent,hlog]
      exact h.arrived
    · simp only [sent,hlog]
      exact h.order
    · rw [hlinked.finalized_quiet hb (ne_update event) k (hkeep k) rfl]
      exact h.reported k
  | @enqueue i t msg b running room handler outbox hb =>
    have hlog := Bridge.enqueued_send hlinked.holds handler outbox hb
    refine ⟨done,hcounted,fun hrun => ?_,?_,h.announced,h.applied,fun k => ?_⟩
    · have harrived := h.arrived running
      simp only [sent,queued] at harrived ⊢
      rw [hlog,List.filterMap_append,List.filterMap_append,harrived,List.append_assoc]
      rfl
    · simp only [sent,hlog,List.filterMap_append]
      exact h.order.trans (List.prefix_append _ _)
    · rw [hlinked.finalized_quiet hb (by simp) k (hkeep k) rfl]
      exact h.reported k
  | @update msg rest b updating head hb =>
    obtain ⟨l,hl,rfl⟩ := hlinked.updates msg (by rw [head]; exact List.mem_cons_self)
    have hlog := Bridge.enqueued_quiet hlinked.holds hb (by simp)
    have hann : s.engine.coordinator.announced.map LocalBlob.id =
        done ++ [l.id] ++ rest.map ToBridge.id := by
      rw [h.announced updating,head]
      simp [ToBridge.id]
    refine ⟨done ++ [l.id],hcounted,?_,?_,fun _ => hann,?_,h.finalized_update hl hb⟩
    · simp only [sent,hlog]
      exact h.arrived
    · simp only [sent,hlog]
      exact h.order
    · rw [hann]
      exact List.prefix_append _ _
  | stopUpdates =>
    exact ⟨done,hcounted,h.arrived,h.order,fun hup => absurd hup (by simp),h.applied,h.reported⟩
  | @drive e ue u dropped admission updates event steps source target =>
    refine ⟨done,hcounted,fun hrun => ?_,?_,fun hup => ?_,?_,h.reported⟩
    · simp only [queued,if_neg hrun]
      exact h.drive steps (steps.running hrun) source
    · by_cases hstop : s.engine.coordinator.point = .stopped
      · -- A loop that has ended receives nothing.
        have hadm : ∀ msg, ue ≠ .input (.admission msg) := by
          rcases source with ⟨msg,-,heq⟩ | ⟨hne,-⟩
          · rw [hlinked.closed hstop] at heq
            cases heq
          · exact hne
        have hnone : Uploads.newBlob? ue = none := by
          rw [Option.eq_none_iff_forall_ne_some]
          exact fun a ha => hadm _ (newBlob?_eq_some ha)
        change u.coordinator.received <+: s.sent
        rw [steps.received_eq,hnone]
        simpa using h.order
      · change u.coordinator.received <+: s.sent
        rw [h.drive steps hstop source]
        exact List.prefix_append _ _
    · have hold := h.announced hup
      change u.coordinator.announced.map LocalBlob.id = done ++ updates.map ToBridge.id
      rcases hlinked.announced_drive steps target with ⟨b,hann,rfl⟩ | ⟨hann,rfl⟩
      · rw [hann,if_pos hup,List.map_append,List.map_append,hold,List.append_assoc]
        rfl
      · rw [hann]
        exact hold
    · change done <+: u.coordinator.announced.map LocalBlob.id
      rcases hlinked.announced_drive steps target with ⟨b,hann,-⟩ | ⟨hann,-⟩
      · rw [hann,List.map_append]
        exact h.applied.trans (List.prefix_append _ _)
      · rw [hann]
        exact h.applied

theorem inLine_run (hrun : Transition.run (Node.step D) init es = some s) :
    ∃ done, InLine D s done :=
  Transition.run_preserves (P := fun s => ∃ done, InLine D s done)
    (fun _ _ _ hstep hs => by
      obtain ⟨done,h⟩ := hs
      exact h.step hstep) hrun ⟨[],inLine_init D⟩

/-- The blobs announced come first among those received. -/
lemma announced_received (h : Linked D s) :
    s.engine.coordinator.announced.map LocalBlob.id <+:
      s.engine.coordinator.received.map AdmittedBlob.id := by
  have horder := h.stored.orderly.order.map Manifest.id
  simpa [Coordinator.queue,Function.comp_def,LocalBlob.manifest,AdmittedBlob.manifest] using horder

/-- While the loop runs, the blobs received are those announced and those held. -/
lemma received_eq (h : Linked D s) (hrun : s.engine.coordinator.point ≠ .stopped) :
    s.engine.coordinator.received.map AdmittedBlob.id =
      s.engine.coordinator.announced.map LocalBlob.id ++
        s.engine.coordinator.held.map LocalBlob.id := by
  have hcust := congrArg (List.map Manifest.id) (h.stored.orderly.customers hrun)
  cases hcur : s.engine.coordinator.pipeline.currentBlob <;>
    simpa [ServiceQueue.customers,Coordinator.queue,Coordinator.held,hcur,Function.comp_def,
      LocalBlob.manifest,AdmittedBlob.manifest] using hcust.symm

/-- The reports that the status map has taken in are for the first blobs sent. -/
lemma InLine.prefix_sent (h : InLine D s done) : done <+: s.sent.map AdmittedBlob.id :=
  (h.applied.trans (announced_received h.counted.linked)).trans (h.order.map _)

/-- While both loops run, every blob that was sent is at one place of the line. -/
lemma InLine.sent_eq (h : InLine D s done) (hup : s.updating = true)
    (hrun : s.engine.coordinator.point ≠ .stopped) : s.sent.map AdmittedBlob.id =
      done ++ s.updates.map ToBridge.id ++ s.engine.coordinator.held.map LocalBlob.id ++
        s.queued.map AdmittedBlob.id := by
  rw [h.arrived hrun,List.map_append,received_eq h.counted.linked hrun,h.announced hup]

/-- A key is the id of at most one blob sent. -/
lemma InLine.count_sent (h : InLine D s done) {k : String} (hk : D.magicTypeId k = some k) :
    (s.sent.map AdmittedBlob.id).count k ≤ 1 := by
  have hids : s.sent.map AdmittedBlob.id = s.blobsSent := by
    rw [sent,blobsSent,List.map_filterMap]
    refine List.filterMap_congr fun e _ => ?_
    obtain ⟨i,msg⟩ := e
    cases msg <;> rfl
  rw [hids]
  exact h.counted.linked.count_blobsSent h.counted.once hk

/-- Blobs are reported in the order in which they were sent. While both loops run, the blobs
sent are those reported, those on the channel back, those held by the coordinator and those
on the channel to it, one after another; and in every state, when a blob is reported stored,
so are all that were sent before it under ids as the library renders them. -/
theorem reports_in_order (hrun : Transition.run (step D) init es = some s) :
    (∃ done, (∀ k, s.Finalized k ↔ k ∈ done ∧ D.magicTypeId k = some k) ∧
      done <+: s.sent.map AdmittedBlob.id ∧
      (s.updating = true → s.engine.coordinator.point ≠ .stopped →
        s.sent.map AdmittedBlob.id = done ++ s.updates.map ToBridge.id ++
          s.engine.coordinator.held.map LocalBlob.id ++ s.queued.map AdmittedBlob.id)) ∧
    ∀ xs a ys b zs, s.sent = xs ++ a::ys ++ b::zs → D.magicTypeId a.id = some a.id →
      s.Finalized b.id → s.Finalized a.id := by
  obtain ⟨done,h⟩ := inLine_run hrun
  refine ⟨⟨done,h.reported,h.prefix_sent,h.sent_eq⟩,?_⟩
  intro xs a ys b zs hsent ha hb
  obtain ⟨hmem,hcan⟩ := (h.reported b.id).mp hb
  rw [h.reported]
  refine ⟨?_,ha⟩
  -- The id of `b` occurs once, so that `done` reaches past `a`.
  by_contra hnot
  have hpre := h.prefix_sent
  have hids : s.sent.map AdmittedBlob.id =
      xs.map AdmittedBlob.id ++ a.id::(ys.map AdmittedBlob.id ++ b.id::zs.map AdmittedBlob.id) := by
    rw [hsent]
    simp
  have hcount := h.count_sent hcan
  rw [hids] at hpre hcount
  have hshort : done <+: xs.map AdmittedBlob.id := by
    rcases List.prefix_or_prefix_of_prefix hpre (List.prefix_append _ _) with hle | ⟨rest,rfl⟩
    · exact hle
    · have hrest := (List.prefix_append_right_inj _).mp hpre
      cases rest with
      | nil => simp
      | cons c rest =>
        obtain ⟨rfl,-⟩ := List.cons_prefix_cons.mp hrest
        simp at hnot
  have hbx : b.id ∈ xs.map AdmittedBlob.id := hshort.subset hmem
  have htwo : 2 ≤ (xs.map AdmittedBlob.id ++
      a.id::(ys.map AdmittedBlob.id ++ b.id::zs.map AdmittedBlob.id)).count b.id := by
    have hone := List.one_le_count_iff.mpr hbx
    have hone' : 1 ≤ (a.id::(ys.map AdmittedBlob.id ++ b.id::zs.map AdmittedBlob.id)).count b.id :=
      List.one_le_count_iff.mpr (by simp)
    rw [List.count_append]
    omega
  omega

/-- The upload of a body of one byte by request `i`. -/
def uploadByte (i : ℕ) (id : String) (byte : UInt8) : List Event :=
  [.request (.post id (some [49])),.act i .acquire,.act i (.frame [byte]),.act i .hashStart,
    .act i .hashDone,.act i .bodyEnd,.act i .enqueue,.act i .commit,.recvAdmission]

/-- The push of the first task ends well, and is reported. -/
def storeByte : List Event :=
  [.engine (.finish 0 (some ⟨[1],[],none⟩)),.engine (.report 0),.engine .recvInternal,.sendBridge,
    .recvUpdate]

/-- Two uploads that are stored one after the other. -/
def twoStored : List Event :=
  uploadByte 0 blobId 7 ++ uploadByte 1 fileId 8 ++
    [.engine (.input (.handler (.response ⟨[1]⟩ 0 (.issuedStoragePermit 60))))] ++
      storeByte ++ storeByte

theorem reports_in_order_stored :
    ∃ s, Transition.run (step (Deps.sample 1 Nat.one_pos)) init twoStored = some s ∧
      s.Finalized fileId ∧ s.Finalized blobId := by
  have hlast : (Transition.run (step (Deps.sample 1 Nat.one_pos)) init twoStored).map (fun s =>
      (s.sent.map AdmittedBlob.id,s.bridge.shared.statusMap.lookup fileId)) =
      some ([blobId,fileId],some ⟨1,[.pending,.finalized]⟩) := by decide
  obtain ⟨s,hrun,hparts⟩ := Option.map_eq_some_iff.mp hlast
  simp only [Prod.mk.injEq] at hparts
  obtain ⟨hids,hentry⟩ := hparts
  have hfin : s.Finalized fileId := ⟨_,hentry,by simp⟩
  refine ⟨s,hrun,hfin,?_⟩
  obtain ⟨a,l,hsent,ha,hl⟩ := List.map_eq_cons_iff.mp hids
  obtain ⟨b,l,rfl,hb,hl⟩ := List.map_eq_cons_iff.mp hl
  obtain rfl := List.map_eq_nil_iff.mp hl
  have horder := (reports_in_order hrun).2 [] a [] b [] hsent
  rw [ha,hb] at horder
  exact horder rfl hfin

end Node

end Gozara
