import Gozara.Coordinator.Draining
import Gozara.Node.Budget
import Gozara.Node.Order

/-!
# No state of the client is a dead end

The events of the coordinator are followed by the client: where an announcement ends, the
message loop of the bridge takes the report at once. So whatever state the client is in,
with its two loops running, it can still store and report every blob that was sent.
-/
namespace Gozara.Node
open Coordinator

/-- The events that the two loops and the upload tasks take by themselves. -/
def Event.Own : Event → Prop
  | .recvAdmission | .sendBridge | .recvUpdate => True
  | .engine e => e.Own
  | _ => False

/-- The events that need no request and no handler; a peer acknowledges and issues permits. -/
def Event.Helped (peer : PeerId) : Event → Prop
  | .recvAdmission | .sendBridge | .recvUpdate => True
  | .engine e => e.Helped peer
  | _ => False

variable {D : Deps} {s s' : Node} {e : Event} {peer : PeerId}

lemma regular_step (h : s.engine.Regular) (hstep : step D s e = some s') : s'.engine.Regular := by
  cases does_of_step hstep with
  | drive event steps => exact h.step steps
  | _ => exact h

/-- The loops run and no report waits; the handlers, what they have sent and what of it
waits are as given. -/
structure Quiet (D : Deps) (handlers : List Handler) (log : List (ℕ × ToPipeline))
    (admission : List ToPipeline) (s : Node) : Prop where
  reached : ∃ es, Transition.run (step D) init es = some s
  updating : s.updating = true
  updates : s.updates = []
  running : s.engine.coordinator.point ≠ .stopped
  threads : s.bridge.threads = handlers
  enqueued : s.bridge.shared.enqueued = log
  admission : s.admission = admission

variable {handlers : List Handler} {log : List (ℕ × ToPipeline)} {admission : List ToPipeline}

lemma reached_step (h : ∃ es, Transition.run (step D) init es = some s)
    (hstep : step D s e = some s') : ∃ es, Transition.run (step D) init es = some s' := by
  obtain ⟨es,hrun⟩ := h
  exact ⟨es ++ [e],Transition.run_append_eq_some.mpr
    ⟨s,hrun,Transition.run_cons_eq_some.mpr ⟨s',hstep,rfl⟩⟩⟩

lemma Quiet.linked (h : Quiet D handlers log admission s) : Linked D s := by
  obtain ⟨es,hrun⟩ := h.reached
  exact linked_run hrun

lemma Quiet.regular (h : Quiet D handlers log admission s) : s.engine.Regular := by
  obtain ⟨es,hrun⟩ := h.reached
  exact Transition.run_preserves (P := fun s => s.engine.Regular)
    (fun _ _ _ hstep hs => regular_step hs hstep) hrun Uploads.regular_init

/-- An event of the coordinator that does not end the loop. -/
lemma drive_of_step {ue : Uploads.Event} {u : Uploads} (h : Uploads.step s.engine ue = some u)
    (hrun : u.coordinator.point ≠ .stopped) (rest : List ToPipeline) :
    ∃ budget, s.drive ue rest = some { s with
      engine := u
      admission := rest
      bridge := ⟨{ s.bridge.shared with admissionBudget := budget },s.bridge.threads⟩ } := by
  obtain ⟨⟨u,dropped⟩,hexec,rfl⟩ := Option.map_eq_some_iff.mp h
  refine ⟨s.bridge.shared.admissionBudget+((dropped.map LocalBlob.allowance).sum+0),?_⟩
  simp only [drive,hexec,Option.map_some,if_neg hrun]

/-- The message loop takes a report at any time. -/
lemma recvUpdate_enabled (D : Deps) {msg : ToBridge} {rest : List ToBridge}
    (hup : s.updating = true) (hhead : s.updates = msg::rest) :
    step D s .recvUpdate = some { s with
      updates := rest
      bridge := ⟨{ s.bridge.shared with statusMap := s.bridge.shared.statusMap.update msg },
        s.bridge.threads⟩ } := by
  obtain ⟨engine,bridge,admission,updates,updating⟩ := s
  obtain rfl : updating = true := hup
  obtain rfl : updates = msg::rest := hhead
  rfl

/-- What the coordinator does without the channels, the client does. -/
lemma Quiet.drive (h : Quiet D handlers log admission s) {ue : Uploads.Event} {u : Uploads}
    (hadm : ∀ msg, ue ≠ .input (.admission msg)) (hstop : ue ≠ .input .stop)
    (hsend : ue ≠ .input .bridgeSend) (hstep : Uploads.step s.engine ue = some u) :
    ∃ t, step D s (.engine ue) = some t ∧ Quiet D handlers log admission t ∧ t.engine = u := by
  obtain ⟨dropped,hsteps⟩ := Uploads.steps_of_step hstep
  have hrun := hsteps.keeps_running hstop h.running
  obtain ⟨budget,hdrive⟩ := drive_of_step hstep hrun s.admission
  have hnode : step D s (.engine ue) = s.drive ue s.admission := by
    cases ue with
    | input i =>
      cases i with
      | admission msg => exact absurd rfl (hadm msg)
      | bridgeSend => exact absurd rfl hsend
      | _ => rfl
    | _ => rfl
  have hnext := hnode.trans hdrive
  exact ⟨_,hnext,⟨reached_step h.reached hnext,h.updating,h.updates,hrun,h.threads,h.enqueued,
    h.admission⟩,rfl⟩

/-- The client follows its coordinator. -/
theorem Quiet.follow (h : Quiet D handlers log admission s) {ue : Uploads.Event} {u : Uploads}
    (he : ue.Own) (hstep : Uploads.step s.engine ue = some u) :
    ∃ t, Transition.Reaches (step D) Event.Own s t ∧ Quiet D handlers log admission t ∧
      t.engine = u := by
  have hadm : (∀ msg, ue ≠ .input (.admission msg)) ∧ ue ≠ .input .stop := by
    cases ue with
    | input i => rcases he with rfl | rfl | rfl <;> simp
    | _ => simp
  by_cases hsend : ue = .input .bridgeSend
  · -- The report is taken off the channel at once.
    subst hsend
    obtain ⟨dropped,hsteps⟩ := Uploads.steps_of_step hstep
    have hrun := hsteps.keeps_running hadm.2 h.running
    obtain ⟨budget,hdrive⟩ := drive_of_step hstep hrun s.admission
    obtain ⟨⟨u,dropped⟩,hexec,rfl⟩ := Option.map_eq_some_iff.mp hstep
    obtain ⟨⟨c,eff⟩,hloop,-⟩ := Option.map_eq_some_iff.mp hexec
    cases Coordinator.arms_of_exec hloop with
    | @bridgeSend msg b suspended front =>
      have hsent : step D s .sendBridge = some { s with
          engine := u
          bridge := ⟨{ s.bridge.shared with admissionBudget := budget },s.bridge.threads⟩
          updates := s.updates ++ [msg] } := by
        simp only [step,suspended,h.updating,h.updates,if_true,hdrive,Option.map_some]
        rfl
      have hreach := reached_step h.reached hsent
      rw [h.updates,List.nil_append] at hsent hreach
      have hrecv := recvUpdate_enabled D (s := { s with
          engine := u
          bridge := ⟨{ s.bridge.shared with admissionBudget := budget },s.bridge.threads⟩
          updates := [msg] }) h.updating rfl
      exact ⟨_,.head (e := .sendBridge) trivial hsent (.single (e := .recvUpdate) trivial hrecv),
        ⟨reached_step hreach hrecv,h.updating,rfl,hrun,h.threads,h.enqueued,h.admission⟩,
          rfl⟩
  · obtain ⟨t,hnext,ht⟩ := h.drive hadm.1 hadm.2 hsend hstep
    exact ⟨t,.single (e := .engine ue) he hnext,ht⟩

lemma Quiet.follows (h : Quiet D handlers log admission s) {u : Uploads}
    (hreach : Transition.Reaches Uploads.step Uploads.Event.Own s.engine u) :
    ∃ t, Transition.Reaches (step D) Event.Own s t ∧ Quiet D handlers log admission t ∧
      t.engine = u :=
  hreach.lift (f := Node.engine) (fun _ _ _ hstep he h => Quiet.follow h he hstep) h

lemma Quiet.going (h : Quiet D handlers log admission s) : Uploads.Going
    s.engine.coordinator.received s.engine.clock s.engine :=
  ⟨h.regular,h.linked.stored,rfl,h.running,rfl⟩

/-- All messages of the admission channel are received. -/
lemma Quiet.receive (h : Quiet D handlers log admission s) :
    ∃ t, Transition.Reaches (step D) Event.Own s t ∧ Quiet D handlers log [] t ∧
      t.engine.clock = s.engine.clock := by
  induction admission generalizing s with
  | nil => exact ⟨s,.refl s,h,rfl⟩
  | cons msg rest ih =>
    obtain ⟨u,hreach,hhead,-⟩ := h.going.to_head
    have hclock := (h.going.reaches hreach).clock
    obtain ⟨t,hfollow,ht,rfl⟩ := h.follows hreach
    obtain ⟨c,eff,hexec,hrun⟩ := exec_admission t.engine.clock hhead msg
    have hengine : Uploads.step t.engine (.input (.admission msg)) = some { t.engine with
        coordinator := c
        internal := if c.point = .stopped then [] else t.engine.internal
        tasks := t.engine.tasks ++ eff.spawned.map fun u => ⟨u,.uploading⟩ } := by
      simp only [Uploads.step,Uploads.exec,Uploads.drive,hexec,Option.map_some]
    obtain ⟨budget,hdrive⟩ := drive_of_step hengine hrun.ne_stopped rest
    have hstep : step D t .recvAdmission = t.drive (.input (.admission msg)) rest := by
      simp only [step,ht.admission]
    have hnext := hstep.trans hdrive
    obtain ⟨v,hreach',hv,hclock'⟩ := ih ⟨reached_step ht.reached hnext,ht.updating,ht.updates,
      hrun.ne_stopped,ht.threads,ht.enqueued,rfl⟩
    exact ⟨v,hfollow.trans (.head (e := .recvAdmission) trivial hnext hreach'),hv,
      hclock'.trans hclock⟩

/-- The message loop takes all reports that wait. -/
lemma reaches_quiet (hreached : ∃ es, Transition.run (step D) init es = some s)
    (hup : s.updating = true) (hrun : s.engine.coordinator.point ≠ .stopped) :
    ∃ t, Transition.Reaches (step D) Event.Own s t ∧
      Quiet D s.bridge.threads s.bridge.shared.enqueued s.admission t ∧
        t.engine.clock = s.engine.clock := by
  generalize hupdates : s.updates = updates
  induction updates generalizing s with
  | nil => exact ⟨s,.refl s,⟨hreached,hup,hupdates,hrun,rfl,rfl,rfl⟩,rfl⟩
  | cons msg rest ih =>
    have hstep := recvUpdate_enabled D hup hupdates
    obtain ⟨t,hreach,ht⟩ := ih (reached_step hreached hstep) hup hrun rfl
    exact ⟨t,.head (e := .recvUpdate) trivial hstep hreach,ht⟩

/-- Where nothing is left in the line behind the reports, every blob that was sent is reported
and only handlers hold permits. -/
lemma Quiet.finished (h : Quiet D handlers log [] s) (hheld : s.engine.coordinator.held = []) :
    (∀ a ∈ s.sent, D.magicTypeId a.id = some a.id → s.Finalized a.id) ∧
      s.budget+s.inHandlers = totalChunkBudget := by
  obtain ⟨gs,hreached⟩ := h.reached
  obtain ⟨done,hline⟩ := inLine_run hreached
  have hqueued : s.queued = [] := by rw [queued,h.admission]; rfl
  refine ⟨fun a ha hcan => ?_,?_⟩
  · have hids := hline.sent_eq h.updating h.running
    rw [h.updates,hheld,hqueued] at hids
    refine (hline.reported a.id).mpr ⟨?_,hcan⟩
    have hmem := List.mem_map_of_mem (f := AdmittedBlob.id) ha
    rw [hids] at hmem
    simpa using hmem
  · have hsum := conserved_run hreached
    have hqueue : s.inQueue = 0 := by rw [inQueue,h.admission]; rfl
    have hblobs : s.inBlobs = 0 := by rw [inBlobs,Coordinator.heldPermits,hheld]; rfl
    omega

end Gozara.Node
