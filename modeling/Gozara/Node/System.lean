import Gozara.Bridge.Admission
import Gozara.Coordinator.Storage

/-!
# The client: bridge, coordinator and upload tasks

The handlers put their messages on the bounded admission channel, the coordinator puts its
updates on the bounded bridge channel, and the message loop of the bridge takes them off.
Blobs that the coordinator drops give their permits back to the admission budget. What the
swarm delivers to the coordinator is arbitrary.
-/
namespace Gozara

/-- Capacity of the admission channel. -/
def admissionCapacity : ℕ := 16

/-- Capacity of the bridge channel. -/
def bridgeCapacity : ℕ := 128

/-- The permits that a queued message owns. -/
def ToPipeline.permits : ToPipeline → ℕ
  | .newBlob blob => blob.allowance
  | .getBlob _ => 0

structure Node where
  engine : Uploads
  bridge : Bridge
  admission : List ToPipeline
  updates : List ToBridge
  /-- The message loop of the bridge runs. -/
  updating : Bool

namespace Node

inductive Event
  | request (b : Request)
  | act (i : ℕ) (a : Action)
  | orphanDone
  | recvAdmission
  /-- The coordinator's send on the bridge channel ends. -/
  | sendBridge
  | recvUpdate
  | stopUpdates
  /-- Timers, handler messages, reports, upload tasks and the end of the coordinator. -/
  | engine (e : Uploads.Event)
  deriving DecidableEq

def init : Node := ⟨Uploads.init,Bridge.init,[],[],true⟩

variable (D : Deps)

def onBridge (s : Node) (e : Bridge.Event) : Option Node :=
  (Bridge.step D s.bridge e).map fun b => { s with bridge := b }

/-- An event of the coordinator. The receiver of the admission channel goes with its loop,
and the messages left in it are dropped. -/
def drive (s : Node) (e : Uploads.Event) (admission : List ToPipeline) : Option Node :=
  (s.engine.exec e).map fun r =>
    let closed := r.1.coordinator.point = .stopped
    let freed := (r.2.map LocalBlob.allowance).sum +
      if closed then (admission.map ToPipeline.permits).sum else 0
    { s with
      engine := r.1
      admission := if closed then [] else admission
      bridge := ⟨{ s.bridge.shared with
        admissionBudget := s.bridge.shared.admissionBudget+freed },s.bridge.threads⟩ }

def step (s : Node) : Event → Option Node
  | .request b => s.onBridge D (.spawn b)
  | .act i .enqueue =>
    if s.engine.coordinator.point ≠ .stopped ∧ s.admission.length < admissionCapacity then
      (s.bridge.threads[i]?.bind Handler.outbox).bind fun msg =>
        (s.onBridge D (.act i .enqueue)).map fun t => { t with admission := t.admission ++ [msg] }
    else none
  | .act i .sendFailed =>
    if s.engine.coordinator.point = .stopped then s.onBridge D (.act i .sendFailed) else none
  | .act i a => s.onBridge D (.act i a)
  | .orphanDone => s.onBridge D (.env .orphanDone)
  | .recvAdmission =>
    match s.admission with
    | [] => none
    | msg::rest => s.drive (.input (.admission msg)) rest
  | .sendBridge =>
    match s.engine.coordinator.point with
    | .sendBridge msg =>
      if s.updating then
        if s.updates.length < bridgeCapacity then
          (s.drive (.input .bridgeSend) s.admission).map fun t =>
            { t with updates := t.updates ++ [msg] }
        else none
      else s.drive (.input .bridgeSend) s.admission
    | _ => none
  | .recvUpdate =>
    match s.updates with
    | msg::rest =>
      if s.updating then
        (s.onBridge D (.env (.update msg))).map fun t => { t with updates := rest }
      else none
    | [] => none
  | .stopUpdates => if s.updating then some { s with updates := [],updating := false } else none
  | .engine (.input (.admission _)) | .engine (.input .bridgeSend) => none
  | .engine e => s.drive e s.admission

/-- The event of the coordinator that is part of an event of the client. -/
def Event.Drives (e : Event) (ue : Uploads.Event) : Prop :=
  (e = .engine ue ∧ (∀ msg, ue ≠ .input (.admission msg)) ∧ ue ≠ .input .bridgeSend) ∨
    (e = .recvAdmission ∧ ∃ msg, ue = .input (.admission msg)) ∨
      e = .sendBridge ∧ ue = .input .bridgeSend

/-- What an event does to the two halves and to the channels between them. -/
inductive Does (s : Node) : Event → Node → Prop
  | bridge {e : Event} {be : Bridge.Event} {b : Bridge} (step : Bridge.step D s.bridge be = some b)
      (event : (∃ r, e = .request r ∧ be = .spawn r) ∨ (∃ i a, e = .act i a ∧ be = .act i a) ∨
        e = .orphanDone ∧ be = .env .orphanDone)
      (unsent : ∀ i, be ≠ .act i .enqueue)
      (failed : ∀ i, be = .act i .sendFailed → s.engine.coordinator.point = .stopped) :
      Does s e { s with bridge := b }
  | enqueue {i : ℕ} {h : Handler} {msg : ToPipeline} {b : Bridge}
      (running : s.engine.coordinator.point ≠ .stopped)
      (room : s.admission.length < admissionCapacity) (handler : s.bridge.threads[i]? = some h)
      (outbox : h.outbox = some msg) (step : Bridge.step D s.bridge (.act i .enqueue) = some b) :
      Does s (.act i .enqueue) { s with bridge := b,admission := s.admission ++ [msg] }
  | update {msg : ToBridge} {rest : List ToBridge} {b : Bridge} (updating : s.updating = true)
      (head : s.updates = msg::rest) (step : Bridge.step D s.bridge (.env (.update msg)) = some b) :
      Does s .recvUpdate { s with bridge := b,updates := rest }
  | stopUpdates : Does s .stopUpdates { s with updates := [],updating := false }
  | drive {e : Event} {ue : Uploads.Event} {u : Uploads} {dropped : List LocalBlob}
      {admission : List ToPipeline} {updates : List ToBridge}
      (event : e.Drives ue) (steps : Uploads.Steps s.engine ue u dropped)
      (source : (∃ msg, ue = .input (.admission msg) ∧ s.admission = msg::admission) ∨
        (∀ msg, ue ≠ .input (.admission msg)) ∧ admission = s.admission)
      (target : (ue = .input .bridgeSend ∧ ∃ msg, s.engine.coordinator.point = .sendBridge msg ∧
          updates = if s.updating then s.updates ++ [msg] else s.updates) ∨
        ue ≠ .input .bridgeSend ∧ updates = s.updates) :
      Does s e ⟨u,⟨{ s.bridge.shared with
          admissionBudget := s.bridge.shared.admissionBudget+((dropped.map LocalBlob.allowance).sum +
            if u.coordinator.point = .stopped then (admission.map ToPipeline.permits).sum else 0) },
          s.bridge.threads⟩,if u.coordinator.point = .stopped then [] else admission,updates,
          s.updating⟩

variable {D} {s s' : Node} {e : Event}

/-- Updates come from the message loop alone. -/
lemma ne_update {be : Bridge.Event}
    (event : (∃ r, e = .request r ∧ be = .spawn r) ∨ (∃ i a, e = .act i a ∧ be = .act i a) ∨
      e = .orphanDone ∧ be = .env .orphanDone) (msg : ToBridge) : be ≠ .env (.update msg) := by
  rintro rfl
  rcases event with ⟨r,-,hr⟩ | ⟨i,a,-,ha⟩ | ⟨-,ho⟩
  · cases hr
  · cases ha
  · cases ho

lemma does_of_onBridge {be : Bridge.Event} (h : s.onBridge D be = some s')
    (event : (∃ r, e = .request r ∧ be = .spawn r) ∨ (∃ i a, e = .act i a ∧ be = .act i a) ∨
      e = .orphanDone ∧ be = .env .orphanDone)
    (unsent : ∀ i, be ≠ .act i .enqueue)
    (failed : ∀ i, be = .act i .sendFailed → s.engine.coordinator.point = .stopped) :
    Does D s e s' := by
  obtain ⟨b,hb,rfl⟩ := Option.map_eq_some_iff.mp h
  exact .bridge hb event unsent failed

lemma does_of_drive {ue : Uploads.Event} {admission : List ToPipeline} (event : e.Drives ue)
    (source : (∃ msg, ue = .input (.admission msg) ∧ s.admission = msg::admission) ∨
      (∀ msg, ue ≠ .input (.admission msg)) ∧ admission = s.admission)
    (hne : ue ≠ .input .bridgeSend) (h : s.drive ue admission = some s') : Does D s e s' := by
  obtain ⟨⟨u,dropped⟩,hexec,rfl⟩ := Option.map_eq_some_iff.mp h
  exact .drive event (Uploads.steps_of_exec hexec) source (Or.inr ⟨hne,rfl⟩)

/-- Every enabled event is one of the cases. -/
theorem does_of_step (h : step D s e = some s') : Does D s e s' := by
  cases e with
  | request b =>
    exact does_of_onBridge h (Or.inl ⟨b,rfl,rfl⟩) (by simp) (by simp)
  | act i a =>
    have hplain : ∀ {a}, a ≠ .enqueue → (a = .sendFailed → s.engine.coordinator.point = .stopped) →
        s.onBridge D (.act i a) = some s' → Does D s (.act i a) s' := by
      intro a hne hfail hb
      refine does_of_onBridge hb (Or.inr (Or.inl ⟨i,a,rfl,rfl⟩)) ?_ ?_
      · rintro j hj
        cases hj
        exact hne rfl
      · rintro j hj
        cases hj
        exact hfail rfl
    cases a with
    | enqueue =>
      simp only [step] at h
      split_ifs at h with hroom
      obtain ⟨msg,hmsg,h⟩ := Option.bind_eq_some_iff.mp h
      obtain ⟨handler,hi,hout⟩ := Option.bind_eq_some_iff.mp hmsg
      obtain ⟨t,ht,rfl⟩ := Option.map_eq_some_iff.mp h
      obtain ⟨b,hb,rfl⟩ := Option.map_eq_some_iff.mp ht
      exact .enqueue hroom.1 hroom.2 hi hout hb
    | sendFailed =>
      simp only [step] at h
      split_ifs at h with hstop
      exact hplain (by simp) (fun _ => hstop) h
    | _ => exact hplain (by simp) (by simp) h
  | orphanDone =>
    exact does_of_onBridge h (Or.inr (Or.inr ⟨rfl,rfl⟩)) (by simp) (by simp)
  | recvAdmission =>
    simp only [step] at h
    split at h
    · cases h
    · rename_i msg rest hq
      exact does_of_drive (Or.inr (Or.inl ⟨rfl,msg,rfl⟩)) (Or.inl ⟨msg,rfl,hq⟩) (by simp) h
  | sendBridge =>
    simp only [step] at h
    split at h
    · rename_i msg hpoint
      split_ifs at h with hup hroom
      · obtain ⟨t,ht,rfl⟩ := Option.map_eq_some_iff.mp h
        obtain ⟨⟨u,dropped⟩,hexec,rfl⟩ := Option.map_eq_some_iff.mp ht
        exact .drive (Or.inr (Or.inr ⟨rfl,rfl⟩)) (Uploads.steps_of_exec hexec) (Or.inr ⟨by simp,rfl⟩)
          (Or.inl ⟨rfl,msg,hpoint,by rw [if_pos hup]⟩)
      · obtain ⟨⟨u,dropped⟩,hexec,rfl⟩ := Option.map_eq_some_iff.mp h
        exact .drive (Or.inr (Or.inr ⟨rfl,rfl⟩)) (Uploads.steps_of_exec hexec) (Or.inr ⟨by simp,rfl⟩)
          (Or.inl ⟨rfl,msg,hpoint,by rw [if_neg hup]⟩)
    · cases h
  | recvUpdate =>
    simp only [step] at h
    split at h
    · rename_i msg rest hq
      split_ifs at h with hup
      obtain ⟨t,ht,rfl⟩ := Option.map_eq_some_iff.mp h
      obtain ⟨b,hb,rfl⟩ := Option.map_eq_some_iff.mp ht
      exact .update hup hq hb
    · cases h
  | stopUpdates =>
    simp only [step] at h
    split_ifs at h
    cases h
    exact .stopUpdates
  | engine ue =>
    have hplain : (∀ msg, ue ≠ .input (.admission msg)) → ue ≠ .input .bridgeSend →
        s.drive ue s.admission = some s' → Does D s (.engine ue) s' := fun hadm hne hd =>
      does_of_drive (Or.inl ⟨rfl,hadm,hne⟩) (Or.inr ⟨hadm,rfl⟩) hne hd
    cases ue with
    | input i =>
      cases i with
      | admission msg => cases h
      | bridgeSend => cases h
      | _ => exact hplain (by simp) (by simp) h
    | _ => exact hplain (by simp) (by simp) h

/-- The bridge of the client runs as a bridge on its own. -/
theorem bridge_project (h : step D s e = some s') :
    ∃ fs, Transition.run (Bridge.step D) s.bridge fs = some s'.bridge := by
  cases does_of_step h with
  | bridge hb => exact Transition.single hb
  | enqueue _ _ _ _ hb => exact Transition.single hb
  | update _ _ hb => exact Transition.single hb
  | stopUpdates => exact Transition.stutter rfl
  | drive _ _ _ _ => exact Transition.single (e := .env (.release _)) rfl

end Node

end Gozara
