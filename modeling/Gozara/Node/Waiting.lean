import Gozara.Coordinator.Points
import Gozara.Library.Progress
import Gozara.Library.WaitFor
import Gozara.Node.Swarm

/-!
# The tasks on their bounded channels

The swarm task, the coordinator, the message loop of the bridge and the handlers, wired by
four channels of any positive capacities. A handler may wait for the coordinator, the
coordinator for the swarm task or for the message loop, and these two for nobody: no chain
of waits is a cycle, and receives and resumed sends of other tasks make room in the channel
that a task waits on.
-/
namespace Gozara

/-- The capacities given to `mpsc::channel`, which panics at zero. -/
structure Wiring where
  swarm : ℕ
  handler : ℕ
  admission : ℕ
  bridge : ℕ
  swarm_pos : 0 < swarm
  handler_pos : 0 < handler
  admission_pos : 0 < admission
  bridge_pos : 0 < bridge

/-- Capacity of the swarm channel. -/
def swarmCapacity : ℕ := 16

/-- The channels of `run`. -/
def Wiring.client : Wiring where
  swarm := swarmCapacity
  handler := handlerCapacity
  admission := admissionCapacity
  bridge := bridgeCapacity
  swarm_pos := by decide
  handler_pos := by decide
  admission_pos := by decide
  bridge_pos := by decide

structure Tasks where
  node : Node
  swarm : Channel SwarmMessage
  handler : Channel HandlerMessage

namespace Tasks

inductive Event
  | swarm (ev : SwarmEvent)
  | recvSwarm
  | stopSwarm
  /-- The coordinator's send on the swarm channel ends. -/
  | sendSwarm
  | recvHandler
  /-- Everything else; the coordinator's channels from and to the swarm task are above. -/
  | node (e : Node.Event)
  deriving DecidableEq

def init (w : Wiring) : Tasks := ⟨Node.init,Channel.new w.swarm,Channel.new w.handler⟩

variable (D : Deps) (decode : Decode) (w : Wiring)

/-- The client with the capacities of `w`. -/
def nodeStep (s : Node) : Node.Event → Option Node
  | .act i .enqueue =>
    if s.engine.coordinator.point ≠ .stopped ∧ s.admission.length < w.admission then
      (s.bridge.threads[i]?.bind Handler.outbox).bind fun msg =>
        (s.onBridge D (.act i .enqueue)).map fun t => { t with admission := t.admission ++ [msg] }
    else none
  | .sendBridge =>
    match s.engine.coordinator.point with
    | .sendBridge msg =>
      if s.updating then
        if s.updates.length < w.bridge then
          (s.drive (.input .bridgeSend) s.admission).map fun t =>
            { t with updates := t.updates ++ [msg] }
        else none
      else s.drive (.input .bridgeSend) s.admission
    | _ => none
  | e => s.step D e

/-- The receiver of the handler channel goes with the coordinator's loop. -/
def withNode (s : Tasks) (n : Node) : Tasks := { s with
  node := n
  handler := if n.engine.coordinator.point = .stopped then s.handler.close else s.handler }

def step (s : Tasks) : Event → Option Tasks
  | .swarm ev =>
    if s.swarm.isOpen = true then some { s with handler := ev.process decode s.handler } else none
  | .recvSwarm => s.swarm.recv.map fun r => { s with swarm := r.2 }
  | .stopSwarm => if s.swarm.isOpen = true then some { s with swarm := s.swarm.close } else none
  | .sendSwarm =>
    match s.node.engine.coordinator.point with
    | .sendSwarm peers _ =>
      ((s.swarm.send (.requestStoragePermits peers)).poll s.swarm).bind fun swarm =>
        (s.node.drive (.input .swarmSend) s.node.admission).map fun n =>
          withNode { s with swarm := swarm } n
    | _ => none
  | .recvHandler => s.handler.recv.bind fun r =>
      (s.node.drive (.input (.handler r.1)) s.node.admission).map
        (withNode { s with handler := r.2 })
  | .node (.engine (.input (.handler _))) | .node (.engine (.input .swarmSend)) => none
  | .node e => (nodeStep D w s.node e).map s.withNode

inductive Task
  | swarm
  | coordinator
  /-- The message loop of the bridge. -/
  | updates
  | handler (i : ℕ)
  deriving DecidableEq

inductive Chan
  | swarm
  | handler
  | admission
  | bridge
  deriving DecidableEq

/-- The task that receives from a channel. -/
def consumer : Chan → Task
  | .swarm => .swarm
  | .handler | .admission => .coordinator
  | .bridge => .updates

/-- The task that receives a message or ends a send. -/
def Event.task : Event → Option Task
  | .recvSwarm => some .swarm
  | .sendSwarm | .recvHandler | .node .recvAdmission | .node .sendBridge => some .coordinator
  | .node .recvUpdate => some .updates
  | .node (.act i .enqueue) => some (.handler i)
  | _ => none

/-- The channel that a task is sending on. The swarm task awaits no send. -/
def sendsOn (s : Tasks) : Task → Option Chan
  | .swarm | .updates => none
  | .coordinator =>
    match s.node.engine.coordinator.point with
    | .sendSwarm _ _ => some .swarm
    | .sendBridge _ => some .bridge
    | .head | .stopped => none
  | .handler i => (s.node.bridge.threads[i]?.bind Handler.outbox).map fun _ => .admission

def occupancy (s : Tasks) : Chan → ℕ
  | .swarm => s.swarm.queue.length
  | .handler => s.handler.queue.length
  | .admission => s.node.admission.length
  | .bridge => s.node.updates.length

def Open (s : Tasks) : Chan → Prop
  | .swarm => s.swarm.isOpen = true
  | .handler => s.handler.isOpen = true
  | .admission => s.node.engine.coordinator.point ≠ .stopped
  | .bridge => s.node.updating = true

end Tasks

def Wiring.capacity (w : Wiring) : Tasks.Chan → ℕ
  | .swarm => w.swarm
  | .handler => w.handler
  | .admission => w.admission
  | .bridge => w.bridge

namespace Tasks

/-- A task is sending on a channel that is open and full. -/
def Waits (w : Wiring) (s : Tasks) (p : Task) (ch : Chan) : Prop :=
  s.sendsOn p = some ch ∧ s.Open ch ∧ w.capacity ch ≤ s.occupancy ch

/-- A free slot. -/
def HasRoom (w : Wiring) (s : Tasks) (ch : Chan) : Prop :=
  s.Open ch ∧ s.occupancy ch < w.capacity ch

/-- Handlers wait for the coordinator, and the coordinator for the two other loops. -/
def rank : Task → ℕ
  | .swarm | .updates => 0
  | .coordinator => 1
  | .handler _ => 2

variable {D : Deps} {decode : Decode} {w : Wiring} {s s' : Tasks} {e : Event} {p : Task} {ch : Chan}

theorem rank_consumer_lt (h : Waits w s p ch) : rank (consumer ch) < rank p := by
  obtain ⟨hsends,-,-⟩ := h
  cases p with
  | swarm => cases hsends
  | updates => cases hsends
  | coordinator =>
    simp only [sendsOn] at hsends
    split at hsends <;> cases hsends <;> decide
  | handler i =>
    obtain ⟨msg,-,rfl⟩ := Option.map_eq_some_iff.mp hsends
    exact Nat.lt_succ_self 1

/-- With the capacities of the source the client takes its own steps. -/
theorem nodeStep_client (n : Node) (e : Node.Event) : nodeStep D .client n e = n.step D e := by
  cases e with
  | act i a => cases a <;> rfl
  | _ => rfl

lemma nodeStep_of_ne {n : Node} {e : Node.Event} (henqueue : ∀ i, e ≠ .act i .enqueue)
    (hsend : e ≠ .sendBridge) : nodeStep D w n e = n.step D e := by
  unfold nodeStep
  split
  · exact absurd rfl (henqueue _)
  · exact absurd rfl hsend
  · rfl

lemma nodeStep_of_step {e : Node.Event} (h : step D decode w s (.node e) = some s') :
    (nodeStep D w s.node e).map s.withNode = some s' := by
  cases e with
  | engine ue =>
    cases ue with
    | input i =>
      cases i with
      | handler msg => cases h
      | swarmSend => cases h
      | _ => exact h
    | _ => exact h
  | _ => exact h

/-- What an event does to the tasks. -/
inductive Does (D : Deps) (decode : Decode) (w : Wiring) (s : Tasks) : Event → Tasks → Prop
  | swarm {ev : SwarmEvent} (isOpen : s.swarm.isOpen = true) :
      Does D decode w s (.swarm ev) { s with handler := ev.process decode s.handler }
  | recvSwarm {msg : SwarmMessage} {c : Channel SwarmMessage}
      (recv : s.swarm.recv = some (msg,c)) : Does D decode w s .recvSwarm { s with swarm := c }
  | stopSwarm (isOpen : s.swarm.isOpen = true) :
      Does D decode w s .stopSwarm { s with swarm := s.swarm.close }
  | sendSwarm {peers : List PeerId} {after : Resume} {c : Channel SwarmMessage} {n : Node}
      (sending : s.node.engine.coordinator.point = .sendSwarm peers after)
      (poll : (s.swarm.send (.requestStoragePermits peers)).poll s.swarm = some c)
      (drive : s.node.drive (.input .swarmSend) s.node.admission = some n) :
      Does D decode w s .sendSwarm (withNode { s with swarm := c } n)
  | recvHandler {msg : HandlerMessage} {c : Channel HandlerMessage} {n : Node}
      (recv : s.handler.recv = some (msg,c))
      (drive : s.node.drive (.input (.handler msg)) s.node.admission = some n) :
      Does D decode w s .recvHandler (withNode { s with handler := c } n)
  | node {ne : Node.Event} {n : Node} (step : nodeStep D w s.node ne = some n)
      (handler : ∀ msg, ne ≠ .engine (.input (.handler msg)))
      (swarmSend : ne ≠ .engine (.input .swarmSend)) : Does D decode w s (.node ne) (s.withNode n)

theorem does_of_step (h : step D decode w s e = some s') : Does D decode w s e s' := by
  cases e with
  | swarm ev =>
    simp only [step] at h
    split_ifs at h with hopen
    cases h
    exact .swarm hopen
  | recvSwarm =>
    obtain ⟨r,hr,rfl⟩ := Option.map_eq_some_iff.mp h
    exact .recvSwarm hr
  | stopSwarm =>
    simp only [step] at h
    split_ifs at h with hopen
    cases h
    exact .stopSwarm hopen
  | sendSwarm =>
    simp only [step] at h
    split at h
    · rename_i hpoint
      obtain ⟨c,hc,hmap⟩ := Option.bind_eq_some_iff.mp h
      obtain ⟨n,hn,rfl⟩ := Option.map_eq_some_iff.mp hmap
      exact .sendSwarm hpoint hc hn
    · cases h
  | recvHandler =>
    obtain ⟨r,hr,hmap⟩ := Option.bind_eq_some_iff.mp h
    obtain ⟨n,hn,rfl⟩ := Option.map_eq_some_iff.mp hmap
    exact .recvHandler hr hn
  | node ne =>
    obtain ⟨n,hn,rfl⟩ := Option.map_eq_some_iff.mp (nodeStep_of_step h)
    refine .node hn ?_ ?_
    · rintro msg rfl
      cases h
    · rintro rfl
      cases h

/-- Each event is a step of the client, its own or one on the outer channels, or leaves it as it
is. -/
theorem node_of_step (h : step D decode w s e = some s') : s'.node = s.node ∨
    ∃ ne, nodeStep D w s.node ne = some s'.node ∧
      (e = .node ne ∨ ne = .engine (.input .swarmSend) ∨
        ∃ msg, ne = .engine (.input (.handler msg))) := by
  cases does_of_step h with
  | swarm => exact Or.inl rfl
  | recvSwarm => exact Or.inl rfl
  | stopSwarm => exact Or.inl rfl
  | sendSwarm _ _ drive =>
    exact Or.inr ⟨.engine (.input .swarmSend),drive,Or.inr (Or.inl rfl)⟩
  | recvHandler _ drive =>
    exact Or.inr ⟨.engine (.input (.handler _)),drive,Or.inr (Or.inr ⟨_,rfl⟩)⟩
  | node step => exact Or.inr ⟨_,step,Or.inl rfl⟩

/-- With the channels of the source, the client in a run of the tasks is in a run of its own. -/
theorem node_run {es : List Event}
    (hrun : Transition.run (step D decode .client) (init .client) es = some s) :
    ∃ fs, Transition.run (Node.step D) Node.init fs = some s.node := by
  refine Transition.run_project Tasks.node (fun s e t h => ?_) hrun
  rcases node_of_step h with hnode | ⟨ne,hnode,-⟩
  · exact Transition.stutter hnode
  · rw [nodeStep_client] at hnode
    exact Transition.single hnode

/-- The queues are within their capacities and an announcement can end. -/
structure Fits (w : Wiring) (s : Tasks) : Prop where
  capacity : s.swarm.capacity = w.swarm
  swarm : s.swarm.queue.length ≤ w.swarm
  admission : s.node.admission.length ≤ w.admission
  bridge : s.node.updates.length ≤ w.bridge
  announcing : s.node.engine.coordinator.Announcing

theorem fits_init (w : Wiring) : Fits w (init w) :=
  ⟨rfl,Nat.zero_le _,Nat.zero_le _,Nat.zero_le _,fun _ h => by cases h⟩

/-- Upload tasks move the coordinator nowhere. -/
lemma announcing_of_steps {u u' : Uploads} {ue : Uploads.Event} {dropped : List LocalBlob}
    (h : Uploads.Steps u ue u' dropped) (hu : u.coordinator.Announcing) :
    u'.coordinator.Announcing := by
  cases h with
  | loop _ _ _ exec => exact Coordinator.announcing_of_exec exec hu
  | _ => exact hu

lemma fits_drive {n n' : Node} {ue : Uploads.Event} {admission : List ToPipeline}
    (h : n.drive ue admission = some n') : n'.admission.length ≤ admission.length ∧
      n'.updates = n.updates ∧
        (n.engine.coordinator.Announcing → n'.engine.coordinator.Announcing) := by
  obtain ⟨⟨u,dropped⟩,hexec,rfl⟩ := Option.map_eq_some_iff.mp h
  refine ⟨?_,rfl,announcing_of_steps (Uploads.steps_of_exec hexec)⟩
  dsimp only
  split_ifs
  · exact Nat.zero_le _
  · exact Nat.le_refl _

/-- An event that sends on neither channel lengthens neither queue. -/
lemma fits_of_does {n n' : Node} {e : Node.Event} (h : Node.Does D n e n')
    (henqueue : ∀ i, e ≠ .act i .enqueue) (hsend : e ≠ .sendBridge) :
    n'.admission.length ≤ n.admission.length ∧ n'.updates.length ≤ n.updates.length ∧
      (n.engine.coordinator.Announcing → n'.engine.coordinator.Announcing) := by
  cases h with
  | bridge => exact ⟨Nat.le_refl _,Nat.le_refl _,id⟩
  | enqueue => exact absurd rfl (henqueue _)
  | update _ head => exact ⟨Nat.le_refl _,by simp [head],id⟩
  | stopUpdates => exact ⟨Nat.le_refl _,Nat.zero_le _,id⟩
  | @drive _ ue u dropped admission updates event steps source target =>
    have hadmission : admission.length ≤ n.admission.length := by
      rcases source with ⟨msg,-,hq⟩ | ⟨-,rfl⟩
      · simp [hq]
      · exact Nat.le_refl _
    refine ⟨?_,?_,announcing_of_steps steps⟩
    · dsimp only
      split_ifs
      · exact Nat.zero_le _
      · exact hadmission
    · rcases target with ⟨rfl,-⟩ | ⟨-,rfl⟩
      · rcases event with ⟨-,-,hne⟩ | ⟨-,msg,hne⟩ | ⟨rfl,-⟩
        · exact absurd rfl hne
        · cases hne
        · exact absurd rfl hsend
      · exact Nat.le_refl _

theorem fits_nodeStep {n' : Node} {e : Node.Event} (h : nodeStep D w s.node e = some n')
    (hf : Fits w s) : Fits w (s.withNode n') := by
  obtain ⟨hcap,hswarm,hadm,hbridge,hann⟩ := hf
  by_cases henqueue : ∃ i, e = .act i .enqueue
  · obtain ⟨i,rfl⟩ := henqueue
    simp only [nodeStep] at h
    split_ifs at h with hroom
    obtain ⟨msg,-,h⟩ := Option.bind_eq_some_iff.mp h
    obtain ⟨t,ht,rfl⟩ := Option.map_eq_some_iff.mp h
    obtain ⟨b,-,rfl⟩ := Option.map_eq_some_iff.mp ht
    refine ⟨hcap,hswarm,?_,hbridge,hann⟩
    simp only [withNode,List.length_append,List.length_singleton]
    exact hroom.2
  by_cases hsend : e = .sendBridge
  · subst hsend
    simp only [nodeStep] at h
    split at h
    · split_ifs at h with hup hroom
      · obtain ⟨t,ht,rfl⟩ := Option.map_eq_some_iff.mp h
        obtain ⟨hlen,hupdates,hann'⟩ := fits_drive ht
        refine ⟨hcap,hswarm,hlen.trans hadm,?_,hann' hann⟩
        simp only [withNode,hupdates,List.length_append,List.length_singleton]
        exact hroom
      · obtain ⟨hlen,hupdates,hann'⟩ := fits_drive h
        exact ⟨hcap,hswarm,hlen.trans hadm,hupdates ▸ hbridge,hann' hann⟩
    · cases h
  · rw [nodeStep_of_ne (not_exists.mp henqueue) hsend] at h
    obtain ⟨hlen,hupdates,hann'⟩ :=
      fits_of_does (Node.does_of_step h) (not_exists.mp henqueue) hsend
    exact ⟨hcap,hswarm,hlen.trans hadm,hupdates.trans hbridge,hann' hann⟩

theorem fits_step (h : step D decode w s e = some s') (hf : Fits w s) : Fits w s' := by
  cases does_of_step h with
  | swarm => exact ⟨hf.capacity,hf.swarm,hf.admission,hf.bridge,hf.announcing⟩
  | recvSwarm recv =>
    obtain ⟨hqueue,hcap,-⟩ := Channel.recv_eq_some.mp recv
    have hlen := hf.swarm
    rw [hqueue] at hlen
    exact ⟨hcap.trans hf.capacity,Nat.le_of_succ_le hlen,hf.admission,hf.bridge,hf.announcing⟩
  | stopSwarm => exact ⟨hf.capacity,Nat.zero_le _,hf.admission,hf.bridge,hf.announcing⟩
  | @sendSwarm peers after c n _ poll drive =>
    have hc : Fits w { s with swarm := c } := by
      rcases Channel.poll_eq_some.mp poll with ⟨-,hroom,rfl⟩ | ⟨-,rfl⟩
      · refine ⟨hf.capacity,?_,hf.admission,hf.bridge,hf.announcing⟩
        rw [hf.capacity] at hroom
        simp only [Channel.queue_push,List.length_append,List.length_singleton]
        exact hroom
      · exact hf
    exact fits_nodeStep (D := D) (e := .engine (.input .swarmSend)) drive hc
  | @recvHandler msg c n _ drive =>
    exact fits_nodeStep (D := D) (s := { s with handler := c })
      (e := .engine (.input (.handler msg))) drive
      ⟨hf.capacity,hf.swarm,hf.admission,hf.bridge,hf.announcing⟩
  | node step => exact fits_nodeStep step hf

theorem fits_run {es : List Event}
    (hrun : Transition.run (step D decode w) (init w) es = some s) : Fits w s :=
  Transition.run_preserves (fun _ _ _ h hf => fits_step h hf) hrun (fits_init w)

/-- Tasks other than `p` take `s` to a state with `P`. -/
abbrev Frees (D : Deps) (decode : Decode) (w : Wiring) (p : Task) (P : Tasks → Prop) (s : Tasks) :
    Prop := WaitFor.Leads (step D decode w) Event.task p P s

/-- The swarm task receives when its channel is full. -/
theorem frees_swarm (hf : Fits w s) (hp : .swarm ≠ p) :
    Frees D decode w p (fun t => Fits w t ∧ t.node = s.node ∧ (s.swarm.isOpen = true →
      t.swarm.isOpen = true) ∧ t.swarm.queue.length < t.swarm.capacity) s := by
  rcases Nat.lt_or_ge s.swarm.queue.length s.swarm.capacity with hroom | hfull
  · exact WaitFor.leads_here ⟨hf,rfl,id,hroom⟩
  · cases hq : s.swarm.queue with
    | nil =>
      rw [hq,hf.capacity] at hfull
      exact absurd hfull (Nat.not_le.mpr w.swarm_pos)
    | cons msg rest =>
      have hrecv : s.swarm.recv = some (msg,{ s.swarm with queue := rest }) :=
        Channel.recv_eq_some.mpr ⟨hq,rfl,rfl⟩
      have hstep : step D decode w s .recvSwarm =
          some { s with swarm := { s.swarm with queue := rest } } := by
        simp only [step,hrecv,Option.map_some]
      have hlen : rest.length < s.swarm.capacity := by
        have := hf.swarm
        rw [hq,← hf.capacity] at this
        exact this
      exact WaitFor.leads_step hstep rfl hp ⟨fits_step hstep hf,rfl,id,hlen⟩

/-- The message loop of the bridge receives when its channel is full. -/
theorem frees_bridge (hf : Fits w s) (hp : .updates ≠ p) :
    Frees D decode w p (fun t => Fits w t ∧ t.node.engine = s.node.engine ∧
      t.node.admission = s.node.admission ∧ t.node.updating = s.node.updating ∧
        (s.node.updating = true → t.node.updates.length < w.bridge)) s := by
  rcases Nat.lt_or_ge s.node.updates.length w.bridge with hroom | hfull
  · exact WaitFor.leads_here ⟨hf,rfl,rfl,rfl,fun _ => hroom⟩
  · by_cases hup : s.node.updating = true
    · cases hq : s.node.updates with
      | nil =>
        rw [hq] at hfull
        exact absurd hfull (Nat.not_le.mpr w.bridge_pos)
      | cons msg rest =>
        have hnode : ∃ n, nodeStep D w s.node .recvUpdate = some n ∧
            n.engine = s.node.engine ∧ n.admission = s.node.admission ∧
              n.updating = s.node.updating ∧ n.updates = rest := by
          simp only [nodeStep,Node.step,hq,if_pos hup]
          exact ⟨_,rfl,rfl,rfl,rfl,rfl⟩
        obtain ⟨n,hn,hengine,hadm,hupd,hrest⟩ := hnode
        have hstep : step D decode w s (.node .recvUpdate) = some (s.withNode n) := by
          simp only [step,hn,Option.map_some]
        have hlen : rest.length < w.bridge := by
          have := hf.bridge
          rw [hq] at this
          exact this
        refine WaitFor.leads_step hstep rfl hp ⟨fits_step hstep hf,hengine,hadm,hupd,fun _ => ?_⟩
        rw [← hrest] at hlen
        exact hlen
    · exact WaitFor.leads_here ⟨hf,rfl,rfl,rfl,fun h => absurd h hup⟩

/-- An input that the coordinator takes is a step of the client. -/
lemma drive_of_exec {n : Node} {i : Input} {c : Coordinator} {eff : Effects}
    (hi : ∀ hash status, i ≠ .updateChunkStatus hash status)
    (h : n.engine.coordinator.exec n.engine.clock i = some (c,eff)) (hc : c.point.Running)
    (admission : List ToPipeline) : ∃ n', n.drive (.input i) admission = some n' ∧
      n'.engine.coordinator = c ∧ n'.admission = admission := by
  have hexec : n.engine.exec (.input i) = n.engine.drive i n.engine.internal := by
    cases i with
    | updateChunkStatus hash status => exact absurd rfl (hi hash status)
    | _ => rfl
  simp only [Node.drive,hexec,Uploads.drive,h,Option.map_some]
  exact ⟨_,rfl,rfl,if_neg hc.ne_stopped⟩

/-- A send to the swarm task ends when there is room, or nobody to receive. -/
theorem sendSwarm_enabled (D : Deps) (decode : Decode) (w : Wiring) {peers : List PeerId}
    {after : Resume} (hpoint : s.node.engine.coordinator.point = .sendSwarm peers after)
    (hroom : s.swarm.isOpen = true → s.swarm.queue.length < s.swarm.capacity) :
    ∃ t, step D decode w s .sendSwarm = some t ∧ t.node.engine.coordinator.point = .head ∧
      t.node.admission = s.node.admission := by
  obtain ⟨c,eff,hexec,hc⟩ := Coordinator.exec_swarmSend s.node.engine.clock hpoint
  obtain ⟨n,hn,rfl,hadm⟩ := drive_of_exec (by simp) hexec (Or.inl hc) s.node.admission
  simp only [step,hpoint,Channel.poll_send hroom,Option.bind_some,hn,Option.map_some]
  exact ⟨_,rfl,hc,hadm⟩

/-- An announcement ends when there is room, or nobody to receive. -/
theorem sendBridge_enabled (D : Deps) (decode : Decode) {msg : ToBridge} (hf : Fits w s)
    (hpoint : s.node.engine.coordinator.point = .sendBridge msg)
    (hroom : s.node.updating = true → s.node.updates.length < w.bridge) :
    ∃ t, step D decode w s (.node .sendBridge) = some t ∧
      t.node.engine.coordinator.point.Running ∧ t.node.admission = s.node.admission := by
  obtain ⟨c,eff,hexec,hc⟩ := Coordinator.exec_bridgeSend s.node.engine.clock hpoint hf.announcing
  obtain ⟨n,hn,rfl,hadm⟩ := drive_of_exec (by simp) hexec hc s.node.admission
  simp only [step,nodeStep,hpoint,hn,Option.map_some]
  split_ifs with hup hlen
  · exact ⟨_,rfl,hc,hadm⟩
  · exact absurd (hroom hup) hlen
  · exact ⟨_,rfl,hc,hadm⟩

/-- At its head the coordinator takes the first message of the bridge. -/
theorem recvAdmission_enabled (D : Deps) (decode : Decode) (w : Wiring) {msg : ToPipeline}
    {rest : List ToPipeline} (hpoint : s.node.engine.coordinator.point = .head)
    (hq : s.node.admission = msg::rest) :
    ∃ t, step D decode w s (.node .recvAdmission) = some t ∧
      t.node.engine.coordinator.point.Running ∧ t.node.admission = rest := by
  obtain ⟨c,eff,hexec,hc⟩ := Coordinator.exec_admission s.node.engine.clock hpoint msg
  obtain ⟨n,hn,rfl,hadm⟩ := drive_of_exec (by simp) hexec hc rest
  simp only [step,nodeStep,Node.step,hq,hn,Option.map_some]
  exact ⟨_,rfl,hc,hadm⟩

/-- A handler's send ends when there is room. -/
theorem enqueue_enabled (D : Deps) (decode : Decode) {i : ℕ} {msg : ToPipeline}
    (hout : s.node.bridge.threads[i]?.bind Handler.outbox = some msg)
    (hpoint : s.node.engine.coordinator.point ≠ .stopped)
    (hroom : s.node.admission.length < w.admission) :
    ∃ t, step D decode w s (.node (.act i .enqueue)) = some t := by
  obtain ⟨t,ht,hmsg⟩ := Option.bind_eq_some_iff.mp hout
  obtain ⟨⟨sh,t'⟩,hr⟩ : ∃ r, BridgeState.act D i s.node.bridge.shared t .enqueue = some r :=
    act_enqueue_iff.mpr ⟨msg,hmsg⟩
  have hbridge : Bridge.step D s.node.bridge (.act i .enqueue) =
      some ⟨sh,s.node.bridge.threads.set i t'⟩ :=
    Pool.step_act_eq_some.mpr ⟨t,sh,t',ht,hr,rfl⟩
  simp only [step,nodeStep,if_pos (And.intro hpoint hroom),hout,Option.bind_some,Node.onBridge,
    hbridge,Option.map_some]
  exact ⟨_,rfl⟩

/-- The coordinator comes back to its head. -/
theorem frees_head_of_running (D : Deps) (decode : Decode) (hf : Fits w s) (hswarm : .swarm ≠ p)
    (hcoord : .coordinator ≠ p) (hrun : s.node.engine.coordinator.point.Running) :
    Frees D decode w p (fun t => Fits w t ∧ t.node.engine.coordinator.point = .head ∧
      t.node.admission = s.node.admission) s := by
  rcases hrun with hhead | ⟨peers,after,hpoint⟩
  · exact WaitFor.leads_here ⟨hf,hhead,rfl⟩
  · refine (frees_swarm hf hswarm).trans ?_
    rintro t ⟨ht,hnode,-,hroom⟩
    rw [← hnode] at hpoint
    obtain ⟨u,hu,hhead,hadm⟩ := sendSwarm_enabled D decode w hpoint fun _ => hroom
    refine WaitFor.leads_step hu rfl hcoord ⟨fits_step hu ht,hhead,?_⟩
    rw [hadm,hnode]

theorem frees_head (hf : Fits w s) (hswarm : .swarm ≠ p) (hcoord : .coordinator ≠ p)
    (hupdates : .updates ≠ p) (hpoint : s.node.engine.coordinator.point ≠ .stopped) :
    Frees D decode w p (fun t => Fits w t ∧ t.node.engine.coordinator.point = .head ∧
      t.node.admission = s.node.admission) s := by
  cases hp : s.node.engine.coordinator.point with
  | head => exact frees_head_of_running D decode hf hswarm hcoord (Or.inl hp)
  | sendSwarm peers after => exact frees_head_of_running D decode hf hswarm hcoord (Or.inr ⟨_,_,hp⟩)
  | stopped => exact absurd hp hpoint
  | sendBridge msg =>
    refine (frees_bridge hf hupdates).trans ?_
    rintro t ⟨ht,hengine,hadm,hup,hroom⟩
    rw [← hengine] at hp
    obtain ⟨u,hu,hrun,hadm'⟩ := sendBridge_enabled D decode ht hp fun h => hroom (hup ▸ h)
    have hleads := frees_head_of_running D decode (fits_step hu ht) hswarm hcoord hrun
    rw [hadm',hadm] at hleads
    exact WaitFor.leads_cons hu rfl hcoord hleads

/-- Receives and ends of sends bring the coordinator back to its head. -/
theorem reaches_head (D : Deps) (decode : Decode) (hf : Fits w s)
    (hpoint : s.node.engine.coordinator.point ≠ .stopped) : ∃ t,
    Transition.Reaches (step D decode w) (fun e => e.task.isSome) s t ∧
      t.node.engine.coordinator.point = .head := by
  have hfrees : Frees D decode w (.handler 0) _ s :=
    frees_head hf (by simp) (by simp) (by simp) hpoint
  obtain ⟨fs,t,hrun,hfs,-,hhead,-⟩ := hfrees
  refine ⟨t,⟨fs,fun e he => ?_,hrun⟩,hhead⟩
  obtain ⟨q,hq,-⟩ := hfs e he
  exact Option.isSome_of_eq_some hq

/-- The coordinator waits for the swarm task exactly when the channel refuses its message. -/
theorem sendSwarm_refused_iff {peers : List PeerId} {after : Resume} (hf : Fits w s)
    (hpoint : s.node.engine.coordinator.point = .sendSwarm peers after) :
    step D decode w s .sendSwarm = none ↔ Waits w s .coordinator .swarm := by
  constructor
  · intro hnone
    by_contra hw
    have hroom : s.swarm.isOpen = true → s.swarm.queue.length < s.swarm.capacity := by
      intro hopen
      by_contra hlen
      rw [hf.capacity] at hlen
      exact hw ⟨by simp [sendsOn,hpoint],hopen,Nat.not_lt.mp hlen⟩
    obtain ⟨t,ht,-⟩ := sendSwarm_enabled D decode w hpoint hroom
    rw [hnone] at ht
    cases ht
  · rintro ⟨-,hopen,hfull⟩
    have hpoll : (s.swarm.send (.requestStoragePermits peers)).poll s.swarm = none := by
      refine Option.eq_none_iff_forall_ne_some.mpr fun c hc => ?_
      rcases Channel.poll_eq_some.mp hc with ⟨-,hroom,-⟩ | ⟨hclosed,-⟩
      · rw [hf.capacity] at hroom
        exact absurd hroom (Nat.not_lt.mpr hfull)
      · exact hclosed hopen
    simp only [step,hpoint,hpoll,Option.bind_none]

/-- It waits for the bridge exactly when the channel refuses its announcement. -/
theorem sendBridge_refused_iff {msg : ToBridge} (hf : Fits w s)
    (hpoint : s.node.engine.coordinator.point = .sendBridge msg) :
    step D decode w s (.node .sendBridge) = none ↔ Waits w s .coordinator .bridge := by
  constructor
  · intro hnone
    by_contra hw
    have hroom : s.node.updating = true → s.node.updates.length < w.bridge := by
      intro hup
      by_contra hlen
      exact hw ⟨by simp [sendsOn,hpoint],hup,Nat.not_lt.mp hlen⟩
    obtain ⟨t,ht,-⟩ := sendBridge_enabled D decode hf hpoint hroom
    rw [hnone] at ht
    cases ht
  · rintro ⟨-,hopen,hfull⟩
    have hup : s.node.updating = true := hopen
    have hlen : ¬s.node.updates.length < w.bridge := Nat.not_lt.mpr hfull
    simp only [step,nodeStep,hpoint,if_pos hup,if_neg hlen,Option.map_none]

/-- A handler waits exactly when the channel, still open, refuses its message. -/
theorem enqueue_refused_iff {i : ℕ} {msg : ToPipeline}
    (hout : s.node.bridge.threads[i]?.bind Handler.outbox = some msg)
    (hpoint : s.node.engine.coordinator.point ≠ .stopped) :
    step D decode w s (.node (.act i .enqueue)) = none ↔ Waits w s (.handler i) .admission := by
  constructor
  · intro hnone
    by_contra hw
    have hroom : s.node.admission.length < w.admission := by
      by_contra hlen
      exact hw ⟨by simp [sendsOn,hout],hpoint,Nat.not_lt.mp hlen⟩
    obtain ⟨t,ht⟩ := enqueue_enabled D decode hout hpoint hroom
    rw [hnone] at ht
    cases ht
  · rintro ⟨-,-,hfull⟩
    have hlen : ¬(s.node.engine.coordinator.point ≠ .stopped ∧
        s.node.admission.length < w.admission) := fun h => absurd h.2 (Nat.not_lt.mpr hfull)
    simp only [step,nodeStep,if_neg hlen,Option.map_none]

/-- No event of the swarm waits for room. -/
theorem swarm_enabled (hopen : s.swarm.isOpen = true) (ev : SwarmEvent) :
    (step D decode w s (.swarm ev)).isSome := by simp [step,hopen]

/-- The tasks do not deadlock on their channels. In every state of every run, for channels
of any positive capacities: no task waits, directly or through others, for itself; and the
channel that a task waits on has room after finitely many receives and resumed sends of
other tasks. -/
theorem no_deadlock {es : List Event}
    (hrun : Transition.run (step D decode w) (init w) es = some s) :
    (∀ p, ¬Relation.TransGen (WaitFor.WaitsFor (Waits w s) consumer) p p) ∧
    ∀ p ch, Waits w s p ch → ∃ fs t, Transition.run (step D decode w) s fs = some t ∧
      (∀ e ∈ fs, ∃ q, e.task = some q ∧ q ≠ p) ∧ HasRoom w t ch := by
  have hf := fits_run hrun
  refine ⟨WaitFor.acyclic rank fun p ch => rank_consumer_lt,fun p ch hw => ?_⟩
  obtain ⟨hsends,hopen,hfull⟩ := hw
  cases p with
  | swarm => cases hsends
  | updates => cases hsends
  | coordinator =>
    simp only [sendsOn] at hsends
    split at hsends
    · cases hsends
      refine (frees_swarm hf (by simp)).trans ?_
      rintro t ⟨ht,-,hstays,hroom⟩
      rw [ht.capacity] at hroom
      exact WaitFor.leads_here ⟨hstays hopen,hroom⟩
    · cases hsends
      refine (frees_bridge hf (by simp)).trans ?_
      rintro t ⟨ht,-,-,hup,hroom⟩
      exact WaitFor.leads_here ⟨hup.trans hopen,hroom hopen⟩
    · cases hsends
    · cases hsends
  | handler i =>
    obtain ⟨msg,-,rfl⟩ := Option.map_eq_some_iff.mp hsends
    refine (frees_head hf (by simp) (by simp) (by simp) hopen).trans ?_
    rintro t ⟨ht,hhead,hadm⟩
    cases hq : t.node.admission with
    | nil =>
      have hlen : w.admission ≤ t.node.admission.length := hadm ▸ hfull
      rw [hq] at hlen
      exact absurd hlen (Nat.not_le.mpr w.admission_pos)
    | cons first rest =>
      obtain ⟨u,hu,hpoint,hrest⟩ := recvAdmission_enabled D decode w hhead hq
      have hlen := ht.admission
      rw [hq,← hrest] at hlen
      exact WaitFor.leads_step hu rfl (by simp) ⟨hpoint.ne_stopped,hlen⟩

/-- One slot on every channel. -/
def narrow : Wiring := ⟨1,1,1,1,by decide,by decide,by decide,by decide⟩

/-- A request for permits fills the swarm channel and a second one waits; meanwhile a download
fills the admission channel and another one waits for the coordinator. -/
def crowded : List Event :=
  [.swarm (.gossip (some ⟨[1]⟩) [0]),.recvHandler,.node (.request (.post blobId (some [49]))),
    .node (.act 0 .acquire),.node (.act 0 (.frame [7])),.node (.act 0 .hashStart),
    .node (.act 0 .hashDone),.node (.act 0 .bodyEnd),.node (.act 0 .enqueue),.node .recvAdmission,
    .sendSwarm,.node (.engine (.input .timerStale)),.node (.request (.get fileId)),
    .node (.act 1 .enqueue),.node (.request (.get imageId))]

theorem no_deadlock_crowded : ∃ s,
    Transition.run (step (Deps.sample 1 Nat.one_pos) Client.firstByte narrow) (init narrow)
        crowded = some s ∧
      Waits narrow s .coordinator .swarm ∧ Waits narrow s (.handler 2) .admission ∧
      ∃ fs t, Transition.run (step (Deps.sample 1 Nat.one_pos) Client.firstByte narrow) s fs =
          some t ∧
        (∀ e ∈ fs, ∃ q, e.task = some q ∧ q ≠ .handler 2) ∧ HasRoom narrow t .admission := by
  obtain ⟨s,hrun,h⟩ := Option.map_eq_some_iff.mp (by decide :
    (Transition.run (step (Deps.sample 1 Nat.one_pos) Client.firstByte narrow) (init narrow)
      crowded).map (fun s => (s.sendsOn .coordinator,s.sendsOn (.handler 2),s.swarm.isOpen,
        s.occupancy .swarm,s.occupancy .admission,decide (s.node.engine.coordinator.point = .stopped))) =
      some (some .swarm,some .admission,true,1,1,false))
  simp only [Prod.mk.injEq,decide_eq_false_iff_not] at h
  obtain ⟨hcoord,hhandler,hopen,hswarm,hadmission,hpoint⟩ := h
  have hwaits : Waits narrow s (.handler 2) .admission := ⟨hhandler,hpoint,hadmission.ge⟩
  exact ⟨s,hrun,⟨hcoord,hopen,hswarm.ge⟩,hwaits,(no_deadlock hrun).2 _ _ hwaits⟩

end Tasks

end Gozara
