import Gozara.Library.Channel
import Gozara.Node.System

/-!
# The swarm task and its messages to the coordinator

`process_swarm` turns events of the swarm into messages on the handler channel. Gossip and
requests go through `try_send`; a response goes through a `send` whose future is dropped at
once. What the coordinator gets is therefore what the events carry, without the responses.
-/
namespace Gozara

/-- An event of the swarm. The result of `bincode::deserialize::<u8>` decides on a gossip;
all that only logs or tells the DHT of an address is one case. -/
inductive SwarmEvent
  | gossip (source : Option PeerId) (data : Bytes)
  | request (peer : PeerId) (requestId : ℕ) (request : Protocol.Request) (channel : ℕ)
  | response (peer : PeerId) (requestId : ℕ) (response : Protocol.Response)
  | other
  deriving DecidableEq

/-- `bincode::deserialize::<u8>`. -/
abbrev Decode := Bytes → Option UInt8

/-- Capacity of the handler channel. -/
def handlerCapacity : ℕ := 256

namespace SwarmEvent
variable (decode : Decode)

/-- The arms of `process_swarm` that concern the handler channel. -/
def process (tx : Channel HandlerMessage) : SwarmEvent → Channel HandlerMessage
  | .gossip source data =>
    match source with
    | none => tx
    | some peerId =>
      match decode data with
      | some _ => tx.trySend (.wouldStore peerId)
      | none => tx
  | .request peer requestId req channel =>
    tx.trySend (.request peer requestId req channel)
  | .response peer requestId resp =>
    -- `let _ =` drops the future before anything polls it.
    let _ := tx.send (.response peer requestId resp)
    tx
  | .other => tx

/-- The message that an event carries for the coordinator. -/
def message : SwarmEvent → Option HandlerMessage
  | .gossip source data => source.bind fun peerId => (decode data).map fun _ => .wouldStore peerId
  | .request peer requestId req channel => some (.request peer requestId req channel)
  | .response peer requestId resp => some (.response peer requestId resp)
  | .other => none

def IsResponse : SwarmEvent → Prop
  | .response _ _ _ => True
  | _ => False

instance : ∀ ev : SwarmEvent, Decidable ev.IsResponse
  | .response _ _ _ => isTrue trivial
  | .gossip _ _ | .request _ _ _ _ | .other => isFalse id

/-- The message that arrives. -/
def sent (ev : SwarmEvent) : Option HandlerMessage :=
  if ev.IsResponse then none else ev.message decode

variable {decode} {tx : Channel HandlerMessage} {ev : SwarmEvent}

theorem process_eq (hopen : tx.isOpen = true) (hroom : tx.queue.length < tx.capacity) :
    (ev.process decode tx).queue = tx.queue ++ (ev.sent decode).toList ∧
      (ev.process decode tx).capacity = tx.capacity := by
  have htry : ∀ msg, (tx.trySend msg).queue = tx.queue ++ [msg] ∧
      (tx.trySend msg).capacity = tx.capacity := by
    intro msg
    rw [Channel.trySend_eq_push hopen hroom]
    exact ⟨rfl,rfl⟩
  cases ev with
  | gossip source data =>
    cases source with
    | none => simp [process,sent,message,IsResponse]
    | some peerId =>
      cases hdec : decode data with
      | none => simp [process,sent,message,IsResponse,hdec]
      | some n =>
        obtain ⟨hqueue,hcap⟩ := htry (.wouldStore peerId)
        simp [process,sent,message,IsResponse,hdec,hqueue,hcap]
  | request peer requestId req channel =>
    obtain ⟨hqueue,hcap⟩ := htry (.request peer requestId req channel)
    simp [process,sent,message,IsResponse,hqueue,hcap]
  | response peer requestId resp => simp [process,sent,IsResponse]
  | other => simp [process,sent,message,IsResponse]

@[simp] theorem isOpen_process : (ev.process decode tx).isOpen = tx.isOpen := by
  unfold process
  split
  · split
    · rfl
    · split
      · exact Channel.isOpen_trySend
      · rfl
  · exact Channel.isOpen_trySend
  · rfl
  · rfl

/-- The messages that arrive are all messages exactly when no event is a response. -/
theorem filterMap_sent_eq_iff (evs : List SwarmEvent) :
    evs.filterMap (sent decode) = evs.filterMap (message decode) ↔ ∀ ev ∈ evs, ¬ev.IsResponse := by
  have hlen : ∀ evs : List SwarmEvent, (evs.filterMap (message decode)).length =
      (evs.filterMap (sent decode)).length+evs.countP fun ev => ev.IsResponse := by
    intro evs
    induction evs with
    | nil => rfl
    | cons ev evs ih =>
      by_cases hev : ev.IsResponse
      · cases ev with
        | response peer requestId resp => simp [sent,message,hev,ih,Nat.add_assoc]
        | _ => exact hev.elim
      · rw [List.countP_cons_of_neg (by simpa using hev),List.filterMap_cons,List.filterMap_cons,
          sent,if_neg hev]
        cases ev.message decode <;> simp [ih,Nat.add_right_comm]
  constructor
  · intro heq ev hev hresp
    have hcount := hlen evs
    rw [← heq] at hcount
    have hzero : evs.countP (fun ev => ev.IsResponse) = 0 := by omega
    exact absurd hresp (by simpa using List.countP_eq_zero.mp hzero ev hev)
  · intro hno
    exact List.filterMap_congr fun ev hev => if_neg (hno ev hev)

end SwarmEvent

/-- The client with its swarm task. The last two fields record which events the task has
handled and which messages the coordinator has received. -/
structure Client where
  node : Node
  handler : Channel HandlerMessage
  handled : List SwarmEvent
  received : List HandlerMessage

namespace Client

inductive Event
  | swarm (ev : SwarmEvent)
  | recvHandler
  /-- Everything else; the coordinator gets its handler messages from the channel. -/
  | node (e : Node.Event)
  deriving DecidableEq

def init : Client := ⟨Node.init,Channel.new handlerCapacity,[],[]⟩

variable (D : Deps) (decode : Decode)

/-- The receiver of the handler channel goes with the coordinator's loop. -/
def onNode (s : Client) (e : Node.Event) : Option Client :=
  (Node.step D s.node e).map fun n => { s with
    node := n
    handler := if n.engine.coordinator.point = .stopped then s.handler.close else s.handler }

def step (s : Client) : Event → Option Client
  | .swarm ev => some { s with
      handler := ev.process decode s.handler,handled := s.handled ++ [ev] }
  | .recvHandler => s.handler.recv.bind fun r =>
      onNode D { s with handler := r.2,received := s.received ++ [r.1] }
        (.engine (.input (.handler r.1)))
  | .node (.engine (.input (.handler _))) => none
  | .node e => onNode D s e

/-- No event of the swarm finds the handler channel full. -/
def Roomy (s : Client) : Event → Prop
  | .swarm _ => s.handler.queue.length < s.handler.capacity
  | _ => True

instance : ∀ (s : Client) (e : Event), Decidable (Roomy s e)
  | s,.swarm _ => inferInstanceAs (Decidable (s.handler.queue.length < s.handler.capacity))
  | _,.recvHandler | _,.node _ => isTrue trivial

/-- The messages received and those on the channel are the ones that events sent. -/
def Accounted (s : Client) : Prop :=
  s.handler.isOpen = true →
    s.received ++ s.handler.queue = s.handled.filterMap (SwarmEvent.sent decode)

variable {D : Deps} {decode : Decode} {s s' : Client} {e : Event}

lemma accounted_onNode {e : Node.Event} (h : Accounted decode s) (hstep : onNode D s e = some s') :
    Accounted decode s' := by
  obtain ⟨n,-,rfl⟩ := Option.map_eq_some_iff.mp hstep
  unfold Accounted
  dsimp only
  split_ifs
  · intro hopen
    cases hopen
  · exact h

theorem accounted_step (h : Accounted decode s) (hroom : Roomy s e)
    (hstep : step D decode s e = some s') : Accounted decode s' := by
  cases e with
  | swarm ev =>
    cases hstep
    intro hopen
    have hopen' : s.handler.isOpen = true := by simpa using hopen
    have hqueue : (ev.process decode s.handler).queue =
        s.handler.queue ++ (ev.sent decode).toList :=
      (SwarmEvent.process_eq hopen' hroom).1
    simp only [hqueue,List.filterMap_append,← h hopen',List.append_assoc]
    cases hsent : ev.sent decode <;> simp [hsent]
  | recvHandler =>
    obtain ⟨⟨msg,c⟩,hrecv,hnode⟩ := Option.bind_eq_some_iff.mp hstep
    obtain ⟨hqueue,-,hopen⟩ := Channel.recv_eq_some.mp hrecv
    refine accounted_onNode ?_ hnode
    intro ho
    rw [← h (hopen ▸ ho),hqueue]
    simp
  | node e =>
    have hnode : onNode D s e = some s' := by
      cases e with
      | engine ue =>
        cases ue with
        | input i =>
          cases i with
          | handler msg => cases hstep
          | _ => exact hstep
        | _ => exact hstep
      | _ => exact hstep
    exact accounted_onNode h hnode

lemma accounted_init (decode : Decode) : Accounted decode init := fun _ => rfl

theorem accounted_run {es : List Event} (hrun : Transition.run (step D decode) init es = some s)
    (hroom : Transition.Along (step D decode) (fun s e _ => Roomy s e) init es) :
    Accounted decode s := by
  have hstep : ∀ s e s', step D decode s e = some s' → Roomy s e → Accounted decode s →
      Accounted decode s' := fun s e s' hs hr h => accounted_step h hr hs
  exact hroom.preserves hstep hrun (accounted_init decode)

/-- A permit that the coordinator receives is recorded for its peer. -/
theorem permit_recorded (c : Coordinator) (now : Instant) (peerId : PeerId) (requestId : ℕ)
    (validFor : UInt64) : (c.onHandler now (.response peerId requestId
      (.issuedStoragePermit validFor))).1.pipeline.storagePermits.lookup peerId =
        some ((now.checkedAdd validFor).getD now) := by
  obtain ⟨current,allowance,heq,-⟩ := Pipeline.assignChunks_spec { c.pipeline with
    storagePermits := c.pipeline.storagePermits.insert peerId
      ((now.checkedAdd validFor).getD now) } now
  simp [Coordinator.onHandler,Coordinator.assign,Coordinator.atHead,heq]

/-- The permits that events brought are on the channel or with the coordinator. -/
def PermitsArrive (s : Client) : Prop :=
  ∀ peerId requestId validFor,
    .response peerId requestId (.issuedStoragePermit validFor) ∈ s.handled →
      HandlerMessage.response peerId requestId (.issuedStoragePermit validFor) ∈ s.handler.queue ∨
        .response peerId requestId (.issuedStoragePermit validFor) ∈ s.received

lemma ne_response_of_sent {ev : SwarmEvent} {msg : HandlerMessage} (h : ev.sent decode = some msg)
    (peerId : PeerId) (requestId : ℕ) (resp : Protocol.Response) :
    msg ≠ .response peerId requestId resp := by
  rintro rfl
  cases ev with
  | gossip source data =>
    cases source with
    | none => simp [SwarmEvent.sent,SwarmEvent.message,SwarmEvent.IsResponse] at h
    | some p => simp [SwarmEvent.sent,SwarmEvent.message,SwarmEvent.IsResponse] at h
  | _ => simp [SwarmEvent.sent,SwarmEvent.message,SwarmEvent.IsResponse] at h

/-- With the handler channel open and never full, the messages that the coordinator has
received and can receive are those that the events carry, in order and once each, exactly
when none of the events is a response; and a permit among the events arrives in no run,
though the coordinator would record it. -/
theorem handler_messages_iff {es : List Event}
    (hrun : Transition.run (step D decode) init es = some s) (hopen : s.handler.isOpen = true)
    (hroom : Transition.Along (step D decode) (fun s e _ => Roomy s e) init es) :
    (s.received ++ s.handler.queue = s.handled.filterMap (SwarmEvent.message decode) ↔
      ∀ ev ∈ s.handled, ¬ev.IsResponse) ∧
    (PermitsArrive s ↔ ∀ peerId requestId validFor,
      .response peerId requestId (.issuedStoragePermit validFor) ∉ s.handled) ∧
    ∀ (c : Coordinator) now peerId requestId validFor, (c.onHandler now (.response peerId requestId
      (.issuedStoragePermit validFor))).1.pipeline.storagePermits.lookup peerId =
        some ((now.checkedAdd validFor).getD now) := by
  have hacc := accounted_run hrun hroom hopen
  refine ⟨?_,⟨fun harrive peerId requestId validFor hev => ?_,
    fun hnone peerId requestId validFor hev => absurd hev (hnone _ _ _)⟩,permit_recorded⟩
  · rw [hacc]
    exact SwarmEvent.filterMap_sent_eq_iff s.handled
  · have hmem : HandlerMessage.response peerId requestId (.issuedStoragePermit validFor) ∈
        s.received ++ s.handler.queue := by
      rcases harrive peerId requestId validFor hev with hq | hr
      · exact List.mem_append_right _ hq
      · exact List.mem_append_left _ hr
    rw [hacc] at hmem
    obtain ⟨ev,-,hsent⟩ := List.mem_filterMap.mp hmem
    exact ne_response_of_sent hsent _ _ _ rfl

/-- The first byte, as for a `u8`. -/
def firstByte : Decode := List.head?

/-- A gossip and a request are handled, and the gossip is received. -/
def gossiped : List Event :=
  [.swarm (.gossip (some ⟨[1]⟩) [0]),.swarm .other,.swarm (.gossip none [0]),
    .swarm (.request ⟨[2]⟩ 0 .storagePermit 0),.recvHandler]

theorem handler_messages_iff_gossiped : ∃ s,
    Transition.run (step (Deps.sample 1 Nat.one_pos) firstByte) init gossiped = some s ∧
      s.received ++ s.handler.queue = s.handled.filterMap (SwarmEvent.message firstByte) ∧
      s.received = [.wouldStore ⟨[1]⟩] := by
  have hsome : (Transition.run (step (Deps.sample 1 Nat.one_pos) firstByte) init
      gossiped).isSome := by decide
  have hrun := (Option.some_get hsome).symm
  have hno : ∀ ev ∈ [SwarmEvent.gossip (some ⟨[1]⟩) [0],.other,.gossip none [0],
      .request ⟨[2]⟩ 0 .storagePermit 0], ¬ev.IsResponse := by decide
  exact ⟨_,hrun,(handler_messages_iff hrun rfl (by decide)).1.mpr hno,rfl⟩

/-- A permit that a peer issued is handled, and nothing arrives. -/
theorem permit_lost : ∃ s,
    Transition.run (step (Deps.sample 1 Nat.one_pos) firstByte) init
      [.swarm (.response ⟨[1]⟩ 0 (.issuedStoragePermit 60))] = some s ∧
      s.handler.isOpen = true ∧ s.handled.filterMap (SwarmEvent.message firstByte) =
        [.response ⟨[1]⟩ 0 (.issuedStoragePermit 60)] ∧
      s.received ++ s.handler.queue = [] ∧ ¬PermitsArrive s := by
  refine ⟨_,rfl,rfl,rfl,rfl,fun harrive => ?_⟩
  rcases harrive ⟨[1]⟩ 0 60 List.mem_cons_self with hq | hr
  · cases hq
  · cases hr

end Client

end Gozara
