import Gozara.Coordinator.Hints
import Gozara.Node.Wired

/-!
# What the client sends to its peers

The swarm task turns each message of the swarm channel into one request for each peer that it
names, and tells the DHT of the public addresses of peers. So the client asks nobody who has
not gossiped before, and nobody at all before it has something to store.
-/
namespace Gozara

/-- A component of a multiaddress. Only those of IPv4 are looked at. -/
inductive AddrProtocol
  | ip4 (a b c d : UInt8)
  | other (text : String)
  deriving DecidableEq

abbrev Multiaddr := List AddrProtocol

namespace AddrProtocol

/-- `Ipv4Addr::is_private`: 10.0.0.0/8, 172.16.0.0/12 and 192.168.0.0/16. -/
def isPrivate : AddrProtocol → Bool
  | ip4 a b _ _ => a = 10 ∨ (a = 172 ∧ 16 ≤ b ∧ b ≤ 31) ∨ (a = 192 ∧ b = 168)
  | other _ => false

/-- `Ipv4Addr::is_loopback`: 127.0.0.0/8. -/
def isLoopback : AddrProtocol → Bool
  | ip4 a _ _ _ => a = 127
  | other _ => false

def isIp4 : AddrProtocol → Bool
  | ip4 _ _ _ _ => true
  | other _ => false

end AddrProtocol

/-- `is_public` of the client and of the bootnode. -/
def Multiaddr.isPublic (address : Multiaddr) : Bool :=
  (address.filter AddrProtocol.isIp4).all fun a => !a.isPrivate && !a.isLoopback

/-- The requests that the swarm task sends for a message. -/
def SwarmMessage.requests : SwarmMessage → List (PeerId × Protocol.Request)
  | .requestStoragePermits peers => peers.map fun peer => (peer,.storagePermit)

def SwarmMessage.peers : SwarmMessage → List PeerId
  | .requestStoragePermits peers => peers

namespace Coordinator
variable {c c' : Coordinator} {now : Instant} {i : Input} {eff : Effects} {G G' : PeerId → Prop}

/-- The peers that a message may name. -/
structure Solicits (G : PeerId → Prop) (c : Coordinator) (peers : List PeerId) : Prop where
  nonempty : peers ≠ []
  nodup : peers.Nodup
  gossiped : ∀ peer ∈ peers, G peer
  uploaded : c.received ≠ []

/-- Hints are of peers in `G`, and so are the peers of a message that is being sent. -/
structure Soliciting (G : PeerId → Prop) (c : Coordinator) : Prop where
  hints : ∀ peer, (c.pipeline.storageProviderHints.lookup peer).isSome → G peer
  sending : ∀ peers after, c.point = .sendSwarm peers after → c.Solicits G peers

lemma Solicits.mono {peers : List PeerId} (h : c.Solicits G peers) (hG : ∀ peer, G peer → G' peer)
    (hreceived : c.received ≠ [] → c'.received ≠ []) : c'.Solicits G' peers :=
  ⟨h.nonempty,h.nodup,fun peer hpeer => hG peer (h.gossiped peer hpeer),hreceived h.uploaded⟩

lemma Soliciting.mono (h : c.Soliciting G) (hG : ∀ peer, G peer → G' peer) : c.Soliciting G' :=
  ⟨fun peer hsome => hG peer (h.hints peer hsome),
    fun peers after hpoint => (h.sending peers after hpoint).mono hG id⟩

/-- A request is made for a blob. -/
lemma received_of_requests (h : c.exec now i = some (c',eff)) (ho : c.Orderly)
    (hreq : c.Requests i) : c'.received ≠ [] := by
  have hreceived := (moves_of_exec h).received_eq
  have hheld : ∀ b, b ∈ c.held → c.received ≠ [] := by
    intro b hb
    obtain ⟨a,ha,-⟩ := ho.origin (List.mem_append_left _ hb)
    exact List.ne_nil_of_mem ha
  have hkept : c.received ≠ [] → c'.received ≠ [] := by
    intro hne
    rw [hreceived]
    exact List.append_ne_nil_of_left_ne_nil hne _
  unfold Requests at hreq
  split at hreq
  · obtain ⟨b,hb⟩ := Option.isSome_iff_exists.mp hreq
    exact hkept (hheld b (by simp [held,hb]))
  · rw [hreceived]
    simp [newBlob?]
  · obtain ⟨b,hb⟩ := List.exists_mem_of_ne_nil _ hreq
    exact hkept (hheld b (List.mem_append_right _ hb))
  · exact hreq.elim

/-- A step of the loop keeps to peers in `G`, when the gossip that it takes in is of one. -/
theorem soliciting_of_exec (h : c.exec now i = some (c',eff)) (ho : c.Orderly)
    (hc : c.Soliciting G) (hi : ∀ peer, i = .handler (.wouldStore peer) → G peer) :
    c'.Soliciting G := by
  have hhints : ∀ peer, (c'.pipeline.storageProviderHints.lookup peer).isSome → G peer := by
    intro peer hsome
    rw [lookup_hints_of_exec h] at hsome
    unfold hintAfter at hsome
    split at hsome
    · rename_i peerId
      split_ifs at hsome with heq
      · exact heq ▸ hi peerId rfl
      · exact hc.hints peer hsome
    · obtain ⟨heard,hheard⟩ := Option.isSome_iff_exists.mp hsome
      exact hc.hints peer (Option.isSome_of_eq_some (Option.filter_eq_some_iff.mp hheard).1)
    · cases hsome
    · exact hc.hints peer hsome
  refine ⟨hhints,fun peers after hpoint => ?_⟩
  by_cases hsame : c'.point = c.point
  · refine (hc.sending peers after (hsame ▸ hpoint)).mono (fun _ hG => hG) fun hne => ?_
    rw [(moves_of_exec h).received_eq]
    exact List.append_ne_nil_of_left_ne_nil hne _
  · obtain ⟨hreq,-,rfl,hne⟩ := (asks_iff h).mp ⟨hsame,after,hpoint⟩
    exact ⟨hne,AList.keys_nodup _,fun peer hpeer => hhints peer (AList.lookup_isSome.mpr hpeer),
      received_of_requests h ho hreq⟩

end Coordinator

namespace Uploads
variable {s s' : Uploads} {e : Event} {dropped : List LocalBlob} {G : PeerId → Prop}

theorem Steps.soliciting (h : Steps s e s' dropped) (ho : s.coordinator.Orderly)
    (hs : s.coordinator.Soliciting G)
    (he : ∀ peer, e = .input (.handler (.wouldStore peer)) → G peer) :
    s'.coordinator.Soliciting G := by
  cases h with
  | @loop e i c eff input direct moves exec =>
    refine Coordinator.soliciting_of_exec exec ho hs ?_
    rintro peer rfl
    exact he peer (eq_input_of_inputOf input (by simp))
  | _ => exact ⟨hs.hints,fun peers after hpoint =>
      (hs.sending peers after hpoint).mono (fun _ hG => hG) id⟩

end Uploads

namespace Tasks
variable {D : Deps} {decode : Decode} {w : Wiring} {s s' : Tasks} {e : Event}

/-- The other steps leave the swarm channel, unless they close it. -/
lemma swarm_of_step (h : step D decode w s e = some s') (hrecv : e ≠ .recvSwarm)
    (hsend : e ≠ .sendSwarm) : s'.swarm = s.swarm ∨ s'.swarm = s.swarm.close := by
  cases does_of_step h with
  | recvSwarm => exact absurd rfl hrecv
  | sendSwarm => exact absurd rfl hsend
  | stopSwarm => exact Or.inr rfl
  | _ => exact Or.inl rfl

end Tasks

/-- The tasks with what the swarm task has done to the network. The last field records the
messages that the coordinator has put on the swarm channel. -/
structure Network where
  tasks : Tasks
  /-- The requests given to `req_resp.send_request`. -/
  requested : List (PeerId × Protocol.Request)
  /-- The addresses given to `kademlia.add_address`, after that of the bootnode. -/
  addresses : List (PeerId × Multiaddr)
  asked : List SwarmMessage

namespace Network

inductive Event
  /-- `SwarmEvent::NewExternalAddrOfPeer`. -/
  | newExternalAddr (peerId : PeerId) (address : Multiaddr)
  | tasks (e : Tasks.Event)
  deriving DecidableEq

def init (w : Wiring) : Network := ⟨Tasks.init w,[],[],[]⟩

variable (D : Deps) (decode : Decode) (w : Wiring)

def step (s : Network) : Event → Option Network
  | .newExternalAddr peerId address =>
    (Tasks.step D decode w s.tasks (.swarm .other)).map fun t => { s with
      tasks := t
      addresses := if address.isPublic then s.addresses ++ [(peerId,address)] else s.addresses }
  | .tasks .recvSwarm => s.tasks.swarm.recv.bind fun r =>
      (Tasks.step D decode w s.tasks .recvSwarm).map fun t => { s with
        tasks := t,requested := s.requested ++ r.1.requests }
  | .tasks .sendSwarm =>
    match s.tasks.node.engine.coordinator.point with
    | .sendSwarm peers _ => (Tasks.step D decode w s.tasks .sendSwarm).map fun t => { s with
        tasks := t
        asked := if s.tasks.swarm.isOpen then s.asked ++ [.requestStoragePermits peers]
          else s.asked }
    | _ => none
  | .tasks e => (Tasks.step D decode w s.tasks e).map fun t => { s with tasks := t }

/-- The event of the tasks that is part of an event. -/
def Event.task : Event → Tasks.Event
  | .newExternalAddr _ _ => .swarm .other
  | .tasks e => e

def Event.externalAddr? : Event → Option (PeerId × Multiaddr)
  | .newExternalAddr peerId address => some (peerId,address)
  | .tasks _ => none

/-- A gossip of the peer that can be decoded is among the events. -/
def Gossiped (past : List Event) (peer : PeerId) : Prop :=
  ∃ data, (decode data).isSome ∧ .tasks (.swarm (.gossip (some peer) data)) ∈ past

variable {D decode w} {s s' : Network} {e : Event} {es past : List Event}

/-- What an event does. -/
inductive Does (D : Deps) (decode : Decode) (w : Wiring) (s : Network) : Event → Network → Prop
  | newExternalAddr {peerId : PeerId} {address : Multiaddr} {t : Tasks}
      (step : Tasks.step D decode w s.tasks (.swarm .other) = some t) :
      Does D decode w s (.newExternalAddr peerId address) { s with
        tasks := t
        addresses := if address.isPublic then s.addresses ++ [(peerId,address)] else s.addresses }
  | recvSwarm {msg : SwarmMessage} {c : Channel SwarmMessage} {t : Tasks}
      (recv : s.tasks.swarm.recv = some (msg,c))
      (step : Tasks.step D decode w s.tasks .recvSwarm = some t) :
      Does D decode w s (.tasks .recvSwarm) { s with
        tasks := t,requested := s.requested ++ msg.requests }
  | sendSwarm {peers : List PeerId} {after : Resume} {t : Tasks}
      (sending : s.tasks.node.engine.coordinator.point = .sendSwarm peers after)
      (step : Tasks.step D decode w s.tasks .sendSwarm = some t) :
      Does D decode w s (.tasks .sendSwarm) { s with
        tasks := t
        asked := if s.tasks.swarm.isOpen then s.asked ++ [.requestStoragePermits peers]
          else s.asked }
  | tasks {te : Tasks.Event} {t : Tasks} (recv : te ≠ .recvSwarm) (send : te ≠ .sendSwarm)
      (step : Tasks.step D decode w s.tasks te = some t) :
      Does D decode w s (.tasks te) { s with tasks := t }

theorem does_of_step (h : step D decode w s e = some s') : Does D decode w s e s' := by
  cases e with
  | newExternalAddr peerId address =>
    obtain ⟨t,ht,rfl⟩ := Option.map_eq_some_iff.mp h
    exact .newExternalAddr ht
  | tasks te =>
    cases te with
    | recvSwarm =>
      obtain ⟨r,hr,hmap⟩ := Option.bind_eq_some_iff.mp h
      obtain ⟨t,ht,rfl⟩ := Option.map_eq_some_iff.mp hmap
      exact .recvSwarm hr ht
    | sendSwarm =>
      simp only [step] at h
      split at h
      · rename_i hpoint
        obtain ⟨t,ht,rfl⟩ := Option.map_eq_some_iff.mp h
        exact .sendSwarm hpoint ht
      · cases h
    | _ =>
      obtain ⟨t,ht,rfl⟩ := Option.map_eq_some_iff.mp h
      exact .tasks (by simp) (by simp) ht

theorem tasks_of_step (h : step D decode w s e = some s') :
    Tasks.step D decode w s.tasks e.task = some s'.tasks := by
  cases does_of_step h with
  | newExternalAddr step => exact step
  | recvSwarm _ step => exact step
  | sendSwarm _ step => exact step
  | tasks _ _ step => exact step

/-- The requests sent and those of the messages that wait. -/
def onWire (s : Network) : List (PeerId × Protocol.Request) :=
  s.requested ++ s.tasks.swarm.queue.flatMap SwarmMessage.requests

/-- The messages put on the swarm channel are those of which the requests were sent and those
that wait, in order, as long as the swarm task lives. -/
structure Accounted (s : Network) : Prop where
  wire : s.tasks.swarm.isOpen = true →
    s.asked.flatMap SwarmMessage.requests = s.onWire
  order : s.onWire <+: s.asked.flatMap SwarmMessage.requests

lemma accounted_congr (h : s.Accounted) (hopen : s'.tasks.swarm.isOpen = s.tasks.swarm.isOpen)
    (hwire : s'.onWire = s.onWire) (hasked : s'.asked = s.asked) : s'.Accounted := by
  constructor
  · rw [hopen,hwire,hasked]
    exact h.wire
  · rw [hwire,hasked]
    exact h.order

/-- A message goes to the end of the open channel. -/
lemma accounted_ask {msg : SwarmMessage} (h : s.Accounted) (hopen : s.tasks.swarm.isOpen = true)
    (hwire : s'.onWire = s.onWire ++ msg.requests) (hasked : s'.asked = s.asked ++ [msg]) :
    s'.Accounted := by
  have heq : s'.asked.flatMap SwarmMessage.requests = s'.onWire := by
    rw [hasked,hwire,List.flatMap_append,h.wire hopen,List.flatMap_singleton]
  exact ⟨fun _ => heq,heq ▸ List.prefix_refl _⟩

theorem accounted_step (hstep : step D decode w s e = some s') (h : s.Accounted) :
    s'.Accounted := by
  have hothers : ∀ {te : Tasks.Event}, te ≠ .recvSwarm → te ≠ .sendSwarm →
      Tasks.step D decode w s.tasks te = some s'.tasks → s'.requested = s.requested →
        s'.asked = s.asked → s'.Accounted := by
    intro te hrecv hsend htasks hrequested hasked
    rcases Tasks.swarm_of_step htasks hrecv hsend with hsame | hclosed
    · exact accounted_congr h (congrArg Channel.isOpen hsame)
        (by simp [onWire,hsame,hrequested]) hasked
    · constructor
      · simp [hclosed,Channel.close]
      · refine List.IsPrefix.trans ?_ (hasked ▸ h.order)
        simp [onWire,hclosed,Channel.close,hrequested]
  cases does_of_step hstep with
  | newExternalAddr step => exact hothers (by simp) (by simp) step rfl rfl
  | recvSwarm recv step =>
    cases Tasks.does_of_step step with
    | recvSwarm recv' =>
      cases recv.symm.trans recv'
      obtain ⟨hqueue,-,hopen⟩ := Channel.recv_eq_some.mp recv
      refine accounted_congr h hopen ?_ rfl
      simp [onWire,hqueue]
  | sendSwarm sending step =>
    cases Tasks.does_of_step step with
    | sendSwarm sending' poll _ =>
      cases sending.symm.trans sending'
      rcases Channel.poll_eq_some.mp poll with ⟨hopen,-,rfl⟩ | ⟨hclosed,rfl⟩
      · refine accounted_ask h hopen ?_ (if_pos hopen)
        simp [onWire,Channel.send,Tasks.withNode]
      · exact accounted_congr h rfl rfl (if_neg hclosed)
  | tasks recv send step => exact hothers recv send step rfl rfl

/-- Every event that the coordinator takes in leaves what it received. -/
lemma received_of_step (h : step D decode .client s e = some s') :
    s.tasks.node.engine.coordinator.received ≠ [] →
      s'.tasks.node.engine.coordinator.received ≠ [] := by
  intro hne
  rcases Tasks.engine_of_step (tasks_of_step h) with heq | ⟨ue,dropped,hsteps,-⟩
  · rwa [heq]
  · rw [hsteps.received_eq]
    exact List.append_ne_nil_of_left_ne_nil hne _

lemma gossiped_append {peer : PeerId} (h : Gossiped decode past peer) :
    Gossiped decode (past ++ [e]) peer := by
  obtain ⟨data,hdata,hmem⟩ := h
  exact ⟨data,hdata,List.mem_append_left _ hmem⟩

/-- A hint is the gossip of a peer. -/
lemma gossiped_of_sent {ev : SwarmEvent} {peer : PeerId}
    (h : ev.sent decode = some (.wouldStore peer)) (he : e.task = .swarm ev) :
    Gossiped decode (past ++ [e]) peer := by
  cases ev with
  | gossip source data =>
    simp only [SwarmEvent.sent,SwarmEvent.IsResponse,SwarmEvent.message] at h
    obtain ⟨p,rfl,h⟩ := Option.bind_eq_some_iff.mp h
    obtain ⟨n,hn,hp⟩ := Option.map_eq_some_iff.mp h
    cases hp
    cases e with
    | newExternalAddr => cases he
    | tasks te =>
      cases he
      exact ⟨data,Option.isSome_of_eq_some hn,by simp⟩
  | _ => simp [SwarmEvent.sent,SwarmEvent.IsResponse,SwarmEvent.message] at h

/-- Only the coordinator's send puts a message on the swarm channel. -/
lemma asked_of_step (h : step D decode w s e = some s') : s'.asked = s.asked ∨
    ∃ peers after, s.tasks.node.engine.coordinator.point = .sendSwarm peers after ∧
      s'.asked = s.asked ++ [.requestStoragePermits peers] := by
  cases does_of_step h with
  | sendSwarm sending _ =>
    by_cases hopen : s.tasks.swarm.isOpen = true
    · exact Or.inr ⟨_,_,sending,if_pos hopen⟩
    · exact Or.inl (if_neg hopen)
  | _ => exact Or.inl rfl

/-- Only an external address of a peer goes to the DHT. -/
lemma addresses_of_step (h : step D decode w s e = some s') : s'.addresses =
    s.addresses ++ e.externalAddr?.toList.filter fun a => a.2.isPublic := by
  cases does_of_step h with
  | @newExternalAddr peerId address =>
    by_cases hpublic : address.isPublic <;> simp [Event.externalAddr?,hpublic]
  | _ => exact (List.append_nil _).symm

/-- What the network was told, and what the tasks hold to tell it, comes from the events. -/
structure Sound (D : Deps) (decode : Decode) (past : List Event) (s : Network) : Prop where
  linked : Node.Linked D s.tasks.node
  accounted : s.Accounted
  soliciting : s.tasks.node.engine.coordinator.Soliciting (Gossiped decode past)
  heard : ∀ peer, .wouldStore peer ∈ s.tasks.handler.queue → Gossiped decode past peer
  asked : ∀ msg ∈ s.asked,
    s.tasks.node.engine.coordinator.Solicits (Gossiped decode past) msg.peers
  addresses : s.addresses = (past.filterMap Event.externalAddr?).filter fun a => a.2.isPublic

theorem sound_init (D : Deps) (decode : Decode) (w : Wiring) : Sound D decode [] (init w) where
  linked := Node.linked_init D
  accounted := ⟨fun _ => rfl,List.prefix_refl _⟩
  soliciting := by
    constructor
    · simp [init,Tasks.init,Node.init,Uploads.init,Coordinator.init,Pipeline.new]
    · simp [init,Tasks.init,Node.init,Uploads.init,Coordinator.init]
  heard := by simp [init,Tasks.init,Channel.new]
  asked := by simp [init]
  addresses := rfl

theorem sound_step (hstep : step D decode .client s e = some s') (h : Sound D decode past s) :
    Sound D decode (past ++ [e]) s' := by
  have htasks := tasks_of_step hstep
  have hmore : ∀ peer, Gossiped decode past peer → Gossiped decode (past ++ [e]) peer :=
    fun _ => gossiped_append
  have hsoliciting := h.soliciting.mono hmore
  refine ⟨?_,accounted_step hstep h.accounted,?_,fun peer hpeer => ?_,fun msg hmsg => ?_,?_⟩
  · rcases Tasks.node_of_step htasks with heq | ⟨ne,hnode,-⟩
    · exact heq ▸ h.linked
    · rw [Tasks.nodeStep_client] at hnode
      exact h.linked.step hnode
  · rcases Tasks.engine_of_step htasks with heq | ⟨ue,dropped,hsteps,hhandler,-⟩
    · exact heq ▸ hsoliciting
    · refine hsteps.soliciting h.linked.stored.orderly hsoliciting ?_
      rintro peer rfl
      exact hmore peer (h.heard peer (hhandler _ rfl))
  · rcases Tasks.handler_of_step htasks hpeer with hold | ⟨ev,he,hsent⟩
    · exact hmore peer (h.heard peer hold)
    · exact gossiped_of_sent hsent he
  · have hkept : msg ∈ s.asked → s'.tasks.node.engine.coordinator.Solicits
        (Gossiped decode (past ++ [e])) msg.peers :=
      fun hmem => (h.asked msg hmem).mono hmore (received_of_step hstep)
    rcases asked_of_step hstep with heq | ⟨peers,after,hpoint,heq⟩
    · exact hkept (heq ▸ hmsg)
    · rw [heq] at hmsg
      rcases List.mem_append.mp hmsg with hold | hnew
      · exact hkept hold
      · obtain rfl := List.mem_singleton.mp hnew
        exact (hsoliciting.sending peers after hpoint).mono (fun _ hG => hG)
          (received_of_step hstep)
  · rw [addresses_of_step hstep,h.addresses,List.filterMap_append,List.filter_append]
    cases haddr : e.externalAddr? <;> simp [haddr]

theorem sound_run (hrun : Transition.run (step D decode .client) (init .client) es = some s) :
    Sound D decode es s :=
  Transition.run_past (fun _ _ _ _ hstep h => sound_step hstep h) hrun
    (sound_init D decode .client)

/-- In every run of the client, the requests on the wire are in order those of the messages that
the coordinator sent, without the rest once the swarm task has ended. Each message names some
peers, none of them twice. A request asks for a storage permit, of a peer whose gossip could be
decoded before, and only after a blob has been uploaded. The addresses of peers added to the DHT
are the public ones. -/
theorem requests_solicited
    (hrun : Transition.run (step D decode .client) (init .client) es = some s) :
    (s.requested <+: s.asked.flatMap SwarmMessage.requests ∧
      (s.tasks.swarm.isOpen = true → s.asked.flatMap SwarmMessage.requests =
        s.requested ++ s.tasks.swarm.queue.flatMap SwarmMessage.requests) ∧
      ∀ msg ∈ s.asked, msg.peers ≠ [] ∧ msg.peers.Nodup) ∧
    (∀ peer request, (peer,request) ∈ s.requested →
      request = .storagePermit ∧ Gossiped decode es peer ∧ s.tasks.node.sent ≠ []) ∧
    s.addresses = (es.filterMap Event.externalAddr?).filter fun a => a.2.isPublic := by
  have h := sound_run hrun
  have horder := (List.prefix_append _ _).trans h.accounted.order
  refine ⟨⟨horder,h.accounted.wire,fun msg hmsg => ⟨(h.asked msg hmsg).nonempty,
    (h.asked msg hmsg).nodup⟩⟩,fun peer request hmem => ?_,h.addresses⟩
  obtain ⟨⟨peers⟩,hmsg,hreq⟩ := List.mem_flatMap.mp (horder.subset hmem)
  obtain ⟨p,hp,heq⟩ := List.mem_map.mp hreq
  cases heq
  have hsolicits := h.asked _ hmsg
  obtain ⟨a,ha⟩ := List.exists_mem_of_ne_nil _ hsolicits.uploaded
  obtain ⟨i,hi⟩ := h.linked.origin a ha
  exact ⟨rfl,hsolicits.gossiped peer hp,
    List.ne_nil_of_mem (List.mem_filterMap.mpr ⟨_,hi,rfl⟩)⟩

/-- A peer gossips, a blob is uploaded and taken in, and the peer is asked. -/
def asking : List Event :=
  [.newExternalAddr ⟨[1]⟩ [.ip4 1 2 3 4],.newExternalAddr ⟨[1]⟩ [.ip4 10 0 0 1],
    .tasks (.swarm (.gossip (some ⟨[1]⟩) [0])),.tasks .recvHandler] ++
    (Node.uploadByte 0 blobId 7).map (fun e => .tasks (.node e)) ++
      [.tasks .sendSwarm,.tasks .recvSwarm]

theorem requests_solicited_asking :
    ∃ s, Transition.run (step (Deps.sample 1 Nat.one_pos) List.head? .client) (init .client)
        asking = some s ∧ s.requested = [(⟨[1]⟩,.storagePermit)] ∧
      Gossiped List.head? asking ⟨[1]⟩ ∧ s.addresses = [(⟨[1]⟩,[.ip4 1 2 3 4])] := by
  have hlast : (Transition.run (step (Deps.sample 1 Nat.one_pos) List.head? .client)
      (init .client) asking).map Network.requested = some [(⟨[1]⟩,.storagePermit)] := by decide
  obtain ⟨s,hrun,hreq⟩ := Option.map_eq_some_iff.mp hlast
  obtain ⟨-,hasked,haddresses⟩ := requests_solicited hrun
  obtain ⟨-,hgossip,-⟩ := hasked ⟨[1]⟩ .storagePermit (by simp [hreq])
  exact ⟨s,hrun,hreq,hgossip,haddresses⟩

end Network

end Gozara
