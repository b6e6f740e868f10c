import Gozara.Coordinator.Assignment
import Gozara.Node.Budget
import Gozara.Node.Order
import Gozara.Node.Waiting

/-!
# The client as it is wired

The swarm task never delivers a response, and a storage permit comes in no other message. So
the coordinator of the client has no permit in any state: it starts no upload, announces no
blob and holds for ever what it has taken in, with the permits of its chunks.
-/
namespace Gozara

namespace Coordinator
open Pipeline

/-- No peer has issued a storage permit and no announcement is under way. -/
structure Barren (c : Coordinator) : Prop where
  permits : c.pipeline.storagePermits.entries = []
  point : ∀ msg, c.point ≠ .sendBridge msg

/-- The loop goes on without permits, and nothing was spawned or announced. -/
structure StaysBarren (c : Coordinator) (r : Coordinator × List UploadTask) : Prop where
  barren : r.1.Barren
  spawned : r.2 = []
  announced : r.1.announced = c.announced

variable {c c' : Coordinator} {now : Instant} {i : Input} {eff : Effects} {p : Pipeline}

lemma staysBarren_atHead (c : Coordinator) (hp : p.storagePermits.entries = []) :
    StaysBarren c (c.atHead p,[]) :=
  ⟨⟨hp,fun _ h => by cases h⟩,rfl,rfl⟩

/-- Without permits there is no peer to assign a chunk to. -/
lemma staysBarren_assign (c : Coordinator) (now : Instant) (hp : p.storagePermits.entries = []) :
    StaysBarren c (c.assign now p) := by
  have hidle : p.assignChunks now = (p,[]) :=
    assignChunks_idle (Or.inr (by simp [eligiblePeers,hp]))
  unfold assign
  rw [hidle]
  exact staysBarren_atHead c hp

lemma staysBarren_resume (c : Coordinator) (now : Instant) (after : Resume)
    (hp : p.storagePermits.entries = []) : StaysBarren c (c.resume now p after) := by
  cases after with
  | head => exact staysBarren_atHead c hp
  | assign => exact staysBarren_assign c now hp

lemma staysBarren_settle (c : Coordinator) (now : Instant) (r : Pipeline × Option (List PeerId))
    (after : Resume) (hr : r.1.storagePermits.entries = []) :
    StaysBarren c (c.settle now r after) := by
  unfold settle
  split
  · exact ⟨⟨hr,fun _ h => by cases h⟩,rfl,rfl⟩
  · exact staysBarren_resume c now after hr

lemma permits_requestStoragePermits (now : Instant) (hp : p.storagePermits.entries = []) :
    (p.requestStoragePermits now).1.storagePermits.entries = [] := by
  unfold requestStoragePermits
  split_ifs with hempty
  · exact hp
  · dsimp only
    split_ifs <;> simp [HashMap.retain,hp]

lemma permits_beginNextBlob (now : Instant) (hp : p.storagePermits.entries = []) :
    (p.beginNextBlob now).1.storagePermits.entries = [] := by
  unfold beginNextBlob
  split
  · exact hp
  · split
    · exact hp
    · exact permits_requestStoragePermits now hp

/-- Only a response brings a permit, and only a report ends an upload. -/
theorem staysBarren_of_exec (h : c.exec now i = some (c',eff)) (hc : c.Barren)
    (hresponse : ∀ peerId requestId resp, i ≠ .handler (.response peerId requestId resp))
    (hreport : ∀ hash st, i ≠ .updateChunkStatus hash st) :
    c'.Barren ∧ eff.spawned = [] ∧ c'.announced = c.announced := by
  have hstays : ∀ {r : Coordinator × List UploadTask}, StaysBarren c r →
      r.1.Barren ∧ r.2 = [] ∧ r.1.announced = c.announced := fun h =>
    ⟨h.barren,h.spawned,h.announced⟩
  cases arms_of_exec h with
  | timerStale =>
    refine hstays ?_
    unfold onTimerStale
    dsimp only
    split_ifs
    · exact staysBarren_settle c now _ .head (permits_requestStoragePermits now hc.permits)
    · exact staysBarren_atHead c hc.permits
  | timerAssign => exact hstays (staysBarren_assign c now hc.permits)
  | @handler msg =>
    cases msg with
    | wouldStore peerId => exact hstays (staysBarren_atHead c hc.permits)
    | request => exact hstays (staysBarren_atHead c hc.permits)
    | response peerId requestId resp => exact absurd rfl (hresponse _ _ _)
  | @admission msg =>
    cases msg with
    | getBlob id => exact hstays (staysBarren_atHead c hc.permits)
    | newBlob a =>
      have h := staysBarren_settle { c with received := c.received ++ [a] } now
        ((c.pipeline.addLocalBlob now a).beginNextBlob now) .head
        (permits_beginNextBlob now hc.permits)
      exact ⟨h.barren,h.spawned,h.announced⟩
  | updateChunkStatus => exact absurd rfl (hreport _ _)
  | swarmSend => exact hstays (staysBarren_resume c now _ hc.permits)
  | bridgeSend suspended => exact absurd suspended (hc.point _)
  | stop => exact ⟨⟨rfl,fun _ h => by cases h⟩,rfl,rfl⟩
  | @rehash chunks hints permits p orders =>
    obtain ⟨current,rfl,-⟩ := rehash_spec orders
    refine ⟨⟨?_,hc.point⟩,rfl,rfl⟩
    unfold Pipeline.rehash at orders
    split_ifs at orders with hperm
    have hnil := hperm.2
    rw [hc.permits] at hnil
    exact hnil.eq_nil

end Coordinator

namespace Uploads

/-- Nothing has been uploaded or announced. -/
structure Barren (s : Uploads) : Prop where
  coordinator : s.coordinator.Barren
  tasks : s.tasks = []
  internal : s.internal = []
  acked : s.acked = []
  announced : s.coordinator.announced = []

variable {s s' : Uploads} {e : Event} {dropped : List LocalBlob}

theorem barren_init : Barren init :=
  ⟨⟨rfl,fun _ h => by cases h⟩,rfl,rfl,rfl,rfl⟩

theorem Steps.barren (h : Steps s e s' dropped) (hs : s.Barren)
    (hresponse : ∀ peerId requestId resp,
      e ≠ .input (.handler (.response peerId requestId resp))) : s'.Barren := by
  cases h with
  | tick => exact ⟨hs.coordinator,hs.tasks,hs.internal,hs.acked,hs.announced⟩
  | @loop e i c eff input direct moves exec =>
    have hreport : ∀ hash st, i ≠ .updateChunkStatus hash st := by
      intro hash st hi
      have hint := direct hash st hi
      rw [hs.internal] at hint
      cases hint
    have hi : ∀ peerId requestId resp, i ≠ .handler (.response peerId requestId resp) := by
      rintro peerId requestId resp rfl
      exact hresponse _ _ _ (eq_input_of_inputOf input (by simp))
    obtain ⟨hbarren,hspawned,hann⟩ :=
      Coordinator.staysBarren_of_exec exec hs.coordinator hi hreport
    refine ⟨hbarren,by simp [hs.tasks,hspawned],?_,hs.acked,hann.trans hs.announced⟩
    have hremaining : s.remaining e = [] := by
      unfold remaining
      split <;> simp [hs.internal]
    simp [hremaining]
  | acknowledged task => simp [hs.tasks] at task
  | failed task => simp [hs.tasks] at task
  | timeout task => simp [hs.tasks] at task
  | report task => simp [hs.tasks] at task

end Uploads

namespace SwarmEvent
variable {decode : Decode} {tx : Channel HandlerMessage} {ev : SwarmEvent} {msg : HandlerMessage}

/-- What an event adds to the handler channel is the message that it sends. -/
theorem mem_of_process (h : msg ∈ (ev.process decode tx).queue) :
    msg ∈ tx.queue ∨ ev.sent decode = some msg := by
  have htry : ∀ {new : HandlerMessage}, msg ∈ (tx.trySend new).queue →
      msg ∈ tx.queue ∨ msg = new := by
    intro new hmsg
    unfold Channel.trySend at hmsg
    split_ifs at hmsg
    · exact (List.mem_append.mp hmsg).imp_right List.mem_singleton.mp
    · exact Or.inl hmsg
  cases ev with
  | gossip source data =>
    cases source with
    | none => exact Or.inl h
    | some peerId =>
      cases hdec : decode data with
      | none =>
        simp only [process,hdec] at h
        exact Or.inl h
      | some n =>
        simp only [process,hdec] at h
        refine (htry h).imp_right ?_
        rintro rfl
        simp [sent,message,IsResponse,hdec]
  | request peer requestId req channel =>
    refine (htry h).imp_right ?_
    rintro rfl
    rfl
  | response peer requestId resp => exact Or.inl h
  | other => exact Or.inl h

end SwarmEvent

namespace Node
variable {D : Deps} {s : Node}

lemma inQueue_eq (s : Node) : s.inQueue = (s.queued.map AdmittedBlob.allowance).sum := by
  unfold inQueue queued
  induction s.admission with
  | nil => rfl
  | cons msg rest ih =>
    cases msg <;> simp [ToPipeline.permits,ToPipeline.blob?,List.filterMap_cons,ih]

/-- While the loop runs, the permits of the blobs received are those of the blobs announced
and of those held. -/
lemma sum_received (h : Linked D s) (hrun : s.engine.coordinator.point ≠ .stopped) :
    (s.engine.coordinator.received.map AdmittedBlob.allowance).sum =
      (s.engine.coordinator.announced.map LocalBlob.allowance).sum + s.inBlobs := by
  have hcust := congrArg (fun l => (l.map Manifest.allowance).sum)
    (h.stored.orderly.customers hrun)
  cases hcur : s.engine.coordinator.pipeline.currentBlob <;>
    simpa [ServiceQueue.customers,Coordinator.queue,inBlobs,Coordinator.heldPermits,
      Coordinator.held,hcur,Function.comp_def,LocalBlob.manifest,AdmittedBlob.manifest,
      Nat.add_assoc] using hcust.symm

end Node

namespace Tasks
variable {D : Deps} {decode : Decode} {w : Wiring} {s s' : Tasks} {e : Event}

lemma engine_of_drive {n n' : Node} {ue : Uploads.Event} {admission : List ToPipeline}
    (h : n.drive ue admission = some n') :
    ∃ dropped, Uploads.Steps n.engine ue n'.engine dropped := by
  obtain ⟨⟨u,dropped⟩,hexec,rfl⟩ := Option.map_eq_some_iff.mp h
  exact ⟨dropped,Uploads.steps_of_exec hexec⟩

/-- The coordinator takes a step of its own or none, its handler messages from the channel and
its end only when it is told to. -/
theorem engine_of_step (h : step D decode .client s e = some s') :
    s'.node.engine = s.node.engine ∨
      ∃ ue dropped, Uploads.Steps s.node.engine ue s'.node.engine dropped ∧
        (∀ msg, ue = .input (.handler msg) → msg ∈ s.handler.queue) ∧
          (ue = .input .stop → e = .node (.engine (.input .stop))) := by
  cases does_of_step h with
  | swarm => exact Or.inl rfl
  | recvSwarm => exact Or.inl rfl
  | stopSwarm => exact Or.inl rfl
  | sendSwarm _ _ drive =>
    obtain ⟨dropped,hsteps⟩ := engine_of_drive drive
    exact Or.inr ⟨_,dropped,hsteps,by simp,by simp⟩
  | recvHandler recv drive =>
    obtain ⟨dropped,hsteps⟩ := engine_of_drive drive
    refine Or.inr ⟨_,dropped,hsteps,?_,by simp⟩
    rintro msg' ⟨⟩
    rw [(Channel.recv_eq_some.mp recv).1]
    exact List.mem_cons_self
  | node step handler _ =>
    rw [nodeStep_client] at step
    cases Node.does_of_step step with
    | @drive _ ue _ dropped _ _ event steps =>
      refine Or.inr ⟨ue,dropped,steps,?_,?_⟩
      · rintro msg rfl
        rcases event with ⟨rfl,-⟩ | ⟨-,msg',hmsg⟩ | ⟨-,hsend⟩
        · exact absurd rfl (handler msg)
        · cases hmsg
        · cases hsend
      · rintro rfl
        rcases event with ⟨rfl,-⟩ | ⟨-,msg',hmsg⟩ | ⟨-,hsend⟩
        · rfl
        · cases hmsg
        · cases hsend
    | _ => exact Or.inl rfl

/-- The loop does not start again. -/
lemma running_of_step (h : step D decode .client s e = some s')
    (hrun : s'.node.engine.coordinator.point ≠ .stopped) :
    s.node.engine.coordinator.point ≠ .stopped := by
  rcases engine_of_step h with heq | ⟨ue,dropped,hsteps,-⟩
  · exact heq ▸ hrun
  · exact hsteps.running hrun

lemma handler_withNode (s : Tasks) (n : Node) : (s.withNode n).handler.queue ⊆ s.handler.queue := by
  unfold withNode
  dsimp only
  split_ifs
  · simp [Channel.close]
  · exact fun _ h => h

/-- A message comes to the handler channel from an event of the swarm. -/
theorem handler_of_step (h : step D decode w s e = some s') {msg : HandlerMessage}
    (hmsg : msg ∈ s'.handler.queue) :
    msg ∈ s.handler.queue ∨ ∃ ev, e = .swarm ev ∧ ev.sent decode = some msg := by
  cases does_of_step h with
  | swarm => exact (SwarmEvent.mem_of_process hmsg).imp_right fun hsent => ⟨_,rfl,hsent⟩
  | recvSwarm => exact Or.inl hmsg
  | stopSwarm => exact Or.inl hmsg
  | sendSwarm => exact Or.inl (handler_withNode _ _ hmsg)
  | recvHandler recv _ =>
    rw [(Channel.recv_eq_some.mp recv).1]
    exact Or.inl (List.mem_cons_of_mem _ (handler_withNode _ _ hmsg))
  | node => exact Or.inl (handler_withNode _ _ hmsg)

/-- No response is on its way, and nothing was uploaded. -/
structure Unanswered (s : Tasks) : Prop where
  engine : s.node.engine.Barren
  queue : ∀ msg ∈ s.handler.queue, ∀ peerId requestId resp,
    msg ≠ .response peerId requestId resp

theorem unanswered_step (hstep : step D decode .client s e = some s') (h : Unanswered s) :
    Unanswered s' := by
  refine ⟨?_,fun msg hmsg => ?_⟩
  · rcases engine_of_step hstep with heq | ⟨ue,dropped,hsteps,hhandler,-⟩
    · exact heq ▸ h.engine
    · refine hsteps.barren h.engine ?_
      rintro peerId requestId resp rfl
      exact h.queue _ (hhandler _ rfl) _ _ _ rfl
  · rcases handler_of_step hstep hmsg with hold | ⟨ev,-,hsent⟩
    · exact h.queue msg hold
    · exact Client.ne_response_of_sent hsent

/-- The client with its four channels stores nothing. In every state of every run, whatever
the swarm delivers, no peer has issued a permit, no upload was started or acknowledged, and
no key is reported stored. While the loop runs, all blobs that were sent are held or queued
in order, and their permits never come back: together with those of live handlers and those
available they are the whole budget. -/
theorem nothing_stored {es : List Event}
    (hrun : Transition.run (step D decode .client) (init .client) es = some s) :
    (s.node.engine.coordinator.pipeline.storagePermits.entries = [] ∧ s.node.engine.tasks = [] ∧
      s.node.engine.acked = [] ∧ ∀ k, ¬s.node.Finalized k) ∧
    (s.node.engine.coordinator.point ≠ .stopped →
      s.node.sent.map AdmittedBlob.id = s.node.engine.coordinator.held.map LocalBlob.id ++
        s.node.queued.map AdmittedBlob.id ∧
      (s.node.sent.map AdmittedBlob.allowance).sum+s.node.inHandlers+s.node.budget =
        totalChunkBudget) := by
  have hun : Unanswered s := Transition.run_preserves (fun _ _ _ h hs => unanswered_step h hs) hrun
    ⟨Uploads.barren_init,by simp [init,Channel.new]⟩
  obtain ⟨fs,hnode⟩ := node_run hrun
  obtain ⟨done,hline⟩ := Node.inLine_run hnode
  have hlinked := hline.counted.linked
  have hann := hun.engine.announced
  have hdone : done = [] := by
    have happlied := hline.applied
    rw [hann] at happlied
    exact List.prefix_nil.mp happlied
  refine ⟨⟨hun.engine.coordinator.permits,hun.engine.tasks,hun.engine.acked,fun k hk => ?_⟩,
    fun hpoint => ?_⟩
  · have hmem := ((hline.reported k).mp hk).1
    rw [hdone] at hmem
    cases hmem
  · have hsent := hline.arrived hpoint
    have hids := Node.received_eq hlinked hpoint
    rw [hann,List.map_nil,List.nil_append] at hids
    refine ⟨by rw [hsent,List.map_append,hids],?_⟩
    have hsum := Node.conserved_run hnode
    have hblobs := Node.sum_received hlinked hpoint
    rw [hann,List.map_nil,List.sum_nil,Nat.zero_add] at hblobs
    rw [hsent,List.map_append,List.sum_append,← Node.inQueue_eq,hblobs]
    omega

/-- A peer gossips, a blob is uploaded and taken in, and a permit arrives at the swarm task. -/
def answered : List Event :=
  [.swarm (.gossip (some ⟨[1]⟩) [0]),.recvHandler] ++
    (Node.uploadByte 0 blobId 7).map .node ++
      [.sendSwarm,.recvSwarm,.swarm (.response ⟨[1]⟩ 0 (.issuedStoragePermit 60)),
        .node (.engine (.input (.timerAssign)))]

theorem nothing_stored_answered :
    ∃ s, Transition.run (step (Deps.sample 1 Nat.one_pos) List.head? .client) (init .client)
        answered = some s ∧ s.node.engine.coordinator.point ≠ .stopped ∧
      s.node.engine.tasks = [] ∧
        (s.node.sent.map AdmittedBlob.allowance).sum+s.node.inHandlers+s.node.budget =
          totalChunkBudget := by
  have hlast : (Transition.run (step (Deps.sample 1 Nat.one_pos) List.head? .client)
      (init .client) answered).map (fun s => s.node.engine.coordinator.point) =
      some .head := by decide
  obtain ⟨s,hrun,hpoint⟩ := Option.map_eq_some_iff.mp hlast
  have hloop : s.node.engine.coordinator.point ≠ .stopped := by simp [hpoint]
  obtain ⟨⟨-,htasks,-,-⟩,hheld⟩ := nothing_stored hrun
  exact ⟨s,hrun,hloop,htasks,(hheld hloop).2⟩

end Tasks

end Gozara
