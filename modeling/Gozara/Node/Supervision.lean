import Gozara.Node.Ended
import Gozara.Node.Wired

/-!
# Who ends the tasks

`run` of the client starts the loops one after another and returns when a call of the start
fails or the first loop has ended; the bridge has a task that watches over its HTTP server and
its message loop. All of them look at one cancellation token, which a signal, `run` or the task
of the bridge cancels. Nothing ends without a cause. A start that fails cancels nothing.
-/
namespace Gozara

inductive Loop
  | swarm
  | coordinator
  | server
  /-- The message loop of the bridge. -/
  | updates
  deriving DecidableEq

/-- The calls of the start that can fail. `process_swarm` always returns `Ok`. -/
inductive StartCall
  | goPublic
  /-- The two calls of `accept` in `run` of the coordinator. -/
  | acceptPushes
  | acceptPulls
  /-- `TcpListener::bind` in `run` of the bridge. -/
  | bind
  deriving DecidableEq

namespace StartCall

/-- The call that comes after. -/
def next : StartCall → Option StartCall
  | goPublic => some acceptPushes
  | acceptPushes => some acceptPulls
  | acceptPulls => some bind
  | bind => none

/-- The loops that are not spawned before the call has returned. -/
def unstarted : StartCall → List Loop
  | goPublic => [.swarm,.coordinator,.server,.updates]
  | acceptPushes | acceptPulls => [.coordinator,.server,.updates]
  | bind => [.server,.updates]

end StartCall

/-- The handles that `run` of the client waits for. -/
inductive RunHandle
  | swarm
  | coordinator
  | bridge
  deriving DecidableEq

/-- The errors of `run`: that of a call of the start, or that a task panicked. -/
inductive RunError
  | start (c : StartCall)
  | panicked (h : RunHandle)
  deriving DecidableEq

structure Supervised where
  tasks : Tasks
  /-- The call of the start that is made next. -/
  starting : Option StartCall
  cancelled : Bool
  /-- The task of `axum::serve`. -/
  serving : Bool
  /-- The task of the bridge that waits for the server and the message loop. -/
  watching : Bool
  panicked : List Loop
  /-- What `run` has returned. -/
  exit : Option (Except RunError Unit)

/-- The loop of a handle. The task of the bridge only logs the panics of its own two. -/
def RunHandle.loop : RunHandle → Option Loop
  | .swarm => some .swarm
  | .coordinator => some .coordinator
  | .bridge => none

namespace Tasks

/-- The ends of the three loops, which have causes here. -/
def Event.isStop : Event → Bool
  | .stopSwarm | .node .stopUpdates | .node (.engine (.input .stop)) => true
  | _ => false

def Event.isRequest : Event → Bool
  | .node (.request _) => true
  | _ => false

lemma Event.not_request_of_stop {e : Event} (h : e.isStop = true) : e.isRequest = false := by
  cases e with
  | node ne =>
    cases ne with
    | request r => cases h
    | _ => rfl
  | _ => rfl

/-- The loop that takes a step, or whose tasks do. The clock is nobody's. -/
def Event.loop : Event → Option Loop
  | .swarm _ | .recvSwarm | .stopSwarm => some .swarm
  | .node (.request _) | .node (.act _ _) | .node .orphanDone => some .server
  | .node .recvUpdate | .node .stopUpdates => some .updates
  | .node (.engine (.tick _)) => none
  | .sendSwarm | .recvHandler | .node _ => some .coordinator

end Tasks

namespace Supervised

inductive Event
  /-- Of `shutdown_signal`. -/
  | signal
  | tasks (e : Tasks.Event)
  | stop (l : Loop)
  | panic (l : Loop)
  /-- The `select!` of the task of the bridge. -/
  | watch
  /-- The `select!` of `run` of the client. -/
  | join (h : RunHandle)
  /-- A call of the start returns. -/
  | start (c : StartCall) (ok : Bool)
  deriving DecidableEq

/-- Before `go_public`. A loop that is not spawned yet has not ended. -/
def init : Supervised := ⟨Tasks.init .client,some .goPublic,false,true,true,[],none⟩

def point (s : Supervised) : Point := s.tasks.node.engine.coordinator.point

/-- The loop has been spawned, if the start got so far. -/
def Started (s : Supervised) (l : Loop) : Prop := ∀ c ∈ s.starting, l ∉ c.unstarted

instance (s : Supervised) (l : Loop) : Decidable (s.Started l) :=
  inferInstanceAs (Decidable (∀ c ∈ s.starting, l ∉ c.unstarted))

/-- A loop has left its `select!`: the token is cancelled, or a channel of it is closed and empty.
The handlers hold the admission channel, also when the server has panicked. The server waits for
them first. -/
def Cause (s : Supervised) : Loop → Prop
  | .swarm => s.cancelled = true ∨ s.point = .stopped ∧ s.tasks.swarm.queue = []
  | .coordinator => s.cancelled = true ∨ s.tasks.swarm.isOpen = false ∧ s.tasks.handler.queue = [] ∨
      (s.serving = false ∧ ∀ t ∈ s.tasks.node.bridge.threads, t.Ended) ∧ s.tasks.node.admission = []
  | .server => s.cancelled = true ∧ ∀ t ∈ s.tasks.node.bridge.threads, t.Ended
  | .updates => s.cancelled = true ∨ s.point = .stopped ∧ s.tasks.node.updates = []

/-- The task of a handle has ended. -/
def Over (s : Supervised) : RunHandle → Prop
  | .swarm => s.tasks.swarm.isOpen = false
  | .coordinator => s.point = .stopped
  | .bridge => s.watching = false

instance (s : Supervised) : ∀ h, Decidable (s.Over h)
  | .swarm => inferInstanceAs (Decidable (s.tasks.swarm.isOpen = false))
  | .coordinator => inferInstanceAs (Decidable (s.point = .stopped))
  | .bridge => inferInstanceAs (Decidable (s.watching = false))

instance (t : Handler) : Decidable t.Ended := decidable_of_iff _ Handler.ended_iff_work.symm

instance (s : Supervised) : ∀ l, Decidable (s.Cause l)
  | .swarm => inferInstanceAs (Decidable (s.cancelled = true ∨ s.point = .stopped ∧
      s.tasks.swarm.queue = []))
  | .coordinator => inferInstanceAs (Decidable (s.cancelled = true ∨
      s.tasks.swarm.isOpen = false ∧ s.tasks.handler.queue = [] ∨
        (s.serving = false ∧ ∀ t ∈ s.tasks.node.bridge.threads, t.Ended) ∧
          s.tasks.node.admission = []))
  | .server =>
    inferInstanceAs (Decidable (s.cancelled = true ∧ ∀ t ∈ s.tasks.node.bridge.threads, t.Ended))
  | .updates => inferInstanceAs (Decidable (s.cancelled = true ∨ s.point = .stopped ∧
      s.tasks.node.updates = []))

/-- What `run` makes of the result of a task. -/
def joined (s : Supervised) (h : RunHandle) : Except RunError Unit :=
  if ∃ l ∈ h.loop, l ∈ s.panicked then .error (.panicked h) else .ok ()

variable (D : Deps) (decode : Decode)

/-- A loop ends. -/
def halt (s : Supervised) : Loop → Option Supervised
  | .swarm => (Tasks.step D decode .client s.tasks .stopSwarm).map fun t => { s with tasks := t }
  | .coordinator => (Tasks.step D decode .client s.tasks (.node (.engine (.input .stop)))).map
      fun t => { s with tasks := t }
  | .server => if s.serving = true then some { s with serving := false } else none
  | .updates => (Tasks.step D decode .client s.tasks (.node .stopUpdates)).map
      fun t => { s with tasks := t }

/-- A call of the start fails. The futures of the other calls are dropped, and with them the ends
of the channels that the loops not yet spawned would hold; nobody cancels the token. -/
def abort (s : Supervised) (c : StartCall) : Option Supervised :=
  (Transition.run (halt D decode) s c.unstarted).map fun t => { t with
    starting := none
    watching := false
    exit := some (.error (.start c)) }

def step (s : Supervised) : Event → Option Supervised
  | .signal => some { s with cancelled := true }
  | .tasks e =>
    if e.isStop = false ∧ (∀ l ∈ e.loop, s.Started l) ∧ (e.isRequest = true → s.serving = true) then
      (Tasks.step D decode .client s.tasks e).map fun t => { s with tasks := t }
    else none
  | .stop l => if s.Started l ∧ s.Cause l then s.halt D decode l else none
  | .panic l =>
    if s.Started l then (s.halt D decode l).map fun t => { t with panicked := t.panicked ++ [l] }
    else none
  | .watch =>
    if s.watching = true ∧ (s.serving = false ∨ s.tasks.node.updating = false) then
      some { s with cancelled := true,watching := false }
    else none
  | .join h =>
    if (s.starting = none ∧ s.exit = none) ∧ s.Over h then
      some { s with
        cancelled := true
        exit := some (s.joined h) }
    else none
  | .start c ok =>
    if s.starting = some c then
      if ok then some { s with starting := c.next } else s.abort D decode c
    else none

/-- The loop has ended, or never will start. -/
def Halted (s : Supervised) : Loop → Prop
  | .swarm => s.tasks.swarm.isOpen = false
  | .coordinator => s.point = .stopped
  | .server => s.serving = false
  | .updates => s.tasks.node.updating = false

/-- Nothing has ended, and nothing has been told to end. -/
structure Alive (s : Supervised) : Prop where
  swarm : s.tasks.swarm.isOpen = true
  coordinator : s.point ≠ .stopped
  server : s.serving = true
  updates : s.tasks.node.updating = true
  watching : s.watching = true
  token : s.cancelled = false
  running : s.exit = none

/-- Everything but `run` has ended, the handlers included. -/
structure Down (s : Supervised) : Prop where
  swarm : s.tasks.swarm.isOpen = false
  coordinator : s.point = .stopped
  server : s.serving = false
  updates : s.tasks.node.updating = false
  watching : s.watching = false
  handlers : ∀ t ∈ s.tasks.node.bridge.threads, t.Ended

end Supervised

namespace Uploads
variable {s s' : Uploads} {e : Event} {dropped : List LocalBlob}

/-- Nothing else ends the loop. -/
lemma Steps.runs_on (h : Steps s e s' dropped) (hne : e ≠ .input .stop)
    (hrun : s.coordinator.point ≠ .stopped) : s'.coordinator.point ≠ .stopped := by
  cases h with
  | @loop e i c eff input direct moves exec =>
    have hi : i ≠ .stop := by
      rintro rfl
      exact hne (eq_input_of_inputOf input (by simp))
    exact (moves.not_stopped hi).mp hrun
  | _ => exact hrun

end Uploads

namespace Node
variable {D : Deps} {start s s' : Node} {e : Event}

/-- No request has come, and nothing from one. -/
structure Unserved (s : Node) : Prop where
  threads : s.bridge.threads = []
  admission : s.admission = []

/-- Only a request starts a handler. -/
lemma unserved_of_step (h : Node.step D s e = some s') (he : ∀ r, e ≠ .request r)
    (hs : s.Unserved) : s'.Unserved := by
  have hthreads : ∀ {be : Bridge.Event} {b : Bridge}, Bridge.step D s.bridge be = some b →
      (∀ r, be ≠ .spawn r) → b.threads = [] := by
    intro be b hb hspawn
    cases be with
    | spawn r => exact absurd rfl (hspawn r)
    | act i a =>
      obtain ⟨t,sh,t',ht,-,-⟩ := Pool.step_act_eq_some.mp hb
      simp [hs.threads] at ht
    | env g =>
      obtain ⟨sh,-,rfl⟩ := Pool.step_env_eq_some.mp hb
      exact hs.threads
  cases does_of_step h with
  | bridge hb event =>
    refine ⟨hthreads hb ?_,hs.admission⟩
    rintro r rfl
    rcases event with ⟨r',rfl,-⟩ | ⟨i,a,-,ha⟩ | ⟨-,ho⟩
    · exact he r' rfl
    · cases ha
    · cases ho
  | enqueue _ _ handler => simp [hs.threads] at handler
  | update _ _ hb => exact ⟨hthreads hb (by simp),hs.admission⟩
  | stopUpdates => exact ⟨hs.threads,hs.admission⟩
  | drive _ _ source =>
    refine ⟨hs.threads,?_⟩
    rcases source with ⟨msg,-,hq⟩ | ⟨-,rfl⟩
    · simp [hs.admission] at hq
    · simp [hs.admission]

end Node

namespace Tasks
variable {D : Deps} {decode : Decode} {s s' : Tasks} {e : Event}

/-- Only its end closes the swarm channel. -/
lemma isOpen_of_step (h : step D decode .client s e = some s') (hne : e.isStop = false) :
    s'.swarm.isOpen = s.swarm.isOpen := by
  cases does_of_step h with
  | recvSwarm recv => exact (Channel.recv_eq_some.mp recv).2.2
  | stopSwarm => cases hne
  | sendSwarm _ poll _ =>
    rcases Channel.poll_eq_some.mp poll with ⟨-,-,rfl⟩ | ⟨-,rfl⟩ <;> rfl
  | _ => rfl

lemma updating_of_does {n n' : Node} {ne : Node.Event} (h : Node.Does D n ne n')
    (hne : ne ≠ .stopUpdates) : n'.updating = n.updating := by
  cases h with
  | stopUpdates => exact absurd rfl hne
  | _ => rfl

/-- Nor does the message loop end otherwise. -/
lemma updating_of_step (h : step D decode .client s e = some s') (hne : e.isStop = false) :
    s'.node.updating = s.node.updating := by
  rcases node_of_step h with hsame | ⟨ne,hnode,hevent⟩
  · rw [hsame]
  · rw [nodeStep_client] at hnode
    refine updating_of_does (Node.does_of_step hnode) ?_
    rintro rfl
    rcases hevent with rfl | hsend | ⟨msg,hmsg⟩
    · cases hne
    · cases hsend
    · cases hmsg

/-- A swarm task that has ended does not come back. -/
lemma closed_of_step (h : step D decode .client s e = some s') (hs : s.swarm.isOpen = false) :
    s'.swarm.isOpen = false := by
  cases does_of_step h with
  | recvSwarm recv => exact (Channel.recv_eq_some.mp recv).2.2.trans hs
  | stopSwarm => rfl
  | sendSwarm _ poll _ =>
    rcases Channel.poll_eq_some.mp poll with ⟨hopen,-,-⟩ | ⟨-,rfl⟩
    · rw [hs] at hopen
      cases hopen
    · exact hs
  | _ => exact hs

lemma not_updating_of_does {n n' : Node} {ne : Node.Event} (h : Node.Does D n ne n')
    (hn : n.updating = false) : n'.updating = false := by
  cases h with
  | stopUpdates => rfl
  | _ => exact hn

/-- Nor does a message loop. -/
lemma not_updating_of_step (h : step D decode .client s e = some s')
    (hs : s.node.updating = false) : s'.node.updating = false := by
  rcases node_of_step h with hsame | ⟨ne,hnode,-⟩
  · rw [hsame]
    exact hs
  · rw [nodeStep_client] at hnode
    exact not_updating_of_does (Node.does_of_step hnode) hs

lemma unserved_of_step (h : step D decode .client s e = some s') (he : e.isRequest = false)
    (hs : s.node.Unserved) : s'.node.Unserved := by
  rcases node_of_step h with hsame | ⟨ne,hnode,hevent⟩
  · exact hsame ▸ hs
  · rw [nodeStep_client] at hnode
    refine Node.unserved_of_step hnode ?_ hs
    rintro r rfl
    rcases hevent with rfl | hsend | ⟨msg,hmsg⟩
    · cases he
    · cases hsend
    · cases hmsg

/-- The end of the coordinator's loop. -/
lemma stopped_of_stop (h : step D decode .client s (.node (.engine (.input .stop))) = some s') :
    s'.node.engine.coordinator.point = .stopped := by
  obtain ⟨n,hn,rfl⟩ := Option.map_eq_some_iff.mp (nodeStep_of_step h)
  obtain ⟨⟨u,dropped⟩,hexec,rfl⟩ := Option.map_eq_some_iff.mp hn
  obtain ⟨r,hr,heq⟩ := Option.map_eq_some_iff.mp hexec
  cases heq
  simp only [Coordinator.exec] at hr
  split at hr
  · cases hr
    rfl
  · cases hr

/-- The end of the message loop. -/
lemma not_updating_of_stop (h : step D decode .client s (.node .stopUpdates) = some s') :
    s'.node.updating = false := by
  obtain ⟨n,hn,rfl⟩ := Option.map_eq_some_iff.mp (nodeStep_of_step h)
  simp only [nodeStep,Node.step] at hn
  split_ifs at hn
  cases hn
  rfl

/-- The loop of the coordinator runs on. -/
lemma runs_on_of_step (h : step D decode .client s e = some s') (hne : e.isStop = false)
    (hrun : s.node.engine.coordinator.point ≠ .stopped) :
    s'.node.engine.coordinator.point ≠ .stopped := by
  rcases engine_of_step h with heq | ⟨ue,dropped,hsteps,-,hstop⟩
  · exact heq ▸ hrun
  · refine hsteps.runs_on ?_ hrun
    intro hue
    rw [hstop hue] at hne
    cases hne

end Tasks

namespace Supervised
variable {D : Deps} {decode : Decode} {s s' : Supervised} {e : Event} {es : List Event}

/-- A signal, a panic or a start that fails. -/
def Event.Upsets : Event → Prop
  | .signal | .panic _ | .start _ false => True
  | _ => False

/-- What an event does. -/
inductive Does (D : Deps) (decode : Decode) (s : Supervised) : Event → Supervised → Prop
  | signal : Does D decode s .signal { s with cancelled := true }
  | tasks {e : Tasks.Event} {t : Tasks} (plain : e.isStop = false)
      (started : ∀ l ∈ e.loop, s.Started l) (accepted : e.isRequest = true → s.serving = true)
      (step : Tasks.step D decode .client s.tasks e = some t) :
      Does D decode s (.tasks e) { s with tasks := t }
  | stop {l : Loop} {t : Supervised} (started : s.Started l) (cause : s.Cause l)
      (halt : s.halt D decode l = some t) : Does D decode s (.stop l) t
  | panic {l : Loop} {t : Supervised} (started : s.Started l) (halt : s.halt D decode l = some t) :
      Does D decode s (.panic l) { t with panicked := t.panicked ++ [l] }
  | watch (watching : s.watching = true)
      (ended : s.serving = false ∨ s.tasks.node.updating = false) :
      Does D decode s .watch { s with cancelled := true,watching := false }
  | join {h : RunHandle} (begun : s.starting = none) (running : s.exit = none) (ended : s.Over h) :
      Does D decode s (.join h) { s with cancelled := true,exit := some (s.joined h) }
  | returned {c : StartCall} (call : s.starting = some c) :
      Does D decode s (.start c true) { s with starting := c.next }
  | failed {c : StartCall} {t : Supervised} (call : s.starting = some c)
      (halts : Transition.run (halt D decode) s c.unstarted = some t) :
      Does D decode s (.start c false) { t with
        starting := none
        watching := false
        exit := some (.error (.start c)) }

theorem does_of_step (h : step D decode s e = some s') : Does D decode s e s' := by
  cases e with
  | signal =>
    cases h
    exact .signal
  | tasks e =>
    simp only [step] at h
    split_ifs at h with hcond
    obtain ⟨t,ht,rfl⟩ := Option.map_eq_some_iff.mp h
    exact .tasks hcond.1 hcond.2.1 hcond.2.2 ht
  | stop l =>
    simp only [step] at h
    split_ifs at h with hcond
    exact .stop hcond.1 hcond.2 h
  | panic l =>
    simp only [step] at h
    split_ifs at h with hstarted
    obtain ⟨t,ht,rfl⟩ := Option.map_eq_some_iff.mp h
    exact .panic hstarted ht
  | watch =>
    simp only [step] at h
    split_ifs at h with hcond
    cases h
    exact .watch hcond.1 hcond.2
  | join j =>
    simp only [step] at h
    split_ifs at h with hcond
    cases h
    exact .join hcond.1.1 hcond.1.2 hcond.2
  | start c ok =>
    simp only [step] at h
    split_ifs at h with hcall hok
    · subst hok
      cases h
      exact .returned hcall
    · obtain rfl := Bool.eq_false_of_not_eq_true hok
      obtain ⟨t,ht,rfl⟩ := Option.map_eq_some_iff.mp h
      exact .failed hcall ht

/-- As long as everything runs there is no cause for an end. -/
theorem alive_step (h : step D decode s e = some s') (he : ¬e.Upsets) (hs : s.Alive) :
    s'.Alive := by
  obtain ⟨hswarm,hcoord,hserver,hupdates,hwatching,htoken,hexit⟩ := hs
  cases does_of_step h with
  | signal => exact absurd trivial he
  | panic => exact absurd trivial he
  | failed => exact absurd trivial he
  | returned => exact ⟨hswarm,hcoord,hserver,hupdates,hwatching,htoken,hexit⟩
  | tasks plain _ _ step =>
    exact ⟨(Tasks.isOpen_of_step step plain).trans hswarm,Tasks.runs_on_of_step step plain hcoord,
      hserver,(Tasks.updating_of_step step plain).trans hupdates,hwatching,htoken,hexit⟩
  | @stop l _ _ cause => cases l <;> simp [Cause,htoken,hcoord,hswarm,hserver] at cause
  | watch _ ended => simp [hserver,hupdates] at ended
  | @join j _ _ hover => cases j <;> simp [Over,hswarm,hcoord,hwatching] at hover

/-- The end of a loop is an end in the tasks, or of the server. -/
lemma tasks_of_halt {l : Loop} (h : s.halt D decode l = some s') : s'.tasks = s.tasks ∨
    ∃ te, te.isStop = true ∧ Tasks.step D decode .client s.tasks te = some s'.tasks := by
  cases l with
  | server =>
    simp only [halt] at h
    split_ifs at h
    cases h
    exact Or.inl rfl
  | _ =>
    obtain ⟨t,ht,rfl⟩ := Option.map_eq_some_iff.mp h
    exact Or.inr ⟨_,rfl,ht⟩

/-- What the end of a loop leaves. -/
structure Kept (s s' : Supervised) : Prop where
  starting : s'.starting = s.starting
  cancelled : s'.cancelled = s.cancelled
  watching : s'.watching = s.watching
  panicked : s'.panicked = s.panicked
  exit : s'.exit = s.exit

lemma kept_of_halt {l : Loop} (h : s.halt D decode l = some s') : Kept s s' := by
  cases l with
  | server =>
    simp only [halt] at h
    split_ifs at h
    cases h
    exact ⟨rfl,rfl,rfl,rfl,rfl⟩
  | _ =>
    obtain ⟨t,-,rfl⟩ := Option.map_eq_some_iff.mp h
    exact ⟨rfl,rfl,rfl,rfl,rfl⟩

lemma kept_of_halts {ls : List Loop} (h : Transition.run (halt D decode) s ls = some s') :
    Kept s s' :=
  Transition.run_preserves (P := fun t => Kept s t) (fun _ _ _ ht hs => by
    have hkept := kept_of_halt ht
    exact ⟨hkept.starting.trans hs.starting,hkept.cancelled.trans hs.cancelled,
      hkept.watching.trans hs.watching,hkept.panicked.trans hs.panicked,hkept.exit.trans hs.exit⟩)
    h ⟨rfl,rfl,rfl,rfl,rfl⟩

lemma tasks_of_halts {ls : List Loop} (h : Transition.run (halt D decode) s ls = some s') :
    ∃ fs, Transition.run (Tasks.step D decode .client) s.tasks fs = some s'.tasks := by
  refine Transition.run_project Supervised.tasks (fun s l t ht => ?_) h
  rcases tasks_of_halt ht with heq | ⟨te,-,htasks⟩
  · exact Transition.stutter heq
  · exact Transition.single htasks

/-- A step of the tasks leaves the loops ended that have. -/
lemma Halted.of_tasks {l : Loop} {te : Tasks.Event} (h : s.Halted l)
    (htasks : Tasks.step D decode .client s.tasks te = some s'.tasks)
    (hserving : s'.serving = s.serving) : s'.Halted l := by
  cases l with
  | swarm => exact Tasks.closed_of_step htasks h
  | coordinator =>
    by_contra hrun
    exact Tasks.running_of_step htasks hrun h
  | server => exact hserving.trans h
  | updates => exact Tasks.not_updating_of_step htasks h

/-- So does the end of another loop. -/
lemma Halted.of_halt {k l : Loop} (h : s.Halted k) (hl : s.halt D decode l = some s') :
    s'.Halted k := by
  cases l with
  | server =>
    simp only [halt] at hl
    split_ifs at hl
    cases hl
    cases k with
    | server => rfl
    | _ => exact h
  | _ =>
    obtain ⟨t,ht,rfl⟩ := Option.map_eq_some_iff.mp hl
    exact h.of_tasks ht rfl

lemma Halted.of_halts {k : Loop} {ls : List Loop} (h : s.Halted k)
    (hls : Transition.run (halt D decode) s ls = some s') : s'.Halted k :=
  Transition.run_preserves (P := fun t => t.Halted k) (fun _ _ _ ht hs => hs.of_halt ht) hls h

lemma halted_of_halt {l : Loop} (h : s.halt D decode l = some s') : s'.Halted l := by
  cases l with
  | swarm =>
    obtain ⟨t,ht,rfl⟩ := Option.map_eq_some_iff.mp h
    cases Tasks.does_of_step ht with
    | stopSwarm => rfl
  | coordinator =>
    obtain ⟨t,ht,rfl⟩ := Option.map_eq_some_iff.mp h
    exact Tasks.stopped_of_stop ht
  | server =>
    simp only [halt] at h
    split_ifs at h
    cases h
    rfl
  | updates =>
    obtain ⟨t,ht,rfl⟩ := Option.map_eq_some_iff.mp h
    exact Tasks.not_updating_of_stop ht

lemma halted_of_halts {k : Loop} {ls : List Loop} (hk : k ∈ ls)
    (h : Transition.run (halt D decode) s ls = some s') : s'.Halted k := by
  obtain ⟨ks,ms,rfl⟩ := List.append_of_mem hk
  obtain ⟨t,-,hrest⟩ := Transition.run_append_eq_some.mp h
  obtain ⟨u,hu,hlast⟩ := Transition.run_cons_eq_some.mp hrest
  exact (halted_of_halt hu).of_halts hlast

/-- Every event but a failed call is one of the tasks or leaves them as they are. -/
theorem tasks_of_step (h : step D decode s e = some s') (he : ∀ c, e ≠ .start c false) :
    s'.tasks = s.tasks ∨ ∃ te, (te.isStop = true ∨ e = .tasks te) ∧
      Tasks.step D decode .client s.tasks te = some s'.tasks := by
  have hhalt : ∀ {l : Loop} {t : Supervised}, s.halt D decode l = some t → t.tasks = s.tasks ∨
      ∃ te, (te.isStop = true ∨ e = .tasks te) ∧
        Tasks.step D decode .client s.tasks te = some t.tasks := fun ht =>
    (tasks_of_halt ht).imp_right fun ⟨te,hstop,hte⟩ => ⟨te,Or.inl hstop,hte⟩
  cases does_of_step h with
  | tasks _ _ _ step => exact Or.inr ⟨_,Or.inr rfl,step⟩
  | stop _ _ halt => exact hhalt halt
  | panic _ halt =>
    have htasks := hhalt halt
    exact htasks
  | failed => exact absurd rfl (he _)
  | _ => exact Or.inl rfl

/-- A supervised run is a run of the tasks. -/
theorem tasks_run (hrun : Transition.run (step D decode) init es = some s) :
    ∃ fs, Transition.run (Tasks.step D decode .client) (Tasks.init .client) fs = some s.tasks := by
  refine Transition.run_project Supervised.tasks (fun s e t h => ?_) hrun
  by_cases he : ∀ c, e ≠ .start c false
  · rcases tasks_of_step h he with heq | ⟨te,-,htasks⟩
    · exact Transition.stutter heq
    · exact Transition.single htasks
  · push Not at he
    obtain ⟨c,rfl⟩ := he
    cases does_of_step h with
    | failed _ halts =>
      have htasks := tasks_of_halts halts
      exact htasks

/-- A loop that has ended has ended for good. -/
lemma Halted.of_step {l : Loop} (h : s.Halted l) (hstep : step D decode s e = some s') :
    s'.Halted l := by
  cases does_of_step hstep with
  | tasks _ _ _ step => exact h.of_tasks step rfl
  | stop _ _ halt => exact h.of_halt halt
  | panic _ halt =>
    have hl := h.of_halt halt
    cases l <;> exact hl
  | failed _ halts =>
    have hl := h.of_halts halts
    cases l <;> exact hl
  | _ => cases l <;> exact h

/-- Who is to blame for what `run` returns, and for the cancellation. -/
structure Blamed (past : List Event) (s : Supervised) : Prop where
  panicked : ∀ l ∈ s.panicked, .panic l ∈ past
  exit : ∀ h, s.exit = some (.error (.panicked h)) → ∃ l ∈ h.loop, l ∈ s.panicked

lemma Blamed.congr {past past' : List Event} (h : Blamed past s) (hpast : past ⊆ past')
    (hpanicked : s'.panicked = s.panicked) (hexit : s'.exit = s.exit) : Blamed past' s' := by
  refine ⟨fun l hl => hpast (h.panicked l (hpanicked ▸ hl)),fun j hj => ?_⟩
  rw [hpanicked]
  exact h.exit j (hexit ▸ hj)

theorem blamed_step {past : List Event} (hstep : step D decode s e = some s')
    (h : Blamed past s) : Blamed (past ++ [e]) s' := by
  have hpast : past ⊆ past ++ [e] := List.subset_append_left _ _
  cases does_of_step hstep with
  | stop _ _ halt =>
    have hkept := kept_of_halt halt
    exact h.congr hpast hkept.panicked hkept.exit
  | panic _ halt =>
    have hkept := kept_of_halt halt
    refine ⟨fun k hk => ?_,fun j hj => ?_⟩
    · rcases List.mem_append.mp hk with hk | hk
      · exact hpast (h.panicked k (hkept.panicked ▸ hk))
      · rw [List.mem_singleton.mp hk]
        exact List.mem_append_right _ List.mem_cons_self
    · obtain ⟨k,hk,hmem⟩ := h.exit j (hkept.exit ▸ hj)
      exact ⟨k,hk,List.mem_append_left _ (hkept.panicked ▸ hmem)⟩
  | join =>
    refine ⟨fun l hl => hpast (h.panicked l hl),fun k hk => ?_⟩
    simp only [joined,Option.some.injEq] at hk
    split_ifs at hk with hpanic
    cases hk
    exact hpanic
  | failed _ halts =>
    have hkept := kept_of_halts halts
    exact ⟨fun l hl => hpast (h.panicked l (hkept.panicked ▸ hl)),fun k hk => by cases hk⟩
  | _ => exact h.congr hpast rfl rfl

lemma blamed_init : Blamed [] init := ⟨by simp [init],by simp [init]⟩

theorem blamed_run (hrun : Transition.run (step D decode) init es = some s) : Blamed es s :=
  Transition.run_past (fun _ _ _ _ hstep h => blamed_step hstep h) hrun blamed_init

/-- How far the start has come. -/
inductive Stage (past : List Event) (s : Supervised) : Prop
  | starting {c : StartCall} (call : s.starting = some c) (exit : s.exit = none)
      (server : s.serving = true) (updates : s.tasks.node.updating = true)
      (watching : s.watching = true) (unserved : s.tasks.node.Unserved)
      (token : s.cancelled = true ↔ .signal ∈ past) (intact : ∀ c, .start c false ∉ past)
  | begun (call : s.starting = none) (exit : ∀ c, s.exit ≠ some (.error (.start c)))
      (token : s.exit ≠ none ∨ s.watching = false → s.cancelled = true)
      (intact : ∀ c, .start c false ∉ past)
  | failed {c : StartCall} (call : s.starting = none) (exit : s.exit = some (.error (.start c)))
      (halted : ∀ l ∈ c.unstarted, s.Halted l) (watching : s.watching = false)
      (unserved : s.tasks.node.Unserved) (token : s.cancelled = true ↔ .signal ∈ past)
      (only : ∀ d, .start d false ∈ past ↔ d = c)

/-- The bridge comes last. -/
lemma server_mem_unstarted (c : StartCall) : .server ∈ c.unstarted := by
  cases c <;> decide

lemma updates_mem_unstarted (c : StartCall) : .updates ∈ c.unstarted := by
  cases c <;> decide

lemma unserved_of_halt {l : Loop} (h : s.halt D decode l = some s')
    (hs : s.tasks.node.Unserved) : s'.tasks.node.Unserved := by
  rcases tasks_of_halt h with heq | ⟨te,hstop,htasks⟩
  · exact heq ▸ hs
  · exact Tasks.unserved_of_step htasks (Tasks.Event.not_request_of_stop hstop) hs

lemma unserved_of_halts {ls : List Loop} (h : Transition.run (halt D decode) s ls = some s')
    (hs : s.tasks.node.Unserved) : s'.tasks.node.Unserved :=
  Transition.run_preserves (P := fun t => t.tasks.node.Unserved)
    (fun _ _ _ ht hs => unserved_of_halt ht hs) h hs

/-- The ends of the loops before the bridge leave the bridge. -/
lemma bridge_of_halt {l : Loop} (h : s.halt D decode l = some s') (hserver : l ≠ .server)
    (hupdates : l ≠ .updates) : s'.serving = s.serving ∧
      s'.tasks.node.updating = s.tasks.node.updating := by
  cases l with
  | server => exact absurd rfl hserver
  | updates => exact absurd rfl hupdates
  | swarm =>
    obtain ⟨t,ht,rfl⟩ := Option.map_eq_some_iff.mp h
    cases Tasks.does_of_step ht with
    | stopSwarm => exact ⟨rfl,rfl⟩
  | coordinator =>
    obtain ⟨t,ht,rfl⟩ := Option.map_eq_some_iff.mp h
    refine ⟨rfl,?_⟩
    obtain ⟨n,hn,rfl⟩ := Option.map_eq_some_iff.mp (Tasks.nodeStep_of_step ht)
    obtain ⟨r,-,rfl⟩ := Option.map_eq_some_iff.mp hn
    rfl

/-- A loop that a start has come to is none of the bridge before the start is over. -/
lemma ne_bridge_of_started {c : StartCall} {l : Loop} (h : s.starting = some c)
    (hstarted : s.Started l) : l ≠ .server ∧ l ≠ .updates := by
  constructor
  · rintro rfl
    exact hstarted c h (server_mem_unstarted c)
  · rintro rfl
    exact hstarted c h (updates_mem_unstarted c)

lemma not_request_of_started {c : StartCall} {te : Tasks.Event} (h : s.starting = some c)
    (hstarted : ∀ l ∈ te.loop, s.Started l) : te.isRequest = false := by
  cases te with
  | node ne =>
    cases ne with
    | request r => exact absurd rfl (ne_bridge_of_started h (hstarted .server rfl)).1
    | _ => rfl
  | _ => rfl

/-- A loop ends, and may have panicked. -/
lemma Stage.halt {past : List Event} {l : Loop} (h : Stage past s) (hstarted : s.Started l)
    (hl : s.halt D decode l = some s') (he : e ≠ .signal ∧ ∀ c, e ≠ .start c false)
    (panicked : List Loop) : Stage (past ++ [e]) { s' with panicked := panicked } := by
  have hkept := kept_of_halt hl
  have hsignal : .signal ∈ past ++ [e] ↔ .signal ∈ past := by simp [Ne.symm he.1]
  have hfailed : ∀ c, .start c false ∈ past ++ [e] ↔ .start c false ∈ past := by
    simp [fun c => Ne.symm (he.2 c)]
  cases h with
  | starting call exit server updates watching unserved token intact =>
    obtain ⟨hserver,hupdates⟩ := ne_bridge_of_started call hstarted
    obtain ⟨hserving,hupdating⟩ := bridge_of_halt hl hserver hupdates
    have hunserved := unserved_of_halt hl unserved
    refine .starting (hkept.starting.trans call) (hkept.exit.trans exit) (hserving.trans server)
      (hupdating.trans updates) (hkept.watching.trans watching) hunserved ?_ ?_
    · dsimp only
      rw [hkept.cancelled,token,hsignal]
    · exact fun c hc => intact c ((hfailed c).mp hc)
  | begun call exit token intact =>
    refine .begun (hkept.starting.trans call) (hkept.exit ▸ exit) ?_ ?_
    · dsimp only
      rw [hkept.exit,hkept.watching,hkept.cancelled]
      exact token
    · exact fun c hc => intact c ((hfailed c).mp hc)
  | failed call exit halted watching unserved token only =>
    have hunserved := unserved_of_halt hl unserved
    refine .failed (hkept.starting.trans call) (hkept.exit.trans exit) (fun k hk => ?_)
      (hkept.watching.trans watching) hunserved ?_ fun d => (hfailed d).trans (only d)
    · have hhalted := (halted k hk).of_halt hl
      cases k <;> exact hhalted
    · dsimp only
      rw [hkept.cancelled,token,hsignal]

theorem stage_step {past : List Event} (hstep : step D decode s e = some s')
    (h : Stage past s) : Stage (past ++ [e]) s' := by
  cases does_of_step hstep with
  | stop started _ halt => exact h.halt started halt (by simp) _
  | panic started halt => exact h.halt started halt (by simp) _
  | signal =>
    cases h with
    | starting call exit server updates watching unserved _ intact =>
      exact .starting call exit server updates watching unserved (by simp) (by simpa using intact)
    | begun call exit _ intact => exact .begun call exit (fun _ => rfl) (by simpa using intact)
    | failed call exit halted watching unserved _ only =>
      refine .failed call exit (fun l hl => ?_) watching unserved (by simp) (by simpa using only)
      exact (halted l hl).of_step hstep
  | @tasks te _ plain started accepted step =>
    cases h with
    | starting call exit server updates watching unserved token intact =>
      exact .starting call exit server ((Tasks.updating_of_step step plain).trans updates) watching
        (Tasks.unserved_of_step step (not_request_of_started call started) unserved)
        (by simpa using token) (by simpa using intact)
    | begun call exit token intact => exact .begun call exit token (by simpa using intact)
    | failed call exit halted watching unserved token only =>
      have hrequest : te.isRequest = false := by
        refine Bool.eq_false_of_not_eq_true fun hr => ?_
        have hserving : s.serving = false := halted .server (server_mem_unstarted _)
        rw [accepted hr] at hserving
        cases hserving
      exact .failed call exit (fun l hl => (halted l hl).of_step hstep) watching
        (Tasks.unserved_of_step step hrequest unserved) (by simpa using token) (by simpa using only)
  | watch watching' ended =>
    cases h with
    | starting _ _ server updates => simp [server,updates] at ended
    | begun call exit _ intact => exact .begun call exit (fun _ => rfl) (by simpa using intact)
    | failed _ _ _ watching =>
      rw [watching] at watching'
      cases watching'
  | join begun running =>
    cases h with
    | starting call =>
      rw [begun] at call
      cases call
    | begun call _ _ intact =>
      refine .begun call (fun c hc => ?_) (fun _ => rfl) (by simpa using intact)
      simp only [joined,Option.some.injEq] at hc
      split_ifs at hc
      cases hc
    | failed _ exit =>
      rw [exit] at running
      cases running
  | @returned c call' =>
    cases h with
    | starting _ exit server updates watching unserved token intact =>
      cases c with
      | bind => exact .begun rfl (by simp [exit]) (by simp [exit,watching]) (by simpa using intact)
      | _ =>
        exact .starting rfl exit server updates watching unserved (by simpa using token)
          (by simpa using intact)
    | begun call =>
      rw [call] at call'
      cases call'
    | failed call =>
      rw [call] at call'
      cases call'
  | @failed c t call' halts =>
    cases h with
    | starting _ _ _ _ _ unserved token intact =>
      have hkept := kept_of_halts halts
      have hunserved := unserved_of_halts halts unserved
      refine .failed rfl rfl (fun l hl => ?_) rfl hunserved ?_ (by simp [intact])
      · have hhalted := halted_of_halts hl halts
        cases l <;> exact hhalted
      · simpa [hkept.cancelled] using token
    | begun call =>
      rw [call] at call'
      cases call'
    | failed call =>
      rw [call] at call'
      cases call'

lemma stage_init : Stage [] init :=
  .starting rfl rfl rfl rfl rfl ⟨rfl,rfl⟩ (by simp [init]) (by simp)

theorem stage_run (hrun : Transition.run (step D decode) init es = some s) : Stage es s :=
  Transition.run_past (fun _ _ _ _ hstep h => stage_step hstep h) hrun stage_init

end Supervised

end Gozara
