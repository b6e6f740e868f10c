import Gozara.Node.Supervision

/-!
# How the client goes down

Once something has ended or was told to, everything else can end in good order and `run` return;
what a failed start leaves behind ends when its channels are closed.
-/
namespace Gozara

namespace Node
variable {D : Deps} {start s s' : Node} {e : Event}

lemma Stays.step (hkept : Stays start s) (h : Linked D s) (hstep : Node.step D s e = some s')
    (he : ∀ i, e ≠ .act i .disconnect) : Stays start s' := by
  have hdoes := does_of_step hstep
  cases hdoes with
  | bridge hb event =>
    refine hkept.bridge h hb fun i hi => ?_
    rcases event with ⟨r,-,rfl⟩ | ⟨j,a,rfl,rfl⟩ | ⟨-,rfl⟩
    · cases hi
    · cases hi
      exact he i rfl
    · cases hi
  | enqueue _ _ _ _ hb => exact hkept.bridge h hb (by simp)
  | update _ _ hb => exact hkept.bridge h hb (by simp)
  | stopUpdates => exact hkept
  | drive => exact hkept

end Node

namespace Tasks
variable {D : Deps} {decode : Decode} {s s' : Tasks} {e : Event}

/-- A client that stays is still there after an event that is not its disconnect. -/
lemma stays_of_step {start : Node} (h : step D decode .client s e = some s')
    (hlinked : Node.Linked D s.node) (hne : ∀ i, e ≠ .node (.act i .disconnect))
    (hstays : Node.Stays start s.node) : Node.Stays start s'.node := by
  rcases node_of_step h with hsame | ⟨ne,hnode,hevent⟩
  · exact hsame ▸ hstays
  · rw [nodeStep_client] at hnode
    refine hstays.step hlinked hnode ?_
    rintro i rfl
    rcases hevent with rfl | hsend | ⟨msg,hmsg⟩
    · exact hne i rfl
    · cases hsend
    · cases hmsg

/-- At its head the coordinator can be ended. -/
lemma stop_enabled (D : Deps) (decode : Decode) (s : Tasks)
    (hpoint : s.node.engine.coordinator.point = .head) :
    ∃ t, step D decode .client s (.node (.engine (.input .stop))) = some t ∧
      t.node.engine.coordinator.point = .stopped := by
  have hexec : s.node.engine.coordinator.exec s.node.engine.clock .stop =
      some (s.node.engine.coordinator.onStop,⟨[],s.node.engine.coordinator.held⟩) := by
    simp only [Coordinator.exec,hpoint]
  simp only [step,nodeStep,Node.step,Node.drive,Uploads.exec,Uploads.drive,hexec,Option.map_some]
  exact ⟨_,rfl,rfl⟩

lemma plain_of_winds {ne : Node.Event} (he : ne.Winds) :
    Event.isStop (.node ne) = false ∧ Event.isRequest (.node ne) = false := by
  cases ne with
  | engine ue => cases he
  | stopUpdates => cases he
  | request r => cases he
  | _ => exact ⟨rfl,rfl⟩

/-- What the handlers need when the loop has ended is a step of the tasks. -/
lemma step_of_winds {ne : Node.Event} {n : Node} (h : Node.step D s.node ne = some n)
    (he : ne.Winds) : step D decode .client s (.node ne) = some (s.withNode n) ∧
      n.updating = s.node.updating := by
  have hplain : step D decode .client s (.node ne) =
      (nodeStep D .client s.node ne).map s.withNode := by
    cases ne with
    | engine ue => cases he
    | _ => rfl
  have hsome : step D decode .client s (.node ne) = some (s.withNode n) := by
    rw [hplain,nodeStep_client,h,Option.map_some]
  exact ⟨hsome,updating_of_step hsome (plain_of_winds he).1⟩

/-- Only events of the swarm put messages on the handler channel. -/
lemma length_handler_of_step (h : step D decode .client s e = some s') (he : e.task.isSome) :
    s'.handler.queue.length ≤ s.handler.queue.length := by
  have hwith : ∀ (t : Tasks) (n : Node),
      (t.withNode n).handler.queue.length ≤ t.handler.queue.length := by
    intro t n
    unfold withNode
    dsimp only
    split_ifs
    · exact Nat.zero_le _
    · exact Nat.le_refl _
  cases does_of_step h with
  | swarm => cases he
  | stopSwarm => cases he
  | recvSwarm => exact Nat.le_refl _
  | sendSwarm => exact hwith _ _
  | recvHandler recv _ =>
    refine (hwith _ _).trans ?_
    rw [(Channel.recv_eq_some.mp recv).1]
    exact Nat.le_succ _
  | node => exact hwith _ _

/-- At its head the coordinator takes the first message of the swarm task. -/
lemma recvHandler_enabled (D : Deps) (decode : Decode) (s : Tasks) {msg : HandlerMessage}
    {rest : List HandlerMessage} (hpoint : s.node.engine.coordinator.point = .head)
    (hq : s.handler.queue = msg::rest) :
    ∃ t, step D decode .client s .recvHandler = some t ∧
      t.node.engine.coordinator.point ≠ .stopped ∧ t.handler.queue = rest := by
  have hrun := (Coordinator.continues_onHandler s.node.engine.coordinator s.node.engine.clock
    msg).point
  have hexec : s.node.engine.coordinator.exec s.node.engine.clock (.handler msg) =
      some ((s.node.engine.coordinator.onHandler s.node.engine.clock msg).1,
        ⟨(s.node.engine.coordinator.onHandler s.node.engine.clock msg).2,[]⟩) := by
    simp only [Coordinator.exec,hpoint]
  obtain ⟨n,hn,hc,-⟩ := drive_of_exec (by simp) hexec hrun s.node.admission
  have hrecv : s.handler.recv = some (msg,{ s.handler with queue := rest }) :=
    Channel.recv_eq_some.mpr ⟨hq,rfl,rfl⟩
  have hne : n.engine.coordinator.point ≠ .stopped := by
    rw [hc]
    exact hrun.ne_stopped
  simp only [step,hrecv,Option.bind_some,hn,Option.map_some]
  exact ⟨_,rfl,hne,by simp only [withNode,if_neg hne]⟩

/-- The message loop takes the first update. -/
lemma recvUpdate_enabled (D : Deps) (decode : Decode) (s : Tasks) {msg : ToBridge}
    {rest : List ToBridge} (hup : s.node.updating = true) (hq : s.node.updates = msg::rest) :
    ∃ t, step D decode .client s (.node .recvUpdate) = some t ∧
      t.node.engine = s.node.engine ∧ t.node.updating = true ∧ t.node.updates = rest := by
  simp only [step,nodeStep,Node.step,hq,if_pos hup]
  exact ⟨_,rfl,rfl,hup,rfl⟩

lemma plain_of_task (h : e.task.isSome) : e.isStop = false ∧ e.isRequest = false := by
  cases e with
  | node ne =>
    cases ne with
    | engine ue => cases h
    | stopUpdates => cases h
    | request r => cases h
    | _ => exact ⟨rfl,rfl⟩
  | stopSwarm => cases h
  | _ => exact ⟨rfl,rfl⟩

end Tasks

namespace Supervised
variable {D : Deps} {decode : Decode} {s s' : Supervised} {e : Event} {es : List Event}

lemma Stage.cancelled {past : List Event} (h : Stage past s)
    (hexit : ∀ c, s.exit ≠ some (.error (.start c))) (hor : s.exit ≠ none ∨ s.watching = false) :
    s.cancelled = true := by
  cases h with
  | starting _ exit _ _ watching => simp [exit,watching] at hor
  | begun _ _ token => exact token hor
  | failed _ exit => exact absurd exit (hexit _)

/-- What may happen while the client goes down: no signal, panic or request, no failure of the
start, and nothing of the clients. The process is over when `run` returns. -/
def Event.Orderly : Event → Prop
  | .signal | .panic _ | .join _ => False
  | .start _ ok => ok = true
  | .tasks e => e.task.isSome ∨ ∃ ne, e = .node ne ∧ ne.Winds
  | _ => True

/-- A state of a run after the start, with the clients of `start` and what `run` returned there. -/
structure Going (D : Deps) (decode : Decode) (start s : Supervised) : Prop where
  reached : ∃ es, Transition.run (step D decode) init es = some s
  begun : s.starting = none
  stays : Node.Stays start.tasks.node s.tasks.node
  exit : s.exit = start.exit

variable {start : Supervised}

lemma Going.tasks (h : Going D decode start s) : ∃ fs,
    Transition.run (Tasks.step D decode .client) (Tasks.init .client) fs = some s.tasks := by
  obtain ⟨es,hrun⟩ := h.reached
  exact tasks_run hrun

lemma Going.node (h : Going D decode start s) : ∃ fs,
    Transition.run (Node.step D) Node.init fs = some s.tasks.node := by
  obtain ⟨fs,hrun⟩ := h.tasks
  exact Tasks.node_run hrun

/-- Nobody's disconnect. -/
lemma Event.Orderly.not_disconnect (he : e.Orderly) (i : ℕ) :
    e ≠ .tasks (.node (.act i .disconnect)) := by
  rintro rfl
  rcases he with htask | ⟨ne,hne,hwinds⟩
  · cases htask
  · cases hne
    rcases hwinds with hinner | heq
    · exact hinner
    · cases heq

/-- Only `run` itself returns. -/
lemma exit_of_step (hstep : step D decode s e = some s') (he : e.Orderly) : s'.exit = s.exit := by
  cases does_of_step hstep with
  | signal => cases he
  | panic => cases he
  | join => cases he
  | failed => cases he
  | stop _ _ halt => exact (kept_of_halt halt).exit
  | _ => rfl

/-- There is one start. -/
lemma begun_of_step (hstep : step D decode s e = some s') (hs : s.starting = none) :
    s'.starting = none := by
  cases does_of_step hstep with
  | stop _ _ halt => exact (kept_of_halt halt).starting.trans hs
  | panic _ halt => exact (kept_of_halt halt).starting.trans hs
  | returned call =>
    rw [hs] at call
    cases call
  | failed => rfl
  | _ => exact hs

theorem Going.step (h : Going D decode start s) (hstep : step D decode s e = some s')
    (he : e.Orderly) : Going D decode start s' := by
  obtain ⟨es,hrun⟩ := h.reached
  have hintact : ∀ c, e ≠ .start c false := by
    rintro c rfl
    cases he
  refine ⟨⟨es ++ [e],Transition.run_append_eq_some.mpr ⟨s,hrun,
    Transition.run_cons_eq_some.mpr ⟨s',hstep,rfl⟩⟩⟩,begun_of_step hstep h.begun,?_,
      (exit_of_step hstep he).trans h.exit⟩
  obtain ⟨fs,hnode⟩ := h.node
  rcases tasks_of_step hstep hintact with heq | ⟨te,hor,htasks⟩
  · exact heq ▸ h.stays
  · refine Tasks.stays_of_step htasks (Node.linked_run hnode) ?_ h.stays
    rintro i rfl
    rcases hor with hstop | heq
    · cases hstop
    · exact he.not_disconnect i heq

theorem Going.reaches (h : Going D decode start s)
    (hreach : Transition.Reaches (Supervised.step D decode) Event.Orderly s s') :
    Going D decode start s' := by
  have hkeep : ∀ u e v, Supervised.step D decode u e = some v → e.Orderly →
      Going D decode start u → Going D decode start v :=
    fun _ _ _ hstep he hu => hu.step hstep he
  exact hreach.preserves hkeep h

/-- After the start every loop has been spawned. -/
lemma started_of_begun (h : s.starting = none) (l : Loop) : s.Started l := by
  simp [Started,h]

/-- Receives and sends of the tasks go on under supervision. -/
lemma step_tasks {e : Tasks.Event} {t : Tasks} (hbegun : s.starting = none)
    (h : Tasks.step D decode .client s.tasks e = some t) (hstop : e.isStop = false)
    (hrequest : e.isRequest = false) : step D decode s (.tasks e) = some { s with tasks := t } := by
  have hstarted : ∀ l ∈ e.loop, s.Started l := fun l _ => started_of_begun hbegun l
  have haccepted : e.isRequest = true → s.serving = true := by simp [hrequest]
  simp only [step,if_pos (And.intro hstop (And.intro hstarted haccepted)),h,Option.map_some]

/-- The rest of the start can go well. -/
lemma reaches_begun (D : Deps) (decode : Decode) (s : Supervised) :
    Transition.Reaches (step D decode) Event.Orderly s { s with starting := none } := by
  have hcall : ∀ (s : Supervised) (c : StartCall),
      Transition.Reaches (step D decode) Event.Orderly { s with starting := some c }
        { s with starting := c.next } := fun s c =>
    .single (e := .start c true) rfl (by simp [step])
  have hpulls := fun s => (hcall s .acceptPulls).trans (hcall s .bind)
  have hpushes := fun s => (hcall s .acceptPushes).trans (hpulls s)
  obtain ⟨tasks,starting,cancelled,serving,watching,panicked,exit⟩ := s
  rcases starting with _ | _ | _ | _ | _
  · exact .refl _
  · exact (hcall ⟨tasks,none,cancelled,serving,watching,panicked,exit⟩ .goPublic).trans (hpushes _)
  · exact hpushes ⟨tasks,none,cancelled,serving,watching,panicked,exit⟩
  · exact hpulls ⟨tasks,none,cancelled,serving,watching,panicked,exit⟩
  · exact hcall ⟨tasks,none,cancelled,serving,watching,panicked,exit⟩ .bind

/-- The coordinator comes back to its head, and nothing comes to it from the swarm task. -/
lemma Going.reaches_head (h : Going D decode start s) (hpoint : s.point ≠ .stopped) : ∃ s',
    Transition.Reaches (Supervised.step D decode) Event.Orderly s s' ∧ s'.point = .head ∧
      s'.cancelled = s.cancelled ∧ s'.tasks.swarm.isOpen = s.tasks.swarm.isOpen ∧
        s'.tasks.handler.queue.length ≤ s.tasks.handler.queue.length := by
  obtain ⟨gs,htasks⟩ := h.tasks
  obtain ⟨t,hreach,hhead⟩ := Tasks.reaches_head D decode (Tasks.fits_run htasks) hpoint
  have hfollow : ∀ (a : Supervised) (e : Tasks.Event) (u : Tasks),
      Tasks.step D decode .client a.tasks e = some u → e.task.isSome →
      (a.starting = none ∧ a.cancelled = s.cancelled ∧
        a.tasks.swarm.isOpen = s.tasks.swarm.isOpen ∧
          a.tasks.handler.queue.length ≤ s.tasks.handler.queue.length) →
      ∃ b, Transition.Reaches (Supervised.step D decode) Event.Orderly a b ∧
        (b.starting = none ∧ b.cancelled = s.cancelled ∧
          b.tasks.swarm.isOpen = s.tasks.swarm.isOpen ∧
            b.tasks.handler.queue.length ≤ s.tasks.handler.queue.length) ∧ b.tasks = u := by
    intro a e u hu he ⟨hbegun,htoken,hopen,hqueue⟩
    have horderly : Event.Orderly (.tasks e) := Or.inl he
    obtain ⟨hstop,hrequest⟩ := Tasks.plain_of_task he
    exact ⟨_,.single horderly (step_tasks hbegun hu hstop hrequest),⟨hbegun,htoken,
      (Tasks.isOpen_of_step hu hstop).trans hopen,
        (Tasks.length_handler_of_step hu he).trans hqueue⟩,rfl⟩
  obtain ⟨b,hreach',⟨-,hb⟩,rfl⟩ :=
    hreach.lift (f := Supervised.tasks) hfollow ⟨h.begun,rfl,rfl,Nat.le_refl _⟩
  exact ⟨b,hreach',hhead,hb⟩

/-- With a cause a loop that can end does. -/
lemma stop_of_halt {l : Loop} (hbegun : s.starting = none) (hcause : s.Cause l)
    (h : s.halt D decode l = some s') : step D decode s (.stop l) = some s' := by
  simp only [step,if_pos (And.intro (started_of_begun hbegun l) hcause),h]

/-- With a cause the coordinator ends at its head. -/
lemma reaches_stopped (hbegun : s.starting = none) (hhead : s.point = .head)
    (hcause : s.Cause .coordinator) : ∃ s',
    Transition.Reaches (step D decode) Event.Orderly s s' ∧ s'.cancelled = s.cancelled ∧
      s'.point = .stopped := by
  obtain ⟨u,hu,hstopped⟩ := Tasks.stop_enabled D decode s.tasks hhead
  have hhalt : s.halt D decode .coordinator = some { s with tasks := u } := by
    simp only [halt,hu,Option.map_some]
  exact ⟨_,.single (e := .stop .coordinator) trivial (stop_of_halt hbegun hcause hhalt),rfl,
    hstopped⟩

/-- With a cause the swarm task ends. -/
lemma stop_swarm (hbegun : s.starting = none) (hopen : s.tasks.swarm.isOpen = true)
    (hcause : s.Cause .swarm) : step D decode s (.stop .swarm) = some { s with
      tasks := { s.tasks with swarm := s.tasks.swarm.close } } := by
  refine stop_of_halt hbegun hcause ?_
  simp only [halt,Tasks.step,if_pos hopen,Option.map_some]

/-- With a cause the message loop ends. -/
lemma stop_updates (hbegun : s.starting = none) (hup : s.tasks.node.updating = true)
    (hcause : s.Cause .updates) : step D decode s (.stop .updates) = some { s with
      tasks := s.tasks.withNode { s.tasks.node with updates := [],updating := false } } := by
  refine stop_of_halt hbegun hcause ?_
  simp only [halt,Tasks.step,Tasks.nodeStep,Node.step,if_pos hup,Option.map_some]

/-- When the server or the message loop has ended, the token can be cancelled. -/
lemma Going.watched (h : Going D decode start s) (hexit : start.exit = none)
    (hor : s.serving = false ∨ s.tasks.node.updating = false) : ∃ s',
    Transition.Reaches (Supervised.step D decode) Event.Orderly s s' ∧ s'.cancelled = true := by
  obtain ⟨es,hrun⟩ := h.reached
  by_cases hwatching : s.watching = true
  · have hstep : Supervised.step D decode s .watch =
        some { s with cancelled := true,watching := false } := by
      simp only [Supervised.step,if_pos (And.intro hwatching hor)]
    exact ⟨_,.single (e := .watch) trivial hstep,rfl⟩
  · refine ⟨s,.refl s,(stage_run hrun).cancelled ?_
      (Or.inr (Bool.eq_false_of_not_eq_true hwatching))⟩
    simp [h.exit,hexit]

/-- The message loop receives what is on its channel. -/
lemma Going.reaches_updated (h : Going D decode start s) (hup : s.tasks.node.updating = true)
    (hstopped : s.point = .stopped) : ∃ s',
    Transition.Reaches (Supervised.step D decode) Event.Orderly s s' ∧
      (Going D decode start s' ∧ s'.tasks.node.updating = true ∧ s'.point = .stopped) ∧
        s'.tasks.node.updates = [] := by
  refine Transition.reaches_of_measure (fun a : Supervised => a.tasks.node.updates.length)
    (fun a ⟨ha,hup,hstopped⟩ hqueue => ?_) ⟨h,hup,hstopped⟩
  obtain ⟨msg,rest,hq⟩ := List.exists_cons_of_ne_nil hqueue
  obtain ⟨t,ht,hengine,hup',hrest⟩ := Tasks.recvUpdate_enabled D decode a.tasks hup hq
  have hstep : Supervised.step D decode a (.tasks (.node .recvUpdate)) =
      some { a with tasks := t } := step_tasks ha.begun ht rfl rfl
  have horderly : Event.Orderly (.tasks (.node .recvUpdate)) := Or.inl rfl
  refine ⟨_,.single horderly hstep,⟨ha.step hstep horderly,hup',?_⟩,?_⟩
  · rw [point,hengine]
    exact hstopped
  · dsimp only
    rw [hrest,hq]
    exact Nat.lt_succ_self _

/-- When the coordinator has ended, the message loop of the bridge can follow. -/
lemma Going.cancelled_of_stopped (h : Going D decode start s) (hexit : start.exit = none)
    (hstopped : s.point = .stopped) : ∃ s',
    Transition.Reaches (Supervised.step D decode) Event.Orderly s s' ∧ s'.cancelled = true := by
  by_cases hup : s.tasks.node.updating = true
  · obtain ⟨a,hreach,⟨ha,hup',hstopped'⟩,hqueue⟩ := h.reaches_updated hup hstopped
    have hstep : Supervised.step D decode a (.stop .updates) = some _ :=
      stop_updates ha.begun hup' (Or.inr ⟨hstopped',hqueue⟩)
    obtain ⟨b,hreach',hb⟩ := (ha.step hstep trivial).watched hexit (Or.inr rfl)
    exact ⟨b,(hreach.trans (.single (e := .stop .updates) trivial hstep)).trans hreach',hb⟩
  · exact h.watched hexit (Or.inr (Bool.eq_false_of_not_eq_true hup))

/-- When the swarm task has ended, the coordinator receives what is left, and can follow. -/
lemma Going.stopped_of_closed (h : Going D decode start s) (hclosed : s.tasks.swarm.isOpen = false)
    (hpoint : s.point ≠ .stopped) : ∃ s',
    Transition.Reaches (Supervised.step D decode) Event.Orderly s s' ∧ s'.point = .stopped := by
  obtain ⟨a,hreach,⟨ha,hclosed',hpoint'⟩,hqueue⟩ : ∃ a,
      Transition.Reaches (Supervised.step D decode) Event.Orderly s a ∧
        (Going D decode start a ∧ a.tasks.swarm.isOpen = false ∧ a.point ≠ .stopped) ∧
          a.tasks.handler.queue = [] := by
    refine Transition.reaches_of_measure (fun a : Supervised => a.tasks.handler.queue.length)
      (fun a ⟨ha,hclosed,hpoint⟩ hqueue => ?_) ⟨h,hclosed,hpoint⟩
    obtain ⟨b,hreach,hhead,-,hopen,hle⟩ := ha.reaches_head hpoint
    have hb := ha.reaches hreach
    have hlength := List.length_pos_iff.mpr hqueue
    cases hq : b.tasks.handler.queue with
    | nil =>
      refine ⟨b,hreach,⟨hb,hopen.trans hclosed,by rw [hhead]; simp⟩,?_⟩
      rw [hq]
      exact hlength
    | cons msg rest =>
      obtain ⟨t,ht,hrun,hrest⟩ := Tasks.recvHandler_enabled D decode b.tasks hhead hq
      have hstep : Supervised.step D decode b (.tasks .recvHandler) =
          some { b with tasks := t } := step_tasks hb.begun ht rfl rfl
      have horderly : Event.Orderly (.tasks .recvHandler) := Or.inl rfl
      have hopen' := (Tasks.isOpen_of_step ht rfl).trans (hopen.trans hclosed)
      refine ⟨_,hreach.trans (.single horderly hstep),⟨hb.step hstep horderly,hopen',hrun⟩,?_⟩
      dsimp only
      rw [hrest]
      rw [hq,List.length_cons] at hle
      omega
  obtain ⟨b,hreach',hhead,-,hopen,hle⟩ := ha.reaches_head hpoint'
  rw [hqueue] at hle
  obtain ⟨c,hreach'',-,hstopped⟩ := reaches_stopped (D := D) (ha.reaches hreach').begun hhead
    (Or.inr (Or.inl ⟨hopen.trans hclosed',List.length_eq_zero_iff.mp (Nat.le_zero.mp hle)⟩))
  exact ⟨c,(hreach.trans hreach').trans hreach'',hstopped⟩

/-- Once something has ended, or was told to, the token can be cancelled. -/
theorem Going.reaches_cancelled (h : Going D decode start s) (hexit : start.exit = none)
    (hdown : ¬s.Alive) : ∃ s',
    Transition.Reaches (Supervised.step D decode) Event.Orderly s s' ∧ s'.cancelled = true := by
  by_cases htoken : s.cancelled = true
  · exact ⟨s,.refl s,htoken⟩
  by_cases hstopped : s.point = .stopped
  · exact h.cancelled_of_stopped hexit hstopped
  by_cases hserver : s.serving = true
  · by_cases hupdates : s.tasks.node.updating = true
    · by_cases hwatching : s.watching = true
      · have hclosed : s.tasks.swarm.isOpen = false := by
          by_contra hopen
          exact hdown ⟨Bool.eq_true_of_not_eq_false hopen,hstopped,hserver,hupdates,hwatching,
            Bool.eq_false_of_not_eq_true htoken,h.exit.trans hexit⟩
        obtain ⟨a,hreach,ha⟩ := h.stopped_of_closed hclosed hstopped
        obtain ⟨b,hreach',hb⟩ := (h.reaches hreach).cancelled_of_stopped hexit ha
        exact ⟨b,hreach.trans hreach',hb⟩
      · obtain ⟨es,hrun⟩ := h.reached
        refine absurd ((stage_run hrun).cancelled (by simp [h.exit,hexit])
          (Or.inr (Bool.eq_false_of_not_eq_true hwatching))) htoken
    · exact h.watched hexit (Or.inr (Bool.eq_false_of_not_eq_true hupdates))
  · exact h.watched hexit (Or.inl (Bool.eq_false_of_not_eq_true hserver))

/-- Told to, the coordinator ends. -/
lemma Going.reaches_ended (h : Going D decode start s) (htoken : s.cancelled = true) : ∃ s',
    Transition.Reaches (Supervised.step D decode) Event.Orderly s s' ∧ s'.cancelled = true ∧
      s'.point = .stopped := by
  by_cases hpoint : s.point = .stopped
  · exact ⟨s,.refl s,htoken,hpoint⟩
  · obtain ⟨a,hreach,hhead,ha,-,-⟩ := h.reaches_head hpoint
    obtain ⟨b,hreach',hb,hstopped⟩ := reaches_stopped (D := D) (h.reaches hreach).begun hhead
      (Or.inl (ha.trans htoken))
    exact ⟨b,hreach.trans hreach',hb.trans (ha.trans htoken),hstopped⟩

/-- The token is cancelled and the coordinator has ended. -/
structure Ending (D : Deps) (decode : Decode) (start s : Supervised) : Prop where
  going : Going D decode start s
  token : s.cancelled = true
  stopped : s.point = .stopped

/-- What is left to end, and what the handlers have to do. -/
def work (s : Supervised) : ℕ := s.tasks.node.bridge.work+s.tasks.swarm.isOpen.toNat+
  s.tasks.node.updating.toNat+s.serving.toNat+s.watching.toNat

/-- The states differ in the client alone, and there neither in a channel to the swarm task nor
in the message loop. -/
structure Beside (s b : Supervised) : Prop where
  begun : b.starting = none
  cancelled : b.cancelled = s.cancelled
  swarm : b.tasks.swarm = s.tasks.swarm
  updating : b.tasks.node.updating = s.tasks.node.updating
  serving : b.serving = s.serving
  watching : b.watching = s.watching

/-- The handlers wind down under supervision as they do without. -/
lemma Ending.handlers (h : Ending D decode start s) (hwork : s.tasks.node.bridge.work ≠ 0) :
    ∃ s', Transition.Reaches (step D decode) Event.Orderly s s' ∧ Ending D decode start s' ∧
      s'.work < s.work := by
  obtain ⟨gs,hnode⟩ := h.going.node
  have hwinding : Node.Winding D s.tasks.node s.tasks.node :=
    ⟨⟨gs,hnode⟩,h.stopped,Node.stays_refl _⟩
  obtain ⟨n,hreach,hn,hless⟩ := hwinding.advance hwork
  have hfollow : ∀ (a : Supervised) (e : Node.Event) (n : Node),
      Node.step D a.tasks.node e = some n → e.Winds → Beside s a →
      ∃ b, Transition.Reaches (step D decode) Event.Orderly a b ∧ Beside s b ∧
        b.tasks.node = n := by
    intro a e n hn he ha
    have horderly : Event.Orderly (.tasks (.node e)) := Or.inr ⟨e,rfl,he⟩
    obtain ⟨htasks,hup⟩ : Tasks.step D decode .client a.tasks (.node e) =
        some (a.tasks.withNode n) ∧ n.updating = a.tasks.node.updating := Tasks.step_of_winds hn he
    obtain ⟨hstop,hrequest⟩ := Tasks.plain_of_winds he
    exact ⟨_,.single horderly (step_tasks ha.begun htasks hstop hrequest),
      ⟨ha.begun,ha.cancelled,ha.swarm,hup.trans ha.updating,ha.serving,ha.watching⟩,rfl⟩
  obtain ⟨b,hreach',hb,rfl⟩ :=
    hreach.lift (f := fun b : Supervised => b.tasks.node) hfollow
      ⟨h.going.begun,rfl,rfl,rfl,rfl,rfl⟩
  refine ⟨b,hreach',⟨h.going.reaches hreach',hb.cancelled.trans h.token,hn.stopped⟩,?_⟩
  simp only [work,hb.swarm,hb.updating,hb.serving,hb.watching]
  omega

/-- As long as something runs, something can end. -/
theorem Ending.advance (h : Ending D decode start s) (hwork : s.work ≠ 0) :
    ∃ s', Transition.Reaches (step D decode) Event.Orderly s s' ∧ Ending D decode start s' ∧
      s'.work < s.work := by
  have hone : ∀ {e : Event} {u : Supervised}, e.Orderly → step D decode s e = some u →
      u.cancelled = true → u.point = .stopped → u.work < s.work →
      ∃ s', Transition.Reaches (step D decode) Event.Orderly s s' ∧ Ending D decode start s' ∧
        s'.work < s.work := fun he hstep htoken hstopped hless =>
    ⟨_,.single he hstep,⟨h.going.step hstep he,htoken,hstopped⟩,hless⟩
  by_cases hswarm : s.tasks.swarm.isOpen = true
  · have hstep : step D decode s (.stop .swarm) = some _ :=
      stop_swarm h.going.begun hswarm (Or.inl h.token)
    refine hone (e := .stop .swarm) trivial hstep h.token h.stopped ?_
    simp [work,Channel.close,hswarm]
  by_cases hupdates : s.tasks.node.updating = true
  · have hstep : step D decode s (.stop .updates) = some _ :=
      stop_updates h.going.begun hupdates (Or.inl h.token)
    refine hone (e := .stop .updates) trivial hstep h.token h.stopped ?_
    simp [work,Tasks.withNode,hupdates]
  by_cases hhandlers : s.tasks.node.bridge.work = 0
  · have hended := Node.ended_of_work hhandlers
    by_cases hserver : s.serving = true
    · have hstep : step D decode s (.stop .server) = some { s with serving := false } := by
        have hcause : s.Cause .server := ⟨h.token,hended⟩
        exact stop_of_halt h.going.begun hcause (if_pos hserver)
      refine hone (e := .stop .server) trivial hstep h.token h.stopped ?_
      simp [work,hserver]
    by_cases hwatching : s.watching = true
    · have hstep : step D decode s .watch =
          some { s with cancelled := true,watching := false } := by
        have hover : s.serving = false := Bool.eq_false_of_not_eq_true hserver
        simp only [step,if_pos (And.intro hwatching (Or.inl hover))]
      refine hone (e := .watch) trivial hstep rfl h.stopped ?_
      simp [work,hwatching]
    refine absurd ?_ hwork
    simp [work,hhandlers,hswarm,hupdates,hserver,hwatching]
  · exact h.handlers hhandlers

lemma down_of_work (h : s.work = 0) (hstopped : s.point = .stopped) : s.Down := by
  simp only [work,Nat.add_eq_zero_iff,Bool.toNat_eq_zero] at h
  obtain ⟨⟨⟨⟨hhandlers,hswarm⟩,hupdates⟩,hserver⟩,hwatching⟩ := h
  exact ⟨hswarm,hstopped,hserver,hupdates,hwatching,Node.ended_of_work hhandlers⟩

/-- When everything has ended, `run` returns, whichever task it looks at. -/
lemma Down.joins (h : s.Down) (hbegun : s.starting = none) (hexit : s.exit = none) (D : Deps)
    (decode : Decode) (j : RunHandle) : step D decode s (.join j) =
      some { s with cancelled := true,exit := some (s.joined j) } := by
  have hover : s.Over j := by
    cases j with
    | swarm => exact h.swarm
    | coordinator => exact h.coordinator
    | bridge => exact h.watching
  simp only [step,if_pos (And.intro (And.intro hbegun hexit) hover)]

/-- Once something has ended, or was told to, everything can end and `run` return. -/
theorem Going.ends (h : Going D decode start s) (hexit : start.exit = none) (hdown : ¬s.Alive) :
    ∃ s', Transition.Reaches (Supervised.step D decode) Event.Orderly s s' ∧ s'.Down ∧
      Going D decode start s' := by
  obtain ⟨t,hreach,htoken⟩ := h.reaches_cancelled hexit hdown
  obtain ⟨u,hreach',htoken',hstopped⟩ := (h.reaches hreach).reaches_ended htoken
  have hending : Ending D decode start u := ⟨(h.reaches hreach).reaches hreach',htoken',hstopped⟩
  obtain ⟨v,hreach'',hv,hdone⟩ := Transition.reaches_of_measure work
    (fun _ ht hwork => ht.advance hwork) hending
  exact ⟨v,(hreach.trans hreach').trans hreach'',down_of_work hdone hv.stopped,hv.going⟩

/-- What a start that failed has left. -/
lemma Going.failed {c : StartCall} (h : Going D decode start s)
    (hexit : start.exit = some (.error (.start c))) : s.serving = false ∧
      s.tasks.node.updating = false ∧ s.watching = false ∧ s.tasks.node.Unserved := by
  obtain ⟨es,hrun⟩ := h.reached
  cases stage_run hrun with
  | starting call =>
    rw [h.begun] at call
    cases call
  | begun _ exit => exact absurd (h.exit.trans hexit) (exit c)
  | failed _ _ halted watching unserved =>
    exact ⟨halted .server (server_mem_unstarted _),halted .updates (updates_mem_unstarted _),
      watching,unserved⟩

/-- The swarm task takes what is on its channel, and ends after the coordinator. -/
lemma Going.closed_of_stopped (h : Going D decode start s) (hstopped : s.point = .stopped) : ∃ s',
    Transition.Reaches (Supervised.step D decode) Event.Orderly s s' ∧
      (Going D decode start s' ∧ s'.point = .stopped) ∧ s'.tasks.swarm.isOpen = false := by
  refine Transition.reaches_of_measure
    (fun a : Supervised => a.tasks.swarm.queue.length+a.tasks.swarm.isOpen.toNat)
    (fun a ⟨ha,hstopped⟩ hopen => ?_) ⟨h,hstopped⟩
  have hopen : a.tasks.swarm.isOpen = true := Bool.eq_true_of_not_eq_false hopen
  cases hq : a.tasks.swarm.queue with
  | nil =>
    have hstep : Supervised.step D decode a (.stop .swarm) = some _ :=
      stop_swarm ha.begun hopen (Or.inr ⟨hstopped,hq⟩)
    refine ⟨_,.single (e := .stop .swarm) trivial hstep,⟨ha.step hstep trivial,hstopped⟩,?_⟩
    simp [Channel.close,hopen]
  | cons msg rest =>
    have hrecv : a.tasks.swarm.recv = some (msg,{ a.tasks.swarm with queue := rest }) :=
      Channel.recv_eq_some.mpr ⟨hq,rfl,rfl⟩
    have htasks : Tasks.step D decode .client a.tasks .recvSwarm =
        some { a.tasks with swarm := { a.tasks.swarm with queue := rest } } := by
      simp only [Tasks.step,hrecv,Option.map_some]
    have horderly : Event.Orderly (.tasks .recvSwarm) := Or.inl rfl
    have hstep := step_tasks ha.begun htasks rfl rfl
    refine ⟨_,.single horderly hstep,⟨ha.step hstep horderly,hstopped⟩,?_⟩
    simp

/-- The loops that a failed start leaves behind end when their channels are closed. -/
theorem Going.ends_unserved {c : StartCall} (h : Going D decode start s)
    (hexit : start.exit = some (.error (.start c))) :
    ∃ s', Transition.Reaches (Supervised.step D decode) Event.Orderly s s' ∧ s'.Down := by
  obtain ⟨a,hreach,hstopped⟩ : ∃ a,
      Transition.Reaches (Supervised.step D decode) Event.Orderly s a ∧ a.point = .stopped := by
    by_cases hpoint : s.point = .stopped
    · exact ⟨s,.refl s,hpoint⟩
    · obtain ⟨a,hreach,hhead,-,-,-⟩ := h.reaches_head hpoint
      have ha := h.reaches hreach
      obtain ⟨hserving,-,-,hthreads,hadmission⟩ := ha.failed hexit
      obtain ⟨b,hreach',-,hb⟩ := reaches_stopped (D := D) ha.begun hhead
        (Or.inr (Or.inr ⟨⟨hserving,by simp [hthreads]⟩,hadmission⟩))
      exact ⟨b,hreach.trans hreach',hb⟩
  obtain ⟨b,hreach',⟨hb,hstopped'⟩,hclosed⟩ := (h.reaches hreach).closed_of_stopped hstopped
  obtain ⟨hserving,hupdating,hwatching,hthreads,-⟩ := hb.failed hexit
  exact ⟨b,hreach.trans hreach',hclosed,hstopped',hserving,hupdating,hwatching,
    by simp [hthreads]⟩

/-- The client does not end by itself, and can end whole. In every run without a signal, a panic
or a start that fails, nothing ends. `run` returns the error of a call of the start if and only
if that call has failed; then the token is cancelled by signals alone, the loops that were not
spawned never run, no request is ever taken, and what is left behind ends without a signal when
its channels are closed. After a start that went well `run` returns an error only for a panic of
the loop that the error names, so never for one of the HTTP server or of the message loop, and
the token is cancelled when it returns. And as long as it has not returned, also during the
start, once something has ended, or was told to, everything else can end without a further
signal, panic, failure or request: each handler whose client is there comes to its reply, and
`run` has yet to return, whichever task it looks at. -/
theorem supervised (hrun : Transition.run (step D decode) init es = some s) :
    ((∀ e ∈ es, ¬e.Upsets) → s.Alive) ∧
    (∀ c, s.exit = some (.error (.start c)) ↔ .start c false ∈ es) ∧
    (∀ c, .start c false ∈ es →
      (s.cancelled = true ↔ .signal ∈ es) ∧ (∀ l ∈ c.unstarted, s.Halted l) ∧
      s.tasks.node.bridge.threads = [] ∧
      ∃ s', Transition.Reaches (step D decode) Event.Orderly s s' ∧ s'.Down) ∧
    ((∀ c, .start c false ∉ es) → s.exit ≠ none → s.cancelled = true) ∧
    (∀ h, s.exit = some (.error (.panicked h)) → ∃ l ∈ h.loop, .panic l ∈ es) ∧
    (¬s.Alive → s.exit = none →
      ∃ s', Transition.Reaches (step D decode) Event.Orderly s s' ∧ s'.Down ∧
        (∀ (i : ℕ) h, s.tasks.node.bridge.threads[i]? = some h → ¬h.Lost →
          ∃ h' r, s'.tasks.node.bridge.threads[i]? = some h' ∧ h'.reply = some r) ∧
        ∀ j, step D decode s' (.join j) =
          some { s' with cancelled := true,exit := some (s'.joined j) }) := by
  have hstage := stage_run hrun
  have hfailed : ∀ c, s.exit = some (.error (.start c)) ↔ .start c false ∈ es := by
    intro c
    cases hstage with
    | starting _ exit _ _ _ _ _ intact => simp [exit,intact]
    | begun _ exit _ intact => simp [exit,intact]
    | failed _ exit _ _ _ _ only => simp [exit,only,eq_comm]
  refine ⟨fun hquiet => ?_,hfailed,fun c hc => ?_,fun hintact hexit => ?_,fun h hexit => ?_,
    fun hdown hexit => ?_⟩
  · exact (Transition.along_of_forall init hquiet).preserves
      (fun _ _ _ hstep he hs => alive_step hstep he hs) hrun
        ⟨rfl,by simp [init,point,Tasks.init,Node.init,Uploads.init,Coordinator.init],
          rfl,rfl,rfl,rfl,rfl⟩
  · have hexit := (hfailed c).mpr hc
    cases hstage with
    | starting _ exit => simp [exit] at hexit
    | begun _ exit => exact absurd hexit (exit c)
    | failed call exit halted watching unserved token only =>
      obtain rfl := (only c).mp hc
      have hgoing : Going D decode s s := ⟨⟨es,hrun⟩,call,Node.stays_refl _,rfl⟩
      exact ⟨token,halted,unserved.threads,hgoing.ends_unserved exit⟩
  · exact hstage.cancelled (fun c hc => hintact c ((hfailed c).mp hc)) (Or.inl hexit)
  · have hblamed := blamed_run hrun
    obtain ⟨l,hl,hpanicked⟩ := hblamed.exit h hexit
    exact ⟨l,hl,hblamed.panicked l hpanicked⟩
  · have hbegun := reaches_begun D decode s
    obtain ⟨fs,-,hrun'⟩ := hbegun
    have hgoing : Going D decode s { s with starting := none } :=
      ⟨⟨es ++ fs,Transition.run_append_eq_some.mpr ⟨s,hrun,hrun'⟩⟩,rfl,Node.stays_refl _,rfl⟩
    have hdown' : ¬Alive { s with starting := none } := fun h => hdown
      ⟨h.swarm,h.coordinator,h.server,h.updates,h.watching,h.token,h.running⟩
    obtain ⟨v,hreach,hv,hlast⟩ := hgoing.ends hexit hdown'
    exact ⟨v,(reaches_begun D decode s).trans hreach,hv,
      fun i h hi hlost => hlast.stays.replied hv.handlers hi hlost,
      hv.joins hlast.begun (hlast.exit.trans hexit) D decode⟩

/-- The start goes well, and an upload is streaming when the message loop panics. -/
def unnoticed : List Event :=
  [.start .goPublic true,.start .acceptPushes true,.start .acceptPulls true,.start .bind true,
    .tasks (.node (.request (.post blobId (some [49])))),.tasks (.node (.act 0 .acquire)),
    .panic .updates]

/-- The upload is answered, and `run` returns no error. -/
theorem supervised_unnoticed : ∃ s s',
    Transition.run (step (Deps.sample 1 Nat.one_pos) List.head?) init unnoticed = some s ∧
      s.panicked = [.updates] ∧
      Transition.Reaches (step (Deps.sample 1 Nat.one_pos) List.head?) Event.Orderly s s' ∧
      s'.Down ∧ (∃ h' r, s'.tasks.node.bridge.threads[0]? = some h' ∧ h'.reply = some r) ∧
      (step (Deps.sample 1 Nat.one_pos) List.head? s' (.join .bridge)).map Supervised.exit =
        some (some (.ok ())) := by
  have hlast : (Transition.run (step (Deps.sample 1 Nat.one_pos) List.head?) init unnoticed).map
      (fun s => (s.exit.isNone,s.panicked,s.tasks.node.updating,
        s.tasks.node.bridge.threads.map Handler.work)) =
      some (true,[.updates],false,[2]) := by decide
  obtain ⟨s,hrun,hs⟩ := Option.map_eq_some_iff.mp hlast
  simp only [Prod.mk.injEq,Option.isNone_iff_eq_none] at hs
  obtain ⟨hexit,hpanicked,hupdating,hthreads⟩ := hs
  have hdown : ¬s.Alive := fun h => by
    rw [h.updates] at hupdating
    cases hupdating
  obtain ⟨-,-,-,-,-,hends⟩ := supervised hrun
  obtain ⟨s',hreach,hs',hreplied,hjoin⟩ := hends hdown hexit
  obtain ⟨h,l,hcons,hwork,-⟩ := List.map_eq_cons_iff.mp hthreads
  have hlost : ¬h.Lost := by
    intro hl
    cases h with
    | unwinding => cases hwork
    | posted => cases hwork
    | got => cases hwork
    | _ => exact hl
  refine ⟨s,s',hrun,hpanicked,hreach,hs',hreplied 0 h (by rw [hcons]; rfl) hlost,?_⟩
  rw [hjoin .bridge]
  simp [joined,RunHandle.loop]

/-- A `bind` that fails leaves two loops running. -/
example : (Transition.run (step (Deps.sample 1 Nat.one_pos) List.head?) init
    [.start .goPublic true,.start .acceptPushes true,.start .acceptPulls true,
      .start .bind false]).map (fun s => (s.cancelled,s.tasks.swarm.isOpen,s.point)) =
    some (false,true,.head) := by decide

end Supervised

end Gozara
