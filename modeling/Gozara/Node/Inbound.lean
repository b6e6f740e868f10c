import Gozara.BlobTransfer.Sessions
import Gozara.Library.Progress
import Gozara.Node.Wired

/-!
# What peers get from the client

Each stream that a peer opens is served by a task of its own. The tasks of pushes and of pulls
hand their messages to the coordinator on two unbounded channels; it takes them at its head and
lets them go. So pushes are acknowledged, and every pull is told that there is nothing.
-/
namespace Gozara
open BlobTransfer

/-- `PUSH_PROTOCOL` and `PULL_PROTOCOL`. -/
inductive StreamProtocol
  | push
  | pull
  deriving DecidableEq

/-- Where the task of a stream is. -/
inductive Session.Phase
  | opened
  /-- At `reply_rx.await`; `none` until the reply channel is used or dropped. -/
  | awaiting (rest : Stream) (reply : Option Reply)
  | ended (result : Except TransferError Unit) (rest : Stream)
  deriving DecidableEq

/-- A stream with what its peer sends on it and how much it takes back. -/
structure Session where
  protocol : StreamProtocol
  peer : PeerId
  incoming : Bytes
  room : Option ℕ
  phase : Session.Phase
  deriving DecidableEq

namespace Session

/-- The stream as it was accepted. -/
def stream (t : Session) : Stream := ⟨t.incoming,[],t.room⟩

/-- The reply channel of a message that nobody responded to. -/
def dropReply (t : Session) : Session :=
  match t.phase with
  | .awaiting rest none => { t with phase := .awaiting rest (some .dropped) }
  | _ => t

/-- The push that a task has put on the channel, or tried to. -/
def emitted (D : Deps) (t : Session) : List IncomingPush :=
  match t.protocol,t.phase with
  | .push,.ended _ _ => (handleIncomingPush D t.peer D.chunkSize [] t.stream).2.1
  | _,_ => []

/-- How many steps the task has left. -/
def work (t : Session) : ℕ :=
  match t.phase with
  | .opened => 2
  | .awaiting _ _ => 1
  | .ended _ _ => 0

end Session

/-- The client with the streams that peers have opened. The last field records the pushes that
the coordinator has taken from its channel. -/
structure Inbound where
  tasks : Tasks
  sessions : List Session
  incomingPushes : List IncomingPush
  /-- Each message with the number of the session that holds its `reply_rx`. -/
  incomingPulls : List (ℕ × IncomingPull)
  taken : List IncomingPush

namespace Inbound

inductive Event
  | incoming (protocol : StreamProtocol) (peer : PeerId) (bytes : Bytes) (room : Option ℕ)
  | push (i : ℕ)
  | ask (i : ℕ)
  | answer (i : ℕ)
  | recvPush
  | recvPull
  | tasks (e : Tasks.Event)
  deriving DecidableEq

def init (w : Wiring) : Inbound := ⟨Tasks.init w,[],[],[],[]⟩

/-- The messages with these numbers are dropped. -/
def dropReplies (is : List ℕ) (sessions : List Session) : List Session :=
  sessions.mapIdx fun i t => if i ∈ is then t.dropReply else t

def point (s : Inbound) : Point := s.tasks.node.engine.coordinator.point

/-- The receivers of both channels go with the coordinator's loop. -/
def withTasks (s : Inbound) (t : Tasks) : Inbound :=
  if t.node.engine.coordinator.point = .stopped then
    { s with
      tasks := t
      sessions := dropReplies (s.incomingPulls.map Prod.fst) s.sessions
      incomingPushes := []
      incomingPulls := [] }
  else { s with tasks := t }

variable (D : Deps) (decode : Decode) (w : Wiring)

/-- `handle_incoming_push`. -/
def onPush (s : Inbound) (i : ℕ) (t : Session) : Inbound :=
  let r := handleIncomingPush D t.peer D.chunkSize [] t.stream
  let sessions := s.sessions.set i { t with phase := .ended r.1 r.2.2 }
  if s.point = .stopped then { s with sessions := sessions }
  else { s with
    sessions := sessions
    incomingPushes := s.incomingPushes ++ r.2.1 }

/-- `handle_incoming_pull` up to its await. -/
def onAsk (s : Inbound) (i : ℕ) (t : Session) : Inbound :=
  match askPull t.stream with
  | (.error e,rest) =>
    { s with sessions := s.sessions.set i { t with phase := .ended (.error e) rest } }
  | (.ok hash,rest) =>
    if s.point = .stopped then
      { s with sessions := s.sessions.set i { t with phase := .awaiting rest (some .dropped) } }
    else { s with
      sessions := s.sessions.set i { t with phase := .awaiting rest none }
      incomingPulls := s.incomingPulls ++ [(i,⟨t.peer,hash⟩)] }

def step (s : Inbound) : Event → Option Inbound
  | .incoming protocol peer bytes room => some { s with
      sessions := s.sessions ++ [⟨protocol,peer,bytes,room,.opened⟩] }
  | .push i => s.sessions[i]?.bind fun t =>
      if t.protocol = .push ∧ t.phase = .opened then some (s.onPush D i t) else none
  | .ask i => s.sessions[i]?.bind fun t =>
      if t.protocol = .pull ∧ t.phase = .opened then some (s.onAsk i t) else none
  | .answer i => s.sessions[i]?.bind fun t =>
      match t.phase with
      | .awaiting rest (some reply) =>
        let r := answerPull reply.data rest
        some { s with sessions := s.sessions.set i { t with phase := .ended r.1 r.2 } }
      | _ => none
  | .recvPush =>
    match s.incomingPushes with
    | [] => none
    | p::rest =>
      if s.point = .head then
        some { s with incomingPushes := rest,taken := s.taken ++ [p] }
      else none
  | .recvPull =>
    match s.incomingPulls with
    | [] => none
    | (i,_)::rest =>
      -- The arm does nothing with the message, and its reply channel goes with it.
      if s.point = .head then
        some { s with incomingPulls := rest,sessions := dropReplies [i] s.sessions }
      else none
  | .tasks e => (Tasks.step D decode w s.tasks e).map s.withTasks

end Inbound

namespace Session
variable {D : Deps} {waits waits' : Prop} {t : Session}

/-- The task is where its stream and a consumer that lets go take it. `waits` says that its
message is on the channel. -/
def Sound (D : Deps) (waits : Prop) (t : Session) : Prop :=
  match t.phase with
  | .opened => True
  | .awaiting rest reply => t.protocol = .pull ∧ (∃ hash, askPull t.stream = (.ok hash,rest)) ∧
      (reply = some .dropped ∨ reply = none ∧ waits)
  | .ended result rest =>
    match t.protocol with
    | .push => (handleIncomingPush D t.peer D.chunkSize [] t.stream).1 = result ∧
        (handleIncomingPush D t.peer D.chunkSize [] t.stream).2.2 = rest
    | .pull => handleIncomingPull t.peer (some letGo) t.stream = (result,rest)

lemma Sound.mono (h : t.Sound D waits) (hw : waits → waits') : t.Sound D waits' := by
  unfold Sound at h ⊢
  split at h
  · trivial
  · exact ⟨h.1,h.2.1,h.2.2.imp_right fun hnone => ⟨hnone.1,hw hnone.2⟩⟩
  · exact h

/-- A task whose message is dropped need not wait any more. -/
lemma Sound.dropReply (h : t.Sound D waits) (waits' : Prop) : t.dropReply.Sound D waits' := by
  obtain ⟨protocol,peer,incoming,room,phase⟩ := t
  cases phase with
  | opened => trivial
  | awaiting rest reply =>
    cases reply with
    | none => exact ⟨h.1,h.2.1,Or.inl rfl⟩
    | some reply => exact ⟨h.1,h.2.1,h.2.2.imp_right fun hnone => by cases hnone.1⟩
  | ended result rest => exact h

@[simp] lemma emitted_dropReply (t : Session) : t.dropReply.emitted D = t.emitted D := by
  obtain ⟨protocol,peer,incoming,room,phase⟩ := t
  rcases phase with _ | ⟨rest,_ | reply⟩ | ⟨result,rest⟩ <;> cases protocol <;> rfl

@[simp] lemma work_dropReply (t : Session) : t.dropReply.work = t.work := by
  obtain ⟨protocol,peer,incoming,room,phase⟩ := t
  rcases phase with _ | ⟨rest,_ | reply⟩ | ⟨result,rest⟩ <;> rfl

end Session

namespace Inbound
variable {D : Deps} {decode : Decode} {s s' : Inbound} {e : Event} {is : List ℕ} {i : ℕ}
  {t : Session} {l : List Session}

/-- What an event does. -/
inductive Does (D : Deps) (decode : Decode) (s : Inbound) : Event → Inbound → Prop
  | incoming {protocol : StreamProtocol} {peer : PeerId} {bytes : Bytes} {room : Option ℕ} :
      Does D decode s (.incoming protocol peer bytes room) { s with
        sessions := s.sessions ++ [⟨protocol,peer,bytes,room,.opened⟩] }
  | push {i : ℕ} {t : Session} (session : s.sessions[i]? = some t) (protocol : t.protocol = .push)
      (opened : t.phase = .opened) : Does D decode s (.push i) (s.onPush D i t)
  | ask {i : ℕ} {t : Session} (session : s.sessions[i]? = some t) (protocol : t.protocol = .pull)
      (opened : t.phase = .opened) : Does D decode s (.ask i) (s.onAsk i t)
  | answer {i : ℕ} {t : Session} {rest : Stream} {reply : Reply}
      (session : s.sessions[i]? = some t) (awaiting : t.phase = .awaiting rest (some reply)) :
      Does D decode s (.answer i) { s with sessions := s.sessions.set i { t with
        phase := .ended (answerPull reply.data rest).1 (answerPull reply.data rest).2 } }
  | recvPush {p : IncomingPush} {rest : List IncomingPush} (queue : s.incomingPushes = p::rest)
      (head : s.point = .head) :
      Does D decode s .recvPush { s with incomingPushes := rest,taken := s.taken ++ [p] }
  | recvPull {i : ℕ} {p : IncomingPull} {rest : List (ℕ × IncomingPull)}
      (queue : s.incomingPulls = (i,p)::rest) (head : s.point = .head) :
      Does D decode s .recvPull { s with
        incomingPulls := rest,sessions := dropReplies [i] s.sessions }
  | tasks {e : Tasks.Event} {t : Tasks} (step : Tasks.step D decode .client s.tasks e = some t) :
      Does D decode s (.tasks e) (s.withTasks t)

theorem does_of_step (h : step D decode .client s e = some s') : Does D decode s e s' := by
  cases e with
  | incoming protocol peer bytes room =>
    cases h
    exact .incoming
  | push i =>
    obtain ⟨t,ht,h⟩ := Option.bind_eq_some_iff.mp h
    split_ifs at h with hcond
    cases h
    exact .push ht hcond.1 hcond.2
  | ask i =>
    obtain ⟨t,ht,h⟩ := Option.bind_eq_some_iff.mp h
    split_ifs at h with hcond
    cases h
    exact .ask ht hcond.1 hcond.2
  | answer i =>
    obtain ⟨t,ht,h⟩ := Option.bind_eq_some_iff.mp h
    split at h
    · rename_i rest reply hphase
      cases h
      exact .answer ht hphase
    · cases h
  | recvPush =>
    simp only [step] at h
    split at h
    · cases h
    · rename_i p rest hqueue
      split_ifs at h with hpoint
      cases h
      exact .recvPush hqueue hpoint
  | recvPull =>
    simp only [step] at h
    split at h
    · cases h
    · rename_i i p rest hqueue
      split_ifs at h with hpoint
      cases h
      exact .recvPull hqueue hpoint
  | tasks e =>
    obtain ⟨t,ht,rfl⟩ := Option.map_eq_some_iff.mp h
    exact .tasks ht

lemma getElem?_dropReplies : (dropReplies is l)[i]? =
    l[i]?.map fun t => if i ∈ is then t.dropReply else t := by
  simp [dropReplies]

/-- What dropping a reply leaves, it leaves of all sessions. -/
lemma map_dropReplies {α : Type} (f : Session → α) (hf : ∀ t : Session, f t.dropReply = f t) :
    (dropReplies is l).map f = l.map f := by
  refine List.ext_getElem? fun i => ?_
  rw [List.getElem?_map,getElem?_dropReplies,List.getElem?_map,Option.map_map]
  congr 1
  funext t
  dsimp only [Function.comp]
  split_ifs
  · exact hf t
  · rfl

/-- The sessions and what the coordinator has of them. -/
structure Served (D : Deps) (s : Inbound) : Prop where
  session : ∀ (i : ℕ) (t : Session), s.sessions[i]? = some t →
    t.Sound D (i ∈ s.incomingPulls.map Prod.fst)
  pushes : s.point ≠ .stopped →
    (s.taken ++ s.incomingPushes).Perm (s.sessions.flatMap (Session.emitted D))
  closed : s.point = .stopped → s.incomingPulls = []

theorem served_init (D : Deps) (w : Wiring) : Served D (init w) where
  session := by simp [init]
  pushes := fun _ => List.Perm.refl _
  closed := fun _ => rfl

lemma session_set {waiting waiting' : List ℕ} {t' : Session}
    (h : ∀ (j : ℕ) (u : Session), l[j]? = some u → u.Sound D (j ∈ waiting))
    (hsub : waiting ⊆ waiting') (ht' : t'.Sound D (i ∈ waiting')) (j : ℕ) (u : Session)
    (hu : (l.set i t')[j]? = some u) : u.Sound D (j ∈ waiting') := by
  rw [List.getElem?_set] at hu
  split_ifs at hu with hij hlt
  · cases hu
    exact hij ▸ ht'
  · exact (h j u hu).mono fun hj => hsub hj

lemma session_drop {waiting waiting' : List ℕ}
    (h : ∀ (j : ℕ) (u : Session), l[j]? = some u → u.Sound D (j ∈ waiting))
    (hsplit : ∀ j ∈ waiting, j ∈ is ∨ j ∈ waiting') (j : ℕ) (u : Session)
    (hu : (dropReplies is l)[j]? = some u) : u.Sound D (j ∈ waiting') := by
  rw [getElem?_dropReplies] at hu
  obtain ⟨t,ht,rfl⟩ := Option.map_eq_some_iff.mp hu
  split_ifs with hj
  · exact (h j t ht).dropReply _
  · exact (h j t ht).mono fun hw => (hsplit j hw).resolve_left hj

lemma flatMap_dropReplies : (dropReplies is l).flatMap (Session.emitted D) =
    l.flatMap (Session.emitted D) := by
  rw [List.flatMap_def,map_dropReplies _ Session.emitted_dropReply,← List.flatMap_def]

/-- A task of a push ends. -/
theorem served_push (h : Served D s) (ht : s.sessions[i]? = some t) (hpush : t.protocol = .push)
    (hopened : t.phase = .opened) : Served D (s.onPush D i t) := by
  obtain ⟨protocol,peer,incoming,room,phase⟩ := t
  cases hpush
  cases hopened
  have hended : Session.Sound D (i ∈ s.incomingPulls.map Prod.fst)
      ⟨.push,peer,incoming,room,.ended
        (handleIncomingPush D peer D.chunkSize [] ⟨incoming,[],room⟩).1
        (handleIncomingPush D peer D.chunkSize [] ⟨incoming,[],room⟩).2.2⟩ := ⟨rfl,rfl⟩
  have hsessions := session_set h.session (List.Subset.refl _) hended
  unfold onPush
  dsimp only
  split_ifs with hpoint
  · exact ⟨hsessions,fun hrun => absurd hpoint hrun,h.closed⟩
  · refine ⟨hsessions,fun hrun => ?_,h.closed⟩
    refine List.Perm.trans ?_ (Pool.perm_flatMap_set (Session.emitted D) ht rfl _).symm
    rw [← List.append_assoc]
    exact (h.pushes hrun).append_right _

/-- A task of a pull reads its hash. -/
theorem served_ask (h : Served D s) (ht : s.sessions[i]? = some t) (hpull : t.protocol = .pull)
    (hopened : t.phase = .opened) : Served D (s.onAsk i t) := by
  obtain ⟨protocol,peer,incoming,room,phase⟩ := t
  cases hpull
  cases hopened
  -- A pull gives out no push, whatever its phase.
  have hpushes : ∀ phase, s.point ≠ .stopped → (s.taken ++ s.incomingPushes).Perm
      ((s.sessions.set i ⟨.pull,peer,incoming,room,phase⟩).flatMap (Session.emitted D)) := by
    intro phase hrun
    refine (h.pushes hrun).trans (List.Perm.trans ?_
      (Pool.perm_flatMap_set (Session.emitted D) ht rfl _).symm)
    rw [Session.emitted,List.append_nil]
  unfold onAsk
  split
  · rename_i e rest hask
    exact ⟨session_set h.session (List.Subset.refl _) (handleIncomingPull_failed hask _),
      hpushes _,h.closed⟩
  · rename_i hash rest hask
    split_ifs with hpoint
    · exact ⟨session_set h.session (List.Subset.refl _) ⟨rfl,⟨hash,hask⟩,Or.inl rfl⟩,
        hpushes _,h.closed⟩
    · refine ⟨session_set h.session ?_ ⟨rfl,⟨hash,hask⟩,Or.inr ⟨rfl,?_⟩⟩,hpushes _,
        fun hstop => absurd hstop hpoint⟩
      · rw [List.map_append]
        exact List.subset_append_left _ _
      · simp

/-- A task of a pull answers. -/
theorem served_answer {rest : Stream} {reply : Reply} (h : Served D s)
    (ht : s.sessions[i]? = some t) (hphase : t.phase = .awaiting rest (some reply)) :
    Served D { s with sessions := s.sessions.set i { t with
      phase := .ended (answerPull reply.data rest).1 (answerPull reply.data rest).2 } } := by
  have hsound := h.session i t ht
  obtain ⟨protocol,peer,incoming,room,phase⟩ := t
  cases hphase
  obtain ⟨rfl,⟨hash,hask⟩,hreply⟩ := hsound
  have hdropped : reply = .dropped := by
    rcases hreply with hsome | ⟨hnone,-⟩
    · exact Option.some.inj hsome
    · cases hnone
  subst hdropped
  refine ⟨session_set h.session (List.Subset.refl _) (handleIncomingPull_asked hask _),
    fun hrun => ?_,h.closed⟩
  refine (h.pushes hrun).trans (List.Perm.trans ?_
    (Pool.perm_flatMap_set (Session.emitted D) ht rfl _).symm)
  rw [Session.emitted,List.append_nil]

variable {es : List Event}

theorem served_step (hstep : step D decode .client s e = some s') (h : Served D s) :
    Served D s' := by
  cases does_of_step hstep with
  | @incoming protocol peer bytes room =>
    refine ⟨fun i t ht => ?_,fun hrun => ?_,h.closed⟩
    · rcases Pool.getElem?_concat_eq_some ht with ht | ⟨-,rfl⟩
      · exact h.session i t ht
      · trivial
    · have hnew : Session.emitted D ⟨protocol,peer,bytes,room,.opened⟩ = [] := by
        cases protocol <;> rfl
      simpa [hnew] using h.pushes hrun
  | push session protocol opened => exact served_push h session protocol opened
  | ask session protocol opened => exact served_ask h session protocol opened
  | answer session awaiting => exact served_answer h session awaiting
  | recvPush queue =>
    refine ⟨h.session,fun hrun => ?_,h.closed⟩
    have hpushes := h.pushes hrun
    rw [queue] at hpushes
    simpa using hpushes
  | recvPull queue head =>
    refine ⟨session_drop h.session fun j hj => ?_,fun hrun => ?_,fun hstop => ?_⟩
    · simpa [queue] using hj
    · rw [flatMap_dropReplies]
      exact h.pushes hrun
    · exact absurd (head.symm.trans hstop) (by simp)
  | tasks step =>
    unfold withTasks
    split_ifs with hpoint
    · exact ⟨session_drop h.session fun j hj => Or.inl hj,fun hrun => absurd hpoint hrun,
        fun _ => rfl⟩
    · exact ⟨h.session,fun _ => h.pushes (Tasks.running_of_step step hpoint),
        fun hstop => absurd hstop hpoint⟩

@[simp] lemma tasks_withTasks (s : Inbound) (t : Tasks) : (s.withTasks t).tasks = t := by
  unfold withTasks
  split_ifs <;> rfl

lemma tasks_onPush (D : Deps) (s : Inbound) (i : ℕ) (t : Session) :
    (s.onPush D i t).tasks = s.tasks := by
  unfold onPush
  dsimp only
  split_ifs <;> rfl

lemma tasks_onAsk (s : Inbound) (i : ℕ) (t : Session) : (s.onAsk i t).tasks = s.tasks := by
  unfold onAsk
  split
  · rfl
  · split_ifs <;> rfl

/-- Streams and messages from them leave the tasks of the client as they are. -/
theorem tasks_of_step (h : step D decode .client s e = some s') : s'.tasks = s.tasks ∨
    ∃ te, Tasks.step D decode .client s.tasks te = some s'.tasks := by
  cases does_of_step h with
  | @push i t => exact Or.inl (tasks_onPush D s i t)
  | @ask i t => exact Or.inl (tasks_onAsk s i t)
  | tasks step => exact Or.inr ⟨_,by rwa [tasks_withTasks]⟩
  | _ => exact Or.inl rfl

/-- What holds in every state of a run. -/
structure Reached (D : Deps) (s : Inbound) : Prop where
  served : Served D s
  fits : Tasks.Fits .client s.tasks

theorem reached_step (h : step D decode .client s e = some s') (hs : Reached D s) :
    Reached D s' := by
  refine ⟨served_step h hs.served,?_⟩
  rcases tasks_of_step h with heq | ⟨te,htasks⟩
  · exact heq ▸ hs.fits
  · exact Tasks.fits_step htasks hs.fits

theorem reached_run (hrun : Transition.run (step D decode .client) (init .client) es = some s) :
    Reached D s :=
  Transition.run_preserves (fun _ _ _ h hs => reached_step h hs) hrun
    ⟨served_init D .client,Tasks.fits_init .client⟩

/-- The steps of open streams, and sends and receives on the channels of the client. -/
def Serves : Event → Prop
  | .incoming _ _ _ _ => False
  | .tasks e => e.task.isSome
  | _ => True

/-- The coordinator comes back to its head, with the same messages before it. -/
theorem reaches_head (hs : Reached D s) (hpoint : s.point ≠ .stopped) :
    ∃ s', Transition.Reaches (step D decode .client) Serves s s' ∧ s'.point = .head ∧
      s'.sessions = s.sessions ∧ s'.incomingPulls = s.incomingPulls := by
  obtain ⟨t,hreach,hhead⟩ := Tasks.reaches_head D decode hs.fits hpoint
  have hkeep : ∀ (a : Inbound) (e : Tasks.Event) (u : Tasks),
      Tasks.step D decode .client a.tasks e = some u → e.task.isSome →
      (a.point ≠ .stopped → a.sessions = s.sessions ∧ a.incomingPulls = s.incomingPulls) →
      ∃ b, Transition.Reaches (step D decode .client) Serves a b ∧
        (b.point ≠ .stopped → b.sessions = s.sessions ∧ b.incomingPulls = s.incomingPulls) ∧
          b.tasks = u := by
    intro a e u hu he ha
    have hstep : step D decode .client a (.tasks e) = some (a.withTasks u) := by
      simp only [step,hu,Option.map_some]
    have hserves : Serves (.tasks e) := he
    refine ⟨a.withTasks u,.single hserves hstep,fun hrunning => ?_,tasks_withTasks a u⟩
    rw [point,tasks_withTasks] at hrunning
    rw [withTasks,if_neg hrunning]
    exact ha (Tasks.running_of_step hu hrunning)
  obtain ⟨s',hreach',hkept,rfl⟩ := hreach.lift (f := Inbound.tasks) hkeep fun _ => ⟨rfl,rfl⟩
  obtain ⟨hsessions,hpulls⟩ := hkept (by rw [point,hhead]; simp)
  exact ⟨s',hreach',hhead,hsessions,hpulls⟩

/-- The steps that are left, and the messages that wait for the coordinator. -/
def work (s : Inbound) : ℕ := 2*(s.sessions.map Session.work).sum+s.incomingPulls.length

lemma work_set {i : ℕ} {t t' : Session} (ht : s.sessions[i]? = some t)
    (hless : t'.work < t.work) :
    ((s.sessions.set i t').map Session.work).sum < (s.sessions.map Session.work).sum := by
  have hsum := Pool.sum_map_set Session.work ht t'
  omega

lemma work_onPush {i : ℕ} {t : Session} (ht : s.sessions[i]? = some t)
    (hopened : t.phase = .opened) : (s.onPush D i t).work < s.work := by
  have hless : ∀ result rest, ({ t with phase := .ended result rest } : Session).work < t.work := by
    intro result rest
    rw [Session.work,Session.work,hopened]
    exact Nat.two_pos
  unfold onPush
  dsimp only
  split_ifs
  all_goals
    have hset := work_set ht (hless
      (handleIncomingPush D t.peer D.chunkSize [] t.stream).1
      (handleIncomingPush D t.peer D.chunkSize [] t.stream).2.2)
    simp only [work]
    omega

lemma work_onAsk {i : ℕ} {t : Session} (ht : s.sessions[i]? = some t)
    (hopened : t.phase = .opened) : (s.onAsk i t).work < s.work := by
  have hless : ∀ phase, phase ≠ .opened → ({ t with phase := phase } : Session).work < t.work := by
    intro phase hphase
    rw [Session.work,Session.work,hopened]
    cases phase with
    | opened => exact absurd rfl hphase
    | awaiting rest reply => exact Nat.one_lt_two
    | ended result rest => exact Nat.two_pos
  unfold onAsk
  split
  · rename_i e rest hask
    have hset := work_set ht (hless (.ended (.error e) rest) (by simp))
    simp only [work]
    omega
  · rename_i hash rest hask
    split_ifs
    · have hset := work_set ht (hless (.awaiting rest (some .dropped)) (by simp))
      simp only [work]
      omega
    · have hset := work_set ht (hless (.awaiting rest none) (by simp))
      simp only [work,List.length_append,List.length_singleton]
      omega

lemma work_answer {i : ℕ} {t : Session} {rest : Stream} {reply : Option Reply}
    (ht : s.sessions[i]? = some t) (hphase : t.phase = .awaiting rest reply)
    (result : Except TransferError Unit) (rest' : Stream) :
    work { s with sessions := s.sessions.set i { t with phase := .ended result rest' } } <
      s.work := by
  have hless : ({ t with phase := .ended result rest' } : Session).work < t.work := by
    rw [Session.work,Session.work,hphase]
    exact Nat.one_pos
  have hset := work_set ht hless
  simp only [work]
  omega

/-- As long as a stream is open, something can be done for one. -/
theorem reaches_less (hs : Reached D s) (hopen : ¬∀ t ∈ s.sessions, t.work = 0) :
    ∃ s', Transition.Reaches (step D decode .client) Serves s s' ∧ Reached D s' ∧
      s'.work < s.work := by
  have hone : ∀ {e : Event} {u : Inbound}, Serves e → step D decode .client s e = some u →
      u.work < s.work → ∃ s', Transition.Reaches (step D decode .client) Serves s s' ∧
        Reached D s' ∧ s'.work < s.work := fun he hstep hless =>
    ⟨_,.single he hstep,reached_step hstep hs,hless⟩
  push Not at hopen
  obtain ⟨t,hmem,hwork⟩ := hopen
  obtain ⟨i,hi,ht⟩ := List.getElem_of_mem hmem
  have ht : s.sessions[i]? = some t := List.getElem?_eq_some_iff.mpr ⟨hi,ht⟩
  cases hphase : t.phase with
  | opened =>
    cases hprotocol : t.protocol with
    | push =>
      refine hone (e := .push i) trivial ?_ (work_onPush (D := D) ht hphase)
      simp only [step,ht,Option.bind_some,hprotocol,hphase,and_self,if_true]
    | pull =>
      refine hone (e := .ask i) trivial ?_ (work_onAsk ht hphase)
      simp only [step,ht,Option.bind_some,hprotocol,hphase,and_self,if_true]
  | awaiting rest reply =>
    cases reply with
    | some reply =>
      refine hone (e := .answer i) trivial ?_ (work_answer ht hphase
        (answerPull reply.data rest).1 (answerPull reply.data rest).2)
      simp only [step,ht,Option.bind_some,hphase]
    | none =>
      -- The message is before the coordinator, so that the loop has not ended.
      have hsound := hs.served.session i t ht
      unfold Session.Sound at hsound
      rw [hphase] at hsound
      have hwaits : i ∈ s.incomingPulls.map Prod.fst := by
        rcases hsound.2.2 with hsome | ⟨-,hwaits⟩
        · cases hsome
        · exact hwaits
      have hpoint : s.point ≠ .stopped := by
        intro hstop
        rw [hs.served.closed hstop] at hwaits
        cases hwaits
      obtain ⟨s',hreach,hhead,hsessions,hpulls⟩ :
          ∃ s', Transition.Reaches (step D decode .client) Serves s s' ∧ s'.point = .head ∧
            s'.sessions = s.sessions ∧ s'.incomingPulls = s.incomingPulls := reaches_head hs hpoint
      have hs' : Reached D s' := hreach.preserves (fun _ _ _ h _ hs => reached_step h hs) hs
      cases hqueue : s'.incomingPulls with
      | nil =>
        rw [← hpulls,hqueue] at hwaits
        cases hwaits
      | cons p queue =>
        have hstep : step D decode .client s' .recvPull = some { s' with
            incomingPulls := queue,sessions := dropReplies [p.1] s'.sessions } := by
          simp only [step,hqueue,hhead,if_true]
        refine ⟨_,hreach.trans (.single (by trivial) hstep),reached_step hstep hs',?_⟩
        simp only [work,map_dropReplies _ Session.work_dropReply]
        rw [← hsessions,← hpulls,hqueue,List.length_cons]
        omega
  | ended result rest =>
    rw [Session.work,hphase] at hwork
    exact absurd rfl hwork

/-- What peers get from the client, whatever it does besides. A push that is not cut is
acknowledged exactly if its data has its hash, and what was acknowledged comes to the coordinator
once; but no pull gives data to a peer, over any connection, and one that is not cut is told that
there is none. Every open stream can be served to its end. -/
theorem nothing_served
    (hrun : Transition.run (step D decode .client) (init .client) es = some s) :
    (∀ t ∈ s.sessions, ∀ result rest, t.phase = .ended result rest →
      (t.protocol = .push → t.room = none → (rest.outgoing = [1] ↔
        ∃ hash data, Offers D.chunkSize t.incoming hash data ∧ D.blake3 data = hash)) ∧
      (t.protocol = .pull → ∀ hash maxPayloadLen,
        (∀ there back : Direction, ∀ data, pull D (some ⟨back.carry rest.outgoing,[],there.room⟩)
          hash maxPayloadLen ≠ .ok (some data)) ∧
        (t.incoming = frame hash.bytes → t.room = none →
          pull D (some ⟨rest.outgoing,[],none⟩) hash maxPayloadLen = .ok none))) ∧
    (s.point ≠ .stopped →
      (s.taken ++ s.incomingPushes).Perm (s.sessions.flatMap (Session.emitted D))) ∧
    ∃ s', Transition.Reaches (step D decode .client) Serves s s' ∧
      ∀ t ∈ s'.sessions, ∃ result rest, t.phase = .ended result rest := by
  have hs := reached_run hrun
  refine ⟨fun t hmem result rest hphase => ?_,hs.served.pushes,?_⟩
  · obtain ⟨i,hi,ht⟩ := List.getElem_of_mem hmem
    have hsound := hs.served.session i t (List.getElem?_eq_some_iff.mpr ⟨hi,ht⟩)
    unfold Session.Sound at hsound
    rw [hphase] at hsound
    refine ⟨fun hpush hroom => ?_,fun hpull hash maxPayloadLen => ?_⟩
    · rw [hpush] at hsound
      rw [← hsound.2,Session.stream,hroom]
      exact push_acknowledged_iff D t.peer D.chunkSize t.incoming
    · rw [hpull] at hsound
      have hsnd := congrArg (fun r => r.2.outgoing) hsound
      refine ⟨fun there back data => ?_,fun hin hroom => ?_⟩
      · obtain ⟨answer,hanswer,hout⟩ := outgoing_letGo t.peer t.stream
        refine pull_absent ((back.carry_first _).trans ?_)
        rw [← hsnd,hout]
        exact hanswer
      · rw [Session.stream,hin,hroom,handleIncomingPull_whole] at hsnd
        rw [← hsnd]
        exact pull_told D hash maxPayloadLen
  · obtain ⟨s',hreach,-,hdone⟩ := Transition.reaches_of_measure work
      (fun u hu hopen => reaches_less hu hopen) hs
    refine ⟨s',hreach,fun t ht => ?_⟩
    have hzero := hdone t ht
    unfold Session.work at hzero
    split at hzero
    · cases hzero
    · cases hzero
    · rename_i result rest hphase
      exact ⟨result,rest,hphase⟩

/-- A chunk is pushed and taken by the coordinator, and then pulled. -/
def pushedAndPulled : List Event :=
  let hash := Deps.sampleHash [7]
  [.incoming .push ⟨[1]⟩ (frame hash.bytes ++ frame [7]) none,.push 0,
    .incoming .pull ⟨[1]⟩ (frame hash.bytes) none,.recvPush,.ask 1,.recvPull,.answer 1]

theorem nothing_served_pushed : ∃ s t, ∃ rest : Stream,
    Transition.run (step (Deps.sample 1 Nat.one_pos) List.head? .client) (init .client)
        pushedAndPulled = some s ∧
      s.taken = [⟨⟨[1]⟩,Deps.sampleHash [7],[7]⟩] ∧ t ∈ s.sessions ∧
      t.incoming = frame (Deps.sampleHash [7]).bytes ∧
      pull (Deps.sample 1 Nat.one_pos) (some ⟨rest.outgoing,[],none⟩) (Deps.sampleHash [7]) 1 =
        .ok none := by
  have hlast : (Transition.run (step (Deps.sample 1 Nat.one_pos) List.head? .client)
      (init .client) pushedAndPulled).map (fun s => (s.taken,s.sessions[1]?)) =
      some ([⟨⟨[1]⟩,Deps.sampleHash [7],[7]⟩],
        some ⟨.pull,⟨[1]⟩,frame (Deps.sampleHash [7]).bytes,none,
          .ended (.ok ()) ⟨[],[0],none⟩⟩) := by
    decide
  obtain ⟨s,hrun,hs⟩ := Option.map_eq_some_iff.mp hlast
  simp only [Prod.mk.injEq] at hs
  obtain ⟨htaken,ht⟩ := hs
  have hmem := List.mem_of_getElem? ht
  obtain ⟨hended,-,-⟩ := nothing_served hrun
  exact ⟨s,_,⟨[],[0],none⟩,hrun,htaken,hmem,rfl,
    ((hended _ hmem _ _ rfl).2 rfl (Deps.sampleHash [7]) 1).2 rfl rfl⟩

end Inbound

end Gozara
