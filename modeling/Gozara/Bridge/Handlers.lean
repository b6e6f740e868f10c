import Gozara.Library.Pool
import Gozara.Bridge.Chunking

/-!
# The HTTP bridge as handlers over shared state

A request starts a handler; an action takes it from one await to the next, or over one of
the steps between which another task may run. A handler that ends early gives its permits
back first and drops its admission second, in the order in which its variables go out of
scope. Bodies, timeouts, failures and disconnects are arbitrary.
-/
namespace Gozara

/-- `BridgeState`: the status map and the available permits of its semaphores. The last
two fields are not data of the source: hashing tasks whose handlers are gone, and the
history of the messages put on `tx_admission`, each with the number of its request. -/
structure BridgeState where
  hashing : ℕ
  admissionBudget : ℕ
  statusMap : StatusMap
  orphans : ℕ
  enqueued : List (ℕ × ToPipeline)

inductive Request
  | post (id : String) (contentLength : Option Bytes)
  | get (id : String)
  deriving DecidableEq

inductive Action
  | acquire
  | frame (data : Bytes)
  | frameError
  /-- `BODY_IDLE_TIMEOUT` has passed without a frame. -/
  | idle
  | bodyEnd
  | hashStart
  | hashDone
  | hashFail
  | enqueue
  | sendFailed
  | commit
  | unwind
  | disconnect
  deriving DecidableEq

/-- What reaches the state from elsewhere: a message of the coordinator, the end of a
hashing task whose handler is gone, permits of blobs that are dropped. -/
inductive Outside
  | update (msg : ToBridge)
  | orphanDone
  | release (permits : ℕ)
  deriving DecidableEq

namespace Handler

/-- The permits of the admission budget that a handler holds. -/
def permits : Handler → ℕ
  | streaming u | hashing u _ _ _ => u.numChunks
  | sending _ blob => blob.allowance
  | _ => 0

/-- The bytes of the body that a handler holds in its buffer and its chunks. -/
def bytes : Handler → ℕ
  | streaming u => u.bytes
  | hashing u chunk _ _ => u.bytes+chunk.length
  | sending _ blob => blob.body.length
  | _ => 0

/-- The id in the path and the admission of a `new_blob` that was admitted. -/
def post : Handler → Option (String × Admission)
  | acquiring u | streaming u | hashing u _ _ _ => some (u.id,u.admission)
  | sending adm blob => some (blob.id,adm)
  | sent adm id => some (id,adm)
  | unwinding id adm _ => some (id,adm)
  | posted id adm _ => adm.map fun a => (id,a)
  | _ => none

/-- The admission of a handler that has not ended. -/
def liveAdmission : Handler → Option Admission
  | acquiring u | streaming u | hashing u _ _ _ => some u.admission
  | sending adm _ | sent adm _ | unwinding _ adm _ => some adm
  | _ => none

/-- The message in a handler's send. -/
def outbox : Handler → Option ToPipeline
  | sending _ blob => some (.newBlob blob)
  | getting id => some (.getBlob id)
  | _ => none

def accepted (id : String) : Handler := got id (some ⟨.accepted,none,.text id⟩)

end Handler

namespace BridgeState

/-- `BridgeState::new`. -/
def new : BridgeState := ⟨2,totalChunkBudget,∅,0,[]⟩

variable (D : Deps)

/-- The first part of a handler, for the request with number `i`. -/
def request (i : ℕ) (s : BridgeState) : Request → BridgeState × Handler
  | .post id contentLength =>
    match newBlob D i s.statusMap id contentLength with
    | .error code => (s,.posted id none (some (.reject code)))
    | .ok (m,u) => ({ s with statusMap := m },.acquiring u)
  | .get id =>
    let r := getBlob D i s.statusMap id
    ({ s with statusMap := r.1 },r.2)

/-- The permits are dropped; the admission is next. -/
def leave (s : BridgeState) (u : Upload) (reply : Option Response) : BridgeState × Handler :=
  ({ s with admissionBudget := s.admissionBudget+u.numChunks },.unwinding u.id u.admission reply)

def proceed (s : BridgeState) (u : Upload) : Except StatusCode Handler → BridgeState × Handler
  | .ok h => (s,h)
  | .error code => s.leave u (some (.reject code))

/-- A streaming handler gets the next item of its body, or does not. -/
def stream (s : BridgeState) (u : Upload) : Action → Option (BridgeState × Handler)
  | .frame data => some (s.proceed u (onFrame D u data))
  | .frameError => some (s.leave u (some (.reject .badRequest)))
  | .idle => some (s.leave u (some (.reject .requestTimeout)))
  | .bodyEnd => some (s.proceed u (Gozara.bodyEnd D u))
  | .disconnect => some (s.leave u none)
  | _ => none

/-- `hash_chunk`. The hashing task keeps its permit when its handler is dropped. -/
def hash (s : BridgeState) (u : Upload) (chunk : Bytes) (next : AfterHash) (started : Bool) :
    Action → Option (BridgeState × Handler)
  | .hashStart =>
    if started = false ∧ 0 < s.hashing then
      some ({ s with hashing := s.hashing-1 },.hashing u chunk next true)
    else none
  | .hashDone =>
    if started then
      some (proceed { s with hashing := s.hashing+1 } u (onHashed D u chunk next))
    else none
  | .hashFail =>
    if started then
      some (leave { s with hashing := s.hashing+1 } u (some (.reject .internalServerError)))
    else none
  | .disconnect =>
    some (leave { s with orphans := s.orphans+if started then 1 else 0 } u none)
  | _ => none

/-- The send of a `NewBlob`, which owns the permits. -/
def sendNewBlob (i : ℕ) (s : BridgeState) (adm : Admission) (blob : AdmittedBlob) :
    Action → Option (BridgeState × Handler)
  | .enqueue =>
    some ({ s with enqueued := s.enqueued ++ [(i,.newBlob blob)] },.sent adm blob.id)
  | .sendFailed =>
    some ({ s with admissionBudget := s.admissionBudget+blob.allowance },
      .unwinding blob.id adm (some (.reject .internalServerError)))
  | .disconnect =>
    some ({ s with admissionBudget := s.admissionBudget+blob.allowance },
      .unwinding blob.id adm none)
  | _ => none

def sendGetBlob (i : ℕ) (s : BridgeState) (id : String) :
    Action → Option (BridgeState × Handler)
  | .enqueue => some ({ s with enqueued := s.enqueued ++ [(i,.getBlob id)] },.accepted id)
  | .sendFailed => some (s,.got id (some (.reject .internalServerError)))
  | .disconnect => some (s,.got id none)
  | _ => none

def act (i : ℕ) (s : BridgeState) (h : Handler) (a : Action) : Option (BridgeState × Handler) :=
  match h with
  | .acquiring u =>
    if a = .acquire then
      if u.numChunks ≤ s.admissionBudget then
        some ({ s with admissionBudget := s.admissionBudget-u.numChunks },.streaming u)
      else some (s,.unwinding u.id u.admission (some (.reject .serviceUnavailable)))
    else none
  | .streaming u => s.stream D u a
  | .hashing u chunk next started => s.hash D u chunk next started a
  | .sending adm blob => s.sendNewBlob i adm blob a
  | .sent adm id =>
    if a = .commit then
      some ({ s with statusMap := adm.commit.drop s.statusMap },
        .posted id (some adm.commit) (some ⟨.created,none,.text id⟩))
    else none
  | .unwinding id adm reply =>
    if a = .unwind then
      some ({ s with statusMap := adm.drop s.statusMap },.posted id (some adm) reply)
    else none
  | .getting id => s.sendGetBlob i id a
  | .posted _ _ _ | .got _ _ => none

def outside (s : BridgeState) : Outside → Option BridgeState
  | .update msg => some { s with statusMap := s.statusMap.update msg }
  | .orphanDone =>
    if 0 < s.orphans then some { s with orphans := s.orphans-1,hashing := s.hashing+1 } else none
  | .release permits => some { s with admissionBudget := s.admissionBudget+permits }

end BridgeState

/-- The bridge with any number of handlers, started by requests. -/
abbrev Bridge := Pool.State BridgeState Handler

namespace Bridge

def program (D : Deps) : Pool.Program BridgeState Handler Action Request Outside :=
  ⟨BridgeState.request D,BridgeState.act D,BridgeState.outside⟩

def init : Bridge := ⟨BridgeState.new,[]⟩

abbrev Event := Pool.Event Action Request Outside

def step (D : Deps) : Bridge → Event → Option Bridge := Pool.step (program D)

end Bridge

/-- What an action does, as far as the invariants are concerned. -/
inductive Acts (D : Deps) (i : ℕ) (s : BridgeState) :
    Handler → Action → BridgeState → Handler → Prop
  | acquired {u : Upload} (enough : u.numChunks ≤ s.admissionBudget) :
      Acts D i s (.acquiring u) .acquire
        { s with admissionBudget := s.admissionBudget-u.numChunks } (.streaming u)
  | refused {u : Upload} {reply : Option Response} :
      Acts D i s (.acquiring u) .acquire s (.unwinding u.id u.admission reply)
  | proceed {t h : Handler} {a : Action} {u : Upload} {k : ℕ} (upload : t.upload? = some u)
      (permits : t.permits = u.numChunks) (sound : ∃ body, h.Sound D body)
      (goesOn : h.Continues u ∨ ∃ chunk next, h = .hashing u chunk next true)
      (action : a ≠ .enqueue ∧ a ≠ .commit ∧ a ≠ .unwind ∧ a ≠ .acquire) :
      Acts D i s t a { s with hashing := k } h
  | leave {t : Handler} {a : Action} {id : String} {adm : Admission} {k o : ℕ}
      {reply : Option Response} (post : t.post = some (id,adm))
      (live : t.liveAdmission = some adm) (outbox : ∀ id, t ≠ .sent adm id)
      (action : a ≠ .enqueue ∧ a ≠ .commit ∧ a ≠ .unwind) :
      Acts D i s t a { s with
        hashing := k,orphans := o,admissionBudget := s.admissionBudget+t.permits }
        (.unwinding id adm reply)
  | sent {adm : Admission} {blob : AdmittedBlob} :
      Acts D i s (.sending adm blob) .enqueue
        { s with enqueued := s.enqueued ++ [(i,.newBlob blob)] } (.sent adm blob.id)
  | commit {adm : Admission} {id : String} {reply : Option Response} :
      Acts D i s (.sent adm id) .commit { s with statusMap := adm.commit.drop s.statusMap }
        (.posted id (some adm.commit) reply)
  | unwind {adm : Admission} {id : String} {reply : Option Response} :
      Acts D i s (.unwinding id adm reply) .unwind
        { s with statusMap := adm.drop s.statusMap } (.posted id (some adm) reply)
  | accepted {id : String} :
      Acts D i s (.getting id) .enqueue
        { s with enqueued := s.enqueued ++ [(i,.getBlob id)] } (.accepted id)
  | given {id : String} {a : Action} {reply : Option Response}
      (reply_ne : reply ≠ some ⟨.accepted,none,.text id⟩)
      (action : a = .sendFailed ∨ a = .disconnect) :
      Acts D i s (.getting id) a s (.got id reply)

section Inversion
variable {D : Deps} {i : ℕ} {s s' : BridgeState} {t t' : Handler} {a : Action} {body : Bytes}

lemma reject_ne_accepted (code : StatusCode) (id : String) :
    some (Response.reject code) ≠ some ⟨.accepted,none,.text id⟩ := by
  cases code <;> simp [Response.reject]

lemma acts_of_proceed {u : Upload} {k : ℕ} {r : Except StatusCode Handler}
    (upload : t.upload? = some u) (permits : t.permits = u.numChunks)
    (post : t.post = some (u.id,u.admission)) (live : t.liveAdmission = some u.admission)
    (action : a ≠ .enqueue ∧ a ≠ .commit ∧ a ≠ .unwind ∧ a ≠ .acquire)
    (hr : ∀ h, r = .ok h → (∃ body, h.Sound D body) ∧ h.Continues u)
    (h : BridgeState.proceed { s with hashing := k } u r = (s',t')) : Acts D i s t a s' t' := by
  cases r with
  | ok v =>
    cases h
    obtain ⟨hsound,hcont⟩ := hr _ rfl
    exact .proceed upload permits hsound (Or.inl hcont) action
  | error code =>
    cases h
    have hacts : Acts D i s t a
        { s with hashing := k,admissionBudget := s.admissionBudget+t.permits }
        (.unwinding u.id u.admission (some (.reject code))) :=
      .leave post live (fun id he => by rw [he] at upload; cases upload)
        ⟨action.1,action.2.1,action.2.2.1⟩
    rw [permits] at hacts
    exact hacts

/-- Every enabled action of a sound handler is one of the cases. -/
theorem acts_of_act (hs : t.Sound D body) (h : BridgeState.act D i s t a = some (s',t')) :
    Acts D i s t a s' t' := by
  cases t with
  | acquiring u =>
    simp only [BridgeState.act] at h
    split_ifs at h with ha hle
    · subst ha
      cases h
      exact .acquired hle
    · subst ha
      cases h
      exact .refused
  | streaming u =>
    have hleave : ∀ {reply}, (a ≠ .enqueue ∧ a ≠ .commit ∧ a ≠ .unwind) →
        s.leave u reply = (s',t') → Acts D i s (.streaming u) a s' t' := by
      rintro reply ha ⟨⟩
      exact .leave rfl rfl (by simp) ha
    cases a with
    | frame data =>
      exact acts_of_proceed rfl rfl rfl rfl (by simp) (fun h hok =>
        ⟨⟨_,(Handler.onFrame_spec hs hok).1⟩,(Handler.onFrame_spec hs hok).2⟩) (Option.some.inj h)
    | bodyEnd =>
      exact acts_of_proceed rfl rfl rfl rfl (by simp) (fun h hok =>
        ⟨⟨_,(Handler.bodyEnd_spec hs hok).1⟩,(Handler.bodyEnd_spec hs hok).2⟩) (Option.some.inj h)
    | frameError => exact hleave (by simp) (Option.some.inj h)
    | idle => exact hleave (by simp) (Option.some.inj h)
    | disconnect => exact hleave (by simp) (Option.some.inj h)
    | _ => cases h
  | hashing u chunk next started =>
    cases a with
    | hashStart =>
      simp only [BridgeState.act,BridgeState.hash] at h
      split_ifs at h with hstart
      cases h
      refine .proceed rfl rfl ⟨body,?_⟩ (Or.inr ⟨_,_,rfl⟩) (by simp)
      cases next <;> exact hs
    | hashDone =>
      simp only [BridgeState.act,BridgeState.hash] at h
      split_ifs at h with hstart
      exact acts_of_proceed rfl rfl rfl rfl (by simp) (fun h hok =>
        ⟨⟨_,(Handler.onHashed_spec hs hok).1⟩,(Handler.onHashed_spec hs hok).2⟩) (Option.some.inj h)
    | hashFail =>
      simp only [BridgeState.act,BridgeState.hash] at h
      split_ifs at h with hstart
      cases h
      exact .leave rfl rfl (by simp) (by simp)
    | disconnect =>
      cases h
      exact .leave rfl rfl (by simp) (by simp)
    | _ => cases h
  | sending adm blob =>
    cases a with
    | enqueue =>
      cases h
      exact .sent
    | sendFailed =>
      cases h
      exact .leave rfl rfl (by simp) (by simp)
    | disconnect =>
      cases h
      exact .leave rfl rfl (by simp) (by simp)
    | _ => cases h
  | sent adm id =>
    simp only [BridgeState.act] at h
    split_ifs at h with ha
    subst ha
    cases h
    exact .commit
  | unwinding id adm reply =>
    simp only [BridgeState.act] at h
    split_ifs at h with ha
    subst ha
    cases h
    exact .unwind
  | getting id =>
    cases a with
    | enqueue =>
      cases h
      exact .accepted
    | sendFailed =>
      cases h
      exact .given (reject_ne_accepted _ _) (Or.inl rfl)
    | disconnect =>
      cases h
      exact .given (by simp) (Or.inr rfl)
    | _ => cases h
  | posted id adm reply => cases h
  | got id reply => cases h

/-- A handler can enqueue exactly when it has a message to send. -/
theorem act_enqueue_iff : (∃ r, BridgeState.act D i s t .enqueue = some r) ↔
    ∃ msg, t.outbox = some msg := by
  cases t <;> simp [BridgeState.act,BridgeState.stream,BridgeState.hash,BridgeState.sendNewBlob,
    BridgeState.sendGetBlob,Handler.outbox]

end Inversion

end Gozara
