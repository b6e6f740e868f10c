import Gozara.BlobTransfer
import Gozara.Coordinator.Moves

/-!
# The coordinator with its upload tasks

An upload task pushes one chunk to one peer under a timeout, gives its upload permit back
and reports the outcome on the unbounded internal channel, where the report may wait for
any time. A timeout is not reported. Whatever else reaches the coordinator is an arbitrary
input here.
-/
namespace Gozara

/-- A push that returned normally. -/
structure AckedPush where
  peer : PeerId
  hash : Hash
  data : Bytes
  stream : Option BlobTransfer.Stream
  returned : BlobTransfer.push stream hash data = .ok ()

/-- The peer of an acknowledged push sent the byte 1. -/
theorem AckedPush.tag (p : AckedPush) :
    ∃ s, p.stream = some s ∧ s.incoming.head? = some 1 := by
  obtain ⟨s,hs,htag,-⟩ := BlobTransfer.push_eq_ok p.returned
  exact ⟨s,hs,htag⟩

/-- A task holds its upload permit while it uploads, and is gone once it has reported. -/
inductive TaskPhase
  | uploading
  | reporting (status : ChunkUploadStatus)
  deriving DecidableEq

structure Task where
  upload : UploadTask
  phase : TaskPhase
  deriving DecidableEq

structure Uploads where
  coordinator : Coordinator
  clock : Instant
  /-- `UpdateChunkStatus` messages on the internal channel. -/
  internal : List (Hash × ChunkUploadStatus)
  tasks : List Task
  /-- The history of pushes that returned normally. -/
  acked : List AckedPush

namespace Uploads

inductive Event
  | tick (nanos : ℕ)
  | input (i : Input)
  | recvInternal
  /-- The push of the task at a position returns, over the stream that it was given. -/
  | finish (k : ℕ) (stream : Option BlobTransfer.Stream)
  | timeout (k : ℕ)
  | report (k : ℕ)
  deriving DecidableEq

def init : Uploads := ⟨Coordinator.init,0,[],[],[]⟩

/-- One input to the select loop. The receiver of the internal channel goes with the loop. -/
def drive (s : Uploads) (i : Input) (internal : List (Hash × ChunkUploadStatus)) :
    Option (Uploads × List LocalBlob) :=
  (s.coordinator.exec s.clock i).map fun r =>
    ({ s with
        coordinator := r.1
        internal := if r.1.point = .stopped then [] else internal
        tasks := s.tasks ++ r.2.spawned.map fun u => ⟨u,.uploading⟩ },r.2.dropped)

/-- `drop(permit)` in an upload task. -/
def releasePermit (c : Coordinator) : Coordinator :=
  { c with pipeline := { c.pipeline with uploadAllowance := c.pipeline.uploadAllowance+1 } }

def finish (s : Uploads) (k : ℕ) (u : UploadTask) (stream : Option BlobTransfer.Stream) :
    Uploads :=
  match h : BlobTransfer.push stream u.hash u.payload with
  | .ok () => { s with
      coordinator := releasePermit s.coordinator
      tasks := s.tasks.set k ⟨u,.reporting (.finalized u.peer)⟩
      acked := s.acked ++ [⟨u.peer,u.hash,u.payload,stream,h⟩] }
  | .error _ => { s with
      coordinator := releasePermit s.coordinator
      tasks := s.tasks.set k ⟨u,.reporting .pending⟩ }

/-- One event, with the blobs that the coordinator drops in it. -/
def exec (s : Uploads) : Event → Option (Uploads × List LocalBlob)
  | .tick nanos => some ({ s with clock := s.clock+nanos },[])
  | .input (.updateChunkStatus _ _) => none
  | .input i => s.drive i s.internal
  | .recvInternal =>
    match s.internal with
    | [] => none
    | (hash,status)::rest => s.drive (.updateChunkStatus hash status) rest
  | .finish k stream =>
    match s.tasks[k]? with
    | some ⟨u,.uploading⟩ => some (s.finish k u stream,[])
    | _ => none
  | .timeout k =>
    match s.tasks[k]? with
    | some ⟨u,.uploading⟩ =>
      if u.started+chunkUploadWindow*Instant.nanosPerSec ≤ s.clock then
        some ({ s with
          coordinator := releasePermit s.coordinator,tasks := s.tasks.eraseIdx k },[])
      else none
    | _ => none
  | .report k =>
    match s.tasks[k]? with
    | some ⟨u,.reporting status⟩ => some ({ s with
        internal := if s.coordinator.point = .stopped then s.internal
          else s.internal ++ [(u.hash,status)]
        tasks := s.tasks.eraseIdx k },[])
    | _ => none

def step (s : Uploads) (e : Event) : Option Uploads := (s.exec e).map Prod.fst

/-- The input that an event gives to the select loop. -/
def inputOf (s : Uploads) : Event → Option Input
  | .input i => some i
  | .recvInternal => s.internal.head?.map fun m => .updateChunkStatus m.1 m.2
  | _ => none

/-- Only reports come to the loop by another way than an event that names the input. -/
lemma eq_input_of_inputOf {s : Uploads} {e : Event} {i : Input} (h : s.inputOf e = some i)
    (hi : ∀ hash st, i ≠ .updateChunkStatus hash st) : e = .input i := by
  cases e with
  | input j =>
    cases h
    rfl
  | recvInternal =>
    obtain ⟨m,-,rfl⟩ := Option.map_eq_some_iff.mp h
    exact absurd rfl (hi m.1 m.2)
  | _ => cases h

/-- The reports that are left on the internal channel for later events. -/
def remaining (s : Uploads) : Event → List (Hash × ChunkUploadStatus)
  | .recvInternal => s.internal.tail
  | _ => s.internal

/-- What an event does, as far as the invariants are concerned. -/
inductive Steps (s : Uploads) : Event → Uploads → List LocalBlob → Prop
  | tick {nanos : ℕ} : Steps s (.tick nanos) { s with clock := s.clock+nanos } []
  | loop {e : Event} {i : Input} {c : Coordinator} {eff : Effects}
      (input : s.inputOf e = some i)
      (direct : ∀ h st, i = .updateChunkStatus h st → s.internal = (h,st)::s.remaining e)
      (moves : Coordinator.Moves s.clock s.coordinator i c eff)
      (exec : s.coordinator.exec s.clock i = some (c,eff)) :
      Steps s e { s with
        coordinator := c
        internal := if c.point = .stopped then [] else s.remaining e
        tasks := s.tasks ++ eff.spawned.map fun u => ⟨u,.uploading⟩ } eff.dropped
  | acknowledged {k : ℕ} {u : UploadTask} {stream : Option BlobTransfer.Stream}
      (task : s.tasks[k]? = some ⟨u,.uploading⟩)
      (ok : BlobTransfer.push stream u.hash u.payload = .ok ()) :
      Steps s (.finish k stream) { s with
        coordinator := releasePermit s.coordinator
        tasks := s.tasks.set k ⟨u,.reporting (.finalized u.peer)⟩
        acked := s.acked ++ [⟨u.peer,u.hash,u.payload,stream,ok⟩] } []
  | failed {k : ℕ} {u : UploadTask} {stream : Option BlobTransfer.Stream}
      (task : s.tasks[k]? = some ⟨u,.uploading⟩) :
      Steps s (.finish k stream) { s with
        coordinator := releasePermit s.coordinator
        tasks := s.tasks.set k ⟨u,.reporting .pending⟩ } []
  | timeout {k : ℕ} {u : UploadTask} (task : s.tasks[k]? = some ⟨u,.uploading⟩) :
      Steps s (.timeout k) { s with
        coordinator := releasePermit s.coordinator,tasks := s.tasks.eraseIdx k } []
  | report {k : ℕ} {u : UploadTask} {status : ChunkUploadStatus}
      (task : s.tasks[k]? = some ⟨u,.reporting status⟩) :
      Steps s (.report k) { s with
        internal := if s.coordinator.point = .stopped then s.internal
          else s.internal ++ [(u.hash,status)]
        tasks := s.tasks.eraseIdx k } []

variable {s s' : Uploads} {e : Event} {dropped : List LocalBlob}

theorem steps_of_drive {i : Input} (hi : s.inputOf e = some i)
    (hdirect : ∀ h st, i = .updateChunkStatus h st → s.internal = (h,st)::s.remaining e)
    (h : s.drive i (s.remaining e) = some (s',dropped)) : Steps s e s' dropped := by
  obtain ⟨⟨c,eff⟩,hexec,hpair⟩ := Option.map_eq_some_iff.mp h
  cases hpair
  exact .loop hi hdirect (Coordinator.moves_of_exec hexec) hexec

theorem steps_of_exec (h : s.exec e = some (s',dropped)) : Steps s e s' dropped := by
  cases e with
  | tick nanos =>
    cases h
    exact .tick
  | input i =>
    have hdrive : s.drive i s.internal = some (s',dropped) ∧
        ∀ h st, i ≠ .updateChunkStatus h st := by
      cases i <;> simp_all [exec]
    exact steps_of_drive (e := .input i) rfl (fun k st hk => absurd hk (hdrive.2 k st)) hdrive.1
  | recvInternal =>
    simp only [exec] at h
    split at h
    · cases h
    · rename_i hash status rest hint
      refine steps_of_drive (e := .recvInternal) (i := .updateChunkStatus hash status) ?_ ?_ ?_
      · simp [inputOf,hint]
      · rintro k st ⟨⟩
        simp [remaining,hint]
      · simpa [remaining,hint] using h
  | finish k stream =>
    simp only [exec] at h
    split at h
    · rename_i u htask
      have hfin : s.finish k u stream = s' ∧ [] = dropped := by simpa using h
      obtain ⟨rfl,rfl⟩ := hfin
      unfold finish
      split
      · rename_i hok
        exact .acknowledged htask hok
      · exact .failed htask
    · cases h
  | timeout k =>
    simp only [exec] at h
    split at h
    · rename_i u htask
      split_ifs at h
      cases h
      exact .timeout htask
    · cases h
  | report k =>
    simp only [exec] at h
    split at h
    · rename_i u status htask
      cases h
      exact .report htask
    · cases h

theorem steps_of_step (h : s.step e = some s') : ∃ dropped, Steps s e s' dropped := by
  obtain ⟨⟨t,dropped⟩,hexec,rfl⟩ := Option.map_eq_some_iff.mp h
  exact ⟨dropped,steps_of_exec hexec⟩

end Uploads

end Gozara
