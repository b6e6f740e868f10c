import Gozara.Coordinator.Pipeline

/-!
# The coordinator's select loop

One input is one branch of `tokio::select!` in `coordinator::run`, or the end of a send at
which the loop is suspended. Between the head of the loop and the next suspension the loop
runs without waiting. What leaves the loop is returned: the upload tasks it spawns and the
blobs it drops, whose permits go back to the admission budget.
-/
namespace Gozara

/-- What follows `request_storage_permits` in its caller. -/
inductive Resume
  | head
  | assign
  deriving DecidableEq

/-- Where the loop is: at its head, suspended in a send, or ended. -/
inductive Point
  | head
  | sendSwarm (peers : List PeerId) (after : Resume)
  | sendBridge (msg : ToBridge)
  | stopped
  deriving DecidableEq

/-- The loop with its pipeline. The last two fields record its history: the blobs received
with `NewBlob` and the blobs announced as finalized. -/
structure Coordinator where
  pipeline : Pipeline
  point : Point
  received : List AdmittedBlob
  announced : List LocalBlob
  deriving DecidableEq

inductive Input
  | timerStale
  | timerAssign
  | handler (msg : HandlerMessage)
  | admission (msg : ToPipeline)
  /-- `InternalMessage::UpdateChunkStatus`, whose instant is not read. -/
  | updateChunkStatus (hash : Hash) (status : ChunkUploadStatus)
  /-- The suspended `tx_swarm.send` has ended, whatever its result. -/
  | swarmSend
  /-- The suspended `tx_bridge.send` has ended, whatever its result. -/
  | bridgeSend
  | stop
  | rehash (chunks : HashMap Hash Chunk) (hints permits : HashMap PeerId Instant)
  deriving DecidableEq

structure Effects where
  spawned : List UploadTask
  dropped : List LocalBlob
  deriving DecidableEq

namespace Coordinator

def init : Coordinator := ⟨Pipeline.new,.head,[],[]⟩

def atHead (c : Coordinator) (p : Pipeline) : Coordinator :=
  { c with pipeline := p,point := .head }

/-- Assign chunks and go back to the head. -/
def assign (c : Coordinator) (now : Instant) (p : Pipeline) : Coordinator × List UploadTask :=
  let r := p.assignChunks now
  (c.atHead r.1,r.2)

def resume (c : Coordinator) (now : Instant) (p : Pipeline) :
    Resume → Coordinator × List UploadTask
  | .head => (c.atHead p,[])
  | .assign => c.assign now p

/-- Go on after `request_storage_permits`, which suspends when it sends. -/
def settle (c : Coordinator) (now : Instant) (r : Pipeline × Option (List PeerId))
    (after : Resume) : Coordinator × List UploadTask :=
  match r.2 with
  | some peers => ({ c with pipeline := r.1,point := .sendSwarm peers after },[])
  | none => c.resume now r.1 after

/-- `timer_stale`: forget old hints, ask for permits while there is a current blob. -/
def onTimerStale (c : Coordinator) (now : Instant) : Coordinator × List UploadTask :=
  let p := { c.pipeline with
    storageProviderHints := c.pipeline.storageProviderHints.retain fun _ createdAt =>
      now.secsSince createdAt < storageProviderDecay }
  if p.currentBlob.isSome then c.settle now (p.requestStoragePermits now) .head
  else (c.atHead p,[])

def onHandler (c : Coordinator) (now : Instant) : HandlerMessage → Coordinator × List UploadTask
  | .wouldStore peerId => (c.atHead { c.pipeline with
      storageProviderHints := c.pipeline.storageProviderHints.insert peerId now },[])
  | .request _ _ _ _ => (c.atHead c.pipeline,[])
  | .response peerId _ (.issuedStoragePermit validFor) => c.assign now { c.pipeline with
      storagePermits := c.pipeline.storagePermits.insert peerId
        ((now.checkedAdd validFor).getD now) }
  | .response _ _ (.blobMeta _ _ _) => (c.atHead c.pipeline,[])

def onAdmission (c : Coordinator) (now : Instant) : ToPipeline → Coordinator × List UploadTask
  | .getBlob id => (c.atHead { c.pipeline with
      remoteBlobs := insert id c.pipeline.remoteBlobs },[])
  | .newBlob blob =>
    let c := { c with received := c.received ++ [blob] }
    c.settle now ((c.pipeline.addLocalBlob now blob).beginNextBlob now) .head

/-- The `UpdateChunkStatus` arm, up to the send that announces a finished blob. -/
def onUpdateChunkStatus (c : Coordinator) (now : Instant) (hash : Hash)
    (status : ChunkUploadStatus) : Coordinator × List UploadTask :=
  match c.pipeline.currentBlob with
  | none => (c.atHead c.pipeline,[])
  | some blob =>
    match blob.chunks.lookup hash with
    | none => (c.atHead c.pipeline,[])
    | some chunk =>
      let blob := { blob with chunks := blob.chunks.modify hash (chunk.setStatus now status) }
      let p := { c.pipeline with currentBlob := some blob }
      match status with
      | .finalized _ =>
        if blob.chunks.all Chunk.isFinalized then
          ({ c with pipeline := p,point := .sendBridge (.updateStatus blob.id .finalized) },[])
        else c.assign now p
      | _ => (c.atHead p,[])

/-- The rest of that arm: the blob is archived and the next one begun. -/
def onAnnounced (c : Coordinator) (now : Instant) (blob : LocalBlob) (p : Pipeline) :
    Coordinator × List UploadTask :=
  let c := { c with announced := c.announced ++ [blob] }
  c.settle now (p.beginNextBlob now) .assign

/-- The pipeline is dropped with the loop; the upload semaphore is shared with the tasks. -/
def onStop (c : Coordinator) : Coordinator :=
  { c with
    pipeline := { Pipeline.new with uploadAllowance := c.pipeline.uploadAllowance }
    point := .stopped }

/-- The blobs held by the pipeline. -/
def held (c : Coordinator) : List LocalBlob :=
  c.pipeline.currentBlob.toList ++ c.pipeline.pendingLocalBlobs

def exec (c : Coordinator) (now : Instant) : Input → Option (Coordinator × Effects)
  | .rehash chunks hints permits => (c.pipeline.rehash chunks hints permits).map fun p =>
      ({ c with pipeline := p },⟨[],[]⟩)
  | .swarmSend =>
    match c.point with
    | .sendSwarm _ after =>
      let r := c.resume now c.pipeline after
      some (r.1,⟨r.2,[]⟩)
    | _ => none
  | .bridgeSend =>
    match c.point with
    | .sendBridge _ => c.pipeline.archiveCurBlob.map fun r =>
        let s := c.onAnnounced now r.1 r.2
        (s.1,⟨s.2,[r.1]⟩)
    | _ => none
  | i =>
    match c.point with
    | .head =>
      let noDrop (r : Coordinator × List UploadTask) := some (r.1,(⟨r.2,[]⟩ : Effects))
      match i with
      | .timerStale => noDrop (c.onTimerStale now)
      | .timerAssign => noDrop (c.assign now c.pipeline)
      | .handler msg => noDrop (c.onHandler now msg)
      | .admission msg => noDrop (c.onAdmission now msg)
      | .updateChunkStatus hash status => noDrop (c.onUpdateChunkStatus now hash status)
      | .stop => some (c.onStop,⟨[],c.held⟩)
      | _ => none
    | _ => none

/-- One input at one instant, without the effects. -/
def step (c : Coordinator) (e : Instant × Input) : Option Coordinator :=
  (c.exec e.1 e.2).map Prod.fst

/-- The arms of the loop and the ends of its sends. -/
inductive Arms (now : Instant) (c : Coordinator) : Input → Coordinator → Effects → Prop
  | timerStale (head : c.point = .head) :
      Arms now c .timerStale (c.onTimerStale now).1 ⟨(c.onTimerStale now).2,[]⟩
  | timerAssign (head : c.point = .head) :
      Arms now c .timerAssign (c.assign now c.pipeline).1 ⟨(c.assign now c.pipeline).2,[]⟩
  | handler {msg : HandlerMessage} (head : c.point = .head) :
      Arms now c (.handler msg) (c.onHandler now msg).1 ⟨(c.onHandler now msg).2,[]⟩
  | admission {msg : ToPipeline} (head : c.point = .head) :
      Arms now c (.admission msg) (c.onAdmission now msg).1 ⟨(c.onAdmission now msg).2,[]⟩
  | updateChunkStatus {hash : Hash} {status : ChunkUploadStatus} (head : c.point = .head) :
      Arms now c (.updateChunkStatus hash status) (c.onUpdateChunkStatus now hash status).1
        ⟨(c.onUpdateChunkStatus now hash status).2,[]⟩
  | swarmSend {peers : List PeerId} {after : Resume}
      (suspended : c.point = .sendSwarm peers after) :
      Arms now c .swarmSend (c.resume now c.pipeline after).1
        ⟨(c.resume now c.pipeline after).2,[]⟩
  | bridgeSend {msg : ToBridge} {b : LocalBlob} (suspended : c.point = .sendBridge msg)
      (front : c.pipeline.currentBlob = some b) :
      Arms now c .bridgeSend (c.onAnnounced now b { c.pipeline with currentBlob := none }).1
        ⟨(c.onAnnounced now b { c.pipeline with currentBlob := none }).2,[b]⟩
  | stop (head : c.point = .head) : Arms now c .stop c.onStop ⟨[],c.held⟩
  | rehash {chunks : HashMap Hash Chunk} {hints permits : HashMap PeerId Instant} {p : Pipeline}
      (orders : c.pipeline.rehash chunks hints permits = some p) :
      Arms now c (.rehash chunks hints permits) { c with pipeline := p } ⟨[],[]⟩

/-- Every enabled input is one of them. -/
theorem arms_of_exec {c c' : Coordinator} {now : Instant} {i : Input} {eff : Effects}
    (h : c.exec now i = some (c',eff)) : Arms now c i c' eff := by
  cases i with
  | rehash chunks hints permits =>
    obtain ⟨p,hp,hpair⟩ := Option.map_eq_some_iff.mp h
    cases hpair
    exact .rehash hp
  | swarmSend =>
    simp only [exec] at h
    split at h
    · rename_i hpoint
      cases h
      exact .swarmSend hpoint
    · cases h
  | bridgeSend =>
    simp only [exec] at h
    split at h
    · rename_i hpoint
      obtain ⟨⟨b,p⟩,harch,hpair⟩ := Option.map_eq_some_iff.mp h
      cases hpair
      obtain ⟨b',hcur,hpair⟩ := Option.map_eq_some_iff.mp harch
      cases hpair
      exact .bridgeSend hpoint hcur
    · cases h
  | _ =>
    simp only [exec] at h
    split at h
    · rename_i hpoint
      cases h
      constructor
      exact hpoint
    · cases h

end Coordinator

end Gozara
