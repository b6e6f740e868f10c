import Gozara.Library.HashMap
import Gozara.Types

/-!
# The HTTP handlers between two awaits

What the handlers of `bridge.rs` compute while they do not wait: the checks at the start
of a request, the status map, the splitting of a body into chunks and the Merkle root. An
error is the status code of a `Reject`.
-/
namespace Gozara

/-- `MAX_BLOB_SIZE`. -/
def maxBlobSize : ℕ := 2^30

/-- `TOTAL_CHUNK_BUDGET`. -/
def totalChunkBudget : ℕ := 1536

inductive StatusCode
  | ok
  | created
  | accepted
  | badRequest
  | notFound
  | requestTimeout
  | conflict
  | lengthRequired
  | payloadTooLarge
  | internalServerError
  | serviceUnavailable
  deriving DecidableEq

inductive Content
  | empty
  | text (s : String)
  | json (status : Status)
  deriving DecidableEq

structure Response where
  status : StatusCode
  retryAfter : Option String
  content : Content
  deriving DecidableEq

/-- `Reject` as a response. -/
def Response.reject : StatusCode → Response
  | .serviceUnavailable => ⟨.serviceUnavailable,some "5",.empty⟩
  | code => ⟨code,none,.empty⟩

section ContentLength

/-- `HeaderValue::to_str`: visible ASCII and tabs. -/
def toStr (value : Bytes) : Option Bytes :=
  if value.all fun b => (32 ≤ b && b < 127) || b = 9 then some value else none

/-- The digits of `str::parse::<usize>`. -/
def parseDigits : Bytes → ℕ → Option ℕ
  | [],n => some n
  | b::bs,n =>
    if 48 ≤ b ∧ b ≤ 57 ∧ n*10+(b.toNat-48) < 2^64 then parseDigits bs (n*10+(b.toNat-48))
    else none

def parseUsize (s : Bytes) : Option ℕ :=
  let digits := if s.head? = some 43 then s.tail else s
  if digits = [] then none else parseDigits digits 0

/-- The declared length of a body, from its `Content-Length` header. -/
def declaredLen (contentLength : Option Bytes) : Option ℕ :=
  contentLength.bind fun v => (toStr v).bind parseUsize

end ContentLength

/-- The statuses of an id. The inserter is not part of the source's data: it records the
number of the request that inserted the entry. -/
structure Entry where
  inserter : ℕ
  history : List Status
  deriving DecidableEq

abbrev StatusMap := HashMap String Entry

structure Admission where
  id : String
  committed : Bool
  deriving DecidableEq

namespace Admission

/-- `Admission::new`, for the request with number `i`. -/
def new (D : Deps) (i : ℕ) (m : StatusMap) (id : String) : Except StatusCode (StatusMap × Admission) :=
  match D.magicTypeId id with
  | none => .error .badRequest
  | some validatedId =>
    match m.lookup validatedId with
    | some _ => .error .conflict
    | none => .ok (m.insert validatedId ⟨i,[.pending]⟩,⟨validatedId,false⟩)

def commit (a : Admission) : Admission := { a with committed := true }

/-- `Drop for Admission`. -/
def drop (a : Admission) (m : StatusMap) : StatusMap :=
  if a.committed then m else m.erase a.id

end Admission

namespace StatusMap

/-- `UpdateStatus` in the message loop of `run`; an unsolicited status is only logged. -/
def update (m : StatusMap) : ToBridge → StatusMap
  | .updateStatus id status =>
    match m.lookup id with
    | some e => m.insert id { e with history := e.history ++ [status] }
    | none => m

/-- `get_status`; `none` is the panic of `unwrap`. -/
def getStatus (m : StatusMap) (id : String) : Option Response :=
  match m.lookup id with
  | some e => e.history.getLast?.map fun status => ⟨.ok,none,.json status⟩
  | none => some ⟨.notFound,none,.empty⟩

end StatusMap

/-- The variables of `new_blob` while it streams. `admission` guards the entry, and the
`numChunks` permits of `allowance` are held once they are acquired. -/
structure Upload where
  id : String
  admission : Admission
  declared : ℕ
  numChunks : ℕ
  received : ℕ
  buf : Bytes
  chunks : List (Hash × Bytes)
  deriving DecidableEq

/-- What `new_blob` goes on with when a chunk is hashed: the rest of the frame, or the
Merkle tree after the last chunk. -/
inductive AfterHash
  | frame (data : Bytes)
  | merklize
  deriving DecidableEq

/-- Where a handler waits, or is between two operations on shared state. `none` instead of
a reply means that the client is gone or the handler panicked. -/
inductive Handler
  /-- Before `try_acquire_many_owned`. -/
  | acquiring (u : Upload)
  | streaming (u : Upload)
  /-- In `hash_chunk`, before or after it has a permit of the hashing semaphore. -/
  | hashing (u : Upload) (chunk : Bytes) (next : AfterHash) (started : Bool)
  | sending (admission : Admission) (blob : AdmittedBlob)
  /-- The message is enqueued, `commit` follows without an await. -/
  | sent (admission : Admission) (id : String)
  /-- The permits are given back, the admission is about to be dropped. -/
  | unwinding (id : String) (admission : Admission) (reply : Option Response)
  | posted (id : String) (admission : Option Admission) (reply : Option Response)
  /-- `get_blob` in its send. -/
  | getting (id : String)
  | got (id : String) (reply : Option Response)
  deriving DecidableEq

section NewBlob
variable (D : Deps)

/-- `new_blob` up to and with `Admission::new`. -/
def newBlob (i : ℕ) (m : StatusMap) (id : String) (contentLength : Option Bytes) :
    Except StatusCode (StatusMap × Upload) :=
  match declaredLen contentLength with
  | none => .error .lengthRequired
  | some declared =>
    if declared = 0 then .error .badRequest
    else
      -- `div_ceil`; at most 1536 below, so that the cast to `u32` changes nothing.
      let numChunks := (declared+D.chunkSize-1)/D.chunkSize
      if maxBlobSize < declared ∨ totalChunkBudget < numChunks then .error .payloadTooLarge
      else (Admission.new D i m id).map fun r =>
        (r.1,⟨id,r.2,declared,numChunks,0,[],[]⟩)

/-- The inner loop over the data of one frame. An iteration that does not suspend takes a
byte or more, so the length of the data is enough fuel. -/
def takeFrame : ℕ → Upload → Bytes → Handler
  | 0,u,_ => .streaming u
  | fuel+1,u,data =>
    if data = [] then .streaming u
    else
      let take := min (D.chunkSize-u.buf.length) data.length
      let buf := u.buf ++ data.take take
      if buf.length = D.chunkSize then
        .hashing { u with buf := [] } buf (.frame (data.drop take)) false
      else takeFrame fuel { u with buf := buf } (data.drop take)

def onFrame (u : Upload) (data : Bytes) : Except StatusCode Handler :=
  let received := u.received+data.length
  if u.declared < received then .error .badRequest
  else .ok (takeFrame D data.length { u with received := received } data)

/-- The Merkle tree and the message for the coordinator. -/
def merklize (u : Upload) : Except StatusCode Handler :=
  let leaves := u.chunks.map Prod.fst
  match D.merkleRoot leaves with
  | none => .error .internalServerError
  | some rootHash => .ok (.sending u.admission ⟨u.id,rootHash,⟨leaves⟩,u.chunks,u.numChunks⟩)

/-- After the last frame. -/
def bodyEnd (u : Upload) : Except StatusCode Handler :=
  if u.received ≠ u.declared then .error .badRequest
  else if u.buf ≠ [] then .ok (.hashing { u with buf := [] } u.buf .merklize false)
  else merklize D u

/-- After a chunk is hashed. -/
def onHashed (u : Upload) (chunk : Bytes) (next : AfterHash) : Except StatusCode Handler :=
  let u := { u with chunks := u.chunks ++ [(D.blake3 chunk,chunk)] }
  match next with
  | .frame data => .ok (takeFrame D data.length u data)
  | .merklize => merklize D u

/-- `get_blob` up to its send. -/
def getBlob (i : ℕ) (m : StatusMap) (id : String) : StatusMap × Handler :=
  match D.magicTypeId id with
  | none => (m,.got id (some (.reject .badRequest)))
  | some validatedId =>
    let r := match m.lookup validatedId with
      | some e => (m,e.history.getLast?)
      | none => (m.insert validatedId ⟨i,[.pending]⟩,some .pending)
    match r.2 with
    | some .pending => (r.1,.getting validatedId)
    | some .finalized => (r.1,.got validatedId (some ⟨.ok,none,.text validatedId⟩))
    | some (.failed reason) =>
      (r.1,.got validatedId (some ⟨.ok,none,.text (reason.getD "")⟩))
    | none => (r.1,.got validatedId none)

end NewBlob

end Gozara
