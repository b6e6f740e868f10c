import Gozara.Library.HashMap
import Gozara.Library.HashTree
import Mathlib.Algebra.Ring.Nat
import Mathlib.Data.Finset.Insert

/-!
# Data types of the client

Bytes, hashes, peers and instants; the third-party functions that the client calls, as
parameters; and the messages of its channels. The types of `admission.rs`, a module that
the repository does not contain, are the plain ones that their uses show.
-/
namespace Gozara

abbrev Bytes := List UInt8

/-- `blake3::Hash`: thirty-two bytes. -/
structure Hash where
  bytes : Bytes
  length_bytes : bytes.length = 32
  deriving DecidableEq

/-- `libp2p::PeerId`, of which the client uses the identity alone. -/
structure PeerId where
  bytes : Bytes
  deriving DecidableEq

/-- A reading of the monotonic clock, in nanoseconds. -/
abbrev Instant := ℕ

namespace Instant

def nanosPerSec : ℕ := 1000000000

/-- `later.duration_since(earlier).as_secs()`: saturating, in whole seconds. -/
def secsSince (later earlier : Instant) : ℕ := (later-earlier)/nanosPerSec

/-- `checked_add(Duration::from_secs(secs))`: the seconds of an instant fit an `i64`. -/
def checkedAdd (now : Instant) (secs : UInt64) : Option Instant :=
  let t := now+secs.toNat*nanosPerSec
  if t/nanosPerSec < 2^63 then some t else none

end Instant

/-! Ids for examples, of the shape that `mti` accepts, and one that is spelt otherwise. -/

abbrev blobId : String := "blob_01h455vb4pex5vsknk084sn02q"
abbrev fileId : String := "file_01h455vb4pex5vsknk084sn02q"
abbrev imageId : String := "image_01h455vb4pex5vsknk084sn02q"
abbrev upperId : String := "BLOB_01H455VB4PEX5VSKNK084SN02Q"

/-- What the client takes from outside the repository. -/
structure Deps where
  /-- `blake3::hash`. -/
  blake3 : Bytes → Hash
  /-- `MagicTypeId::from_str` followed by `to_string`. -/
  magicTypeId : String → Option String
  magicTypeId_idem : ∀ {s c}, magicTypeId s = some c → magicTypeId c = some c
  /-- `CHUNK_SIZE` of `admission.rs`. -/
  chunkSize : ℕ
  chunkSize_pos : 0 < chunkSize
  /-- `MerkleTree::<Blake3>::from_leaves(leaves).root()`. -/
  merkleRoot : List Hash → Option Hash

namespace Deps

/-- `concat_and_hash` with the hasher of `blake3_wrapper.rs`. -/
def combine (D : Deps) (a b : Hash) : Hash := D.blake3 (a.bytes ++ b.bytes)

/-- `rs_merkle` pairs neighbours level by level and passes an unpaired node up. -/
def PairsNeighbours (D : Deps) : Prop :=
  ∀ leaves, D.merkleRoot leaves = HashTree.root D.combine leaves

/-- A hash of the length and the first bytes, for small examples. -/
def sampleHash (bytes : Bytes) : Hash :=
  ⟨UInt8.ofNat bytes.length::(bytes ++ List.replicate 31 0).take 31,by simp⟩

/-- Computable dependencies for examples. The second spelling of an id is hypothetical: `mti`
need not accept one. -/
def sample (chunkSize : ℕ) (h : 0 < chunkSize) : Deps where
  blake3 := sampleHash
  magicTypeId s := if s = "" then none else if s = upperId then some blobId else some s
  magicTypeId_idem := by
    intro s c hc
    split_ifs at hc with h₁ h₂
    · cases hc
      simp [blobId,upperId]
    · cases hc
      simp [h₁,h₂]
  chunkSize := chunkSize
  chunkSize_pos := h
  merkleRoot := HashTree.root fun a b => sampleHash (a.bytes ++ b.bytes)

end Deps

/-- `rs_merkle::MerkleTree<Blake3>`, which keeps the leaves it was given in order. -/
structure MerkleTree where
  leaves : List Hash
  deriving DecidableEq

/-- `admission::Status`. -/
inductive Status
  | pending
  | finalized
  | failed (reason : Option String)
  deriving DecidableEq

/-- `admission::AdmittedBlob`; `allowance` counts the permits of its semaphore permit. -/
structure AdmittedBlob where
  id : String
  rootHash : Hash
  merkleTree : MerkleTree
  chunks : List (Hash × Bytes)
  allowance : ℕ
  deriving DecidableEq

/-- The bytes of an admitted blob, chunk after chunk. -/
def AdmittedBlob.body (a : AdmittedBlob) : Bytes := (a.chunks.map Prod.snd).flatten

/-- `admission::ToPipeline`, from the bridge's handlers to the coordinator. -/
inductive ToPipeline
  | getBlob (id : String)
  | newBlob (blob : AdmittedBlob)
  deriving DecidableEq

/-- `admission::ToBridge`, from the coordinator to the bridge. -/
inductive ToBridge
  | updateStatus (id : String) (status : Status)
  deriving DecidableEq

namespace Protocol

inductive Request
  | storagePermit
  | blobMeta (id : String)
  deriving DecidableEq

inductive Response
  | issuedStoragePermit (validFor : UInt64)
  | blobMeta (id : String) (rootHash : Hash) (chunks : List (Hash × PeerId))
  deriving DecidableEq

end Protocol

/-- `peyk::SwarmMessage`, from the coordinator to the swarm task. -/
inductive SwarmMessage
  | requestStoragePermits (peers : List PeerId)
  deriving DecidableEq

/-- `peyk::HandlerMessage`, from the swarm task to the coordinator. Request ids and the
response channel are handles. -/
inductive HandlerMessage
  | wouldStore (peerId : PeerId)
  | request (peerId : PeerId) (requestId : ℕ) (request : Protocol.Request) (channel : ℕ)
  | response (peerId : PeerId) (requestId : ℕ) (response : Protocol.Response)
  deriving DecidableEq

end Gozara
