import Gozara.Library.Fallible
import Gozara.Types

/-!
# Pushing a chunk to a peer

The sending side of `peyk::blob_transfer`: length-prefixed frames over a byte stream that
may be cut at any byte in either direction, and `push`, which returns normally on the
acknowledgement tag 1 alone.
-/
namespace Gozara.BlobTransfer
open Fallible

/-- One end of a stream: the bytes that are still going to arrive before the other end
closes or the connection is cut, the bytes written, and how many more can be written
before a cut (`none` when there is none). -/
structure Stream where
  incoming : Bytes
  outgoing : Bytes
  room : Option ℕ
  deriving DecidableEq

inductive TransferError
  | openStream
  | tryFromInt
  | brokenPipe
  | unexpectedEof
  | frameTooLong (len maxLen : ℕ)
  | hashConversion
  | hashMismatch (expected got : Hash)
  /-- The receiver's reason. -/
  | rejected (reason : Bytes)
  deriving DecidableEq

/-- Fallible input and output: an error leaves the stream as it was when it occurred. -/
abbrev Io (α : Type) := ExceptT TransferError (StateM Stream) α

def writeAll (bytes : Bytes) : Io Unit := fun s =>
  match s.room with
  | none => (.ok (),{ s with outgoing := s.outgoing ++ bytes })
  | some n =>
    if bytes.length ≤ n then
      (.ok (),{ s with outgoing := s.outgoing ++ bytes,room := some (n-bytes.length) })
    else
      (.error .brokenPipe,{ s with outgoing := s.outgoing ++ bytes.take n,room := some 0 })

def readExact (n : ℕ) : Io Bytes := fun s =>
  if n ≤ s.incoming.length then
    (.ok (s.incoming.take n),{ s with incoming := s.incoming.drop n })
  else
    (.error .unexpectedEof,{ s with incoming := [] })

/-- `u32::to_be_bytes`. -/
def toBeBytes (n : ℕ) : Bytes :=
  [UInt8.ofNat (n/2^24),UInt8.ofNat (n/2^16),UInt8.ofNat (n/2^8),UInt8.ofNat n]

/-- `u32::from_be_bytes`. -/
def fromBeBytes (bytes : Bytes) : ℕ := bytes.foldl (fun n b => n*256+b.toNat) 0

def writeFrame (bytes : Bytes) : Io Unit :=
  if bytes.length < 2^32 then do
    writeAll (toBeBytes bytes.length)
    writeAll bytes
  else throw .tryFromInt

def readFrame (maxLen : ℕ) : Io Bytes := do
  let lenBuf ← readExact 4
  let len := fromBeBytes lenBuf
  if len > maxLen then throw (.frameTooLong len maxLen)
  readExact len

/-- The limit of the reason frame that follows a refusal. -/
def reasonMaxLen : ℕ := 4096

/-- `push` once its stream is open. Closing the stream decides nothing. -/
def pushOver (hash : Hash) (data : Bytes) : Io Unit := do
  writeFrame hash.bytes
  writeFrame data
  let ackTag ← readExact 1
  if ackTag = [1] then pure ()
  else
    let reason ← readFrame reasonMaxLen
    throw (.rejected reason)

/-- `push` over the stream that `open_stream` gives, `none` when it fails. -/
def push (stream : Option Stream) (hash : Hash) (data : Bytes) : Except TransferError Unit :=
  match stream with
  | none => .error .openStream
  | some s => (pushOver hash data s).1

theorem readExact_eq_ok {n : ℕ} {s : Stream} {bytes : Bytes} :
    ((readExact n) s).1 = .ok bytes ↔ n ≤ s.incoming.length ∧ s.incoming.take n = bytes := by
  simp only [readExact]
  split_ifs with h
  · simp [h]
  · simp [h]

theorem writeAll_incoming (bytes : Bytes) (s : Stream) :
    ((writeAll bytes) s).2.incoming = s.incoming := by
  simp only [writeAll]
  split
  · rfl
  · split_ifs <;> rfl

theorem writeFrame_incoming {bytes : Bytes} {s : Stream}
    (h : ((writeFrame bytes) s).1 = .ok ()) :
    ((writeFrame bytes) s).2.incoming = s.incoming := by
  unfold writeFrame at h ⊢
  split_ifs at h ⊢ with hlen
  · obtain ⟨_,hfirst,-⟩ := bind_eq_ok.mp h
    rw [bind_snd_of_ok hfirst,writeAll_incoming,writeAll_incoming]
  · cases h

theorem length_lt_of_writeFrame {bytes : Bytes} {s : Stream}
    (h : ((writeFrame bytes) s).1 = .ok ()) : bytes.length < 2^32 := by
  unfold writeFrame at h
  split_ifs at h with hlen
  · exact hlen
  · cases h

/-- A refusal is an error whatever reason follows it. -/
lemma reject_ne_ok (s : Stream) :
    ((do let reason ← readFrame reasonMaxLen; throw (.rejected reason) : Io Unit) s).1 ≠ .ok () := by
  intro h
  obtain ⟨reason,-,hthrow⟩ := bind_eq_ok.mp h
  cases hthrow

/-- A push that returns normally was acknowledged: the first byte the peer sent is 1. -/
theorem push_eq_ok {stream : Option Stream} {hash : Hash} {data : Bytes}
    (h : push stream hash data = .ok ()) :
    ∃ s, stream = some s ∧ s.incoming.head? = some 1 ∧ data.length < 2^32 := by
  cases stream with
  | none => cases h
  | some s =>
    refine ⟨s,rfl,?_⟩
    obtain ⟨⟨⟩,hhash,h⟩ := bind_eq_ok.mp h
    obtain ⟨⟨⟩,hdata,h⟩ := bind_eq_ok.mp h
    obtain ⟨ackTag,htag,h⟩ := bind_eq_ok.mp h
    obtain ⟨hlen,htake⟩ := readExact_eq_ok.mp htag
    rw [writeFrame_incoming hdata,writeFrame_incoming hhash] at htake
    refine ⟨?_,length_lt_of_writeFrame hdata⟩
    split_ifs at h with hack
    · rw [hack] at htake
      cases hin : s.incoming with
      | nil => simp [hin] at htake
      | cons b bs => simpa [hin] using htake
    · exact absurd h (reject_ne_ok _)

end Gozara.BlobTransfer
