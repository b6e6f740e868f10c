import Gozara.BlobTransfer.Frames

/-!
# Both ends of a push

`handle_incoming_push` against `push` over one connection. The sender writes all it has
before it reads, so a session is computed in three passes: what the sender writes, what the
receiver makes of the part that arrives, and what the sender makes of the part of the answer
that arrives. A positive answer is only written when the hash of the data was compared.
-/
namespace Gozara

/-- `HASH_MAX_LEN`. -/
def BlobTransfer.hashMaxLen : ℕ := 32

namespace Hash

/-- `Hash::from_slice`. -/
def fromSlice (bytes : Bytes) : Option Hash :=
  if h : bytes.length = 32 then some ⟨bytes,h⟩ else none

/-- A digit of `to_hex`, in lower case. -/
def hexDigit (n : ℕ) : UInt8 := UInt8.ofNat (if n < 10 then 48+n else 87+n)

/-- A hash as it is displayed. -/
def toHex (h : Hash) : Bytes :=
  h.bytes.flatMap fun b => [hexDigit (b.toNat/16),hexDigit (b.toNat%16)]

theorem length_toHex (h : Hash) : h.toHex.length = 64 := by
  rw [toHex,List.length_flatMap]
  simp [h.length_bytes]

lemma length_bytes_lt (h : Hash) : h.bytes.length < 2^32 := by
  rw [h.length_bytes]
  decide

theorem fromSlice_bytes (h : Hash) : fromSlice h.bytes = some h := dif_pos h.length_bytes

theorem fromSlice_eq_some {bytes : Bytes} {h : Hash} :
    fromSlice bytes = some h ↔ bytes = h.bytes := by
  constructor
  · intro hs
    unfold fromSlice at hs
    split_ifs at hs
    cases hs
    rfl
  · rintro rfl
    exact fromSlice_bytes h

end Hash

namespace BlobTransfer
open Fallible

/-- The bytes of a text of ASCII characters. -/
def ascii (s : String) : Bytes := s.toList.map fun c => UInt8.ofNat c.toNat

/-- The reason of a refusal. It is ASCII, so that decoding it changes nothing. -/
def reasonFor (actualHash : Hash) : Bytes :=
  ascii "integrity check failed (got " ++ actualHash.toHex ++ ascii ")"

theorem length_reasonFor (actualHash : Hash) : (reasonFor actualHash).length = 93 := by
  simp only [reasonFor,List.length_append,Hash.length_toHex]
  rfl

structure IncomingPush where
  peer : PeerId
  hash : Hash
  data : Bytes
  deriving DecidableEq

/-- `handle_incoming_push` up to the message for its consumer. -/
def acceptPush (D : Deps) (maxPayloadLen : ℕ) : Io (Hash × Bytes) := do
  let hashBytes ← readFrame hashMaxLen
  match Hash.fromSlice hashBytes with
  | none => throw .hashConversion
  | some expectedHash =>
    let data ← readFrame maxPayloadLen
    let actualHash := D.blake3 data
    if actualHash ≠ expectedHash then
      writeAll [0]
      writeFrame (reasonFor actualHash)
      throw (.hashMismatch expectedHash actualHash)
    else
      writeAll [1]
      pure (expectedHash,data)

/-- `handle_incoming_push` with the messages on the unbounded channel to its consumer. -/
def handleIncomingPush (D : Deps) (peer : PeerId) (maxPayloadLen : ℕ) (tx : List IncomingPush)
    (s : Stream) : Except TransferError Unit × List IncomingPush × Stream :=
  match acceptPush D maxPayloadLen s with
  | (.ok (expectedHash,data),t) => (.ok (),tx ++ [⟨peer,expectedHash,data⟩],t)
  | (.error e,t) => (.error e,tx,t)

/-- One direction of a connection. A writer notices the cut after `room` bytes, a reader
after `cut` bytes; `none` means never. -/
structure Direction where
  room : Option ℕ
  cut : Option ℕ

namespace Direction

def whole : Direction := ⟨none,none⟩

/-- The bytes that arrive of those that are written. -/
def carry (d : Direction) (bytes : Bytes) : Bytes :=
  match d.cut with
  | none => bytes
  | some n => bytes.take n

theorem carry_first (d : Direction) (bytes : Bytes) : d.carry bytes <+: bytes := by
  unfold carry
  split
  · exact List.prefix_rfl
  · exact List.take_prefix _ _

end Direction

/-- The bytes that a sender writes before it reads. -/
def sentBy (there : Direction) (hash : Hash) (data : Bytes) : Bytes :=
  (pushOver hash data ⟨[],[],there.room⟩).2.outgoing

/-- What `peer` and its receiver make of a push over a connection. -/
structure PushSession where
  sender : Except TransferError Unit
  receiver : Except TransferError Unit
  emitted : List IncomingPush

def pushSession (D : Deps) (there back : Direction) (peer : PeerId) (hash : Hash) (data : Bytes)
    (maxPayloadLen : ℕ) : PushSession :=
  let r := handleIncomingPush D peer maxPayloadLen []
    ⟨there.carry (sentBy there hash data),[],back.room⟩
  ⟨push (some ⟨back.carry r.2.2.outgoing,[],there.room⟩) hash data,r.1,r.2.1⟩

section Sender
variable {hash : Hash} {data : Bytes} {s t : Stream}

/-- The two frames of a push. -/
def sendPush (hash : Hash) (data : Bytes) : Io Unit :=
  writeFrame hash.bytes >>= fun _ => writeFrame data

/-- What follows them. -/
def readAck : Io Unit := do
  let ackTag ← readExact 1
  if ackTag = [1] then pure ()
  else
    let reason ← readFrame reasonMaxLen
    throw (.rejected reason)

lemma pushOver_eq (hash : Hash) (data : Bytes) :
    pushOver hash data = sendPush hash data >>= fun _ => readAck := by
  rw [sendPush,bind_assoc]
  rfl

theorem writes_sendPush (hash : Hash) (data : Bytes) :
    Writes (sendPush hash data) (frame hash.bytes ++ frame data) :=
  (writes_writeFrame _).bind fun _ => writes_writeFrame _

lemma reads_readAck : Reads readAck (1+(4+reasonMaxLen)) := by
  refine (reads_readExact 1).bind fun ackTag => ?_
  split_ifs
  · exact reads_of_fixed (fun _ => rfl) _
  · exact (reads_readFrame reasonMaxLen).bind fun reason => reads_of_fixed (fun _ => rfl) 0

/-- What is written does not depend on what arrives. -/
theorem sentBy_eq (there : Direction) (hash : Hash) (data incoming : Bytes) :
    sentBy there hash data = (sendPush hash data ⟨incoming,[],there.room⟩).2.outgoing := by
  have hblind := (writes_sendPush hash data).blind ⟨[],[],there.room⟩ incoming
  rw [hblind,sentBy,pushOver_eq]
  rcases h : sendPush hash data ⟨[],[],there.room⟩ with ⟨e | ⟨⟩,t⟩
  · rw [bind_of_error h]
  · rw [bind_of_ok h]
    exact (reads_readAck.quiet t).1

/-- What a sender writes is the two frames or a first part of them. -/
theorem sentBy_first (there : Direction) (hash : Hash) (data : Bytes) :
    sentBy there hash data <+: frame hash.bytes ++ frame data := by
  obtain ⟨w,hw,hout,-⟩ := (writes_sendPush hash data).outgoing ⟨[],[],there.room⟩
  rw [sentBy_eq there hash data [],hout]
  exact hw

/-- Without a cut both frames are written when the data has a length of 32 bits. -/
theorem sendPush_whole (hlt : data.length < 2^32) (incoming : Bytes) :
    sendPush hash data ⟨incoming,[],none⟩ =
      (.ok (),⟨incoming,frame hash.bytes ++ frame data,none⟩) := by
  rw [sendPush,bind_of_ok (writeFrame_whole hash.length_bytes_lt incoming []),List.nil_append,
    writeFrame_whole hlt]

lemma readAck_eq_ok : (readAck s).1 = .ok () ↔ s.incoming.head? = some 1 := by
  rcases hin : s.incoming with _ | ⟨tag,rest⟩
  · have hread : readExact 1 s = (.error .unexpectedEof,{ s with incoming := [] }) := by
      simp [readExact,hin]
    rw [readAck,bind_of_error hread]
    simp
  · have hread : readExact 1 s = (.ok [tag],{ s with incoming := rest }) :=
      readExact_eq_pair.mpr ⟨rfl,rest,by rw [hin]; rfl,rfl⟩
    rw [readAck,bind_of_ok hread]
    simp only [List.head?_cons,Option.some.injEq,List.cons.injEq,and_true]
    split_ifs with htag
    · exact iff_of_true rfl htag
    · exact iff_of_false (reject_ne_ok _) htag

/-- A refusal is read with its reason. -/
lemma readAck_reject {reason : Bytes} (hlen : reason.length ≤ reasonMaxLen) :
    (readAck { s with incoming := 0::frame reason }).1 = .error (.rejected reason) := by
  have hread : readExact 1 { s with incoming := 0::frame reason } =
      (.ok [0],{ s with incoming := frame reason }) :=
    readExact_eq_pair.mpr ⟨rfl,_,rfl,rfl⟩
  have hreason : readFrame reasonMaxLen { s with incoming := frame reason } =
      (.ok reason,{ s with incoming := [] }) :=
    readFrame_eq_pair.mpr ⟨hlen,lt_of_le_of_lt hlen (by decide),[],
      (List.append_nil _).symm,rfl⟩
  rw [readAck,bind_of_ok hread,if_neg (by decide),bind_of_ok hreason]
  rfl

/-- A push succeeds when everything is written and the answer starts with 1. -/
theorem push_eq_ok_iff : push (some s) hash data = .ok () ↔
    (sendPush hash data s).1 = .ok () ∧ s.incoming.head? = some 1 := by
  rw [push,pushOver_eq]
  have hin := (writes_sendPush hash data).incoming s
  rcases h : sendPush hash data s with ⟨e | ⟨⟩,t⟩
  · rw [bind_of_error h]
    simp
  · rw [h] at hin
    rw [bind_of_ok h,readAck_eq_ok,hin]
    simp

end Sender

section Receiver
variable {D : Deps} {maxPayloadLen : ℕ} {hash : Hash} {data rest : Bytes} {s t : Stream}

/-- `handle_incoming_push` with its data read. -/
def answerPush (D : Deps) (expectedHash : Hash) (data : Bytes) : Io (Hash × Bytes) := do
  if D.blake3 data ≠ expectedHash then
    writeAll [0]
    writeFrame (reasonFor (D.blake3 data))
    throw (.hashMismatch expectedHash (D.blake3 data))
  else
    writeAll [1]
    pure (expectedHash,data)

/-- The two reads of `handle_incoming_push`. -/
def readPush (maxPayloadLen : ℕ) : Io (Hash × Bytes) := do
  let hashBytes ← readFrame hashMaxLen
  match Hash.fromSlice hashBytes with
  | none => throw .hashConversion
  | some expectedHash =>
    let data ← readFrame maxPayloadLen
    pure (expectedHash,data)

lemma acceptPush_eq (D : Deps) (maxPayloadLen : ℕ) : acceptPush D maxPayloadLen =
    readPush maxPayloadLen >>= fun r => answerPush D r.1 r.2 := by
  rw [readPush,bind_assoc]
  refine congrArg _ (funext fun hashBytes => ?_)
  cases Hash.fromSlice hashBytes with
  | none => rfl
  | some expectedHash =>
    rw [bind_assoc]
    rfl

theorem reads_readPush (maxPayloadLen : ℕ) :
    Reads (readPush maxPayloadLen) ((4+hashMaxLen)+(4+maxPayloadLen)) := by
  refine (reads_readFrame hashMaxLen).bind fun hashBytes => ?_
  cases Hash.fromSlice hashBytes with
  | none => exact reads_of_fixed (fun _ => rfl) _
  | some expectedHash =>
    exact (reads_readFrame maxPayloadLen).bind fun data => reads_of_fixed (fun _ => rfl) 0

/-- A hash and data are read when they come within the limits, each in its frame. -/
theorem readPush_eq_pair : readPush maxPayloadLen s = (.ok (hash,data),t) ↔
    data.length ≤ maxPayloadLen ∧ data.length < 2^32 ∧
      ∃ rest, s.incoming = frame hash.bytes ++ (frame data ++ rest) ∧
        t = { s with incoming := rest } := by
  rw [readPush,bind_eq_pair]
  constructor
  · rintro ⟨hashBytes,u,hhash,hrest⟩
    obtain ⟨-,-,tail,hin,rfl⟩ := readFrame_eq_pair.mp hhash
    cases hslice : Hash.fromSlice hashBytes with
    | none =>
      rw [hslice] at hrest
      cases hrest
    | some expectedHash =>
      rw [hslice] at hrest
      rw [Hash.fromSlice_eq_some] at hslice
      subst hslice
      obtain ⟨data',v,hdata,hpure⟩ := bind_eq_pair.mp hrest
      cases hpure
      obtain ⟨hmax,hlt,rest,hin',rfl⟩ := readFrame_eq_pair.mp hdata
      exact ⟨hmax,hlt,rest,by rw [hin,← hin'],rfl⟩
  · rintro ⟨hmax,hlt,rest,hin,rfl⟩
    refine ⟨hash.bytes,{ s with incoming := frame data ++ rest },?_,?_⟩
    · exact readFrame_eq_pair.mpr ⟨hash.length_bytes.le,hash.length_bytes_lt,_,hin,rfl⟩
    · rw [Hash.fromSlice_bytes]
      exact bind_eq_pair.mpr ⟨data,_,readFrame_eq_pair.mpr ⟨hmax,hlt,rest,rfl,rfl⟩,rfl⟩

/-- A hash and data within the limits come to the comparison. -/
theorem acceptPush_frames (hin : s.incoming = frame hash.bytes ++ (frame data ++ rest))
    (hmax : data.length ≤ maxPayloadLen) (hlt : data.length < 2^32) :
    acceptPush D maxPayloadLen s = answerPush D hash data { s with incoming := rest } := by
  rw [acceptPush_eq,bind_of_ok (readPush_eq_pair.mpr ⟨hmax,hlt,rest,hin,rfl⟩)]

/-- Nothing else does: the receiver ends without an answer. -/
theorem acceptPush_other (h : ∀ (hash : Hash) (data rest : Bytes),
    s.incoming = frame hash.bytes ++ (frame data ++ rest) → data.length < 2^32 →
      maxPayloadLen < data.length) :
    ∃ e t, acceptPush D maxPayloadLen s = (.error e,t) ∧ t.outgoing = s.outgoing := by
  have hquiet := ((reads_readPush maxPayloadLen).quiet s).1
  rcases hread : readPush maxPayloadLen s with ⟨e | ⟨hash,data⟩,t⟩
  · rw [hread] at hquiet
    exact ⟨e,t,by rw [acceptPush_eq,bind_of_error hread],hquiet⟩
  · obtain ⟨hmax,hlt,rest,hin,-⟩ := readPush_eq_pair.mp hread
    exact absurd (h hash data rest hin hlt) (Nat.not_lt.mpr hmax)

/-- What a refusal writes. -/
lemma answerPush_mismatch (hne : D.blake3 data ≠ hash) :
    Writes (answerPush D hash data) (0::frame (reasonFor (D.blake3 data))) := by
  have hreason : Writes (writeFrame (reasonFor (D.blake3 data)) >>= fun _ =>
      (throw (.hashMismatch hash (D.blake3 data)) : Io (Hash × Bytes)))
      (frame (reasonFor (D.blake3 data)) ++ []) :=
    (writes_writeFrame _).bind fun _ => writes_throw _ []
  rw [List.append_nil] at hreason
  rw [answerPush,if_pos hne]
  exact (writes_writeAll [0]).bind fun _ => hreason

/-- A positive answer is written together with the message for the consumer. -/
theorem answerPush_head (hout : s.outgoing = [])
    (hone : (answerPush D hash data s).2.outgoing.head? = some 1) :
    D.blake3 data = hash ∧ (answerPush D hash data s).1 = .ok (hash,data) := by
  by_cases heq : D.blake3 data = hash
  · refine ⟨heq,?_⟩
    rw [answerPush,if_neg (not_not.mpr heq)] at hone ⊢
    have hwrite : (writeAll [1] s).2.outgoing ≠ s.outgoing → (writeAll [1] s).1 = .ok () :=
      writeAll_singleton
    rcases h : writeAll [1] s with ⟨e | ⟨⟩,t⟩
    · rw [bind_of_error h] at hone
      rw [h] at hwrite
      have hnil : t.outgoing = s.outgoing := by
        by_contra hne
        cases hwrite hne
      simp [hnil,hout] at hone
    · rw [bind_of_ok h]
      rfl
  · -- What is written after a mismatch starts with 0.
    obtain ⟨w,hw,hwout,-⟩ := (answerPush_mismatch heq).outgoing s
    rw [hwout,hout,List.nil_append] at hone
    cases w with
    | nil => cases hone
    | cons b bs =>
      rw [List.cons_prefix_cons] at hw
      rw [List.head?_cons,hw.1] at hone
      cases hone

/-- So it is for the whole receiver: the byte 1 is written after both frames have arrived and
the hash has been compared. -/
theorem acceptPush_head (hout : s.outgoing = [])
    (hone : (acceptPush D maxPayloadLen s).2.outgoing.head? = some 1) :
    ∃ hash data rest, s.incoming = frame hash.bytes ++ (frame data ++ rest) ∧
      data.length ≤ maxPayloadLen ∧ data.length < 2^32 ∧ D.blake3 data = hash ∧
      (acceptPush D maxPayloadLen s).1 = .ok (hash,data) := by
  by_cases hframes : ∃ (hash : Hash) (data rest : Bytes),
      s.incoming = frame hash.bytes ++ (frame data ++ rest) ∧ data.length < 2^32 ∧
        data.length ≤ maxPayloadLen
  · obtain ⟨hash,data,rest,hin,hlt,hmax⟩ := hframes
    rw [acceptPush_frames hin hmax hlt] at hone ⊢
    obtain ⟨heq,hok⟩ := answerPush_head (s := { s with incoming := rest }) hout hone
    exact ⟨hash,data,rest,hin,hmax,hlt,heq,hok⟩
  · have hother : ∃ e t, acceptPush D maxPayloadLen s = (.error e,t) ∧ t.outgoing = s.outgoing :=
      acceptPush_other fun hash data rest hin hlt => Nat.lt_of_not_le fun hmax =>
        hframes ⟨hash,data,rest,hin,hlt,hmax⟩
    obtain ⟨e,t,herr,hnone⟩ := hother
    rw [herr,hnone,hout] at hone
    cases hone

/-- Without a cut the hash of the data is acknowledged by 1. -/
theorem answerPush_accepts (heq : D.blake3 data = hash) (incoming : Bytes) :
    answerPush D hash data ⟨incoming,[],none⟩ = (.ok (hash,data),⟨incoming,[1],none⟩) := by
  rw [answerPush,if_neg (not_not.mpr heq)]
  rfl

/-- Without a cut a mismatch is answered by 0 and the reason. -/
theorem answerPush_refuses (hne : D.blake3 data ≠ hash) (incoming : Bytes) :
    answerPush D hash data ⟨incoming,[],none⟩ =
      (.error (.hashMismatch hash (D.blake3 data)),
        ⟨incoming,0::frame (reasonFor (D.blake3 data)),none⟩) := by
  have hlt : (reasonFor (D.blake3 data)).length < 2^32 := by
    rw [length_reasonFor]
    decide
  have hzero : writeAll [0] ⟨incoming,[],none⟩ = (.ok (),⟨incoming,[0],none⟩) := rfl
  rw [answerPush,if_pos hne,bind_of_ok hzero,bind_of_ok (writeFrame_whole hlt incoming [0])]
  rfl

end Receiver

section Session
variable {D : Deps} {there back : Direction} {peer : PeerId} {hash : Hash} {data : Bytes}
  {maxPayloadLen : ℕ}

/-- The stream of the receiver, from its start. -/
def receiverStream (there back : Direction) (hash : Hash) (data : Bytes) : Stream :=
  ⟨there.carry (sentBy there hash data),[],back.room⟩

/-- A receiver emits what it accepts. -/
lemma emitted_eq (D : Deps) (there back : Direction) (peer : PeerId) (hash : Hash) (data : Bytes)
    (maxPayloadLen : ℕ) : (pushSession D there back peer hash data maxPayloadLen).emitted =
      match (acceptPush D maxPayloadLen (receiverStream there back hash data)).1 with
      | .ok r => [⟨peer,r.1,r.2⟩]
      | .error _ => [] := by
  simp only [pushSession,handleIncomingPush,receiverStream]
  rcases acceptPush D maxPayloadLen ⟨there.carry (sentBy there hash data),[],back.room⟩ with
    ⟨e | ⟨expectedHash,data⟩,t⟩ <;> rfl

lemma sender_eq (D : Deps) (there back : Direction) (peer : PeerId) (hash : Hash) (data : Bytes)
    (maxPayloadLen : ℕ) : (pushSession D there back peer hash data maxPayloadLen).sender =
      push (some ⟨back.carry
        (acceptPush D maxPayloadLen (receiverStream there back hash data)).2.outgoing,[],
          there.room⟩) hash data := by
  simp only [pushSession,handleIncomingPush,receiverStream]
  rcases acceptPush D maxPayloadLen ⟨there.carry (sentBy there hash data),[],back.room⟩ with
    ⟨e | ⟨expectedHash,data⟩,t⟩ <;> rfl

/-- The answer 1 stands for this hash and this data. -/
theorem emitted_of_ok
    (h : (pushSession D there back peer hash data maxPayloadLen).sender = .ok ()) :
    (pushSession D there back peer hash data maxPayloadLen).emitted = [⟨peer,hash,data⟩] ∧
      D.blake3 data = hash ∧ data.length ≤ maxPayloadLen ∧ data.length < 2^32 := by
  rw [sender_eq,push_eq_ok_iff] at h
  obtain ⟨hsend,hhead⟩ := h
  obtain ⟨rest,hrest⟩ := back.carry_first
    (acceptPush D maxPayloadLen (receiverStream there back hash data)).2.outgoing
  have hone : (acceptPush D maxPayloadLen
      (receiverStream there back hash data)).2.outgoing.head? = some 1 := by
    rw [← hrest,List.head?_append,hhead]
    rfl
  obtain ⟨hash',data',rest',hin,hmax,hlt',heq,hok⟩ := acceptPush_head rfl hone
  have hlt : data.length < 2^32 := by
    obtain ⟨⟨⟩,u,-,hdata⟩ := bind_eq_pair.mp (Prod.ext hsend rfl)
    exact length_lt_of_writeFrame (congrArg Prod.fst hdata)
  -- What arrived are the first bytes of the two frames that were sent.
  have hpre := (there.carry_first (sentBy there hash data)).trans (sentBy_first there hash data)
  obtain ⟨tail,htail⟩ := hpre
  change there.carry (sentBy there hash data) = _ at hin
  rw [hin,List.append_assoc] at htail
  obtain ⟨hbytes,hframe⟩ := frame_append_inj hash'.length_bytes_lt hash.length_bytes_lt htail
  rw [← List.append_nil (frame data),List.append_assoc] at hframe
  obtain ⟨rfl,-⟩ := frame_append_inj hlt' hlt hframe
  obtain rfl : hash' = hash := by
    cases hash'
    cases hash
    simpa using hbytes
  refine ⟨?_,heq,hmax,hlt⟩
  rw [emitted_eq,hok]

theorem length_emitted_le (D : Deps) (there back : Direction) (peer : PeerId) (hash : Hash)
    (data : Bytes) (maxPayloadLen : ℕ) :
    (pushSession D there back peer hash data maxPayloadLen).emitted.length ≤ 1 := by
  rw [emitted_eq]
  split <;> simp

/-- Without a cut both frames arrive. -/
lemma receiverStream_whole (hlt : data.length < 2^32) : receiverStream .whole .whole hash data =
    ⟨frame hash.bytes ++ (frame data ++ []),[],none⟩ := by
  rw [receiverStream,sentBy_eq _ _ _ []]
  simp only [Direction.whole,Direction.carry]
  rw [sendPush_whole hlt,List.append_nil]

lemma whole_sender (hlt : data.length < 2^32) (hmax : data.length ≤ maxPayloadLen) :
    (pushSession D .whole .whole peer hash data maxPayloadLen).sender =
      push (some ⟨(answerPush D hash data ⟨[],[],none⟩).2.outgoing,[],none⟩) hash data := by
  rw [sender_eq,receiverStream_whole hlt,acceptPush_frames rfl hmax hlt]
  rfl

/-- Without a cut a push succeeds when its data is within both limits and has its hash. -/
theorem whole_ok (hlt : data.length < 2^32) (hmax : data.length ≤ maxPayloadLen)
    (heq : D.blake3 data = hash) :
    (pushSession D .whole .whole peer hash data maxPayloadLen).sender = .ok () := by
  rw [whole_sender hlt hmax,push_eq_ok_iff,sendPush_whole hlt,answerPush_accepts heq]
  exact ⟨rfl,rfl⟩

/-- When only the hash is wrong, the error is the receiver's reason. -/
theorem whole_rejected (hlt : data.length < 2^32) (hmax : data.length ≤ maxPayloadLen)
    (hne : D.blake3 data ≠ hash) :
    (pushSession D .whole .whole peer hash data maxPayloadLen).sender =
      .error (.rejected (reasonFor (D.blake3 data))) := by
  rw [whole_sender hlt hmax,answerPush_refuses hne,push,pushOver_eq,
    bind_of_ok (sendPush_whole hlt _)]
  exact readAck_reject (s := ⟨[],frame hash.bytes ++ frame data,none⟩)
    (by rw [length_reasonFor]; decide)

end Session

end BlobTransfer

end Gozara
