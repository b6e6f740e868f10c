import Gozara.BlobTransfer.Push

/-!
# Both ends of a pull

`pull` against any bytes, and against `handle_incoming_pull` with any consumer. The puller
trusts nothing but the hash: what it returns it has compared, and it reads no more than the
limit allows, whatever the length that was announced.
-/
namespace Gozara.BlobTransfer
open Fallible

/-- `pull` once its stream is open. -/
def pullOver (D : Deps) (hash : Hash) (maxPayloadLen : ℕ) : Io (Option Bytes) := do
  writeFrame hash.bytes
  let foundTag ← readExact 1
  if foundTag = [0] then pure none
  else
    let data ← readFrame maxPayloadLen
    let receivedHash := D.blake3 data
    if receivedHash = hash then pure (some data)
    else throw (.hashMismatch hash receivedHash)

/-- `pull` over the stream that `open_stream` gives, `none` when it fails. -/
def pull (D : Deps) (stream : Option Stream) (hash : Hash) (maxPayloadLen : ℕ) :
    Except TransferError (Option Bytes) :=
  match stream with
  | none => .error .openStream
  | some s => (pullOver D hash maxPayloadLen s).1

structure IncomingPull where
  peer : PeerId
  hash : Hash
  deriving DecidableEq

/-- What becomes of the reply channel of an `IncomingPull`: the consumer responds, or the
sender is dropped without a response. -/
inductive Reply
  | dropped
  | respond (data : Option Bytes)
  deriving DecidableEq

/-- `reply_rx.await.unwrap_or(None)`. -/
def Reply.data : Reply → Option Bytes
  | dropped => none
  | respond data => data

/-- What becomes of an `IncomingPull`; `none` stands for a consumer channel that is closed. -/
def replyTo (consumer : Option (IncomingPull → Reply)) (p : IncomingPull) : Reply :=
  match consumer with
  | none => .dropped
  | some respond => respond p

/-- `handle_incoming_pull`. An error of its last step, the closing of the stream, is only
logged. -/
def handleIncomingPull (peer : PeerId) (consumer : Option (IncomingPull → Reply)) : Io Unit := do
  let hashBytes ← readFrame hashMaxLen
  match Hash.fromSlice hashBytes with
  | none => throw .hashConversion
  | some hash =>
    match (replyTo consumer ⟨peer,hash⟩).data with
    | some bytes =>
      writeAll [1]
      writeFrame bytes
    | none => writeAll [0]

/-- What a pull of `peer` over a connection returns. -/
def pullSession (D : Deps) (there back : Direction) (peer : PeerId)
    (consumer : Option (IncomingPull → Reply)) (hash : Hash) (maxPayloadLen : ℕ) :
    Except TransferError (Option Bytes) :=
  let asked := (pullOver D hash maxPayloadLen ⟨[],[],there.room⟩).2.outgoing
  let answered := (handleIncomingPull peer consumer ⟨there.carry asked,[],back.room⟩).2.outgoing
  pull D (some ⟨back.carry answered,[],there.room⟩) hash maxPayloadLen

section Puller
variable {D : Deps} {hash : Hash} {maxPayloadLen : ℕ} {s : Stream} {data : Bytes}

/-- What follows the request. -/
def readFound (D : Deps) (hash : Hash) (maxPayloadLen : ℕ) : Io (Option Bytes) := do
  let foundTag ← readExact 1
  if foundTag = [0] then pure none
  else
    let data ← readFrame maxPayloadLen
    if D.blake3 data = hash then pure (some data)
    else throw (.hashMismatch hash (D.blake3 data))

lemma pullOver_eq (D : Deps) (hash : Hash) (maxPayloadLen : ℕ) :
    pullOver D hash maxPayloadLen =
      writeFrame hash.bytes >>= fun _ => readFound D hash maxPayloadLen := rfl

theorem reads_readFound (D : Deps) (hash : Hash) (maxPayloadLen : ℕ) :
    Reads (readFound D hash maxPayloadLen) (1+(4+maxPayloadLen)) := by
  refine (reads_readExact 1).bind fun foundTag => ?_
  split_ifs
  · exact reads_of_fixed (fun _ => rfl) _
  · refine (reads_readFrame maxPayloadLen).bind fun data => reads_of_fixed (fun _ => ?_) 0
    split_ifs <;> rfl

/-- The only payload that is returned is one that was compared. -/
theorem readFound_sound (h : (readFound D hash maxPayloadLen s).1 = .ok (some data)) :
    D.blake3 data = hash ∧ data.length ≤ maxPayloadLen := by
  obtain ⟨foundTag,t,-,h⟩ := bind_eq_pair.mp (Prod.ext h rfl)
  split_ifs at h with htag
  · cases h
  · obtain ⟨data',u,hread,h⟩ := bind_eq_pair.mp h
    split_ifs at h with heq
    · cases h
      exact ⟨heq,(readFrame_eq_pair.mp hread).1⟩
    · cases h

theorem pull_sound {stream : Option Stream}
    (h : pull D stream hash maxPayloadLen = .ok (some data)) :
    D.blake3 data = hash ∧ data.length ≤ maxPayloadLen := by
  cases stream with
  | none => cases h
  | some s =>
    rw [pull,pullOver_eq] at h
    obtain ⟨⟨⟩,t,-,h⟩ := bind_eq_pair.mp (Prod.ext h rfl)
    exact readFound_sound (congrArg Prod.fst h)

/-- A pull takes a tag, a length and at most the limit off its stream. -/
theorem pullOver_consumed (D : Deps) (hash : Hash) (maxPayloadLen : ℕ) (s : Stream) :
    ∃ read, s.incoming = read ++ (pullOver D hash maxPayloadLen s).2.incoming ∧
      read.length ≤ 1+(4+maxPayloadLen) := by
  have hin := (writes_writeFrame hash.bytes).incoming s
  rw [pullOver_eq]
  rcases h : writeFrame hash.bytes s with ⟨e | ⟨⟩,t⟩
  · rw [h] at hin
    rw [bind_of_error h]
    exact ⟨[],hin.symm,Nat.zero_le _⟩
  · rw [h] at hin
    obtain ⟨read,hread,hle⟩ := (reads_readFound D hash maxPayloadLen).consumed t
    rw [bind_of_ok h]
    exact ⟨read,hin.symm.trans hread,hle⟩

lemma readFound_absent : (readFound D hash maxPayloadLen { s with incoming := [0] }).1 = .ok none := by
  have hread : readExact 1 { s with incoming := [0] } = (.ok [0],{ s with incoming := [] }) :=
    readExact_eq_pair.mpr ⟨rfl,[],rfl,rfl⟩
  rw [readFound,bind_of_ok hread,if_pos rfl]
  rfl

/-- After the tag 1 only a frame that is complete, within the limit and of the right hash
is a success. -/
lemma readFound_present (rest : Bytes) :
    (readFound D hash maxPayloadLen { s with incoming := 1::rest }).1 = .ok (some data) ↔
      D.blake3 data = hash ∧ data.length ≤ maxPayloadLen ∧ data.length < 2^32 ∧
        frame data <+: rest := by
  have hread : readExact 1 { s with incoming := 1::rest } =
      (.ok [1],{ s with incoming := rest }) :=
    readExact_eq_pair.mpr ⟨rfl,rest,rfl,rfl⟩
  rw [readFound,bind_of_ok hread,if_neg (by decide)]
  constructor
  · intro h
    obtain ⟨data',t,hframe,h⟩ := bind_eq_pair.mp (Prod.ext h rfl)
    obtain ⟨hmax,hlt,tail,hin,-⟩ := readFrame_eq_pair.mp hframe
    split_ifs at h with heq
    · cases h
      exact ⟨heq,hmax,hlt,tail,hin.symm⟩
    · cases h
  · rintro ⟨heq,hmax,hlt,tail,hin⟩
    have hframe : readFrame maxPayloadLen { s with incoming := rest } =
        (.ok data,{ s with incoming := tail }) :=
      readFrame_eq_pair.mpr ⟨hmax,hlt,tail,hin.symm,rfl⟩
    rw [bind_of_ok hframe,if_pos heq]
    rfl

lemma readFound_ne_none (rest : Bytes) :
    (readFound D hash maxPayloadLen { s with incoming := 1::rest }).1 ≠ .ok none := by
  intro h
  have hread : readExact 1 { s with incoming := 1::rest } =
      (.ok [1],{ s with incoming := rest }) :=
    readExact_eq_pair.mpr ⟨rfl,rest,rfl,rfl⟩
  rw [readFound,bind_of_ok hread,if_neg (by decide)] at h
  obtain ⟨data,t,-,h⟩ := bind_eq_pair.mp (Prod.ext h rfl)
  split_ifs at h <;> cases h

end Puller

section Session
variable {D : Deps} {peer : PeerId} {consumer : Option (IncomingPull → Reply)} {hash : Hash}
  {maxPayloadLen : ℕ} {data : Bytes}

/-- What the server writes for a reply. -/
def answered : Option Bytes → Bytes
  | none => [0]
  | some bytes => 1::if bytes.length < 2^32 then frame bytes else []

/-- Without a cut the server answers the hash that was asked for. -/
theorem handleIncomingPull_whole (peer : PeerId) (consumer : Option (IncomingPull → Reply))
    (hash : Hash) :
    (handleIncomingPull peer consumer ⟨frame hash.bytes,[],none⟩).2.outgoing =
      answered (replyTo consumer ⟨peer,hash⟩).data := by
  have hread : readFrame hashMaxLen ⟨frame hash.bytes,[],none⟩ = (.ok hash.bytes,⟨[],[],none⟩) :=
    readFrame_eq_pair.mpr ⟨hash.length_bytes.le,hash.length_bytes_lt,[],
      (List.append_nil _).symm,rfl⟩
  rw [handleIncomingPull,bind_of_ok hread,Hash.fromSlice_bytes]
  dsimp only
  cases (replyTo consumer ⟨peer,hash⟩).data with
  | none => rfl
  | some bytes =>
    have hone : writeAll [1] ⟨[],[],none⟩ = (.ok (),⟨[],[1],none⟩) := rfl
    dsimp only
    rw [bind_of_ok hone]
    by_cases hlt : bytes.length < 2^32
    · rw [writeFrame_whole hlt,answered,if_pos hlt]
      rfl
    · rw [writeFrame_long hlt,answered,if_neg hlt]

lemma pullSession_whole (D : Deps) (peer : PeerId) (consumer : Option (IncomingPull → Reply))
    (hash : Hash) (maxPayloadLen : ℕ) :
    pullSession D .whole .whole peer consumer hash maxPayloadLen =
      (readFound D hash maxPayloadLen
        ⟨answered (replyTo consumer ⟨peer,hash⟩).data,frame hash.bytes,none⟩).1 := by
  have hask : ∀ incoming, writeFrame hash.bytes ⟨incoming,[],none⟩ =
      (.ok (),⟨incoming,frame hash.bytes,none⟩) := fun incoming =>
    writeFrame_whole (hash.length_bytes_lt) incoming []
  have hasked : (pullOver D hash maxPayloadLen ⟨[],[],none⟩).2.outgoing = frame hash.bytes := by
    rw [pullOver_eq,bind_of_ok (hask [])]
    exact ((reads_readFound D hash maxPayloadLen).quiet _).1
  simp only [pullSession,Direction.whole,Direction.carry,hasked,handleIncomingPull_whole]
  rw [pull,pullOver_eq,bind_of_ok (hask _)]

/-- Pull is sound against any responder, from which it takes no more than the limit, and
complete against an honest one. -/
theorem pull_sound_complete (D : Deps) (hash : Hash) (maxPayloadLen : ℕ) :
    (∀ stream data, pull D stream hash maxPayloadLen = .ok (some data) →
      D.blake3 data = hash ∧ data.length ≤ maxPayloadLen) ∧
    (∀ s, ∃ read, s.incoming = read ++ (pullOver D hash maxPayloadLen s).2.incoming ∧
      read.length ≤ 1+(4+maxPayloadLen)) ∧
    ∀ peer consumer,
      ((replyTo consumer ⟨peer,hash⟩ = .dropped ∨ replyTo consumer ⟨peer,hash⟩ = .respond none) →
        pullSession D .whole .whole peer consumer hash maxPayloadLen = .ok none) ∧
      ∀ b, replyTo consumer ⟨peer,hash⟩ = .respond (some b) →
        (D.blake3 b = hash ∧ b.length < 2^32 ∧ b.length ≤ maxPayloadLen →
          pullSession D .whole .whole peer consumer hash maxPayloadLen = .ok (some b)) ∧
        (¬(D.blake3 b = hash ∧ b.length < 2^32 ∧ b.length ≤ maxPayloadLen) →
          ∃ e, pullSession D .whole .whole peer consumer hash maxPayloadLen = .error e) := by
  refine ⟨fun _ _ => pull_sound,pullOver_consumed D hash maxPayloadLen,fun peer consumer =>
    ⟨fun hreply => ?_,fun b hreply => ⟨?_,?_⟩⟩⟩
  · have hnone : (replyTo consumer ⟨peer,hash⟩).data = none := by
      rcases hreply with h | h <;> rw [h] <;> rfl
    rw [pullSession_whole,hnone]
    exact readFound_absent (s := ⟨[],frame hash.bytes,none⟩)
  · rintro ⟨heq,hlt,hmax⟩
    rw [pullSession_whole,hreply,Reply.data,answered,if_pos hlt]
    exact (readFound_present (s := ⟨[],frame hash.bytes,none⟩) _).mpr
      ⟨heq,hmax,hlt,List.prefix_rfl⟩
  · intro hbad
    rw [pullSession_whole,hreply,Reply.data,answered]
    rcases h : (readFound D hash maxPayloadLen
      ⟨1::if b.length < 2^32 then frame b else [],frame hash.bytes,none⟩).1 with e | o
    · exact ⟨e,rfl⟩
    · exfalso
      cases o with
      | none => exact readFound_ne_none (s := ⟨[],frame hash.bytes,none⟩) _ h
      | some d =>
        obtain ⟨heq,hmax,hlt,tail,hin⟩ :=
          (readFound_present (s := ⟨[],frame hash.bytes,none⟩) _).mp h
        split_ifs at hin with hb
        · -- The frame that was read is the one that was written.
          rw [← List.append_nil (frame b)] at hin
          obtain ⟨rfl,-⟩ := frame_append_inj hlt hb hin
          exact hbad ⟨heq,hlt,hmax⟩
        · have hlen := congrArg List.length hin
          rw [List.length_append,length_frame,List.length_nil] at hlen
          omega

end Session

end Gozara.BlobTransfer
