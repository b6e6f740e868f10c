import Gozara.BlobTransfer.Push

/-!
# What the receiver of a push accepts

`handle_incoming_push` on any bytes. Two frames within their limits come to the comparison
of the hash, whatever follows them; all other bytes end it without an answer. The buffers
for the bytes of a frame are allocated after the length is checked.
-/
namespace Gozara.BlobTransfer
open Fallible

/-- Bytes that begin with a hash and data within the limits, each in its frame. -/
def Offers (maxPayloadLen : ℕ) (input : Bytes) (hash : Hash) (data : Bytes) : Prop :=
  data.length < 2^32 ∧ data.length ≤ maxPayloadLen ∧
    ∃ rest, input = frame hash.bytes ++ (frame data ++ rest)

/-- Input and output with the lengths of the buffers allocated so far. -/
abbrev Metered (α : Type) := ExceptT TransferError (StateM (Stream × List ℕ)) α

/-- An action that allocates no buffer. -/
def unmetered {α : Type} (x : Io α) : Metered α := fun s => ((x s.1).1,(x s.1).2,s.2)

/-- `vec![0u8; len]`. -/
def allocate (len : ℕ) : Metered Unit := fun s => (.ok (),s.1,s.2 ++ [len])

/-- `read_frame` with its buffer. -/
def readFrameMetered (maxLen : ℕ) : Metered Bytes := do
  let lenBuf ← unmetered (readExact 4)
  let len := fromBeBytes lenBuf
  if len > maxLen then throw (.frameTooLong len maxLen)
  allocate len
  unmetered (readExact len)

/-- `handle_incoming_push` with its buffers. -/
def acceptPushMetered (D : Deps) (maxPayloadLen : ℕ) : Metered (Hash × Bytes) := do
  let hashBytes ← readFrameMetered hashMaxLen
  match Hash.fromSlice hashBytes with
  | none => throw .hashConversion
  | some expectedHash =>
    let data ← readFrameMetered maxPayloadLen
    unmetered (answerPush D expectedHash data)

/-- The lengths of the buffers that `handle_incoming_push` allocates. -/
def pushBuffers (D : Deps) (maxPayloadLen : ℕ) (s : Stream) : List ℕ :=
  (acceptPushMetered D maxPayloadLen (s,[])).2.2

section Meter
variable {α β : Type} {x : Io α} {f : α → Io β} {y : Metered α} {g : α → Metered β}
  {limits limits' : List ℕ}

/-- An action with its buffers does what it does without them, and its buffers keep within
the limits, in their order; all of them are allocated when it succeeds. -/
def Meters (y : Metered α) (x : Io α) (limits : List ℕ) : Prop :=
  ∀ s a, ∃ sizes within, y (s,a) = ((x s).1,(x s).2,a ++ sizes) ∧
    List.Forall₂ (· ≤ ·) sizes within ∧ within <+: limits ∧
    ∀ v, (x s).1 = .ok v → within = limits

theorem meters_unmetered (x : Io α) : Meters (unmetered x) x [] := by
  intro s a
  exact ⟨[],[],by rw [List.append_nil]; rfl,.nil,List.prefix_rfl,fun _ _ => rfl⟩

/-- An error may stand before any buffers. -/
lemma meters_throw (e : TransferError) (limits : List ℕ) :
    Meters (throw e : Metered α) (throw e) limits := by
  intro s a
  exact ⟨[],[],by rw [List.append_nil]; rfl,.nil,List.nil_prefix,fun _ h => by cases h⟩

theorem Meters.bind (hx : Meters y x limits) (hf : ∀ v, Meters (g v) (f v) limits') :
    Meters (y >>= g) (x >>= f) (limits ++ limits') := by
  intro s a
  obtain ⟨sizes,within,hy,hle,hpre,hok⟩ := hx s a
  rcases h : x s with ⟨e | v,t⟩
  · rw [h] at hy
    rw [bind_of_error hy,bind_of_error h]
    exact ⟨sizes,within,rfl,hle,hpre.trans (List.prefix_append _ _),fun _ h => by cases h⟩
  · rw [h] at hy hok
    obtain ⟨sizes',within',hg,hle',hpre',hok'⟩ := hf v t (a ++ sizes)
    rw [bind_of_ok hy,bind_of_ok h,hg]
    refine ⟨sizes ++ sizes',within ++ within',by rw [List.append_assoc],
      List.rel_append hle hle',?_,fun b hb => by rw [hok v rfl,hok' b hb]⟩
    rw [hok v rfl]
    exact (List.prefix_append_right_inj _).mpr hpre'

/-- The buffer of a frame is allocated when its length has been checked. -/
theorem meters_readFrame (maxLen : ℕ) :
    Meters (readFrameMetered maxLen) (readFrame maxLen) [maxLen] := by
  refine (meters_unmetered (readExact 4)).bind fun lenBuf => ?_
  dsimp only
  split_ifs with hlong
  · exact meters_throw _ _
  · intro s a
    exact ⟨[fromBeBytes lenBuf],[maxLen],rfl,.cons (Nat.le_of_not_lt hlong) .nil,
      List.prefix_rfl,fun _ _ => rfl⟩

theorem meters_acceptPush (D : Deps) (maxPayloadLen : ℕ) :
    Meters (acceptPushMetered D maxPayloadLen) (acceptPush D maxPayloadLen)
      [hashMaxLen,maxPayloadLen] := by
  refine (meters_readFrame hashMaxLen).bind fun hashBytes => ?_
  cases Hash.fromSlice hashBytes with
  | none => exact meters_throw _ _
  | some expectedHash =>
    exact (meters_readFrame maxPayloadLen).bind fun data =>
      meters_unmetered (answerPush D expectedHash data)

end Meter

section Accept
variable {D : Deps} {maxPayloadLen : ℕ} {input data : Bytes} {hash : Hash}

/-- Bytes offer at most one hash and one piece of data. -/
theorem Offers.unique {hash' : Hash} {data' : Bytes} (h : Offers maxPayloadLen input hash data)
    (h' : Offers maxPayloadLen input hash' data') : hash = hash' ∧ data = data' := by
  obtain ⟨hlt,-,rest,hin⟩ := h
  obtain ⟨hlt',-,rest',hin'⟩ := h'
  obtain ⟨hbytes,htail⟩ := frame_append_inj hash.length_bytes_lt hash'.length_bytes_lt
    (hin.symm.trans hin')
  obtain ⟨hdata,-⟩ := frame_append_inj hlt hlt' htail
  refine ⟨?_,hdata⟩
  cases hash
  cases hash'
  simpa using hbytes

/-- An offer whose hash is right is acknowledged and handed to the consumer. -/
theorem handleIncomingPush_accepts (peer : PeerId) (tx : List IncomingPush)
    (h : Offers maxPayloadLen input hash data)
    (heq : D.blake3 data = hash) : ∃ rest,
    handleIncomingPush D peer maxPayloadLen tx ⟨input,[],none⟩ =
      (.ok (),tx ++ [⟨peer,hash,data⟩],⟨rest,[1],none⟩) := by
  obtain ⟨hlt,hmax,rest,hin⟩ := h
  refine ⟨rest,?_⟩
  rw [handleIncomingPush,acceptPush_frames hin hmax hlt,answerPush_accepts heq]

/-- An offer whose hash is wrong is refused with the reason. -/
theorem handleIncomingPush_refuses (peer : PeerId) (tx : List IncomingPush)
    (h : Offers maxPayloadLen input hash data)
    (hne : D.blake3 data ≠ hash) : ∃ rest,
    handleIncomingPush D peer maxPayloadLen tx ⟨input,[],none⟩ =
      (.error (.hashMismatch hash (D.blake3 data)),tx,
        ⟨rest,0::frame (reasonFor (D.blake3 data)),none⟩) := by
  obtain ⟨hlt,hmax,rest,hin⟩ := h
  refine ⟨rest,?_⟩
  rw [handleIncomingPush,acceptPush_frames hin hmax hlt,answerPush_refuses hne]

/-- Anything else is an error without an answer. -/
theorem handleIncomingPush_other (peer : PeerId) (tx : List IncomingPush)
    (h : ∀ hash data, ¬Offers maxPayloadLen input hash data) : ∃ e s,
    handleIncomingPush D peer maxPayloadLen tx ⟨input,[],none⟩ = (.error e,tx,s) ∧
      s.outgoing = [] := by
  obtain ⟨e,s,haccept,hout⟩ := acceptPush_other (D := D) (s := ⟨input,[],none⟩)
    fun hash data rest hin hlt => Nat.lt_of_not_le fun hmax => h hash data ⟨hlt,hmax,rest,hin⟩
  refine ⟨e,s,?_,hout⟩
  rw [handleIncomingPush,haccept]

lemma answerPush_incoming (D : Deps) (hash : Hash) (data : Bytes) (s : Stream) :
    (answerPush D hash data s).2.incoming = s.incoming := by
  by_cases heq : D.blake3 data = hash
  · rw [answerPush,if_neg (not_not.mpr heq)]
    have hwrite := (writes_writeAll [1]).incoming s
    rcases h : writeAll [1] s with ⟨e | ⟨⟩,t⟩
    · rw [h] at hwrite
      rw [bind_of_error h]
      exact hwrite
    · rw [h] at hwrite
      rw [bind_of_ok h]
      exact hwrite
  · exact (answerPush_mismatch heq).incoming s

/-- Nothing is read after the two frames. -/
theorem acceptPush_consumed (D : Deps) (maxPayloadLen : ℕ) (s : Stream) :
    ∃ read, s.incoming = read ++ (acceptPush D maxPayloadLen s).2.incoming ∧
      read.length ≤ (4+hashMaxLen)+(4+maxPayloadLen) := by
  obtain ⟨read,hin,hle⟩ := (reads_readPush maxPayloadLen).consumed s
  refine ⟨read,?_,hle⟩
  rw [acceptPush_eq]
  rcases h : readPush maxPayloadLen s with ⟨e | ⟨hash,data⟩,t⟩
  · rw [h] at hin
    rw [bind_of_error h]
    exact hin
  · rw [h] at hin
    rw [bind_of_ok h,answerPush_incoming]
    exact hin

lemma handleIncomingPush_stream (D : Deps) (peer : PeerId) (maxPayloadLen : ℕ)
    (tx : List IncomingPush) (s : Stream) :
    (handleIncomingPush D peer maxPayloadLen tx s).2.2 = (acceptPush D maxPayloadLen s).2 := by
  rw [handleIncomingPush]
  rcases acceptPush D maxPayloadLen s with ⟨e | ⟨hash,data⟩,t⟩ <;> rfl

/-- The buffers are at most one for the hash and one for the data, each within its limit. -/
lemma pushBuffers_within (D : Deps) (maxPayloadLen : ℕ) (s : Stream) :
    ∃ within, within <+: [hashMaxLen,maxPayloadLen] ∧
      List.Forall₂ (· ≤ ·) (pushBuffers D maxPayloadLen s) within := by
  obtain ⟨sizes,within,hrun,hle,hpre,-⟩ := meters_acceptPush D maxPayloadLen s []
  refine ⟨within,hpre,?_⟩
  rw [pushBuffers,hrun]
  exact hle

/-- The receiver accepts exactly its grammar. On bytes of any sender it hands over one push,
and acknowledges it, exactly if they begin with a hash and data within the limits and the
data has the hash; it refuses with the reason when only the hash is wrong; and it ends
without an answer on everything else. It reads no more than two frames within the limits,
into buffers within the limits. -/
theorem push_receiver_exact (D : Deps) (peer : PeerId) (maxPayloadLen : ℕ)
    (tx : List IncomingPush) (input : Bytes) : ∃ result emitted s,
    handleIncomingPush D peer maxPayloadLen tx ⟨input,[],none⟩ = (result,tx ++ emitted,s) ∧
    (∀ hash data, emitted = [⟨peer,hash,data⟩] ↔
      Offers maxPayloadLen input hash data ∧ D.blake3 data = hash) ∧
    (∀ hash data, Offers maxPayloadLen input hash data →
      (D.blake3 data = hash → result = .ok () ∧ s.outgoing = [1]) ∧
      (D.blake3 data ≠ hash → result = .error (.hashMismatch hash (D.blake3 data)) ∧
        emitted = [] ∧ s.outgoing = 0::frame (reasonFor (D.blake3 data)) ∧
          (reasonFor (D.blake3 data)).length ≤ reasonMaxLen)) ∧
    ((∀ hash data, ¬Offers maxPayloadLen input hash data) →
      (∃ e, result = .error e) ∧ emitted = [] ∧ s.outgoing = []) ∧
    (∃ read, input = read ++ s.incoming ∧ read.length ≤ (4+hashMaxLen)+(4+maxPayloadLen)) ∧
    ∃ within, within <+: [hashMaxLen,maxPayloadLen] ∧
      List.Forall₂ (· ≤ ·) (pushBuffers D maxPayloadLen ⟨input,[],none⟩) within := by
  have hread := acceptPush_consumed D maxPayloadLen ⟨input,[],none⟩
  have hbuffers := pushBuffers_within D maxPayloadLen ⟨input,[],none⟩
  rw [← handleIncomingPush_stream D peer maxPayloadLen tx] at hread
  by_cases hoffers : ∃ hash data, Offers maxPayloadLen input hash data
  · obtain ⟨hash,data,hoffer⟩ := hoffers
    by_cases heq : D.blake3 data = hash
    · obtain ⟨rest,hrun⟩ := handleIncomingPush_accepts peer tx hoffer heq
      rw [hrun] at hread
      refine ⟨_,_,_,hrun,fun hash' data' => ⟨fun h => ?_,?_⟩,fun hash' data' hoffer' => ?_,
        fun hnone => absurd hoffer (hnone hash data),hread,hbuffers⟩
      · cases h
        exact ⟨hoffer,heq⟩
      · rintro ⟨hoffer',-⟩
        obtain ⟨rfl,rfl⟩ := hoffer.unique hoffer'
        rfl
      · obtain ⟨rfl,rfl⟩ := hoffer.unique hoffer'
        exact ⟨fun _ => ⟨rfl,rfl⟩,fun hne => absurd heq hne⟩
    · obtain ⟨rest,hrun⟩ := handleIncomingPush_refuses peer tx hoffer heq
      rw [hrun] at hread
      refine ⟨_,[],_,by rw [List.append_nil]; exact hrun,fun hash' data' => ⟨fun h => ?_,?_⟩,
        fun hash' data' hoffer' => ?_,fun hnone => absurd hoffer (hnone hash data),hread,hbuffers⟩
      · cases h
      · rintro ⟨hoffer',heq'⟩
        obtain ⟨rfl,rfl⟩ := hoffer.unique hoffer'
        exact absurd heq' heq
      · obtain ⟨rfl,rfl⟩ := hoffer.unique hoffer'
        refine ⟨fun h => absurd h heq,fun _ => ⟨rfl,rfl,rfl,?_⟩⟩
        rw [length_reasonFor]
        decide
  · have hnone : ∀ hash data, ¬Offers maxPayloadLen input hash data := fun hash data h =>
      hoffers ⟨hash,data,h⟩
    obtain ⟨e,s,hrun,hout⟩ := handleIncomingPush_other (D := D) peer tx hnone
    rw [hrun] at hread
    refine ⟨_,[],s,by rw [List.append_nil]; exact hrun,fun hash data => ⟨fun h => ?_,?_⟩,
      fun hash data hoffer => absurd hoffer (hnone hash data),fun _ => ⟨⟨e,rfl⟩,rfl,hout⟩,hread,
      hbuffers⟩
    · cases h
    · exact fun h => absurd h.1 (hnone hash data)

end Accept

end Gozara.BlobTransfer
