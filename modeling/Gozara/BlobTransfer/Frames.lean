import Gozara.BlobTransfer

/-!
# Frames on the wire

A frame is the length of its bytes, big-endian in four bytes, and the bytes. A writer leaves
a frame or, after a cut, a first part of one; a reader that succeeds has read one frame, and
there is only one way to read it.
-/
namespace Gozara.BlobTransfer
open Fallible

section Length

theorem fromBeBytes_toBeBytes {n : ℕ} (h : n < 2^32) : fromBeBytes (toBeBytes n) = n := by
  simp only [fromBeBytes,toBeBytes,List.foldl_cons,List.foldl_nil,UInt8.toNat_ofNat']
  omega

theorem toBeBytes_fromBeBytes {bytes : Bytes} (h : bytes.length = 4) :
    toBeBytes (fromBeBytes bytes) = bytes ∧ fromBeBytes bytes < 2^32 := by
  obtain ⟨a,b,c,d,rfl⟩ := List.length_eq_four.mp h
  have ha := a.toNat_lt
  have hb := b.toNat_lt
  have hc := c.toNat_lt
  have hd := d.toNat_lt
  simp only [fromBeBytes,toBeBytes,List.foldl_cons,List.foldl_nil,List.cons.injEq,and_true,
    ← UInt8.toNat_inj,UInt8.toNat_ofNat']
  omega

@[simp] theorem length_toBeBytes (n : ℕ) : (toBeBytes n).length = 4 := rfl

end Length

/-- The bytes of a frame. -/
def frame (bytes : Bytes) : Bytes := toBeBytes bytes.length ++ bytes

theorem length_frame (bytes : Bytes) : (frame bytes).length = 4+bytes.length := by
  rw [frame,List.length_append,length_toBeBytes]

section Write

/-- An action that writes these bytes, or a first part of them and fails, whatever arrives. -/
structure Writes {α : Type} (x : Io α) (bytes : Bytes) : Prop where
  blind : ∀ s incoming, x { s with incoming := incoming } =
    ((x s).1,{ (x s).2 with incoming := incoming })
  outgoing : ∀ s, ∃ w, w <+: bytes ∧ (x s).2.outgoing = s.outgoing ++ w ∧
    ∀ a, (x s).1 = .ok a → w = bytes

variable {α β : Type} {x : Io α} {f : α → Io β} {bytes bytes' : Bytes} {s : Stream}

theorem Writes.incoming (h : Writes x bytes) (s : Stream) : (x s).2.incoming = s.incoming := by
  have hb := h.blind s s.incoming
  exact congrArg (fun r => r.2.incoming) hb

theorem writes_writeAll (bytes : Bytes) : Writes (writeAll bytes) bytes := by
  constructor
  · intro s incoming
    simp only [writeAll]
    cases s.room with
    | none => rfl
    | some n =>
      dsimp only
      split_ifs <;> rfl
  · intro s
    simp only [writeAll]
    cases s.room with
    | none => exact ⟨bytes,List.prefix_rfl,rfl,fun _ _ => rfl⟩
    | some n =>
      dsimp only
      split_ifs with h
      · exact ⟨bytes,List.prefix_rfl,rfl,fun _ _ => rfl⟩
      · exact ⟨bytes.take n,List.take_prefix n bytes,rfl,by simp⟩

/-- One byte is written or not. -/
lemma writeAll_singleton {b : UInt8} (h : (writeAll [b] s).2.outgoing ≠ s.outgoing) :
    (writeAll [b] s).1 = .ok () := by
  simp only [writeAll] at h ⊢
  cases hroom : s.room with
  | none => rfl
  | some n =>
    simp only [hroom] at h ⊢
    split_ifs at h ⊢ with hn
    · rfl
    · have hzero : n = 0 := by
        rw [List.length_singleton] at hn
        omega
      simp [hzero] at h

/-- An error may stand for anything that was to be written. -/
theorem writes_throw (e : TransferError) (bytes : Bytes) : Writes (throw e : Io α) bytes :=
  ⟨fun _ _ => rfl,fun _ => ⟨[],List.nil_prefix,(List.append_nil _).symm,fun _ h => by cases h⟩⟩

theorem Writes.bind (hx : Writes x bytes) (hf : ∀ a, Writes (f a) bytes') :
    Writes (x >>= f) (bytes ++ bytes') := by
  constructor
  · intro s incoming
    have hblind := hx.blind s incoming
    rcases h : x s with ⟨e | a,t⟩
    · rw [h] at hblind
      rw [bind_of_error h,bind_of_error hblind]
    · rw [h] at hblind
      rw [bind_of_ok h,bind_of_ok hblind]
      exact (hf a).blind t incoming
  · intro s
    obtain ⟨w,hw,hout,hok⟩ := hx.outgoing s
    rcases h : x s with ⟨e | a,t⟩
    · rw [h] at hout
      rw [bind_of_error h]
      exact ⟨w,hw.trans (List.prefix_append _ _),hout,fun _ h => by cases h⟩
    · obtain ⟨w',hw',hout',hok'⟩ := (hf a).outgoing t
      rw [h] at hout hok
      rw [bind_of_ok h]
      rw [hok a rfl] at hout
      refine ⟨bytes ++ w',?_,by rw [hout',hout,List.append_assoc],fun b h => by rw [hok' b h]⟩
      exact (List.prefix_append_right_inj _).mpr hw'

theorem writes_writeFrame (bytes : Bytes) : Writes (writeFrame bytes) (frame bytes) := by
  unfold writeFrame
  split_ifs
  · exact (writes_writeAll _).bind fun _ => writes_writeAll _
  · exact writes_throw _ _

/-- Without a cut a frame is written as a whole. -/
theorem writeFrame_whole (h : bytes.length < 2^32) (incoming outgoing : Bytes) :
    writeFrame bytes ⟨incoming,outgoing,none⟩ =
      (.ok (),⟨incoming,outgoing ++ frame bytes,none⟩) := by
  rw [writeFrame,if_pos h,frame,← List.append_assoc]
  rfl

theorem writeFrame_long (h : ¬bytes.length < 2^32) (s : Stream) :
    writeFrame bytes s = (.error .tryFromInt,s) := by
  rw [writeFrame,if_neg h]
  rfl

end Write

section Read
variable {s t : Stream} {bytes data : Bytes} {n maxLen : ℕ}

theorem readExact_eq_pair : readExact n s = (.ok bytes,t) ↔
    bytes.length = n ∧ ∃ rest, s.incoming = bytes ++ rest ∧ t = { s with incoming := rest } := by
  simp only [readExact]
  constructor
  · intro h
    split_ifs at h with hn
    · cases h
      exact ⟨List.length_take_of_le hn,_,(List.take_append_drop n _).symm,rfl⟩
    · cases h
  · rintro ⟨rfl,rest,hin,rfl⟩
    rw [if_pos (by rw [hin,List.length_append]; omega),hin,List.take_left,List.drop_left]

/-- A frame is read when all of it arrives and it is no longer than the limit. -/
theorem readFrame_eq_pair : readFrame maxLen s = (.ok data,t) ↔
    data.length ≤ maxLen ∧ data.length < 2^32 ∧
      ∃ rest, s.incoming = frame data ++ rest ∧ t = { s with incoming := rest } := by
  rw [readFrame,bind_eq_pair]
  constructor
  · rintro ⟨lenBuf,u,hlen,hrest⟩
    obtain ⟨hfour,rest,hin,rfl⟩ := readExact_eq_pair.mp hlen
    obtain ⟨hround,hlt⟩ := toBeBytes_fromBeBytes hfour
    dsimp only at hrest
    split_ifs at hrest with hlong
    · cases hrest
    · obtain ⟨hdata,rest',hin',rfl⟩ := readExact_eq_pair.mp hrest
      dsimp only at hin'
      refine ⟨by omega,by omega,rest',?_,rfl⟩
      rw [frame,hdata,hround,hin,hin',List.append_assoc]
  · rintro ⟨hmax,hlt,rest,hin,rfl⟩
    refine ⟨toBeBytes data.length,{ s with incoming := data ++ rest },?_,?_⟩
    · exact readExact_eq_pair.mpr ⟨rfl,_,by rw [hin,frame,List.append_assoc],rfl⟩
    · rw [fromBeBytes_toBeBytes hlt]
      dsimp only
      rw [if_neg (by omega)]
      exact readExact_eq_pair.mpr ⟨rfl,rest,rfl,rfl⟩

/-- Bytes start with at most one frame. -/
theorem frame_append_inj {data data' rest rest' : Bytes} (hlt : data.length < 2^32)
    (hlt' : data'.length < 2^32) (h : frame data ++ rest = frame data' ++ rest') :
    data = data' ∧ rest = rest' := by
  have hread : ∀ {d r : Bytes}, d.length < 2^32 → frame data ++ rest = frame d ++ r →
      readFrame (2^32) ⟨frame data ++ rest,[],none⟩ = (.ok d,⟨r,[],none⟩) := fun hd hr =>
    readFrame_eq_pair.mpr ⟨Nat.le_of_lt hd,hd,_,hr,rfl⟩
  have heq := (hread hlt rfl).symm.trans (hread hlt' h)
  cases heq
  exact ⟨rfl,rfl⟩

/-- What is read was there, and reading writes nothing. -/
structure Reads {α : Type} (x : Io α) (limit : ℕ) : Prop where
  quiet : ∀ s, (x s).2.outgoing = s.outgoing ∧ (x s).2.room = s.room
  consumed : ∀ s, ∃ read, s.incoming = read ++ (x s).2.incoming ∧ read.length ≤ limit

theorem reads_readExact (n : ℕ) : Reads (readExact n) n := by
  constructor
  · intro s
    simp only [readExact]
    split_ifs <;> exact ⟨rfl,rfl⟩
  · intro s
    simp only [readExact]
    split_ifs with h
    · exact ⟨s.incoming.take n,(List.take_append_drop n _).symm,List.length_take_le n _⟩
    · exact ⟨s.incoming,(List.append_nil _).symm,by omega⟩

/-- A read whose length the first read decides. -/
theorem Reads.bind {α β : Type} {x : Io α} {f : α → Io β} {m : ℕ} (hx : Reads x n)
    (hf : ∀ a, Reads (f a) m) : Reads (x >>= f) (n+m) := by
  constructor
  · intro s
    rcases h : x s with ⟨e | a,t⟩
    · have hq := hx.quiet s
      rw [h] at hq
      rw [bind_of_error h]
      exact hq
    · have hq := hx.quiet s
      rw [h] at hq
      rw [bind_of_ok h]
      exact ⟨((hf a).quiet t).1.trans hq.1,((hf a).quiet t).2.trans hq.2⟩
  · intro s
    obtain ⟨read,hin,hle⟩ := hx.consumed s
    rcases h : x s with ⟨e | a,t⟩
    · rw [h] at hin
      rw [bind_of_error h]
      exact ⟨read,hin,by omega⟩
    · obtain ⟨read',hin',hle'⟩ := (hf a).consumed t
      rw [h] at hin
      rw [bind_of_ok h]
      exact ⟨read ++ read',by rw [hin,List.append_assoc,← hin'],by
        rw [List.length_append]
        omega⟩

theorem reads_of_fixed {α : Type} {x : Io α} (h : ∀ s, (x s).2 = s) (limit : ℕ) : Reads x limit :=
  ⟨fun s => by simp [h],fun s => ⟨[],by simp [h],Nat.zero_le _⟩⟩

theorem Reads.mono {α : Type} {x : Io α} {m : ℕ} (h : Reads x n) (hle : n ≤ m) : Reads x m :=
  ⟨h.quiet,fun s => by
    obtain ⟨read,hin,hread⟩ := h.consumed s
    exact ⟨read,hin,hread.trans hle⟩⟩

/-- No more than the limit is read after the length. -/
theorem reads_readFrame (maxLen : ℕ) : Reads (readFrame maxLen) (4+maxLen) := by
  refine (reads_readExact 4).bind fun lenBuf => ?_
  dsimp only
  split_ifs with hlong
  · exact reads_of_fixed (fun _ => rfl) maxLen
  · exact (reads_readExact _).mono (Nat.le_of_not_lt hlong)

end Read

end Gozara.BlobTransfer
