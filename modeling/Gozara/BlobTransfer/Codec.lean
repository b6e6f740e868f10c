import Gozara.BlobTransfer.Frames
import Gozara.Library.Segments

/-!
# Frames over a transport that splits its bytes

Below the byte streams of a transfer, bytes arrive in segments that have nothing to do with
the frames that were written. `read_frame` over segments does what it does over the stream
that they make up. So frames written one after another are read one after another, with
nothing left over but what follows them, and what is read is what a writer would have
written.
-/
namespace Gozara.BlobTransfer
open Fallible

/-- Input from the segments that are still going to arrive. -/
abbrev Wire (α : Type) := ExceptT TransferError (StateM (List Bytes)) α

/-- `read_exact`, which reads until its buffer is full. -/
def readExactFrom (n : ℕ) : Wire Bytes := fun segs =>
  match Segments.takeExact n segs with
  | (some bytes,rest) => (.ok bytes,rest)
  | (none,rest) => (.error .unexpectedEof,rest)

/-- `read_frame` over segments. -/
def readFrameFrom (maxLen : ℕ) : Wire Bytes := do
  let lenBuf ← readExactFrom 4
  let len := fromBeBytes lenBuf
  if len > maxLen then throw (.frameTooLong len maxLen)
  readExactFrom len

/-- One `read_frame` after another, each with its own limit. -/
def readFrames : List ℕ → Wire (List Bytes)
  | [] => pure []
  | maxLen::limits => do
    let bytes ← readFrameFrom maxLen
    let others ← readFrames limits
    pure (bytes::others)

/-- One `write_frame` after another. -/
def writeFrames : List Bytes → Io Unit
  | [] => pure ()
  | bytes::others => do
    writeFrame bytes
    writeFrames others

section Agree
variable {α β : Type} {x : Wire α} {f : α → Wire β} {y : Io α} {g : α → Io β}

/-- An action over segments that does what one over their concatenation does. -/
def Agrees (x : Wire α) (y : Io α) : Prop :=
  ∀ (segs : List Bytes) (s : Stream), s.incoming = segs.flatten →
    y s = ((x segs).1,{ s with incoming := (x segs).2.flatten })

theorem agrees_readExact (n : ℕ) : Agrees (readExactFrom n) (readExact n) := by
  intro segs s hin
  obtain ⟨htake,hdrop⟩ := Segments.takeExact_flatten n segs
  simp only [readExactFrom,readExact,hin]
  rcases hsegs : Segments.takeExact n segs with ⟨bytes,rest⟩
  rw [hsegs] at htake hdrop
  simp only at htake hdrop
  split_ifs at htake hdrop ⊢ with hn <;> rw [htake,hdrop]

lemma agrees_throw (e : TransferError) : Agrees (throw e : Wire α) (throw e) := by
  intro segs s hin
  change (_,s) = (_,{ s with incoming := segs.flatten })
  rw [← hin]
  rfl

theorem Agrees.bind (hx : Agrees x y) (hf : ∀ a, Agrees (f a) (g a)) :
    Agrees (x >>= f) (y >>= g) := by
  intro segs s hin
  have hy := hx segs s hin
  rcases h : x segs with ⟨e | a,segs'⟩
  · rw [h] at hy
    rw [bind_of_error h,bind_of_error hy]
  · rw [h] at hy
    rw [bind_of_ok h,bind_of_ok hy]
    exact hf a segs' _ rfl

/-- A frame is read in the same way however its bytes arrive. -/
theorem agrees_readFrame (maxLen : ℕ) : Agrees (readFrameFrom maxLen) (readFrame maxLen) := by
  refine (agrees_readExact 4).bind fun lenBuf => ?_
  dsimp only
  split_ifs
  · exact agrees_throw _
  · exact agrees_readExact _

end Agree

section Codec
variable {maxLen : ℕ} {bytes rest : Bytes} {segs segs' : List Bytes}

/-- What is read was the frame at the front. -/
theorem frame_of_readFrameFrom (h : readFrameFrom maxLen segs = (.ok bytes,segs')) :
    bytes.length < 2^32 ∧ segs.flatten = frame bytes ++ segs'.flatten := by
  have hread := agrees_readFrame maxLen segs ⟨segs.flatten,[],none⟩ rfl
  rw [h] at hread
  obtain ⟨-,hlt,rest,hin,hrest⟩ := readFrame_eq_pair.mp hread
  cases hrest
  exact ⟨hlt,hin⟩

theorem readFrameFrom_frame (hmax : bytes.length ≤ maxLen) (hlt : bytes.length < 2^32)
    (hin : segs.flatten = frame bytes ++ rest) :
    ∃ segs', readFrameFrom maxLen segs = (.ok bytes,segs') ∧ segs'.flatten = rest := by
  have hread := agrees_readFrame maxLen segs ⟨segs.flatten,[],none⟩ rfl
  rw [readFrame_eq_pair.mpr ⟨hmax,hlt,rest,hin,rfl⟩] at hread
  obtain ⟨hres,hstream⟩ := Prod.mk.inj hread
  exact ⟨_,Prod.ext hres.symm rfl,(congrArg Stream.incoming hstream).symm⟩

/-- A length above the limit ends the reading after the length. -/
theorem readFrameFrom_long {header : Bytes} (hfour : header.length = 4)
    (hlong : maxLen < fromBeBytes header) (hin : segs.flatten = header ++ rest) :
    ∃ segs', readFrameFrom maxLen segs =
      (.error (.frameTooLong (fromBeBytes header) maxLen),segs') ∧ segs'.flatten = rest := by
  have hlen : readExact 4 ⟨segs.flatten,[],none⟩ = (.ok header,⟨rest,[],none⟩) :=
    readExact_eq_pair.mpr ⟨hfour,rest,hin,rfl⟩
  have hread := agrees_readFrame maxLen segs ⟨segs.flatten,[],none⟩ rfl
  rw [readFrame,bind_of_ok hlen] at hread
  dsimp only at hread
  rw [if_pos hlong] at hread
  obtain ⟨hres,hstream⟩ := Prod.mk.inj hread
  exact ⟨_,Prod.ext hres.symm rfl,(congrArg Stream.incoming hstream).symm⟩

/-- Without a cut frames are written one after another. -/
theorem writeFrames_whole : ∀ (items : List Bytes), (∀ b ∈ items, b.length < 2^32) →
    ∀ incoming outgoing, writeFrames items ⟨incoming,outgoing,none⟩ =
      (.ok (),⟨incoming,outgoing ++ (items.map frame).flatten,none⟩) := by
  intro items
  induction items with
  | nil =>
    intro _ incoming outgoing
    rw [List.map_nil,List.flatten_nil,List.append_nil]
    rfl
  | cons b items ih =>
    intro hlt incoming outgoing
    have hb := hlt b List.mem_cons_self
    rw [writeFrames,bind_of_ok (writeFrame_whole hb incoming outgoing),
      ih fun d hd => hlt d (List.mem_cons_of_mem _ hd)]
    rw [List.map_cons,List.flatten_cons,List.append_assoc]

/-- What follows the frames is left when they are read. -/
theorem readFrames_frames : ∀ (items : List (Bytes × ℕ)),
    (∀ e ∈ items, e.1.length < 2^32 ∧ e.1.length ≤ e.2) → ∀ (segs : List Bytes) (rest : Bytes),
      segs.flatten = (items.map fun e => frame e.1).flatten ++ rest →
        ∃ segs', readFrames (items.map Prod.snd) segs = (.ok (items.map Prod.fst),segs') ∧
          segs'.flatten = rest := by
  intro items
  induction items with
  | nil => exact fun _ segs rest hin => ⟨segs,rfl,hin⟩
  | cons e items ih =>
    intro hitems segs rest hin
    obtain ⟨hlt,hmax⟩ := hitems e List.mem_cons_self
    rw [List.map_cons,List.flatten_cons,List.append_assoc] at hin
    obtain ⟨segs₁,hread,hin₁⟩ := readFrameFrom_frame hmax hlt hin
    obtain ⟨segs₂,hothers,hin₂⟩ := ih (fun d hd => hitems d (List.mem_cons_of_mem _ hd)) segs₁ rest
      hin₁
    refine ⟨segs₂,?_,hin₂⟩
    rw [List.map_cons,readFrames,bind_of_ok hread,bind_of_ok hothers]
    rfl

/-- The frame codec loses nothing and delimits itself, however its bytes arrive: strings
written one after another are read back with what follows them left unread, and a string
that is read was taken off the stream as the bytes that are written for it. A string without
a length of 32 bits is not written at all, and a length above the limit is all that is read
of its frame. -/
theorem frame_codec :
    (∀ (maxLen : ℕ) (segs : List Bytes) (s : Stream), s.incoming = segs.flatten →
      readFrame maxLen s = ((readFrameFrom maxLen segs).1,
        { s with incoming := (readFrameFrom maxLen segs).2.flatten })) ∧
    (∀ items : List (Bytes × ℕ), (∀ e ∈ items, e.1.length < 2^32 ∧ e.1.length ≤ e.2) →
      ∃ wire, (∀ incoming outgoing, writeFrames (items.map Prod.fst) ⟨incoming,outgoing,none⟩ =
          (.ok (),⟨incoming,outgoing ++ wire,none⟩)) ∧
        ∀ (segs : List Bytes) (rest : Bytes), segs.flatten = wire ++ rest →
          ∃ segs', readFrames (items.map Prod.snd) segs = (.ok (items.map Prod.fst),segs') ∧
            segs'.flatten = rest) ∧
    (∀ (maxLen : ℕ) (segs segs' : List Bytes) (bytes : Bytes),
      readFrameFrom maxLen segs = (.ok bytes,segs') →
        ∃ wire, segs.flatten = wire ++ segs'.flatten ∧
          writeFrame bytes ⟨[],[],none⟩ = (.ok (),⟨[],wire,none⟩)) ∧
    (∀ (bytes : Bytes) (s : Stream), 2^32 ≤ bytes.length →
      writeFrame bytes s = (.error .tryFromInt,s)) ∧
    ∀ (maxLen : ℕ) (header rest : Bytes) (segs : List Bytes), header.length = 4 →
      maxLen < fromBeBytes header → segs.flatten = header ++ rest →
        ∃ segs', readFrameFrom maxLen segs =
          (.error (.frameTooLong (fromBeBytes header) maxLen),segs') ∧ segs'.flatten = rest := by
  refine ⟨agrees_readFrame,fun items hitems => ?_,fun maxLen segs segs' bytes h => ?_,
    fun bytes s hlong => writeFrame_long (Nat.not_lt.mpr hlong) s,
    fun maxLen header rest segs hfour hlong hin => readFrameFrom_long hfour hlong hin⟩
  · refine ⟨(items.map fun e => frame e.1).flatten,fun incoming outgoing => ?_,
      readFrames_frames items hitems⟩
    rw [writeFrames_whole,List.map_map]
    · rfl
    · intro b hb
      obtain ⟨e,he,rfl⟩ := List.mem_map.mp hb
      exact (hitems e he).1
  · obtain ⟨hlt,hin⟩ := frame_of_readFrameFrom h
    exact ⟨frame bytes,hin,writeFrame_whole hlt [] []⟩

/-- Two frames and a byte that follows them, in segments that cut through both lengths. -/
example : readFrames [2,0] [[0,0],[0,2,1],[2,0,0,0],[0,9]] = (.ok [[1,2],[]],[[9]]) := rfl

end Codec

end Gozara.BlobTransfer
