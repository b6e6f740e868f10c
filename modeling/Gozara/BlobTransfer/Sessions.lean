import Gozara.BlobTransfer.Pull
import Gozara.BlobTransfer.Receiver

/-!
# The two halves of an incoming pull

`handle_incoming_pull` is suspended between the request and the answer, while its message waits
for the consumer. A responder that never answers writes one byte at most, and no puller makes
data of it.
-/
namespace Gozara.BlobTransfer
open Fallible

/-- `handle_incoming_pull` up to the message for its consumer. -/
def askPull : Io Hash := do
  let hashBytes ← readFrame hashMaxLen
  match Hash.fromSlice hashBytes with
  | none => throw .hashConversion
  | some hash => pure hash

/-- `handle_incoming_pull` after `reply_rx.await`. -/
def answerPull : Option Bytes → Io Unit
  | some bytes => do
    writeAll [1]
    writeFrame bytes
  | none => writeAll [0]

/-- A consumer that lets each message go without a response. -/
def letGo (_ : IncomingPull) : Reply := .dropped

variable {D : Deps} {peer : PeerId} {hash : Hash} {s : Stream}

theorem handleIncomingPull_eq (peer : PeerId) (consumer : Option (IncomingPull → Reply)) :
    handleIncomingPull peer consumer =
      askPull >>= fun hash => answerPull (replyTo consumer ⟨peer,hash⟩).data := by
  rw [handleIncomingPull,askPull,bind_assoc]
  congr 1
  funext hashBytes
  cases Hash.fromSlice hashBytes <;> rfl

/-- A session that fails before its message was not answered by anybody. -/
lemma handleIncomingPull_failed {e : TransferError} {t : Stream} (h : askPull s = (.error e,t))
    (consumer : Option (IncomingPull → Reply)) :
    handleIncomingPull peer consumer s = (.error e,t) := by
  rw [handleIncomingPull_eq,bind_of_error h]

lemma handleIncomingPull_asked {t : Stream} (h : askPull s = (.ok hash,t))
    (consumer : Option (IncomingPull → Reply)) :
    handleIncomingPull peer consumer s = answerPull (replyTo consumer ⟨peer,hash⟩).data t := by
  rw [handleIncomingPull_eq,bind_of_ok h]

lemma reads_askPull : Reads askPull (4+hashMaxLen) := by
  refine ((reads_readFrame hashMaxLen).bind fun hashBytes =>
    reads_of_fixed (fun _ => ?_) 0).mono (Nat.le_refl _)
  cases Hash.fromSlice hashBytes <;> rfl

/-- Whatever the peer sends, the answer is the tag 0 or nothing. -/
theorem outgoing_letGo (peer : PeerId) (s : Stream) : ∃ answer, answer <+: [0] ∧
    (handleIncomingPull peer (some letGo) s).2.outgoing = s.outgoing ++ answer := by
  rcases h : askPull s with ⟨e | hash,t⟩
  · have hquiet := (reads_askPull.quiet s).1
    rw [h] at hquiet
    rw [handleIncomingPull_failed h]
    exact ⟨[],List.nil_prefix,by rw [hquiet,List.append_nil]⟩
  · have hquiet := (reads_askPull.quiet s).1
    rw [h] at hquiet
    rw [handleIncomingPull_asked h]
    obtain ⟨w,hw,hout,-⟩ := (writes_writeAll [0]).outgoing t
    exact ⟨w,hw,by rw [← hquiet]; exact hout⟩

/-- No data comes of an answer without data. -/
theorem pull_absent {incoming outgoing data : Bytes} {room : Option ℕ} {maxPayloadLen : ℕ}
    (h : incoming <+: [0]) :
    pull D (some ⟨incoming,outgoing,room⟩) hash maxPayloadLen ≠ .ok (some data) := by
  intro hpull
  rw [pull,pullOver_eq] at hpull
  obtain ⟨⟨⟩,t,hwrite,hfound⟩ := bind_eq_pair.mp (Prod.ext hpull rfl)
  have hin := (writes_writeFrame hash.bytes).incoming ⟨incoming,outgoing,room⟩
  rw [hwrite] at hin
  rw [readFound] at hfound
  obtain ⟨foundTag,u,htag,hrest⟩ := bind_eq_pair.mp hfound
  obtain ⟨hlen,rest,hbytes,-⟩ := readExact_eq_pair.mp htag
  have hzero : foundTag = [0] := by
    have hpre : foundTag <+: incoming := ⟨rest,hbytes.symm.trans hin⟩
    exact (hpre.trans h).eq_of_length hlen
  rw [if_pos hzero] at hrest
  cases hrest

/-- Told so, a puller knows that there is none. -/
theorem pull_told (D : Deps) (hash : Hash) (maxPayloadLen : ℕ) :
    pull D (some ⟨[0],[],none⟩) hash maxPayloadLen = .ok none := by
  have hask : writeFrame hash.bytes ⟨[0],[],none⟩ = (.ok (),⟨[0],frame hash.bytes,none⟩) :=
    writeFrame_whole hash.length_bytes_lt [0] []
  rw [pull,pullOver_eq,bind_of_ok hask]
  exact readFound_absent (s := ⟨[],frame hash.bytes,none⟩)

/-- Without a cut a push is acknowledged exactly if it is one of data with its hash. -/
theorem push_acknowledged_iff (D : Deps) (peer : PeerId) (maxPayloadLen : ℕ) (incoming : Bytes) :
    (handleIncomingPush D peer maxPayloadLen [] ⟨incoming,[],none⟩).2.2.outgoing = [1] ↔
      ∃ hash data, Offers maxPayloadLen incoming hash data ∧ D.blake3 data = hash := by
  by_cases hoffers : ∃ hash data, Offers maxPayloadLen incoming hash data
  · obtain ⟨hash,data,hoffer⟩ := hoffers
    by_cases heq : D.blake3 data = hash
    · obtain ⟨rest,hpush⟩ := handleIncomingPush_accepts peer [] hoffer heq
      rw [hpush]
      exact ⟨fun _ => ⟨hash,data,hoffer,heq⟩,fun _ => rfl⟩
    · obtain ⟨rest,hpush⟩ := handleIncomingPush_refuses peer [] hoffer heq
      rw [hpush]
      constructor
      · intro h
        cases h
      · rintro ⟨hash',data',hoffer',heq'⟩
        obtain ⟨rfl,rfl⟩ := hoffer.unique hoffer'
        exact absurd heq' heq
  · obtain ⟨e,s,hpush,hout⟩ := handleIncomingPush_other (D := D) peer []
      fun hash data h => hoffers ⟨hash,data,h⟩
    rw [hpush,hout]
    constructor
    · intro h
      cases h
    · rintro ⟨hash,data,hoffer,-⟩
      exact absurd ⟨hash,data,hoffer⟩ hoffers

end Gozara.BlobTransfer
