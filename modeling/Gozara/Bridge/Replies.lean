import Gozara.Bridge.Admission

/-!
# Handlers on their way to a reply

A handler that is not waiting for another task can act, and what is left of its work gets
less. It may wait for one of the two permits of the hashing semaphore, which are available,
with a handler that hashes, or with a hashing task whose handler is gone.
-/
namespace Gozara

namespace Action

/-- What the bridge does without its clients. -/
def Inner : Action → Prop
  | acquire | idle | hashStart | hashDone | enqueue | commit | unwind => True
  | _ => False

end Action

namespace Handler

/-- The reply of a handler that has ended. -/
def reply : Handler → Option Response
  | posted _ _ reply | got _ reply => reply
  | _ => none

def Ended : Handler → Prop
  | posted _ _ _ | got _ _ => True
  | _ => False

/-- The client is gone, or the handler panicked. -/
def Lost : Handler → Prop
  | unwinding _ _ reply | posted _ _ reply | got _ reply => reply = none
  | _ => False

/-- The permits of the hashing semaphore that a handler has. -/
def hashes : Handler → ℕ
  | hashing _ _ _ started => if started then 1 else 0
  | _ => 0

end Handler

/-- The bytes of a frame that are left when a chunk is hashed. -/
def AfterHash.bytes : AfterHash → ℕ
  | frame data => data.length
  | merklize => 0

namespace Handler

/-- A bound on the actions that are left to a handler whose client falls silent. -/
def work : Handler → ℕ
  | acquiring _ => 3
  | streaming _ => 2
  | hashing _ _ next started => 3+2*next.bytes+if started then 0 else 1
  | sending _ _ => 2
  | sent _ _ | unwinding _ _ _ | getting _ => 1
  | posted _ _ _ | got _ _ => 0

variable {D : Deps} {t t' : Handler} {u : Upload} {body : Bytes}

lemma ended_iff_work : t.Ended ↔ t.work = 0 := by
  cases t <;> simp [Ended,work]

lemma not_ended_of_live {adm : Admission} (h : t.liveAdmission = some adm) : ¬t.Ended := by
  cases t with
  | posted id adm' reply => cases h
  | got id reply => cases h
  | _ => exact id

lemma permits_of_ended (h : t.Ended) : t.permits = 0 := by
  cases t <;> first | rfl | cases h

lemma hashes_of_ended (h : t.Ended) : t.hashes = 0 := by
  cases t <;> first | rfl | cases h

lemma reply_of_ended (h : t.Ended) (hlost : ¬t.Lost) : ∃ r, t.reply = some r := by
  cases t with
  | posted id adm reply => exact Option.ne_none_iff_exists'.mp hlost
  | got id reply => exact Option.ne_none_iff_exists'.mp hlost
  | _ => cases h

lemma Continues.unhashed (h : t.Continues u) : t.hashes = 0 ∧ ¬t.Lost := by
  rcases h.live with ⟨v,rfl⟩ | ⟨v,chunk,next,rfl⟩ | ⟨adm,blob,rfl⟩ <;> exact ⟨rfl,id⟩

/-- The rest of a frame is shorter when the next chunk is full. -/
lemma work_takeFrame (D : Deps) : ∀ (fuel : ℕ) (u : Upload) (data : Bytes),
    u.buf.length < D.chunkSize → (takeFrame D fuel u data).work ≤ 2+2*data.length
  | 0,u,data,_ => Nat.le_add_right _ _
  | fuel+1,u,data,hbuf => by
    rw [takeFrame]
    split_ifs with hdata
    · exact Nat.le_add_right _ _
    dsimp only
    have hpos : 0 < data.length := List.length_pos_iff.mpr hdata
    split_ifs with hfull
    · simp only [work,AfterHash.bytes,List.length_drop,Bool.false_eq_true,if_false]
      omega
    · have hlen : (u.buf ++ data.take (min (D.chunkSize-u.buf.length) data.length)).length <
          D.chunkSize := by
        refine lt_of_le_of_ne ?_ hfull
        rw [List.length_append,List.length_take]
        omega
      refine (work_takeFrame D fuel _ _ hlen).trans ?_
      rw [List.length_drop]
      omega

lemma work_merklize (h : merklize D u = .ok t) : t.work = 2 := by
  simp only [merklize] at h
  split at h
  · cases h
  · cases h
    rfl

lemma work_onHashed {chunk : Bytes} {next : AfterHash} (hbuf : u.buf = [])
    (h : onHashed D u chunk next = .ok t) : t.work ≤ 2+2*next.bytes := by
  cases next with
  | frame data =>
    cases h
    exact work_takeFrame D _ _ data (by simp [hbuf,D.chunkSize_pos])
  | merklize => exact (work_merklize h).le.trans (Nat.le_add_right _ _)

lemma buf_of_hashing {chunk : Bytes} {next : AfterHash} {started : Bool}
    (h : (hashing u chunk next started).Sound D body) : u.buf = [] := by
  cases next <;> exact h.2.2.1

end Handler

namespace BridgeState
open Handler
variable {D : Deps} {i : ℕ} {s s' : BridgeState} {t t' : Handler} {a : Action} {u : Upload}
  {body : Bytes}

/-- What a step within `new_blob` gives: the handler goes on, or leaves with a reply. -/
lemma proceed_cases {r : Except StatusCode Handler} (h : s.proceed u r = (s',t')) :
    (r = .ok t' ∧ s' = s) ∨ ∃ code, r = .error code ∧
      s' = { s with admissionBudget := s.admissionBudget+u.numChunks } ∧
        t' = .unwinding u.id u.admission (some (.reject code)) := by
  cases r with
  | ok v =>
    cases h
    exact Or.inl ⟨rfl,rfl⟩
  | error code =>
    cases h
    exact Or.inr ⟨code,rfl,rfl,rfl⟩

/-- A step that goes on takes no hashing permit and loses no client. -/
lemma proceed_unhashed {r : Except StatusCode Handler} (hr : ∀ h, r = .ok h → h.Continues u)
    (h : s.proceed u r = (s',t')) : s'.hashing = s.hashing ∧ s'.orphans = s.orphans ∧
      t'.hashes = 0 ∧ ¬t'.Lost := by
  rcases proceed_cases h with ⟨hok,rfl⟩ | ⟨code,-,rfl,rfl⟩
  · exact ⟨rfl,rfl,(hr _ hok).unhashed⟩
  · exact ⟨rfl,rfl,rfl,by simp [Lost]⟩

/-- An action moves a permit of the hashing semaphore or none; only a disconnect loses the
client. -/
theorem act_unhashed (hs : t.Sound D body) (h : act D i s t a = some (s',t')) :
    s'.hashing+t'.hashes+s'.orphans = s.hashing+t.hashes+s.orphans ∧
      (a ≠ .disconnect → t'.Lost → t.Lost) := by
  cases t with
  | acquiring u =>
    simp only [act] at h
    split_ifs at h with ha hle <;> cases h <;> simp [hashes,Lost]
  | streaming u =>
    cases a with
    | frame data =>
      obtain ⟨hhash,horph,hnone,hlost⟩ := proceed_unhashed
        (fun h hok => (onFrame_spec hs hok).2) (Option.some.inj h)
      rw [hhash,horph,hnone]
      exact ⟨rfl,fun _ hl => absurd hl hlost⟩
    | bodyEnd =>
      obtain ⟨hhash,horph,hnone,hlost⟩ := proceed_unhashed
        (fun h hok => (bodyEnd_spec hs hok).2) (Option.some.inj h)
      rw [hhash,horph,hnone]
      exact ⟨rfl,fun _ hl => absurd hl hlost⟩
    | frameError | idle | disconnect => cases h; simp [hashes,Lost]
    | _ => cases h
  | hashing u chunk next started =>
    cases a with
    | hashStart =>
      simp only [act,hash] at h
      split_ifs at h with hstart
      cases h
      obtain ⟨rfl,hpos⟩ := hstart
      refine ⟨?_,fun _ hl => hl.elim⟩
      simp only [hashes,if_true,Bool.false_eq_true,if_false]
      omega
    | hashDone =>
      simp only [act,hash] at h
      split_ifs at h with hstart
      obtain ⟨hhash,horph,hnone,hlost⟩ := proceed_unhashed
        (fun h hok => (onHashed_spec hs hok).2) (Option.some.inj h)
      rw [hhash,horph,hnone]
      exact ⟨by simp [hashes,hstart],fun _ hl => absurd hl hlost⟩
    | hashFail =>
      simp only [act,hash] at h
      split_ifs at h with hstart
      cases h
      simp [hashes,Lost,hstart]
    | disconnect =>
      cases h
      cases started <;> simp [hashes,Nat.add_comm s.orphans 1,Nat.add_assoc]
    | _ => cases h
  | sending adm blob =>
    cases a with
    | enqueue | sendFailed | disconnect => cases h; simp [hashes,Lost]
    | _ => cases h
  | sent adm id =>
    simp only [act] at h
    split_ifs at h with ha
    cases h
    simp [hashes,Lost]
  | unwinding id adm reply =>
    simp only [act] at h
    split_ifs at h with ha
    cases h
    simp [hashes,Lost]
  | getting id =>
    cases a with
    | enqueue | sendFailed | disconnect => cases h; simp [hashes,Lost,accepted]
    | _ => cases h
  | posted id adm reply => cases h
  | got id reply => cases h

/-- A handler that has a hashing permit ends its chunk. -/
theorem act_hashDone (hs : t.Sound D body) (ht : t.hashes ≠ 0) :
    ∃ s' t', act D i s t .hashDone = some (s',t') ∧ t'.work < t.work ∧ s'.orphans = s.orphans := by
  cases t with
  | hashing u chunk next started =>
    obtain rfl : started = true := by
      cases started
      · exact absurd rfl ht
      · rfl
    obtain ⟨s',t',h⟩ : ∃ s' t', proceed { s with hashing := s.hashing+1 } u
        (onHashed D u chunk next) = (s',t') := ⟨_,_,rfl⟩
    refine ⟨s',t',by simp only [act,hash,if_true,h],?_,(proceed_unhashed
      (fun h hok => (onHashed_spec hs hok).2) h).2.1⟩
    have hwork : (Handler.hashing u chunk next true).work = 3+2*next.bytes := rfl
    rw [hwork]
    rcases proceed_cases h with ⟨hok,-⟩ | ⟨code,-,-,rfl⟩
    · have hle := work_onHashed (buf_of_hashing hs) hok
      omega
    · simp only [work]
      omega
  | _ => exact absurd rfl ht

/-- With a hashing permit to take, a handler that sends nothing can act. -/
theorem act_advances (hs : t.Sound D body) (hlive : ¬t.Ended) (hout : t.outbox = none)
    (hfree : 0 < s.hashing) : ∃ a s' t', a.Inner ∧ a ≠ .enqueue ∧
      act D i s t a = some (s',t') ∧ t'.work < t.work ∧ s'.orphans = s.orphans := by
  cases t with
  | acquiring u =>
    by_cases hle : u.numChunks ≤ s.admissionBudget
    · exact ⟨.acquire,{ s with admissionBudget := s.admissionBudget-u.numChunks },.streaming u,
        trivial,by simp,by simp only [act,if_true,if_pos hle],by simp [work],rfl⟩
    · exact ⟨.acquire,s,.unwinding u.id u.admission (some (.reject .serviceUnavailable)),trivial,
        by simp,by simp only [act,if_true,if_neg hle],by simp [work],rfl⟩
  | streaming u => exact ⟨.idle,_,_,trivial,by simp,rfl,by simp [work],rfl⟩
  | hashing u chunk next started =>
    cases started with
    | false =>
      exact ⟨.hashStart,_,_,trivial,by simp,if_pos ⟨rfl,hfree⟩,by simp [work],rfl⟩
    | true =>
      obtain ⟨s',t',hact,hless,horph⟩ := act_hashDone (i := i) (s := s) hs (by simp [hashes])
      exact ⟨.hashDone,s',t',trivial,by simp,hact,hless,horph⟩
  | sent adm id => exact ⟨.commit,_,_,trivial,by simp,rfl,by simp [work],rfl⟩
  | unwinding id adm reply => exact ⟨.unwind,_,_,trivial,by simp,rfl,by simp [work],rfl⟩
  | sending adm blob => cases hout
  | getting id => cases hout
  | posted id adm reply => exact absurd trivial hlive
  | got id reply => exact absurd trivial hlive

/-- The end of a send, whatever its result, leaves less work. -/
lemma act_sends {msg : ToPipeline} (hout : t.outbox = some msg)
    (ha : a = .enqueue ∨ a = .sendFailed) :
    ∃ s' t', act D i s t a = some (s',t') ∧ t'.work < t.work ∧ s'.orphans = s.orphans := by
  cases t with
  | sending adm blob => rcases ha with rfl | rfl <;> exact ⟨_,_,rfl,by simp [work],rfl⟩
  | getting id => rcases ha with rfl | rfl <;> exact ⟨_,_,rfl,by simp [work,accepted],rfl⟩
  | _ => cases hout

end BridgeState

namespace Bridge
open BridgeState
variable {D : Deps} {s s' : Bridge} {e : Event} {i : ℕ}

/-- What is left to do for the bridge. -/
def work (s : Bridge) : ℕ := Pool.total Handler.work s+s.shared.orphans

/-- The permits of the hashing semaphore: available, with a handler, or with a task whose
handler is gone. -/
def hashPermits (s : Bridge) : ℕ := s.shared.hashing+Pool.total Handler.hashes s+s.shared.orphans

lemma total_set (m : Handler → ℕ) (sh : BridgeState) {t : Handler} (ht : s.threads[i]? = some t)
    (t' : Handler) : Pool.total m ⟨sh,s.threads.set i t'⟩+m t = Pool.total m s+m t' :=
  Pool.sum_map_set m ht t'

/-- No event makes or loses a permit of the hashing semaphore. -/
theorem hashPermits_step (h : Pool.Holds (Sane D) (Guarded D) s) (hstep : step D s e = some s') :
    s'.hashPermits = s.hashPermits := by
  cases e with
  | spawn b =>
    cases hstep
    have hnew : ((program D).spawn s.threads.length s.shared b).1.hashing = s.shared.hashing ∧
        ((program D).spawn s.threads.length s.shared b).1.orphans = s.shared.orphans ∧
          ((program D).spawn s.threads.length s.shared b).2.hashes = 0 := by
      cases b with
      | post id contentLength =>
        simp only [program,request]
        split <;> exact ⟨rfl,rfl,rfl⟩
      | get id =>
        rcases getBlob_spec D s.threads.length s.shared.statusMap id with
          ⟨id',reply,heq,-⟩ | ⟨k,m',-,heq,-⟩ <;>
          exact ⟨rfl,rfl,by simp only [program,request,heq]; rfl⟩
    simp [hashPermits,Pool.total,hnew]
  | act i a =>
    obtain ⟨t,sh,t',ht,hact,rfl⟩ := Pool.step_act_eq_some.mp hstep
    obtain ⟨body,hsound⟩ := (h.thread i t ht).sound
    have hmoved := (act_unhashed hsound hact).1
    have hsum := total_set Handler.hashes sh ht t'
    simp only [hashPermits] at *
    omega
  | env g =>
    obtain ⟨sh,henv,rfl⟩ := Pool.step_env_eq_some.mp hstep
    cases g with
    | orphanDone =>
      simp only [program,outside] at henv
      split_ifs at henv
      cases henv
      simp only [hashPermits,Pool.total]
      omega
    | update msg => cases henv; rfl
    | release permits => cases henv; rfl

theorem hashPermits_run {es : List Event} (hrun : Transition.run (step D) init es = some s) :
    s.hashPermits = 2 := by
  have hkept : Pool.Holds (Sane D) (Guarded D) s ∧ s.hashPermits = 2 := by
    refine Transition.run_preserves (P := fun s : Bridge => Pool.Holds (Sane D) (Guarded D) s ∧
      s.hashPermits = 2) (fun s e t hstep h => ?_) hrun ⟨holds_init D,rfl⟩
    exact ⟨(preserved D).step hstep (by cases e <;> simp [Pool.Undisturbed]) h.1,
      (hashPermits_step h.1 hstep).trans h.2⟩
  exact hkept.2

/-- A handler keeps its client through every event but a disconnect. -/
theorem not_lost_step (h : Pool.Holds (Sane D) (Guarded D) s) (hstep : step D s e = some s')
    (he : ∀ i, e ≠ .act i .disconnect) {j : ℕ} {t : Handler} (ht : s.threads[j]? = some t)
    (hlost : ¬t.Lost) : ∃ t', s'.threads[j]? = some t' ∧ ¬t'.Lost := by
  cases e with
  | spawn b =>
    cases hstep
    exact ⟨t,by rw [List.getElem?_append_left (List.getElem?_eq_some_iff.mp ht).1]; exact ht,hlost⟩
  | act i a =>
    obtain ⟨u,sh,u',hu,hact,rfl⟩ := Pool.step_act_eq_some.mp hstep
    by_cases hij : i = j
    · subst hij
      cases hu.symm.trans ht
      obtain ⟨body,hsound⟩ := (h.thread i t ht).sound
      refine ⟨u',List.getElem?_set_self (List.getElem?_eq_some_iff.mp ht).1,fun hl => hlost ?_⟩
      exact (act_unhashed hsound hact).2 (fun ha => he i (by rw [ha])) hl
    · exact ⟨t,by rw [List.getElem?_set_ne hij]; exact ht,hlost⟩
  | env g =>
    obtain ⟨sh,-,rfl⟩ := Pool.step_env_eq_some.mp hstep
    exact ⟨t,ht,hlost⟩

/-- An action that lessens the work of its handler lessens that of the bridge. -/
lemma work_act {t t' : Handler} {sh : BridgeState} (ht : s.threads[i]? = some t)
    (hless : t'.work < t.work) (horph : sh.orphans = s.shared.orphans) :
    work ⟨sh,s.threads.set i t'⟩ < s.work := by
  have hsum := total_set Handler.work sh ht t'
  simp only [work] at *
  omega

/-- While there is work, a hashing task ends, a handler acts, or a handler has a message to
send. -/
theorem can_advance (h : Pool.Holds (Sane D) (Guarded D) s) (hpermits : s.hashPermits = 2)
    (hwork : s.work ≠ 0) :
    (∃ s', step D s (.env .orphanDone) = some s' ∧ s'.work < s.work) ∨
    (∃ i a s', a.Inner ∧ a ≠ .enqueue ∧ step D s (.act i a) = some s' ∧ s'.work < s.work) ∨
    ∃ (i : ℕ) (t : Handler) (msg : ToPipeline), s.threads[i]? = some t ∧ t.outbox = some msg := by
  by_cases horph : s.shared.orphans = 0
  · right
    have hstep : ∀ {i : ℕ} {t : Handler} {a : Action} {sh : BridgeState} {t' : Handler},
        s.threads[i]? = some t → BridgeState.act D i s.shared t a = some (sh,t') →
          step D s (.act i a) = some ⟨sh,s.threads.set i t'⟩ := fun ht hact =>
      Pool.step_act_eq_some.mpr ⟨_,_,_,ht,hact,rfl⟩
    by_cases hhash : Pool.total Handler.hashes s = 0
    · -- Both permits are available, and every handler can act.
      have hfree : 0 < s.shared.hashing := by
        simp only [hashPermits,horph,hhash] at hpermits
        omega
      obtain ⟨t,ht,hlive⟩ : ∃ t ∈ s.threads, t.work ≠ 0 := by
        by_contra hnone
        push Not at hnone
        refine hwork ?_
        rw [work,horph,Pool.total,List.sum_eq_zero]
        simpa using hnone
      obtain ⟨i,hi⟩ := List.mem_iff_getElem?.mp ht
      obtain ⟨body,hsound⟩ := (h.thread i t hi).sound
      cases hout : t.outbox with
      | none =>
        obtain ⟨a,sh,t',hinner,hne,hact,hless,hsame⟩ := act_advances (i := i) (s := s.shared) hsound
          (fun hend => hlive (Handler.ended_iff_work.mp hend)) hout hfree
        exact Or.inl ⟨i,a,_,hinner,hne,hstep hi hact,work_act hi hless hsame⟩
      | some msg => exact Or.inr ⟨i,t,msg,hi,hout⟩
    · -- A handler that hashes ends its chunk.
      obtain ⟨t,ht,hhashes⟩ : ∃ t ∈ s.threads, t.hashes ≠ 0 := by
        by_contra hnone
        push Not at hnone
        exact hhash (List.sum_eq_zero (by simpa using hnone))
      obtain ⟨i,hi⟩ := List.mem_iff_getElem?.mp ht
      obtain ⟨body,hsound⟩ := (h.thread i t hi).sound
      obtain ⟨sh,t',hact,hless,hsame⟩ := act_hashDone (i := i) (s := s.shared) hsound hhashes
      exact Or.inl ⟨i,.hashDone,_,trivial,by simp,hstep hi hact,work_act hi hless hsame⟩
  · left
    have hpos : 0 < s.shared.orphans := Nat.pos_of_ne_zero horph
    refine ⟨_,Pool.step_env_eq_some.mpr ⟨_,if_pos hpos,rfl⟩,?_⟩
    simp only [work,Pool.total]
    omega

end Bridge

end Gozara
