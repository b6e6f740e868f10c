import Gozara.Bridge.Replies
import Gozara.Node.Liveness

/-!
# Every request can be answered

While the two loops run, no handler is stuck: a message that finds no room in the admission
channel waits for the coordinator, which can always receive, and a chunk that waits to be
hashed waits for one of two hashing tasks, which end.
-/
namespace Gozara.Node
open Coordinator

/-- The events without a request, a disconnect or a frame of a body; peers are as in
`Helped`. -/
def Event.Inner (peer : PeerId) : Event → Prop
  | .act _ a => a.Inner
  | .orphanDone => True
  | e => e.Helped peer

/-- Those without time and without permits. -/
def Event.Free : Event → Prop
  | .act _ a => a.Inner
  | .orphanDone => True
  | e => e.Own

variable {D : Deps} {s s' : Node} {e : Event} {peer : PeerId}

lemma free_of_own (h : e.Own) : e.Free := by
  cases e with
  | act => cases h
  | orphanDone => trivial
  | _ => exact h

lemma hashPermits_run {es : List Event} (hrun : Transition.run (step D) init es = some s) :
    s.bridge.hashPermits = 2 := by
  obtain ⟨fs,hbridge⟩ := Transition.run_project (fun s : Node => s.bridge)
    (fun _ _ _ hstep => bridge_project hstep) hrun
  exact Bridge.hashPermits_run hbridge

/-- The coordinator and its peers end no hashing task. -/
lemma orphans_step (hstep : step D s e = some s') (he : e.Own ∨ ∃ ue, e = .engine ue) :
    s'.bridge.shared.orphans = s.bridge.shared.orphans := by
  cases does_of_step hstep with
  | bridge hb event =>
    rcases event with ⟨r,rfl,-⟩ | ⟨i,a,rfl,-⟩ | ⟨rfl,-⟩ <;> rcases he with he | ⟨ue,he⟩ <;> cases he
  | enqueue => rcases he with he | ⟨ue,he⟩ <;> cases he
  | update updating head hb =>
    obtain ⟨sh,henv,rfl⟩ := Pool.step_env_eq_some.mp hb
    cases henv
    rfl
  | stopUpdates => rfl
  | drive => rfl

lemma spends_orphans {es : List Event} {t : Node}
    (h : Transition.Spends (step D) Event.Own es s t) (hes : ∀ e ∈ es, ∃ ue, e = .engine ue) :
    t.bridge.shared.orphans = s.bridge.shared.orphans := by
  have hstep : ∀ u e v, step D u e = some v → (e.Own ∨ ∃ ue, e = .engine ue) →
      u.bridge.shared.orphans = s.bridge.shared.orphans →
        v.bridge.shared.orphans = s.bridge.shared.orphans :=
    fun _ _ _ hstep he hu => (orphans_step hstep he).trans hu
  obtain ⟨fs,hrun,hfs,-⟩ := h.exists_run
  exact Transition.Reaches.preserves
    (P := fun u => u.bridge.shared.orphans = s.bridge.shared.orphans) hstep
    ⟨fs,fun e he => (hfs e he).imp id (hes e),hrun⟩ rfl

/-- Every client of `start` that was there is still there. -/
def Stays (start s : Node) : Prop := ∀ (i : ℕ) t, start.bridge.threads[i]? = some t → ¬t.Lost →
  ∃ t', s.bridge.threads[i]? = some t' ∧ ¬t'.Lost

variable {start : Node}

lemma stays_refl (s : Node) : Stays s s := fun _ t ht hlost => ⟨t,ht,hlost⟩

lemma Stays.bridge (hkept : Stays start s) (h : Linked D s) {be : Bridge.Event}
    (hb : Bridge.step D s.bridge be = some s'.bridge) (hbe : ∀ i, be ≠ .act i .disconnect) :
    Stays start s' := by
  intro i t ht hlost
  obtain ⟨t',ht',hlost'⟩ := hkept i t ht hlost
  exact Bridge.not_lost_step h.holds hb hbe ht' hlost'

/-- When all handlers have ended, those whose clients are there have a reply. -/
lemma Stays.replied (hkept : Stays start s) (hended : ∀ t ∈ s.bridge.threads, t.Ended) {i : ℕ}
    {t : Handler} (ht : start.bridge.threads[i]? = some t) (hlost : ¬t.Lost) :
    ∃ t' r, s.bridge.threads[i]? = some t' ∧ t'.reply = some r := by
  obtain ⟨t',ht',hlost'⟩ := hkept i t ht hlost
  obtain ⟨r,hr⟩ := Handler.reply_of_ended (hended t' (List.mem_of_getElem? ht')) hlost'
  exact ⟨t',r,ht',hr⟩

lemma ended_of_work {b : Bridge} (h : b.work = 0) : ∀ t ∈ b.threads, t.Ended := by
  intro t ht
  have hzero : Pool.total Handler.work b = 0 := (Nat.add_eq_zero_iff.mp h).1
  exact Handler.ended_iff_work.mpr (List.sum_eq_zero_iff.mp hzero _ (List.mem_map_of_mem ht))

/-- When all handlers have ended, none of them holds permits. -/
lemma inHandlers_of_ended (h : ∀ t ∈ s.bridge.threads, t.Ended) : s.inHandlers = 0 :=
  List.sum_eq_zero (by simpa using fun t ht => Handler.permits_of_ended (h t ht))

lemma hashing_of_ended {es : List Event} (hrun : Transition.run (step D) init es = some s)
    (h : ∀ t ∈ s.bridge.threads, t.Ended) (horphans : s.bridge.shared.orphans = 0) :
    s.bridge.shared.hashing = 2 := by
  have hpermits := hashPermits_run hrun
  have hzero : Pool.total Handler.hashes s.bridge = 0 :=
    List.sum_eq_zero (by simpa using fun t ht => Handler.hashes_of_ended (h t ht))
  rw [Bridge.hashPermits,horphans,hzero] at hpermits
  exact hpermits

/-- While there is work for the bridge, it can get less, or a handler has a message to send. -/
lemma advance_bridge (hreached : ∃ es, Transition.run (step D) init es = some s)
    (hkept : Stays start s) (hwork : s.bridge.work ≠ 0) :
    (∃ e b, (e = .orphanDone ∨ ∃ i a, e = .act i a ∧ a.Inner) ∧
      step D s e = some { s with bridge := b } ∧ Stays start { s with bridge := b } ∧
        b.work < s.bridge.work) ∨
    ∃ (i : ℕ) (t : Handler) (msg : ToPipeline),
      s.bridge.threads[i]? = some t ∧ t.outbox = some msg := by
  obtain ⟨es,hrun⟩ := hreached
  have hlinked := linked_run hrun
  have honBridge : ∀ {be : Bridge.Event} {b : Bridge}, Bridge.step D s.bridge be = some b →
      s.onBridge D be = some { s with bridge := b } := by
    intro be b hb
    rw [onBridge,hb,Option.map_some]
  rcases Bridge.can_advance hlinked.holds (hashPermits_run hrun) hwork with
    ⟨b,hb,hless⟩ | ⟨i,a,b,hinner,hne,hb,hless⟩ | hout
  · exact Or.inl ⟨.orphanDone,b,Or.inl rfl,honBridge hb,hkept.bridge hlinked hb (by simp),hless⟩
  · have hstep : step D s (.act i a) = s.onBridge D (.act i a) := by
      cases a with
      | enqueue => exact absurd rfl hne
      | sendFailed => cases hinner
      | _ => rfl
    exact Or.inl ⟨.act i a,b,Or.inr ⟨i,a,rfl,hinner⟩,hstep.trans (honBridge hb),
      hkept.bridge hlinked hb (by rintro j ⟨⟩; cases hinner),hless⟩
  · exact Or.inr hout

/-- The loops run, at the time of `start`. -/
structure Answering (D : Deps) (start s : Node) : Prop where
  reached : ∃ es, Transition.run (step D) init es = some s
  updating : s.updating = true
  running : s.engine.coordinator.point ≠ .stopped
  clock : s.engine.clock = start.engine.clock
  kept : Stays start s

/-- While there is work for the bridge, it can get less. -/
theorem Answering.advance (h : Answering D start s) (hwork : s.bridge.work ≠ 0) :
    ∃ t, Transition.Reaches (step D) Event.Free s t ∧ Answering D start t ∧
      t.bridge.work < s.bridge.work := by
  rcases advance_bridge h.reached h.kept hwork with ⟨e,b,he,hstep,hkept,hless⟩ | ⟨i,t,msg,ht,hout⟩
  · have hfree : e.Free := by
      rcases he with rfl | ⟨i,a,rfl,ha⟩
      · trivial
      · exact ha
    exact ⟨_,.single hfree hstep,
      ⟨reached_step h.reached hstep,h.updating,h.running,h.clock,hkept⟩,hless⟩
  · -- The coordinator makes room, and the message goes through.
    obtain ⟨u,hreach,hu,hclock⟩ := reaches_quiet h.reached h.updating h.running
    obtain ⟨v,hreach',hv,hclock'⟩ := hu.receive
    have hspent : Transition.Spends (step D) Event.Own [] s v := hreach.trans hreach'
    have horphans := spends_orphans hspent (by simp)
    have htv : v.bridge.threads[i]? = some t := by rw [hv.threads]; exact ht
    obtain ⟨sh,t',hact,hless,hsame⟩ := BridgeState.act_sends (D := D) (i := i)
      (s := v.bridge.shared) hout (Or.inl rfl)
    have hb : Bridge.step D v.bridge (.act i .enqueue) =
        some ⟨sh,v.bridge.threads.set i t'⟩ :=
      Pool.step_act_eq_some.mpr ⟨t,sh,t',htv,hact,rfl⟩
    have hstep : step D v (.act i .enqueue) = some { v with
        bridge := ⟨sh,v.bridge.threads.set i t'⟩,admission := v.admission ++ [msg] } := by
      have hroom : v.engine.coordinator.point ≠ .stopped ∧
          v.admission.length < admissionCapacity :=
        ⟨hv.running,by rw [hv.admission]; decide⟩
      simp only [step,if_pos hroom,htv,Option.bind_some,hout,onBridge,hb,Option.map_some]
    have hkept : Stays start v := by
      intro j w hw hlost
      rw [hv.threads]
      exact h.kept j w hw hlost
    have hequal : v.bridge.work = s.bridge.work := by
      rw [Bridge.work,Bridge.work,Pool.total,Pool.total,hv.threads,horphans]
    have hfree := (hreach.trans hreach').mono fun _ he => free_of_own he
    exact ⟨_,hfree.trans (.single (e := .act i .enqueue) trivial hstep),
      ⟨reached_step hv.reached hstep,hv.updating,hv.running,hclock'.trans (hclock.trans h.clock),
        hkept.bridge hv.linked hb (by simp)⟩,hequal ▸ Bridge.work_act htv hless hsame⟩

end Gozara.Node
