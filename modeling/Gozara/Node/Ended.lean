import Gozara.Node.Registry
import Gozara.Node.Replies

/-!
# After the coordinator has ended

The loop of the coordinator does not start again. What it held or had not received is lost:
the permits come back, but the ids stay taken and pending. The handlers that are left can
still end, each with a reply.
-/
namespace Gozara.Node
open BridgeState

variable {D : Deps} {s s' start : Node} {e : Event} {es fs : List Event} {k : String} {i : ℕ}

/-- What has changed since the loop had ended at `start`. -/
structure Ended (D : Deps) (start s : Node) : Prop where
  counted : Counted D s
  stopped : s.engine.coordinator.point = .stopped
  log : s.bridge.shared.enqueued = start.bridge.shared.enqueued
  updates : s.updates ⊆ start.updates
  reports : ∀ k, s.Finalized k → start.Finalized k ∨ .updateStatus k .finalized ∈ start.updates

lemma finalized_of_update {msg : ToBridge} {rest : List ToBridge} {b : Bridge}
    (h : Linked D s) (hmsg : msg ∈ s.updates)
    (hb : Bridge.step D s.bridge (.env (.update msg)) = some b)
    (hk : Finalized { s with bridge := b,updates := rest } k) :
    s.Finalized k ∨ .updateStatus k .finalized ∈ s.updates := by
  obtain ⟨l,-,rfl⟩ := h.updates msg hmsg
  obtain ⟨sh,henv,rfl⟩ := Pool.step_env_eq_some.mp hb
  cases henv
  obtain ⟨entry,he,hfin⟩ := hk
  rw [StatusMap.lookup_update] at he
  obtain ⟨e₀,he₀,rfl⟩ := Option.map_eq_some_iff.mp he
  split_ifs at hfin with hkl
  · exact Or.inr (hkl ▸ hmsg)
  · exact Or.inl ⟨e₀,he₀,hfin⟩

theorem Ended.step (h : Ended D start s) (hstep : Node.step D s e = some s') :
    Ended D start s' := by
  have hcounted := h.counted.step hstep
  have hlinked := h.counted.linked
  have hkeep : ∀ k, s.Finalized k → s'.Finalized k := fun k => hlinked.finalized_step hstep
  have hdoes := does_of_step hstep
  cases hdoes with
  | bridge hb event unsent =>
    refine ⟨hcounted,h.stopped,(Bridge.enqueued_quiet hlinked.holds hb unsent).trans h.log,
      h.updates,fun k hk => h.reports k ?_⟩
    exact (hlinked.finalized_quiet hb (ne_update event) k (hkeep k) rfl).mp hk
  | enqueue running => exact absurd h.stopped running
  | @update msg rest b updating head hb =>
    have hsub : msg::rest ⊆ start.updates := head ▸ h.updates
    refine ⟨hcounted,h.stopped,(Bridge.enqueued_quiet hlinked.holds hb (by simp)).trans h.log,
      fun m hm => hsub (List.mem_cons_of_mem _ hm),fun k hk => ?_⟩
    rcases finalized_of_update hlinked (by rw [head]; exact List.mem_cons_self) hb hk with hold | hnew
    · exact h.reports k hold
    · exact Or.inr (h.updates hnew)
  | stopUpdates => exact ⟨hcounted,h.stopped,h.log,by simp,h.reports⟩
  | @drive e ue u dropped admission updates event steps source target =>
    have hstopped : u.coordinator.point = .stopped := by
      by_contra hrun
      exact steps.running hrun h.stopped
    have hupdates : updates = s.updates := by
      rcases target with ⟨-,msg,hmsg,-⟩ | ⟨-,heq⟩
      · rw [h.stopped] at hmsg
        cases hmsg
      · exact heq
    exact ⟨hcounted,hstopped,h.log,hupdates ▸ h.updates,h.reports⟩

theorem ended_run (hrun : Transition.run (step D) init es = some s)
    (hend : s.engine.coordinator.point = .stopped)
    (hrun' : Transition.run (step D) s fs = some s') : Ended D s s' :=
  Transition.run_preserves (fun _ _ _ hstep h => Ended.step h hstep) hrun'
    ⟨counted_run hrun,hend,rfl,fun _ hm => hm,fun _ hk => Or.inl hk⟩

/-- What is sent now was sent when the loop had ended. -/
lemma Ended.sent_before (h : Ended D start s) (hstart : Linked D start) {t : Handler}
    (ht : s.bridge.threads[i]? = some t) (hsent : t.Sent) :
    ∃ u, start.bridge.threads[i]? = some u ∧ u.Sent := by
  obtain ⟨blob,hblob⟩ := (h.counted.linked.holds.thread i t ht).sent hsent
  rw [h.log] at hblob
  obtain ⟨u,-,-,hu,husent,-⟩ := hstart.newBlob hblob
  exact ⟨u,hu,husent⟩

/-- The coordinator has dropped its permits. -/
lemma Ended.permits (h : Ended D start s) (hrun : Transition.run (Node.step D) init es = some s) :
    s.inHandlers+s.budget = totalChunkBudget := by
  have hsum := conserved_run hrun
  have hqueue : s.inQueue = 0 := by rw [inQueue,h.counted.linked.closed h.stopped]; rfl
  have hblobs : s.inBlobs = 0 := by
    obtain ⟨hcur,hwait⟩ := h.counted.linked.stored.orderly.ended h.stopped
    simp [inBlobs,Coordinator.heldPermits,Coordinator.held,hcur,hwait]
  omega

/-- A blob that was sent and not reported is an id that is taken and pending. -/
lemma Counted.pending_of_sent (h : Counted D s) {a : AdmittedBlob} (ha : a ∈ s.sent)
    (hcan : D.magicTypeId a.id = some a.id) (hfin : ¬s.Finalized a.id) :
    ∃ i, s.bridge.phaseOf a.id = .accepted i := by
  obtain ⟨⟨i,msg⟩,hlog,hblob⟩ := List.mem_filterMap.mp ha
  cases msg with
  | getBlob id => cases hblob
  | newBlob b =>
    obtain rfl := Option.some.inj hblob
    obtain ⟨t,-,ht,hsent,-,-,hins⟩ := h.linked.inserterOf_blob hlog hcan
    obtain ⟨entry,he,rfl⟩ := inserterOf_eq_some.mp hins
    refine ⟨entry.inserter,?_⟩
    rw [Bridge.phaseOf_thread he (fun hmem => hfin ⟨entry,he,hmem⟩) ht,Handler.phase_of_sent hsent]

/-- The coordinator ends for good. In every continuation of a run in which its loop has ended:
no further blob is sent, and no upload comes through that had not; only reports that were on
their way still arrive; all permits are with handlers or available; and a blob that was sent
but neither reported nor on its way to be is lost: its id answers pending for ever, and an
upload under any of its spellings is refused, when its length passes the checks that come
first. -/
theorem ended_for_good (hrun : Transition.run (step D) init es = some s)
    (hend : s.engine.coordinator.point = .stopped)
    (hrun' : Transition.run (step D) s fs = some s') :
    s'.engine.coordinator.point = .stopped ∧
    (∀ (i : ℕ) t', s'.bridge.threads[i]? = some t' → t'.Sent →
      ∃ t, s.bridge.threads[i]? = some t ∧ t.Sent) ∧
    (∀ k, s'.Finalized k → s.Finalized k ∨ .updateStatus k .finalized ∈ s.updates) ∧
    s'.inHandlers+s'.budget = totalChunkBudget ∧
    ∀ a ∈ s.sent, D.magicTypeId a.id = some a.id → ¬s.Finalized a.id →
      .updateStatus a.id .finalized ∉ s.updates →
      s'.bridge.shared.statusMap.getStatus a.id = some ⟨.ok,none,.json .pending⟩ ∧
      ∀ id, D.magicTypeId id = some a.id → ∀ i,
        Admission.new D i s'.bridge.shared.statusMap id = .error .conflict ∧
        ∀ len, LengthOk D len →
          newBlob D i s'.bridge.shared.statusMap id len = .error .conflict := by
  have h := ended_run hrun hend hrun'
  have hrunAll := Transition.run_append_eq_some.mpr ⟨s,hrun,hrun'⟩
  refine ⟨h.stopped,fun i t' ht' => h.sent_before (linked_run hrun) ht',h.reports,
    h.permits hrunAll,fun a ha hcan hfin hway => ?_⟩
  have ha' : a ∈ s'.sent := by rwa [sent,h.log]
  have hfin' : ¬s'.Finalized a.id := fun hk => (h.reports _ hk).elim hfin hway
  obtain ⟨i,hphase⟩ := h.counted.pending_of_sent ha' hcan hfin'
  refine ⟨?_,fun id hid => refused_of_ne_free h.counted.linked hid (by rw [hphase]; simp)⟩
  rw [h.counted.getStatus_eq,hphase]
  rfl

/-- A blob waits in the admission channel, and another upload is streaming, when the loop ends. -/
def cutOff : List Event :=
  (uploadByte 0 blobId 7).dropLast ++
    [.request (.post fileId (some [49])),.act 1 .acquire,.engine (.input .stop)]

theorem ended_for_good_cutOff : ∃ s s', Transition.run (step (Deps.sample 1 Nat.one_pos)) init
      cutOff = some s ∧ Transition.run (step (Deps.sample 1 Nat.one_pos)) s
        [.act 1 (.frame [8]),.act 1 .hashStart,.act 1 .hashDone,.act 1 .bodyEnd,.act 1 .sendFailed,
          .act 1 .unwind] = some s' ∧
      s'.inHandlers+s'.budget = totalChunkBudget ∧
      s'.bridge.shared.statusMap.getStatus blobId = some ⟨.ok,none,.json .pending⟩ ∧
      newBlob (Deps.sample 1 Nat.one_pos) 2 s'.bridge.shared.statusMap blobId (some [49]) =
        .error .conflict := by
  have hlast : (Transition.run (step (Deps.sample 1 Nat.one_pos)) init cutOff).map (fun s =>
      (s.engine.coordinator.point,s.sent.map AdmittedBlob.id,s.updates,
        s.bridge.shared.statusMap.lookup blobId)) =
      some (.stopped,[blobId],[],some ⟨0,[.pending]⟩) := by decide
  obtain ⟨s,hrun,hparts⟩ := Option.map_eq_some_iff.mp hlast
  simp only [Prod.mk.injEq] at hparts
  obtain ⟨hend,hids,hupdates,hentry⟩ := hparts
  have hsome : (Transition.run (step (Deps.sample 1 Nat.one_pos)) init (cutOff ++
      [.act 1 (.frame [8]),.act 1 .hashStart,.act 1 .hashDone,.act 1 .bodyEnd,.act 1 .sendFailed,
        .act 1 .unwind])).isSome := by decide
  obtain ⟨t,ht,hrun'⟩ := Transition.run_append_eq_some.mp (Option.some_get hsome).symm
  cases hrun.symm.trans ht
  obtain ⟨-,-,-,hbudget,hlost⟩ := ended_for_good hrun hend hrun'
  obtain ⟨a,l,hsent,ha,-⟩ := List.map_eq_cons_iff.mp hids
  have hfin : ¬s.Finalized a.id := by
    rintro ⟨entry,he,hmem⟩
    rw [ha] at he
    cases hentry.symm.trans he
    simp at hmem
  have hpending := hlost a (by rw [hsent]; exact List.mem_cons_self) (by rw [ha]; rfl) hfin
    (by rw [hupdates]; simp)
  rw [ha] at hpending
  exact ⟨s,_,hrun,hrun',hbudget,hpending.1,(hpending.2 blobId rfl 2).2 _ lengthOk_one⟩

/-- The events that handlers need when the loop has ended. -/
def Event.Winds : Event → Prop
  | .act _ a => a.Inner ∨ a = .sendFailed
  | .orphanDone => True
  | _ => False

lemma length_step (hstep : step D s e = some s') (he : e.Winds) :
    s'.bridge.threads.length = s.bridge.threads.length := by
  have hact : ∀ {i : ℕ} {a : Action} {b : Bridge}, Bridge.step D s.bridge (.act i a) = some b →
      b.threads.length = s.bridge.threads.length := by
    intro i a b hb
    obtain ⟨t,sh,t',-,-,rfl⟩ := Pool.step_act_eq_some.mp hb
    simp
  have hdoes := does_of_step hstep
  cases hdoes with
  | bridge hb event =>
    rcases event with ⟨r,rfl,-⟩ | ⟨i,a,-,rfl⟩ | ⟨-,rfl⟩
    · cases he
    · exact hact hb
    · obtain ⟨sh,-,rfl⟩ := Pool.step_env_eq_some.mp hb
      rfl
  | enqueue _ _ _ _ hb => exact hact hb
  | update => cases he
  | stopUpdates => cases he
  | drive => rfl

/-- The loop has ended, and the clients of `start` stay. -/
structure Winding (D : Deps) (start s : Node) : Prop where
  reached : ∃ es, Transition.run (step D) init es = some s
  stopped : s.engine.coordinator.point = .stopped
  stays : Stays start s

/-- A send that fails is work done as well. -/
theorem Winding.advance (h : Winding D start s) (hwork : s.bridge.work ≠ 0) :
    ∃ t, Transition.Reaches (step D) Event.Winds s t ∧ Winding D start t ∧
      t.bridge.work < s.bridge.work := by
  obtain ⟨es,hrun⟩ := h.reached
  rcases advance_bridge h.reached h.stays hwork with ⟨e,b,he,hstep,hstays,hless⟩ | ⟨i,t,msg,ht,hout⟩
  · have hwinds : e.Winds := by
      rcases he with rfl | ⟨i,a,rfl,ha⟩
      · trivial
      · exact Or.inl ha
    exact ⟨_,.single hwinds hstep,⟨reached_step h.reached hstep,h.stopped,hstays⟩,hless⟩
  · obtain ⟨sh,t',hact,hless,hsame⟩ := BridgeState.act_sends (D := D) (i := i)
      (s := s.bridge.shared) hout (Or.inr rfl)
    have hb : Bridge.step D s.bridge (.act i .sendFailed) =
        some ⟨sh,s.bridge.threads.set i t'⟩ :=
      Pool.step_act_eq_some.mpr ⟨t,sh,t',ht,hact,rfl⟩
    have hstep : step D s (.act i .sendFailed) =
        some { s with bridge := ⟨sh,s.bridge.threads.set i t'⟩ } := by
      simp only [step,if_pos h.stopped,onBridge,hb,Option.map_some]
    exact ⟨_,.single (e := .act i .sendFailed) (Or.inr rfl) hstep,
      ⟨reached_step h.reached hstep,h.stopped,h.stays.bridge (linked_run hrun) hb (by simp)⟩,
        Bridge.work_act ht hless hsame⟩

/-- When all handlers have ended, an upload whose message was not sent has left no trace. -/
lemma Ended.rolled_back (h : Ended D s s') (hs : Linked D s)
    (hsteps : Relation.ReflTransGen Registry.Step s.bridge.registry s'.bridge.registry)
    (hlength : s'.bridge.threads.length = s.bridge.threads.length)
    (hended : ∀ t ∈ s'.bridge.threads, t.Ended) (hk : s.bridge.phaseOf k = .uploading i) :
    s'.bridge.phaseOf k = .free := by
  obtain ⟨t,ht,hunsent,-⟩ := Bridge.thread_of_uploading hk
  have hnot : ∀ u, s'.bridge.threads[i]? = some u → ¬u.Sent := by
    intro u hu hsent
    obtain ⟨w,hw,hwsent⟩ := h.sent_before hs hu hsent
    cases ht.symm.trans hw
    exact hunsent hwsent
  rcases Registry.claim_settles hsteps hlength hk with hup | hfree | hacc | hsto
  · obtain ⟨u,hu,-,adm,hlive⟩ := Bridge.thread_of_uploading (show s'.bridge.phaseOf k = _ from hup)
    exact absurd (hended u (List.mem_of_getElem? hu)) (Handler.not_ended_of_live hlive)
  · exact hfree
  · obtain ⟨u,hu,hsent⟩ := Bridge.sent_of_held h.counted.linked.reported (Or.inl hacc)
    exact absurd hsent (hnot u hu)
  · obtain ⟨u,hu,hsent⟩ := Bridge.sent_of_held h.counted.linked.reported (Or.inr hsto)
    exact absurd hsent (hnot u hu)

/-- The bridge can always wind down. From every state of every run in which the coordinator's
loop has ended, by steps of the handlers and hashing tasks alone, each handler whose client is
there comes to its reply, every upload that had not sent its message leaves its id free, and
all permits of both semaphores are available again. -/
theorem can_always_wind_down (hrun : Transition.run (step D) init es = some s)
    (hend : s.engine.coordinator.point = .stopped) :
    ∃ fs t, (∀ e ∈ fs, e.Winds) ∧ Transition.run (step D) s fs = some t ∧
      (∀ (i : ℕ) h, s.bridge.threads[i]? = some h → ¬h.Lost →
        ∃ h' r, t.bridge.threads[i]? = some h' ∧ h'.reply = some r) ∧
      (∀ k i, s.bridge.registry.phase k = .uploading i → t.bridge.registry.phase k = .free) ∧
      t.budget = totalChunkBudget ∧ t.bridge.shared.hashing = 2 := by
  have hstart : Winding D s s := ⟨⟨es,hrun⟩,hend,stays_refl s⟩
  obtain ⟨t,hreach,ht,hdone⟩ : ∃ t, Transition.Reaches (step D) Event.Winds s t ∧
      Winding D s t ∧ t.bridge.work = 0 :=
    Transition.reaches_of_measure (fun t => t.bridge.work) (fun _ ht => ht.advance) hstart
  have hlength : t.bridge.threads.length = s.bridge.threads.length :=
    hreach.preserves (P := fun u => u.bridge.threads.length = s.bridge.threads.length)
      (fun u e v (hstep : step D u e = some v) (he : e.Winds) hu =>
        (length_step hstep he).trans hu) rfl
  obtain ⟨fs,hfs,hrun'⟩ := hreach
  obtain ⟨gs,hreached⟩ := ht.reached
  have hended := ended_of_work hdone
  have h := ended_run hrun hend hrun'
  refine ⟨fs,t,hfs,hrun',fun _ _ hi hlost => ht.stays.replied hended hi hlost,
    fun k i => h.rolled_back (linked_run hrun) (registry_run hrun hrun') hlength hended,?_,
    hashing_of_ended hreached hended (Nat.add_eq_zero_iff.mp hdone).2⟩
  have hsum := h.permits hreached
  rwa [inHandlers_of_ended hended,Nat.zero_add] at hsum

/-- The upload that was streaming is answered and forgotten. -/
theorem can_always_wind_down_cutOff : ∃ s fs t,
    Transition.run (step (Deps.sample 1 Nat.one_pos)) init cutOff = some s ∧
      Transition.run (step (Deps.sample 1 Nat.one_pos)) s fs = some t ∧
      s.bridge.registry.phase fileId = .uploading 1 ∧ t.bridge.registry.phase fileId = .free ∧
      t.budget = totalChunkBudget := by
  have hlast : (Transition.run (step (Deps.sample 1 Nat.one_pos)) init cutOff).map (fun s =>
      (s.engine.coordinator.point,s.bridge.phaseOf fileId)) =
      some (.stopped,.uploading 1) := by decide
  obtain ⟨s,hrun,hparts⟩ := Option.map_eq_some_iff.mp hlast
  simp only [Prod.mk.injEq] at hparts
  obtain ⟨fs,t,-,hrun',-,hfree,hbudget,-⟩ := can_always_wind_down hrun hparts.1
  exact ⟨s,fs,t,hrun,hrun',hparts.2,hfree fileId 1 hparts.2,hbudget⟩

end Gozara.Node
