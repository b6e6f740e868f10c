import Gozara.Node.System

/-!
# What connects the bridge and the coordinator

Every message of the admission channel and every blob of the coordinator goes back to a
`NewBlob` that a handler enqueued, and every `Finalized` on the bridge channel or in the
status map to a blob that the coordinator announced.
-/
namespace Gozara

namespace Uploads
variable {s s' : Uploads} {e : Event} {dropped : List LocalBlob}

theorem Steps.received_eq (h : Steps s e s' dropped) :
    s'.coordinator.received = s.coordinator.received ++ (newBlob? e).toList := by
  cases h with
  | loop input direct moves =>
    rw [moves.received_eq,inputOf_newBlob input]
  | _ => simp [newBlob?,releasePermit]

/-- The archive of the current blob is the only event that announces one. -/
theorem Steps.announced_eq (h : Steps s e s' dropped) :
    s'.coordinator.announced = s.coordinator.announced ∧ e ≠ .input .bridgeSend ∨
      e = .input .bridgeSend ∧ ∃ b, s.coordinator.pipeline.currentBlob = some b ∧
        s'.coordinator.announced = s.coordinator.announced ++ [b] := by
  cases h with
  | @loop e i c eff input direct moves =>
    have hne : i ≠ .bridgeSend → e ≠ .input .bridgeSend := by
      rintro hi rfl
      cases input
      exact hi rfl
    have he : i = .bridgeSend → e = .input .bridgeSend := by
      rintro rfl
      exact eq_input_of_inputOf input (by simp)
    cases moves with
    | stay _ announced _ _ inputs => exact Or.inl ⟨announced,hne inputs.2.1⟩
    | wait _ _ announced => exact Or.inl ⟨announced,hne (by simp)⟩
    | begin _ _ announced => exact Or.inl ⟨announced,hne (by simp)⟩
    | archive _ _ announced front => exact Or.inr ⟨he rfl,_,front,announced⟩
    | stop => exact Or.inl ⟨rfl,hne (by simp)⟩
  | _ => exact Or.inl ⟨rfl,by simp⟩

theorem Steps.announced_subset (h : Steps s e s' dropped) :
    s.coordinator.announced ⊆ s'.coordinator.announced := by
  rcases h.announced_eq with ⟨heq,-⟩ | ⟨-,b,-,heq⟩
  · rw [heq]
    exact fun _ hb => hb
  · rw [heq]
    exact List.subset_append_left _ _

end Uploads

namespace Bridge
variable {D : Deps} {s s' : Bridge} {e : Event}

/-- The message that an event puts on the log. -/
def logged (s : Bridge) : Event → List (ℕ × ToPipeline)
  | .act i a =>
    if a = .enqueue then ((s.threads[i]?.bind Handler.outbox).map fun msg => (i,msg)).toList else []
  | _ => []

/-- The log only grows, and by the message of a handler that enqueues. -/
theorem enqueued_step (h : Pool.Holds (BridgeState.Sane D) (BridgeState.Guarded D) s)
    (hstep : step D s e = some s') : s'.shared.enqueued = s.shared.enqueued ++ logged s e := by
  cases e with
  | spawn b =>
    cases hstep
    simp only [logged,List.append_nil]
    cases b with
    | post id contentLength =>
      simp only [program,BridgeState.request]
      split <;> rfl
    | get id => rfl
  | act i a =>
    obtain ⟨t,sh,t',ht,hact,rfl⟩ := Pool.step_act_eq_some.mp hstep
    obtain ⟨body,hsound⟩ := (h.thread i t ht).sound
    rw [BridgeState.enqueued_act (acts_of_act hsound hact)]
    simp [logged,ht]
  | env g =>
    obtain ⟨sh,henv,rfl⟩ := Pool.step_env_eq_some.mp hstep
    simp only [(BridgeState.outside_spec henv).2,logged,List.append_nil]

lemma enqueued_subset (h : Pool.Holds (BridgeState.Sane D) (BridgeState.Guarded D) s)
    (hstep : step D s e = some s') : s.shared.enqueued ⊆ s'.shared.enqueued := by
  rw [enqueued_step h hstep]
  exact List.subset_append_left _ _

/-- Only a send puts a message on the log. -/
lemma enqueued_quiet (h : Pool.Holds (BridgeState.Sane D) (BridgeState.Guarded D) s)
    (hstep : step D s e = some s') (he : ∀ i, e ≠ .act i .enqueue) :
    s'.shared.enqueued = s.shared.enqueued := by
  rw [enqueued_step h hstep]
  cases e with
  | act i a =>
    have ha : a ≠ .enqueue := by
      rintro rfl
      exact he i rfl
    simp [logged,ha]
  | _ => simp [logged]

lemma enqueued_send (h : Pool.Holds (BridgeState.Sane D) (BridgeState.Guarded D) s) {i : ℕ}
    {t : Handler} {msg : ToPipeline} (ht : s.threads[i]? = some t) (hout : t.outbox = some msg)
    (hstep : step D s (.act i .enqueue) = some s') :
    s'.shared.enqueued = s.shared.enqueued ++ [(i,msg)] := by
  rw [enqueued_step h hstep]
  simp [logged,ht,hout]

/-- Without a message of the coordinator no history changes: entries come as pending. -/
theorem lookup_of_step (h : Pool.Holds (BridgeState.Sane D) (BridgeState.Guarded D) s)
    (hstep : step D s e = some s') (he : ∀ msg, e ≠ .env (.update msg)) {k : String} {entry : Entry}
    (hk : s'.shared.statusMap.lookup k = some entry) :
    s.shared.statusMap.lookup k = some entry ∨ entry.history = [.pending] := by
  have hinsert : ∀ {m : StatusMap} {k' : String} {i : ℕ},
      (m.insert k' ⟨i,[.pending]⟩).lookup k = some entry →
      m.lookup k = some entry ∨ entry.history = [.pending] := by
    intro m k' i hm
    by_cases hkk : k = k'
    · subst hkk
      rw [AList.lookup_insert] at hm
      cases hm
      exact Or.inr rfl
    · rw [AList.lookup_insert_ne hkk] at hm
      exact Or.inl hm
  cases e with
  | spawn b =>
    cases hstep
    cases b with
    | post id contentLength =>
      simp only [program,BridgeState.request] at hk
      split at hk
      · exact Or.inl hk
      · rename_i m u hnew
        obtain ⟨k',-,-,rfl,-⟩ := newBlob_eq_ok hnew
        exact hinsert hk
    | get id =>
      rcases getBlob_spec D s.threads.length s.shared.statusMap id with
        ⟨id',reply,heq,-⟩ | ⟨k',m',-,heq,hm⟩
      · simp only [program,BridgeState.request,heq] at hk
        exact Or.inl hk
      · simp only [program,BridgeState.request,heq] at hk
        rcases hm with ⟨-,-,-,rfl⟩ | ⟨-,rfl⟩
        · exact Or.inl hk
        · exact hinsert hk
  | act i a =>
    obtain ⟨t,sh,t',ht,hact,rfl⟩ := Pool.step_act_eq_some.mp hstep
    have hL := h.thread i t ht
    obtain ⟨body,hsound⟩ := hL.sound
    rcases BridgeState.statusMap_act hL (acts_of_act hsound hact) with
      heq | ⟨-,id,adm,reply,-,heq⟩
    · exact Or.inl (by rwa [heq] at hk)
    · rw [heq] at hk
      by_cases hkk : k = adm.id
      · subst hkk
        simp at hk
      · exact Or.inl (by rwa [AList.lookup_erase_ne hkk] at hk)
  | env g =>
    obtain ⟨sh,henv,rfl⟩ := Pool.step_env_eq_some.mp hstep
    cases g with
    | update msg => exact absurd rfl (he msg)
    | orphanDone =>
      simp only [program,BridgeState.outside] at henv
      split_ifs at henv
      cases henv
      exact Or.inl hk
    | release permits =>
      cases henv
      exact Or.inl hk

end Bridge

namespace Node
open BridgeState

structure Linked (D : Deps) (s : Node) : Prop where
  holds : Pool.Holds (Sane D) (Guarded D) s.bridge
  stored : s.engine.Stored
  origin : ∀ a ∈ s.engine.coordinator.received, ∃ i, (i,.newBlob a) ∈ s.bridge.shared.enqueued
  queued : ∀ msg ∈ s.admission, ∃ i, (i,msg) ∈ s.bridge.shared.enqueued
  closed : s.engine.coordinator.point = .stopped → s.admission = []
  updates : ∀ msg ∈ s.updates, ∃ b ∈ s.engine.coordinator.announced,
    msg = .updateStatus b.id .finalized
  histories : ∀ k e, s.bridge.shared.statusMap.lookup k = some e → .finalized ∈ e.history →
    ∃ b ∈ s.engine.coordinator.announced, b.id = k

variable {D : Deps} {s s' : Node} {e : Event}

theorem linked_init (D : Deps) : Linked D init where
  holds := Bridge.holds_init D
  stored := Uploads.stored_init
  origin := by simp [init,Uploads.init,Coordinator.init]
  queued := by simp [init]
  closed := fun _ => rfl
  updates := by simp [init]
  histories := by simp [init,Bridge.init,BridgeState.new]

/-- A logged `NewBlob` is the whole body of a request that was admitted. -/
theorem Linked.newBlob (h : Linked D s) {i : ℕ} {a : AdmittedBlob}
    (ha : (i,.newBlob a) ∈ s.bridge.shared.enqueued) :
    ∃ t adm body, s.bridge.threads[i]? = some t ∧ t.Sent ∧ t.post = some (a.id,adm) ∧
      D.magicTypeId a.id = some adm.id ∧ a.Whole D body := by
  have hlt := h.holds.shared.enqueued_lt i _ ha
  have ht : s.bridge.threads[i]? = some s.bridge.threads[i] := List.getElem?_eq_getElem hlt
  have hL := h.holds.thread i _ ht
  obtain ⟨hsent,⟨adm,hpost⟩,body,hwhole⟩ := hL.newBlob a ha
  exact ⟨_,adm,body,ht,hsent,hpost,hL.canonical a.id adm hpost,hwhole⟩

lemma Linked.chunks_ne_nil (h : Linked D s) {a : AdmittedBlob}
    (ha : .newBlob a ∈ s.admission) : a.chunks ≠ [] := by
  obtain ⟨i,hi⟩ := h.queued _ ha
  obtain ⟨_,_,_,_,_,_,_,hwhole⟩ := h.newBlob hi
  obtain ⟨front,last,hchunks,-⟩ := hwhole.full
  simp [hchunks]

lemma bridge_holds (h : Pool.Holds (Sane D) (Guarded D) s.bridge) (hstep : step D s e = some s') :
    Pool.Holds (Sane D) (Guarded D) s'.bridge := by
  obtain ⟨fs,hfs⟩ := bridge_project hstep
  exact (preserved D).run hfs h

lemma newBlob?_eq_some {ue : Uploads.Event} {a : AdmittedBlob} (h : Uploads.newBlob? ue = some a) :
    ue = .input (.admission (.newBlob a)) := by
  unfold Uploads.newBlob? Coordinator.newBlob? at h
  split at h
  · split at h
    · cases h
      rfl
    · cases h
  · cases h

/-- What an event of the coordinator announces, it also sends to the bridge. -/
lemma Linked.announced_drive (h : Linked D s) {ue : Uploads.Event} {u : Uploads}
    {dropped : List LocalBlob} {updates : List ToBridge}
    (steps : Uploads.Steps s.engine ue u dropped)
    (target : (ue = .input .bridgeSend ∧ ∃ msg, s.engine.coordinator.point = .sendBridge msg ∧
        updates = if s.updating then s.updates ++ [msg] else s.updates) ∨
      ue ≠ .input .bridgeSend ∧ updates = s.updates) :
    (∃ b, u.coordinator.announced = s.engine.coordinator.announced ++ [b] ∧
      updates = if s.updating then s.updates ++ [.updateStatus b.id .finalized] else s.updates) ∨
    u.coordinator.announced = s.engine.coordinator.announced ∧ updates = s.updates := by
  rcases steps.announced_eq with ⟨hann,hne⟩ | ⟨hsend,b,hb,hann⟩
  · rcases target with ⟨hsend,-⟩ | ⟨-,hupdates⟩
    · exact absurd hsend hne
    · exact Or.inr ⟨hann,hupdates⟩
  · rcases target with ⟨-,m,hpoint,hupdates⟩ | ⟨hne,-⟩
    · obtain ⟨b',hb',-,rfl⟩ := h.stored.orderly.pointOk.sending m hpoint
      cases hb.symm.trans hb'
      exact Or.inl ⟨b,hann,hupdates⟩
    · exact absurd hsend hne

theorem Linked.step (h : Linked D s) (hstep : Node.step D s e = some s') : Linked D s' := by
  have hholds := bridge_holds h.holds hstep
  have hdoes := does_of_step hstep
  cases hdoes with
  | @bridge e be b hb event unsent =>
    have hlog := Bridge.enqueued_subset h.holds hb
    refine ⟨hholds,h.stored,fun a ha => ?_,fun msg hmsg => ?_,h.closed,h.updates,
      fun k entry hk hfin => ?_⟩
    · obtain ⟨i,hi⟩ := h.origin a ha
      exact ⟨i,hlog hi⟩
    · obtain ⟨i,hi⟩ := h.queued msg hmsg
      exact ⟨i,hlog hi⟩
    · rcases Bridge.lookup_of_step h.holds hb (ne_update event) hk with hold | hnew
      · exact h.histories k entry hold hfin
      · simp [hnew] at hfin
  | @enqueue i t msg b running room handler outbox hb =>
    have hlog := Bridge.enqueued_send h.holds handler outbox hb
    refine ⟨hholds,h.stored,fun a ha => ?_,fun m hm => ?_,fun hstop => absurd hstop running,
      h.updates,fun k entry hk hfin => ?_⟩
    · obtain ⟨j,hj⟩ := h.origin a ha
      exact ⟨j,by rw [hlog]; exact List.mem_append_left _ hj⟩
    · rcases List.mem_append.mp hm with hm | hm
      · obtain ⟨j,hj⟩ := h.queued m hm
        exact ⟨j,by rw [hlog]; exact List.mem_append_left _ hj⟩
      · rw [List.mem_singleton.mp hm]
        exact ⟨i,by rw [hlog]; simp⟩
    · rcases Bridge.lookup_of_step h.holds hb (by simp) hk with hold | hnew
      · exact h.histories k entry hold hfin
      · simp [hnew] at hfin
  | @update msg rest b updating head hb =>
    have hlog := Bridge.enqueued_subset h.holds hb
    refine ⟨hholds,h.stored,fun a ha => ?_,fun m hm => ?_,h.closed,fun m hm => ?_,
      fun k entry hk hfin => ?_⟩
    · obtain ⟨j,hj⟩ := h.origin a ha
      exact ⟨j,hlog hj⟩
    · obtain ⟨j,hj⟩ := h.queued m hm
      exact ⟨j,hlog hj⟩
    · exact h.updates m (by rw [head]; exact List.mem_cons_of_mem _ hm)
    · obtain ⟨blob,hblob,rfl⟩ := h.updates msg (by rw [head]; exact List.mem_cons_self)
      obtain ⟨sh,henv,rfl⟩ := Pool.step_env_eq_some.mp hb
      cases henv
      simp only [StatusMap.update] at hk
      split at hk
      · by_cases hkk : k = blob.id
        · exact ⟨blob,hblob,hkk.symm⟩
        · rw [AList.lookup_insert_ne hkk] at hk
          exact h.histories k entry hk hfin
      · exact h.histories k entry hk hfin
  | stopUpdates =>
    exact ⟨hholds,h.stored,h.origin,h.queued,h.closed,by simp,h.histories⟩
  | @drive e ue u dropped admission updates event steps source target =>
    have hqueue : admission ⊆ s.admission ∧
        ∀ a, Uploads.newBlob? ue = some a → .newBlob a ∈ s.admission := by
      rcases source with ⟨msg,rfl,heq⟩ | ⟨hne,rfl⟩
      · rw [heq]
        refine ⟨List.subset_cons_self _ _,fun a ha => ?_⟩
        cases newBlob?_eq_some ha
        exact List.mem_cons_self
      · exact ⟨fun _ hm => hm,fun a ha => absurd (newBlob?_eq_some ha) (hne _)⟩
    refine ⟨hholds,steps.stored h.stored fun a ha => h.chunks_ne_nil (hqueue.2 a ha),?_,?_,
      fun hstop => if_pos hstop,?_,?_⟩
    · intro a ha
      rw [steps.received_eq] at ha
      rcases List.mem_append.mp ha with ha | ha
      · exact h.origin a ha
      · exact h.queued _ (hqueue.2 a (Option.mem_toList.mp ha))
    · intro msg hmsg
      simp only at hmsg
      split_ifs at hmsg
      · cases hmsg
      · exact h.queued msg (hqueue.1 hmsg)
    · intro msg hmsg
      rcases h.announced_drive steps target with ⟨b,hann,rfl⟩ | ⟨hann,rfl⟩
      · have hmem : msg ∈ s.updates ++ [.updateStatus b.id .finalized] := by
          simp only at hmsg
          split_ifs at hmsg
          · exact hmsg
          · exact List.mem_append_left _ hmsg
        rw [hann]
        rcases List.mem_append.mp hmem with hold | hnew
        · obtain ⟨b',hb',heq⟩ := h.updates msg hold
          exact ⟨b',List.mem_append_left _ hb',heq⟩
        · exact ⟨b,List.mem_append_right _ List.mem_cons_self,List.mem_singleton.mp hnew⟩
      · rw [hann]
        exact h.updates msg hmsg
    · intro k entry hk hfin
      obtain ⟨b,hb,hid⟩ := h.histories k entry hk hfin
      exact ⟨b,steps.announced_subset hb,hid⟩

theorem linked_run {es : List Event} (hrun : Transition.run (Node.step D) init es = some s) :
    Linked D s :=
  Transition.run_preserves (fun _ _ _ hstep h => Linked.step h hstep) hrun (linked_init D)

end Node

end Gozara
