import Gozara.Bridge.Registry
import Gozara.Node.Order

/-!
# The client refines the registry

With the coordinator's reports the registry is complete: every event of the client is one of its
steps or none, and the phase of an id decides what the bridge answers for it. So an id that a
download has asked for first can never be uploaded.
-/
namespace Gozara

/-- What `get_status` answers for an id. -/
def Phase.answer : Phase → Response
  | .free => ⟨.notFound,none,.empty⟩
  | .asked | .uploading _ | .accepted _ => ⟨.ok,none,.json .pending⟩
  | .stored _ => ⟨.ok,none,.json .finalized⟩

/-- An entry in the status map is taken, and pending as far as its request goes. -/
lemma Handler.phase_of_key {t : Handler} {k : String} (h : t.key = some k) (i : ℕ) :
    t.phase i ≠ .free ∧ (t.phase i).answer = ⟨.ok,none,.json .pending⟩ := by
  cases t with
  | posted id adm reply =>
    cases adm with
    | none => cases h
    | some adm =>
      by_cases hc : adm.committed = true
      · simp [Handler.phase,hc,Phase.answer]
      · simp [Handler.key,Handler.guard,hc] at h
  | _ => exact ⟨by simp [Handler.phase],rfl⟩

namespace Bridge
open BridgeState
variable {D : Deps} {s s' : Bridge} {id : String}

/-- A report is the end of an upload that was accepted. -/
theorem registry_update (hsent : ∀ entry, s.shared.statusMap.lookup id = some entry →
      ∃ t, s.threads[entry.inserter]? = some t ∧ t.Sent)
    (hstep : step D s (.env (.update (.updateStatus id .finalized))) = some s') :
    s'.registry = s.registry ∨ Registry.Step s.registry s'.registry := by
  cases hstep
  have hother : ∀ k, k ≠ id → phaseOf ⟨{ s.shared with
      statusMap := s.shared.statusMap.update (.updateStatus id .finalized) },s.threads⟩ k =
      s.phaseOf k := by
    intro k hk
    refine phaseOf_congr ?_ fun _ _ => rfl
    simp [StatusMap.lookup_update,hk]
  cases he : s.shared.statusMap.lookup id with
  | none =>
    left
    refine Registry.ext rfl (funext fun k => ?_)
    by_cases hk : k = id
    · subst hk
      exact phaseOf_congr (by simp [StatusMap.lookup_update,he]) fun _ _ => rfl
    · exact hother k hk
  | some entry =>
    have hstored : phaseOf ⟨{ s.shared with
        statusMap := s.shared.statusMap.update (.updateStatus id .finalized) },s.threads⟩ id =
        .stored entry.inserter := by
      simp [phaseOf,StatusMap.lookup_update,he]
    by_cases hfin : .finalized ∈ entry.history
    · left
      refine Registry.ext rfl (funext fun k => ?_)
      by_cases hk : k = id
      · subst hk
        refine hstored.trans ?_
        simp [registry,phaseOf,he,hfin]
      · exact hother k hk
    · right
      obtain ⟨t,ht,htsent⟩ := hsent entry he
      have hheld : s.phaseOf id = .accepted entry.inserter := by
        rw [phaseOf_thread he hfin ht,Handler.phase_of_sent htsent]
      have hset : registry ⟨{ s.shared with
          statusMap := s.shared.statusMap.update (.updateStatus id .finalized) },s.threads⟩ =
          s.registry.set id (.stored entry.inserter) := registry_eq_set rfl hstored hother
      exact hset ▸ .store hheld

end Bridge

namespace Node
open BridgeState
variable {D : Deps} {s s' : Node} {e : Event} {es fs : List Event} {k : String}

/-- An announced id that has an entry was inserted by the upload that sent it. -/
lemma Linked.sent_of_announced (h : Linked D s) {b : LocalBlob}
    (hb : b ∈ s.engine.coordinator.announced) {entry : Entry}
    (he : s.bridge.shared.statusMap.lookup b.id = some entry) :
    ∃ t, s.bridge.threads[entry.inserter]? = some t ∧ t.Sent := by
  obtain ⟨a,ha,hab⟩ := h.stored.orderly.origin (List.mem_append_right _ hb)
  have hid : a.id = b.id := congrArg Manifest.id hab
  obtain ⟨i,hi⟩ := h.origin a ha
  have hcan : D.magicTypeId a.id = some a.id := by
    rw [hid]
    exact h.holds.shared.canonical _ _ he
  obtain ⟨t,-,ht,hsent,-,-,hins⟩ := h.inserterOf_blob hi hcan
  obtain ⟨e,he',rfl⟩ := inserterOf_eq_some.mp hins
  rw [hid,he] at he'
  cases he'
  exact ⟨t,ht,hsent⟩

lemma Linked.reported (h : Linked D s) : Bridge.Reported s.bridge := by
  intro k entry he hfin
  obtain ⟨b,hb,rfl⟩ := h.histories k entry he hfin
  exact h.sent_of_announced hb he

/-- Every event of the client is a step of the registry or none. -/
theorem registry_step (h : Linked D s) (hstep : step D s e = some s') :
    s'.bridge.registry = s.bridge.registry ∨
      Registry.Step s.bridge.registry s'.bridge.registry := by
  have hdoes := does_of_step hstep
  cases hdoes with
  | bridge hb event =>
    rcases event with ⟨r,-,rfl⟩ | ⟨i,a,-,rfl⟩ | ⟨-,rfl⟩
    · exact Or.inr (Bridge.registry_spawn h.holds hb)
    · exact Bridge.registry_act h.holds h.reported hb
    · left
      obtain ⟨sh,henv,rfl⟩ := Pool.step_env_eq_some.mp hb
      simp only [Bridge.program,outside] at henv
      split_ifs at henv
      cases henv
      rfl
  | enqueue running room handler outbox hb => exact Bridge.registry_act h.holds h.reported hb
  | update updating head hb =>
    obtain ⟨b,hb',rfl⟩ := h.updates _ (by rw [head]; exact List.mem_cons_self)
    exact Bridge.registry_update (fun entry he => h.sent_of_announced hb' he) hb
  | stopUpdates => exact Or.inl rfl
  | drive => exact Or.inl rfl

theorem registry_run (hrun : Transition.run (step D) init es = some s)
    (hrun' : Transition.run (step D) s fs = some s') :
    Relation.ReflTransGen Registry.Step s.bridge.registry s'.bridge.registry :=
  Transition.refines_run (fun s : Node => s.bridge.registry)
    (fun _ _ _ hstep h => Linked.step h hstep) (fun _ _ _ hstep h => registry_step h hstep) hrun'
    (linked_run hrun)

/-- The handler that stands for the entry of a key. -/
lemma Linked.inserter_key (h : Linked D s) {entry : Entry}
    (he : s.bridge.shared.statusMap.lookup k = some entry) :
    ∃ t, s.bridge.threads[entry.inserter]? = some t ∧ t.key = some k := by
  have hins := inserterOf_eq_some.mpr ⟨entry,he,rfl⟩
  have ht := List.getElem?_eq_getElem (h.holds.shared.inserter_lt k _ hins)
  exact ⟨_,ht,(h.holds.thread _ _ ht).only k hins⟩

/-- The phase of an id decides what `get_status` answers. -/
theorem Counted.getStatus_eq (h : Counted D s) (k : String) :
    s.bridge.shared.statusMap.getStatus k = some (s.bridge.phaseOf k).answer := by
  unfold StatusMap.getStatus
  cases he : s.bridge.shared.statusMap.lookup k with
  | none => rw [Bridge.phaseOf_none he]; rfl
  | some entry =>
    rcases h.last he with ⟨hlast,hfin⟩ | ⟨hlast,hfin⟩
    · obtain ⟨t,ht,hkey⟩ := h.linked.inserter_key he
      rw [Bridge.phaseOf_thread he hfin ht,(Handler.phase_of_key hkey _).2]
      simp [hlast]
    · simp [Bridge.phaseOf,he,hfin,hlast,Phase.answer]

theorem Linked.free_iff (h : Linked D s) (k : String) :
    s.bridge.phaseOf k = .free ↔ s.bridge.shared.statusMap.lookup k = none := by
  refine ⟨fun hfree => ?_,Bridge.phaseOf_none⟩
  cases he : s.bridge.shared.statusMap.lookup k with
  | none => rfl
  | some entry =>
    obtain ⟨t,ht,hkey⟩ := h.inserter_key he
    by_cases hfin : .finalized ∈ entry.history
    · simp [Bridge.phaseOf,he,hfin] at hfree
    · rw [Bridge.phaseOf_thread he hfin ht] at hfree
      exact absurd hfree (Handler.phase_of_key hkey _).1

/-- An upload is refused as a conflict exactly when its id is not free. -/
theorem Linked.conflict_iff (h : Linked D s) {id : String} (hid : D.magicTypeId id = some k)
    (i : ℕ) : Admission.new D i s.bridge.shared.statusMap id = .error .conflict ↔
      s.bridge.phaseOf k ≠ .free := by
  rw [Ne,h.free_iff]
  unfold Admission.new
  cases he : s.bridge.shared.statusMap.lookup k <;> simp [hid,he]

/-- An upload of an id that is not free is refused, in `new_blob` past the checks of its length. -/
lemma refused_of_ne_free (h : Linked D s) {id : String} (hid : D.magicTypeId id = some k)
    (hk : s.bridge.phaseOf k ≠ .free) (i : ℕ) :
    Admission.new D i s.bridge.shared.statusMap id = .error .conflict ∧
      ∀ len, LengthOk D len → newBlob D i s.bridge.shared.statusMap id len = .error .conflict := by
  have hnew := (h.conflict_iff hid i).mpr hk
  exact ⟨hnew,fun len hlen => (newBlob_conflict_iff hlen).mpr hnew⟩

/-- The client refines the registry of ids. In every continuation of every run the phases of all
ids develop as the registry allows: an id is free until a download asks for it or an upload
claims it, a claim is given up or accepted, and what was accepted keeps its id and is stored in
the end. And the phase of an id is what clients see: it decides the answer to a status request,
and an upload, when its length passes the checks that come first, finds its id taken exactly
when it is not free. -/
theorem registry_refined (hrun : Transition.run (step D) init es = some s)
    (hrun' : Transition.run (step D) s fs = some s') :
    Relation.ReflTransGen Registry.Step s.bridge.registry s'.bridge.registry ∧
    (∀ k i, (s.bridge.registry.phase k = .accepted i ∨ s.bridge.registry.phase k = .stored i) →
      s'.bridge.registry.phase k = .accepted i ∨ s'.bridge.registry.phase k = .stored i) ∧
    (∀ k, s.bridge.shared.statusMap.getStatus k = some (s.bridge.registry.phase k).answer) ∧
    ∀ id k, D.magicTypeId id = some k → ∀ i,
      (Admission.new D i s.bridge.shared.statusMap id = .error .conflict ↔
        s.bridge.registry.phase k ≠ .free) ∧
      ∀ len, LengthOk D len → (newBlob D i s.bridge.shared.statusMap id len = .error .conflict ↔
        s.bridge.registry.phase k ≠ .free) := by
  have hsteps := registry_run hrun hrun'
  refine ⟨hsteps,fun k i => ?_,(counted_run hrun).getStatus_eq,fun _ _ hid i => ?_⟩
  · exact Transition.stable_of_steps (Q := fun r : Registry String =>
      r.phase k = .accepted i ∨ r.phase k = .stored i) (fun _ _ hstep => hstep.kept) hsteps
  · have hiff := (linked_run hrun).conflict_iff hid i
    exact ⟨hiff,fun len hlen => (newBlob_conflict_iff hlen).trans hiff⟩

/-- A download of one id; another is uploaded and stored. -/
def askAndStore : List Event :=
  .request (.get fileId)::uploadByte 1 blobId 7 ++
    [.engine (.input (.handler (.response ⟨[1]⟩ 0 (.issuedStoragePermit 60))))] ++ storeByte

theorem registry_refined_stored : ∃ s s' : Node,
    Transition.run (step (Deps.sample 1 Nat.one_pos)) init [.request (.get fileId)] = some s ∧
    Relation.ReflTransGen Registry.Step s.bridge.registry s'.bridge.registry ∧
    s.bridge.registry.phase blobId = .free ∧ s'.bridge.registry.phase blobId = .stored 1 ∧
    s'.bridge.registry.phase fileId = .asked := by
  have hfirst : (Transition.run (step (Deps.sample 1 Nat.one_pos)) init
      [.request (.get fileId)]).map (fun s => s.bridge.phaseOf blobId) = some .free := by decide
  obtain ⟨s,hrun,hfree⟩ := Option.map_eq_some_iff.mp hfirst
  have hlast : (Transition.run (step (Deps.sample 1 Nat.one_pos)) init askAndStore).map (fun s =>
      (s.bridge.phaseOf blobId,s.bridge.phaseOf fileId)) = some (.stored 1,.asked) := by decide
  obtain ⟨s',hrun',hphases⟩ := Option.map_eq_some_iff.mp hlast
  obtain ⟨t,ht,hrest⟩ := Transition.run_append_eq_some.mp
    (show Transition.run (step (Deps.sample 1 Nat.one_pos)) init
      ([.request (.get fileId)] ++ askAndStore.tail) = some s' from hrun')
  cases hrun.symm.trans ht
  simp only [Prod.mk.injEq] at hphases
  exact ⟨s,s',hrun,(registry_refined hrun hrest).1,hfree,hphases.1,hphases.2⟩

/-- A download that finds no entry takes its id for good: in every later state of every run the
id is asked for and pending, no blob was sent under it, and an upload under any of its spellings
is refused, when its length passes the checks that come first. -/
theorem asked_forever (hrun : Transition.run (step D) init es = some s) {id : String}
    (hid : D.magicTypeId id = some k) (hnone : s.bridge.shared.statusMap.lookup k = none)
    (hrun' : Transition.run (step D) s (.request (.get id)::fs) = some s') :
    s'.bridge.shared.statusMap.getStatus k = some ⟨.ok,none,.json .pending⟩ ∧
    (∀ id', D.magicTypeId id' = some k → ∀ i,
      Admission.new D i s'.bridge.shared.statusMap id' = .error .conflict ∧
      ∀ len, LengthOk D len →
        newBlob D i s'.bridge.shared.statusMap id' len = .error .conflict) ∧
    ∀ i a, (i,.newBlob a) ∈ s'.bridge.shared.enqueued → D.magicTypeId a.id ≠ some k := by
  obtain ⟨t,ht,hrest⟩ := Transition.run_cons_eq_some.mp hrun'
  have hrun₁ : Transition.run (step D) init (es ++ [.request (.get id)]) = some t :=
    Transition.run_append_eq_some.mpr ⟨s,hrun,Transition.run_cons_eq_some.mpr ⟨t,ht,rfl⟩⟩
  have hrun₂ : Transition.run (step D) init (es ++ (.request (.get id)::fs)) = some s' :=
    Transition.run_append_eq_some.mpr ⟨s,hrun,hrun'⟩
  have h := linked_run hrun
  have h' := linked_run hrun₂
  have hasked : t.bridge.registry.phase k = .asked := by
    simp only [step,onBridge] at ht
    obtain ⟨b,hb,rfl⟩ := Option.map_eq_some_iff.mp ht
    exact Bridge.phase_get h.holds hid hnone hb
  have hlater : s'.bridge.registry.phase k = .asked :=
    Transition.stable_of_steps (Q := fun r : Registry String => r.phase k = .asked)
      (fun _ _ hstep => Registry.Step.asked hstep) (registry_run hrun₁ hrest) hasked
  refine ⟨?_,fun id' hid' i => ?_,?_⟩
  · rw [(counted_run hrun₂).getStatus_eq k]
    exact congrArg (fun ph => some ph.answer) hlater
  · have hne : s'.bridge.phaseOf k ≠ .free := by
      intro hfree
      cases hlater.symm.trans hfree
    exact refused_of_ne_free h' hid' hne i
  · -- The upload of a blob under this id would own the entry of the id.
    intro i a ha hak
    obtain ⟨u,adm,-,hu,hsent,hpost,hadm,-⟩ := h'.newBlob ha
    obtain rfl := Option.some.inj (hak.symm.trans hadm)
    obtain ⟨entry,he,rfl⟩ := inserterOf_eq_some.mp
      ((h'.holds.thread i u hu).owns adm.id (Handler.guard_of_sent hsent hpost))
    have hphase : s'.bridge.phaseOf adm.id = .asked := hlater
    by_cases hfin : .finalized ∈ entry.history
    · simp [Bridge.phaseOf,he,hfin] at hphase
    · rw [Bridge.phaseOf_thread he hfin hu,Handler.phase_of_sent hsent] at hphase
      cases hphase

lemma lengthOk_one : LengthOk (Deps.sample 1 Nat.one_pos) (some [49]) :=
  ⟨1,rfl,Nat.one_pos,by decide,by decide⟩

/-- The upload of an id that was asked for is refused, however it is spelled. -/
theorem asked_forever_refused : ∃ s s' : Node,
    Transition.run (step (Deps.sample 1 Nat.one_pos)) init [] = some s ∧
    Transition.run (step (Deps.sample 1 Nat.one_pos)) s
      [.request (.get blobId),.act 0 .enqueue,.recvAdmission] = some s' ∧
    newBlob (Deps.sample 1 Nat.one_pos) 1 s'.bridge.shared.statusMap upperId (some [49]) =
      .error .conflict := by
  have hsome : (Transition.run (step (Deps.sample 1 Nat.one_pos)) init
      [.request (.get blobId),.act 0 .enqueue,.recvAdmission]).isSome := by decide
  have hrun := (Option.some_get hsome).symm
  have hstart : Transition.run (step (Deps.sample 1 Nat.one_pos)) init [] = some init := rfl
  obtain ⟨-,hrefused,-⟩ := asked_forever hstart rfl rfl hrun
  exact ⟨init,_,hstart,hrun,(hrefused upperId rfl 1).2 _ lengthOk_one⟩

end Node

end Gozara
