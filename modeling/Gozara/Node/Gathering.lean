import Gozara.Bridge.Downloads
import Gozara.Node.Pending

/-!
# Blobs that are held and blobs that are gathered

`Pending` stands for a blob that is uploaded here as well as for one that is fetched from
elsewhere, and `get_blob` sends its message for either. When it finds the entry of an upload
pending, a blob that is on its way to the coordinator is scheduled for gathering. Without
such a request no id is held and gathered at once.
-/
namespace Gozara

namespace Handler

/-- An entry belongs to a download or to an upload. -/
lemma download_or_post {t : Handler} {k : String} (h : t.key = some k) :
    (t = .getting k ∨ ∃ reply, t = .got k reply) ∨ t.post.isSome := by
  cases t with
  | posted id adm reply =>
    cases adm with
    | none => cases h
    | some adm => exact Or.inr rfl
  | getting id =>
    cases h
    exact Or.inl (Or.inl rfl)
  | got id reply =>
    cases h
    exact Or.inl (Or.inr ⟨reply,rfl⟩)
  | _ => exact Or.inr rfl

end Handler

namespace Bridge
open BridgeState
variable {D : Deps} {s s' : Bridge} {e : Event} {i : ℕ} {k : String}

/-- Request `i` waits in its send of a `GetBlob` or has enqueued it. -/
def Gathers (s : Bridge) (i : ℕ) (k : String) : Prop :=
  s.threads[i]? = some (.getting k) ∨ s.threads[i]? = some (.accepted k)

/-- The entry of everything that is to be gathered was inserted by a download. -/
def Missing (s : Bridge) : Prop :=
  ∀ i k, Gathers s i k →
    ∃ e, s.shared.statusMap.lookup k = some e ∧ Downloads s e.inserter k

/-- A download request finds the entry of an upload, and finds it pending. -/
def Rereads (D : Deps) (s : Bridge) : Event → Prop
  | .spawn (.get id) => ∃ k e t, D.magicTypeId id = some k ∧
      s.shared.statusMap.lookup k = some e ∧ e.history.getLast? = some .pending ∧
      s.threads[e.inserter]? = some t ∧ t.post.isSome
  | _ => False

theorem downloads_step (hstep : step D s e = some s') (h : Downloads s i k) :
    Downloads s' i k := by
  have hi : i < s.threads.length := by
    rcases h with h | ⟨reply,h⟩ <;> exact (List.getElem?_eq_some_iff.mp h).1
  cases e with
  | spawn b =>
    cases hstep
    simpa only [Downloads,List.getElem?_append_left hi] using h
  | act j a =>
    obtain ⟨t,sh,t',ht,hact,rfl⟩ := Pool.step_act_eq_some.mp hstep
    by_cases hij : j = i
    · subst j
      rw [Downloads,List.getElem?_set_self hi]
      rcases h with h | ⟨reply,h⟩
      · cases ht.symm.trans h
        cases a <;> cases hact <;> exact Or.inr ⟨_,rfl⟩
      · cases ht.symm.trans h
        cases hact
    · simpa only [Downloads,List.getElem?_set_ne hij] using h
  | env g =>
    obtain ⟨sh,-,rfl⟩ := Pool.step_env_eq_some.mp hstep
    exact h

/-- The entry of a download is never removed. -/
theorem inserted_step (h : Pool.Holds (Sane D) (Guarded D) s) (hstep : step D s e = some s')
    {entry : Entry} (he : s.shared.statusMap.lookup k = some entry)
    (hd : Downloads s entry.inserter k) :
    ∃ entry', s'.shared.statusMap.lookup k = some entry' ∧ entry'.inserter = entry.inserter := by
  cases e with
  | spawn b => exact ⟨entry,lookup_request h hstep he,rfl⟩
  | act j a =>
    obtain ⟨t,sh,t',ht,hact,rfl⟩ := Pool.step_act_eq_some.mp hstep
    have hL := h.thread j t ht
    obtain ⟨body,hsound⟩ := hL.sound
    rcases statusMap_act hL (acts_of_act hsound hact) with heq | ⟨-,id,adm,reply,rfl,heq⟩
    · exact ⟨entry,by rw [heq]; exact he,rfl⟩
    · refine ⟨entry,?_,rfl⟩
      have hk : k ≠ adm.id := by
        rintro rfl
        -- The entry that is rolled back is the one of the upload itself.
        obtain ⟨e',he',hj⟩ := inserterOf_eq_some.mp (hL.owns adm.id rfl)
        cases he.symm.trans he'
        rw [hj] at hd
        rcases hd with hd | ⟨_,hd⟩ <;> cases ht.symm.trans hd
      rw [heq,AList.lookup_erase_ne hk]
      exact he
  | env g =>
    obtain ⟨sh,henv,rfl⟩ := Pool.step_env_eq_some.mp hstep
    have hins := inserterOf_eq_some.mpr ⟨entry,he,rfl⟩
    rw [← (outside_spec henv).1] at hins
    exact inserterOf_eq_some.mp hins

/-- A request gathers after a step if it did before, or has just begun. -/
lemma gathers_step (hstep : step D s e = some s') (h : Pool.Holds (Sane D) (Guarded D) s)
    (hg : Gathers s' i k) : Gathers s i k ∨
      ∃ b, e = .spawn b ∧ i = s.threads.length ∧
        (request D s.threads.length s.shared b).2 = .getting k := by
  cases e with
  | spawn b =>
    cases hstep
    rcases hg with hg | hg
    · rcases Pool.getElem?_concat_eq_some hg with hold | ⟨hn,hnew⟩
      · exact Or.inl (Or.inl hold)
      · exact Or.inr ⟨b,rfl,hn,hnew⟩
    · rcases accepted_step h (e := .spawn b) rfl hg with hold | ⟨he,-⟩
      · exact Or.inl (Or.inr hold)
      · cases he
  | act j a =>
    obtain ⟨t,sh,t',ht,hact,rfl⟩ := Pool.step_act_eq_some.mp hstep
    left
    by_cases hij : j = i
    · subst j
      rw [Gathers,List.getElem?_set_self (List.getElem?_eq_some_iff.mp ht).1] at hg
      have hL := h.thread i t ht
      obtain ⟨body,hsound⟩ := hL.sound
      have ht' : t' = .getting k ∨ ∃ reply, t' = .got k reply :=
        hg.imp Option.some.inj fun h => ⟨_,Option.some.inj h⟩
      left
      rw [ht,getting_of_get (acts_of_act hsound hact) ht']
    · simpa only [Gathers,List.getElem?_set_ne hij] using hg
  | env g =>
    obtain ⟨sh,-,rfl⟩ := Pool.step_env_eq_some.mp hstep
    exact Or.inl hg

theorem missing_step (h : Pool.Holds (Sane D) (Guarded D) s) (hm : Missing s)
    (hstep : step D s e = some s') (hread : ¬Rereads D s e) : Missing s' := by
  intro i k hg
  have hkeep : ∀ entry, s.shared.statusMap.lookup k = some entry →
      Downloads s entry.inserter k →
        ∃ e, s'.shared.statusMap.lookup k = some e ∧ Downloads s' e.inserter k := by
    intro entry he hd
    obtain ⟨entry',he',hins⟩ := inserted_step h hstep he hd
    exact ⟨entry',he',by rw [hins]; exact downloads_step hstep hd⟩
  rcases gathers_step hstep h hg with hold | ⟨b,rfl,rfl,hnew⟩
  · obtain ⟨entry,he,hd⟩ := hm i k hold
    exact hkeep entry he hd
  · cases b with
    | post id contentLength =>
      simp only [request] at hnew
      split at hnew <;> cases hnew
    | get id =>
      rcases getBlob_spec D s.threads.length s.shared.statusMap id with
        ⟨_,_,heq,-⟩ | ⟨k',m',hid,heq,hfound⟩
      · simp [request,heq] at hnew
      · simp only [request,heq,Handler.getting.injEq] at hnew
        subst hnew
        rcases hfound with ⟨entry,he,hlast,-⟩ | ⟨-,hm'⟩
        · -- The entry that was found pending is not an upload's.
          refine hkeep entry he ?_
          have hins := inserterOf_eq_some.mpr ⟨entry,he,rfl⟩
          have ht := List.getElem?_eq_getElem (h.shared.inserter_lt k' _ hins)
          rcases Handler.download_or_post ((h.thread _ _ ht).only k' hins) with hd | hpost
          · rcases hd with hd | ⟨reply,hd⟩
            · exact Or.inl (by rw [ht,hd])
            · exact Or.inr ⟨reply,by rw [ht,hd]⟩
          · exact absurd ⟨k',entry,_,hid,he,hlast,ht,hpost⟩ hread
        · cases hstep
          refine ⟨⟨s.threads.length,[.pending]⟩,?_,Or.inl ?_⟩
          · change (getBlob D s.threads.length s.shared.statusMap id).1.lookup k' = _
            rw [heq,hm',AList.lookup_insert]
          · simp [program,request,heq]

end Bridge

namespace Coordinator
open Pipeline
variable {c c' : Coordinator} {now : Instant} {i : Input} {eff : Effects}

/-- Blobs come with `NewBlob` and go when they are dropped. -/
theorem Moves.held_ids (h : Moves now c i c' eff) :
    (eff.dropped ++ c'.held).map LocalBlob.id =
      c.held.map LocalBlob.id ++ (newBlob? i).toList.map AdmittedBlob.id := by
  have hsame : ∀ {R : Hash → Chunk → Chunk → Prop} {o o' : Option LocalBlob},
      Option.Rel (LocalBlob.Evolves R) o o' → o'.toList.map LocalBlob.id = o.toList.map LocalBlob.id := by
    intro R o o' hrel
    cases hrel with
    | none => rfl
    | some hev =>
      obtain ⟨⟨chunks,rfl⟩,-⟩ := hev
      rfl
  cases h with
  | stay received announced keeps spawned input =>
    have hnone : newBlob? i = none := by
      unfold newBlob?
      split
      · exact absurd rfl (input.1 _)
      · rfl
    simp only [held,hnone,keeps.waiting,List.nil_append,List.map_append,hsame keeps.current,
      Option.toList_none,List.map_nil,List.append_nil]
  | wait head received announced front current waiting =>
    simp [held,front,current,waiting,newBlob?,localBlob]
  | @begin a c' head received announced front current waiting =>
    have hwhole : ∀ l : List LocalBlob, l.head?.toList ++ l.tail = l := by
      intro l
      cases l <;> rfl
    simp only [held,front,current,waiting,List.nil_append,hwhole]
    simp [newBlob?,localBlob]
  | archive suspended received announced front current waiting =>
    have hwhole : ∀ l : List LocalBlob,
        l.head?.toList.map LocalBlob.id ++ l.tail.map LocalBlob.id = l.map LocalBlob.id := by
      intro l
      cases l <;> rfl
    simp only [held,front,waiting,List.map_append,hsame current,hwhole]
    simp [newBlob?]
  | stop => simp [held,onStop,new,newBlob?]

end Coordinator

namespace Uploads
variable {s s' : Uploads} {e : Event} {dropped : List LocalBlob}

/-- The same for an event of the coordinator and its tasks. -/
theorem Steps.held_ids (h : Steps s e s' dropped) :
    (dropped ++ s'.coordinator.held).map LocalBlob.id =
      s.coordinator.held.map LocalBlob.id ++ (newBlob? e).toList.map AdmittedBlob.id := by
  cases h with
  | loop input direct moves => rw [moves.held_ids,inputOf_newBlob input]
  | _ => simp [newBlob?,releasePermit,Coordinator.held]

/-- What arrives on the admission channel makes the coordinator drop nothing. -/
theorem Steps.dropped_eq {msg : ToPipeline} (h : Steps s (.input (.admission msg)) s' dropped) :
    dropped = [] := by
  cases h with
  | loop input direct moves =>
    cases input
    cases moves <;> rfl

/-- Nor does it end the loop. -/
theorem Steps.not_stopped {msg : ToPipeline} (h : Steps s (.input (.admission msg)) s' dropped) :
    s.coordinator.point ≠ .stopped ↔ s'.coordinator.point ≠ .stopped := by
  cases h with
  | loop input direct moves =>
    cases input
    exact moves.not_stopped (by simp)

end Uploads

namespace Node
open BridgeState

/-- No id is held and gathered at once. -/
def Apart (s : Node) : Prop :=
  ∀ b ∈ s.engine.coordinator.held, b.id ∉ s.engine.coordinator.pipeline.remoteBlobs

/-- A download request finds the entry of an upload pending. -/
def Rereads (D : Deps) (s : Node) : Event → Prop
  | .request b => Bridge.Rereads D s.bridge (.spawn b)
  | _ => False

/-- A message to gather a blob that is held, or with a blob that is gathered. -/
def Conflicts (s : Node) : ToPipeline → Prop
  | .getBlob id => ∃ b ∈ s.engine.coordinator.held, b.id = id
  | .newBlob a => a.id ∈ s.engine.coordinator.pipeline.remoteBlobs

/-- The coordinator takes such a message in. -/
def Collides (s : Node) : Event → Prop
  | .recvAdmission => ∃ msg rest, s.admission = msg::rest ∧ s.Conflicts msg
  | _ => False

variable {D : Deps} {s s' : Node} {e : Event} {es : List Event}

/-- The loop drops its blobs when it ends. -/
lemma Linked.running_of_held (h : Linked D s) {b : LocalBlob}
    (hb : b ∈ s.engine.coordinator.held) : s.engine.coordinator.point ≠ .stopped := by
  intro hstop
  obtain ⟨hcur,hwait⟩ := h.stored.orderly.ended hstop
  simp [Coordinator.held,hcur,hwait] at hb

/-- What is gathered has the entry of a download, what is held that of an upload. -/
theorem Tracked.apart (h : Tracked D s) (hm : Bridge.Missing s.bridge) : Apart s := by
  intro b hb hremote
  obtain ⟨i,a,ha,hid⟩ := h.origin (List.mem_append_left _ hb)
  obtain ⟨j,hj⟩ := h.remote (h.linked.running_of_held hb) b.id hremote
  have ht := List.getElem?_eq_getElem (h.linked.holds.shared.enqueued_lt j _ hj)
  have hacc := ((h.linked.holds.thread j _ ht).getBlob b.id).mp hj
  rw [hacc] at ht
  obtain ⟨entry,he,hdown⟩ := hm j b.id (Or.inr ht)
  rw [← hid] at he hdown
  exact h.not_downloads ha he hdown

/-- Without a download that finds an upload's entry pending, everything that is to be
gathered is missing. -/
theorem Linked.missing_step (h : Linked D s) (hm : Bridge.Missing s.bridge)
    (hstep : Node.step D s e = some s') (hread : ¬Rereads D s e) : Bridge.Missing s'.bridge := by
  have hdoes := does_of_step hstep
  cases hdoes with
  | @bridge e be b hb event =>
    refine Bridge.missing_step h.holds hm hb ?_
    rcases event with ⟨r,rfl,rfl⟩ | ⟨i,a,-,rfl⟩ | ⟨-,rfl⟩
    · exact hread
    · exact fun hf => hf
    · exact fun hf => hf
  | enqueue _ _ _ _ hb => exact Bridge.missing_step h.holds hm hb (fun hf => hf)
  | update _ _ hb => exact Bridge.missing_step h.holds hm hb (fun hf => hf)
  | stopUpdates => exact hm
  | drive => exact hm

lemma apart_iff : Apart s ↔ ∀ id ∈ s.engine.coordinator.held.map LocalBlob.id,
    id ∉ s.engine.coordinator.pipeline.remoteBlobs := by
  simp [Apart]

/-- A message that is taken in is what can bring the two together. -/
theorem Linked.apart_recv (h : Linked D s) (hap : Apart s) {msg : ToPipeline}
    {rest : List ToPipeline} {u : Uploads} {dropped : List LocalBlob} (head : s.admission = msg::rest)
    (steps : Uploads.Steps s.engine (.input (.admission msg)) u dropped) :
    (∀ id ∈ u.coordinator.held.map LocalBlob.id, id ∉ u.coordinator.pipeline.remoteBlobs) ↔
      ¬Collides s .recvAdmission := by
  have hrun : s.engine.coordinator.point ≠ .stopped := by
    intro hstop
    have hnil := h.closed hstop
    rw [head] at hnil
    cases hnil
  have hids := steps.held_ids
  rw [steps.dropped_eq,List.nil_append] at hids
  have hremote : ∀ k, k ∈ u.coordinator.pipeline.remoteBlobs ↔
      k ∈ s.engine.coordinator.pipeline.remoteBlobs ∨
        Uploads.Event.input (.admission msg) = .input (.admission (.getBlob k)) := fun k =>
    steps.mem_remoteBlobs (steps.not_stopped.mp hrun)
  rw [apart_iff] at hap
  have hcollides : Collides s .recvAdmission ↔ s.Conflicts msg := by
    constructor
    · rintro ⟨m,r,hm,hcol⟩
      cases head.symm.trans hm
      exact hcol
    · exact fun hcol => ⟨msg,rest,head,hcol⟩
  rw [hcollides,hids]
  cases msg with
  | getBlob id =>
    simp only [Conflicts,Uploads.newBlob?,Coordinator.newBlob?,Option.toList_none,List.map_nil,
      List.append_nil,hremote,Uploads.Event.input.injEq,Input.admission.injEq,
      ToPipeline.getBlob.injEq,not_or,not_exists,not_and]
    constructor
    · intro hall b hb hid
      exact (hall b.id (List.mem_map_of_mem hb)).2 hid.symm
    · intro hnot k hk
      refine ⟨hap k hk,?_⟩
      rintro rfl
      obtain ⟨b,hb,hid⟩ := List.mem_map.mp hk
      exact hnot b hb hid
  | newBlob a =>
    simp only [Conflicts,Uploads.newBlob?,Coordinator.newBlob?,Option.toList_some,List.map_singleton,
      List.mem_append,List.mem_singleton,hremote,Uploads.Event.input.injEq,Input.admission.injEq,
      reduceCtorEq,or_false]
    constructor
    · exact fun hall => hall a.id (Or.inr rfl)
    · rintro hnot k (hk | rfl)
      · exact hap k hk
      · exact hnot

/-- One step keeps the ids apart exactly when it takes no such message in. -/
theorem Linked.apart_step_iff (h : Linked D s) (hap : Apart s)
    (hstep : Node.step D s e = some s') : Apart s' ↔ ¬Collides s e := by
  have h' := h.step hstep
  have hdoes := does_of_step hstep
  cases hdoes with
  | @bridge e be b hb event =>
    refine iff_of_true hap ?_
    rcases event with ⟨r,rfl,-⟩ | ⟨i,a,rfl,-⟩ | ⟨rfl,-⟩ <;> exact fun hf => hf
  | enqueue => exact iff_of_true hap (fun hf => hf)
  | update => exact iff_of_true hap (fun hf => hf)
  | stopUpdates => exact iff_of_true hap (fun hf => hf)
  | @drive e ue u dropped admission updates event steps source target =>
    -- Without a message no blob comes, and no download is scheduled.
    have hquiet : (∀ msg, ue ≠ .input (.admission msg)) →
        ∀ b ∈ u.coordinator.held, b.id ∉ u.coordinator.pipeline.remoteBlobs := by
      intro hne b hb hremote
      have hrun : u.coordinator.point ≠ .stopped := h'.running_of_held hb
      have hnone : Uploads.newBlob? ue = none := by
        rw [Option.eq_none_iff_forall_ne_some]
        exact fun a ha => hne _ (newBlob?_eq_some ha)
      have hids := steps.held_ids
      rw [hnone,Option.toList_none,List.map_nil,List.append_nil] at hids
      have hmem : b.id ∈ s.engine.coordinator.held.map LocalBlob.id := by
        rw [← hids]
        exact List.mem_map_of_mem (List.mem_append_right _ hb)
      rcases (steps.mem_remoteBlobs hrun).mp hremote with hold | hget
      · exact apart_iff.mp hap b.id hmem hold
      · exact hne _ hget
    rcases event with ⟨rfl,hne,-⟩ | ⟨rfl,msg,rfl⟩ | ⟨rfl,rfl⟩
    · exact iff_of_true (hquiet hne) (fun hf => hf)
    · rcases source with ⟨m,hm,head⟩ | ⟨hne,-⟩
      · cases hm
        exact apart_iff.trans (h.apart_recv hap head steps)
      · exact absurd rfl (hne msg)
    · exact iff_of_true (hquiet (by simp)) (fun hf => hf)

/-- With ids as the library renders them: in a run in which no download request finds the
pending entry of an upload, no id is ever held and gathered at once; and in any run this
holds after every step exactly when the coordinator is never told to gather a blob that it
holds, nor given one that it gathers. -/
theorem apart_of_not_rereads (D : Deps) {es : List Event} (hcan : ∀ e ∈ es, e.Canonical D) :
    (Transition.Along (step D) (fun s e _ => ¬Rereads D s e) init es →
      Transition.Along (step D) (fun _ _ s' => Apart s') init es) ∧
    (Transition.Along (step D) (fun _ _ s' => Apart s') init es ↔
      Transition.Along (step D) (fun s e _ => ¬Collides s e) init es) := by
  have hall : Transition.Along (step D) (fun _ e _ => e.Canonical D) init es :=
    Transition.along_of_forall init hcan
  have hinit : Apart init := by simp [Apart,init,Uploads.init,Coordinator.init,Coordinator.held,
    Pipeline.new]
  refine ⟨fun hread => ?_,⟨fun hap => ?_,fun hcol => ?_⟩⟩
  · refine Transition.Along.imp (P := fun s => Tracked D s ∧ Bridge.Missing s.bridge) ?_ ?_
      ⟨tracked_init D,by simp [Bridge.Missing,Bridge.Gathers,init,Bridge.init]⟩ (hall.and hread)
    · rintro s e s' hstep ⟨hcan,hread⟩ ⟨h,hm⟩
      exact ⟨h.step hcan hstep,h.linked.missing_step hm hstep hread⟩
    · rintro s e s' hstep ⟨h,hm⟩ ⟨hcan,hread⟩
      exact (h.step hcan hstep).apart (h.linked.missing_step hm hstep hread)
  · refine Transition.Along.imp (P := fun s => Linked D s ∧ Apart s) ?_ ?_ ⟨linked_init D,hinit⟩ hap
    · rintro s e s' hstep hap' ⟨h,-⟩
      exact ⟨h.step hstep,hap'⟩
    · rintro s e s' hstep ⟨h,hap⟩ hap'
      exact (h.apart_step_iff hap hstep).mp hap'
  · refine Transition.Along.imp (P := fun s => Linked D s ∧ Apart s) ?_ ?_ ⟨linked_init D,hinit⟩ hcol
    · rintro s e s' hstep hcol ⟨h,hap⟩
      exact ⟨h.step hstep,(h.apart_step_iff hap hstep).mpr hcol⟩
    · rintro s e s' hstep ⟨h,hap⟩ hcol
      exact (h.apart_step_iff hap hstep).mpr hcol

/-- An upload and a download of different ids, both taken in. -/
def separate : List Event :=
  [.request (.post blobId (some [49])),.act 0 .acquire,.act 0 (.frame [7]),.act 0 .hashStart,
    .act 0 .hashDone,.act 0 .bodyEnd,.act 0 .enqueue,.act 0 .commit,.request (.get fileId),
    .act 1 .enqueue,.recvAdmission,.recvAdmission]

theorem apart_of_not_rereads_separate :
    (Transition.run (step (Deps.sample 1 Nat.one_pos)) init separate).isSome ∧
    Transition.Along (step (Deps.sample 1 Nat.one_pos)) (fun _ _ s' => Apart s') init separate := by
  refine ⟨by decide,(apart_of_not_rereads _ (by decide)).1 ?_⟩
  have hfirst : (Transition.run (step (Deps.sample 1 Nat.one_pos)) init (separate.take 8)).map
      (fun s => s.bridge.shared.statusMap.lookup fileId) = some none := by decide
  obtain ⟨t,hrun,hnone⟩ := Option.map_eq_some_iff.mp hfirst
  have hsplit : separate = separate.take 8 ++ separate.drop 8 := rfl
  rw [hsplit,Transition.along_append hrun]
  refine ⟨?_,fun _ _ => ⟨?_,fun _ _ => ⟨id,fun _ _ => ⟨id,fun _ _ => ⟨id,trivial⟩⟩⟩⟩⟩
  · exact fun _ _ => ⟨id,fun _ _ => ⟨id,fun _ _ => ⟨id,fun _ _ => ⟨id,fun _ _ => ⟨id,fun _ _ =>
      ⟨id,fun _ _ => ⟨id,fun _ _ => ⟨id,trivial⟩⟩⟩⟩⟩⟩⟩⟩
  · rintro ⟨k,entry,u,hk,he,-⟩
    obtain rfl : fileId = k := Option.some.inj hk
    rw [hnone] at he
    cases he

/-- A download of the blob that is being uploaded, both taken in. -/
def gathered : List Event :=
  [.request (.post blobId (some [49])),.act 0 .acquire,.act 0 (.frame [7]),.act 0 .hashStart,
    .act 0 .hashDone,.act 0 .bodyEnd,.act 0 .enqueue,.act 0 .commit,.recvAdmission,
    .request (.get blobId),.act 1 .enqueue,.recvAdmission]

/-- The current blob is scheduled for gathering. -/
theorem gathered_not_apart : ∃ s b,
    Transition.run (step (Deps.sample 1 Nat.one_pos)) init gathered = some s ∧
    (∀ e ∈ gathered, e.Canonical (Deps.sample 1 Nat.one_pos)) ∧
    s.engine.coordinator.pipeline.currentBlob = some b ∧ b.id = blobId ∧
    blobId ∈ s.engine.coordinator.pipeline.remoteBlobs ∧ ¬Apart s := by
  have hlast : (Transition.run (step (Deps.sample 1 Nat.one_pos)) init gathered).map (fun s =>
      (s.engine.coordinator.pipeline.currentBlob.map LocalBlob.id,
        s.engine.coordinator.pipeline.remoteBlobs)) = some (some blobId,{blobId}) := by decide
  obtain ⟨s,hrun,hparts⟩ := Option.map_eq_some_iff.mp hlast
  obtain ⟨hcur,hremote⟩ := Prod.mk.inj hparts
  obtain ⟨b,hb,hid⟩ := Option.map_eq_some_iff.mp hcur
  have hmem : blobId ∈ s.engine.coordinator.pipeline.remoteBlobs := by
    rw [hremote]
    exact Finset.mem_singleton_self _
  refine ⟨s,b,hrun,by decide,hb,hid,hmem,fun hap => hap b ?_ (by rw [hid]; exact hmem)⟩
  simp [Coordinator.held,hb]

end Node

end Gozara
