import Gozara.Coordinator.Records
import Gozara.Node.Links

/-!
# What is enqueued arrives, what is announced is reported

While the coordinator runs, a message that a handler enqueued is on the admission channel or
has been taken in; while the update task runs, an announced blob's status is on the bridge
channel or in the status map. Both need that paths spell ids as the library renders them.
-/
namespace Gozara

namespace Coordinator
variable {c c' : Coordinator} {now : Instant} {i : Input} {eff : Effects}

/-- The download that an input schedules. -/
def getBlob? : Input → Option String
  | .admission (.getBlob id) => some id
  | _ => none

/-- Downloads are scheduled by `GetBlob` and forgotten with the loop. -/
theorem remoteBlobs_of_exec (h : c.exec now i = some (c',eff)) (hi : i ≠ .stop) :
    c'.pipeline.remoteBlobs = match getBlob? i with
      | some id => insert id c.pipeline.remoteBlobs
      | none => c.pipeline.remoteBlobs := by
  rw [(sameRecords_of_exec h).remoteBlobs]
  cases i with
  | stop => exact absurd rfl hi
  | handler msg => cases msg <;> rfl
  | admission msg => cases msg <;> rfl
  | timerStale | timerAssign | updateChunkStatus | swarmSend | bridgeSend | rehash => rfl

end Coordinator

namespace Uploads
variable {s s' : Uploads} {e : Event} {dropped : List LocalBlob} {id : String}

/-- The downloads scheduled after an event of the coordinator that leaves it running. -/
theorem Steps.mem_remoteBlobs (h : Steps s e s' dropped) (hrun : s'.coordinator.point ≠ .stopped) :
    id ∈ s'.coordinator.pipeline.remoteBlobs ↔
      id ∈ s.coordinator.pipeline.remoteBlobs ∨ e = .input (.admission (.getBlob id)) := by
  cases h with
  | @loop e i c eff input direct moves exec =>
    have hi : i ≠ .stop := by
      rintro rfl
      cases moves with
      | stay _ _ _ _ input => exact input.2.2 rfl
      | stop => exact hrun rfl
    rw [Coordinator.remoteBlobs_of_exec exec hi]
    have hget : Coordinator.getBlob? i = some id ↔ e = .input (.admission (.getBlob id)) := by
      constructor
      · intro hsome
        unfold Coordinator.getBlob? at hsome
        split at hsome
        · cases hsome
          exact eq_input_of_inputOf input (by simp)
        · cases hsome
      · rintro rfl
        cases input
        rfl
    rw [← hget]
    cases hcase : Coordinator.getBlob? i with
    | none => simp
    | some id' => simp [eq_comm,or_comm]
  | _ => simp [releasePermit]

/-- The loop does not start again. -/
lemma Steps.running (h : Steps s e s' dropped) (hrun : s'.coordinator.point ≠ .stopped) :
    s.coordinator.point ≠ .stopped := by
  cases h with
  | @loop e i c eff input direct moves exec =>
    by_cases hi : i = .stop
    · subst hi
      cases moves with
      | stay _ _ _ _ input => exact absurd rfl input.2.2
      | stop => exact absurd rfl hrun
    · exact (moves.not_stopped hi).mpr hrun
  | _ => exact hrun

end Uploads

namespace Handler
variable {D : Deps} {i : ℕ} {s s' : BridgeState} {t t' : Handler} {a : Action}

/-- The id of an upload and the key it was admitted under stay with its handler. -/
theorem post_act (h : Acts D i s t a s' t') {id : String} {adm' : Admission}
    (hpost : t'.post = some (id,adm')) : ∃ adm, t.post = some (id,adm) ∧ adm.id = adm'.id := by
  cases h with
  | acquired => exact ⟨adm',hpost,rfl⟩
  | refused => exact ⟨adm',hpost,rfl⟩
  | @proceed t h a u k upload permits sound goesOn =>
    have hup : t.post = some (u.id,u.admission) := (post_of_upload upload).1
    have hup' : t'.post = some (u.id,u.admission) := by
      rcases goesOn with hc | ⟨chunk,next,rfl⟩
      · exact hc.live_post.1
      · rfl
    rw [hup'] at hpost
    cases hpost
    exact ⟨_,hup,rfl⟩
  | leave post =>
    cases hpost
    exact ⟨_,post,rfl⟩
  | sent => exact ⟨adm',hpost,rfl⟩
  | commit =>
    cases hpost
    exact ⟨_,rfl,rfl⟩
  | unwind =>
    cases hpost
    exact ⟨_,rfl,rfl⟩
  | accepted => cases hpost
  | given => cases hpost

end Handler

/-- The id in the path of a request. -/
def Request.id : Request → String
  | .post id _ => id
  | .get id => id

namespace Bridge
open BridgeState
variable {D : Deps} {s s' : Bridge} {e : Event} {i : ℕ}

/-- Uploads are admitted under the id of their path. -/
def Named (s : Bridge) : Prop :=
  ∀ (i : ℕ) t id adm, s.threads[i]? = some t → t.post = some (id,adm) → adm.id = id

/-- A request, if any, spells a valid id as the library renders it. -/
def Event.Canonical (D : Deps) (e : Event) : Prop :=
  ∀ r, e = .spawn r → ∀ k, D.magicTypeId r.id = some k → k = r.id

theorem named_step (h : Pool.Holds (Sane D) (Guarded D) s) (hn : Named s)
    (hcan : Event.Canonical D e) (hstep : step D s e = some s') : Named s' := by
  intro i t id adm ht hpost
  cases e with
  | spawn b =>
    cases hstep
    rcases Pool.getElem?_concat_eq_some ht with ht | ⟨rfl,rfl⟩
    · exact hn i t id adm ht hpost
    · have hid := (request_spec h.shared b).2.1.canonical id adm hpost
      have hpath : id = b.id := by
        cases b with
        | post id' contentLength =>
          simp only [program,request] at hpost
          split at hpost
          · cases hpost
          · rename_i m u hnew
            obtain ⟨_,-,-,-,huid,-⟩ := newBlob_eq_ok hnew
            cases hpost
            exact huid
        | get id' =>
          rcases getBlob_spec D s.threads.length s.shared.statusMap id' with
            ⟨_,_,heq,-⟩ | ⟨_,_,-,heq,-⟩ <;> simp [program,request,heq,Handler.post] at hpost
      rw [hpath] at hid ⊢
      exact hcan b rfl adm.id hid
  | act j a =>
    obtain ⟨u,sh,u',hu,hact,rfl⟩ := Pool.step_act_eq_some.mp hstep
    have hj : j < s.threads.length := (List.getElem?_eq_some_iff.mp hu).1
    by_cases hij : i = j
    · subst i
      rw [List.getElem?_set_self hj] at ht
      cases ht
      obtain ⟨body,hsound⟩ := (h.thread j u hu).sound
      obtain ⟨adm₀,hpost₀,hid⟩ := Handler.post_act (acts_of_act hsound hact) hpost
      rw [← hid]
      exact hn j u id adm₀ hu hpost₀
    · rw [List.getElem?_set_ne (Ne.symm hij)] at ht
      exact hn i t id adm ht hpost
  | env g =>
    obtain ⟨sh,-,rfl⟩ := Pool.step_env_eq_some.mp hstep
    exact hn i t id adm ht hpost

/-- Nothing but an update changes the entry of an upload that has sent its message. -/
theorem lookup_sent (h : Pool.Holds (Sane D) (Guarded D) s) (hstep : step D s e = some s')
    (he : ∀ msg, e ≠ .env (.update msg)) {t : Handler} {id : String} {adm : Admission}
    (ht : s.threads[i]? = some t) (hsent : t.Sent) (hpost : t.post = some (id,adm)) :
    s'.shared.statusMap.lookup adm.id = s.shared.statusMap.lookup adm.id := by
  have hL := h.thread i t ht
  obtain ⟨entry,hentry,hi⟩ := inserterOf_eq_some.mp
    (hL.owns adm.id (Handler.guard_of_sent hsent hpost))
  rw [hentry]
  cases e with
  | spawn b => exact lookup_request h hstep hentry
  | act j a =>
    by_cases hij : i = j
    · subst j
      obtain ⟨u,sh,u',hu,hact,rfl⟩ := Pool.step_act_eq_some.mp hstep
      cases ht.symm.trans hu
      obtain ⟨body,hsound⟩ := hL.sound
      rcases statusMap_act hL (acts_of_act hsound hact) with heq | ⟨-,_,_,_,rfl,-⟩
      · rw [heq,hentry]
      · exact hsent.elim
    · exact lookup_act h hstep hentry (by rw [hi]; exact hij)
  | env g =>
    obtain ⟨sh,henv,rfl⟩ := Pool.step_env_eq_some.mp hstep
    cases g with
    | update msg => exact absurd rfl (he msg)
    | orphanDone =>
      simp only [program,outside] at henv
      split_ifs at henv
      cases henv
      exact hentry
    | release permits =>
      cases henv
      exact hentry

end Bridge

namespace Node
open BridgeState

/-- The coordinator has taken the message in. -/
def Taken (c : Coordinator) : ToPipeline → Prop
  | .newBlob a => a ∈ c.received
  | .getBlob id => id ∈ c.pipeline.remoteBlobs

/-- A message is taken in when it is received, and stays so while the loop runs. -/
lemma taken_iff {u u' : Uploads} {ue : Uploads.Event} {dropped : List LocalBlob} {msg : ToPipeline}
    (steps : Uploads.Steps u ue u' dropped) (hrun : u'.coordinator.point ≠ .stopped) :
    Taken u'.coordinator msg ↔ Taken u.coordinator msg ∨ ue = .input (.admission msg) := by
  cases msg with
  | getBlob id => exact steps.mem_remoteBlobs hrun
  | newBlob a =>
    have hnew : Uploads.newBlob? ue = some a ↔ ue = .input (.admission (.newBlob a)) :=
      ⟨newBlob?_eq_some,fun h => by rw [h]; rfl⟩
    simp only [Taken,steps.received_eq,List.mem_append,Option.mem_toList,hnew]

structure Tracked (D : Deps) (s : Node) : Prop where
  linked : Linked D s
  named : Bridge.Named s.bridge
  delivered : s.engine.coordinator.point ≠ .stopped → ∀ i msg,
    (i,msg) ∈ s.bridge.shared.enqueued → msg ∈ s.admission ∨ Taken s.engine.coordinator msg
  remote : s.engine.coordinator.point ≠ .stopped →
    ∀ id ∈ s.engine.coordinator.pipeline.remoteBlobs, ∃ i, (i,.getBlob id) ∈ s.bridge.shared.enqueued
  reported : s.updating = true → ∀ b ∈ s.engine.coordinator.announced,
    .updateStatus b.id .finalized ∈ s.updates ∨
      ∃ e, s.bridge.shared.statusMap.lookup b.id = some e ∧ .finalized ∈ e.history
  histories : ∀ k e, s.bridge.shared.statusMap.lookup k = some e →
    e.history = [.pending] ∨ e.history.getLast? = some .finalized

/-- A request, if any, spells a valid id as the library renders it. -/
def Event.Canonical (D : Deps) (e : Event) : Prop :=
  ∀ r, e = .request r → ∀ k, D.magicTypeId r.id = some k → k = r.id

instance (D : Deps) : ∀ e : Event, Decidable (e.Canonical D)
  | .request r => decidable_of_iff (∀ k ∈ D.magicTypeId r.id, k = r.id)
      ⟨fun h r' hr k hk => by cases hr; exact h k hk,fun h k hk => h r rfl k hk⟩
  | .act _ _ | .orphanDone | .recvAdmission | .sendBridge | .recvUpdate | .stopUpdates
  | .engine _ => isTrue fun _ hr => by cases hr

variable {D : Deps} {s s' : Node} {e : Event} {i : ℕ}

theorem tracked_init (D : Deps) : Tracked D init where
  linked := linked_init D
  named := by simp [Bridge.Named,init,Bridge.init]
  delivered := by simp [init,Bridge.init,new]
  remote := by simp [init,Uploads.init,Coordinator.init,Pipeline.new]
  reported := by simp [init,Uploads.init,Coordinator.init]
  histories := by simp [init,Bridge.init,new]

/-- The upload that sent a blob has its entry under the id of the blob. -/
theorem Tracked.owner (h : Tracked D s) {a : AdmittedBlob}
    (ha : (i,.newBlob a) ∈ s.bridge.shared.enqueued) :
    ∃ t adm e, s.bridge.threads[i]? = some t ∧ t.Sent ∧ t.post = some (a.id,adm) ∧ adm.id = a.id ∧
      s.bridge.shared.statusMap.lookup a.id = some e ∧ e.inserter = i := by
  obtain ⟨t,adm,-,ht,hsent,hpost,-,-⟩ := h.linked.newBlob ha
  have hid := h.named i t a.id adm ht hpost
  obtain ⟨e,he,hi⟩ := inserterOf_eq_some.mp
    ((h.linked.holds.thread i t ht).owns adm.id (Handler.guard_of_sent hsent hpost))
  exact ⟨t,adm,e,ht,hsent,hpost,hid,by rw [← hid]; exact he,hi⟩

/-- The upload behind a blob of the coordinator. -/
theorem Tracked.origin (h : Tracked D s) {b : LocalBlob}
    (hb : b ∈ s.engine.coordinator.held ++ s.engine.coordinator.announced) :
    ∃ i a, (i,.newBlob a) ∈ s.bridge.shared.enqueued ∧ a.id = b.id := by
  obtain ⟨a,ha,hab⟩ := h.linked.stored.orderly.origin hb
  obtain ⟨i,hi⟩ := h.linked.origin a ha
  exact ⟨i,a,hi,congrArg Manifest.id hab⟩

/-- What a step of the bridge without an update keeps. -/
lemma Tracked.quiet (h : Tracked D s) {be : Bridge.Event} {b : Bridge}
    (hb : Bridge.step D s.bridge be = some b) (hne : ∀ msg, be ≠ .env (.update msg)) :
    (∀ l ∈ s.engine.coordinator.announced,
      b.shared.statusMap.lookup l.id = s.bridge.shared.statusMap.lookup l.id) ∧
    ∀ k e, b.shared.statusMap.lookup k = some e →
      e.history = [.pending] ∨ e.history.getLast? = some .finalized := by
  constructor
  · intro l hl
    obtain ⟨i,a,ha,hid⟩ := h.origin (List.mem_append_right _ hl)
    obtain ⟨t,adm,e,ht,hsent,hpost,hkey,-⟩ := h.owner ha
    have hkept := Bridge.lookup_sent h.linked.holds hb hne ht hsent hpost
    rwa [hkey,hid] at hkept
  · intro k e he
    rcases Bridge.lookup_of_step h.linked.holds hb hne he with hold | hnew
    · exact h.histories k e hold
    · exact Or.inl hnew

/-- What an update keeps, and that it arrives. -/
lemma Tracked.update (h : Tracked D s) {msg : ToBridge} {rest : List ToBridge} {b : Bridge}
    (head : s.updates = msg::rest) (hb : Bridge.step D s.bridge (.env (.update msg)) = some b) :
    (s.updating = true → ∀ l ∈ s.engine.coordinator.announced,
      .updateStatus l.id .finalized ∈ rest ∨
        ∃ e, b.shared.statusMap.lookup l.id = some e ∧ .finalized ∈ e.history) ∧
    ∀ k e, b.shared.statusMap.lookup k = some e →
      e.history = [.pending] ∨ e.history.getLast? = some .finalized := by
  obtain ⟨l₀,hl₀,rfl⟩ := h.linked.updates msg (by rw [head]; exact List.mem_cons_self)
  obtain ⟨i,a,ha,hid⟩ := h.origin (List.mem_append_right _ hl₀)
  obtain ⟨t,adm,e₀,ht,-,-,-,he₀,-⟩ := h.owner ha
  rw [hid] at he₀
  obtain ⟨sh,henv,rfl⟩ := Pool.step_env_eq_some.mp hb
  cases henv
  have hmap : s.bridge.shared.statusMap.update (.updateStatus l₀.id .finalized) =
      s.bridge.shared.statusMap.insert l₀.id { e₀ with history := e₀.history ++ [.finalized] } := by
    simp only [StatusMap.update,he₀]
  simp only [hmap]
  constructor
  · intro hup l hl
    by_cases hll : l.id = l₀.id
    · right
      rw [hll,AList.lookup_insert]
      exact ⟨_,rfl,by simp⟩
    · rcases h.reported hup l hl with hq | ⟨e,he,hfin⟩
      · rw [head] at hq
        rcases List.mem_cons.mp hq with heq | hq
        · exact absurd (ToBridge.updateStatus.inj heq).1 hll
        · exact Or.inl hq
      · rw [AList.lookup_insert_ne hll]
        exact Or.inr ⟨e,he,hfin⟩
  · intro k e he
    by_cases hk : k = l₀.id
    · rw [hk,AList.lookup_insert] at he
      cases he
      right
      simp
    · rw [AList.lookup_insert_ne hk] at he
      exact h.histories k e he

theorem Tracked.step (h : Tracked D s) (hcan : e.Canonical D) (hstep : Node.step D s e = some s') :
    Tracked D s' := by
  have hlinked := h.linked.step hstep
  have hdoes := does_of_step hstep
  cases hdoes with
  | @bridge e be b hb event unsent =>
    have hbe : Bridge.Event.Canonical D be := by
      rintro r rfl
      rcases event with ⟨r',rfl,hr⟩ | ⟨i,a,-,ha⟩ | ⟨-,ho⟩
      · cases hr
        exact hcan r rfl
      · cases ha
      · cases ho
    have hlog := Bridge.enqueued_quiet h.linked.holds hb unsent
    obtain ⟨hkeep,hhist⟩ := h.quiet hb (ne_update event)
    refine ⟨hlinked,Bridge.named_step h.linked.holds h.named hbe hb,?_,?_,?_,hhist⟩
    · rw [hlog]
      exact h.delivered
    · rw [hlog]
      exact h.remote
    · intro hup l hl
      rw [hkeep l hl]
      exact h.reported hup l hl
  | @enqueue i t msg b running room handler outbox hb =>
    have hlog := Bridge.enqueued_send h.linked.holds handler outbox hb
    obtain ⟨hkeep,hhist⟩ := h.quiet hb (by simp)
    refine ⟨hlinked,Bridge.named_step h.linked.holds h.named (by rintro r ⟨⟩) hb,?_,?_,?_,hhist⟩
    · intro hrun j m hm
      rw [hlog] at hm
      rcases List.mem_append.mp hm with hm | hm
      · rcases h.delivered hrun j m hm with hq | htaken
        · exact Or.inl (List.mem_append_left _ hq)
        · exact Or.inr htaken
      · cases List.mem_singleton.mp hm
        exact Or.inl (List.mem_append_right _ List.mem_cons_self)
    · intro hrun id hid
      obtain ⟨j,hj⟩ := h.remote hrun id hid
      exact ⟨j,by rw [hlog]; exact List.mem_append_left _ hj⟩
    · intro hup l hl
      rw [hkeep l hl]
      exact h.reported hup l hl
  | @update msg rest b updating head hb =>
    have hlog := Bridge.enqueued_quiet h.linked.holds hb (by simp)
    obtain ⟨hreported,hhist⟩ := h.update head hb
    refine ⟨hlinked,Bridge.named_step h.linked.holds h.named (by rintro r ⟨⟩) hb,?_,?_,hreported,
      hhist⟩
    · rw [hlog]
      exact h.delivered
    · rw [hlog]
      exact h.remote
  | stopUpdates =>
    exact ⟨hlinked,h.named,h.delivered,h.remote,by simp,h.histories⟩
  | @drive e ue u dropped admission updates event steps source target =>
    refine ⟨hlinked,h.named,fun hrun j m hm => ?_,fun hrun id hid => ?_,fun hup l hl => ?_,
      h.histories⟩
    · simp only [if_neg hrun]
      rcases h.delivered (steps.running hrun) j m hm with hq | htaken
      · rcases source with ⟨m₀,rfl,heq⟩ | ⟨-,rfl⟩
        · rw [heq] at hq
          rcases List.mem_cons.mp hq with rfl | hq
          · exact Or.inr ((taken_iff steps hrun).mpr (Or.inr rfl))
          · exact Or.inl hq
        · exact Or.inl hq
      · exact Or.inr ((taken_iff steps hrun).mpr (Or.inl htaken))
    · rcases (steps.mem_remoteBlobs hrun).mp hid with hold | rfl
      · exact h.remote (steps.running hrun) id hold
      · rcases source with ⟨m₀,hm₀,heq⟩ | ⟨hne,-⟩
        · cases hm₀
          exact h.linked.queued _ (by rw [heq]; exact List.mem_cons_self)
        · exact absurd rfl (hne _)
    · change l ∈ u.coordinator.announced at hl
      rcases h.linked.announced_drive steps target with ⟨b,hann,rfl⟩ | ⟨hann,rfl⟩
      · rw [hann] at hl
        simp only [if_pos hup]
        rcases List.mem_append.mp hl with hl | hl
        · exact (h.reported hup l hl).imp_left (List.mem_append_left _)
        · rw [List.mem_singleton.mp hl]
          exact Or.inl (List.mem_append_right _ List.mem_cons_self)
      · rw [hann] at hl
        exact h.reported hup l hl

end Node

end Gozara
