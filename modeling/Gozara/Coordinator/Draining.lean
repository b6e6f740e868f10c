import Gozara.Coordinator.Progress

/-!
# No state of the coordinator is a dead end

From every state in which the loop runs, all blobs that it has taken in can be announced:
sends end, reports are handled, uploads under way time out, a peer issues a permit, and
then chunk after chunk is pushed until none is missing.
-/
namespace Gozara.Uploads
open Coordinator Pipeline

variable {s s' : Uploads} {e : Event} {dropped : List LocalBlob}

/-- The chunks in flight were assigned in the past. -/
def Dated (s : Uploads) : Prop :=
  ∀ h d peer, s.chunk? h = some d → d.status.status = .inflight peer → d.status.stamp ≤ s.clock

/-- What holds in every state of a run. -/
structure Regular (s : Uploads) : Prop where
  tidy : Tidy s
  balance : PermitsBalance s
  dated : Dated s

lemma regular_init : Regular init :=
  ⟨attempted_init.tidy,rfl,fun h d _ hd => by simp [chunk?,init,Coordinator.init,Pipeline.new] at hd⟩

lemma dated_step (htidy : Tidy s) (h : Dated s) (hstep : Steps s e s' dropped) : Dated s' := by
  cases hin : s.inputOf e with
  | none =>
    have hquiet := hstep.quiet hin
    intro k d peer hd hst
    rw [chunk?,hquiet.current] at hd
    exact (h k d peer hd hst).trans hquiet.clock
  | some i₀ =>
    cases hstep with
    | @loop e i c eff input direct moves exec =>
      intro k d' peer hchunk hst
      obtain ⟨b',hb',hd'⟩ := chunk?_eq_some.mp hchunk
      cases moves with
      | stay received announced keeps =>
        have hrel := keeps.current
        rw [hb'] at hrel
        obtain ⟨b,hb,hev⟩ := HashMap.exists_of_rel_some' hrel
        obtain ⟨d,hd,rfl | ⟨-,peer,rfl⟩⟩ := hev.lookup_some' hd'
        · by_cases hi : ∃ st, i = .updateChunkStatus k st
          · obtain ⟨st,rfl⟩ := hi
            simp [updated]
          · push Not at hi
            rw [updated_of_ne hi] at hst ⊢
            exact h k d peer (chunk?_eq_some.mpr ⟨b,hb,hd⟩) hst
        · exact le_rfl
      | wait head received announced front current =>
        cases current.symm.trans hb'
        exact h k d' peer (chunk?_eq_some.mpr ⟨_,front,hd'⟩) hst
      | @begin a c head received announced front current =>
        have hpending : d'.status.status = .pending := by
          rcases List.mem_append.mp (List.mem_of_mem_head? (current.symm.trans hb')) with hb | hb
          · exact htidy.waiting b' hb k d' hd'
          · cases List.mem_singleton.mp hb
            rw [localBlob_pending hd']
        rw [hst] at hpending
        cases hpending
      | archive suspended received announced front current =>
        rw [hb'] at current
        obtain ⟨b,hb,hev⟩ := HashMap.exists_of_rel_some' current
        obtain ⟨d,hd,rfl | ⟨-,peer,rfl⟩⟩ := hev.lookup_some' hd'
        · have hpending := htidy.waiting b (List.mem_of_mem_head? hb) k d' hd
          rw [hst] at hpending
          cases hpending
        · exact le_rfl
      | stop => cases hb'
    | _ => cases hin

theorem Regular.step (h : Regular s) (hstep : Steps s e s' dropped) : Regular s' :=
  ⟨tidy_step h.tidy hstep,hstep.permitsBalance h.balance,dated_step h.tidy h.dated hstep⟩

/-- A state with the loop running, the blobs that it has received and the time. -/
structure Going (as : List AdmittedBlob) (now : Instant) (s : Uploads) : Prop where
  regular : Regular s
  stored : Stored s
  received : s.coordinator.received = as
  running : s.coordinator.point ≠ .stopped
  clock : s.clock = now

variable {as : List AdmittedBlob} {now : Instant}

/-- Only `stop` ends the loop. -/
lemma Steps.keeps_running (h : Steps s e s' dropped) (hstop : e ≠ .input .stop)
    (hs : s.coordinator.point ≠ .stopped) : s'.coordinator.point ≠ .stopped := by
  cases h with
  | @loop e i c eff input direct moves exec =>
    have hi : i ≠ .stop := by
      rintro rfl
      exact hstop (eq_input_of_inputOf input (by simp))
    exact (moves.not_stopped hi).mp hs
  | _ => exact hs

/-- An event that brings no blob, does not end the loop and takes no time. -/
lemma Going.keep (h : Going as now s) (hnone : newBlob? e = none) (hstop : e ≠ .input .stop)
    (htick : ∀ n, e ≠ .tick n) (hstep : s.step e = some s') : Going as now s' := by
  obtain ⟨dropped,hsteps⟩ := steps_of_step hstep
  refine ⟨h.regular.step hsteps,hsteps.stored h.stored (by simp [hnone]),?_,
    hsteps.keeps_running hstop h.running,?_⟩
  · rw [← h.received]
    cases hsteps with
    | loop input direct moves =>
      rw [moves.received_eq,inputOf_newBlob input,hnone]
      exact List.append_nil _
    | _ => rfl
  · cases hsteps with
    | tick => exact absurd rfl (htick _)
    | _ => exact h.clock

lemma Going.step (h : Going as now s) (he : e.Own) (hstep : s.step e = some s') :
    Going as now s' := by
  have hnone : newBlob? e = none ∧ e ≠ .input .stop := by
    cases e with
    | input i => rcases he with rfl | rfl | rfl <;> exact ⟨rfl,by simp⟩
    | _ => exact ⟨rfl,by simp⟩
  refine h.keep hnone.1 hnone.2 ?_ hstep
  rintro n rfl
  exact he

lemma Going.reaches (h : Going as now s) (hreach : Transition.Reaches Uploads.step Event.Own s s') :
    Going as now s' :=
  hreach.preserves (P := Going as now) (fun _ _ _ hstep he h => h.step he hstep) h

/-- The tasks that have an outcome to report. -/
def reporting (s : Uploads) : ℕ := s.tasks.countP fun t => t.phase ≠ .uploading

lemma step_input {i : Input} {c : Coordinator} {eff : Effects}
    (hi : i = .timerAssign ∨ i = .swarmSend ∨ i = .bridgeSend)
    (hexec : s.coordinator.exec s.clock i = some (c,eff)) (hrun : c.point ≠ .stopped) :
    s.step (.input i) = some { s with
      coordinator := c,tasks := s.tasks ++ eff.spawned.map fun u => ⟨u,.uploading⟩ } := by
  rcases hi with rfl | rfl | rfl <;>
    simp only [step,exec,drive,hexec,Option.map_some,if_neg hrun]

lemma reporting_append (tasks : List Task) (ts : List UploadTask) :
    (tasks ++ ts.map fun u => (⟨u,.uploading⟩ : Task)).countP (fun t => t.phase ≠ .uploading) =
      tasks.countP fun t => t.phase ≠ .uploading := by
  rw [List.countP_append,List.countP_map]
  simp [Function.comp_def]

/-- The sends at which the loop is suspended end. -/
lemma Going.to_head (h : Going as now s) : ∃ t, Transition.Reaches Uploads.step Event.Own s t ∧
    t.coordinator.point = .head ∧ t.internal = s.internal ∧ t.reporting = s.reporting := by
  have hswarm : ∀ {t : Uploads} {peers after}, t.coordinator.point = .sendSwarm peers after →
      ∃ u, Transition.Reaches Uploads.step Event.Own t u ∧ u.coordinator.point = .head ∧
        u.internal = t.internal ∧ u.reporting = t.reporting := by
    intro t peers after hpoint
    obtain ⟨c,eff,hexec,hhead⟩ := exec_swarmSend t.clock hpoint
    have hstep := step_input (Or.inr (Or.inl rfl)) hexec (by simp [hhead])
    exact ⟨_,.single (e := .input .swarmSend) (Or.inr (Or.inl rfl)) hstep,hhead,rfl,reporting_append _ _⟩
  cases hpoint : s.coordinator.point with
  | head => exact ⟨s,.refl s,hpoint,rfl,rfl⟩
  | sendSwarm peers after => exact hswarm hpoint
  | sendBridge msg =>
    have hann : s.coordinator.Announcing := fun msg hmsg => by
      obtain ⟨b,hb,-⟩ := h.stored.orderly.pointOk.sending msg hmsg
      exact Option.isSome_of_eq_some hb
    obtain ⟨c,eff,hexec,hrun⟩ := exec_bridgeSend s.clock hpoint hann
    have hstep := step_input (Or.inr (Or.inr rfl)) hexec hrun.ne_stopped
    have hreach : Transition.Reaches Uploads.step Event.Own s _ :=
      .single (e := .input .bridgeSend) (Or.inr (Or.inr rfl)) hstep
    rcases hrun with hhead | ⟨peers,after,hsend⟩
    · exact ⟨_,hreach,hhead,rfl,reporting_append _ _⟩
    · obtain ⟨u,hreach',hhead,hint,hrep⟩ := hswarm (t := { s with
        coordinator := c,tasks := s.tasks ++ eff.spawned.map fun u => ⟨u,.uploading⟩ }) hsend
      exact ⟨u,hreach.trans hreach',hhead,hint,hrep.trans (reporting_append _ _)⟩
  | stopped => exact absurd hpoint h.running

/-- The reports on the internal channel are handled. -/
lemma Going.drain (h : Going as now s) : ∃ t, Transition.Reaches Uploads.step Event.Own s t ∧
    t.coordinator.point = .head ∧ t.internal = [] ∧ t.reporting = s.reporting := by
  obtain ⟨u,hreach,hhead,-,hrep⟩ := h.to_head
  have hloop : ∃ t, Transition.Reaches Uploads.step Event.Own u t ∧
      (Going as now t ∧ t.coordinator.point = .head ∧ t.reporting = s.reporting) ∧
        t.internal = [] := by
    refine Transition.reaches_of_measure (fun t => t.internal.length) ?_
      ⟨h.reaches hreach,hhead,hrep⟩
    rintro t ⟨ht,hhead,hrep⟩ hne
    obtain ⟨⟨hash,status⟩,rest,hint⟩ := List.exists_cons_of_ne_nil hne
    have hstep := step_recvInternal hint hhead
    have hgoing := ht.step (e := .recvInternal) trivial hstep
    have hrun := hgoing.running
    obtain ⟨u,hreach,hhead',hint',hrep'⟩ := hgoing.to_head
    refine ⟨u,.head (e := .recvInternal) trivial hstep hreach,⟨hgoing.reaches hreach,hhead',?_⟩,?_⟩
    · exact hrep'.trans ((reporting_append _ _).trans hrep)
    · rw [hint',if_neg hrun,hint]
      simp
  obtain ⟨t,hreach',⟨-,hhead',hrep'⟩,hint⟩ := hloop
  exact ⟨t,hreach.trans hreach',hhead',hint,hrep'⟩

lemma countP_eraseIdx_reporting {k : ℕ} {u : UploadTask} {status : ChunkUploadStatus}
    (h : s.tasks[k]? = some ⟨u,.reporting status⟩) :
    (s.tasks.eraseIdx k).countP (fun t => t.phase ≠ .uploading)+1 = s.reporting := by
  obtain ⟨hk,hget⟩ := List.getElem?_eq_some_iff.mp h
  have hperm := List.getElem_cons_eraseIdx_perm hk
  rw [reporting,← hperm.countP_eq,List.countP_cons,hget]
  simp

/-- Every outcome is reported and handled: the tasks that are left upload. -/
lemma Going.settle (h : Going as now s) : ∃ t, Transition.Reaches Uploads.step Event.Own s t ∧
    t.coordinator.point = .head ∧ t.internal = [] ∧ ∀ k ∈ t.tasks, k.phase = .uploading := by
  obtain ⟨u,hreach,hhead,hint,-⟩ := h.drain
  have hloop : ∃ t, Transition.Reaches Uploads.step Event.Own u t ∧
      (Going as now t ∧ t.coordinator.point = .head ∧ t.internal = []) ∧
        ∀ k ∈ t.tasks, k.phase = .uploading := by
    refine Transition.reaches_of_measure reporting ?_ ⟨h.reaches hreach,hhead,hint⟩
    rintro t ⟨ht,hhead,hint⟩ hne
    push Not at hne
    obtain ⟨⟨u,phase⟩,hmem,hphase⟩ := hne
    cases phase with
    | uploading => exact absurd rfl hphase
    | reporting status =>
      obtain ⟨k,hk⟩ := List.mem_iff_getElem?.mp hmem
      have hstep := step_report hk ht.running
      have hgoing := ht.step (e := .report k) trivial hstep
      obtain ⟨v,hreach,hhead',hint',hrep⟩ := hgoing.drain
      refine ⟨v,.head (e := .report k) trivial hstep hreach,
        ⟨hgoing.reaches hreach,hhead',hint'⟩,?_⟩
      rw [hrep,← countP_eraseIdx_reporting hk]
      exact Nat.lt_succ_self _
  obtain ⟨t,hreach',⟨-,hhead',hint'⟩,hup⟩ := hloop
  exact ⟨t,hreach.trans hreach',hhead',hint',hup⟩

/-- The time that uploads need to time out. -/
def Event.window : Event := .tick (31*Instant.nanosPerSec)

/-- A peer issues a permit for a second. -/
def Event.permit (peer : PeerId) : Event :=
  .input (.handler (.response peer 0 (.issuedStoragePermit 1)))

/-- The events of `Own`, windows of time and permits of the peer. -/
def Event.Helped (peer : PeerId) (e : Event) : Prop := e.Own ∨ e = window ∨ e = permit peer

end Gozara.Uploads
