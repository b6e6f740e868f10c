import Gozara.Coordinator.Assignment
import Gozara.Coordinator.Finality

/-!
# One upload for a chunk at a time

An upload that runs keeps its chunk in flight, and the chunk is not offered again within the
window. A chunk is offered while its upload runs exactly when the report of an earlier
attempt, which failed, is handled meanwhile, or when another blob with the chunk comes to
the front. Where neither happens, no chunk has two uploads.
-/
namespace Gozara

namespace Coordinator
open Pipeline

/-- Every chunk in front is as before, or in flight with one of these tasks. -/
def Marks (now : Instant) (o o' : Option LocalBlob) (ts : List UploadTask) : Prop :=
  ∀ b h c, o = some b → b.chunks.lookup h = some c →
    ∃ b', o' = some b' ∧ b'.chunks.lookup h = some (mark now ts h c)

variable {c : Coordinator} {now : Instant}

lemma marks_nil (now : Instant) (o : Option LocalBlob) : Marks now o o [] :=
  fun b _ _ hb hc => ⟨b,hb,hc⟩

theorem marks_assign (c : Coordinator) (now : Instant) (p : Pipeline) :
    Marks now p.currentBlob (c.assign now p).1.pipeline.currentBlob (c.assign now p).2 := by
  by_cases hidle : p.currentBlob = none ∨ p.eligiblePeers now = []
  · simp only [assign,assignChunks_idle hidle]
    exact marks_nil now _
  · intro b h c hb hc
    push Not at hidle
    have hassigns := assignChunks_assigns hb (List.length_pos_iff.mpr hidle.2)
    refine ⟨_,congrArg Pipeline.currentBlob hassigns.pipeline,?_⟩
    rw [HashMap.lookup_mapVal,hc]
    rfl

theorem marks_settle (c : Coordinator) (now : Instant) (r : Pipeline × Option (List PeerId))
    (after : Resume) : Marks now r.1.currentBlob (c.settle now r after).1.pipeline.currentBlob
      (c.settle now r after).2 := by
  unfold settle
  split
  · exact marks_nil now _
  · cases after with
    | head => exact marks_nil now _
    | assign => exact marks_assign c now r.1

/-- The chunks of the blob that comes to the front when one is archived. -/
theorem marks_bridgeSend {c' : Coordinator} {eff : Effects}
    (h : c.exec now .bridgeSend = some (c',eff)) :
    Marks now c.pipeline.pendingLocalBlobs.head? c'.pipeline.currentBlob eff.spawned := by
  cases arms_of_exec h with
  | @bridgeSend _ b =>
    obtain ⟨permits,hbegin⟩ :=
      beginNextBlob_of_none (p := { c.pipeline with currentBlob := none }) rfl now
    have hmarks := marks_settle { c with announced := c.announced ++ [b] } now
      (Pipeline.beginNextBlob { c.pipeline with currentBlob := none } now) .assign
    rw [hbegin] at hmarks
    exact hmarks

/-- The report of a failed attempt makes the chunk pending. -/
theorem pending_of_exec {c' : Coordinator} {eff : Effects} {b : LocalBlob} {hash : Hash} {d : Chunk}
    (hb : c.pipeline.currentBlob = some b) (hd : b.chunks.lookup hash = some d)
    (h : c.exec now (.updateChunkStatus hash .pending) = some (c',eff)) :
    ∃ b', c'.pipeline.currentBlob = some b' ∧
      b'.chunks.lookup hash = some (d.setStatus now .pending) := by
  cases arms_of_exec h with
  | updateChunkStatus =>
    simp only [onUpdateChunkStatus,hb,hd]
    refine ⟨_,rfl,?_⟩
    rw [HashMap.lookup_modify,if_pos rfl,hd]
    rfl

end Coordinator

namespace Uploads
open Coordinator Pipeline

/-- The uploads that run. -/
def live (s : Uploads) : List UploadTask :=
  (s.tasks.filter fun t => t.phase = .uploading).map Task.upload

/-- Every upload has ended within the window. -/
def Prompt (s : Uploads) : Prop :=
  ∀ u ∈ s.live, s.clock ≤ u.started+chunkUploadWindow*Instant.nanosPerSec

/-- No chunk has two uploads, and none that has one could be assigned. -/
structure OneAttempt (s : Uploads) : Prop where
  nodup : (s.live.map UploadTask.hash).Nodup
  settled : ∀ u ∈ s.live, ∀ d, s.chunk? u.hash = some d → isEligible s.clock d = false

/-- The blob that an event takes to the front. -/
def nextBlob (s : Uploads) : Event → Option LocalBlob
  | .input .bridgeSend => s.coordinator.pipeline.pendingLocalBlobs.head?
  | .input (.admission (.newBlob a)) =>
    if s.coordinator.pipeline.currentBlob = none then
      (s.coordinator.pipeline.pendingLocalBlobs ++ [localBlob s.clock a]).head?
    else none
  | _ => none

/-- A chunk is offered again while its upload runs: the report of a failed attempt is
handled for it, or a blob that has it comes to the front. -/
def Revives (s : Uploads) (e : Event) : Prop :=
  ∃ u ∈ s.live,
    (e = .recvInternal ∧ s.internal.head? = some (u.hash,.pending) ∧ (s.chunk? u.hash).isSome) ∨
      ∃ b ∈ s.nextBlob e, (b.chunks.lookup u.hash).isSome

instance (s : Uploads) : Decidable (Prompt s) :=
  inferInstanceAs (Decidable (∀ u ∈ s.live,_))

instance (s : Uploads) (e : Event) : Decidable (Revives s e) :=
  inferInstanceAs (Decidable (∃ u ∈ s.live,_ ∨ _))

/-- What holds in every run: uploads have started, and the chunks that wait are pending. -/
structure Tidy (s : Uploads) : Prop where
  started : ∀ u ∈ s.live, u.started ≤ s.clock
  waiting : ∀ b ∈ s.coordinator.pipeline.pendingLocalBlobs, ∀ h d,
    b.chunks.lookup h = some d → d.status.status = .pending

/-- The chunk is finalized, or in flight since the upload started or later. -/
def Fresh (u : UploadTask) (d : Chunk) : Prop :=
  d.isFinalized = true ∨ (∃ peer, d.status.status = .inflight peer) ∧ u.started ≤ d.status.stamp

variable {s s' : Uploads} {e : Event} {dropped : List LocalBlob}

lemma secs_le {now started stamp secs nanos : ℕ} (h : now ≤ started+secs*nanos)
    (hstamp : started ≤ stamp) : (now-stamp)/nanos ≤ secs := by
  apply Nat.div_le_of_le_mul
  rw [Nat.mul_comm]
  omega

/-- Within the window a fresh chunk is not offered. -/
lemma Fresh.not_eligible {u : UploadTask} {d : Chunk} {now : Instant} (h : Fresh u d)
    (hu : now ≤ u.started+chunkUploadWindow*Instant.nanosPerSec) : isEligible now d = false := by
  rcases h with hfin | ⟨⟨peer,hst⟩,hstamp⟩
  · by_contra hel
    rw [isFinalized_of_isEligible (by simpa using hel)] at hfin
    cases hfin
  · exact isEligible_inflight hst (Nat.not_lt.mpr (secs_le hu hstamp))

/-- A task that reports does not upload. -/
lemma filter_set (tasks : List Task) (k : ℕ) (u : UploadTask) (status : ChunkUploadStatus) :
    ((tasks.set k ⟨u,.reporting status⟩).filter fun t => t.phase = .uploading).Sublist
      (tasks.filter fun t => t.phase = .uploading) := by
  induction tasks generalizing k with
  | nil => simp
  | cons t tasks ih =>
    cases k with
    | zero =>
      rw [List.set_cons_zero,List.filter_cons_of_neg (by simp)]
      exact (List.sublist_cons_self t tasks).filter _
    | succ k =>
      rw [List.set_cons_succ,List.filter_cons,List.filter_cons]
      split_ifs
      · exact (ih k).cons_cons t
      · exact ih k

/-- Everything but an input to the select loop only ends uploads. -/
structure Quiet (s s' : Uploads) : Prop where
  live : s'.live.Sublist s.live
  current : s'.coordinator.pipeline.currentBlob = s.coordinator.pipeline.currentBlob
  waiting : s'.coordinator.pipeline.pendingLocalBlobs = s.coordinator.pipeline.pendingLocalBlobs
  clock : s.clock ≤ s'.clock

theorem Steps.quiet (h : Steps s e s' dropped) (he : s.inputOf e = none) : Quiet s s' := by
  cases h with
  | tick => exact ⟨List.Sublist.refl _,rfl,rfl,Nat.le_add_right _ _⟩
  | loop input =>
    rw [he] at input
    cases input
  | acknowledged task => exact ⟨(filter_set _ _ _ _).map _,rfl,rfl,le_rfl⟩
  | failed task => exact ⟨(filter_set _ _ _ _).map _,rfl,rfl,le_rfl⟩
  | timeout task => exact ⟨((List.eraseIdx_sublist _ _).filter _).map _,rfl,rfl,le_rfl⟩
  | report task => exact ⟨((List.eraseIdx_sublist _ _).filter _).map _,rfl,rfl,le_rfl⟩

/-- An input adds the uploads that it spawns. -/
lemma live_loop (s : Uploads) (c : Coordinator) (internal : List (Hash × ChunkUploadStatus))
    (ts : List UploadTask) : live { s with
      coordinator := c,internal := internal,tasks := s.tasks ++ ts.map fun u => ⟨u,.uploading⟩ } =
        s.live ++ ts := by
  simp only [live,List.filter_append,List.map_append,List.append_cancel_left_eq,List.filter_map,
    List.map_map]
  rw [List.filter_eq_self.mpr (by simp)]
  exact List.map_id _

theorem tidy_step (h : Tidy s) (hstep : Steps s e s' dropped) : Tidy s' := by
  cases hin : s.inputOf e with
  | none =>
    have hquiet := hstep.quiet hin
    refine ⟨fun u hu => (h.started u (hquiet.live.subset hu)).trans hquiet.clock,?_⟩
    rw [hquiet.waiting]
    exact h.waiting
  | some i =>
    cases hstep with
    | @loop e i c eff input direct moves exec =>
      refine ⟨fun u hu => ?_,?_⟩
      · rw [live_loop] at hu
        rcases List.mem_append.mp hu with hu | hu
        · exact h.started u hu
        · exact ((permitted_of_exec exec).started u hu).le
      · have happend : ∀ a, ∀ b ∈ s.coordinator.pipeline.pendingLocalBlobs ++ [localBlob s.clock a],
            ∀ k d, b.chunks.lookup k = some d → d.status.status = .pending := by
          intro a b hb k d hd
          rcases List.mem_append.mp hb with hb | hb
          · exact h.waiting b hb k d hd
          · cases List.mem_singleton.mp hb
            rw [localBlob_pending hd]
        cases moves with
        | stay _ _ keeps =>
          rw [keeps.waiting]
          exact h.waiting
        | @wait a _ _ _ _ _ _ _ waiting =>
          rw [waiting]
          exact happend a
        | @begin a _ _ _ _ _ _ waiting =>
          rw [waiting]
          exact fun b hb => happend a b (List.mem_of_mem_tail hb)
        | archive _ _ _ _ _ waiting =>
          rw [waiting]
          exact fun b hb => h.waiting b (List.mem_of_mem_tail hb)
        | stop => simp [onStop,Pipeline.new]
    | _ => cases hin

/-- The uploads that run are for different chunks, and theirs are fresh. -/
structure Attempted (s : Uploads) : Prop where
  tidy : Tidy s
  nodup : (s.live.map UploadTask.hash).Nodup
  fresh : ∀ u ∈ s.live, ∀ d, s.chunk? u.hash = some d → Fresh u d

lemma attempted_init : Attempted init where
  tidy := ⟨by simp [live,init],by simp [init,Coordinator.init,Pipeline.new]⟩
  nodup := List.nodup_nil
  fresh := by simp [live,init]

lemma Attempted.oneAttempt (h : Attempted s) (hprompt : Prompt s) : OneAttempt s :=
  ⟨h.nodup,fun u hu d hd => (h.fresh u hu d hd).not_eligible (hprompt u hu)⟩

/-- The chunk of a task that was just spawned. -/
lemma fresh_of_spawned {now : Instant} {f : Hash → Chunk → Chunk} {o o' : Option LocalBlob}
    {ts : List UploadTask} (hs : Spawned now f o o' ts) (hstart : ∀ t ∈ ts, t.started = now)
    {u : UploadTask} (hu : u ∈ ts) {b : LocalBlob} {d : Chunk} (hb : o' = some b)
    (hd : b.chunks.lookup u.hash = some d) : Fresh u d := by
  obtain ⟨-,b',c,-,hb',-,-,hc,-⟩ := hs.task u hu
  cases hb.symm.trans hb'
  cases hd.symm.trans hc
  exact Or.inr ⟨⟨u.peer,rfl⟩,(hstart u hu).le⟩

/-- The update that an event brings leaves the chunk of an upload that runs fresh. -/
lemma Attempted.fresh_updated (h : Attempted s) {i : Input} (hin : s.inputOf e = some i)
    (direct : ∀ h st, i = .updateChunkStatus h st → s.internal = (h,st)::s.remaining e)
    (hrev : ¬Revives s e) {u : UploadTask} (hu : u ∈ s.live) {d : Chunk}
    (hd : s.chunk? u.hash = some d) : Fresh u (updated s.clock i u.hash d) := by
  by_cases hst : ∃ st, i = .updateChunkStatus u.hash st
  · obtain ⟨st,rfl⟩ := hst
    obtain ⟨rfl,hhead⟩ := head_of_update hin direct rfl
    simp only [updated,if_true]
    cases st with
    | pending => exact absurd ⟨u,hu,Or.inl ⟨rfl,hhead,by rw [hd]; rfl⟩⟩ hrev
    | inflight peer => exact Or.inr ⟨⟨peer,rfl⟩,h.tidy.started u hu⟩
    | finalized owner => exact Or.inl rfl
  · push Not at hst
    rw [updated_of_ne hst]
    exact h.fresh u hu d hd

/-- What an event of the select loop keeps, for a blob in front that is new or old. -/
lemma attempted_loop {c : Coordinator} {internal : List (Hash × ChunkUploadStatus)}
    {ts : List UploadTask} (h : Attempted s) (hnodup : (ts.map UploadTask.hash).Nodup)
    (hdisj : ∀ t ∈ ts, ∀ u ∈ s.live, u.hash ≠ t.hash)
    (hlive : ∀ u ∈ s.live, ∀ b d, c.pipeline.currentBlob = some b →
      b.chunks.lookup u.hash = some d → Fresh u d)
    (hspawned : ∀ t ∈ ts, ∀ b d, c.pipeline.currentBlob = some b →
      b.chunks.lookup t.hash = some d → Fresh t d)
    (htidy : Tidy { s with
      coordinator := c,internal := internal,tasks := s.tasks ++ ts.map fun u => ⟨u,.uploading⟩ }) :
    Attempted { s with
      coordinator := c,internal := internal,tasks := s.tasks ++ ts.map fun u => ⟨u,.uploading⟩ } := by
  refine ⟨htidy,?_,fun u hu d hd => ?_⟩
  · rw [live_loop,List.map_append,List.nodup_append']
    refine ⟨h.nodup,hnodup,?_⟩
    intro k hk hk'
    obtain ⟨u,hu,rfl⟩ := List.mem_map.mp hk
    obtain ⟨t,ht,heq⟩ := List.mem_map.mp hk'
    exact hdisj t ht u hu heq.symm
  · rw [live_loop] at hu
    obtain ⟨b,hb,hd⟩ := chunk?_eq_some.mp hd
    rcases List.mem_append.mp hu with hu | hu
    · exact hlive u hu b d hb hd
    · exact hspawned u hu b d hb hd

theorem attempted_step (h : Attempted s) (hprompt : Prompt s) (hrev : ¬Revives s e)
    (hstep : Steps s e s' dropped) : Attempted s' := by
  have htidy := tidy_step h.tidy hstep
  cases hin : s.inputOf e with
  | none =>
    have hquiet := hstep.quiet hin
    refine ⟨htidy,h.nodup.sublist (hquiet.live.map _),fun u hu d hd => ?_⟩
    refine h.fresh u (hquiet.live.subset hu) d ?_
    rw [chunk?,hquiet.current] at hd
    exact hd
  | some i₀ =>
    cases hstep with
    | @loop e i c eff input direct moves exec =>
      have hstart := (permitted_of_exec exec).started
      cases moves with
      | @stay i c ts received announced keeps spawned =>
        have hnot : ∀ u ∈ s.live, ∀ d, s.chunk? u.hash = some d →
            isEligible s.clock (updated s.clock i u.hash d) = false := fun u hu d hd =>
          (h.fresh_updated input direct hrev hu hd).not_eligible (hprompt u hu)
        refine attempted_loop h spawned.nodup (fun t ht u hu heq => ?_) (fun u hu b' d' hb' hd' => ?_)
          (fun t ht b' d' => fresh_of_spawned spawned hstart ht) htidy
        · obtain ⟨b,-,d,hb,-,hd,hel,-⟩ := spawned.task t ht
          rw [← heq] at hd hel
          rw [hnot u hu d (chunk?_eq_some.mpr ⟨b,hb,hd⟩)] at hel
          cases hel
        · have hrel := keeps.current
          rw [hb'] at hrel
          obtain ⟨b,hb,hev⟩ := HashMap.exists_of_rel_some' hrel
          obtain ⟨d,hd,hchange⟩ := hev.lookup_some' hd'
          have hchunk := chunk?_eq_some.mpr ⟨b,hb,hd⟩
          rcases hchange with rfl | ⟨hel,-⟩
          · exact h.fresh_updated input direct hrev hu hchunk
          · rw [hnot u hu d hchunk] at hel
            cases hel
      | @wait a c b head received announced front current =>
        refine attempted_loop h (by simp) (by simp) (fun u hu b' d hb' hd => ?_) (by simp) htidy
        cases current.symm.trans hb'
        exact h.fresh u hu d (chunk?_eq_some.mpr ⟨b,front,hd⟩)
      | @begin a c head received announced front current =>
        have he := eq_input_of_inputOf input (by simp)
        subst he
        refine attempted_loop h (by simp) (by simp) (fun u hu b' d hb' hd => ?_) (by simp) htidy
        have hnext : s.nextBlob (.input (.admission (.newBlob a))) = some b' := by
          rw [← hb',current]
          exact if_pos front
        exact absurd ⟨u,hu,Or.inr ⟨b',hnext,by rw [hd]; rfl⟩⟩ hrev
      | @archive msg b c ts suspended received announced front current waiting spawned =>
        have he := eq_input_of_inputOf input (by simp)
        subst he
        -- No chunk of the next blob has an upload that runs.
        have hfree : ∀ u ∈ s.live, ∀ b d, s.coordinator.pipeline.pendingLocalBlobs.head? = some b →
            b.chunks.lookup u.hash ≠ some d := fun u hu b d hb hd =>
          hrev ⟨u,hu,Or.inr ⟨b,hb,by rw [hd]; rfl⟩⟩
        refine attempted_loop h spawned.nodup (fun t ht u hu heq => ?_) (fun u hu b' d' hb' hd' => ?_)
          (fun t ht b' d' => fresh_of_spawned spawned hstart ht) htidy
        · obtain ⟨b,-,d,hb,-,hd,-⟩ := spawned.task t ht
          exact hfree u hu b d hb (heq ▸ hd)
        · rw [hb'] at current
          obtain ⟨b,hb,hev⟩ := HashMap.exists_of_rel_some' current
          obtain ⟨d,hd,-⟩ := hev.lookup_some' hd'
          exact absurd hd (hfree u hu b d hb)
      | stop =>
        exact attempted_loop h (by simp) (by simp) (by simp [onStop,Pipeline.new]) (by simp) htidy
    | _ => cases hin

lemma not_oneAttempt_of_pending {u : UploadTask} (hu : u ∈ s.live) {d : Chunk}
    (hd : s.chunk? u.hash = some d) (hst : d.status.status = .pending) : ¬OneAttempt s := by
  intro h
  have hel := h.settled u hu d hd
  rw [isEligible_iff.mpr (Or.inl hst)] at hel
  cases hel

/-- A chunk that is offered while its upload runs is free for a second one, or has it. -/
theorem not_oneAttempt_of_revives (h : Tidy s) (hrev : Revives s e)
    (hstep : Steps s e s' dropped) : ¬OneAttempt s' := by
  obtain ⟨u,hu,⟨rfl,hhead,hchunk⟩ | ⟨b,hb,hchunk⟩⟩ := hrev
  · obtain ⟨d,hd⟩ := Option.isSome_iff_exists.mp hchunk
    obtain ⟨b,hb,hd⟩ := chunk?_eq_some.mp hd
    cases hstep with
    | @loop e i c eff input direct moves exec =>
      have hi : i = .updateChunkStatus u.hash .pending := by
        simpa [inputOf,hhead] using input.symm
      subst hi
      obtain ⟨b',hb',hd'⟩ := pending_of_exec hb hd exec
      refine not_oneAttempt_of_pending ?_ (chunk?_eq_some.mpr ⟨b',hb',hd'⟩) rfl
      rw [live_loop]
      exact List.mem_append_left _ hu
  · obtain ⟨d,hd⟩ := Option.isSome_iff_exists.mp hchunk
    rw [Option.mem_def,nextBlob.eq_def] at hb
    split at hb
    · have hst := h.waiting b (List.mem_of_mem_head? hb) u.hash d hd
      cases hstep with
      | @loop e i c eff input direct moves exec =>
        cases input
        obtain ⟨b',hb',hd'⟩ := marks_bridgeSend exec b u.hash d hb hd
        by_cases hmem : u.hash ∈ eff.spawned.map UploadTask.hash
        · intro hone
          have hnodup := hone.nodup
          rw [live_loop,List.map_append,List.nodup_append'] at hnodup
          exact hnodup.2.2 (List.mem_map_of_mem hu) hmem
        · rw [mark_of_notMem hmem] at hd'
          refine not_oneAttempt_of_pending ?_ (chunk?_eq_some.mpr ⟨b',hb',hd'⟩) hst
          rw [live_loop]
          exact List.mem_append_left _ hu
    · rename_i a
      split_ifs at hb with hnone
      have hst : d.status.status = .pending := by
        rcases List.mem_append.mp (List.mem_of_mem_head? hb) with hmem | hmem
        · exact h.waiting b hmem u.hash d hd
        · cases List.mem_singleton.mp hmem
          rw [localBlob_pending hd]
      cases hstep with
      | @loop e i c eff input direct moves exec =>
        cases input
        cases moves with
        | stay _ _ _ _ inputs => exact absurd rfl (inputs.1 a)
        | wait _ _ _ front =>
          rw [hnone] at front
          cases front
        | begin _ _ _ _ current =>
          refine not_oneAttempt_of_pending ?_ (chunk?_eq_some.mpr ⟨b,current.trans hb,hd⟩) hst
          rw [live_loop]
          exact List.mem_append_left _ hu
    · cases hb

/-- Where every upload ends within the window, in every state of a run no chunk has two
uploads and none that has one is offered again, exactly when no failure is reported for a
chunk whose upload runs, and no blob comes to the front with a chunk whose upload runs. -/
theorem oneAttempt_iff_not_revives {es : List Event}
    (hprompt : Transition.Along step (fun _ _ s' => Prompt s') init es) :
    Transition.Along step (fun _ _ s' => OneAttempt s') init es ↔
      Transition.Along step (fun s e _ => ¬Revives s e) init es := by
  constructor
  · refine Transition.Along.mono (P := Tidy) ?_ ?_ attempted_init.tidy
    · intro s e s' hstep h
      obtain ⟨dropped,hsteps⟩ := steps_of_step hstep
      exact tidy_step h hsteps
    · intro s e s' hstep h hone hrev
      obtain ⟨dropped,hsteps⟩ := steps_of_step hstep
      exact not_oneAttempt_of_revives h hrev hsteps hone
  · intro hrev
    refine Transition.Along.imp (P := fun s => Attempted s ∧ Prompt s) ?_ ?_
      ⟨attempted_init,by simp [Prompt,live,init]⟩ (hprompt.and hrev)
    · rintro s e s' hstep ⟨hpr,hno⟩ ⟨h,hp⟩
      obtain ⟨dropped,hsteps⟩ := steps_of_step hstep
      exact ⟨attempted_step h hp hno hsteps,hpr⟩
    · rintro s e s' hstep ⟨h,hp⟩ ⟨hpr,hno⟩
      obtain ⟨dropped,hsteps⟩ := steps_of_step hstep
      exact (attempted_step h hp hno hsteps).oneAttempt hpr

/-- A blob with one chunk. -/
def singleBlob : AdmittedBlob :=
  ⟨blobId,Deps.sampleHash [],⟨[Deps.sampleHash [1]]⟩,[(Deps.sampleHash [1],[1])],1⟩

/-- The chunk is assigned to a peer, and the upload fails. -/
def firstFailure : List Event :=
  [.input (.admission (.newBlob singleBlob)),
    .input (.handler (.response ⟨[9]⟩ 0 (.issuedStoragePermit 1000))),.finish 0 none,.report 0]

/-- The failure is handled before the chunk is assigned again. -/
theorem oneAttempt_iff_not_revives_handled : Transition.Along step
    (fun _ _ s' => OneAttempt s') init (firstFailure ++ [.recvInternal,.input .timerAssign]) := by
  have hprompt : Transition.Along step (fun _ _ s' => Prompt s') init
      (firstFailure ++ [.recvInternal,.input .timerAssign]) := by decide
  exact (oneAttempt_iff_not_revives hprompt).mpr (by decide)

/-- The failure is reported late: the chunk is assigned again after the window, then the
report comes, and the next assignment starts a second upload. -/
def lateFailure : List Event :=
  firstFailure ++ [.tick 31000000000,.input .timerAssign,.recvInternal,.input .timerAssign]

theorem lateFailure_twice : Transition.Along step (fun _ _ s' => Prompt s') init lateFailure ∧
    ∃ s, Transition.run step init lateFailure = some s ∧
      s.live.map UploadTask.hash = [Deps.sampleHash [1],Deps.sampleHash [1]] ∧ ¬OneAttempt s := by
  refine ⟨by decide,?_⟩
  obtain ⟨s,hrun,hlive⟩ := Option.map_eq_some_iff.mp (by decide :
    (Transition.run step init lateFailure).map (fun s => s.live.map UploadTask.hash) =
      some [Deps.sampleHash [1],Deps.sampleHash [1]])
  refine ⟨s,hrun,hlive,fun h => ?_⟩
  have hnodup := h.nodup
  rw [hlive] at hnodup
  simp at hnodup

end Uploads

end Gozara
