import Gozara.Node.Delivery

/-!
# Pending entries and the work behind them

An entry that an upload inserted is backed by the upload, then by its message, its blob and
its report. An entry that a download inserted has no guard: it is backed by the downloads of
its id that wait or were accepted, and when the last of them is dropped in its send, it stays
behind. That drop is the only event after which an entry is pending without work.
-/
namespace Gozara

def ToPipeline.id : ToPipeline → String
  | .getBlob id => id
  | .newBlob blob => blob.id

namespace Bridge
open BridgeState

/-- Request `i` is a download of `k` that waits in its send or has ended. -/
def Downloads (s : Bridge) (i : ℕ) (k : String) : Prop :=
  s.threads[i]? = some (.getting k) ∨ ∃ reply, s.threads[i]? = some (.got k reply)

/-- Handler `i` is a download in its send, the entry of its id was inserted by a download,
and no other download of the id waits or was accepted. -/
def Abandons (s : Bridge) (i : ℕ) : Prop :=
  ∃ k e, s.threads[i]? = some (.getting k) ∧ s.shared.statusMap.lookup k = some e ∧
    Downloads s e.inserter k ∧
    ∀ j, j ≠ i → s.threads[j]? ≠ some (.getting k) ∧ s.threads[j]? ≠ some (.accepted k)

/-- Some download stands behind every entry that a download inserted. -/
def Covered (s : Bridge) : Prop :=
  ∀ k e, s.shared.statusMap.lookup k = some e → Downloads s e.inserter k →
    ∃ j : ℕ, s.threads[j]? = some (.getting k) ∨ s.threads[j]? = some (.accepted k)

variable {D : Deps} {s s' : Bridge} {e : Event} {i : ℕ} {k : String}

lemma getting_of_get {b b' : BridgeState} {t t' : Handler} {a : Action} (h : Acts D i b t a b' t')
    (ht' : t' = .getting k ∨ ∃ reply, t' = .got k reply) : t = .getting k := by
  cases h with
  | proceed upload permits sound goesOn action =>
    rcases goesOn with hc | ⟨chunk,next,rfl⟩
    · have hlive := hc.live_post.2.1
      rcases ht' with rfl | ⟨reply,rfl⟩ <;> cases hlive
    · rcases ht' with ht' | ⟨reply,ht'⟩ <;> cases ht'
  | accepted =>
    rcases ht' with ht' | ⟨reply,ht'⟩ <;> cases ht'
    rfl
  | given =>
    rcases ht' with ht' | ⟨reply,ht'⟩ <;> cases ht'
    rfl
  | _ => rcases ht' with ht' | ⟨reply,ht'⟩ <;> cases ht'

/-- A request that is answered at once inserts nothing. -/
lemma request_got {b : Request} {reply : Option Response}
    (hnew : (request D s.threads.length s.shared b).2 = .got k reply) :
    (request D s.threads.length s.shared b).1 = s.shared := by
  cases b with
  | post id contentLength =>
    simp only [request] at hnew
    split at hnew <;> cases hnew
  | get id =>
    rcases getBlob_spec D s.threads.length s.shared.statusMap id with
      ⟨_,_,heq,-⟩ | ⟨_,_,-,heq,-⟩
    · simp only [request,heq]
    · simp [request,heq] at hnew

theorem covered_step (h : Pool.Holds (Sane D) (Guarded D) s) (hstep : step D s e = some s')
    (hcov : Covered s) (hab : ∀ i, e = .act i .disconnect → ¬Abandons s i)
    (hfail : ∀ i, e ≠ .act i .sendFailed) : Covered s' := by
  intro k entry he hd
  cases e with
  | spawn b =>
    cases hstep
    rcases hd with hget | ⟨reply,hgot⟩
    · exact ⟨_,Or.inl hget⟩
    · rcases Pool.getElem?_concat_eq_some hgot with hold | ⟨hn,hnew⟩
      · have hlt : entry.inserter < s.threads.length := (List.getElem?_eq_some_iff.mp hold).1
        have he' := ((request_spec h.shared b).2.2.entries k entry (Nat.ne_of_lt hlt)).mp he
        obtain ⟨j,hj⟩ := hcov k entry he' (Or.inr ⟨reply,hold⟩)
        have hjlt : j < s.threads.length := by
          rcases hj with hj | hj <;> exact (List.getElem?_eq_some_iff.mp hj).1
        exact ⟨j,by rwa [List.getElem?_append_left hjlt]⟩
      · have hsame : (program D).spawn s.threads.length s.shared b =
            ((request D s.threads.length s.shared b).1,.got k reply) := by
          rw [← hnew]
          rfl
        rw [hsame,request_got hnew] at he
        have hlt := h.shared.inserter_lt k _ (inserterOf_eq_some.mpr ⟨entry,he,rfl⟩)
        exact absurd hn (Nat.ne_of_lt hlt)
  | act i a =>
    obtain ⟨t,sh,t',ht,hact,rfl⟩ := Pool.step_act_eq_some.mp hstep
    have hi : i < s.threads.length := (List.getElem?_eq_some_iff.mp ht).1
    have hL := h.thread i t ht
    obtain ⟨body,hsound⟩ := hL.sound
    have hacts := acts_of_act hsound hact
    have hold : s.shared.statusMap.lookup k = some entry := by
      rcases statusMap_act hL hacts with heq | ⟨-,id,adm,reply,-,heq⟩
      · rwa [heq] at he
      · rw [heq] at he
        by_cases hk : k = adm.id
        · subst hk
          simp at he
        · rwa [AList.lookup_erase_ne hk] at he
    have hdown : Downloads s entry.inserter k := by
      by_cases hins : entry.inserter = i
      · subst hins
        have ht' : t' = .getting k ∨ ∃ reply, t' = .got k reply := by
          simpa only [Downloads,List.getElem?_set_self hi,Option.some.injEq] using hd
        exact Or.inl (by rw [ht,getting_of_get hacts ht'])
      · simpa only [Downloads,List.getElem?_set_ne (Ne.symm hins)] using hd
    obtain ⟨j,hj⟩ := hcov k entry hold hdown
    by_cases hji : j = i
    · subst j
      rw [ht] at hj
      rcases hj with hj | hj
      · cases hj
        -- The download is accepted, or dropped while another one stands behind the entry.
        cases a with
        | enqueue =>
          cases hact
          exact ⟨i,Or.inr (List.getElem?_set_self hi)⟩
        | sendFailed => exact absurd rfl (hfail i)
        | disconnect =>
          by_contra hnone
          push Not at hnone
          refine hab i rfl ⟨k,entry,ht,hold,hdown,fun j hj => ?_⟩
          have hset := hnone j
          rwa [List.getElem?_set_ne (Ne.symm hj)] at hset
        | _ => cases hact
      · cases hj
        cases hact
    · exact ⟨j,by rwa [List.getElem?_set_ne (Ne.symm hji)]⟩
  | env g =>
    obtain ⟨sh,henv,rfl⟩ := Pool.step_env_eq_some.mp hstep
    have hins := inserterOf_eq_some.mpr ⟨entry,he,rfl⟩
    rw [(outside_spec henv).1] at hins
    obtain ⟨entry',he',hsame⟩ := inserterOf_eq_some.mp hins
    exact hcov k entry' he' (by rw [hsame]; exact hd)

end Bridge

namespace Node
open BridgeState

/-- The coordinator and the message loop of the bridge run. -/
def Running (s : Node) : Prop :=
  s.engine.coordinator.point ≠ .stopped ∧ s.updating = true

/-- The work that a pending entry may wait for. -/
inductive Backed (s : Node) (k : String) : Prop
  | upload {i : ℕ} {t : Handler} {adm : Admission} (thread : s.bridge.threads[i]? = some t)
      (live : t.liveAdmission = some adm) (uncommitted : adm.committed = false) (id : adm.id = k)
  | download {i : ℕ} (thread : s.bridge.threads[i]? = some (.getting k))
  | queued {msg : ToPipeline} (mem : msg ∈ s.admission) (id : msg.id = k)
  | blob {b : LocalBlob} (mem : b ∈ s.engine.coordinator.held) (id : b.id = k)
  | remote (mem : k ∈ s.engine.coordinator.pipeline.remoteBlobs)
  | update (mem : .updateStatus k .finalized ∈ s.updates)

/-- Every entry whose latest status is pending is backed. -/
def NoOrphan (s : Node) : Prop :=
  ∀ k e, s.bridge.shared.statusMap.lookup k = some e → e.history.getLast? = some .pending →
    Backed s k

/-- Handler `i` leaves an entry behind when its client disconnects. -/
def Abandons (s : Node) : Event → Prop
  | .act i .disconnect => Bridge.Abandons s.bridge i
  | _ => False

variable {D : Deps} {s s' : Node} {e : Event} {i : ℕ} {k : String}

/-- An entry is under the key of the request that inserted it. -/
lemma Linked.inserter (h : Linked D s) {entry : Entry}
    (he : s.bridge.shared.statusMap.lookup k = some entry) :
    ∃ t, s.bridge.threads[entry.inserter]? = some t ∧ t.key = some k := by
  have hins := inserterOf_eq_some.mpr ⟨entry,he,rfl⟩
  have ht := List.getElem?_eq_getElem (h.holds.shared.inserter_lt k _ hins)
  exact ⟨_,ht,(h.holds.thread _ _ ht).only k hins⟩

/-- A blob that was sent under an id owns the entry of the id, which no download inserted. -/
lemma Tracked.not_downloads (h : Tracked D s) {a : AdmittedBlob} {entry : Entry}
    (ha : (i,.newBlob a) ∈ s.bridge.shared.enqueued)
    (he : s.bridge.shared.statusMap.lookup a.id = some entry) :
    ¬Bridge.Downloads s.bridge entry.inserter a.id := by
  obtain ⟨t,adm,entry',ht,hsent,-,-,he',rfl⟩ := h.owner ha
  cases he.symm.trans he'
  rintro (hget | ⟨reply,hgot⟩)
  · cases ht.symm.trans hget
    exact hsent
  · cases ht.symm.trans hgot
    exact hsent

/-- A blob that was received is announced or held, unless the loop has ended. -/
lemma Tracked.received_blob (h : Tracked D s) (hrun : s.engine.coordinator.point ≠ .stopped)
    {a : AdmittedBlob} (ha : a ∈ s.engine.coordinator.received) :
    ∃ b ∈ s.engine.coordinator.announced ++ s.engine.coordinator.held, b.id = a.id := by
  have hmem : a.manifest ∈ s.engine.coordinator.received.map AdmittedBlob.manifest :=
    List.mem_map_of_mem ha
  rw [← h.linked.stored.orderly.customers hrun] at hmem
  have hmap : a.manifest ∈ (s.engine.coordinator.announced ++
      s.engine.coordinator.held).map LocalBlob.manifest := by
    cases hcur : s.engine.coordinator.pipeline.currentBlob <;>
      simpa [ServiceQueue.customers,Coordinator.queue,Coordinator.held,hcur] using hmem
  obtain ⟨b,hb,hab⟩ := List.mem_map.mp hmap
  exact ⟨b,hb,congrArg Manifest.id hab⟩

/-- Behind the pending entry of a blob that was sent: its message, the blob or its report. -/
lemma Tracked.backed_sent (h : Tracked D s) (hrun : Running s) {a : AdmittedBlob} {entry : Entry}
    (ha : (i,.newBlob a) ∈ s.bridge.shared.enqueued)
    (he : s.bridge.shared.statusMap.lookup a.id = some entry)
    (hpending : entry.history.getLast? = some .pending) : Backed s a.id := by
  rcases h.delivered hrun.1 _ _ ha with hq | htaken
  · exact .queued hq rfl
  · obtain ⟨b,hb,hba⟩ := h.received_blob hrun.1 htaken
    rcases List.mem_append.mp hb with hb | hb
    · rcases h.reported hrun.2 b hb with hq | ⟨e',he',hfin⟩
      · exact .update (by rwa [hba] at hq)
      · rw [hba,he] at he'
        cases he'
        rcases h.histories _ entry he with hnew | hlast
        · simp [hnew] at hfin
        · rw [hpending] at hlast
          cases hlast
    · exact .blob hb hba

/-- The invariants and a download behind every entry of a download leave no orphan. -/
theorem Tracked.noOrphan (h : Tracked D s) (hrun : Running s) (hcov : Bridge.Covered s.bridge) :
    NoOrphan s := by
  intro k entry he hpending
  obtain ⟨t,ht,hkey⟩ := h.linked.inserter he
  have hL := h.linked.holds.thread _ t ht
  have hdown : Bridge.Downloads s.bridge entry.inserter k → Backed s k := by
    intro hd
    obtain ⟨j,hj | hj⟩ := hcov k entry he hd
    · exact .download hj
    · -- An accepted download has its message on the channel or with the coordinator.
      have hlog := ((h.linked.holds.thread j _ hj).getBlob k).mpr rfl
      rcases h.delivered hrun.1 j _ hlog with hq | htaken
      · exact .queued hq rfl
      · exact .remote htaken
  have hlive : ∀ adm, t.liveAdmission = some adm → Backed s k := by
    intro adm hadm
    have hid := (Handler.guard_of_live hadm).2
    rw [hkey] at hid
    exact .upload ht hadm (hL.uncommitted adm hadm) (Option.some.inj hid).symm
  cases t with
  | getting id =>
    cases hkey
    exact .download ht
  | got id reply =>
    cases hkey
    exact hdown (Or.inr ⟨reply,ht⟩)
  | posted id adm reply =>
    cases adm with
    | none => cases hkey
    | some adm =>
      by_cases hc : adm.committed = true
      · -- A committed upload: its message, its blob, or the report on it.
        have hk : adm.id = k := by
          simpa [Handler.key,Handler.guard,hc] using hkey
        obtain ⟨a,ha⟩ := hL.sent hc
        obtain ⟨-,⟨adm',hpost⟩,-⟩ := hL.newBlob a ha
        cases hpost
        have hak : a.id = k := (h.named _ _ a.id adm ht rfl).symm.trans hk
        rw [← hak] at he ⊢
        exact h.backed_sent hrun ha he hpending
      · simp [Handler.key,Handler.guard,hc] at hkey
  | acquiring u => exact hlive _ rfl
  | streaming u => exact hlive _ rfl
  | hashing u chunk next started => exact hlive _ rfl
  | sending adm blob => exact hlive _ rfl
  | sent adm id => exact hlive _ rfl
  | unwinding id adm reply => exact hlive _ rfl

/-- A run of the client that goes on covers the entries of downloads. -/
theorem Tracked.covered_step (h : Tracked D s) (hstep : Node.step D s e = some s')
    (hrun' : Running s') (hcov : Running s → Bridge.Covered s.bridge)
    (hab : Running s → ¬Abandons s e) : Bridge.Covered s'.bridge := by
  have hdoes := does_of_step hstep
  cases hdoes with
  | @bridge e be b hb event unsent failed =>
    refine Bridge.covered_step h.linked.holds hb (hcov hrun') ?_ ?_
    · rintro i rfl
      rcases event with ⟨r,-,hr⟩ | ⟨j,a,rfl,ha⟩ | ⟨-,ho⟩
      · cases hr
      · cases ha
        exact hab hrun'
      · cases ho
    · rintro i rfl
      exact hrun'.1 (failed i rfl)
  | enqueue running room handler outbox hb =>
    exact Bridge.covered_step h.linked.holds hb (hcov hrun') (by simp) (by simp)
  | update updating head hb =>
    exact Bridge.covered_step h.linked.holds hb (hcov hrun') (by simp) (by simp)
  | stopUpdates => exact absurd hrun'.2 (by simp)
  | drive event steps source target => exact hcov ⟨steps.running hrun'.1,hrun'.2⟩

/-- A download that abandons its entry leaves it pending without work. -/
theorem Tracked.orphan (h : Tracked D s) (hrun : Running s) (hab : Bridge.Abandons s.bridge i)
    (hstep : Node.step D s (.act i .disconnect) = some s') : ¬NoOrphan s' := by
  obtain ⟨k,entry,ht,he,hdown,hnone⟩ := hab
  have h' : Linked D s' := h.linked.step hstep
  obtain ⟨b,hb,rfl⟩ := Option.map_eq_some_iff.mp hstep
  obtain ⟨t,sh,t',ht',hact,rfl⟩ := Pool.step_act_eq_some.mp hb
  cases ht.symm.trans ht'
  cases hact
  have hi : i < s.bridge.threads.length := (List.getElem?_eq_some_iff.mp ht).1
  have hthreads : ∀ (j : ℕ) u, (s.bridge.threads.set i (.got k none))[j]? = some u →
      j = i ∧ u = .got k none ∨ j ≠ i ∧ s.bridge.threads[j]? = some u := by
    intro j u hu
    by_cases hji : j = i
    · subst j
      rw [List.getElem?_set_self hi] at hu
      exact Or.inl ⟨rfl,(Option.some.inj hu).symm⟩
    · rw [List.getElem?_set_ne (Ne.symm hji)] at hu
      exact Or.inr ⟨hji,hu⟩
  -- Neither a blob nor an accepted download has this id.
  have hblob : ∀ j a, (j,.newBlob a) ∈ s.bridge.shared.enqueued → a.id ≠ k := by
    rintro j a ha rfl
    exact h.not_downloads ha he hdown
  have hget : ∀ j, (j,.getBlob k) ∉ s.bridge.shared.enqueued := by
    intro j hj
    have hlt := h.linked.holds.shared.enqueued_lt j _ hj
    have hjt := List.getElem?_eq_getElem hlt
    have hacc := ((h.linked.holds.thread j _ hjt).getBlob k).mp hj
    rw [hacc] at hjt
    by_cases hji : j = i
    · subst j
      cases ht.symm.trans hjt
    · exact (hnone j hji).2 hjt
  have hannounced : ∀ l ∈ s.engine.coordinator.held ++ s.engine.coordinator.announced, l.id ≠ k := by
    rintro l hl rfl
    obtain ⟨j,a,ha,hid⟩ := h.origin hl
    exact hblob j a ha hid
  have hpending : entry.history.getLast? = some .pending := by
    rcases h.histories k entry he with hnew | hlast
    · rw [hnew]
      rfl
    · obtain ⟨l,hl,hid⟩ := h.linked.histories k entry he (List.mem_of_getLast? hlast)
      exact absurd hid (hannounced l (List.mem_append_right _ hl))
  intro hno
  cases hno k entry he hpending with
  | @upload j t adm thread live uncommitted id =>
    have howns := (h'.holds.thread j t thread).owns k
      (by rw [(Handler.guard_of_live live).1,id])
    obtain ⟨entry',he',hj⟩ := inserterOf_eq_some.mp howns
    cases he.symm.trans he'
    rw [hj] at hdown
    rcases hthreads j t thread with ⟨-,rfl⟩ | ⟨-,hold⟩
    · cases live
    · rcases hdown with hd | ⟨reply,hd⟩
      · cases hold.symm.trans hd
        cases live
      · cases hold.symm.trans hd
        cases live
  | @download j thread =>
    rcases hthreads j _ thread with ⟨-,hgot⟩ | ⟨hji,hold⟩
    · cases hgot
    · exact (hnone j hji).1 hold
  | @queued msg mem id =>
    obtain ⟨j,hj⟩ := h.linked.queued msg mem
    cases msg with
    | getBlob id' =>
      cases id
      exact hget j hj
    | newBlob a => exact hblob j a hj id
  | blob mem id => exact hannounced _ (List.mem_append_left _ mem) id
  | remote mem =>
    obtain ⟨j,hj⟩ := h.remote hrun.1 k mem
    exact hget j hj
  | update mem =>
    obtain ⟨l,hl,hid⟩ := h.linked.updates _ mem
    exact hannounced l (List.mem_append_right _ hl) (ToBridge.updateStatus.inj hid).1.symm

/-- With ids as the library renders them, after every step of a run in which the coordinator
and the update task run, each pending entry is backed by work, exactly when no download
that inserted an entry, or relied on another download's, is dropped in its send as the
last one of its id. -/
theorem noOrphan_iff_not_abandons (D : Deps) {es : List Event} (hcan : ∀ e ∈ es, e.Canonical D) :
    Transition.Along (step D) (fun _ _ s' => Running s' → NoOrphan s') init es ↔
      Transition.Along (step D) (fun s e _ => Running s → ¬Abandons s e) init es := by
  have hall : Transition.Along (step D) (fun _ e _ => e.Canonical D) init es :=
    Transition.along_of_forall init hcan
  constructor
  · intro hno
    refine Transition.Along.imp (fun s e s' hstep hR h => Tracked.step h hR.1 hstep) ?_
      (tracked_init D) (hall.and hno)
    rintro s e s' hstep h ⟨-,hno⟩ hrun hab
    unfold Abandons at hab
    split at hab
    · have hrun' : Running s' := by
        obtain ⟨b,-,rfl⟩ := Option.map_eq_some_iff.mp hstep
        exact hrun
      exact h.orphan hrun hab hstep (hno hrun')
    · exact hab
  · intro hab
    refine Transition.Along.imp
      (P := fun s => Tracked D s ∧ (Running s → Bridge.Covered s.bridge)) ?_ ?_
      ⟨tracked_init D,by simp [Bridge.Covered,init,Bridge.init,new]⟩ (hall.and hab)
    · rintro s e s' hstep ⟨hcan,hab⟩ ⟨h,hcov⟩
      exact ⟨h.step hcan hstep,fun hrun' => h.covered_step hstep hrun' hcov hab⟩
    · rintro s e s' hstep ⟨h,hcov⟩ ⟨hcan,hab⟩ hrun'
      exact (h.step hcan hstep).noOrphan hrun' (h.covered_step hstep hrun' hcov hab)

/-- A download that the coordinator takes in. -/
theorem noOrphan_iff_not_abandons_download :
    (Transition.run (step (Deps.sample 1 Nat.one_pos)) init
      [.request (.get blobId),.act 0 .enqueue,.recvAdmission]).isSome ∧
    Transition.Along (step (Deps.sample 1 Nat.one_pos)) (fun _ _ s' => Running s' → NoOrphan s') init
      [.request (.get blobId),.act 0 .enqueue,.recvAdmission] := by
  refine ⟨by decide,(noOrphan_iff_not_abandons _ (by decide)).mpr ?_⟩
  exact fun _ _ => ⟨fun _ h => h,fun _ _ => ⟨fun _ h => h,fun _ _ => ⟨fun _ h => h,trivial⟩⟩⟩

/-- Sixteen downloads fill the admission channel; the next one is dropped in its send. -/
def dropped : List Event :=
  ((List.range 16).flatMap fun i => [.request (.get blobId),.act i .enqueue]) ++
    [.request (.get fileId),.act 16 .disconnect]

/-- The entry of the dropped download stays pending with no work behind it, and an upload of
its id is refused. -/
theorem dropped_orphan : ∃ s, Transition.run (step (Deps.sample 1 Nat.one_pos)) init dropped = some s ∧
    Running s ∧ s.admission.length = admissionCapacity ∧
    s.bridge.shared.statusMap.lookup fileId = some ⟨16,[.pending]⟩ ∧ ¬Backed s fileId ∧
    ¬NoOrphan s ∧ newBlob (Deps.sample 1 Nat.one_pos) 17 s.bridge.shared.statusMap fileId
      (some [49]) = .error .conflict := by
  have hlast : (Transition.run (step (Deps.sample 1 Nat.one_pos)) init dropped).map (fun s =>
      (s.bridge.threads,s.admission,s.updates,s.engine.coordinator.held)) =
      some (List.replicate 16 (.accepted blobId) ++ [.got fileId none],
        List.replicate 16 (.getBlob blobId),[],[]) := rfl
  have hrest : (Transition.run (step (Deps.sample 1 Nat.one_pos)) init dropped).map (fun s =>
      (s.engine.coordinator.pipeline.remoteBlobs,s.engine.coordinator.point,s.updating,
        s.bridge.shared.statusMap.lookup fileId,
        newBlob (Deps.sample 1 Nat.one_pos) 17 s.bridge.shared.statusMap fileId (some [49]))) =
      some (∅,.head,true,some ⟨16,[.pending]⟩,.error .conflict) := rfl
  obtain ⟨s,hrun,hparts⟩ := Option.map_eq_some_iff.mp hlast
  rw [hrun] at hrest
  simp only [Prod.mk.injEq] at hparts
  simp only [Option.map_some,Option.some.injEq,Prod.mk.injEq] at hrest
  obtain ⟨hthreads,hqueue,hupdates,hheld⟩ := hparts
  obtain ⟨hremote,hpoint,hupdating,hmap,hconflict⟩ := hrest
  have hidle : ∀ t ∈ s.bridge.threads, t.liveAdmission = none ∧ t ≠ .getting fileId := by
    rw [hthreads]
    decide
  have hback : ¬Backed s fileId := by
    intro h
    cases h with
    | upload thread live =>
      rw [(hidle _ (List.mem_of_getElem? thread)).1] at live
      cases live
    | download thread => exact (hidle _ (List.mem_of_getElem? thread)).2 rfl
    | queued mem id =>
      rw [hqueue] at mem
      rw [List.eq_of_mem_replicate mem] at id
      exact absurd id (by decide)
    | blob mem =>
      rw [hheld] at mem
      cases mem
    | remote mem =>
      rw [hremote] at mem
      cases mem
    | update mem =>
      rw [hupdates] at mem
      cases mem
  refine ⟨s,hrun,⟨by rw [hpoint]; simp,hupdating⟩,by rw [hqueue]; rfl,hmap,hback,
    fun hno => hback (hno fileId _ hmap rfl),hconflict⟩

end Node

end Gozara
