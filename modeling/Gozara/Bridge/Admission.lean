import Gozara.Bridge.Guards

/-!
# Admission is exclusive and all-or-nothing

The invariant of the guarded entries holds after every run of the bridge. From it: one
commit for each id, a `NewBlob` for each commit, and no trace of a request that failed. An
entry that a failed request takes away may be one that a download was promised on: the
second part says exactly when that happens.
-/
namespace Gozara
open BridgeState

section Start
variable {D : Deps} {i : ℕ} {m m' : StatusMap} {id : String}

theorem newBlob_eq_ok {contentLength : Option Bytes} {u : Upload}
    (h : newBlob D i m id contentLength = .ok (m',u)) :
    ∃ k, D.magicTypeId id = some k ∧ m.lookup k = none ∧ m' = m.insert k ⟨i,[.pending]⟩ ∧
      u.id = id ∧ u.admission = ⟨k,false⟩ ∧ (Handler.acquiring u).Sound D [] := by
  unfold newBlob at h
  cases hdecl : declaredLen contentLength with
  | none => simp [hdecl] at h
  | some declared =>
    simp only [hdecl] at h
    split_ifs at h with hzero hlarge
    push Not at hlarge
    unfold Admission.new at h
    cases hid : D.magicTypeId id with
    | none => simp [hid,Except.map] at h
    | some k =>
      cases hk : m.lookup k with
      | some e => simp [hid,hk,Except.map] at h
      | none =>
        simp only [hid,hk,Except.map,Except.ok.injEq,Prod.mk.injEq] at h
        obtain ⟨rfl,rfl⟩ := h
        exact ⟨k,rfl,hk,rfl,rfl,rfl,⟨Nat.pos_of_ne_zero hzero,hlarge.1,rfl,hlarge.2⟩,
          ⟨by simp,by simp,rfl,rfl,Nat.zero_le _⟩,rfl,rfl⟩

/-- A `Content-Length` that passes the checks of `new_blob`. -/
def LengthOk (D : Deps) (contentLength : Option Bytes) : Prop :=
  ∃ declared, declaredLen contentLength = some declared ∧ 0 < declared ∧ declared ≤ maxBlobSize ∧
    (declared+D.chunkSize-1)/D.chunkSize ≤ totalChunkBudget

/-- Then an upload is refused as a conflict where its admission is. -/
theorem newBlob_conflict_iff {contentLength : Option Bytes} (h : LengthOk D contentLength) :
    newBlob D i m id contentLength = .error .conflict ↔
      Admission.new D i m id = .error .conflict := by
  obtain ⟨declared,hdecl,hpos,hsize,hbudget⟩ := h
  have hfits : ¬(maxBlobSize < declared ∨
      totalChunkBudget < (declared+D.chunkSize-1)/D.chunkSize) := by
    rintro (h | h)
    · exact absurd hsize (not_le_of_gt h)
    · exact absurd hbudget (not_le_of_gt h)
  simp only [newBlob,hdecl,if_neg hpos.ne',if_neg hfits]
  cases Admission.new D i m id <;> simp [Except.map]

/-- A download answers at once or goes on to its send, with the entry it found pending or
with one of its own. -/
theorem getBlob_spec (D : Deps) (i : ℕ) (m : StatusMap) (id : String) :
    (∃ id' reply, getBlob D i m id = (m,.got id' reply) ∧
      reply ≠ some ⟨.accepted,none,.text id'⟩) ∨
    ∃ k m', D.magicTypeId id = some k ∧ getBlob D i m id = (m',.getting k) ∧
      ((∃ e, m.lookup k = some e ∧ e.history.getLast? = some .pending ∧ m' = m) ∨
        m.lookup k = none ∧ m' = m.insert k ⟨i,[.pending]⟩) := by
  unfold getBlob
  cases hid : D.magicTypeId id with
  | none => exact Or.inl ⟨id,_,rfl,reject_ne_accepted _ _⟩
  | some k =>
    cases hk : m.lookup k with
    | none => exact Or.inr ⟨k,_,rfl,by simp [hk],Or.inr ⟨hk,rfl⟩⟩
    | some e =>
      simp only [hk]
      cases hlast : e.history.getLast? with
      | none => exact Or.inl ⟨k,none,rfl,by simp⟩
      | some status =>
        cases status with
        | pending => exact Or.inr ⟨k,m,rfl,rfl,Or.inl ⟨e,hk,hlast,rfl⟩⟩
        | finalized => exact Or.inl ⟨k,_,rfl,by simp⟩
        | failed reason => exact Or.inl ⟨k,_,rfl,by simp⟩

end Start

namespace BridgeState
variable {D : Deps} {n i : ℕ} {s s' : BridgeState} {t : Handler} {k : String}

lemma sane_mono (h : Sane D n s) : Sane D (n+1) s :=
  ⟨h.canonical,fun k i hi => Nat.lt_succ_of_lt (h.inserter_lt k i hi),
    fun i msg hi => Nat.lt_succ_of_lt (h.enqueued_lt i msg hi)⟩

lemma inserterOf_insert (s : BridgeState) (k k' : String) (e : Entry) :
    inserterOf { s with statusMap := s.statusMap.insert k e } k' =
      if k' = k then some e.inserter else s.inserterOf k' := by
  unfold inserterOf
  split_ifs with hk
  · rw [hk,AList.lookup_insert]
    rfl
  · rw [AList.lookup_insert_ne hk]

lemma sane_insert (h : Sane D n s) (hk : D.magicTypeId k = some k) :
    Sane D (n+1) { s with statusMap := s.statusMap.insert k ⟨n,[.pending]⟩ } := by
  refine ⟨fun k' e he => ?_,fun k' i hi => ?_,(sane_mono h).enqueued_lt⟩
  · by_cases hk' : k' = k
    · rw [hk']
      exact hk
    · rw [AList.lookup_insert_ne hk'] at he
      exact h.canonical k' e he
  · rw [inserterOf_insert] at hi
    split_ifs at hi with hk'
    · cases hi
      exact Nat.lt_succ_self n
    · exact (sane_mono h).inserter_lt k' i hi

/-- A new request has enqueued nothing yet. -/
lemma guarded_new (h : Sane D n s) (he : s'.enqueued = s.enqueued) (sound : ∃ body, t.Sound D body)
    (owns : ∀ k, t.guard = some k → s'.inserterOf k = some n)
    (only : ∀ k, s'.inserterOf k = some n → t.key = some k)
    (uncommitted : ∀ adm, t.liveAdmission = some adm → adm.committed = false)
    (canonical : ∀ id adm, t.post = some (id,adm) → D.magicTypeId id = some adm.id)
    (unsent : ¬t.Sent) (unaccepted : ∀ id, t ≠ .accepted id) : Guarded D n s' t := by
  have hlog : ∀ msg, (n,msg) ∉ s'.enqueued := fun msg hmsg =>
    lt_irrefl n (h.enqueued_lt n msg (by rwa [he] at hmsg))
  exact ⟨sound,owns,only,uncommitted,canonical,fun blob hb => absurd hb (hlog _),
    fun ht => absurd ht unsent,fun id => iff_of_false (hlog _) (unaccepted id)⟩

lemma ne_inserter (h : Sane D n s) (k : String) : s.inserterOf k ≠ some n := fun hk =>
  lt_irrefl n (h.inserter_lt k n hk)

/-- A new request inserts its own entry or none. -/
theorem request_spec (h : Sane D n s) (b : Request) :
    Sane D (n+1) (s.request D n b).1 ∧ Guarded D n (s.request D n b).1 (s.request D n b).2 ∧
      Frame n s (s.request D n b).1 := by
  cases b with
  | post id contentLength =>
    cases hnew : newBlob D n s.statusMap id contentLength with
    | error code =>
      have hreq : s.request D n (.post id contentLength) =
          (s,.posted id none (some (.reject code))) := by simp only [request,hnew]
      rw [hreq]
      exact ⟨sane_mono h,guarded_new h rfl ⟨[],trivial⟩ (by simp [Handler.guard,Handler.liveAdmission])
        (fun k hk => absurd hk (ne_inserter h k)) (by simp [Handler.liveAdmission])
        (by simp [Handler.post]) (fun hf => hf) (by simp [Handler.accepted]),frame_refl n rfl rfl⟩
    | ok r =>
      obtain ⟨m,u⟩ := r
      have hreq : s.request D n (.post id contentLength) =
          ({ s with statusMap := m },.acquiring u) := by simp only [request,hnew]
      rw [hreq]
      obtain ⟨k,hid,hnone,rfl,huid,hadm,hsound⟩ := newBlob_eq_ok hnew
      have hguard : (Handler.acquiring u).guard = some k := by
        simp [Handler.guard,Handler.liveAdmission,hadm]
      refine ⟨sane_insert h (D.magicTypeId_idem hid),guarded_new h rfl ⟨[],hsound⟩ ?_ ?_ ?_ ?_
        (fun hf => hf) (by simp [Handler.accepted]),frame_insert hnone rfl⟩
      · intro k' hk'
        rw [hguard] at hk'
        cases hk'
        rw [inserterOf_insert,if_pos rfl]
      · intro k' hk'
        rw [inserterOf_insert] at hk'
        split_ifs at hk' with heq
        · rw [heq]
          exact hguard
        · exact absurd hk' (ne_inserter h k')
      · rintro adm ⟨⟩
        rw [hadm]
      · rintro id' adm ⟨⟩
        rw [huid,hadm]
        exact hid
  | get id =>
    have hquiet : ∀ {t : Handler}, (∃ id, t = .getting id) ∨ (∃ id reply, t = .got id reply) →
        (∃ body, t.Sound D body) ∧ t.guard = none ∧ t.liveAdmission = none ∧ t.post = none ∧
          ¬t.Sent := by
      rintro t (⟨id,rfl⟩ | ⟨id,reply,rfl⟩) <;>
        exact ⟨⟨[],trivial⟩,rfl,rfl,rfl,fun hf => hf⟩
    rcases getBlob_spec D n s.statusMap id with ⟨id',reply,heq,hreply⟩ | ⟨k,m',hid,heq,hcase⟩
    · obtain ⟨hsound,hguard,hlive,hpost,hunsent⟩ := hquiet (Or.inr ⟨id',reply,rfl⟩)
      have hreq : s.request D n (.get id) = (s,.got id' reply) := by simp [request,heq]
      rw [hreq]
      refine ⟨sane_mono h,guarded_new h rfl hsound (by simp [hguard])
        (fun k hk => absurd hk (ne_inserter h k)) (by simp [hlive]) (by simp [hpost]) hunsent ?_,
        frame_refl n rfl rfl⟩
      intro id'' heq'
      cases heq'
      exact hreply rfl
    · obtain ⟨hsound,hguard,hlive,hpost,hunsent⟩ := hquiet (Or.inl ⟨k,rfl⟩)
      have hreq : s.request D n (.get id) = ({ s with statusMap := m' },.getting k) := by
        simp [request,heq]
      rw [hreq]
      rcases hcase with ⟨e,-,-,rfl⟩ | ⟨hnone,rfl⟩
      · exact ⟨sane_mono h,guarded_new h rfl hsound (by simp [hguard])
          (fun k hk => absurd hk (ne_inserter h k)) (by simp [hlive]) (by simp [hpost]) hunsent
          (by simp [Handler.accepted]),frame_refl n rfl rfl⟩
      · refine ⟨sane_insert h (D.magicTypeId_idem hid),guarded_new h rfl hsound (by simp [hguard]) ?_
          (by simp [hlive]) (by simp [hpost]) hunsent (by simp [Handler.accepted]),
          frame_insert hnone rfl⟩
        intro k' hk'
        rw [inserterOf_insert] at hk'
        split_ifs at hk' with heq'
        · rw [heq']
          rfl
        · exact absurd hk' (ne_inserter h k')

/-- Updates, hashing tasks and permits from elsewhere move no entry. -/
lemma outside_spec {g : Outside} (h : s.outside g = some s') :
    (∀ k, s'.inserterOf k = s.inserterOf k) ∧ s'.enqueued = s.enqueued := by
  cases g with
  | update msg =>
    cases h
    obtain ⟨id,status⟩ := msg
    refine ⟨fun k => ?_,rfl⟩
    unfold StatusMap.update
    cases hid : s.statusMap.lookup id with
    | none => simp [inserterOf,hid]
    | some e =>
      simp only [hid]
      rw [inserterOf_insert]
      split_ifs with hk
      · rw [hk,inserterOf,hid]
        rfl
      · rfl
  | orphanDone =>
    simp only [outside] at h
    split_ifs at h
    cases h
    exact ⟨fun _ => rfl,rfl⟩
  | release permits =>
    cases h
    exact ⟨fun _ => rfl,rfl⟩

lemma canonical_of_inserterOf (h : Sane D n s) (hk : s.inserterOf k = some i) :
    D.magicTypeId k = some k := by
  obtain ⟨e,he,-⟩ := inserterOf_eq_some.mp hk
  exact h.canonical k e he

theorem preserved (D : Deps) : Pool.Preserved (Bridge.program D) (fun _ _ _ _ _ => True) (Sane D)
    (Guarded D) where
  spawn h := ⟨(request_spec h _).1,(request_spec h _).2.1⟩
  spawn_stable h hi hL := hL.frame (request_spec h _).2.2 (Nat.ne_of_lt hi)
  act h hi hL hact := by
    obtain ⟨body,hsound⟩ := hL.sound
    obtain ⟨hI,hL',-⟩ := hL.act h hi (acts_of_act hsound hact)
    exact ⟨hI,hL'⟩
  act_stable h hi hL hact hj _ hu := by
    obtain ⟨body,hsound⟩ := hL.sound
    exact hu.frame (hL.act h hi (acts_of_act hsound hact)).2.2 hj
  env h henv := by
    obtain ⟨hins,hlog⟩ := outside_spec henv
    refine ⟨fun k e he => ?_,fun k i hi => h.inserter_lt k i (by rwa [hins] at hi),
      fun i msg hi => h.enqueued_lt i msg (by rwa [hlog] at hi)⟩
    exact canonical_of_inserterOf h (by rw [← hins]; exact inserterOf_eq_some.mpr ⟨e,he,rfl⟩)
  env_stable h henv hL := by
    obtain ⟨hins,hlog⟩ := outside_spec henv
    exact ⟨hL.sound,fun k hk => by rw [hins]; exact hL.owns k hk,
      fun k hk => hL.only k (by rwa [hins] at hk),hL.uncommitted,hL.canonical,
      by rw [hlog]; exact hL.newBlob,by rw [hlog]; exact hL.sent,by rw [hlog]; exact hL.getBlob⟩

end BridgeState

namespace Bridge
variable {D : Deps} {es : List Event} {s s' : Bridge} {i j : ℕ}

theorem holds_init (D : Deps) : Pool.Holds (Sane D) (Guarded D) init :=
  ⟨⟨by simp [init,new],by simp [init,new,inserterOf],by simp [init,new]⟩,by simp [init]⟩

theorem holds_run (hrun : Transition.run (step D) init es = some s) :
    Pool.Holds (Sane D) (Guarded D) s :=
  (preserved D).run hrun (holds_init D)

/-- The action of a handler leaves the entries of all other requests as they are. -/
theorem lookup_act {a : Action} (h : Pool.Holds (Sane D) (Guarded D) s)
    (hstep : step D s (.act i a) = some s') {k : String} {e : Entry}
    (he : s.shared.statusMap.lookup k = some e) (hi : e.inserter ≠ i) :
    s'.shared.statusMap.lookup k = some e := by
  obtain ⟨t,sh,t',ht,hact,rfl⟩ := Pool.step_act_eq_some.mp hstep
  have hL := h.thread i t ht
  obtain ⟨body,hsound⟩ := hL.sound
  have hlt : i < s.threads.length := (List.getElem?_eq_some_iff.mp ht).1
  exact ((hL.act h.shared hlt (acts_of_act hsound hact)).2.2.entries k e hi).mpr he

/-- A new request leaves all entries as they are. -/
theorem lookup_request {b : Request} (h : Pool.Holds (Sane D) (Guarded D) s)
    (hstep : step D s (.spawn b) = some s') {k : String} {e : Entry}
    (he : s.shared.statusMap.lookup k = some e) : s'.shared.statusMap.lookup k = some e := by
  cases hstep
  have hi : e.inserter ≠ s.threads.length := Nat.ne_of_lt
    (h.shared.inserter_lt k e.inserter (inserterOf_eq_some.mpr ⟨e,he,rfl⟩))
  exact ((request_spec h.shared b).2.2.entries k e hi).mpr he

theorem inserterOf_committed (h : Pool.Holds (Sane D) (Guarded D) s) {id : String}
    {adm : Admission} {reply : Option Response}
    (ht : s.threads[i]? = some (.posted id (some adm) reply)) (hc : adm.committed = true) :
    s.shared.inserterOf adm.id = some i :=
  (h.thread i _ ht).owns adm.id (by simp [Handler.guard,hc])

/-- Admission is exclusive and all-or-nothing. In every run: two commits for one key are
one commit; a `new_blob` that has ended enqueued its `NewBlob` exactly if it committed, and
otherwise left no entry of its own; and neither its start nor any of its actions removes or
changes an entry that another request inserted. -/
theorem admission_exclusive (hrun : Transition.run (step D) init es = some s) :
    (∀ (i j : ℕ) id id' adm adm' reply reply', s.threads[i]? = some (.posted id (some adm) reply) →
      s.threads[j]? = some (.posted id' (some adm') reply') → adm.committed = true →
      adm'.committed = true → adm.id = adm'.id → i = j) ∧
    (∀ (i : ℕ) id adm reply, s.threads[i]? = some (.posted id adm reply) →
      ((∃ blob, (i,.newBlob blob) ∈ s.shared.enqueued) ↔
        ∃ a, adm = some a ∧ a.committed = true) ∧
      ((∀ a, adm = some a → a.committed = false) →
        ∀ k e, s.shared.statusMap.lookup k = some e → e.inserter ≠ i)) ∧
    (∀ i a s', step D s (.act i a) = some s' → ∀ k e, s.shared.statusMap.lookup k = some e →
      e.inserter ≠ i → s'.shared.statusMap.lookup k = some e) ∧
    ∀ b s', step D s (.spawn b) = some s' → ∀ k e, s.shared.statusMap.lookup k = some e →
      s'.shared.statusMap.lookup k = some e := by
  have h := holds_run hrun
  refine ⟨?_,?_,fun i a s' hstep k e he hi => lookup_act h hstep he hi,
    fun b s' hstep k e he => lookup_request h hstep he⟩
  · intro i j id id' adm adm' reply reply' hi hj hc hc' hid
    have hown := inserterOf_committed h hi hc
    rw [hid,inserterOf_committed h hj hc'] at hown
    exact (Option.some.inj hown).symm
  · intro i id adm reply ht
    have hL := h.thread i _ ht
    refine ⟨⟨?_,?_⟩,?_⟩
    · rintro ⟨blob,hb⟩
      have hsent := (hL.newBlob blob hb).1
      cases adm with
      | none => exact hsent.elim
      | some a => exact ⟨a,rfl,hsent⟩
    · rintro ⟨a,rfl,hc⟩
      exact hL.sent hc
    · intro hun k e he hi
      have hkey := hL.only k (inserterOf_eq_some.mpr ⟨e,he,hi⟩)
      cases adm with
      | none => simp [Handler.key,Handler.guard,Handler.liveAdmission] at hkey
      | some a => simp [Handler.key,Handler.guard,hun a rfl] at hkey

/-- One upload commits, a second one for the same id is refused, a third one is cancelled. -/
def uploads : List Event :=
  [.spawn (.post blobId (some [49])),.act 0 .acquire,.act 0 (.frame [7]),.act 0 .hashStart,
    .spawn (.post blobId (some [49])),.act 0 .hashDone,.act 0 .bodyEnd,.act 0 .enqueue,
    .act 0 .commit,.spawn (.post fileId (some [50])),.act 2 .acquire,.act 2 .disconnect,
    .act 2 .unwind]

theorem admission_exclusive_uploads :
    ∃ s, Transition.run (step (Deps.sample 1 Nat.one_pos)) init uploads = some s ∧
      (∃ blob, (0,ToPipeline.newBlob blob) ∈ s.shared.enqueued) ∧
      (¬∃ blob, (1,ToPipeline.newBlob blob) ∈ s.shared.enqueued) ∧
      (∀ k e, s.shared.statusMap.lookup k = some e → e.inserter ≠ 2) := by
  have hsome : (Transition.run (step (Deps.sample 1 Nat.one_pos)) init uploads).isSome := by decide
  have hrun := (Option.some_get hsome).symm
  obtain ⟨-,hended,-⟩ := admission_exclusive hrun
  refine ⟨_,hrun,?_,?_,?_⟩
  · exact (hended 0 blobId (some ⟨blobId,true⟩) _ rfl).1.mpr ⟨_,rfl,rfl⟩
  · rw [(hended 1 blobId none _ rfl).1]
    simp
  · exact (hended 2 fileId (some ⟨fileId,false⟩) none rfl).2 (by rintro a ⟨⟩; rfl)

end Bridge

end Gozara
