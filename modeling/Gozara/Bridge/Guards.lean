import Gozara.Bridge.Handlers

/-!
# Handlers and the entries they guard

Each entry of the status map belongs to the request that inserted it. A `new_blob` owns its
entry from its admission on, and for ever once it has committed; no step of another request
removes or changes an entry that is not its own. The messages that a request enqueued are
decided by where its handler is.
-/
namespace Gozara

namespace Handler

/-- The key of the entry that a `new_blob` owns. -/
def guard : Handler → Option String
  | posted _ (some adm) _ => if adm.committed then some adm.id else none
  | h => h.liveAdmission.map Admission.id

/-- The only key under which a request can have an entry. -/
def key : Handler → Option String
  | getting id | got id _ => some id
  | h => h.guard

/-- The `NewBlob` is enqueued. -/
def Sent : Handler → Prop
  | sent _ _ => True
  | posted _ (some adm) _ => adm.committed = true
  | _ => False

variable {t : Handler} {adm : Admission}

lemma guard_of_live (h : t.liveAdmission = some adm) :
    t.guard = some adm.id ∧ t.key = some adm.id := by
  cases t <;> simp_all [liveAdmission,guard,key]

lemma guard_of_sent (h : t.Sent) {id : String} (hp : t.post = some (id,adm)) :
    t.guard = some adm.id := by
  cases t <;> simp_all [Sent,post,guard,liveAdmission]

lemma ne_accepted_of_live (h : t.liveAdmission = some adm) (id : String) : t ≠ accepted id := by
  rintro rfl
  cases h

lemma Continues.live_post {u : Upload} {h : Handler} (hc : Continues u h) :
    h.post = some (u.id,u.admission) ∧ h.liveAdmission = some u.admission ∧ ¬h.Sent ∧
      h.permits = u.numChunks := by
  rcases hc.live with ⟨v,rfl⟩ | ⟨v,chunk,next,rfl⟩ | ⟨adm,blob,rfl⟩
  · obtain ⟨hid,hadm,-,hnum⟩ := hc.upload v rfl
    simp [post,liveAdmission,Sent,permits,hid,hadm,hnum]
  · obtain ⟨hid,hadm,-,hnum⟩ := hc.upload v rfl
    simp [post,liveAdmission,Sent,permits,hid,hadm,hnum]
  · obtain ⟨hadm,hid,hall⟩ := hc.sending adm blob rfl
    simp [post,liveAdmission,Sent,permits,hid,hadm,hall]

lemma post_of_upload {u : Upload} (h : t.upload? = some u) :
    t.post = some (u.id,u.admission) ∧ t.liveAdmission = some u.admission ∧ ¬t.Sent := by
  cases t <;> simp_all [upload?,post,liveAdmission,Sent]

end Handler

namespace BridgeState

/-- The number of the request that inserted the entry of a key. -/
def inserterOf (s : BridgeState) (k : String) : Option ℕ :=
  (s.statusMap.lookup k).map Entry.inserter

/-- The part of the invariant about the shared state, after `n` requests. -/
structure Sane (D : Deps) (n : ℕ) (s : BridgeState) : Prop where
  canonical : ∀ k e, s.statusMap.lookup k = some e → D.magicTypeId k = some k
  inserter_lt : ∀ k i, s.inserterOf k = some i → i < n
  enqueued_lt : ∀ i msg, (i,msg) ∈ s.enqueued → i < n

/-- The part of the invariant about request `i`. -/
structure Guarded (D : Deps) (i : ℕ) (s : BridgeState) (t : Handler) : Prop where
  sound : ∃ body, t.Sound D body
  owns : ∀ k, t.guard = some k → s.inserterOf k = some i
  only : ∀ k, s.inserterOf k = some i → t.key = some k
  uncommitted : ∀ adm, t.liveAdmission = some adm → adm.committed = false
  canonical : ∀ id adm, t.post = some (id,adm) → D.magicTypeId id = some adm.id
  newBlob : ∀ blob, (i,.newBlob blob) ∈ s.enqueued →
    t.Sent ∧ (∃ adm, t.post = some (blob.id,adm)) ∧ ∃ body, blob.Whole D body
  sent : t.Sent → ∃ blob, (i,.newBlob blob) ∈ s.enqueued
  getBlob : ∀ id, (i,.getBlob id) ∈ s.enqueued ↔ t = .accepted id

/-- Request `i` changed nothing but its own entry and its own messages. -/
structure Frame (i : ℕ) (s s' : BridgeState) : Prop where
  entries : ∀ k e, e.inserter ≠ i → (s'.statusMap.lookup k = some e ↔ s.statusMap.lookup k = some e)
  log : ∀ j msg, j ≠ i → ((j,msg) ∈ s'.enqueued ↔ (j,msg) ∈ s.enqueued)

variable {D : Deps} {i j n : ℕ} {s s' : BridgeState} {t t' : Handler} {k : String} {a : Action}

lemma inserterOf_eq_some : s.inserterOf k = some i ↔
    ∃ e, s.statusMap.lookup k = some e ∧ e.inserter = i := by
  simp [inserterOf]

lemma frame_refl (i : ℕ) {s s' : BridgeState} (hm : s'.statusMap = s.statusMap)
    (he : s'.enqueued = s.enqueued) : Frame i s s' :=
  ⟨fun k e _ => by rw [hm],fun j msg _ => by rw [he]⟩

lemma frame_insert {m : StatusMap} (hnone : s.statusMap.lookup k = none)
    (hm : m = s.statusMap.insert k ⟨i,[.pending]⟩) : Frame i s { s with statusMap := m } := by
  refine ⟨fun k' e he => ?_,fun _ _ _ => Iff.rfl⟩
  subst hm
  by_cases hk : k' = k
  · subst hk
    simp only [AList.lookup_insert,hnone,Option.some.injEq,reduceCtorEq,iff_false]
    rintro rfl
    exact he rfl
  · simp only [AList.lookup_insert_ne hk]

lemma frame_erase (hown : s.inserterOf k = some i) :
    Frame i s { s with statusMap := s.statusMap.erase k } := by
  refine ⟨fun k' e he => ?_,fun _ _ _ => Iff.rfl⟩
  by_cases hk : k' = k
  · subst hk
    obtain ⟨e',he',hi⟩ := inserterOf_eq_some.mp hown
    simp only [AList.lookup_erase,he',Option.some.injEq,reduceCtorEq,false_iff]
    rintro rfl
    exact he hi
  · simp only [AList.lookup_erase_ne hk]

lemma frame_enqueue (i : ℕ) (s : BridgeState) (msg : ToPipeline) :
    Frame i s { s with enqueued := s.enqueued ++ [(i,msg)] } := by
  refine ⟨fun _ _ _ => Iff.rfl,fun j msg' hj => ?_⟩
  simp only [List.mem_append,List.mem_singleton,Prod.mk.injEq,or_iff_left_iff_imp]
  exact fun h => absurd h.1 hj

lemma Frame.inserterOf_iff (h : Frame i s s') (hj : j ≠ i) :
    s'.inserterOf k = some j ↔ s.inserterOf k = some j := by
  simp only [inserterOf_eq_some]
  constructor
  · rintro ⟨e,he,rfl⟩
    exact ⟨e,(h.entries k e hj).mp he,rfl⟩
  · rintro ⟨e,he,rfl⟩
    exact ⟨e,(h.entries k e hj).mpr he,rfl⟩

/-- What another request does leaves the invariant of request `j`. -/
theorem Guarded.frame (h : Guarded D j s t) (hf : Frame i s s') (hj : j ≠ i) :
    Guarded D j s' t where
  sound := h.sound
  owns k hk := (hf.inserterOf_iff hj).mpr (h.owns k hk)
  only k hk := h.only k ((hf.inserterOf_iff hj).mp hk)
  uncommitted := h.uncommitted
  canonical := h.canonical
  newBlob blob hb := h.newBlob blob ((hf.log j _ hj).mp hb)
  sent ht := by
    obtain ⟨blob,hb⟩ := h.sent ht
    exact ⟨blob,(hf.log j _ hj).mpr hb⟩
  getBlob id := (hf.log j _ hj).trans (h.getBlob id)

/-- A step between two points of a live `new_blob`, neither of which has sent. -/
theorem Guarded.goesOn (h : Guarded D i s t) {id : String} {adm : Admission}
    (post : t.post = some (id,adm)) (live : t.liveAdmission = some adm) (unsent : ¬t.Sent)
    (post' : t'.post = some (id,adm)) (live' : t'.liveAdmission = some adm) (unsent' : ¬t'.Sent)
    (sound : ∃ body, t'.Sound D body) (hm : s'.statusMap = s.statusMap)
    (he : s'.enqueued = s.enqueued) : Guarded D i s' t' where
  sound := sound
  owns k hk := by
    rw [(Handler.guard_of_live live').1] at hk
    rw [inserterOf,hm]
    exact h.owns k (by rw [(Handler.guard_of_live live).1,hk])
  only k hk := by
    rw [inserterOf,hm] at hk
    rw [(Handler.guard_of_live live').2,← (Handler.guard_of_live live).2]
    exact h.only k hk
  uncommitted adm' hadm := by
    rw [live'] at hadm
    cases hadm
    exact h.uncommitted adm live
  canonical id' adm' hpost := by
    rw [post'] at hpost
    cases hpost
    exact h.canonical id adm post
  newBlob blob hb := absurd (h.newBlob blob (by rwa [he] at hb)).1 unsent
  sent ht := absurd ht unsent'
  getBlob id' := by
    rw [he,h.getBlob]
    exact iff_of_false (Handler.ne_accepted_of_live live id') (Handler.ne_accepted_of_live live' id')

lemma sane_congr (h : Sane D n s) (hm : s'.statusMap = s.statusMap)
    (he : s'.enqueued = s.enqueued) : Sane D n s' := by
  refine ⟨?_,?_,?_⟩
  · rw [hm]
    exact h.canonical
  · unfold inserterOf
    rw [hm]
    exact h.inserter_lt
  · rw [he]
    exact h.enqueued_lt

lemma sane_enqueue (h : Sane D n s) (hi : i < n) (msg : ToPipeline) :
    Sane D n { s with enqueued := s.enqueued ++ [(i,msg)] } := by
  refine ⟨h.canonical,h.inserter_lt,fun j msg' hj => ?_⟩
  rcases List.mem_append.mp hj with hj | hj
  · exact h.enqueued_lt j msg' hj
  · cases List.mem_singleton.mp hj
    exact hi

lemma sane_erase (h : Sane D n s) (k : String) :
    Sane D n { s with statusMap := s.statusMap.erase k } := by
  have hlookup : ∀ k' e, (s.statusMap.erase k).lookup k' = some e →
      s.statusMap.lookup k' = some e := by
    intro k' e he
    by_cases hk : k' = k
    · subst hk
      simp at he
    · rwa [AList.lookup_erase_ne hk] at he
  refine ⟨fun k' e he => h.canonical k' e (hlookup k' e he),fun k' j hj => ?_,h.enqueued_lt⟩
  obtain ⟨e,he,hi⟩ := inserterOf_eq_some.mp hj
  exact h.inserter_lt k' j (inserterOf_eq_some.mpr ⟨e,hlookup k' e he,hi⟩)

/-- Each action keeps the invariant and leaves the other requests alone. -/
theorem Guarded.act (h : Guarded D i s t) (hs : Sane D n s) (hi : i < n)
    (hacts : Acts D i s t a s' t') : Sane D n s' ∧ Guarded D i s' t' ∧ Frame i s s' := by
  cases hacts with
  | @acquired u enough =>
    obtain ⟨body,hd,hsp,hbuf,hchunks⟩ := h.sound
    refine ⟨sane_congr hs rfl rfl,h.goesOn rfl rfl id rfl rfl id ⟨body,hd,?_,?_⟩ rfl rfl,
      frame_refl i rfl rfl⟩
    · rw [hbuf]
      exact hsp
    · rw [hbuf]
      exact D.chunkSize_pos
  | refused =>
    exact ⟨hs,h.goesOn rfl rfl id rfl rfl id ⟨[],trivial⟩ rfl rfl,frame_refl i rfl rfl⟩
  | proceed upload permits sound goesOn =>
    obtain ⟨hpost,hlive,hunsent⟩ := Handler.post_of_upload upload
    refine ⟨sane_congr hs rfl rfl,?_,frame_refl i rfl rfl⟩
    rcases goesOn with hc | ⟨chunk,next,rfl⟩
    · obtain ⟨hpost',hlive',hunsent',-⟩ := hc.live_post
      exact h.goesOn hpost hlive hunsent hpost' hlive' hunsent' sound rfl rfl
    · exact h.goesOn hpost hlive hunsent rfl rfl id sound rfl rfl
  | leave post live outbox =>
    have hunsent : ¬t.Sent := by
      cases t <;> simp_all [Handler.Sent,Handler.liveAdmission]
    exact ⟨sane_congr hs rfl rfl,h.goesOn post live hunsent rfl rfl id ⟨[],trivial⟩ rfl rfl,
      frame_refl i rfl rfl⟩
  | @sent adm blob =>
    refine ⟨sane_enqueue hs hi _,?_,frame_enqueue i s _⟩
    refine ⟨⟨[],trivial⟩,h.owns,h.only,h.uncommitted,h.canonical,fun b hb => ?_,
      fun _ => ⟨blob,by simp⟩,fun id => ?_⟩
    · rcases List.mem_append.mp hb with hb | hb
      · exact absurd (h.newBlob b hb).1 id
      · cases List.mem_singleton.mp hb
        exact ⟨trivial,⟨adm,rfl⟩,h.sound⟩
    · have hget := h.getBlob id
      simp only [List.mem_append,List.mem_singleton,Prod.mk.injEq,reduceCtorEq,and_false,or_false]
      rw [hget]
      simp [Handler.accepted]
  | @commit adm id reply =>
    have hdrop : adm.commit.drop s.statusMap = s.statusMap := rfl
    rw [hdrop]
    refine ⟨hs,⟨⟨[],trivial⟩,h.owns,h.only,?_,?_,fun b hb => ?_,?_,fun id' => ?_⟩,
      frame_refl i rfl rfl⟩
    · rintro adm' ⟨⟩
    · rintro id' adm' ⟨⟩
      exact h.canonical id adm rfl
    · obtain ⟨-,⟨adm',hpost⟩,hwhole⟩ := h.newBlob b hb
      cases hpost
      exact ⟨rfl,⟨_,rfl⟩,hwhole⟩
    · exact fun _ => h.sent trivial
    · rw [h.getBlob]
      simp [Handler.accepted]
  | @unwind adm id reply =>
    have hun : adm.committed = false := h.uncommitted adm rfl
    have hdrop : adm.drop s.statusMap = s.statusMap.erase adm.id := by
      simp [Admission.drop,hun]
    have hown : s.inserterOf adm.id = some i := h.owns adm.id rfl
    rw [hdrop]
    refine ⟨sane_erase hs _,⟨⟨[],trivial⟩,?_,?_,?_,?_,?_,?_,fun id' => ?_⟩,frame_erase hown⟩
    · intro k hk
      simp [Handler.guard,hun] at hk
    · intro k hk
      obtain ⟨e,he,hi⟩ := inserterOf_eq_some.mp hk
      by_cases hk' : k = adm.id
      · subst hk'
        simp at he
      · rw [AList.lookup_erase_ne hk'] at he
        have hkey := h.only k (inserterOf_eq_some.mpr ⟨e,he,hi⟩)
        exact absurd (Option.some.inj hkey).symm hk'
    · rintro adm' ⟨⟩
    · rintro id' adm' ⟨⟩
      exact h.canonical id adm rfl
    · exact fun b hb => absurd (h.newBlob b hb).1 (fun hf => hf)
    · intro hsent
      simp [Handler.Sent,hun] at hsent
    · rw [h.getBlob]
      simp [Handler.accepted]
  | @accepted id =>
    refine ⟨sane_enqueue hs hi _,⟨⟨[],trivial⟩,h.owns,h.only,h.uncommitted,h.canonical,fun b hb => ?_,
      fun hf => hf.elim,fun id' => ?_⟩,frame_enqueue i s _⟩
    · rcases List.mem_append.mp hb with hb | hb
      · exact absurd (h.newBlob b hb).1 (fun hf => hf)
      · simp at hb
    · simp only [List.mem_append,List.mem_singleton,Prod.mk.injEq,true_and,ToPipeline.getBlob.injEq]
      rw [h.getBlob]
      simp [Handler.accepted,eq_comm]
  | @given id a reply hreply =>
    refine ⟨hs,⟨⟨[],trivial⟩,h.owns,h.only,h.uncommitted,h.canonical,fun b hb => ?_,
      fun hf => hf.elim,fun id' => ?_⟩,frame_refl i rfl rfl⟩
    · exact absurd (h.newBlob b hb).1 (fun hf => hf)
    · rw [h.getBlob]
      simp only [Handler.accepted,reduceCtorEq,Handler.got.injEq,false_iff,not_and]
      rintro rfl
      exact hreply

/-- The only action that changes the keys of the status map is the drop of an admission. -/
theorem statusMap_act (h : Guarded D i s t) (hacts : Acts D i s t a s' t') :
    s'.statusMap = s.statusMap ∨ a = .unwind ∧
      ∃ id adm reply, t = .unwinding id adm reply ∧ s'.statusMap = s.statusMap.erase adm.id := by
  cases hacts with
  | @unwind adm id reply =>
    refine Or.inr ⟨rfl,id,adm,reply,rfl,?_⟩
    simp [Admission.drop,h.uncommitted adm rfl]
  | _ => exact Or.inl rfl

/-- A message is logged when it is enqueued; nothing else is. -/
theorem enqueued_act (hacts : Acts D i s t a s' t') :
    s'.enqueued = s.enqueued ++ if a = .enqueue then (t.outbox.map fun msg => (i,msg)).toList else [] := by
  cases hacts with
  | proceed _ _ _ _ action => simp [action.1]
  | leave _ _ _ action => simp [action.1]
  | given _ action => rcases action with rfl | rfl <;> simp
  | sent => simp [Handler.outbox]
  | accepted => simp [Handler.outbox]
  | _ => simp

end BridgeState

end Gozara
