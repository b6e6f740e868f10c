import Gozara.Bridge.Admission
import Gozara.Library.Refinement

/-!
# The registry of ids

What the status map is for, without handlers, semaphores and channels: an id is free until a
download asks for it or an upload claims it, a claim is given up or accepted, and what was
accepted is stored in the end. The bridge refines this registry.
-/
namespace Gozara

/-- What has become of an id; the number is that of the request that uploads it. -/
inductive Phase
  | free
  | asked
  | uploading (i : ℕ)
  | accepted (i : ℕ)
  | stored (i : ℕ)
  deriving DecidableEq

/-- The number of requests so far and the phase of each id. -/
@[ext]
structure Registry (κ : Type*) where
  count : ℕ
  phase : κ → Phase

namespace Registry
variable {κ : Type*}

def new : Registry κ := ⟨0,fun _ => .free⟩

/-- One more request. -/
def next (r : Registry κ) : Registry κ := { r with count := r.count+1 }

@[simp] theorem phase_next (r : Registry κ) : r.next.phase = r.phase := rfl

variable [DecidableEq κ]

def set (r : Registry κ) (k : κ) (ph : Phase) : Registry κ :=
  { r with phase := Function.update r.phase k ph }

inductive Step (r : Registry κ) : Registry κ → Prop
  | request : Step r r.next
  | ask {k : κ} (free : r.phase k = .free) : Step r (r.set k .asked).next
  | upload {k : κ} (free : r.phase k = .free) : Step r (r.set k (.uploading r.count)).next
  | rollback {k : κ} {i : ℕ} (claim : r.phase k = .uploading i) : Step r (r.set k .free)
  | accept {k : κ} {i : ℕ} (claim : r.phase k = .uploading i) : Step r (r.set k (.accepted i))
  | store {k : κ} {i : ℕ} (held : r.phase k = .accepted i) : Step r (r.set k (.stored i))

variable {r r' : Registry κ} {k k' : κ} {ph : Phase} {i : ℕ}

@[simp] theorem phase_set_self (r : Registry κ) (k : κ) (ph : Phase) :
    (r.set k ph).phase k = ph := by simp [set]

theorem phase_set_of_ne (r : Registry κ) (ph : Phase) (h : k' ≠ k) :
    (r.set k ph).phase k' = r.phase k' := by simp [set,h]

/-- A step takes each id along the life of an id or leaves it. -/
theorem Step.phase (h : Step r r') (k : κ) : r'.phase k = r.phase k ∨
    (r.phase k = .free ∧ r'.count = r.count+1 ∧
      (r'.phase k = .asked ∨ r'.phase k = .uploading r.count)) ∨
    (∃ i, r.phase k = .uploading i ∧ (r'.phase k = .free ∨ r'.phase k = .accepted i)) ∨
    ∃ i, r.phase k = .accepted i ∧ r'.phase k = .stored i := by
  have hset : ∀ (k' : κ) (ph : Phase), (r.set k' ph).phase k = r.phase k ∨
      k = k' ∧ (r.set k' ph).phase k = ph := by
    intro k' ph
    by_cases hk : k = k'
    · subst hk
      exact Or.inr ⟨rfl,phase_set_self r k ph⟩
    · exact Or.inl (phase_set_of_ne r ph hk)
  cases h with
  | request => exact Or.inl rfl
  | @ask k' free =>
    rcases hset k' .asked with hk | ⟨rfl,hk⟩
    · exact Or.inl hk
    · exact Or.inr (Or.inl ⟨free,rfl,Or.inl hk⟩)
  | @upload k' free =>
    rcases hset k' (.uploading r.count) with hk | ⟨rfl,hk⟩
    · exact Or.inl hk
    · exact Or.inr (Or.inl ⟨free,rfl,Or.inr hk⟩)
  | @rollback k' i claim =>
    rcases hset k' .free with hk | ⟨rfl,hk⟩
    · exact Or.inl hk
    · exact Or.inr (Or.inr (Or.inl ⟨i,claim,Or.inl hk⟩))
  | @accept k' i claim =>
    rcases hset k' (.accepted i) with hk | ⟨rfl,hk⟩
    · exact Or.inl hk
    · exact Or.inr (Or.inr (Or.inl ⟨i,claim,Or.inr hk⟩))
  | @store k' i held =>
    rcases hset k' (.stored i) with hk | ⟨rfl,hk⟩
    · exact Or.inl hk
    · exact Or.inr (Or.inr (Or.inr ⟨i,held,hk⟩))

/-- An id that a download has asked for stays asked for. -/
theorem Step.asked (h : Step r r') (hk : r.phase k = .asked) : r'.phase k = .asked := by
  rcases h.phase k with heq | ⟨hfree,-⟩ | ⟨i,hup,-⟩ | ⟨i,hacc,-⟩
  · rw [heq,hk]
  · cases hk.symm.trans hfree
  · cases hk.symm.trans hup
  · cases hk.symm.trans hacc

/-- An upload that was accepted keeps its id. -/
theorem Step.kept (h : Step r r') (hk : r.phase k = .accepted i ∨ r.phase k = .stored i) :
    r'.phase k = .accepted i ∨ r'.phase k = .stored i := by
  rcases h.phase k with heq | ⟨hfree,-⟩ | ⟨j,hup,-⟩ | ⟨j,hacc,hsto⟩
  · rwa [heq]
  · rw [hfree] at hk
    rcases hk with hk | hk <;> cases hk
  · rw [hup] at hk
    rcases hk with hk | hk <;> cases hk
  · rw [hacc] at hk
    rcases hk with hk | hk
    · cases hk
      exact Or.inr hsto
    · cases hk

theorem Step.count_le (h : Step r r') : r.count ≤ r'.count := by
  cases h <;> simp [next,set]

/-- Without a further request no id is taken. -/
theorem Step.phase_of_count (h : Step r r') (hcount : r'.count = r.count) (k : κ) :
    r'.phase k = r.phase k ∨
      (∃ i, r.phase k = .uploading i ∧ (r'.phase k = .free ∨ r'.phase k = .accepted i)) ∨
        ∃ i, r.phase k = .accepted i ∧ r'.phase k = .stored i := by
  rcases h.phase k with heq | ⟨-,hnext,-⟩ | hrest
  · exact Or.inl heq
  · omega
  · exact Or.inr hrest

/-- A claim is given up or accepted, when there is no further request. -/
theorem claim_settles (h : Relation.ReflTransGen Step r r') (hcount : r'.count = r.count)
    (hk : r.phase k = .uploading i) : r'.phase k = .uploading i ∨ r'.phase k = .free ∨
      r'.phase k = .accepted i ∨ r'.phase k = .stored i := by
  have hle : ∀ {a b : Registry κ}, Relation.ReflTransGen Step a b → a.count ≤ b.count := by
    intro a b hab
    induction hab with
    | refl => exact Nat.le_refl _
    | tail _ hstep ih => exact ih.trans hstep.count_le
  induction h with
  | refl => exact Or.inl hk
  | @tail b c hab hbc ih =>
    have hb : b.count = r.count := Nat.le_antisymm (hcount ▸ hbc.count_le) (hle hab)
    have hphase := hbc.phase_of_count (hcount.trans hb.symm) k
    rcases ih hb with hup | hfree | hacc | hsto
    · rcases hphase with heq | ⟨j,hj,hnext⟩ | ⟨j,hj,-⟩
      · exact Or.inl (heq.trans hup)
      · cases hup.symm.trans hj
        exact Or.inr (hnext.imp_right Or.inl)
      · cases hup.symm.trans hj
    · rcases hphase with heq | ⟨j,hj,-⟩ | ⟨j,hj,-⟩
      · exact Or.inr (Or.inl (heq.trans hfree))
      · cases hfree.symm.trans hj
      · cases hfree.symm.trans hj
    · rcases hphase with heq | ⟨j,hj,-⟩ | ⟨j,hj,hnext⟩
      · exact Or.inr (Or.inr (Or.inl (heq.trans hacc)))
      · cases hacc.symm.trans hj
      · cases hacc.symm.trans hj
        exact Or.inr (Or.inr (Or.inr hnext))
    · rcases hphase with heq | ⟨j,hj,-⟩ | ⟨j,hj,-⟩
      · exact Or.inr (Or.inr (Or.inr (heq.trans hsto)))
      · cases hsto.symm.trans hj
      · cases hsto.symm.trans hj

end Registry

namespace Handler

/-- The phase of the id that request `i` has inserted. -/
def phase (i : ℕ) : Handler → Phase
  | acquiring _ | streaming _ | hashing _ _ _ _ | sending _ _ | unwinding _ _ _ => .uploading i
  | sent _ _ => .accepted i
  | posted _ (some adm) _ => if adm.committed then .accepted i else .free
  | posted _ none _ => .free
  | getting _ | got _ _ => .asked

variable {t : Handler} {i : ℕ}

lemma phase_of_sent (h : t.Sent) : t.phase i = .accepted i := by
  unfold Sent at h
  split at h
  · rfl
  · simp [phase,h]
  · cases h

lemma sent_of_phase {j : ℕ} (h : t.phase j = .accepted i) : j = i ∧ t.Sent := by
  cases t with
  | sent adm id =>
    cases h
    exact ⟨rfl,trivial⟩
  | posted id adm reply =>
    cases adm with
    | none => cases h
    | some adm =>
      simp only [phase] at h
      split_ifs at h with hc
      cases h
      exact ⟨rfl,hc⟩
  | _ => cases h

lemma unsent_of_phase {j : ℕ} (h : t.phase j = .uploading i) :
    j = i ∧ ¬t.Sent ∧ ∃ adm, t.liveAdmission = some adm := by
  cases t with
  | posted id adm reply =>
    cases adm with
    | none => cases h
    | some adm =>
      simp only [phase] at h
      split_ifs at h
  | sent adm id => cases h
  | getting id => cases h
  | got id reply => cases h
  | _ =>
    cases h
    exact ⟨rfl,fun hf => hf,_,rfl⟩

lemma phase_ne_stored (t : Handler) (i j : ℕ) : t.phase i ≠ .stored j := by
  cases t with
  | posted id adm reply =>
    cases adm with
    | none => simp [phase]
    | some adm =>
      simp only [phase]
      split_ifs <;> simp
  | _ => simp [phase]

lemma phase_of_live {adm : Admission} (h : t.liveAdmission = some adm)
    (hsent : ∀ id, t ≠ .sent adm id) : t.phase i = .uploading i := by
  cases t with
  | sent adm' id =>
    cases h
    exact absurd rfl (hsent id)
  | posted id adm' reply => cases h
  | getting id => cases h
  | got id reply => cases h
  | _ => rfl

end Handler

namespace Bridge
open BridgeState

def phaseOf (s : Bridge) (k : String) : Phase :=
  match s.shared.statusMap.lookup k with
  | none => .free
  | some e =>
    if .finalized ∈ e.history then .stored e.inserter
    else (s.threads[e.inserter]?.map (Handler.phase e.inserter)).getD .free

def registry (s : Bridge) : Registry String := ⟨s.threads.length,s.phaseOf⟩

/-- A history with a report belongs to an upload that has sent its message. -/
def Reported (s : Bridge) : Prop :=
  ∀ k e, s.shared.statusMap.lookup k = some e → .finalized ∈ e.history →
    ∃ t, s.threads[e.inserter]? = some t ∧ t.Sent

variable {D : Deps} {s s' : Bridge} {e : Event} {i : ℕ} {k : String}

lemma phaseOf_none (h : s.shared.statusMap.lookup k = none) : s.phaseOf k = .free := by
  simp [phaseOf,h]

lemma phaseOf_thread {entry : Entry} {t : Handler}
    (h : s.shared.statusMap.lookup k = some entry) (hfin : .finalized ∉ entry.history)
    (ht : s.threads[entry.inserter]? = some t) : s.phaseOf k = t.phase entry.inserter := by
  simp [phaseOf,h,hfin,ht]

/-- The phase of an id depends on its entry and on the request that inserted it. -/
lemma phaseOf_congr (hmap : s'.shared.statusMap.lookup k = s.shared.statusMap.lookup k)
    (hthread : ∀ entry, s.shared.statusMap.lookup k = some entry →
      s'.threads[entry.inserter]?.map (Handler.phase entry.inserter) =
        s.threads[entry.inserter]?.map (Handler.phase entry.inserter)) :
    s'.phaseOf k = s.phaseOf k := by
  unfold phaseOf
  rw [hmap]
  cases hk : s.shared.statusMap.lookup k with
  | none => rfl
  | some entry => simp only [hthread entry hk]

lemma registry_eq_set {ph : Phase} (hlen : s'.threads.length = s.threads.length)
    (hk : s'.phaseOf k = ph) (hne : ∀ k', k' ≠ k → s'.phaseOf k' = s.phaseOf k') :
    s'.registry = s.registry.set k ph := by
  refine Registry.ext hlen (funext fun k' => ?_)
  by_cases hk' : k' = k
  · subst hk'
    rw [Registry.phase_set_self]
    exact hk
  · rw [Registry.phase_set_of_ne _ _ hk']
    exact hne k' hk'

/-- A claim is that of a live upload that has not sent its message. -/
lemma thread_of_uploading (h : s.phaseOf k = .uploading i) : ∃ t, s.threads[i]? = some t ∧
    ¬t.Sent ∧ ∃ adm, t.liveAdmission = some adm := by
  unfold phaseOf at h
  split at h
  · cases h
  · rename_i entry he
    split_ifs at h with hfin
    cases ht : s.threads[entry.inserter]? with
    | none => simp [ht] at h
    | some t =>
      simp only [ht,Option.map_some,Option.getD_some] at h
      obtain ⟨rfl,hunsent,hlive⟩ := Handler.unsent_of_phase h
      exact ⟨t,ht,hunsent,hlive⟩

/-- An id that is accepted or stored is held by an upload that has sent its message. -/
lemma sent_of_held (hrep : Reported s) (h : s.phaseOf k = .accepted i ∨ s.phaseOf k = .stored i) :
    ∃ t, s.threads[i]? = some t ∧ t.Sent := by
  unfold phaseOf at h
  split at h
  · rcases h with h | h <;> cases h
  · rename_i entry he
    split_ifs at h with hfin
    · rcases h with h | h
      · cases h
      · cases h
        exact hrep k entry he hfin
    · cases ht : s.threads[entry.inserter]? with
      | none => simp [ht] at h
      | some t =>
        simp only [ht,Option.map_some,Option.getD_some] at h
        rcases h with h | h
        · obtain ⟨rfl,hsent⟩ := Handler.sent_of_phase h
          exact ⟨t,ht,hsent⟩
        · exact absurd h (Handler.phase_ne_stored t _ _)

/-- What a handler does within the life of its id, with no change of the status map. -/
lemma registry_quiet {t t' : Handler} {sh : BridgeState} (ht : s.threads[i]? = some t)
    (hmap : sh.statusMap = s.shared.statusMap) (hphase : t'.phase i = t.phase i) :
    registry ⟨sh,s.threads.set i t'⟩ = s.registry := by
  have hi : i < s.threads.length := (List.getElem?_eq_some_iff.mp ht).1
  refine Registry.ext (by simp [registry]) (funext fun k => phaseOf_congr (by rw [hmap]) ?_)
  intro entry _
  by_cases hij : entry.inserter = i
  · rw [hij,List.getElem?_set_self hi,ht]
    simp [hphase]
  · rw [List.getElem?_set_ne (Ne.symm hij)]

/-- The entry that a live upload has inserted is its claim on the id. -/
lemma phaseOf_claim (h : Pool.Holds (Sane D) (Guarded D) s) (hrep : Reported s) {t : Handler}
    {adm : Admission} (ht : s.threads[i]? = some t) (hlive : t.liveAdmission = some adm)
    (hsent : ¬t.Sent) : s.phaseOf adm.id = .uploading i := by
  obtain ⟨entry,he,rfl⟩ := inserterOf_eq_some.mp
    ((h.thread i t ht).owns adm.id (Handler.guard_of_live hlive).1)
  have hfin : .finalized ∉ entry.history := by
    intro hfin
    obtain ⟨u,hu,husent⟩ := hrep adm.id entry he hfin
    cases ht.symm.trans hu
    exact hsent husent
  rw [phaseOf_thread he hfin ht]
  refine Handler.phase_of_live hlive fun id heq => ?_
  rw [heq] at hsent
  exact hsent trivial

/-- An id that request `i` does not upload keeps its phase when handler `i` acts. -/
lemma phaseOf_other (h : Pool.Holds (Sane D) (Guarded D) s) {t t' : Handler} {adm : Admission}
    {sh : BridgeState} (ht : s.threads[i]? = some t) (hlive : t.liveAdmission = some adm)
    (hk : k ≠ adm.id) (hmap : sh.statusMap.lookup k = s.shared.statusMap.lookup k) :
    phaseOf ⟨sh,s.threads.set i t'⟩ k = s.phaseOf k := by
  refine phaseOf_congr hmap fun entry he => ?_
  have hij : entry.inserter ≠ i := by
    rintro rfl
    have hkey := (h.thread _ t ht).only k (inserterOf_eq_some.mpr ⟨entry,he,rfl⟩)
    rw [(Handler.guard_of_live hlive).2] at hkey
    exact hk (Option.some.inj hkey).symm
  rw [List.getElem?_set_ne (Ne.symm hij)]

/-- An action of a handler is one step in the life of its id, or none. -/
theorem registry_act (h : Pool.Holds (Sane D) (Guarded D) s) (hrep : Reported s) {a : Action}
    (hstep : step D s (.act i a) = some s') :
    s'.registry = s.registry ∨ Registry.Step s.registry s'.registry := by
  obtain ⟨t,sh,t',ht,hact,rfl⟩ := Pool.step_act_eq_some.mp hstep
  have hi : i < s.threads.length := (List.getElem?_eq_some_iff.mp ht).1
  have hL := h.thread i t ht
  obtain ⟨body,hsound⟩ := hL.sound
  have hacts := acts_of_act hsound hact
  cases hacts with
  | acquired => exact Or.inl (registry_quiet ht rfl rfl)
  | refused => exact Or.inl (registry_quiet ht rfl rfl)
  | @proceed _ _ _ u k upload permits sound goesOn action =>
    refine Or.inl (registry_quiet ht rfl ?_)
    have hold : t.phase i = .uploading i := by
      cases t <;> first | rfl | cases upload
    rw [hold]
    rcases goesOn with hc | ⟨chunk,next,rfl⟩
    · rcases hc.live with ⟨v,rfl⟩ | ⟨v,chunk,next,rfl⟩ | ⟨adm,blob,rfl⟩ <;> rfl
    · rfl
  | leave post live outbox =>
    exact Or.inl (registry_quiet ht rfl (Handler.phase_of_live live outbox).symm)
  | @sent adm blob =>
    right
    have hclaim := phaseOf_claim h hrep ht rfl id
    have hset : registry ⟨{ s.shared with
        enqueued := s.shared.enqueued ++ [(i,.newBlob blob)] },s.threads.set i (.sent adm blob.id)⟩ =
        s.registry.set adm.id (.accepted i) := by
      refine registry_eq_set (by simp) ?_ fun k' hk' => phaseOf_other h ht rfl hk' rfl
      obtain ⟨entry,he,rfl⟩ := inserterOf_eq_some.mp (hL.owns adm.id rfl)
      have hfin : .finalized ∉ entry.history := by
        intro hfin
        obtain ⟨u,hu,husent⟩ := hrep adm.id entry he hfin
        cases ht.symm.trans hu
        exact husent
      refine phaseOf_thread (t := .sent adm blob.id) ?_ hfin ?_
      · exact he
      · exact List.getElem?_set_self hi
    rw [hset]
    exact .accept hclaim
  | @commit adm id reply =>
    refine Or.inl (registry_quiet ht rfl ?_)
    simp [Handler.phase,Admission.commit]
  | @unwind adm id reply =>
    right
    have hclaim := phaseOf_claim h hrep ht rfl fun hf => hf
    have hdrop : adm.drop s.shared.statusMap = s.shared.statusMap.erase adm.id := by
      simp [Admission.drop,hL.uncommitted adm rfl]
    have hset : registry ⟨{ s.shared with statusMap := adm.drop s.shared.statusMap },
        s.threads.set i (.posted id (some adm) reply)⟩ = s.registry.set adm.id .free := by
      rw [hdrop]
      refine registry_eq_set (by simp) (phaseOf_none (by simp)) fun k' hk' =>
        phaseOf_other h ht rfl hk' ?_
      exact AList.lookup_erase_ne hk'
    rw [hset]
    exact .rollback hclaim
  | accepted => exact Or.inl (registry_quiet ht rfl rfl)
  | given => exact Or.inl (registry_quiet ht rfl rfl)

/-- The phases after a new request: entries that were there are not touched. -/
lemma phaseOf_spawn (h : Pool.Holds (Sane D) (Guarded D) s) {sh : BridgeState} {t : Handler}
    (hmap : sh.statusMap.lookup k = s.shared.statusMap.lookup k) :
    phaseOf ⟨sh,s.threads ++ [t]⟩ k = s.phaseOf k := by
  refine phaseOf_congr hmap fun entry he => ?_
  have hlt := h.shared.inserter_lt k _ (inserterOf_eq_some.mpr ⟨entry,he,rfl⟩)
  rw [List.getElem?_append_left hlt]

lemma registry_spawn_quiet (h : Pool.Holds (Sane D) (Guarded D) s) (t : Handler) :
    registry ⟨s.shared,s.threads ++ [t]⟩ = s.registry.next :=
  Registry.ext (by simp [registry,Registry.next]) (funext fun _ => phaseOf_spawn h rfl)

lemma registry_spawn_insert (h : Pool.Holds (Sane D) (Guarded D) s) (t : Handler) :
    registry ⟨{ s.shared with statusMap := s.shared.statusMap.insert k ⟨s.threads.length,[.pending]⟩ },
      s.threads ++ [t]⟩ = (s.registry.set k (t.phase s.threads.length)).next := by
  refine Registry.ext (by simp [registry,Registry.next,Registry.set]) (funext fun k' => ?_)
  rw [Registry.phase_next]
  by_cases hk : k' = k
  · subst hk
    rw [Registry.phase_set_self]
    simp [registry,phaseOf]
  · rw [Registry.phase_set_of_ne _ _ hk]
    exact phaseOf_spawn h (AList.lookup_insert_ne hk)

/-- A request claims its id, asks for it or leaves the registry as it is. -/
theorem registry_spawn (h : Pool.Holds (Sane D) (Guarded D) s) {b : Request}
    (hstep : step D s (.spawn b) = some s') : Registry.Step s.registry s'.registry := by
  cases hstep
  cases b with
  | post id contentLength =>
    simp only [program,request]
    split
    · rw [registry_spawn_quiet h]
      exact .request
    · rename_i m u hu
      obtain ⟨k,-,hnone,rfl,-⟩ := newBlob_eq_ok hu
      rw [registry_spawn_insert h]
      exact .upload (phaseOf_none hnone)
  | get id =>
    rcases getBlob_spec D s.threads.length s.shared.statusMap id with
      ⟨id',reply,heq,-⟩ | ⟨k,m',-,heq,hm⟩
    · simp only [program,request,heq]
      rw [registry_spawn_quiet h]
      exact .request
    · simp only [program,request,heq]
      rcases hm with ⟨-,-,-,rfl⟩ | ⟨hnone,rfl⟩
      · rw [registry_spawn_quiet h]
        exact .request
      · rw [registry_spawn_insert h]
        exact .ask (phaseOf_none hnone)

/-- A download that finds no entry asks for its id. -/
lemma phase_get (h : Pool.Holds (Sane D) (Guarded D) s) {id : String}
    (hid : D.magicTypeId id = some k) (hnone : s.shared.statusMap.lookup k = none)
    (hstep : step D s (.spawn (.get id)) = some s') : s'.registry.phase k = .asked := by
  have hget : getBlob D s.threads.length s.shared.statusMap id =
      (s.shared.statusMap.insert k ⟨s.threads.length,[.pending]⟩,.getting k) := by
    simp [getBlob,hid,hnone]
  cases hstep
  simp only [program,request,hget]
  rw [registry_spawn_insert h,Registry.phase_next,Registry.phase_set_self]
  rfl

end Bridge

end Gozara
