import Gozara.Bridge.Admission

/-!
# Accepted downloads and the entries they rely on

A download that is answered 202 relies on an entry that an upload may have inserted. An
upload that fails takes its entry away whoever relies on it. The two steps after which an
accepted download is without its entry are named here, and there are no others.
-/
namespace Gozara.Bridge
open BridgeState

/-- The id of every accepted download is in the status map. -/
def Registered (s : Bridge) : Prop :=
  ∀ (j : ℕ) k, s.threads[j]? = some (.accepted k) → (s.shared.statusMap.lookup k).isSome

/-- An admission is rolled back on whose id a download was accepted, or a download is
accepted whose entry was rolled back while it waited for its send. -/
def Withdraws (s : Bridge) : Event → Prop
  | .act i .unwind => ∃ id adm reply, s.threads[i]? = some (.unwinding id adm reply) ∧
      ∃ j : ℕ, s.threads[j]? = some (.accepted adm.id)
  | .act i .enqueue => ∃ k, s.threads[i]? = some (.getting k) ∧
      s.shared.statusMap.lookup k = none
  | _ => False

/-- An admission is rolled back while a download of its id waits or after one was accepted. -/
def Disturbs (s : Bridge) : Event → Prop
  | .act i .unwind => ∃ id adm reply, s.threads[i]? = some (.unwinding id adm reply) ∧
      ∃ j : ℕ, s.threads[j]? = some (.getting adm.id) ∨ s.threads[j]? = some (.accepted adm.id)
  | _ => False

section Map
variable {D : Deps} {i n : ℕ} {s s' : BridgeState} {t t' : Handler} {a : Action} {k : String}

lemma isSome_iff_inserterOf : (s.statusMap.lookup k).isSome ↔ (s.inserterOf k).isSome := by
  simp [inserterOf]

/-- No handler but a download in its send can become an accepted download. -/
lemma getting_of_accepted (hacts : Acts D i s t a s' (.accepted k)) (h : Guarded D i s t) :
    t = .getting k ∧ a = .enqueue := by
  have hne : ∀ {u : Handler} {adm : Admission}, u.liveAdmission = some adm → u ≠ .accepted k :=
    fun hlive => Handler.ne_accepted_of_live hlive k
  generalize hx : Handler.accepted k = x at hacts
  cases hacts with
  | accepted =>
    cases hx
    exact ⟨rfl,rfl⟩
  | proceed upload permits sound goesOn action =>
    rcases goesOn with hc | ⟨chunk,next,rfl⟩
    · exact absurd hx.symm (hne hc.live_post.2.1)
    · cases hx
  | given hreply =>
    cases hx
    exact absurd rfl hreply
  | _ => cases hx

end Map

variable {D : Deps} {s s' : Bridge} {e : Event} {i : ℕ} {k : String}

/-- A key is lost only when its admission is rolled back. -/
theorem isSome_step (h : Pool.Holds (Sane D) (Guarded D) s) (hstep : step D s e = some s')
    (hk : (s.shared.statusMap.lookup k).isSome)
    (hkeep : ∀ i, e = .act i .unwind → ∀ id adm reply,
      s.threads[i]? = some (.unwinding id adm reply) → adm.id ≠ k) :
    (s'.shared.statusMap.lookup k).isSome := by
  obtain ⟨entry,he⟩ := Option.isSome_iff_exists.mp hk
  cases e with
  | spawn b => exact Option.isSome_iff_exists.mpr ⟨entry,lookup_request h hstep he⟩
  | act i a =>
    obtain ⟨t,sh,t',ht,hact,rfl⟩ := Pool.step_act_eq_some.mp hstep
    have hL := h.thread i t ht
    obtain ⟨body,hsound⟩ := hL.sound
    rcases statusMap_act hL (acts_of_act hsound hact) with heq | ⟨rfl,id,adm,reply,rfl,heq⟩
    · rwa [heq]
    · rw [heq,AList.lookup_erase_ne (Ne.symm (hkeep i rfl id adm reply ht))]
      exact hk
  | env g =>
    obtain ⟨sh,henv,rfl⟩ := Pool.step_env_eq_some.mp hstep
    rw [isSome_iff_inserterOf] at hk ⊢
    rwa [(outside_spec henv).1]

/-- A download accepted after a step was accepted before, or was in its send. -/
theorem accepted_step (h : Pool.Holds (Sane D) (Guarded D) s) (hstep : step D s e = some s')
    {j : ℕ} (hj : s'.threads[j]? = some (.accepted k)) :
    s.threads[j]? = some (.accepted k) ∨
      e = .act j .enqueue ∧ s.threads[j]? = some (.getting k) := by
  cases e with
  | spawn b =>
    cases hstep
    rcases Pool.getElem?_concat_eq_some hj with hj | ⟨rfl,hnew⟩
    · exact Or.inl hj
    · have hspec := request_spec h.shared b
      have hmem := (hspec.2.1.getBlob k).mpr hnew
      have hlog : (request D s.threads.length s.shared b).1.enqueued = s.shared.enqueued := by
        cases b with
        | post id contentLength =>
          simp only [request]
          split <;> rfl
        | get id => rfl
      rw [hlog] at hmem
      exact absurd (h.shared.enqueued_lt _ _ hmem) (lt_irrefl _)
  | act i a =>
    obtain ⟨t,sh,t',ht,hact,rfl⟩ := Pool.step_act_eq_some.mp hstep
    have hi : i < s.threads.length := (List.getElem?_eq_some_iff.mp ht).1
    by_cases hij : j = i
    · subst j
      rw [List.getElem?_set_self hi] at hj
      cases hj
      have hL := h.thread i t ht
      obtain ⟨body,hsound⟩ := hL.sound
      obtain ⟨rfl,rfl⟩ := getting_of_accepted (acts_of_act hsound hact) hL
      exact Or.inr ⟨rfl,ht⟩
    · rw [List.getElem?_set_ne (Ne.symm hij)] at hj
      exact Or.inl hj
  | env g =>
    obtain ⟨sh,henv,rfl⟩ := Pool.step_env_eq_some.mp hstep
    exact Or.inl hj

theorem registered_step (h : Pool.Holds (Sane D) (Guarded D) s) (hreg : Registered s)
    (hstep : step D s e = some s') (hkeep : ¬Withdraws s e) : Registered s' := by
  intro j k hj
  have hsome : (s.shared.statusMap.lookup k).isSome := by
    rcases accepted_step h hstep hj with hold | ⟨rfl,hget⟩
    · exact hreg j k hold
    · rw [← Option.ne_none_iff_isSome]
      exact fun hnone => hkeep ⟨k,hget,hnone⟩
  refine isSome_step h hstep hsome ?_
  rintro i rfl id adm reply ht rfl
  rcases accepted_step h hstep hj with hold | ⟨he,-⟩
  · exact hkeep ⟨id,adm,reply,ht,j,hold⟩
  · cases he

theorem not_registered_of_withdraws (h : Pool.Holds (Sane D) (Guarded D) s)
    (hstep : step D s e = some s') (hw : Withdraws s e) : ¬Registered s' := by
  intro hreg
  unfold Withdraws at hw
  split at hw
  · rename_i i
    obtain ⟨id,adm,reply,ht,j,hj⟩ := hw
    obtain ⟨t,sh,t',ht',hact,rfl⟩ := Pool.step_act_eq_some.mp hstep
    cases ht.symm.trans ht'
    have hji : j ≠ i := by
      rintro rfl
      cases ht.symm.trans hj
    have hsome := hreg j adm.id (by rwa [List.getElem?_set_ne (Ne.symm hji)])
    have hun := (h.thread i _ ht).uncommitted adm rfl
    have hsh : sh.statusMap = s.shared.statusMap.erase adm.id := by
      cases hact
      simp [Admission.drop,hun]
    rw [hsh] at hsome
    simp at hsome
  · rename_i i
    obtain ⟨k,ht,hnone⟩ := hw
    obtain ⟨t,sh,t',ht',hact,rfl⟩ := Pool.step_act_eq_some.mp hstep
    cases ht.symm.trans ht'
    cases hact
    have hi : i < s.threads.length := (List.getElem?_eq_some_iff.mp ht).1
    have hsome := hreg i k (List.getElem?_set_self hi)
    simp [hnone] at hsome
  · exact hw

/-- While no admission is rolled back under a waiting or accepted download, both keep
their entries. -/
theorem relied_step (h : Pool.Holds (Sane D) (Guarded D) s)
    (hrel : Registered s ∧ ∀ (j : ℕ) k, s.threads[j]? = some (.getting k) →
      (s.shared.statusMap.lookup k).isSome)
    (hstep : step D s e = some s') (hkeep : ¬Disturbs s e) :
    Registered s' ∧ ∀ (j : ℕ) k, s'.threads[j]? = some (.getting k) →
      (s'.shared.statusMap.lookup k).isSome := by
  obtain ⟨hreg,hget⟩ := hrel
  have hnot : ¬Withdraws s e := by
    intro hw
    unfold Withdraws at hw
    split at hw
    · obtain ⟨id,adm,reply,ht,j,hj⟩ := hw
      exact hkeep ⟨id,adm,reply,ht,j,Or.inr hj⟩
    · obtain ⟨k,ht,hnone⟩ := hw
      have hsome := hget _ k ht
      simp [hnone] at hsome
    · exact hw
  refine ⟨registered_step h hreg hstep hnot,fun j k hj => ?_⟩
  -- A waiting download waited before, or has just found or inserted its entry.
  have hcase : s.threads[j]? = some (.getting k) ∨ ∃ b, e = .spawn b := by
    cases e with
    | spawn b => exact Or.inr ⟨b,rfl⟩
    | act i a =>
      left
      obtain ⟨t,sh,t',ht,hact,rfl⟩ := Pool.step_act_eq_some.mp hstep
      have hi : i < s.threads.length := (List.getElem?_eq_some_iff.mp ht).1
      by_cases hij : j = i
      · subst j
        rw [List.getElem?_set_self hi] at hj
        cases hj
        have hL := h.thread i t ht
        obtain ⟨body,hsound⟩ := hL.sound
        have hacts := acts_of_act hsound hact
        generalize hx : Handler.getting k = x at hacts
        cases hacts with
        | proceed upload permits sound goesOn =>
          rcases goesOn with hc | ⟨chunk,next,rfl⟩
          · have hlive := hc.live_post.2.1
            rw [← hx] at hlive
            cases hlive
          · cases hx
        | _ => cases hx
      · rwa [List.getElem?_set_ne (Ne.symm hij)] at hj
    | env g =>
      obtain ⟨sh,henv,rfl⟩ := Pool.step_env_eq_some.mp hstep
      exact Or.inl hj
  rcases hcase with hold | ⟨b,rfl⟩
  · refine isSome_step h hstep (hget j k hold) ?_
    rintro i rfl id adm reply ht rfl
    exact hkeep ⟨id,adm,reply,ht,j,Or.inl hold⟩
  · have hkept : s.threads[j]? = some (.getting k) → (s'.shared.statusMap.lookup k).isSome :=
      fun hold => isSome_step h hstep (hget j k hold) (by rintro i ⟨⟩)
    cases hstep
    rcases Pool.getElem?_concat_eq_some hj with hold | ⟨-,hnew⟩
    · exact hkept hold
    · cases b with
      | post id contentLength =>
        simp only [program,request] at hnew
        split at hnew <;> cases hnew
      | get id =>
        rcases getBlob_spec D s.threads.length s.shared.statusMap id with
          ⟨id',reply,heq,-⟩ | ⟨k',m',-,heq,hm⟩
        · simp [program,request,heq] at hnew
        · simp only [program,request,heq,Handler.getting.injEq] at hnew ⊢
          subst hnew
          rcases hm with ⟨entry,he,-,rfl⟩ | ⟨-,rfl⟩
          · exact Option.isSome_iff_exists.mpr ⟨entry,he⟩
          · rw [AList.lookup_insert]
            rfl

lemma registered_init : Registered init := by
  simp [Registered,init]

/-- A run keeps the ids of all accepted downloads in the status map after each of its steps
exactly when none of them withdraws one; it is enough that no admission is rolled back
while a download of its id waits or after one was accepted. -/
theorem registered_iff_not_withdraws (D : Deps) (es : List Event) :
    (Transition.Along (step D) (fun _ _ s' => Registered s') init es ↔
      Transition.Along (step D) (fun s e _ => ¬Withdraws s e) init es) ∧
    (Transition.Along (step D) (fun s e _ => ¬Disturbs s e) init es →
      Transition.Along (step D) (fun _ _ s' => Registered s') init es) := by
  have hholds : ∀ s e s', step D s e = some s' → Pool.Holds (Sane D) (Guarded D) s →
      Pool.Holds (Sane D) (Guarded D) s' := fun s e s' hstep h =>
    (preserved D).step hstep (by cases e <;> simp [Pool.Undisturbed]) h
  refine ⟨⟨?_,?_⟩,?_⟩
  · exact Transition.Along.mono hholds
      (fun s e s' hstep h hreg hw => not_registered_of_withdraws h hstep hw hreg) (holds_init D)
  · exact Transition.Along.imp (P := fun s => Pool.Holds (Sane D) (Guarded D) s ∧ Registered s)
      (fun s e s' hstep hw h => ⟨hholds s e s' hstep h.1,registered_step h.1 h.2 hstep hw⟩)
      (fun s e s' hstep h hw => registered_step h.1 h.2 hstep hw) ⟨holds_init D,registered_init⟩
  · exact Transition.Along.imp (P := fun s => Pool.Holds (Sane D) (Guarded D) s ∧ Registered s ∧
        ∀ (j : ℕ) k, s.threads[j]? = some (.getting k) → (s.shared.statusMap.lookup k).isSome)
      (fun s e s' hstep hd h => ⟨hholds s e s' hstep h.1,relied_step h.1 h.2 hstep hd⟩)
      (fun s e s' hstep h hd => (relied_step h.1 h.2 hstep hd).1)
      ⟨holds_init D,registered_init,by simp [init]⟩

/-- A download is accepted on the entry of an upload that then fails. -/
theorem accepted_not_registered :
    ∃ s, Transition.run (step (Deps.sample 1 Nat.one_pos)) init
        [.spawn (.post blobId (some [49])),.act 0 .acquire,.spawn (.get blobId),
          .act 1 .enqueue,.act 0 .frameError,.act 0 .unwind] = some s ∧
      s.threads[1]? = some (.accepted blobId) ∧
      s.shared.statusMap.lookup blobId = none ∧ ¬Registered s := by
  refine ⟨_,rfl,rfl,rfl,fun hreg => ?_⟩
  have hsome := hreg 1 blobId rfl
  cases hsome

end Gozara.Bridge
