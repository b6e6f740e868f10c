import Gozara.Bridge.Admission

/-!
# Every handler has its own body

Whatever the handlers of other requests do in between, the bytes that a handler holds are the
frames of its own request, in order. A blob that it sends is the whole of them, under the id of
its path and of the length that its request declared.
-/
namespace Gozara

/-- The id and the declared length of an upload. -/
def Request.declared? : Request → Option (String × ℕ)
  | .post id contentLength => (declaredLen contentLength).map fun n => (id,n)
  | .get _ => none

/-- The bytes that an action hands to its handler. -/
def Action.bytes : Action → Bytes
  | .frame data => data
  | _ => []

namespace Handler

/-- The id and the declared length that a handler goes by until its blob is sent. -/
def declared? : Handler → Option (String × ℕ)
  | acquiring u | streaming u | hashing u _ _ _ => some (u.id,u.declared)
  | sending _ blob => some (blob.id,blob.body.length)
  | _ => none

variable {D : Deps} {i : ℕ} {s s' : BridgeState} {t t' : Handler} {a : Action} {body : Bytes}

lemma declared_of_upload {u : Upload} (h : t.upload? = some u) :
    t.declared? = some (u.id,u.declared) := by
  cases t <;> simp_all [upload?,declared?]

lemma upload_takeFrame (D : Deps) : ∀ (fuel : ℕ) (u : Upload) (data : Bytes),
    (takeFrame D fuel u data).upload?.isSome
  | 0,_,_ => rfl
  | fuel+1,u,data => by
    unfold takeFrame
    split_ifs
    · rfl
    · dsimp only
      split_ifs
      · rfl
      · exact upload_takeFrame D fuel _ _

/-- Frames never bring a handler to its send. -/
lemma takeFrame_ne_sending {fuel : ℕ} {u : Upload} {data : Bytes} {adm : Admission}
    {blob : AdmittedBlob} : takeFrame D fuel u data ≠ .sending adm blob := by
  intro h
  have hsome := upload_takeFrame D fuel u data
  rw [h] at hsome
  cases hsome

/-- After the last frame a handler goes on only with a body of the declared length. -/
lemma length_of_bodyEnd {u : Upload} {h : Handler} (hs : (streaming u).Sound D body)
    (hok : Gozara.bodyEnd D u = .ok h) : body.length = u.declared := by
  have hrec : u.received = u.declared := by
    unfold Gozara.bodyEnd at hok
    split_ifs at hok with hrec <;> exact not_not.mp hrec
  rw [← hs.2.1.received,hrec]

/-- An action hands a frame to its handler or leaves the body as it is. -/
theorem sound_act (hs : t.Sound D body) (h : BridgeState.act D i s t a = some (s',t')) :
    t'.Sound D (body ++ a.bytes) := by
  have hkeep : ∀ {v : Handler}, a.bytes = [] → v.Sound D body → v.Sound D (body ++ a.bytes) := by
    intro v ha hv
    rw [ha,List.append_nil]
    exact hv
  cases t with
  | acquiring u =>
    obtain ⟨hd,hsp,hbuf,hchunks⟩ := hs
    simp only [BridgeState.act] at h
    split_ifs at h with ha hle
    · cases h
      refine hkeep (by rw [ha]; rfl) ⟨hd,?_,?_⟩
      · rw [hbuf]
        exact hsp
      · rw [hbuf]
        exact D.chunkSize_pos
    · cases h
      trivial
  | streaming u =>
    cases a with
    | frame data =>
      cases hok : onFrame D u data with
      | error code =>
        simp only [BridgeState.act,BridgeState.stream,BridgeState.proceed,hok] at h
        cases h
        trivial
      | ok v =>
        simp only [BridgeState.act,BridgeState.stream,BridgeState.proceed,hok] at h
        cases h
        exact (onFrame_spec hs hok).1
    | bodyEnd =>
      refine hkeep rfl ?_
      cases hok : Gozara.bodyEnd D u with
      | error code =>
        simp only [BridgeState.act,BridgeState.stream,BridgeState.proceed,hok] at h
        cases h
        trivial
      | ok v =>
        simp only [BridgeState.act,BridgeState.stream,BridgeState.proceed,hok] at h
        cases h
        exact (bodyEnd_spec hs hok).1
    | _ => cases h <;> trivial
  | hashing u chunk next started =>
    cases a with
    | hashStart =>
      simp only [BridgeState.act,BridgeState.hash] at h
      split_ifs at h
      cases h
      refine hkeep rfl ?_
      cases next <;> exact hs
    | hashDone =>
      simp only [BridgeState.act,BridgeState.hash] at h
      split_ifs at h
      refine hkeep rfl ?_
      cases hok : onHashed D u chunk next with
      | error code =>
        simp only [BridgeState.proceed,hok] at h
        cases h
        trivial
      | ok v =>
        simp only [BridgeState.proceed,hok] at h
        cases h
        exact (onHashed_spec hs hok).1
    | hashFail =>
      simp only [BridgeState.act,BridgeState.hash] at h
      split_ifs at h
      cases h
      trivial
    | _ => cases h <;> trivial
  | sending adm blob => cases a <;> cases h <;> trivial
  | sent adm id =>
    simp only [BridgeState.act] at h
    split_ifs at h
    cases h
    trivial
  | unwinding id adm reply =>
    simp only [BridgeState.act] at h
    split_ifs at h
    cases h
    trivial
  | getting id => cases a <;> cases h <;> trivial
  | posted id adm reply => cases h
  | got id reply => cases h

/-- A handler comes to its send with a body of the declared length. -/
theorem length_of_sending {adm : Admission} {blob : AdmittedBlob} (hs : t.Sound D body)
    (h : BridgeState.act D i s t a = some (s',.sending adm blob)) :
    ∃ u, t.upload? = some u ∧ (body ++ a.bytes).length = u.declared := by
  have hacts := acts_of_act hs h
  cases hacts with
  | @proceed _ _ _ u k upload permits sound goesOn action =>
    refine ⟨u,upload,?_⟩
    cases t with
    | streaming u =>
      cases upload
      cases a with
      | frame data =>
        cases hok : onFrame D u data with
        | error code => simp [BridgeState.act,BridgeState.stream,BridgeState.proceed,
            BridgeState.leave,hok] at h
        | ok v =>
          simp only [BridgeState.act,BridgeState.stream,BridgeState.proceed,hok,Option.some.injEq,
            Prod.mk.injEq] at h
          simp only [onFrame] at hok
          split_ifs at hok
          cases hok
          exact absurd h.2 takeFrame_ne_sending
      | bodyEnd =>
        cases hok : Gozara.bodyEnd D u with
        | error code => simp [BridgeState.act,BridgeState.stream,BridgeState.proceed,
            BridgeState.leave,hok] at h
        | ok v => simpa [Action.bytes] using length_of_bodyEnd hs hok
      | _ => simp [BridgeState.act,BridgeState.stream,BridgeState.leave] at h
    | hashing u chunk next started =>
      cases upload
      cases next with
      | frame data =>
        cases a <;> simp [BridgeState.act,BridgeState.hash,BridgeState.leave,BridgeState.proceed,
          onHashed,takeFrame_ne_sending] at h
      | merklize =>
        have hlen : body.length = u.declared := by rw [← hs.2.1.received,hs.2.2.2.2.2]
        cases a with
        | frame data => cases h
        | _ => simpa [Action.bytes] using hlen
    | acquiring u => simp [BridgeState.act,action.2.2.2] at h
    | _ => cases upload

/-- A handler goes on with the id and the length that it had. -/
theorem declared_act (hs : t.Sound D body) (h : BridgeState.act D i s t a = some (s',t'))
    {x : String × ℕ} (hx : t'.declared? = some x) : t.declared? = some x := by
  have hacts := acts_of_act hs h
  cases hacts with
  | acquired => exact hx
  | @proceed _ _ _ u k upload permits sound goesOn action =>
    rw [declared_of_upload upload]
    rcases goesOn with hc | ⟨chunk,next,rfl⟩
    · rcases hc.live with ⟨v,rfl⟩ | ⟨v,chunk,next,rfl⟩ | ⟨adm,blob,rfl⟩
      · obtain ⟨hid,-,hdecl,-⟩ := hc.upload v rfl
        rw [← hid,← hdecl]
        exact hx
      · obtain ⟨hid,-,hdecl,-⟩ := hc.upload v rfl
        rw [← hid,← hdecl]
        exact hx
      · obtain ⟨v,hv,hlen⟩ := length_of_sending hs h
        rw [upload,Option.some.injEq] at hv
        subst hv
        obtain ⟨-,hid,-⟩ := hc.sending adm blob rfl
        have hwhole : blob.Whole D (body ++ a.bytes) := sound_act hs h
        rw [← hid,← hlen,← hwhole.body_eq]
        exact hx
    · exact hx
  | _ => cases hx

end Handler

/-- A handler that has sent its blob, or has none, takes no frame. -/
lemma bytes_of_sent {D : Deps} {i : ℕ} {s : BridgeState} {t : Handler} {a : Action}
    {r : BridgeState × Handler} (h : BridgeState.act D i s t a = some r) (hsent : t.Sent) :
    a.bytes = [] := by
  cases a with
  | frame data => cases t <;> simp_all [BridgeState.act,Handler.Sent]
  | _ => rfl

/-- An upload is admitted under the id of its path, with the length of its header. -/
lemma declared_of_newBlob {D : Deps} {i : ℕ} {m m' : StatusMap} {id : String}
    {contentLength : Option Bytes} {u : Upload} (h : newBlob D i m id contentLength = .ok (m',u)) :
    declaredLen contentLength = some u.declared := by
  unfold newBlob at h
  cases hdecl : declaredLen contentLength with
  | none => simp [hdecl] at h
  | some declared =>
    simp only [hdecl] at h
    split_ifs at h
    unfold Admission.new at h
    cases hid : D.magicTypeId id with
    | none => simp [hid,Except.map] at h
    | some k =>
      cases hk : m.lookup k with
      | some e => simp [hid,hk,Except.map] at h
      | none =>
        simp only [hid,hk,Except.map,Except.ok.injEq,Prod.mk.injEq] at h
        rw [← h.2]

namespace Bridge
open BridgeState

/-- The request that an event starts. -/
def request? : Event → Option Request
  | .spawn b => some b
  | _ => none

/-- The bytes that an event hands to request `i`. -/
def bytesTo (i : ℕ) : Event → Bytes
  | .act j a => if j = i then a.bytes else []
  | _ => []

/-- The handlers and the messages sent, against the requests and the bodies so far. -/
structure Streams (D : Deps) (requests : List Request) (body : ℕ → Bytes) (s : Bridge) :
    Prop where
  holds : Pool.Holds (Sane D) (Guarded D) s
  length : requests.length = s.threads.length
  later : ∀ i, s.threads.length ≤ i → body i = []
  sound : ∀ (i : ℕ) (t : Handler), s.threads[i]? = some t → t.Sound D (body i)
  declared : ∀ (i : ℕ) (t : Handler) x, s.threads[i]? = some t → t.declared? = some x →
    ∃ r : Request, requests[i]? = some r ∧ r.declared? = some x
  sent : ∀ i a, (i,.newBlob a) ∈ s.shared.enqueued → a.Whole D (body i) ∧
    ∃ r : Request, requests[i]? = some r ∧ r.declared? = some (a.id,a.body.length)

variable {D : Deps} {requests : List Request} {body : ℕ → Bytes} {s s' : Bridge} {e : Event}

theorem streams_init (D : Deps) : Streams D [] (fun _ => []) init where
  holds := holds_init D
  length := rfl
  later := fun _ _ => rfl
  sound := by simp [init]
  declared := by simp [init]
  sent := by simp [init,BridgeState.new]

/-- A request starts with an empty body and the length of its header. -/
lemma sound_request (D : Deps) (i : ℕ) (sh : BridgeState) (b : Request) :
    (request D i sh b).2.Sound D [] ∧
      ∀ x, (request D i sh b).2.declared? = some x → b.declared? = some x := by
  cases b with
  | post id contentLength =>
    simp only [request]
    split
    · exact ⟨trivial,by simp [Handler.declared?]⟩
    · rename_i m u hu
      obtain ⟨k,-,-,-,hid,-,hsound⟩ := newBlob_eq_ok hu
      refine ⟨hsound,fun x hx => ?_⟩
      rw [Request.declared?,declared_of_newBlob hu,← hid]
      exact hx
  | get id =>
    rcases getBlob_spec D i sh.statusMap id with ⟨id',reply,heq,-⟩ | ⟨k,m',-,heq,-⟩
    · simp [request,heq,Handler.declared?,Handler.Sound]
    · simp [request,heq,Handler.declared?,Handler.Sound]

/-- What is streamed so far stays a part of what is streamed later. -/
lemma getElem?_concat {i : ℕ} {r b : Request} (h : requests[i]? = some r) :
    (requests ++ [b])[i]? = some r := by
  rw [List.getElem?_append_left (List.getElem?_eq_some_iff.mp h).1]
  exact h

/-- A new request has an empty body, and those before it go on. -/
lemma Streams.spawn (h : Streams D requests body s) (b : Request)
    (hholds : Pool.Holds (Sane D) (Guarded D)
      ⟨(request D s.threads.length s.shared b).1,
        s.threads ++ [(request D s.threads.length s.shared b).2]⟩) :
    Streams D (requests ++ [b]) body ⟨(request D s.threads.length s.shared b).1,
      s.threads ++ [(request D s.threads.length s.shared b).2]⟩ := by
  obtain ⟨hsound,hdecl⟩ := sound_request D s.threads.length s.shared b
  refine ⟨hholds,by simp [h.length],fun i hi => h.later i ?_,fun i t ht => ?_,fun i t x ht hx => ?_,
    fun i a ha => ?_⟩
  · rw [List.length_append] at hi
    exact Nat.le_of_add_right_le hi
  · rcases Pool.getElem?_concat_eq_some ht with ht | ⟨rfl,rfl⟩
    · exact h.sound i t ht
    · rw [h.later _ le_rfl]
      exact hsound
  · rcases Pool.getElem?_concat_eq_some ht with ht | ⟨rfl,rfl⟩
    · obtain ⟨r,hr,hrx⟩ := h.declared i t x ht hx
      exact ⟨r,getElem?_concat hr,hrx⟩
    · exact ⟨b,by rw [← h.length]; simp,hdecl x hx⟩
  · have hlog : (request D s.threads.length s.shared b).1.enqueued = s.shared.enqueued := by
      cases b with
      | post id contentLength =>
        simp only [request]
        split <;> rfl
      | get id => rfl
    obtain ⟨hwhole,r,hr,hra⟩ := h.sent i a (hlog ▸ ha)
    exact ⟨hwhole,r,getElem?_concat hr,hra⟩

/-- An action gives its frame to its own handler. -/
lemma Streams.act (h : Streams D requests body s) {i : ℕ} {a : Action} {t t' : Handler}
    {sh : BridgeState} (ht : s.threads[i]? = some t)
    (hact : BridgeState.act D i s.shared t a = some (sh,t'))
    (hholds : Pool.Holds (Sane D) (Guarded D) ⟨sh,s.threads.set i t'⟩) :
    Streams D requests (fun j => body j ++ bytesTo j (.act i a)) ⟨sh,s.threads.set i t'⟩ := by
  have hi : i < s.threads.length := (List.getElem?_eq_some_iff.mp ht).1
  have hs := h.sound i t ht
  have hother : ∀ {j}, j ≠ i → body j ++ bytesTo j (.act i a) = body j := by
    intro j hj
    rw [bytesTo,if_neg (Ne.symm hj),List.append_nil]
  have hself : body i ++ bytesTo i (.act i a) = body i ++ a.bytes := by
    rw [bytesTo,if_pos rfl]
  refine ⟨hholds,by simp [h.length],fun j hj => ?_,fun j u hu => ?_,fun j u x hu hx => ?_,
    fun j b hb => ?_⟩
  · rw [List.length_set] at hj
    rw [hother (by omega)]
    exact h.later j hj
  · by_cases hj : j = i
    · subst hj
      rw [List.getElem?_set_self hi] at hu
      cases hu
      rw [hself]
      exact Handler.sound_act hs hact
    · rw [List.getElem?_set_ne (Ne.symm hj)] at hu
      rw [hother hj]
      exact h.sound j u hu
  · by_cases hj : j = i
    · subst hj
      rw [List.getElem?_set_self hi] at hu
      cases hu
      exact h.declared j t x ht (Handler.declared_act hs hact hx)
    · rw [List.getElem?_set_ne (Ne.symm hj)] at hu
      exact h.declared j u x hu hx
  · rw [enqueued_act (acts_of_act hs hact)] at hb
    rcases List.mem_append.mp hb with hold | hnew
    · obtain ⟨hwhole,hr⟩ := h.sent j b hold
      refine ⟨?_,hr⟩
      by_cases hj : j = i
      · subst hj
        rw [hself,bytes_of_sent hact ((h.holds.thread j t ht).newBlob b hold).1,List.append_nil]
        exact hwhole
      · rw [hother hj]
        exact hwhole
    · -- The message is the blob that the handler was sending.
      split_ifs at hnew with henq
      · obtain ⟨msg,hout,hmsg⟩ := Option.map_eq_some_iff.mp (Option.mem_toList.mp hnew)
        cases hmsg
        obtain ⟨adm,rfl⟩ : ∃ adm, t = .sending adm b := by
          cases t <;> simp_all [Handler.outbox]
        subst henq
        obtain ⟨r,hr,hrx⟩ := h.declared i _ _ ht rfl
        refine ⟨?_,r,hr,hrx⟩
        rw [hself]
        exact (List.append_nil (body i)).symm ▸ hs
      · cases hnew

theorem Streams.step (h : Streams D requests body s) (hstep : Bridge.step D s e = some s') :
    Streams D (requests ++ (request? e).toList) (fun i => body i ++ bytesTo i e) s' := by
  have hholds : Pool.Holds (Sane D) (Guarded D) s' := (preserved D).step hstep
    (by cases e <;> simp [Pool.Undisturbed]) h.holds
  cases e with
  | spawn b =>
    cases hstep
    simp only [request?,bytesTo,List.append_nil,Option.toList_some]
    exact h.spawn b hholds
  | act i a =>
    obtain ⟨t,sh,t',ht,hact,rfl⟩ := Pool.step_act_eq_some.mp hstep
    simpa [request?] using h.act ht hact hholds
  | env g =>
    obtain ⟨sh,henv,rfl⟩ := Pool.step_env_eq_some.mp hstep
    have hlog := (outside_spec henv).2
    refine ⟨hholds,by simpa [request?] using h.length,by simpa [bytesTo] using h.later,
      by simpa [bytesTo] using h.sound,by simpa [request?] using h.declared,?_⟩
    simpa [request?,bytesTo,hlog] using h.sent

end Bridge

end Gozara
