import Gozara.Node.Links
import Mathlib.Algebra.BigOperators.Ring.List

/-!
# The chunk budget

A permit is in the budget, with a handler, in a queued message or with a blob of the
coordinator. Each event moves permits between these places as the case distinction below
says, so that their sum never changes; and what a handler or a blob has of a body is covered
by the permits it owns.
-/
namespace Gozara

namespace Coordinator
variable {c c' : Coordinator} {now : Instant} {i : Input} {eff : Effects}

/-- The permits of the blobs in the pipeline. -/
def heldPermits (c : Coordinator) : ℕ := (c.held.map LocalBlob.allowance).sum

lemma heldPermits_eq (c : Coordinator) : c.heldPermits =
    (c.pipeline.currentBlob.toList.map LocalBlob.allowance).sum +
      (c.pipeline.pendingLocalBlobs.map LocalBlob.allowance).sum := by
  simp [heldPermits,held]

lemma sum_evolves {R : Hash → Chunk → Chunk → Prop} {o o' : Option LocalBlob}
    (h : Option.Rel (LocalBlob.Evolves R) o o') :
    (o'.toList.map LocalBlob.allowance).sum = (o.toList.map LocalBlob.allowance).sum := by
  cases h with
  | none => rfl
  | some hev =>
    obtain ⟨⟨chunks,rfl⟩,-⟩ := hev
    rfl

lemma sum_head_tail (l : List LocalBlob) : (l.head?.toList.map LocalBlob.allowance).sum +
    (l.tail.map LocalBlob.allowance).sum = (l.map LocalBlob.allowance).sum := by
  cases l <;> simp

/-- What an input does to the permits: those of a new blob come in, those of the blobs
dropped go out, which are the one that is archived or, in the end, all of them. -/
theorem Moves.permits (h : Moves now c i c' eff) :
    (eff.dropped = [] ∧ i ≠ .bridgeSend ∧ i ≠ .stop ∧
      (c'.point = .stopped → c.point = .stopped) ∧
      c'.heldPermits = c.heldPermits+((newBlob? i).toList.map AdmittedBlob.allowance).sum) ∨
    (i = .bridgeSend ∧ c'.point ≠ .stopped ∧ ∃ b, c.pipeline.currentBlob = some b ∧
      c'.announced = c.announced ++ [b] ∧ eff.dropped = [b] ∧
      c.heldPermits = c'.heldPermits+b.allowance) ∨
    (i = .stop ∧ eff.dropped = c.held ∧ c'.point = .stopped ∧ c'.heldPermits = 0) := by
  have hcome : ∀ a, (Pipeline.localBlob now a).allowance = a.allowance := fun _ => rfl
  rw [heldPermits_eq c,heldPermits_eq c']
  cases h with
  | stay received announced keeps spawned input point =>
    refine Or.inl ⟨rfl,input.2.1,input.2.2,point.mp,?_⟩
    have hnone : newBlob? i = none := by
      unfold newBlob?
      split
      · exact absurd rfl (input.1 _)
      · rfl
    rw [keeps.waiting,sum_evolves keeps.current,hnone]
    rfl
  | wait head received announced front current waiting point =>
    refine Or.inl ⟨rfl,by simp,by simp,fun h => absurd h point.ne_stopped,?_⟩
    rw [front,current,waiting]
    simp only [newBlob?,hcome,Option.toList_some,List.map_cons,List.map_nil,List.sum_cons,
      List.sum_nil,List.map_append,List.sum_append]
    omega
  | begin head received announced front current waiting point =>
    refine Or.inl ⟨rfl,by simp,by simp,fun h => absurd h point.ne_stopped,?_⟩
    rw [front,current,waiting,sum_head_tail]
    simp [newBlob?,hcome]
  | @archive msg b c' ts suspended received announced front current waiting spawned point =>
    refine Or.inr (Or.inl ⟨rfl,point.ne_stopped,b,front,announced,rfl,?_⟩)
    rw [sum_evolves current,waiting,sum_head_tail,front]
    simp only [Option.toList_some,List.map_cons,List.map_nil,List.sum_cons,List.sum_nil]
    omega
  | stop head => exact Or.inr (Or.inr ⟨rfl,rfl,rfl,rfl⟩)

end Coordinator

namespace Uploads
variable {s s' : Uploads} {e : Event} {dropped : List LocalBlob}

/-- `Moves.permits` for the events of the coordinator with its tasks, which hold no blobs. -/
theorem Steps.permits (h : Steps s e s' dropped) :
    (dropped = [] ∧ e ≠ .input .bridgeSend ∧ e ≠ .input .stop ∧
      (s'.coordinator.point = .stopped → s.coordinator.point = .stopped) ∧
      s'.coordinator.heldPermits = s.coordinator.heldPermits+
        ((newBlob? e).toList.map AdmittedBlob.allowance).sum) ∨
    (e = .input .bridgeSend ∧ s'.coordinator.point ≠ .stopped ∧
      ∃ b, s.coordinator.pipeline.currentBlob = some b ∧
        s'.coordinator.announced = s.coordinator.announced ++ [b] ∧ dropped = [b] ∧
        s.coordinator.heldPermits = s'.coordinator.heldPermits+b.allowance) ∨
    (e = .input .stop ∧ dropped = s.coordinator.held ∧ s'.coordinator.point = .stopped ∧
      s'.coordinator.heldPermits = 0) := by
  cases h with
  | @loop e i c eff input direct moves =>
    have hne : ∀ {j}, i ≠ j → e ≠ .input j := by
      rintro j hij rfl
      cases input
      exact hij rfl
    rcases moves.permits with ⟨hdrop,hi,hi',hstop,hheld⟩ | ⟨rfl,hrest⟩ | ⟨rfl,hrest⟩
    · rw [inputOf_newBlob input] at hheld
      exact Or.inl ⟨hdrop,hne hi,hne hi',hstop,hheld⟩
    · exact Or.inr (Or.inl ⟨eq_input_of_inputOf input (by simp),hrest⟩)
    · exact Or.inr (Or.inr ⟨eq_input_of_inputOf input (by simp),hrest⟩)
  | _ => exact Or.inl ⟨rfl,by simp,by simp,id,rfl⟩

end Uploads

namespace Handler
variable {D : Deps} {body : Bytes} {t : Handler}

/-- The bytes in a handler's buffer and chunks are covered by its permits. -/
theorem Sound.bytes_le (h : t.Sound D body) : t.bytes ≤ D.chunkSize*t.permits := by
  have hcover : ∀ {u : Upload}, u.Declared D → u.received ≤ u.declared →
      u.received ≤ D.chunkSize*u.numChunks := by
    intro u hd hle
    rw [hd.numChunks_eq,Nat.mul_comm]
    exact hle.trans (D.le_chunkCount_mul u.declared)
  have hbytes : ∀ {u : Upload} {rest : Bytes}, u.Splits D rest body →
      (u.chunks.map fun e => e.2.length).sum+rest.length = u.received := by
    intro u rest hs
    rw [Upload.sum_length,length_flatten_of_full hs.full,hs.length]
  cases t with
  | streaming u =>
    obtain ⟨hd,hs,-⟩ := h
    simp only [bytes,Upload.bytes,permits,hbytes hs]
    exact hcover hd hs.le
  | hashing u chunk next started =>
    have hall : u.Declared D ∧ u.buf = [] ∧ ∃ rest, u.Splits D (chunk ++ rest) body := by
      cases next with
      | frame data => exact ⟨h.1,h.2.2.1,data,h.2.1⟩
      | merklize => exact ⟨h.1,h.2.2.1,[],by simpa using h.2.1⟩
    obtain ⟨hd,hbuf,rest,hs⟩ := hall
    have hsum := hbytes hs
    have hle := hcover hd hs.le
    rw [List.length_append] at hsum
    simp only [bytes,Upload.bytes,permits,hbuf,List.length_nil]
    omega
  | sending adm blob => exact AdmittedBlob.Whole.length_body_le h
  | _ => exact Nat.zero_le _

end Handler

/-- The bytes of the body that a queued message carries. -/
def ToPipeline.bytes : ToPipeline → ℕ
  | .newBlob blob => blob.body.length
  | .getBlob _ => 0

def LocalBlob.bytes (b : LocalBlob) : ℕ := (b.chunks.entries.map fun e => e.2.data.length).sum

/-- A blob of the coordinator has no more entries than its upload had chunks. -/
theorem LocalBlob.covered {D : Deps} {body : Bytes} {a : AdmittedBlob} {b : LocalBlob}
    (hwhole : a.Whole D body) (hab : a.manifest = b.manifest) :
    b.chunks.entries.length ≤ b.allowance ∧ b.bytes ≤ D.chunkSize*b.allowance := by
  have hmem : ∀ h c, b.chunks.lookup h = some c → (h,c.data) ∈ a.chunks := by
    intro h c hc
    have hdata : a.manifest.data h = some c.data := by
      rw [hab]
      simp [manifest,hc]
    exact HashMap.mem_of_lookup_collect hdata
  have hallow : b.allowance = a.chunks.length :=
    (congrArg Manifest.allowance hab).symm.trans hwhole.length_chunks.symm
  have hlen : b.chunks.entries.length ≤ b.allowance := by
    rw [hallow]
    exact HashMap.length_entries_le fun h c hc => ⟨c.data,hmem h c hc⟩
  refine ⟨hlen,?_⟩
  have hsum : b.bytes ≤ b.chunks.entries.length*D.chunkSize := by
    have hle := List.sum_le_card_nsmul (b.chunks.entries.map fun e => e.2.data.length) D.chunkSize
      (by
        intro n hn
        obtain ⟨e,he,rfl⟩ := List.mem_map.mp hn
        exact hwhole.length_chunk_le _ (hmem e.1 e.2 (HashMap.lookup_eq_some_iff.mpr he)))
    simpa [LocalBlob.bytes] using hle
  calc b.bytes ≤ b.chunks.entries.length*D.chunkSize := hsum
    _ ≤ b.allowance*D.chunkSize := Nat.mul_le_mul_right _ hlen
    _ = D.chunkSize*b.allowance := Nat.mul_comm _ _

namespace Node
open BridgeState

def budget (s : Node) : ℕ := s.bridge.shared.admissionBudget

def inHandlers (s : Node) : ℕ := Pool.total Handler.permits s.bridge

def inQueue (s : Node) : ℕ := (s.admission.map ToPipeline.permits).sum

def inBlobs (s : Node) : ℕ := s.engine.coordinator.heldPermits

/-- The permits that each event moves, and between which places. -/
inductive Pays (s : Node) : Event → Node → Prop
  | acquire {i : ℕ} {t t' : Handler} {s' : Node} (before : s.bridge.threads[i]? = some t)
      (after : s'.bridge.threads[i]? = some t') (none : t.permits = 0)
      (budget : s.budget = s'.budget+t'.permits)
      (handlers : s'.inHandlers = s.inHandlers+t'.permits)
      (queue : s'.inQueue = s.inQueue) (blobs : s'.inBlobs = s.inBlobs) :
      Pays s (.act i .acquire) s'
  | send {i : ℕ} {t t' : Handler} {msg : ToPipeline} {s' : Node}
      (before : s.bridge.threads[i]? = some t) (outbox : t.outbox = some msg)
      (after : s'.bridge.threads[i]? = some t') (none : t'.permits = 0)
      (message : msg.permits = t.permits) (enqueued : s'.admission = s.admission ++ [msg])
      (budget : s'.budget = s.budget) (handlers : s.inHandlers = s'.inHandlers+t.permits)
      (blobs : s'.inBlobs = s.inBlobs) : Pays s (.act i .enqueue) s'
  /-- A handler ends early and its permits are dropped. -/
  | leave {i : ℕ} {a : Action} {t t' : Handler} {s' : Node}
      (before : s.bridge.threads[i]? = some t) (after : s'.bridge.threads[i]? = some t')
      (none : t'.permits = 0) (budget : s'.budget = s.budget+t.permits)
      (handlers : s.inHandlers = s'.inHandlers+t.permits) (queue : s'.inQueue = s.inQueue)
      (blobs : s'.inBlobs = s.inBlobs) : Pays s (.act i a) s'
  | receive {msg : ToPipeline} {s' : Node} (received : s.admission = msg::s'.admission)
      (budget : s'.budget = s.budget) (handlers : s'.inHandlers = s.inHandlers)
      (blobs : s'.inBlobs = s.inBlobs+msg.permits) : Pays s .recvAdmission s'
  | archive {b : LocalBlob} {s' : Node} (front : s.engine.coordinator.pipeline.currentBlob = some b)
      (announced : s'.engine.coordinator.announced = s.engine.coordinator.announced ++ [b])
      (budget : s'.budget = s.budget+b.allowance) (handlers : s'.inHandlers = s.inHandlers)
      (queue : s'.inQueue = s.inQueue) (blobs : s.inBlobs = s'.inBlobs+b.allowance) :
      Pays s .sendBridge s'
  /-- The coordinator ends; its blobs and the messages on its channel are dropped. -/
  | stop {s' : Node} (budget : s'.budget = s.budget+s.inBlobs+s.inQueue)
      (handlers : s'.inHandlers = s.inHandlers) (queue : s'.inQueue = 0)
      (blobs : s'.inBlobs = 0) : Pays s (.engine (.input .stop)) s'
  | still {e : Event} {s' : Node} (budget : s'.budget = s.budget)
      (handlers : s'.inHandlers = s.inHandlers) (queue : s'.inQueue = s.inQueue)
      (blobs : s'.inBlobs = s.inBlobs) : Pays s e s'

variable {D : Deps} {s s' : Node} {e : Event}

/-- No permit is lost or made. -/
theorem Pays.conserved (h : Pays s e s') :
    s'.budget+s'.inHandlers+s'.inQueue+s'.inBlobs = s.budget+s.inHandlers+s.inQueue+s.inBlobs := by
  cases h with
  | acquire _ _ _ budget handlers queue blobs => omega
  | @send i t t' msg s' before outbox after none message enqueued budget handlers blobs =>
    have hqueue : s'.inQueue = s.inQueue+msg.permits := by
      rw [inQueue,inQueue,enqueued]
      simp
    omega
  | leave _ _ _ budget handlers queue blobs => omega
  | @receive msg s' received budget handlers blobs =>
    have hqueue : s.inQueue = msg.permits+s'.inQueue := by
      rw [inQueue,inQueue,received,List.map_cons,List.sum_cons]
    omega
  | archive _ _ budget handlers queue blobs => omega
  | stop budget handlers queue blobs => omega
  | still budget handlers queue blobs => omega

/-- What an action of a handler does to its permits and to the budget. -/
lemma permits_act {i : ℕ} {b b' : BridgeState} {t t' : Handler} {a : Action}
    (h : Acts D i b t a b' t') :
    (a = .acquire ∧ t.permits = 0 ∧ b.admissionBudget = b'.admissionBudget+t'.permits) ∨
    (a = .enqueue ∧ t'.permits = 0 ∧ b'.admissionBudget = b.admissionBudget ∧
      ∃ msg, t.outbox = some msg ∧ msg.permits = t.permits) ∨
    (t'.permits = t.permits ∧ b'.admissionBudget = b.admissionBudget) ∨
    t'.permits = 0 ∧ b'.admissionBudget = b.admissionBudget+t.permits := by
  cases h with
  | @acquired u enough =>
    refine Or.inl ⟨rfl,rfl,?_⟩
    simp only [Handler.permits]
    omega
  | proceed upload permits sound goesOn action =>
    refine Or.inr (Or.inr (Or.inl ⟨?_,rfl⟩))
    rw [permits]
    rcases goesOn with hc | ⟨chunk,next,rfl⟩
    · exact hc.live_post.2.2.2
    · rfl
  | leave => exact Or.inr (Or.inr (Or.inr ⟨rfl,rfl⟩))
  | sent => exact Or.inr (Or.inl ⟨rfl,rfl,rfl,_,rfl,rfl⟩)
  | accepted => exact Or.inr (Or.inl ⟨rfl,rfl,rfl,_,rfl,rfl⟩)
  | _ => exact Or.inr (Or.inr (Or.inl ⟨rfl,rfl⟩))

/-- Handlers start without permits. -/
lemma permits_request (i : ℕ) (b : BridgeState) (r : Request) :
    (request D i b r).2.permits = 0 ∧
      (request D i b r).1.admissionBudget = b.admissionBudget := by
  cases r with
  | post id contentLength =>
    simp only [request]
    split <;> exact ⟨rfl,rfl⟩
  | get id =>
    rcases getBlob_spec D i b.statusMap id with ⟨id',reply,heq,-⟩ | ⟨k',m',-,heq,-⟩
    · simp [request,heq,Handler.permits]
    · simp [request,heq,Handler.permits]

/-- An event of the bridge alone. -/
lemma pays_bridge (h : Linked D s) {be : Bridge.Event} {b : Bridge}
    (hb : Bridge.step D s.bridge be = some b)
    (event : (∃ r, e = .request r ∧ be = .spawn r) ∨ (∃ i a, e = .act i a ∧ be = .act i a) ∨
      e = .orphanDone ∧ be = .env .orphanDone) (unsent : ∀ i, be ≠ .act i .enqueue) :
    Pays s e { s with bridge := b } := by
  rcases event with ⟨r,rfl,rfl⟩ | ⟨i,a,rfl,rfl⟩ | ⟨rfl,rfl⟩
  · cases hb
    obtain ⟨hzero,hbudget⟩ := permits_request (D := D) s.bridge.threads.length s.bridge.shared r
    refine .still hbudget ?_ rfl rfl
    simp [inHandlers,Pool.total,Bridge.program,hzero]
  · obtain ⟨t,sh,t',ht,hact,rfl⟩ := Pool.step_act_eq_some.mp hb
    have hi : i < s.bridge.threads.length := (List.getElem?_eq_some_iff.mp ht).1
    obtain ⟨body,hsound⟩ := (h.holds.thread i t ht).sound
    have hsum := Pool.sum_map_set Handler.permits ht t'
    have hafter : (s.bridge.threads.set i t')[i]? = some t' := List.getElem?_set_self hi
    rcases permits_act (acts_of_act hsound hact) with
      ⟨rfl,hzero,hbudget⟩ | ⟨rfl,-⟩ | ⟨hkeep,hbudget⟩ | ⟨hzero,hbudget⟩
    · refine .acquire ht hafter hzero hbudget ?_ rfl rfl
      simp only [inHandlers,Pool.total]
      omega
    · exact absurd rfl (unsent i)
    · refine .still hbudget ?_ rfl rfl
      simp only [inHandlers,Pool.total]
      omega
    · refine .leave ht hafter hzero hbudget ?_ rfl rfl
      simp only [inHandlers,Pool.total]
      omega
  · obtain ⟨sh,henv,rfl⟩ := Pool.step_env_eq_some.mp hb
    simp only [Bridge.program,outside] at henv
    split_ifs at henv
    cases henv
    exact .still rfl rfl rfl rfl

/-- Every enabled event is one of the cases. -/
theorem pays_of_step (h : Linked D s) (hstep : step D s e = some s') : Pays s e s' := by
  cases does_of_step hstep with
  | bridge hb event unsent => exact pays_bridge h hb event unsent
  | @enqueue i t msg b running room handler outbox hb =>
    obtain ⟨u,sh,t',hu,hact,rfl⟩ := Pool.step_act_eq_some.mp hb
    cases handler.symm.trans hu
    have hi : i < s.bridge.threads.length := (List.getElem?_eq_some_iff.mp hu).1
    have hafter : (s.bridge.threads.set i t')[i]? = some t' := List.getElem?_set_self hi
    have hsum := Pool.sum_map_set Handler.permits hu t'
    cases t with
    | sending adm blob =>
      cases outbox
      cases hact
      refine .send hu rfl hafter rfl rfl rfl rfl ?_ rfl
      simp only [inHandlers,Pool.total,Handler.permits] at hsum ⊢
      omega
    | getting id =>
      cases outbox
      cases hact
      refine .send hu rfl hafter rfl rfl rfl rfl ?_ rfl
      simp only [inHandlers,Pool.total,Handler.permits,Handler.accepted] at hsum ⊢
      omega
    | _ => cases outbox
  | update updating head hb =>
    obtain ⟨sh,henv,rfl⟩ := Pool.step_env_eq_some.mp hb
    cases henv
    exact .still rfl rfl rfl rfl
  | stopUpdates => exact .still rfl rfl rfl rfl
  | @drive e ue u dropped admission updates event steps source target =>
    have hkeep : (∀ msg, ue ≠ .input (.admission msg)) → admission = s.admission := by
      intro hne
      rcases source with ⟨msg,hmsg,-⟩ | ⟨-,hadm⟩
      · exact absurd hmsg (hne msg)
      · exact hadm
    rcases steps.permits with
      ⟨rfl,hsend,hstop,hend,hheld⟩ | ⟨rfl,hrun,b,hfront,hann,rfl,hheld⟩ | ⟨rfl,rfl,hend,hheld⟩
    · -- A loop that has ended has no messages left to drop.
      have hclosed : u.coordinator.point = .stopped → s.admission = [] := fun hu =>
        h.closed (hend hu)
      rcases source with ⟨msg,rfl,hq⟩ | ⟨hne,rfl⟩
      · have hrun : u.coordinator.point ≠ .stopped := by
          intro hu
          rw [hclosed hu] at hq
          cases hq
        rcases event with ⟨-,hne,-⟩ | ⟨rfl,-⟩ | ⟨-,hbs⟩
        · exact absurd rfl (hne msg)
        · refine @Pays.receive s msg _ (by simp [hq,hrun]) (by simp [budget,hrun]) rfl ?_
          cases msg <;>
            simpa [inBlobs,Uploads.newBlob?,Coordinator.newBlob?,ToPipeline.permits] using hheld
        · cases hbs
      · have hnone : Uploads.newBlob? ue = none := by
          cases hnew : Uploads.newBlob? ue with
          | none => rfl
          | some a => exact absurd (newBlob?_eq_some hnew) (hne _)
        rw [hnone] at hheld
        refine .still ?_ rfl ?_ hheld
        · by_cases hu : u.coordinator.point = .stopped <;> simp [budget,hu,hclosed]
        · by_cases hu : u.coordinator.point = .stopped <;> simp [inQueue,hu,hclosed]
    · cases hkeep (by simp)
      rcases event with ⟨-,-,hne⟩ | ⟨-,msg,hmsg⟩ | ⟨rfl,-⟩
      · exact absurd rfl hne
      · cases hmsg
      · exact .archive hfront hann (by simp [budget,hrun]) rfl (by simp [inQueue,hrun]) hheld
    · cases hkeep (by simp)
      rcases event with ⟨rfl,-⟩ | ⟨-,msg,hmsg⟩ | ⟨-,hbs⟩
      · refine .stop ?_ rfl (by simp [inQueue,hend]) hheld
        simp [budget,hend,inQueue,inBlobs,Coordinator.heldPermits,Nat.add_assoc]
      · cases hmsg
      · cases hbs

theorem conserved_run {es : List Event} (hrun : Transition.run (step D) init es = some s) :
    s.budget+s.inHandlers+s.inQueue+s.inBlobs = totalChunkBudget := by
  have hstep : ∀ s e s', step D s e = some s' →
      Linked D s ∧ s.budget+s.inHandlers+s.inQueue+s.inBlobs = totalChunkBudget →
      Linked D s' ∧ s'.budget+s'.inHandlers+s'.inQueue+s'.inBlobs = totalChunkBudget := by
    rintro s e s' hs ⟨h,hsum⟩
    exact ⟨h.step hs,(pays_of_step h hs).conserved.trans hsum⟩
  exact (Transition.run_preserves hstep hrun ⟨linked_init D,rfl⟩).2

lemma sum_le_mul_sum {α : Type*} (n : ℕ) {f g : α → ℕ} {l : List α}
    (h : ∀ x ∈ l, f x ≤ n*g x) : (l.map f).sum ≤ n*(l.map g).sum := by
  rw [← List.sum_map_mul_left]
  exact List.sum_le_sum h

/-- The bytes of bodies in handlers, in queued messages and in blobs of the coordinator. -/
def bytes (s : Node) : ℕ :=
  Pool.total Handler.bytes s.bridge+(s.admission.map ToPipeline.bytes).sum+
    (s.engine.coordinator.held.map LocalBlob.bytes).sum

/-- A blob that the coordinator holds is one that a handler sent. -/
theorem Linked.held_origin (h : Linked D s) {b : LocalBlob}
    (hb : b ∈ s.engine.coordinator.held) : ∃ i a body, (i,.newBlob a) ∈ s.bridge.shared.enqueued ∧
      a.manifest = b.manifest ∧ a.Whole D body := by
  obtain ⟨a,ha,hab⟩ := h.stored.orderly.origin (List.mem_append_left _ hb)
  obtain ⟨i,hi⟩ := h.origin a ha
  obtain ⟨_,_,body,_,_,_,_,hwhole⟩ := h.newBlob hi
  exact ⟨i,a,body,hi,hab,hwhole⟩

/-- The bytes in each place are covered by the permits there. -/
theorem Linked.bytes_le (h : Linked D s) :
    s.bytes ≤ D.chunkSize*(s.inHandlers+s.inQueue+s.inBlobs) := by
  have hhandlers : Pool.total Handler.bytes s.bridge ≤ D.chunkSize*s.inHandlers := by
    apply sum_le_mul_sum
    intro t ht
    obtain ⟨i,hi⟩ := List.mem_iff_getElem?.mp ht
    obtain ⟨body,hsound⟩ := (h.holds.thread i t hi).sound
    exact hsound.bytes_le
  have hqueue : (s.admission.map ToPipeline.bytes).sum ≤ D.chunkSize*s.inQueue := by
    apply sum_le_mul_sum
    intro msg hmsg
    cases msg with
    | getBlob id => exact Nat.zero_le _
    | newBlob a =>
      obtain ⟨i,hi⟩ := h.queued _ hmsg
      obtain ⟨_,_,_,_,_,_,_,hwhole⟩ := h.newBlob hi
      exact hwhole.length_body_le
  have hblobs : (s.engine.coordinator.held.map LocalBlob.bytes).sum ≤ D.chunkSize*s.inBlobs := by
    apply sum_le_mul_sum
    intro b hb
    obtain ⟨_,a,body,-,hab,hwhole⟩ := h.held_origin hb
    exact (LocalBlob.covered hwhole hab).2
  rw [Nat.mul_add,Nat.mul_add]
  unfold bytes
  omega

/-- The chunk budget is conserved: the permits available, with handlers, in the admission
channel and with blobs are always `TOTAL_CHUNK_BUDGET`. A blob has a permit for each of its
chunks, a handler's permits cover the bytes it has, and together they bound the bytes of
all bodies. Permits come back to the budget when a handler ends early, when a blob is
archived and when the coordinator ends, and in no other event. -/
theorem budget_conserved {es : List Event} (hrun : Transition.run (step D) init es = some s) :
    s.budget+s.inHandlers+s.inQueue+s.inBlobs = totalChunkBudget ∧
    (∀ i a, (i,.newBlob a) ∈ s.bridge.shared.enqueued ∨
        (∃ adm, s.bridge.threads[i]? = some (.sending adm a)) →
      a.allowance = D.chunkCount a.body.length ∧ a.chunks.length = a.allowance) ∧
    (∀ msg ∈ s.admission, ∃ i, (i,msg) ∈ s.bridge.shared.enqueued) ∧
    (∀ b ∈ s.engine.coordinator.held, ∃ i a, (i,.newBlob a) ∈ s.bridge.shared.enqueued ∧
      a.manifest = b.manifest ∧ b.allowance = D.chunkCount a.body.length ∧
      b.chunks.entries.length ≤ b.allowance) ∧
    (∀ (i : ℕ) t, s.bridge.threads[i]? = some t → t.bytes ≤ D.chunkSize*t.permits) ∧
    s.bytes ≤ totalChunkBudget*D.chunkSize ∧
    ∀ e s', step D s e = some s' → Pays s e s' := by
  have h := linked_run hrun
  have hsum := conserved_run hrun
  have hexact : ∀ {a : AdmittedBlob} {body : Bytes}, a.Whole D body →
      a.allowance = D.chunkCount a.body.length ∧ a.chunks.length = a.allowance := by
    intro a body hwhole
    rw [hwhole.body_eq]
    exact ⟨hwhole.allowance_eq,hwhole.length_chunks⟩
  refine ⟨hsum,?_,h.queued,?_,?_,?_,fun e s' hstep => pays_of_step h hstep⟩
  · rintro i a (hi | ⟨adm,ht⟩)
    · obtain ⟨_,_,_,_,_,_,_,hwhole⟩ := h.newBlob hi
      exact hexact hwhole
    · obtain ⟨body,hwhole⟩ := (h.holds.thread i _ ht).sound
      exact hexact hwhole
  · intro b hb
    obtain ⟨i,a,body,hi,hab,hwhole⟩ := h.held_origin hb
    have hallow : a.allowance = b.allowance := congrArg Manifest.allowance hab
    exact ⟨i,a,hi,hab,by rw [← hallow]; exact (hexact hwhole).1,(LocalBlob.covered hwhole hab).1⟩
  · intro i t ht
    obtain ⟨body,hsound⟩ := (h.holds.thread i t ht).sound
    exact hsound.bytes_le
  · calc s.bytes ≤ D.chunkSize*(s.inHandlers+s.inQueue+s.inBlobs) := h.bytes_le
      _ ≤ D.chunkSize*totalChunkBudget := Nat.mul_le_mul_left _ (by omega)
      _ = totalChunkBudget*D.chunkSize := Nat.mul_comm _ _

/-- One blob is with the coordinator, one in the channel, one with its handler. -/
def uploads : List Event :=
  [.request (.post blobId (some [49])),.act 0 .acquire,.act 0 (.frame [7]),.act 0 .hashStart,
    .act 0 .hashDone,.act 0 .bodyEnd,.act 0 .enqueue,.act 0 .commit,.recvAdmission,
    .request (.post fileId (some [49])),.act 1 .acquire,.act 1 (.frame [8]),.act 1 .hashStart,
    .act 1 .hashDone,.act 1 .bodyEnd,.act 1 .enqueue,.request (.post imageId (some [50])),
    .act 2 .acquire]

theorem budget_conserved_uploads :
    ∃ s, Transition.run (step (Deps.sample 1 Nat.one_pos)) init uploads = some s ∧
      s.inHandlers = 2 ∧ s.inQueue = 1 ∧ s.inBlobs = 1 ∧ s.budget = 1532 ∧
      s.bytes ≤ 1536*1 := by
  have hsome : (Transition.run (step (Deps.sample 1 Nat.one_pos)) init uploads).isSome := by decide
  have hrun := (Option.some_get hsome).symm
  obtain ⟨hsum,-,-,-,-,hbytes,-⟩ := budget_conserved hrun
  refine ⟨_,hrun,rfl,rfl,rfl,?_,hbytes⟩
  exact Nat.add_right_cancel (Nat.add_right_cancel (Nat.add_right_cancel hsum))

end Node

end Gozara
