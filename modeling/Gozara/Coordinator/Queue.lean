import Gozara.Library.ServiceQueue
import Gozara.Coordinator.Moves

/-!
# The coordinator serves blobs like a queue with one customer in service

The blobs announced, the current one and those waiting are the states of a service queue
over manifests: a `NewBlob` is an arrival, the end of an announcement finishes a service,
nothing else moves a blob. The order of announcements and the absence of an idle or a
finished front follow from the queue.
-/
namespace Gozara.Coordinator
open Pipeline

/-- The coordinator as a service queue of manifests. -/
def queue (c : Coordinator) : ServiceQueue.State Manifest :=
  ⟨c.announced.map LocalBlob.manifest,c.pipeline.currentBlob.map LocalBlob.manifest,
    c.pipeline.pendingLocalBlobs.map LocalBlob.manifest⟩

/-- The queue event of an input. -/
def queueEvents : Input → List (ServiceQueue.Event Manifest)
  | .admission (.newBlob a) => [.arrive a.manifest]
  | .bridgeSend => [.finish]
  | _ => []

lemma map_manifest_eq {R : Hash → Chunk → Chunk → Prop} (hR : ∀ h d d', R h d d' → d'.data = d.data)
    {o o' : Option LocalBlob} (h : Option.Rel (LocalBlob.Evolves R) o o') :
    o'.map LocalBlob.manifest = o.map LocalBlob.manifest := by
  cases h with
  | none => rfl
  | some hev => exact congrArg some (hev.manifest_eq hR)

variable {c c' : Coordinator} {now : Instant} {i : Input} {eff : Effects}

/-- Each input but the end of the loop is at most one step of the queue. -/
theorem Moves.queue_run (h : Moves now c i c' eff) (hi : i ≠ .stop) :
    Transition.run ServiceQueue.step c.queue (queueEvents i) = some c'.queue := by
  cases h with
  | stay received announced keeps _ input =>
    have hevents : queueEvents i = [] := by
      unfold queueEvents
      split
      · exact absurd rfl (input.1 _)
      · exact absurd rfl input.2.1
      · rfl
    rw [hevents,queue,queue,announced,keeps.waiting,
      map_manifest_eq (fun _ _ _ => Change.data_eq) keeps.current]
    rfl
  | wait head received announced front current waiting point =>
    simp [queueEvents,Transition.run,ServiceQueue.step,ServiceQueue.promote,queue,announced,front,
      current,waiting,manifest_localBlob]
  | begin head received announced front current waiting point =>
    simp only [queueEvents,Transition.run,ServiceQueue.step,ServiceQueue.promote,queue,announced,
      front,current,waiting,Option.map_none,Option.bind_some,Option.some.injEq,
      ServiceQueue.State.mk.injEq,true_and]
    rw [← manifest_localBlob now,← List.map_singleton (f := LocalBlob.manifest),← List.map_append]
    exact ⟨List.head?_map,List.map_tail.symm⟩
  | archive suspended received announced front current waiting =>
    have hcur := map_manifest_eq (fun _ _ _ => Assigned.data_eq) current
    simp [queueEvents,Transition.run,ServiceQueue.step,ServiceQueue.promote,queue,announced,front,
      hcur,waiting,List.head?_map,List.map_tail]
  | stop => exact absurd rfl hi

/-- The blob that an input brings. -/
def newBlob? : Input → Option AdmittedBlob
  | .admission (.newBlob a) => some a
  | _ => none

theorem Moves.received_eq (h : Moves now c i c' eff) :
    c'.received = c.received ++ (newBlob? i).toList := by
  cases h with
  | stay received announced keeps _ input =>
    have hnone : newBlob? i = none := by
      unfold newBlob?
      split
      · exact absurd rfl (input.1 _)
      · rfl
    rw [received,hnone]
    simp
  | wait _ received => exact received
  | begin _ received => exact received
  | archive _ received => simpa [newBlob?] using received
  | stop => simp [onStop,newBlob?]

/-- The invariant of the loop. Past its end only the announcements are left. -/
structure Orderly (c : Coordinator) : Prop where
  customers : c.point ≠ .stopped →
    ServiceQueue.customers c.queue = c.received.map AdmittedBlob.manifest
  busy : ServiceQueue.Busy c.queue
  waiting : ∀ b ∈ c.pipeline.pendingLocalBlobs, ¬b.Finished
  pointOk : c.PointOk
  order : c.queue.served <+: c.received.map AdmittedBlob.manifest
  ended : c.point = .stopped → c.pipeline.currentBlob = none ∧ c.pipeline.pendingLocalBlobs = []

theorem orderly_init : Orderly init where
  customers _ := rfl
  busy _ := rfl
  waiting := by simp [init,Pipeline.new]
  pointOk := ⟨by simp [init,Pipeline.new],by simp [init]⟩
  order := List.prefix_rfl
  ended := fun h => by cases h

lemma order_of_customers (h : ServiceQueue.customers c.queue = c.received.map AdmittedBlob.manifest) :
    c.queue.served <+: c.received.map AdmittedBlob.manifest := by
  rw [← h]
  exact ServiceQueue.served_prefix_customers _

lemma events_arrival (i : Input) :
    (queueEvents i).filterMap ServiceQueue.Event.arrival =
      (newBlob? i).toList.map AdmittedBlob.manifest := by
  unfold queueEvents newBlob?
  split <;> simp_all [ServiceQueue.Event.arrival]

/-- A coordinator with unfinished blobs in the queue promotes an unfinished blob. -/
theorem Moves.waiting (h : Moves now c i c' eff) (ho : c.Orderly)
    (hnew : ∀ a, i = .admission (.newBlob a) → a.chunks ≠ []) :
    (∀ b ∈ c'.pipeline.pendingLocalBlobs, ¬b.Finished) ∧ c'.PointOk := by
  have happend : ∀ a, a.chunks ≠ [] →
      ∀ b ∈ c.pipeline.pendingLocalBlobs ++ [localBlob now a], ¬b.Finished := by
    intro a ha b hb
    rcases List.mem_append.mp hb with hb | hb
    · exact ho.waiting b hb
    · rw [List.mem_singleton.mp hb]
      exact localBlob_not_finished ha
  have hrunning : ∀ {q : Coordinator}, q.point.Running →
      (∀ b, q.pipeline.currentBlob = some b → ¬b.Finished) → q.PointOk := by
    intro q hrun hq
    refine ⟨fun _ => hq,fun msg hmsg => ?_⟩
    rcases hrun with h | ⟨peers,after,h⟩ <;> rw [h] at hmsg <;> cases hmsg
  cases h with
  | stay received announced keeps spawned input point pointOk =>
    exact ⟨by rw [keeps.waiting]; exact ho.waiting,pointOk ho.pointOk⟩
  | @wait a c' b head received announced front current waiting point =>
    rw [waiting]
    refine ⟨happend a (hnew a rfl),hrunning point ?_⟩
    rw [current,← front]
    exact ho.pointOk.running (Or.inl head)
  | @begin a c' head received announced front current waiting point =>
    rw [waiting]
    refine ⟨fun b hb => happend a (hnew a rfl) b (List.mem_of_mem_tail hb),hrunning point ?_⟩
    intro b hb
    rw [current] at hb
    exact happend a (hnew a rfl) b (List.mem_of_mem_head? hb)
  | @archive msg b c' ts suspended received announced front current waiting spawned point =>
    rw [waiting]
    refine ⟨fun b hb => ho.waiting b (List.mem_of_mem_tail hb),hrunning point ?_⟩
    intro b' hb'
    rw [hb'] at current
    obtain ⟨b₀,hb₀,hev⟩ := HashMap.exists_of_rel_some' current
    rw [hev.finished_iff fun _ _ _ h => h.isFinalized_eq]
    exact ho.waiting b₀ (List.mem_of_mem_head? hb₀)
  | stop head =>
    refine ⟨by simp [onStop,Pipeline.new],⟨?_,?_⟩⟩
    · exact fun hrun => absurd rfl hrun.ne_stopped
    · exact fun msg hmsg => by cases hmsg

lemma Moves.not_stopped (h : Moves now c i c' eff) (hi : i ≠ .stop) : c.point ≠ .stopped ↔
    c'.point ≠ .stopped := by
  cases h with
  | stay _ _ _ _ _ point => exact not_congr point.symm
  | wait head _ _ _ _ _ point => simp [head,point.ne_stopped]
  | begin head _ _ _ _ _ point => simp [head,point.ne_stopped]
  | archive suspended _ _ _ _ _ _ point => simp [suspended,point.ne_stopped]
  | stop => exact absurd rfl hi

/-- Past its end the loop holds no blob. -/
lemma Moves.ended (h : Moves now c i c' eff) (ho : c.Orderly) (hi : i ≠ .stop)
    (hc' : c'.point = .stopped) :
    c'.pipeline.currentBlob = none ∧ c'.pipeline.pendingLocalBlobs = [] := by
  cases h with
  | stay received announced keeps spawned input point =>
    obtain ⟨hcur,hwait⟩ := ho.ended (point.mp hc')
    have hrel := keeps.current
    rw [hcur] at hrel
    refine ⟨?_,by rw [keeps.waiting,hwait]⟩
    cases hx : c'.pipeline.currentBlob with
    | none => rfl
    | some b =>
      rw [hx] at hrel
      cases hrel
  | wait head received announced front current waiting point => exact absurd hc' point.ne_stopped
  | begin head received announced front current waiting point => exact absurd hc' point.ne_stopped
  | archive suspended received announced front current waiting spawned point =>
    exact absurd hc' point.ne_stopped
  | stop => exact absurd rfl hi

theorem Moves.orderly (h : Moves now c i c' eff) (ho : c.Orderly)
    (hnew : ∀ a, i = .admission (.newBlob a) → a.chunks ≠ []) : c'.Orderly := by
  obtain ⟨hwaiting,hpoint⟩ := h.waiting ho hnew
  by_cases hi : i = .stop
  · subst hi
    cases h with
    | stay _ _ _ _ input => exact absurd rfl input.2.2
    | stop head =>
      exact ⟨fun h => absurd rfl h,fun _ => rfl,hwaiting,hpoint,ho.order,fun _ => ⟨rfl,rfl⟩⟩
  · have hrun := h.queue_run hi
    have hcust : c'.point ≠ .stopped →
        ServiceQueue.customers c'.queue = c'.received.map AdmittedBlob.manifest := by
      intro hc'
      rw [ServiceQueue.customers_run hrun,ho.customers ((h.not_stopped hi).mpr hc'),
        h.received_eq,events_arrival,List.map_append]
    refine ⟨hcust,ServiceQueue.busy_run hrun ho.busy,hwaiting,hpoint,?_,h.ended ho hi⟩
    by_cases hc' : c'.point = .stopped
    · -- A stopped loop only reorders its maps.
      cases h with
      | stay received announced _ _ _ point =>
        have horder := ho.order
        rw [queue] at horder ⊢
        rw [announced,received]
        exact horder
      | wait _ _ _ _ _ _ point => exact absurd hc' point.ne_stopped
      | begin _ _ _ _ _ _ point => exact absurd hc' point.ne_stopped
      | archive _ _ _ _ _ _ _ point => exact absurd hc' point.ne_stopped
      | stop => exact absurd rfl hi
    · exact order_of_customers (hcust hc')

theorem step_moves {e : Instant × Input} (h : c.step e = some c') :
    ∃ eff, Moves e.1 c e.2 c' eff := by
  obtain ⟨⟨q,eff⟩,hexec,rfl⟩ := Option.map_eq_some_iff.mp h
  exact ⟨eff,moves_of_exec hexec⟩

/-- The blobs that a sequence of inputs brings, in order. -/
def newBlobs (es : List (Instant × Input)) : List AdmittedBlob := es.filterMap fun e => newBlob? e.2

theorem received_run {es : List (Instant × Input)} (h : Transition.run step c es = some c') :
    c'.received = c.received ++ newBlobs es := by
  induction es generalizing c with
  | nil =>
    cases h
    simp [newBlobs]
  | cons e es ih =>
    obtain ⟨d,hd,hrest⟩ := Transition.run_cons_eq_some.mp h
    obtain ⟨eff,hmoves⟩ := step_moves hd
    rw [ih hrest,hmoves.received_eq,List.append_assoc]
    congr 1
    cases hnew : newBlob? e.2 <;> simp [newBlobs,hnew]

theorem orderly_run {es : List (Instant × Input)} (h : Transition.run step c es = some c')
    (hc : c.Orderly) (hnew : ∀ a ∈ newBlobs es, a.chunks ≠ []) : c'.Orderly := by
  induction es generalizing c with
  | nil =>
    cases h
    exact hc
  | cons e es ih =>
    obtain ⟨d,hd,hrest⟩ := Transition.run_cons_eq_some.mp h
    obtain ⟨eff,hmoves⟩ := step_moves hd
    refine ih hrest (hmoves.orderly hc ?_) ?_
    · intro a ha
      exact hnew a (List.mem_filterMap.mpr ⟨e,List.mem_cons_self,by rw [ha]; rfl⟩)
    · intro a ha
      obtain ⟨e',he',ha'⟩ := List.mem_filterMap.mp ha
      exact hnew a (List.mem_filterMap.mpr ⟨e',List.mem_cons_of_mem _ he',ha'⟩)

/-- The local queue is first in, first out: at the head of the loop the blobs received are
those announced as finalized, then the current one, then those waiting; nothing waits
without a current blob, and the current blob has a chunk that is not finalized. Suspended
in the announcement, the message names the current blob. Announcements follow the order of
admission in every state. -/
theorem local_queue_fifo {es : List (Instant × Input)} {c : Coordinator}
    (hrun : Transition.run step init es = some c) (hnew : ∀ a ∈ newBlobs es, a.chunks ≠ []) :
    (c.point = .head →
      (newBlobs es).map AdmittedBlob.id = c.announced.map LocalBlob.id ++
        (c.pipeline.currentBlob.map LocalBlob.id).toList ++
          c.pipeline.pendingLocalBlobs.map LocalBlob.id ∧
      (c.pipeline.currentBlob = none → c.pipeline.pendingLocalBlobs = []) ∧
      (∀ b, c.pipeline.currentBlob = some b →
        ∃ h chunk, b.chunks.lookup h = some chunk ∧ chunk.isFinalized = false)) ∧
    (∀ msg, c.point = .sendBridge msg → ∃ b, c.pipeline.currentBlob = some b ∧
      msg = .updateStatus b.id .finalized) ∧
    c.announced.map LocalBlob.id <+: (newBlobs es).map AdmittedBlob.id := by
  have ho := orderly_run hrun orderly_init hnew
  have hreceived : c.received = newBlobs es := received_run hrun
  refine ⟨fun hhead => ⟨?_,?_,?_⟩,?_,?_⟩
  · have hcust := congrArg (List.map Manifest.id) (ho.customers (by rw [hhead]; simp))
    rw [← hreceived]
    cases hcur : c.pipeline.currentBlob <;>
      simpa [ServiceQueue.customers,queue,hcur,Function.comp_def,LocalBlob.manifest,
        AdmittedBlob.manifest] using hcust.symm
  · intro hcur
    simpa [queue] using ho.busy (by simp [queue,hcur])
  · intro b hb
    have hfin := ho.pointOk.running (Or.inl hhead) b hb
    rw [LocalBlob.finished_iff] at hfin
    push Not at hfin
    obtain ⟨h,chunk,hlook,hne⟩ := hfin
    exact ⟨h,chunk,hlook,by simpa using hne⟩
  · intro msg hmsg
    obtain ⟨b,hb,-,hid⟩ := ho.pointOk.sending msg hmsg
    exact ⟨b,hb,hid⟩
  · have horder := ho.order.map Manifest.id
    rw [← hreceived]
    simpa [queue,Function.comp_def,LocalBlob.manifest,AdmittedBlob.manifest] using horder

/-- A blob of one chunk of one byte. -/
def arrival (id : String) (byte : UInt8) : Input :=
  .admission (.newBlob ⟨id,Deps.sampleHash [byte],⟨[Deps.sampleHash [byte]]⟩,
    [(Deps.sampleHash [byte],[byte])],1⟩)

/-- Three blobs arrive, the first is completed and announced, and a stale report of its chunk
finds the second in its place. -/
def arrivals : List (Instant × Input) :=
  [(0,arrival blobId 7),(1,arrival fileId 8),(2,arrival imageId 9),
    (3,.updateChunkStatus (Deps.sampleHash [7]) (.finalized ⟨[1]⟩)),(4,.bridgeSend),
    (5,.updateChunkStatus (Deps.sampleHash [7]) .pending)]

theorem local_queue_fifo_arrivals : ∃ c, Transition.run step init arrivals = some c ∧
    c.announced.map LocalBlob.id = [blobId] ∧
    [blobId,fileId,imageId] = c.announced.map LocalBlob.id ++
      (c.pipeline.currentBlob.map LocalBlob.id).toList ++
        c.pipeline.pendingLocalBlobs.map LocalBlob.id ∧
    (∃ b h chunk, c.pipeline.currentBlob = some b ∧ b.id = fileId ∧
      b.chunks.lookup h = some chunk ∧ chunk.isFinalized = false) ∧
    c.announced.map LocalBlob.id <+: [blobId,fileId,imageId] := by
  have hsome : (Transition.run step init arrivals).isSome := by decide
  have hrun := (Option.some_get hsome).symm
  obtain ⟨hhead,-,horder⟩ := local_queue_fifo hrun (by decide)
  obtain ⟨hids,-,hfront⟩ := hhead rfl
  obtain ⟨h,chunk,hlook,hun⟩ := hfront _ rfl
  exact ⟨_,hrun,rfl,hids,⟨_,h,chunk,rfl,rfl,hlook,hun⟩,horder⟩

end Gozara.Coordinator
