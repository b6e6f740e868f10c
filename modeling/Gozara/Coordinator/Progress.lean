import Gozara.BlobTransfer.Push
import Gozara.Coordinator.Attempts
import Gozara.Coordinator.Points
import Gozara.Library.Progress

/-!
# Every upload that ends well is progress

A loop with a permit at hand that has nothing else to handle pursues the chunks that are
missing: each of them is free or has one upload. When an upload ends well, one chunk less
is missing, and the loop is where it was, with the next blob in front if need be.
-/
namespace Gozara

namespace LocalBlob
variable {R : Hash → Chunk → Chunk → Prop} {b b' : LocalBlob}

/-- The hashes of the chunks that are not finalized. -/
def missing (b : LocalBlob) : Finset Hash :=
  ((b.chunks.entries.filter fun e => !e.2.isFinalized).map Sigma.fst).toFinset

lemma mem_missing {h : Hash} :
    h ∈ b.missing ↔ ∃ d, b.chunks.lookup h = some d ∧ d.isFinalized = false := by
  simp only [missing,List.mem_toFinset,List.mem_map,List.mem_filter,HashMap.lookup_eq_some_iff,
    Bool.not_eq_true']
  constructor
  · rintro ⟨e,⟨he,hfin⟩,rfl⟩
    exact ⟨e.2,he,hfin⟩
  · rintro ⟨d,hd,hfin⟩
    exact ⟨_,⟨hd,hfin⟩,rfl⟩

lemma missing_eq_empty (hb : b.Finished) : b.missing = ∅ := by
  refine Finset.eq_empty_of_forall_notMem fun h hmem => ?_
  obtain ⟨d,hd,hne⟩ := mem_missing.mp hmem
  rw [finished_iff.mp hb h d hd] at hne
  cases hne

lemma Evolves.missing_eq (hR : ∀ h d d', R h d d' → d'.isFinalized = d.isFinalized)
    (hb : Evolves R b b') : b'.missing = b.missing := by
  ext h
  rw [mem_missing,mem_missing]
  constructor
  · rintro ⟨d',hd',hfin⟩
    obtain ⟨d,hd,hRd⟩ := hb.lookup_some' hd'
    exact ⟨d,hd,(hR h d d' hRd).symm.trans hfin⟩
  · rintro ⟨d,hd,hfin⟩
    obtain ⟨d',hd',hRd⟩ := hb.lookup_some hd
    exact ⟨d',hd',(hR h d d' hRd).trans hfin⟩

lemma lookup_setChunk {hash h : Hash} {c d : Chunk} (hc : b.chunks.lookup hash = some c) :
    (b.setChunk hash d).chunks.lookup h = if h = hash then some d else b.chunks.lookup h := by
  rw [setChunk,HashMap.lookup_modify,hc]
  rfl

lemma mem_missing_setChunk {hash h : Hash} {c d : Chunk} (hc : b.chunks.lookup hash = some c) :
    h ∈ (b.setChunk hash d).missing ↔
      if h = hash then d.isFinalized = false else h ∈ b.missing := by
  rw [mem_missing,lookup_setChunk hc]
  split_ifs
  · simp
  · exact mem_missing.symm

end LocalBlob

/-- The number of chunks that are missing, over all blobs. -/
def Pipeline.backlog (p : Pipeline) : ℕ :=
  ((p.currentBlob.toList ++ p.pendingLocalBlobs).map fun b => b.missing.card).sum

namespace Coordinator
open Pipeline

/-- Every chunk of the blob in front is finalized, or free to be assigned, or one of `hs`,
which are different chunks of it that are neither. -/
structure Pursued (now : Instant) (hs : List Hash) (o : Option LocalBlob) : Prop where
  covers : ∀ b h d, o = some b → b.chunks.lookup h = some d →
    d.isFinalized = true ∨ isEligible now d = true ∨ h ∈ hs
  aims : ∀ h ∈ hs, ∃ b d, o = some b ∧ b.chunks.lookup h = some d ∧ d.isFinalized = false ∧
    isEligible now d = false
  nodup : hs.Nodup

/-- A peer has issued a storage permit that has not expired. -/
def HasPermit (now : Instant) (p : Pipeline) : Prop :=
  ∃ peer expiresAt, p.storagePermits.lookup peer = some expiresAt ∧ now < expiresAt

variable {c c' : Coordinator} {now : Instant} {hs : List Hash} {o o' : Option LocalBlob}
  {ts : List UploadTask} {p : Pipeline}

lemma isEligible_assigned (now : Instant) (d : Chunk) (peer : PeerId) :
    isEligible now (d.setStatus now (.inflight peer)) = false :=
  Uploads.isEligible_inflight rfl (by simp [Instant.secsSince])

/-- Assigning takes free chunks into pursuit. -/
theorem Pursued.assign (h : Pursued now hs o)
    (keeps : Option.Rel (LocalBlob.Evolves fun _ => Assigned now) o o')
    (spawned : Spawned now (fun _ d => d) o o' ts) (marks : Marks now o o' ts) :
    Pursued now (hs ++ ts.map UploadTask.hash) o' := by
  refine ⟨fun b' k d' hb' hd' => ?_,fun k hk => ?_,?_⟩
  · rw [hb'] at keeps
    obtain ⟨b,hb,hev⟩ := HashMap.exists_of_rel_some' keeps
    obtain ⟨d,hd,-⟩ := hev.lookup_some' hd'
    by_cases hmem : k ∈ ts.map UploadTask.hash
    · exact Or.inr (Or.inr (List.mem_append_right _ hmem))
    · obtain ⟨b₁,hb₁,hd₁⟩ := marks b k d hb hd
      cases hb'.symm.trans hb₁
      rw [mark_of_notMem hmem,hd'] at hd₁
      cases hd₁
      exact (h.covers b k d' hb hd).imp_right fun hrest => hrest.imp_right (List.mem_append_left _)
  · rcases List.mem_append.mp hk with hk | hk
    · obtain ⟨b,d,hb,hd,hfin,hel⟩ := h.aims k hk
      rw [hb] at keeps
      obtain ⟨b',hb',hev⟩ := HashMap.exists_of_rel_some keeps
      obtain ⟨d',hd',rfl | ⟨hfree,-⟩⟩ := hev.lookup_some hd
      · exact ⟨b',d',hb',hd',hfin,hel⟩
      · rw [hel] at hfree
        cases hfree
    · obtain ⟨t,ht,rfl⟩ := List.mem_map.mp hk
      obtain ⟨-,b',d,-,hb',-,-,hd',-⟩ := spawned.task t ht
      exact ⟨b',_,hb',hd',rfl,isEligible_assigned now d t.peer⟩
  · -- A chunk that is pursued is not free.
    refine List.nodup_append'.mpr ⟨h.nodup,spawned.nodup,fun k hk hk' => ?_⟩
    obtain ⟨b,d,hb,hd,-,hel⟩ := h.aims k hk
    obtain ⟨t,ht,rfl⟩ := List.mem_map.mp hk'
    obtain ⟨b₁,-,d₁,hb₁,-,hd₁,hfree,-⟩ := spawned.task t ht
    cases hb.symm.trans hb₁
    cases hd.symm.trans hd₁
    rw [hel] at hfree
    cases hfree

/-- The report of an upload that ended well ends its pursuit, and finishes the blob or goes
on assigning. -/
theorem Pursued.finalized {hash : Hash} (h : Pursued now (hash::hs) c.pipeline.currentBlob)
    (peer : PeerId) : ∃ b b', c.pipeline.currentBlob = some b ∧ Pursued now hs (some b') ∧
      b'.missing.card < b.missing.card ∧
      ((b'.missing = ∅ ∧ c.onUpdateChunkStatus now hash (.finalized peer) =
          ({ c with
            pipeline := { c.pipeline with currentBlob := some b' }
            point := .sendBridge (.updateStatus b.id .finalized) },[])) ∨
        c.onUpdateChunkStatus now hash (.finalized peer) =
          c.assign now { c.pipeline with currentBlob := some b' }) := by
  obtain ⟨b,d,hb,hd,hfin,-⟩ := h.aims hash List.mem_cons_self
  have hpursued : Pursued now hs (some (b.setChunk hash (d.setStatus now (.finalized peer)))) := by
    obtain ⟨hnot,hnodup⟩ := List.nodup_cons.mp h.nodup
    refine ⟨?_,fun k hk => ?_,hnodup⟩
    · rintro _ k d' ⟨⟩ hd'
      rw [LocalBlob.lookup_setChunk hd] at hd'
      split_ifs at hd' with hk
      · cases hd'
        exact Or.inl rfl
      · refine (h.covers b k d' hb hd').imp_right fun hrest => hrest.imp_right fun hmem => ?_
        exact (List.mem_cons.mp hmem).resolve_left hk
    · obtain ⟨b₁,d₁,hb₁,hd₁,hrest⟩ := h.aims k (List.mem_cons_of_mem _ hk)
      cases hb.symm.trans hb₁
      refine ⟨_,d₁,rfl,?_,hrest⟩
      rw [LocalBlob.lookup_setChunk hd,if_neg]
      · exact hd₁
      · rintro rfl
        exact hnot hk
  have hless : (b.setChunk hash (d.setStatus now (.finalized peer))).missing ⊂ b.missing := by
    refine Finset.ssubset_iff_subset_ne.mpr ⟨fun k hk => ?_,fun heq => ?_⟩
    · rw [LocalBlob.mem_missing_setChunk hd] at hk
      split_ifs at hk with hkh
      · cases hk
      · exact hk
    · have hmem : hash ∈ b.missing := LocalBlob.mem_missing.mpr ⟨d,hd,hfin⟩
      rw [← heq,LocalBlob.mem_missing_setChunk hd,if_pos rfl] at hmem
      cases hmem
  refine ⟨b,_,hb,hpursued,Finset.card_lt_card hless,?_⟩
  have hreported := reported_onUpdateChunkStatus c now hash (.finalized peer)
  generalize c.onUpdateChunkStatus now hash (.finalized peer) = r at hreported ⊢
  cases hreported with
  | ignored missing =>
    rw [missing b hb] at hd
    cases hd
  | noted front found status => cases status
  | announced front found status finished =>
    cases hb.symm.trans front
    cases hd.symm.trans found
    exact Or.inl ⟨LocalBlob.missing_eq_empty finished,rfl⟩
  | assigned front found =>
    cases hb.symm.trans front
    cases hd.symm.trans found
    exact Or.inr rfl

/-- A permit that is valid now is not swept. -/
lemma requestStoragePermits_of_hasPermit (h : HasPermit now p) :
    HasPermit now (p.requestStoragePermits now).1 ∧ (p.requestStoragePermits now).2 = none := by
  obtain ⟨peer,expiresAt,hlook,hlt⟩ := h
  have hkept : (p.storagePermits.retain fun _ expiresAt => now < expiresAt).lookup peer =
      some expiresAt := HashMap.lookup_retain_eq_some.mpr ⟨hlook,by simpa using hlt⟩
  have hne : (p.storagePermits.retain fun _ expiresAt => now < expiresAt).entries.isEmpty =
      false := by
    rw [List.isEmpty_eq_false_iff]
    exact List.ne_nil_of_mem (HashMap.lookup_eq_some_iff.mp hkept)
  unfold requestStoragePermits
  split_ifs
  · exact ⟨⟨peer,expiresAt,hlook,hlt⟩,rfl⟩
  · simp only [hne,Bool.false_eq_true,if_false]
    exact ⟨⟨peer,expiresAt,hkept,hlt⟩,trivial⟩

lemma beginNextBlob_of_hasPermit (h : HasPermit now p) :
    HasPermit now (p.beginNextBlob now).1 ∧ (p.beginNextBlob now).2 = none := by
  unfold beginNextBlob
  split
  · exact ⟨h,rfl⟩
  · split
    · exact ⟨h,rfl⟩
    · exact requestStoragePermits_of_hasPermit h

lemma hasPermit_assign (c : Coordinator) (h : HasPermit now p) :
    HasPermit now (c.assign now p).1.pipeline := by
  obtain ⟨current,allowance,heq,-⟩ := assignChunks_spec p now
  simp only [assign,atHead,heq]
  exact h

/-- Assigning changes no chunk that is missing. -/
lemma backlog_assign (c : Coordinator) (now : Instant) (p : Pipeline) :
    (c.assign now p).1.pipeline.backlog = p.backlog := by
  have hkeeps := (continues_assign c now p).keeps
  unfold backlog
  rw [hkeeps.waiting,List.map_append,List.map_append,List.sum_append,List.sum_append]
  congr 1
  have hrel := hkeeps.current
  generalize p.currentBlob = o at hrel ⊢
  generalize (c.assign now p).1.pipeline.currentBlob = o' at hrel ⊢
  cases hrel with
  | none => rfl
  | some hev => simp [hev.missing_eq fun _ _ _ hd => hd.isFinalized_eq]

/-- With a permit at hand, the end of an announcement goes on to assign the next blob. -/
lemma onAnnounced_of_hasPermit (c : Coordinator) (b : LocalBlob) (h : HasPermit now p) :
    c.onAnnounced now b p =
      { c with announced := c.announced ++ [b] }.assign now (p.beginNextBlob now).1 := by
  simp only [onAnnounced,settle,(beginNextBlob_of_hasPermit h).2]
  rfl

end Coordinator

namespace Uploads
open Coordinator Pipeline

/-- Events that the coordinator and its tasks take by themselves; the outcome of an upload
is up to the peer. -/
def Event.Own : Event → Prop
  | .recvInternal | .finish _ _ | .timeout _ | .report _ => True
  | .input i => i = .timerAssign ∨ i = .swarmSend ∨ i = .bridgeSend
  | .tick _ => False

/-- At the head with a permit, every task uploads a chunk of the blob in front, and what no
task uploads is finalized or can be assigned. -/
structure Working (s : Uploads) : Prop where
  head : s.coordinator.point = .head
  internal : s.internal = []
  uploading : ∀ t ∈ s.tasks, t.phase = .uploading
  pursued : Pursued s.clock (s.tasks.map fun t => t.upload.hash) s.coordinator.pipeline.currentBlob
  permit : HasPermit s.clock s.coordinator.pipeline

variable {s s' : Uploads} {e : Event} {dropped : List LocalBlob}

lemma working_assign {c : Coordinator} {now : Instant} {p : Pipeline} {tasks : List Task}
    (uploading : ∀ t ∈ tasks, t.phase = .uploading)
    (pursued : Pursued now (tasks.map fun t => t.upload.hash) p.currentBlob)
    (permit : HasPermit now p) (acked : List AckedPush) :
    Working ⟨(c.assign now p).1,now,[],tasks ++ (c.assign now p).2.map fun u => ⟨u,.uploading⟩,
      acked⟩ := by
  have hcont := continues_assign c now p
  refine ⟨rfl,rfl,fun t ht => ?_,?_,hasPermit_assign c permit⟩
  · rcases List.mem_append.mp ht with ht | ht
    · exact uploading t ht
    · obtain ⟨u,-,rfl⟩ := List.mem_map.mp ht
      rfl
  · have h := pursued.assign hcont.keeps.current hcont.spawned (marks_assign c now p)
    simpa [Function.comp_def] using h

lemma step_finish {k : ℕ} {u : UploadTask} {stream : Option BlobTransfer.Stream}
    (hk : s.tasks[k]? = some ⟨u,.uploading⟩)
    (hok : BlobTransfer.push stream u.hash u.payload = .ok ()) :
    s.step (.finish k stream) = some { s with
      coordinator := releasePermit s.coordinator
      tasks := s.tasks.set k ⟨u,.reporting (.finalized u.peer)⟩
      acked := s.acked ++ [⟨u.peer,u.hash,u.payload,stream,hok⟩] } := by
  simp only [step,exec,hk,Option.map_some,Option.some.injEq]
  unfold finish
  split
  · rfl
  · rename_i herr
    rw [hok] at herr
    cases herr

lemma step_report {k : ℕ} {u : UploadTask} {status : ChunkUploadStatus}
    (hk : s.tasks[k]? = some ⟨u,.reporting status⟩) (hrun : s.coordinator.point ≠ .stopped) :
    s.step (.report k) = some { s with
      internal := s.internal ++ [(u.hash,status)],tasks := s.tasks.eraseIdx k } := by
  simp only [step,exec,hk,Option.map_some,if_neg hrun]

lemma step_recvInternal {hash : Hash} {status : ChunkUploadStatus}
    {rest : List (Hash × ChunkUploadStatus)} (hint : s.internal = (hash,status)::rest)
    (head : s.coordinator.point = .head) :
    s.step .recvInternal = some { s with
      coordinator := (s.coordinator.onUpdateChunkStatus s.clock hash status).1
      internal := if (s.coordinator.onUpdateChunkStatus s.clock hash status).1.point = .stopped
        then [] else rest
      tasks := s.tasks ++ (s.coordinator.onUpdateChunkStatus s.clock hash status).2.map
        fun u => ⟨u,.uploading⟩ } := by
  simp only [step,exec,hint,drive,Coordinator.exec,head,Option.map_some]

/-- The peer of a whole stream that answers 1 takes every chunk of 32-bit length. -/
lemma push_acknowledged (hash : Hash) {data : Bytes} (h : data.length < 2^32) :
    BlobTransfer.push (some ⟨[1],[],none⟩) hash data = .ok () :=
  BlobTransfer.push_eq_ok_iff.mpr ⟨by rw [BlobTransfer.sendPush_whole h],rfl⟩

/-- A blob that waits has chunks that are free. -/
lemma pursued_of_waiting (htidy : Tidy s) {p : Pipeline} (hcur : p.currentBlob = none)
    (hwait : p.pendingLocalBlobs = s.coordinator.pipeline.pendingLocalBlobs) (now : Instant) :
    Pursued now [] (p.beginNextBlob now).1.currentBlob ∧
      (p.beginNextBlob now).1.backlog = p.backlog := by
  obtain ⟨permits,heq⟩ := beginNextBlob_of_none hcur now
  rw [heq]
  refine ⟨⟨fun b h d hb hd => ?_,by simp,List.nodup_nil⟩,?_⟩
  · rw [hwait] at hb
    exact Or.inr (Or.inl (isEligible_iff.mpr (Or.inl
      (htidy.waiting b (List.mem_of_mem_head? hb) h d hd))))
  · unfold backlog
    rw [hcur]
    cases p.pendingLocalBlobs <;> rfl

/-- The first task's upload ends well, and its report is handled. -/
lemma reaches_finalized {c : Coordinator} (head : c.point = .head) (now : Instant) {u : UploadTask}
    (hlt : u.payload.length < 2^32) (rest : List Task) (acked : List AckedPush) :
    ∃ acked', Transition.Reaches step Event.Own ⟨c,now,[],⟨u,.uploading⟩::rest,acked⟩
      ⟨((releasePermit c).onUpdateChunkStatus now u.hash (.finalized u.peer)).1,now,[],
        rest ++ ((releasePermit c).onUpdateChunkStatus now u.hash (.finalized u.peer)).2.map
          fun u => ⟨u,.uploading⟩,acked'⟩ := by
  have hok := push_acknowledged u.hash hlt
  have hfinish := step_finish (s := ⟨c,now,[],⟨u,.uploading⟩::rest,acked⟩) (k := 0) rfl hok
  have hreport := @step_report ⟨releasePermit c,now,[],⟨u,.reporting (.finalized u.peer)⟩::rest,
    acked ++ [⟨u.peer,u.hash,u.payload,_,hok⟩]⟩ 0 u (.finalized u.peer) rfl
      (by simp [releasePermit,head])
  have hrecv := step_recvInternal (s := ⟨releasePermit c,now,[(u.hash,.finalized u.peer)],rest,
    acked ++ [⟨u.peer,u.hash,u.payload,_,hok⟩]⟩) rfl head
  rw [ite_self] at hrecv
  exact ⟨_,.head (e := .finish 0 _) trivial hfinish (.head (e := .report 0) trivial hreport
    (.single (e := .recvInternal) trivial hrecv))⟩

/-- An upload that ends well leaves fewer chunks missing. -/
theorem Working.push (h : Working s) (htidy : Tidy s) {u : UploadTask} {rest : List Task}
    (htasks : s.tasks = ⟨u,.uploading⟩::rest) (hlt : u.payload.length < 2^32) :
    ∃ t, Transition.Reaches step Event.Own s t ∧ Working t ∧
      t.coordinator.pipeline.backlog < s.coordinator.pipeline.backlog := by
  obtain ⟨c,now,internal,tasks,acked⟩ := s
  have hhead := h.head
  have hint := h.internal
  have hup := h.uploading
  have hpursued := h.pursued
  simp only at hhead hint htasks hup hpursued
  subst hint htasks
  have hrest : ∀ t ∈ rest, t.phase = .uploading := fun t ht => hup t (List.mem_cons_of_mem _ ht)
  rw [List.map_cons] at hpursued
  obtain ⟨acked',hreach⟩ := reaches_finalized hhead now hlt rest acked
  obtain ⟨b,b',hb,hpursued',hless,hcase⟩ := Pursued.finalized (c := releasePermit c) hpursued u.peer
  have hbacklog : c.pipeline.backlog =
      b.missing.card+(c.pipeline.pendingLocalBlobs.map fun b => b.missing.card).sum := by
    have hb₀ : c.pipeline.currentBlob = some b := hb
    simp [backlog,hb₀]
  rcases hcase with ⟨hempty,heq⟩ | heq
  · -- The blob is finished: no task is left, and the next blob comes to the front.
    have hnone : rest = [] := by
      rw [List.eq_nil_iff_forall_not_mem]
      intro t ht
      obtain ⟨b₁,d,hb₁,hd,hfin,-⟩ := hpursued'.aims _ (List.mem_map_of_mem ht)
      cases hb₁
      have hmem := LocalBlob.mem_missing.mpr ⟨d,hd,hfin⟩
      rw [hempty] at hmem
      simp at hmem
    subst hnone
    obtain ⟨hfront,hsame⟩ := pursued_of_waiting htidy
      (p := { (releasePermit c).pipeline with currentBlob := none }) rfl rfl now
    have hpermit : HasPermit now { (releasePermit c).pipeline with currentBlob := none } := h.permit
    rw [heq] at hreach
    refine ⟨_,hreach.trans (.single (e := .input .bridgeSend) (Or.inr (Or.inr rfl)) (by
      simp only [step,exec,drive,Coordinator.exec,archiveCurBlob,Option.map_some,
        onAnnounced_of_hasPermit _ _ hpermit]
      rfl)),working_assign (by simp) hfront (beginNextBlob_of_hasPermit hpermit).1 acked',?_⟩
    change Pipeline.backlog _ < c.pipeline.backlog
    rw [backlog_assign,hsame,hbacklog]
    simp only [backlog,Option.toList_none,List.nil_append,releasePermit]
    omega
  · rw [heq] at hreach
    have hpermit : HasPermit now { (releasePermit c).pipeline with currentBlob := some b' } :=
      h.permit
    refine ⟨_,hreach,working_assign hrest hpursued' hpermit acked',?_⟩
    change Pipeline.backlog _ < c.pipeline.backlog
    rw [backlog_assign,hbacklog]
    simp only [backlog,Option.toList_some,List.singleton_append,List.map_cons,List.sum_cons,
      releasePermit]
    omega

end Uploads

end Gozara
