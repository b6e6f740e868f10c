import Gozara.Coordinator.Moves

/-!
# What assigning and promoting leave alone

The downloads and the storage provider hints of a pipeline change by the input that comes in
alone: assigning chunks, asking for permits and moving the next blob in front do not touch
them. So one input changes them as `recorded` says, whatever else its arm does.
-/
namespace Gozara

namespace Pipeline
variable {p q r : Pipeline}

/-- The downloads and the hints are the same. -/
structure SameRecords (p q : Pipeline) : Prop where
  remoteBlobs : q.remoteBlobs = p.remoteBlobs
  storageProviderHints : q.storageProviderHints = p.storageProviderHints

lemma SameRecords.trans (h : SameRecords p q) (h' : SameRecords q r) : SameRecords p r :=
  ⟨h'.remoteBlobs.trans h.remoteBlobs,h'.storageProviderHints.trans h.storageProviderHints⟩

lemma SameRecords.after (h : SameRecords q r) (hremote : q.remoteBlobs = p.remoteBlobs)
    (hhints : q.storageProviderHints = p.storageProviderHints) : SameRecords p r :=
  SameRecords.trans ⟨hremote,hhints⟩ h

theorem sameRecords_assignChunks (p : Pipeline) (now : Instant) :
    SameRecords p (p.assignChunks now).1 := by
  obtain ⟨current,allowance,heq,-⟩ := assignChunks_spec p now
  rw [heq]
  exact ⟨rfl,rfl⟩

theorem sameRecords_requestStoragePermits (p : Pipeline) (now : Instant) :
    SameRecords p (p.requestStoragePermits now).1 := by
  obtain ⟨permits,heq⟩ := requestStoragePermits_spec p now
  rw [heq]
  exact ⟨rfl,rfl⟩

theorem sameRecords_beginNextBlob (p : Pipeline) (now : Instant) :
    SameRecords p (p.beginNextBlob now).1 := by
  cases hcur : p.currentBlob with
  | some b =>
    rw [beginNextBlob_of_some hcur]
    exact ⟨rfl,rfl⟩
  | none =>
    obtain ⟨permits,heq⟩ := beginNextBlob_of_none hcur now
    rw [heq]
    exact ⟨rfl,rfl⟩

end Pipeline

namespace Coordinator
open Pipeline

/-- The pipeline with what an input brings to its downloads and hints. -/
def recorded (c : Coordinator) (now : Instant) : Input → Pipeline
  | .timerStale => { c.pipeline with
      storageProviderHints := c.pipeline.storageProviderHints.retain fun _ heard =>
        now.secsSince heard < storageProviderDecay }
  | .handler (.wouldStore peerId) => { c.pipeline with
      storageProviderHints := c.pipeline.storageProviderHints.insert peerId now }
  | .admission (.getBlob id) => { c.pipeline with
      remoteBlobs := insert id c.pipeline.remoteBlobs }
  | .rehash _ hints _ => { c.pipeline with storageProviderHints := hints }
  | .stop => Pipeline.new
  | _ => c.pipeline

variable {c c' : Coordinator} {now : Instant} {i : Input} {eff : Effects}

lemma sameRecords_assign (c : Coordinator) (now : Instant) (p : Pipeline) :
    SameRecords p (c.assign now p).1.pipeline :=
  sameRecords_assignChunks p now

lemma sameRecords_resume (c : Coordinator) (now : Instant) (p : Pipeline) (after : Resume) :
    SameRecords p (c.resume now p after).1.pipeline := by
  cases after with
  | head => exact ⟨rfl,rfl⟩
  | assign => exact sameRecords_assign c now p

lemma sameRecords_settle (c : Coordinator) (now : Instant) (r : Pipeline × Option (List PeerId))
    (after : Resume) : SameRecords r.1 (c.settle now r after).1.pipeline := by
  unfold settle
  split
  · exact ⟨rfl,rfl⟩
  · exact sameRecords_resume c now r.1 after

lemma sameRecords_proceed (c : Coordinator) (now : Instant) (p : Pipeline) (after : Resume) :
    SameRecords p (c.settle now (p.beginNextBlob now) after).1.pipeline :=
  (sameRecords_beginNextBlob p now).trans (sameRecords_settle c now _ after)

lemma sameRecords_onUpdateChunkStatus (c : Coordinator) (now : Instant) (hash : Hash)
    (status : ChunkUploadStatus) :
    SameRecords c.pipeline (c.onUpdateChunkStatus now hash status).1.pipeline := by
  have hreported := reported_onUpdateChunkStatus c now hash status
  generalize c.onUpdateChunkStatus now hash status = r at hreported ⊢
  cases hreported with
  | ignored => exact ⟨rfl,rfl⟩
  | noted => exact ⟨rfl,rfl⟩
  | announced => exact ⟨rfl,rfl⟩
  | assigned => exact (sameRecords_assign c now _).after rfl rfl

/-- What one input does to the downloads and the hints. -/
theorem sameRecords_of_exec (h : c.exec now i = some (c',eff)) :
    SameRecords (c.recorded now i) c'.pipeline := by
  cases arms_of_exec h with
  | timerStale =>
    unfold onTimerStale
    dsimp only
    split_ifs
    · exact (sameRecords_requestStoragePermits _ now).trans (sameRecords_settle _ _ _ _)
    · exact ⟨rfl,rfl⟩
  | timerAssign => exact sameRecords_assignChunks c.pipeline now
  | @handler msg =>
    cases msg with
    | wouldStore => exact ⟨rfl,rfl⟩
    | request => exact ⟨rfl,rfl⟩
    | response peerId requestId response =>
      cases response with
      | issuedStoragePermit => exact (sameRecords_assign c now _).after rfl rfl
      | blobMeta => exact ⟨rfl,rfl⟩
  | @admission msg =>
    cases msg with
    | getBlob id => exact ⟨rfl,rfl⟩
    | newBlob a =>
      exact (sameRecords_proceed _ now _ .head).after rfl rfl
  | updateChunkStatus => exact sameRecords_onUpdateChunkStatus c now _ _
  | swarmSend => exact sameRecords_resume c now c.pipeline _
  | bridgeSend => exact (sameRecords_proceed _ now _ .assign).after rfl rfl
  | stop => exact ⟨rfl,rfl⟩
  | rehash orders =>
    obtain ⟨current,rfl,-⟩ := rehash_spec orders
    exact ⟨rfl,rfl⟩

end Coordinator

end Gozara
