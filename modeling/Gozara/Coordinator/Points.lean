import Gozara.Coordinator.Moves

/-!
# The points at which the coordinator is suspended

Only the end of an announcement can fail, by `unwrap` on an empty current blob. The current
blob is there whenever an announcement is being sent, so every suspended send resumes when
it ends, and from the head every message is received.
-/
namespace Gozara.Coordinator
open Pipeline

/-- There is a current blob to archive when the announcement ends. -/
def Announcing (c : Coordinator) : Prop :=
  ∀ msg, c.point = .sendBridge msg → c.pipeline.currentBlob.isSome

variable {c c' : Coordinator} {now : Instant} {i : Input} {eff : Effects}

lemma announcing_of_running (h : c.point.Running) : c.Announcing := by
  intro msg hmsg
  rcases h with h | ⟨peers,after,h⟩ <;> rw [h] at hmsg <;> cases hmsg

lemma announcing_onUpdateChunkStatus (hash : Hash) (status : ChunkUploadStatus) :
    (c.onUpdateChunkStatus now hash status).1.Announcing := by
  have hreported := reported_onUpdateChunkStatus c now hash status
  generalize c.onUpdateChunkStatus now hash status = r at hreported ⊢
  cases hreported with
  | ignored => exact announcing_of_running (Or.inl rfl)
  | noted => exact announcing_of_running (Or.inl rfl)
  | announced => exact fun _ _ => rfl
  | assigned => exact announcing_of_running (continues_assign _ _ _).point

theorem announcing_of_exec (h : c.exec now i = some (c',eff)) (hc : c.Announcing) :
    c'.Announcing := by
  cases arms_of_exec h with
  | rehash orders =>
    obtain ⟨current,rfl,hrel⟩ := rehash_spec orders
    intro msg hmsg
    obtain ⟨b,hb⟩ := Option.isSome_iff_exists.mp (hc msg hmsg)
    rw [hb] at hrel
    obtain ⟨b',hb',-⟩ := HashMap.exists_of_rel_some hrel
    exact Option.isSome_of_eq_some hb'
  | swarmSend => exact announcing_of_running (continues_resume _ _ _ _).point
  | bridgeSend => exact announcing_of_running (continues_settle _ _ _ _).point
  | updateChunkStatus => exact announcing_onUpdateChunkStatus _ _
  | stop =>
    intro msg hmsg
    cases hmsg
  | timerStale => exact announcing_of_running (continues_onTimerStale c now).point
  | timerAssign => exact announcing_of_running (Or.inl rfl)
  | handler => exact announcing_of_running (continues_onHandler c now _).point
  | @admission msg =>
    cases msg with
    | getBlob id => exact announcing_of_running (Or.inl rfl)
    | newBlob a => exact announcing_of_running (continues_settle _ _ _ _).point

/-- After a send to the swarm the loop is back at its head. -/
theorem exec_swarmSend (now : Instant) {peers : List PeerId} {after : Resume}
    (h : c.point = .sendSwarm peers after) :
    ∃ c' eff, c.exec now .swarmSend = some (c',eff) ∧ c'.point = .head := by
  simp only [exec,h]
  refine ⟨_,_,rfl,?_⟩
  cases after <;> rfl

/-- After an announcement the loop is back at its head, or asks for permits first. -/
theorem exec_bridgeSend (now : Instant) {msg : ToBridge} (h : c.point = .sendBridge msg)
    (hc : c.Announcing) :
    ∃ c' eff, c.exec now .bridgeSend = some (c',eff) ∧ c'.point.Running := by
  obtain ⟨b,hb⟩ := Option.isSome_iff_exists.mp (hc msg h)
  simp only [exec,h,archiveCurBlob,hb,Option.map_some]
  exact ⟨_,_,rfl,(continues_settle _ _ _ _).point⟩

/-- The head receives every message of the bridge. -/
theorem exec_admission (now : Instant) (h : c.point = .head) (msg : ToPipeline) :
    ∃ c' eff, c.exec now (.admission msg) = some (c',eff) ∧ c'.point.Running := by
  simp only [exec,h]
  refine ⟨_,_,rfl,?_⟩
  cases msg with
  | getBlob id => exact Or.inl rfl
  | newBlob a => exact (continues_settle _ _ _ _).point

end Gozara.Coordinator
