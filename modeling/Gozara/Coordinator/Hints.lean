import Gozara.Coordinator.Records
import Gozara.Library.Transition

/-!
# The age of storage provider hints

A hint is the instant of the last `WouldStore` of a peer. Hints that have decayed are only
forgotten when `timer_stale` ticks, while three inputs come to `request_storage_permits`.
What one input does to the hints, and which peers it asks for permits, is stated once; from
that it follows whom a run asks too late.
-/
namespace Gozara

namespace Pipeline
variable {p : Pipeline} {now : Instant} {peers : List PeerId}

/-- No storage permit is unexpired. -/
def Unpermitted (p : Pipeline) (now : Instant) : Prop :=
  ∀ peer expiresAt, p.storagePermits.lookup peer = some expiresAt → expiresAt ≤ now

/-- A hint is at least as old as hints may be. -/
def Decayed (p : Pipeline) (now : Instant) : Prop :=
  ∃ peer heard, p.storageProviderHints.lookup peer = some heard ∧
    storageProviderDecay ≤ now.secsSince heard

instance (p : Pipeline) (now : Instant) : Decidable (p.Unpermitted now) :=
  decidable_of_iff (p.storagePermits.all fun expiresAt => decide (expiresAt ≤ now)) <| by
    simp [HashMap.all_eq_true,Unpermitted]

instance (p : Pipeline) (now : Instant) : Decidable (p.Decayed now) :=
  decidable_of_iff (¬p.storageProviderHints.all fun heard =>
      decide (now.secsSince heard < storageProviderDecay)) <| by
    simp [HashMap.all_eq_true,Decayed]

/-- All peers with a hint are asked when there is one and no permit is left. -/
theorem requestStoragePermits_asks : (p.requestStoragePermits now).2 = some peers ↔
    p.Unpermitted now ∧ peers = p.storageProviderHints.keys ∧ peers ≠ [] := by
  have hkeys : p.storageProviderHints.keys ≠ [] ↔ ¬p.storageProviderHints.entries.isEmpty := by
    simp [AList.keys,List.keys]
  have hpermits : (p.storagePermits.retain fun _ expiresAt => now < expiresAt).entries.isEmpty ↔
      p.Unpermitted now := by
    simp only [HashMap.retain,List.isEmpty_iff,List.filter_eq_nil_iff,Unpermitted,
      HashMap.lookup_eq_some_iff]
    constructor
    · exact fun h peer expiresAt hmem => by simpa using h ⟨peer,expiresAt⟩ hmem
    · exact fun h e he => by simpa using h e.1 e.2 he
  unfold requestStoragePermits
  split_ifs with hempty
  · refine iff_of_false (by simp) ?_
    rintro ⟨-,rfl,hne⟩
    exact hkeys.mp hne hempty
  · dsimp only
    split_ifs with hnone
    · rw [hpermits] at hnone
      refine ⟨fun h => ?_,fun h => by rw [h.2.1]⟩
      cases h
      exact ⟨hnone,rfl,hkeys.mpr hempty⟩
    · exact iff_of_false (by simp) fun h => hnone (hpermits.mpr h.1)

theorem beginNextBlob_asks : (p.beginNextBlob now).2 = some peers ↔
    p.currentBlob = none ∧ p.pendingLocalBlobs ≠ [] ∧ p.Unpermitted now ∧
      peers = p.storageProviderHints.keys ∧ peers ≠ [] := by
  unfold beginNextBlob
  split
  · rename_i hcur
    simp [hcur]
  · rename_i hcur
    split
    · rename_i hnil
      simp [hnil]
    · rename_i hcons
      rw [requestStoragePermits_asks]
      simp [hcur,hcons,Unpermitted]

lemma hints_perm_of_rehash {p' : Pipeline} {chunks : HashMap Hash Chunk}
    {hints permits : HashMap PeerId Instant} (h : p.rehash chunks hints permits = some p') :
    hints.entries.Perm p.storageProviderHints.entries := by
  unfold rehash at h
  split_ifs at h with hperm
  exact hperm.1

end Pipeline

namespace Coordinator
open Pipeline

/-- The hint of `peer` after an input. -/
def hintAfter (c : Coordinator) (now : Instant) (i : Input) (peer : PeerId) : Option Instant :=
  let hint := c.pipeline.storageProviderHints.lookup peer
  match i with
  | .handler (.wouldStore peerId) => if peer = peerId then some now else hint
  | .timerStale => hint.filter fun heard => now.secsSince heard < storageProviderDecay
  | .stop => none
  | _ => hint

/-- The inputs that come to `request_storage_permits`. -/
def Requests (c : Coordinator) : Input → Prop
  | .timerStale => c.pipeline.currentBlob.isSome
  | .admission (.newBlob _) => c.pipeline.currentBlob = none
  | .bridgeSend => c.pipeline.pendingLocalBlobs ≠ []
  | _ => False

instance (c : Coordinator) : ∀ i : Input, Decidable (c.Requests i)
  | .timerStale => inferInstanceAs (Decidable (_ = true))
  | .admission (.newBlob _) => inferInstanceAs (Decidable (_ = _))
  | .bridgeSend => inferInstanceAs (Decidable (_ ≠ _))
  | .admission (.getBlob _) | .timerAssign | .handler _ | .updateChunkStatus _ _ | .swarmSend
  | .stop | .rehash _ _ _ => isFalse id

/-- A request to `peers` begins to be sent. -/
def Asks (c c' : Coordinator) (peers : List PeerId) : Prop :=
  c'.point ≠ c.point ∧ ∃ after, c'.point = .sendSwarm peers after

variable {c c' : Coordinator} {now : Instant} {i : Input} {eff : Effects} {peers : List PeerId}

/-- What one input does to the hints. -/
theorem lookup_hints_of_exec (h : c.exec now i = some (c',eff)) (peer : PeerId) :
    c'.pipeline.storageProviderHints.lookup peer = c.hintAfter now i peer := by
  rw [(sameRecords_of_exec h).storageProviderHints]
  cases arms_of_exec h with
  | timerStale =>
    refine Option.ext fun heard => ?_
    rw [recorded,HashMap.lookup_retain_eq_some,hintAfter,Option.filter_eq_some_iff]
  | @handler msg =>
    cases msg with
    | wouldStore peerId =>
      simp only [recorded,hintAfter]
      split_ifs with heq
      · rw [heq,AList.lookup_insert]
      · exact AList.lookup_insert_ne heq
    | request => rfl
    | response => rfl
  | @admission msg => cases msg <;> rfl
  | rehash orders => exact HashMap.lookup_of_perm (hints_perm_of_rehash orders) peer
  | timerAssign => rfl
  | updateChunkStatus => rfl
  | swarmSend => rfl
  | bridgeSend => rfl
  | stop => rfl

/-- A send begins at every point but another send to the swarm. -/
lemma asks_iff_point (hc : ∀ peers after, c.point ≠ .sendSwarm peers after) :
    Asks c c' peers ↔ ∃ after, c'.point = .sendSwarm peers after := by
  refine ⟨And.right,fun h => ⟨?_,h⟩⟩
  obtain ⟨after,hpoint⟩ := h
  rw [hpoint]
  exact (hc peers after).symm

lemma not_asks {P : Prop} (hc' : ∀ peers after, c'.point ≠ .sendSwarm peers after) :
    Asks c c' peers ↔ False ∧ P := by
  refine iff_of_false (fun h => ?_) And.left
  obtain ⟨after,hpoint⟩ := h.2
  exact hc' peers after hpoint

lemma settle_asks (c : Coordinator) (now : Instant) (r : Pipeline × Option (List PeerId))
    (after : Resume) :
    (∃ a, (c.settle now r after).1.point = .sendSwarm peers a) ↔ r.2 = some peers := by
  unfold settle
  split
  · rename_i asked hasked
    rw [hasked]
    simp
  · rename_i hnone
    rw [hnone]
    cases after <;> simp [resume,assign,atHead]

/-- An input asks all peers with a hint, when it comes to that and no permit is left. -/
theorem asks_iff (h : c.exec now i = some (c',eff)) : Asks c c' peers ↔
    c.Requests i ∧ c.pipeline.Unpermitted now ∧
      peers = c'.pipeline.storageProviderHints.keys ∧ peers ≠ [] := by
  rw [(sameRecords_of_exec h).storageProviderHints]
  cases arms_of_exec h with
  | timerStale head =>
    rw [asks_iff_point (by simp [head])]
    unfold onTimerStale Requests recorded
    dsimp only
    split_ifs with hcur
    · rw [settle_asks,requestStoragePermits_asks]
      simp only [hcur,true_and]
      exact Iff.rfl
    · simp [atHead,hcur]
  | timerAssign => exact not_asks (by simp [assign,atHead])
  | @handler msg =>
    refine not_asks fun peers after => ?_
    cases msg with
    | wouldStore => simp [onHandler,atHead]
    | request => simp [onHandler,atHead]
    | response peerId requestId response =>
      cases response <;> simp [onHandler,assign,atHead]
  | @admission msg head =>
    cases msg with
    | getBlob id => exact not_asks (by simp [onAdmission,atHead])
    | newBlob a =>
      rw [asks_iff_point (by simp [head])]
      simp only [onAdmission,Requests]
      rw [settle_asks,beginNextBlob_asks]
      simp [addLocalBlob,recorded,Unpermitted]
  | @updateChunkStatus hash st =>
    refine not_asks fun peers after => ?_
    have hreported := reported_onUpdateChunkStatus c now hash st
    generalize c.onUpdateChunkStatus now hash st = r at hreported ⊢
    cases hreported <;> simp [assign,atHead]
  | @swarmSend _ after =>
    refine not_asks fun peers after' => ?_
    cases after <;> simp [resume,assign,atHead]
  | bridgeSend suspended =>
    rw [asks_iff_point (by simp [suspended])]
    simp only [onAnnounced,Requests]
    rw [settle_asks,beginNextBlob_asks]
    simp [recorded,Unpermitted]
  | stop => exact not_asks (by simp [onStop])
  | rehash =>
    refine iff_of_false (fun hasks => hasks.1 rfl) fun hreq => ?_
    exact hreq.1

section Past

/-- The instant at which the last `WouldStore` of `peer` was recorded. -/
def lastWouldStore (past : List (Instant × Input)) (peer : PeerId) : Option Instant :=
  (past.filterMap fun e => if e.2 = .handler (.wouldStore peer) then some e.1 else none).getLast?

/-- All these peers have gossiped within the decay of a hint. -/
def Recent (past : List (Instant × Input)) (now : Instant) (peers : List PeerId) : Prop :=
  ∀ peer ∈ peers, ∃ heard, lastWouldStore past peer = some heard ∧
    now.secsSince heard < storageProviderDecay

/-- A request is made while a hint has decayed, and not by the timer that sweeps them. -/
def Unswept (c : Coordinator) (e : Instant × Input) : Prop :=
  e.2 ≠ .timerStale ∧ c.Requests e.2 ∧ c.pipeline.Unpermitted e.1 ∧ c.pipeline.Decayed e.1

instance (c : Coordinator) (e : Instant × Input) : Decidable (Unswept c e) :=
  inferInstanceAs (Decidable (_ ∧ _))

/-- The send of a request to `peers` ends. -/
def Leaves (c : Coordinator) (e : Instant × Input) (peers : List PeerId) : Prop :=
  e.2 = .swarmSend ∧ ∃ after, c.point = .sendSwarm peers after

/-- A request leaves the loop when a hint has decayed while it waited. -/
def Overdue (c : Coordinator) (e : Instant × Input) : Prop :=
  e.2 = .swarmSend ∧ c.pipeline.Decayed e.1

/-- The hints are what was heard last, and a request that is being sent names them all. -/
structure Remembers (past : List (Instant × Input)) (c : Coordinator) : Prop where
  heard : ∀ peer heard, c.pipeline.storageProviderHints.lookup peer = some heard →
    lastWouldStore past peer = some heard
  named : ∀ peers after, c.point = .sendSwarm peers after →
    ∀ peer, peer ∈ peers ↔ (c.pipeline.storageProviderHints.lookup peer).isSome

variable {past : List (Instant × Input)} {e : Instant × Input}

lemma lastWouldStore_append (past : List (Instant × Input)) (now : Instant) (i : Input)
    (peer : PeerId) : lastWouldStore (past ++ [(now,i)]) peer =
      if i = .handler (.wouldStore peer) then some now else lastWouldStore past peer := by
  unfold lastWouldStore
  rw [List.filterMap_append]
  split_ifs with h <;> simp [h]

theorem remembers_step (h : c.step (now,i) = some c') (hr : Remembers past c) :
    Remembers (past ++ [(now,i)]) c' := by
  obtain ⟨⟨c',eff⟩,hexec,rfl⟩ := Option.map_eq_some_iff.mp h
  change c.exec now i = some (c',eff) at hexec
  constructor
  · intro peer heard hlook
    rw [lookup_hints_of_exec hexec] at hlook
    rw [lastWouldStore_append]
    unfold hintAfter at hlook
    split at hlook
    · rename_i peerId
      simp only [Input.handler.injEq,HandlerMessage.wouldStore.injEq]
      split_ifs at hlook with heq
      · rw [if_pos heq.symm]
        exact hlook
      · rw [if_neg (Ne.symm heq)]
        exact hr.heard peer heard hlook
    · rw [if_neg (by simp)]
      exact hr.heard peer heard (Option.filter_eq_some_iff.mp hlook).1
    · cases hlook
    · rename_i hne _ _
      rw [if_neg (hne peer)]
      exact hr.heard peer heard hlook
  · intro peers after hpoint peer
    by_cases hsame : c'.point = c.point
    · -- Only a new order of the maps leaves a send where it is.
      have hlook := lookup_hints_of_exec hexec peer
      rw [hsame] at hpoint
      have hkept : c.hintAfter now i peer = c.pipeline.storageProviderHints.lookup peer := by
        cases arms_of_exec hexec with
        | timerStale head | handler head | stop head => cases head.symm.trans hpoint
        | _ => rfl
      rw [hlook,hkept]
      exact hr.named peers after hpoint peer
    · obtain ⟨-,-,hkeys,-⟩ := (asks_iff hexec).mp ⟨hsame,after,hpoint⟩
      rw [hkeys,AList.lookup_isSome]
      exact Iff.rfl

lemma remembers_init : Remembers [] init := by
  refine ⟨fun peer heard h => ?_,fun peers after h => ?_⟩
  · simp [init,Pipeline.new] at h
  · simp [init] at h

/-- The peers with a hint are recent exactly while no hint has decayed. -/
theorem recent_iff (hr : Remembers past c)
    (hnamed : ∀ peer, peer ∈ peers ↔ (c.pipeline.storageProviderHints.lookup peer).isSome) :
    Recent past now peers ↔ ¬c.pipeline.Decayed now := by
  constructor
  · rintro hrecent ⟨peer,heard,hlook,hold⟩
    obtain ⟨heard',hlast,hnew⟩ := hrecent peer ((hnamed peer).mpr (Option.isSome_of_eq_some hlook))
    rw [hr.heard peer heard hlook] at hlast
    cases hlast
    exact absurd hold (Nat.not_le.mpr hnew)
  · intro hnot peer hpeer
    obtain ⟨heard,hlook⟩ := Option.isSome_iff_exists.mp ((hnamed peer).mp hpeer)
    exact ⟨heard,hr.heard peer heard hlook,Nat.lt_of_not_le fun hold =>
      hnot ⟨peer,heard,hlook,hold⟩⟩

/-- A step asks recent peers alone unless it asks outside the sweep while a hint has decayed. -/
theorem asks_recent_iff (h : c.exec now i = some (c',eff)) (hr : Remembers past c) :
    (∀ peers, Asks c c' peers → Recent past now peers) ↔ ¬Unswept c (now,i) := by
  constructor
  · rintro hrecent ⟨hi,hreq,hnone,peer,heard,hlook,hold⟩
    -- The hints of `c` are still there when the request is made.
    have hkept : ∀ q, c'.pipeline.storageProviderHints.lookup q =
        c.pipeline.storageProviderHints.lookup q := by
      intro q
      rw [lookup_hints_of_exec h]
      unfold hintAfter
      split
      · cases hreq
      · exact absurd rfl hi
      · cases hreq
      · rfl
    have hmem : peer ∈ c'.pipeline.storageProviderHints.keys :=
      AList.lookup_isSome.mp (Option.isSome_of_eq_some ((hkept peer).trans hlook))
    have hasks : Asks c c' c'.pipeline.storageProviderHints.keys :=
      (asks_iff h).mpr ⟨hreq,hnone,rfl,List.ne_nil_of_mem hmem⟩
    obtain ⟨heard',hlast,hnew⟩ := hrecent _ hasks peer hmem
    rw [hr.heard peer heard hlook] at hlast
    cases hlast
    exact absurd hold (Nat.not_le.mpr hnew)
  · intro hswept peers hasks peer hpeer
    obtain ⟨hreq,hnone,rfl,-⟩ := (asks_iff h).mp hasks
    obtain ⟨heard,hlook⟩ := Option.isSome_iff_exists.mp (AList.lookup_isSome.mpr hpeer)
    rw [lookup_hints_of_exec h] at hlook
    unfold hintAfter at hlook
    split at hlook
    · cases hreq
    · -- The sweep has just removed what has decayed.
      obtain ⟨hlook,hnew⟩ := Option.filter_eq_some_iff.mp hlook
      exact ⟨heard,hr.heard peer heard hlook,by simpa using hnew⟩
    · cases hlook
    · rename_i hi _
      exact ⟨heard,hr.heard peer heard hlook,Nat.lt_of_not_le fun hold =>
        hswept ⟨hi,hreq,hnone,peer,heard,hlook,hold⟩⟩

/-- A request leaves for recent peers alone unless a hint has decayed. -/
theorem leaves_recent_iff (h : c.exec now i = some (c',eff)) (hr : Remembers past c) :
    (∀ peers, Leaves c (now,i) peers → Recent past now peers) ↔ ¬Overdue c (now,i) := by
  constructor
  · rintro hrecent ⟨rfl,hdecayed⟩
    cases arms_of_exec h with
    | swarmSend suspended =>
      exact (recent_iff hr (hr.named _ _ suspended)).mp (hrecent _ ⟨rfl,_,suspended⟩) hdecayed
  · rintro hover peers ⟨hi,after,hpoint⟩
    exact (recent_iff hr (hr.named peers after hpoint)).mpr fun hdecayed => hover ⟨hi,hdecayed⟩

lemma alongPast_asks_iff (es : List (Instant × Input)) :
    Transition.AlongPast step (fun past c e c' => ∀ peers, Asks c c' peers → Recent past e.1 peers)
        [] init es ↔
      Transition.Along step (fun c e _ => ¬Unswept c e) init es := by
  refine Transition.alongPast_iff (I := Remembers) (fun past c e c' h => remembers_step h)
    (fun past c e c' h hr => ?_) remembers_init
  obtain ⟨⟨c',eff⟩,hexec,rfl⟩ := Option.map_eq_some_iff.mp h
  exact asks_recent_iff hexec hr

/-- The coordinator asks only peers that have gossiped within the decay, in every step of a
run, exactly when it makes no request outside the sweep while a hint has decayed. If its
requests wait for room in their channel, this still holds of every request that leaves
exactly when no hint decays meanwhile. -/
theorem asks_recent_providers (es : List (Instant × Input)) :
    (Transition.AlongPast step
        (fun past c e c' => ∀ peers, Asks c c' peers → Recent past e.1 peers) [] init es ↔
      Transition.Along step (fun c e _ => ¬Unswept c e) init es) ∧
    (Transition.AlongPast step
        (fun past c e _ => ∀ peers, Leaves c e peers → Recent past e.1 peers) [] init es ↔
      Transition.Along step (fun c e _ => ¬Overdue c e) init es) := by
  refine ⟨alongPast_asks_iff es,Transition.alongPast_iff (I := Remembers)
    (fun past c e c' h => remembers_step h) (fun past c e c' h hr => ?_) remembers_init⟩
  obtain ⟨⟨c',eff⟩,hexec,rfl⟩ := Option.map_eq_some_iff.mp h
  exact leaves_recent_iff hexec hr

/-- A peer gossips once, and the hints are swept every minute. -/
def gossipOnce : List (Instant × Input) :=
  (1*Instant.nanosPerSec,.handler (.wouldStore ⟨[9]⟩))::
    [60,120,180,240,300].map fun k => (k*Instant.nanosPerSec,.timerStale)

/-- Two seconds after the fifth sweep a blob arrives. -/
def blobArrives : Instant × Input :=
  (302*Instant.nanosPerSec,.admission (.newBlob ⟨blobId,Deps.sampleHash [7],
    ⟨[Deps.sampleHash [7]]⟩,[(Deps.sampleHash [7],[7])],1⟩))

/-- The peer is asked more than five minutes after it has gossiped. -/
theorem gossipOnce_asked_late :
    (∃ c c', Transition.run step init gossipOnce = some c ∧ c.step blobArrives = some c' ∧
      Asks c c' [⟨[9]⟩] ∧ lastWouldStore gossipOnce ⟨[9]⟩ = some (1*Instant.nanosPerSec) ∧
      storageProviderDecay < blobArrives.1.secsSince (1*Instant.nanosPerSec)) ∧
    ¬Transition.AlongPast step
      (fun past c e c' => ∀ peers, Asks c c' peers → Recent past e.1 peers) [] init
      (gossipOnce ++ [blobArrives]) := by
  refine ⟨⟨_,_,rfl,rfl,⟨by decide,_,rfl⟩,rfl,by decide⟩,?_⟩
  rw [alongPast_asks_iff]
  decide

end Past

end Coordinator

end Gozara
