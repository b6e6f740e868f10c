import Gozara.Bridge.Streaming
import Gozara.Coordinator.Manifest

/-!
# What the coordinator's blob keeps of a body

`add_local_blob` turns the list of chunks into a map that merges repeated chunks. Their
order and number survive in the leaves of the Merkle tree: looking the leaves up one after
the other gives the body back.
-/
namespace Gozara

namespace LocalBlob

/-- The data of the leaves, in the order of the tree. -/
def leafData (b : LocalBlob) : List (Option Bytes) :=
  b.merkleTree.leaves.map fun leaf => (b.chunks.lookup leaf).map Chunk.data

/-- The map and the tree hold a body. -/
structure Represents (D : Deps) (b : LocalBlob) (body : Bytes) : Prop where
  hashed : ∀ h c, b.chunks.lookup h = some c → h = D.blake3 c.data
  pending : ∀ h c, b.chunks.lookup h = some c → c.status.status = .pending
  keys : ∀ h, (b.chunks.lookup h).isSome ↔ h ∈ b.merkleTree.leaves
  body_eq : ∃ datas : List Bytes, b.leafData = datas.map some ∧ datas.flatten = body

end LocalBlob

/-- No two different chunks have one hash. -/
def AdmittedBlob.Collisionless (D : Deps) (a : AdmittedBlob) : Prop :=
  ∀ e ∈ a.chunks, ∀ e' ∈ a.chunks, D.blake3 e.2 = D.blake3 e'.2 → e.2 = e'.2

namespace Pipeline
variable {D : Deps} {a : AdmittedBlob} {body : Bytes}

/-- The entries of the map are chunks of the list. -/
lemma mem_of_lookup_localBlob {now : Instant} {h : Hash} {c : Chunk}
    (hc : (localBlob now a).chunks.lookup h = some c) : (h,c.data) ∈ a.chunks := by
  obtain ⟨e,he,heq⟩ := List.mem_map.mp (HashMap.mem_of_lookup_collect hc)
  cases heq
  exact he

/-- Every chunk of the list has an entry, with its own bytes when no other chunk has its
hash. -/
lemma lookup_localBlob (hwhole : a.Whole D body) (hc : a.Collisionless D) (now : Instant)
    {e : Hash × Bytes} (he : e ∈ a.chunks) :
    ((localBlob now a).chunks.lookup e.1).map Chunk.data = some e.2 := by
  obtain ⟨c,hlook⟩ := HashMap.lookup_collect_isSome
    (List.mem_map_of_mem he : (e.1,(⟨e.2,⟨now,.pending⟩⟩ : Chunk)) ∈
      a.chunks.map fun e => (e.1,⟨e.2,⟨now,.pending⟩⟩))
  have hlook : (localBlob now a).chunks.lookup e.1 = some c := hlook
  have hmem := mem_of_lookup_localBlob hlook
  rw [hlook,Option.map_some,Option.some.injEq]
  exact hc _ hmem e he ((hwhole.hash_eq _ hmem).symm.trans (hwhole.hash_eq e he))

theorem represents_localBlob (hwhole : a.Whole D body) (hc : a.Collisionless D) (now : Instant) :
    (localBlob now a).Represents D body := by
  have htree : (localBlob now a).merkleTree.leaves = a.chunks.map Prod.fst := by
    change a.merkleTree.leaves = _
    rw [hwhole.tree]
  refine ⟨fun h c hlook => hwhole.hash_eq _ (mem_of_lookup_localBlob hlook),
    fun h c hlook => by rw [localBlob_pending hlook],fun h => ?_,a.chunks.map Prod.snd,?_,
    hwhole.body_eq⟩
  · rw [htree,List.mem_map]
    constructor
    · intro hsome
      obtain ⟨c,hlook⟩ := Option.isSome_iff_exists.mp hsome
      exact ⟨_,mem_of_lookup_localBlob hlook,rfl⟩
    · rintro ⟨e,he,rfl⟩
      have hlook := lookup_localBlob hwhole hc now he
      cases hl : (localBlob now a).chunks.lookup e.1 with
      | none => simp [hl] at hlook
      | some c => rfl
  · rw [LocalBlob.leafData,htree,List.map_map,List.map_map]
    exact List.map_congr_left fun e he => lookup_localBlob hwhole hc now he

/-- Nothing of an admitted body is lost in the coordinator's blob, whichever chunks repeat. -/
theorem localBlob_keeps_body {i : ℕ} {m m' : StatusMap} {id : String}
    {contentLength : Option Bytes} {u : Upload} (hu : newBlob D i m id contentLength = .ok (m',u))
    {frames : List Bytes} {adm : Admission} (ha : receive D u frames = .ok (.sending adm a))
    (hc : a.Collisionless D) (now : Instant) (p : Pipeline) :
    ∃ b, (p.addLocalBlob now a).pendingLocalBlobs = p.pendingLocalBlobs ++ [b] ∧
      b.Represents D frames.flatten :=
  ⟨localBlob now a,rfl,represents_localBlob (whole_of_receive hu ha) hc now⟩

/-- A body of three chunks, two of which are the same. -/
theorem localBlob_keeps_body_repeated : ∃ s u adm a b,
    newBlob (Deps.sample 1 Nat.one_pos) 0 ∅ blobId (some [51]) = .ok (s,u) ∧
    receive (Deps.sample 1 Nat.one_pos) u [[7,8],[7]] = .ok (.sending adm a) ∧
    (new.addLocalBlob 0 a).pendingLocalBlobs = [b] ∧ b.chunks.entries.length = 2 ∧
    b.Represents (Deps.sample 1 Nat.one_pos) [7,8,7] := by
  have hu : newBlob (Deps.sample 1 Nat.one_pos) 0 ∅ blobId (some [51]) =
      .ok (_,⟨blobId,⟨blobId,false⟩,3,3,0,[],[]⟩) := rfl
  have ha : receive (Deps.sample 1 Nat.one_pos) ⟨blobId,⟨blobId,false⟩,3,3,0,[],[]⟩
      [[7,8],[7]] = .ok (.sending ⟨blobId,false⟩ _) := rfl
  obtain ⟨b,hb,hrep⟩ := localBlob_keeps_body hu ha (by
    rw [AdmittedBlob.Collisionless]
    decide) 0 new
  cases hb
  exact ⟨_,_,_,_,_,hu,ha,rfl,rfl,hrep⟩

end Pipeline

end Gozara
