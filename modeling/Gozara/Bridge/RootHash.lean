import Gozara.Bridge.Streaming

/-!
# What the root hash says about the body

A handler that gets all frames of an admitted body and all hashes of its chunks arrives at
its send, with a message built from the whole body. The Merkle tree hashes its leaves and
its inner nodes in one way, so that equal roots mean equal bodies up to one confusion: a
last chunk of 64 bytes can be the pair of hashes at an inner node of a tree with another
number of leaves.
-/
namespace Gozara

section Receive
variable {D : Deps} {u : Upload} {body : Bytes}

/-- With `rs_merkle`'s pairing a tree over one leaf or more has a root. -/
lemma merklize_ok (hm : D.PairsNeighbours) (hne : u.chunks ≠ []) :
    ∃ adm blob, merklize D u = .ok (.sending adm blob) := by
  obtain ⟨rootHash,hroot⟩ := HashTree.root_eq_some D.combine
    (l := u.chunks.map Prod.fst) (by simpa using hne)
  refine ⟨u.admission,⟨u.id,rootHash,⟨u.chunks.map Prod.fst⟩,u.chunks,u.numChunks⟩,?_⟩
  simp only [merklize,hm (u.chunks.map Prod.fst),hroot]

/-- Frames that make up the declared length end in a message built from the whole body. -/
theorem receive_spec (hm : D.PairsNeighbours) (frames : List Bytes) (u : Upload) (body : Bytes)
    (hs : (Handler.streaming u).Sound D body)
    (hlen : body.length+frames.flatten.length = u.declared) :
    ∃ adm blob, receive D u frames = .ok (.sending adm blob) ∧
      blob.Whole D (body ++ frames.flatten) := by
  have hbody : (body ++ frames.flatten).length = u.declared := by
    rw [List.length_append,hlen]
  have hne : body ++ frames.flatten ≠ [] := by
    intro hnil
    rw [hnil] at hbody
    exact hs.1.pos.ne hbody
  obtain ⟨front,last,hchunks,-⟩ := chunks_complete (D := D) (u := u) hne
  obtain ⟨adm,blob,hok⟩ := merklize_ok hm
    (show (u.complete D (body ++ frames.flatten)).chunks ≠ [] by simp [hchunks])
  exact ⟨adm,blob,(receive_eq frames u body hs hlen).trans hok,
    whole_of_merklize hs.1 hbody hok⟩

end Receive

section Root
variable (D : Deps)

/-- The bytes hashed at an inner node. -/
def joinHashes (a b : Hash) : Bytes := a.bytes ++ b.bytes

lemma joinHashes_injective : Function.Injective2 joinHashes := by
  intro a a' b b' h
  have hlen : a.bytes.length = a'.bytes.length := by rw [a.length_bytes,a'.length_bytes]
  obtain ⟨ha,hb⟩ := List.append_inj h hlen
  cases a
  cases a'
  cases b
  cases b'
  simp_all

/-- The Merkle tree over the chunks of a blob. -/
def AdmittedBlob.tree (a : AdmittedBlob) : Option (HashTree.Tree Bytes) :=
  HashTree.tree (a.chunks.map Prod.snd)

/-- No two different byte strings hashed for the two trees have one hash. -/
def NoCollision (a b : AdmittedBlob) : Prop :=
  ∀ t u, a.tree = some t → b.tree = some u → HashTree.CollisionFree D.blake3 joinHashes t u

/-- The last chunk of `a` is the pair of hashes at an inner node over the chunks of `b`,
which are another number. -/
def LastIsInner (a b : AdmittedBlob) : Prop :=
  a.chunks.length ≠ b.chunks.length ∧ ∃ last t, a.chunks.getLast? = some last ∧
    last.2.length = 64 ∧ b.tree = some t ∧ last.2 ∈ HashTree.inner D.blake3 joinHashes t

variable {D} {a b : AdmittedBlob} {body body' : Bytes} {t u : HashTree.Tree Bytes}

/-- It is enough that the strings of a list that has all of them have different hashes. -/
lemma noCollision_of_nodup {l : List Bytes} (hl : (l.map D.blake3).Nodup)
    (ht : a.tree = some t) (hu : b.tree = some u)
    (ha : HashTree.hashed D.blake3 joinHashes t ⊆ l)
    (hb : HashTree.hashed D.blake3 joinHashes u ⊆ l) : NoCollision D a b := by
  intro t' u' ht' hu' x hx y hy hxy
  cases Option.some.inj (ht.symm.trans ht')
  cases Option.some.inj (hu.symm.trans hu')
  exact List.inj_on_of_nodup_map hl (hx.elim (@ha x) (@hb x)) (hy.elim (@ha y) (@hb y)) hxy

lemma AdmittedBlob.Whole.leaves (h : a.Whole D body) (ht : a.tree = some t) :
    t.leaves.flatten = body := by
  rw [HashTree.leaves_tree ht]
  exact h.body_eq

lemma AdmittedBlob.Whole.digest (h : a.Whole D body) (hm : D.PairsNeighbours)
    (ht : a.tree = some t) : HashTree.digest D.blake3 joinHashes t = a.rootHash := by
  have hhashes : a.chunks.map Prod.fst = (a.chunks.map Prod.snd).map D.blake3 := by
    rw [List.map_map]
    exact List.map_congr_left h.hash_eq
  have hroot := h.root
  rw [hm,hhashes] at hroot
  have hdigest := HashTree.root_hashes D.blake3 joinHashes (a.chunks.map Prod.snd)
  rw [show HashTree.tree (a.chunks.map Prod.snd) = some t from ht] at hdigest
  exact Option.some.inj (hdigest.symm.trans hroot)

/-- Only the last chunk can be as short as a pair of hashes. -/
lemma lastIsInner_of_leafIsInner (h : a.Whole D body) (hsize : 64 < D.chunkSize)
    (ht : a.tree = some t) (hu : b.tree = some u) (hlen : a.chunks.length ≠ b.chunks.length)
    (hleaf : HashTree.LeafIsInner D.blake3 joinHashes t u) : LastIsInner D a b := by
  obtain ⟨m,hm,hinner⟩ := hleaf
  obtain ⟨x,y,hxy⟩ := HashTree.exists_join_of_mem_inner hinner
  have h64 : m.length = 64 := by
    rw [hxy,joinHashes,List.length_append,x.length_bytes,y.length_bytes]
  rw [HashTree.leaves_tree ht] at hm
  obtain ⟨e,he,rfl⟩ := List.mem_map.mp hm
  obtain ⟨front,last,hchunks,hfront,-,-⟩ := h.full
  rw [hchunks] at he
  rcases List.mem_append.mp he with he | he
  · have hfull := hfront e he
    omega
  · cases List.mem_singleton.mp he
    exact ⟨hlen,e,u,by simp [hchunks],h64,hu,hinner⟩

lemma AdmittedBlob.Whole.tree_eq_some (h : a.Whole D body) : ∃ t, a.tree = some t := by
  obtain ⟨front,last,hchunks,-⟩ := h.full
  exact HashTree.tree_eq_some (by simp [hchunks])

theorem body_eq_of_rootHash_eq (hm : D.PairsNeighbours) (hsize : 64 < D.chunkSize)
    (ha : a.Whole D body) (hb : b.Whole D body') (hc : NoCollision D a b)
    (hroot : a.rootHash = b.rootHash) :
    body = body' ∨ LastIsInner D a b ∨ LastIsInner D b a := by
  obtain ⟨t,ht⟩ := ha.tree_eq_some
  obtain ⟨u,hu⟩ := hb.tree_eq_some
  have hdigest : HashTree.digest D.blake3 joinHashes t = HashTree.digest D.blake3 joinHashes u := by
    rw [ha.digest hm ht,hb.digest hm hu,hroot]
  have hbody : t = u → body = body' := by
    rintro rfl
    rw [← ha.leaves ht,hb.leaves hu]
  by_cases hlen : a.chunks.length = b.chunks.length
  · have hshape := HashTree.shape_tree ht hu (by simpa using hlen)
    exact Or.inl (hbody (HashTree.eq_of_digest_eq_of_shape_eq joinHashes_injective t u (hc t u ht hu)
      hshape hdigest))
  · rcases HashTree.eq_or_leafIsInner_of_digest_eq joinHashes_injective t u (hc t u ht hu) hdigest
      with heq | hleaf | hleaf
    · exact Or.inl (hbody heq)
    · exact Or.inr (Or.inl (lastIsInner_of_leafIsInner ha hsize ht hu hlen hleaf))
    · exact Or.inr (Or.inr (lastIsInner_of_leafIsInner hb hsize hu ht (Ne.symm hlen) hleaf))

/-- Two admitted bodies with one root hash are one body, however they were framed, unless
the last chunk of one of them is the pair of hashes at an inner node of the other's tree. -/
theorem rootHash_identifies_body (hm : D.PairsNeighbours) (hsize : 64 < D.chunkSize)
    {i i' : ℕ} {m m' s s' : StatusMap} {id id' : String} {len len' : Option Bytes} {u u' : Upload}
    (hu : newBlob D i m id len = .ok (s,u)) (hu' : newBlob D i' m' id' len' = .ok (s',u'))
    {frames frames' : List Bytes} (hf : frames.flatten.length = u.declared)
    (hf' : frames'.flatten.length = u'.declared) :
    ∃ adm a adm' a', receive D u frames = .ok (.sending adm a) ∧
      receive D u' frames' = .ok (.sending adm' a') ∧
      (NoCollision D a a' → a.rootHash = a'.rootHash →
        frames.flatten = frames'.flatten ∨ LastIsInner D a a' ∨ LastIsInner D a' a) := by
  have hstart : ∀ {i m id len s u}, newBlob D i m id len = .ok (s,u) →
      (Handler.streaming u).Sound D [] := by
    intro i m id len s u hu
    obtain ⟨k,-,-,-,-,-,hd,hsp,hbuf,-⟩ := newBlob_eq_ok hu
    refine ⟨hd,by rw [hbuf]; exact hsp,?_⟩
    rw [hbuf]
    exact D.chunkSize_pos
  obtain ⟨adm,a,hrec,ha⟩ := receive_spec hm frames u [] (hstart hu) (by simpa using hf)
  obtain ⟨adm',a',hrec',ha'⟩ := receive_spec hm frames' u' [] (hstart hu') (by simpa using hf')
  exact ⟨adm,a,adm',a',hrec,hrec',fun hc hroot => body_eq_of_rootHash_eq hm hsize ha ha' hc hroot⟩

/-- `CHUNK_SIZE` is 65 here: a body of 66 bytes has two chunks. -/
def smallChunks : Deps := Deps.sample 65 (by decide)

def threeChunks : Bytes := List.replicate 65 1 ++ (List.replicate 65 2 ++ [3])

/-- The Merkle tree over the chunks of `threeChunks`. -/
def threeLeaves : HashTree.Tree Bytes :=
  .node (.node (.leaf (List.replicate 65 1)) (.leaf (List.replicate 65 2))) (.leaf [3])

/-- One body of three chunks in two framings, for two ids. -/
theorem rootHash_identifies_body_framings : ∃ s u s' u' adm a adm' a',
    newBlob smallChunks 0 ∅ blobId (some [49,51,49]) = .ok (s,u) ∧
    newBlob smallChunks 1 s fileId (some [49,51,49]) = .ok (s',u') ∧
    receive smallChunks u [threeChunks.take 70,threeChunks.drop 70] = .ok (.sending adm a) ∧
    receive smallChunks u' [threeChunks] = .ok (.sending adm' a') ∧ a.chunks.length = 3 ∧
    NoCollision smallChunks a a' ∧ a.rootHash = a'.rootHash ∧
    [threeChunks.take 70,threeChunks.drop 70].flatten = [threeChunks].flatten := by
  have hu : newBlob smallChunks 0 ∅ blobId (some [49,51,49]) =
      .ok (_,⟨blobId,⟨blobId,false⟩,131,3,0,[],[]⟩) := rfl
  have hu' : newBlob smallChunks 1 ((∅ : StatusMap).insert blobId ⟨0,[.pending]⟩) fileId
      (some [49,51,49]) = .ok (_,⟨fileId,⟨fileId,false⟩,131,3,0,[],[]⟩) := rfl
  have hf : [threeChunks.take 70,threeChunks.drop 70].flatten.length = 131 := by
    simp [threeChunks]
  have hf' : [threeChunks].flatten.length = 131 := by simp [threeChunks]
  obtain ⟨adm,a,adm',a',hrec,hrec',hroot⟩ :=
    rootHash_identifies_body (fun _ => rfl) (by decide) hu hu' hf hf'
  have ha : receive smallChunks ⟨blobId,⟨blobId,false⟩,131,3,0,[],[]⟩
    [threeChunks.take 70,threeChunks.drop 70] = .ok (.sending _ ⟨blobId,_,_,_,3⟩) := rfl
  have ha' : receive smallChunks ⟨fileId,⟨fileId,false⟩,131,3,0,[],[]⟩
    [threeChunks] = .ok (.sending _ ⟨fileId,_,_,_,3⟩) := rfl
  cases hrec.symm.trans ha
  cases hrec'.symm.trans ha'
  refine ⟨_,_,_,_,_,_,_,_,hu,hu',ha,ha',rfl,?_⟩
  have hl : ((HashTree.hashed smallChunks.blake3 joinHashes threeLeaves).map
      smallChunks.blake3).Nodup := by decide
  refine (and_iff_left_of_imp fun hc => ⟨rfl,?_⟩).mpr
    (noCollision_of_nodup hl rfl rfl (List.Subset.refl _) (List.Subset.refl _))
  rcases hroot hc rfl with hbody | hlast | hlast
  · exact hbody
  · -- Both trees have three leaves.
    exact absurd rfl hlast.1
  · exact absurd rfl hlast.1

section Confusion

def twoChunks : Bytes := List.replicate 66 1

/-- The two chunk hashes of `twoChunks`, as a body of one chunk. -/
def pairBody : Bytes :=
  joinHashes (smallChunks.blake3 (List.replicate 65 1)) (smallChunks.blake3 [1])

theorem rootHash_pairBody : ∃ s u s' u' adm a adm' a',
    newBlob smallChunks 0 ∅ blobId (some [54,54]) = .ok (s,u) ∧
    newBlob smallChunks 1 s fileId (some [54,52]) = .ok (s',u') ∧
    receive smallChunks u [twoChunks] = .ok (.sending adm a) ∧
    receive smallChunks u' [pairBody] = .ok (.sending adm' a') ∧
    NoCollision smallChunks a a' ∧ a.rootHash = a'.rootHash ∧ a.body ≠ a'.body := by
  refine ⟨_,_,_,_,_,_,_,_,rfl,rfl,rfl,rfl,?_,by decide,by decide⟩
  -- The messages hashed for the two trees have three different lengths.
  have hl : ([List.replicate 65 1,[1],pairBody].map smallChunks.blake3).Nodup := by decide
  exact noCollision_of_nodup hl rfl rfl (by decide) (by decide)

end Confusion

end Root

end Gozara
