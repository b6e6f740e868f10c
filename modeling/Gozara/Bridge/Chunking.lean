import Gozara.Bridge.NewBlob
import Gozara.Library.Pieces
import Mathlib.Algebra.Order.BigOperators.Group.List
import Mathlib.Tactic.Ring

/-!
# What a handler has of its body

At every point of `new_blob` the chunks, the buffer and the data in hand are together the
bytes received so far, all chunks but the last are full, and the permits cover the declared
length. The message for the coordinator is built from the whole body.
-/
namespace Gozara

/-- `div_ceil` by `CHUNK_SIZE`. -/
def Deps.chunkCount (D : Deps) (len : ℕ) : ℕ := (len+D.chunkSize-1)/D.chunkSize

lemma Deps.le_chunkCount_mul (D : Deps) (len : ℕ) : len ≤ D.chunkCount len*D.chunkSize := by
  have hpos := D.chunkSize_pos
  have hmod := Nat.mod_lt (len+D.chunkSize-1) hpos
  have hdiv := Nat.div_add_mod (len+D.chunkSize-1) D.chunkSize
  rw [Nat.mul_comm] at hdiv
  unfold chunkCount
  omega

/-- A body of `n` full chunks and a remainder of one byte or more, at most a chunk. -/
lemma Deps.chunkCount_eq (D : Deps) (n : ℕ) {r : ℕ} (hr : 0 < r) (hle : r ≤ D.chunkSize) :
    D.chunkCount (n*D.chunkSize+r) = n+1 := by
  unfold chunkCount
  apply Nat.div_eq_of_lt_le
  · rw [Nat.add_mul]
    omega
  · rw [Nat.add_mul,Nat.add_mul]
    omega

namespace AdmittedBlob

/-- What `new_blob` makes of a body. -/
structure Whole (D : Deps) (body : Bytes) (a : AdmittedBlob) : Prop where
  body_eq : a.body = body
  le : body.length ≤ maxBlobSize
  hash_eq : ∀ e ∈ a.chunks, e.1 = D.blake3 e.2
  full : ∃ front last, a.chunks = front ++ [last] ∧ (∀ e ∈ front, e.2.length = D.chunkSize) ∧
    0 < last.2.length ∧ last.2.length ≤ D.chunkSize
  allowance_eq : a.allowance = D.chunkCount body.length
  budget : a.allowance ≤ totalChunkBudget
  tree : a.merkleTree = ⟨a.chunks.map Prod.fst⟩
  root : D.merkleRoot (a.chunks.map Prod.fst) = some a.rootHash

end AdmittedBlob

/-- The length of chunks of one size, one after the other. -/
lemma length_flatten_of_full {n : ℕ} {l : List (Hash × Bytes)} (h : ∀ e ∈ l, e.2.length = n) :
    (l.map Prod.snd).flatten.length = l.length*n := by
  have hfull : ∀ c ∈ l.map Prod.snd, c.length = n := by
    intro c hc
    obtain ⟨e,he,rfl⟩ := List.mem_map.mp hc
    exact h e he
  rw [Pieces.length_flatten_of_full hfull,List.length_map]

section Whole
variable {D : Deps} {body : Bytes} {a : AdmittedBlob}

/-- One permit for each chunk. -/
theorem AdmittedBlob.Whole.length_chunks (h : a.Whole D body) : a.chunks.length = a.allowance := by
  obtain ⟨front,last,hchunks,hfront,hpos,hle⟩ := h.full
  have hlen : body.length = front.length*D.chunkSize+last.2.length := by
    rw [← h.body_eq,AdmittedBlob.body,hchunks]
    simp [length_flatten_of_full hfront]
  rw [h.allowance_eq,hlen,D.chunkCount_eq front.length hpos hle,hchunks]
  simp

lemma AdmittedBlob.Whole.length_chunk_le (h : a.Whole D body) :
    ∀ e ∈ a.chunks, e.2.length ≤ D.chunkSize := by
  obtain ⟨front,last,hchunks,hfront,-,hle⟩ := h.full
  intro e he
  rw [hchunks] at he
  rcases List.mem_append.mp he with he | he
  · exact (hfront e he).le
  · rw [List.mem_singleton.mp he]
    exact hle

lemma AdmittedBlob.Whole.length_body_le (h : a.Whole D body) :
    a.body.length ≤ D.chunkSize*a.allowance := by
  rw [h.body_eq,h.allowance_eq,Nat.mul_comm]
  exact D.le_chunkCount_mul body.length

/-- No chunk is longer than a body may be. -/
theorem AdmittedBlob.Whole.chunk_le_maxBlobSize (h : a.Whole D body) {e : Hash × Bytes}
    (he : e ∈ a.chunks) : e.2.length ≤ maxBlobSize := by
  have hsub : e.2.Sublist a.body := List.sublist_flatten_of_mem (List.mem_map_of_mem he)
  rw [h.body_eq] at hsub
  exact hsub.length_le.trans h.le

end Whole

namespace Upload
variable (D : Deps)

/-- The checks that `new_blob` makes before it admits. -/
structure Declared (u : Upload) : Prop where
  pos : 0 < u.declared
  le : u.declared ≤ maxBlobSize
  numChunks_eq : u.numChunks = D.chunkCount u.declared
  budget : u.numChunks ≤ totalChunkBudget

/-- The bytes received are `body`: full chunks, then `rest`. -/
structure Splits (u : Upload) (rest body : Bytes) : Prop where
  hash_eq : ∀ e ∈ u.chunks, e.1 = D.blake3 e.2
  full : ∀ e ∈ u.chunks, e.2.length = D.chunkSize
  body_eq : (u.chunks.map Prod.snd).flatten ++ rest = body
  received : u.received = body.length
  le : u.received ≤ u.declared

variable {D} {u : Upload} {rest body : Bytes}

lemma Splits.length (h : Splits D u rest body) :
    u.received = u.chunks.length*D.chunkSize+rest.length := by
  rw [h.received,← h.body_eq,List.length_append,length_flatten_of_full h.full]

lemma Splits.push {chunk : Bytes} (h : Splits D u (chunk ++ rest) body)
    (hlen : chunk.length = D.chunkSize) :
    Splits D { u with chunks := u.chunks ++ [(D.blake3 chunk,chunk)] } rest body := by
  refine ⟨?_,?_,by simpa using h.body_eq,h.received,h.le⟩
  · intro e he
    rcases List.mem_append.mp he with he | he
    · exact h.hash_eq e he
    · rw [List.mem_singleton.mp he]
  · intro e he
    rcases List.mem_append.mp he with he | he
    · exact h.full e he
    · rw [List.mem_singleton.mp he]
      exact hlen

/-- The number of bytes in `buf` and `chunks`. -/
def bytes (u : Upload) : ℕ := (u.chunks.map fun e => e.2.length).sum+u.buf.length

lemma sum_length (l : List (Hash × Bytes)) :
    (l.map fun e => e.2.length).sum = (l.map Prod.snd).flatten.length := by
  rw [List.length_flatten,List.map_map]
  rfl

end Upload

namespace Handler
variable (D : Deps)

/-- The invariant of a handler that has received `body`. -/
def Sound (body : Bytes) : Handler → Prop
  | .acquiring u => u.Declared D ∧ u.Splits D [] body ∧ u.buf = [] ∧ u.chunks = []
  | .streaming u => u.Declared D ∧ u.Splits D u.buf body ∧ u.buf.length < D.chunkSize
  | .hashing u chunk (.frame data) _ => u.Declared D ∧ u.Splits D (chunk ++ data) body ∧
      u.buf = [] ∧ chunk.length = D.chunkSize
  | .hashing u chunk .merklize _ => u.Declared D ∧ u.Splits D chunk body ∧
      u.buf = [] ∧ 0 < chunk.length ∧ chunk.length < D.chunkSize ∧ u.received = u.declared
  | .sending _ blob => blob.Whole D body
  | _ => True

/-- The id, the admission and the permits of a handler before its message is built. -/
def upload? : Handler → Option Upload
  | .acquiring u | .streaming u | .hashing u _ _ _ => some u
  | _ => none

/-- The handler goes on with the request of `u`. -/
structure Continues (u : Upload) (h : Handler) : Prop where
  upload : ∀ v, h.upload? = some v → v.id = u.id ∧ v.admission = u.admission ∧
    v.declared = u.declared ∧ v.numChunks = u.numChunks
  sending : ∀ adm blob, h = .sending adm blob → adm = u.admission ∧ blob.id = u.id ∧
    blob.allowance = u.numChunks
  live : (∃ v, h = .streaming v) ∨ (∃ v chunk next, h = .hashing v chunk next false) ∨
    ∃ adm blob, h = .sending adm blob

variable {D} {u : Upload} {body : Bytes}

theorem takeFrame_spec : ∀ (fuel : ℕ) (u : Upload) (data : Bytes), data.length ≤ fuel →
    u.Declared D → u.buf.length < D.chunkSize → u.Splits D (u.buf ++ data) body →
    Sound D body (takeFrame D fuel u data) ∧ Continues u (takeFrame D fuel u data) := by
  have hstream : ∀ u : Upload, u.Declared D → u.buf.length < D.chunkSize →
      u.Splits D u.buf body → Sound D body (.streaming u) ∧ Continues u (.streaming u) := by
    intro u hd hbuf hs
    refine ⟨⟨hd,hs,hbuf⟩,⟨?_,by simp,Or.inl ⟨u,rfl⟩⟩⟩
    rintro v ⟨⟩
    exact ⟨rfl,rfl,rfl,rfl⟩
  intro fuel
  induction fuel with
  | zero =>
    intro u data hle hd hbuf hs
    have hnil : data = [] := List.length_eq_zero_iff.mp (by omega)
    subst hnil
    exact hstream u hd hbuf (by simpa using hs)
  | succ fuel ih =>
    intro u data hle hd hbuf hs
    unfold takeFrame
    split_ifs with hnil
    · subst hnil
      exact hstream u hd hbuf (by simpa using hs)
    · have hpos := List.length_pos_iff.mpr hnil
      dsimp only
      split_ifs with hfull
      · have hs' : u.Splits D ((u.buf ++ data.take (min (D.chunkSize-u.buf.length) data.length)) ++
            data.drop (min (D.chunkSize-u.buf.length) data.length)) body := by
          rw [List.append_assoc,List.take_append_drop]
          exact hs
        refine ⟨⟨⟨hd.pos,hd.le,hd.numChunks_eq,hd.budget⟩,
          ⟨hs'.hash_eq,hs'.full,hs'.body_eq,hs'.received,hs'.le⟩,rfl,hfull⟩,
          ⟨?_,by simp,Or.inr (Or.inl ⟨_,_,_,rfl⟩)⟩⟩
        rintro v ⟨⟩
        exact ⟨rfl,rfl,rfl,rfl⟩
      · -- Not full, so that the whole frame fits into the buffer.
        have hlen : (u.buf ++ data.take (min (D.chunkSize-u.buf.length) data.length)).length <
            D.chunkSize := by
          rw [List.length_append,List.length_take] at hfull ⊢
          omega
        have hsp : Upload.Splits D
            { u with buf := u.buf ++ data.take (min (D.chunkSize-u.buf.length) data.length) }
            ((u.buf ++ data.take (min (D.chunkSize-u.buf.length) data.length)) ++
              data.drop (min (D.chunkSize-u.buf.length) data.length)) body := by
          refine ⟨hs.hash_eq,hs.full,?_,hs.received,hs.le⟩
          rw [List.append_assoc u.buf,List.take_append_drop]
          exact hs.body_eq
        obtain ⟨hsound,hcont⟩ := ih
          { u with buf := u.buf ++ data.take (min (D.chunkSize-u.buf.length) data.length) }
          _ (by rw [List.length_drop]; omega) ⟨hd.pos,hd.le,hd.numChunks_eq,hd.budget⟩ hlen hsp
        exact ⟨hsound,⟨hcont.upload,hcont.sending,hcont.live⟩⟩

theorem onFrame_spec {data : Bytes} {h : Handler} (hs : Sound D body (.streaming u))
    (hok : onFrame D u data = .ok h) : Sound D (body ++ data) h ∧ Continues u h := by
  obtain ⟨hd,hsp,hbuf⟩ := hs
  simp only [onFrame] at hok
  split_ifs at hok with hle
  cases hok
  have hsp' : Upload.Splits D { u with received := u.received+data.length } (u.buf ++ data)
      (body ++ data) := by
    refine ⟨hsp.hash_eq,hsp.full,?_,?_,by dsimp only; omega⟩
    · rw [← hsp.body_eq,List.append_assoc]
    · simp only [hsp.received,List.length_append]
  obtain ⟨hsound,hcont⟩ := takeFrame_spec data.length { u with received := u.received+data.length }
    data le_rfl ⟨hd.pos,hd.le,hd.numChunks_eq,hd.budget⟩ hbuf hsp'
  exact ⟨hsound,⟨hcont.upload,hcont.sending,hcont.live⟩⟩

/-- The message is built from chunks that are the whole body. -/
theorem merklize_spec {h : Handler} {front : List (Hash × Bytes)} {last : Hash × Bytes}
    (hd : u.Declared D) (hchunks : u.chunks = front ++ [last])
    (hhash : ∀ e ∈ u.chunks, e.1 = D.blake3 e.2)
    (hfront : ∀ e ∈ front, e.2.length = D.chunkSize) (hpos : 0 < last.2.length)
    (hle : last.2.length ≤ D.chunkSize) (hbody : (u.chunks.map Prod.snd).flatten = body)
    (hdecl : body.length = u.declared) (hok : merklize D u = .ok h) :
    Sound D body h ∧ Continues u h := by
  simp only [merklize] at hok
  split at hok
  · cases hok
  · rename_i rootHash hroot
    cases hok
    refine ⟨⟨hbody,hdecl ▸ hd.le,hhash,⟨front,last,hchunks,hfront,hpos,hle⟩,?_,hd.budget,rfl,
      hroot⟩,?_⟩
    · rw [hdecl]
      exact hd.numChunks_eq
    · refine ⟨by simp [upload?],?_,Or.inr (Or.inr ⟨_,_,rfl⟩)⟩
      rintro adm blob ⟨⟩
      exact ⟨rfl,rfl,rfl⟩

theorem bodyEnd_spec {h : Handler} (hs : Sound D body (.streaming u))
    (hok : bodyEnd D u = .ok h) : Sound D body h ∧ Continues u h := by
  obtain ⟨hd,hsp,hbuf⟩ := hs
  unfold bodyEnd at hok
  split_ifs at hok with hrec hne
  · cases hok
    refine ⟨⟨⟨hd.pos,hd.le,hd.numChunks_eq,hd.budget⟩,⟨hsp.hash_eq,hsp.full,hsp.body_eq,
      hsp.received,hsp.le⟩,rfl,List.length_pos_iff.mpr hne,hbuf,
      not_not.mp hrec⟩,⟨?_,by simp,Or.inr (Or.inl ⟨_,_,_,rfl⟩)⟩⟩
    rintro v ⟨⟩
    exact ⟨rfl,rfl,rfl,rfl⟩
  · have hrec : u.received = u.declared := not_not.mp hrec
    have hnil : u.buf = [] := not_not.mp hne
    have hlen := hsp.length
    rw [hnil,hrec] at hlen
    -- The declared length is positive, so there is a last chunk, and it is full.
    have hchunks : u.chunks ≠ [] := by
      intro h₀
      have hpos := hd.pos
      simp [h₀] at hlen
      omega
    have hlast := List.dropLast_append_getLast hchunks
    refine merklize_spec hd hlast.symm hsp.hash_eq (fun e he => hsp.full e
      (List.dropLast_subset _ he)) ?_ ?_ ?_ ?_ hok
    · rw [hsp.full _ (List.getLast_mem hchunks)]
      exact D.chunkSize_pos
    · exact (hsp.full _ (List.getLast_mem hchunks)).le
    · simpa [hnil] using hsp.body_eq
    · rw [← hsp.received,hrec]

theorem onHashed_spec {h : Handler} {chunk : Bytes} {next : AfterHash} {started : Bool}
    (hs : Sound D body (.hashing u chunk next started)) (hok : onHashed D u chunk next = .ok h) :
    Sound D body h ∧ Continues u h := by
  cases next with
  | frame data =>
    obtain ⟨hd,hsp,hbuf,hlen⟩ := hs
    cases hok
    have hpush := hsp.push hlen
    obtain ⟨hsound,hcont⟩ := takeFrame_spec data.length
      { u with chunks := u.chunks ++ [(D.blake3 chunk,chunk)] } data le_rfl
      ⟨hd.pos,hd.le,hd.numChunks_eq,hd.budget⟩ (by simp [hbuf,D.chunkSize_pos])
      ⟨hpush.hash_eq,hpush.full,by simpa [hbuf] using hpush.body_eq,hpush.received,hpush.le⟩
    exact ⟨hsound,⟨hcont.upload,hcont.sending,hcont.live⟩⟩
  | merklize =>
    obtain ⟨hd,hsp,-,hpos,hlt,hrec⟩ := hs
    have hd' : Upload.Declared D { u with chunks := u.chunks ++ [(D.blake3 chunk,chunk)] } :=
      ⟨hd.pos,hd.le,hd.numChunks_eq,hd.budget⟩
    have hhash : ∀ e ∈ u.chunks ++ [(D.blake3 chunk,chunk)], e.1 = D.blake3 e.2 := by
      intro e he
      rcases List.mem_append.mp he with he | he
      · exact hsp.hash_eq e he
      · rw [List.mem_singleton.mp he]
    have hbody : ((u.chunks ++ [(D.blake3 chunk,chunk)]).map Prod.snd).flatten = body := by
      simpa using hsp.body_eq
    obtain ⟨hsound,hcont⟩ := merklize_spec hd' rfl hhash hsp.full hpos hlt.le hbody
      (by rw [← hsp.received]; exact hrec) hok
    exact ⟨hsound,⟨hcont.upload,hcont.sending,hcont.live⟩⟩

end Handler

end Gozara
