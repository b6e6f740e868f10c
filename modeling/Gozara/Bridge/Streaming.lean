import Gozara.Library.Pieces
import Gozara.Bridge.Admission

/-!
# The chunks of a body do not depend on its frames

`new_blob` alone, from its first frame on. Whatever the frames are, it ends with the pieces
of the body, each with its hash, or with a rejection when the length is not the declared
one. At the head of its inner loop the buffer is never full, and what it holds together with
what is left of the frame is at most the declared length.
-/
namespace Gozara
open Pieces

/-- Finish the hashes that a handler waits for. -/
def settle (D : Deps) : ℕ → Handler → Except StatusCode Handler
  | fuel+1,.hashing u chunk next _ => (onHashed D u chunk next).bind (settle D fuel)
  | _,h => .ok h

/-- `new_blob` alone from its first frame on: every frame arrives and every hash succeeds. -/
def receive (D : Deps) (u : Upload) : List Bytes → Except StatusCode Handler
  | [] => (bodyEnd D u).bind (settle D 1)
  | data::frames => (onFrame D u data).bind fun h => (settle D (data.length+1) h).bind fun h =>
      match h with
      | .streaming v => receive D v frames
      | h => .ok h

/-- The inner loop run to its end, every hash succeeding: the variables and the data left
each time it comes to its head. -/
def heads (D : Deps) : ℕ → Upload → Bytes → List (Upload × Bytes)
  | 0,u,data => [(u,data)]
  | fuel+1,u,data => (u,data)::
    if data = [] then []
    else
      let take := min (D.chunkSize-u.buf.length) data.length
      let buf := u.buf ++ data.take take
      if buf.length = D.chunkSize then
        heads D fuel { u with buf := [],chunks := u.chunks ++ [(D.blake3 buf,buf)] } (data.drop take)
      else heads D fuel { u with buf := buf } (data.drop take)

/-- The heads of the inner loop over all frames, until one is rejected. -/
def loopHeads (D : Deps) (u : Upload) : List Bytes → List (Upload × Bytes)
  | [] => []
  | data::frames =>
    let received := u.received+data.length
    if u.declared < received then []
    else heads D data.length { u with received := received } data ++
      match settle D (data.length+1) (takeFrame D data.length { u with received := received } data) with
      | .ok (.streaming v) => loopHeads D v frames
      | _ => []

namespace Upload

/-- What a request keeps while it streams. -/
def request (u : Upload) : String × Admission × ℕ × ℕ := (u.id,u.admission,u.declared,u.numChunks)

/-- The variables when all of a body is hashed. -/
def complete (D : Deps) (u : Upload) (body : Bytes) : Upload :=
  { u with
    received := u.declared,buf := []
    chunks := (pieces D.chunkSize body).map fun c => (D.blake3 c,c) }

variable {D : Deps} {u v : Upload} {rest body : Bytes}

lemma complete_congr (h : v.request = u.request) (body : Bytes) :
    v.complete D body = u.complete D body := by
  simp only [request,Prod.mk.injEq] at h
  obtain ⟨hid,hadm,hdecl,hnum⟩ := h
  simp only [complete,hid,hadm,hdecl,hnum]

/-- Full chunks, each with its hash, are the first pieces of the body. -/
theorem Splits.pieces_eq (h : u.Splits D rest body) :
    (pieces D.chunkSize body).map (fun c => (D.blake3 c,c)) =
      u.chunks ++ (pieces D.chunkSize rest).map fun c => (D.blake3 c,c) := by
  have hchunks : (u.chunks.map Prod.snd).map (fun c => (D.blake3 c,c)) = u.chunks := by
    rw [List.map_map]
    refine (List.map_congr_left (g := fun e => e) fun e he => ?_).trans (List.map_id' _)
    exact Prod.ext (h.hash_eq e he).symm rfl
  have hfull : ∀ c ∈ u.chunks.map Prod.snd, c.length = D.chunkSize := by
    intro c hc
    obtain ⟨e,he,rfl⟩ := List.mem_map.mp hc
    exact h.full e he
  rw [← h.body_eq,pieces_flatten_append D.chunkSize_pos hfull,List.map_append,hchunks]

/-- Without a last chunk everything is hashed already. -/
lemma complete_eq_self (h : u.Splits D u.buf body) (hrec : u.received = u.declared)
    (hnil : u.buf = []) : u.complete D body = u := by
  have hpieces := h.pieces_eq
  rw [hnil,pieces_nil,List.map_nil,List.append_nil] at hpieces
  obtain ⟨id,admission,declared,numChunks,received,buf,chunks⟩ := u
  simp only at hrec hnil hpieces
  subst hrec hnil
  simp only [complete,hpieces]

end Upload

section Loop
variable {D : Deps} {u : Upload} {body : Bytes}

/-- The invariant at a head of the inner loop. -/
structure AtHead (D : Deps) (u : Upload) (body : Bytes) (p : Upload × Bytes) : Prop where
  room : p.1.buf.length < D.chunkSize
  request : p.1.request = u.request
  splits : p.1.Splits D (p.1.buf ++ p.2) body

/-- The inner loop ends with the frame used up, as its handler does when all hashes are
there, and its invariant holds at each of its heads. -/
theorem heads_spec (D : Deps) : ∀ (k : ℕ) (u : Upload) (data : Bytes) (f g : ℕ),
    data.length ≤ k → data.length ≤ f → data.length < g → u.buf.length < D.chunkSize →
    u.Splits D (u.buf ++ data) body →
    (∃ w, (heads D k u data).getLast? = some (w,[]) ∧
      settle D g (takeFrame D f u data) = .ok (.streaming w)) ∧
    ∀ p ∈ heads D k u data, AtHead D u body p := by
  intro k
  induction k with
  | zero =>
    intro u data f g hk hf hg hbuf hs
    have hnil : data = [] := List.length_eq_zero_iff.mp (by omega)
    subst hnil
    obtain ⟨g,rfl⟩ := Nat.exists_eq_add_one.mpr hg
    refine ⟨⟨u,rfl,?_⟩,fun p hp => ?_⟩
    · cases f <;> simp [takeFrame,settle]
    · cases List.mem_singleton.mp hp
      exact ⟨hbuf,rfl,hs⟩
  | succ k ih =>
    intro u data f g hk hf hg hbuf hs
    obtain ⟨g,rfl⟩ := Nat.exists_eq_add_one.mpr (Nat.zero_lt_of_lt hg)
    by_cases hnil : data = []
    · subst hnil
      refine ⟨⟨u,by simp [heads],?_⟩,fun p hp => ?_⟩
      · cases f <;> simp [takeFrame,settle]
      · simp only [heads,if_true,List.mem_singleton] at hp
        subst hp
        exact ⟨hbuf,rfl,hs⟩
    · have hpos := List.length_pos_iff.mpr hnil
      obtain ⟨f,rfl⟩ := Nat.exists_eq_add_one.mpr (Nat.lt_of_lt_of_le hpos hf)
      -- One head in front of those of the rest.
      have hhead : ∀ (v : Upload) (rest : Bytes), v.request = u.request →
          (∃ w, (heads D k v rest).getLast? = some (w,[]) ∧
            settle D (g+1) (takeFrame D (f+1) u data) = .ok (.streaming w)) ∧
          (∀ p ∈ heads D k v rest, AtHead D v body p) →
          (∃ w, ((u,data)::heads D k v rest).getLast? = some (w,[]) ∧
            settle D (g+1) (takeFrame D (f+1) u data) = .ok (.streaming w)) ∧
          ∀ p ∈ (u,data)::heads D k v rest, AtHead D u body p := by
        rintro v rest hreq ⟨⟨w,hw,hset⟩,hall⟩
        refine ⟨⟨w,by rw [List.getLast?_cons,hw]; rfl,hset⟩,fun p hp => ?_⟩
        rcases List.mem_cons.mp hp with rfl | hp
        · exact ⟨hbuf,rfl,hs⟩
        · obtain ⟨hroom,hsame,hsplits⟩ := hall p hp
          exact ⟨hroom,hsame.trans hreq,hsplits⟩
      have htake : (u.buf ++ data.take (min (D.chunkSize-u.buf.length) data.length)).length =
          u.buf.length+min (D.chunkSize-u.buf.length) data.length := by
        rw [List.length_append,List.length_take]
        omega
      have hdrop : (data.drop (min (D.chunkSize-u.buf.length) data.length)).length =
          data.length-min (D.chunkSize-u.buf.length) data.length := List.length_drop
      have hs' : u.Splits D ((u.buf ++ data.take (min (D.chunkSize-u.buf.length) data.length)) ++
          data.drop (min (D.chunkSize-u.buf.length) data.length)) body := by
        rw [List.append_assoc,List.take_append_drop]
        exact hs
      simp only [heads,if_neg hnil]
      by_cases hfull : (u.buf ++ data.take (min (D.chunkSize-u.buf.length) data.length)).length =
          D.chunkSize
      · have hpush := hs'.push hfull
        rw [if_pos hfull]
        refine hhead _ _ rfl ?_
        simp only [takeFrame,if_neg hnil,if_pos hfull,settle,onHashed,Except.bind]
        exact ih _ _ _ g (by omega) le_rfl (by omega) D.chunkSize_pos
          ⟨hpush.hash_eq,hpush.full,hpush.body_eq,hpush.received,hpush.le⟩
      · rw [if_neg hfull]
        refine hhead _ _ rfl ?_
        simp only [takeFrame,if_neg hnil,if_neg hfull]
        exact ih _ _ f (g+1) (by omega) (by omega) (by omega) (by dsimp only; omega)
          ⟨hs'.hash_eq,hs'.full,hs'.body_eq,hs'.received,hs'.le⟩

lemma Upload.declared_of_request {v : Upload} (h : v.request = u.request) (hd : u.Declared D) :
    v.Declared D := by
  simp only [Upload.request,Prod.mk.injEq] at h
  obtain ⟨-,-,hdecl,hnum⟩ := h
  obtain ⟨hpos,hle,hceil,hbudget⟩ := hd
  exact ⟨by rwa [hdecl],by rwa [hdecl],by rw [hnum,hdecl,hceil],by rwa [hnum]⟩

/-- A frame that fits the declared length leaves the handler streaming. -/
theorem onFrame_settled {data : Bytes} (hs : (Handler.streaming u).Sound D body)
    (hle : u.received+data.length ≤ u.declared) :
    ∃ v, (onFrame D u data).bind (settle D (data.length+1)) = .ok (.streaming v) ∧
      (Handler.streaming v).Sound D (body ++ data) ∧ v.request = u.request ∧
      ∀ p ∈ heads D data.length { u with received := u.received+data.length } data,
        AtHead D u (body ++ data) p := by
  obtain ⟨hd,hsp,hbuf⟩ := hs
  have hsp' : Upload.Splits D { u with received := u.received+data.length } (u.buf ++ data)
      (body ++ data) := by
    refine ⟨hsp.hash_eq,hsp.full,?_,?_,hle⟩
    · rw [← hsp.body_eq,List.append_assoc]
    · simp only [hsp.received,List.length_append]
  obtain ⟨⟨w,hw,hset⟩,hall⟩ := heads_spec D data.length
    { u with received := u.received+data.length } data data.length (data.length+1) le_rfl le_rfl
    (Nat.lt_succ_self _) hbuf hsp'
  have hlast := hall _ (List.mem_of_getLast? hw)
  refine ⟨w,?_,⟨Upload.declared_of_request hlast.request ⟨hd.pos,hd.le,hd.numChunks_eq,hd.budget⟩,
    by simpa using hlast.splits,hlast.room⟩,hlast.request,fun p hp => ⟨(hall p hp).room,
      (hall p hp).request,(hall p hp).splits⟩⟩
  rw [onFrame]
  simp only [if_neg (Nat.not_lt.mpr hle)]
  exact hset

/-- `new_blob` goes from a frame that fits to the rest of the frames. -/
lemma receive_cons {data : Bytes} {frames : List Bytes} {v : Upload}
    (h : (onFrame D u data).bind (settle D (data.length+1)) = .ok (.streaming v)) :
    receive D u (data::frames) = receive D v frames := by
  cases hf : onFrame D u data with
  | error code => simp [hf,Except.bind] at h
  | ok t =>
    rw [hf] at h
    simp only [Except.bind] at h
    simp only [receive,hf,Except.bind,h]

/-- Nothing is left to hash once the tree is built. -/
lemma settle_merklize (u : Upload) (g : ℕ) : (merklize D u).bind (settle D g) = merklize D u := by
  simp only [merklize]
  split
  · rfl
  · cases g <;> rfl

/-- The last chunk is hashed, if there is one, before the tree is built. -/
lemma receive_nil (hs : (Handler.streaming u).Sound D body) (hlen : body.length = u.declared) :
    receive D u [] = merklize D (u.complete D body) := by
  obtain ⟨hd,hsp,hbuf⟩ := hs
  have hrec : u.received = u.declared := hsp.received.trans hlen
  by_cases hnil : u.buf = []
  · rw [Upload.complete_eq_self hsp hrec hnil,receive,bodyEnd,if_neg (by simp [hrec]),if_neg (by simp [hnil]),
      settle_merklize]
  · have hpos := List.length_pos_iff.mpr hnil
    have hcomplete : u.complete D body =
        { u with buf := [],chunks := u.chunks ++ [(D.blake3 u.buf,u.buf)] } := by
      rw [Upload.complete,hsp.pieces_eq,pieces_short hpos hbuf.le,← hrec,List.map_singleton]
    rw [hcomplete,receive,bodyEnd,if_neg (by simp [hrec]),if_pos hnil]
    simp only [Except.bind,settle,onHashed]
    exact settle_merklize _ 0

/-- Whatever the frames, a body of the declared length is cut into its pieces. -/
theorem receive_eq : ∀ (frames : List Bytes) (u : Upload) (body : Bytes),
    (Handler.streaming u).Sound D body → body.length+frames.flatten.length = u.declared →
    receive D u frames = merklize D (u.complete D (body ++ frames.flatten)) := by
  intro frames
  induction frames with
  | nil =>
    intro u body hs hlen
    rw [List.flatten_nil,List.append_nil]
    exact receive_nil hs (by simpa using hlen)
  | cons data frames ih =>
    intro u body hs hlen
    rw [List.flatten_cons,List.length_append] at hlen
    have hle : u.received+data.length ≤ u.declared := by
      rw [hs.2.1.received]
      omega
    obtain ⟨v,hv,hsv,hreq,-⟩ := onFrame_settled hs hle
    have hdecl : v.declared = u.declared := by
      simp only [Upload.request,Prod.mk.injEq] at hreq
      exact hreq.2.2.1
    rw [receive_cons hv,ih v (body ++ data) hsv (by rw [List.length_append]; omega),
      Upload.complete_congr hreq,List.append_assoc,List.flatten_cons]

/-- A body of another length is rejected. -/
theorem receive_reject : ∀ (frames : List Bytes) (u : Upload) (body : Bytes),
    (Handler.streaming u).Sound D body → body.length+frames.flatten.length ≠ u.declared →
    receive D u frames = .error .badRequest := by
  intro frames
  induction frames with
  | nil =>
    intro u body hs hlen
    have hrec : u.received ≠ u.declared := by
      rw [hs.2.1.received]
      simpa using hlen
    simp [receive,bodyEnd,hrec,Except.bind]
  | cons data frames ih =>
    intro u body hs hlen
    rw [List.flatten_cons,List.length_append] at hlen
    by_cases hle : u.received+data.length ≤ u.declared
    · obtain ⟨v,hv,hsv,hreq,-⟩ := onFrame_settled hs hle
      have hdecl : v.declared = u.declared := by
        simp only [Upload.request,Prod.mk.injEq] at hreq
        exact hreq.2.2.1
      rw [receive_cons hv]
      exact ih v (body ++ data) hsv (by rw [List.length_append]; omega)
    · simp [receive,onFrame,Nat.lt_of_not_le hle,Except.bind]

/-- At every head of the inner loop there is room in the buffer, the bytes held and left
of the frame are the bytes received, at most the declared length, and the loop uses up what is
left of the frame in at most as many rounds as that has bytes. -/
theorem loopHeads_spec : ∀ (frames : List Bytes) (u : Upload) (body : Bytes),
    (Handler.streaming u).Sound D body → ∀ p ∈ loopHeads D u frames,
      p.1.buf.length < D.chunkSize ∧ p.1.bytes+p.2.length ≤ u.declared ∧
      ∃ w, (heads D p.2.length p.1 p.2).getLast? = some (w,[]) := by
  intro frames
  induction frames with
  | nil =>
    intro u body hs p hp
    cases hp
  | cons data frames ih =>
    intro u body hs p hp
    simp only [loopHeads] at hp
    split_ifs at hp with hlarge
    · cases hp
    · obtain ⟨v,hv,hsv,hreq,hall⟩ := onFrame_settled hs (Nat.le_of_not_lt hlarge)
      simp only [Upload.request,Prod.mk.injEq] at hreq
      have hdecl : v.declared = u.declared := hreq.2.2.1
      rcases List.mem_append.mp hp with hp | hp
      · obtain ⟨hroom,hsame,hsp⟩ := hall p hp
        simp only [Upload.request,Prod.mk.injEq] at hsame
        have hlen := hsp.length
        have hle := hsp.le
        rw [hsame.2.2.1] at hle
        obtain ⟨⟨w,hw,-⟩,-⟩ := heads_spec D p.2.length p.1 p.2 p.2.length (p.2.length+1) le_rfl
          le_rfl (Nat.lt_succ_self _) hroom hsp
        refine ⟨hroom,?_,w,hw⟩
        rw [Upload.bytes,Upload.sum_length,length_flatten_of_full hsp.full]
        rw [List.length_append] at hlen
        omega
      · simp only [onFrame,if_neg hlarge,Except.bind] at hv
        rw [hv] at hp
        obtain ⟨hroom,hle,hends⟩ := ih v (body ++ data) hsv p hp
        exact ⟨hroom,by rwa [← hdecl],hends⟩

/-- The pieces of a body that is not empty, each with its hash. -/
lemma chunks_complete (hbody : body ≠ []) : ∃ front last,
    (u.complete D body).chunks = front ++ [last] ∧ (∀ e ∈ front, e.2.length = D.chunkSize) ∧
      0 < last.2.length ∧ last.2.length ≤ D.chunkSize := by
  obtain ⟨front,last,hpieces,hfront,hpos,hle⟩ := pieces_full D.chunkSize_pos hbody
  refine ⟨front.map fun c => (D.blake3 c,c),(D.blake3 last,last),?_,?_,hpos,hle⟩
  · rw [Upload.complete,hpieces,List.map_append,List.map_singleton]
  · intro e he
    obtain ⟨c,hc,rfl⟩ := List.mem_map.mp he
    exact hfront c hc

/-- The message that is built from all pieces is for the whole body. -/
theorem whole_of_merklize {h : Handler} (hd : u.Declared D) (hlen : body.length = u.declared)
    (hok : merklize D (u.complete D body) = .ok h) : h.Sound D body := by
  have hbody : body ≠ [] := by
    rintro rfl
    exact hd.pos.ne hlen
  obtain ⟨front,last,hchunks,hfront,hpos,hle⟩ := chunks_complete (D := D) (u := u) hbody
  have hhash : ∀ e ∈ (u.complete D body).chunks, e.1 = D.blake3 e.2 := by
    intro e he
    obtain ⟨c,-,rfl⟩ := List.mem_map.mp he
    rfl
  have hflat : ((u.complete D body).chunks.map Prod.snd).flatten = body := by
    rw [Upload.complete,List.map_map]
    exact (congrArg List.flatten (List.map_id' _)).trans (flatten_pieces D.chunkSize_pos body)
  have hd' : (u.complete D body).Declared D := ⟨hd.pos,hd.le,hd.numChunks_eq,hd.budget⟩
  exact (Handler.merklize_spec hd' hchunks hhash hfront hpos hle hflat hlen hok).1

/-- A request that was admitted streams from its start. -/
lemma sound_of_newBlob {i : ℕ} {m m' : StatusMap} {id : String} {contentLength : Option Bytes}
    (h : newBlob D i m id contentLength = .ok (m',u)) :
    (Handler.streaming u).Sound D [] ∧ u.received = 0 ∧ u.buf = [] ∧ u.chunks = [] := by
  obtain ⟨k,-,-,-,-,-,hd,hsp,hbuf,hchunks⟩ := newBlob_eq_ok h
  refine ⟨⟨hd,by rw [hbuf]; exact hsp,?_⟩,hsp.received,hbuf,hchunks⟩
  rw [hbuf]
  exact D.chunkSize_pos

/-- What arrives at the send is built from the whole body. -/
theorem whole_of_receive {i : ℕ} {m m' : StatusMap} {id : String} {contentLength : Option Bytes}
    (hu : newBlob D i m id contentLength = .ok (m',u)) {frames : List Bytes} {adm : Admission}
    {a : AdmittedBlob} (h : receive D u frames = .ok (.sending adm a)) :
    a.Whole D frames.flatten := by
  have hsound := (sound_of_newBlob hu).1
  by_cases hlen : frames.flatten.length = u.declared
  · rw [receive_eq frames u [] hsound (by simpa using hlen)] at h
    exact whole_of_merklize hsound.1 hlen h
  · rw [receive_reject frames u [] hsound (by simpa using hlen)] at h
    cases h

/-- The chunks in the message are the pieces of the body. -/
theorem chunks_of_receive {i : ℕ} {m m' : StatusMap} {id : String} {contentLength : Option Bytes}
    (hu : newBlob D i m id contentLength = .ok (m',u)) {frames : List Bytes} {adm : Admission}
    {a : AdmittedBlob} (h : receive D u frames = .ok (.sending adm a)) :
    a.chunks = (pieces D.chunkSize frames.flatten).map fun c => (D.blake3 c,c) := by
  have hsound := (sound_of_newBlob hu).1
  by_cases hlen : frames.flatten.length = u.declared
  · rw [receive_eq frames u [] hsound (by simpa using hlen)] at h
    simp only [merklize] at h
    split at h
    · cases h
    · cases h
      rfl
  · rw [receive_reject frames u [] hsound (by simpa using hlen)] at h
    cases h

/-- One permit for each piece. -/
lemma length_pieces (hd : u.Declared D) (hlen : body.length = u.declared) :
    (pieces D.chunkSize body).length = u.numChunks := by
  have hbody : body ≠ [] := by
    rintro rfl
    exact hd.pos.ne hlen
  obtain ⟨front,last,hpieces,hfront,hpos,hle⟩ := pieces_full D.chunkSize_pos hbody
  have hsum : body.length = front.length*D.chunkSize+last.length := by
    rw [← flatten_pieces D.chunkSize_pos body,hpieces,List.flatten_append,List.length_append,
      Pieces.length_flatten_of_full hfront,List.flatten_singleton]
  rw [hd.numChunks_eq,← hlen,hsum,D.chunkCount_eq front.length hpos hle,hpieces]
  simp

/-- The bodies of the declared length are cut into their pieces, one for each permit,
however they are framed and for whichever request; all others are rejected; and the inner
loop keeps within its buffer and the declared length throughout, and ends with the frame used
up. -/
theorem chunking_exact {i : ℕ} {m m' : StatusMap} {id : String} {contentLength : Option Bytes}
    (hu : newBlob D i m id contentLength = .ok (m',u)) (frames : List Bytes) :
    (frames.flatten.length = u.declared →
      receive D u frames = merklize D { u with
        received := u.declared
        chunks := (pieces D.chunkSize frames.flatten).map fun c => (D.blake3 c,c) } ∧
      (pieces D.chunkSize frames.flatten).flatten = frames.flatten ∧
      (pieces D.chunkSize frames.flatten).length = u.numChunks ∧
      u.numChunks = D.chunkCount u.declared ∧
      ∃ front last, pieces D.chunkSize frames.flatten = front ++ [last] ∧
        (∀ c ∈ front, c.length = D.chunkSize) ∧ 0 < last.length ∧ last.length ≤ D.chunkSize) ∧
    (∀ (i' : ℕ) (s s' : StatusMap) (id' : String) (len' : Option Bytes) (u' : Upload)
      (frames' : List Bytes) (adm adm' : Admission) (a a' : AdmittedBlob),
      newBlob D i' s id' len' = .ok (s',u') → frames'.flatten = frames.flatten →
        receive D u frames = .ok (.sending adm a) → receive D u' frames' = .ok (.sending adm' a') →
          a.merkleTree = a'.merkleTree ∧ a.rootHash = a'.rootHash) ∧
    (frames.flatten.length ≠ u.declared → receive D u frames = .error .badRequest) ∧
    ∀ p ∈ loopHeads D u frames, p.1.buf.length < D.chunkSize ∧
      p.1.bytes+p.2.length ≤ u.declared ∧
      ∃ w, (heads D p.2.length p.1 p.2).getLast? = some (w,[]) := by
  obtain ⟨hsound,-,hbuf,-⟩ := sound_of_newBlob hu
  refine ⟨fun hlen => ⟨?_,flatten_pieces D.chunkSize_pos _,length_pieces hsound.1 hlen,
    hsound.1.numChunks_eq,?_⟩,?_,fun hlen => receive_reject frames u [] hsound (by simpa using hlen),
    loopHeads_spec frames u [] hsound⟩
  · rw [receive_eq frames u [] hsound (by simpa using hlen),Upload.complete,List.nil_append,← hbuf]
  · refine pieces_full D.chunkSize_pos fun hnil => ?_
    rw [hnil] at hlen
    exact hsound.1.pos.ne hlen
  · intro i' s s' id' len' u' frames' adm adm' a a' hu' hflat ha ha'
    have hchunks : a.chunks = a'.chunks := by
      rw [chunks_of_receive hu ha,chunks_of_receive hu' ha',hflat]
    have hwhole := whole_of_receive hu ha
    have hwhole' := whole_of_receive hu' ha'
    refine ⟨by rw [hwhole.tree,hwhole'.tree,hchunks],?_⟩
    have hroot := hwhole.root
    rw [hchunks,hwhole'.root] at hroot
    exact (Option.some.inj hroot).symm

/-- Five bytes in frames that do not meet the chunk boundaries. -/
theorem chunking_exact_frames : ∃ s u,
    newBlob (Deps.sample 2 (by decide)) 0 ∅ blobId (some [53]) = .ok (s,u) ∧
    receive (Deps.sample 2 (by decide)) u [[1],[],[2,3,4,5]] =
      receive (Deps.sample 2 (by decide)) u [[1,2,3],[4,5]] ∧
    receive (Deps.sample 2 (by decide)) u [[1,2,3]] = .error .badRequest := by
  have hu : newBlob (Deps.sample 2 (by decide)) 0 ∅ blobId (some [53]) =
      .ok (_,⟨blobId,⟨blobId,false⟩,5,3,0,[],[]⟩) := rfl
  refine ⟨_,_,hu,?_,(chunking_exact hu [[1,2,3]]).2.2.1 (by decide)⟩
  exact ((chunking_exact hu [[1],[],[2,3,4,5]]).1 rfl).1.trans
    ((chunking_exact hu [[1,2,3],[4,5]]).1 rfl).1.symm

end Loop

end Gozara
