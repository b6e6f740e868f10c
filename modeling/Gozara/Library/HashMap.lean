import Mathlib.Data.List.AList
import Mathlib.Data.Option.Basic
import Mathlib.Tactic.Common

/-!
# Hash maps with an explicit iteration order

A hash map is an association list with distinct keys: its lookups do not depend on the
order of the entries, its traversals do. The in-place operations below keep every entry at
its position, and each of them is described by its effect on lookups alone.
-/

/-- An association list with distinct keys, as a map from `K` to `V`. -/
abbrev HashMap (K V : Type*) := AList (fun _ : K => V)

namespace HashMap

variable {K V : Type*}

/-- Rebuild a map from entries with the same keys in the same order. -/
def withEntries (m : HashMap K V) (es : List (Sigma fun _ : K => V))
    (h : es.keys = m.keys) : HashMap K V :=
  ⟨es,by rw [List.NodupKeys,h]; exact m.keys_nodup⟩

/-- Rewrite every value at its place, as a traversal by mutable reference does. -/
def mapVal (f : K → V → V) (m : HashMap K V) : HashMap K V :=
  m.withEntries (m.entries.map fun e => ⟨e.1,f e.1 e.2⟩) (by
    simp [List.keys,AList.keys,Function.comp_def])

def retain (p : K → V → Bool) (m : HashMap K V) : HashMap K V :=
  ⟨m.entries.filter fun e => p e.1 e.2,m.nodupKeys.sublist List.filter_sublist⟩

def all (p : V → Bool) (m : HashMap K V) : Bool := m.entries.all fun e => p e.2

variable [DecidableEq K]

/-- Overwrite the value of a key that is present, at its place. -/
def modify (k : K) (v : V) (m : HashMap K V) : HashMap K V :=
  m.mapVal fun k' v' => if k' = k then v else v'

/-- Insert the pairs from left to right: the last value of a key stays. -/
def collect (l : List (K × V)) : HashMap K V :=
  l.foldl (fun m e => m.insert e.1 e.2) ∅

section Lookup

lemma exists_of_rel_some {R : V → V → Prop} {v : V} {o : Option V}
    (h : Option.Rel R (some v) o) : ∃ w, o = some w ∧ R v w := by
  cases h with
  | some h => exact ⟨_,rfl,h⟩

lemma exists_of_rel_some' {R : V → V → Prop} {w : V} {o : Option V}
    (h : Option.Rel R o (some w)) : ∃ v, o = some v ∧ R v w := by
  cases h with
  | some h => exact ⟨_,rfl,h⟩

lemma rel_mono {R S : V → V → Prop} (hRS : ∀ v w, R v w → S v w) {o o' : Option V}
    (h : Option.Rel R o o') : Option.Rel S o o' := by
  cases h with
  | none => exact Option.Rel.none
  | some h => exact Option.Rel.some (hRS _ _ h)

lemma rel_self {R : V → V → Prop} (hR : ∀ v, R v v) (o : Option V) : Option.Rel R o o := by
  cases o with
  | none => exact Option.Rel.none
  | some v => exact Option.Rel.some (hR v)

/-- Two lists of entries with the same keys that are related value by value give related
lookups. -/
theorem rel_dlookup {R : K → V → V → Prop} {es fs : List (Sigma fun _ : K => V)}
    (h : List.Forall₂ (fun e f => f.1 = e.1 ∧ R e.1 e.2 f.2) es fs) (k : K) :
    Option.Rel (R k) (es.dlookup k) (fs.dlookup k) := by
  induction h with
  | nil => exact Option.Rel.none
  | @cons e f es fs hef _ ih =>
    obtain ⟨a,v⟩ := e
    obtain ⟨b,w⟩ := f
    obtain ⟨hk,hR⟩ := hef
    simp only at hk hR
    subst b
    by_cases ha : k = a
    · subst a
      simpa using hR
    · rw [List.dlookup_cons_ne es ⟨a,v⟩ ha,List.dlookup_cons_ne fs ⟨a,w⟩ ha]
      exact ih

@[simp] theorem lookup_mapVal (f : K → V → V) (m : HashMap K V) (k : K) :
    (m.mapVal f).lookup k = (m.lookup k).map (f k) := by
  have h : List.Forall₂ (fun e e' : Sigma fun _ : K => V => e'.1 = e.1 ∧ e'.2 = f e.1 e.2)
      m.entries (m.mapVal f).entries := by
    simp [mapVal,withEntries,List.forall₂_map_right_iff,List.forall₂_same]
  have hk := rel_dlookup (R := fun k v w => w = f k v) h k
  change (m.mapVal f).entries.dlookup k = (m.entries.dlookup k).map (f k)
  generalize m.entries.dlookup k = a at hk ⊢
  generalize (m.mapVal f).entries.dlookup k = b at hk ⊢
  cases hk with
  | none => rfl
  | some h => rw [h]; rfl

theorem lookup_modify (k j : K) (v : V) (m : HashMap K V) :
    (m.modify k v).lookup j = if j = k then (m.lookup k).map fun _ => v else m.lookup j := by
  rw [modify,lookup_mapVal]
  split_ifs with h
  · rw [h]
  · exact Option.map_id'

theorem lookup_eq_some_iff {m : HashMap K V} {k : K} {v : V} :
    m.lookup k = some v ↔ (⟨k,v⟩ : Sigma fun _ : K => V) ∈ m.entries :=
  AList.mem_lookup_iff

theorem lookup_retain_eq_some {p : K → V → Bool} {m : HashMap K V} {k : K} {v : V} :
    (m.retain p).lookup k = some v ↔ m.lookup k = some v ∧ p k v = true := by
  rw [lookup_eq_some_iff,lookup_eq_some_iff]
  exact List.mem_filter

theorem all_eq_true {p : V → Bool} {m : HashMap K V} :
    m.all p = true ↔ ∀ k v, m.lookup k = some v → p v = true := by
  simp only [all,List.all_eq_true,lookup_eq_some_iff]
  exact ⟨fun h k v hv => h ⟨k,v⟩ hv,fun h e he => h e.1 e.2 he⟩

theorem lookup_of_perm {m n : HashMap K V} (h : m.entries.Perm n.entries) (k : K) :
    m.lookup k = n.lookup k := AList.perm_lookup h

end Lookup

section Collect

theorem lookup_foldl_insert (l : List (K × V)) (m : HashMap K V) (k : K) :
    (l.foldl (fun m e => m.insert e.1 e.2) m).lookup k =
      ((l.reverse.find? fun e => e.1 = k).map Prod.snd).or (m.lookup k) := by
  induction l generalizing m with
  | nil => simp
  | cons e l ih =>
    rw [List.foldl_cons,ih,List.reverse_cons,List.find?_append]
    by_cases h : e.1 = k
    · subst h
      cases l.reverse.find? fun e' => decide (e'.1 = e.1) <;> simp
    · cases l.reverse.find? fun e' => decide (e'.1 = k) <;>
        simp [h,AList.lookup_insert_ne (Ne.symm h)]

/-- A collected map holds, for each key, the last value the list has for it. -/
theorem lookup_collect (l : List (K × V)) (k : K) :
    (collect l).lookup k = (l.reverse.find? fun e => e.1 = k).map Prod.snd := by
  simp [collect,lookup_foldl_insert]

theorem lookup_collect_map {W : Type*} (f : V → W) (l : List (K × V)) (k : K) :
    (collect (l.map fun e => (e.1,f e.2))).lookup k = ((collect l).lookup k).map f := by
  rw [lookup_collect,lookup_collect,← List.map_reverse,List.find?_map,Option.map_map,
    Option.map_map]
  rfl

theorem mem_of_lookup_collect {l : List (K × V)} {k : K} {v : V}
    (h : (collect l).lookup k = some v) : (k,v) ∈ l := by
  rw [lookup_collect,Option.map_eq_some_iff] at h
  obtain ⟨⟨a,b⟩,hfind,hb⟩ := h
  have hk : a = k := by simpa using List.find?_some hfind
  have hmem := List.mem_of_find?_eq_some hfind
  simp only at hb
  subst a b
  exact List.mem_reverse.mp hmem

theorem lookup_collect_isSome {l : List (K × V)} {e : K × V} (h : e ∈ l) :
    ∃ v, (collect l).lookup e.1 = some v := by
  rw [lookup_collect]
  have hfind : (l.reverse.find? fun e' => e'.1 = e.1).isSome :=
    List.find?_isSome.mpr ⟨e,List.mem_reverse.mpr h,by simp⟩
  obtain ⟨x,hx⟩ := Option.isSome_iff_exists.mp hfind
  exact ⟨x.2,by rw [hx]; rfl⟩

/-- A map whose keys all come from a list is not longer than the list. -/
theorem length_entries_le {W : Type*} {m : HashMap K V} {l : List (K × W)}
    (h : ∀ k v, m.lookup k = some v → ∃ w, (k,w) ∈ l) : m.entries.length ≤ l.length := by
  have hsub : m.keys ⊆ l.map Prod.fst := by
    intro k hk
    obtain ⟨v,hv⟩ := Option.isSome_iff_exists.mp (AList.lookup_isSome.mpr hk)
    obtain ⟨w,hw⟩ := h k v hv
    exact List.mem_map_of_mem hw
  have hlen := (List.subperm_of_subset m.keys_nodup hsub).length_le
  simpa [AList.keys,List.keys] using hlen

end Collect

end HashMap
