import Mathlib.Data.List.Basic
import Mathlib.Data.Set.Function
import Mathlib.Logic.Function.Iterate
import Mathlib.Tactic.Common

/-!
# Binary hash trees built level by level

One function hashes the leaves and, applied to the joined digests of two children, the
inner nodes. A list of digests is reduced to its root by pairing neighbours from left to
right, an unpaired last node being passed up unchanged. The reduction is the digest of a
tree whose shape depends on the number of leaves alone; without collisions equal digests
mean equal trees, except where a leaf of one tree is itself the joined pair of digests
hashed at an inner node of the other.
-/
namespace HashTree

inductive Tree (β : Type*)
  | leaf (b : β)
  | node (l r : Tree β)
  deriving DecidableEq

namespace Tree
variable {β γ : Type*}

def leaves : Tree β → List β
  | leaf b => [b]
  | node l r => l.leaves ++ r.leaves

def map (f : β → γ) : Tree β → Tree γ
  | leaf b => leaf (f b)
  | node l r => node (l.map f) (r.map f)

/-- A tree with its leaves forgotten. -/
abbrev shape (t : Tree β) : Tree Unit := t.map fun _ => ()

end Tree

section Levels
variable {α : Type*}

/-- Pair neighbours from left to right; an unpaired last node goes up unchanged. -/
def levelUp (combine : α → α → α) : List α → List α
  | a::b::l => combine a b :: levelUp combine l
  | l => l

/-- Reduce level by level. A list of `n` nodes is down to one after at most `n` levels. -/
def root (combine : α → α → α) (l : List α) : Option α :=
  ((levelUp combine)^[l.length] l).head?

variable (combine : α → α → α)

theorem length_levelUp : ∀ l : List α, (levelUp combine l).length = (l.length+1)/2
  | [] => by simp [levelUp]
  | [_] => by simp [levelUp]
  | a::b::l => by
    rw [levelUp,List.length_cons,length_levelUp l]
    simp only [List.length_cons]
    omega

theorem levelUp_ne_nil {l : List α} (h : l ≠ []) : levelUp combine l ≠ [] := by
  have hpos := List.length_pos_iff.mpr h
  rw [← List.length_pos_iff,length_levelUp]
  omega

theorem length_iterate_levelUp (n : ℕ) :
    ∀ l : List α, l ≠ [] → l.length ≤ n+1 → ((levelUp combine)^[n] l).length = 1 := by
  induction n with
  | zero =>
    intro l hl hlen
    have hpos := List.length_pos_iff.mpr hl
    change l.length = 1
    omega
  | succ n ih =>
    intro l hl hlen
    rw [Function.iterate_succ_apply]
    apply ih _ (levelUp_ne_nil combine hl)
    rw [length_levelUp]
    omega

theorem iterate_levelUp_eq_singleton {l : List α} (hl : l ≠ []) :
    ∃ a, (levelUp combine)^[l.length] l = [a] :=
  List.length_eq_one_iff.mp (length_iterate_levelUp combine l.length l hl (Nat.le_succ _))

theorem root_eq_some {l : List α} (hl : l ≠ []) : ∃ a, root combine l = some a := by
  obtain ⟨a,ha⟩ := iterate_levelUp_eq_singleton combine hl
  exact ⟨a,by rw [root,ha]; rfl⟩

theorem map_levelUp {β : Type*} (combine' : β → β → β) (f : α → β)
    (hf : ∀ a b, f (combine a b) = combine' (f a) (f b)) :
    ∀ l : List α, (levelUp combine l).map f = levelUp combine' (l.map f)
  | [] => rfl
  | [_] => rfl
  | a::b::l => by
    simp only [levelUp,List.map_cons,hf,map_levelUp combine' f hf l]

theorem map_iterate_levelUp {β : Type*} (combine' : β → β → β) (f : α → β)
    (hf : ∀ a b, f (combine a b) = combine' (f a) (f b)) (n : ℕ) :
    ∀ l : List α, ((levelUp combine)^[n] l).map f = (levelUp combine')^[n] (l.map f) := by
  induction n with
  | zero => exact fun _ => rfl
  | succ n ih =>
    intro l
    rw [Function.iterate_succ_apply,Function.iterate_succ_apply,ih,map_levelUp combine combine' f hf]

/-- A map that respects the pairing commutes with the reduction. -/
theorem map_root {β : Type*} (combine' : β → β → β) (f : α → β)
    (hf : ∀ a b, f (combine a b) = combine' (f a) (f b)) (l : List α) :
    (root combine l).map f = root combine' (l.map f) := by
  rw [root,root,List.length_map,← map_iterate_levelUp combine combine' f hf,List.head?_map]

end Levels

section Forest
variable {β : Type*}

/-- The tree that the reduction builds over a list of leaves. -/
def tree (l : List β) : Option (Tree β) := root Tree.node (l.map Tree.leaf)

theorem flatMap_leaves_levelUp :
    ∀ l : List (Tree β), (levelUp Tree.node l).flatMap Tree.leaves = l.flatMap Tree.leaves
  | [] => rfl
  | [_] => rfl
  | a::b::l => by
    simp only [levelUp,List.flatMap_cons,Tree.leaves,flatMap_leaves_levelUp l,List.append_assoc]

theorem flatMap_leaves_iterate (n : ℕ) : ∀ l : List (Tree β),
    ((levelUp Tree.node)^[n] l).flatMap Tree.leaves = l.flatMap Tree.leaves := by
  induction n with
  | zero => exact fun _ => rfl
  | succ n ih =>
    intro l
    rw [Function.iterate_succ_apply,ih,flatMap_leaves_levelUp]

/-- The built tree has the given leaves in the given order. -/
theorem leaves_tree {l : List β} {t : Tree β} (h : tree l = some t) : t.leaves = l := by
  have hl : l.map Tree.leaf ≠ [] := by
    intro h₀
    rw [tree,h₀] at h
    exact absurd h (by simp [root])
  obtain ⟨a,ha⟩ := iterate_levelUp_eq_singleton Tree.node hl
  have hat : a = t := by
    rw [tree,root,ha] at h
    exact Option.some.inj h
  have hleaves := flatMap_leaves_iterate (l.map Tree.leaf).length (l.map Tree.leaf)
  rw [ha,hat] at hleaves
  simpa [List.flatMap_map,Tree.leaves] using hleaves

theorem tree_eq_some {l : List β} (h : l ≠ []) : ∃ t, tree l = some t :=
  root_eq_some _ (by simpa using h)

/-- The shape of the built tree is decided by the number of leaves. -/
theorem shape_tree {γ : Type*} {l : List β} {m : List γ} {t : Tree β} {u : Tree γ}
    (ht : tree l = some t) (hu : tree m = some u) (hlen : l.length = m.length) :
    t.shape = u.shape := by
  have hl := map_root Tree.node Tree.node (fun t : Tree β => t.shape)
    (fun _ _ => rfl) (l.map Tree.leaf)
  have hm := map_root Tree.node Tree.node (fun t : Tree γ => t.shape)
    (fun _ _ => rfl) (m.map Tree.leaf)
  have hlist : (l.map Tree.leaf).map (fun t : Tree β => t.shape) =
      (m.map Tree.leaf).map (fun t : Tree γ => t.shape) := by
    simp only [List.map_map,Function.comp_def,Tree.shape,Tree.map,List.map_const',hlen]
  rw [← tree,ht,hlist,← hm,← tree,hu] at hl
  exact Option.some.inj hl

end Forest

section Digest
variable {μ δ : Type*} (hash : μ → δ) (join : δ → δ → μ)

def digest : Tree μ → δ
  | .leaf m => hash m
  | .node l r => hash (join (digest l) (digest r))

/-- The joined pairs of digests hashed at the inner nodes. -/
def inner : Tree μ → List μ
  | .leaf _ => []
  | .node l r => join (digest hash join l) (digest hash join r) :: (inner l ++ inner r)

/-- Everything hashed while the digest is computed. -/
def hashed (t : Tree μ) : List μ := t.leaves ++ inner hash join t

/-- Reducing the leaf hashes level by level computes the digest of the built tree. -/
theorem root_hashes (l : List μ) :
    root (fun a b => hash (join a b)) (l.map hash) = (tree l).map (digest hash join) := by
  rw [tree,map_root Tree.node (fun a b => hash (join a b)) (digest hash join)
    (fun _ _ => rfl),List.map_map]
  rfl

variable {hash join}

lemma inner_left_subset {l r : Tree μ} : inner hash join l ⊆ inner hash join (.node l r) :=
  fun _ h => List.mem_cons_of_mem _ (List.mem_append_left _ h)

lemma inner_right_subset {l r : Tree μ} : inner hash join r ⊆ inner hash join (.node l r) :=
  fun _ h => List.mem_cons_of_mem _ (List.mem_append_right _ h)

lemma hashed_left_subset {l r : Tree μ} : hashed hash join l ⊆ hashed hash join (.node l r) := by
  intro m hm
  rcases List.mem_append.mp hm with h | h
  · exact List.mem_append_left _ (List.mem_append_left _ h)
  · exact List.mem_append_right _ (inner_left_subset h)

lemma hashed_right_subset {l r : Tree μ} : hashed hash join r ⊆ hashed hash join (.node l r) := by
  intro m hm
  rcases List.mem_append.mp hm with h | h
  · exact List.mem_append_left _ (List.mem_append_right _ h)
  · exact List.mem_append_right _ (inner_right_subset h)

lemma join_mem_hashed {l r : Tree μ} :
    join (digest hash join l) (digest hash join r) ∈ hashed hash join (.node l r) :=
  List.mem_append_right _ List.mem_cons_self

lemma exists_join_of_mem_inner {m : μ} : ∀ {t : Tree μ}, m ∈ inner hash join t →
    ∃ a b, m = join a b
  | .node l r,h => by
    rcases List.mem_cons.mp h with rfl | h
    · exact ⟨_,_,rfl⟩
    · rcases List.mem_append.mp h with h | h
      · exact exists_join_of_mem_inner h
      · exact exists_join_of_mem_inner h

/-- No two different messages of the two trees have one hash. -/
def CollisionFree (hash : μ → δ) (join : δ → δ → μ) (t u : Tree μ) : Prop :=
  Set.InjOn hash {m | m ∈ hashed hash join t ∨ m ∈ hashed hash join u}

lemma CollisionFree.mono {t t' u u' : Tree μ} (h : CollisionFree hash join t u)
    (ht : hashed hash join t' ⊆ hashed hash join t)
    (hu : hashed hash join u' ⊆ hashed hash join u) : CollisionFree hash join t' u' :=
  Set.InjOn.mono (fun _ hm => hm.imp (fun h => ht h) (fun h => hu h)) h

/-- Some leaf of `t` is the joined pair of digests hashed at an inner node of `u`. -/
def LeafIsInner (hash : μ → δ) (join : δ → δ → μ) (t u : Tree μ) : Prop :=
  ∃ m ∈ t.leaves, m ∈ inner hash join u

lemma LeafIsInner.mono {t t' u u' : Tree μ} (h : LeafIsInner hash join t' u')
    (ht : t'.leaves ⊆ t.leaves) (hu : inner hash join u' ⊆ inner hash join u) :
    LeafIsInner hash join t u := by
  obtain ⟨m,hm,hi⟩ := h
  exact ⟨m,ht hm,hu hi⟩

variable (hjoin : Function.Injective2 join)
include hjoin

/-- Equal digests without collisions: equal trees, or a leaf taken for an inner node. -/
theorem eq_or_leafIsInner_of_digest_eq : ∀ t u : Tree μ, CollisionFree hash join t u →
    digest hash join t = digest hash join u →
    t = u ∨ LeafIsInner hash join t u ∨ LeafIsInner hash join u t
  | .leaf m,.leaf m',hc,h => by
    left
    have hm : m = m' := hc (by simp [hashed,Tree.leaves]) (by simp [hashed,Tree.leaves]) h
    rw [hm]
  | .leaf m,.node l r,hc,h => by
    right; left
    have hm : m = join (digest hash join l) (digest hash join r) :=
      hc (by simp [hashed,Tree.leaves]) (Or.inr join_mem_hashed) h
    exact ⟨m,by simp [Tree.leaves],by simp [inner,hm]⟩
  | .node l r,.leaf m,hc,h => by
    right; right
    have hm : join (digest hash join l) (digest hash join r) = m :=
      hc (Or.inl join_mem_hashed) (by simp [hashed,Tree.leaves]) h
    exact ⟨m,by simp [Tree.leaves],by simp [inner,hm]⟩
  | .node l r,.node l' r',hc,h => by
    have hj := hc (Or.inl join_mem_hashed) (Or.inr join_mem_hashed) h
    obtain ⟨hl,hr⟩ := hjoin hj
    have ihl := eq_or_leafIsInner_of_digest_eq l l'
      (hc.mono hashed_left_subset hashed_left_subset) hl
    have ihr := eq_or_leafIsInner_of_digest_eq r r'
      (hc.mono hashed_right_subset hashed_right_subset) hr
    have hleft : ∀ {a b a' b' : Tree μ}, LeafIsInner hash join a a' →
        LeafIsInner hash join (.node a b) (.node a' b') := fun hi =>
      hi.mono (List.subset_append_left _ _) inner_left_subset
    have hright : ∀ {a b a' b' : Tree μ}, LeafIsInner hash join b b' →
        LeafIsInner hash join (.node a b) (.node a' b') := fun hi =>
      hi.mono (List.subset_append_right _ _) inner_right_subset
    rcases ihl with rfl | hi | hi
    · rcases ihr with rfl | hi | hi
      · exact Or.inl rfl
      · exact Or.inr (Or.inl (hright hi))
      · exact Or.inr (Or.inr (hright hi))
    · exact Or.inr (Or.inl (hleft hi))
    · exact Or.inr (Or.inr (hleft hi))

/-- Trees of one shape cannot take a leaf for an inner node. -/
theorem eq_of_digest_eq_of_shape_eq : ∀ t u : Tree μ, CollisionFree hash join t u →
    t.shape = u.shape → digest hash join t = digest hash join u → t = u
  | .leaf m,.leaf m',hc,_,h => by
    have hm : m = m' := hc (by simp [hashed,Tree.leaves]) (by simp [hashed,Tree.leaves]) h
    rw [hm]
  | .leaf _,.node _ _,_,hs,_ => by simp [Tree.map] at hs
  | .node _ _,.leaf _,_,hs,_ => by simp [Tree.map] at hs
  | .node l r,.node l' r',hc,hs,h => by
    have hj := hc (Or.inl join_mem_hashed) (Or.inr join_mem_hashed) h
    obtain ⟨hl,hr⟩ := hjoin hj
    have hs' : l.shape = l'.shape ∧ r.shape = r'.shape := by simpa [Tree.map] using hs
    rw [eq_of_digest_eq_of_shape_eq l l' (hc.mono hashed_left_subset hashed_left_subset) hs'.1 hl,
      eq_of_digest_eq_of_shape_eq r r' (hc.mono hashed_right_subset hashed_right_subset) hs'.2 hr]

end Digest

end HashTree
