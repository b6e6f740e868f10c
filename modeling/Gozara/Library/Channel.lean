import Mathlib.Tactic.Common
import Mathlib.Data.Nat.Notation

/-!
# Bounded channels

`trySend` enqueues at once or not at all. `send` makes a future that enqueues when it is
polled while there is room; a future that is dropped before leaves the channel as it was.
-/

structure Channel (α : Type*) where
  capacity : ℕ
  queue : List α
  isOpen : Bool

namespace Channel

variable {α : Type*}

/-- A send that waits to be polled. -/
structure SendFuture (α : Type*) where
  value : α

def new (capacity : ℕ) : Channel α := ⟨capacity,[],true⟩

def push (c : Channel α) (a : α) : Channel α := { c with queue := c.queue ++ [a] }

/-- The error of a full or closed channel is ignored. -/
def trySend (c : Channel α) (a : α) : Channel α :=
  if c.isOpen = true ∧ c.queue.length < c.capacity then c.push a else c

def send (_ : Channel α) (a : α) : SendFuture α := ⟨a⟩

/-- One poll, `none` while the channel is full. -/
def SendFuture.poll (f : SendFuture α) (c : Channel α) : Option (Channel α) :=
  if c.isOpen = true then
    if c.queue.length < c.capacity then some (c.push f.value) else none
  else some c

def recv (c : Channel α) : Option (α × Channel α) :=
  match c.queue with
  | [] => none
  | a::rest => some (a,{ c with queue := rest })

/-- The receiver is gone, and what it had not received. -/
def close (c : Channel α) : Channel α := { c with queue := [],isOpen := false }

variable {c c' : Channel α} {a : α}

@[simp] theorem queue_push : (c.push a).queue = c.queue ++ [a] := rfl

@[simp] theorem isOpen_trySend : (c.trySend a).isOpen = c.isOpen := by
  unfold trySend
  split_ifs <;> rfl

theorem trySend_eq_push (hopen : c.isOpen = true) (hroom : c.queue.length < c.capacity) :
    c.trySend a = c.push a := if_pos ⟨hopen,hroom⟩

/-- With room, a send that is awaited does what `trySend` does. -/
theorem poll_send (hroom : c.isOpen = true → c.queue.length < c.capacity) :
    (c.send a).poll c = some (c.trySend a) := by
  unfold SendFuture.poll trySend
  by_cases hopen : c.isOpen = true
  · rw [if_pos hopen,if_pos (hroom hopen),if_pos ⟨hopen,hroom hopen⟩]
    rfl
  · rw [if_neg hopen,if_neg fun h => hopen h.1]

/-- A poll enqueues where there is room, and ends at once when the receiver is gone. -/
theorem poll_eq_some {f : SendFuture α} : f.poll c = some c' ↔
    (c.isOpen = true ∧ c.queue.length < c.capacity ∧ c' = c.push f.value) ∨
      c.isOpen ≠ true ∧ c' = c := by
  unfold SendFuture.poll
  split_ifs with hopen hroom
  · simp [hopen,hroom,eq_comm]
  · simp [hopen,hroom]
  · simp [hopen,eq_comm]

theorem recv_eq_some : c.recv = some (a,c') ↔ c.queue = a::c'.queue ∧
    c'.capacity = c.capacity ∧ c'.isOpen = c.isOpen := by
  obtain ⟨capacity,queue,isOpen⟩ := c
  obtain ⟨capacity',queue',isOpen'⟩ := c'
  cases queue with
  | nil => simp [recv]
  | cons b rest =>
    simp only [recv,Option.some.injEq,Prod.mk.injEq,Channel.mk.injEq,List.cons.injEq]
    constructor
    · rintro ⟨rfl,rfl,rfl,rfl⟩
      exact ⟨⟨rfl,rfl⟩,rfl,rfl⟩
    · rintro ⟨⟨rfl,rfl⟩,rfl,rfl⟩
      exact ⟨rfl,rfl,rfl,rfl⟩

end Channel
