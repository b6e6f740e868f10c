import Gozara.Library.Transition

/-!
# A queue with one customer in service

Customers are served one at a time in the order of their arrival. The customers served,
the one in service and those waiting are together the customers that arrived, in order,
and nobody waits while nobody is served.
-/
namespace ServiceQueue

variable {α : Type*}

structure State (α : Type*) where
  served : List α
  serving : Option α
  waiting : List α

inductive Event (α : Type*)
  | arrive (a : α)
  | finish

def empty : State α := ⟨[],none,[]⟩

/-- If nobody is in service, the first customer waiting is next. -/
def promote (q : State α) : State α :=
  match q.serving with
  | some _ => q
  | none => ⟨q.served,q.waiting.head?,q.waiting.tail⟩

def step (q : State α) : Event α → Option (State α)
  | .arrive a => some (promote ⟨q.served,q.serving,q.waiting ++ [a]⟩)
  | .finish => q.serving.map fun a => promote ⟨q.served ++ [a],none,q.waiting⟩

/-- Everybody who arrived, in the order of service. -/
def customers (q : State α) : List α := q.served ++ q.serving.toList ++ q.waiting

def Busy (q : State α) : Prop := q.serving = none → q.waiting = []

def Event.arrival : Event α → Option α
  | .arrive a => some a
  | .finish => none

@[simp] theorem customers_promote (q : State α) : customers (promote q) = customers q := by
  obtain ⟨served,serving,waiting⟩ := q
  cases serving with
  | some a => rfl
  | none => cases waiting <;> simp [promote,customers]

theorem busy_promote (q : State α) : Busy (promote q) := by
  obtain ⟨served,serving,waiting⟩ := q
  cases serving with
  | some a => exact fun h => by cases h
  | none => cases waiting <;> simp [promote,Busy]

/-- One event adds its arrival at the end and loses nobody. -/
theorem customers_step {q q' : State α} {e : Event α} (h : step q e = some q') :
    customers q' = customers q ++ e.arrival.toList := by
  cases e with
  | arrive a =>
    cases h
    rw [customers_promote]
    simp [customers,Event.arrival]
  | finish =>
    obtain ⟨a,ha,rfl⟩ := Option.map_eq_some_iff.mp h
    rw [customers_promote]
    simp [customers,Event.arrival,ha]

theorem busy_step {q q' : State α} {e : Event α} (h : step q e = some q') : Busy q' := by
  cases e with
  | arrive a =>
    cases h
    exact busy_promote _
  | finish =>
    obtain ⟨a,-,rfl⟩ := Option.map_eq_some_iff.mp h
    exact busy_promote _

theorem customers_run {q q' : State α} {es : List (Event α)}
    (h : Transition.run step q es = some q') :
    customers q' = customers q ++ es.filterMap Event.arrival := by
  induction es generalizing q with
  | nil =>
    cases h
    simp
  | cons e es ih =>
    obtain ⟨r,hr,hrest⟩ := Transition.run_cons_eq_some.mp h
    rw [ih hrest,customers_step hr,List.append_assoc]
    cases e <;> simp [Event.arrival,List.filterMap_cons]

theorem busy_run {q q' : State α} {es : List (Event α)}
    (h : Transition.run step q es = some q') (hq : Busy q) : Busy q' :=
  Transition.run_preserves (fun _ _ _ hs _ => busy_step hs) h hq

/-- The customers served are the first ones that arrived, in that order. -/
theorem served_prefix_customers (q : State α) : q.served <+: customers q :=
  ⟨q.serving.toList ++ q.waiting,by simp [customers]⟩

end ServiceQueue
