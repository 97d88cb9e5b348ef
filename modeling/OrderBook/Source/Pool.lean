/-
**The object pool.**

`pool_allocator.hpp`: a fixed vector of slots. A slot is a union, so it holds either an object or
the link to the next free slot, never both; a released slot is pushed on the free list and its
object is gone. Following a pointer to a slot that holds no object is a fault.

`read` and `link` are the two views of the storage that the queues and the free list are stated
over; each write is described once, by its effect on both (`read_write`, `link_write`).
-/

import OrderBook.Source.Types

namespace Ob

inductive Slot (T : Type)
  | storage (value : T)
  | nextFree (next : Option Ptr)
  deriving DecidableEq, Repr

structure ObjectPool (T : Type) where
  storage : List (Slot T)
  freeHead : Option Ptr
  deriving DecidableEq, Repr

namespace ObjectPool

variable {T : Type}

/-- The constructor: every slot is free and linked to the one after it. -/
def new (capacity : Nat) : ObjectPool T where
  storage := (List.range capacity).map fun i =>
    .nextFree (if i + 1 < capacity then some (i + 1) else none)
  freeHead := some 0

def capacity (pool : ObjectPool T) : Nat := pool.storage.length

/-- The object in a slot, if it holds one. -/
def read (pool : ObjectPool T) (p : Ptr) : Option T :=
  match pool.storage[p]? with
  | some (.storage value) => some value
  | _ => none

/-- The free-list link in a slot, if it holds one. -/
def link (pool : ObjectPool T) (p : Ptr) : Option (Option Ptr) :=
  match pool.storage[p]? with
  | some (.nextFree next) => some next
  | _ => none

/-- The object a pointer points to. -/
def deref (pool : ObjectPool T) (p : Ptr) : Mem T :=
  match pool.read p with
  | some value => .ok value
  | none => .error .danglingPointer

def write (pool : ObjectPool T) (p : Ptr) (slot : Slot T) : ObjectPool T :=
  { pool with storage := pool.storage.set p slot }

/-- A write through a pointer to an object. -/
def modify (pool : ObjectPool T) (p : Ptr) (change : T → T) : Mem (ObjectPool T) := do
  let value ← pool.deref p
  return pool.write p (.storage (change value))

/-- `acquire`: the head of the free list, now holding `value`; null when the list is empty. -/
def acquire (pool : ObjectPool T) (value : T) : Mem (Option Ptr × ObjectPool T) :=
  match pool.freeHead with
  | none => .ok (none, pool)
  | some s =>
    match pool.link s with
    | some next => .ok (some s, { pool.write s (.storage value) with freeHead := next })
    | none => .error .danglingPointer

/-- `release`: the object is destroyed and its slot becomes the head of the free list. -/
def release (pool : ObjectPool T) (p : Ptr) : Mem (ObjectPool T) := do
  let _ ← pool.deref p
  return { pool.write p (.nextFree pool.freeHead) with freeHead := some p }

/-! ### What the operations do to the two views -/

theorem deref_eq {pool : ObjectPool T} {p : Ptr} {value : T} (here : pool.read p = some value) :
    pool.deref p = .ok value := by
  rw [deref, here]

theorem lt_of_read {pool : ObjectPool T} {p : Ptr} {value : T} (here : pool.read p = some value) :
    p < pool.storage.length := by
  by_contra outside
  rw [read, List.getElem?_eq_none (Nat.le_of_not_lt outside)] at here
  cases here

theorem lt_of_link {pool : ObjectPool T} {p : Ptr} {next : Option Ptr}
    (here : pool.link p = some next) : p < pool.storage.length := by
  by_contra outside
  rw [link, List.getElem?_eq_none (Nat.le_of_not_lt outside)] at here
  cases here

@[simp] theorem write_capacity (pool : ObjectPool T) (p : Ptr) (slot : Slot T) :
    (pool.write p slot).storage.length = pool.storage.length := List.length_set

theorem read_write {pool : ObjectPool T} {p : Ptr} (inside : p < pool.storage.length) (value : T) :
    (pool.write p (.storage value)).read = Function.update pool.read p (some value) := by
  funext q
  by_cases same : q = p
  · subst same
    simp [read, write, inside]
  · rw [Function.update_of_ne same, read, read, write, List.getElem?_set_ne (Ne.symm same)]

theorem link_write {pool : ObjectPool T} {p : Ptr} (inside : p < pool.storage.length) (value : T) :
    (pool.write p (.storage value)).link = Function.update pool.link p none := by
  funext q
  by_cases same : q = p
  · subst same
    simp [link, write, inside]
  · rw [Function.update_of_ne same, link, link, write, List.getElem?_set_ne (Ne.symm same)]

theorem read_free {pool : ObjectPool T} {p : Ptr} (inside : p < pool.storage.length)
    (next : Option Ptr) :
    (pool.write p (.nextFree next)).read = Function.update pool.read p none := by
  funext q
  by_cases same : q = p
  · subst same
    simp [read, write, inside]
  · rw [Function.update_of_ne same, read, read, write, List.getElem?_set_ne (Ne.symm same)]

theorem link_free {pool : ObjectPool T} {p : Ptr} (inside : p < pool.storage.length)
    (next : Option Ptr) :
    (pool.write p (.nextFree next)).link = Function.update pool.link p (some next) := by
  funext q
  by_cases same : q = p
  · subst same
    simp [link, write, inside]
  · rw [Function.update_of_ne same, link, link, write, List.getElem?_set_ne (Ne.symm same)]

/-- A slot does not hold an object and a link at once. -/
theorem link_of_read {pool : ObjectPool T} {p : Ptr} {value : T}
    (here : pool.read p = some value) : pool.link p = none := by
  unfold read at here
  unfold link
  split at here
  · rename_i found
    rw [found]
  · cases here

theorem modify_eq {pool : ObjectPool T} {p : Ptr} {value : T} (here : pool.read p = some value)
    (change : T → T) :
    pool.modify p change = .ok (pool.write p (.storage (change value))) := by
  rw [modify, deref_eq here]
  rfl

/-- A write to an object keeps every link. -/
theorem link_modify {pool : ObjectPool T} {p : Ptr} {value : T} (here : pool.read p = some value)
    (value' : T) : (pool.write p (.storage value')).link = pool.link := by
  rw [link_write (lt_of_read here)]
  exact Function.update_eq_self_iff.mpr (link_of_read here).symm

theorem release_eq {pool : ObjectPool T} {p : Ptr} {value : T} (here : pool.read p = some value) :
    pool.release p = .ok { pool.write p (.nextFree pool.freeHead) with freeHead := some p } := by
  rw [release, deref_eq here]
  rfl

theorem acquire_none {pool : ObjectPool T} (empty : pool.freeHead = none) (value : T) :
    pool.acquire value = .ok (none, pool) := by
  rw [acquire, empty]

theorem acquire_some {pool : ObjectPool T} {s : Ptr} {next : Option Ptr}
    (head : pool.freeHead = some s) (here : pool.link s = some next) (value : T) :
    pool.acquire value =
      .ok (some s, { pool.write s (.storage value) with freeHead := next }) := by
  rw [acquire, head]
  simp only [here]

/-- The free list of a new pool is every slot in order. -/
theorem new_chain {capacity : Nat} (positive : 0 < capacity) :
    Links.Chain (new (T := T) capacity).link (some 0) (List.range capacity) := by
  have linked : ∀ i < capacity, (new (T := T) capacity).link i =
      some (if i + 1 < capacity then some (i + 1) else none) := by
    intro i inside
    simp [new, link, inside]
  have from_ : ∀ count first, first + count = capacity → 0 < count →
      Links.Chain (new (T := T) capacity).link (some first) (List.range' first count) := by
    intro count
    induction count with
    | zero => exact fun _ _ none => absurd none (Nat.lt_irrefl 0)
    | succ count ih =>
      intro first total _
      rw [List.range'_succ]
      refine .cons (linked first (by omega)) ?_
      by_cases more : 0 < count
      · rw [if_pos (by omega)]
        exact ih (first + 1) (by omega) more
      · obtain rfl : count = 0 := by omega
        rw [if_neg (by omega)]
        exact .nil
  rw [List.range_eq_range']
  exact from_ capacity 0 (Nat.zero_add _) positive

end ObjectPool

end Ob
