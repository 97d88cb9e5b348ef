/-
**Linked sequences in a heap of nodes.**

A heap is a partial function from addresses to nodes. Two shapes are described by a predicate that
relates the pointers to the sequence of cells they spell out:

* `Chain next head addrs` — a singly linked chain from `head`, ending in a null link;
* `Seg heap before first cells last after` — a doubly linked segment, entered from `before` and
  left towards `after`; `Queue heap head tail cells` is the whole list, null on both ends.

Each predicate depends only on the addresses it names (`Chain.congr`, `Seg.congr`), so a write
elsewhere keeps it. The rest of the file says what the writes of the usual list operations do:
`Queue.pushBack`, `Queue.unlink`, `Queue.popFront`, and a change of a node's value in place
(`Seg.setVal`). A write through a link (`writePrev`, `writeNext`) does nothing at a null link; that
is the case where the operation moves the list's own head or tail pointer instead.
-/

import Mathlib.Data.List.Nodup
import Mathlib.Logic.Function.Basic

namespace Links

/-! ### Singly linked chains -/

section Chain

variable {P : Type*} {next next' : P → Option (Option P)}

/-- The addresses of a chain: each links to the one after it, the last to null. -/
inductive Chain (next : P → Option (Option P)) : Option P → List P → Prop
  | nil : Chain next none []
  | cons {addr : P} {link : Option P} {addrs : List P} :
      next addr = some link → Chain next link addrs → Chain next (some addr) (addr :: addrs)

theorem Chain.congr {head : Option P} {addrs : List P} (chain : Chain next head addrs)
    (same : ∀ addr ∈ addrs, next' addr = next addr) : Chain next' head addrs := by
  induction chain with
  | nil => exact .nil
  | cons here _ ih =>
    refine .cons ((same _ List.mem_cons_self).trans here) (ih fun addr member => ?_)
    exact same addr (List.mem_cons_of_mem _ member)

theorem Chain.head_eq {head : Option P} {addr : P} {addrs : List P}
    (chain : Chain next head (addr :: addrs)) : head = some addr := by
  cases chain
  rfl

theorem Chain.link_of_mem {head : Option P} {addrs : List P} (chain : Chain next head addrs) :
    ∀ addr ∈ addrs, ∃ link, next addr = some link := by
  induction chain with
  | nil => exact List.forall_mem_nil _
  | cons here _ ih => exact List.forall_mem_cons.mpr ⟨⟨_, here⟩, ih⟩

theorem Chain.nil_iff {head : Option P} {addrs : List P} (chain : Chain next head addrs) :
    head = none ↔ addrs = [] := by
  cases chain with
  | nil => exact ⟨fun _ => rfl, fun _ => rfl⟩
  | cons _ _ => exact iff_of_false (Option.some_ne_none _) (List.cons_ne_nil _ _)

end Chain

/-! ### Doubly linked segments -/

/-- A cell of a list: the address of a node and the value it carries. -/
structure Cell (P V : Type*) where
  addr : P
  val : V
  deriving DecidableEq

/-- A node type whose values carry a payload and two links that can be rewritten. -/
class LinkedNode (N : Type*) (P V : outParam (Type*)) where
  val : N → V
  prev : N → Option P
  next : N → Option P
  setPrev : Option P → N → N
  setNext : Option P → N → N
  val_setPrev : ∀ link node, val (setPrev link node) = val node
  prev_setPrev : ∀ link node, prev (setPrev link node) = link
  next_setPrev : ∀ link node, next (setPrev link node) = next node
  val_setNext : ∀ link node, val (setNext link node) = val node
  prev_setNext : ∀ link node, prev (setNext link node) = prev node
  next_setNext : ∀ link node, next (setNext link node) = link

attribute [simp] LinkedNode.val_setPrev LinkedNode.prev_setPrev LinkedNode.next_setPrev
  LinkedNode.val_setNext LinkedNode.prev_setNext LinkedNode.next_setNext

open LinkedNode

section Seg

variable {P V N : Type*} [LinkedNode N P V] {heap heap' : P → Option N}

/-- A doubly linked segment. -/
inductive Seg (heap : P → Option N) :
    Option P → Option P → List (Cell P V) → Option P → Option P → Prop
  | nil {before after : Option P} : Seg heap before after [] before after
  | cons {before last after : Option P} {cell : Cell P V} {cells : List (Cell P V)} {node : N} :
      heap cell.addr = some node → val node = cell.val → prev node = before →
      Seg heap (some cell.addr) (next node) cells last after →
      Seg heap before (some cell.addr) (cell :: cells) last after

/-- A whole list: null links on both ends. -/
def Queue (heap : P → Option N) (head tail : Option P) (cells : List (Cell P V)) : Prop :=
  Seg heap none head cells tail none

theorem Seg.congr {before first last after : Option P} {cells : List (Cell P V)}
    (seg : Seg heap before first cells last after)
    (same : ∀ cell ∈ cells, heap' cell.addr = heap cell.addr) :
    Seg heap' before first cells last after := by
  induction seg with
  | nil => exact .nil
  | cons here value back _ ih =>
    refine .cons ((same _ List.mem_cons_self).trans here) value back (ih fun cell member => ?_)
    exact same cell (List.mem_cons_of_mem _ member)

/-- Every cell of a segment is a node with the cell's value. -/
theorem Seg.node {before first last after : Option P} {cells : List (Cell P V)}
    (seg : Seg heap before first cells last after) :
    ∀ cell ∈ cells, ∃ node, heap cell.addr = some node ∧ val node = cell.val := by
  induction seg with
  | nil => exact fun _ member => by cases member
  | cons here value _ _ ih =>
    intro cell member
    rcases List.mem_cons.mp member with rfl | member
    · exact ⟨_, here, value⟩
    · exact ih cell member

theorem Seg.append {before first middle link last after : Option P} {xs ys : List (Cell P V)}
    (left : Seg heap before first xs middle link) (right : Seg heap middle link ys last after) :
    Seg heap before first (xs ++ ys) last after := by
  induction left with
  | nil => exact right
  | cons here value back _ ih => exact .cons here value back (ih right)

/-- A segment splits where its cells do. -/
theorem Seg.split {last after : Option P} {xs ys : List (Cell P V)} :
    ∀ {before first : Option P}, Seg heap before first (xs ++ ys) last after →
      ∃ middle link, Seg heap before first xs middle link ∧ Seg heap middle link ys last after := by
  induction xs with
  | nil => exact fun seg => ⟨_, _, .nil, seg⟩
  | cons cell cells ih =>
    intro before first seg
    cases seg with
    | cons here value back rest =>
      obtain ⟨middle, link, left, right⟩ := ih rest
      exact ⟨middle, link, .cons here value back left, right⟩

theorem Seg.first_eq {before first last after : Option P} {cells : List (Cell P V)}
    (seg : Seg heap before first cells last after) :
    first = (cells.head?.map Cell.addr).or after := by
  cases seg with
  | nil => rfl
  | cons _ _ _ _ => rfl

theorem Seg.last_eq {before first last after : Option P} {cells : List (Cell P V)}
    (seg : Seg heap before first cells last after) :
    last = (cells.getLast?.map Cell.addr).or before := by
  induction seg with
  | nil => rfl
  | cons here value back rest ih =>
    rw [ih, List.getLast?_cons]
    cases List.getLast? _ <;> rfl

/-- The first node of a segment. -/
theorem Seg.head {before first last after : Option P} {cell : Cell P V} {cells : List (Cell P V)}
    (seg : Seg heap before first (cell :: cells) last after) :
    ∃ node, first = some cell.addr ∧ heap cell.addr = some node ∧ val node = cell.val ∧
      prev node = before ∧ Seg heap (some cell.addr) (next node) cells last after := by
  cases seg with
  | cons here value back rest => exact ⟨_, rfl, here, value, back, rest⟩

theorem Queue.nil_iff {head tail : Option P} {cells : List (Cell P V)}
    (queue : Queue heap head tail cells) : head = none ↔ cells = [] := by
  rw [queue.first_eq]
  cases cells <;> simp

/-- The last and first addresses of a segment are addresses of its cells. -/
theorem Seg.last_mem {first last after : Option P} {cells : List (Cell P V)}
    (seg : Seg heap none first cells last after) {addr : P} (stop : last = some addr) :
    addr ∈ cells.map Cell.addr := by
  have ends := seg.last_eq
  rw [stop, Option.or_none] at ends
  obtain ⟨cell, found, rfl⟩ := Option.map_eq_some_iff.mp ends.symm
  exact List.mem_map_of_mem (List.mem_of_getLast? found)

theorem Seg.first_mem {before first last : Option P} {cells : List (Cell P V)}
    (seg : Seg heap before first cells last none) {addr : P} (start : first = some addr) :
    addr ∈ cells.map Cell.addr := by
  have begins := seg.first_eq
  rw [start, Option.or_none] at begins
  obtain ⟨cell, found, rfl⟩ := Option.map_eq_some_iff.mp begins.symm
  exact List.mem_map_of_mem (List.mem_of_head? found)

/-- The neighbours of a cell of a list, as its node names them. -/
theorem Queue.around {head tail : Option P} {xs ys : List (Cell P V)} {cell : Cell P V}
    (queue : Queue heap head tail (xs ++ cell :: ys)) :
    ∃ node, heap cell.addr = some node ∧ val node = cell.val ∧
      Seg heap none head xs (prev node) (some cell.addr) ∧
      Seg heap (some cell.addr) (next node) ys tail none := by
  obtain ⟨middle, link, left, right⟩ := Seg.split queue
  obtain ⟨node, rfl, here, value, rfl, rest⟩ := right.head
  exact ⟨node, here, value, left, rest⟩

variable [DecidableEq P]

theorem Seg.update_of_notMem {before first last after : Option P} {cells : List (Cell P V)}
    (seg : Seg heap before first cells last after) {addr : P} (outside : addr ∉ cells.map Cell.addr)
    (node : Option N) : Seg (Function.update heap addr node) before first cells last after := by
  refine seg.congr fun cell member => Function.update_of_ne ?_ _ _
  rintro rfl
  exact outside (List.mem_map_of_mem member)

/-! ### Writes to one node -/

/-- A change of the value of one node, its links kept. -/
theorem Seg.setVal {before first last after : Option P} {xs ys : List (Cell P V)} {cell : Cell P V}
    (seg : Seg heap before first (xs ++ cell :: ys) last after)
    (distinct : ((xs ++ cell :: ys).map Cell.addr).Nodup) {node node' : N}
    (here : heap cell.addr = some node) (back : prev node' = prev node)
    (fore : next node' = next node) :
    Seg (Function.update heap cell.addr (some node')) before first
      (xs ++ ⟨cell.addr, val node'⟩ :: ys) last after := by
  obtain ⟨middle, link, left, right⟩ := seg.split
  obtain ⟨found, rfl, here', _, back', rest⟩ := right.head
  rw [here] at here'
  cases here'
  rw [List.map_append, List.map_cons] at distinct
  have apart := List.nodup_middle.mp distinct
  rw [List.nodup_cons, List.mem_append, not_or] at apart
  have changed : Seg (Function.update heap cell.addr (some node')) middle (some cell.addr)
      (⟨cell.addr, val node'⟩ :: ys) last after := by
    have written : Function.update heap cell.addr (some node')
        (Cell.mk cell.addr (val node')).addr = some node' := Function.update_self _ _ _
    refine .cons written rfl (back.trans back') ?_
    rw [fore]
    exact rest.update_of_notMem apart.1.2 _
  exact (left.update_of_notMem apart.1.1 _).append changed

/-- The node behind a link, its `prev` rewritten. -/
def writePrev (heap : P → Option N) : Option P → Option P → P → Option N
  | none, _ => heap
  | some addr, link => Function.update heap addr ((heap addr).map (setPrev link))

/-- The node behind a link, its `next` rewritten. -/
def writeNext (heap : P → Option N) : Option P → Option P → P → Option N
  | none, _ => heap
  | some addr, link => Function.update heap addr ((heap addr).map (setNext link))

theorem writePrev_of_ne (heap : P → Option N) {target link : Option P} {addr : P}
    (other : target ≠ some addr) : writePrev heap target link addr = heap addr := by
  cases target with
  | none => rfl
  | some there => exact Function.update_of_ne (fun same => other (by rw [same])) _ _

theorem writeNext_of_ne (heap : P → Option N) {target link : Option P} {addr : P}
    (other : target ≠ some addr) : writeNext heap target link addr = heap addr := by
  cases target with
  | none => rfl
  | some there => exact Function.update_of_ne (fun same => other (by rw [same])) _ _

/-- The link into a segment is rewritten: at its first node, or at the tail pointer when there is
no first node. -/
theorem Seg.relinkPrev {before first last : Option P} {cells : List (Cell P V)}
    (seg : Seg heap before first cells last none) (distinct : (cells.map Cell.addr).Nodup)
    (before' : Option P) :
    Seg (writePrev heap first before') before' first cells
      (if first = none then before' else last) none := by
  cases seg with
  | nil => exact .nil
  | @cons _ _ _ cell cells node here value _ rest =>
    have written : writePrev heap (some cell.addr) before' cell.addr =
        some (setPrev before' node) := by
      rw [writePrev, Function.update_self, here]
      rfl
    refine .cons written (by rw [val_setPrev, value]) (prev_setPrev _ _) ?_
    rw [next_setPrev, if_neg (Option.some_ne_none _)]
    exact rest.update_of_notMem (List.nodup_cons.mp distinct).1 _

/-- The link out of a segment that starts a list is rewritten: at its last node, or at the head
pointer when there is no last node. -/
theorem Seg.relinkNext {first last after : Option P} {cells : List (Cell P V)}
    (seg : Seg heap none first cells last after) (distinct : (cells.map Cell.addr).Nodup)
    (after' : Option P) :
    Seg (writeNext heap last after') none (if last = none then after' else first) cells last
      after' := by
  rcases List.eq_nil_or_concat' cells with rfl | ⟨init, cell, rfl⟩
  · cases seg with
    | nil => exact .nil
  · obtain ⟨middle, link, left, right⟩ := seg.split
    obtain ⟨node, rfl, here, value, back, rest⟩ := right.head
    have stop : last = some cell.addr := rest.last_eq
    have outside : cell.addr ∉ init.map Cell.addr := by
      rw [List.map_append, List.nodup_append] at distinct
      exact fun member => distinct.2.2 _ member _ (by simp) rfl
    have written : writeNext heap (some cell.addr) after' cell.addr =
        some (setNext after' node) := by
      rw [writeNext, Function.update_self, here]
      rfl
    rw [stop, if_neg (Option.some_ne_none _)]
    refine (left.update_of_notMem outside _).append (.cons written (by rw [val_setNext, value])
      (by rw [prev_setNext, back]) ?_)
    rw [next_setNext]
    exact .nil

/-! ### The list operations -/

/-- Append at the tail: the new node points back at the old tail, the old tail at it. -/
theorem Queue.pushBack {head tail : Option P} {cells : List (Cell P V)}
    (queue : Queue heap head tail cells) (distinct : (cells.map Cell.addr).Nodup) {cell : Cell P V}
    (fresh : cell.addr ∉ cells.map Cell.addr) {node : N} (value : val node = cell.val)
    (back : prev node = tail) (fore : next node = none) :
    Queue (writeNext (Function.update heap cell.addr (some node)) tail (some cell.addr))
      (if tail = none then some cell.addr else head) (some cell.addr) (cells ++ [cell]) := by
  have front := Seg.relinkNext (queue.update_of_notMem fresh (some node)) distinct
    (some cell.addr)
  have elsewhere : tail ≠ some cell.addr := fun same => fresh (queue.last_mem same)
  have written :
    writeNext (Function.update heap cell.addr (some node)) tail (some cell.addr) cell.addr =
      some node := (writeNext_of_ne _ elsewhere).trans (Function.update_self _ _ _)
  refine Seg.append front (.cons written value back ?_)
  rw [fore]
  exact .nil

/-- Removal from any place: the neighbours are linked to each other, the head or tail pointer is
moved where there is no neighbour. -/
theorem Queue.unlink {head tail : Option P} {xs ys : List (Cell P V)} {cell : Cell P V}
    (queue : Queue heap head tail (xs ++ cell :: ys))
    (distinct : ((xs ++ cell :: ys).map Cell.addr).Nodup) {node : N}
    (here : heap cell.addr = some node) :
    Queue (writePrev (writeNext heap (prev node) (next node)) (next node) (prev node))
      (if prev node = none then next node else head) (if next node = none then prev node else tail)
      (xs ++ ys) := by
  obtain ⟨found, here', _, left, right⟩ := queue.around
  rw [here] at here'
  cases here'
  rw [List.map_append, List.map_cons, List.nodup_middle, List.nodup_cons,
    List.nodup_append] at distinct
  obtain ⟨_, distinctLeft, distinctRight, apart⟩ := distinct
  have left' := left.relinkNext distinctLeft (next node)
  have right' : Seg (writeNext heap (prev node) (next node)) (some cell.addr) (next node) ys tail
      none := right.congr fun other member => writeNext_of_ne heap fun same =>
    apart _ (left.last_mem same) _ (List.mem_map_of_mem member) rfl
  refine Seg.append (left'.congr fun other member => writePrev_of_ne _ fun same => ?_)
    (right'.relinkPrev distinctRight (prev node))
  exact apart _ (List.mem_map_of_mem member) _ (right'.first_mem same) rfl

/-- Removal of the head. -/
theorem Queue.popFront {head tail : Option P} {cells : List (Cell P V)} {cell : Cell P V}
    (queue : Queue heap head tail (cell :: cells))
    (distinct : ((cell :: cells).map Cell.addr).Nodup) {node : N}
    (here : heap cell.addr = some node) :
    Queue (writePrev heap (next node) none) (next node) (if next node = none then none else tail)
      cells := by
  obtain ⟨found, _, here', _, _, rest⟩ := Seg.head queue
  rw [here] at here'
  cases here'
  exact rest.relinkPrev (List.nodup_cons.mp distinct).2 none

end Seg

end Links
