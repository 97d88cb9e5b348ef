/-
**The queue operations as writes to the heap.**

`Rewritten pool pool' heap`: `pool'` is `pool` with its objects now as in `heap`, the free list
untouched. Each queue operation of the source returns such a pool, its heap being the one of the
corresponding list operation of `Links`, and moves the ends of its level as that operation says.
-/

import OrderBook.Source.Book

namespace Ob

open Links

namespace ObjectPool

variable {T : Type}

/-- The same slots hold objects, the free list is the same, and the objects are those of `heap`. -/
structure Rewritten (pool pool' : ObjectPool T) (heap : Ptr → Option T) : Prop where
  read : pool'.read = heap
  link : pool'.link = pool.link
  freeHead : pool'.freeHead = pool.freeHead
  capacity : pool'.storage.length = pool.storage.length

theorem Rewritten.refl (pool : ObjectPool T) : Rewritten pool pool pool.read := ⟨rfl, rfl, rfl, rfl⟩

theorem Rewritten.trans {pool pool' pool'' : ObjectPool T} {heap heap' : Ptr → Option T}
    (first : Rewritten pool pool' heap) (second : Rewritten pool' pool'' heap') :
    Rewritten pool pool'' heap' :=
  ⟨second.read, second.link.trans first.link, second.freeHead.trans first.freeHead,
    second.capacity.trans first.capacity⟩

theorem modify_spec {pool : ObjectPool T} {p : Ptr} {value : T} (here : pool.read p = some value)
    (change : T → T) :
    ∃ pool', pool.modify p change = .ok pool' ∧
      Rewritten pool pool' (Function.update pool.read p (some (change value))) :=
  ⟨_, modify_eq here change, read_write (lt_of_read here) _, link_modify here _, rfl,
    write_capacity _ _ _⟩

/-- A released slot heads the free list and holds no object. -/
theorem release_spec {pool : ObjectPool T} {p : Ptr} {value : T} {free : List Ptr}
    (here : pool.read p = some value) (chain : Chain pool.link pool.freeHead free)
    (outside : p ∉ free) :
    ∃ pool', pool.release p = .ok pool' ∧ pool'.read = Function.update pool.read p none ∧
      Chain pool'.link pool'.freeHead (p :: free) := by
  refine ⟨_, release_eq here, read_free (lt_of_read here) _, ?_⟩
  show Chain (pool.write p (.nextFree pool.freeHead)).link (some p) (p :: free)
  rw [link_free (lt_of_read here)]
  refine .cons (Function.update_self _ _ _) (chain.congr fun q member => ?_)
  have different : q ≠ p := fun same => outside (same ▸ member)
  exact Function.update_of_ne different _ _

/-- An acquired slot leaves the free list and holds the new object. -/
theorem acquire_spec {pool : ObjectPool T} {o : Ptr} {free : List Ptr}
    (chain : Chain pool.link pool.freeHead (o :: free)) (fresh : o ∉ free) (value : T) :
    ∃ pool', pool.acquire value = .ok (some o, pool') ∧
      pool'.read = Function.update pool.read o (some value) ∧
      Chain pool'.link pool'.freeHead free := by
  generalize start : pool.freeHead = head at chain
  cases chain with
  | cons here rest =>
    refine ⟨_, acquire_some start here value, read_write (lt_of_link here) value, ?_⟩
    show Chain (pool.write o (.storage value)).link _ free
    rw [link_write (lt_of_link here)]
    refine rest.congr fun q member => ?_
    have different : q ≠ o := fun same => fresh (same ▸ member)
    exact Function.update_of_ne different _ _

end ObjectPool

open ObjectPool

/-- `best->head = maker->next` and the write behind it. -/
theorem dropHead_spec {pool : ObjectPool Order} (lvl : PriceLevel) {maker : Order}
    (live : ∀ h, maker.next = some h → ∃ x, pool.read h = some x) :
    ∃ pool', OrderBook.dropHead pool lvl maker = .ok (pool',
        { lvl with head := maker.next, tail := if maker.next = none then none else lvl.tail }) ∧
      Rewritten pool pool' (writePrev pool.read maker.next none) := by
  unfold OrderBook.dropHead
  cases next : maker.next with
  | none => exact ⟨pool, rfl, .refl pool⟩
  | some h =>
    obtain ⟨x, here⟩ := live h next
    obtain ⟨pool', done, written⟩ := modify_spec here fun y => { y with prev := none }
    refine ⟨pool', ?_, ?_⟩
    · simp only [done, Mem.ok_bind, Mem.pure_eq, reduceCtorEq, if_false]
    · rw [writePrev, here]
      exact written

theorem linkTail_spec {pool : ObjectPool Order} (lvl : PriceLevel) (o : Ptr)
    (live : ∀ t, lvl.tail = some t → ∃ y, pool.read t = some y) :
    ∃ pool', lvl.linkTail pool o = .ok (pool', if lvl.tail = none then some o else lvl.head) ∧
      Rewritten pool pool' (writeNext pool.read lvl.tail (some o)) := by
  unfold PriceLevel.linkTail
  cases tail : lvl.tail with
  | none => exact ⟨pool, rfl, .refl pool⟩
  | some t =>
    obtain ⟨y, there⟩ := live t tail
    obtain ⟨pool', done, written⟩ := modify_spec there fun z => { z with next := some o }
    refine ⟨pool', ?_, ?_⟩
    · simp only [done, Mem.ok_bind, Mem.pure_eq, reduceCtorEq, if_false]
    · rw [writeNext, there]
      exact written

theorem pushBack_spec {pool : ObjectPool Order} (lvl : PriceLevel) {o : Ptr} {x : Order}
    (here : pool.read o = some x) (apart : lvl.tail ≠ some o)
    (live : ∀ t, lvl.tail = some t → ∃ y, pool.read t = some y) :
    ∃ pool', lvl.pushBack pool o = .ok (pool',
        { lvl with
          head := if lvl.tail = none then some o else lvl.head
          tail := some o
          totalQty := lvl.totalQty + x.qty }) ∧
      Rewritten pool pool' (writeNext
        (Function.update pool.read o (some { x with prev := lvl.tail, next := none })) lvl.tail
        (some o)) := by
  obtain ⟨pool₁, done₁, written₁⟩ :=
    modify_spec here fun y => { y with prev := lvl.tail, next := none }
  have live₁ : ∀ t, lvl.tail = some t → ∃ y, pool₁.read t = some y := by
    intro t tail
    obtain ⟨y, there⟩ := live t tail
    refine ⟨y, ?_⟩
    rw [written₁.read, Function.update_of_ne (fun same => apart (tail.trans (by rw [same]))), there]
  obtain ⟨pool₂, done₂, written₂⟩ := linkTail_spec lvl o live₁
  have here₂ : pool₂.read o = some { x with prev := lvl.tail, next := none } := by
    rw [written₂.read, writeNext_of_ne _ apart, written₁.read, Function.update_self]
  refine ⟨pool₂, ?_, written₁.trans ?_⟩
  · unfold PriceLevel.pushBack
    simp only [done₁, done₂, Mem.ok_bind, Mem.pure_eq, deref_eq here₂]
  · rw [← written₁.read]
    exact written₂

theorem bypassPrev_spec {pool : ObjectPool Order} (lvl : PriceLevel) (x : Order)
    (live : ∀ p, x.prev = some p → ∃ y, pool.read p = some y) :
    ∃ pool', lvl.bypassPrev pool x = .ok (pool', if x.prev = none then x.next else lvl.head) ∧
      Rewritten pool pool' (writeNext pool.read x.prev x.next) := by
  unfold PriceLevel.bypassPrev
  cases prev : x.prev with
  | none => exact ⟨pool, rfl, .refl pool⟩
  | some p =>
    obtain ⟨y, there⟩ := live p prev
    obtain ⟨pool', done, written⟩ := modify_spec there fun z => { z with next := x.next }
    refine ⟨pool', ?_, ?_⟩
    · simp only [done, Mem.ok_bind, Mem.pure_eq, reduceCtorEq, if_false]
    · rw [writeNext, there]
      exact written

theorem bypassNext_spec {pool : ObjectPool Order} (lvl : PriceLevel) (x : Order)
    (live : ∀ n, x.next = some n → ∃ y, pool.read n = some y) :
    ∃ pool', lvl.bypassNext pool x = .ok (pool', if x.next = none then x.prev else lvl.tail) ∧
      Rewritten pool pool' (writePrev pool.read x.next x.prev) := by
  unfold PriceLevel.bypassNext
  cases next : x.next with
  | none => exact ⟨pool, rfl, .refl pool⟩
  | some n =>
    obtain ⟨y, there⟩ := live n next
    obtain ⟨pool', done, written⟩ := modify_spec there fun z => { z with prev := x.prev }
    refine ⟨pool', ?_, ?_⟩
    · simp only [done, Mem.ok_bind, Mem.pure_eq, reduceCtorEq, if_false]
    · rw [writePrev, there]
      exact written

/-- A write through a link leaves the set of live nodes as it is. -/
theorem writeNext_live {heap : Ptr → Option Order} {target link : Option Ptr} {p : Ptr} {x : Order}
    (here : heap p = some x) : ∃ y, writeNext heap target link p = some y := by
  cases target with
  | none => exact ⟨x, here⟩
  | some there =>
    by_cases same : p = there
    · subst same
      exact ⟨{ x with next := link }, by rw [writeNext, Function.update_self, here]; rfl⟩
    · exact ⟨x, by rw [writeNext, Function.update_of_ne same, here]⟩

theorem unlink_spec {pool : ObjectPool Order} (lvl : PriceLevel) {o : Ptr} {x : Order}
    (here : pool.read o = some x) (apartPrev : x.prev ≠ some o) (apartNext : x.next ≠ some o)
    (livePrev : ∀ p, x.prev = some p → ∃ y, pool.read p = some y)
    (liveNext : ∀ n, x.next = some n → ∃ y, pool.read n = some y) :
    ∃ pool', lvl.unlink pool o = .ok (pool',
        { lvl with
          head := if x.prev = none then x.next else lvl.head
          tail := if x.next = none then x.prev else lvl.tail
          totalQty := lvl.totalQty - x.qty }) ∧
      Rewritten pool pool' (Function.update
        (writePrev (writeNext pool.read x.prev x.next) x.next x.prev) o
        (some { x with prev := none, next := none })) := by
  obtain ⟨pool₁, done₁, written₁⟩ := bypassPrev_spec lvl x livePrev
  have here₁ : pool₁.read o = some x := by
    rw [written₁.read, writeNext_of_ne _ apartPrev, here]
  have liveNext₁ : ∀ n, x.next = some n → ∃ y, pool₁.read n = some y := by
    intro n next
    obtain ⟨y, there⟩ := liveNext n next
    rw [written₁.read]
    exact writeNext_live there
  obtain ⟨pool₂, done₂, written₂⟩ := bypassNext_spec lvl x liveNext₁
  have here₂ : pool₂.read o = some x := by
    rw [written₂.read, writePrev_of_ne _ apartNext, here₁]
  obtain ⟨pool₃, done₃, written₃⟩ :=
    modify_spec here₂ fun y => { y with prev := none, next := none }
  refine ⟨pool₃, ?_, (written₁.trans written₂).trans ?_⟩
  · unfold PriceLevel.unlink
    simp only [deref_eq here, deref_eq here₁, deref_eq here₂, Mem.ok_bind, done₁, done₂, done₃,
      Mem.pure_eq]
  · rw [← written₁.read, ← written₂.read]
    exact written₃

end Ob
