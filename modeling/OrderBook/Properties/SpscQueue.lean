/-
**The queue between two threads is a bounded first-in first-out queue.**

`Inv` counts what was pushed and popped in natural numbers and says where every counter and every
cached copy stands modulo `2 ^ 64`: the producer's copy of `tail_` is behind it, the consumer's copy
of `head_` between `tail_` and `head_`, and `head_` at most one capacity ahead of the producer's
copy.

* `tryPush_spec`, `tryPop_spec` — one step of either thread keeps this, reads no slot that is being
  written, and reports what a first-in first-out queue may report.
* `run_fifo` — so any interleaving of their steps does.
-/

import OrderBook.Library.Machine
import OrderBook.Source.SpscQueue

namespace Ob

open Ring Fifo

namespace SPSCQueue

variable {α : Type}

/-- A queue of `2 ^ k` slots whose counters start anywhere. -/
def starting (k : Nat) (start : UInt64) : SPSCQueue α where
  mask := Ring.mask k
  head := start
  cachedTail := start
  tail := start
  cachedHead := start
  slots := List.replicate (2 ^ k) .vacant

/-! ### The invariant -/

/-- What the counters stand for: how many values were popped, which are in the queue, and up to
where each thread has seen the other. -/
structure Ghost (α : Type) where
  taken : Nat
  contents : List α
  seenTail : Nat
  seenHead : Nat

def Ghost.pushed (g : Ghost α) : Nat := g.taken + g.contents.length

/-- There is room for one more, as far as the producer has seen. -/
def Ghost.Room (g : Ghost α) (k : Nat) : Prop := g.pushed < g.seenTail + 2 ^ k

/-- What holds at each point of `try_push`: of `head_`, of the room, and of the slot that `head_`
points to. -/
inductive Pushing (head : UInt64) (room : Prop) (slot : Option (Slot α)) : Producer α → Prop
  | idle : Pushing head room slot .idle
  | called (value : α) : Pushing head room slot (.called value)
  | reload (value : α) : Pushing head room slot (.reload value head)
  | write (value : α) (space : room) : Pushing head room slot (.write value head)
  | writing (value : α) (space : room) : Pushing head room slot (.writing value head)
  | publish (value : α) (space : room) (written : slot = some (.holds value)) :
      Pushing head room slot (.publish value head)

theorem Pushing.mono {head : UInt64} {room room' : Prop} {slot slot' : Option (Slot α)}
    {producer : Producer α} (pushing : Pushing head room slot producer) (space : room → room')
    (kept : room → ∀ value, slot = some (.holds value) → slot' = some (.holds value)) :
    Pushing head room' slot' producer := by
  cases pushing with
  | idle => exact .idle
  | called value => exact .called value
  | reload value => exact .reload value
  | write value room => exact .write value (space room)
  | writing value room => exact .writing value (space room)
  | publish value room written => exact .publish value (space room) (kept room value written)

/-- What holds at each point of `try_pop`: of `tail_`, of a value known to wait, and of the first
one. -/
inductive Popping (tail : UInt64) (waiting : Prop) (first : Option α) : Consumer α → Prop
  | idle : Popping tail waiting first .idle
  | called : Popping tail waiting first .called
  | reload : Popping tail waiting first (.reload tail)
  | read (waits : waiting) : Popping tail waiting first (.read tail)
  | publish (waits : waiting) (out : α) (oldest : first = some out) :
      Popping tail waiting first (.publish tail out)

/-- The consumer has moved the oldest value out of its slot, and not yet said so. -/
def Consumer.MovedOut : Consumer α → Prop
  | .publish _ _ => True
  | _ => False

structure Inv (start : UInt64) (k : Nat) (s : State α) (g : Ghost α) : Prop where
  mask : s.queue.mask = Ring.mask k
  size : s.queue.slots.length = 2 ^ k
  head : s.queue.head = count start g.pushed
  tail : s.queue.tail = count start g.taken
  cachedTail : s.queue.cachedTail = count start g.seenTail
  cachedHead : s.queue.cachedHead = count start g.seenHead
  behind : g.seenTail ≤ g.taken
  bounded : g.pushed ≤ g.seenTail + 2 ^ k
  ahead : g.taken ≤ g.seenHead
  seen : g.seenHead ≤ g.pushed
  holds : ∀ i value, g.contents[i]? = some value → i = 0 ∧ s.consumer.MovedOut ∨
    s.queue.slots[s.queue.index (count start (g.taken + i))]? = some (.holds value)
  producer : Pushing s.queue.head (g.Room k) s.queue.slots[s.queue.index s.queue.head]? s.producer
  consumer : Popping s.queue.tail (g.taken < g.seenHead) g.contents.head? s.consumer

section Steps

variable {start : UInt64} {k : Nat} {s : State α} {g : Ghost α}

theorem Inv.starting (k : Nat) (start : UInt64) :
    Inv start k (atRest (starting k start) : State α) ⟨0, [], 0, 0⟩ where
  mask := rfl
  size := List.length_replicate
  head := count_zero.symm
  tail := count_zero.symm
  cachedTail := count_zero.symm
  cachedHead := count_zero.symm
  behind := Nat.le_refl _
  bounded := Nat.zero_le _
  ahead := Nat.le_refl _
  seen := Nat.le_refl _
  holds := fun i value found => by cases found
  producer := .idle
  consumer := .idle

/-- The slots of two counts less than a turn apart. -/
theorem Inv.index_ne (inv : Inv start k s g) (small : k ≤ 63) {a b : Nat} (lt : a < b)
    (near : b - a < 2 ^ k) :
    s.queue.index (count start a) ≠ s.queue.index (count start b) := by
  rw [index, index, inv.mask]
  exact Ring.index_ne (Nat.le_succ_of_le small) lt near

theorem Inv.index_lt (inv : Inv start k s g) (small : k ≤ 63) (counter : UInt64) :
    s.queue.index counter < s.queue.slots.length := by
  rw [index, inv.mask, inv.size]
  exact Ring.index_lt (Nat.le_succ_of_le small) counter

/-- **The producer's test**, on any copy of `tail_` that is not more than a turn behind. -/
theorem full_iff (small : k ≤ 63) {a b : Nat} (le : a ≤ b) (near : b ≤ a + 2 ^ k) :
    count start b + 1 - count start a > UInt64.ofNat (2 ^ k) ↔ ¬b < a + 2 ^ k := by
  have bound : 2 ^ k ≤ 2 ^ 63 := Nat.pow_le_pow_right (by decide) small
  rw [count_succ, gt_iff_lt, UInt64.lt_iff_toNat_lt, count_sub (by omega) (by omega),
    UInt64.toNat_ofNat',
    Nat.mod_eq_of_lt (by omega)]
  omega

/-- A slot that no value waits in is written to. -/
theorem Inv.setSlot (inv : Inv start k s g) (small : k ≤ 63) (room : g.Room k)
    (slot : Slot α) (i : Nat)
    (waits : i < g.contents.length) :
    (s.queue.setSlot s.queue.head slot).slots[s.queue.index (count start (g.taken + i))]? =
      s.queue.slots[s.queue.index (count start (g.taken + i))]? := by
  have behind := inv.behind
  refine List.getElem?_set_ne ?_
  rw [inv.head]
  refine (inv.index_ne small ?_ ?_).symm
  · exact Nat.add_lt_add_left waits _
  · unfold Ghost.Room at room
    simp only [Ghost.pushed] at room ⊢
    omega

/-- The producer writes the slot that `head_` points to. -/
theorem Inv.written (inv : Inv start k s g) (small : k ≤ 63) (room : g.Room k) (slot : Slot α)
    {producer : Producer α}
    (pushing : Pushing s.queue.head (g.Room k)
      (s.queue.setSlot s.queue.head slot).slots[s.queue.index s.queue.head]? producer) :
    Inv start k { s with queue := s.queue.setSlot s.queue.head slot, producer } g := by
  refine { inv with size := ?_, holds := ?_, producer := pushing }
  · exact List.length_set.trans inv.size
  · exact fun i value found => (inv.holds i value found).imp_right
      (inv.setSlot small room slot i (List.getElem?_eq_some_iff.mp found).1).trans

/-- The producer says that a value it has written is there. -/
theorem Inv.published (inv : Inv start k s g) (room : g.Room k) {value : α}
    (written : s.queue.slots[s.queue.index s.queue.head]? = some (.holds value)) :
    Inv start k
      { s with queue := { s.queue with head := s.queue.head + 1 }, producer := .idle }
      { g with contents := g.contents ++ [value] } := by
  have more : ({ g with contents := g.contents ++ [value] } : Ghost α).pushed = g.pushed + 1 := by
    simp [Ghost.pushed, Nat.add_assoc]
  refine { inv with
    head := ?_, bounded := ?_, seen := ?_, holds := ?_, producer := .idle, consumer := ?_ }
  · rw [more, ← count_succ, ← inv.head]
  · exact more.symm ▸ room
  · exact more.symm ▸ Nat.le_succ_of_le inv.seen
  · intro i other found
    rcases Nat.lt_trichotomy i g.contents.length with old | new | beyond
    · rw [List.getElem?_append_left old] at found
      exact inv.holds i other found
    · subst new
      rw [List.getElem?_concat_length] at found
      cases found
      refine .inr ?_
      rw [show count start (g.taken + g.contents.length) = s.queue.head from inv.head.symm]
      exact written
    · rw [List.getElem?_eq_none (by simpa using Nat.succ_le_of_lt beyond)] at found
      cases found
  · obtain ⟨q, producer, consumer⟩ := s
    have popping := inv.consumer
    simp only at popping
    cases popping with
    | idle => exact .idle
    | called => exact .called
    | reload => exact .reload
    | read waits => exact .read waits
    | publish waits out oldest =>
      exact .publish waits out (by rw [List.head?_append, oldest]; rfl)

theorem tryPush_reload {q : SPSCQueue α} {value : α} {head : UInt64} {consumer : Consumer α} :
    tryPush ⟨q, .reload value head, consumer⟩ =
      if head + 1 - q.tail > q.capacity then
        (⟨{ q with cachedTail := q.tail }, .idle, consumer⟩, some .pushFailed)
      else (⟨{ q with cachedTail := q.tail }, .write value head, consumer⟩, none) := rfl

/-- **One step of the producer.** -/
theorem tryPush_spec (small : k ≤ 63) (inv : Inv start k s g) :
    ∃ g', Accepts (2 ^ k) g.contents (tryPush s).2 g'.contents ∧ Inv start k (tryPush s).1 g' := by
  obtain ⟨q, producer, consumer⟩ := s
  have fits := inv.bounded
  have behind := inv.behind
  have tail := inv.tail
  have test : ∀ {seen : Nat}, seen ≤ g.pushed → g.pushed ≤ seen + 2 ^ k →
      (q.head + 1 - count start seen > q.capacity ↔ ¬g.pushed < seen + 2 ^ k) := by
    intro seen le near
    rw [capacity, inv.size, inv.head]
    exact full_iff small le near
  have pushing := inv.producer
  simp only at pushing tail
  cases pushing with
  | idle => exact ⟨g, .quiet _, inv⟩
  | called value =>
    have stale := test (Nat.le_trans behind (Nat.le_add_right _ _)) fits
    rw [← inv.cachedTail] at stale
    by_cases full : q.head + 1 - q.cachedTail > q.capacity
    · simp only [tryPush, if_pos full]
      exact ⟨g, .quiet _, { inv with producer := .reload value }⟩
    · simp only [tryPush, if_neg full]
      exact ⟨g, .quiet _,
        { inv with producer := .write value (Classical.not_not.mp (mt stale.mpr full)) }⟩
  | reload value =>
    have near : g.pushed ≤ g.taken + 2 ^ k := Nat.le_trans fits (Nat.add_le_add_right behind _)
    have fresh := test (Nat.le_add_right _ _) near
    rw [← tail] at fresh
    rw [tryPush_reload]
    by_cases full : q.head + 1 - q.tail > q.capacity
    · rw [if_pos full]
      have length : g.contents.length = 2 ^ k := by
        have := fresh.mp full
        simp only [Ghost.pushed] at this near
        omega
      exact ⟨{ g with seenTail := g.taken }, .pushFailed length,
        { inv with
          cachedTail := tail, behind := Nat.le_refl _, bounded := near, producer := .idle }⟩
    · rw [if_neg full]
      have room : g.pushed < g.taken + 2 ^ k := Classical.not_not.mp (mt fresh.mpr full)
      exact ⟨{ g with seenTail := g.taken }, .quiet _,
        { inv with cachedTail := tail, behind := Nat.le_refl _, bounded := near,
                   producer := .write value room }⟩
  | write value room =>
    exact ⟨g, .quiet _, inv.written small room .beingWritten (.writing value room)⟩
  | writing value room =>
    have written : (q.setSlot q.head (.holds value)).slots[q.index q.head]? = some (.holds value) :=
      List.getElem?_set_self (inv.index_lt small _)
    exact ⟨g, .quiet _, inv.written small room (.holds value) (.publish value room written)⟩
  | publish value room written =>
    have space : g.contents.length < 2 ^ k := by
      simp only [Ghost.Room, Ghost.pushed] at room
      omega
    exact ⟨{ g with contents := g.contents ++ [value] }, .pushed value space,
      inv.published room written⟩

/-- The consumer has moved the oldest value out of its slot. -/
theorem Inv.movedOut (inv : Inv start k s g) (small : k ≤ 63) (waits : g.taken < g.seenHead)
    {value : α} {rest : List α} (shape : g.contents = value :: rest) :
    Inv start k
      { s with
        queue := s.queue.setSlot s.queue.tail .vacant, consumer := .publish s.queue.tail value }
      g := by
  have behind := inv.behind
  have fits := inv.bounded
  simp only [Ghost.pushed] at fits
  have apart : ∀ i, 0 < i → i < 2 ^ k →
      (s.queue.setSlot s.queue.tail .vacant).slots[s.queue.index (count start (g.taken + i))]? =
        s.queue.slots[s.queue.index (count start (g.taken + i))]? := by
    intro i later near
    refine List.getElem?_set_ne ?_
    rw [inv.tail]
    exact inv.index_ne small (by omega) (by omega)
  refine { inv with size := ?_, holds := ?_, producer := ?_, consumer := ?_ }
  · exact List.length_set.trans inv.size
  · intro i other found
    cases i with
    | zero => exact .inl ⟨rfl, trivial⟩
    | succ i =>
      have stays := (inv.holds (i + 1) other found).resolve_left fun out =>
        absurd out.1 (Nat.succ_ne_zero i)
      have inside := (List.getElem?_eq_some_iff.mp found).1
      exact .inr ((apart (i + 1) (Nat.succ_pos i) (by omega)).trans stays)
  · refine inv.producer.mono id fun room other written => ?_
    have beyond := apart g.contents.length (by simp [shape]) (by
      simp only [Ghost.Room, Ghost.pushed] at room
      omega)
    rw [show count start (g.taken + g.contents.length) = s.queue.head from inv.head.symm] at beyond
    exact beyond.trans written
  · exact .publish waits value (by rw [shape]; rfl)

/-- The consumer gives the slot of the oldest value back. -/
theorem Inv.released (inv : Inv start k s g) (waits : g.taken < g.seenHead) {out : α}
    {rest : List α} (shape : g.contents = out :: rest) :
    Inv start k
      { s with queue := { s.queue with tail := s.queue.tail + 1 }, consumer := .idle }
      { g with taken := g.taken + 1, contents := rest } := by
  have same : ({ g with taken := g.taken + 1, contents := rest } : Ghost α).pushed = g.pushed := by
    simp only [Ghost.pushed, shape, List.length_cons]
    omega
  refine { inv with
    head := ?_, tail := ?_, behind := Nat.le_succ_of_le inv.behind, bounded := ?_, ahead := waits,
    seen := ?_, holds := ?_, producer := ?_, consumer := .idle }
  · rw [same]
    exact inv.head
  · rw [← count_succ, ← inv.tail]
  · rw [same]
    exact inv.bounded
  · rw [same]
    exact inv.seen
  · intro i value found
    have next := inv.holds (i + 1) value (by rw [shape]; exact found)
    rw [show g.taken + (i + 1) = g.taken + 1 + i by omega] at next
    exact .inr (next.resolve_left fun moved => absurd moved.1 (Nat.succ_ne_zero i))
  · refine inv.producer.mono ?_ fun _ _ written => written
    intro room
    unfold Ghost.Room
    rw [same]
    exact room

/-- **One step of the consumer.** -/
theorem tryPop_spec (small : k ≤ 63) (inv : Inv start k s g) :
    ∃ s' event g', tryPop s = .ok (s', event) ∧ Accepts (2 ^ k) g.contents event g'.contents ∧
      Inv start k s' g' := by
  obtain ⟨q, producer, consumer⟩ := s
  have tail := inv.tail
  have near : g.pushed < g.taken + 2 ^ 64 := by
    have := inv.bounded
    have := inv.behind
    have : 2 ^ k < 2 ^ 64 := Nat.pow_lt_pow_right (by decide) (Nat.lt_succ_of_le small)
    omega
  have test : ∀ {seen : Nat}, g.taken ≤ seen → seen ≤ g.pushed →
      (q.tail = count start seen ↔ g.taken = seen) := by
    intro seen ahead le
    rw [show q.tail = count start g.taken from tail]
    exact count_inj ahead (by omega)
  have popping := inv.consumer
  simp only at popping tail
  cases popping with
  | idle => exact ⟨_, _, g, rfl, .quiet _, inv⟩
  | called =>
    have stale := test inv.ahead inv.seen
    rw [← inv.cachedHead] at stale
    by_cases empty : q.tail = q.cachedHead
    · exact ⟨_, _, g, if_pos empty, .quiet _, { inv with consumer := .reload }⟩
    · have waits : g.taken < g.seenHead :=
        Nat.lt_of_le_of_ne inv.ahead fun same => empty (stale.mpr same)
      exact ⟨_, _, g, if_neg empty, .quiet _, { inv with consumer := .read waits }⟩
  | reload =>
    have fresh : q.tail = count start g.pushed ↔ g.taken = g.pushed :=
      test (Nat.le_add_right _ _) (Nat.le_refl _)
    rw [← inv.head] at fresh
    by_cases empty : q.tail = q.head
    · have none : g.contents = [] := by
        have all := fresh.mp empty
        simpa [Ghost.pushed] using all
      refine ⟨_, _, { g with seenHead := g.pushed }, if_pos empty, ?_,
        { inv with cachedHead := inv.head, ahead := Nat.le_add_right _ _, seen := Nat.le_refl _,
                   consumer := .idle }⟩
      rw [none]
      exact .popFailed
    · have waits : g.taken < g.pushed :=
        Nat.lt_of_le_of_ne (Nat.le_add_right _ _) fun same => empty (fresh.mpr same)
      exact ⟨_, _, { g with seenHead := g.pushed }, if_neg empty, .quiet _,
        { inv with cachedHead := inv.head, ahead := Nat.le_of_lt waits, seen := Nat.le_refl _,
                   consumer := .read waits }⟩
  | read waits =>
    have some_value : g.contents ≠ [] := by
      intro none
      have := inv.seen
      simp only [Ghost.pushed, none, List.length_nil] at this
      omega
    obtain ⟨value, rest, shape⟩ := List.exists_cons_of_ne_nil some_value
    have here : q.slots[q.index q.tail]? = some (.holds value) := by
      have oldest := inv.holds 0 value (by rw [shape]; rfl)
      rw [Nat.add_zero, ← tail] at oldest
      exact oldest.resolve_left fun out => out.2
    refine ⟨_, none, g, ?_, .quiet _, inv.movedOut small waits shape⟩
    simp only [tryPop, here]
  | publish waits out oldest =>
    obtain ⟨rest, shape⟩ : ∃ rest, g.contents = out :: rest := List.head?_eq_some_iff.mp oldest
    refine ⟨_, _, _, rfl, ?_, inv.released waits shape⟩
    rw [shape]
    exact .popped out rest

/-- **One step of either thread.** -/
theorem step_spec (small : k ≤ 63) (inv : Inv start k s g) (action : Action α) :
    ∃ s' event g', step s action = .ok (s', event) ∧ Accepts (2 ^ k) g.contents event g'.contents ∧
      Inv start k s' g' := by
  cases action with
  | push value =>
    obtain ⟨q, producer, consumer⟩ := s
    cases producer with
    | idle => exact ⟨_, _, g, rfl, .quiet _, { inv with producer := .called value }⟩
    | called | reload | write | writing | publish => exact ⟨_, none, g, rfl, .quiet _, inv⟩
  | producer =>
    obtain ⟨g', accepts, inv'⟩ := tryPush_spec small inv
    exact ⟨_, _, g', rfl, accepts, inv'⟩
  | pop =>
    obtain ⟨q, producer, consumer⟩ := s
    cases consumer with
    | idle => exact ⟨_, _, g, rfl, .quiet _, { inv with consumer := .called, holds := inv.holds }⟩
    | called | reload | read | publish => exact ⟨_, none, g, rfl, .quiet _, inv⟩
  | consumer => exact tryPop_spec small inv

/-! ### What the invariant says about the slots -/

theorem Inv.slotOf_eq (inv : Inv start k s g) (i : Nat) :
    slotOf s i = s.queue.index (count start (g.taken + i)) := by
  rw [slotOf, inv.tail, ← count_add]
  rfl

/-- A value in the queue is in its slot, or is the oldest one, which the consumer has moved out. -/
theorem Inv.waits (inv : Inv start k s g)
    (i : Nat) {value : α} (found : g.contents[i]? = some value) :
    i = 0 ∧ s.consumer.MovedOut ∨ s.queue.slots[slotOf s i]? = some (.holds value) := by
  rw [inv.slotOf_eq]
  exact inv.holds i value found

/-- The producer does not write where a value waits. -/
theorem Inv.writes_apart (inv : Inv start k s g)
    (small : k ≤ 63) {p : Nat} (written : writes s = some p)
    {i : Nat} (waits : i < g.contents.length) : slotOf s i ≠ p := by
  have next : g.Room k ∧ s.queue.index s.queue.head = p := by
    obtain ⟨q, producer, consumer⟩ := s
    have pushing := inv.producer
    simp only at pushing
    cases pushing with
    | idle | called | reload | publish => cases written
    | write value room | writing value room => exact ⟨room, Option.some.inj written⟩
  obtain ⟨room, rfl⟩ := next
  have behind := inv.behind
  rw [inv.slotOf_eq, inv.head]
  simp only [Ghost.Room, Ghost.pushed] at room ⊢
  exact inv.index_ne small (by omega) (by omega)

/-- The consumer reads the slot of the oldest value, which is there. -/
theorem Inv.reads_oldest (inv : Inv start k s g) {p : Nat} (read : reads s = some p) :
    p = slotOf s 0 ∧ ∃ value, g.contents.head? = some value ∧
      s.queue.slots[p]? = some (.holds value) := by
  have ahead := inv.seen
  obtain ⟨q, producer, consumer⟩ := s
  have popping := inv.consumer
  simp only at popping
  cases popping with
  | idle | called | reload | publish => cases read
  | read waits =>
    cases read
    have here : q.index q.tail = slotOf ⟨q, producer, .read q.tail⟩ 0 :=
      congrArg q.index (UInt64.add_zero q.tail).symm
    obtain ⟨value, rest, shape⟩ := List.exists_cons_of_ne_nil (l := g.contents) fun none => by
      simp only [Ghost.pushed, none, List.length_nil] at ahead
      omega
    have first : g.contents[0]? = some value := by
      rw [shape]
      rfl
    have oldest := inv.waits 0 first
    rw [← here] at oldest
    exact ⟨here, value, by rw [shape]; rfl, oldest.resolve_left fun out => out.2⟩

theorem Inv.valueAt (inv : Inv start k s g) {i : Nat} {value : α}
    (found : g.contents[i]? = some value) : valueAt s i = some value := by
  have waits := inv.waits i found
  obtain ⟨q, producer, consumer⟩ := s
  have popping := inv.consumer
  simp only at popping
  cases popping with
  | publish _ out oldest =>
    cases i with
    | zero =>
      rw [← List.head?_eq_getElem?, oldest] at found
      exact found
    | succ i =>
      have here := waits.resolve_left fun out => absurd out.1 (Nat.succ_ne_zero i)
      rw [SPSCQueue.valueAt, if_neg fun first => absurd first.1 (Nat.succ_ne_zero i), here]
      rfl
  | idle | called | reload | read =>
    have here := waits.resolve_left fun out => out.2
    rw [SPSCQueue.valueAt, if_neg fun out => Bool.false_ne_true out.2, here]
    rfl

/-- **What the slots hold** between the two counters is what was pushed and not yet popped. -/
theorem Inv.values (inv : Inv start k s g) (small : k ≤ 63) : values s = g.contents.map some := by
  have length : (s.queue.head - s.queue.tail).toNat = g.contents.length := by
    have fits := inv.bounded
    have behind := inv.behind
    have bound : 2 ^ k ≤ 2 ^ 63 := Nat.pow_le_pow_right (by decide) small
    have head := inv.head
    rw [Ghost.pushed] at fits head
    rw [head, inv.tail, count_sub (Nat.le_add_right _ _) (by omega), Nat.add_sub_cancel_left]
  rw [SPSCQueue.values, length]
  refine List.ext_getElem (by simp) fun i inside _ => ?_
  have here : i < g.contents.length := by simpa using inside
  rw [List.getElem_map, List.getElem_map, List.getElem_range]
  exact inv.valueAt (List.getElem?_eq_getElem here)

end Steps

/-! ### Runs -/

/-- **Any interleaving** of a producer and a consumer, from any value of the counters. No slot is
read while it is being written; the events are those of a first-in first-out queue of that capacity;
and a slot that is written holds no value that waits to be popped. -/
theorem run_fifo {k : Nat} (small : k ≤ 63) (start : UInt64) (actions : List (Action α)) :
    ∃ s events contents, Machine.run step (atRest (starting k start)) actions = .ok (s, events) ∧
      History (2 ^ k) events contents ∧ pops events <+: pushes events ∧
      (∀ i value, contents[i]? = some value →
        i = 0 ∧ s.consumer.MovedOut ∨ s.queue.slots[slotOf s i]? = some (.holds value)) ∧
      (∀ p, writes s = some p → ∀ i < contents.length, slotOf s i ≠ p) ∧
      (∀ p, reads s = some p → p = slotOf s 0 ∧
        ∃ value, contents.head? = some value ∧ s.queue.slots[p]? = some (.holds value)) ∧
      (∀ before after, events = before ++ some .pushFailed :: after →
        (pushes before).length = (pops before).length + 2 ^ k) ∧
      ∀ before after, events = before ++ some .popFailed :: after →
        pushes before = pops before := by
  have kept : ∀ events s (action : Action α),
      (∃ g, History (2 ^ k) events g.contents ∧ Inv start k s g) →
      ∃ s' event, step s action = .ok (s', event) ∧
        ∃ g, History (2 ^ k) (events ++ [event]) g.contents ∧ Inv start k s' g := by
    rintro events s action ⟨g, history, inv⟩
    obtain ⟨s', event, g', stepped, accepts, inv'⟩ := step_spec small inv action
    exact ⟨s', event, stepped, g', history.step accepts, inv'⟩
  obtain ⟨s, events, ran, g, history, inv⟩ :=
    Machine.run_history kept actions ⟨⟨0, [], 0, 0⟩, .start, Inv.starting k start⟩
  rw [List.nil_append] at history
  refine ⟨s, events, g.contents, ran, history, ?_, fun i value => inv.waits i,
    fun p written i waits => inv.writes_apart small written waits, fun p => inv.reads_oldest,
    fun before after => history.full, fun before after => history.empty⟩
  exact ⟨g.contents, history.pushes_eq.symm⟩

/-- Two slots, and counters about to wrap around: three pushes, of which the last fails, and two
pops. -/
theorem run_fifo_wraps :
    ∃ s events contents, Machine.run step (atRest (starting 1 0xFFFFFFFFFFFFFFFF))
        [.push 10, .producer, .producer, .producer, .producer, .push 20, .producer, .pop,
          .producer, .consumer,
          .producer, .producer, .push 30, .producer, .producer, .consumer, .consumer, .consumer,
            .pop, .consumer,
          .consumer, .consumer] = .ok (s, events) ∧
      History 2 events contents ∧ pops events <+: pushes events :=
  have ⟨s, events, contents, ran, history, order, _⟩ :=
    run_fifo (α := Nat) (by decide) 0xFFFFFFFFFFFFFFFF _
  ⟨s, events, contents, ran, history, order⟩

/-! ### The constructor -/

theorem roundUp_spec {minCapacity : UInt64} (fits : minCapacity.toNat ≤ 2 ^ 63) :
    ∀ {turns j : Nat}, turns + j = 64 → 0 < turns →
      ∃ k ≤ 63, roundUp minCapacity turns (UInt64.ofNat (2 ^ j)) = some (UInt64.ofNat (2 ^ k)) ∧
        minCapacity.toNat ≤ 2 ^ k := by
  intro turns
  induction turns with
  | zero => exact fun _ none => absurd none (Nat.lt_irrefl 0)
  | succ turns ih =>
    intro j total _
    rw [roundUp]
    by_cases short : UInt64.ofNat (2 ^ j) < minCapacity
    · have below : 2 ^ j < 2 ^ 63 := by
        rw [UInt64.lt_iff_toNat_lt, toNat_two_pow (by omega)] at short
        exact Nat.lt_of_lt_of_le short fits
      have small : j < 63 := (Nat.pow_lt_pow_iff_right (by decide)).mp below
      rw [if_pos short, two_pow_shift (Nat.le_of_lt small)]
      exact ih (by omega) (by omega)
    · refine ⟨j, by omega, if_neg short, ?_⟩
      rw [← toNat_two_pow (by omega)]
      exact Nat.not_lt.mp fun less => short (UInt64.lt_iff_toNat_lt.mpr less)

/-- **A queue made by the constructor** is one of these, with at least the slots asked for. -/
theorem new_starting {minCapacity : UInt64} (fits : minCapacity.toNat ≤ 2 ^ 63) :
    ∃ k ≤ 63, new minCapacity = some (starting k 0 : SPSCQueue α) ∧ minCapacity.toNat ≤ 2 ^ k := by
  obtain ⟨k, small, rounded, enough⟩ := roundUp_spec fits (j := 0) rfl (by decide : 0 < 64)
  refine ⟨k, small, ?_, enough⟩
  have rounded' : roundUp minCapacity 64 1 = some (UInt64.ofNat (2 ^ k)) := rounded
  simp only [new, rounded', Option.bind_eq_bind, Option.bind_some, toNat_two_pow small]
  rw [two_pow_sub_one]
  rfl

end SPSCQueue

end Ob
