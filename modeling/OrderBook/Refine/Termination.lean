/-
**The matching loops end.**

Of a book in memory no more is asked here than that the levels of one side are sorted and that their
queues end, each order being linked in one place (`Queued`). Levels without orders and orders
without a quantity are allowed, and nothing is said of back links, cached totals, free slots, the
index or the other side.

* `fillLoop_ends` — the inner loop, by induction on the queue of the best level: each turn is a call
  of the callback, and it unlinks its maker, or uses up the taker, or throws.
* `matchLoop_progress` — one turn of the outer loop: the loop ends, or the taker is used up, or the
  best level is gone, which its search by price finds because the levels are sorted.
* `matchLoop_ends` — so no bounds on the turns that cover the queues and the levels are ever met,
  and the result is the same for all of them.
-/

import OrderBook.Refine.Turns

namespace Ob

open Links ObjectPool

/-! ### Counting the calls -/

/-- A callback that also counts its calls. -/
def OrderBook.counted {σ : Type} (onTrade : TradeCallback σ) : TradeCallback (Nat × σ) :=
  fun seen trade => (onTrade seen.2 trade).map fun next => (seen.1 + 1, next)

/-- The calls made so far, with the one that threw. -/
def OrderBook.Run.calls {σ : Type} (run : OrderBook.Run (Nat × σ)) : Nat :=
  run.seen.1 + if run.threw then 1 else 0

/-- The same without the count. -/
def OrderBook.Run.plain {σ : Type} (run : OrderBook.Run (Nat × σ)) : OrderBook.Run σ :=
  ⟨run.book, run.seen.2, run.threw⟩

section Plain

variable {σ : Type} (onTrade : TradeCallback σ) (side : Side) (taker : Ptr)

/-- The count is kept beside the book and never looked at. -/
theorem fillHead_plain (best : Nat) (maker : Ptr) (run : OrderBook.Run (Nat × σ)) :
    OrderBook.Run.plain <$>
        OrderBook.fillHead (OrderBook.counted onTrade) side taker best maker run =
      OrderBook.fillHead onTrade side taker best maker run.plain := by
  unfold OrderBook.fillHead
  simp only [map_bind]
  congr 1
  funext lvl
  congr 1
  funext t
  congr 1
  funext m
  simp only [OrderBook.counted, OrderBook.Run.plain]
  cases onTrade run.seen.2 ⟨m.id, t.id, lvl.price, min t.qty m.qty, t.ts⟩ with
  | none => rfl
  | some seen =>
    simp only [Option.map_some, map_bind]
    congr 1
    funext pool₁
    congr 1
    funext pool₂
    congr 1
    funext m
    split
    · simp only [map_bind]
      congr 1
    · rfl

/-- A step and what follows it. -/
theorem bind_plain {x : Mem (OrderBook.Run (Nat × σ))} {y : Mem (OrderBook.Run σ)}
    (first : OrderBook.Run.plain <$> x = y)
    {rest : OrderBook.Run (Nat × σ) → Mem (OrderBook.Run (Nat × σ))}
    {rest' : OrderBook.Run σ → Mem (OrderBook.Run σ)}
    (onward : ∀ run, run.threw = false → OrderBook.Run.plain <$> rest run = rest' run.plain) :
    OrderBook.Run.plain <$> (x >>= fun run => if run.threw then return run else rest run) =
      y >>= fun run => if run.threw then return run else rest' run := by
  subst first
  cases x with
  | error fault => rfl
  | ok run =>
    obtain ⟨book, seen, threw⟩ := run
    cases threw with
    | true => rfl
    | false => exact onward ⟨book, seen, false⟩ rfl

theorem fillLoop_plain (best : Nat) (turns : Nat) :
    ∀ run : OrderBook.Run (Nat × σ),
      OrderBook.Run.plain <$>
          OrderBook.fillLoop (OrderBook.counted onTrade) side taker best turns run =
        OrderBook.fillLoop onTrade side taker best turns run.plain := by
  induction turns with
  | zero => exact fun _ => rfl
  | succ turns ih =>
    intro run
    unfold OrderBook.fillLoop
    simp only [map_bind]
    congr 1
    funext t
    congr 1
    funext lvl
    split
    · split
      · rfl
      · rename_i maker _
        exact bind_plain (fillHead_plain onTrade side taker best maker run) fun next _ => ih next
    · rfl

theorem matchLoop_plain (inner turns : Nat) :
    ∀ run : OrderBook.Run (Nat × σ),
      OrderBook.Run.plain <$>
          OrderBook.matchLoop (OrderBook.counted onTrade) side taker inner turns run =
        OrderBook.matchLoop onTrade side taker inner turns run.plain := by
  induction turns with
  | zero => exact fun _ => rfl
  | succ turns ih =>
    intro run
    unfold OrderBook.matchLoop
    simp only [map_bind]
    congr 1
    funext t
    split
    · simp only [OrderBook.Run.plain]
      split
      · rfl
      · rename_i best _
        simp only [map_bind]
        congr 1
        funext lvl
        split
        · rfl
        · refine bind_plain (fillLoop_plain onTrade side taker best inner run) fun next _ => ?_
          simp only [map_bind]
          congr 1
          funext lvl'
          congr 1
          funext opp
          exact ih _
    · rfl

end Plain

/-! ### Queues that end -/

/-- The link from an order to the one behind it, where there is an order. -/
def nextLink (heap : Ptr → Option Order) (p : Ptr) : Option (Option Ptr) := (heap p).map Order.next

theorem live_of_nextLink {heap : Ptr → Option Order} {p : Ptr} {link : Option Ptr}
    (here : nextLink heap p = some link) : ∃ x, heap p = some x ∧ x.next = link :=
  Option.map_eq_some_iff.mp here

/-- An order that keeps its link stays an order. -/
theorem live_of_same {heap heap' : Ptr → Option Order} {p : Ptr} {x : Order}
    (here : heap p = some x) (same : nextLink heap' p = nextLink heap p) :
    ∃ y, heap' p = some y := by
  rw [nextLink, nextLink, here, Option.map_some] at same
  obtain ⟨y, now, _⟩ := live_of_nextLink same
  exact ⟨y, now⟩

/-- The pointers of each level lead through the orders of its queue to null. -/
def Spelled (heap : Ptr → Option Order) : List PriceLevel → List (List Ptr) → Prop :=
  List.Forall₂ fun lvl addrs => Chain (nextLink heap) lvl.head addrs

theorem Spelled.congr {heap heap' : Ptr → Option Order} {levels : List PriceLevel}
    {queues : List (List Ptr)} (spelled : Spelled heap levels queues)
    (same : ∀ p ∈ queues.flatten, nextLink heap' p = nextLink heap p) :
    Spelled heap' levels queues := by
  induction spelled with
  | nil => exact .nil
  | cons here _ ih =>
    refine .cons (here.congr fun p member => same p ?_) (ih fun p member => same p ?_)
    · exact List.mem_append_left _ member
    · exact List.mem_append_right _ member

theorem Spelled.live {heap : Ptr → Option Order} {levels : List PriceLevel}
    {queues : List (List Ptr)} (spelled : Spelled heap levels queues) :
    ∀ p ∈ queues.flatten, ∃ x, heap p = some x := by
  induction spelled with
  | nil => exact List.forall_mem_nil _
  | cons here _ ih =>
    intro p member
    rcases List.mem_append.mp member with inside | behind
    · obtain ⟨_, link⟩ := here.link_of_mem p inside
      obtain ⟨x, there, _⟩ := live_of_nextLink link
      exact ⟨x, there⟩
    · exact ih p behind

/-- The levels of a side are sorted and their queues, best level first, end. -/
structure Queued (b : OrderBook) (side : Side) (queues : List (List Ptr)) : Prop where
  sorted : (b.sideBook side).levels.Pairwise fun l r =>
    SideBook.lessForSide (b.sideBook side).side l.price r.price
  spelled : Spelled b.pool.read (b.sideBook side).levels.reverse queues
  distinct : queues.flatten.Nodup

theorem nextLink_update {heap : Ptr → Option Order} {p : Ptr} {x y : Order} (here : heap p = some x)
    (same : y.next = x.next) : nextLink (Function.update heap p (some y)) = nextLink heap := by
  funext q
  by_cases at_p : q = p
  · subst at_p
    rw [nextLink, nextLink, Function.update_self, here, Option.map_some, Option.map_some, same]
  · rw [nextLink, nextLink, Function.update_of_ne at_p]

theorem nextLink_writePrev (heap : Ptr → Option Order) (link back : Option Ptr) :
    nextLink (writePrev heap link back) = nextLink heap := by
  cases link with
  | none => rfl
  | some h =>
    funext q
    by_cases at_h : q = h
    · subst at_h
      rw [nextLink, nextLink, writePrev, Function.update_self, Option.map_map]
      rfl
    · rw [nextLink, nextLink, writePrev, Function.update_of_ne at_h]

/-- The first order of a queue: what is behind it is live and not the order itself. -/
theorem chain_head {heap : Ptr → Option Order} {first : Option Ptr} {maker : Ptr}
    {addrs : List Ptr} (chain : Chain (nextLink heap) first (maker :: addrs))
    (fresh : maker ∉ addrs) : ∃ mk, heap maker = some mk ∧ Chain (nextLink heap) mk.next addrs ∧
      mk.next ≠ some maker ∧ ∀ h, mk.next = some h → ∃ x, heap h = some x := by
  cases chain with
  | cons link rest =>
    obtain ⟨mk, there, rfl⟩ := live_of_nextLink link
    have next_mem : ∀ h, mk.next = some h → h ∈ addrs := fun h next => by
      rw [next] at rest
      cases rest
      exact List.mem_cons_self
    refine ⟨mk, there, rest, fun same => fresh (next_mem maker same), fun h next => ?_⟩
    obtain ⟨_, behind⟩ := rest.link_of_mem h (next_mem h next)
    obtain ⟨x, old, _⟩ := live_of_nextLink behind
    exact ⟨x, old⟩

section Loops

variable {σ : Type} {onTrade : TradeCallback σ} {b : OrderBook} {side : Side} {taker : Ptr}

/-- Nothing is left of the taker. -/
def Spent (b : OrderBook) (taker : Ptr) : Prop :=
  ∃ t, b.pool.read taker = some t ∧ t.qty = 0

/-- What the inner loop changes: the best level but for its price, and the links of the orders at
`addrs`. -/
structure Worked (b b' : OrderBook) (side : Side) (lows : List PriceLevel) (lvl lvl' : PriceLevel)
    (addrs : List Ptr) : Prop where
  levels : (b'.sideBook side).levels = lows ++ [lvl']
  side : (b'.sideBook side).side = (b.sideBook side).side
  price : lvl'.price = lvl.price
  links : ∀ p ∉ addrs, nextLink b'.pool.read p = nextLink b.pool.read p

theorem Worked.refl {lows : List PriceLevel} {lvl : PriceLevel}
    (levels : (b.sideBook side).levels = lows ++ [lvl]) (addrs : List Ptr) :
    Worked b b side lows lvl lvl addrs := ⟨levels, rfl, rfl, fun _ _ => rfl⟩

theorem Worked.trans {b₁ b₂ : OrderBook} {lows : List PriceLevel} {lvl lvl₁ lvl₂ : PriceLevel}
    {addr : Ptr} {addrs : List Ptr} (first : Worked b b₁ side lows lvl lvl₁ [addr])
    (second : Worked b₁ b₂ side lows lvl₁ lvl₂ addrs) :
    Worked b b₂ side lows lvl lvl₂ (addr :: addrs) where
  levels := second.levels
  side := second.side.trans first.side
  price := second.price.trans first.price
  links p outside := by
    rw [List.mem_cons, not_or] at outside
    rw [second.links p outside.2, first.links p (mt List.mem_singleton.mp outside.1)]

/-- An order elsewhere stays an order. -/
theorem Worked.live {b' : OrderBook} {lows : List PriceLevel} {lvl lvl' : PriceLevel}
    {addrs : List Ptr} (worked : Worked b b' side lows lvl lvl' addrs) {p : Ptr} {x : Order}
    (here : b.pool.read p = some x) (outside : p ∉ addrs) : ∃ y, b'.pool.read p = some y :=
  live_of_same here (worked.links p outside)

/-- The best level is written back. -/
theorem Worked.set {lows : List PriceLevel} {lvl lvl' : PriceLevel} {addrs : List Ptr}
    {pool : ObjectPool Order} (levels : (b.sideBook side).levels = lows ++ [lvl])
    (price : lvl'.price = lvl.price)
    (links : ∀ p ∉ addrs, nextLink pool.read p = nextLink b.pool.read p) (idIndex : IdIndex) :
    Worked b { b.withSideBook side ((b.sideBook side).setLevel lows.length lvl') with
      pool, idIndex } side lows lvl lvl' addrs := by
  have written : OrderBook.sideBook { b.withSideBook side
      ((b.sideBook side).setLevel lows.length lvl') with pool, idIndex } side =
        (b.sideBook side).setLevel lows.length lvl' := OrderBook.sideBook_withSideBook b side _
  refine ⟨?_, ?_, price, links⟩
  · rw [written, SideBook.setLevel_append levels]
  · rw [written]
    rfl

/-! ### The inner loop -/

/-- The two quantities of a fill; no link is written. -/
theorem reduce_links {pool : ObjectPool Order} {maker : Ptr} {t mk : Order}
    (here : pool.read taker = some t) (there : pool.read maker = some mk) (apart : taker ≠ maker)
    (fill : Quantity) :
    ∃ pool₁ pool₂, pool.modify taker (fun x => { x with qty := x.qty - fill }) = .ok pool₁ ∧
      pool₁.modify maker (fun x => { x with qty := x.qty - fill }) = .ok pool₂ ∧
      pool₂.read taker = some { t with qty := t.qty - fill } ∧
      pool₂.read maker = some { mk with qty := mk.qty - fill } ∧
      nextLink pool₂.read = nextLink pool.read := by
  obtain ⟨pool₁, pool₂, done₁, done₂, written, here₂, there₂⟩ := reduce_pair here there apart fill
  have there₁ : Function.update pool.read taker (some { t with qty := t.qty - fill }) maker =
      some mk := by
    rw [Function.update_of_ne apart.symm, there]
  have first := nextLink_update (y := { t with qty := t.qty - fill }) here rfl
  have second := nextLink_update (y := { mk with qty := mk.qty - fill }) there₁ rfl
  refine ⟨pool₁, pool₂, done₁, done₂, here₂, there₂, ?_⟩
  rw [written.read, second, first]

/-- The maker is unlinked from the head of its level and its slot released. -/
theorem consume_links {pool : ObjectPool Order} {maker : Ptr} {mk : Order} (lvl : PriceLevel)
    (there : pool.read maker = some mk) (behind : mk.next ≠ some maker)
    (live : ∀ h, mk.next = some h → ∃ x, pool.read h = some x) :
    ∃ pool₁ lvl₁ pool₂, OrderBook.dropHead pool lvl mk = .ok (pool₁, lvl₁) ∧
      pool₁.release maker = .ok pool₂ ∧ lvl₁.head = mk.next ∧ lvl₁.price = lvl.price ∧
      ∀ p ≠ maker, nextLink pool₂.read p = nextLink pool.read p := by
  obtain ⟨pool₁, done₁, written₁, there₁⟩ := dropHead_apart lvl there behind live
  refine ⟨pool₁, _, _, done₁, release_eq there₁, rfl, rfl, fun p apart => ?_⟩
  have released := read_free (lt_of_read there₁) pool₁.freeHead
  show nextLink (pool₁.write maker (.nextFree pool₁.freeHead)).read p = _
  rw [released, nextLink, Function.update_of_ne apart, written₁.read, ← nextLink,
    nextLink_writePrev]

variable (onTrade) in
/-- The body of the inner loop. -/
theorem fillHead_counted {lows : List PriceLevel} {lvl : PriceLevel} {maker : Ptr} {t mk : Order}
    (levels : (b.sideBook side.opposite).levels = lows ++ [lvl])
    (here : b.pool.read taker = some t) (there : b.pool.read maker = some mk)
    (apart : taker ≠ maker) (behind : mk.next ≠ some maker)
    (live : ∀ h, mk.next = some h → ∃ x, b.pool.read h = some x) (n : Nat) (seen : σ) :
    OrderBook.fillHead (OrderBook.counted onTrade) side taker lows.length maker
        ⟨b, (n, seen), false⟩ = .ok ⟨b, (n, seen), true⟩ ∨
      ∃ b' lvl' seen', OrderBook.fillHead (OrderBook.counted onTrade) side taker lows.length maker
          ⟨b, (n, seen), false⟩ = .ok ⟨b', (n + 1, seen'), false⟩ ∧
        Worked b b' side.opposite lows lvl lvl' [maker] ∧
        (lvl'.head = mk.next ∨ Spent b' taker) := by
  unfold OrderBook.fillHead
  simp only [SideBook.level_append levels, deref_eq here, deref_eq there, Mem.ok_bind,
    OrderBook.counted]
  cases returns : onTrade seen ⟨mk.id, t.id, lvl.price, min t.qty mk.qty, t.ts⟩ with
  | none => exact .inl rfl
  | some seen' =>
    refine .inr ?_
    have exhausted : mk.qty - min t.qty mk.qty ≠ 0 → t.qty - min t.qty mk.qty = 0 :=
      Quantity.sub_min_eq_zero
    generalize min t.qty mk.qty = fill at exhausted ⊢
    obtain ⟨pool₁, pool₂, done₁, done₂, here₂, there₂, links₂⟩ :=
      reduce_links here there apart fill
    simp only [Option.map_some, done₁, done₂, Mem.ok_bind, deref_eq there₂]
    by_cases gone : mk.qty - fill = 0
    · have live₂ : ∀ h, mk.next = some h → ∃ x, pool₂.read h = some x := by
        intro h next
        obtain ⟨x, old⟩ := live h next
        exact live_of_same old (congrFun links₂ h)
      obtain ⟨pool₃, lvl₃, pool₄, done₃, done₄, head₃, price₃, links₄⟩ :=
        consume_links { lvl with totalQty := lvl.totalQty - fill } there₂ behind live₂
      simp only [if_pos gone, done₃, done₄, Mem.ok_bind, Mem.pure_eq]
      refine ⟨_, lvl₃, seen', rfl, .set levels price₃ (fun p other => ?_) _, .inl head₃⟩
      rw [links₄ p (mt List.mem_singleton.mpr other), links₂]
    · -- the maker stays, so the taker had no more than it
      simp only [if_neg gone, Mem.pure_eq]
      refine ⟨_, _, seen', rfl, .set levels ?_ (fun p _ => congrFun links₂ p) _, .inr ?_⟩
      · rfl
      · exact ⟨_, here₂, exhausted gone⟩

/-- How the inner loop ends at the best level `lvl`, whose queue is `addrs`, after `n` calls. -/
structure FillEnds (onTrade : TradeCallback σ) (side : Side) (taker : Ptr) (lows : List PriceLevel)
    (addrs : List Ptr) (b : OrderBook) (lvl : PriceLevel) (n : Nat) (seen : σ)
    (run : OrderBook.Run (Nat × σ)) (lvl' : PriceLevel) : Prop where
  ran : ∀ turns, addrs.length < turns →
    OrderBook.fillLoop (OrderBook.counted onTrade) side taker lows.length turns
      ⟨b, (n, seen), false⟩ = .ok run
  worked : Worked b run.book side.opposite lows lvl lvl' addrs
  ends : run.threw = true ∨ lvl'.head = none ∨ Spent run.book taker
  calls : run.calls ≤ n + addrs.length

theorem FillEnds.done {lows : List PriceLevel} {lvl : PriceLevel} {t : Order}
    (levels : (b.sideBook side.opposite).levels = lows ++ [lvl])
    (here : b.pool.read taker = some t) (done : lvl.head = none ∨ t.qty = 0) (addrs : List Ptr)
    (n : Nat) (seen : σ) :
    FillEnds onTrade side taker lows addrs b lvl n seen ⟨b, (n, seen), false⟩ lvl where
  ran turns enough := by
    obtain ⟨turns, rfl⟩ := Nat.exists_eq_add_of_lt enough
    exact fillLoop_done (SideBook.level_append levels) here done _ _
  worked := .refl levels addrs
  ends := .inr (done.imp_right fun spent => ⟨t, here, spent⟩)
  calls := Nat.le_add_right _ _

/-- One turn, which is a call, and what follows it. -/
theorem FillEnds.turn {b₁ : OrderBook} {lows : List PriceLevel} {lvl lvl₁ lvl' : PriceLevel}
    {maker : Ptr} {addrs : List Ptr} {n : Nat} {seen seen₁ : σ} {run : OrderBook.Run (Nat × σ)}
    (turn : ∀ turns, OrderBook.fillLoop (OrderBook.counted onTrade) side taker lows.length
        (turns + 1) ⟨b, (n, seen), false⟩ =
      OrderBook.fillLoop (OrderBook.counted onTrade) side taker lows.length turns
        ⟨b₁, (n + 1, seen₁), false⟩)
    (first : Worked b b₁ side.opposite lows lvl lvl₁ [maker])
    (rest : FillEnds onTrade side taker lows addrs b₁ lvl₁ (n + 1) seen₁ run lvl') :
    FillEnds onTrade side taker lows (maker :: addrs) b lvl n seen run lvl' where
  ran turns enough := by
    obtain ⟨turns, rfl⟩ : ∃ k, turns = k + 1 := ⟨turns - 1, by omega⟩
    rw [turn]
    exact rest.ran turns (Nat.lt_of_succ_lt_succ enough)
  worked := first.trans rest.worked
  ends := rest.ends
  calls := by
    have calls := rest.calls
    rw [List.length_cons]
    omega

variable (onTrade) in
/-- **The inner loop**, by induction on the queue of the best level. -/
theorem fillLoop_ends {lows : List PriceLevel} {addrs : List Ptr} :
    ∀ {b : OrderBook} {lvl : PriceLevel} {t : Order} (n : Nat) (seen : σ),
      (b.sideBook side.opposite).levels = lows ++ [lvl] →
      Chain (nextLink b.pool.read) lvl.head addrs → b.pool.read taker = some t → taker ∉ addrs →
      addrs.Nodup →
      ∃ run lvl', FillEnds onTrade side taker lows addrs b lvl n seen run lvl' := by
  induction addrs with
  | nil =>
    intro b lvl t n seen levels chain here _ _
    exact ⟨_, lvl, .done levels here (.inl (chain.nil_iff.mpr rfl)) _ _ _⟩
  | cons maker addrs ih =>
    intro b lvl t n seen levels chain here outside distinct
    obtain ⟨apart, outside⟩ := not_or.mp (mt List.mem_cons.mpr outside)
    obtain ⟨fresh, distinct⟩ := List.nodup_cons.mp distinct
    have head := chain.head_eq
    obtain ⟨mk, there, rest, behind, live⟩ := chain_head chain fresh
    by_cases spent : t.qty = 0
    · exact ⟨_, lvl, .done levels here (.inr spent) _ _ _⟩
    rcases fillHead_counted onTrade levels here there apart behind live n seen with
      threw | ⟨b', lvl', seen', did, worked, next⟩
    · refine ⟨⟨b, (n, seen), true⟩, lvl, fun turns enough => ?_, .refl levels _, .inl rfl, ?_⟩
      · obtain ⟨turns, rfl⟩ := Nat.exists_eq_add_of_lt enough
        rw [fillLoop_goes (SideBook.level_append levels) here head spent, threw]
        rfl
      · exact Nat.add_le_add_left (Nat.succ_le_succ (Nat.zero_le _)) n
    · have turn : ∀ turns, OrderBook.fillLoop (OrderBook.counted onTrade) side taker lows.length
          (turns + 1) ⟨b, (n, seen), false⟩ =
            OrderBook.fillLoop (OrderBook.counted onTrade) side taker lows.length turns
              ⟨b', (n + 1, seen'), false⟩ := by
        intro turns
        rw [fillLoop_goes (SideBook.level_append levels) here head spent, did]
        rfl
      rcases next with next | ⟨t', now, zero⟩
      · -- the maker is gone and the rest of the queue follows
        obtain ⟨t', here'⟩ := worked.live here (mt List.mem_singleton.mp apart)
        have rest' : Chain (nextLink b'.pool.read) lvl'.head addrs := by
          rw [next]
          refine rest.congr fun p member => worked.links p ?_
          exact fun same => fresh (List.mem_singleton.mp same ▸ member)
        obtain ⟨run, lvl'', ended⟩ := ih (n + 1) seen' worked.levels rest' here' outside distinct
        exact ⟨run, lvl'', .turn turn worked ended⟩
      · -- the maker is still there, so the taker is used up
        exact ⟨_, lvl', .turn turn worked (.done worked.levels now (.inr zero) addrs _ _)⟩

/-! ### The outer loop -/

/-- What the levels below the best one rely on is left to them by the inner loop. -/
theorem Queued.below {b' : OrderBook} {q : List Ptr} {queues : List (List Ptr)}
    (queued : Queued b side (q :: queues)) {lows : List PriceLevel} {lvl : PriceLevel}
    (levels : (b.sideBook side).levels = lows ++ [lvl])
    (lower : (b'.sideBook side).levels = lows)
    (same : (b'.sideBook side).side = (b.sideBook side).side)
    (links : ∀ p ∉ q, nextLink b'.pool.read p = nextLink b.pool.read p) :
    Queued b' side queues := by
  have sorted := queued.sorted
  have spelled := queued.spelled
  have distinct := queued.distinct
  rw [levels] at sorted spelled
  rw [List.reverse_append] at spelled
  rw [List.flatten_cons, List.nodup_append] at distinct
  refine ⟨?_, ?_, distinct.2.1⟩
  · rw [lower, same]
    exact (List.pairwise_append.mp sorted).1
  · rw [lower]
    refine Spelled.congr (List.forall₂_cons.mp spelled).2 fun p member => links p fun inside => ?_
    exact distinct.2.2 p inside p member rfl

/-- The best level of a side with a queue. -/
theorem Queued.best {q : List Ptr} {queues : List (List Ptr)}
    (queued : Queued b side (q :: queues)) :
    ∃ lows lvl, (b.sideBook side).levels = lows ++ [lvl] ∧
      Chain (nextLink b.pool.read) lvl.head q ∧
      ∀ l ∈ lows, rank (b.sideBook side).side l.price < rank (b.sideBook side).side lvl.price := by
  obtain ⟨lvl, lows, here, _, shape⟩ := List.forall₂_cons_right_iff.mp queued.spelled
  rw [List.reverse_eq_cons_iff] at shape
  have sorted := queued.sorted
  rw [shape, List.pairwise_append] at sorted
  refine ⟨_, lvl, shape, here, fun l member => ?_⟩
  exact lessForSide_iff.mp (sorted.2.2 l member lvl (List.mem_singleton.mpr rfl))

/-- A turn after which the best level has no order: the search by its price finds it, and it is
erased. -/
theorem matchLoop_erases {b₁ : OrderBook} {t : Order} {lows : List PriceLevel}
    {lvl lvl₁ : PriceLevel} {addrs : List Ptr} {inner : Nat} {seen seen₁ : σ}
    (levels : (b.sideBook side.opposite).levels = lows ++ [lvl])
    (here : b.pool.read taker = some t) (positive : t.qty ≠ 0)
    (reached : ¬(t.type ≠ .market ∧ priceCrosses side t.price lvl.price = false))
    (low : ∀ l ∈ lows, rank (b.sideBook side.opposite).side l.price <
      rank (b.sideBook side.opposite).side lvl.price)
    (ran : OrderBook.fillLoop onTrade side taker lows.length inner ⟨b, seen, false⟩ =
      .ok ⟨b₁, seen₁, false⟩)
    (worked : Worked b b₁ side.opposite lows lvl lvl₁ addrs) (empty : lvl₁.head = none)
    (turns : Nat) :
    OrderBook.matchLoop onTrade side taker inner (turns + 1) ⟨b, seen, false⟩ =
      OrderBook.matchLoop onTrade side taker inner turns
        ⟨b₁.withSideBook side.opposite { b₁.sideBook side.opposite with levels := lows },
          seen₁, false⟩ := by
  have erased := eraseIfEmpty_best worked.levels (Option.isNone_iff_eq_none.mpr empty)
    (by rwa [worked.side, worked.price])
  rw [matchLoop_goes (SideBook.best_append levels) (SideBook.level_append levels) here positive,
    if_neg reached, ran]
  simp only [Mem.ok_bind, Bool.false_eq_true, if_false, SideBook.level_append worked.levels,
    PriceLevel.empty, empty, Option.isNone_none, if_true, erased]

/-- A turn after which it has one: the levels stay. -/
theorem matchLoop_keeps {b₁ : OrderBook} {t : Order} {lows : List PriceLevel}
    {lvl lvl₁ : PriceLevel} {addrs : List Ptr} {inner : Nat} {seen seen₁ : σ}
    (levels : (b.sideBook side.opposite).levels = lows ++ [lvl])
    (here : b.pool.read taker = some t) (positive : t.qty ≠ 0)
    (reached : ¬(t.type ≠ .market ∧ priceCrosses side t.price lvl.price = false))
    (ran : OrderBook.fillLoop onTrade side taker lows.length inner ⟨b, seen, false⟩ =
      .ok ⟨b₁, seen₁, false⟩)
    (worked : Worked b b₁ side.opposite lows lvl lvl₁ addrs) (more : lvl₁.head ≠ none)
    (turns : Nat) :
    OrderBook.matchLoop onTrade side taker inner (turns + 1) ⟨b, seen, false⟩ =
      OrderBook.matchLoop onTrade side taker inner turns ⟨b₁, seen₁, false⟩ := by
  rw [matchLoop_goes (SideBook.best_append levels) (SideBook.level_append levels) here positive,
    if_neg reached, ran]
  simp only [Mem.ok_bind, Bool.false_eq_true, if_false, SideBook.level_append worked.levels,
    PriceLevel.empty, Option.isNone_iff_eq_none, more, Mem.pure_eq, OrderBook.withSideBook_self]

variable (onTrade) in
/-- **A turn of the outer loop.** It is the last one, or the taker is used up in it, or it takes the
best level away. -/
theorem matchLoop_progress {queues : List (List Ptr)} {t : Order}
    (queued : Queued b side.opposite queues) (here : b.pool.read taker = some t)
    (apart : taker ∉ queues.flatten) (n : Nat) (seen : σ) :
    (∃ done, (∀ inner turns, (∀ q ∈ queues, q.length < inner) →
        OrderBook.matchLoop (OrderBook.counted onTrade) side taker inner (turns + 1)
          ⟨b, (n, seen), false⟩ = .ok done) ∧ done.calls ≤ n + queues.flatten.length) ∨
    ∃ q rest b' n' seen' t', queues = q :: rest ∧
      (∀ inner turns, (∀ q ∈ queues, q.length < inner) →
        OrderBook.matchLoop (OrderBook.counted onTrade) side taker inner (turns + 1)
            ⟨b, (n, seen), false⟩ =
          OrderBook.matchLoop (OrderBook.counted onTrade) side taker inner turns
            ⟨b', (n', seen'), false⟩) ∧
      n' ≤ n + q.length ∧ b'.pool.read taker = some t' ∧
      (t'.qty = 0 ∨
        (b'.sideBook side.opposite).levels = (b.sideBook side.opposite).levels.dropLast ∧
          Queued b' side.opposite rest) := by
  by_cases spent : t.qty = 0
  · exact .inl ⟨_, fun inner turns _ => matchLoop_done here (.inl spent) inner turns _,
      Nat.le_add_right _ _⟩
  cases queues with
  | nil =>
    have none : (b.sideBook side.opposite).levels = [] :=
      List.reverse_eq_nil_iff.mp (List.forall₂_nil_right_iff.mp queued.spelled)
    exact .inl ⟨_, fun inner turns _ => matchLoop_done here (.inr none) inner turns _,
      Nat.le_add_right _ _⟩
  | cons q rest =>
    obtain ⟨lows, lvl, levels, chain, low⟩ := queued.best
    have best := SideBook.best_append levels
    have level := SideBook.level_append levels
    by_cases refused : t.type ≠ .market ∧ priceCrosses side t.price lvl.price = false
    · refine .inl ⟨⟨b, (n, seen), false⟩, fun inner turns _ => ?_, Nat.le_add_right _ _⟩
      rw [matchLoop_goes best level here spent, if_pos refused]
    have outside : taker ∉ q := fun inside => apart (List.mem_append_left _ inside)
    have distinct := queued.distinct
    rw [List.flatten_cons, List.nodup_append] at distinct
    obtain ⟨⟨b₁, ⟨n₁, seen₁⟩, threw⟩, lvl₁, ran, worked, ends, calls⟩ :=
      fillLoop_ends onTrade n seen levels chain here outside distinct.1
    have within : ∀ inner, (∀ q' ∈ q :: rest, q'.length < inner) → q.length < inner :=
      fun inner short => short q List.mem_cons_self
    cases threw with
    | true =>
      refine .inl ⟨⟨b₁, (n₁, seen₁), true⟩, fun inner turns short => ?_, ?_⟩
      · rw [matchLoop_goes best level here spent, if_neg refused, ran inner (within inner short)]
        rfl
      · rw [List.flatten_cons, List.length_append]
        exact Nat.le_trans calls (by omega)
    | false =>
      by_cases empty : lvl₁.head = none
      · obtain ⟨t₁, here₁⟩ := worked.live here outside
        have book : (b₁.withSideBook side.opposite
            { b₁.sideBook side.opposite with levels := lows }).sideBook side.opposite =
              { b₁.sideBook side.opposite with levels := lows } :=
          OrderBook.sideBook_withSideBook b₁ _ _
        refine .inr ⟨q, rest, b₁.withSideBook side.opposite
          { b₁.sideBook side.opposite with levels := lows }, n₁, seen₁, t₁, rfl,
          fun inner turns short => ?_, calls, here₁,
          .inr ⟨?_, queued.below levels ?_ ?_ worked.links⟩⟩
        · exact matchLoop_erases levels here spent refused low (ran inner (within inner short))
            worked empty turns
        · rw [book, levels, List.dropLast_concat]
        · rw [book]
        · rw [book]
          exact worked.side
      · -- an order is left, so the taker is used up
        obtain ⟨t', now, zero⟩ := (ends.resolve_left Bool.false_ne_true).resolve_left empty
        refine .inr ⟨q, rest, b₁, n₁, seen₁, t', rfl, fun inner turns short => ?_, calls, now,
          .inl zero⟩
        exact matchLoop_keeps levels here spent refused (ran inner (within inner short)) worked
          empty turns

/-- How the outer loop ends over these queues, after `n` calls. -/
structure MatchEnds (onTrade : TradeCallback σ) (side : Side) (taker : Ptr)
    (queues : List (List Ptr)) (b : OrderBook) (n : Nat) (seen : σ)
    (done : OrderBook.Run (Nat × σ)) : Prop where
  ran : ∀ inner turns, (∀ q ∈ queues, q.length < inner) → queues.length < turns →
    OrderBook.matchLoop (OrderBook.counted onTrade) side taker inner turns
      ⟨b, (n, seen), false⟩ = .ok done
  calls : done.calls ≤ n + queues.flatten.length

/-- The last turn. -/
theorem MatchEnds.last {queues : List (List Ptr)} {n : Nat} {seen : σ}
    {done : OrderBook.Run (Nat × σ)}
    (last : ∀ inner turns, (∀ q ∈ queues, q.length < inner) →
      OrderBook.matchLoop (OrderBook.counted onTrade) side taker inner (turns + 1)
        ⟨b, (n, seen), false⟩ = .ok done)
    (calls : done.calls ≤ n + queues.flatten.length) :
    MatchEnds onTrade side taker queues b n seen done where
  ran inner turns short enough := by
    obtain ⟨turns, rfl⟩ := Nat.exists_eq_add_of_lt enough
    exact last inner _ short
  calls := calls

/-- One turn and what follows it. -/
theorem MatchEnds.turn {b₁ : OrderBook} {q : List Ptr} {queues : List (List Ptr)} {n n₁ : Nat}
    {seen seen₁ : σ} {done : OrderBook.Run (Nat × σ)}
    (turn : ∀ inner turns, (∀ q' ∈ q :: queues, q'.length < inner) →
      OrderBook.matchLoop (OrderBook.counted onTrade) side taker inner (turns + 1)
          ⟨b, (n, seen), false⟩ =
        OrderBook.matchLoop (OrderBook.counted onTrade) side taker inner turns
          ⟨b₁, (n₁, seen₁), false⟩)
    (few : n₁ ≤ n + q.length) (rest : MatchEnds onTrade side taker queues b₁ n₁ seen₁ done) :
    MatchEnds onTrade side taker (q :: queues) b n seen done where
  ran inner turns short enough := by
    obtain ⟨turns, rfl⟩ : ∃ k, turns = k + 1 := ⟨turns - 1, by omega⟩
    rw [turn inner _ short]
    exact rest.ran inner turns (fun q' member => short q' (List.mem_cons_of_mem _ member))
      (Nat.lt_of_succ_lt_succ enough)
  calls := by
    have calls := rest.calls
    rw [List.flatten_cons, List.length_append]
    omega

variable (onTrade) in
/-- **The outer loop**, by induction on the levels: any bounds on the turns that cover the queues
and the levels give the same result. -/
theorem matchLoop_ends {queues : List (List Ptr)} :
    ∀ {b : OrderBook} {t : Order} (n : Nat) (seen : σ), Queued b side.opposite queues →
      b.pool.read taker = some t → taker ∉ queues.flatten →
      ∃ done, MatchEnds onTrade side taker queues b n seen done := by
  induction queues with
  | nil =>
    intro b t n seen queued here apart
    rcases matchLoop_progress onTrade queued here apart n seen with
      ⟨done, ran, calls⟩ | ⟨q, rest, b', n', seen', t', shape, _⟩
    · exact ⟨done, .last ran calls⟩
    · cases shape
  | cons q queues ih =>
    intro b t n seen queued here apart
    rcases matchLoop_progress onTrade queued here apart n seen with
      ⟨done, ran, calls⟩ | ⟨q', rest, b', n', seen', t', shape, turn, calls, here', next⟩
    · exact ⟨done, .last ran calls⟩
    · cases shape
      rcases next with zero | ⟨_, queued'⟩
      · exact ⟨_, .turn turn calls (.last
          (fun inner turns _ => matchLoop_done here' (.inl zero) inner turns _)
          (Nat.le_add_right _ _))⟩
      · obtain ⟨done, ended⟩ := ih n' seen' queued' here' fun inside =>
          apart (List.mem_append_right _ inside)
        exact ⟨done, .turn turn calls ended⟩

end Loops

end Ob
