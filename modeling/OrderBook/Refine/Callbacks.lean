/-
**A callback only watches.**

Two callbacks of which one sees what the other one sees, through a function, throw at the same trades.
So a call of `submit` does the same to the book with either of them, returns the same, and what the one
has seen in the end is what the other one has, through that function.

* `fillHead_map`, `fillLoop_map`, `matchLoop_map`, `execute_map`, `submit_map` — from one trade to the
  whole call.
* `submit_folds` — a callback that never throws sees the trades that a recorder sees, one after
  another.
-/

import OrderBook.Source.Book

namespace Ob.OrderBook

variable {σ τ : Type} {watch : TradeCallback σ} {watch' : TradeCallback τ} {through : σ → τ}

/-- One callback sees what the other one does, through a function. -/
def Watches (through : σ → τ) (watch : TradeCallback σ) (watch' : TradeCallback τ) : Prop :=
  ∀ seen trade, watch' (through seen) trade = (watch seen trade).map through

def Run.map (through : σ → τ) (run : Run σ) : Run τ :=
  { book := run.book, seen := through run.seen, threw := run.threw }

def Submitted.map (through : σ → τ) (done : Submitted σ) : Submitted τ :=
  { book := done.book, seen := through done.seen, ret := done.ret, dropped := done.dropped }

/-! ### One trade after another -/

theorem fillHead_map (watches : Watches through watch watch') (side : Side) (taker : Ptr) (best : Nat)
    (maker : Ptr) (run : Run σ) :
    fillHead watch' side taker best maker (run.map through) =
      Run.map through <$> fillHead watch side taker best maker run := by
  unfold fillHead
  simp only [map_bind]
  refine bind_congr fun lvl => bind_congr fun t => bind_congr fun m => ?_
  simp only [Run.map, watches run.seen]
  cases watch run.seen _ with
  | none => rfl
  | some seen =>
    simp only [Option.map_some, map_bind]
    refine bind_congr fun pool => bind_congr fun pool' => bind_congr fun m' => ?_
    by_cases gone : m'.qty = 0
    · simp only [if_pos gone, map_bind]
      exact bind_congr fun left => bind_congr fun pool'' => rfl
    · simp only [if_neg gone]
      rfl

theorem fillLoop_map (watches : Watches through watch watch') (side : Side) (taker : Ptr)
    (best : Nat) (turns : Nat) (run : Run σ) :
    fillLoop watch' side taker best turns (run.map through) =
      Run.map through <$> fillLoop watch side taker best turns run := by
  induction turns generalizing run with
  | zero => rfl
  | succ turns ih =>
    unfold fillLoop
    simp only [map_bind]
    refine bind_congr fun t => bind_congr fun lvl => ?_
    by_cases more : t.qty > 0
    · simp only [if_pos more]
      cases lvl.head with
      | none => rfl
      | some maker =>
        simp only [fillHead_map watches, map_bind, bind_map_left]
        refine bind_congr fun run' => ?_
        have same : (run'.map through).threw = run'.threw := rfl
        by_cases threw : run'.threw = true
        · simp only [same, if_pos threw]
          rfl
        · simp only [same, if_neg threw]
          exact ih run'
    · simp only [if_neg more]
      rfl

theorem matchLoop_map (watches : Watches through watch watch') (side : Side) (taker : Ptr)
    (inner turns : Nat) (run : Run σ) :
    matchLoop watch' side taker inner turns (run.map through) =
      Run.map through <$> matchLoop watch side taker inner turns run := by
  induction turns generalizing run with
  | zero => rfl
  | succ turns ih =>
    unfold matchLoop
    simp only [map_bind]
    refine bind_congr fun t => ?_
    by_cases more : t.qty > 0
    · simp only [if_pos more]
      have same : (run.map through).book = run.book := rfl
      rw [same]
      cases (run.book.sideBook side.opposite).best with
      | none => rfl
      | some best =>
        simp only [map_bind]
        refine bind_congr fun lvl => ?_
        by_cases refused : t.type ≠ .market ∧ priceCrosses side t.price lvl.price = false
        · simp only [if_pos refused]
          rfl
        · simp only [if_neg refused, fillLoop_map watches, map_bind, bind_map_left]
          refine bind_congr fun run' => ?_
          have same : (run'.map through).threw = run'.threw := rfl
          by_cases threw : run'.threw = true
          · simp only [same, if_pos threw]
            rfl
          · simp only [same, if_neg threw, map_bind]
            exact bind_congr fun lvl' => bind_congr fun opp =>
              ih { run' with book := run'.book.withSideBook side.opposite opp }
    · simp only [if_neg more]
      rfl

/-! ### A call -/

theorem execute_map (watches : Watches through watch watch') (b : OrderBook) (ticket : Ticket) (o : Ptr)
    (seen : σ) :
    b.execute ticket o watch' (through seen) =
      Submitted.map through <$> b.execute ticket o watch seen := by
  have ran : b.match ticket.side o watch' (through seen) =
      Run.map through <$> b.match ticket.side o watch seen :=
    matchLoop_map watches _ _ _ _ { book := b, seen }
  unfold execute
  simp only [ran, map_bind, bind_map_left]
  refine bind_congr fun run => ?_
  have same : (run.map through).threw = run.threw := rfl
  by_cases threw : run.threw = true
  · simp only [same, if_pos threw]
    rfl
  · simp only [same, if_neg threw, map_bind]
    refine bind_congr fun x => bind_congr fun pool => ?_
    by_cases rests : x.qty > 0 ∧ ticket.type = .limit
    · simp only [if_pos rests, map_bind]
      exact bind_congr fun b' => rfl
    · simp only [if_neg rests, map_bind]
      exact bind_congr fun pool' => rfl

/-- **A whole call**. -/
theorem submit_map (watches : Watches through watch watch') (b : OrderBook) (ticket : Ticket)
    (seen : σ) :
    b.submit ticket watch' (through seen) = Submitted.map through <$> b.submit ticket watch seen := by
  unfold submit
  by_cases nothing : ticket.qty = 0
  · simp only [if_pos nothing]
    rfl
  · simp only [if_neg nothing, map_bind]
    refine bind_congr fun slot => ?_
    obtain ⟨o, pool⟩ := slot
    cases o with
    | none => rfl
    | some o =>
      simp only
      generalize (if ticket.ts = 0 then b.clock + 1 else b.clock) = clock
      split
      · rw [map_bind]
        exact bind_congr fun pool' => rfl
      · exact execute_map watches { b with pool, clock } ticket o seen

/-- **A callback that never throws** sees the trades, one after another. -/
theorem submit_folds (b : OrderBook) (ticket : Ticket) (add : σ → Trade → σ) (seen : σ) :
    b.submit ticket (fun seen trade => some (add seen trade)) seen =
      Submitted.map (List.foldl add seen) <$> b.submit ticket recorder [] := by
  have watches : Watches (List.foldl add seen) recorder fun seen trade => some (add seen trade) := by
    intro trades trade
    show some _ = some (List.foldl add seen (trades ++ [trade]))
    rw [List.foldl_append, List.foldl_cons, List.foldl_nil]
  exact submit_map watches b ticket []

end Ob.OrderBook
