/-
The limits of `RiskChecker` and what rests in the books. Orders are checked at the gateway, modifies are
not: all that rests is within the limits exactly as long as every modify that finds its order asks for a
price and a quantity within them, or for a quantity that trades away at once.
-/
import StockExchange.Gateway.Exchange
import StockExchange.Engine.Priority

universe u

namespace StockExchange

open Greedy

/-! ## Books -/

/-- The limits do not look at what is left of an order. -/
theorem Order.withinLimits_remaining (o : Order) (q : Quantity) :
    ({ o with remainingQuantity := q } : Order).WithinLimits ↔ o.WithinLimits := by
  rw [withinLimits_iff, withinLimits_iff]

/-- All that rests in the book is within the limits. -/
def BookState.LimitsHold (b : BookState) : Prop := ∀ br, ∀ n ∈ b.nodes br, n.order.WithinLimits

namespace BookState

/-- After a submission all is within the limits exactly if nothing of the order rests, or the order is. -/
theorem submitBranch_limitsHold {b : BookState} (hb : b.WF) (h : b.LimitsHold) (order : Order) (result : MatchResult)
    (env : Env) : (b.submitBranch (Branch.ofSide order.side) order result env).book.LimitsHold ↔
      ((b.remainder order).remainingQuantity ≠ 0 → order.type = OrderType.limit → order.WithinLimits) := by
  constructor
  · intro hafter hq ht
    have hrests := hafter _ _ ((mem_submitBranch hb order result env).2 (.inr ⟨hq, ht, rfl⟩))
    exact (order.withinLimits_remaining _).1 hrests
  · intro horder
    refine Branch.forall_of (Branch.ofSide order.side) (fun n hn => ?_) (fun n hn => ?_)
    · rcases (mem_submitBranch hb order result env).1 hn with hn | ⟨hq, ht, rfl⟩
      · exact h _ n hn
      · exact (order.withinLimits_remaining _).2 (horder hq ht)
    · rw [submitBranch_nodes_other hb] at hn
      rcases List.mem_append.1 hn with hn | hn
      · rcases mem_leftover Node.reduce hn with hn | ⟨m, hm, r, rfl, -⟩
        · exact h _ n (List.mem_filter.1 hn).1
        · exact (m.order.withinLimits_remaining _).2 (h _ m (List.mem_filter.1 hm).1)
      · exact h _ n (List.mem_filter.1 hn).1

theorem LimitsHold.without {b : BookState} (hb : b.WF) (h : b.LimitsHold) {br : Branch} {n : Node} (hn : n ∈ b.nodes br) :
    (b.without br n).LimitsHold := without_forall hb hn h

end BookState

namespace OrderBook

/-- The order that the index has for an id. -/
def named (b : OrderBook) (id : OrderID) : Option Order := (b.queryOrder id).join

theorem named_of_none {b : OrderBook} {id : OrderID} (h : b.orderIndex id = none) : b.named id = none := by
  unfold named BookState.queryOrder OrderIndex.get
  rw [h]
  rfl

theorem named_of_some {b : OrderBook} {id : OrderID} {br : Branch} {n : Node} (hn : n ∈ b.nodes br)
    (h : b.orderIndex id = some ⟨br.toSide, n.order.price, n.addr⟩) : b.named id = some n.order := by
  unfold named BookState.queryOrder OrderIndex.get
  rw [h]
  simp only [b.wf.deref_eq hn]
  rfl

/-- A modify that keeps the limits: it finds no order, asks for a price and a quantity within the limits,
or the orders it reaches on the other side cover its quantity, so that nothing of it rests. -/
def ModifyKeepsLimits (b : OrderBook) (request : ModifyRequest) : Prop :=
  ∀ existing ∈ b.named request.orderId, (BookState.modified existing request).WithinLimits ∨
    request.quantity.toNat ≤ totalRemaining
      ((b.eligible (Branch.ofSide existing.side) (BookState.modified existing request)).map Node.order)

instance (b : OrderBook) (request : ModifyRequest) : Decidable (b.ModifyKeepsLimits request) :=
  inferInstanceAs (Decidable (∀ existing ∈ b.named request.orderId, _ ∨ _))

/-- A request that keeps the limits once it is applied. Submitted orders have been checked, cancels only remove. -/
def KeepsLimits (b : OrderBook) : Request → Prop
  | .submit _ => True
  | .cancel _ => True
  | .modify request => b.ModifyKeepsLimits request

instance (b : OrderBook) (r : Request) : Decidable (b.KeepsLimits r) :=
  match r with
  | .submit _ => .isTrue trivial
  | .cancel _ => .isTrue trivial
  | .modify request => inferInstanceAs (Decidable (b.ModifyKeepsLimits request))

variable {b : OrderBook} (h : b.LimitsHold) (env : Env)
include h

theorem submit_limitsHold {order : Order} (ho : order.WithinLimits) : (b.submit order env).book.LimitsHold := by
  rw [submit_book]
  exact (BookState.submitBranch_limitsHold b.wf h order {} env).2 fun _ _ => ho

theorem cancel_limitsHold (id : OrderID) : (b.cancel id env).book.LimitsHold := by
  rcases b.cancel_cases id env with ⟨-, hbook⟩ | ⟨br, n, hn, -, -, hbook⟩
  · rw [hbook]
    exact h
  · rw [hbook]
    exact h.without b.wf hn

theorem modify_limitsHold (request : ModifyRequest) :
    (b.modify request env).book.LimitsHold ↔ b.ModifyKeepsLimits request := by
  unfold ModifyKeepsLimits
  rcases b.modify_cases request env with ⟨hi, hbook⟩ | ⟨br, n, hn, hid, hi, hbook⟩
  · rw [hbook, named_of_none hi]
    exact ⟨fun _ _ hmem => (nomatch hmem), fun _ => h⟩
  · obtain ⟨htype, -, hside⟩ := b.wf.resting br n hn
    have hwf := BookState.without_wf b.wf hn
    have hafter := BookState.submitBranch_limitsHold hwf (h.without b.wf hn) (BookState.modified n.order request) {} env
    -- the order that is taken out is not on the side that is swept
    have heligible : (b.without br n).eligible br (BookState.modified n.order request) =
        b.eligible br (BookState.modified n.order request) := by
      unfold BookState.eligible
      rw [BookState.without_nodes_other]
    have hrest : ((b.without br n).remainder (BookState.modified n.order request)).remainingQuantity ≠ 0 ↔
        ¬ request.quantity.toNat ≤ totalRemaining ((b.eligible br (BookState.modified n.order request)).map Node.order) := by
      have hrem := remainder_toNat (b.without br n) (BookState.modified n.order request)
      rw [show Branch.ofSide (BookState.modified n.order request).side = br from hside, heligible] at hrem
      have hq : (BookState.modified n.order request).remainingQuantity = request.quantity := rfl
      rw [Ne, ← quantity_toNat_eq_zero, hrem, hq]
      omega
    rw [show Branch.ofSide (BookState.modified n.order request).side = br from hside] at hafter
    rw [hbook, hafter, hrest, named_of_some hn hi]
    constructor
    · rintro hkeep _ ⟨⟩
      rw [hside]
      by_cases hle : request.quantity.toNat ≤
          totalRemaining ((b.eligible br (BookState.modified n.order request)).map Node.order)
      · exact .inr hle
      · exact .inl (hkeep hle htype)
    · intro hkeep hnot _
      have hor := hkeep n.order rfl
      rw [hside] at hor
      exact hor.resolve_right hnot

end OrderBook

/-! ## Runs of the exchange -/

/-- An order to be submitted is within the limits. -/
def Task.Checked (task : Task) : Prop := ∀ order, task.request = .submit order → order.WithinLimits

theorem Session.Accepts.checkedTask {c : ClientID} {risk risk' : RiskChecker} {task : Task}
    (h : Session.Accepts c risk task risk') : task.Checked := by
  intro order ho
  have hchecked := h.checked
  rw [ho] at hchecked
  exact (RiskChecker.validateOrder_ok.1 hchecked.2).2.1

namespace Exchange

variable {W : Type u}

/-- Everything that rests in any book is within the limits. -/
def LimitsHold (x : Exchange W) : Prop := x.pool.registry.All fun book => book.LimitsHold

/-- A step that keeps the limits: any but the application of a modify that does not. -/
def KeepsLimits (x : Exchange W) (a : ExchangeAction W) : Prop := ∀ q ∈ x.applying a, q.1.KeepsLimits q.2.request

instance (x : Exchange W) (a : ExchangeAction W) : Decidable (x.KeepsLimits a) :=
  inferInstanceAs (Decidable (∀ q ∈ x.applying a, q.1.KeepsLimits q.2.request))

variable [DecidableEq W]

/-- Exactly the steps of `KeepsLimits` keep the limits, as long as submitted orders have passed the risk check. -/
theorem step_limitsHold {x : Exchange W} (a : ExchangeAction W) (htasks : x.pool.AllTasks Task.Checked)
    (h : x.LimitsHold) : (∀ x' ∈ x.step a, x'.LimitsHold) ↔ x.KeepsLimits a := by
  refine (forall_step_iff ?_).trans (forall₂_congr fun q hq => h.set_iff.trans ?_)
  · intro registry hr
    rcases hr with rfl | ⟨symbol, rfl⟩
    · exact h
    · refine h.getOrderBook fun br n hn => ?_
      rw [show (OrderBook.init symbol).nodes br = [] from BookState.init_nodes symbol br] at hn
      cases hn
  · obtain ⟨book, task⟩ := q
    obtain ⟨w, hw, hb⟩ := applying_eq_some hq
    have hbook : book.LimitsHold := h _ _ hb
    cases hr : task.request with
    | submit order =>
      -- checked when the packet came in, before it was queued
      have ho := htasks.taken w task (by rw [hw]; rfl) order hr
      exact iff_of_true (OrderBook.submit_limitsHold hbook _ ho) trivial
    | cancel req => exact iff_of_true (OrderBook.cancel_limitsHold hbook _ _) trivial
    | modify request => exact OrderBook.modify_limitsHold hbook _ request

/-- All that rests is within the limits in every state of a run exactly when the steps of the run keep the
limits: when every modify applied to a resting order is within them or leaves nothing to rest. -/
theorem limitsHold_iff (env : Env) (actions : List (ExchangeAction W)) :
    (∀ pre, pre <+: actions → ∀ x, Machine.run step (start W env) pre = some x → x.LimitsHold) ↔
      Machine.Along step KeepsLimits (start W env) actions := by
  have hI : ∀ (x : Exchange W) (a : ExchangeAction W) (x' : Exchange W), x.step a = some x' →
      x.pool.AllTasks Task.Checked → x'.pool.AllTasks Task.Checked :=
    fun x a x' hs htasks => allTasks_step hs (fun _ _ _ _ ht => ht.checkedTask) htasks
  exact Machine.always_iff_along hI (fun x a => step_limitsHold a) actions _ (ThreadPool.start_allTasks _ env)
    (fun _ _ hb => nomatch hb)

/-- One client submits an order of 5 at 100 and modifies it to the given price and quantity; two workers take
a request each, one after the other. -/
def modifyRun (price : Price) (quantity : Quantity) : List (ExchangeAction Bool) :=
  let symbol : Packed.Chars 8 := (Packed.chars 8).get [65]
  let entry : WALEntry := ⟨0, .replicate 52 0⟩
  let net : NetOrder := ⟨0, symbol, 0, 0, 0, 0, 0⟩
  [.connect, .registerSymbol [65], .packet 1 ⟨MsgType.order, NetOrder.packed.put ⟨7, symbol, 0, 0, 100, 5, 1⟩⟩ [],
    .packet 1 ⟨MsgType.modify, NetModify.packed.put ⟨7, symbol, price, quantity, 2⟩⟩ []] ++
    [true, false].flatMap fun w => [.pool (.dequeue w), .pool (.getOrderBook w), .pool (.lock w),
      .pool (.log w entry net), .pool (.apply w), .pool (.unlock w)]

/-- A modify within the limits. -/
theorem limitsHold_iff_small : (Machine.run step (start Bool ⟨1, fun _ => 0, 0⟩) (modifyRun 99 6)).isSome ∧
    ∀ pre, pre <+: modifyRun 99 6 → ∀ x, Machine.run step (start Bool ⟨1, fun _ => 0, 0⟩) pre = some x → x.LimitsHold :=
  ⟨by decide, (limitsHold_iff ⟨1, fun _ => 0, 0⟩ (modifyRun 99 6)).2 (by decide)⟩

/-- After a modify to a quantity of 4000000000 that quantity rests, worth 400000000000. -/
theorem modify_breaks_limits : ∃ x, Machine.run step (start Bool ⟨1, fun _ => 0, 0⟩) (modifyRun 100 4000000000) = some x ∧
    ¬ x.LimitsHold := by
  have hrun : (Machine.run step (start Bool ⟨1, fun _ => 0, 0⟩) (modifyRun 100 4000000000)).any fun x =>
      (x.pool.registry [65]).any fun book => (book.nodes .buy).any fun n => ¬ n.order.WithinLimits := by decide
  obtain ⟨x, hx, hany⟩ := (Option.any_eq_true _ _).1 hrun
  obtain ⟨book, hbook, hany⟩ := (Option.any_eq_true _ _).1 hany
  obtain ⟨n, hn, hnot⟩ := List.any_eq_true.1 hany
  exact ⟨x, hx, fun hlimits => of_decide_eq_true hnot (hlimits [65] book hbook .buy n hn)⟩

end Exchange

end StockExchange
