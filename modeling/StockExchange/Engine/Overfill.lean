/-
What an order trades over its whole life. `modifyOrder` sets the quantity and what remains of it to the quantity of the
request and forgets what was filled before: an order can trade more than was ever asked for it. It does not as
long as every modify that finds its order leaves room for what has been filled (`never_overfilled`).
-/
import StockExchange.Engine.Ledger
import StockExchange.Lib.Machine

namespace StockExchange

/-- The quantity that an operation asks for an id. -/
def Op.asks (id : OrderID) : Op → ℕ
  | .submit order => if order.orderId = id then order.quantity.toNat else 0
  | .cancel _ => 0
  | .modify request => if request.orderId = id then request.quantity.toNat else 0

/-- The largest quantity that a submission or a modify has asked for an id. A modify counts also where no order with the id
rests and `modifyOrder` answers false. -/
def largestAsked (ops : List Op) (id : OrderID) : ℕ := (ops.map (Op.asks id)).foldr max 0

theorem largestAsked_snoc (ops : List Op) (op : Op) (id : OrderID) :
    largestAsked (ops ++ [op]) id = max (largestAsked ops id) (op.asks id) := by
  unfold largestAsked
  rw [List.map_append]
  induction ops with
  | nil => simp
  | cons a ops ih =>
    rw [List.map_cons, List.cons_append, List.foldr_cons, List.foldr_cons, ih, max_assoc]

theorem filledBy_append (fills fills' : List Fill) (id : OrderID) :
    filledBy (fills ++ fills') id = filledBy fills id + filledBy fills' id := by
  unfold filledBy
  rw [List.map_append, List.sum_append]

namespace Run

/-- All fills of a run. -/
def fills (r : Run) : List Fill := r.events.flatMap fun e => e.result.fills

theorem step_fills (r : Run) (op : Op) : (r.step op).fills = r.fills ++ (r.book.event op r.env).result.fills := by
  unfold fills step
  rw [List.flatMap_append, List.flatMap_singleton]

/-- A modify that finds its order asks for a quantity that, with what has been filled of the order, is no more than
has been asked for it, or nothing has been filled yet. -/
def LeavesRoom (r : Run) : Op → Prop
  | .modify request => (r.book.orderIndex.get request.orderId).isSome → filledBy r.fills request.orderId = 0 ∨
    filledBy r.fills request.orderId + request.quantity.toNat ≤
      largestAsked (r.events.map Event.op) request.orderId
  | _ => True

instance (r : Run) (op : Op) : Decidable (r.LeavesRoom op) :=
  match op with
  | .submit _ => .isTrue trivial
  | .cancel _ => .isTrue trivial
  | .modify request => inferInstanceAs (Decidable ((r.book.orderIndex.get request.orderId).isSome →
    filledBy r.fills request.orderId = 0 ∨ filledBy r.fills request.orderId + request.quantity.toNat ≤
      largestAsked (r.events.map Event.op) request.orderId))

end Run

/-- What an event sets for an id: the quantity of its submission, or of a modify that finds it. -/
theorem Event.sets_eq_some {b : OrderBook} {op : Op} {env : Env} {id : OrderID} {q : Quantity}
    (h : (b.event op env).sets id = some q) :
    (∃ order, op = .submit order ∧ order.orderId = id ∧ order.quantity = q) ∨
      ∃ request, op = .modify request ∧ request.orderId = id ∧ request.quantity = q ∧ (b.orderIndex.get id).isSome := by
  cases op with
  | submit order =>
    obtain ⟨hid, hq⟩ := Option.ite_none_right_eq_some.1 h
    exact .inl ⟨order, rfl, hid, Option.some.inj hq⟩
  | cancel id' => cases h
  | modify request =>
    obtain ⟨⟨hid, hsome⟩, hq⟩ := Option.ite_none_right_eq_some.1 h
    exact .inr ⟨request, rfl, hid, Option.some.inj hq, hsome⟩

namespace Run

/-- What has been filled of an order, with what remains of it, is at most what was asked for it, and nothing is
filled of an order before it is submitted. -/
structure Bounded (ops : List Op) (r : Run) : Prop where
  total : ∀ id, filledBy r.fills id + r.book.remaining id ≤ largestAsked ops id
  fresh : ∀ id, id ∉ submittedIds ops → filledBy r.fills id = 0

/-- The step lemma: an event takes from what remains, unless it sets it anew. -/
theorem Bounded.step {ops : List Op} {r : Run} {op : Op} (h : Bounded ops r) (hevents : r.events.map Event.op = ops)
    (hu : r.book.IdsOk) (hsub : ∀ id, r.book.Rests id → id ∈ submittedIds ops) (hfresh : FreshIds (ops ++ [op]))
    (hfull : ∀ order, op = .submit order → order.remainingQuantity = order.quantity) (hroom : r.LeavesRoom op) :
    Bounded (ops ++ [op]) (r.step op) := by
  have hop : ∀ order, op = .submit order → ¬ r.book.Rests order.orderId ∧ order.remainingQuantity = order.quantity := by
    rintro order rfl
    exact ⟨fun hr => hfresh.last (hsub _ hr), hfull order rfl⟩
  have hbalance := event_balance r.book hu op r.env hop
  refine ⟨fun id => ?_, fun id hid => ?_⟩
  · have ht := h.total id
    have hb := hbalance id
    rw [step_fills, filledBy_append, largestAsked_snoc]
    show _ + (r.book.event op r.env).after.remaining id ≤ _
    cases hset : (r.book.event op r.env).sets id with
    | none =>
      rw [hset] at hb
      simp only [Option.map_none, Option.getD_none] at hb
      omega
    | some q =>
      -- what is set anew comes on top of what was filled before
      have hnew : op.asks id = q.toNat ∧
          (filledBy r.fills id = 0 ∨ filledBy r.fills id + q.toNat ≤ largestAsked ops id) := by
        rcases Event.sets_eq_some hset with ⟨order, rfl, rfl, rfl⟩ | ⟨request, rfl, rfl, rfl, hsome⟩
        · exact ⟨if_pos rfl, .inl (h.fresh _ hfresh.last)⟩
        · have hleaves := hroom hsome
          rw [hevents] at hleaves
          exact ⟨if_pos rfl, hleaves⟩
      rw [hset] at hb
      simp only [Option.map_some, Option.getD_some] at hb
      omega
  · rw [submittedIds_snoc, List.mem_append, not_or] at hid
    have hr : ¬ r.book.Rests id := fun hr => hid.1 (hsub id hr)
    have hset : (r.book.event op r.env).sets id = none := by
      refine Option.eq_none_iff_forall_ne_some.2 fun q hq => ?_
      rcases Event.sets_eq_some hq with ⟨order, rfl, rfl, -⟩ | ⟨request, -, -, -, hsome⟩
      · exact hid.2 (List.mem_singleton_self _)
      · obtain ⟨e, he⟩ := Option.isSome_iff_exists.1 hsome
        exact hr ((BookState.rests_iff r.book.wf hu id).2 ⟨e, he⟩)
    have hb := hbalance id
    rw [hset, Option.map_none, Option.getD_none, BookState.remaining_eq_zero r.book.wf hr] at hb
    rw [step_fills, filledBy_append, h.fresh id hid.1]
    omega

end Run

end StockExchange
