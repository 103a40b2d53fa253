/-
What a buyer pays. The risk check bounds the price field of an order times its quantity; a fill costs what `matchOrders`
picks, the price of the seller where the seller's timestamp is the smaller one. As long as no buyer meets a
seller of that kind that asks for more than the buyer's price field, the fills of an order that is not modified cost
no more than its price field times its quantity, in whichever books its orders rest.
-/
import StockExchange.Engine.Overfill
import StockExchange.Engine.Price
import StockExchange.Engine.UniqueBooks

namespace StockExchange

/-! ## The cost of fills -/

/-- What the buyer with the id pays for the fills. -/
def spent (fills : List Fill) (id : OrderID) : ℕ :=
  (fills.map fun fill => if fill.buyOrderId = id then fill.price.toNat * fill.quantity.toNat else 0).sum

theorem spent_append (fills fills' : List Fill) (id : OrderID) :
    spent (fills ++ fills') id = spent fills id + spent fills' id := by
  simp only [spent, List.map_append, List.sum_append]

theorem spent_eq_zero {fills : List Fill} {id : OrderID} (h : ∀ fill ∈ fills, fill.buyOrderId ≠ id) :
    spent fills id = 0 := by
  refine List.sum_eq_zero fun cost hcost => ?_
  obtain ⟨fill, hfill, rfl⟩ := List.mem_map.1 hcost
  exact if_neg (h fill hfill)

/-- At no more than a price each, fills cost no more than that price for the filled quantity. -/
theorem spent_le {id : OrderID} {price : ℕ} : ∀ {fills : List Fill},
    (∀ fill ∈ fills, fill.buyOrderId = id → fill.price.toNat ≤ price) → spent fills id ≤ price * filledBy fills id
  | [], _ => Nat.zero_le _
  | fill :: fills, h => by
    have ih : spent fills id ≤ price * filledBy fills id := spent_le fun f hf => h f (List.mem_cons_of_mem _ hf)
    have hfill := h fill (List.mem_cons_self ..)
    unfold spent filledBy at ih ⊢
    rw [List.map_cons, List.sum_cons, List.map_cons, List.sum_cons, Nat.mul_add]
    refine Nat.add_le_add ?_ ih
    by_cases hbuy : fill.buyOrderId = id
    · rw [if_pos hbuy, if_pos (.inl hbuy)]
      exact Nat.mul_le_mul_right _ (hfill hbuy)
    · rw [if_neg hbuy]
      exact Nat.zero_le _

/-- The comparison of `matchOrders` picks the seller's price, and it is above the buyer's. -/
def Overpays (buy sell : Order) : Prop := sell.timestamp < buy.timestamp ∧ buy.price < sell.price

instance (buy sell : Order) : Decidable (Overpays buy sell) :=
  inferInstanceAs (Decidable (sell.timestamp < buy.timestamp ∧ buy.price < sell.price))

theorem execPrice_le_of_not_overpays {buy sell : Order} (h : ¬ Overpays buy sell) :
    (execPrice buy sell).toNat ≤ buy.price.toNat := by
  unfold execPrice
  split
  next ht => exact UInt64.le_iff_toNat_le.1 (UInt64.not_lt.1 fun hlt => h ⟨ht, hlt⟩)
  next => exact Nat.le_refl _

/-! ## One operation -/

namespace OrderBook

/-- The operation is a modify that finds the order with the id. -/
def Finds (b : OrderBook) (op : Op) (id : OrderID) : Prop :=
  match op with
  | .modify request => request.orderId = id ∧ (b.orderIndex.get id).isSome
  | _ => False

instance (b : OrderBook) (op : Op) (id : OrderID) : Decidable (b.Finds op id) :=
  match op with
  | .modify request => inferInstanceAs (Decidable (request.orderId = id ∧ (b.orderIndex.get id).isSome))
  | .submit _ | .cancel _ => .isFalse False.elim

variable {b : OrderBook} {op : Op}

/-- The order that a modify finds rests. -/
theorem Finds.rests {id : OrderID} (h : b.Finds op id) (hu : b.IdsOk) : b.Rests id := by
  cases op with
  | modify request => exact (BookState.rests_iff b.wf hu id).2 (Option.isSome_iff_exists.1 h.2)
  | submit order => exact h.elim
  | cancel id' => exact h.elim

/-- What an operation submits: its own order, or the order that a modify has found and taken out. -/
theorem submission_eq_some {b' : BookState} {order : Order} (h : b.submission op = some (b', order)) :
    (op = .submit order ∧ b' = b.toBookState) ∨ ∃ br, ∃ n ∈ b.nodes br, ∃ request, op = .modify request ∧
      n.order.orderId = request.orderId ∧ b.Finds op request.orderId ∧ b' = b.without br n ∧
      order = BookState.modified n.order request := by
  obtain ⟨o, ho, -⟩ := b.applies op { clock := fun _ => 0 }
  cases ho with
  | submit o =>
    cases h
    exact .inl ⟨rfl, rfl⟩
  | cancelMiss id hi => cases h
  | cancel br n hn hi => cases h
  | modifyMiss request hi =>
    rw [submission_modify_none hi] at h
    cases h
  | modify br n request hn hid hi =>
    rw [submission_modify hn hid hi] at h
    cases h
    refine .inr ⟨br, n, hn, request, rfl, hid, ⟨rfl, ?_⟩, rfl, rfl⟩
    unfold OrderIndex.get
    rw [← hid, hi]
    rfl

/-- The two parties of one of the matches of the operation. -/
def Matches (b : OrderBook) (op : Op) (buy sell : Order) : Prop :=
  ∃ b' order n, b.submission op = some (b', order) ∧ b'.Reaches order n ∧
    buy = (Branch.ofSide order.side).buyOf order n.order ∧ sell = (Branch.ofSide order.side).sellOf order n.order

/-- The orders that a submission meets rest in the book. -/
theorem rests_of_reaches {b' : BookState} {order : Order} {n : Node} (h : b.submission op = some (b', order))
    (hn : b'.Reaches order n) : ∃ br, n ∈ b.nodes br := by
  obtain ⟨front, back, heq, -⟩ := hn
  have hmem : n ∈ b'.eligible (Branch.ofSide order.side) order := by
    rw [heq]
    exact List.mem_append_right _ (List.mem_cons_self ..)
  have hn' : n ∈ b'.nodes (Branch.ofSide order.side).other := (List.mem_filter.1 hmem).1
  rcases submission_eq_some h with ⟨-, rfl⟩ | ⟨br, m, hm, request, -, -, -, rfl, rfl⟩
  · exact ⟨_, hn'⟩
  · rw [b.wf.modified_side hm request, BookState.without_nodes_other] at hn'
    exact ⟨_, hn'⟩

/-- Every fill is of a match. -/
theorem matches_of_mem {env : Env} {fill : Fill} (hf : fill ∈ (b.apply op env).result.fills) :
    ∃ buy sell, b.Matches op buy sell ∧ fill.buyOrderId = buy.orderId ∧ fill.price = execPrice buy sell := by
  cases hsub : b.submission op with
  | none =>
    rw [apply_no_fills env hsub] at hf
    cases hf
  | some sub =>
    obtain ⟨b', order⟩ := sub
    obtain ⟨-, hfills⟩ := apply_fills env hsub
    have hmem : ∀ t ∈ b'.taken order, b'.Reaches order t.1 := fun t ht =>
      (b'.mem_taken order t.1).1 (List.mem_map_of_mem ht)
    have hpairs : List.Forall₂ (fun fill (_ : Node × Quantity) => (∃ buy sell, b.Matches op buy sell ∧
        fill.buyOrderId = buy.orderId ∧ fill.price = execPrice buy sell) ∧ True)
        (b.apply op env).result.fills (b'.taken order) := by
      refine ((List.forall₂_and_left _ _).2 ⟨hmem, hfills⟩).flip.imp ?_
      rintro fill t ⟨hn, ⟨hbuy, -⟩, hprice⟩
      exact ⟨⟨_, _, ⟨b', order, t.1, hsub, hn, rfl, rfl⟩, hbuy, hprice⟩, trivial⟩
    exact ((List.forall₂_and_left _ _).1 hpairs).1 fill hf

/-- The buyer of a match is an order that rests in the book, the submitted order, or one that a modify has found. -/
theorem Matches.buyer {buy sell : Order} (h : b.Matches op buy sell) :
    (∃ br, ∃ m ∈ b.nodes br, m.order = buy) ∨ op = .submit buy ∨ b.Finds op buy.orderId := by
  obtain ⟨b', order, n, hsub, hn, rfl, -⟩ := h
  cases Branch.ofSide order.side with
  | sell =>
    obtain ⟨br, hm⟩ := rests_of_reaches hsub hn
    exact .inl ⟨br, n, hm, rfl⟩
  | buy =>
    rcases submission_eq_some hsub with ⟨hop, -⟩ | ⟨br, m, -, request, -, hid, hfinds, -, rfl⟩
    · exact .inr (.inl hop)
    · refine .inr (.inr ?_)
      show b.Finds op m.order.orderId
      rw [hid]
      exact hfinds

end OrderBook

/-- At no more than a price each, an operation leaves the buyer as much as that price pays for. -/
theorem event_cost (b : OrderBook) (hu : b.IdsOk) (op : Op) (env : Env)
    (hfresh : ∀ order, op = .submit order → ¬ b.Rests order.orderId ∧ order.remainingQuantity = order.quantity)
    {id : OrderID} {price : ℕ} (hprice : ∀ fill ∈ (b.event op env).result.fills, fill.buyOrderId = id →
      fill.price.toNat ≤ price) :
    spent (b.event op env).result.fills id + price * (b.event op env).after.remaining id ≤
      price * (((b.event op env).sets id).map UInt32.toNat).getD (b.remaining id) := by
  have hcost := spent_le hprice
  rw [event_balance b hu op env hfresh id, Nat.mul_add, Nat.mul_add]
  omega

/-! ## The books of a registry -/

/-- A modify has found the order. -/
def Modified (events : List Event) (id : OrderID) : Prop := ∃ e ∈ events, e.before.Finds e.op id

instance (events : List Event) (id : OrderID) : Decidable (Modified events id) :=
  inferInstanceAs (Decidable (∃ e ∈ events, e.before.Finds e.op id))

def fillsOf (events : List Event) : List Fill := events.flatMap fun e => e.result.fills

theorem fillsOf_snoc (events : List Event) (e : Event) : fillsOf (events ++ [e]) = fillsOf events ++ e.result.fills := by
  simp [fillsOf]

theorem modified_snoc {events : List Event} {e : Event} {id : OrderID} :
    Modified (events ++ [e]) id ↔ Modified events id ∨ e.before.Finds e.op id := by
  simp only [Modified, List.mem_append, List.mem_singleton, or_and_right, exists_or, exists_eq_left]

/-- No buyer that has not been modified meets a seller that the timestamps prefer and that asks for more. -/
def OrderBook.PaysOwnPrice (b : OrderBook) (events : List Event) (op : Op) : Prop :=
  ∀ buy sell, b.Matches op buy sell → Modified events buy.orderId ∨ b.Finds op buy.orderId ∨ ¬ Overpays buy sell

instance (b : OrderBook) (events : List Event) (op : Op) : Decidable (b.PaysOwnPrice events op) :=
  decidable_of_iff (∀ sub ∈ b.submission op, ∀ t ∈ sub.1.taken sub.2,
      Modified events ((Branch.ofSide sub.2.side).buyOf sub.2 t.1.order).orderId ∨
        b.Finds op ((Branch.ofSide sub.2.side).buyOf sub.2 t.1.order).orderId ∨
        ¬ Overpays ((Branch.ofSide sub.2.side).buyOf sub.2 t.1.order)
          ((Branch.ofSide sub.2.side).sellOf sub.2 t.1.order)) <| by
    constructor
    · rintro h buy sell ⟨b', order, n, hsub, hn, rfl, rfl⟩
      obtain ⟨t, ht, rfl⟩ := List.mem_map.1 ((b'.mem_taken order n).2 hn)
      exact h _ hsub t ht
    · rintro h ⟨b', order⟩ hsub t ht
      exact h _ _ ⟨b', order, t.1, hsub, (b'.mem_taken order t.1).1 (List.mem_map_of_mem ht), rfl, rfl⟩

namespace BookRegistry

/-- What has been paid for an order, and what is left of it at its price, is within its price times its quantity;
what is left of it still has that price. -/
structure PaidFor (registry : BookRegistry) (events : List Event) (order : Order) : Prop where
  total : spent (fillsOf events) order.orderId ≤ order.price.toNat * order.quantity.toNat
  left : ∀ symbol book, registry symbol = some book → spent (fillsOf events) order.orderId +
    order.price.toNat * book.remaining order.orderId ≤ order.price.toNat * order.quantity.toNat
  price : ∀ symbol book, registry symbol = some book → ∀ br, ∀ n ∈ book.nodes br,
    n.order.orderId = order.orderId → n.order.price = order.price

/-- After the events: every id rests once at most, only submitted orders rest or buy, and every submitted order that has
not been modified is paid for. -/
structure Paid (registry : BookRegistry) (events : List Event) : Prop where
  once : registry.OnceEach
  rests : ∀ id, registry.Rests id → id ∈ submittedIds (events.map Event.op)
  buyers : ∀ fill ∈ fillsOf events, fill.buyOrderId ∈ submittedIds (events.map Event.op)
  submitted : ∀ order, .submit order ∈ events.map Event.op → ¬ Modified events order.orderId →
    registry.PaidFor events order

theorem empty_paid : empty.Paid [] where
  once := empty_onceEach
  rests _ := fun ⟨_, _, hb, _⟩ => nomatch hb
  buyers _ h := nomatch h
  submitted _ h := nomatch h

theorem Paid.getOrderBook {registry : BookRegistry} {events : List Event} (h : registry.Paid events) (symbol : Symbol) :
    (registry.getOrderBook symbol).2.Paid events where
  once := h.once.getOrderBook symbol
  rests id := fun ⟨s, book, hb, hr⟩ => h.rests id ⟨s, book, rests_of_getOrderBook hb hr, hr⟩
  buyers := h.buyers
  submitted order ho hm := by
    have hp := h.submitted order ho hm
    refine ⟨hp.total, fun s book hb => ?_, fun s book hb br n hn hid => ?_⟩
    · by_cases hr : book.Rests order.orderId
      · exact hp.left s book (rests_of_getOrderBook hb hr)
      · rw [BookState.remaining_eq_zero book.wf hr]
        exact hp.total
    · exact hp.price s book (rests_of_getOrderBook hb ⟨br, n, hn, hid⟩) br n hn hid

section Apply

variable {registry : BookRegistry} {events : List Event} {symbol : Symbol} {book : OrderBook} {op : Op} {env : Env}

/-- The fills of an operation are at the price of the buyer at most. -/
theorem price_le_own (hown : book.PaysOwnPrice events op) {order : Order}
    (hm : ¬ Modified (events ++ [book.event op env]) order.orderId)
    (hrests : ∀ br, ∀ n ∈ book.nodes br, n.order.orderId = order.orderId → n.order.price = order.price)
    (hsubmit : ∀ o, op = .submit o → o.orderId = order.orderId → o.price = order.price) :
    ∀ fill ∈ (book.event op env).result.fills, fill.buyOrderId = order.orderId →
      fill.price.toNat ≤ order.price.toNat := by
  rw [modified_snoc, not_or] at hm
  intro fill hfill hid
  obtain ⟨buy, sell, hmatch, hbuy, hprice⟩ := OrderBook.matches_of_mem hfill
  have hbuyer : buy.orderId = order.orderId := hbuy.symm.trans hid
  have hfinds : ¬ book.Finds op buy.orderId := by
    rw [hbuyer]
    exact hm.2
  have hfair : ¬ Overpays buy sell := by
    refine ((hown buy sell hmatch).resolve_left ?_).resolve_left hfinds
    rw [hbuyer]
    exact hm.1
  have hown' : buy.price = order.price := by
    rcases hmatch.buyer with ⟨br, m, hmem, rfl⟩ | hop | hfound
    · exact hrests br m hmem hbuyer
    · exact hsubmit buy hop hbuyer
    · exact absurd hfound hfinds
  rw [hprice, ← hown']
  exact execPrice_le_of_not_overpays hfair

/-- Paid for, book by book: in the book that has changed, and in another one if something of the order rests there. -/
theorem paidFor_set {events' : List Event} {book' : OrderBook} {order : Order}
    (htotal : spent (fillsOf events') order.orderId ≤ order.price.toNat * order.quantity.toNat)
    (hleft : spent (fillsOf events') order.orderId + order.price.toNat * book'.remaining order.orderId ≤
      order.price.toNat * order.quantity.toNat)
    (hprice : ∀ br, ∀ n ∈ book'.nodes br, n.order.orderId = order.orderId → n.order.price = order.price)
    (hother : ∀ s b, s ≠ symbol → registry s = some b → b.Rests order.orderId →
      spent (fillsOf events') order.orderId + order.price.toNat * b.remaining order.orderId ≤
        order.price.toNat * order.quantity.toNat ∧
      ∀ br, ∀ n ∈ b.nodes br, n.order.orderId = order.orderId → n.order.price = order.price) :
    (registry.set symbol book').PaidFor events' order := by
  refine ⟨htotal, fun s b hs => ?_, fun s b hs br n hn hid => ?_⟩
  · by_cases heq : s = symbol
    · subst heq
      rw [set_self] at hs
      cases hs
      exact hleft
    · rw [set_of_ne heq] at hs
      by_cases hr : b.Rests order.orderId
      · exact (hother s b heq hs hr).1
      · rw [BookState.remaining_eq_zero b.wf hr]
        exact htotal
  · by_cases heq : s = symbol
    · subst heq
      rw [set_self] at hs
      cases hs
      exact hprice br n hn hid
    · rw [set_of_ne heq] at hs
      exact (hother s b heq hs ⟨br, n, hn, hid⟩).2 br n hn hid

/-- An order that was submitted before stays paid for. -/
theorem PaidFor.apply {order : Order} (hp : registry.PaidFor events order) (honce : registry.OnceEach)
    (hb : registry symbol = some book)
    (hfresh : ∀ o, op = .submit o → ¬ book.Rests o.orderId ∧ o.remainingQuantity = o.quantity)
    (hother : ∀ o, op = .submit o → o.orderId ≠ order.orderId) (hown : book.PaysOwnPrice events op)
    (hm : ¬ Modified (events ++ [book.event op env]) order.orderId) :
    (registry.set symbol (book.apply op env).book).PaidFor (events ++ [book.event op env]) order := by
  have hfinds : ¬ book.Finds op order.orderId := fun hf => hm (modified_snoc.2 (.inr hf))
  have hprice := price_le_own hown hm (hp.price symbol book hb) fun o ho hid => absurd hid (hother o ho)
  have hsets : (book.event op env).sets order.orderId = none := by
    by_contra hsome
    obtain ⟨q, hq⟩ := Option.ne_none_iff_exists'.1 hsome
    rcases Event.sets_eq_some hq with ⟨o, ho, hid, -⟩ | ⟨request, rfl, hid, -, hfound⟩
    · exact hother o ho hid
    · exact hfinds ⟨hid, hfound⟩
  have hcost := event_cost book (honce.books symbol book hb) op env hfresh hprice
  rw [hsets, Option.map_none, Option.getD_none, show (book.event op env).after = (book.apply op env).book from rfl] at hcost
  have hleft := hp.left symbol book hb
  refine paidFor_set ?_ ?_ ?_ fun s b hne hs hr => ⟨?_, hp.price s b hs⟩
  · rw [fillsOf_snoc, spent_append]
    omega
  · rw [fillsOf_snoc, spent_append]
    omega
  · refine OrderBook.apply_forall (P := fun o => o.orderId = order.orderId → o.price = order.price) ?_ op env ?_ ?_
      (hp.price symbol book hb)
    · exact fun o r h _ => h
    · exact fun o ho q _ hid => absurd hid (hother o ho)
    · rintro br n _ request rfl hid hi q _ hid'
      refine absurd ⟨hid.symm.trans hid', ?_⟩ hfinds
      unfold OrderIndex.get
      rw [← show n.order.orderId = order.orderId from hid', hi]
      rfl
  · -- the order rests in another book, so nothing of it trades here
    have hnot : ¬ book.Rests order.orderId := fun hr' => hne (honce.apart s symbol b book _ hs hb hr hr')
    rw [BookState.remaining_eq_zero book.wf hnot, Nat.mul_zero] at hcost
    have hthere := hp.left s b hs
    rw [fillsOf_snoc, spent_append]
    omega

/-- A submitted order is paid for by its first fills. -/
theorem Paid.submit {order : Order} (h : registry.Paid events) (hb : registry symbol = some book)
    (hnew : order.orderId ∉ submittedIds (events.map Event.op)) (hfull : order.remainingQuantity = order.quantity)
    (hown : book.PaysOwnPrice events (.submit order))
    (hm : ¬ Modified (events ++ [book.event (.submit order) env]) order.orderId) :
    (registry.set symbol (book.apply (.submit order) env).book).PaidFor (events ++ [book.event (.submit order) env])
      order := by
  have hnot : ∀ s b, registry s = some b → ¬ b.Rests order.orderId := fun s b hs hr => hnew (h.rests _ ⟨s, b, hs, hr⟩)
  have hnodes : ∀ br, ∀ n ∈ book.nodes br, n.order.orderId = order.orderId → n.order.price = order.price :=
    fun br n hn hid => absurd ⟨br, n, hn, hid⟩ (hnot symbol book hb)
  have hprice := price_le_own hown hm hnodes (by rintro o ⟨⟩ -; rfl)
  have hcost := event_cost book (h.once.books symbol book hb) (.submit order) env
    (by rintro o ⟨⟩; exact ⟨hnot symbol book hb, hfull⟩) hprice
  have hsets : (book.event (.submit order) env).sets order.orderId = some order.quantity := if_pos rfl
  rw [hsets, Option.map_some, Option.getD_some,
    show (book.event (.submit order) env).after = (book.apply (.submit order) env).book from rfl] at hcost
  have hzero : spent (fillsOf events) order.orderId = 0 :=
    spent_eq_zero fun fill hfill hid => hnew (hid ▸ h.buyers fill hfill)
  refine paidFor_set ?_ ?_ ?_ fun s b _ hs hr => absurd hr (hnot s b hs)
  · rw [fillsOf_snoc, spent_append, hzero]
    omega
  · rw [fillsOf_snoc, spent_append, hzero]
    omega
  · refine OrderBook.apply_forall (P := fun o => o.orderId = order.orderId → o.price = order.price) ?_ _ env ?_ ?_ hnodes
    · exact fun o r h _ => h
    · rintro o ⟨⟩ q _ -
      rfl
    · nofun

/-- The step lemma. -/
theorem Paid.apply (h : registry.Paid events) (hb : registry symbol = some book)
    (hnew : ∀ order, op = .submit order → order.orderId ∉ submittedIds (events.map Event.op) ∧
      order.remainingQuantity = order.quantity) (hown : book.PaysOwnPrice events op) :
    (registry.set symbol (book.apply op env).book).Paid (events ++ [book.event op env]) := by
  have hops : (events ++ [book.event op env]).map Event.op = events.map Event.op ++ [op] := by
    rw [List.map_append]
    rfl
  have hfresh : ∀ o, op = .submit o → ¬ registry.Rests o.orderId := fun o ho hr => (hnew o ho).1 (h.rests _ hr)
  refine ⟨h.once.apply hb op env hfresh, fun id hr => ?_, fun fill hfill => ?_, fun order ho hm => ?_⟩
  · rw [hops, submittedIds_snoc, List.mem_append]
    exact (rests_apply hb op env hr).imp_left (h.rests id)
  · rw [hops, submittedIds_snoc, List.mem_append]
    rw [fillsOf_snoc, List.mem_append] at hfill
    rcases hfill with hfill | hfill
    · exact .inl (h.buyers fill hfill)
    · obtain ⟨buy, sell, hmatch, hbuy, -⟩ := OrderBook.matches_of_mem hfill
      rw [hbuy]
      rcases hmatch.buyer with ⟨br, m, hmem, rfl⟩ | hop | hfound
      · exact .inl (h.rests _ ⟨symbol, book, hb, br, m, hmem, rfl⟩)
      · exact .inr (mem_submittedIds_singleton.2 ⟨buy, hop, rfl⟩)
      · refine .inl (h.rests _ ⟨symbol, book, hb, ?_⟩)
        exact hfound.rests (h.once.books symbol book hb)
  · rw [hops, List.mem_append] at ho
    rcases ho with ho | ho
    · have hm' : ¬ Modified events order.orderId := fun hmod => hm (modified_snoc.2 (.inl hmod))
      refine (h.submitted order ho hm').apply h.once hb (fun o hop => ?_) (fun o hop hid => ?_) hown hm
      · exact ⟨fun hr => hfresh o hop ⟨symbol, book, hb, hr⟩, (hnew o hop).2⟩
      · refine (hnew o hop).1 ?_
        rw [hid]
        exact List.mem_filterMap.2 ⟨_, ho, rfl⟩
    · obtain rfl := (List.mem_singleton.1 ho).symm
      exact h.submit hb (hnew order rfl).1 (hnew order rfl).2 hown hm

end Apply

end BookRegistry

end StockExchange
