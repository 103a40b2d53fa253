/-
Quantity conservation. `Holdings` is the abstract ledger: what every order id has left. A fill may be
settled on it when it names two different ids that both have its quantity, and takes exactly that
from both. In runs with fresh ids the fills of every operation settle one after another on what the
book and the incoming order hold, and lead to what the book holds afterwards (`Event.Conserves`); so
the quantity an order asked for is always accounted for (`quantity_conservation`).
-/
import StockExchange.Engine.Events

namespace StockExchange

open Greedy

/-! ## The abstract ledger -/

/-- What each order id has left. -/
abbrev Holdings := OrderID → ℕ

/-- A fill takes its quantity from the two orders it names; they differ and both have that much. -/
def Fill.settle (fill : Fill) (h : Holdings) : Option Holdings :=
  if fill.buyOrderId ≠ fill.sellOrderId ∧ fill.quantity.toNat ≤ h fill.buyOrderId ∧
      fill.quantity.toNat ≤ h fill.sellOrderId then
    some fun id => if id = fill.buyOrderId ∨ id = fill.sellOrderId then h id - fill.quantity.toNat else h id
  else none

def settleAll : List Fill → Holdings → Option Holdings
  | [], h => some h
  | fill :: fills, h => (fill.settle h).bind (settleAll fills)

/-- The quantity of all fills that name the id. -/
def filledBy (fills : List Fill) (id : OrderID) : ℕ :=
  (fills.map fun fill => if fill.buyOrderId = id ∨ fill.sellOrderId = id then fill.quantity.toNat else 0).sum

theorem settleAll_filledBy : ∀ (fills : List Fill) (h h' : Holdings), settleAll fills h = some h' →
    ∀ id, h id = filledBy fills id + h' id
  | [], h, h', heq, id => by
    cases heq
    simp [filledBy]
  | fill :: fills, h, h', heq, id => by
    obtain ⟨h₁, hfill, hrest⟩ := Option.bind_eq_some_iff.1 heq
    have ih := settleAll_filledBy fills h₁ h' hrest id
    unfold Fill.settle at hfill
    split at hfill
    · rename_i hguard
      cases hfill
      unfold filledBy at ih ⊢
      rw [List.map_cons, List.sum_cons]
      by_cases hb : fill.buyOrderId = id
      · subst hb
        simp only [true_or, if_true] at ih ⊢
        omega
      · by_cases hs : fill.sellOrderId = id
        · subst hs
          simp only [or_true, if_true] at ih ⊢
          omega
        · have hb' : ¬ id = fill.buyOrderId := fun h => hb h.symm
          have hs' : ¬ id = fill.sellOrderId := fun h => hs h.symm
          simp only [hb, hs, hb', hs', or_self, if_false] at ih ⊢
          omega
    · cases hfill

/-! ## What the nodes of a book hold -/

/-- The total remaining quantity of the nodes with this id. -/
def amount (id : OrderID) (l : List Node) : ℕ :=
  (l.map fun n => if n.order.orderId = id then n.size.toNat else 0).sum

section Amount

variable {id : OrderID} {n : Node} {l : List Node}

theorem amount_cons : amount id (n :: l) = (if n.order.orderId = id then n.size.toNat else 0) + amount id l := by
  unfold amount
  rw [List.map_cons, List.sum_cons]

theorem amount_append (l l' : List Node) : amount id (l ++ l') = amount id l + amount id l' := by
  unfold amount
  rw [List.map_append, List.sum_append]

theorem amount_perm {l l' : List Node} (h : l.Perm l') : amount id l = amount id l' :=
  (h.map _).sum_eq

theorem amount_eq_zero (h : ∀ m ∈ l, m.order.orderId ≠ id) : amount id l = 0 := by
  refine List.sum_eq_zero fun x hx => ?_
  obtain ⟨m, hm, rfl⟩ := List.mem_map.1 hx
  exact if_neg (h m hm)

/-- Where ids do not repeat, an id holds what its one node has left. -/
theorem amount_of_mem (hd : (l.map fun m => m.order.orderId).Nodup) (hn : n ∈ l) :
    amount n.order.orderId l = n.size.toNat := by
  obtain ⟨l₁, l₂, rfl⟩ := List.append_of_mem hn
  rw [List.map_append, List.map_cons, List.nodup_append, List.nodup_cons] at hd
  have h1 : amount n.order.orderId l₁ = 0 := by
    refine amount_eq_zero fun m hm heq => ?_
    exact hd.2.2 _ (List.mem_map_of_mem hm) _ (List.mem_cons_self ..) heq
  have h2 : amount n.order.orderId l₂ = 0 := by
    refine amount_eq_zero fun m hm heq => hd.2.1.1 ?_
    exact List.mem_map.2 ⟨m, hm, heq⟩
  rw [amount_append, amount_cons, h1, h2, if_pos rfl]
  omega

theorem amount_filter {p : Node → Bool} (h : ∀ m ∈ l, p m = false → m.order.orderId ≠ id) :
    amount id (l.filter p) = amount id l := by
  induction l with
  | nil => rfl
  | cons m l ih =>
    have ih := ih fun k hk => h k (List.mem_cons_of_mem _ hk)
    rw [List.filter_cons, amount_cons]
    split
    · rw [amount_cons, ih]
    · rename_i hp
      rw [ih, if_neg (h m (List.mem_cons_self ..) (by simpa using hp)), Nat.zero_add]

end Amount

/-! ## Fills of the matching loops -/

theorem settle_fillOf {br : Branch} {symbol : Symbol} {incoming resting : Order} {qty : Quantity} {env : Env}
    {h : Holdings} (hne : resting.orderId ≠ incoming.orderId) (hi : qty.toNat ≤ h incoming.orderId)
    (hr : qty.toNat ≤ h resting.orderId) :
    (fillOf br symbol incoming resting qty env).settle h = some fun id =>
      if id = incoming.orderId ∨ id = resting.orderId then h id - qty.toNat else h id := by
  unfold Fill.settle fillOf
  cases br with
  | buy => exact if_pos ⟨hne.symm, hi, hr⟩
  | sell =>
    refine (if_pos ⟨hne, hr, hi⟩).trans ?_
    simp only [Branch.buyOf, Branch.sellOf, or_comm]

theorem reduce_size_toNat {n : Node} {r : Quantity} (h : r ≤ n.size) :
    (n.reduce r).size.toNat = n.size.toNat - r.toNat := by
  unfold Node.size at *
  exact UInt32.toNat_sub_of_le _ _ h

/-- A take of `r` settles on what the incoming order, the resting orders and any others hold: the
incoming order and the first resting order have `r` less. -/
theorem settle_take {br : Branch} {symbol : Symbol} {incoming : Order} {others : Holdings} {n : Node} {l : List Node}
    {q r : Quantity} {env : Env} (hne : n.order.orderId ≠ incoming.orderId) (hq : r ≤ q) (hr : r ≤ n.size) :
    (fillOf br symbol incoming n.order r env).settle
        (fun id => (if id = incoming.orderId then q.toNat else 0) + amount id (n :: l) + others id) =
      some fun id => (if id = incoming.orderId then (q - r).toNat else 0) + amount id (n.reduce r :: l) +
        others id := by
  have hq' : r.toNat ≤ q.toNat := UInt32.le_iff_toNat_le.1 hq
  have hr' : r.toNat ≤ n.size.toNat := UInt32.le_iff_toNat_le.1 hr
  rw [settle_fillOf hne]
  · congr 1
    funext id
    rw [UInt32.toNat_sub_of_le _ _ hq, amount_cons, amount_cons, reduce_size_toNat hr, Node.reduce_order,
      Order.reduce_orderId]
    -- the id is of the incoming order, of the resting order or of neither
    by_cases hi : id = incoming.orderId
    · subst hi
      simp only [hne, true_or, if_true, if_false]
      omega
    · by_cases hn : id = n.order.orderId
      · subst hn
        simp only [hi, or_true, if_true, if_false]
        omega
      · have hn' : ¬ n.order.orderId = id := fun h => hn h.symm
        simp only [hi, hn, hn', or_self, if_false]
  · rw [if_pos rfl]
    omega
  · rw [amount_cons, if_pos rfl]
    omega

/-- A resting order taken whole holds nothing. -/
theorem amount_reduce_size (id : OrderID) (n : Node) (l : List Node) :
    amount id (n.reduce n.size :: l) = amount id l := by
  rw [amount_cons, reduce_size_toNat (UInt32.le_refl _), Nat.sub_self, ite_self, Nat.zero_add]

/-- The fills of the greedy takes settle one after another on what the incoming order and the resting
orders hold, next to anything else, and lead to what is left of both. -/
theorem settleAll_fillsFrom (br : Branch) (symbol : Symbol) (incoming : Order) (others : Holdings) :
    ∀ (l : List Node) (q : Quantity) (env : Env), (∀ n ∈ l, n.order.orderId ≠ incoming.orderId) →
      settleAll (fillsFrom br symbol incoming env (takes Node.size q l))
          (fun id => (if id = incoming.orderId then q.toNat else 0) + amount id l + others id) =
        some fun id => (if id = incoming.orderId then (unmet Node.size q l).toNat else 0) +
          amount id (leftover Node.size Node.reduce q l) + others id
  | [], q, env, _ => rfl
  | n :: l, q, env, hne => by
    have hn : n.order.orderId ≠ incoming.orderId := hne n (List.mem_cons_self ..)
    have hl : ∀ m ∈ l, m.order.orderId ≠ incoming.orderId := fun m hm => hne m (List.mem_cons_of_mem _ hm)
    unfold takes unmet leftover
    split
    · rename_i hq
      subst hq
      rfl
    · split
      · -- the resting order is taken whole
        rename_i hle
        rw [fillsFrom, settleAll, settle_take hn hle (UInt32.le_refl _), Option.bind_some]
        simp only [amount_reduce_size]
        exact settleAll_fillsFrom br symbol incoming others l (q - n.size) env.afterMatch hl
      · -- the incoming order is filled, and the fills end here
        rename_i hle
        have hle' : q ≤ n.size := by grind
        rw [fillsFrom, fillsFrom, settleAll, settle_take hn (UInt32.le_refl _) hle', Option.bind_some, settleAll,
          UInt32.sub_self]

/-! ## What a book holds -/

namespace BookState

/-- The remaining quantity of the order with this id, if it rests. -/
def remaining (b : BookState) (id : OrderID) : ℕ :=
  match b.queryOrder id with
  | some (some order) => order.remainingQuantity.toNat
  | _ => 0

section Remaining

variable {b : BookState} (hb : b.WF)
include hb

theorem remaining_eq_zero {id : OrderID} (h : ¬ b.Rests id) : b.remaining id = 0 := by
  unfold remaining
  rcases queryOrder_cases hb id with ⟨hq, -⟩ | ⟨br, n, hn, hid, -⟩
  · rw [hq]
  · exact absurd ⟨br, n, hn, hid⟩ h

variable (hu : b.IdsOk)
include hu

theorem remaining_of_mem {br : Branch} {n : Node} (hn : n ∈ b.nodes br) :
    b.remaining n.order.orderId = n.size.toNat := by
  unfold remaining
  rcases queryOrder_cases hb n.order.orderId with ⟨-, hi⟩ | ⟨br', m, hm, hid, hq⟩
  · rw [hu.indexed br n hn] at hi
    cases hi
  · rw [hq, (hu.node_eq hm hn hid).2]
    rfl

theorem remaining_pos {id : OrderID} (h : b.Rests id) : 0 < b.remaining id := by
  obtain ⟨br, n, hn, rfl⟩ := h
  rw [remaining_of_mem hb hu hn]
  exact Nat.pos_of_ne_zero fun h0 => hb.sizes br n hn ((quantity_toNat_eq_zero _).1 h0)

theorem remaining_eq (br : Branch) (id : OrderID) :
    b.remaining id = amount id (b.nodes br) + amount id (b.nodes br.other) := by
  by_cases h : b.Rests id
  · obtain ⟨br', n, hn, rfl⟩ := h
    rw [← amount_append, remaining_of_mem hb hu hn, amount_of_mem]
    · rw [List.map_append]
      exact hu.nodup br
    · rcases br.eq_or_other br' with rfl | rfl
      · exact List.mem_append_left _ hn
      · exact List.mem_append_right _ hn
  · rw [remaining_eq_zero hb h, amount_eq_zero fun n hn hid => h ⟨br, n, hn, hid⟩,
      amount_eq_zero fun n hn hid => h ⟨br.other, n, hn, hid⟩]

theorem remaining_without {br : Branch} {n : Node} (hn : n ∈ b.nodes br) (id : OrderID) :
    (b.without br n).remaining id = if id = n.order.orderId then 0 else b.remaining id := by
  have hw := without_wf hb hn
  have hv := without_idsOk hb hu hn
  split
  · rename_i hid
    exact remaining_eq_zero hw fun h => ((rests_without hb hu hn).1 h).2 hid
  · rename_i hid
    rw [remaining_eq hw hv br, remaining_eq hb hu br, without_nodes_other, without_nodes hb hn, amount_filter]
    intro m hm hp heq
    have ha : m.addr = n.addr := by simpa using hp
    rw [(hb.node_eq hm hn ha).2] at heq
    exact hid heq.symm

end Remaining

end BookState

/-- What the book and an incoming order hold. -/
def held (b : BookState) (order : Order) : Holdings :=
  fun id => if id = order.orderId then order.remainingQuantity.toNat else b.remaining id

/-- What reports say was dropped of the id. -/
def expired (reports : List ExecutionReport) (id : OrderID) : ℕ :=
  (reports.map fun r => if r.orderId = id ∧ r.status = .cancelled then r.remainingQuantity.toNat else 0).sum

theorem expired_append (l l' : List ExecutionReport) (id : OrderID) :
    expired (l ++ l') id = expired l id + expired l' id := by
  unfold expired
  rw [List.map_append, List.sum_append]

theorem expired_reportsFrom (br : Branch) (id : OrderID) : ∀ (ts : List (Node × Quantity)) (incoming : Order)
    (env : Env), expired (reportsFrom br incoming env ts) id = 0
  | [], _, _ => rfl
  | t :: ts, incoming, env => by
    rw [reportsFrom, expired_append, expired_reportsFrom br id ts]
    simp [expired, reportsOf, matchReport_status]

/-- Nothing is dropped of a remainder that rests; any other remainder is dropped whole. -/
theorem expired_remainderReport (incoming : Order) (now : Timestamp) (id : OrderID) :
    expired (BookState.remainderReport incoming now) id =
      if incoming.type ≠ OrderType.limit ∧ incoming.orderId = id then incoming.remainingQuantity.toNat else 0 := by
  unfold BookState.remainderReport
  by_cases hq : incoming.remainingQuantity = 0
  · rw [if_neg (by rw [hq]; decide), hq]
    simp [expired]
  · rw [if_pos (quantity_pos.2 hq)]
    by_cases ht : incoming.type = OrderType.limit
    · rw [if_pos ht]
      split <;> simp [expired, newReport, ht]
    · rw [if_neg ht]
      simp [expired, expiryReport, ht]

section Submission

variable {b : BookState} (hb : b.WF) (hu : b.IdsOk) (order : Order) (hfresh : ¬ b.Rests order.orderId) (env : Env)
include hb hu hfresh

theorem held_eq : held b order = fun id => (if id = order.orderId then order.remainingQuantity.toNat else 0) +
    amount id (b.eligible (Branch.ofSide order.side) order) +
      (amount id (b.unreachable (Branch.ofSide order.side) order) +
        amount id (b.nodes (Branch.ofSide order.side))) := by
  funext id
  have hsum := BookState.remaining_eq hb hu (Branch.ofSide order.side) id
  rw [← BookState.eligible_append order (hb.levels _), amount_append] at hsum
  unfold held
  split
  · rename_i hid
    rw [BookState.remaining_eq_zero hb (by rw [hid]; exact hfresh)] at hsum
    omega
  · omega

/-- What the book holds after a submission: what is left of the opposite side, its own side, and the
remainder of a `Limit` order. -/
theorem remaining_submitBranch (id : OrderID) :
    (b.submitBranch (Branch.ofSide order.side) order {} env).book.remaining id =
      (if id = order.orderId ∧ order.type = OrderType.limit then (b.remainder order).remainingQuantity.toNat else 0) +
        amount id (leftover Node.size Node.reduce order.remainingQuantity
          (b.eligible (Branch.ofSide order.side) order)) +
        (amount id (b.unreachable (Branch.ofSide order.side) order) +
          amount id (b.nodes (Branch.ofSide order.side))) := by
  have hw := BookState.submitBranch_wf order {} env hb rfl
  have hv : (b.submitBranch (Branch.ofSide order.side) order {} env).book.IdsOk :=
    BookState.submitBranch_idsOk order {} env hb hu hfresh
  have hother := BookState.sweep_nodes_other order {} env (hb.levels (Branch.ofSide order.side).other) (hb.sizes _)
  rw [BookState.remaining_eq hw hv (Branch.ofSide order.side), BookState.submitBranch_rests hb]
  split
  · rename_i h
    rw [amount_perm (BookState.rest_nodes_perm _ _ _), amount_cons, BookState.sweep_nodes,
      BookState.rest_nodes_other, hother, amount_append]
    have hrest : (if order.orderId = id then (b.remainder order).remainingQuantity.toNat else 0) =
        if id = order.orderId ∧ order.type = OrderType.limit then (b.remainder order).remainingQuantity.toNat else 0 := by
      simp only [h.2, and_true, eq_comm]
    show (if order.orderId = id then (b.remainder order).remainingQuantity.toNat else 0) + _ + _ = _
    omega
  · rename_i h
    have hzero : (if id = order.orderId ∧ order.type = OrderType.limit then
        (b.remainder order).remainingQuantity.toNat else 0) = 0 := by
      split
      · rename_i hid
        rw [quantity_toNat_eq_zero]
        by_contra hne
        exact h ⟨hne, hid.2⟩
      · rfl
    rw [BookState.sweep_nodes, hother, amount_append, hzero]
    omega

/-- The fills of a submission settle on what the book and the order hold, and lead to what the book
holds afterwards and what is dropped. -/
theorem submitBranch_conserves :
    ∃ h, settleAll (b.submitBranch (Branch.ofSide order.side) order {} env).result.fills (held b order) = some h ∧
      ∀ id, h id = (b.submitBranch (Branch.ofSide order.side) order {} env).book.remaining id +
        expired (b.submitBranch (Branch.ofSide order.side) order {} env).result.executionReports id := by
  have hne : ∀ n ∈ b.eligible (Branch.ofSide order.side) order, n.order.orderId ≠ order.orderId :=
    fun n hn heq => hfresh ⟨_, n, (List.mem_filter.1 hn).1, heq⟩
  have hsettle := settleAll_fillsFrom (Branch.ofSide order.side) b.symbol order
    (fun id => amount id (b.unreachable (Branch.ofSide order.side) order) + amount id (b.nodes (Branch.ofSide order.side)))
    _ order.remainingQuantity env hne
  rw [BookState.submitBranch_fills hb, held_eq hb hu order hfresh]
  refine ⟨_, hsettle, fun id => ?_⟩
  obtain ⟨now, hreports⟩ := BookState.submitBranch_reports hb order {} env
  rw [hreports, expired_append, expired_append, expired_reportsFrom, expired_remainderReport,
    remaining_submitBranch hb hu order hfresh env]
  -- the remainder is in the book or in the expiry report
  have hsplit : (if id = order.orderId then (b.remainder order).remainingQuantity.toNat else 0) =
      (if id = order.orderId ∧ order.type = OrderType.limit then (b.remainder order).remainingQuantity.toNat else 0) +
        if order.type ≠ OrderType.limit ∧ order.orderId = id then (b.remainder order).remainingQuantity.toNat else 0 := by
    by_cases hid : id = order.orderId
    · subst hid
      by_cases ht : order.type = OrderType.limit
      · simp [ht]
      · simp [ht]
    · have hid' : ¬ order.orderId = id := fun h => hid h.symm
      simp [hid, hid']
  show (if id = order.orderId then (b.remainder order).remainingQuantity.toNat else 0) + _ + _ = _
  have hnone : expired ({} : MatchResult).executionReports id = 0 := rfl
  rw [hsplit, hnone, BookState.remainder_type, BookState.remainder_orderId]
  omega

end Submission

/-! ## Accounts -/

namespace Event

/-- The quantity the event sets for the id: that of its submission, or of a modify that finds it. -/
def sets (e : Event) (id : OrderID) : Option Quantity :=
  match e.op with
  | .submit order => if order.orderId = id then some order.quantity else none
  | .cancel _ => none
  | .modify request =>
    if request.orderId = id ∧ (e.before.orderIndex.get id).isSome then some request.quantity else none

/-- The unfilled amount of the id that the event drops: what is left of it when it is cancelled, or the
remainder reported as expired. -/
def dropped (e : Event) (id : OrderID) : ℕ :=
  match e.op with
  | .cancel id' => if id' = id then e.before.remaining id else 0
  | _ => expired e.result.executionReports id

/-- The fills of the event settle one after another on what the book and the submitted order hold,
and lead to what the book holds afterwards and what is dropped. -/
structure Conserves (e : Event) : Prop where
  noFills : e.before.submission e.op = none → e.result.fills = []
  fills : ∀ b order, e.before.submission e.op = some (b, order) →
    ∃ h, settleAll e.result.fills (held b order) = some h ∧ ∀ id, h id = e.after.remaining id + e.dropped id

end Event

/-- The account of one id: what it asked for, and what of this was filled and dropped since. -/
structure Account where
  asked : ℕ := 0
  filled : ℕ := 0
  dropped : ℕ := 0

def Account.post (id : OrderID) (a : Account) (e : Event) : Account :=
  match e.sets id with
  | some quantity => ⟨quantity.toNat, filledBy e.result.fills id, e.dropped id⟩
  | none => ⟨a.asked, a.filled + filledBy e.result.fills id, a.dropped + e.dropped id⟩

def account (events : List Event) (id : OrderID) : Account := events.foldl (Account.post id) {}

theorem account_snoc (events : List Event) (e : Event) (id : OrderID) :
    account (events ++ [e]) id = (account events id).post id e := by
  simp [account, List.foldl_append]

/-- A submission fills, drops or keeps what the book and the submitted order held. -/
theorem submitBranch_balance {b : BookState} (hb : b.WF) (hu : b.IdsOk) (order : Order)
    (hfresh : ¬ b.Rests order.orderId) (env : Env) (id : OrderID) : held b order id =
      filledBy (b.submitBranch (Branch.ofSide order.side) order {} env).result.fills id +
        expired (b.submitBranch (Branch.ofSide order.side) order {} env).result.executionReports id +
        (b.submitBranch (Branch.ofSide order.side) order {} env).book.remaining id := by
  obtain ⟨h, hsettle, hh⟩ := submitBranch_conserves hb hu order hfresh env
  have hsum := settleAll_filledBy _ _ _ hsettle id
  rw [hh id] at hsum
  omega

section Step

variable (b : OrderBook) (hu : b.IdsOk) (op : Op) (env : Env)
  (hfresh : ∀ order, op = .submit order → ¬ b.Rests order.orderId ∧ order.remainingQuantity = order.quantity)
include hu hfresh

theorem event_conserves : (b.event op env).Conserves := by
  obtain ⟨o, ho, hbook, hresult, -⟩ := b.applies op env
  refine ⟨fun h => OrderBook.apply_no_fills env h, fun b' order hs => ?_⟩
  unfold OrderBook.event at hs ⊢
  unfold Event.dropped
  simp only [hbook, hresult]
  cases ho with
  | submit o =>
    cases hs
    exact submitBranch_conserves b.wf hu order (hfresh order rfl).1 env
  | cancelMiss id hi => cases hs
  | cancel br n hn hi => cases hs
  | modifyMiss request hi =>
    simp only [OrderBook.submission_modify_none hi] at hs
    cases hs
  | modify br n request hn hid hi =>
    simp only [OrderBook.submission_modify hn hid hi] at hs
    cases hs
    have hside := b.wf.modified_side hn request
    have hcons := submitBranch_conserves (BookState.without_wf b.wf hn) (BookState.without_idsOk b.wf hu hn)
      (BookState.modified n.order request) (BookState.not_rests_without b.wf hu hn) env
    rw [hside] at hcons
    exact hcons

/-- What an operation does to the quantity of an id, which it may set anew: it is filled, dropped or
kept. -/
theorem event_balance (id : OrderID) :
    (((b.event op env).sets id).map UInt32.toNat).getD (b.remaining id) =
      filledBy (b.event op env).result.fills id + (b.event op env).dropped id +
        (b.event op env).after.remaining id := by
  obtain ⟨o, ho, hbook, hresult, -⟩ := b.applies op env
  unfold OrderBook.event Event.dropped Event.sets
  simp only [hbook, hresult]
  cases ho with
  | submit order =>
    obtain ⟨hnew, hfull⟩ := hfresh order rfl
    rw [← submitBranch_balance b.wf hu order hnew env id]
    unfold held
    dsimp only
    by_cases hid : order.orderId = id
    · rw [if_pos hid, if_pos hid.symm, hfull]
      rfl
    · rw [if_neg hid, if_neg fun h => hid h.symm]
      rfl
  | cancelMiss id' hi =>
    -- the rejected cancel drops what the book has for the id: nothing
    have hnot : ¬ b.Rests id' := by
      rw [BookState.rests_iff b.wf hu]
      rintro ⟨e, he⟩
      rw [hi] at he
      cases he
    have hzero := BookState.remaining_eq_zero b.wf hnot
    show b.remaining id = 0 + (if id' = id then b.remaining id else 0) + b.remaining id
    split
    · rename_i hid
      rw [← hid]
      omega
    · omega
  | cancel br n hn hi =>
    rw [BookState.remaining_without b.wf hu hn]
    show b.remaining id = 0 + (if n.order.orderId = id then b.remaining id else 0) +
      if id = n.order.orderId then 0 else b.remaining id
    by_cases hid : n.order.orderId = id
    · rw [if_pos hid, if_pos hid.symm]
      omega
    · rw [if_neg hid, if_neg fun h => hid h.symm]
      omega
  | modifyMiss request hi =>
    dsimp only
    rw [if_neg]
    · show b.remaining id = 0 + 0 + b.remaining id
      omega
    · rintro ⟨rfl, hsome⟩
      unfold OrderIndex.get at hsome
      rw [hi] at hsome
      cases hsome
  | modify br n request hn hid hi =>
    -- a submission to the book without the old order; nothing of the old quantity is carried over
    have hside := b.wf.modified_side hn request
    have hbal := submitBranch_balance (BookState.without_wf b.wf hn) (BookState.without_idsOk b.wf hu hn)
      (BookState.modified n.order request) (BookState.not_rests_without b.wf hu hn) env id
    rw [hside] at hbal
    rw [← hbal]
    unfold held
    dsimp only
    rw [BookState.remaining_without b.wf hu hn]
    by_cases hid' : request.orderId = id
    · have hsome : (b.orderIndex.get id).isSome = true := by
        unfold OrderIndex.get
        rw [← hid', ← hid, hi]
        rfl
      rw [if_pos ⟨hid', hsome⟩, if_pos (by rw [← hid', ← hid]; rfl)]
      rfl
    · have hne : ¬ id = n.order.orderId := fun h => hid' (by rw [h, hid])
      rw [if_neg fun h => hid' h.1, if_neg hne]
      exact (if_neg hne).symm

end Step

/-- In every run with fresh ids and full submissions, for every id: what its submission or last modify
asked for is what was filled since, what was dropped and what still rests; and every fill takes its
quantity from exactly the two orders it names, which have that much. -/
theorem quantity_conservation (symbol : Symbol) (env : Env) (ops : List Op) (hfresh : FreshIds ops)
    (hfull : ∀ order, .submit order ∈ ops → order.remainingQuantity = order.quantity) :
    (∀ id, (account (run symbol env ops).events id).asked = (account (run symbol env ops).events id).filled +
        (account (run symbol env ops).events id).dropped + (run symbol env ops).book.remaining id) ∧
      ∀ e ∈ (run symbol env ops).events, e.Conserves := by
  refine run_induction (P := fun ops r => FreshIds ops →
    (∀ order, .submit order ∈ ops → order.remainingQuantity = order.quantity) →
    (∀ id, (account r.events id).asked = (account r.events id).filled + (account r.events id).dropped +
      r.book.remaining id) ∧ ∀ e ∈ r.events, e.Conserves) ?_ ?_ ops hfresh hfull
  · intro _ _
    exact ⟨fun id => rfl, fun e he => by cases he⟩
  · intro ops op ih hfresh hfull
    obtain ⟨ihledger, ihevents⟩ := ih hfresh.init fun order ho => hfull order (List.mem_append_left _ ho)
    obtain ⟨hu, hsub⟩ := run_idsOk symbol env ops hfresh.init
    have hop : ∀ order, op = .submit order →
        ¬ (run symbol env ops).book.Rests order.orderId ∧ order.remainingQuantity = order.quantity := by
      rintro order rfl
      exact ⟨fun hr => hfresh.last (hsub _ hr), hfull order (List.mem_append_right _ (List.mem_singleton_self _))⟩
    refine ⟨fun id => ?_, fun e he => ?_⟩
    · have hledger := ihledger id
      have hbalance := event_balance _ hu op (run symbol env ops).env hop id
      show (account ((run symbol env ops).events ++ [_]) id).asked = (account ((run symbol env ops).events ++ [_]) id).filled +
        (account ((run symbol env ops).events ++ [_]) id).dropped + _
      rw [account_snoc]
      unfold Account.post
      split
      · -- the account starts again with the new quantity
        rename_i q hset
        rw [hset] at hbalance
        exact hbalance
      · rename_i hset
        rw [hset] at hbalance
        simp only [Option.map_none, Option.getD_none] at hbalance
        show (account (run symbol env ops).events id).asked = _ + _ + (_ + _) +
          ((run symbol env ops).book.event op (run symbol env ops).env).after.remaining id
        omega
    · rcases List.mem_append.1 he with he | he
      · exact ihevents e he
      · rw [List.mem_singleton.1 he]
        exact event_conserves _ hu op _ hop

/-- A bid for nine of which four trade, that is then modified to two, of which one trades, and
cancelled. -/
theorem quantity_conservation_traded :
    let r := run [] ⟨1, fun _ => 0, 0⟩
      [.submit { orderId := 1, price := 10, quantity := 9, remainingQuantity := 9 },
        .submit { orderId := 2, side := .sell, price := 10, quantity := 4, remainingQuantity := 4 },
        .modify { orderId := 1, price := 10, quantity := 2 },
        .submit { orderId := 3, side := .sell, type := .market, quantity := 1, remainingQuantity := 1 }, .cancel 1]
    account r.events 1 = ⟨2, 1, 1⟩ ∧ (∀ id, (account r.events id).asked = (account r.events id).filled +
        (account r.events id).dropped + r.book.remaining id) ∧ ∀ e ∈ r.events, e.Conserves :=
  ⟨rfl, quantity_conservation [] ⟨1, fun _ => 0, 0⟩ _ (by decide) (by
    intro order ho
    simp only [List.mem_cons, List.not_mem_nil, Op.submit.injEq, reduceCtorEq, or_false, false_or] at ho
    rcases ho with rfl | rfl | rfl <;> rfl)⟩

end StockExchange
