/-
Cancel and modify against the book. A cancel deletes exactly the order of its id and undoes a passive
submission (`cancelOrder_deletes`); a modify is the cancel of its id followed by the submission of the
removed order as the request rewrites it (`modifyOrder_resubmits`).
-/
import StockExchange.Engine.Events

namespace StockExchange

open Greedy

namespace BookState

/-! ## What a submission leaves does not depend on the result or the clock -/

section Submit

variable {b : BookState} (hb : b.WF) (order : Order)
include hb

theorem submitBranch_book_eq (result result' : MatchResult) (env env' : Env) :
    (b.submitBranch (Branch.ofSide order.side) order result env).book =
      (b.submitBranch (Branch.ofSide order.side) order result' env').book := by
  refine WF.ext_nodes (submitBranch_wf _ _ _ hb rfl) (submitBranch_wf _ _ _ hb rfl) ?_
    (Branch.forall_of (Branch.ofSide order.side) ?_ ?_) (funext fun id => ?_) ?_
  · rw [submitBranch_symbol hb, submitBranch_symbol hb]
  · rw [submitBranch_nodes hb, submitBranch_nodes hb]
  · rw [submitBranch_nodes_other hb, submitBranch_nodes_other hb]
  · rw [submitBranch_orderIndex hb, submitBranch_orderIndex hb]
  · rw [submitBranch_nextNode hb, submitBranch_nextNode hb]

end Submit

/-! ## A passive submission -/

section Passive

variable {b : BookState} (hb : b.WF) {order : Order}

/-- An order that misses every level of the other side meets no order there. -/
theorem eligible_eq_nil {br : Branch} (hl : LevelsOk (b.levels br.other))
    (h : ∀ p ∈ b.prices br.other, br.accepts order p = false) : b.eligible br order = [] := by
  refine List.filter_eq_nil_iff.2 fun n hn => ?_
  obtain ⟨p, q, he, hq⟩ := OrderedMap.mem_flat.1 hn
  rw [(hl _ he).2 n hq, h p (List.mem_map.2 ⟨_, he, rfl⟩)]
  exact Bool.false_ne_true

include hb

theorem sweep_of_passive (h : b.eligible (Branch.ofSide order.side) order = []) (result : MatchResult) (env : Env) :
    (b.sweep (Branch.ofSide order.side) order result env).1 = b := by
  have hall := eligible_append order (hb.levels (Branch.ofSide order.side).other)
  rw [h, List.nil_append] at hall
  refine WF.ext_nodes (sweep_wf hb order result env) hb (sweep_symbol ..)
    (Branch.forall_of (Branch.ofSide order.side) ?_ ?_) (funext fun id => ?_) (sweep_nextNode ..)
  · rw [sweep_nodes]
  · rw [sweep_nodes_other order result env (hb.levels _) (hb.sizes _), h, hall]
    rfl
  · refine sweep_index_of_not_emptied hb order result env ?_
    rw [h]
    exact List.not_mem_nil

/-- A `Limit` order that meets nothing rests as it came. -/
theorem submitBranch_passive (h : b.eligible (Branch.ofSide order.side) order = [])
    (ht : order.type = OrderType.limit) (result : MatchResult) (env : Env) :
    (b.submitBranch (Branch.ofSide order.side) order result env).book =
      if order.remainingQuantity ≠ 0 then b.rest (Branch.ofSide order.side) order else b := by
  have hrem : b.remainder order = order := by
    unfold remainder
    rw [h]
    rfl
  rw [submitBranch_rests hb, hrem, sweep_of_passive hb h]
  by_cases hq : order.remainingQuantity ≠ 0
  · rw [if_pos ⟨hq, ht⟩, if_pos hq]
  · rw [if_neg fun h => hq h.1, if_neg hq]

/-- Removing the order that has just come to rest gives the book back, but for the address of the next
list node. -/
theorem rest_without (br : Branch) (hid : b.orderIndex order.orderId = none) :
    (b.rest br order).without br ⟨b.nextNode, order⟩ = { b with nextNode := b.nextNode + 1 } := by
  have hlevels : ((b.levels br).pushBack order.price ⟨b.nextNode, order⟩).filterAt order.price
      (fun m => m.addr ≠ b.nextNode) = b.levels br := by
    refine OrderedMap.filterAt_pushBack _ (fun e he => (hb.levels br e he).1) (fun e he n hn => ?_) (by simp)
    have hlt := hb.addrLt br n (OrderedMap.mem_flat.2 ⟨e.1, e.2, he, hn⟩)
    exact decide_eq_true (by omega)
  have hindex : (b.orderIndex.insert order.orderId br.toSide order.price b.nextNode).remove order.orderId =
      b.orderIndex := by
    unfold OrderIndex.insert OrderIndex.remove
    rw [Function.update_idem, ← hid, Function.update_eq_self]
  have hown : (b.rest br order).levels br = (b.levels br).pushBack order.price ⟨b.nextNode, order⟩ := by
    unfold rest
    rw [levels_mk_index_next, setLevels_levels]
  unfold without
  rw [hown, hlevels, show (b.rest br order).orderIndex = b.orderIndex.insert order.orderId br.toSide order.price
    b.nextNode from rfl, hindex]
  cases br <;> rfl

end Passive

/-! ## One order deleted -/

/-- The book `b'` is `b` with the one order `n` deleted: the other orders keep their fields, levels and
places, and the level of `n` goes with it exactly if nothing else stands there. -/
structure Deletes (b : BookState) (br : Branch) (n : Node) (b' : BookState) : Prop where
  symbol : b'.symbol = b.symbol
  other : b'.levels br.other = b.levels br.other
  nodes : ∃ l r, b.nodes br = l ++ n :: r ∧ b'.nodes br = l ++ r
  level : ∃ l r, (b.levels br).find? n.order.price = some (l ++ n :: r) ∧
    (b'.levels br).find? n.order.price = if l ++ r = [] then none else some (l ++ r)
  levels : ∀ p, p ≠ n.order.price → (b'.levels br).find? p = (b.levels br).find? p
  index : ∀ id, b'.orderIndex id = if id = n.order.orderId then none else b.orderIndex id

/-- Deleting by address takes one node out and leaves the others in place. -/
theorem filter_addr {l : List Node} {n : Node} (hn : n ∈ l) (hd : (l.map Node.addr).Nodup) :
    ∃ x y, l = x ++ n :: y ∧ (l.filter fun m => m.addr ≠ n.addr) = x ++ y := by
  obtain ⟨x, y, rfl⟩ := List.append_of_mem hn
  refine ⟨x, y, rfl, ?_⟩
  rw [List.map_append, List.map_cons, List.nodup_append] at hd
  have hx : (x.filter fun m => m.addr ≠ n.addr) = x := by
    refine List.filter_eq_self.2 fun m hm => decide_eq_true ?_
    exact hd.2.2 _ (List.mem_map_of_mem hm) _ (List.mem_cons_self ..)
  have hy : (y.filter fun m => m.addr ≠ n.addr) = y := by
    refine List.filter_eq_self.2 fun m hm => decide_eq_true fun ha => ?_
    exact (List.nodup_cons.1 hd.2.1).1 (ha ▸ List.mem_map_of_mem hm)
  rw [List.filter_append, List.filter_cons, hx, hy]
  simp

theorem without_deletes {b : BookState} (hb : b.WF) {br : Branch} {n : Node} (hn : n ∈ b.nodes br) :
    Deletes b br n (b.without br n) := by
  have hnodup : ((b.nodes br).map Node.addr).Nodup := by
    have haddrs := hb.addrs br
    rw [List.map_append] at haddrs
    exact (List.nodup_append.1 haddrs).1
  obtain ⟨q, hq, hnq⟩ := hb.node_level hn
  have hsub : q.Sublist (b.nodes br) := by
    unfold nodes OrderedMap.flat
    rw [List.flatMap_def]
    exact List.sublist_flatten_of_mem (List.mem_map.2 ⟨_, (OrderedMap.find?_eq_some _).1 hq, rfl⟩)
  refine ⟨without_symbol, without_levels_other, ?_, ?_, fun p hp => ?_, without_orderIndex⟩
  · rw [without_nodes hb hn]
    exact filter_addr hn hnodup
  · obtain ⟨x, y, rfl, hf⟩ := filter_addr hnq (hnodup.sublist (hsub.map _))
    refine ⟨x, y, hq, ?_⟩
    rw [without_levels, OrderedMap.find?_filterAt, if_pos rfl, hq, Option.map_some, hf]
    cases hxy : x ++ y with
    | nil => rfl
    | cons m l => rfl
  · rw [without_levels, OrderedMap.find?_filterAt, if_neg hp]

/-! ## Cancel -/

section Cancel

variable {b : BookState} (hb : b.WF) (hu : b.IdsOk)
include hb hu

omit hu in
theorem cancelOrder_missing {id : OrderID} (h : ¬ b.Rests id) (result : MatchResult) (env : Env) :
    b.cancelOrder id result env = some (false, ⟨b, result, env⟩) := by
  rcases cancelOrder_cases hb id result env with ⟨-, hcancel⟩ | ⟨br, n, hn, hid, -⟩
  · exact hcancel
  · exact absurd ⟨br, n, hn, hid⟩ h

theorem cancelOrder_resting {br : Branch} {n : Node} (hn : n ∈ b.nodes br) (result : MatchResult) (env : Env) :
    b.cancelOrder n.order.orderId result env = some (true, ⟨b.without br n,
      result.report (b.cancelReport n.order.orderId ⟨br.toSide, n.order.price, n.addr⟩ n.order.clientId
        (env.clock env.reads)), { env with reads := env.reads + 1 }⟩) := by
  rcases cancelOrder_cases hb n.order.orderId result env with ⟨hi, -⟩ | ⟨br', n', hn', hid, -, hcancel⟩
  · rw [hu.indexed br n hn] at hi
    cases hi
  · obtain ⟨rfl, rfl⟩ := hu.node_eq hn' hn hid
    exact hcancel

/-- Submitting a `Limit` order that crosses nothing and cancelling it gives the levels and the index
back. -/
theorem cancelOrder_passive {order : Order} (hfresh : ¬ b.Rests order.orderId) (ht : order.type = OrderType.limit)
    (hmiss : ∀ p ∈ b.prices (Branch.ofSide order.side).other, (Branch.ofSide order.side).misses order.price p = true)
    (env : Env) (result : MatchResult) (env' : Env) :
    ∃ ok o, (b.submitOrder order env).book.cancelOrder order.orderId result env' = some (ok, o) ∧
      (ok = true ↔ 0 < order.remainingQuantity) ∧ o.book.symbol = b.symbol ∧
      (∀ br, o.book.levels br = b.levels br) ∧ o.book.orderIndex = b.orderIndex := by
  have hel : b.eligible (Branch.ofSide order.side) order = [] := by
    refine eligible_eq_nil (hb.levels _) fun p hp => ?_
    simp [Branch.accepts, ht, hmiss p hp]
  have hindex : b.orderIndex order.orderId = none := by
    cases hi : b.orderIndex order.orderId with
    | none => rfl
    | some e => exact absurd ((rests_iff hb hu _).2 ⟨e, hi⟩) hfresh
  have hsub := submitBranch_passive hb hel ht {} env
  have hw := submitBranch_wf order {} env hb rfl
  have hu' : (b.submitBranch (Branch.ofSide order.side) order {} env).book.IdsOk :=
    submitBranch_idsOk order {} env hb hu hfresh
  unfold submitOrder
  rw [submitOrderInternal_eq]
  rw [hsub] at hw hu' ⊢
  by_cases hq : order.remainingQuantity ≠ 0
  · rw [if_pos hq] at hw hu' ⊢
    refine ⟨_, _, cancelOrder_resting hw hu' (mem_rest.2 (.inl rfl)) result env', by simpa using quantity_pos.2 hq, ?_⟩
    rw [rest_without hb _ hindex]
    exact ⟨rfl, fun br => by cases br <;> rfl, rfl⟩
  · rw [if_neg hq] at hw hu' ⊢
    refine ⟨_, _, cancelOrder_missing hb hfresh result env', ?_, rfl, fun _ => rfl, rfl⟩
    simpa [quantity_pos] using hq

end Cancel

end BookState

/-- On every book reached under fresh ids, `cancelOrder` answers true exactly when an order with the id
rests, then deletes that order and nothing else, and answers false without any change otherwise; a
second cancel of the id finds nothing. So submitting a fresh `Limit` order that crosses no level and
cancelling it gives the book and its index back. -/
theorem cancelOrder_deletes (symbol : Symbol) (env₀ : Env) (ops : List Op) (hfresh : FreshIds ops) :
    (∀ id result env, ∃ ok o, (run symbol env₀ ops).book.cancelOrder id result env = some (ok, o) ∧
      (ok = true ↔ (run symbol env₀ ops).book.Rests id) ∧
      (ok = true → ∃ br, ∃ n ∈ (run symbol env₀ ops).book.nodes br, n.order.orderId = id ∧
        (run symbol env₀ ops).book.Deletes br n o.book) ∧
      (ok = false → o = ⟨(run symbol env₀ ops).book.toBookState, result, env⟩) ∧
      ∀ result' env', o.book.cancelOrder id result' env' = some (false, ⟨o.book, result', env'⟩)) ∧
    ∀ order : Order, order.orderId ∉ submittedIds ops → order.type = OrderType.limit →
      (∀ p ∈ (run symbol env₀ ops).book.prices (Branch.ofSide order.side).other,
        (Branch.ofSide order.side).misses order.price p = true) →
      ∀ env result env', ∃ ok o, ((run symbol env₀ ops).book.submitOrder order env).book.cancelOrder order.orderId
          result env' = some (ok, o) ∧ (ok = true ↔ 0 < order.remainingQuantity) ∧
        o.book.symbol = (run symbol env₀ ops).book.symbol ∧
        (∀ br, o.book.levels br = (run symbol env₀ ops).book.levels br) ∧
        o.book.orderIndex = (run symbol env₀ ops).book.orderIndex := by
  have hwf := (run symbol env₀ ops).book.wf
  obtain ⟨hu, hsubmitted⟩ := run_idsOk symbol env₀ ops hfresh
  refine ⟨fun id result env => ?_, fun order hid ht hmiss env result env' => ?_⟩
  · by_cases hr : (run symbol env₀ ops).book.Rests id
    · obtain ⟨br, n, hn, rfl⟩ := hr
      refine ⟨_, _, BookState.cancelOrder_resting hwf hu hn result env, by simpa using ⟨br, n, hn, rfl⟩,
        fun _ => ⟨br, n, hn, rfl, BookState.without_deletes hwf hn⟩, fun h => absurd h (by simp), fun result' env' => ?_⟩
      exact BookState.cancelOrder_missing (BookState.without_wf hwf hn) (BookState.not_rests_without hwf hu hn) result' env'
    · have hmissing := BookState.cancelOrder_missing hwf hr
      refine ⟨_, _, hmissing result env, by simpa using hr, fun h => absurd h (by simp), fun _ => rfl, fun result' env' => ?_⟩
      exact hmissing result' env'
  · exact BookState.cancelOrder_passive hwf hu (fun hr => hid (hsubmitted _ hr)) ht hmiss env result env'

/-- Two bids at one price. -/
def queuedBids : List Op :=
  [.submit { orderId := 1, price := 9, quantity := 5, remainingQuantity := 5 },
    .submit { orderId := 2, price := 9, quantity := 4, remainingQuantity := 4 }]

/-- The second bid is cancelled, and an offer that does not trade with them is submitted and cancelled. -/
theorem cancelOrder_deletes_second :
    (∃ o, (run [] ⟨1, fun _ => 0, 0⟩ queuedBids).book.cancelOrder 2 {} ⟨1, fun _ => 0, 0⟩ = some (true, o) ∧
      (∃ br, ∃ n ∈ (run [] ⟨1, fun _ => 0, 0⟩ queuedBids).book.nodes br, n.order.orderId = 2 ∧
        (run [] ⟨1, fun _ => 0, 0⟩ queuedBids).book.Deletes br n o.book) ∧
      o.book.cancelOrder 2 {} ⟨1, fun _ => 0, 0⟩ = some (false, ⟨o.book, {}, ⟨1, fun _ => 0, 0⟩⟩)) ∧
    ∃ o, ((run [] ⟨1, fun _ => 0, 0⟩ queuedBids).book.submitOrder
        { orderId := 3, side := .sell, price := 10, quantity := 1, remainingQuantity := 1 }
        ⟨1, fun _ => 0, 0⟩).book.cancelOrder 3 {} ⟨1, fun _ => 0, 0⟩ = some (true, o) ∧
      (∀ br, o.book.levels br = (run [] ⟨1, fun _ => 0, 0⟩ queuedBids).book.levels br) ∧
      o.book.orderIndex = (run [] ⟨1, fun _ => 0, 0⟩ queuedBids).book.orderIndex := by
  obtain ⟨hcancels, hpassive⟩ := cancelOrder_deletes [] ⟨1, fun _ => 0, 0⟩ queuedBids (by decide)
  constructor
  · obtain ⟨ok, o, hcancel, hok, hdeletes, -, hsecond⟩ := hcancels 2 {} ⟨1, fun _ => 0, 0⟩
    have htrue : ok = true := hok.2 ⟨.buy, ⟨1, _⟩, List.mem_cons_of_mem _ (List.mem_cons_self ..), rfl⟩
    subst htrue
    exact ⟨o, hcancel, hdeletes rfl, hsecond {} ⟨1, fun _ => 0, 0⟩⟩
  · have hprices : (run [] ⟨1, fun _ => 0, 0⟩ queuedBids).book.prices .buy = [9] := by decide
    have hmiss : ∀ p ∈ (run [] ⟨1, fun _ => 0, 0⟩ queuedBids).book.prices .buy, Branch.sell.misses 10 p = true := by
      rw [hprices, List.forall_mem_singleton]
      decide
    obtain ⟨ok, o, hcancel, hok, -, hlevels, hindex⟩ := hpassive
      { orderId := 3, side := .sell, price := 10, quantity := 1, remainingQuantity := 1 } (by decide) rfl hmiss
      ⟨1, fun _ => 0, 0⟩ {} ⟨1, fun _ => 0, 0⟩
    have htrue : ok = true := hok.2 (by decide)
    subst htrue
    exact ⟨o, hcancel, hlevels, hindex⟩

/-! ## Modify -/

/-- A fill without its clock reading. -/
def Fill.timeless (fill : Fill) : Fill := { fill with timestamp := 0 }

/-- A report without its clock reading. -/
def ExecutionReport.timeless (r : ExecutionReport) : ExecutionReport := { r with timestamp := 0 }

/-- The clock shows in the fills as their timestamps only. -/
theorem fillsFrom_timeless (br : Branch) (symbol : Symbol) (incoming : Order) :
    ∀ (ts : List (Node × Quantity)) (env env' : Env), env.counter = env'.counter →
      (fillsFrom br symbol incoming env ts).map Fill.timeless =
        (fillsFrom br symbol incoming env' ts).map Fill.timeless
  | [], _, _, _ => rfl
  | t :: ts, env, env', h => by
    have hafter : env.afterMatch.counter = env'.afterMatch.counter := congrArg (· + 1) h
    rw [fillsFrom, fillsFrom, List.map_cons, List.map_cons, fillsFrom_timeless br symbol incoming ts _ _ hafter]
    refine congrArg (· :: _) ?_
    simp only [Fill.timeless, fillOf, h]

theorem reportsFrom_timeless (br : Branch) :
    ∀ (ts : List (Node × Quantity)) (incoming : Order) (env env' : Env),
      (reportsFrom br incoming env ts).map ExecutionReport.timeless =
        (reportsFrom br incoming env' ts).map ExecutionReport.timeless
  | [], _, _, _ => rfl
  | t :: ts, incoming, env, env' => by
    rw [reportsFrom, reportsFrom, List.map_append, List.map_append,
      reportsFrom_timeless br ts (incoming.reduce t.2) env.afterMatch env'.afterMatch]
    rfl

theorem remainderReport_timeless (order : Order) (now now' : Timestamp) :
    (BookState.remainderReport order now).map ExecutionReport.timeless =
      (BookState.remainderReport order now').map ExecutionReport.timeless := by
  unfold BookState.remainderReport
  split
  · split
    · split <;> rfl
    · rfl
  · rfl

namespace BookState

section Resubmit

variable {b : BookState} (hb : b.WF) (order : Order)
include hb

/-- The result of a submission, clock readings aside, goes behind the result it is given. -/
theorem submitBranch_timeless (result : MatchResult) (env env' : Env) (hcounter : env.counter = env'.counter) :
    (b.submitBranch (Branch.ofSide order.side) order result env).result.fills.map Fill.timeless =
        (result.fills ++ (b.submitBranch (Branch.ofSide order.side) order {} env').result.fills).map Fill.timeless ∧
      (b.submitBranch (Branch.ofSide order.side) order result env).result.executionReports.map
          ExecutionReport.timeless =
        (result.executionReports ++ (b.submitBranch (Branch.ofSide order.side) order {}
          env').result.executionReports).map ExecutionReport.timeless := by
  constructor
  · rw [submitBranch_fills hb, submitBranch_fills hb, List.nil_append, List.map_append, List.map_append,
      fillsFrom_timeless _ _ _ _ env env' hcounter]
  · obtain ⟨now, hreports⟩ := submitBranch_reports hb order result env
    obtain ⟨now', hreports'⟩ := submitBranch_reports hb order {} env'
    rw [hreports, hreports', List.nil_append, List.map_append, List.map_append, List.map_append, List.map_append,
      reportsFrom_timeless _ _ order env env', remainderReport_timeless _ now now', List.append_assoc]

/-- The submission of a `Limit` order cancels nothing. -/
theorem submitBranch_not_cancelled (ht : order.type = OrderType.limit) (env : Env) :
    ∀ r ∈ (b.submitBranch (Branch.ofSide order.side) order {} env).result.executionReports,
      r.status ≠ .cancelled := by
  intro r hr
  obtain ⟨now, hreports⟩ := submitBranch_reports hb order {} env
  rw [hreports, List.nil_append] at hr
  rcases List.mem_append.1 hr with hr | hr
  · exact reportsFrom_forall (P := fun r => r.status ≠ .cancelled) (Q := fun _ => True) (fun _ _ h => h)
      (fun o qty px now _ => matchReport_status o qty px now) _ _ _ _ trivial (fun _ _ => trivial) r hr
  · rcases (mem_remainderReport.1 hr).2 with ⟨-, -, rfl⟩ | ⟨hnot, -⟩
    · rintro ⟨⟩
    · exact absurd ht hnot

end Resubmit

end BookState

/-- On every book reached under fresh ids, `modifyOrder` answers false and changes nothing when no order
with the id rests. Otherwise it answers true, and leaves the book that `cancelOrder` of the id and
`submitOrder` of the removed order, as the request rewrites it, leave one after the other; clock
readings aside it adds the same fills, and the same reports but for the cancel. -/
theorem modifyOrder_resubmits (symbol : Symbol) (env₀ : Env) (ops : List Op) (hfresh : FreshIds ops)
    (request : ModifyRequest) (result : MatchResult) (env : Env) :
    (¬ (run symbol env₀ ops).book.Rests request.orderId →
      (run symbol env₀ ops).book.modifyOrder request result env =
        some (false, ⟨(run symbol env₀ ops).book.toBookState, result, env⟩)) ∧
    ((run symbol env₀ ops).book.Rests request.orderId →
      ∃ br, ∃ n ∈ (run symbol env₀ ops).book.nodes br, n.order.orderId = request.orderId ∧
        ∃ cancelled o, (run symbol env₀ ops).book.cancelOrder request.orderId {} env = some (true, cancelled) ∧
          (run symbol env₀ ops).book.modifyOrder request result env = some (true, o) ∧
          let submitted := cancelled.book.submitOrder (BookState.modified n.order request) cancelled.env
          o.book = submitted.book ∧
          o.result.fills.map Fill.timeless =
            (result.fills ++ cancelled.result.fills ++ submitted.result.fills).map Fill.timeless ∧
          o.result.executionReports.map ExecutionReport.timeless =
            (result.executionReports ++ (cancelled.result.executionReports ++
              submitted.result.executionReports).filter (·.status ≠ .cancelled)).map ExecutionReport.timeless) := by
  have hwf := (run symbol env₀ ops).book.wf
  obtain ⟨hu, -⟩ := run_idsOk symbol env₀ ops hfresh
  rcases BookState.modifyOrder_cases hwf request result env with ⟨hi, hmodify⟩ | ⟨br, n, hn, hid, hi, hmodify⟩
  · refine ⟨fun _ => hmodify, fun hr => ?_⟩
    obtain ⟨e, he⟩ := (BookState.rests_iff hwf hu _).1 hr
    rw [hi] at he
    cases he
  · refine ⟨fun hr => absurd ⟨br, n, hn, hid⟩ hr, fun _ => ⟨br, n, hn, hid, ?_⟩⟩
    have hcancel := BookState.cancelOrder_resting hwf hu hn {} env
    rw [hid] at hcancel
    refine ⟨_, _, hcancel, hmodify, ?_⟩
    have hw := BookState.without_wf hwf hn
    have hside := hwf.modified_side hn request
    have htype : (BookState.modified n.order request).type = OrderType.limit := (hwf.resting br n hn).1
    have hsubmit : ∀ env', ((run symbol env₀ ops).book.without br n).submitOrder (BookState.modified n.order request)
        env' = ((run symbol env₀ ops).book.without br n).submitBranch br (BookState.modified n.order request) {} env' := by
      intro env'
      unfold BookState.submitOrder
      rw [BookState.submitOrderInternal_eq, hside]
    obtain ⟨hfills, hreports⟩ := BookState.submitBranch_timeless hw (BookState.modified n.order request) result
      env { env with reads := env.reads + 1 } rfl
    have hkeep := BookState.submitBranch_not_cancelled hw (BookState.modified n.order request) htype
      { env with reads := env.reads + 1 }
    have hbook := BookState.submitBranch_book_eq hw (BookState.modified n.order request) result {} env
      { env with reads := env.reads + 1 }
    rw [hside] at hfills hreports hkeep hbook
    simp only [hsubmit]
    refine ⟨hbook, ?_, ?_⟩
    · rw [hfills]
      simp [MatchResult.report]
    · -- the one report of the cancel is dropped, and the submission has no other
      rw [hreports, List.filter_append, List.filter_eq_self.2 fun r hr => decide_eq_true (hkeep r hr)]
      simp [MatchResult.report, BookState.cancelReport]

def bidAndOffer : OrderBook := (run [] ⟨1, fun _ => 0, 0⟩
  [.submit { orderId := 1, price := 9, quantity := 5, remainingQuantity := 5 },
    .submit { orderId := 2, side := .sell, price := 10, quantity := 4, remainingQuantity := 4 }]).book

/-- A bid moved to a price at which it trades with the resting offer. -/
theorem modifyOrder_resubmits_crossing : ∃ br, ∃ n ∈ bidAndOffer.nodes br, n.order.orderId = 1 ∧
    ∃ cancelled o, bidAndOffer.cancelOrder 1 {} ⟨1, fun _ => 0, 0⟩ = some (true, cancelled) ∧
      bidAndOffer.modifyOrder { orderId := 1, price := 10, quantity := 6 } {} ⟨1, fun _ => 0, 0⟩ = some (true, o) ∧
      let submitted := cancelled.book.submitOrder (BookState.modified n.order { orderId := 1, price := 10, quantity := 6 })
        cancelled.env
      o.book = submitted.book ∧
      o.result.fills.map Fill.timeless = (cancelled.result.fills ++ submitted.result.fills).map Fill.timeless ∧
      o.result.executionReports.map ExecutionReport.timeless = ((cancelled.result.executionReports ++
        submitted.result.executionReports).filter (·.status ≠ .cancelled)).map ExecutionReport.timeless := by
  have h := (modifyOrder_resubmits [] ⟨1, fun _ => 0, 0⟩
    [.submit { orderId := 1, price := 9, quantity := 5, remainingQuantity := 5 },
      .submit { orderId := 2, side := .sell, price := 10, quantity := 4, remainingQuantity := 4 }] (by decide)
    { orderId := 1, price := 10, quantity := 6 } {} ⟨1, fun _ => 0, 0⟩).2 ⟨.buy, ⟨0, _⟩, List.mem_cons_self .., rfl⟩
  exact h

end StockExchange
