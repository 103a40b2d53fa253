/-
How much a run can trade. A match uses up the incoming order or the resting one, so each fill is paid for by an order
that will never trade again: the fills of a run and the orders that still rest are together no more than the
orders that were submitted, however often they were modified. The book, the trade tape and the stream of reports
all stay linear in what was asked.
-/
import StockExchange.Engine.Overfill
import StockExchange.Engine.Reports
import StockExchange.Engine.TradeIds
import Mathlib.Algebra.BigOperators.Group.Finset.Basic
import Mathlib.Algebra.Order.BigOperators.Group.Finset

namespace StockExchange

open Greedy

namespace BookState

/-- The number of orders in the book. -/
def resting (b : BookState) : ℕ := (b.nodes .buy).length + (b.nodes .sell).length

theorem resting_eq (b : BookState) (br : Branch) : b.resting = (b.nodes br).length + (b.nodes br.other).length := by
  cases br
  · rfl
  · exact Nat.add_comm ..

section Steps

variable {b : BookState} (hb : b.WF)
include hb

/-- Taking an order out. -/
theorem resting_without {br : Branch} {n : Node} (hn : n ∈ b.nodes br) : (b.without br n).resting + 1 ≤ b.resting := by
  have hlt : ((b.nodes br).filter fun m => m.addr ≠ n.addr).length < (b.nodes br).length :=
    List.length_filter_lt_length_iff_exists.2 ⟨n, hn, by simp⟩
  rw [resting_eq _ br, resting_eq _ br, without_nodes hb hn, without_nodes_other]
  omega

/-- The own side of a submission has at most one order more, and only if the order is not filled. -/
theorem length_submitBranch (order : Order) (result : MatchResult) (env : Env) :
    ((b.submitBranch (Branch.ofSide order.side) order result env).book.nodes (Branch.ofSide order.side)).length ≤
      (b.nodes (Branch.ofSide order.side)).length + if (b.remainder order).remainingQuantity = 0 then 0 else 1 := by
  rw [submitBranch_rests hb]
  split
  next h =>
    rw [if_neg h.1, (rest_nodes_perm ..).length_eq, List.length_cons, sweep_nodes]
  next =>
    rw [sweep_nodes]
    exact Nat.le_add_right ..

theorem length_fills_submitBranch (order : Order) (env : Env) :
    (b.submitBranch (Branch.ofSide order.side) order {} env).result.fills.length = (b.taken order).length := by
  rw [submitBranch_fills hb]
  exact (OrderBook.fillsFrom_forall₂ b.symbol order (b.taken order) env).length_eq.symm

/-- A submission pays for its fills with orders: those it fills, or the one it brings. -/
theorem resting_submitBranch (order : Order) (result : MatchResult) (env : Env) :
    (b.taken order).length + (b.submitBranch (Branch.ofSide order.side) order result env).book.resting ≤
      b.resting + 1 := by
  have hown := length_submitBranch hb order result env
  have hother := @submitBranch_nodes_other _ hb order result env (Branch.ofSide order.side)
  have hpaid := @length_takes_leftover _ _ _ _ _ _ _ Node.size Node.reduce order.remainingQuantity
    (b.eligible (Branch.ofSide order.side) order)
  have hall := congrArg List.length (eligible_append (b := b) order (hb.levels (Branch.ofSide order.side).other))
  rw [List.length_append] at hall
  rw [resting_eq _ (Branch.ofSide order.side), resting_eq b (Branch.ofSide order.side), hother, List.length_append]
  unfold taken
  have hrem : (b.remainder order).remainingQuantity =
    unmet Node.size order.remainingQuantity (b.eligible (Branch.ofSide order.side) order) := rfl
  rw [hrem] at hown
  by_cases hmet : unmet Node.size order.remainingQuantity (b.eligible (Branch.ofSide order.side) order) = 0
  · rw [if_pos hmet] at hown hpaid
    omega
  · rw [if_neg hmet] at hown hpaid
    omega

omit hb in
/-- Two reports for each match. -/
theorem length_reportsFrom (br : Branch) : ∀ (ts : List (Node × Quantity)) (incoming : Order) (env : Env),
    (reportsFrom br incoming env ts).length = 2 * ts.length
  | [], _, _ => rfl
  | t :: ts, incoming, env => by
    have hreports : (reportsOf br incoming t.1.order t.2 env).length = 2 := rfl
    rw [reportsFrom, List.length_append, hreports, length_reportsFrom br ts, List.length_cons]
    omega

/-- A submission reports each match twice and what is left at most once. -/
theorem length_reports_submitBranch (order : Order) (env : Env) :
    (b.submitBranch (Branch.ofSide order.side) order {} env).result.executionReports.length ≤
      2 * (b.taken order).length + 1 := by
  obtain ⟨now, hreports⟩ := submitBranch_reports hb order {} env
  have hleft : (remainderReport (b.remainder order) now).length ≤ 1 := by
    unfold remainderReport
    split
    · split
      · split <;> simp
      · simp
    · simp
  have hnone : ({} : MatchResult).executionReports = [] := rfl
  rw [hreports, hnone, List.nil_append, List.length_append, length_reportsFrom]
  omega

end Steps

end BookState

namespace OrderBook

variable (b : OrderBook) (op : Op) (env : Env)

/-- An operation pays for its fills with orders of the book, or with the one it brings. A modified order has left the
book before it is submitted again. -/
theorem apply_pays : (b.apply op env).result.fills.length + (b.apply op env).book.resting ≤
    b.resting + (submittedIds [op]).length := by
  obtain ⟨o, ho, hbook, hresult, -⟩ := b.applies op env
  rw [hbook, hresult]
  cases ho with
  | submit order =>
    have hpays := BookState.resting_submitBranch b.wf order {} env
    rw [BookState.length_fills_submitBranch b.wf]
    simpa [submittedIds] using hpays
  | cancelMiss id hi => simp
  | cancel br n hn hi =>
    have hless := BookState.resting_without b.wf hn
    simp only [MatchResult.report, List.length_nil]
    omega
  | modifyMiss request hi => simp
  | modify br n request hn hid hi =>
    have hwf := BookState.without_wf b.wf hn
    have hless := BookState.resting_without b.wf hn
    have hpays := BookState.resting_submitBranch hwf (BookState.modified n.order request) {} env
    have hfills := BookState.length_fills_submitBranch hwf (BookState.modified n.order request) env
    rw [b.wf.modified_side hn request] at hpays hfills
    rw [hfills]
    omega

/-- An operation reports each fill to both parties, and at most one thing more. -/
theorem apply_reports : (b.apply op env).result.executionReports.length ≤
    2 * (b.apply op env).result.fills.length + 1 := by
  obtain ⟨o, ho, -, hresult, -⟩ := b.applies op env
  rw [hresult]
  cases ho with
  | submit order =>
    rw [BookState.length_fills_submitBranch b.wf]
    exact BookState.length_reports_submitBranch b.wf order env
  | cancelMiss id hi => simp
  | cancel br n hn hi => simp [MatchResult.report]
  | modifyMiss request hi => simp
  | modify br n request hn hid hi =>
    have hwf := BookState.without_wf b.wf hn
    have hreports := BookState.length_reports_submitBranch hwf (BookState.modified n.order request) env
    have hfills := BookState.length_fills_submitBranch hwf (BookState.modified n.order request) env
    rw [b.wf.modified_side hn request] at hreports hfills
    rw [hfills]
    exact hreports

end OrderBook

/-! ## Runs -/

/-- The fills so far are paid for by orders that are gone, and each report is of a fill or of an operation. -/
structure Run.Paid (ops : List Op) (r : Run) : Prop where
  fills : r.fills.length + r.book.resting ≤ (submittedIds ops).length
  reports : r.reports.length ≤ 2 * r.fills.length + ops.length

theorem Run.Paid.step {ops : List Op} {r : Run} (h : r.Paid ops) (op : Op) : (r.step op).Paid (ops ++ [op]) := by
  have hpays := r.book.apply_pays op r.env
  have hreports := r.book.apply_reports op r.env
  have hpaid := h.fills
  have hseen := h.reports
  have hbook : (r.step op).book = (r.book.apply op r.env).book := rfl
  have hfills : (r.step op).fills.length = r.fills.length + (r.book.apply op r.env).result.fills.length := by
    rw [Run.step_fills, List.length_append]
    rfl
  have hmore : (r.step op).reports.length = r.reports.length + (r.book.apply op r.env).result.executionReports.length := by
    unfold Run.reports Run.step
    rw [List.flatMap_append, List.flatMap_singleton, List.length_append]
    rfl
  constructor
  · rw [hfills, hbook, submittedIds_snoc, List.length_append]
    omega
  · rw [hfills, hmore, List.length_append, List.length_singleton]
    omega

theorem run_paid (symbol : Symbol) (env : Env) (ops : List Op) : (run symbol env ops).Paid ops :=
  run_induction (P := fun ops r => r.Paid ops) ⟨Nat.le_refl _, Nat.le_refl _⟩ (fun _ op h => h.step op) ops

/-- Over every run on a book, with arbitrary orders and requests, the fills and the orders that still rest are together
no more than the orders submitted, and the reports no more than two for each fill and one for each operation. -/
theorem fills_bounded (symbol : Symbol) (env : Env) (ops : List Op) :
    (run symbol env ops).fills.length + (run symbol env ops).book.resting ≤ (submittedIds ops).length ∧
      (run symbol env ops).reports.length ≤ 2 * (run symbol env ops).fills.length + ops.length :=
  ⟨(run_paid symbol env ops).fills, (run_paid symbol env ops).reports⟩

/-- A run on a book that goes on has made no fewer fills. -/
theorem run_fills_mono (symbol : Symbol) (env : Env) {ops ops' : List Op} (h : ops <+: ops') :
    (run symbol env ops).fills.length ≤ (run symbol env ops').fills.length := by
  obtain ⟨later, rfl⟩ := h
  induction later using List.reverseRecOn with
  | nil => rw [List.append_nil]
  | append_singleton later op ih =>
    rw [← List.append_assoc, run_snoc, Run.step_fills, List.length_append]
    exact Nat.le_add_right_of_le ih

/-! ## All books -/

/-- The number of fills of a list of requests, applied to no books one after the other. -/
def fillTotal (env : Env) (rs : List Request) : ℕ := (ReplayEngine.requestFills ⟨.empty, env⟩ rs).length

theorem fillTotal_snoc (env : Env) (rs : List Request) (r : Request) :
    fillTotal env (rs ++ [r]) = fillTotal env rs + fillCount env rs r := by
  have hlast := congrArg List.length (ReplayEngine.fillsOf_foldl env env rs r)
  rw [List.length_map, List.length_replicate] at hlast
  rw [fillTotal, ReplayEngine.requestFills_append, List.length_append, ReplayEngine.requestFills,
    ReplayEngine.requestFills, List.append_nil, hlast]
  rfl

/-- The number does not depend on trade ids or the clock. -/
theorem fillTotal_congr (env env' : Env) (rs : List Request) : fillTotal env rs = fillTotal env' rs := by
  have h := congrArg List.length (ReplayEngine.requestFills_symbols env env' rs)
  have h' := congrArg List.length (ReplayEngine.requestFills_symbols env' env' rs)
  rw [List.length_map] at h h'
  exact h.trans h'.symm

/-- A replay moves the counter on by one for each fill. -/
theorem ReplayEngine.foldl_counter : ∀ (rs : List Request) (s : Replay),
    (rs.foldl apply s).env.counter = TradeIDGenerator.after s.env.counter (requestFills s rs).length
  | [], _ => rfl
  | r :: rs, s => by
    have hfirst : (apply s r).env.counter = TradeIDGenerator.after s.env.counter (fillsOf s r).length := by
      rw [fillsOf, List.length_map]
      exact ((s.registry.getOrderBook r.symbol).1.apply_ids r.op s.env).2
    rw [List.foldl_cons, foldl_counter rs, hfirst, requestFills, List.length_append, TradeIDGenerator.after_add]

/-- What each request adds to the book of its own symbol alone is summed up book by book. -/
theorem sum_opsOf (count : Symbol → List Op → ℕ) (total : List Request → ℕ) (hnil : ∀ symbol, count symbol [] = 0)
    (htotal : total [] = 0) (hsnoc : ∀ rs r, total (rs ++ [r]) + count r.symbol (opsOf r.symbol rs) =
      total rs + count r.symbol (opsOf r.symbol rs ++ [r.op])) (symbols : Finset Symbol) (rs : List Request)
    (hrs : ∀ r ∈ rs, r.symbol ∈ symbols) : total rs = ∑ symbol ∈ symbols, count symbol (opsOf symbol rs) := by
  induction rs using List.reverseRecOn with
  | nil => simp [opsOf, hnil, htotal]
  | append_singleton rs r ih =>
    have hmem : r.symbol ∈ symbols := hrs r (by simp)
    have hothers : ∑ symbol ∈ symbols.erase r.symbol, count symbol (opsOf symbol (rs ++ [r])) =
        ∑ symbol ∈ symbols.erase r.symbol, count symbol (opsOf symbol rs) := by
      refine Finset.sum_congr rfl fun symbol hs => ?_
      rw [opsOf_append, opsOf_singleton_of_ne (Finset.ne_of_mem_erase hs).symm, List.append_nil]
    have hbefore := ih fun r' hr' => hrs r' (List.mem_append_left _ hr')
    have hstep := hsnoc rs r
    rw [← Finset.add_sum_erase _ _ hmem] at hbefore ⊢
    rw [hothers, opsOf_append, opsOf_singleton_self]
    omega

/-- The fills of all books, book by book. -/
theorem fillTotal_eq_sum (env : Env) (symbols : Finset Symbol) (rs : List Request)
    (hrs : ∀ r ∈ rs, r.symbol ∈ symbols) :
    fillTotal env rs = ∑ symbol ∈ symbols, (run symbol env (opsOf symbol rs)).fills.length := by
  refine sum_opsOf (fun symbol ops => (run symbol env ops).fills.length) (fillTotal env) (fun _ => rfl) rfl
    (fun rs r => ?_) symbols rs hrs
  have hlast : (((run r.symbol env (opsOf r.symbol rs)).book.event r.op
      (run r.symbol env (opsOf r.symbol rs)).env).result.fills).length = fillCount env rs r :=
    (SameBook.refl _).length_fills rfl _ _
  rw [fillTotal_snoc, run_snoc, Run.step_fills, List.length_append, hlast]
  omega

/-- Requests that come to each book in the same order, some of them not yet, have made no more fills. -/
theorem fillTotal_mono (env : Env) {rs rs' : List Request} (h : ∀ symbol, opsOf symbol rs <+: opsOf symbol rs') :
    fillTotal env rs ≤ fillTotal env rs' := by
  classical
  let symbols := ((rs ++ rs').map Request.symbol).toFinset
  have hmem : ∀ r ∈ rs ++ rs', r.symbol ∈ symbols := fun r hr => List.mem_toFinset.2 (List.mem_map_of_mem hr)
  rw [fillTotal_eq_sum env symbols rs fun r hr => hmem r (List.mem_append_left _ hr),
    fillTotal_eq_sum env symbols rs' fun r hr => hmem r (List.mem_append_right _ hr)]
  exact Finset.sum_le_sum fun symbol _ => run_fills_mono symbol env (h symbol)

/-- All books together make no more fills than orders were submitted to them. -/
theorem fillTotal_le (env : Env) (rs : List Request) : fillTotal env rs ≤ (submittedIds (rs.map Request.op)).length := by
  classical
  let symbols := (rs.map Request.symbol).toFinset
  have hmem : ∀ r ∈ rs, r.symbol ∈ symbols := fun r hr => List.mem_toFinset.2 (List.mem_map_of_mem hr)
  have hsubmitted : (submittedIds (rs.map Request.op)).length =
      ∑ symbol ∈ symbols, (submittedIds (opsOf symbol rs)).length := by
    refine sum_opsOf (fun _ ops => (submittedIds ops).length)
      (fun rs => (submittedIds (rs.map Request.op)).length) (fun _ => rfl) rfl (fun rs r => ?_) symbols rs hmem
    rw [List.map_append, List.map_singleton, submittedIds_snoc, submittedIds_snoc, List.length_append, List.length_append]
    omega
  rw [fillTotal_eq_sum env symbols rs hmem, hsubmitted]
  exact Finset.sum_le_sum fun symbol _ => Nat.le_of_add_right_le (run_paid symbol env (opsOf symbol rs)).fills

end StockExchange
