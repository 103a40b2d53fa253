/-
`print_book` of `engine/order_book.cpp`: the lines it logs and the 32-bit sum it shows for a price level. The sum is the
exact one modulo `2 ^ 32`; over a run it is exact at every level of every book exactly as long as no order
comes to rest at a level that then holds `2 ^ 32` or more. Each accepted order is far below that, but 430 of
the largest ones at one price are not.
-/
import StockExchange.Engine.Priority
import StockExchange.Engine.RiskHistory
import StockExchange.Lib.Machine
import Mathlib.Algebra.Order.BigOperators.Group.List
import Mathlib.Algebra.Order.Group.Nat

namespace StockExchange

/-! ## `print_book` -/

/-- `std::to_string` of an unsigned integer. -/
def decimal (n : ℕ) : Text := text (toString n)

/-- `qty_at_price`: the loop over the orders of a level. -/
def qtyAtPrice (queue : List Node) : UInt32 := queue.foldl (fun qty n => qty + n.order.remainingQuantity) 0

/-- The line logged for a level. -/
def levelLine (price : Price) (qty orders : ℕ) : Text :=
  text "    Price: " ++ decimal price.toNat ++ text " | Qty: " ++ decimal qty ++ text " (" ++ decimal orders ++
    text " orders)"

/-- The lines for a book, by what is shown as the quantity of a level: the asks from the highest price down,
then the bids. -/
def BookState.depthLines (b : BookState) (qty : List Node → ℕ) : List Text :=
  [text "Order Book: " ++ b.symbol, text "  ASKS:"] ++
    b.sellOrders.entries.reverse.map (fun level => levelLine level.1 (qty level.2) level.2.length) ++
    ([text "  BIDS:"] ++ b.buyOrders.entries.map fun level => levelLine level.1 (qty level.2) level.2.length)

def BookState.printBook (b : BookState) : List Text := b.depthLines fun queue => (qtyAtPrice queue).toNat

/-- At every level the sum shown is the exact one. -/
def BookState.DepthExact (b : BookState) : Prop :=
  ∀ br, ∀ level ∈ (b.levels br).entries, (qtyAtPrice level.2).toNat = totalRemaining (level.2.map Node.order)

theorem foldl_qty : ∀ (queue : List Node) (qty : UInt32),
    (queue.foldl (fun qty n => qty + n.order.remainingQuantity) qty).toNat =
      (qty.toNat + totalRemaining (queue.map Node.order)) % 2 ^ 32
  | [], qty => by
    have := qty.toNat_lt
    simp only [List.foldl_nil, List.map_nil, totalRemaining, List.sum_nil]
    omega
  | n :: queue, qty => by
    rw [List.foldl_cons, foldl_qty queue, UInt32.toNat_add]
    simp only [totalRemaining, List.map_cons, List.sum_cons]
    omega

theorem qtyAtPrice_toNat (queue : List Node) :
    (qtyAtPrice queue).toNat = totalRemaining (queue.map Node.order) % 2 ^ 32 := by
  unfold qtyAtPrice
  rw [foldl_qty, UInt32.toNat_zero, Nat.zero_add]

theorem qtyAtPrice_exact_iff (queue : List Node) :
    (qtyAtPrice queue).toNat = totalRemaining (queue.map Node.order) ↔ totalRemaining (queue.map Node.order) < 2 ^ 32 := by
  rw [qtyAtPrice_toNat]
  omega

theorem decimal_inj {m n : ℕ} (h : decimal m = decimal n) : m = n := by
  -- the digits are read back from their bytes
  have hread : ∀ n, (decimal n).map (fun byte => Char.ofNat byte.toNat) = Nat.toDigits 10 n := by
    intro n
    unfold decimal text
    rw [Nat.toString_eq_ofList_toDigits, String.toList_ofList, List.map_map]
    refine (List.map_congr_left fun c hc => ?_).trans (List.map_id _)
    have hdigit := Nat.isDigit_of_mem_toDigits (by decide) (by decide) hc
    have hlt : c.toNat < 256 := by
      simp only [Char.isDigit, Bool.and_eq_true, decide_eq_true_eq] at hdigit
      have := UInt32.le_iff_toNat_le.1 hdigit.2
      exact Nat.lt_of_le_of_lt this (by decide)
    show Char.ofNat c.toNat.toUInt8.toNat = c
    rw [Nat.toUInt8_eq, UInt8.toNat_ofNat', Nat.mod_eq_of_lt hlt, Char.ofNat_toNat]
  rw [← Nat.ofDigitChars_ten_toDigits (n := m), ← hread, h, hread, Nat.ofDigitChars_ten_toDigits]

theorem levelLine_inj {price : Price} {qty qty' orders : ℕ} :
    levelLine price qty orders = levelLine price qty' orders ↔ qty = qty' := by
  refine ⟨fun h => decimal_inj ?_, fun h => by rw [h]⟩
  unfold levelLine at h
  simpa using h

/-- The lines show what is put in as the quantities. -/
theorem BookState.depthLines_inj (b : BookState) (qty qty' : List Node → ℕ) :
    b.depthLines qty = b.depthLines qty' ↔ ∀ br, ∀ level ∈ (b.levels br).entries, qty level.2 = qty' level.2 := by
  unfold depthLines
  constructor
  · intro h
    obtain ⟨hasks, hbids⟩ := List.append_inj h (by simp)
    rw [List.append_right_inj, List.map_inj_left] at hasks hbids
    intro br level hlevel
    cases br with
    | buy => exact levelLine_inj.1 (hbids level hlevel)
    | sell => exact levelLine_inj.1 (hasks level (List.mem_reverse.2 hlevel))
  · intro h
    refine congrArg₂ (fun asks bids => _ ++ asks ++ (_ ++ bids)) (List.map_congr_left fun level hlevel => ?_)
      (List.map_congr_left fun level hlevel => ?_)
    · rw [h .sell level (List.mem_reverse.1 hlevel)]
    · rw [h .buy level hlevel]

/-- What is logged is what would be logged with exact sums, exactly if the sums are exact. -/
theorem BookState.printBook_exact_iff (b : BookState) :
    b.printBook = b.depthLines (fun queue => totalRemaining (queue.map Node.order)) ↔ b.DepthExact :=
  b.depthLines_inj _ _

/-! ## The depth of a level -/

/-- What a node adds to the depth at a price. -/
def Node.sizeAt (p : Price) (n : Node) : ℕ := if n.order.price = p then n.order.remainingQuantity.toNat else 0

/-- All that rests on a side at a price. -/
def BookState.depth (b : BookState) (br : Branch) (p : Price) : ℕ := ((b.nodes br).map (Node.sizeAt p)).sum

namespace BookState

theorem sum_sizeAt (p : Price) : ∀ (l : List Node),
    (l.map (Node.sizeAt p)).sum = totalRemaining ((l.filter fun n => n.order.price = p).map Node.order)
  | [] => rfl
  | n :: l => by
    have ih := sum_sizeAt p l
    by_cases h : n.order.price = p
    · simp only [List.map_cons, List.sum_cons, ih, Node.sizeAt, h, if_true, decide_true, List.filter_cons_of_pos,
        totalRemaining]
    · simp only [List.map_cons, List.sum_cons, ih, Node.sizeAt, h, if_false, Nat.zero_add, decide_false,
        List.filter_cons_of_neg, Bool.false_eq_true, not_false_eq_true]

variable {b : BookState}

/-- The queue of a level is all that rests at its price. -/
theorem depth_level (hb : b.WF) {br : Branch} {level : Price × List Node} (h : level ∈ (b.levels br).entries) :
    b.depth br level.1 = totalRemaining (level.2.map Node.order) := by
  have hkeys : ∀ e ∈ (b.levels br).entries, ∀ n ∈ e.2, n.order.price = e.1 := fun e he => (hb.levels br e he).2
  have hqueue := OrderedMap.flatMap_filter_key (fun p => p = level.1) (b.levels br).entries hkeys
  rw [OrderedMap.filter_key _ h, List.flatMap_singleton] at hqueue
  unfold depth
  rw [sum_sizeAt, hqueue]
  rfl

/-- Only a level has depth. -/
theorem exists_level_of_depth (hb : b.WF) {br : Branch} {p : Price} (h : b.depth br p ≠ 0) :
    ∃ level ∈ (b.levels br).entries, level.1 = p := by
  have hsome : ∃ n ∈ b.nodes br, n.order.price = p := by
    by_contra hnone
    refine h (List.sum_eq_zero fun x hx => ?_)
    obtain ⟨n, hn, rfl⟩ := List.mem_map.1 hx
    exact if_neg fun hprice => hnone ⟨n, hn, hprice⟩
  obtain ⟨n, hn, rfl⟩ := hsome
  obtain ⟨queue, hfind, -⟩ := hb.node_level hn
  exact ⟨_, (OrderedMap.find?_eq_some _).1 hfind, rfl⟩

/-- The sums shown are exact exactly if no price has `2 ^ 32` or more. -/
theorem depthExact_iff (hb : b.WF) : b.DepthExact ↔ ∀ br p, b.depth br p < 2 ^ 32 := by
  constructor
  · intro h br p
    by_cases hzero : b.depth br p = 0
    · omega
    · obtain ⟨level, hlevel, rfl⟩ := exists_level_of_depth hb hzero
      rw [depth_level hb hlevel, ← qtyAtPrice_exact_iff]
      exact h br level hlevel
  · intro h br level hlevel
    rw [qtyAtPrice_exact_iff, ← depth_level hb hlevel]
    exact h br level.1

/-! ## The depth after an operation -/

section Submit

variable (hb : b.WF) (order : Order) (result : MatchResult) (env : Env)
include hb

/-- A remainder that rests adds to the depth at its price. -/
theorem depth_submitBranch (p : Price) :
    (b.submitBranch (Branch.ofSide order.side) order result env).book.depth (Branch.ofSide order.side) p =
      b.depth (Branch.ofSide order.side) p +
        if (b.remainder order).remainingQuantity ≠ 0 ∧ order.type = OrderType.limit then
          Node.sizeAt p ⟨b.nextNode, b.remainder order⟩ else 0 := by
  unfold depth
  rw [submitBranch_rests hb]
  split
  · have hperm := rest_nodes_perm (b.sweep (Branch.ofSide order.side) order result env).1 (Branch.ofSide order.side)
      (b.remainder order)
    rw [(hperm.map _).sum_eq, List.map_cons, List.sum_cons, sweep_nodes, sweep_nextNode]
    omega
  · rw [sweep_nodes, Nat.add_zero]

/-- The other side only loses. -/
theorem depth_submitBranch_other (br : Branch) (p : Price) :
    (b.submitBranch br order result env).book.depth br.other p ≤ b.depth br.other p := by
  have hshrink : ∀ (n : Node) (r : Quantity), ¬ n.size ≤ r → (n.reduce r).sizeAt p ≤ n.sizeAt p := by
    intro n r hr
    unfold Node.sizeAt
    rw [show (n.reduce r).order.price = n.order.price from rfl]
    split
    · have hle : r ≤ n.order.remainingQuantity := UInt32.le_of_lt (UInt32.not_le.1 hr)
      rw [show (n.reduce r).order.remainingQuantity = n.order.remainingQuantity - r from rfl,
        UInt32.toNat_sub_of_le _ _ hle]
      exact Nat.sub_le ..
    · exact Nat.le_refl 0
  have hleft := Greedy.sum_leftover_le Node.reduce (Node.sizeAt p) hshrink order.remainingQuantity (b.eligible br order)
  unfold depth
  rw [submitBranch_nodes_other hb, ← eligible_append order (hb.levels _), List.map_append, List.map_append,
    List.sum_append, List.sum_append]
  omega

end Submit

theorem depth_without_le (hb : b.WF) {br : Branch} {n : Node} (hn : n ∈ b.nodes br) (br' : Branch) (p : Price) :
    (b.without br n).depth br' p ≤ b.depth br' p := by
  unfold depth
  rcases br.eq_or_other br' with rfl | rfl
  · rw [without_nodes hb hn]
    exact (List.filter_sublist.map _).sum_le_sum fun _ _ => Nat.zero_le _
  · rw [without_nodes_other]

/-- The submission leaves less than `2 ^ 32` at the price where a remainder of the order comes to rest. -/
def KeepsDepth (b : BookState) (order : Order) : Prop :=
  (b.remainder order).remainingQuantity ≠ 0 → order.type = OrderType.limit →
    b.depth (Branch.ofSide order.side) order.price + (b.remainder order).remainingQuantity.toNat < 2 ^ 32

/-- From a book whose depth is below `2 ^ 32` everywhere, exactly such a submission leads to another one. -/
theorem submitBranch_depth_iff (hb : b.WF) (h : ∀ br p, b.depth br p < 2 ^ 32) (order : Order) (result : MatchResult)
    (env : Env) :
    (∀ br p, (b.submitBranch (Branch.ofSide order.side) order result env).book.depth br p < 2 ^ 32) ↔
      b.KeepsDepth order := by
  constructor
  · intro hafter hq ht
    have hprice := hafter (Branch.ofSide order.side) order.price
    rw [depth_submitBranch hb, if_pos ⟨hq, ht⟩] at hprice
    have hsize : Node.sizeAt order.price ⟨b.nextNode, b.remainder order⟩ =
        (b.remainder order).remainingQuantity.toNat := if_pos rfl
    rwa [hsize] at hprice
  · intro hkeeps
    refine Branch.forall_of (Branch.ofSide order.side) (fun p => ?_) (fun p => ?_)
    · have hbefore := h (Branch.ofSide order.side) p
      rw [depth_submitBranch hb]
      split
      · rename_i hrests
        unfold Node.sizeAt
        split
        · rename_i hp
          subst hp
          exact hkeeps hrests.1 hrests.2
        · exact hbefore
      · exact hbefore
    · exact Nat.lt_of_le_of_lt (depth_submitBranch_other hb order result env _ p) (h _ p)

end BookState

namespace OrderBook

/-- What an operation submits, if anything, keeps the depth below `2 ^ 32`. -/
def KeepsDepth (b : OrderBook) (op : Op) : Prop := ∀ q ∈ b.submission op, q.1.KeepsDepth q.2

/-- From a book with exact sums, exactly such an operation leads to another one. -/
theorem apply_depthExact {b : OrderBook} (h : b.DepthExact) (op : Op) (env : Env) :
    (b.apply op env).book.DepthExact ↔ b.KeepsDepth op := by
  rw [BookState.depthExact_iff b.wf] at h
  rw [BookState.depthExact_iff (b.apply op env).book.wf]
  obtain ⟨o, ho, hbook, -, -⟩ := b.applies op env
  rw [hbook]
  unfold KeepsDepth
  cases ho with
  | submit order =>
    have hsubmits : b.submission (.submit order) = some (b.toBookState, order) := rfl
    simp only [hsubmits, Option.mem_some_iff, forall_eq']
    exact BookState.submitBranch_depth_iff b.wf h order {} env
  | cancelMiss id hi => exact iff_of_true h (by rintro _ ⟨⟩)
  | cancel br n hn hi =>
    exact iff_of_true (fun br' p => Nat.lt_of_le_of_lt (BookState.depth_without_le b.wf hn br' p) (h br' p))
      (by rintro _ ⟨⟩)
  | modifyMiss request hi =>
    rw [submission_modify_none hi]
    exact iff_of_true h (by rintro _ ⟨⟩)
  | modify br n request hn hid hi =>
    have hwithout : ∀ br' p, (b.without br n).depth br' p < 2 ^ 32 := fun br' p =>
      Nat.lt_of_le_of_lt (BookState.depth_without_le b.wf hn br' p) (h br' p)
    have hafter := BookState.submitBranch_depth_iff (BookState.without_wf b.wf hn) hwithout
      (BookState.modified n.order request) {} env
    rw [b.wf.modified_side hn request] at hafter
    simp only [submission_modify hn hid hi, Option.mem_some_iff, forall_eq']
    exact hafter

end OrderBook

/-! ## Runs -/

/-- In every run of arbitrary operations: at each level of the book reached, the sum shown is the exact one exactly if that
is below `2 ^ 32`; and the sums are exact in all states of the run exactly when each of its operations
keeps the depth, at the price where a remainder comes to rest, below `2 ^ 32`. -/
theorem depth_exact_iff (symbol : Symbol) (env : Env) (ops : List Op) :
    (∀ br, ∀ level ∈ ((run symbol env ops).book.levels br).entries,
      (qtyAtPrice level.2).toNat = totalRemaining (level.2.map Node.order) ↔
        totalRemaining (level.2.map Node.order) < 2 ^ 32) ∧
    ((∀ pre, pre <+: ops → (run symbol env pre).book.DepthExact) ↔
      Machine.Along (fun r op => some (Run.step r op)) (fun r op => r.book.KeepsDepth op) (.start symbol env) ops) := by
  refine ⟨fun br level _ => qtyAtPrice_exact_iff level.2, ?_⟩
  have hstart : (Run.start symbol env).book.DepthExact := by
    intro br level hlevel
    cases br <;> cases hlevel
  have hstep : ∀ (r : Run) (op : Op), True → r.book.DepthExact →
      ((∀ r' ∈ some (r.step op), r'.book.DepthExact) ↔ r.book.KeepsDepth op) := by
    intro r op _ h
    simp only [Option.mem_some_iff, forall_eq']
    exact OrderBook.apply_depthExact h op r.env
  rw [← Machine.always_iff_along (I := fun _ => True) (fun _ _ _ _ _ => trivial) hstep ops _ trivial hstart]
  refine forall₂_congr fun pre _ => ?_
  rw [Machine.run_total]
  exact ⟨fun h r hr => Option.some.inj hr ▸ h, fun h => h _ rfl⟩

/-- One of a row of bids for the largest quantity, at the highest price that its value allows. -/
def largeBid (i : ℕ) : Order where
  orderId := i.toUInt64
  symbol := text "AAPL"
  price := 50
  quantity := 10000000
  remainingQuantity := 10000000

/-- The checker accepts one after the other. -/
theorem accepts_largeBid (i : ℕ) (h : i < 2 ^ 64) : RiskChecker.Accepts
    (.registerSymbol (text "AAPL") :: (List.range i).map fun j => .validateOrder (largeBid j)) (largeBid i) := by
  refine (RiskChecker.accepts_iff _ _).2 ⟨List.mem_cons_self .., ?_, ?_⟩
  · exact (Order.withinLimits_iff _).2 (by decide : (0 : Price) < 50 ∧ (50 : Price) ≤ maxPrice ∧
      (0 : Quantity) < 10000000 ∧ (10000000 : Quantity) ≤ maxQuantity ∧ 50 * 10000000 ≤ maxOrderValue.toNat)
  · rintro ⟨earlier, order, later, hcalls, hid, -⟩
    have hmem : RiskChecker.Call.validateOrder order ∈ RiskChecker.Call.registerSymbol (text "AAPL") ::
        (List.range i).map fun j => .validateOrder (largeBid j) := by
      rw [hcalls]
      exact List.mem_append_right _ (List.mem_cons_self ..)
    obtain ⟨j, hj, heq⟩ := List.mem_map.1 (List.mem_of_ne_of_mem (by rintro ⟨⟩) hmem)
    cases heq
    have hij := congrArg UInt64.toNat hid
    have hlt := List.mem_range.1 hj
    simp only [largeBid, Nat.toUInt64_eq, UInt64.toNat_ofNat'] at hij
    omega

theorem largeBids_depth (symbol : Symbol) (env : Env) (k : ℕ) :
    (run symbol env ((List.range k).map fun i => .submit (largeBid i))).book.depth .buy 50 = k * 10000000 ∧
      (run symbol env ((List.range k).map fun i => .submit (largeBid i))).book.nodes .sell = [] := by
  induction k with
  | zero => exact ⟨(Nat.zero_mul _).symm, rfl⟩
  | succ k ih =>
    rw [List.range_succ, List.map_append, List.map_singleton, run_snoc]
    generalize run symbol env ((List.range k).map fun i => .submit (largeBid i)) = r at ih
    obtain ⟨hdepth, hsell⟩ := ih
    have hside : Branch.ofSide (largeBid k).side = .buy := rfl
    have hbook : (r.step (.submit (largeBid k))).book.toBookState =
        (r.book.submitBranch .buy (largeBid k) {} r.env).book := r.book.submit_book (largeBid k) r.env
    have heligible : r.book.eligible .buy (largeBid k) = [] := by
      unfold BookState.eligible
      rw [show Branch.buy.other = .sell from rfl, hsell]
      rfl
    -- nothing is on offer, so all of the bid rests
    have hrests : (r.book.remainder (largeBid k)).remainingQuantity = 10000000 := by
      unfold BookState.remainder
      rw [hside, heligible]
      rfl
    have hsize : Node.sizeAt 50 ⟨r.book.nextNode, r.book.remainder (largeBid k)⟩ = 10000000 := by
      unfold Node.sizeAt
      rw [if_pos (show (r.book.remainder (largeBid k)).price = 50 from rfl), hrests]
      rfl
    rw [hbook]
    constructor
    · have hafter := BookState.depth_submitBranch r.book.wf (largeBid k) {} r.env 50
      rw [hside, hrests, if_pos ⟨by decide, rfl⟩, hsize, hdepth] at hafter
      rw [hafter, Nat.succ_mul]
    · have hafter : (r.book.submitBranch .buy (largeBid k) {} r.env).book.nodes Branch.buy.other = _ :=
        BookState.submitBranch_nodes_other r.book.wf (largeBid k) {} r.env
      unfold BookState.unreachable at hafter
      rw [heligible, show Branch.buy.other = .sell from rfl, hsell] at hafter
      exact hafter

/-- After 430 accepted bids of 10000000 at one price the level is shown with 5032704. -/
theorem largeBids_misprinted :
    (∀ i < 430, RiskChecker.Accepts (.registerSymbol (text "AAPL") :: (List.range i).map fun j => .validateOrder (largeBid j))
      (largeBid i)) ∧
    ∃ level ∈ ((run (text "AAPL") ⟨1, fun _ => 0, 0⟩ ((List.range 430).map fun i => .submit (largeBid i))).book.levels
        .buy).entries,
      (qtyAtPrice level.2).toNat = 5032704 ∧ totalRemaining (level.2.map Node.order) = 4300000000 := by
  refine ⟨fun i hi => accepts_largeBid i (by omega), ?_⟩
  have hdepth := (largeBids_depth (text "AAPL") ⟨1, fun _ => 0, 0⟩ 430).1
  generalize (run (text "AAPL") ⟨1, fun _ => 0, 0⟩ ((List.range 430).map fun i => .submit (largeBid i))).book = b at hdepth
  obtain ⟨level, hlevel, hprice⟩ := BookState.exists_level_of_depth b.wf (by omega : b.depth .buy 50 ≠ 0)
  have htotal := BookState.depth_level b.wf hlevel
  rw [hprice, hdepth] at htotal
  refine ⟨level, hlevel, ?_, htotal.symm⟩
  rw [qtyAtPrice_toNat, ← htotal]
  decide

end StockExchange
