/-
Matching does not read client ids, trade ids or the clock. Two books that agree up to the client ids
of their orders stay so under an operation that is the same up to the client id, whatever the
results and the outside world it runs with (`SameBook.apply`).
-/
import StockExchange.Engine.Events

namespace StockExchange

open Greedy

/-! ## Client ids forgotten -/

def Order.anonymous (order : Order) : Order := { order with clientId := 0 }

def Node.anonymous (n : Node) : Node := { n with order := n.order.anonymous }

/-- The books agree up to client ids: the same price levels with the same queues of the same nodes,
the same index and the same next node. -/
structure SameBook (b b' : BookState) : Prop where
  symbol : b.symbol = b'.symbol
  levels : ∀ br, (b.levels br).entries.map (Prod.map id (List.map Node.anonymous)) =
    (b'.levels br).entries.map (Prod.map id (List.map Node.anonymous))
  index : b.orderIndex = b'.orderIndex
  nextNode : b.nextNode = b'.nextNode

theorem SameBook.refl (b : BookState) : SameBook b b := ⟨rfl, fun _ => rfl, rfl, rfl⟩

theorem SameBook.nodes {b b' : BookState} (h : SameBook b b') (br : Branch) :
    (b.nodes br).map Node.anonymous = (b'.nodes br).map Node.anonymous := by
  unfold BookState.nodes OrderedMap.flat
  rw [← OrderedMap.flatMap_rekey id, ← OrderedMap.flatMap_rekey id, h.levels br]

/-- The levels of a well-formed book can be read off its nodes. -/
theorem SameBook.of_nodes {b b' : BookState} (hb : b.WF) (hb' : b'.WF) (hsymbol : b.symbol = b'.symbol)
    (hnodes : ∀ br, (b.nodes br).map Node.anonymous = (b'.nodes br).map Node.anonymous)
    (hindex : b.orderIndex = b'.orderIndex) (hnext : b.nextNode = b'.nextNode) : SameBook b b' := by
  refine ⟨hsymbol, fun br => ?_, hindex, hnext⟩
  have hsorted : ∀ ls : Levels br, (ls.entries.map (Prod.map id (List.map Node.anonymous))).Pairwise
      fun e e' => br.before e.1 e'.1 := fun ls => List.pairwise_map.2 ls.sorted
  have hkeyed : ∀ ls : Levels br, BookState.LevelsOk ls →
      ∀ e ∈ ls.entries.map (Prod.map id (List.map Node.anonymous)), e.2 ≠ [] ∧ ∀ n ∈ e.2, n.order.price = e.1 := by
    rintro ls hls _ hmem
    obtain ⟨e, he, rfl⟩ := List.mem_map.1 hmem
    obtain ⟨hne, hprice⟩ := hls e he
    refine ⟨fun hnil => hne (List.map_eq_nil_iff.1 hnil), fun n hn => ?_⟩
    obtain ⟨m, hm, rfl⟩ := List.mem_map.1 hn
    exact hprice m hm
  refine OrderedMap.entries_eq_of_flat_eq _ _ (hsorted _) (hsorted _) (hkeyed _ (hb.levels br))
    (hkeyed _ (hb'.levels br)) ?_
  rw [OrderedMap.flatMap_rekey, OrderedMap.flatMap_rekey]
  exact hnodes br

/-- Nodes at one address of two such books are the same up to the client id. -/
theorem SameBook.node {b b' : BookState} (h : SameBook b b') (hb' : b'.WF) {br br' : Branch} {n n' : Node}
    (hn : n ∈ b.nodes br) (hn' : n' ∈ b'.nodes br') (ha : n.addr = n'.addr) :
    br = br' ∧ n.anonymous = n'.anonymous := by
  have hmem : n.anonymous ∈ (b'.nodes br).map Node.anonymous := by
    rw [← h.nodes br]
    exact List.mem_map_of_mem hn
  obtain ⟨m, hm, heq⟩ := List.mem_map.1 hmem
  have hma : m.anonymous.addr = n.anonymous.addr := by rw [heq]
  obtain ⟨hbr, rfl⟩ := hb'.node_eq hm hn' (hma.trans ha)
  exact ⟨hbr, heq.symm⟩

/-! ## Submission -/

theorem Order.eq_of_anonymous {o o' : Order} (h : o.anonymous = o'.anonymous) : ∃ c, o' = { o with clientId := c } := by
  refine ⟨o'.clientId, ?_⟩
  cases o
  cases o'
  simp only [Order.anonymous, Order.mk.injEq] at h
  simp only [Order.mk.injEq]
  obtain ⟨h1, h2, h3, h4, h5, h6, h7, h8, -⟩ := h
  exact ⟨h1.symm, h2.symm, h3.symm, h4.symm, h5.symm, h6.symm, h7.symm, h8.symm, trivial⟩

/-- What the matching loops leave of lists of nodes that agree up to client ids agrees so too. -/
theorem greedy_anonymous {l l' : List Node} (h : l.map Node.anonymous = l'.map Node.anonymous) (q : Quantity) :
    unmet Node.size q l = unmet Node.size q l' ∧
      (emptied Node.size q l).map Node.anonymous = (emptied Node.size q l').map Node.anonymous ∧
      (leftover Node.size Node.reduce q l).map Node.anonymous =
        (leftover Node.size Node.reduce q l').map Node.anonymous := by
  have hcomp : ∀ l, _ := fun l => (takes_comp Node.anonymous Node.size q l).2
  have hleft : ∀ l, leftover Node.size Node.reduce q (l.map Node.anonymous) =
      (leftover Node.size Node.reduce q l).map Node.anonymous :=
    fun l => leftover_comp Node.anonymous Node.size (fun _ _ => rfl) q l
  refine ⟨?_, ?_, ?_⟩
  · exact (hcomp l).1.symm.trans ((congrArg _ h).trans (hcomp l').1)
  · exact (hcomp l).2.symm.trans ((congrArg _ h).trans (hcomp l').2)
  · rw [← hleft, ← hleft, h]

section Submit

variable {b b' : BookState} (h : SameBook b b')
include h

theorem SameBook.filter (br : Branch) (p : Price → Bool) :
    ((b.nodes br).filter fun n => p n.order.price).map Node.anonymous =
      ((b'.nodes br).filter fun n => p n.order.price).map Node.anonymous := by
  have hmap : ∀ l : List Node, (l.filter fun n => p n.order.price).map Node.anonymous =
      (l.map Node.anonymous).filter fun n => p n.order.price := by
    intro l
    rw [List.filter_map]
    rfl
  rw [hmap, hmap, h.nodes br]

variable (hb : b.WF) (hb' : b'.WF)
include hb hb'

theorem SameBook.submit (order : Order) (c : ClientID) (result result' : MatchResult) (env env' : Env) :
    SameBook (b.submitBranch (Branch.ofSide order.side) order result env).book
      (b'.submitBranch (Branch.ofSide order.side) { order with clientId := c } result' env').book := by
  let order' : Order := { order with clientId := c }
  -- which orders are reached depends on prices and sizes only, so both books match the same ones
  have hel : (b.eligible (Branch.ofSide order.side) order).map Node.anonymous =
      (b'.eligible (Branch.ofSide order.side) order').map Node.anonymous :=
    h.filter _ fun p => (Branch.ofSide order.side).accepts order p
  have hun : (b.unreachable (Branch.ofSide order.side) order).map Node.anonymous =
      (b'.unreachable (Branch.ofSide order.side) order').map Node.anonymous :=
    h.filter _ fun p => !(Branch.ofSide order.side).accepts order p
  obtain ⟨hunmet, hemptied, hleft⟩ := greedy_anonymous hel order.remainingQuantity
  have hrem : (b.remainder order).remainingQuantity = (b'.remainder order').remainingQuantity := hunmet
  have hids : ∀ l : List Node, l.map (fun n => n.order.orderId) =
      (l.map Node.anonymous).map fun n => n.order.orderId := fun l => by rw [List.map_map]; rfl
  refine .of_nodes (BookState.submitBranch_wf _ _ _ hb rfl) (BookState.submitBranch_wf _ _ _ hb' rfl) ?_
    (Branch.forall_of (Branch.ofSide order.side) ?_ ?_) (funext fun id => ?_) ?_
  · rw [BookState.submitBranch_symbol hb, h.symbol]
    exact (BookState.submitBranch_symbol hb' order' result' env').symm
  · refine Eq.trans ?_ (congrArg _ (BookState.submitBranch_nodes hb' order' result' env').symm)
    rw [BookState.submitBranch_nodes hb, hrem]
    by_cases hrest : (b'.remainder order').remainingQuantity ≠ 0 ∧ order.type = OrderType.limit
    · have hnode : (⟨b.nextNode, b.remainder order⟩ : Node).anonymous =
          (⟨b'.nextNode, b'.remainder order'⟩ : Node).anonymous := by
        simp only [Node.anonymous, Order.anonymous, BookState.remainder, h.nextNode, hunmet, order']
      rw [if_pos hrest]
      refine Eq.trans ?_ (congrArg _ (if_pos hrest).symm)
      rw [List.map_append, List.map_cons, hnode,
        h.filter _ fun p => ¬ (Branch.ofSide order.side).before order.price p,
        h.filter _ fun p => (Branch.ofSide order.side).before order.price p, ← List.map_cons, ← List.map_append]
    · rw [if_neg hrest]
      refine Eq.trans ?_ (congrArg _ (if_neg hrest).symm)
      exact h.nodes _
  · rw [BookState.submitBranch_nodes_other hb, BookState.submitBranch_nodes_other hb', List.map_append,
      List.map_append, hleft, hun]
  · refine Eq.trans ?_ (BookState.submitBranch_orderIndex hb' order' result' env' id).symm
    rw [BookState.submitBranch_orderIndex hb, hids, hemptied, ← hids, hrem, h.index, h.nextNode]
  · refine Eq.trans ?_ (BookState.submitBranch_nextNode hb' order' result' env').symm
    rw [BookState.submitBranch_nextNode hb, hrem, h.nextNode]

/-! ## Removal -/

theorem SameBook.without {br : Branch} {n n' : Node} (hn : n ∈ b.nodes br) (hn' : n' ∈ b'.nodes br)
    (heq : n.anonymous = n'.anonymous) : SameBook (b.without br n) (b'.without br n') := by
  have haddr : n.anonymous.addr = n'.anonymous.addr := by rw [heq]
  have hid : n.anonymous.order.orderId = n'.anonymous.order.orderId := by rw [heq]
  have hmap : ∀ l : List Node, (l.filter fun m => m.addr ≠ n.addr).map Node.anonymous =
      (l.map Node.anonymous).filter fun m => m.addr ≠ n.addr := by
    intro l
    rw [List.filter_map]
    rfl
  refine .of_nodes (BookState.without_wf hb hn) (BookState.without_wf hb' hn') ?_
    (Branch.forall_of br ?_ ?_) (funext fun id => ?_) ?_
  · rw [BookState.without_symbol, BookState.without_symbol, h.symbol]
  · rw [BookState.without_nodes hb hn, BookState.without_nodes hb' hn', hmap, h.nodes br, ← hmap,
      show n.addr = n'.addr from haddr]
  · rw [BookState.without_nodes_other, BookState.without_nodes_other, h.nodes]
  · rw [BookState.without_orderIndex, BookState.without_orderIndex, h.index,
      show n.order.orderId = n'.order.orderId from hid]
  · rw [BookState.without_nextNode, BookState.without_nextNode, h.nextNode]

end Submit

/-! ## Operations -/

def ModifyRequest.anonymous (request : ModifyRequest) : ModifyRequest := { request with clientId := 0 }

/-- An operation without its client id. -/
def Op.anonymous : Op → Op
  | .submit order => .submit order.anonymous
  | .cancel id => .cancel id
  | .modify request => .modify request.anonymous

/-- The two entries found in the indexes of such books are of the same node. -/
theorem SameBook.indexed {b b' : OrderBook} (h : SameBook b.toBookState b'.toBookState) {id : OrderID} {br br' : Branch}
    {n n' : Node} (hn : n ∈ b.nodes br) (hn' : n' ∈ b'.nodes br')
    (hi : b.orderIndex id = some ⟨br.toSide, n.order.price, n.addr⟩)
    (hi' : b'.orderIndex id = some ⟨br'.toSide, n'.order.price, n'.addr⟩) :
    br = br' ∧ n.anonymous = n'.anonymous := by
  rw [h.index, hi'] at hi
  have ha : n'.addr = n.addr := congrArg OrderIndexEntry.position (Option.some.inj hi)
  exact h.node b'.wf hn hn' ha.symm

/-- Books that agree up to client ids stay so under the same operation of any client, in any two
outside worlds. -/
theorem SameBook.apply {b b' : OrderBook} (h : SameBook b.toBookState b'.toBookState) (op : Op) (env env' : Env) :
    SameBook (b.apply op env).book.toBookState (b'.apply op.anonymous env').book.toBookState := by
  cases op with
  | submit order =>
    show SameBook (b.submit order env).book.toBookState (b'.submit order.anonymous env').book.toBookState
    rw [OrderBook.submit_book, OrderBook.submit_book]
    exact h.submit b.wf b'.wf order 0 {} {} env env'
  | cancel id =>
    show SameBook (b.cancel id env).book.toBookState (b'.cancel id env').book.toBookState
    rcases b.cancel_cases id env with ⟨hi, hbook⟩ | ⟨br, n, hn, -, hi, hbook⟩
    · rcases b'.cancel_cases id env' with ⟨-, hbook'⟩ | ⟨_, _, _, _, hi', _⟩
      · rw [hbook, hbook']
        exact h
      · rw [h.index, hi'] at hi
        cases hi
    · rcases b'.cancel_cases id env' with ⟨hi', -⟩ | ⟨br', n', hn', -, hi', hbook'⟩
      · rw [h.index, hi'] at hi
        cases hi
      · obtain ⟨rfl, heq⟩ := h.indexed hn hn' hi hi'
        rw [hbook, hbook']
        exact h.without b.wf b'.wf hn hn' heq
  | modify request =>
    show SameBook (b.modify request env).book.toBookState (b'.modify request.anonymous env').book.toBookState
    rcases b.modify_cases request env with ⟨hi, hbook⟩ | ⟨br, n, hn, -, hi, hbook⟩
    · rcases b'.modify_cases request.anonymous env' with ⟨-, hbook'⟩ | ⟨_, _, _, _, hi', _⟩
      · rw [hbook, hbook']
        exact h
      · rw [h.index] at hi
        exact absurd (hi.symm.trans hi') (by simp)
    · rcases b'.modify_cases request.anonymous env' with ⟨hi', -⟩ | ⟨br', n', hn', -, hi', hbook'⟩
      · rw [h.index] at hi
        exact absurd (hi.symm.trans hi') (by simp)
      · -- the stored client id survives the modify, and is the only thing in which the orders differ
        obtain ⟨rfl, heq⟩ := h.indexed hn hn' hi hi'
        obtain ⟨c, hc⟩ := Order.eq_of_anonymous (congrArg Node.order heq)
        have hside := b.wf.modified_side hn request
        have hsub := (h.without b.wf b'.wf hn hn' heq).submit (BookState.without_wf b.wf hn)
          (BookState.without_wf b'.wf hn') (BookState.modified n.order request) c {} {} env env'
        rw [hside] at hsub
        rw [hbook, hbook', hc]
        exact hsub

end StockExchange
