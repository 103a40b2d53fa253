/-
The index never dangles, whatever the orders and requests are, ids that still rest included. Here a
run is made of the operations as they are, which are undefined when they read or erase through the
iterator of a list node that is gone (`execAll`); no run ever gets there (`index_never_dangles`).
-/
import StockExchange.Engine.Runs

namespace StockExchange

namespace BookState

/-- One operation on the bare memory; `none` is undefined behaviour. -/
def exec (b : BookState) (op : Op) (env : Env) : Option Outcome :=
  match op with
  | .submit order => some (b.submitOrder order env)
  | .cancel id => (b.cancelOrder id {} env).map Prod.snd
  | .modify request => (b.modifyOrder request {} env).map Prod.snd

/-- A run on the bare memory, from the empty book for `symbol` on. -/
def execAll (symbol : Symbol) (env : Env) (ops : List Op) : Option (BookState × Env) :=
  ops.foldlM (fun s op => (s.1.exec op s.2).map fun o => (o.book, o.env)) (.init symbol, env)

end BookState

/-- On a book with the class invariant the operation is defined. -/
theorem OrderBook.exec_eq (b : OrderBook) (op : Op) (env : Env) : ∃ o, b.toBookState.exec op env = some o ∧
    o.book = (b.apply op env).book.toBookState ∧ o.env = (b.apply op env).env := by
  cases op with
  | submit order => exact ⟨_, rfl, rfl, rfl⟩
  | cancel id =>
    obtain ⟨⟨ok, o⟩, hcancel, -⟩ := b.cancelOrder_defined id env
    obtain ⟨hbook, -, henv⟩ := ofDefined_eq (b.cancelOrder_defined id env) hcancel
    exact ⟨o, congrArg (Option.map Prod.snd) hcancel, hbook.symm, henv.symm⟩
  | modify request =>
    obtain ⟨⟨ok, o⟩, hmodify, -⟩ := b.modifyOrder_defined request env
    obtain ⟨hbook, -, henv⟩ := ofDefined_eq (b.modifyOrder_defined request env) hmodify
    exact ⟨o, congrArg (Option.map Prod.snd) hmodify, hbook.symm, henv.symm⟩

/-- Every run on the bare memory is defined, and is the run under the class invariant. -/
theorem execAll_eq (symbol : Symbol) (env : Env) (ops : List Op) : BookState.execAll symbol env ops =
    some ((run symbol env ops).book.toBookState, (run symbol env ops).env) := by
  refine run_induction (P := fun ops r => BookState.execAll symbol env ops = some (r.book.toBookState, r.env)) rfl ?_ ops
  intro ops op ih
  obtain ⟨o, hexec, hbook, henv⟩ := (run symbol env ops).book.exec_eq op (run symbol env ops).env
  unfold BookState.execAll at ih ⊢
  rw [List.foldlM_append, ih]
  simp only [List.foldlM_cons, List.foldlM_nil, Option.bind_eq_bind, Option.bind_some, hexec, Option.map_some, hbook,
    henv]
  rfl

namespace BookState

/-- What the entry of an id points to: a live node of the queue at the recorded side and price level,
holding an order with that id. -/
structure Points (b : BookState) (id : OrderID) (e : OrderIndexEntry) (br : Branch) (n : Node) : Prop where
  side : e.side = br.toSide
  queued : ∃ q, (b.levels br).find? e.priceLevel = some q ∧ n ∈ q
  position : n.addr = e.position
  orderId : n.order.orderId = id
  deref : b.deref e.position = some n.order
  erase : b.eraseEntry e = some (b.setLevels br ((b.levels br).filterAt e.priceLevel fun m => m.addr ≠ n.addr))

theorem WF.points {b : BookState} (hb : b.WF) {id : OrderID} {e : OrderIndexEntry} (he : b.orderIndex.get id = some e) :
    ∃ br n, b.Points id e br n := by
  obtain ⟨br, n, hn, hid, rfl⟩ := hb.index id e he
  exact ⟨br, n, rfl, hb.node_level hn, rfl, hid, hb.deref_eq hn, eraseEntry_eq hb hn⟩

end BookState

/-- Every run of arbitrary submissions, cancels and modifies is defined; in the book it reaches every
index entry points to a live node of the level it records, and `cancelOrder`, `modifyOrder` and
`queryOrder` are defined for every id. -/
theorem index_never_dangles (symbol : Symbol) (env : Env) (ops : List Op) :
    ∃ b env', BookState.execAll symbol env ops = some (b, env') ∧
      (∀ id e, b.orderIndex.get id = some e → ∃ br n, b.Points id e br n) ∧
      ∀ id request result env, (b.cancelOrder id result env).isSome ∧ (b.modifyOrder request result env).isSome ∧
        (b.queryOrder id).isSome := by
  have hwf := (run symbol env ops).book.wf
  refine ⟨_, _, execAll_eq symbol env ops, fun id e he => hwf.points he, fun id request result env' => ⟨?_, ?_, ?_⟩⟩
  · rcases BookState.cancelOrder_cases hwf id result env' with ⟨-, h⟩ | ⟨_, _, _, _, _, h⟩ <;> rw [h] <;> rfl
  · rcases BookState.modifyOrder_cases hwf request result env' with ⟨-, h⟩ | ⟨_, _, _, _, _, h⟩ <;> rw [h] <;> rfl
  · rcases BookState.queryOrder_cases hwf id with ⟨h, -⟩ | ⟨_, _, _, _, h⟩ <;> rw [h] <;> rfl

end StockExchange
