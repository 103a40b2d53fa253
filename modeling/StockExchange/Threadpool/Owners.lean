/-
The owners of orders in a pool and after a recovery. In a running pool the client of an order is the one on whose
session it came in, wherever the order goes. The log has no field for it: the orders of a replay belong to
client 0, so recovery keeps the owners exactly of the orders that had none.
-/
import StockExchange.Engine.Owners
import StockExchange.Threadpool.History
import StockExchange.Threadpool.Recovery

universe u

namespace StockExchange

/-- The id and the client of an order that the request submits are related by `P`. -/
def Request.Owned (P : OrderID → ClientID → Prop) (r : Request) : Prop :=
  ∀ order, r = .submit order → P order.orderId order.clientId

theorem Request.Owned.op {P : OrderID → ClientID → Prop} {r : Request} (h : r.Owned P) (order : Order)
    (ho : r.op = .submit order) : P order.orderId order.clientId := by
  cases r with
  | submit _ =>
    cases ho
    exact h order rfl
  | cancel req => cases ho
  | modify req => cases ho

namespace ThreadPool

variable {W : Type u}

/-- The ids and clients of all orders and reports in the pool are related by `P`. -/
structure Owned (P : OrderID → ClientID → Prop) (p : ThreadPool W) : Prop where
  tasks : p.AllTasks fun task => task.request.Owned P
  books : p.registry.All fun book => book.Owned P
  made : ∀ w, ReportsOwned P (p.workers w).reports
  published : ReportsOwned P p.reports

variable {P : OrderID → ClientID → Prop} {p p' : ThreadPool W}

theorem start_owned (env : Env) : (start W env).Owned P where
  tasks := start_allTasks _ env
  books _ _ h := nomatch h
  made _ _ h := nomatch h
  published _ h := nomatch h

theorem Owned.mono {P' : OrderID → ClientID → Prop} (h : p.Owned P) (hP : ∀ id c, P id c → P' id c) : p.Owned P' where
  tasks := h.tasks.mono fun _ ht order ho => hP _ _ (ht order ho)
  books symbol book hb := (h.books symbol book hb).mono hP
  made w r hr := hP _ _ (h.made w r hr)
  published r hr := hP _ _ (h.published r hr)

/-- A pool with the same tasks and books, and with some of the reports. -/
theorem Owned.of_same_pool (h : p.Owned P) (htasks : p'.tasks = p.tasks) (hworkers : p'.workers = p.workers)
    (hregistry : p'.registry = p.registry) (hreports : p'.reports ⊆ p.reports) : p'.Owned P where
  tasks := ⟨htasks ▸ h.tasks.queued, hworkers ▸ h.tasks.taken⟩
  books := hregistry ▸ h.books
  made := hworkers ▸ h.made
  published r hr := h.published r (hreports hr)

variable [DecidableEq W]

theorem Owned.step {a : PoolAction W} (hs : p.step a = some p')
    (ha : ∀ task, a = .submit task → task.request.Owned P) (h : p.Owned P) : p'.Owned P := by
  have happly : ∀ w book task, p.applying w = some (book, task) →
      (book.apply task.request.op p.env).book.Owned P ∧
        ReportsOwned P (book.apply task.request.op p.env).result.executionReports := by
    intro w book task hq
    obtain ⟨hw, hb⟩ := applying_eq_some.1 hq
    have hrequest : task.request.Owned P := h.tasks.taken w task (by rw [hw]; rfl)
    exact OrderBook.apply_owned (h.books _ _ hb) task.request.op p.env hrequest.op
  have hreports : p.AllReports fun r => P r.orderId r.clientId := ⟨h.made, h.published⟩
  have hreports' := hreports.step hs fun w book task _ hq => (happly w book task hq).2
  refine ⟨h.tasks.step hs ha, books_step hs (fun w task _ => ?_) (fun w book task hq _ => ?_) h.books, hreports'.made,
    hreports'.published⟩
  · exact BookState.init_owned task.symbol
  · exact (happly w book task hq).1

end ThreadPool

/-! ## Replay -/

namespace ReplayEngine

theorem apply_owned {P : OrderID → ClientID → Prop} {s : Replay} (h : s.registry.All fun book => book.Owned P) {r : Request}
    (hr : r.Owned P) : (apply s r).registry.All fun book => book.Owned P := by
  have hbook : (s.registry.getOrderBook r.symbol).1.Owned P := by
    rw [BookRegistry.getOrderBook_fst]
    cases hs : s.registry r.symbol with
    | none => exact BookState.init_owned r.symbol
    | some book => exact h r.symbol book hs
  have hbooks := h.getOrderBook (BookState.init_owned r.symbol)
  exact hbooks.set_iff.2 (OrderBook.apply_owned hbook r.op s.env hr.op).1

theorem foldl_owned {P : OrderID → ClientID → Prop} : ∀ (rs : List Request) (s : Replay), (∀ r ∈ rs, r.Owned P) →
    (s.registry.All fun book => book.Owned P) → (rs.foldl apply s).registry.All fun book => book.Owned P
  | [], _, _, h => h
  | r :: rs, s, hrs, h => by
    refine foldl_owned rs (apply s r) (fun r' hr' => hrs r' (List.mem_cons_of_mem _ hr')) ?_
    exact apply_owned h (hrs r (List.mem_cons_self ..))

/-- An order that is read from a log belongs to client 0. -/
theorem request_owned {entry : WALEntry} {after : List UInt8} {r : Request} (h : entry.request after = some r) :
    r.Owned fun _ c => c = 0 := by
  rintro order rfl
  unfold WALEntry.request at h
  split at h
  next =>
    cases h
    rfl
  next =>
  split at h
  next => cases h
  next =>
  split at h
  next => cases h
  next => cases h

/-- All orders of a replay, of whatever file, belong to client 0. -/
theorem replay_owned (after file : List UInt8) (env : Env) :
    (replay after file .empty env).registry.All fun book => book.Owned fun _ c => c = 0 := by
  unfold replay
  rw [foldl_turn]
  refine foldl_owned _ _ (fun r hr => ?_) fun _ _ h => nomatch h
  obtain ⟨entry, -, hentry⟩ := List.mem_filterMap.1 hr
  exact request_owned hentry

end ReplayEngine

/-! ## Owners after a recovery -/

/-- The recovered orders belong to the clients of the live ones, order by order. -/
def SameOwners (live recovered : BookState) : Prop :=
  ∀ br, (recovered.nodes br).map (fun n => (n.order.orderId, n.order.clientId)) =
    (live.nodes br).map fun n => (n.order.orderId, n.order.clientId)

theorem sameOwners_iff {live recovered : BookState} (h : SameBook live recovered)
    (hrecovered : recovered.Owned fun _ c => c = 0) : SameOwners live recovered ↔ live.Owned fun _ c => c = 0 := by
  constructor
  · intro hsame br n hn
    have hmem : (n.order.orderId, n.order.clientId) ∈ (recovered.nodes br).map fun n => (n.order.orderId, n.order.clientId) := by
      rw [hsame br]
      exact List.mem_map_of_mem hn
    obtain ⟨m, hm, heq⟩ := List.mem_map.1 hmem
    exact (congrArg Prod.snd heq).symm.trans (hrecovered br m hm)
  · -- without a client, both are told by the books up to client ids
    intro hlive br
    have hzero : ∀ b : BookState, (b.Owned fun _ c => c = 0) → (b.nodes br).map (fun n => (n.order.orderId, n.order.clientId)) =
        ((b.nodes br).map Node.anonymous).map fun n => (n.order.orderId, n.order.clientId) := by
      intro b hb
      rw [List.map_map]
      refine List.map_congr_left fun n hn => ?_
      rw [hb br n hn]
      rfl
    rw [hzero _ hrecovered, hzero _ hlive, h.nodes br]

/-- The books of the two sides of a recovery go in pairs. -/
theorem rel_some {live recovered : Option OrderBook}
    (h : Option.Rel (fun b b' => SameBook b.toBookState b'.toBookState) live recovered) {book : OrderBook}
    (hlive : live = some book) : ∃ book', recovered = some book' ∧ SameBook book.toBookState book'.toBookState := by
  cases h with
  | none => cases hlive
  | some hb =>
    cases hlive
    exact ⟨_, rfl, hb⟩

/-- A task that comes from a client. -/
def PoolAction.HasClient {W : Type u} : PoolAction W → Prop
  | .submit task => task.request.clientId ≠ 0
  | _ => True

namespace ThreadPool

variable {W : Type u} [DecidableEq W]

/-- A recovery keeps the owners exactly if all that rests in the live books belongs to client 0; where every task comes
from a client, exactly if nothing rests. -/
theorem recovered_owners_iff (env env' : Env) (after : List UInt8) (actions : List (PoolAction W)) (p : ThreadPool W)
    (hbuilt : ∀ a ∈ actions, a.Built) (hrun : Machine.run step (start W env) actions = some p) (hdrained : p.Drained) :
    ((∀ symbol live recovered, p.registry symbol = some live →
        (ReplayEngine.replay after p.wal.file .empty env').registry symbol = some recovered →
          SameOwners live.toBookState recovered.toBookState) ↔
      p.registry.All fun book => book.Owned fun _ c => c = 0) ∧
    ((∀ a ∈ actions, a.HasClient) → ((p.registry.All fun book => book.Owned fun _ c => c = 0) ↔
      p.registry.All fun book => ∀ br, book.nodes br = [])) := by
  have hrecovered := ReplayEngine.replay_owned after p.wal.file env'
  have hrel := (run_recoverable after env hbuilt hrun).recovered hdrained env'
  constructor
  · constructor
    · intro h symbol live hlive
      obtain ⟨recovered, hrec, hsame⟩ := rel_some (hrel symbol) hlive
      exact (sameOwners_iff hsame (hrecovered symbol recovered hrec)).1 (h symbol live recovered hlive hrec)
    · intro h symbol live recovered hlive hrec
      obtain ⟨recovered', hrec', hsame⟩ := rel_some (hrel symbol) hlive
      cases hrec.symm.trans hrec'
      exact (sameOwners_iff hsame (hrecovered symbol recovered hrec)).2 (h symbol live hlive)
  · intro hclients
    have howned : p.Owned fun _ c => c ≠ 0 := by
      refine Machine.run_invariant (fun s a s' ha hs h => Owned.step hs ?_ h) actions _ p hclients hrun (start_owned env)
      rintro task rfl order ho
      rw [show order.clientId = task.request.clientId by rw [ho]; rfl]
      exact ha
    constructor
    · intro h symbol book hb br
      refine List.eq_nil_iff_forall_not_mem.2 fun n hn => ?_
      exact howned.books symbol book hb br n hn (h symbol book hb br n hn)
    · intro h symbol book hb br n hn
      rw [h symbol book hb br] at hn
      cases hn

/-- A client submits an order, and cancels it if `cancelled`; a worker takes the requests one after the other, and the
log is written. -/
def submitRun (cancelled : Bool) : List (PoolAction Unit) :=
  let entry : WALEntry := ⟨7, .replicate 52 255⟩
  let net : NetOrder := ⟨0, .replicate 8 255, 0, 0, 0, 0, 0⟩
  let buy : Order := { orderId := 1, symbol := [65], price := 10, quantity := 5, remainingQuantity := 5, clientId := 8 }
  let cancel : CancelRequest := { orderId := 1, symbol := [65], clientId := 8 }
  let handle : List (PoolAction Unit) := [.dequeue (), .getOrderBook (), .lock (), .log () entry net, .apply (),
    .unlock (), .publishReport (), .finish (), .flush]
  .submit ⟨.submit buy, [65]⟩ :: handle ++ if cancelled then .submit ⟨.cancel cancel, [65]⟩ :: handle else []

/-- The order of client 8 comes back as an order of client 0. -/
theorem recovery_loses_owner : ∃ p, Machine.run step (start Unit ⟨1, fun _ => 0, 0⟩) (submitRun false) = some p ∧
    (∀ w, p.workers w = .idle) ∧ p.wal.queue = [] ∧
    (p.registry [65]).map (fun book => (book.nodes .buy).map fun n => (n.order.orderId, n.order.clientId)) =
      some [(1, 8)] ∧
    ((ReplayEngine.replay [] p.wal.file .empty ⟨1, fun _ => 0, 0⟩).registry [65]).map
      (fun book => (book.nodes .buy).map fun n => (n.order.orderId, n.order.clientId)) = some [(1, 0)] := by
  refine ⟨_, rfl, fun _ => rfl, rfl, ?_, ?_⟩
  · decide
  · decide +kernel

/-- Nothing rests after the cancel, and nothing comes back. -/
theorem recovered_owners_iff_cancelled : ∃ p,
    Machine.run step (start Unit ⟨1, fun _ => 0, 0⟩) (submitRun true) = some p ∧
      ∀ symbol live recovered, p.registry symbol = some live →
        (ReplayEngine.replay [] p.wal.file .empty ⟨1, fun _ => 0, 0⟩).registry symbol = some recovered →
          SameOwners live.toBookState recovered.toBookState := by
  have hsome : (Machine.run step (start Unit ⟨1, fun _ => 0, 0⟩) (submitRun true)).isSome := by decide
  have hrun : Machine.run step (start Unit ⟨1, fun _ => 0, 0⟩) (submitRun true) = some (Option.get _ hsome) :=
    (Option.some_get hsome).symm
  have hdrained : (Option.get _ hsome).Drained := ⟨fun _ => rfl, rfl⟩
  have hhistory : ∀ r ∈ (Option.get _ hsome).wal.history [], r.symbol = [65] := by
    clear hdrained hrun
    revert hsome
    decide +kernel
  refine ⟨_, hrun, (recovered_owners_iff ⟨1, fun _ => 0, 0⟩ ⟨1, fun _ => 0, 0⟩ [] (submitRun true) _ (by decide) hrun
    hdrained).1.2 fun symbol book hb => ?_⟩
  by_cases hs : symbol = [65]
  · subst hs
    cases hb
    intro br n hn
    cases br <;> cases hn
  · -- nothing was logged for another symbol, so it has no book
    have hlogged : (Option.get _ hsome).logged [] symbol = [] := by
      unfold logged opsOf
      rw [List.filter_eq_nil_iff.2 fun r hr => by simp [hhistory r hr, Ne.symm hs], List.map_nil]
    have hnone := (run_recoverable [] ⟨1, fun _ => 0, 0⟩ (by decide) hrun).builtBy hdrained.1 symbol
    rw [hlogged, hb] at hnone
    cases hnone

end ThreadPool

end StockExchange
