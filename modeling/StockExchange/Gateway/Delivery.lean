/-
Who gets a report. The client that a session stamps on an order stays with it through the queue, the book, partial
fills and modifies, and with every report about it up to the dispatch thread: a report is handed to the client
on whose session the Order packet of its order came in, whoever has cancelled or modified the order.
-/
import StockExchange.Gateway.Trace
import StockExchange.Threadpool.Owners

universe u

namespace StockExchange

namespace Exchange

variable {W : Type u}

/-- Among the actions an Order packet with the id has come in on the session of the client. -/
def OrderReceived (actions : List (ExchangeAction W)) (id : OrderID) (c : ClientID) : Prop :=
  ∃ (packet : Packet) (behind : List UInt8) (order : Order), .packet c packet behind ∈ actions ∧
    Session.orderOf c packet behind = some order ∧ order.orderId = id

theorem OrderReceived.mono {actions : List (ExchangeAction W)} (later : List (ExchangeAction W)) {id : OrderID} {c : ClientID}
    (h : OrderReceived actions id c) : OrderReceived (actions ++ later) id c := by
  obtain ⟨packet, behind, order, hmem, ho, hid⟩ := h
  exact ⟨packet, behind, order, List.mem_append_left _ hmem, ho, hid⟩

/-- Every order and every report is with the client that has sent the order. -/
structure Delivers (done : List (ExchangeAction W)) (x : Exchange W) : Prop where
  pool : x.pool.Owned (OrderReceived done)
  sent : ∀ q ∈ x.sent, OrderReceived done q.2.orderId q.1

variable [DecidableEq W] {x x' : Exchange W} {done : List (ExchangeAction W)}

theorem Delivers.step {a : ExchangeAction W} (hs : x.step a = some x') (h : Delivers done x) : Delivers (done ++ [a]) x' := by
  have hpool : x.pool.Owned (OrderReceived (done ++ [a])) := h.pool.mono fun _ _ ho => ho.mono [a]
  have hsent : ∀ q ∈ x.sent, OrderReceived (done ++ [a]) q.2.orderId q.1 := fun q hq => (h.sent q hq).mono [a]
  cases transition hs with
  | connect => exact ⟨hpool, hsent⟩
  | close c => exact ⟨hpool, hsent⟩
  | registerSymbol symbol => exact ⟨hpool, hsent⟩
  | dropped c packet behind risk env hc hp => exact ⟨hpool, hsent⟩
  | rejected c packet behind report risk env hc hp =>
    obtain ⟨order, ho, hid, -⟩ := Session.orderOf_of_processPacket hp
    refine ⟨hpool.of_same_pool rfl rfl rfl (List.Subset.refl _), fun q hq => ?_⟩
    rcases List.mem_append.1 hq with hq | hq
    · exact hsent q hq
    · rw [List.mem_singleton.1 hq]
      exact ⟨packet, behind, order, List.mem_append_right _ (List.mem_singleton_self _), ho, hid.symm⟩
  | accepted c packet behind task risk env hc hp hlen =>
    have htask : task.request.Owned (OrderReceived (done ++ [.packet c packet behind])) := by
      intro order hr
      have ho := Session.orderOf_of_processPacket hp order hr
      have hresult := Session.processPacket_spec hp
      have hclient : order.clientId = c := by
        rw [← hresult.1.client, hr]
        rfl
      rw [hclient]
      exact ⟨packet, behind, order, List.mem_append_right _ (List.mem_singleton_self _), ho, rfl⟩
    refine ⟨⟨⟨fun t ht => ?_, hpool.tasks.taken⟩, hpool.books, hpool.made, hpool.published⟩, hsent⟩
    rcases List.mem_append.1 ht with ht | ht
    · exact hpool.tasks.queued t ht
    · rw [List.mem_singleton.1 ht]
      exact htask
  | pool a pool hstep ha => exact ⟨hpool.step hstep fun task heq => absurd heq (ha task), hsent⟩
  | dispatchReport report reports hr =>
    have hfirst : OrderReceived (done ++ [.dispatchReport]) report.orderId report.clientId :=
      hpool.published report (by rw [hr]; exact List.mem_cons_self ..)
    refine ⟨hpool.of_same_pool rfl rfl rfl (by rw [hr]; exact List.subset_cons_self ..), fun q hq => ?_⟩
    by_cases hc : report.clientId ∈ x.sessions
    · replace hq : q ∈ x.sent ++ [(report.clientId, report)] := by
        rwa [if_pos hc] at hq
      rcases List.mem_append.1 hq with hq | hq
      · exact hsent q hq
      · rw [List.mem_singleton.1 hq]
        exact hfirst
    · rw [if_neg hc] at hq
      exact hsent q hq
  | dispatchTrade trade trades ht => exact ⟨hpool.of_same_pool rfl rfl rfl (List.Subset.refl _), hsent⟩

/-- In every run, every report handed to the session of a client is about an order whose Order packet has come in on
the session of that client. -/
theorem delivered_to_owner (env : Env) (actions : List (ExchangeAction W)) (x : Exchange W)
    (hrun : Machine.run step (start W env) actions = some x) :
    ∀ q ∈ x.sent, ∃ (packet : Packet) (behind : List UInt8) (order : Order), .packet q.1 packet behind ∈ actions ∧
      Session.orderOf q.1 packet behind = some order ∧ order.orderId = q.2.orderId := by
  have hstart : Delivers [] (start W env) := ⟨ThreadPool.start_owned env, fun _ hq => nomatch hq⟩
  have h := Machine.run_induction (fun done x a x' hs hd => Delivers.step hs hd) actions [] _ x hrun hstart
  exact h.sent

/-- Client 1 bids, client 2 offers above it, and client 3 lifts the price of the bid to that of the offer, so that the
two trade; the reports of all three requests are dispatched. -/
def foreignModify : List (ExchangeAction Unit) :=
  let symbol : Packed.Chars 8 := (Packed.chars 8).get [65]
  let entry : WALEntry := ⟨0, .replicate 52 0⟩
  let net : NetOrder := ⟨0, symbol, 0, 0, 0, 0, 0⟩
  let handle : List (ExchangeAction Unit) := [.pool (.dequeue ()), .pool (.getOrderBook ()), .pool (.lock ()),
    .pool (.log () entry net), .pool (.apply ()), .pool (.unlock ())]
  [.connect, .connect, .connect, .registerSymbol [65],
    .packet 1 ⟨MsgType.order, NetOrder.packed.put ⟨7, symbol, 0, 0, 100, 5, 1⟩⟩ [],
    .packet 2 ⟨MsgType.order, NetOrder.packed.put ⟨8, symbol, 1, 0, 101, 5, 2⟩⟩ [],
    .packet 3 ⟨MsgType.modify, NetModify.packed.put ⟨7, symbol, 101, 5, 3⟩⟩ []] ++
    handle ++ [.pool (.publishReport ()), .pool (.finish ())] ++
    handle ++ [.pool (.publishReport ()), .pool (.finish ())] ++
    handle ++ [.pool (.logFill () entry), .pool (.publishReport ()), .pool (.publishReport ()), .dispatchReport,
      .dispatchReport, .dispatchReport, .dispatchReport]

/-- The trade that client 3 has caused is reported to the two others. -/
theorem delivered_to_owner_modified : ∃ x,
    Machine.run step (start Unit ⟨1, fun _ => 0, 0⟩) foreignModify = some x ∧
      x.sent.map (fun q => (q.1, q.2.orderId, q.2.status)) =
        [(1, 7, .new), (2, 8, .new), (1, 7, .filled), (2, 8, .filled)] ∧
      ∀ q ∈ x.sent, OrderReceived foreignModify q.2.orderId q.1 := by
  have hrun : (Machine.run step (start Unit ⟨1, fun _ => 0, 0⟩) foreignModify).any fun x =>
      x.sent.map (fun q => (q.1, q.2.orderId, q.2.status)) =
        [(1, 7, .new), (2, 8, .new), (1, 7, .filled), (2, 8, .filled)] := by decide +kernel
  obtain ⟨x, hx, hsent⟩ := (Option.any_eq_true _ _).1 hrun
  exact ⟨x, hx, of_decide_eq_true hsent, delivered_to_owner ⟨1, fun _ => 0, 0⟩ foreignModify x hx⟩

end Exchange

end StockExchange
