/-
Order ids across a recovery. The books come back from the log, the ids that the risk checker has seen do not: after a
recovery an order may be accepted under an id from before. Ids stay unique exactly as long as every packet with
such an id fails one of the other checks.
-/
import StockExchange.Gateway.Trace
import StockExchange.Engine.UniqueBooks
import StockExchange.Pipeline.Restart
import StockExchange.Threadpool.Crash

universe u

namespace StockExchange

open History

/-! ## Submitted ids -/

/-- The id of the order that a request submits. -/
def Request.submitted : Request → Option OrderID
  | .submit order => some order.orderId
  | _ => none

theorem submittedIds_singleton (r : Request) : submittedIds [r.op] = r.submitted.toList := by cases r <;> rfl

theorem submittedIds_map_op : ∀ rs : List Request, submittedIds (rs.map Request.op) = rs.filterMap Request.submitted
  | [] => rfl
  | r :: rs => by
    rw [List.map_cons, ← List.singleton_append, submittedIds, List.filterMap_append]
    show submittedIds [r.op] ++ submittedIds (rs.map Request.op) = _
    rw [submittedIds_singleton, submittedIds_map_op rs]
    cases h : r.submitted <;> simp [h]

/-- The log keeps the id of a submitted order, whatever becomes of its symbol. -/
theorem WALEntry.submitted_ofRequest (entry : WALEntry) (net : NetOrder) (r : Request) (after : List UInt8) :
    ((entry.ofRequest net r).request after).bind Request.submitted = r.submitted := by
  cases r with
  | submit order =>
    rw [ofRequest, request, if_pos rfl, WALData.read_write]
    rfl
  | cancel req => rfl
  | modify req => rfl

namespace History

variable {W : Type u} {p : ThreadPool W} {h : History W}

/-- The id that the task with a number submits. -/
def submittedAt (h : History W) (i : ℕ) : Option OrderID := (h.accepted[i]?).bind fun task => task.request.submitted

/-- The ids in the log are those of the logged tasks, one by one. -/
theorem EntryOf.submitted (after : List UInt8) {i : Option ℕ} {e : WALEntry} (he : h.EntryOf i e) :
    (e.request after).bind Request.submitted = i.bind h.submittedAt := by
  cases i with
  | none =>
    obtain ⟨entry, fill, rfl⟩ := he
    rfl
  | some i =>
    obtain ⟨task, entry, net, hi, rfl⟩ := he
    rw [WALEntry.submitted_ofRequest, Option.bind_some, submittedAt, hi, Option.bind_some]

theorem filterMap_submitted (after : List UInt8) : ∀ {is : List (Option ℕ)} {es : List WALEntry},
    List.Forall₂ h.EntryOf is es →
      (es.filterMap fun e => e.request after).filterMap Request.submitted = (is.filterMap id).filterMap h.submittedAt
  | [], [], .nil => rfl
  | i :: is, e :: es, .cons he hes => by
    have heq := he.submitted after
    have ih := filterMap_submitted after hes
    simp only [List.filterMap_filterMap, id_eq] at ih ⊢
    simp only [List.filterMap_cons, heq, ih]

/-- What rests has been submitted before, or by a task that has been applied. -/
def RestsOnly (old : List OrderID) (p : ThreadPool W) (h : History W) : Prop :=
  ∀ id, p.registry.Rests id → id ∈ old ∨ ∃ i ∈ h.tasks.out, h.submittedAt i = some id

theorem submittedAt_mono {h' : History W} (haccepted : h.accepted <+: h'.accepted) {i : ℕ} {id : OrderID}
    (hi : h.submittedAt i = some id) : h'.submittedAt i = some id := by
  obtain ⟨task, ht, hid⟩ := Option.bind_eq_some_iff.1 hi
  obtain ⟨later, hlater⟩ := haccepted
  rw [submittedAt, ← hlater, List.getElem?_append_left (List.getElem?_eq_some_iff.1 ht).1, ht]
  exact hid

/-- A worker that is about to apply an order holds the number under which it was accepted. -/
theorem Arrived.submittedAt_number (ha : Arrived p h) {w : W} {task : Task} (hw : (p.workers w).task = some task) :
    ∃ i, h.tasks.hands w = [i] ∧ h.submittedAt i = task.request.submitted := by
  obtain ⟨i, hi, hacc⟩ := ha.busy w task hw
  refine ⟨i, hi, ?_⟩
  rw [submittedAt, hacc, Option.bind_some]

variable [DecidableEq W]

theorem RestsOnly.step {old : List OrderID} {p' : ThreadPool W} {a : PoolAction W} (hs : p.step a = some p')
    (ha : Arrived p h) (hr : RestsOnly old p h) : RestsOnly old p' (h.record p a) := by
  cases ThreadPool.steps hs with
  | submit task hlen =>
    intro id hid
    obtain h | ⟨i, hi, hat⟩ := hr id hid
    · exact .inl h
    · exact .inr ⟨i, hi, submittedAt_mono (List.prefix_append _ _) hat⟩
  | getOrderBook w task hw =>
    rintro id ⟨symbol, book, hb, hrests⟩
    exact hr id ⟨symbol, book, BookRegistry.rests_of_getOrderBook hb hrests, hrests⟩
  | apply w task book hw hb =>
    have htask : (p.workers w).task = some task := by
      rw [hw]
      rfl
    obtain ⟨i, hi, hat⟩ := ha.submittedAt_number htask
    rw [record_apply hw hb]
    intro id hid
    have hout : (h.apply w task (book.apply task.request.op p.env).result).tasks.out = h.tasks.out ++ [i] :=
      Relay.pass_out hi
    rw [hout]
    rcases BookRegistry.rests_apply hb task.request.op p.env hid with hid | hid
    · obtain h | ⟨j, hj, hat⟩ := hr id hid
      · exact .inl h
      · exact .inr ⟨j, List.mem_append_left _ hj, hat⟩
    · rw [submittedIds_singleton, Option.mem_toList] at hid
      exact .inr ⟨i, List.mem_append_right _ (List.mem_singleton_self i), hat.trans hid⟩
  | _ => exact hr

end History

/-! ## Accepted ids -/

namespace Exchange

variable {W : Type u}

/-- The ids of the orders that were accepted. -/
def acceptedIds (x : Exchange W) : List OrderID := x.received.filterMap fun q => q.2.request.submitted

/-- The history has the accepted tasks, the risk checker their ids, and no id was accepted twice. -/
structure Admitted (x : Exchange W) (h : History W) : Prop where
  received : h.accepted = x.received.map Prod.snd
  seen : ∀ id, id ∈ x.risk.seenOrderIds ↔ id ∈ x.acceptedIds
  nodup : x.acceptedIds.Nodup

variable {x x' : Exchange W} {h : History W}

theorem Admitted.mem_acceptedIds (ha : x.Admitted h) {i : ℕ} {id : OrderID} (hi : h.submittedAt i = some id) :
    id ∈ x.acceptedIds := by
  obtain ⟨task, ht, hid⟩ := Option.bind_eq_some_iff.1 hi
  have hmem : task ∈ h.accepted := List.mem_of_getElem? ht
  rw [ha.received] at hmem
  obtain ⟨q, hq, rfl⟩ := List.mem_map.1 hmem
  exact List.mem_filterMap.2 ⟨q, hq, hid⟩

/-- Two tasks submit different ids. -/
theorem Admitted.distinct (ha : x.Admitted h) {i j : ℕ} {id : OrderID} (hi : h.submittedAt i = some id)
    (hj : h.submittedAt j = some id) : i = j := by
  have hpairs : h.accepted.Pairwise fun task task' => ∀ b ∈ task.request.submitted, ∀ b' ∈ task'.request.submitted,
      b ≠ b' := by
    have hnodup := ha.nodup
    unfold acceptedIds List.Nodup at hnodup
    rw [List.pairwise_filterMap] at hnodup
    rw [ha.received, List.pairwise_map]
    exact hnodup
  have hlt : ∀ i j, i < j → h.submittedAt i = some id → h.submittedAt j = some id → False := by
    intro i j hlt hi hj
    obtain ⟨task, ht, hid⟩ := Option.bind_eq_some_iff.1 hi
    obtain ⟨task', ht', hid'⟩ := Option.bind_eq_some_iff.1 hj
    obtain ⟨hi', rfl⟩ := List.getElem?_eq_some_iff.1 ht
    obtain ⟨hj', rfl⟩ := List.getElem?_eq_some_iff.1 ht'
    exact List.pairwise_iff_getElem.1 hpairs i j hi' hj' hlt id hid id hid' rfl
  rcases Nat.lt_trichotomy i j with h | h | h
  · exact (hlt i j h hi hj).elim
  · exact h
  · exact (hlt j i h hj hi).elim

/-- Accepting a task under an id that was not seen yet. -/
theorem Admitted.accepted (ha : x.Admitted h) {c : ClientID} {task : Task} {risk : RiskChecker}
    (htask : Session.Accepts c x.risk task risk) (hreceived : x'.received = x.received ++ [(c, task)])
    (hrisk : x'.risk = risk) : x'.Admitted { h with accepted := h.accepted ++ [task] } := by
  have hids : x'.acceptedIds = x.acceptedIds ++ task.request.submitted.toList := by
    rw [acceptedIds, hreceived, List.filterMap_append]
    cases hsub : task.request.submitted <;> simp [acceptedIds, hsub]
  have hchecked := htask.checked
  refine ⟨?_, ?_, ?_⟩
  · rw [hreceived, List.map_append, ← ha.received]
    rfl
  · intro id
    rw [hids, hrisk, List.mem_append, ← ha.seen]
    cases hr : task.request with
    | submit order =>
      rw [hr] at hchecked
      obtain ⟨-, -, -, rfl⟩ := RiskChecker.validateOrder_ok.1 hchecked.2
      simp [Request.submitted, or_comm]
    | cancel req =>
      rw [hr] at hchecked
      simp [Request.submitted, hchecked]
    | modify req =>
      rw [hr] at hchecked
      simp [Request.submitted, hchecked]
  · rw [hids]
    cases hr : task.request with
    | submit order =>
      rw [hr] at hchecked
      obtain ⟨-, -, hnew, -⟩ := RiskChecker.validateOrder_ok.1 hchecked.2
      rw [ha.seen] at hnew
      simpa [Request.submitted, List.nodup_append] using ⟨ha.nodup, fun id hid heq => hnew (heq ▸ hid)⟩
    | cancel req => simpa [Request.submitted] using ha.nodup
    | modify req => simpa [Request.submitted] using ha.nodup

variable [DecidableEq W]

theorem Admitted.step {a : ExchangeAction W} (hs : x.step a = some x') (ha : x.Admitted h) :
    x'.Admitted (recordPool x a h) := by
  cases transition hs with
  | dropped c packet behind risk env hc hp =>
    rw [recordPool_packet hp]
    exact ha
  | rejected c packet behind report risk env hc hp =>
    have hresult := Session.processPacket_spec hp
    rw [recordPool_packet hp]
    refine ⟨ha.received, ?_, ha.nodup⟩
    rw [hresult.2.2]
    exact ha.seen
  | accepted c packet behind task risk env hc hp hlen =>
    have hresult := Session.processPacket_spec hp
    rw [recordPool_packet hp]
    exact ha.accepted hresult.1 rfl rfl
  | registerSymbol symbol => exact ⟨ha.received, ha.seen, ha.nodup⟩
  | pool a pool hstep hne =>
    exact ⟨(h.record_accepted x.pool hne).trans ha.received, ha.seen, ha.nodup⟩
  | connect => exact ⟨ha.received, ha.seen, ha.nodup⟩
  | close c => exact ⟨ha.received, ha.seen, ha.nodup⟩
  | dispatchReport report reports hr => exact ⟨ha.received, ha.seen, ha.nodup⟩
  | dispatchTrade trade trades ht => exact ⟨ha.received, ha.seen, ha.nodup⟩

/-! ## Recovery -/

/-- A new process on what a crash has left of the file: the books of a replay, the log started on the file again, and a
risk checker with the same symbols. -/
def recover (x : Exchange W) (cut after : List UInt8) (env : Env) : Exchange W where
  pool :=
    { registry := (ReplayEngine.replay after cut .empty env).registry
      wal := .start cut
      env := (ReplayEngine.replay after cut .empty env).env }
  risk := { allowedSymbols := x.risk.allowedSymbols }

/-- The log of a run has every accepted order once at most. -/
theorem run_logged (env : Env) {actions : List (ExchangeAction W)} (hrun : Machine.run step (start W env) actions = some x) :
    ∃ h, Logged x.pool h ∧ LoggedOnce x.pool h ∧ x.Admitted h := by
  let I (x : Exchange W) : Prop := ∃ h, (Arrived x.pool h ∧ Logged x.pool h ∧ LoggedOnce x.pool h) ∧ x.Admitted h
  have hstep : ∀ (x : Exchange W) (a : ExchangeAction W) (x' : Exchange W), True → x.step a = some x' → I x → I x' := by
    rintro x a x' - hs ⟨h, hpool, hadm⟩
    refine ⟨recordPool x a h, ?_, hadm.step hs⟩
    refine lift_step (I := fun p h => Arrived p h ∧ Logged p h ∧ LoggedOnce p h) ?_ ?_ hs hpool
    · rintro p p' h htasks hworkers hwal - ⟨ha, hl, ho⟩
      exact ⟨ha.of_same_pool htasks hworkers, hl.of_same_pool hworkers hwal, ho.nodup, ho.below, hworkers ▸ ho.waiting⟩
    · rintro p a p' h hs ⟨ha, hl, ho⟩
      exact ⟨ha.step hs, hl.step hs ha, ho.step hs ha⟩
  have hstart : I (start W env) := by
    refine ⟨{}, ⟨start_arrived env, start_logged env, start_loggedOnce env⟩, rfl, fun id => ?_, .nil⟩
    simp [start, acceptedIds]
  obtain ⟨h, ⟨-, hl, ho⟩, hadm⟩ := Machine.run_invariant hstep actions _ x (fun _ _ => trivial) hrun hstart
  exact ⟨h, hl, ho, hadm⟩

omit [DecidableEq W] in
/-- In the recovered books every id rests once at most, and all are ids accepted before. -/
theorem Admitted.recovered (hadm : x.Admitted h) (hl : Logged x.pool h) (ho : LoggedOnce x.pool h) {cut : List UInt8}
    (hcut : cut <+: x.pool.wal.file) (after : List UInt8) (env : Env) :
    (ReplayEngine.replay after cut .empty env).registry.OnceEach ∧
      ∀ id, (ReplayEngine.replay after cut .empty env).registry.Rests id → id ∈ x.acceptedIds := by
  let rs := (WALEntry.packed.records cut).filterMap fun e => e.request after
  have hids : submittedIds (rs.map Request.op) =
      ((h.logged.take (cut.length / WALEntry.packed.size)).filterMap id).filterMap h.submittedAt := by
    rw [submittedIds_map_op]
    simp only [rs]
    rw [hl.whole.records_cut hcut]
    exact filterMap_submitted after (List.forall₂_take _ hl.entries)
  have hfresh : FreshIds (rs.map Request.op) := by
    unfold FreshIds
    rw [hids]
    refine List.Nodup.filterMap (fun i j id hi hj => hadm.distinct hi hj) ?_
    exact ho.nodup.sublist ((List.take_sublist _ _).filterMap _)
  obtain ⟨honce, hrests⟩ := ReplayEngine.foldl_onceEach { env with counter := 1 } rs hfresh
  unfold ReplayEngine.replay
  rw [ReplayEngine.foldl_turn]
  refine ⟨honce, fun id hr => ?_⟩
  have hid := hrests id hr
  rw [hids] at hid
  obtain ⟨i, -, hi⟩ := List.mem_filterMap.1 hid
  exact hadm.mem_acceptedIds hi

/-! ## After the recovery -/

/-- No order is accepted under an id from before, and no id rests twice. -/
def KeepsIds (old : List OrderID) (x : Exchange W) : Prop :=
  (∀ id ∈ x.acceptedIds, id ∉ old) ∧ x.pool.registry.OnceEach

/-- An Order packet under an id from before, when it is processed, is for an unknown symbol or outside the limits. -/
def NotReused (old : List OrderID) (x : Exchange W) : ExchangeAction W → Prop
  | .packet c packet behind => c ∈ x.sessions → x.pool.tasks.length < maxQueueCapacity →
    ∀ order ∈ Session.orderOf c packet behind, order.orderId ∈ old →
      ¬ (order.symbol ∈ x.risk.allowedSymbols ∧ order.WithinLimits)
  | _ => True

instance (old : List OrderID) (x : Exchange W) (a : ExchangeAction W) : Decidable (NotReused old x a) :=
  match a with
  | .packet c packet behind => inferInstanceAs (Decidable (c ∈ x.sessions → x.pool.tasks.length < maxQueueCapacity →
    ∀ order ∈ Session.orderOf c packet behind, order.orderId ∈ old →
      ¬ (order.symbol ∈ x.risk.allowedSymbols ∧ order.WithinLimits)))
  | .connect | .close _ | .registerSymbol _ | .pool _ | .dispatchReport | .dispatchTrade => .isTrue trivial

/-- The tasks of the new process have numbers, and what rests comes from them or from before. -/
def Continued (old : List OrderID) (x : Exchange W) : Prop :=
  ∃ h, (Arrived x.pool h ∧ RestsOnly old x.pool h) ∧ x.Admitted h

theorem Continued.step {old : List OrderID} {a : ExchangeAction W} (hs : x.step a = some x') (hc : Continued old x) :
    Continued old x' := by
  obtain ⟨h, hpool, hadm⟩ := hc
  refine ⟨recordPool x a h, ?_, hadm.step hs⟩
  refine lift_step (I := fun p h => Arrived p h ∧ RestsOnly old p h) ?_ ?_ hs hpool
  · rintro p p' h htasks hworkers - hregistry ⟨ha, hr⟩
    refine ⟨ha.of_same_pool htasks hworkers, ?_⟩
    unfold RestsOnly
    rw [hregistry]
    exact hr
  · rintro p a p' h hs ⟨ha, hr⟩
    exact ⟨ha.step hs, hr.step hs ha⟩

omit [DecidableEq W] in
/-- An order that a worker is about to apply has not rested before. -/
theorem Continued.not_rests {old : List OrderID} (hc : Continued old x) (hids : ∀ id ∈ x.acceptedIds, id ∉ old) {w : W}
    {task : Task} (hw : (x.pool.workers w).task = some task) {order : Order} (ho : task.request.op = .submit order) :
    ¬ x.pool.registry.Rests order.orderId := by
  obtain ⟨h, ⟨ha, hr⟩, hadm⟩ := hc
  have hsub : task.request.submitted = some order.orderId := by
    cases hreq : task.request with
    | submit o =>
      rw [hreq] at ho
      cases ho
      rfl
    | cancel req =>
      rw [hreq] at ho
      cases ho
    | modify req =>
      rw [hreq] at ho
      cases ho
  obtain ⟨i, hi, hat⟩ := ha.submittedAt_number hw
  rw [hsub] at hat
  intro hrests
  rcases hr _ hrests with hold | ⟨j, hj, hat'⟩
  · exact hids _ (hadm.mem_acceptedIds hat) hold
  · -- its number is still in the hands of the worker
    rw [hadm.distinct hat' hat] at hj
    exact ha.valid.held w i (by rw [hi]; exact List.mem_singleton_self i) hj

/-- The step lemma: ids are kept exactly by the steps that do not accept an order under an id from before. -/
theorem step_keepsIds_iff {old : List OrderID} (hc : Continued old x) (hk : KeepsIds old x) (a : ExchangeAction W) :
    (∀ x' ∈ x.step a, KeepsIds old x') ↔ NotReused old x a := by
  constructor
  · intro hall
    cases a with
    | packet c packet behind =>
      rintro hsession hlen order ho hold ⟨hsymbol, hlimits⟩
      obtain ⟨h, -, hadm⟩ := hc
      have hnew : order.orderId ∉ x.risk.seenOrderIds := fun hseen => hk.1 _ ((hadm.seen _).1 hseen) hold
      have hok := RiskChecker.validateOrder_ok.2 ⟨hsymbol, hlimits, hnew, rfl⟩
      obtain ⟨x', hs, hreceived⟩ := step_accepted hsession (Session.processPacket_of_ok ho hok x.pool.env) hlen
      refine (hall x' hs).1 order.orderId ?_ hold
      rw [acceptedIds, hreceived, List.filterMap_append]
      exact List.mem_append_right _ (List.mem_singleton_self _)
    | _ => trivial
  · intro hnot x' hs
    cases transition hs with
    | accepted c packet behind task risk env hsession hp hlen =>
      have hresult := Session.processPacket_spec hp
      refine ⟨fun id hid => ?_, hk.2⟩
      rw [acceptedIds, List.filterMap_append, List.mem_append] at hid
      rcases hid with hid | hid
      · exact hk.1 id hid
      · cases hr : task.request with
        | submit order =>
          have hchecked := hresult.1.checked
          rw [hr] at hchecked
          obtain ⟨hsymbol, hlimits, -⟩ := RiskChecker.validateOrder_ok.1 hchecked.2
          have horder := Session.orderOf_of_processPacket hp order hr
          simp only [List.filterMap_cons, hr, Request.submitted, List.filterMap_nil, List.mem_singleton] at hid
          rw [hid]
          exact fun hold => hnot hsession hlen order horder hold ⟨hsymbol, hlimits⟩
        | cancel req => simp [hr, Request.submitted] at hid
        | modify req => simp [hr, Request.submitted] at hid
    | pool a pool hstep ha =>
      refine ⟨hk.1, ?_⟩
      show pool.registry.OnceEach
      rcases ThreadPool.registry_step hstep with hr | ⟨symbol, hr⟩ | ⟨w, book, task, rfl, hq, hr⟩
      · rw [hr]
        exact hk.2
      · rw [hr]
        exact hk.2.getOrderBook symbol
      · obtain ⟨hw, hb⟩ := ThreadPool.applying_eq_some.1 hq
        rw [hr]
        exact hk.2.apply hb _ _ fun order ho => hc.not_rests hk.1 (w := w) (by rw [hw]; rfl) ho
    | _ => exact hk

/-- A run, a crash that leaves any part of the file, and a run of the process that recovers from it: no order is
accepted under an id accepted before the crash, and no id rests twice in the recovered books, in any state exactly
when every Order packet under an old id that is processed is for a symbol not registered or outside the limits of
price, quantity or value. -/
theorem ids_kept_iff (env env' : Env) (after : List UInt8) (actions : List (ExchangeAction W)) (x : Exchange W)
    (hrun : Machine.run step (start W env) actions = some x) (cut : List UInt8) (hcut : cut <+: x.pool.wal.file)
    (later : List (ExchangeAction W)) :
    (∀ pre, pre <+: later → ∀ y, Machine.run step (x.recover cut after env') pre = some y →
        (∀ id ∈ y.acceptedIds, id ∉ x.acceptedIds) ∧ y.pool.registry.OnceEach) ↔
      Machine.Along step (NotReused x.acceptedIds) (x.recover cut after env') later := by
  obtain ⟨h, hl, ho, hadm⟩ := run_logged env hrun
  obtain ⟨honce, hrests⟩ := hadm.recovered hl ho hcut after env'
  refine Machine.always_iff_along (I := Continued x.acceptedIds) (P := KeepsIds x.acceptedIds)
    (fun y a y' hs hc => hc.step hs) (fun y a hc hk => step_keepsIds_iff hc hk a) later _ ?_ ⟨?_, honce⟩
  · refine ⟨{}, ⟨⟨Relay.empty_valid, Nat.le_refl 0, rfl, fun _ _ h => (nomatch h), fun _ _ => rfl⟩, ?_⟩, rfl, fun id => ?_,
      .nil⟩
    · exact fun id hid => .inl (hrests id hid)
    · simp [recover, acceptedIds]
  · exact fun id hid => nomatch hid

/-- A client connects and submits an order; a worker handles it up to where the log is written. -/
def submitPacket (id : OrderID) : List (ExchangeAction Unit) :=
  let symbol : Packed.Chars 8 := (Packed.chars 8).get [65]
  let entry : WALEntry := ⟨0, .replicate 52 0⟩
  let net : NetOrder := ⟨0, symbol, 0, 0, 0, 0, 0⟩
  [.connect, .packet 1 ⟨MsgType.order, NetOrder.packed.put ⟨id, symbol, 0, 0, 100, 5, 1⟩⟩ [], .pool (.dequeue ()),
    .pool (.getOrderBook ()), .pool (.lock ()), .pool (.log () entry net), .pool (.apply ()), .pool (.unlock ()),
    .pool (.publishReport ()), .pool (.finish ()), .pool .flush]

/-- Order 7 is accepted and rests, comes back from the log, and is accepted and rests again. -/
theorem id_accepted_twice : ∃ x y,
    Machine.run step (start Unit ⟨1, fun _ => 0, 0⟩) (.registerSymbol [65] :: submitPacket 7) = some x ∧
      x.acceptedIds = [7] ∧
      Machine.run step (x.recover x.pool.wal.file [] ⟨1, fun _ => 0, 0⟩) (submitPacket 7) = some y ∧ y.acceptedIds = [7] ∧
      (y.pool.registry [65]).map (fun book => book.ids .buy) = some [7, 7] := by
  have hrun : (Machine.run step (start Unit ⟨1, fun _ => 0, 0⟩) (.registerSymbol [65] :: submitPacket 7)).any fun x =>
      x.acceptedIds = [7] ∧
        (Machine.run step (x.recover x.pool.wal.file [] ⟨1, fun _ => 0, 0⟩) (submitPacket 7)).any fun y =>
          y.acceptedIds = [7] ∧ (y.pool.registry [65]).map (fun book => book.ids .buy) = some [7, 7] := by decide +kernel
  obtain ⟨x, hx, hany⟩ := (Option.any_eq_true _ _).1 hrun
  obtain ⟨hold, hany⟩ := of_decide_eq_true hany
  obtain ⟨y, hy, hany⟩ := (Option.any_eq_true _ _).1 hany
  obtain ⟨hnew, hbook⟩ := of_decide_eq_true hany
  exact ⟨x, y, hx, hold, hy, hnew, hbook⟩

/-- After the recovery another order comes in, under the id 8. -/
theorem ids_kept_iff_new : ∃ x,
    Machine.run step (start Unit ⟨1, fun _ => 0, 0⟩) (.registerSymbol [65] :: submitPacket 7) = some x ∧
      (Machine.run step (x.recover x.pool.wal.file [] ⟨1, fun _ => 0, 0⟩) (submitPacket 8)).isSome ∧
      ∀ pre, pre <+: submitPacket 8 → ∀ y, Machine.run step (x.recover x.pool.wal.file [] ⟨1, fun _ => 0, 0⟩) pre = some y →
        (∀ id ∈ y.acceptedIds, id ∉ x.acceptedIds) ∧ y.pool.registry.OnceEach := by
  have hrun : (Machine.run step (start Unit ⟨1, fun _ => 0, 0⟩) (.registerSymbol [65] :: submitPacket 7)).any fun x =>
      (Machine.run step (x.recover x.pool.wal.file [] ⟨1, fun _ => 0, 0⟩) (submitPacket 8)).isSome ∧
        Machine.Along step (NotReused x.acceptedIds) (x.recover x.pool.wal.file [] ⟨1, fun _ => 0, 0⟩)
          (submitPacket 8) := by decide +kernel
  obtain ⟨x, hx, hany⟩ := (Option.any_eq_true _ _).1 hrun
  obtain ⟨hsome, halong⟩ := of_decide_eq_true hany
  exact ⟨x, hx, hsome, (ids_kept_iff ⟨1, fun _ => 0, 0⟩ ⟨1, fun _ => 0, 0⟩ [] _ x hx x.pool.wal.file (List.prefix_refl _)
    (submitPacket 8)).2 halong⟩

end Exchange

end StockExchange
