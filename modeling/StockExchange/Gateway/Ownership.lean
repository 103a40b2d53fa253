/-
Who may change an order. The session stamps its client on every cancel and modify, and the book compares it
with nothing: a cancel or a modify that finds an order changes the book, whoever sent it. So the orders of
other clients are safe exactly as long as nobody names one.
-/
import StockExchange.Gateway.RiskLimits

universe u

namespace StockExchange

/-! ## Books -/

namespace OrderBook

/-- The resting order that a cancel or a modify finds. -/
def target (b : OrderBook) : Request → Option Order
  | .submit _ => none
  | .cancel req => b.named req.orderId
  | .modify req => b.named req.orderId

variable {b : OrderBook} {id : OrderID}

theorem exists_of_named {existing : Order} (h : b.named id = some existing) :
    ∃ e, b.orderIndex id = some e := by
  cases hi : b.orderIndex id with
  | none =>
    rw [named_of_none hi] at h
    cases h
  | some e => exact ⟨e, rfl⟩

/-- A cancel that finds an order takes it out of the index. -/
theorem cancel_ne (env : Env) {existing : Order} (h : b.named id = some existing) : (b.cancel id env).book ≠ b := by
  obtain ⟨e, he⟩ := exists_of_named h
  intro heq
  rcases b.cancel_cases id env with ⟨hi, -⟩ | ⟨br, n, hn, hid, hi, hbook⟩
  · rw [hi] at he
    cases he
  · have hindex := congrFun (congrArg BookState.orderIndex hbook) id
    rw [heq, hi, BookState.without_orderIndex, if_pos hid.symm] at hindex
    cases hindex

/-- A modify that finds an order takes it out of the index, or puts it back in a new node. -/
theorem modify_ne (env : Env) {request : ModifyRequest} {existing : Order} (h : b.named request.orderId = some existing) :
    (b.modify request env).book ≠ b := by
  obtain ⟨e, he⟩ := exists_of_named h
  intro heq
  rcases b.modify_cases request env with ⟨hi, -⟩ | ⟨br, n, hn, hid, hi, hbook⟩
  · rw [hi] at he
    cases he
  · have hwf := BookState.without_wf b.wf hn
    have hside := b.wf.modified_side hn request
    have hindex := BookState.submitBranch_orderIndex hwf (BookState.modified n.order request) {} env request.orderId
    rw [hside, ← hbook, heq, hi] at hindex
    split at hindex
    next =>
      -- the new node lies behind all that were in the book
      have haddr : n.addr = (b.without br n).nextNode := congrArg OrderIndexEntry.position (Option.some.inj hindex)
      have hlt := b.wf.addrLt br n hn
      rw [haddr, BookState.without_nextNode] at hlt
      exact Nat.lt_irrefl _ hlt
    next =>
    split at hindex
    next => cases hindex
    next =>
      rw [BookState.without_orderIndex, if_pos hid.symm] at hindex
      cases hindex

/-- A cancel or a modify that finds an order changes the book, whoever sent it. -/
theorem apply_ne (env : Env) {r : Request} {existing : Order} (h : b.target r = some existing) :
    (b.apply r.op env).book ≠ b := by
  cases r with
  | submit order => cases h
  | cancel req => exact cancel_ne env h
  | modify request => exact modify_ne env h

end OrderBook

/-! ## Runs of the exchange -/

namespace Exchange

variable {W : Type u}

/-- A step respects the owners: if it applies a cancel or a modify `r.2` that came in on the session of the
client `r.1` and names a resting order of another client, then it leaves the book as it was. -/
def RespectsOwners (x : Exchange W) (a : ExchangeAction W) (x' : Exchange W) : Prop :=
  ∀ q ∈ x.applying a, ∀ r ∈ x.received, r.2 = q.2 → ∀ existing ∈ q.1.target q.2.request,
    existing.clientId ≠ r.1 → x'.pool.registry q.2.symbol = some q.1

/-- A step is by the owner: it applies no cancel or modify, or one that names no resting order of a client other
than the one on whose session it came in. -/
def ByOwner (x : Exchange W) (a : ExchangeAction W) : Prop :=
  ∀ q ∈ x.applying a, ∀ r ∈ x.received, r.2 = q.2 → ∀ existing ∈ q.1.target q.2.request,
    existing.clientId = r.1

instance (x : Exchange W) (a : ExchangeAction W) : Decidable (x.ByOwner a) :=
  inferInstanceAs (Decidable (∀ q ∈ x.applying a, ∀ r ∈ x.received, r.2 = q.2 →
    ∀ existing ∈ q.1.target q.2.request, existing.clientId = r.1))

/-- Every task in the pool was received, on the session of its client and on no other. -/
structure Received (x : Exchange W) : Prop where
  tasks : x.pool.AllTasks fun task => (task.request.clientId, task) ∈ x.received
  clients : ∀ c task, (c, task) ∈ x.received → task.request.clientId = c

variable [DecidableEq W]

theorem Received.step {x x' : Exchange W} {a : ExchangeAction W} (hs : x.step a = some x') (h : x.Received) :
    x'.Received := by
  cases steps hs with
  | idle _ _ htasks hworkers hregistry hreceived =>
    refine ⟨⟨fun task ht => ?_, fun w task ht => ?_⟩, fun c task hmem => ?_⟩
    · rw [htasks] at ht
      rw [hreceived]
      exact h.tasks.queued task ht
    · rw [hworkers] at ht
      rw [hreceived]
      exact h.tasks.taken w task ht
    · rw [hreceived] at hmem
      exact h.clients c task hmem
  | accept c packet behind task risk env htask =>
    have hold : x.pool.AllTasks fun t => (t.request.clientId, t) ∈ x.received ++ [(c, task)] :=
      h.tasks.mono fun t ht => List.mem_append_left _ ht
    refine ⟨⟨fun t ht => ?_, hold.taken⟩, fun c' t hmem => ?_⟩
    · rcases List.mem_append.1 ht with ht | ht
      · exact hold.queued t ht
      · rw [List.mem_singleton.1 ht, htask.client]
        exact List.mem_append_right _ (List.mem_singleton_self _)
    · rcases List.mem_append.1 hmem with hmem | hmem
      · exact h.clients c' t hmem
      · cases List.mem_singleton.1 hmem
        exact htask.client
  | pool a pool hstep ha => exact ⟨h.tasks.step hstep fun task heq => absurd heq (ha task), h.clients⟩

/-- The steps that respect the owners are those by the owner: nothing on the way compares the two. -/
theorem step_respectsOwners (x : Exchange W) (a : ExchangeAction W) :
    (∀ x' ∈ x.step a, x.RespectsOwners a x') ↔ x.ByOwner a := by
  constructor
  · intro h q hq r hr heq existing hfound
    refine Classical.byContradiction fun hne => ?_
    obtain ⟨x', hs, hregistry⟩ := step_applying hq
    have hsame := h x' hs q hq r hr heq existing hfound hne
    rw [hregistry, BookRegistry.set_self] at hsame
    exact OrderBook.apply_ne x.pool.env hfound (Option.some.inj hsame)
  · intro h x' _ q hq r hr heq existing hfound hne
    exact absurd (h q hq r hr heq existing hfound) hne

/-- Along every run the cancels and modifies leave the orders of other clients alone exactly when none of them
names one; and every request the workers handle was received on the session of its client. -/
theorem respectsOwners_iff (env : Env) (actions : List (ExchangeAction W)) :
    (Machine.Along step (fun x a => ∀ x' ∈ x.step a, x.RespectsOwners a x') (start W env) actions ↔
      Machine.Along step ByOwner (start W env) actions) ∧
    ∀ x, Machine.run step (start W env) actions = some x → x.Received := by
  constructor
  · exact Machine.along_congr (I := fun _ => True) (fun _ _ _ _ _ => trivial) (fun x a _ => step_respectsOwners x a)
      actions _ trivial
  · intro x hrun
    have hstep : ∀ (x : Exchange W) (a : ExchangeAction W) (x' : Exchange W), True → x.step a = some x' →
        x.Received → x'.Received := fun _ _ _ _ hs h => h.step hs
    exact Machine.run_invariant hstep actions _ x (fun _ _ => trivial) hrun
      ⟨ThreadPool.start_allTasks _ env, fun _ _ hmem => nomatch hmem⟩

/-- Client 1 submits an order and the client `c` sends a cancel of it; two workers take a request each, one after
the other, up to where the second is about to apply the cancel. -/
def cancelRun (c : ClientID) : List (ExchangeAction Bool) :=
  let symbol : Packed.Chars 8 := (Packed.chars 8).get [65]
  let entry : WALEntry := ⟨0, .replicate 52 0⟩
  let net : NetOrder := ⟨0, symbol, 0, 0, 0, 0, 0⟩
  [.connect, .connect, .registerSymbol [65],
    .packet 1 ⟨MsgType.order, NetOrder.packed.put ⟨7, symbol, 0, 0, 100, 5, 1⟩⟩ [],
    .packet c ⟨MsgType.cancel, NetCancel.packed.put ⟨7, symbol, 2⟩⟩ [],
    .pool (.dequeue true), .pool (.getOrderBook true), .pool (.lock true), .pool (.log true entry net),
    .pool (.apply true), .pool (.unlock true), .pool (.dequeue false), .pool (.getOrderBook false), .pool (.lock false),
    .pool (.log false entry net)]

/-- The owner cancels. -/
theorem respectsOwners_iff_own :
    (Machine.run step (start Bool ⟨1, fun _ => 0, 0⟩) (cancelRun 1 ++ [.pool (.apply false)])).isSome ∧
      Machine.Along step (fun x a => ∀ x' ∈ x.step a, x.RespectsOwners a x') (start Bool ⟨1, fun _ => 0, 0⟩)
        (cancelRun 1 ++ [.pool (.apply false)]) :=
  ⟨by decide, (respectsOwners_iff ⟨1, fun _ => 0, 0⟩ (cancelRun 1 ++ [.pool (.apply false)])).1.2 (by decide)⟩

/-- Client 2 cancels the order of client 1, and nothing rests any more. -/
theorem foreign_cancel_removes : ∃ x x', Machine.run step (start Bool ⟨1, fun _ => 0, 0⟩) (cancelRun 2) = some x ∧
    x.step (.pool (.apply false)) = some x' ∧ ¬ x.RespectsOwners (.pool (.apply false)) x' := by
  have hrun : (Machine.run step (start Bool ⟨1, fun _ => 0, 0⟩) (cancelRun 2)).any fun x =>
      (x.step (.pool (.apply false))).any fun x' =>
        (x.applying (.pool (.apply false))).any fun q =>
          (x.received.any fun r => r.2 = q.2 ∧ r.1 = 2) ∧
            ((q.1.target q.2.request).any fun existing => existing.clientId = 1) ∧
              (x'.pool.registry q.2.symbol).map (fun book => book.nodes .buy) = some [] ∧ q.1.nodes .buy ≠ [] := by
    decide
  obtain ⟨x, hx, hany⟩ := (Option.any_eq_true _ _).1 hrun
  obtain ⟨x', hx', hany⟩ := (Option.any_eq_true _ _).1 hany
  obtain ⟨q, hq, hany⟩ := (Option.any_eq_true _ _).1 hany
  obtain ⟨hr, hfound, hafter, hbefore⟩ := of_decide_eq_true hany
  obtain ⟨r, hmem, hr⟩ := List.any_eq_true.1 hr
  obtain ⟨hr, hc⟩ := of_decide_eq_true hr
  obtain ⟨existing, hfound, hclient⟩ := (Option.any_eq_true _ _).1 hfound
  refine ⟨x, x', hx, hx', fun h => ?_⟩
  have hne : existing.clientId ≠ r.1 := by
    rw [of_decide_eq_true hclient, hc]
    decide
  rw [h q hq r hmem hr existing hfound hne] at hafter
  exact hbefore (Option.some.inj hafter)

end Exchange

end StockExchange
