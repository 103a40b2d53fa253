/-
The order in which the tasks of one symbol are applied. The queue is first in, first out, but a worker that
has dequeued a task holds nothing until it has the lock of the book, and another one with a later task for
the same symbol may get there first. Tasks are applied in the order of their arrival exactly as long as none
does.
-/
import StockExchange.Threadpool.History
import Mathlib.Data.Fintype.Basic

universe u

namespace StockExchange

namespace History

variable {W : Type u}

/-- Of two tasks for the same symbol, the one accepted first is applied first. -/
def ArrivalOrder (h : History W) : Prop := Relay.InOrder (fun i j => h.symbolOf i = h.symbolOf j) h.tasks.out

/-- A worker that applies a task is first in line: no other worker has dequeued an earlier task for the same
symbol and not applied it yet. -/
def FirstInLine (s : ThreadPool W × History W) : PoolAction W → Prop
  | .apply w => s.1.applying w ≠ none → ∀ j ∈ s.2.number w, ∀ w', ∀ i ∈ s.2.number w',
    s.2.symbolOf i = s.2.symbolOf j → j ≤ i
  | _ => True

instance [Fintype W] (s : ThreadPool W × History W) (a : PoolAction W) : Decidable (FirstInLine s a) :=
  match a with
  | .apply w => inferInstanceAs (Decidable (s.1.applying w ≠ none → ∀ j ∈ s.2.number w, ∀ w', ∀ i ∈ s.2.number w',
    s.2.symbolOf i = s.2.symbolOf j → j ≤ i))
  | .submit _ | .dequeue _ | .getOrderBook _ | .lock _ | .log _ _ _ | .unlock _ | .logFill _ _ | .publishReport _
  | .publishTrade _ | .finish _ | .flush => .isTrue trivial

variable {p : ThreadPool W} {h : History W}

/-- A task accepted later has no part in the order of those applied so far. -/
theorem Arrived.arrivalOrder_submit (ha : Arrived p h) (ho : h.ArrivalOrder) (task : Task) :
    ({ h with accepted := h.accepted ++ [task] } : History W).ArrivalOrder := by
  refine (Relay.InOrder.congr fun i j hlt hj => ?_).2 ho
  have hlen : j < h.accepted.length := Nat.lt_of_lt_of_le (ha.valid.lt_of_out hj) ha.count
  show ((h.accepted ++ [task])[i]?).map _ = ((h.accepted ++ [task])[j]?).map _ ↔ _
  rw [List.getElem?_append_left (Nat.lt_trans hlt hlen), List.getElem?_append_left hlen]
  exact Iff.rfl

variable [DecidableEq W]

/-- The step lemma: applying keeps the order exactly if the worker is first in line, and no other step
changes it. -/
theorem Arrived.step_arrivalOrder_iff {s : ThreadPool W × History W} (ha : Arrived s.1 s.2) (ho : s.2.ArrivalOrder)
    (a : PoolAction W) : (∀ s' ∈ ThreadPool.tracedStep s a, s'.2.ArrivalOrder) ↔ FirstInLine s a := by
  obtain ⟨p, h⟩ := s
  constructor
  · intro hall
    cases a with
    | apply w =>
      intro hq j hj w' i hi hsame
      obtain ⟨⟨book, task⟩, hq⟩ := Option.ne_none_iff_exists'.1 hq
      obtain ⟨p', hs, -⟩ := ThreadPool.step_apply hq
      obtain ⟨hw, hb⟩ := ThreadPool.applying_eq_some.1 hq
      obtain ⟨k, hk, -⟩ := ha.busy w task (by rw [hw]; rfl)
      have hafter := hall (p', h.record p (.apply w)) (Machine.traced_eq_some.2 ⟨hs, rfl⟩)
      rw [record_apply hw hb] at hafter
      rw [number, hk] at hj
      cases hj
      exact (ha.valid.pass_inOrder_iff ho hk).1 hafter w' i (List.mem_of_mem_head? hi) hsame
    | _ => trivial
  · rintro hfirst ⟨p', h'⟩ hs
    obtain ⟨hs, rfl⟩ := Machine.traced_eq_some.1 hs
    cases ThreadPool.steps hs with
    | submit task hlen => exact ha.arrivalOrder_submit ho task
    | apply w task book hw hb =>
      obtain ⟨k, hk, -⟩ := ha.busy w task (by rw [hw]; rfl)
      have hq : p.applying w = some (book, task) := ThreadPool.applying_eq_some.2 ⟨hw, hb⟩
      rw [record_apply hw hb]
      refine (ha.valid.pass_inOrder_iff ho hk).2 fun w' i hi hsame => ?_
      obtain ⟨-, -, hi', -⟩ := ha.task_of_mem hi
      refine hfirst (by rw [hq]; exact Option.some_ne_none _) k ?_ w' i ?_ hsame
      · rw [number, hk]
        rfl
      · rw [number, hi']
        rfl
    | _ => exact ho

end History

namespace ThreadPool

variable {W : Type u} [DecidableEq W]

/-- In every state of a run the tasks of every symbol have been applied in the order of their acceptance exactly
when, along the run, no worker applies a task while another one has an earlier task for the same symbol in
its hands. -/
theorem arrival_order_iff (env : Env) (actions : List (PoolAction W)) :
    (∀ pre, pre <+: actions → ∀ s, Machine.run tracedStep (start W env, {}) pre = some s → s.2.ArrivalOrder) ↔
      Machine.Along tracedStep History.FirstInLine (start W env, {}) actions := by
  let I (s : ThreadPool W × History W) : Prop := History.Arrived s.1 s.2
  let P (s : ThreadPool W × History W) : Prop := s.2.ArrivalOrder
  refine Machine.always_iff_along (I := I) (P := P) ?_ ?_ actions _ (History.start_arrived env) (Relay.inOrder_nil _)
  · rintro ⟨p, h⟩ a ⟨p', h'⟩ hs ha
    obtain ⟨hs, rfl⟩ := Machine.traced_eq_some.1 hs
    exact ha.step hs
  · exact fun s a ha ho => ha.step_arrivalOrder_iff ho a

/-- An order and its cancel are accepted one after the other and dequeued by two workers; the workers in `order`
then go through to the end of their operation. -/
def cancelRace (order : List Bool) : List (PoolAction Bool) :=
  let entry : WALEntry := ⟨7, .replicate 52 255⟩
  let net : NetOrder := ⟨0, .replicate 8 255, 0, 0, 0, 0, 0⟩
  let buy : Order := { orderId := 1, symbol := [65], price := 10, quantity := 5, remainingQuantity := 5, clientId := 8 }
  let cancel : CancelRequest := { orderId := 1, symbol := [65], clientId := 8 }
  [.submit ⟨.submit buy, [65]⟩, .submit ⟨.cancel cancel, [65]⟩, .dequeue true, .dequeue false] ++
    order.flatMap fun w => [.getOrderBook w, .lock w, .log w entry net, .apply w, .unlock w]

/-- The worker with the order goes first. -/
theorem arrival_order_iff_cancelled :
    (Machine.run step (start Bool ⟨1, fun _ => 0, 0⟩) (cancelRace [true, false])).isSome ∧
      ∀ pre, pre <+: cancelRace [true, false] → ∀ s,
        Machine.run tracedStep (start Bool ⟨1, fun _ => 0, 0⟩, {}) pre = some s → s.2.ArrivalOrder := by
  exact ⟨by decide, (arrival_order_iff ⟨1, fun _ => 0, 0⟩ (cancelRace [true, false])).2 (by decide)⟩

/-- The worker with the cancel goes first: it finds nothing to cancel, and the order rests. -/
theorem cancel_overtakes_order : ∃ s,
    Machine.run tracedStep (start Bool ⟨1, fun _ => 0, 0⟩, {}) (cancelRace [false, true]) = some s ∧
      s.2.accepted.map Task.symbol = [[65], [65]] ∧ s.2.tasks.out = [1, 0] ∧ ¬ s.2.ArrivalOrder := by
  have hrun : (Machine.run tracedStep (start Bool ⟨1, fun _ => 0, 0⟩, {}) (cancelRace [false, true])).any fun s =>
      s.2.accepted.map Task.symbol = [[65], [65]] ∧ s.2.tasks.out = [1, 0] ∧ s.2.symbolOf 0 = s.2.symbolOf 1 := by decide
  obtain ⟨s, hs, hany⟩ := (Option.any_eq_true _ _).1 hrun
  obtain ⟨hsymbols, hout, hsame⟩ := of_decide_eq_true hany
  refine ⟨s, hs, hsymbols, hout, fun ho => ?_⟩
  have hsub := ho 0 1 (by decide) hsame (by rw [hout]; decide)
  rw [hout] at hsub
  exact absurd hsub (by decide)

end ThreadPool

end StockExchange
