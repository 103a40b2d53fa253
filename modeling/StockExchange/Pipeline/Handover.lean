/-
What the execution pipeline is for: two first-in-first-out queues, and a report that leaves its queue goes to the session
of its client if there is one. The pipeline with its linked lists, its threads and its loops does nothing else: a value
is published when its node is exchanged into `tail_`, a report is dispatched when its session is looked up, a trade when
the node before it is deleted, and no other step can be seen.
-/
import StockExchange.Pipeline.Dispatch

universe u v

namespace StockExchange

open ExecutionPipeline

/-- The queues as lists, and what has been handed over. -/
@[ext] structure Handover (S : Type v) where
  queue : (k : Kind) → List k.Value := fun _ => []
  sessions : ClientID → Option S := fun _ => none
  handed : List (S × ExecutionReport) := []

namespace Handover

inductive Action (S : Type v)
  | publish (k : Kind) (val : k.Value)
  | dispatch (k : Kind)
  | addSession (c : ClientID) (session : S)
  | removeSession (c : ClientID)

variable {S : Type v}

/-- To whom a value goes that has left its queue. -/
def recipient (sessions : ClientID → Option S) : (k : Kind) → k.Value → List (S × ExecutionReport)
  | .report, report => ((sessions report.clientId).map fun session => (session, report)).toList
  | .trade, _ => []

def step (h : Handover S) : Action S → Option (Handover S)
  | .publish k val => some { h with queue := Function.update h.queue k (h.queue k ++ [val]) }
  | .dispatch k =>
    match h.queue k with
    | [] => none
    | val :: rest =>
      some { h with
        queue := Function.update h.queue k rest
        handed := h.handed ++ recipient h.sessions k val }
  | .addSession c session => some { h with sessions := Function.update h.sessions c (some session) }
  | .removeSession c => some { h with sessions := Function.update h.sessions c none }

end Handover

/-- Only the last step of `dequeue` returns a value. -/
theorem MpscQueue.step_dequeued {P : Type u} {T : Type v} [DecidableEq P] {s s' : MpscQueue P T}
    {a : MpscQueue.Action P T} (hs : s.step a = some s') (ha : a ≠ .delete) : s'.dequeued = s.dequeued := by
  cases steps hs with
  | delete old val hc => exact absurd rfl ha
  | _ => rfl

theorem MpscQueue.step_delete {P : Type u} {T : Type v} [DecidableEq P] {s s' : MpscQueue P T}
    {old : MpscQueue.Addr} {val : T} (hs : s.step .delete = some s') (hc : s.consumer = .advanced old val) :
    s'.dequeued = s.dequeued ++ [val] := by
  cases steps hs with
  | delete old' val' hc' =>
    cases hc.symm.trans hc'
    rfl

namespace ExecutionPipeline

variable {P : Type u} {S : Type v}

/-- The number of values of a queue that have been dispatched. -/
def gone (s : ExecutionPipeline P S) : Kind → ℕ
  | .report => s.dispatched.length
  | .trade => (s.queues .trade).dequeued.length

/-- What can be seen of the pipeline. -/
def handover (s : ExecutionPipeline P S) : Handover S where
  queue k := ((s.queues k).exchanged.map Prod.snd).drop (s.gone k)
  sessions := s.sessions
  handed := s.found

variable [DecidableEq P] {s s' : ExecutionPipeline P S} {a : Action P S}

omit [DecidableEq P] in
theorem putQueue_exchanged {j : Kind} {q : MpscQueue P j.Value} (h : q.exchanged = (s.queues j).exchanged) (k : Kind) :
    ((s.putQueue j q).queues k).exchanged = (s.queues k).exchanged := by
  by_cases hk : k = j
  · subst hk
    rw [putQueue_queues_self, h]
  · rw [s.putQueue_queues_of_ne q hk]

omit [DecidableEq P] in
/-- Nothing is published and nothing is dispatched. -/
theorem handover_congr (hexchanged : ∀ k, (s'.queues k).exchanged = (s.queues k).exchanged)
    (hdequeued : (s'.queues .trade).dequeued = (s.queues .trade).dequeued) (hdispatched : s'.dispatched = s.dispatched)
    (hsessions : s'.sessions = s.sessions) : s'.handover = s.handover := by
  have hgone : s'.gone = s.gone := by
    funext k
    cases k with
    | report => rw [gone, gone, hdispatched]
    | trade => rw [gone, gone, hdequeued]
  refine Handover.ext (funext fun k => ?_) hsessions ?_
  · show List.drop (s'.gone k) _ = List.drop (s.gone k) _
    rw [hgone, hexchanged]
  · show s'.found = s.found
    rw [found, found, hdispatched]

/-- A step inside a queue that neither puts a value in nor takes one out. -/
theorem handover_queue {k : Kind} {q : MpscQueue P k.Value} {b : MpscQueue.Action P k.Value}
    (hq : (s.queues k).step b = some q) (hexchange : ∀ p, b ≠ .exchange p) (hdelete : b ≠ .delete)
    (hqueues : s'.queues = (s.putQueue k q).queues) (hdispatched : s'.dispatched = s.dispatched)
    (hsessions : s'.sessions = s.sessions) : s'.handover = s.handover := by
  refine handover_congr (fun j => ?_) ?_ hdispatched hsessions
  · rw [hqueues]
    exact putQueue_exchanged (MpscQueue.step_exchanged hq hexchange) j
  · rw [hqueues]
    exact putQueue_dequeued (MpscQueue.step_dequeued hq hdelete) .trade

/-- No more values are gone than have been put in. -/
theorem Ok.gone_le (h : s.Ok) (k : Kind) : s.gone k ≤ (s.queues k).exchanged.length := by
  have hle := (h.dequeued_prefix k).length_le
  rw [List.length_map] at hle
  cases k with
  | report =>
    rw [h.dispatching.taken, List.length_append, List.length_map] at hle
    exact Nat.le_of_add_right_le hle
  | trade => exact hle

/-- An exchange of `tail_` publishes the value. -/
theorem handover_exchange (h : s.Ok) {p : P} {k : Kind} {val : k.Value} {q : MpscQueue P k.Value}
    (hexchanged : q.exchanged = (s.queues k).exchanged ++ [(p, val)]) (hdequeued : q.dequeued = (s.queues k).dequeued) :
    s.handover.step (.publish k val) = some ((s.putQueue k q).moveTo p (.store k)).handover := by
  refine congrArg some (Handover.ext (funext fun j => ?_) rfl rfl)
  have hgone : (s.putQueue k q).gone = s.gone := by
    funext j
    cases j with
    | report => rfl
    | trade => rw [gone, gone, putQueue_dequeued hdequeued]
  show Function.update s.handover.queue k (s.handover.queue k ++ [val]) j =
    (((s.putQueue k q).queues j).exchanged.map Prod.snd).drop ((s.putQueue k q).gone j)
  rw [hgone]
  by_cases hj : j = k
  · subst hj
    rw [Function.update_self, putQueue_queues_self, hexchanged, List.map_append, List.drop_append_of_le_length]
    · rfl
    · rw [List.length_map]
      exact h.gone_le j
  · rw [Function.update_of_ne hj, s.putQueue_queues_of_ne q hj]
    rfl

omit [DecidableEq P] in
/-- The first value of a queue is dispatched. -/
theorem handover_dispatch {k : Kind} {val : k.Value} {rest : List k.Value} (hqueue : s.handover.queue k = val :: rest)
    (hk : s'.handover.queue k = rest) (hothers : ∀ j, j ≠ k → s'.handover.queue j = s.handover.queue j)
    (hsessions : s'.sessions = s.sessions) (hfound : s'.found = s.found ++ Handover.recipient s.sessions k val) :
    s.handover.step (.dispatch k) = some s'.handover := by
  simp only [Handover.step, hqueue, Option.some.injEq]
  refine Handover.ext (funext fun j => ?_) hsessions.symm hfound.symm
  by_cases hj : j = k
  · subst hj
    rw [hk]
    exact Function.update_self ..
  · rw [hothers j hj]
    exact Function.update_of_ne hj ..

/-- The lookup of its session dispatches a report. -/
theorem handover_lookup (h : s.Ok) {report : ExecutionReport} (hd : s.dispatcher = some (.lookup report))
    (hqueues : s'.queues = s.queues) (hdispatched : s'.dispatched = s.dispatched ++ [(report, s.sessions report.clientId)])
    (hsessions : s'.sessions = s.sessions) : s.handover.step (.dispatch .report) = some s'.handover := by
  -- the report is the first that has left the queue and has not been dispatched
  obtain ⟨rest, hrest⟩ := h.dequeued_prefix .report
  have hhand : s.hand = [report] := by rw [hand, hd]; rfl
  rw [h.dispatching.taken, hhand, List.append_assoc, List.singleton_append] at hrest
  have hqueue : s.handover.queue .report = report :: rest := by
    show List.drop s.dispatched.length _ = _
    rw [← hrest, List.drop_left' (List.length_map _)]
  refine handover_dispatch hqueue ?_ ?_ hsessions ?_
  · show List.drop s'.dispatched.length _ = _
    rw [hqueues, hdispatched, ← hrest, List.length_append, ← List.drop_drop, List.drop_left' (List.length_map _)]
    rfl
  · intro j hj
    cases j with
    | report => exact absurd rfl hj
    | trade =>
      show List.drop (s'.queues .trade).dequeued.length _ = List.drop (s.queues .trade).dequeued.length _
      rw [hqueues]
  · rw [found, found, hdispatched, List.filterMap_append]
    refine congrArg _ ?_
    show _ = ((s.sessions report.clientId).map fun session => (session, report)).toList
    cases s.sessions report.clientId with
    | none => rfl
    | some session => rfl

/-- The deletion of its node dispatches a trade. -/
theorem handover_delete (h : s.Ok) {old : MpscQueue.Addr} {val : Trade} {q : MpscQueue P Kind.trade.Value}
    (hc : (s.queues .trade).consumer = .advanced old val) (hq : q.exchanged = (s.queues .trade).exchanged)
    (hdequeued : q.dequeued = (s.queues .trade).dequeued ++ [val])
    (hqueues : s'.queues = (s.putQueue .trade q).queues) (hdispatched : s'.dispatched = s.dispatched)
    (hsessions : s'.sessions = s.sessions) : s.handover.step (.dispatch .trade) = some s'.handover := by
  obtain ⟨chain, hok⟩ := h.chained .trade
  obtain ⟨left, inside, heq, hleft, -⟩ := hok.exchanged_eq
  have hvalues : (s.queues .trade).exchanged.map Prod.snd =
      (s.queues .trade).dequeued ++ val :: inside.map Prod.snd := by
    rw [heq, List.map_append, hleft, hc, List.append_assoc]
    rfl
  have hqueue : s.handover.queue .trade = val :: inside.map Prod.snd := by
    show List.drop (s.queues .trade).dequeued.length _ = _
    rw [hvalues, List.drop_left]
  refine handover_dispatch hqueue ?_ ?_ hsessions ?_
  · show List.drop (s'.queues .trade).dequeued.length ((s'.queues .trade).exchanged.map Prod.snd) = _
    rw [hqueues, putQueue_queues_self, hq, hdequeued, hvalues, List.length_append, ← List.drop_drop, List.drop_left]
    rfl
  · intro j hj
    cases j with
    | report =>
      show List.drop s'.dispatched.length ((s'.queues .report).exchanged.map Prod.snd) = _
      rw [hdispatched, hqueues, s.putQueue_queues_of_ne q hj]
      rfl
    | trade => exact absurd rfl hj
  · rw [found, found, hdispatched]
    exact (List.append_nil _).symm

/-- What is seen of a step. -/
def visible (s : ExecutionPipeline P S) : Action P S → List (Handover.Action S)
  | .exchange p =>
    match s.publishers p with
    | .enqueue k val => [.publish k val]
    | _ => []
  | .lookup => [.dispatch .report]
  | .delete =>
    match s.dispatcher with
    | some (.dequeue .trade) => [.dispatch .trade]
    | _ => []
  | .addSession c session => [.addSession c session]
  | .removeSession c => [.removeSession c]
  | _ => []

/-- The step lemma. -/
theorem step_handover (hs : s.step a = some s') (h : s.Ok) :
    Machine.run Handover.step s.handover (s.visible a) = some s'.handover := by
  have hone : ∀ {b : Handover.Action S} {t : Handover S}, s.handover.step b = some t →
      Machine.run Handover.step s.handover [b] = some t := by
    intro b t hb
    rw [Machine.run, hb]
    rfl
  have hnone : ∀ {t : ExecutionPipeline P S}, t.handover = s.handover → some s.handover = some t.handover := by
    intro t ht
    rw [ht]
  cases steps hs with
  | loadClosed p k val q hp hq => exact hnone (handover_queue hq (by rintro p ⟨⟩) (by rintro ⟨⟩) rfl rfl rfl)
  | alloc p node k val q hp hq => exact hnone (handover_queue hq (by rintro p ⟨⟩) (by rintro ⟨⟩) rfl rfl rfl)
  | store p k q hp hq => exact hnone (handover_queue hq (by rintro p ⟨⟩) (by rintro ⟨⟩) rfl rfl rfl)
  | close k q hc hq => exact hnone (handover_queue hq (by rintro p ⟨⟩) (by rintro ⟨⟩) rfl rfl rfl)
  | loadNext k q hd hq => exact hnone (handover_queue hq (by rintro p ⟨⟩) (by rintro ⟨⟩) rfl rfl rfl)
  | advance k q hd hq => exact hnone (handover_queue hq (by rintro p ⟨⟩) (by rintro ⟨⟩) rfl rfl rfl)
  | exchange p k val q hp hq =>
    have hvisible : s.visible (.exchange p) = [.publish k val] := by simp only [visible, hp]
    have hin : InStep (.enqueue k val) k ((s.queues k).producers p) := hp ▸ h.inStep p k
    cases MpscQueue.steps hq with
    | exchange p val' node halloc =>
      rw [halloc] at hin
      obtain hin | hin | ⟨node, hin⟩ := hin.enqueue
      all_goals cases hin
      rw [hvisible]
      exact hone (handover_exchange h rfl rfl)
  | delete k old val q hd hc hq =>
    have hexchanged : q.exchanged = (s.queues k).exchanged := MpscQueue.step_exchanged hq (by rintro p ⟨⟩)
    cases k with
    | report =>
      -- the report has left its queue, and is dispatched later
      have hvisible : s.visible .delete = [] := by simp only [visible, hd]
      have hne : Kind.trade ≠ Kind.report := by rintro ⟨⟩
      rw [hvisible]
      refine hnone (handover_congr (putQueue_exchanged hexchanged) ?_ rfl rfl)
      exact congrArg MpscQueue.dequeued (s.putQueue_queues_of_ne q hne)
    | trade =>
      have hvisible : s.visible .delete = [.dispatch .trade] := by simp only [visible, hd]
      rw [hvisible]
      exact hone (handover_delete h hc hexchanged (MpscQueue.step_delete hq hc) rfl rfl rfl)
  | lookup report hd => exact hone (handover_lookup h hd rfl rfl rfl)
  | addSession c session => exact hone rfl
  | removeSession c => exact hone rfl
  | _ => rfl

/-- The pipeline refines its specification: what is seen of any run, with any number of publishers and of starts and
stops, is a run of the two queues, and ends in what can be seen of the pipeline then. -/
theorem refines_handover (stubs : Kind → MpscQueue.Addr) (actions : List (Action P S)) (s : ExecutionPipeline P S)
    (hrun : Machine.run step (init P S stubs) actions = some s) :
    Machine.run Handover.step {} (Machine.trace step visible (init P S stubs) actions) = some s.handover := by
  have hinit : (init P S stubs).handover = {} := by
    refine Handover.ext (funext fun k => ?_) rfl rfl
    cases k with
    | report => rfl
    | trade => rfl
  rw [← hinit]
  exact Machine.run_trace (I := Ok) (fun s a s' hs h => h.step hs) (fun s a s' hs h => step_handover hs h) actions _ s
    hrun (init_ok stubs)

theorem refines_handover_late : ∃ s, Machine.run step (init Bool ℕ fun _ => 0) lateStore = some s ∧
    s.handover.handed.length = 2 ∧
    Machine.run Handover.step {} (Machine.trace step visible (init Bool ℕ fun _ => 0) lateStore) = some s.handover := by
  have hrun : (Machine.run step (init Bool ℕ fun _ => 0) lateStore).any fun s => s.handover.handed.length = 2 := by
    decide +kernel
  obtain ⟨s, hs, hprop⟩ := (Option.any_eq_true _ _).1 hrun
  exact ⟨s, hs, of_decide_eq_true hprop, refines_handover (fun _ => 0) lateStore s hs⟩

end ExecutionPipeline

end StockExchange
