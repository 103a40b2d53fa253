/-
`ExecutionPipeline` (`pipeline/execution_pipeline.cpp`), step by step: any number of threads that publish reports and
trades, the thread of `dispatch_loop` that takes them out of the two queues and hands the reports to sessions, and the thread
that calls `start` and `stop`. Sessions come and go meanwhile (`gateway/connection_manager.hpp`).

The two queues are `MpscQueue`s as the code has them; the calls that publish differ only in the queue they use.
-/
import StockExchange.Common.Types
import StockExchange.Pipeline.MpscQueue

universe u v

namespace StockExchange

namespace ExecutionPipeline

/-- `report_queue_` and `trade_queue_`. -/
inductive Kind
  | report
  | trade
  deriving DecidableEq

/-- What the queue holds. -/
abbrev Kind.Value : Kind → Type
  | .report => ExecutionReport
  | .trade => Trade

/-- Where a thread stands in `publish_execution_report` or `publish_trade`. -/
inductive Publisher
  | idle
  /-- At the condition of the loop. -/
  | loop (k : Kind) (val : k.Value)
  /-- In `enqueue`, which the queue knows more about. -/
  | enqueue (k : Kind) (val : k.Value)
  /-- The value is in, the link to it is still to be stored. -/
  | store (k : Kind)

/-- Where the dispatch thread stands in `dispatch_loop`. -/
inductive Dispatcher (S : Type v)
  | test
  /-- `running_` was not set, and the queues before this one are empty. -/
  | testEmpty (k : Kind)
  | dequeue (k : Kind)
  /-- A report has been taken out; `get_session` is to be called. -/
  | lookup (report : ExecutionReport)
  | send (session : S) (report : ExecutionReport)
  | finished

/-- Where the thread stands that calls `start` and `stop`. -/
inductive Caller
  | idle
  /-- `running_` has been set, the thread is still to be started. -/
  | spawning
  /-- `running_` has been cleared, and the queues before this one are closed. -/
  | closing (k : Kind)
  | joining
  deriving DecidableEq

inductive Action (P : Type u) (S : Type v)
  /-- A value is published; the call loads `running_`. -/
  | publish (p : P) (k : Kind) (val : k.Value)
  | loop (p : P)
  | loadClosed (p : P)
  | alloc (p : P) (node : MpscQueue.Addr)
  | exchange (p : P)
  | store (p : P)
  | test
  | testEmpty
  | loadNext
  | advance
  | delete
  | lookup
  | send
  | start
  | spawn
  | stop
  | close
  | join
  | addSession (c : ClientID) (session : S)
  | removeSession (c : ClientID)

variable {S : Type v}

/-- What follows where a queue has turned out to be empty in the condition of the loop. -/
def Dispatcher.afterEmpty : Kind → Dispatcher S
  | .report => .testEmpty .trade
  | .trade => .finished

/-- What follows where `dequeue` has returned nothing. -/
def Dispatcher.afterNothing : Kind → Dispatcher S
  | .report => .dequeue .trade
  | .trade => .test

/-- What follows where `dequeue` has returned a value. -/
def Dispatcher.after : (k : Kind) → k.Value → Dispatcher S
  | .report, report => .lookup report
  | .trade, _ => .test

/-- What follows where a queue has been closed. -/
def Caller.afterClose : Kind → Caller
  | .report => .closing .trade
  | .trade => .joining

end ExecutionPipeline

open ExecutionPipeline

structure ExecutionPipeline (P : Type u) (S : Type v) where
  running : Bool := false
  queues : (k : Kind) → MpscQueue P k.Value
  /-- `dispatch_thread_`. -/
  dispatcher : Option (Dispatcher S) := none
  publishers : P → Publisher := fun _ => .idle
  caller : Caller := .idle
  /-- `sessions_` of the `ConnectionManager`. -/
  sessions : ClientID → Option S := fun _ => none
  /-- The calls of `send_execution_report`. -/
  sent : List (S × ExecutionReport) := []
  /-- The values published while `running_` was set. Nothing reads it. -/
  published : P → (k : Kind) → List k.Value := fun _ _ => []
  /-- The reports dispatched, each with the session that was found. Nothing reads it. -/
  dispatched : List (ExecutionReport × Option S) := []

namespace ExecutionPipeline

variable {P : Type u} {S : Type v}

/-- The constructor. -/
def init (P : Type u) (S : Type v) (stubs : Kind → MpscQueue.Addr) : ExecutionPipeline P S where
  queues k := .start P k.Value (stubs k)

def putQueue (s : ExecutionPipeline P S) (k : Kind) (q : MpscQueue P k.Value) : ExecutionPipeline P S :=
  { s with queues := Function.update s.queues k q }

variable [DecidableEq P]

def moveTo (s : ExecutionPipeline P S) (p : P) (pc : Publisher) : ExecutionPipeline P S :=
  { s with publishers := Function.update s.publishers p pc }

/-- A value is published while `running_` is set. -/
def call (s : ExecutionPipeline P S) (p : P) (k : Kind) (val : k.Value) : ExecutionPipeline P S :=
  { s with published := Function.update s.published p (Function.update (s.published p) k (s.published p k ++ [val])) }

/-- One step; `none` where the thread stands elsewhere, or waits. -/
def step (s : ExecutionPipeline P S) : Action P S → Option (ExecutionPipeline P S)
  | .publish p k val =>
    match s.publishers p with
    | .idle => if s.running then some ((s.call p k val).moveTo p (.loop k val)) else some s
    | _ => none
  | .loop p =>
    match s.publishers p with
    | .loop k val => some (s.moveTo p (if s.running then .enqueue k val else .idle))
    | _ => none
  | .loadClosed p =>
    match s.publishers p with
    | .enqueue k val =>
      ((s.queues k).step (.loadClosed p val)).map fun q =>
        (s.putQueue k q).moveTo p (if (s.queues k).closed then .loop k val else .enqueue k val)
    | _ => none
  | .alloc p node =>
    match s.publishers p with
    | .enqueue k _ => ((s.queues k).step (.alloc p node)).map fun q => s.putQueue k q
    | _ => none
  | .exchange p =>
    match s.publishers p with
    | .enqueue k _ => ((s.queues k).step (.exchange p)).map fun q => (s.putQueue k q).moveTo p (.store k)
    | _ => none
  | .store p =>
    match s.publishers p with
    | .store k => ((s.queues k).step (.store p)).map fun q => (s.putQueue k q).moveTo p .idle
    | _ => none
  | .test =>
    match s.dispatcher with
    | some .test => some { s with dispatcher := some (if s.running then .dequeue .report else .testEmpty .report) }
    | _ => none
  | .testEmpty =>
    match s.dispatcher with
    | some (.testEmpty k) =>
      (s.queues k).empty.map fun empty =>
        { s with dispatcher := some (if empty then .afterEmpty k else .dequeue .report) }
    | _ => none
  | .loadNext =>
    match s.dispatcher with
    | some (.dequeue k) =>
      ((s.queues k).step .loadNext).map fun q =>
        { s.putQueue k q with
          dispatcher := some (match q.consumer with | .idle => .afterNothing k | _ => .dequeue k) }
    | _ => none
  | .advance =>
    match s.dispatcher with
    | some (.dequeue k) => ((s.queues k).step .advance).map fun q => s.putQueue k q
    | _ => none
  | .delete =>
    match s.dispatcher with
    | some (.dequeue k) =>
      match (s.queues k).consumer with
      | .advanced _ val =>
        ((s.queues k).step .delete).map fun q => { s.putQueue k q with dispatcher := some (.after k val) }
      | _ => none
    | _ => none
  | .lookup =>
    match s.dispatcher with
    | some (.lookup report) =>
      some { s with
        dispatcher := some (match s.sessions report.clientId with
          | some session => .send session report
          | none => .dequeue .trade)
        dispatched := s.dispatched ++ [(report, s.sessions report.clientId)] }
    | _ => none
  | .send =>
    match s.dispatcher with
    | some (.send session report) =>
      some { s with dispatcher := some (.dequeue .trade), sent := s.sent ++ [(session, report)] }
    | _ => none
  | .start =>
    match s.caller with
    | .idle => if s.running then some s else some { s with running := true, caller := .spawning }
    | _ => none
  | .spawn =>
    match s.caller with
    | .spawning => some { s with dispatcher := some .test, caller := .idle }
    | _ => none
  | .stop =>
    match s.caller with
    | .idle => some { s with running := false, caller := if s.running then .closing .report else .idle }
    | _ => none
  | .close =>
    match s.caller with
    | .closing k => ((s.queues k).step .close).map fun q => { s.putQueue k q with caller := .afterClose k }
    | _ => none
  | .join =>
    match s.caller, s.dispatcher with
    | .joining, some .finished => some { s with dispatcher := none, caller := .idle }
    | _, _ => none
  | .addSession c session => some { s with sessions := Function.update s.sessions c (some session) }
  | .removeSession c => some { s with sessions := Function.update s.sessions c none }

/-- Everything a step can do. -/
inductive Steps (s : ExecutionPipeline P S) : Action P S → ExecutionPipeline P S → Prop
  | refused (p : P) (k : Kind) (val : k.Value) (hp : s.publishers p = .idle) (hrun : s.running = false) :
    Steps s (.publish p k val) s
  | publish (p : P) (k : Kind) (val : k.Value) (hp : s.publishers p = .idle) (hrun : s.running = true) :
    Steps s (.publish p k val) ((s.call p k val).moveTo p (.loop k val))
  | givenUp (p : P) (k : Kind) (val : k.Value) (hp : s.publishers p = .loop k val) (hrun : s.running = false) :
    Steps s (.loop p) (s.moveTo p .idle)
  | loop (p : P) (k : Kind) (val : k.Value) (hp : s.publishers p = .loop k val) (hrun : s.running = true) :
    Steps s (.loop p) (s.moveTo p (.enqueue k val))
  | loadClosed (p : P) (k : Kind) (val : k.Value) (q : MpscQueue P k.Value) (hp : s.publishers p = .enqueue k val)
    (hq : (s.queues k).step (.loadClosed p val) = some q) :
    Steps s (.loadClosed p)
      ((s.putQueue k q).moveTo p (if (s.queues k).closed then .loop k val else .enqueue k val))
  | alloc (p : P) (node : MpscQueue.Addr) (k : Kind) (val : k.Value) (q : MpscQueue P k.Value)
    (hp : s.publishers p = .enqueue k val) (hq : (s.queues k).step (.alloc p node) = some q) :
    Steps s (.alloc p node) (s.putQueue k q)
  | exchange (p : P) (k : Kind) (val : k.Value) (q : MpscQueue P k.Value) (hp : s.publishers p = .enqueue k val)
    (hq : (s.queues k).step (.exchange p) = some q) : Steps s (.exchange p) ((s.putQueue k q).moveTo p (.store k))
  | store (p : P) (k : Kind) (q : MpscQueue P k.Value) (hp : s.publishers p = .store k)
    (hq : (s.queues k).step (.store p) = some q) : Steps s (.store p) ((s.putQueue k q).moveTo p .idle)
  | test (hd : s.dispatcher = some .test) : Steps s .test
      { s with dispatcher := some (if s.running then .dequeue .report else .testEmpty .report) }
  | testEmpty (k : Kind) (empty : Bool) (hd : s.dispatcher = some (.testEmpty k)) (he : (s.queues k).empty = some empty) :
    Steps s .testEmpty { s with dispatcher := some (if empty then .afterEmpty k else .dequeue .report) }
  | loadNext (k : Kind) (q : MpscQueue P k.Value) (hd : s.dispatcher = some (.dequeue k))
    (hq : (s.queues k).step .loadNext = some q) : Steps s .loadNext
      { s.putQueue k q with dispatcher := some (match q.consumer with | .idle => .afterNothing k | _ => .dequeue k) }
  | advance (k : Kind) (q : MpscQueue P k.Value) (hd : s.dispatcher = some (.dequeue k))
    (hq : (s.queues k).step .advance = some q) : Steps s .advance (s.putQueue k q)
  | delete (k : Kind) (old : MpscQueue.Addr) (val : k.Value) (q : MpscQueue P k.Value)
    (hd : s.dispatcher = some (.dequeue k)) (hc : (s.queues k).consumer = .advanced old val)
    (hq : (s.queues k).step .delete = some q) :
    Steps s .delete { s.putQueue k q with dispatcher := some (.after k val) }
  | lookup (report : ExecutionReport) (hd : s.dispatcher = some (.lookup report)) : Steps s .lookup
      { s with
        dispatcher := some (match s.sessions report.clientId with
          | some session => .send session report
          | none => .dequeue .trade)
        dispatched := s.dispatched ++ [(report, s.sessions report.clientId)] }
  | send (session : S) (report : ExecutionReport) (hd : s.dispatcher = some (.send session report)) :
    Steps s .send { s with dispatcher := some (.dequeue .trade), sent := s.sent ++ [(session, report)] }
  | startAgain (hc : s.caller = .idle) (hrun : s.running = true) : Steps s .start s
  | start (hc : s.caller = .idle) (hrun : s.running = false) :
    Steps s .start { s with running := true, caller := .spawning }
  | spawn (hc : s.caller = .spawning) : Steps s .spawn { s with dispatcher := some .test, caller := .idle }
  | stopAgain (hc : s.caller = .idle) (hrun : s.running = false) : Steps s .stop s
  | stop (hc : s.caller = .idle) (hrun : s.running = true) :
    Steps s .stop { s with running := false, caller := .closing .report }
  | close (k : Kind) (q : MpscQueue P k.Value) (hc : s.caller = .closing k) (hq : (s.queues k).step .close = some q) :
    Steps s .close { s.putQueue k q with caller := .afterClose k }
  | join (hc : s.caller = .joining) (hd : s.dispatcher = some .finished) :
    Steps s .join { s with dispatcher := none, caller := .idle }
  | addSession (c : ClientID) (session : S) :
    Steps s (.addSession c session) { s with sessions := Function.update s.sessions c (some session) }
  | removeSession (c : ClientID) :
    Steps s (.removeSession c) { s with sessions := Function.update s.sessions c none }

theorem steps {s s' : ExecutionPipeline P S} {a : Action P S} (h : s.step a = some s') : Steps s a s' := by
  cases a with
  | publish p k val =>
    simp only [step] at h
    split at h
    next hp =>
      split at h
      next hrun => cases h; exact .publish p k val hp hrun
      next hrun => cases h; exact .refused p k val hp (Bool.not_eq_true _ ▸ hrun)
    next => cases h
  | loop p =>
    simp only [step] at h
    split at h
    next k val hp =>
      split at h
      next hrun => cases h; exact .loop p k val hp hrun
      next hrun => cases h; exact .givenUp p k val hp (Bool.not_eq_true _ ▸ hrun)
    next => cases h
  | loadClosed p =>
    simp only [step] at h
    split at h
    next k val hp =>
      obtain ⟨q, hq, rfl⟩ := Option.map_eq_some_iff.1 h
      exact .loadClosed p k val q hp hq
    next => cases h
  | alloc p node =>
    simp only [step] at h
    split at h
    next k val hp =>
      obtain ⟨q, hq, rfl⟩ := Option.map_eq_some_iff.1 h
      exact .alloc p node k val q hp hq
    next => cases h
  | exchange p =>
    simp only [step] at h
    split at h
    next k val hp =>
      obtain ⟨q, hq, rfl⟩ := Option.map_eq_some_iff.1 h
      exact .exchange p k val q hp hq
    next => cases h
  | store p =>
    simp only [step] at h
    split at h
    next k hp =>
      obtain ⟨q, hq, rfl⟩ := Option.map_eq_some_iff.1 h
      exact .store p k q hp hq
    next => cases h
  | test =>
    simp only [step] at h
    split at h
    next hd => cases h; exact .test hd
    next => cases h
  | testEmpty =>
    simp only [step] at h
    split at h
    next k hd =>
      obtain ⟨empty, he, rfl⟩ := Option.map_eq_some_iff.1 h
      exact .testEmpty k empty hd he
    next => cases h
  | loadNext =>
    simp only [step] at h
    split at h
    next k hd =>
      obtain ⟨q, hq, rfl⟩ := Option.map_eq_some_iff.1 h
      exact .loadNext k q hd hq
    next => cases h
  | advance =>
    simp only [step] at h
    split at h
    next k hd =>
      obtain ⟨q, hq, rfl⟩ := Option.map_eq_some_iff.1 h
      exact .advance k q hd hq
    next => cases h
  | delete =>
    simp only [step] at h
    split at h
    next k hd =>
      split at h
      next old val hc =>
        obtain ⟨q, hq, rfl⟩ := Option.map_eq_some_iff.1 h
        exact .delete k old val q hd hc hq
      next => cases h
    next => cases h
  | lookup =>
    simp only [step] at h
    split at h
    next report hd => cases h; exact .lookup report hd
    next => cases h
  | send =>
    simp only [step] at h
    split at h
    next session report hd => cases h; exact .send session report hd
    next => cases h
  | start =>
    simp only [step] at h
    split at h
    next hc =>
      split at h
      next hrun => cases h; exact .startAgain hc hrun
      next hrun => cases h; exact .start hc (Bool.not_eq_true _ ▸ hrun)
    next => cases h
  | spawn =>
    simp only [step] at h
    split at h
    next hc => cases h; exact .spawn hc
    next => cases h
  | stop =>
    simp only [step] at h
    split at h
    next hc =>
      obtain ⟨rfl⟩ := h
      cases hrun : s.running with
      | true => exact .stop hc hrun
      | false =>
        have hsame : { s with running := false, caller := .idle } = s := by
          rw [← hrun, ← hc]
        rw [if_neg Bool.false_ne_true, hsame]
        exact .stopAgain hc hrun
    next => cases h
  | close =>
    simp only [step] at h
    split at h
    next k hc =>
      obtain ⟨q, hq, rfl⟩ := Option.map_eq_some_iff.1 h
      exact .close k q hc hq
    next => cases h
  | join =>
    simp only [step] at h
    split at h
    next hc hd => cases h; exact .join hc hd
    next => cases h
  | addSession c session => cases h; exact .addSession c session
  | removeSession c => cases h; exact .removeSession c

end ExecutionPipeline

end StockExchange
