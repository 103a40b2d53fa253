/-
What holds of an `ExecutionPipeline` however its threads are interleaved and however often it is started and stopped: a
publisher is in one queue at a time, the values that it has put in are among those that it was called with, in that order;
the dispatch thread is in one queue at a time, takes the reports out in the order in which they went in, looks up the session
of each once, and sends it there.
-/
import StockExchange.Pipeline.ExecutionPipeline

universe u v

namespace StockExchange

namespace ExecutionPipeline

variable {P : Type u} {S : Type v}

/-! ## The queues -/

@[simp] theorem putQueue_queues_self (s : ExecutionPipeline P S) (k : Kind) (q : MpscQueue P k.Value) :
    (s.putQueue k q).queues k = q := Function.update_self ..

theorem putQueue_queues_of_ne (s : ExecutionPipeline P S) {j k : Kind} (q : MpscQueue P j.Value) (h : k ≠ j) :
    (s.putQueue j q).queues k = s.queues k := Function.update_of_ne h ..

variable [DecidableEq P] {s s' : ExecutionPipeline P S} {a : Action P S}

/-- A step of one queue is a step or nothing for each. -/
theorem putQueue_queues {j : Kind} {q : MpscQueue P j.Value} {b : MpscQueue.Action P j.Value}
    (hq : (s.queues j).step b = some q) (k : Kind) :
    (s.putQueue j q).queues k = s.queues k ∨ ∃ b, (s.queues k).step b = some ((s.putQueue j q).queues k) := by
  by_cases hk : k = j
  · subst hk
    rw [putQueue_queues_self]
    exact .inr ⟨b, hq⟩
  · exact .inl (s.putQueue_queues_of_ne q hk)

theorem step_queues (hs : s.step a = some s') (k : Kind) :
    s'.queues k = s.queues k ∨ ∃ b, (s.queues k).step b = some (s'.queues k) := by
  cases steps hs with
  | loadClosed p j val q hp hq => exact putQueue_queues hq k
  | alloc p node j val q hp hq => exact putQueue_queues hq k
  | exchange p j val q hp hq => exact putQueue_queues hq k
  | store p j q hp hq => exact putQueue_queues hq k
  | loadNext j q hd hq => exact putQueue_queues hq k
  | advance j q hd hq => exact putQueue_queues hq k
  | delete j old val q hd hc hq => exact putQueue_queues hq k
  | close j q hc hq => exact putQueue_queues hq k
  | _ => exact .inl rfl

/-- A queue that is closed stays closed. -/
theorem step_closed (hs : s.step a = some s') {k : Kind} (h : (s.queues k).closed = true) :
    (s'.queues k).closed = true := by
  rcases step_queues hs k with heq | ⟨b, hb⟩
  · rw [heq]
    exact h
  · generalize s'.queues k = q at hb
    cases b with
    | close =>
      cases MpscQueue.steps hb with
      | close => rfl
    | _ => rw [MpscQueue.step_closed hb (by rintro ⟨⟩), h]

/-! ## Publishers -/

/-- Where a publisher stands, and where it stands in each queue. -/
inductive InStep : Publisher → (k : Kind) → MpscQueue.Producer k.Value → Prop
  | idle (k : Kind) : InStep .idle k .idle
  | loop (j : Kind) (val : j.Value) (k : Kind) : InStep (.loop j val) k .idle
  | called (j : Kind) (val : j.Value) (k : Kind) : InStep (.enqueue j val) k .idle
  | checked (k : Kind) (val : k.Value) : InStep (.enqueue k val) k (.checked val)
  | allocated (k : Kind) (val : k.Value) (node : MpscQueue.Addr) : InStep (.enqueue k val) k (.allocated val node)
  | exchanged (k : Kind) (prev node : MpscQueue.Addr) : InStep (.store k) k (.exchanged prev node)
  | elsewhere (j k : Kind) (h : k ≠ j) : InStep (.store j) k .idle

/-- The queue that a publisher is in. -/
def Publisher.kind : Publisher → Option Kind
  | .enqueue k _ => some k
  | .store k => some k
  | _ => none

theorem inStep_iff_of_ne {pc : Publisher} {k : Kind} {producer : MpscQueue.Producer k.Value} (h : pc.kind ≠ some k) :
    InStep pc k producer ↔ producer = .idle := by
  constructor
  · intro hin
    cases hin with
    | checked k val => exact absurd rfl h
    | allocated k val node => exact absurd rfl h
    | exchanged k prev node => exact absurd rfl h
    | _ => rfl
  · rintro rfl
    cases pc with
    | idle => exact .idle k
    | loop j val => exact .loop j val k
    | enqueue j val => exact .called j val k
    | store j => exact .elsewhere j k fun hk => h (congrArg some hk.symm)

theorem InStep.enqueue {k : Kind} {val : k.Value} {producer : MpscQueue.Producer k.Value} (h : InStep (.enqueue k val) k producer) :
    producer = .idle ∨ producer = .checked val ∨ ∃ node, producer = .allocated val node := by
  cases h with
  | called j val k => exact .inl rfl
  | checked k val => exact .inr (.inl rfl)
  | allocated k val node => exact .inr (.inr ⟨node, rfl⟩)

def AllInStep (s : ExecutionPipeline P S) : Prop := ∀ p k, InStep (s.publishers p) k ((s.queues k).producers p)

omit [DecidableEq P] in
theorem AllInStep.of_same (h : s.AllInStep) (hpublishers : s'.publishers = s.publishers)
    (hproducers : ∀ k, (s'.queues k).producers = (s.queues k).producers) : s'.AllInStep := by
  intro q k
  rw [hpublishers, hproducers]
  exact h q k

omit [DecidableEq P] in
theorem putQueue_producers {j : Kind} {q : MpscQueue P j.Value} (h : q.producers = (s.queues j).producers) (k : Kind) :
    ((s.putQueue j q).queues k).producers = (s.queues k).producers := by
  by_cases hk : k = j
  · subst hk
    rw [putQueue_queues_self, h]
  · rw [s.putQueue_queues_of_ne q hk]

/-- A publisher moves, in one queue or in none. -/
theorem AllInStep.move (h : s.AllInStep) (p : P) (pc : Publisher) {j : Kind} (q : MpscQueue P j.Value)
    (hqueues : s'.queues = (s.putQueue j q).queues) (hpublishers : s'.publishers = Function.update s.publishers p pc)
    (hold : (s.publishers p).kind = none ∨ (s.publishers p).kind = some j) (hnew : pc.kind = none ∨ pc.kind = some j)
    (hothers : ∀ r, r ≠ p → q.producers r = (s.queues j).producers r) (hj : InStep pc j (q.producers p)) :
    s'.AllInStep := by
  have hne : ∀ {o : Option Kind} {k : Kind}, k ≠ j → o = none ∨ o = some j → o ≠ some k := by
    rintro o k hk (rfl | rfl) heq
    · cases heq
    · exact hk (Option.some.inj heq).symm
  intro r k
  rw [hqueues, hpublishers]
  by_cases hk : k = j
  · subst hk
    rw [putQueue_queues_self]
    by_cases hr : r = p
    · subst hr
      rw [Function.update_self]
      exact hj
    · rw [Function.update_of_ne hr, hothers r hr]
      exact h r k
  · rw [s.putQueue_queues_of_ne q hk]
    by_cases hr : r = p
    · subst hr
      rw [Function.update_self, inStep_iff_of_ne (hne hk hnew)]
      exact (inStep_iff_of_ne (hne hk hold)).1 (h r k)
    · rw [Function.update_of_ne hr]
      exact h r k

omit [DecidableEq P] in
theorem putQueue_same (k : Kind) : (s.putQueue k (s.queues k)).queues = s.queues := Function.update_eq_self ..

theorem AllInStep.step (hs : s.step a = some s') (h : s.AllInStep) : s'.AllInStep := by
  have hidle : ∀ {p : P} {k : Kind}, (s.publishers p).kind = none → (s.queues k).producers p = .idle := by
    intro p k hkind
    exact (inStep_iff_of_ne (by simp [hkind])).1 (h p k)
  cases steps hs with
  | publish p k val hp hrun =>
    have hkind : (s.publishers p).kind = none := by rw [hp]; rfl
    refine h.move p (.loop k val) (s.queues k) (putQueue_same k).symm rfl (.inl hkind) (.inl rfl) (fun _ _ => rfl) ?_
    rw [hidle hkind]
    exact .loop k val k
  | givenUp p k val hp hrun =>
    have hkind : (s.publishers p).kind = none := by rw [hp]; rfl
    refine h.move p .idle (s.queues k) (putQueue_same k).symm rfl (.inl hkind) (.inl rfl) (fun _ _ => rfl) ?_
    rw [hidle hkind]
    exact .idle k
  | loop p k val hp hrun =>
    have hkind : (s.publishers p).kind = none := by rw [hp]; rfl
    refine h.move p (.enqueue k val) (s.queues k) (putQueue_same k).symm rfl (.inl hkind) (.inr rfl) (fun _ _ => rfl) ?_
    rw [hidle hkind]
    exact .called k val k
  | loadClosed p k val q hp hq =>
    have hkind : (s.publishers p).kind = some k := by rw [hp]; rfl
    cases MpscQueue.steps hq with
    | closed p val hidle hc =>
      refine h.move p _ (s.queues k) rfl rfl (.inr hkind) ?_ (fun _ _ => rfl) ?_
      · rw [if_pos hc]
        exact .inl rfl
      · rw [if_pos hc, hidle]
        exact .loop k val k
    | loadClosed p val hidle hc =>
      refine h.move p _ _ rfl rfl (.inr hkind) ?_ (fun r hr => Function.update_of_ne hr ..) ?_
      · rw [if_neg (by simp [hc])]
        exact .inr rfl
      · rw [if_neg (by simp [hc])]
        simp only [MpscQueue.moveTo, Function.update_self]
        exact .checked k val
  | alloc p node k val q hp hq =>
    have hkind : (s.publishers p).kind = some k := by rw [hp]; rfl
    have hin : InStep (.enqueue k val) k ((s.queues k).producers p) := hp ▸ h p k
    cases MpscQueue.steps hq with
    | alloc p node val' hchecked hn =>
      rw [hchecked] at hin
      obtain hin | hin | ⟨node, hin⟩ := hin.enqueue
      all_goals cases hin
      refine h.move p (.enqueue k val) _ rfl ?_ (.inr hkind) (.inr rfl) (fun r hr => Function.update_of_ne hr ..) ?_
      · exact (Function.update_eq_self_iff.2 hp.symm).symm
      · simp only [MpscQueue.moveTo, Function.update_self]
        exact .allocated k val node
  | exchange p k val q hp hq =>
    have hkind : (s.publishers p).kind = some k := by rw [hp]; rfl
    cases MpscQueue.steps hq with
    | exchange p val' node halloc =>
      refine h.move p (.store k) _ rfl rfl (.inr hkind) (.inr rfl) (fun r hr => Function.update_of_ne hr ..) ?_
      simp only [MpscQueue.moveTo, Function.update_self]
      exact .exchanged k _ node
  | store p k q hp hq =>
    have hkind : (s.publishers p).kind = some k := by rw [hp]; rfl
    cases MpscQueue.steps hq with
    | store p prev node n hex hn =>
      refine h.move p .idle _ rfl rfl (.inr hkind) (.inl rfl) (fun r hr => Function.update_of_ne hr ..) ?_
      simp only [MpscQueue.moveTo, Function.update_self]
      exact .idle k
  | loadNext k q hd hq => exact h.of_same rfl (putQueue_producers (MpscQueue.step_producers hq (.inl rfl)))
  | advance k q hd hq => exact h.of_same rfl (putQueue_producers (MpscQueue.step_producers hq (.inl rfl)))
  | delete k old val q hd hc hq => exact h.of_same rfl (putQueue_producers (MpscQueue.step_producers hq (.inl rfl)))
  | close k q hc hq => exact h.of_same rfl (putQueue_producers (MpscQueue.step_producers hq (.inr rfl)))
  | _ => exact h

/-! ## The order of the calls -/

/-- The value that a publisher is still to put into a queue. -/
def Publisher.waiting : Publisher → (k : Kind) → List k.Value
  | .loop .report val, .report => [val]
  | .loop .trade val, .trade => [val]
  | .enqueue .report val, .report => [val]
  | .enqueue .trade val, .trade => [val]
  | _, _ => []

@[simp] theorem waiting_idle (k : Kind) : Publisher.waiting .idle k = [] := by cases k <;> rfl

@[simp] theorem waiting_store (j k : Kind) : (Publisher.store j).waiting k = [] := by cases k <;> rfl

@[simp] theorem waiting_loop (k : Kind) (val : k.Value) : (Publisher.loop k val).waiting k = [val] := by cases k <;> rfl

theorem waiting_loop_of_ne {j k : Kind} (val : j.Value) (h : k ≠ j) : (Publisher.loop j val).waiting k = [] := by
  cases j <;> cases k <;> first | rfl | exact absurd rfl h

theorem waiting_enqueue (j : Kind) (val : j.Value) (k : Kind) :
    (Publisher.enqueue j val).waiting k = (Publisher.loop j val).waiting k := by
  cases j <;> cases k <;> rfl

/-- The values that a publisher has put into a queue. -/
def entered (s : ExecutionPipeline P S) (p : P) (k : Kind) : List k.Value :=
  ((s.queues k).exchanged.filter fun q => q.1 = p).map Prod.snd

/-- With the one that it is about to put there. -/
def due (s : ExecutionPipeline P S) (p : P) (k : Kind) : List k.Value := s.entered p k ++ (s.publishers p).waiting k

theorem entered_congr {j : Kind} {q : MpscQueue P j.Value} (h : q.exchanged = (s.queues j).exchanged) (p : P) (k : Kind) :
    (s.putQueue j q).entered p k = s.entered p k := by
  unfold entered
  by_cases hk : k = j
  · subst hk
    rw [putQueue_queues_self, h]
  · rw [s.putQueue_queues_of_ne q hk]

theorem due_moveTo_self (s : ExecutionPipeline P S) (p : P) (pc : Publisher) (k : Kind) :
    (s.moveTo p pc).due p k = s.entered p k ++ pc.waiting k := by
  simp [due, moveTo, entered]

theorem due_moveTo_of_ne (s : ExecutionPipeline P S) {p r : P} (pc : Publisher) (k : Kind) (h : r ≠ p) :
    (s.moveTo p pc).due r k = s.due r k := by
  simp [due, moveTo, entered, h]

/-- The publisher has the same value to put in, and has put in the same ones. -/
theorem due_moveTo {t : ExecutionPipeline P S} (hentered : ∀ p k, t.entered p k = s.entered p k)
    (hpublishers : t.publishers = s.publishers) {p : P} {pc : Publisher}
    (hwaiting : ∀ k, pc.waiting k = (s.publishers p).waiting k) (r : P) (k : Kind) :
    (t.moveTo p pc).due r k = s.due r k := by
  by_cases hr : r = p
  · subst hr
    rw [due_moveTo_self, hentered, hwaiting]
    rfl
  · rw [due_moveTo_of_ne _ _ _ hr, due, due, hentered, hpublishers]

/-- An exchange puts the value of the publisher at the end. -/
theorem entered_exchange {p : P} {j : Kind} {val : j.Value} {q : MpscQueue P j.Value}
    (hq : q.exchanged = (s.queues j).exchanged ++ [(p, val)]) (r : P) (k : Kind) :
    (s.putQueue j q).entered r k = s.entered r k ++ if r = p then (Publisher.loop j val).waiting k else [] := by
  unfold entered
  by_cases hk : k = j
  · subst hk
    by_cases hr : r = p
    · subst hr
      simp [hq]
    · simp [hq, hr, Ne.symm hr]
  · rw [s.putQueue_queues_of_ne q hk, waiting_loop_of_ne val hk, ite_self, List.append_nil]

/-- What a step does to the values of a publisher: nothing, a call, or a call given up since `running_` was cleared. -/
theorem step_due (hs : s.step a = some s') (h : s.AllInStep) (p : P) (k : Kind) :
    (s'.due p k = s.due p k ∧ s'.published p k = s.published p k) ∨
      (∃ val, s'.due p k = s.due p k ++ [val] ∧ s'.published p k = s.published p k ++ [val]) ∨
      (s.running = false ∧ s.publishers p ≠ .idle ∧ s'.due p k <+: s.due p k ∧ s'.published p k = s.published p k) := by
  have hqueue : ∀ {j : Kind} {q : MpscQueue P j.Value} {b : MpscQueue.Action P j.Value}, (s.queues j).step b = some q →
      (∀ p, b ≠ .exchange p) → ∀ p k, (s.putQueue j q).entered p k = s.entered p k := by
    intro j q b hq hb
    exact entered_congr (MpscQueue.step_exchanged hq hb)
  cases steps hs with
  | publish r j val hr hrun =>
    by_cases hp : p = r
    · subst hp
      by_cases hk : k = j
      · subst hk
        refine .inr (.inl ⟨val, ?_, ?_⟩)
        · rw [due_moveTo_self, waiting_loop, due, hr, waiting_idle, List.append_nil]
          rfl
        · simp [moveTo, call]
      · refine .inl ⟨?_, ?_⟩
        · rw [due_moveTo_self, waiting_loop_of_ne val hk, due, hr, waiting_idle]
          rfl
        · simp [moveTo, call, hk]
    · refine .inl ⟨?_, ?_⟩
      · rw [due_moveTo_of_ne _ _ _ hp]
        rfl
      · simp [moveTo, call, hp]
  | givenUp r j val hr hrun =>
    by_cases hp : p = r
    · subst hp
      refine .inr (.inr ⟨hrun, by rw [hr]; rintro ⟨⟩, ?_, rfl⟩)
      rw [due_moveTo_self, waiting_idle, List.append_nil]
      exact List.prefix_append ..
    · exact .inl ⟨due_moveTo_of_ne _ _ _ hp, rfl⟩
  | loop r j val hr hrun =>
    refine .inl ⟨due_moveTo (fun _ _ => rfl) rfl (fun k => ?_) p k, rfl⟩
    rw [hr, waiting_enqueue]
  | loadClosed r j val q hr hq =>
    refine .inl ⟨due_moveTo (hqueue hq (by rintro p ⟨⟩)) rfl (fun k => ?_) p k, rfl⟩
    rw [hr]
    split
    · rw [waiting_enqueue]
    · rfl
  | alloc r node j val q hr hq => exact .inl ⟨congrArg (· ++ _) (hqueue hq (by rintro p ⟨⟩) p k), rfl⟩
  | exchange r j val q hr hq =>
    have hin : InStep (.enqueue j val) j ((s.queues j).producers r) := hr ▸ h r j
    cases MpscQueue.steps hq with
    | exchange r val' node halloc =>
      rw [halloc] at hin
      obtain hin | hin | ⟨node', hin⟩ := hin.enqueue
      all_goals cases hin
      refine .inl ⟨?_, rfl⟩
      by_cases hp : p = r
      · subst hp
        rw [due_moveTo_self, entered_exchange rfl, if_pos rfl, waiting_store, List.append_nil, due, hr, waiting_enqueue]
      · rw [due_moveTo_of_ne _ _ _ hp, due, entered_exchange rfl, if_neg hp, List.append_nil]
        rfl
  | store r j q hr hq =>
    refine .inl ⟨due_moveTo (hqueue hq (by rintro p ⟨⟩)) rfl (fun k => ?_) p k, rfl⟩
    rw [hr, waiting_idle, waiting_store]
  | loadNext j q hd hq => exact .inl ⟨congrArg (· ++ _) (hqueue hq (by rintro p ⟨⟩) p k), rfl⟩
  | advance j q hd hq => exact .inl ⟨congrArg (· ++ _) (hqueue hq (by rintro p ⟨⟩) p k), rfl⟩
  | delete j old val q hd hc hq => exact .inl ⟨congrArg (· ++ _) (hqueue hq (by rintro p ⟨⟩) p k), rfl⟩
  | close j q hc hq => exact .inl ⟨congrArg (· ++ _) (hqueue hq (by rintro p ⟨⟩) p k), rfl⟩
  | _ => exact .inl ⟨rfl, rfl⟩

/-! ## The threads -/

/-- Whether `running_` is set and there is a dispatch thread, by where the caller of `start` and `stop` stands. -/
def Caller.Fits : Caller → Bool → Bool → Prop
  | .idle, running, thread => running = thread
  | .spawning, running, thread => running = true ∧ thread = false
  | .closing _, running, thread => running = false ∧ thread = true
  | .joining, running, thread => running = false ∧ thread = true

/-- The dispatch thread has not seen that `running_` was cleared. -/
def Dispatcher.serving : Dispatcher S → Bool
  | .testEmpty _ => false
  | .finished => false
  | _ => true

structure Threads (s : ExecutionPipeline P S) : Prop where
  caller : s.caller.Fits s.running s.dispatcher.isSome
  serving : s.running = true → ∀ d ∈ s.dispatcher, d.serving = true

omit [DecidableEq P] in
theorem Threads.dispatch (h : s.Threads) {d d' : Dispatcher S} (hd : s.dispatcher = some d) (hd' : s'.dispatcher = some d')
    (hcaller : s'.caller = s.caller) (hrunning : s'.running = s.running)
    (hserving : s.running = true → d.serving = true → d'.serving = true) : s'.Threads := by
  constructor
  · have hfits := h.caller
    rw [hd, Option.isSome_some] at hfits
    rwa [hcaller, hrunning, hd', Option.isSome_some]
  · intro hrun e he
    rw [hd'] at he
    cases he
    rw [hrunning] at hrun
    exact hserving hrun (h.serving hrun d hd)

theorem Threads.step (hs : s.step a = some s') (h : s.Threads) : s'.Threads := by
  cases steps hs with
  | test hd =>
    refine h.dispatch hd rfl rfl rfl fun hrun _ => ?_
    rw [if_pos hrun]
    rfl
  | testEmpty k empty hd he => exact h.dispatch hd rfl rfl rfl fun _ hfalse => by cases hfalse
  | loadNext k q hd hq =>
    refine h.dispatch hd rfl rfl rfl fun _ _ => ?_
    split
    · cases k <;> rfl
    · rfl
  | delete k old val q hd hc hq => exact h.dispatch hd rfl rfl rfl fun _ _ => by cases k <;> rfl
  | lookup report hd =>
    refine h.dispatch hd rfl rfl rfl fun _ _ => ?_
    split <;> rfl
  | send session report hd => exact h.dispatch hd rfl rfl rfl fun _ _ => rfl
  | start hc hrun =>
    have hfits := h.caller
    rw [hc, hrun] at hfits
    have hnone : s.dispatcher = none := Option.isSome_eq_false_iff.1 hfits.symm |> Option.isNone_iff_eq_none.1
    refine ⟨⟨rfl, hfits.symm⟩, fun _ d hd => ?_⟩
    rw [hnone] at hd
    cases hd
  | spawn hc =>
    have hfits := h.caller
    rw [hc] at hfits
    refine ⟨hfits.1, fun _ d hd => ?_⟩
    cases hd
    rfl
  | stop hc hrun =>
    have hfits := h.caller
    rw [hc, hrun] at hfits
    exact ⟨⟨rfl, hfits.symm⟩, fun hfalse => by cases hfalse⟩
  | close k q hc hq =>
    have hfits := h.caller
    rw [hc] at hfits
    exact ⟨by cases k <;> exact hfits, h.serving⟩
  | join hc hd =>
    have hfits := h.caller
    rw [hc] at hfits
    exact ⟨hfits.1, fun _ d hd => by cases hd⟩
  | _ => exact ⟨h.caller, h.serving⟩

/-- The report that the dispatch thread has taken out and is to look up the session of. -/
def Dispatcher.hand : Dispatcher S → List ExecutionReport
  | .lookup report => [report]
  | _ => []

/-- The report that the dispatch thread is to send. -/
def Dispatcher.toSend : Dispatcher S → List (S × ExecutionReport)
  | .send session report => [(session, report)]
  | _ => []

def hand (s : ExecutionPipeline P S) : List ExecutionReport := (s.dispatcher.map Dispatcher.hand).getD []

def toSend (s : ExecutionPipeline P S) : List (S × ExecutionReport) := (s.dispatcher.map Dispatcher.toSend).getD []

/-- The reports of which a session was found. -/
def found (s : ExecutionPipeline P S) : List (S × ExecutionReport) :=
  s.dispatched.filterMap fun q => q.2.map fun session => (session, q.1)

/-- The dispatch thread is in one queue at a time, each report that it takes out it looks up the session of, and sends it
where there is one. -/
structure Dispatching (s : ExecutionPipeline P S) : Prop where
  consumer : ∀ k, s.dispatcher ≠ some (.dequeue k) → (s.queues k).consumer = .idle
  taken : (s.queues .report).dequeued = s.dispatched.map Prod.fst ++ s.hand
  sent : s.sent ++ s.toSend = s.found

theorem putQueue_consumer {j : Kind} {q : MpscQueue P j.Value} {b : MpscQueue.Action P j.Value}
    (hq : (s.queues j).step b = some q) (hb : b.consumes = false) (k : Kind) :
    ((s.putQueue j q).queues k).consumer = (s.queues k).consumer ∧
      ((s.putQueue j q).queues k).dequeued = (s.queues k).dequeued := by
  by_cases hk : k = j
  · subst hk
    rw [putQueue_queues_self]
    exact MpscQueue.step_consumer hq hb
  · rw [s.putQueue_queues_of_ne q hk]
    exact ⟨rfl, rfl⟩

omit [DecidableEq P] in
theorem Dispatching.of_same (h : s.Dispatching) (hdispatcher : s'.dispatcher = s.dispatcher)
    (hqueues : ∀ k, (s'.queues k).consumer = (s.queues k).consumer ∧ (s'.queues k).dequeued = (s.queues k).dequeued)
    (hdispatched : s'.dispatched = s.dispatched) (hsent : s'.sent = s.sent) : s'.Dispatching := by
  constructor
  · intro k hk
    rw [(hqueues k).1]
    exact h.consumer k (hdispatcher ▸ hk)
  · rw [(hqueues .report).2, hdispatched, hand, hdispatcher]
    exact h.taken
  · rw [hsent, found, hdispatched, toSend, hdispatcher]
    exact h.sent

omit [DecidableEq P] in
/-- The dispatch thread moves outside the queues. -/
theorem Dispatching.move (h : s.Dispatching) (hidle : ∀ k, s.dispatcher ≠ some (.dequeue k)) (hqueues : s'.queues = s.queues)
    (htaken : s'.dispatched.map Prod.fst ++ s'.hand = s.dispatched.map Prod.fst ++ s.hand)
    (hsent : s.sent ++ s.toSend = s.found → s'.sent ++ s'.toSend = s'.found) : s'.Dispatching := by
  constructor
  · intro k _
    rw [hqueues]
    exact h.consumer k (hidle k)
  · rw [hqueues, htaken]
    exact h.taken
  · exact hsent h.sent

omit [DecidableEq P] in
/-- The dispatch thread moves in a queue. -/
theorem Dispatching.consume (h : s.Dispatching) {k : Kind} {q : MpscQueue P k.Value} {d : Dispatcher S}
    (hd : s.dispatcher = some (.dequeue k)) (hd' : s'.dispatcher = some d) (hqueues : s'.queues = (s.putQueue k q).queues)
    (hdispatched : s'.dispatched = s.dispatched) (hsent : s'.sent = s.sent) (hconsumer : d ≠ .dequeue k → q.consumer = .idle)
    (htaken : ((s.putQueue k q).queues .report).dequeued = (s.queues .report).dequeued ++ d.hand) (hd_send : d.toSend = []) :
    s'.Dispatching := by
  have hhand : s.hand = [] := by rw [hand, hd]; rfl
  have hsend : s.toSend = [] := by rw [toSend, hd]; rfl
  constructor
  · intro j hj
    rw [hd'] at hj
    rw [hqueues]
    by_cases hjk : j = k
    · subst hjk
      rw [putQueue_queues_self]
      exact hconsumer fun heq => hj (congrArg some heq)
    · rw [s.putQueue_queues_of_ne q hjk]
      refine h.consumer j fun heq => hjk ?_
      rw [hd] at heq
      cases heq
      rfl
  · rw [hqueues, htaken, h.taken, hhand, List.append_nil, hdispatched, hand, hd']
    rfl
  · have hfound := h.sent
    rw [hsend, List.append_nil] at hfound
    rw [hsent, toSend, hd', found, hdispatched]
    simp only [Option.map_some, Option.getD_some, hd_send, List.append_nil]
    exact hfound

omit [DecidableEq P] in
theorem putQueue_dequeued {k : Kind} {q : MpscQueue P k.Value} (h : q.dequeued = (s.queues k).dequeued) (j : Kind) :
    ((s.putQueue k q).queues j).dequeued = (s.queues j).dequeued := by
  by_cases hj : j = k
  · subst hj
    rw [putQueue_queues_self, h]
  · rw [s.putQueue_queues_of_ne q hj]

theorem Dispatching.step (hs : s.step a = some s') (ht : s.Threads) (h : s.Dispatching) : s'.Dispatching := by
  cases steps hs with
  | loadClosed p k val q hp hq => exact h.of_same rfl (putQueue_consumer hq rfl) rfl rfl
  | alloc p node k val q hp hq => exact h.of_same rfl (putQueue_consumer hq rfl) rfl rfl
  | exchange p k val q hp hq => exact h.of_same rfl (putQueue_consumer hq rfl) rfl rfl
  | store p k q hp hq => exact h.of_same rfl (putQueue_consumer hq rfl) rfl rfl
  | close k q hc hq => exact h.of_same rfl (putQueue_consumer hq rfl) rfl rfl
  | test hd =>
    refine h.move (fun k => by rw [hd]; rintro ⟨⟩) rfl ?_ fun hsent => ?_
    · simp only [hand, hd]
      split <;> rfl
    · rw [toSend, hd] at hsent
      refine Eq.trans ?_ hsent
      simp only [toSend]
      split <;> rfl
  | testEmpty k empty hd he =>
    refine h.move (fun k => by rw [hd]; rintro ⟨⟩) rfl ?_ fun hsent => ?_
    · simp only [hand, hd]
      split
      · cases k <;> rfl
      · rfl
    · rw [toSend, hd] at hsent
      refine Eq.trans ?_ hsent
      simp only [toSend]
      split
      · cases k <;> rfl
      · rfl
  | loadNext k q hd hq =>
    cases MpscQueue.steps hq with
    | noNext n hc hn hnext =>
      refine h.consume hd rfl rfl rfl rfl (fun _ => hc) ?_ ?_
      · rw [putQueue_dequeued rfl, hc]
        cases k <;> exact (List.append_nil _).symm
      · rw [hc]
        cases k <;> rfl
    | loadNext n next hc hn hnext =>
      refine h.consume hd rfl rfl rfl rfl (fun hne => absurd rfl hne) ?_ rfl
      refine (putQueue_dequeued ?_ _).trans (List.append_nil _).symm
      rfl
  | advance k q hd hq =>
    cases MpscQueue.steps hq with
    | advance next val link hc hn =>
      refine h.consume hd hd rfl rfl rfl (fun hne => absurd rfl hne) ?_ rfl
      refine (putQueue_dequeued ?_ _).trans (List.append_nil _).symm
      rfl
  | delete k old val q hd hc hq =>
    cases MpscQueue.steps hq with
    | delete old val' hc' =>
      cases hc.symm.trans hc'
      refine h.consume hd rfl rfl rfl rfl (fun _ => rfl) ?_ (by cases k <;> rfl)
      cases k with
      | report => rw [putQueue_queues_self]; rfl
      | trade =>
        rw [s.putQueue_queues_of_ne _ (by rintro ⟨⟩)]
        exact (List.append_nil _).symm
  | lookup report hd =>
    refine h.move (fun k => by rw [hd]; rintro ⟨⟩) rfl ?_ fun hsent => ?_
    · simp only [hand, hd, List.map_append]
      split <;> exact List.append_nil _
    · rw [toSend, hd] at hsent
      simp only [toSend, found, List.filterMap_append]
      refine congrArg₂ (· ++ ·) ((List.append_nil _).symm.trans hsent) ?_
      cases s.sessions report.clientId <;> rfl
  | send session report hd =>
    refine h.move (fun k => by rw [hd]; rintro ⟨⟩) rfl ?_ fun hsent => ?_
    · simp only [hand, hd]
      rfl
    · rw [toSend, hd] at hsent
      exact (List.append_nil _).trans hsent
  | spawn hc =>
    have hfits := ht.caller
    rw [hc] at hfits
    have hnone : s.dispatcher = none := by simpa using hfits.2
    refine h.move (fun k => by rw [hnone]; rintro ⟨⟩) rfl ?_ fun hsent => ?_
    · simp only [hand, hnone]
      rfl
    · rw [toSend, hnone] at hsent
      exact hsent
  | join hc hd =>
    refine h.move (fun k => by rw [hd]; rintro ⟨⟩) rfl ?_ fun hsent => ?_
    · simp only [hand, hd]
      rfl
    · rw [toSend, hd] at hsent
      exact hsent
  | _ => exact ⟨h.consumer, h.taken, h.sent⟩

/-! ## Every reachable state -/

structure Ok (s : ExecutionPipeline P S) : Prop where
  chained : ∀ k, ∃ chain, (s.queues k).Ok chain
  inStep : s.AllInStep
  threads : s.Threads
  dispatching : s.Dispatching
  calls : ∀ p k, (s.due p k).Sublist (s.published p k)

theorem Ok.step (hs : s.step a = some s') (h : s.Ok) : s'.Ok where
  chained k := by
    obtain ⟨chain, hk⟩ := h.chained k
    rcases step_queues hs k with heq | ⟨b, hb⟩
    · rw [heq]
      exact ⟨chain, hk⟩
    · exact hk.step hb
  inStep := h.inStep.step hs
  threads := h.threads.step hs
  dispatching := h.dispatching.step hs h.threads
  calls p k := by
    rcases step_due hs h.inStep p k with ⟨hdue, hpub⟩ | ⟨val, hdue, hpub⟩ | ⟨-, -, hdue, hpub⟩
    · rw [hdue, hpub]
      exact h.calls p k
    · rw [hdue, hpub]
      exact (h.calls p k).append (List.Sublist.refl _)
    · rw [hpub]
      exact hdue.sublist.trans (h.calls p k)

theorem init_ok (stubs : Kind → MpscQueue.Addr) : (init P S stubs).Ok where
  chained k := ⟨[stubs k], MpscQueue.start_ok (stubs k)⟩
  inStep _ k := .idle k
  threads := ⟨rfl, fun hrun => by cases hrun⟩
  dispatching := ⟨fun _ _ => rfl, rfl, rfl⟩
  calls p k := by simp [due, entered, init, MpscQueue.start]

theorem run_ok (stubs : Kind → MpscQueue.Addr) (actions : List (Action P S))
    (hrun : Machine.run step (init P S stubs) actions = some s) : s.Ok := by
  have hstep : ∀ (s : ExecutionPipeline P S) (a : Action P S) (s' : ExecutionPipeline P S), True → s.step a = some s' →
      s.Ok → s'.Ok := fun s a s' _ hs h => h.step hs
  exact Machine.run_invariant hstep actions _ s (fun _ _ => trivial) hrun (init_ok stubs)

/-- What has left a queue are the first values that went in. -/
theorem Ok.dequeued_prefix (h : s.Ok) (k : Kind) : (s.queues k).dequeued <+: (s.queues k).exchanged.map Prod.snd := by
  obtain ⟨chain, hk⟩ := h.chained k
  obtain ⟨left, inside, heq, hleft, -⟩ := hk.exchanged_eq
  rw [heq, List.map_append, hleft, List.append_assoc]
  exact List.prefix_append ..

/-- In every state of every interleaving, however often the pipeline is started and stopped: the reports dispatched are the
first ones in the order in which they went into the queue, and so are the trades taken out; of each publisher, what has
gone in is part of what it was called with, in the order of its calls; and what has been sent is, in this order, each
report of which a session was found, to that session, but for the one that the dispatch thread is about to send. -/
theorem dispatched_in_order (stubs : Kind → MpscQueue.Addr) (actions : List (Action P S)) (s : ExecutionPipeline P S)
    (hrun : Machine.run step (init P S stubs) actions = some s) :
    s.dispatched.map Prod.fst <+: (s.queues .report).exchanged.map Prod.snd ∧
      (s.queues .trade).dequeued <+: (s.queues .trade).exchanged.map Prod.snd ∧
      (∀ p k, (s.entered p k).Sublist (s.published p k)) ∧ s.sent ++ s.toSend = s.found := by
  have h := run_ok stubs actions hrun
  refine ⟨?_, h.dequeued_prefix .trade, fun p k => ?_, h.dispatching.sent⟩
  · refine List.IsPrefix.trans ?_ (h.dequeued_prefix .report)
    rw [h.dispatching.taken]
    exact List.prefix_append ..
  · exact (List.sublist_append_left ..).trans (h.calls p k)

/-- A publisher is stopped between its exchange and its store. `stop` returns without its report, which is dispatched when
the pipeline has been started again. -/
def lateStore : List (Action Bool ℕ) :=
  [.start, .spawn, .addSession 7 70, .publish true .report { orderId := 1, clientId := 7 }, .loop true, .loadClosed true,
    .alloc true 1, .exchange true, .store true, .publish false .report { orderId := 2, clientId := 7 }, .loop false,
    .loadClosed false, .alloc false 2, .exchange false, .stop, .close, .close, .test, .testEmpty, .loadNext, .advance,
    .delete, .lookup, .send, .loadNext, .test, .testEmpty, .testEmpty, .join, .store false, .start, .spawn, .test, .loadNext,
    .advance, .delete, .lookup]

theorem dispatched_in_order_late : ∃ s, Machine.run step (init Bool ℕ fun _ => 0) lateStore = some s ∧
    s.dispatched.length = 2 ∧ s.sent.length = 1 ∧
    s.dispatched.map Prod.fst <+: (s.queues .report).exchanged.map Prod.snd ∧ s.sent ++ s.toSend = s.found := by
  have hrun : (Machine.run step (init Bool ℕ fun _ => 0) lateStore).any fun s =>
      s.dispatched.length = 2 ∧ s.sent.length = 1 := by decide +kernel
  obtain ⟨s, hs, hprop⟩ := (Option.any_eq_true _ _).1 hrun
  obtain ⟨hdispatched, hsent⟩ := of_decide_eq_true hprop
  obtain ⟨hreports, -, -, hfound⟩ := dispatched_in_order (fun _ => 0) lateStore s hs
  exact ⟨s, hs, hdispatched, hsent, hreports, hfound⟩

end ExecutionPipeline

end StockExchange
