/-
`ExecutionPipeline::stop`: the dispatch thread leaves its loop only when it has found both queues empty after `running_` was
cleared, so nothing is lost that was published by calls that had returned before. The queues stay closed: a pipeline that is
started again takes nothing more, and a call that publishes then does not return before the next `stop`. And `stop`
returns: the dispatch thread takes a bounded number of steps for each value that is left.
-/
import StockExchange.Pipeline.Dispatch

universe u v

namespace StockExchange

namespace ExecutionPipeline

variable {P : Type u} {S : Type v} [DecidableEq P] {s s' : ExecutionPipeline P S} {a : Action P S}

/-! ## Before `stop` -/

/-- No call has been given up: what publishers were called with is in the queues, or about to be put there. -/
structure Serving (s : ExecutionPipeline P S) : Prop where
  busy : ∀ p, s.publishers p ≠ .idle → s.running = true
  calls : ∀ p k, s.due p k = s.published p k

theorem step_running (hs : s.step a = some s') (ha : a ≠ .stop) (hrun : s.running = true) : s'.running = true := by
  cases steps hs with
  | stop hc hrun => exact absurd rfl ha
  | start hc hrun => rfl
  | _ => exact hrun

theorem Serving.step (hs : s.step a = some s') (ha : a ≠ .stop) (hok : s.Ok) (h : s.Serving) : s'.Serving := by
  constructor
  · intro p hp
    by_cases hrun : s.running = true
    · exact step_running hs ha hrun
    · have hidle : ∀ p, s.publishers p = .idle := by
        intro p
        by_contra hp
        exact hrun (h.busy p hp)
      cases steps hs with
      | publish r k val hr hrun' => exact hrun'
      | givenUp r k val hr _ => cases (hidle r).symm.trans hr
      | loop r k val hr hrun' => exact hrun'
      | loadClosed r k val q hr hq => cases (hidle r).symm.trans hr
      | exchange r k val q hr hq => cases (hidle r).symm.trans hr
      | store r k q hr hq => cases (hidle r).symm.trans hr
      | start hc hrun' => rfl
      | stop hc hrun => exact absurd rfl ha
      | _ => exact h.busy p hp
  · intro p k
    rcases step_due hs hok.inStep p k with ⟨hdue, hpub⟩ | ⟨val, hdue, hpub⟩ | ⟨hrun, hp, -, -⟩
    · rw [hdue, hpub, h.calls]
    · rw [hdue, hpub, h.calls]
    · rw [h.busy p hp] at hrun
      cases hrun

theorem run_serving (stubs : Kind → MpscQueue.Addr) (actions : List (Action P S)) (hstop : Action.stop ∉ actions)
    (hrun : Machine.run step (init P S stubs) actions = some s) : s.Ok ∧ s.Serving := by
  have hstep : ∀ (s : ExecutionPipeline P S) (a : Action P S) (s' : ExecutionPipeline P S), a ≠ .stop → s.step a = some s' →
      s.Ok ∧ s.Serving → s'.Ok ∧ s'.Serving := fun s a s' ha hs h => ⟨h.1.step hs, h.2.step hs ha h.1⟩
  refine Machine.run_invariant hstep actions _ s (fun a ha heq => hstop (heq ▸ ha)) hrun ⟨init_ok stubs, ?_⟩
  refine ⟨fun p hp => absurd rfl hp, fun p k => ?_⟩
  simp [due, entered, init, MpscQueue.start]

/-! ## After `stop` -/

/-- Both queues are closed, or `stop` is about to close them. -/
def Shut (s : ExecutionPipeline P S) : Prop :=
  (∀ k, (s.queues k).closed = true) ∨ s.running = false ∧
    (s.caller = .closing .report ∨ s.caller = .closing .trade ∧ (s.queues .report).closed = true)

theorem Shut.step (hs : s.step a = some s') (h : s.Shut) : s'.Shut := by
  rcases h with hclosed | ⟨hrun, hcaller⟩
  · exact .inl fun k => step_closed hs (hclosed k)
  · have hkeep : s'.running = false → s'.caller = s.caller → s'.Shut := by
      intro hrun' hcaller'
      refine .inr ⟨hrun', ?_⟩
      rw [hcaller']
      exact hcaller.imp_right fun hc => ⟨hc.1, step_closed hs hc.2⟩
    cases steps hs with
    | start hc hrun' => rcases hcaller with hc' | ⟨hc', -⟩ <;> cases hc.symm.trans hc'
    | spawn hc => rcases hcaller with hc' | ⟨hc', -⟩ <;> cases hc.symm.trans hc'
    | stop hc hrun' => cases hrun.symm.trans hrun'
    | join hc hd => rcases hcaller with hc' | ⟨hc', -⟩ <;> cases hc.symm.trans hc'
    | close k q hc hq =>
      cases MpscQueue.steps hq with
      | close =>
        rcases hcaller with hc' | ⟨hc', hreport⟩
        · cases hc.symm.trans hc'
          exact .inr ⟨hrun, .inr ⟨rfl, by rw [putQueue_queues_self]⟩⟩
        · cases hc.symm.trans hc'
          refine .inl fun k => ?_
          cases k with
          | report => rwa [s.putQueue_queues_of_ne _ (by rintro ⟨⟩)]
          | trade => rw [putQueue_queues_self]
    | _ => exact hkeep hrun rfl

/-- No publisher can put anything in any more: both queues are closed, or no publisher is in a call. -/
structure Sealed (s : ExecutionPipeline P S) : Prop where
  shut : s.Shut
  producers : ∀ p k, (s.queues k).producers p = .idle
  quiet : (∀ k, (s.queues k).closed = true) ∨ ∀ p, s.publishers p = .idle

/-- A queue is closed or taken from, and nothing else happens to it. -/
theorem Sealed.step_queues (hs : s.step a = some s') (h : s.Sealed) (k : Kind) : s'.queues k = s.queues k ∨
    s'.queues k = { s.queues k with closed := true } ∨
    ∃ b, b.consumes = true ∧ (s.queues k).step b = some (s'.queues k) := by
  have hconsume : ∀ {j : Kind} {q : MpscQueue P j.Value} {b : MpscQueue.Action P j.Value}, b.consumes = true →
      (s.queues j).step b = some q → (s.putQueue j q).queues k = s.queues k ∨
        ∃ b, b.consumes = true ∧ (s.queues k).step b = some ((s.putQueue j q).queues k) := by
    intro j q b hb hq
    by_cases hk : k = j
    · subst hk
      rw [putQueue_queues_self]
      exact .inr ⟨b, hb, hq⟩
    · exact .inl (s.putQueue_queues_of_ne q hk)
  cases steps hs with
  | loadClosed p j val q hp hq =>
    rcases h.quiet with hclosed | hidle
    · cases MpscQueue.steps hq with
      | closed p val _ hc => exact .inl (congrFun (putQueue_same j) k)
      | loadClosed p val _ hc =>
        rw [hclosed j] at hc
        cases hc
    · cases (hidle p).symm.trans hp
  | alloc p node j val q hp hq =>
    cases MpscQueue.steps hq with
    | alloc p node val' hchecked hn => cases (h.producers p j).symm.trans hchecked
  | exchange p j val q hp hq =>
    cases MpscQueue.steps hq with
    | exchange p val' node halloc => cases (h.producers p j).symm.trans halloc
  | store p j q hp hq =>
    cases MpscQueue.steps hq with
    | store p prev node n hex hn => cases (h.producers p j).symm.trans hex
  | loadNext j q hd hq => exact (hconsume rfl hq).imp_right .inr
  | advance j q hd hq => exact (hconsume rfl hq).imp_right .inr
  | delete j old val q hd hc hq => exact (hconsume rfl hq).imp_right .inr
  | close j q hc hq =>
    by_cases hk : k = j
    · subst hk
      cases MpscQueue.steps hq with
      | close => exact .inr (.inl (putQueue_queues_self ..))
    · exact .inl (s.putQueue_queues_of_ne q hk)
  | _ => exact .inl rfl

theorem Sealed.exchanged_step (hs : s.step a = some s') (h : s.Sealed) (k : Kind) :
    (s'.queues k).exchanged = (s.queues k).exchanged := by
  rcases h.step_queues hs k with heq | heq | ⟨b, hb, hq⟩
  · rw [heq]
  · rw [heq]
  · refine MpscQueue.step_exchanged hq fun p hp => ?_
    rw [hp] at hb
    cases hb

theorem Sealed.step (hs : s.step a = some s') (h : s.Sealed) : s'.Sealed := by
  refine ⟨h.shut.step hs, fun p k => ?_, ?_⟩
  · rcases h.step_queues hs k with heq | heq | ⟨b, hb, hq⟩
    · rw [heq]
      exact h.producers p k
    · rw [heq]
      exact h.producers p k
    · rw [MpscQueue.step_producers hq (.inl hb)]
      exact h.producers p k
  · rcases h.shut with hclosed | ⟨hrun, -⟩
    · exact .inl fun k => step_closed hs (hclosed k)
    · rcases h.quiet with hclosed | hidle
      · exact .inl fun k => step_closed hs (hclosed k)
      · refine .inr ?_
        cases steps hs with
        | publish p k val hp hrun' => cases hrun.symm.trans hrun'
        | givenUp p k val hp _ => cases (hidle p).symm.trans hp
        | loop p k val hp hrun' => cases hrun.symm.trans hrun'
        | loadClosed p k val q hp hq => cases (hidle p).symm.trans hp
        | exchange p k val q hp hq => cases (hidle p).symm.trans hp
        | store p k q hp hq => cases (hidle p).symm.trans hp
        | _ => exact hidle

/-- The consumer of a queue finds nothing, and has nothing in hand. -/
def Empty (s : ExecutionPipeline P S) (k : Kind) : Prop :=
  (s.queues k).next (s.queues k).head = none ∧ (s.queues k).consumer = .idle

/-- An empty queue stays empty. -/
theorem Sealed.empty_step (hs : s.step a = some s') (h : s.Sealed) {k : Kind} (hk : s.Empty k) : s'.Empty k := by
  obtain ⟨hnext, hidle⟩ := hk
  rcases h.step_queues hs k with heq | heq | ⟨b, hb, hq⟩
  · rw [Empty, heq]
    exact ⟨hnext, hidle⟩
  · rw [Empty, heq]
    exact ⟨hnext, hidle⟩
  · rw [Empty]
    generalize s'.queues k = q at hq
    cases MpscQueue.steps hq with
    | noNext n hc hn hnone => exact ⟨hnext, hidle⟩
    | loadNext n next hc hn hsome =>
      rw [MpscQueue.next, hn, Option.bind_some, hsome] at hnext
      cases hnext
    | advance next val link hc hn => cases hidle.symm.trans hc
    | delete old val hc => cases hidle.symm.trans hc
    | _ => cases hb

/-- `stop` has been called and has not returned. -/
def Caller.stopping : Caller → Bool
  | .closing _ => true
  | .joining => true
  | _ => false

/-- Nothing is left to dispatch. -/
structure Done (s : ExecutionPipeline P S) : Prop where
  empty : ∀ k, s.Empty k
  hand : s.hand = []
  toSend : s.toSend = []

/-- The dispatch thread goes on from a queue that it has found empty, and `stop` waits for it. -/
structure Ending (s : ExecutionPipeline P S) : Prop where
  tested : s.dispatcher = some (.testEmpty .trade) → s.Empty .report
  finished : s.dispatcher = some .finished → s.Done
  done : s.Done ∨ s.caller.stopping = true

theorem Done.step (hs : s.step a = some s') (hsealed : s.Sealed) (h : s.Done) : s'.Done := by
  have hhand := h.hand
  have hsend := h.toSend
  have hnothing : s'.hand = [] ∧ s'.toSend = [] := by
    simp only [ExecutionPipeline.hand, ExecutionPipeline.toSend] at hhand hsend ⊢
    cases steps hs with
    | test hd => split <;> exact ⟨rfl, rfl⟩
    | testEmpty k empty hd he =>
      split
      · cases k <;> exact ⟨rfl, rfl⟩
      · exact ⟨rfl, rfl⟩
    | loadNext k q hd hq =>
      dsimp only
      split
      · cases k <;> exact ⟨rfl, rfl⟩
      · exact ⟨rfl, rfl⟩
    | delete k old val q hd hc hq => cases (h.empty k).2.symm.trans hc
    | lookup report hd =>
      rw [hd] at hhand
      cases hhand
    | send session report hd => exact ⟨rfl, rfl⟩
    | spawn hc => exact ⟨rfl, rfl⟩
    | join hc hd => exact ⟨rfl, rfl⟩
    | _ => exact ⟨hhand, hsend⟩
  exact ⟨fun k => hsealed.empty_step hs (h.empty k), hnothing.1, hnothing.2⟩

theorem Ending.step (hs : s.step a = some s') (hok : s.Ok) (hsealed : s.Sealed) (h : s.Ending) : s'.Ending := by
  have hempty : ∀ {k : Kind}, s.Empty k → s'.Empty k := fun hk => hsealed.empty_step hs hk
  have hdone : s.Done → s'.Done := fun hd => hd.step hs hsealed
  have hsame : s'.dispatcher = s.dispatcher → s'.caller = s.caller → s'.Ending := by
    intro hd hc
    refine ⟨fun ht => hempty (h.tested (hd ▸ ht)), fun hf => hdone (h.finished (hd ▸ hf)), ?_⟩
    rw [hc]
    exact h.done.imp_left hdone
  have hmove : ∀ {d : Dispatcher S}, s'.dispatcher = some d → d ≠ .testEmpty .trade → d ≠ .finished →
      s'.caller = s.caller → s'.Ending := by
    intro d hd htest hfin hc
    refine ⟨fun ht => absurd (Option.some.inj (hd.symm.trans ht)) htest, fun hf => ?_, ?_⟩
    · exact absurd (Option.some.inj (hd.symm.trans hf)) hfin
    · rw [hc]
      exact h.done.imp_left hdone
  cases steps hs with
  | test hd =>
    refine hmove rfl ?_ ?_ rfl
    · split <;> rintro ⟨⟩
    · split <;> rintro ⟨⟩
  | testEmpty k empty hd he =>
    cases empty with
    | false => exact hmove rfl (by rintro ⟨⟩) (by rintro ⟨⟩) rfl
    | true =>
      have hk : s.Empty k := ⟨MpscQueue.next_of_empty he, hok.dispatching.consumer k (by rw [hd]; rintro ⟨⟩)⟩
      cases k with
      | report => exact ⟨fun _ => hempty hk, fun hf => by (cases hf), h.done.imp_left hdone⟩
      | trade =>
        refine ⟨fun ht => by (cases ht), fun _ => ⟨fun j => ?_, rfl, rfl⟩, h.done.imp_left hdone⟩
        cases j with
        | report => exact hempty (h.tested hd)
        | trade => exact hempty hk
  | loadNext k q hd hq =>
    refine hmove rfl ?_ ?_ rfl
    · split
      · cases k <;> rintro ⟨⟩
      · rintro ⟨⟩
    · split
      · cases k <;> rintro ⟨⟩
      · rintro ⟨⟩
  | delete k old val q hd hc hq => exact hmove rfl (by cases k <;> rintro ⟨⟩) (by cases k <;> rintro ⟨⟩) rfl
  | lookup report hd =>
    refine hmove rfl ?_ ?_ rfl
    · split <;> rintro ⟨⟩
    · split <;> rintro ⟨⟩
  | send session report hd => exact hmove rfl (by rintro ⟨⟩) (by rintro ⟨⟩) rfl
  | start hc hrun =>
    have hd : s.Done := h.done.resolve_right (by rw [hc]; rintro ⟨⟩)
    exact ⟨fun ht => hempty (h.tested ht), fun _ => hdone hd, .inl (hdone hd)⟩
  | spawn hc =>
    have hd : s.Done := h.done.resolve_right (by rw [hc]; rintro ⟨⟩)
    exact ⟨fun ht => by (cases ht), fun hf => by (cases hf), .inl (hdone hd)⟩
  | stop hc hrun => exact ⟨fun ht => hempty (h.tested ht), fun hf => hdone (h.finished hf), .inr rfl⟩
  | close k q hc hq =>
    exact ⟨fun ht => hempty (h.tested ht), fun hf => hdone (h.finished hf), .inr (by cases k <;> rfl)⟩
  | join hc hd => exact ⟨fun ht => by (cases ht), fun hf => by (cases hf), .inl (hdone (h.finished hd))⟩
  | _ => exact hsame rfl rfl

/-- What `stop` starts from and what then holds: it has been called while no publisher was in a call. -/
theorem sealed_of_stop (hok : s.Ok) (hrun : s.running = true) (hidle : ∀ p, s.publishers p = .idle)
    (hs : s.step .stop = some s') : s'.Sealed ∧ s'.Ending ∧ s'.queues = s.queues := by
  have hserving := hok.threads.serving hrun
  cases steps hs with
  | stopAgain hc hstopped => cases hrun.symm.trans hstopped
  | stop hc _ =>
    refine ⟨⟨.inr ⟨rfl, .inl rfl⟩, fun p k => ?_, .inr hidle⟩, ⟨fun ht => ?_, fun hf => ?_, .inr rfl⟩, rfl⟩
    · have hin := hok.inStep p k
      rw [hidle p] at hin
      exact (inStep_iff_of_ne (by rintro ⟨⟩)).1 hin
    · cases hserving _ ht
    · cases hserving _ hf

/-- `stop` is called on a running pipeline, for the first time or again, when no thread is in a call that publishes. Whenever
it has returned then, also after the pipeline has been started and stopped once more: the reports dispatched are exactly
those that had gone into the queue at the call of `stop`, each once and in that order; so are the trades taken out; and
every report of which a session was found has been sent to it. At the first call of `stop`, what has gone in is all that
each publisher was called with, in the order of its calls. -/
theorem stop_dispatches_published (stubs : Kind → MpscQueue.Addr) (before after : List (Action P S))
    (s s' : ExecutionPipeline P S) (hbefore : Machine.run step (init P S stubs) before = some s)
    (hrunning : s.running = true) (hidle : ∀ p, s.publishers p = .idle)
    (hafter : Machine.run step s (.stop :: after) = some s') (hreturned : s'.caller.stopping = false) :
    s'.dispatched.map Prod.fst = (s.queues .report).exchanged.map Prod.snd ∧
      (s'.queues .trade).dequeued = (s.queues .trade).exchanged.map Prod.snd ∧ s'.sent = s'.found ∧
      (Action.stop ∉ before → ∀ p k, s.entered p k = s.published p k) := by
  have hok := run_ok stubs before hbefore
  obtain ⟨s₁, hstop, hrest⟩ := Option.bind_eq_some_iff.1 hafter
  obtain ⟨hsealed, hending, hqueues⟩ := sealed_of_stop hok hrunning hidle hstop
  have hinv : (s'.Ok ∧ s'.Sealed ∧ s'.Ending) ∧ ∀ k, (s'.queues k).exchanged = (s.queues k).exchanged := by
    have hstep : ∀ (t : ExecutionPipeline P S) (a : Action P S) (t' : ExecutionPipeline P S), True → t.step a = some t' →
        (t.Ok ∧ t.Sealed ∧ t.Ending) ∧ (∀ k, (t.queues k).exchanged = (s.queues k).exchanged) →
        (t'.Ok ∧ t'.Sealed ∧ t'.Ending) ∧ ∀ k, (t'.queues k).exchanged = (s.queues k).exchanged := by
      rintro t a t' - hs ⟨⟨ho, hse, he⟩, hex⟩
      exact ⟨⟨ho.step hs, hse.step hs, he.step hs ho hse⟩, fun k => (hse.exchanged_step hs k).trans (hex k)⟩
    refine Machine.run_invariant hstep after _ s' (fun _ _ => trivial) hrest ⟨⟨hok.step hstop, hsealed, hending⟩, ?_⟩
    rw [hqueues]
    exact fun _ => rfl
  obtain ⟨⟨hok', hsealed', hending'⟩, hexchanged⟩ := hinv
  have hdone : s'.Done := hending'.done.resolve_right (by rw [hreturned]; rintro ⟨⟩)
  have hall : ∀ k, (s'.queues k).dequeued = (s.queues k).exchanged.map Prod.snd := by
    intro k
    obtain ⟨chain, hk⟩ := hok'.chained k
    have hquiet : ∀ p prev node, (s'.queues k).producers p ≠ .exchanged prev node := by
      intro p prev node hp
      cases (hsealed'.producers p k).symm.trans hp
    have hdrained := hk.drained hquiet (hdone.empty k).1
    rw [(hdone.empty k).2, hexchanged] at hdrained
    rw [hdrained]
    exact (List.append_nil _).symm
  refine ⟨?_, hall .trade, ?_, fun hfirst p k => ?_⟩
  · have htaken := hok'.dispatching.taken
    rw [hdone.hand, List.append_nil, hall .report] at htaken
    exact htaken.symm
  · have hsent := hok'.dispatching.sent
    rwa [hdone.toSend, List.append_nil] at hsent
  · obtain ⟨-, hserving⟩ := run_serving stubs before hfirst hbefore
    rw [← hserving.calls p k, due, hidle p, waiting_idle, List.append_nil]

/-- What it takes a publisher to get a value in. -/
def publishAll (p : Bool) (k : Kind) (val : k.Value) (node : MpscQueue.Addr) : List (Action Bool ℕ) :=
  [.publish p k val, .loop p, .loadClosed p, .alloc p node, .exchange p, .store p]

/-- Two threads publish two reports and a trade; only the client of the first report is connected. -/
def twoPublishers : List (Action Bool ℕ) :=
  [[.start, .spawn, .addSession 7 70], publishAll true .report { orderId := 1, clientId := 7 } 1,
    publishAll false .trade { tradeId := 1 } 1, publishAll false .report { orderId := 2, clientId := 9 } 2].flatten

/-- The dispatch thread does not begin before `stop` is called; then the pipeline is started again. -/
def stopAndRestart : List (Action Bool ℕ) :=
  [.close, .test, .testEmpty, .loadNext, .advance, .delete, .lookup, .send, .loadNext, .advance, .close, .delete, .test,
    .testEmpty, .loadNext, .advance, .delete, .lookup, .loadNext, .test, .testEmpty, .testEmpty, .join, .start, .spawn]

def Publisher.isIdle : Publisher → Bool
  | .idle => true
  | _ => false

theorem Publisher.eq_idle {pc : Publisher} (h : pc.isIdle = true) : pc = .idle := by
  cases pc with
  | idle => rfl
  | _ => cases h

theorem stop_dispatches_published_restarted : ∃ s s',
    Machine.run step (init Bool ℕ fun _ => 0) twoPublishers = some s ∧
      Machine.run step s (.stop :: stopAndRestart) = some s' ∧ s'.running = true ∧ s'.sent.map Prod.fst = [70] ∧
      s'.dispatched.map Prod.fst = (s.queues .report).exchanged.map Prod.snd ∧
      (s'.queues .trade).dequeued = (s.queues .trade).exchanged.map Prod.snd ∧ s'.sent = s'.found ∧
      ∀ p k, s.entered p k = s.published p k := by
  have hrun : (Machine.run step (init Bool ℕ fun _ => 0) twoPublishers).any fun s =>
      s.running = true ∧ (s.publishers true).isIdle = true ∧ (s.publishers false).isIdle = true ∧
        (Machine.run step s (.stop :: stopAndRestart)).any fun s' =>
          s'.caller.stopping = false ∧ s'.running = true ∧ s'.sent.map Prod.fst = [70] := by decide +kernel
  obtain ⟨s, hs, hprop⟩ := (Option.any_eq_true _ _).1 hrun
  obtain ⟨hrunning, htrue, hfalse, hrest⟩ := of_decide_eq_true hprop
  obtain ⟨s', hs', hprop'⟩ := (Option.any_eq_true _ _).1 hrest
  obtain ⟨hreturned, hagain, hsent⟩ := of_decide_eq_true hprop'
  have hidle : ∀ p, s.publishers p = .idle := by
    intro p
    cases p with
    | true => exact Publisher.eq_idle htrue
    | false => exact Publisher.eq_idle hfalse
  have hfirst : Action.stop ∉ twoPublishers := by simp [twoPublishers, publishAll]
  obtain ⟨hdispatched, htrades, hfound, hentered⟩ :=
    stop_dispatches_published (fun _ => 0) twoPublishers stopAndRestart s s' hs hrunning hidle hs' hreturned
  exact ⟨s, s', hs, hs', hagain, hsent, hdispatched, htrades, hfound, hentered hfirst⟩

/-! ## Started again -/

/-- The steps of one producer leave the others where they are. -/
theorem putQueue_producers_of_ne {j : Kind} {q : MpscQueue P j.Value} {b : MpscQueue.Action P j.Value} {p r : P}
    (hq : (s.queues j).step b = some q) (hb : (∃ val, b = .loadClosed r val) ∨ (∃ node, b = .alloc r node) ∨
      b = .exchange r ∨ b = .store r) (hp : p ≠ r) (k : Kind) :
    ((s.putQueue j q).queues k).producers p = (s.queues k).producers p := by
  by_cases hk : k = j
  · subst hk
    rw [putQueue_queues_self]
    rcases hb with ⟨val, rfl⟩ | ⟨node, rfl⟩ | rfl | rfl
    · cases MpscQueue.steps hq with
      | closed => rfl
      | loadClosed => exact Function.update_of_ne hp ..
    · cases MpscQueue.steps hq with
      | alloc => exact Function.update_of_ne hp ..
    · cases MpscQueue.steps hq with
      | exchange => exact Function.update_of_ne hp ..
    · cases MpscQueue.steps hq with
      | store => exact Function.update_of_ne hp ..
  · rw [s.putQueue_queues_of_ne q hk]

/-- A publisher goes round its loop: the queue is closed, and `running_` stays set. -/
structure Spinning (p : P) (k : Kind) (val : k.Value) (s : ExecutionPipeline P S) : Prop where
  running : s.running = true
  closed : (s.queues k).closed = true
  call : s.publishers p = .loop k val ∨ s.publishers p = .enqueue k val ∧ (s.queues k).producers p = .idle

theorem Spinning.step {p : P} {k : Kind} {val : k.Value} (hs : s.step a = some s') (ha : a ≠ .stop) (hok : s.Ok)
    (h : s.Spinning p k val) : s'.Spinning p k val := by
  have hbusy : s.publishers p ≠ .idle := by
    rcases h.call with hp | ⟨hp, -⟩ <;> rw [hp] <;> rintro ⟨⟩
  have hkeep : s'.publishers p = s.publishers p → (s'.queues k).producers p = (s.queues k).producers p →
      s'.Spinning p k val := by
    intro hpub hprod
    refine ⟨step_running hs ha h.running, step_closed hs h.closed, ?_⟩
    rw [hpub, hprod]
    exact h.call
  cases steps hs with
  | publish r j v hr hrun =>
    have hne : p ≠ r := by
      rintro rfl
      exact hbusy hr
    exact hkeep (Function.update_of_ne hne ..) rfl
  | givenUp r j v hr hrun => cases h.running.symm.trans hrun
  | loop r j v hr hrun =>
    by_cases hne : p = r
    · subst hne
      rcases h.call with hp | ⟨hp, -⟩
      · cases hp.symm.trans hr
        have hin := hok.inStep p k
        rw [hp] at hin
        exact ⟨hrun, h.closed, .inr ⟨Function.update_self .., (inStep_iff_of_ne (by rintro ⟨⟩)).1 hin⟩⟩
      · cases hp.symm.trans hr
    · exact hkeep (Function.update_of_ne hne ..) rfl
  | loadClosed r j v q hr hq =>
    by_cases hne : p = r
    · subst hne
      rcases h.call with hp | ⟨hp, -⟩
      · cases hp.symm.trans hr
      · cases hp.symm.trans hr
        refine ⟨h.running, step_closed hs h.closed, .inl ?_⟩
        rw [h.closed]
        exact Function.update_self ..
    · exact hkeep (Function.update_of_ne hne ..) (putQueue_producers_of_ne hq (.inl ⟨v, rfl⟩) hne k)
  | alloc r node j v q hr hq =>
    by_cases hne : p = r
    · subst hne
      rcases h.call with hp | ⟨hp, hidle⟩
      · cases hp.symm.trans hr
      · cases hp.symm.trans hr
        cases MpscQueue.steps hq with
        | alloc p node val' hchecked hn => cases hidle.symm.trans hchecked
    · exact hkeep rfl (putQueue_producers_of_ne hq (.inr (.inl ⟨node, rfl⟩)) hne k)
  | exchange r j v q hr hq =>
    by_cases hne : p = r
    · subst hne
      rcases h.call with hp | ⟨hp, hidle⟩
      · cases hp.symm.trans hr
      · cases hp.symm.trans hr
        cases MpscQueue.steps hq with
        | exchange p val' node halloc => cases hidle.symm.trans halloc
    · exact hkeep (Function.update_of_ne hne ..) (putQueue_producers_of_ne hq (.inr (.inr (.inl rfl))) hne k)
  | store r j q hr hq =>
    have hne : p ≠ r := by
      rintro rfl
      rcases h.call with hp | ⟨hp, -⟩ <;> cases hp.symm.trans hr
    exact hkeep (Function.update_of_ne hne ..) (putQueue_producers_of_ne hq (.inr (.inr (.inr rfl))) hne k)
  | loadNext j q hd hq => exact hkeep rfl (congrFun (putQueue_producers (MpscQueue.step_producers hq (.inl rfl)) k) p)
  | advance j q hd hq => exact hkeep rfl (congrFun (putQueue_producers (MpscQueue.step_producers hq (.inl rfl)) k) p)
  | delete j old v q hd hc hq =>
    exact hkeep rfl (congrFun (putQueue_producers (MpscQueue.step_producers hq (.inl rfl)) k) p)
  | close j q hc hq => exact hkeep rfl (congrFun (putQueue_producers (MpscQueue.step_producers hq (.inr rfl)) k) p)
  | stop hc hrun => exact absurd rfl ha
  | _ => exact hkeep rfl rfl

/-- The queue is closed, and the publisher is not in it. -/
structure Barred (p : P) (k : Kind) (s : ExecutionPipeline P S) : Prop where
  closed : (s.queues k).closed = true
  outside : (s.queues k).producers p = .idle

/-- The publisher gets no further than the check of `closed_`, so nothing of it goes in. -/
theorem Barred.step {p : P} {k : Kind} (hs : s.step a = some s') (h : s.Barred p k) :
    s'.Barred p k ∧ s'.entered p k = s.entered p k := by
  have hclosed := step_closed hs h.closed
  unfold entered
  rcases ExecutionPipeline.step_queues hs k with heq | ⟨b, hb⟩
  · exact ⟨⟨hclosed, by rw [heq]; exact h.outside⟩, by rw [heq]⟩
  · have hmoves : (s'.queues k).producers p = .idle ∧
        ((s'.queues k).exchanged.filter fun q => q.1 = p) = (s.queues k).exchanged.filter fun q => q.1 = p := by
      generalize s'.queues k = q at hb
      have hother : ∀ {r : P} {pc pc' : MpscQueue.Producer k.Value}, (s.queues k).producers r = pc → pc ≠ .idle →
          Function.update (s.queues k).producers r pc' p = .idle ∧ r ≠ p := by
        intro r pc pc' hr hpc
        have hne : r ≠ p := by
          rintro rfl
          exact hpc (hr.symm.trans h.outside)
        exact ⟨(Function.update_of_ne hne.symm ..).trans h.outside, hne⟩
      cases MpscQueue.steps hb with
      | loadClosed r v hr hopen => cases h.closed.symm.trans hopen
      | alloc r node v hr hn => exact ⟨(hother hr (by rintro ⟨⟩)).1, rfl⟩
      | exchange r v node hr =>
        obtain ⟨hidle, hne⟩ := hother hr (by rintro ⟨⟩)
        exact ⟨hidle, by simp [MpscQueue.moveTo, hne]⟩
      | store r prev node n hr hn => exact ⟨(hother hr (by rintro ⟨⟩)).1, rfl⟩
      | _ => exact ⟨h.outside, rfl⟩
    exact ⟨⟨hclosed, hmoves.1⟩, by rw [hmoves.2]⟩

theorem run_shut {actions : List (Action P S)} (hok : s.Ok) (hrunning : s.running = true)
    (hrun : Machine.run step s (.stop :: actions) = some s') : s'.Ok ∧ s'.Shut := by
  obtain ⟨s₁, hstop, hrest⟩ := Option.bind_eq_some_iff.1 hrun
  have hstep : ∀ (t : ExecutionPipeline P S) (a : Action P S) (t' : ExecutionPipeline P S), True → t.step a = some t' →
      t.Ok ∧ t.Shut → t'.Ok ∧ t'.Shut := fun t a t' _ hs h => ⟨h.1.step hs, h.2.step hs⟩
  refine Machine.run_invariant hstep actions _ s' (fun _ _ => trivial) hrest ⟨hok.step hstop, ?_⟩
  cases steps hstop with
  | stopAgain hc hstopped => cases hrunning.symm.trans hstopped
  | stop hc _ => exact .inr ⟨rfl, .inl rfl⟩

/-- A pipeline that has been stopped and started again takes nothing: whatever the other threads do, a call that publishes
goes round its loop until `stop` is called again, and what it was called with never goes in, before that or after. -/
theorem restarted_takes_nothing (stubs : Kind → MpscQueue.Addr) (first second third : List (Action P S))
    (s₁ s₂ s₃ : ExecutionPipeline P S) (p : P) (k : Kind) (val : k.Value)
    (hfirst : Machine.run step (init P S stubs) first = some s₁) (hrunning : s₁.running = true)
    (hsecond : Machine.run step s₁ (.stop :: second) = some s₂) (hagain : s₂.running = true)
    (hthird : Machine.run step s₂ (.publish p k val :: third) = some s₃) :
    (Action.stop ∉ third → s₃.publishers p = .loop k val ∨ s₃.publishers p = .enqueue k val) ∧
      s₃.entered p k = s₂.entered p k := by
  obtain ⟨hok, hshut⟩ := run_shut (run_ok stubs first hfirst) hrunning hsecond
  have hclosed : (s₂.queues k).closed = true := by
    rcases hshut with hclosed | ⟨hrun, -⟩
    · exact hclosed k
    · cases hagain.symm.trans hrun
  obtain ⟨s, hpublish, hrest⟩ := Option.bind_eq_some_iff.1 hthird
  have hspinning : s.Spinning p k val ∧ s.Barred p k ∧ s.entered p k = s₂.entered p k := by
    cases steps hpublish with
    | refused _ _ _ hp hrun => cases hagain.symm.trans hrun
    | publish _ _ _ hp hrun =>
      have hin := hok.inStep p k
      rw [hp] at hin
      have hidle := (inStep_iff_of_ne (by rintro ⟨⟩)).1 hin
      exact ⟨⟨hagain, hclosed, .inl (Function.update_self ..)⟩, ⟨hclosed, hidle⟩, rfl⟩
  obtain ⟨hspin, hbarred, hsame⟩ := hspinning
  constructor
  · intro hstop
    have hstep : ∀ (t : ExecutionPipeline P S) (a : Action P S) (t' : ExecutionPipeline P S), a ≠ .stop →
        t.step a = some t' → t.Ok ∧ t.Spinning p k val → t'.Ok ∧ t'.Spinning p k val :=
      fun t a t' ha hs h => ⟨h.1.step hs, h.2.step hs ha h.1⟩
    obtain ⟨-, hspin'⟩ := Machine.run_invariant hstep third s s₃ (fun a ha heq => hstop (heq ▸ ha)) hrest
      ⟨hok.step hpublish, hspin⟩
    exact hspin'.call.imp_right And.left
  · have hstep : ∀ (t : ExecutionPipeline P S) (a : Action P S) (t' : ExecutionPipeline P S), True → t.step a = some t' →
        t.Barred p k ∧ t.entered p k = s₂.entered p k → t'.Barred p k ∧ t'.entered p k = s₂.entered p k := by
      rintro t a t' - hs ⟨hb, he⟩
      obtain ⟨hb', he'⟩ := hb.step hs
      exact ⟨hb', he'.trans he⟩
    exact (Machine.run_invariant hstep third s s₃ (fun _ _ => trivial) hrest ⟨hbarred, hsame⟩).2

theorem restarted_takes_nothing_late : ∃ s₁ s₂ s₃,
    Machine.run step (init Bool ℕ fun _ => 0) twoPublishers = some s₁ ∧
      Machine.run step s₁ (.stop :: stopAndRestart) = some s₂ ∧
      Machine.run step s₂ (.publish true .report { orderId := 3, clientId := 7 } ::
        [.loop true, .loadClosed true, .test, .loadNext, .loop true]) = some s₃ ∧
      (s₃.publishers true = .loop .report { orderId := 3, clientId := 7 } ∨
        s₃.publishers true = .enqueue .report { orderId := 3, clientId := 7 }) ∧
      s₃.entered true .report = s₂.entered true .report := by
  have hrun : (Machine.run step (init Bool ℕ fun _ => 0) twoPublishers).any fun s₁ => s₁.running = true ∧
      (Machine.run step s₁ (.stop :: stopAndRestart)).any fun s₂ => s₂.running = true ∧
        (Machine.run step s₂ (.publish true .report { orderId := 3, clientId := 7 } ::
          [.loop true, .loadClosed true, .test, .loadNext, .loop true])).any fun _ => true := by decide +kernel
  obtain ⟨s₁, hs₁, hprop⟩ := (Option.any_eq_true _ _).1 hrun
  obtain ⟨hrunning, hrest⟩ := of_decide_eq_true hprop
  obtain ⟨s₂, hs₂, hprop⟩ := (Option.any_eq_true _ _).1 hrest
  obtain ⟨hagain, hrest⟩ := of_decide_eq_true hprop
  obtain ⟨s₃, hs₃, -⟩ := (Option.any_eq_true _ _).1 hrest
  obtain ⟨hspins, hentered⟩ := restarted_takes_nothing (fun _ => 0) twoPublishers stopAndRestart _ s₁ s₂ s₃ true .report _
    hs₁ hrunning hs₂ hagain hs₃
  exact ⟨s₁, s₂, s₃, hs₁, hs₂, hs₃, hspins (by simp), hentered⟩

end ExecutionPipeline

end StockExchange
