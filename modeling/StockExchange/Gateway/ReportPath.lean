/-
The way of the reports from the threads that publish them to the clients: the execution pipeline, and for every session
its write side with the client at the other end. The dispatch thread posts each report to the session that it has found;
a session also posts the rejections of its own orders. Whatever the interleaving, a client receives the reports dispatched
to its session in the order in which they went into `report_queue_`, each once, and between them the rejections.
-/
import StockExchange.Gateway.DemoClient
import StockExchange.Pipeline.Dispatch

universe u v

namespace StockExchange

open BinarySerializer

/-- Only `send` adds to what has been sent. -/
theorem ExecutionPipeline.step_sent {P : Type u} {S : Type v} [DecidableEq P] {s s' : ExecutionPipeline P S}
    {a : ExecutionPipeline.Action P S} (hs : s.step a = some s') :
    (∃ session report, a = .send ∧ s.dispatcher = some (.send session report) ∧
      s'.sent = s.sent ++ [(session, report)]) ∨
      (a ≠ .send ∧ s'.sent = s.sent) := by
  cases steps hs with
  | send session report hd => exact .inl ⟨session, report, rfl, hd, rfl⟩
  | _ => exact .inr ⟨by rintro ⟨⟩, rfl⟩

/-- The report of a post. -/
def WriteAction.posted : WriteAction → List ExecutionReport
  | .post report => [report]
  | _ => []

def LinkAction.posted : LinkAction → List ExecutionReport
  | .session a => a.posted
  | _ => []

/-- Only a post adds to the calls. -/
theorem Writer.step_calls {s s' : Writer} {a : WriteAction} (hs : s.step a = some s') : s'.calls = s.calls ++ a.posted := by
  have hnext : ∀ t : Writer, t.writeNext.calls = t.calls := by
    intro t
    unfold writeNext
    split
    · rfl
    · rfl
  cases a with
  | post report =>
    cases hs
    rfl
  | handle net =>
    simp only [step] at hs
    split at hs
    next => cases hs
    next =>
      cases hs
      split
      · exact (hnext _).trans (List.append_nil _).symm
      · exact (List.append_nil _).symm
  | transfer i n =>
    simp only [step] at hs
    split at hs
    next => cases hs
    next =>
      split at hs
      next =>
        cases hs
        exact (List.append_nil _).symm
      next => cases hs
  | complete i =>
    simp only [step] at hs
    split at hs
    next => cases hs
    next =>
      split at hs
      next =>
        cases hs
        split
        · exact (hnext _).trans (List.append_nil _).symm
        · exact (List.append_nil _).symm
      next => cases hs
  | fail i =>
    simp only [step] at hs
    split at hs
    next => cases hs
    next =>
      cases hs
      exact (List.append_nil _).symm

theorem ReportLink.step_calls {s s' : ReportLink} {a : LinkAction} (hs : s.step a = some s') :
    s'.writer.calls = s.writer.calls ++ a.posted := by
  cases a with
  | session action =>
    obtain ⟨writer, hwriter, rfl⟩ := Option.map_eq_some_iff.1 hs
    exact Writer.step_calls hwriter
  | disconnect =>
    cases hs
    exact (List.append_nil _).symm
  | _ =>
    obtain ⟨client, -, rfl⟩ := Option.map_eq_some_iff.1 hs
    exact (List.append_nil _).symm

structure ReportPath (P : Type u) (S : Type v) where
  pipeline : ExecutionPipeline P S
  links : S → ReportLink := fun _ => {}
  /-- The reports that a session has posted itself. Nothing reads it. -/
  rejected : S → List ExecutionReport := fun _ => []

namespace ReportPath

inductive Action (P : Type u) (S : Type v)
  | pipeline (a : ExecutionPipeline.Action P S)
  /-- A step of the session or the client of a connection; a post is that of a rejection. -/
  | link (session : S) (a : LinkAction)

variable {P : Type u} {S : Type v} [DecidableEq P] [DecidableEq S]

def putLink (s : ReportPath P S) (session : S) (link : ReportLink) : ReportPath P S :=
  { s with links := Function.update s.links session link }

/-- What the dispatch thread is about to send is posted to the session. -/
def post (s : ReportPath P S) (session : S) (report : ExecutionReport) : Option (ReportPath P S) :=
  ((s.links session).step (.session (.post report))).map (s.putLink session)

def step (s : ReportPath P S) : Action P S → Option (ReportPath P S)
  | .pipeline a =>
    (s.pipeline.step a).bind fun pipeline =>
      match a, s.pipeline.dispatcher with
      | .send, some (.send session report) => { s with pipeline := pipeline }.post session report
      | _, _ => some { s with pipeline := pipeline }
  | .link session a =>
    ((s.links session).step a).map fun link =>
      { s.putLink session link with
        rejected := Function.update s.rejected session (s.rejected session ++ a.posted) }

/-- The constructor of the pipeline; the connections come up later. -/
def start (P : Type u) (S : Type v) (stubs : ExecutionPipeline.Kind → MpscQueue.Addr) : ReportPath P S where
  pipeline := .init P S stubs

/-- The reports sent to a session. -/
def sentTo (session : S) (sent : List (S × ExecutionReport)) : List ExecutionReport :=
  (sent.filter fun q => q.1 = session).map Prod.snd

variable {s s' : ReportPath P S}

/-- Everything a step can do to the links. -/
theorem step_cases {a : Action P S} (hs : s.step a = some s') :
    (∃ b pipeline, s.pipeline.step b = some pipeline ∧ pipeline.sent = s.pipeline.sent ∧
        s' = { s with pipeline := pipeline }) ∨
      (∃ b pipeline session report link, s.pipeline.step b = some pipeline ∧
        pipeline.sent = s.pipeline.sent ++ [(session, report)] ∧
        (s.links session).step (.session (.post report)) = some link ∧
        s' = { s with pipeline := pipeline }.putLink session link) ∨
      ∃ session b link, (s.links session).step b = some link ∧
        s' = { s.putLink session link with
          rejected := Function.update s.rejected session (s.rejected session ++ b.posted) } := by
  cases a with
  | pipeline b =>
    obtain ⟨pipeline, hpipeline, hs⟩ := Option.bind_eq_some_iff.1 hs
    rcases ExecutionPipeline.step_sent hpipeline with ⟨session, report, rfl, hd, hsent⟩ | ⟨hb, hsent⟩
    · simp only [hd] at hs
      obtain ⟨link, hlink, rfl⟩ := Option.map_eq_some_iff.1 hs
      exact .inr (.inl ⟨_, pipeline, session, report, link, hpipeline, hsent, hlink, rfl⟩)
    · split at hs
      next => exact absurd rfl hb
      next =>
        cases hs
        exact .inl ⟨_, pipeline, hpipeline, hsent, rfl⟩
  | link session b =>
    obtain ⟨link, hlink, rfl⟩ := Option.map_eq_some_iff.1 hs
    exact .inr (.inr ⟨session, b, link, hlink, rfl⟩)

/-- What has been posted to a session: the reports sent to it and its own rejections, merged in some way. -/
def Merged (calls sent rejected : List ExecutionReport) : Prop :=
  ∃ posts : List (ExecutionReport × Bool), calls = posts.map Prod.fst ∧
    (posts.filter fun q => q.2).map Prod.fst = sent ∧ (posts.filter fun q => !q.2).map Prod.fst = rejected

theorem Merged.sent {calls sent rejected : List ExecutionReport} (h : Merged calls sent rejected)
    (report : ExecutionReport) : Merged (calls ++ [report]) (sent ++ [report]) rejected := by
  obtain ⟨posts, rfl, rfl, rfl⟩ := h
  exact ⟨posts ++ [(report, true)], by simp, by simp, by simp⟩

theorem Merged.rejected {calls sent rejected : List ExecutionReport} (h : Merged calls sent rejected)
    (reports : List ExecutionReport) : Merged (calls ++ reports) sent (rejected ++ reports) := by
  obtain ⟨posts, rfl, rfl, rfl⟩ := h
  refine ⟨posts ++ reports.map fun r => (r, false), ?_, ?_, ?_⟩
  · simp [Function.comp_def]
  · simp [List.filter_map]
  · simp [List.filter_map, Function.comp_def]

theorem sentTo_snoc_self (session : S) (sent : List (S × ExecutionReport)) (report : ExecutionReport) :
    sentTo session (sent ++ [(session, report)]) = sentTo session sent ++ [report] := by
  simp [sentTo]

theorem sentTo_snoc_of_ne {session c : S} (sent : List (S × ExecutionReport)) (report : ExecutionReport)
    (h : c ≠ session) : sentTo c (sent ++ [(session, report)]) = sentTo c sent := by
  simp [sentTo, Ne.symm h]

structure Ok (s : ReportPath P S) : Prop where
  pipeline : s.pipeline.Ok
  links : ∀ session, (s.links session).Ok
  merged : ∀ session, Merged (s.links session).writer.calls (sentTo session s.pipeline.sent) (s.rejected session)

theorem Ok.step {a : Action P S} (hs : s.step a = some s') (h : s.Ok) : s'.Ok := by
  have hlinks : ∀ {session : S} {b : LinkAction} {link : ReportLink}, (s.links session).step b = some link →
      ∀ c, (Function.update s.links session link c).Ok := by
    intro session b link hlink
    exact (Function.forall_update_iff s.links (p := fun _ l => l.Ok)).2
      ⟨(h.links session).step hlink, fun c _ => h.links c⟩
  rcases step_cases hs with ⟨b, pipeline, hpipeline, hsent, rfl⟩ |
    ⟨b, pipeline, session, report, link, hpipeline, hsent, hlink, rfl⟩ | ⟨session, b, link, hlink, rfl⟩
  · refine ⟨h.pipeline.step hpipeline, h.links, fun session => ?_⟩
    show Merged _ (sentTo session pipeline.sent) _
    rw [hsent]
    exact h.merged session
  · refine ⟨h.pipeline.step hpipeline, hlinks hlink, fun c => ?_⟩
    show Merged (Function.update s.links session link c).writer.calls (sentTo c pipeline.sent) (s.rejected c)
    rw [hsent]
    by_cases hc : c = session
    · subst hc
      rw [Function.update_self, ReportLink.step_calls hlink, sentTo_snoc_self]
      exact (h.merged c).sent report
    · rw [Function.update_of_ne hc, sentTo_snoc_of_ne _ _ hc]
      exact h.merged c
  · refine ⟨h.pipeline, hlinks hlink, fun c => ?_⟩
    show Merged (Function.update s.links session link c).writer.calls (sentTo c s.pipeline.sent)
      (Function.update s.rejected session (s.rejected session ++ b.posted) c)
    by_cases hc : c = session
    · subst hc
      rw [Function.update_self, Function.update_self, ReportLink.step_calls hlink]
      exact (h.merged c).rejected b.posted
    · rw [Function.update_of_ne hc, Function.update_of_ne hc]
      exact h.merged c

/-- The run lemma. -/
theorem run_ok (stubs : ExecutionPipeline.Kind → MpscQueue.Addr) (actions : List (Action P S))
    (hrun : Machine.run step (start P S stubs) actions = some s) : s.Ok := by
  have hstep : ∀ (s : ReportPath P S) (a : Action P S) (s' : ReportPath P S), True → s.step a = some s' → s.Ok →
      s'.Ok := fun s a s' _ hs h => h.step hs
  refine Machine.run_invariant hstep actions _ s (fun _ _ => trivial) hrun ⟨ExecutionPipeline.init_ok stubs, ?_, ?_⟩
  · exact fun _ => ReportLink.init_ok
  · exact fun _ => ⟨[], rfl, rfl, rfl⟩

theorem sentTo_mono {session : S} {sent found : List (S × ExecutionReport)} (h : sent <+: found) :
    sentTo session sent <+: sentTo session found := (h.filter _).map _

/-- In every interleaving: what the client of a session has received is, each once and in this order, the first of the
reports for which the dispatch thread has found that session, in the order of `report_queue_`, and between them the first
of the session's own rejections; and once nothing is under way it has received all of them. -/
theorem received_in_order (stubs : ExecutionPipeline.Kind → MpscQueue.Addr) (actions : List (Action P S))
    (s : ReportPath P S) (hrun : Machine.run step (start P S stubs) actions = some s) (session : S) :
    s.pipeline.dispatched.map Prod.fst <+: (s.pipeline.queues .report).exchanged.map Prod.snd ∧
      ∃ posts : List (ExecutionReport × Bool),
        List.Forall₂ (fun q net => ∃ old, net = reportToNet old q.1) posts (s.links session).client.reports ∧
        (posts.filter fun q => q.2).map Prod.fst <+: sentTo session s.pipeline.found ∧
        (posts.filter fun q => !q.2).map Prod.fst <+: s.rejected session ∧
        (s.pipeline.toSend = [] → (s.links session).writer.posted = [] → (s.links session).writer.writeQueue = [] →
          (s.links session).client.taken = (s.links session).writer.wire.length →
          (s.links session).client.phase = .header [] →
            (posts.filter fun q => q.2).map Prod.fst = sentTo session s.pipeline.found ∧
              (posts.filter fun q => !q.2).map Prod.fst = s.rejected session) := by
  have h := run_ok stubs actions hrun
  have hlink := h.links session
  obtain ⟨posts, hcalls, hsent, hrejected⟩ := h.merged session
  have hfound : sentTo session s.pipeline.sent <+: sentTo session s.pipeline.found := by
    refine sentTo_mono ?_
    rw [← h.pipeline.dispatching.sent]
    exact List.prefix_append ..
  have hreceived := hlink.received
  rw [hcalls, ← List.map_take, List.forall₂_map_left_iff] at hreceived
  have hfirst : posts.take (s.links session).client.reports.length <+: posts := List.take_prefix ..
  constructor
  · refine List.IsPrefix.trans ?_ (h.pipeline.dequeued_prefix .report)
    rw [h.pipeline.dispatching.taken]
    exact List.prefix_append ..
  · refine ⟨posts.take (s.links session).client.reports.length, hreceived, ?_, ?_, ?_⟩
    · refine List.IsPrefix.trans ?_ hfound
      rw [← hsent]
      exact (hfirst.filter _).map _
    · rw [← hrejected]
      exact (hfirst.filter _).map _
    · intro hnone hposted hqueue htaken hphase
      have hall := hlink.all_received hposted hqueue htaken hphase
      rw [hcalls, List.length_map] at hall
      rw [hall, List.take_length, hsent, hrejected, ← h.pipeline.dispatching.sent, hnone, List.append_nil]
      exact ⟨rfl, rfl⟩

/-- A rejection is posted while the report of another order is on its way; the client has read the first of the two. -/
def reportAndRejection : List (Action Unit ℕ) :=
  let net : NetExecutionReport := ⟨0, .replicate 8 0, 0, 0, 0, 0, 0, 0, 0, 0, .replicate 32 0⟩
  [.pipeline .start, .pipeline .spawn, .pipeline (.addSession 7 70),
    .pipeline (.publish () .report { orderId := 1, clientId := 7 }), .pipeline (.loop ()), .pipeline (.loadClosed ()),
    .pipeline (.alloc () 1), .pipeline (.exchange ()), .pipeline (.store ()), .pipeline .test, .pipeline .loadNext,
    .pipeline .advance, .link 70 (.session (.post { orderId := 2, clientId := 7 })), .pipeline .delete, .pipeline .lookup,
    .pipeline .send, .link 70 (.session (.handle net)), .link 70 (.session (.transfer 0 90)), .link 70 .test,
    .link 70 (.read 4), .link 70 .finish, .link 70 (.session (.handle net)), .link 70 (.read 86), .link 70 .finish]

theorem received_in_order_rejection : ∃ s, Machine.run step (start Unit ℕ fun _ => 0) reportAndRejection = some s ∧
    (s.links 70).client.reports.length = 1 ∧ (s.rejected 70).length = 1 ∧
    ∃ posts : List (ExecutionReport × Bool),
      List.Forall₂ (fun q net => ∃ old, net = reportToNet old q.1) posts (s.links 70).client.reports ∧
      (posts.filter fun q => q.2).map Prod.fst <+: sentTo 70 s.pipeline.found ∧
      (posts.filter fun q => !q.2).map Prod.fst <+: s.rejected 70 := by
  have hrun : (Machine.run step (start Unit ℕ fun _ => 0) reportAndRejection).any fun s =>
      (s.links 70).client.reports.length = 1 ∧ (s.rejected 70).length = 1 := by decide +kernel
  obtain ⟨s, hs, hprop⟩ := (Option.any_eq_true _ _).1 hrun
  obtain ⟨hreports, hrejected⟩ := of_decide_eq_true hprop
  obtain ⟨-, posts, hreceived, hfound, hown, -⟩ := received_in_order (fun _ => 0) reportAndRejection s hs 70
  exact ⟨s, hs, hreports, hrejected, posts, hreceived, hfound, hown⟩

end ReportPath

end StockExchange
