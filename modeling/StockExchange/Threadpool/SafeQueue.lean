/-
`SafeQueue` (`threadpool/safe_queue.hpp`): a bounded queue behind a mutex, with one condition variable for consumers and
one for producers. What a thread does between taking the mutex and giving it back, by a return or by going to sleep, is one
step; a thread that wakes up takes the mutex anew and tests the condition of its loop again. `close` sets the flag under
the mutex and notifies after it, in two further steps.
-/
import StockExchange.Lib.Condvar
import StockExchange.Lib.Machine

universe u v

namespace StockExchange

namespace SafeQueue

/-- Where a thread stands. -/
inductive Point (T : Type v)
  | idle
  /-- In `enqueue`: asleep on `cond_push_`, or about to take the mutex. -/
  | enqueue (item : T)
  | enqueued (ok : Bool)
  /-- In `dequeue`: asleep on `cond_pop_`, or about to take the mutex. -/
  | dequeue
  | dequeued (item : Option T)
  | close
  /-- In `close`, with `shutdown_` set by this thread. -/
  | notifyPop
  | notifyPush
  | closed
  deriving DecidableEq

/-- The thread is outside of the calls. -/
def Point.free {T : Type v} : Point T → Bool
  | .idle => true
  | .enqueued _ => true
  | .dequeued _ => true
  | .closed => true
  | _ => false

inductive Action (Tid : Type u) (T : Type v)
  | callEnqueue (t : Tid) (item : T)
  | callDequeue (t : Tid)
  | callClose (t : Tid)
  /-- A thread in `enqueue` takes the mutex; a notification at the end picks a thread. -/
  | enqueue (t : Tid) (pick : Option Tid)
  | dequeue (t : Tid) (pick : Option Tid)
  | close (t : Tid)
  | notifyPop (t : Tid)
  | notifyPush (t : Tid)
  /-- A consumer or a producer wakes for no reason. -/
  | wakePop (t : Tid)
  | wakePush (t : Tid)

/-- The thread that takes the step, or that wakes up. -/
def Action.thread {Tid : Type u} {T : Type v} : Action Tid T → Tid
  | .callEnqueue t _ => t
  | .callDequeue t => t
  | .callClose t => t
  | .enqueue t _ => t
  | .dequeue t _ => t
  | .close t => t
  | .notifyPop t => t
  | .notifyPush t => t
  | .wakePop t => t
  | .wakePush t => t

/-- The call that a thread makes, with where it stands then. -/
def Action.call {Tid : Type u} {T : Type v} : Action Tid T → Option (Tid × Point T)
  | .callEnqueue t item => some (t, .enqueue item)
  | .callDequeue t => some (t, .dequeue)
  | .callClose t => some (t, .close)
  | _ => none

/-- The step is of a thread that may put an item in or take one out. -/
def Action.handles {Tid : Type u} {T : Type v} : Action Tid T → Bool
  | .enqueue .. => true
  | .dequeue .. => true
  | _ => false

/-- The step is of a thread that is in a call and awake. -/
def Action.continues {Tid : Type u} {T : Type v} : Action Tid T → Bool
  | .enqueue .. => true
  | .dequeue .. => true
  | .close _ => true
  | .notifyPop _ => true
  | .notifyPush _ => true
  | _ => false

end SafeQueue

open SafeQueue

structure SafeQueue (Tid : Type u) (T : Type v) where
  maxCapacity : ℕ
  queue : List T := []
  shutdown : Bool := false
  condPop : Condvar Tid := {}
  condPush : Condvar Tid := {}
  points : Tid → Point T := fun _ => .idle
  /-- The items that `enqueue` has put in and that `dequeue` has taken out. Nothing reads them. -/
  pushed : List T := []
  popped : List T := []

namespace SafeQueue

variable {Tid : Type u} {T : Type v}

/-- The constructor. -/
def start (Tid : Type u) (T : Type v) (maxCapacity : ℕ) : SafeQueue Tid T where
  maxCapacity := maxCapacity

def size (q : SafeQueue Tid T) : ℕ := q.queue.length

def empty (q : SafeQueue Tid T) : Bool := q.queue.isEmpty

variable [DecidableEq Tid]

def moveTo (q : SafeQueue Tid T) (t : Tid) (pc : Point T) : SafeQueue Tid T :=
  { q with points := Function.update q.points t pc }

@[simp] theorem moveTo_self (q : SafeQueue Tid T) (t : Tid) (pc : Point T) : (q.moveTo t pc).points t = pc :=
  Function.update_self ..

/-- A call is made. -/
def call (q : SafeQueue Tid T) (t : Tid) (pc : Point T) : Option (SafeQueue Tid T) :=
  if (q.points t).free then some (q.moveTo t pc) else none

/-- `enqueue` by a thread that has the mutex. -/
def enqueue (q : SafeQueue Tid T) (t : Tid) (item : T) (pick : Option Tid) : Option (SafeQueue Tid T) :=
  if q.queue.length ≥ q.maxCapacity ∧ q.shutdown = false then some { q with condPush := q.condPush.wait t }
  else if q.shutdown then some (q.moveTo t (.enqueued false))
  else
    (q.condPop.notifyOne pick).map fun condPop =>
      { q with queue := q.queue ++ [item], pushed := q.pushed ++ [item], condPop }.moveTo t (.enqueued true)

/-- `dequeue` by a thread that has the mutex. -/
def dequeue (q : SafeQueue Tid T) (t : Tid) (pick : Option Tid) : Option (SafeQueue Tid T) :=
  match q.queue with
  | [] => if q.shutdown then some (q.moveTo t (.dequeued none)) else some { q with condPop := q.condPop.wait t }
  | item :: rest =>
    (q.condPush.notifyOne pick).map fun condPush =>
      { q with queue := rest, popped := q.popped ++ [item], condPush }.moveTo t (.dequeued (some item))

/-- One step; `none` where the thread stands elsewhere, sleeps, or the notification cannot pick that thread. -/
def step (q : SafeQueue Tid T) : Action Tid T → Option (SafeQueue Tid T)
  | .callEnqueue t item => q.call t (.enqueue item)
  | .callDequeue t => q.call t .dequeue
  | .callClose t => q.call t .close
  | .enqueue t pick =>
    match q.points t with
    | .enqueue item =>
      if t ∈ q.condPush.waiting then none else { q with condPush := q.condPush.resume t }.enqueue t item pick
    | _ => none
  | .dequeue t pick =>
    match q.points t with
    | .dequeue => if t ∈ q.condPop.waiting then none else { q with condPop := q.condPop.resume t }.dequeue t pick
    | _ => none
  | .close t =>
    match q.points t with
    | .close => if q.shutdown then some (q.moveTo t .closed) else some ({ q with shutdown := true }.moveTo t .notifyPop)
    | _ => none
  | .notifyPop t =>
    match q.points t with
    | .notifyPop => some ({ q with condPop := q.condPop.notifyAll }.moveTo t .notifyPush)
    | _ => none
  | .notifyPush t =>
    match q.points t with
    | .notifyPush => some ({ q with condPush := q.condPush.notifyAll }.moveTo t .closed)
    | _ => none
  | .wakePop t => if t ∈ q.condPop.waiting then some { q with condPop := q.condPop.wake t } else none
  | .wakePush t => if t ∈ q.condPush.waiting then some { q with condPush := q.condPush.wake t } else none

/-- Everything a step can do. -/
inductive Steps (q : SafeQueue Tid T) : Action Tid T → SafeQueue Tid T → Prop
  | call (a : Action Tid T) (t : Tid) (pc : Point T) (ha : a.call = some (t, pc)) (ht : (q.points t).free = true) :
    Steps q a (q.moveTo t pc)
  | waitPush (t : Tid) (pick : Option Tid) (item : T) (ht : q.points t = .enqueue item) (hw : t ∉ q.condPush.waiting)
    (hfull : q.maxCapacity ≤ q.queue.length) (hs : q.shutdown = false) :
    Steps q (.enqueue t pick) { q with condPush := (q.condPush.resume t).wait t }
  | refused (t : Tid) (pick : Option Tid) (item : T) (ht : q.points t = .enqueue item) (hw : t ∉ q.condPush.waiting)
    (hs : q.shutdown = true) :
    Steps q (.enqueue t pick) ({ q with condPush := q.condPush.resume t }.moveTo t (.enqueued false))
  | push (t : Tid) (pick : Option Tid) (item : T) (condPop : Condvar Tid) (ht : q.points t = .enqueue item)
    (hw : t ∉ q.condPush.waiting) (hroom : q.queue.length < q.maxCapacity) (hs : q.shutdown = false)
    (hpick : q.condPop.notifyOne pick = some condPop) :
    Steps q (.enqueue t pick)
      ({ q with
        condPush := q.condPush.resume t
        queue := q.queue ++ [item]
        pushed := q.pushed ++ [item]
        condPop }.moveTo t (.enqueued true))
  | waitPop (t : Tid) (pick : Option Tid) (ht : q.points t = .dequeue) (hw : t ∉ q.condPop.waiting)
    (hempty : q.queue = []) (hs : q.shutdown = false) :
    Steps q (.dequeue t pick) { q with condPop := (q.condPop.resume t).wait t }
  | drained (t : Tid) (pick : Option Tid) (ht : q.points t = .dequeue) (hw : t ∉ q.condPop.waiting)
    (hempty : q.queue = []) (hs : q.shutdown = true) :
    Steps q (.dequeue t pick) ({ q with condPop := q.condPop.resume t }.moveTo t (.dequeued none))
  | pop (t : Tid) (pick : Option Tid) (item : T) (rest : List T) (condPush : Condvar Tid) (ht : q.points t = .dequeue)
    (hw : t ∉ q.condPop.waiting) (hq : q.queue = item :: rest) (hpick : q.condPush.notifyOne pick = some condPush) :
    Steps q (.dequeue t pick)
      ({ q with
        condPop := q.condPop.resume t
        queue := rest
        popped := q.popped ++ [item]
        condPush }.moveTo t (.dequeued (some item)))
  | closeAgain (t : Tid) (ht : q.points t = .close) (hs : q.shutdown = true) : Steps q (.close t) (q.moveTo t .closed)
  | close (t : Tid) (ht : q.points t = .close) (hs : q.shutdown = false) :
    Steps q (.close t) ({ q with shutdown := true }.moveTo t .notifyPop)
  | notifyPop (t : Tid) (ht : q.points t = .notifyPop) :
    Steps q (.notifyPop t) ({ q with condPop := q.condPop.notifyAll }.moveTo t .notifyPush)
  | notifyPush (t : Tid) (ht : q.points t = .notifyPush) :
    Steps q (.notifyPush t) ({ q with condPush := q.condPush.notifyAll }.moveTo t .closed)
  | wakePop (t : Tid) (hw : t ∈ q.condPop.waiting) : Steps q (.wakePop t) { q with condPop := q.condPop.wake t }
  | wakePush (t : Tid) (hw : t ∈ q.condPush.waiting) : Steps q (.wakePush t) { q with condPush := q.condPush.wake t }

omit [DecidableEq Tid] in
/-- A call is made by the thread of the step, and has not returned. -/
theorem Action.call_spec {a : Action Tid T} {t : Tid} {pc : Point T} (h : a.call = some (t, pc)) :
    a.thread = t ∧ pc.free = false := by
  cases a with
  | callEnqueue t item => cases h; exact ⟨rfl, rfl⟩
  | callDequeue t => cases h; exact ⟨rfl, rfl⟩
  | callClose t => cases h; exact ⟨rfl, rfl⟩
  | _ => cases h

theorem call_eq_some {q q' : SafeQueue Tid T} {t : Tid} {pc : Point T} (h : q.call t pc = some q') :
    (q.points t).free = true ∧ q' = q.moveTo t pc := by
  rw [call] at h
  split at h
  next ht => cases h; exact ⟨ht, rfl⟩
  next => cases h

theorem steps {q q' : SafeQueue Tid T} {a : Action Tid T} (h : q.step a = some q') : Steps q a q' := by
  cases a with
  | callEnqueue t item =>
    obtain ⟨ht, rfl⟩ := call_eq_some h
    exact .call _ t _ rfl ht
  | callDequeue t =>
    obtain ⟨ht, rfl⟩ := call_eq_some h
    exact .call _ t _ rfl ht
  | callClose t =>
    obtain ⟨ht, rfl⟩ := call_eq_some h
    exact .call _ t _ rfl ht
  | enqueue t pick =>
    simp only [step] at h
    split at h
    next item ht =>
      split at h
      next => cases h
      next hw =>
        rw [enqueue] at h
        split at h
        next hfull => cases h; exact .waitPush t pick item ht hw hfull.1 hfull.2
        next hfull =>
          split at h
          next hs => cases h; exact .refused t pick item ht hw hs
          next hs =>
            obtain ⟨condPop, hpick, rfl⟩ := Option.map_eq_some_iff.1 h
            have hs : q.shutdown = false := Bool.not_eq_true _ ▸ hs
            exact .push t pick item condPop ht hw (not_le.1 fun hle => hfull ⟨hle, hs⟩) hs hpick
    next => cases h
  | dequeue t pick =>
    simp only [step] at h
    split at h
    next ht =>
      split at h
      next => cases h
      next hw =>
        rw [dequeue] at h
        split at h
        next hq =>
          split at h
          next hs => cases h; exact .drained t pick ht hw hq hs
          next hs => cases h; exact .waitPop t pick ht hw hq (Bool.not_eq_true _ ▸ hs)
        next item rest hq =>
          obtain ⟨condPush, hpick, rfl⟩ := Option.map_eq_some_iff.1 h
          exact .pop t pick item rest condPush ht hw hq hpick
    next => cases h
  | close t =>
    simp only [step] at h
    split at h
    next ht =>
      split at h
      next hs => cases h; exact .closeAgain t ht hs
      next hs => cases h; exact .close t ht (Bool.not_eq_true _ ▸ hs)
    next => cases h
  | notifyPop t =>
    simp only [step] at h
    split at h
    next ht => cases h; exact .notifyPop t ht
    next => cases h
  | notifyPush t =>
    simp only [step] at h
    split at h
    next ht => cases h; exact .notifyPush t ht
    next => cases h
  | wakePop t =>
    simp only [step] at h
    split at h
    next hw => cases h; exact .wakePop t hw
    next => cases h
  | wakePush t =>
    simp only [step] at h
    split at h
    next hw => cases h; exact .wakePush t hw
    next => cases h

/-- Only the thread that takes the step moves. -/
theorem step_points {q q' : SafeQueue Tid T} {a : Action Tid T} (hs : q.step a = some q') {t : Tid} (ht : t ≠ a.thread) :
    q'.points t = q.points t := by
  cases steps hs with
  | call a t' pc ha hfree => exact Function.update_of_ne ((Action.call_spec ha).1 ▸ ht) ..
  | waitPush t' pick item ht' hw hfull hopen => rfl
  | waitPop t' pick ht' hw hempty hopen => rfl
  | wakePop t' hw => rfl
  | wakePush t' hw => rfl
  | _ => exact Function.update_of_ne ht ..

/-- Only `enqueue` puts items in. -/
theorem step_pushed {q q' : SafeQueue Tid T} {a : Action Tid T} (hs : q.step a = some q')
    (ha : ∀ t pick, a ≠ .enqueue t pick) : q'.pushed = q.pushed := by
  cases steps hs with
  | push t pick item condPop ht hw hroom hopen hpick => exact absurd rfl (ha t pick)
  | _ => rfl

/-- Only `dequeue` takes items out. -/
theorem step_popped {q q' : SafeQueue Tid T} {a : Action Tid T} (hs : q.step a = some q')
    (ha : ∀ t pick, a ≠ .dequeue t pick) : q'.popped = q.popped := by
  cases steps hs with
  | pop t pick item rest condPush ht hw hq hpick => exact absurd rfl (ha t pick)
  | _ => rfl

/-- Other steps change nothing in the queue. -/
theorem step_queue {q q' : SafeQueue Tid T} {a : Action Tid T} (hs : q.step a = some q') (ha : a.handles = false) :
    q'.queue = q.queue := by
  cases steps hs with
  | push t pick item condPop ht hw hroom hopen hpick => cases ha
  | pop t pick item rest condPush ht hw hq hpick => cases ha
  | _ => rfl

theorem points_moveTo {q : SafeQueue Tid T} {t u : Tid} {pc pc' : Point T} (h : (q.moveTo t pc).points u = pc') :
    (u = t ∧ pc = pc') ∨ q.points u = pc' := by
  by_cases hu : u = t
  · subst hu
    exact .inl ⟨rfl, (q.moveTo_self u pc).symm.trans h⟩
  · have hother : (q.moveTo t pc).points u = q.points u := Function.update_of_ne hu ..
    exact .inr (hother.symm.trans h)

/-- A thread is in `enqueue` since it has called it. -/
theorem step_enqueuing {q q' : SafeQueue Tid T} {a : Action Tid T} (hs : q.step a = some q') {u : Tid} {item : T}
    (ha : a ≠ .callEnqueue u item) (hu : q'.points u = .enqueue item) : q.points u = .enqueue item := by
  cases steps hs with
  | call a t pc hcall ht =>
    rcases points_moveTo hu with ⟨rfl, rfl⟩ | hu
    · cases a with
      | callEnqueue t item => cases hcall; exact absurd rfl ha
      | _ => cases hcall
    · exact hu
  | waitPush t pick item ht hw hfull hopen => exact hu
  | waitPop t pick ht hw hempty hopen => exact hu
  | wakePop t hw => exact hu
  | wakePush t hw => exact hu
  | _ => exact (points_moveTo hu).resolve_left nofun

/-! ## What `dequeue` returns -/

/-- A thread that stands in `dequeue` takes the mutex. -/
theorem dequeue_point {q q' : SafeQueue Tid T} {t : Tid} {pick : Option Tid} (hs : q.step (.dequeue t pick) = some q') :
    q.points t = .dequeue := by
  cases steps hs with
  | waitPop t pick ht hw hempty hopen => exact ht
  | drained t pick ht hw hempty hclosed => exact ht
  | pop t pick item rest condPush ht hw hq hpick => exact ht
  | call a t pc ha ht => cases ha

theorem dequeue_some {q q' : SafeQueue Tid T} {t : Tid} {pick : Option Tid} {item : T}
    (hs : q.step (.dequeue t pick) = some q') (ht : q'.points t = .dequeued (some item)) :
    q.queue = item :: q'.queue ∧ q'.popped = q.popped ++ [item] := by
  have hpoint := dequeue_point hs
  cases steps hs with
  | waitPop t pick ht' hw hempty hopen => cases hpoint.symm.trans ht
  | drained t pick ht' hw hempty hclosed => cases (moveTo_self ..).symm.trans ht
  | pop t pick item rest condPush ht' hw hq hpick =>
    cases (moveTo_self ..).symm.trans ht
    exact ⟨hq, rfl⟩
  | call a t pc ha ht => cases ha

theorem dequeue_nothing {q q' : SafeQueue Tid T} {t : Tid} {pick : Option Tid} (hs : q.step (.dequeue t pick) = some q')
    (ht : ∀ item, q'.points t ≠ .dequeued (some item)) : q'.queue = q.queue ∧ q'.popped = q.popped := by
  cases steps hs with
  | waitPop t pick ht' hw hempty hopen => exact ⟨rfl, rfl⟩
  | drained t pick ht' hw hempty hclosed => exact ⟨rfl, rfl⟩
  | pop t pick item rest condPush ht' hw hq hpick => exact absurd (moveTo_self ..) (ht item)
  | call a t pc ha ht => cases ha

/-! ## The bound and the order -/

structure Bounded (capacity : ℕ) (q : SafeQueue Tid T) : Prop where
  cap : q.maxCapacity = capacity
  bound : q.queue.length ≤ capacity
  order : q.pushed = q.popped ++ q.queue

theorem Bounded.step {capacity : ℕ} {q q' : SafeQueue Tid T} {a : Action Tid T} (hs : q.step a = some q')
    (h : q.Bounded capacity) : q'.Bounded capacity := by
  obtain ⟨hcap, hbound, horder⟩ := h
  cases steps hs with
  | push t pick item condPop ht hw hroom hs hpick =>
    refine ⟨hcap, ?_, ?_⟩
    · show (q.queue ++ [item]).length ≤ capacity
      rw [List.length_append, List.length_singleton]
      omega
    · show q.pushed ++ [item] = q.popped ++ (q.queue ++ [item])
      rw [horder, List.append_assoc]
  | pop t pick item rest condPush ht hw hq hpick =>
    rw [hq] at hbound horder
    refine ⟨hcap, Nat.le_of_succ_le hbound, ?_⟩
    show q.pushed = q.popped ++ [item] ++ rest
    rw [horder, List.append_assoc, List.singleton_append]
  | _ => exact ⟨hcap, hbound, horder⟩

/-! ## Every item and every free slot has a notified thread -/

/-- Before `close`: as long as a consumer sleeps there is a notified one for every item, and as long as a producer sleeps
there is a notified one for every free slot. -/
def Covered (q : SafeQueue Tid T) : Prop :=
  q.shutdown = false → q.condPop.Covers q.queue.length ∧ q.condPush.Covers (q.maxCapacity - q.queue.length)

theorem Covered.step {q q' : SafeQueue Tid T} {a : Action Tid T} (hs : q.step a = some q') (h : q.Covered) :
    q'.Covered := by
  intro hopen
  cases steps hs with
  | call a t pc ha ht => exact h hopen
  | waitPush t pick item ht hw hfull hs =>
    have hnone : q.maxCapacity - q.queue.length ≤ 0 := by omega
    exact ⟨(h hopen).1, (Condvar.covers_zero _).mono hnone⟩
  | refused t pick item ht hw hclosed => cases hclosed.symm.trans hopen
  | push t pick item condPop ht hw hroom hs hpick =>
    obtain ⟨hpop, hpush⟩ := h hopen
    have hslots : q.maxCapacity - q.queue.length = q.maxCapacity - (q.queue ++ [item]).length + 1 := by
      rw [List.length_append, List.length_singleton]
      omega
    rw [hslots] at hpush
    refine ⟨?_, hpush.resume t⟩
    show condPop.Covers (q.queue ++ [item]).length
    rw [List.length_append]
    exact hpop.notifyOne hpick
  | waitPop t pick ht hw hempty hs =>
    refine ⟨(Condvar.covers_zero _).mono ?_, (h hopen).2⟩
    show q.queue.length ≤ 0
    rw [hempty]
    exact le_refl 0
  | drained t pick ht hw hempty hclosed => cases hclosed.symm.trans hopen
  | pop t pick item rest condPush ht hw hq hpick =>
    obtain ⟨hpop, hpush⟩ := h hopen
    rw [hq] at hpop hpush
    have hslots : q.maxCapacity - rest.length ≤ q.maxCapacity - (item :: rest).length + 1 := by
      rw [List.length_cons]
      omega
    exact ⟨hpop.resume t, (hpush.notifyOne hpick).mono hslots⟩
  | closeAgain t ht hs => exact h hopen
  | close t ht hs => cases hopen
  | notifyPop t ht => exact ⟨fun hw => absurd hw Finset.not_nonempty_empty, (h hopen).2⟩
  | notifyPush t ht => exact ⟨(h hopen).1, fun hw => absurd hw Finset.not_nonempty_empty⟩
  | wakePop t hw => exact ⟨(h hopen).1.wake t, (h hopen).2⟩
  | wakePush t hw => exact ⟨(h hopen).1, (h hopen).2.wake t⟩

/-! ## Who sleeps where -/

/-- Those who sleep on `cond_pop_` or have been notified there are in `dequeue`, and on `cond_push_` in `enqueue`. -/
structure Parked (q : SafeQueue Tid T) : Prop where
  consumers : ∀ t, q.condPop.Holds t → q.points t = .dequeue
  producers : ∀ t, q.condPush.Holds t → ∃ item, q.points t = .enqueue item

/-- A thread that neither condition variable holds goes on to another point. -/
theorem Parked.moveTo {q : SafeQueue Tid T} {t : Tid} {pc : Point T} (h : q.Parked) (hpop : ¬ q.condPop.Holds t)
    (hpush : ¬ q.condPush.Holds t) : (q.moveTo t pc).Parked := by
  refine ⟨fun u hu => ?_, fun u hu => ?_⟩
  · refine (Function.update_of_ne ?_ _ _).trans (h.consumers u hu)
    rintro rfl
    exact hpop hu
  · obtain ⟨item, hitem⟩ := h.producers u hu
    refine ⟨item, (Function.update_of_ne ?_ _ _).trans hitem⟩
    rintro rfl
    exact hpush hu

omit [DecidableEq Tid] in
/-- The condition variables hold fewer threads. -/
theorem Parked.of_holds {q q' : SafeQueue Tid T} (h : q.Parked) (hpoints : q'.points = q.points)
    (hpop : ∀ t, q'.condPop.Holds t → q.condPop.Holds t) (hpush : ∀ t, q'.condPush.Holds t → q.condPush.Holds t) :
    q'.Parked := by
  refine ⟨fun t ht => ?_, fun t ht => ?_⟩
  · rw [hpoints]
    exact h.consumers t (hpop t ht)
  · rw [hpoints]
    exact h.producers t (hpush t ht)

omit [DecidableEq Tid] in
theorem Parked.not_pop {q : SafeQueue Tid T} {t : Tid} {pc : Point T} (h : q.Parked) (ht : q.points t = pc)
    (hpc : pc ≠ .dequeue) : ¬ q.condPop.Holds t :=
  fun hold => hpc (ht.symm.trans (h.consumers t hold))

omit [DecidableEq Tid] in
theorem Parked.not_push {q : SafeQueue Tid T} {t : Tid} {pc : Point T} (h : q.Parked) (ht : q.points t = pc)
    (hpc : ∀ item, pc ≠ .enqueue item) : ¬ q.condPush.Holds t := by
  intro hold
  obtain ⟨item, hitem⟩ := h.producers t hold
  exact hpc item (ht.symm.trans hitem)

/-- A producer that has the mutex is held no more. -/
theorem Parked.resumePush {q : SafeQueue Tid T} {t : Tid} {item : T} (h : q.Parked) (ht : q.points t = .enqueue item)
    (hw : t ∉ q.condPush.waiting) :
    { q with condPush := q.condPush.resume t }.Parked ∧ ¬ q.condPop.Holds t ∧ ¬ (q.condPush.resume t).Holds t := by
  refine ⟨h.of_holds rfl (fun _ hu => hu) fun _ hu => (Condvar.holds_resume hw hu).2, h.not_pop ht nofun, fun hu => ?_⟩
  exact (Condvar.holds_resume hw hu).1 rfl

/-- A consumer that has the mutex is held no more. -/
theorem Parked.resumePop {q : SafeQueue Tid T} {t : Tid} (h : q.Parked) (ht : q.points t = .dequeue)
    (hw : t ∉ q.condPop.waiting) :
    { q with condPop := q.condPop.resume t }.Parked ∧ ¬ (q.condPop.resume t).Holds t ∧ ¬ q.condPush.Holds t := by
  refine ⟨h.of_holds rfl (fun _ hu => (Condvar.holds_resume hw hu).2) fun _ hu => hu, fun hu => ?_, h.not_push ht nofun⟩
  exact (Condvar.holds_resume hw hu).1 rfl

theorem Parked.step {q q' : SafeQueue Tid T} {a : Action Tid T} (hs : q.step a = some q') (h : q.Parked) :
    q'.Parked := by
  cases steps hs with
  | call a t pc ha ht =>
    refine h.moveTo (h.not_pop rfl fun e => ?_) (h.not_push rfl fun item e => ?_)
    · rw [e] at ht
      cases ht
    · rw [e] at ht
      cases ht
  | waitPush t pick item ht hw hfull hs =>
    obtain ⟨hres, -, -⟩ := h.resumePush ht hw
    refine ⟨hres.consumers, fun u hu => ?_⟩
    rcases Condvar.holds_wait hu with rfl | hu
    · exact ⟨item, ht⟩
    · exact hres.producers u hu
  | refused t pick item ht hw hs =>
    obtain ⟨hres, hpop, hpush⟩ := h.resumePush ht hw
    exact hres.moveTo hpop hpush
  | push t pick item condPop ht hw hroom hs hpick =>
    obtain ⟨hres, hpop, hpush⟩ := h.resumePush ht hw
    refine Parked.moveTo (hres.of_holds rfl ?_ fun _ hu => hu) (fun hold => hpop ?_) hpush
    · exact fun u hu => Condvar.holds_notifyOne hpick hu
    · exact Condvar.holds_notifyOne hpick hold
  | waitPop t pick ht hw hempty hs =>
    obtain ⟨hres, -, -⟩ := h.resumePop ht hw
    refine ⟨fun u hu => ?_, hres.producers⟩
    rcases Condvar.holds_wait hu with rfl | hu
    · exact ht
    · exact hres.consumers u hu
  | drained t pick ht hw hempty hs =>
    obtain ⟨hres, hpop, hpush⟩ := h.resumePop ht hw
    exact hres.moveTo hpop hpush
  | pop t pick item rest condPush ht hw hq hpick =>
    obtain ⟨hres, hpop, hpush⟩ := h.resumePop ht hw
    refine Parked.moveTo (hres.of_holds rfl (fun _ hu => hu) ?_) hpop (fun hold => hpush ?_)
    · exact fun u hu => Condvar.holds_notifyOne hpick hu
    · exact Condvar.holds_notifyOne hpick hold
  | closeAgain t ht hs => exact h.moveTo (h.not_pop ht nofun) (h.not_push ht nofun)
  | close t ht hs =>
    refine Parked.moveTo (q := { q with shutdown := true }) ⟨h.consumers, h.producers⟩ ?_ ?_
    · exact h.not_pop ht nofun
    · exact h.not_push ht nofun
  | notifyPop t ht =>
    refine Parked.moveTo (h.of_holds rfl (fun _ hu => Condvar.holds_notifyAll hu) fun _ hu => hu) ?_ ?_
    · exact fun hold => h.not_pop ht nofun (Condvar.holds_notifyAll hold)
    · exact h.not_push ht nofun
  | notifyPush t ht =>
    refine Parked.moveTo (h.of_holds rfl (fun _ hu => hu) fun _ hu => Condvar.holds_notifyAll hu) ?_ ?_
    · exact h.not_pop ht nofun
    · exact fun hold => h.not_push ht nofun (Condvar.holds_notifyAll hold)
  | wakePop t hw => exact h.of_holds rfl (fun _ hu => Condvar.holds_wake hu) fun _ hu => hu
  | wakePush t hw => exact h.of_holds rfl (fun _ hu => hu) fun _ hu => Condvar.holds_wake hu

/-! ## After `close` -/

/-- After `close` has set the flag, it is still to notify, or nobody sleeps. -/
structure Closing (q : SafeQueue Tid T) : Prop where
  pop : q.shutdown = true → (∃ t, q.points t = .notifyPop) ∨ q.condPop.waiting = ∅
  push : q.shutdown = true → (∃ t, q.points t = .notifyPop ∨ q.points t = .notifyPush) ∨ q.condPush.waiting = ∅

omit [DecidableEq Tid] in
theorem closing_of_open {q : SafeQueue Tid T} (hopen : q.shutdown = false) : q.Closing := by
  refine ⟨fun hs => ?_, fun hs => ?_⟩
  · cases hopen.symm.trans hs
  · cases hopen.symm.trans hs

theorem Closing.moveTo {q : SafeQueue Tid T} {t : Tid} {pc : Point T} (h : q.Closing) (hpop : q.points t ≠ .notifyPop)
    (hpush : q.points t ≠ .notifyPush) : (q.moveTo t pc).Closing := by
  refine ⟨fun hs => (h.pop hs).imp_left fun ⟨u, hu⟩ => ⟨u, ?_⟩, fun hs => (h.push hs).imp_left fun ⟨u, hu⟩ => ⟨u, ?_⟩⟩
  · refine (Function.update_of_ne ?_ _ _).trans hu
    rintro rfl
    exact hpop hu
  · have hne : u ≠ t := by
      rintro rfl
      exact hu.elim hpop hpush
    exact hu.imp (Function.update_of_ne hne _ _).trans (Function.update_of_ne hne _ _).trans

omit [DecidableEq Tid] in
/-- Fewer threads sleep. -/
theorem Closing.of_waiting {q q' : SafeQueue Tid T} (h : q.Closing) (hshut : q'.shutdown = q.shutdown)
    (hpoints : q'.points = q.points) (hpop : q'.condPop.waiting ⊆ q.condPop.waiting)
    (hpush : q'.condPush.waiting ⊆ q.condPush.waiting) : q'.Closing := by
  refine ⟨fun hs => ?_, fun hs => ?_⟩
  · rw [hpoints]
    exact (h.pop (hshut.symm.trans hs)).imp_right fun hw => Finset.subset_empty.1 (hpop.trans hw.subset)
  · rw [hpoints]
    exact (h.push (hshut.symm.trans hs)).imp_right fun hw => Finset.subset_empty.1 (hpush.trans hw.subset)

theorem Closing.step {q q' : SafeQueue Tid T} {a : Action Tid T} (hs : q.step a = some q') (h : q.Closing) :
    q'.Closing := by
  cases steps hs with
  | call a t pc ha ht =>
    refine h.moveTo (fun e => ?_) (fun e => ?_)
    · rw [e] at ht
      cases ht
    · rw [e] at ht
      cases ht
  | waitPush t pick item ht hw hfull hopen =>
    exact closing_of_open hopen
  | refused t pick item ht hw hs =>
    refine Closing.moveTo (h.of_waiting rfl rfl (Finset.Subset.refl _) (Finset.Subset.refl _)) ?_ ?_
    · exact ht.trans_ne nofun
    · exact ht.trans_ne nofun
  | push t pick item condPop ht hw hroom hopen hpick =>
    exact closing_of_open hopen
  | waitPop t pick ht hw hempty hopen =>
    exact closing_of_open hopen
  | drained t pick ht hw hempty hs =>
    refine Closing.moveTo (h.of_waiting rfl rfl (Finset.Subset.refl _) (Finset.Subset.refl _)) ?_ ?_
    · exact ht.trans_ne nofun
    · exact ht.trans_ne nofun
  | pop t pick item rest condPush ht hw hq hpick =>
    refine Closing.moveTo (h.of_waiting rfl rfl (Finset.Subset.refl _) (Condvar.waiting_notifyOne hpick)) ?_ ?_
    · exact ht.trans_ne nofun
    · exact ht.trans_ne nofun
  | closeAgain t ht hs => exact h.moveTo (ht.trans_ne nofun) (ht.trans_ne nofun)
  | close t ht hs =>
    exact ⟨fun _ => .inl ⟨t, moveTo_self ..⟩, fun _ => .inl ⟨t, .inl (moveTo_self ..)⟩⟩
  | notifyPop t ht => exact ⟨fun _ => .inr rfl, fun _ => .inl ⟨t, .inr (moveTo_self ..)⟩⟩
  | notifyPush t ht =>
    refine ⟨fun hs => (h.pop hs).imp_left fun ⟨u, hu⟩ => ⟨u, ?_⟩, fun _ => .inr rfl⟩
    refine (Function.update_of_ne ?_ _ _).trans hu
    rintro rfl
    cases ht.symm.trans hu
  | wakePop t hw => exact h.of_waiting rfl rfl (Finset.erase_subset t _) (Finset.Subset.refl _)
  | wakePush t hw => exact h.of_waiting rfl rfl (Finset.Subset.refl _) (Finset.erase_subset t _)

/-- Once a consumer has been sent away, nothing is in the queue and nothing comes in. -/
def Drained (q : SafeQueue Tid T) : Prop := ∀ t, q.points t = .dequeued none → q.shutdown = true ∧ q.queue = []

theorem Drained.step {q q' : SafeQueue Tid T} {a : Action Tid T} (hs : q.step a = some q') (h : q.Drained) :
    q'.Drained := by
  intro u hu
  cases steps hs with
  | call a t pc ha ht =>
    rcases points_moveTo hu with ⟨-, rfl⟩ | hu
    · cases (Action.call_spec ha).2
    · exact h u hu
  | waitPush t pick item ht hw hfull hopen => exact h u hu
  | refused t pick item ht hw hclosed => exact h u ((points_moveTo hu).resolve_left nofun)
  | push t pick item condPop ht hw hroom hopen hpick =>
    obtain ⟨hclosed, -⟩ := h u ((points_moveTo hu).resolve_left nofun)
    cases hopen.symm.trans hclosed
  | waitPop t pick ht hw hempty hopen => exact h u hu
  | drained t pick ht hw hempty hclosed => exact ⟨hclosed, hempty⟩
  | pop t pick item rest condPush ht hw hq hpick =>
    obtain ⟨-, hempty⟩ := h u ((points_moveTo hu).resolve_left nofun)
    cases hempty.symm.trans hq
  | closeAgain t ht hclosed => exact h u ((points_moveTo hu).resolve_left nofun)
  | close t ht hopen => exact ⟨rfl, (h u ((points_moveTo hu).resolve_left nofun)).2⟩
  | notifyPop t ht => exact h u ((points_moveTo hu).resolve_left nofun)
  | notifyPush t ht => exact h u ((points_moveTo hu).resolve_left nofun)
  | wakePop t hw => exact h u hu
  | wakePush t hw => exact h u hu

/-! ## Every reachable state -/

structure Ok (capacity : ℕ) (q : SafeQueue Tid T) : Prop where
  bounded : q.Bounded capacity
  covered : q.Covered
  parked : q.Parked
  closing : q.Closing

theorem Ok.step {capacity : ℕ} {q q' : SafeQueue Tid T} {a : Action Tid T} (hs : q.step a = some q')
    (h : q.Ok capacity) : q'.Ok capacity :=
  ⟨h.bounded.step hs, h.covered.step hs, h.parked.step hs, h.closing.step hs⟩

omit [DecidableEq Tid] in
theorem start_ok (capacity : ℕ) : (start Tid T capacity).Ok capacity where
  bounded := ⟨rfl, Nat.zero_le _, rfl⟩
  covered _ := ⟨Condvar.covers_zero _, fun hw => absurd hw Finset.not_nonempty_empty⟩
  parked := ⟨fun t ht => by simp [Condvar.Holds, start] at ht, fun t ht => by simp [Condvar.Holds, start] at ht⟩
  closing := ⟨nofun, nofun⟩

theorem run_ok {capacity : ℕ} {q : SafeQueue Tid T} (actions : List (Action Tid T))
    (hrun : Machine.run step (start Tid T capacity) actions = some q) : q.Ok capacity := by
  have hstep : ∀ (q : SafeQueue Tid T) (a : Action Tid T) (q' : SafeQueue Tid T), True → q.step a = some q' →
      q.Ok capacity → q'.Ok capacity := fun q a q' _ hs h => h.step hs
  exact Machine.run_invariant hstep actions _ q (fun _ _ => trivial) hrun (start_ok capacity)

/-! ## Nobody sleeps on work -/

/-- A consumer sleeps beside an item, a producer beside a free slot, somebody after `close`, or both a consumer
and a producer sleep. -/
def SleepsOnWork (q : SafeQueue Tid T) : Prop :=
  (q.condPop.waiting.Nonempty ∧ (0 < q.size ∨ q.shutdown = true)) ∨
    (q.condPush.waiting.Nonempty ∧ (q.size < q.maxCapacity ∨ q.shutdown = true)) ∨
    (q.condPop.waiting.Nonempty ∧ q.condPush.waiting.Nonempty)

/-- Some thread is in a call, awake, and can take its next step. -/
def Moves (q : SafeQueue Tid T) : Prop := ∃ a, a.continues = true ∧ (q.step a).isSome

theorem moves_enqueue {q : SafeQueue Tid T} {t : Tid} {item : T} (ht : q.points t = .enqueue item)
    (hw : t ∉ q.condPush.waiting) : q.Moves := by
  obtain ⟨pick, condPop, hpick⟩ := q.condPop.exists_notifyOne
  refine ⟨.enqueue t pick, rfl, ?_⟩
  simp only [SafeQueue.step, ht, if_neg hw, enqueue, hpick]
  split
  · rfl
  · split <;> rfl

theorem moves_dequeue {q : SafeQueue Tid T} {t : Tid} (ht : q.points t = .dequeue) (hw : t ∉ q.condPop.waiting) :
    q.Moves := by
  obtain ⟨pick, condPush, hpick⟩ := q.condPush.exists_notifyOne
  refine ⟨.dequeue t pick, rfl, ?_⟩
  simp only [SafeQueue.step, ht, if_neg hw, dequeue, hpick]
  split
  · split <;> rfl
  · rfl

theorem moves_notifying {q : SafeQueue Tid T} {t : Tid} (ht : q.points t = .notifyPop ∨ q.points t = .notifyPush) :
    q.Moves := by
  rcases ht with ht | ht
  · exact ⟨.notifyPop t, rfl, by simp only [SafeQueue.step, ht, Option.isSome_some]⟩
  · exact ⟨.notifyPush t, rfl, by simp only [SafeQueue.step, ht, Option.isSome_some]⟩

theorem Ok.moves_of_pop {capacity : ℕ} {q : SafeQueue Tid T} (h : q.Ok capacity) (hw : q.condPop.waiting.Nonempty)
    (hwork : 0 < q.size ∨ q.shutdown = true) : q.Moves := by
  cases hs : q.shutdown with
  | false =>
    have hsize : 0 < q.size := hwork.resolve_right fun e => by cases hs.symm.trans e
    obtain ⟨t, hn, ht⟩ := (h.covered hs).1.exists_notified hw hsize
    exact moves_dequeue (h.parked.consumers t (.inr hn)) ht
  | true =>
    obtain ⟨t, ht⟩ := (h.closing.pop hs).resolve_right hw.ne_empty
    exact moves_notifying (.inl ht)

theorem Ok.moves_of_push {capacity : ℕ} {q : SafeQueue Tid T} (h : q.Ok capacity) (hw : q.condPush.waiting.Nonempty)
    (hwork : q.size < q.maxCapacity ∨ q.shutdown = true) : q.Moves := by
  cases hs : q.shutdown with
  | false =>
    have hsize : q.size < q.maxCapacity := hwork.resolve_right fun e => by cases hs.symm.trans e
    obtain ⟨t, hn, ht⟩ := (h.covered hs).2.exists_notified hw (Nat.sub_pos_of_lt hsize)
    obtain ⟨item, hitem⟩ := h.parked.producers t (.inr hn)
    exact moves_enqueue hitem ht
  | true =>
    obtain ⟨t, ht⟩ := (h.closing.push hs).resolve_right hw.ne_empty
    exact moves_notifying ht

/-- With room for an item, an item or a free slot is there. -/
theorem Ok.moves {capacity : ℕ} {q : SafeQueue Tid T} (h : q.Ok capacity) (hc : 1 ≤ capacity) (hwork : q.SleepsOnWork) :
    q.Moves := by
  rcases hwork with ⟨hw, hwork⟩ | ⟨hw, hwork⟩ | ⟨hpop, hpush⟩
  · exact h.moves_of_pop hw hwork
  · exact h.moves_of_push hw hwork
  · rcases Nat.eq_zero_or_pos q.size with hzero | hpos
    · refine h.moves_of_push hpush (.inl ?_)
      rw [hzero, h.bounded.cap]
      exact hc
    · exact h.moves_of_pop hpop (.inl hpos)

/-- In every reachable state: the queue is within its bound and first in is first out; before `close`, if a consumer
sleeps then there are no more items than consumers notified and not yet resumed, and if a producer sleeps then there are
no more free slots than such producers; once `close` has notified nobody sleeps; and where somebody sleeps on
work, some thread can go on. -/
theorem no_lost_wakeup (capacity : ℕ) (hc : 1 ≤ capacity) (actions : List (Action Tid T)) (q : SafeQueue Tid T)
    (hrun : Machine.run step (start Tid T capacity) actions = some q) :
    q.size ≤ capacity ∧ q.pushed = q.popped ++ q.queue ∧
      (q.shutdown = false → q.condPop.waiting.Nonempty → q.size ≤ q.condPop.notified.card) ∧
      (q.shutdown = false → q.condPush.waiting.Nonempty → capacity - q.size ≤ q.condPush.notified.card) ∧
      (q.shutdown = true → (∀ t, q.points t ≠ .notifyPop ∧ q.points t ≠ .notifyPush) →
        q.condPop.waiting = ∅ ∧ q.condPush.waiting = ∅) ∧
      (q.SleepsOnWork → q.Moves) := by
  have h : q.Ok capacity := run_ok actions hrun
  refine ⟨h.bounded.bound, h.bounded.order, fun hs => (h.covered hs).1, fun hs => ?_, fun hs hnot => ⟨?_, ?_⟩, h.moves hc⟩
  · rw [← h.bounded.cap]
    exact (h.covered hs).2
  · exact (h.closing.pop hs).resolve_left fun ⟨t, ht⟩ => (hnot t).1 ht
  · exact (h.closing.push hs).resolve_left fun ⟨t, ht⟩ => ht.elim (hnot t).1 (hnot t).2

/-- Two consumers sleep; the first one is notified of an item that a newcomer takes, and sleeps again. -/
def barging : List (Action ℕ ℕ) :=
  [.callDequeue 0, .dequeue 0 none, .callDequeue 1, .dequeue 1 none, .callEnqueue 2 7, .enqueue 2 (some 0), .callDequeue 3,
    .dequeue 3 none, .dequeue 0 none, .callEnqueue 2 8, .enqueue 2 (some 1)]

theorem no_lost_wakeup_barging : ∃ q, Machine.run step (start ℕ ℕ 1) barging = some q ∧ q.popped = [7] ∧
    q.condPop.waiting.Nonempty ∧ q.size ≤ q.condPop.notified.card := by
  have hrun : (Machine.run step (start ℕ ℕ 1) barging).any fun q =>
      q.popped = [7] ∧ q.shutdown = false ∧ 0 ∈ q.condPop.waiting := by decide
  obtain ⟨q, hq, hprop⟩ := (Option.any_eq_true _ _).1 hrun
  obtain ⟨hout, hopen, hw⟩ := of_decide_eq_true hprop
  exact ⟨q, hq, hout, ⟨0, hw⟩, (no_lost_wakeup 1 (le_refl 1) barging q hq).2.2.1 hopen ⟨0, hw⟩⟩

end SafeQueue

end StockExchange
