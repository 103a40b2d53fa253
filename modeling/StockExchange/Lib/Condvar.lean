/-
Condition variables of a monitor: who sleeps on one, and who has been notified and has not run since. A thread takes the
lock again after its wake-up, so others may come first; a sleeper may also wake for no reason.

Where every notification stands for one unit of something (an item, a free slot), the condition variable covers the units
there are: as long as somebody sleeps, there is a notified thread for every unit. No unit is then left to sleepers alone.
-/
import Mathlib.Data.Finset.Card

universe u

/-- The threads asleep, and those notified that have not taken the lock since. -/
structure Condvar (τ : Type u) where
  waiting : Finset τ := ∅
  notified : Finset τ := ∅
  apart : Disjoint waiting notified := by exact Finset.disjoint_empty_left _

namespace Condvar

variable {τ : Type u} [DecidableEq τ]

/-- The thread goes to sleep. -/
def wait (c : Condvar τ) (t : τ) : Condvar τ where
  waiting := insert t c.waiting
  notified := c.notified.erase t
  apart := by
    refine Finset.disjoint_insert_left.2 ⟨Finset.notMem_erase t _, ?_⟩
    exact c.apart.mono_right (Finset.erase_subset t _)

/-- The thread has the lock again. -/
def resume (c : Condvar τ) (t : τ) : Condvar τ where
  waiting := c.waiting
  notified := c.notified.erase t
  apart := c.apart.mono_right (Finset.erase_subset t _)

/-- The thread is woken by a notification. -/
def notify (c : Condvar τ) (t : τ) : Condvar τ where
  waiting := c.waiting.erase t
  notified := insert t c.notified
  apart := by
    refine Finset.disjoint_insert_right.2 ⟨Finset.notMem_erase t _, ?_⟩
    exact c.apart.mono_left (Finset.erase_subset t _)

/-- The thread wakes for no reason. -/
def wake (c : Condvar τ) (t : τ) : Condvar τ where
  waiting := c.waiting.erase t
  notified := c.notified
  apart := c.apart.mono_left (Finset.erase_subset t _)

/-- `notify_one`, with the thread that it picks; it picks nobody only if nobody sleeps. -/
def notifyOne (c : Condvar τ) : Option τ → Option (Condvar τ)
  | some t => if t ∈ c.waiting then some (c.notify t) else none
  | none => if c.waiting = ∅ then some c else none

/-- `notify_all`. -/
def notifyAll (c : Condvar τ) : Condvar τ where
  waiting := ∅
  notified := c.notified ∪ c.waiting
  apart := Finset.disjoint_empty_left _

theorem notifyOne_eq_some {c c' : Condvar τ} {pick : Option τ} (h : c.notifyOne pick = some c') :
    (c.waiting = ∅ ∧ c' = c) ∨ ∃ t ∈ c.waiting, c' = c.notify t := by
  cases pick with
  | none =>
    rw [notifyOne] at h
    split at h
    next hw => cases h; exact .inl ⟨hw, rfl⟩
    next => cases h
  | some t =>
    rw [notifyOne] at h
    split at h
    next ht => cases h; exact .inr ⟨t, ht, rfl⟩
    next => cases h

theorem waiting_notifyOne {c c' : Condvar τ} {pick : Option τ} (h : c.notifyOne pick = some c') :
    c'.waiting ⊆ c.waiting := by
  rcases notifyOne_eq_some h with ⟨-, rfl⟩ | ⟨t, -, rfl⟩
  · exact Finset.Subset.refl _
  · exact Finset.erase_subset t _

/-- A notification always finds somebody, or nobody sleeps. -/
theorem exists_notifyOne (c : Condvar τ) : ∃ pick c', c.notifyOne pick = some c' := by
  rcases c.waiting.eq_empty_or_nonempty with hw | ⟨t, ht⟩
  · exact ⟨none, c, if_pos hw⟩
  · exact ⟨some t, c.notify t, if_pos ht⟩

/-- The threads that are asleep or have been notified. -/
def Holds (c : Condvar τ) (t : τ) : Prop := t ∈ c.waiting ∨ t ∈ c.notified

theorem holds_wait {c : Condvar τ} {t u : τ} (h : (c.wait t).Holds u) : u = t ∨ c.Holds u := by
  rcases h with h | h
  · exact (Finset.mem_insert.1 h).imp_right .inl
  · exact .inr (.inr (Finset.mem_of_mem_erase h))

/-- Whoever has the lock again is neither asleep nor notified. -/
theorem holds_resume {c : Condvar τ} {t u : τ} (ht : t ∉ c.waiting) (h : (c.resume t).Holds u) : u ≠ t ∧ c.Holds u := by
  rcases h with h | h
  · exact ⟨fun e => ht (e ▸ h), .inl h⟩
  · exact ⟨Finset.ne_of_mem_erase h, .inr (Finset.mem_of_mem_erase h)⟩

theorem holds_wake {c : Condvar τ} {t u : τ} (h : (c.wake t).Holds u) : c.Holds u :=
  h.imp_left Finset.mem_of_mem_erase

theorem holds_notifyAll {c : Condvar τ} {u : τ} (h : c.notifyAll.Holds u) : c.Holds u := by
  rcases h with h | h
  · exact absurd h (Finset.notMem_empty u)
  · exact (Finset.mem_union.1 h).symm

theorem holds_notifyOne {c c' : Condvar τ} {pick : Option τ} {u : τ} (hp : c.notifyOne pick = some c')
    (h : c'.Holds u) : c.Holds u := by
  rcases notifyOne_eq_some hp with ⟨-, rfl⟩ | ⟨t, ht, rfl⟩
  · exact h
  · rcases h with h | h
    · exact .inl (Finset.mem_of_mem_erase h)
    · rcases Finset.mem_insert.1 h with rfl | h
      · exact .inl ht
      · exact .inr h

/-- As long as somebody sleeps, each of `n` units has a notified thread. -/
def Covers (c : Condvar τ) (n : ℕ) : Prop := c.waiting.Nonempty → n ≤ c.notified.card

omit [DecidableEq τ] in
theorem covers_zero (c : Condvar τ) : c.Covers 0 := fun _ => Nat.zero_le _

omit [DecidableEq τ] in
theorem Covers.mono {c : Condvar τ} {m n : ℕ} (h : c.Covers n) (hmn : m ≤ n) : c.Covers m :=
  fun hw => hmn.trans (h hw)

/-- Whoever takes the lock again takes a unit. -/
theorem Covers.resume {c : Condvar τ} {n : ℕ} (t : τ) (h : c.Covers (n + 1)) : (c.resume t).Covers n := by
  intro hw
  have hn : n + 1 ≤ c.notified.card := h hw
  have herase : c.notified.card - 1 ≤ (c.notified.erase t).card := Finset.pred_card_le_card_erase
  exact (Nat.le_sub_of_add_le hn).trans herase

theorem Covers.wake {c : Condvar τ} {n : ℕ} (t : τ) (h : c.Covers n) : (c.wake t).Covers n :=
  fun hw => h (hw.mono (Finset.erase_subset t _))

/-- One unit more, and one notification. -/
theorem Covers.notifyOne {c c' : Condvar τ} {n : ℕ} {pick : Option τ} (h : c.Covers n)
    (hp : c.notifyOne pick = some c') : c'.Covers (n + 1) := by
  rcases notifyOne_eq_some hp with ⟨hw, rfl⟩ | ⟨t, ht, rfl⟩
  · intro hw'
    rw [hw] at hw'
    exact absurd hw' Finset.not_nonempty_empty
  · intro _
    have hcard : (insert t c.notified).card = c.notified.card + 1 :=
      Finset.card_insert_of_notMem (Finset.disjoint_left.1 c.apart ht)
    have hn : n ≤ c.notified.card := h ⟨t, ht⟩
    show n + 1 ≤ (insert t c.notified).card
    omega

omit [DecidableEq τ] in
/-- No unit is left to sleepers alone. -/
theorem Covers.exists_notified {c : Condvar τ} {n : ℕ} (h : c.Covers n) (hw : c.waiting.Nonempty) (hn : 0 < n) :
    ∃ t ∈ c.notified, t ∉ c.waiting := by
  obtain ⟨t, ht⟩ := Finset.card_pos.1 (hn.trans_le (h hw))
  exact ⟨t, ht, fun hw' => Finset.disjoint_left.1 c.apart hw' ht⟩

end Condvar
