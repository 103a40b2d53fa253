/-
Flows: things come in, are held by any of a number of hands for a while, and go out. Nothing is lost and nothing
is made up on the way when what has come in is, up to the order, what has gone out with what is held; it is
enough to look at the hand that moves.
-/
import Mathlib.Algebra.BigOperators.Group.Finset.Basic
import Mathlib.Algebra.Order.Group.Multiset
import Mathlib.Tactic.Abel

universe u v

open scoped BigOperators

namespace Flow

variable {W : Type u} {α : Type v} [Fintype W]

/-- What has come in is what has gone out and what is held. -/
def Conserved (total out : List α) (held : W → List α) : Prop :=
  (total : Multiset α) = out + ∑ w, (held w : Multiset α)

theorem conserved_nil {held : W → List α} (h : ∀ w, held w = []) : Conserved [] [] held := by
  simp [Conserved, h]

/-- When nothing is held, all has gone out. -/
theorem Conserved.perm {total out : List α} {held : W → List α} (h : Conserved total out held)
    (hheld : ∀ w, held w = []) : total.Perm out := by
  refine Multiset.coe_eq_coe.1 (h.trans ?_)
  simp [hheld]

variable [DecidableEq W]

theorem sum_update (held : W → List α) (w : W) (l : List α) :
    (∑ w', (Function.update held w l w' : Multiset α)) + held w = l + ∑ w', (held w' : Multiset α) := by
  have hrest : ∑ w' ∈ Finset.univ.erase w, (Function.update held w l w' : Multiset α) =
      ∑ w' ∈ Finset.univ.erase w, (held w' : Multiset α) := by
    refine Finset.sum_congr rfl fun w' hw' => ?_
    rw [Function.update_of_ne (Finset.ne_of_mem_erase hw')]
  rw [← Finset.add_sum_erase _ _ (Finset.mem_univ w), hrest, ← Finset.add_sum_erase _ _ (Finset.mem_univ w),
    Function.update_self]
  abel

/-- One hand takes things in and lets things out. -/
theorem Conserved.move {total out : List α} {held : W → List α} (h : Conserved total out held) {w : W}
    {taken given l : List α} (hl : (taken ++ held w).Perm (given ++ l)) :
    Conserved (total ++ taken) (out ++ given) (Function.update held w l) := by
  have hw : (taken : Multiset α) + held w = given + l := by
    rw [Multiset.coe_add, Multiset.coe_add]
    exact Multiset.coe_eq_coe.2 hl
  unfold Conserved at h ⊢
  refine add_right_cancel (b := (held w : Multiset α)) ?_
  rw [← Multiset.coe_add, ← Multiset.coe_add, add_assoc (_ + _) _ _, sum_update]
  calc (total : Multiset α) + taken + held w = total + (taken + held w) := add_assoc ..
    _ = out + (∑ w', (held w' : Multiset α)) + (given + l) := by rw [hw, h]
    _ = out + given + (l + ∑ w', (held w' : Multiset α)) := by abel

/-! ## Weights -/

/-- A total over some places when one of them changes. -/
theorem sum_weight_update {ι : Type*} {β : Type*} [DecidableEq ι] (places : Finset ι) (weight : β → ℕ) (held : ι → β)
    {i : ι} (hi : i ∈ places) (b : β) :
    (∑ j ∈ places, weight (Function.update held i b j)) + weight (held i) = weight b + ∑ j ∈ places, weight (held j) := by
  have hrest : ∑ j ∈ places.erase i, weight (Function.update held i b j) = ∑ j ∈ places.erase i, weight (held j) := by
    refine Finset.sum_congr rfl fun j hj => ?_
    rw [Function.update_of_ne (Finset.ne_of_mem_erase hj)]
  rw [← Finset.add_sum_erase _ _ hi, hrest, ← Finset.add_sum_erase _ _ hi, Function.update_self]
  omega

end Flow
