/-
Relays: items are numbered as they enter, are held by any number of hands for a while, and come out one by
one, from any hand. Whether those of a kind come out in the order of their numbers is decided at each
passing: it must not overtake an item of its kind that another hand still holds.
-/
import Mathlib.Data.List.Nodup
import Mathlib.Logic.Function.Basic

universe u

/-- The number of items that have entered, those held and those that have come out. -/
structure Relay (W : Type u) where
  count : ℕ := 0
  hands : W → List ℕ := fun _ => []
  out : List ℕ := []

namespace Relay

variable {W : Type u}

/-- Every item that has entered is in one hand or out, and a hand holds its items in order. -/
structure Valid (r : Relay W) : Prop where
  whole : ∀ i, i < r.count ↔ i ∈ r.out ∨ ∃ w, i ∈ r.hands w
  held : ∀ w, ∀ i ∈ r.hands w, i ∉ r.out
  apart : ∀ w w' i, i ∈ r.hands w → i ∈ r.hands w' → w = w'
  sorted : ∀ w, (r.hands w).Pairwise (· < ·)
  nodup : r.out.Nodup

theorem empty_valid : ({} : Relay W).Valid where
  whole i := by simp
  held w i h := nomatch h
  apart w w' i h := nomatch h
  sorted w := .nil
  nodup := .nil

/-- Items of a kind come out in order: none is out before an earlier one. -/
def InOrder (same : ℕ → ℕ → Prop) (out : List ℕ) : Prop := ∀ i j, i < j → same i j → j ∈ out → [i, j].Sublist out

theorem inOrder_nil (same : ℕ → ℕ → Prop) : InOrder same [] := fun _ _ _ _ h => nomatch h

theorem InOrder.congr {same same' : ℕ → ℕ → Prop} {out : List ℕ}
    (h : ∀ i j, i < j → j ∈ out → (same' i j ↔ same i j)) : InOrder same' out ↔ InOrder same out := by
  refine forall₂_congr fun i j => ?_
  constructor
  · exact fun hs hlt hsame hj => hs hlt ((h i j hlt hj).2 hsame) hj
  · exact fun hs hlt hsame hj => hs hlt ((h i j hlt hj).1 hsame) hj

theorem Valid.lt {r : Relay W} (h : r.Valid) {w : W} {i : ℕ} (hi : i ∈ r.hands w) : i < r.count :=
  (h.whole i).2 (.inr ⟨w, hi⟩)

theorem Valid.lt_of_out {r : Relay W} (h : r.Valid) {i : ℕ} (hi : i ∈ r.out) : i < r.count := (h.whole i).2 (.inl hi)

variable [DecidableEq W]

/-- The next `k` items enter into an empty hand. -/
def enter (r : Relay W) (w : W) (k : ℕ) : Relay W :=
  { r with count := r.count + k, hands := Function.update r.hands w (List.range' r.count k) }

/-- The first item of a hand comes out. -/
def pass (r : Relay W) (w : W) : Relay W :=
  { r with hands := Function.update r.hands w (r.hands w).tail, out := r.out ++ (r.hands w).head?.toList }

variable {r : Relay W} {w : W}

@[simp] theorem enter_self (k : ℕ) : (r.enter w k).hands w = List.range' r.count k := Function.update_self ..

theorem enter_of_ne {w' : W} (h : w' ≠ w) (k : ℕ) : (r.enter w k).hands w' = r.hands w' := Function.update_of_ne h ..

@[simp] theorem pass_self : (r.pass w).hands w = (r.hands w).tail := Function.update_self ..

theorem pass_of_ne {w' : W} (h : w' ≠ w) : (r.pass w).hands w' = r.hands w' := Function.update_of_ne h ..

theorem pass_out {j : ℕ} {rest : List ℕ} (hw : r.hands w = j :: rest) : (r.pass w).out = r.out ++ [j] := by
  rw [pass, hw]
  rfl

theorem mem_enter {w' : W} {i k : ℕ} (hw : r.hands w = []) :
    i ∈ (r.enter w k).hands w' ↔ i ∈ r.hands w' ∨ w' = w ∧ r.count ≤ i ∧ i < r.count + k := by
  by_cases h : w' = w
  · subst h
    rw [enter_self, hw, List.mem_range'_1]
    simp
  · rw [enter_of_ne h]
    simp [h]

theorem Valid.enter (h : r.Valid) (hw : r.hands w = []) (k : ℕ) : (r.enter w k).Valid where
  whole i := by
    simp only [mem_enter hw]
    constructor
    · intro hi
      by_cases hlt : i < r.count
      · rcases (h.whole i).1 hlt with ho | ⟨w', hw'⟩
        · exact .inl ho
        · exact .inr ⟨w', .inl hw'⟩
      · exact .inr ⟨w, .inr ⟨rfl, by omega, hi⟩⟩
    · rintro (ho | ⟨w', hw' | ⟨-, -, hi⟩⟩)
      · exact Nat.lt_add_right k (h.lt_of_out ho)
      · exact Nat.lt_add_right k (h.lt hw')
      · exact hi
  held w' i hi ho := by
    rcases (mem_enter hw).1 hi with hi | ⟨-, hle, -⟩
    · exact h.held w' i hi ho
    · have hlt := h.lt_of_out ho
      omega
  apart w₁ w₂ i h₁ h₂ := by
    rcases (mem_enter hw).1 h₁ with h₁ | ⟨rfl, hle₁, -⟩
    · rcases (mem_enter hw).1 h₂ with h₂ | ⟨-, hle₂, -⟩
      · exact h.apart w₁ w₂ i h₁ h₂
      · have hlt := h.lt h₁
        omega
    · rcases (mem_enter hw).1 h₂ with h₂ | ⟨rfl, -, -⟩
      · have hlt := h.lt h₂
        omega
      · rfl
  sorted w' := by
    by_cases hw' : w' = w
    · subst hw'
      rw [enter_self]
      exact List.pairwise_lt_range'
    · rw [enter_of_ne hw']
      exact h.sorted w'
  nodup := h.nodup

theorem mem_pass {w' : W} {i j : ℕ} {rest : List ℕ} (h : r.Valid) (hw : r.hands w = j :: rest) :
    i ∈ (r.pass w).hands w' ↔ i ∈ r.hands w' ∧ i ≠ j := by
  by_cases hw' : w' = w
  · subst hw'
    have hsorted := h.sorted w'
    rw [hw, List.pairwise_cons] at hsorted
    rw [pass_self, hw, List.tail_cons, List.mem_cons]
    constructor
    · intro hi
      exact ⟨.inr hi, (Nat.ne_of_lt (hsorted.1 i hi)).symm⟩
    · rintro ⟨rfl | hi, hne⟩
      · exact absurd rfl hne
      · exact hi
  · rw [pass_of_ne hw']
    refine ⟨fun hi => ⟨hi, ?_⟩, And.left⟩
    rintro rfl
    exact hw' (h.apart w' w i hi (by rw [hw]; exact List.mem_cons_self ..))

theorem Valid.pass (h : r.Valid) {j : ℕ} {rest : List ℕ} (hw : r.hands w = j :: rest) : (r.pass w).Valid where
  whole i := by
    have hj : j ∈ r.hands w := by
      rw [hw]
      exact List.mem_cons_self ..
    simp only [mem_pass h hw, pass_out hw, List.mem_append, List.mem_singleton]
    refine (h.whole i).trans ?_
    constructor
    · rintro (ho | ⟨w', hi⟩)
      · exact .inl (.inl ho)
      · by_cases hij : i = j
        · exact .inl (.inr hij)
        · exact .inr ⟨w', hi, hij⟩
    · rintro ((ho | rfl) | ⟨w', hi, -⟩)
      · exact .inl ho
      · exact .inr ⟨w, hj⟩
      · exact .inr ⟨w', hi⟩
  held w' i hi ho := by
    obtain ⟨hi, hne⟩ := (mem_pass h hw).1 hi
    rw [pass_out hw, List.mem_append, List.mem_singleton] at ho
    exact ho.elim (h.held w' i hi) hne
  apart w₁ w₂ i h₁ h₂ := h.apart w₁ w₂ i ((mem_pass h hw).1 h₁).1 ((mem_pass h hw).1 h₂).1
  sorted w' := by
    by_cases hw' : w' = w
    · subst hw'
      rw [pass_self]
      exact (h.sorted w').sublist (List.tail_sublist _)
    · rw [pass_of_ne hw']
      exact h.sorted w'
  nodup := by
    rw [pass_out hw, List.nodup_append]
    refine ⟨h.nodup, List.nodup_singleton j, ?_⟩
    rintro i hi _ hj rfl
    rw [List.mem_singleton.1 hj] at hi
    exact h.held w j (by rw [hw]; exact List.mem_cons_self ..) hi

/-- An item that comes out keeps the order exactly if no hand holds an earlier one of its kind. -/
theorem Valid.pass_inOrder_iff (h : r.Valid) {same : ℕ → ℕ → Prop} (hs : InOrder same r.out) {j : ℕ} {rest : List ℕ}
    (hw : r.hands w = j :: rest) :
    InOrder same (r.pass w).out ↔ ∀ w', ∀ i ∈ r.hands w', same i j → j ≤ i := by
  have hj : j ∈ r.hands w := by
    rw [hw]
    exact List.mem_cons_self ..
  rw [pass_out hw]
  constructor
  · intro hafter w' i hi hsame
    by_contra hlt
    have hsub := hafter i j (by omega) hsame (List.mem_append_right _ (List.mem_singleton_self j))
    rcases List.mem_append.1 (hsub.subset (List.mem_cons_self ..)) with ho | hij
    · exact h.held w' i hi ho
    · rw [List.mem_singleton.1 hij] at hlt
      omega
  · intro hfirst i k hlt hsame hk
    rcases List.mem_append.1 hk with hk | hk
    · exact (hs i k hlt hsame hk).trans (List.sublist_append_left _ _)
    · rw [List.mem_singleton.1 hk] at hlt hsame ⊢
      have hi : i ∈ r.out := by
        rcases (h.whole i).1 (Nat.lt_trans hlt (h.lt hj)) with ho | ⟨w', hw'⟩
        · exact ho
        · have hle := hfirst w' i hw' hsame
          omega
      exact (List.singleton_sublist.2 hi).append (List.Sublist.refl [j])

/-! ## The first ones of a kind -/

section FirstOut

omit [DecidableEq W]

/-- The items of a kind that are out are the first ones of the kind, in their order. -/
def FirstOut (P : ℕ → Prop) [DecidablePred P] (r : Relay W) : Prop :=
  r.out.filter (fun i => P i) <+: (List.range r.count).filter fun i => P i

variable {P : ℕ → Prop} [DecidablePred P]

theorem empty_firstOut : FirstOut P ({} : Relay W) := List.nil_prefix

/-- Items that enter later, of whatever kind. -/
theorem Valid.firstOut_mono (h : r.Valid) (hf : FirstOut P r) {r' : Relay W} {P' : ℕ → Prop} [DecidablePred P']
    (hout : r'.out = r.out) (hcount : r.count ≤ r'.count) (hP : ∀ i < r.count, P' i ↔ P i) : FirstOut P' r' := by
  have hsame : ∀ l : List ℕ, (∀ i ∈ l, i < r.count) → l.filter (fun i => P' i) = l.filter fun i => P i := by
    intro l hl
    refine List.filter_congr fun i hi => ?_
    rw [decide_eq_decide]
    exact hP i (hl i hi)
  unfold FirstOut
  rw [hout, hsame r.out fun i hi => h.lt_of_out hi]
  refine hf.trans ?_
  rw [← hsame (List.range r.count) fun i hi => List.mem_range.1 hi]
  obtain ⟨k, hk⟩ := Nat.exists_eq_add_of_le hcount
  rw [hk, List.range_add]
  exact (List.prefix_append _ _).filter _

/-- The first item of the kind that is not out is in some hand, and all others of the kind come after it. -/
theorem Valid.waiting_head (h : r.Valid) {i : ℕ} {waiting : List ℕ}
    (hwaiting : r.out.filter (fun i => P i) ++ i :: waiting = (List.range r.count).filter fun i => P i) :
    P i ∧ (∃ w, i ∈ r.hands w) ∧ ∀ j ∈ waiting, i < j := by
  have hsorted : (r.out.filter (fun i => P i) ++ i :: waiting).Pairwise (· < ·) := by
    rw [hwaiting]
    exact List.pairwise_lt_range.filter _
  obtain ⟨-, hrest, hbefore⟩ := List.pairwise_append.1 hsorted
  have himem : i ∈ (List.range r.count).filter fun i => P i := by
    rw [← hwaiting]
    exact List.mem_append_right _ (List.mem_cons_self ..)
  rw [List.mem_filter, List.mem_range, decide_eq_true_iff] at himem
  obtain ⟨hlt, hi⟩ := himem
  have hheld : i ∉ r.out := by
    intro ho
    have hmem : i ∈ r.out.filter fun i => P i := List.mem_filter.2 ⟨ho, decide_eq_true hi⟩
    exact Nat.lt_irrefl i (hbefore i hmem i (List.mem_cons_self ..))
  exact ⟨hi, ((h.whole i).1 hlt).resolve_left hheld, (List.pairwise_cons.1 hrest).1⟩

/-- When all hands are empty, all items of the kind are out. -/
theorem Valid.firstOut_all (h : r.Valid) (hf : FirstOut P r) (hempty : ∀ w, r.hands w = []) :
    r.out.filter (fun i => P i) = (List.range r.count).filter fun i => P i := by
  obtain ⟨waiting, hwaiting⟩ := hf
  cases waiting with
  | nil => rwa [List.append_nil] at hwaiting
  | cons i waiting =>
    obtain ⟨-, ⟨w, hi⟩, -⟩ := h.waiting_head hwaiting
    rw [hempty w] at hi
    cases hi

end FirstOut

/-- An item of the kind may come out if no hand holds an earlier one of the kind. -/
theorem Valid.pass_firstOut (h : r.Valid) {P : ℕ → Prop} [DecidablePred P] (hf : FirstOut P r) {j : ℕ} {rest : List ℕ}
    (hw : r.hands w = j :: rest) (hfirst : P j → ∀ w', ∀ i ∈ r.hands w', P i → j ≤ i) : FirstOut P (r.pass w) := by
  have hj : j ∈ r.hands w := by
    rw [hw]
    exact List.mem_cons_self ..
  unfold FirstOut
  rw [pass_out hw, List.filter_append]
  by_cases hP : P j
  · obtain ⟨waiting, hwaiting⟩ := hf
    have hjmem : j ∈ waiting := by
      have hmem : j ∈ r.out.filter (fun i => P i) ++ waiting := by
        rw [hwaiting, List.mem_filter, List.mem_range]
        exact ⟨h.lt hj, decide_eq_true hP⟩
      rcases List.mem_append.1 hmem with ho | hmem
      · exact absurd (List.mem_filter.1 ho).1 (h.held w j hj)
      · exact hmem
    cases waiting with
    | nil => cases hjmem
    | cons i waiting =>
      obtain ⟨hi, ⟨w', hw'⟩, hlater⟩ := h.waiting_head hwaiting
      -- the first one that waits is not behind the one that comes out, so it is that one
      have hle : j ≤ i := hfirst hP w' i hw' hi
      have hij : i = j := by
        rcases List.mem_cons.1 hjmem with hji | hmem
        · exact hji.symm
        · have hlt := hlater j hmem
          omega
      subst hij
      have hone : [i].filter (fun i => P i) = [i] := by simp [hP]
      refine ⟨waiting, ?_⟩
      rw [hone, List.append_assoc]
      exact hwaiting
  · have hnone : [j].filter (fun i => P i) = [] := by simp [hP]
    rw [hnone, List.append_nil]
    exact hf

end Relay
