/-
Greedy allocation: a demand `q` served from the front of a list, each element giving at most its
size, until the demand is met or the list runs out. The functions are over any amounts with a zero,
a subtraction and a decidable order; the totals are over `ℕ`, and `takes_map` moves a result over
machine amounts to one over `ℕ`.
-/
import Mathlib.Algebra.BigOperators.Group.List.Basic
import Mathlib.Algebra.GroupWithZero.Nat
import Mathlib.Data.List.Infix

universe u v

namespace Greedy

variable {α : Type u} {Q : Type v}

section Defs

variable [Zero Q] [Sub Q] [LE Q] [DecidableLE Q] [DecidableEq Q] (size : α → Q)

/-- What is taken, element by element. -/
def takes : Q → List α → List (α × Q)
  | _, [] => []
  | q, a :: l =>
    if q = 0 then []
    else if size a ≤ q then (a, size a) :: takes (q - size a) l
    else [(a, q)]

/-- What is left of the demand. -/
def unmet : Q → List α → Q
  | q, [] => q
  | q, a :: l =>
    if q = 0 then 0
    else if size a ≤ q then unmet (q - size a) l
    else 0

/-- The elements taken whole. -/
def emptied : Q → List α → List α
  | _, [] => []
  | q, a :: l =>
    if q = 0 then []
    else if size a ≤ q then a :: emptied (q - size a) l
    else []

/-- What is left of the list; `shrink a q` is `a` after `q` has been taken from it. -/
def leftover (shrink : α → Q → α) : Q → List α → List α
  | _, [] => []
  | q, a :: l =>
    if q = 0 then a :: l
    else if size a ≤ q then leftover shrink (q - size a) l
    else shrink a q :: l

variable {size}

/-- Something is taken if something is asked for and there is an element. -/
theorem takes_eq_nil {q : Q} {l : List α} : takes size q l = [] ↔ q = 0 ∨ l = [] := by
  cases l with
  | nil => simp [takes]
  | cons a l =>
    unfold takes
    split
    next h => simp [h]
    next h => split <;> simp [h]

/-- The elements touched are a prefix of the list. -/
theorem takes_isPrefix : ∀ (q : Q) (l : List α), (takes size q l).map Prod.fst <+: l
  | _, [] => List.prefix_refl _
  | q, a :: l => by
    unfold takes
    split
    · exact List.nil_prefix
    · split
      · exact List.cons_prefix_cons.2 ⟨rfl, takes_isPrefix _ l⟩
      · exact List.cons_prefix_cons.2 ⟨rfl, List.nil_prefix⟩

/-- The list is the elements taken whole and the rest; the rest is untouched, or its first element is
taken in part and the demand is met. -/
theorem takes_leftover (shrink : α → Q → α) : ∀ (q : Q) (l : List α), ∃ rest, l = emptied size q l ++ rest ∧
    ((takes size q l = (emptied size q l).map (fun a => (a, size a)) ∧ leftover size shrink q l = rest) ∨
      ∃ a r rest', rest = a :: rest' ∧
        takes size q l = (emptied size q l).map (fun a => (a, size a)) ++ [(a, r)] ∧
        leftover size shrink q l = shrink a r :: rest' ∧ ¬ size a ≤ r ∧ r ≠ 0 ∧ unmet size q l = 0)
  | _, [] => ⟨[], rfl, .inl ⟨rfl, rfl⟩⟩
  | q, a :: l => by
    unfold takes leftover emptied unmet
    split
    · exact ⟨a :: l, rfl, .inl ⟨rfl, rfl⟩⟩
    · rename_i hq
      split
      · obtain ⟨rest, h1, h2⟩ := takes_leftover shrink (q - size a) l
        refine ⟨rest, by rw [List.cons_append, ← h1], ?_⟩
        rcases h2 with ⟨h2, h3⟩ | ⟨b, r, rest', h2, h3, h4, h5, h6, h7⟩
        · exact .inl ⟨by rw [h2]; rfl, h3⟩
        · exact .inr ⟨b, r, rest', h2, by rw [h3]; rfl, h4, h5, h6, h7⟩
      · rename_i hle
        exact ⟨a :: l, rfl, .inr ⟨a, q, l, rfl, rfl, rfl, hle, hq, rfl⟩⟩

/-- What shrinking does not change is read off the elements that are not taken whole. -/
theorem map_leftover {β : Type*} (shrink : α → Q → α) (f : α → β) (hf : ∀ a r, f (shrink a r) = f a)
    (q : Q) (l : List α) :
    l.map f = (emptied size q l).map f ++ (leftover size shrink q l).map f := by
  obtain ⟨rest, h1, h2⟩ := takes_leftover shrink q l
  have hrest : (leftover size shrink q l).map f = rest.map f := by
    rcases h2 with ⟨-, h2⟩ | ⟨a, r, rest', rfl, -, h2, -⟩
    · rw [h2]
    · rw [h2, List.map_cons, List.map_cons, hf]
  rw [hrest, ← List.map_append, ← h1]

/-- An element of the leftover is an untouched one or the one taken in part. -/
theorem mem_leftover (shrink : α → Q → α) {q : Q} {l : List α} {x : α} (h : x ∈ leftover size shrink q l) :
    x ∈ l ∨ ∃ a ∈ l, ∃ r, x = shrink a r ∧ ¬ size a ≤ r ∧ r ≠ 0 := by
  obtain ⟨rest, h1, h2⟩ := takes_leftover shrink q l
  rw [h1]
  rcases h2 with ⟨-, h2⟩ | ⟨a, r, rest', rfl, -, h2, h3, h4, -⟩
  · rw [h2] at h
    exact .inl (List.mem_append_right _ h)
  · rw [h2] at h
    rcases List.mem_cons.1 h with rfl | h
    · exact .inr ⟨a, List.mem_append_right _ (List.mem_cons_self ..), r, rfl, h3, h4⟩
    · exact .inl (List.mem_append_right _ (List.mem_cons_of_mem _ h))

/-- A total that no part taken from an element raises is not raised. -/
theorem sum_leftover_le (shrink : α → Q → α) (f : α → ℕ) (hf : ∀ a r, ¬ size a ≤ r → f (shrink a r) ≤ f a) (q : Q)
    (l : List α) : ((leftover size shrink q l).map f).sum ≤ (l.map f).sum := by
  obtain ⟨rest, h1, h2⟩ := takes_leftover shrink q l
  have hrest : ((leftover size shrink q l).map f).sum ≤ (rest.map f).sum := by
    rcases h2 with ⟨-, h2⟩ | ⟨a, r, rest', rfl, -, h2, hlt, -⟩
    · rw [h2]
    · have ha := hf a r hlt
      rw [h2, List.map_cons, List.map_cons, List.sum_cons, List.sum_cons]
      omega
  rw [h1, List.map_append, List.sum_append, ← h1]
  omega

/-- An element that is not taken whole is in the leftover, possibly shrunk. -/
theorem leftover_of_mem (shrink : α → Q → α) {q : Q} {l : List α} {a : α} (h : a ∈ l)
    (hne : a ∉ emptied size q l) :
    a ∈ leftover size shrink q l ∨ ∃ r, shrink a r ∈ leftover size shrink q l ∧ (a, r) ∈ takes size q l := by
  obtain ⟨rest, h1, h2⟩ := takes_leftover shrink q l
  have ha : a ∈ rest := by
    rw [h1] at h
    exact (List.mem_append.1 h).resolve_left hne
  rcases h2 with ⟨-, h2⟩ | ⟨b, r, rest', rfl, hb, h2, -⟩
  · rw [h2]; exact .inl ha
  · rw [h2]
    rcases List.mem_cons.1 ha with rfl | ha
    · exact .inr ⟨r, List.mem_cons_self .., by rw [hb]; exact List.mem_append_right _ (List.mem_singleton_self _)⟩
    · exact .inl (List.mem_cons_of_mem _ ha)

/-- A demand that is not met has exhausted the list. -/
theorem leftover_of_unmet (shrink : α → Q → α) : ∀ (q : Q) (l : List α), unmet size q l ≠ 0 →
    leftover size shrink q l = [] ∧ emptied size q l = l
  | _, [], _ => ⟨rfl, rfl⟩
  | q, a :: l, h => by
    unfold unmet at h
    unfold leftover emptied
    split
    · rename_i hq
      rw [if_pos hq] at h
      exact absurd rfl h
    · rename_i hq
      rw [if_neg hq] at h
      split
      · rename_i hle
        rw [if_pos hle] at h
        obtain ⟨h1, h2⟩ := leftover_of_unmet shrink (q - size a) l h
        exact ⟨h1, by rw [h2]⟩
      · rename_i hle
        rw [if_neg hle] at h
        exact absurd rfl h

/-- What stands behind an element that is not used up is untouched. -/
theorem mem_leftover_of_ahead (shrink : α → Q → α) {q : Q} {l : List α} {a b : α} (h : [a, b].Sublist l)
    (ha : a ∉ emptied size q l) : b ∈ leftover size shrink q l := by
  obtain ⟨rest, hl, hcases⟩ := @takes_leftover _ _ _ _ _ _ _ size shrink q l
  rw [hl] at h
  obtain ⟨l₁, l₂, heq, h₁, h₂⟩ := List.sublist_append_iff.1 h
  -- the first of the two is not among those used up, so both stand behind them
  have hrest : [a, b].Sublist rest := by
    cases l₁ with
    | nil =>
      rw [List.nil_append] at heq
      rwa [heq]
    | cons x l₁ =>
      rw [List.cons_append, List.cons.injEq] at heq
      rw [heq.1] at ha
      exact absurd (h₁.subset (List.mem_cons_self ..)) ha
  rcases hcases with ⟨-, hleft⟩ | ⟨c, r, rest', rfl, -, hleft, -⟩
  · rw [hleft]
    exact hrest.subset (by simp)
  · rw [hleft]
    refine List.mem_cons_of_mem _ ?_
    cases hrest with
    | cons _ h => exact h.subset (by simp)
    | cons_cons _ h => exact h.subset (by simp)

/-- Every take but one that ends the demand uses up an element. -/
theorem length_takes_leftover (shrink : α → Q → α) (q : Q) (l : List α) :
    (takes size q l).length + (leftover size shrink q l).length ≤ l.length + if unmet size q l = 0 then 1 else 0 := by
  obtain ⟨rest, h1, h2⟩ := @takes_leftover _ _ _ _ _ _ _ size shrink q l
  have hlen : l.length = (emptied size q l).length + rest.length := by rw [← List.length_append, ← h1]
  rcases h2 with ⟨htakes, hleft⟩ | ⟨a, r, rest', rfl, htakes, hleft, -, -, hmet⟩
  · rw [htakes, hleft, List.length_map]
    omega
  · rw [htakes, hleft, if_pos hmet, List.length_append, List.length_map]
    simp only [List.length_cons, List.length_nil] at hlen ⊢
    omega

/-- Where nothing is taken the whole demand is left. -/
theorem unmet_of_takes_eq_nil {q : Q} {l : List α} (h : takes size q l = []) : unmet size q l = q := by
  cases l with
  | nil => rfl
  | cons a l =>
    unfold takes at h
    unfold unmet
    split at h
    · rename_i hq
      rw [if_pos hq, hq]
    · split at h <;> cases h

end Defs

/-! ## Totals -/

section Totals

variable {size : α → ℕ}

/-- The total taken is the demand or everything there is, whichever is less. -/
theorem takes_sum : ∀ (q : ℕ) (l : List α),
    ((takes size q l).map Prod.snd).sum = min q (l.map size).sum
  | q, [] => by simp [takes]
  | q, a :: l => by
    unfold takes
    split
    · simp_all
    · split
      · simp only [List.map_cons, List.sum_cons, takes_sum (q - size a) l]
        omega
      · simp only [List.map_cons, List.map_nil, List.sum_cons, List.sum_nil]
        omega

theorem unmet_eq : ∀ (q : ℕ) (l : List α), unmet size q l = q - (l.map size).sum
  | q, [] => by simp [unmet]
  | q, a :: l => by
    unfold unmet
    split
    · simp_all
    · split
      · rw [unmet_eq (q - size a) l, List.map_cons, List.sum_cons]
        omega
      · simp only [List.map_cons, List.sum_cons]
        omega

/-- Each take is positive and at most the element's size. -/
theorem takes_bounds : ∀ (q : ℕ) (l : List α), (∀ a ∈ l, 0 < size a) →
    ∀ t ∈ takes size q l, 0 < t.2 ∧ t.2 ≤ size t.1
  | q, [], _, t, ht => by simp [takes] at ht
  | q, a :: l, h, t, ht => by
    unfold takes at ht
    split at ht
    · simp at ht
    · split at ht
      · rcases List.mem_cons.1 ht with rfl | ht
        · exact ⟨h a (List.mem_cons_self ..), le_refl _⟩
        · exact takes_bounds (q - size a) l (fun b hb => h b (List.mem_cons_of_mem _ hb)) t ht
      · simp only [List.mem_singleton] at ht
        subst ht
        simp only
        omega

/-- An element is touched exactly when the elements before it do not cover the demand. -/
theorem mem_takes_iff {a : α} : ∀ (q : ℕ) (l : List α), a ∈ (takes size q l).map Prod.fst ↔
    ∃ l₁ l₂, l = l₁ ++ a :: l₂ ∧ (l₁.map size).sum < q
  | q, [] => by simp [takes]
  | q, b :: l => by
    constructor
    · intro h
      unfold takes at h
      split at h
      · cases h
      · rename_i hq
        split at h
        · rename_i hle
          rw [List.map_cons, List.mem_cons] at h
          rcases h with rfl | h
          · exact ⟨[], l, rfl, by simpa using Nat.pos_of_ne_zero hq⟩
          · obtain ⟨l₁, l₂, rfl, hlt⟩ := (mem_takes_iff (q - size b) l).1 h
            refine ⟨b :: l₁, l₂, rfl, ?_⟩
            rw [List.map_cons, List.sum_cons]
            omega
        · simp only [List.map_cons, List.map_nil, List.mem_singleton] at h
          subst h
          exact ⟨[], l, rfl, by simpa using Nat.pos_of_ne_zero hq⟩
    · rintro ⟨l₁, l₂, heq, hlt⟩
      have hq : q ≠ 0 := by omega
      unfold takes
      rw [if_neg hq]
      -- either it comes first, or what comes first is taken whole
      cases l₁ with
      | nil =>
        obtain ⟨rfl, rfl⟩ := List.cons.inj heq
        split <;> exact List.mem_cons_self ..
      | cons c l₁ =>
        obtain ⟨rfl, rfl⟩ := List.cons.inj heq
        rw [List.map_cons, List.sum_cons] at hlt
        rw [if_pos (by omega), List.map_cons]
        exact List.mem_cons_of_mem _ ((mem_takes_iff (q - size b) _).2 ⟨l₁, l₂, rfl, by omega⟩)

end Totals

/-! ## Changing the amounts -/

/-- Greedy allocation commutes with a map of amounts that preserves zero, order and differences. -/
theorem takes_map {Q' : Type*} [Zero Q] [Sub Q] [LE Q] [DecidableLE Q] [DecidableEq Q]
    [Zero Q'] [Sub Q'] [LE Q'] [DecidableLE Q'] [DecidableEq Q'] (size : α → Q) (f : Q → Q')
    (hzero : ∀ q, f q = 0 ↔ q = 0) (hle : ∀ a b, f a ≤ f b ↔ a ≤ b)
    (hsub : ∀ a b, b ≤ a → f (a - b) = f a - f b) :
    ∀ (q : Q) (l : List α),
      takes (fun a => f (size a)) (f q) l = (takes size q l).map (Prod.map id f) ∧
        unmet (fun a => f (size a)) (f q) l = f (unmet size q l) ∧
        emptied (fun a => f (size a)) (f q) l = emptied size q l
  | q, [] => ⟨rfl, rfl, rfl⟩
  | q, a :: l => by
    have h0 : f 0 = 0 := (hzero 0).2 rfl
    unfold takes unmet emptied
    by_cases hq : q = 0
    · simp [hq, h0]
    · have hfq : ¬ f q = 0 := fun h => hq ((hzero q).1 h)
      simp only [hq, hfq, if_false, hle]
      by_cases ha : size a ≤ q
      · obtain ⟨h1, h2, h3⟩ := takes_map size f hzero hle hsub (q - size a) l
        rw [hsub q (size a) ha] at h1 h2 h3
        simp [ha, h1, h2, h3]
      · simp [ha, h0]

section Comp

variable {β : Type*} [Zero Q] [Sub Q] [LE Q] [DecidableLE Q] [DecidableEq Q] (f : α → β) (size : β → Q)

/-- Greedy allocation over the images of the elements. -/
theorem takes_comp : ∀ (q : Q) (l : List α),
    takes size q (l.map f) = (takes (fun a => size (f a)) q l).map (Prod.map f id) ∧
      unmet size q (l.map f) = unmet (fun a => size (f a)) q l ∧
      emptied size q (l.map f) = (emptied (fun a => size (f a)) q l).map f
  | _, [] => ⟨rfl, rfl, rfl⟩
  | q, a :: l => by
    rw [List.map_cons]
    unfold takes unmet emptied
    split
    · exact ⟨rfl, rfl, rfl⟩
    · split
      · obtain ⟨h1, h2, h3⟩ := takes_comp (q - size (f a)) l
        exact ⟨by rw [h1]; rfl, h2, by rw [h3]; rfl⟩
      · exact ⟨rfl, rfl, rfl⟩

theorem leftover_comp {shrink : α → Q → α} {shrink' : β → Q → β} (hshrink : ∀ a r, f (shrink a r) = shrink' (f a) r) :
    ∀ (q : Q) (l : List α),
      leftover size shrink' q (l.map f) = (leftover (fun a => size (f a)) shrink q l).map f
  | _, [] => rfl
  | q, a :: l => by
    rw [List.map_cons]
    unfold leftover
    split
    · rfl
    · split
      · exact leftover_comp hshrink (q - size (f a)) l
      · rw [List.map_cons, hshrink]

end Comp

/-- Of two elements of a list that is in order, the one that does not come behind the other stands in front. -/
theorem pair_sublist {α : Type*} {R : α → α → Prop} {l : List α} {a b : α} (h : l.Pairwise R) (ha : a ∈ l)
    (hb : b ∈ l) (hne : a ≠ b) (hR : ¬ R b a) : [a, b].Sublist l := by
  obtain ⟨l₁, l₂, rfl⟩ := List.append_of_mem ha
  rw [List.pairwise_append] at h
  have hmem : b ∈ l₂ := by
    rcases List.mem_append.1 hb with hb | hb
    · exact absurd (h.2.2 b hb a (List.mem_cons_self ..)) hR
    · exact (List.mem_cons.1 hb).resolve_left (Ne.symm hne)
  exact ((List.singleton_sublist.2 hmem).cons_cons a).trans (List.sublist_append_right ..)

theorem pair_sublist_append {α : Type*} {l l' : List α} {a b : α} (h : [a, b].Sublist (l ++ l')) :
    [a, b].Sublist l ∨ b ∈ l' := by
  obtain ⟨l₁, l₂, heq, h₁, h₂⟩ := List.sublist_append_iff.1 h
  rcases l₁ with _ | ⟨x, _ | ⟨y, l₁⟩⟩
  · rw [List.nil_append] at heq
    rw [← heq] at h₂
    exact .inr (h₂.subset (by simp))
  · simp only [List.cons_append, List.nil_append, List.cons.injEq] at heq
    rw [← heq.2] at h₂
    exact .inr (h₂.subset (by simp))
  · simp only [List.cons_append, List.cons.injEq, List.nil_eq, List.append_eq_nil_iff] at heq
    obtain ⟨rfl, rfl, rfl, -⟩ := heq
    exact .inl h₁

end Greedy
