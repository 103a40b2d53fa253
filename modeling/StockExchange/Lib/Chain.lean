/-
Neighbours in a list: `Follows l a b` says that `b` stands right behind `a`. In a list without repetitions every
element has one successor at most and the last one has none; taking the first element away or adding one at the end
changes one pair of neighbours.
-/
import Mathlib.Data.List.Nodup

universe u

namespace Chain

variable {α : Type u} {l : List α} {a b c : α}

/-- `b` stands right behind `a`. -/
def Follows : List α → α → α → Prop
  | x :: y :: l, a, b => (x = a ∧ y = b) ∨ Follows (y :: l) a b
  | _, _, _ => False

theorem follows_cons (x : α) : ∀ {l : List α}, Follows (x :: l) a b ↔ (x = a ∧ l.head? = some b) ∨ Follows l a b
  | [] => by simp [Follows]
  | y :: l => by simp [Follows]

theorem Follows.of_tail {x : α} (h : Follows l a b) : Follows (x :: l) a b := (follows_cons x).2 (.inr h)

theorem follows_snoc (z : α) : ∀ {l : List α},
    Follows (l ++ [z]) a b ↔ Follows l a b ∨ (l.getLast? = some a ∧ z = b)
  | [] => by simp [Follows]
  | [x] => by simp [Follows]
  | x :: y :: l => by
    rw [List.cons_append, follows_cons, follows_snoc z, follows_cons x, List.getLast?_cons_cons, or_assoc]
    rfl

theorem Follows.mem : ∀ {l : List α}, Follows l a b → a ∈ l ∧ b ∈ l
  | [], h => h.elim
  | x :: l, h => by
    rcases (follows_cons x).1 h with ⟨rfl, hb⟩ | h
    · exact ⟨List.mem_cons_self .., List.mem_cons_of_mem _ (List.mem_of_mem_head? hb)⟩
    · exact ⟨List.mem_cons_of_mem _ h.mem.1, List.mem_cons_of_mem _ h.mem.2⟩

/-- An element of a list without repetitions has one successor at most. -/
theorem Follows.unique : ∀ {l : List α}, l.Nodup → Follows l a b → Follows l a c → b = c
  | [], _, h, _ => h.elim
  | x :: l, hd, hab, hac => by
    rw [List.nodup_cons] at hd
    rcases (follows_cons x).1 hab with ⟨rfl, hb⟩ | hb
    · rcases (follows_cons x).1 hac with ⟨-, hc⟩ | hc
      · exact Option.some.inj (hb.symm.trans hc)
      · exact absurd hc.mem.1 hd.1
    · rcases (follows_cons x).1 hac with ⟨rfl, -⟩ | hc
      · exact absurd hb.mem.1 hd.1
      · exact hb.unique hd.2 hc

/-- The last element has no successor. -/
theorem Follows.ne_last : ∀ {l : List α}, l.Nodup → Follows l a b → l.getLast? ≠ some a
  | [], _, h => h.elim
  | [x], _, h => h.elim
  | x :: y :: l, hd, h => by
    rw [List.nodup_cons] at hd
    rw [List.getLast?_cons_cons]
    rcases (follows_cons x).1 h with ⟨rfl, -⟩ | h
    · intro hlast
      exact hd.1 (List.mem_of_getLast? hlast)
    · exact h.ne_last hd.2

end Chain
