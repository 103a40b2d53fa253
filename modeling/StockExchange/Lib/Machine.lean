/-
Machines: a step function that an action may be refused by, the runs of lists of actions, and the
rule that what every step keeps holds after every run. A history variable may be carried along: it sees
every step and changes none.
-/
import Mathlib.Algebra.BigOperators.Group.List.Basic
import Mathlib.Algebra.GroupWithZero.Nat
import Mathlib.Data.List.Infix

universe u v

namespace Machine

variable {σ : Type u} {α : Type v} (step : σ → α → Option σ)

/-- The state after a list of actions, if none is refused. -/
def run : σ → List α → Option σ
  | s, [] => some s
  | s, a :: as => (step s a).bind fun s' => run s' as

/-- Every step of a run, with the state it is taken in, is one of `C`. -/
def Along (C : σ → α → Prop) : σ → List α → Prop
  | _, [] => True
  | s, a :: as => C s a ∧ ∀ s' ∈ step s a, Along C s' as

instance decidableAlong (C : σ → α → Prop) [∀ s a, Decidable (C s a)] : ∀ (as : List α) (s : σ),
    Decidable (Along step C s as)
  | [], _ => .isTrue trivial
  | a :: as, s =>
    have : ∀ s', Decidable (Along step C s' as) := fun s' => decidableAlong C as s'
    inferInstanceAs (Decidable (C s a ∧ ∀ s' ∈ step s a, Along step C s' as))

variable {step}

theorem run_append : ∀ (as bs : List α) (s : σ), run step s (as ++ bs) = (run step s as).bind fun s' => run step s' bs
  | [], _, _ => rfl
  | a :: as, bs, s => by
    rw [List.cons_append, run, run, Option.bind_assoc]
    exact Option.bind_congr fun s' _ => run_append as bs s'

/-- What every step by an admitted action keeps, holds after every run of such actions. -/
theorem run_invariant {P : σ → Prop} {admitted : α → Prop}
    (hstep : ∀ s a s', admitted a → step s a = some s' → P s → P s') :
    ∀ (as : List α) (s s' : σ), (∀ a ∈ as, admitted a) → run step s as = some s' → P s → P s'
  | [], s, s', _, h, hs => by
    cases h
    exact hs
  | a :: as, s, s', hok, h, hs => by
    obtain ⟨s₁, h₁, h⟩ := Option.bind_eq_some_iff.1 h
    have hs₁ : P s₁ := hstep s a s₁ (hok a (List.mem_cons_self ..)) h₁ hs
    exact run_invariant hstep as s₁ s' (fun b hb => hok b (List.mem_cons_of_mem _ hb)) h hs₁

/-- What every step of `C` by an admitted action keeps, holds after every run of such steps. -/
theorem run_invariant_along {P : σ → Prop} {admitted : α → Prop} {C : σ → α → Prop}
    (hstep : ∀ s a s', admitted a → C s a → step s a = some s' → P s → P s') :
    ∀ (as : List α) (s s' : σ), (∀ a ∈ as, admitted a) → Along step C s as → run step s as = some s' → P s → P s'
  | [], s, s', _, _, h, hs => by
    cases h
    exact hs
  | a :: as, s, s', hok, ⟨hc, halong⟩, h, hs => by
    obtain ⟨s₁, h₁, h⟩ := Option.bind_eq_some_iff.1 h
    have hs₁ : P s₁ := hstep s a s₁ (hok a (List.mem_cons_self ..)) hc h₁ hs
    exact run_invariant_along hstep as s₁ s' (fun b hb => hok b (List.mem_cons_of_mem _ hb)) (halong s₁ h₁) h hs₁

/-- If every step by an action of one kind takes one off a potential, and every step by an action of another kind adds at
most `c`, then the actions of the first kind are bounded by what there was and what those of the second kind bring. -/
theorem run_potential {I : σ → Prop} {admitted : α → Prop} (potential : σ → ℕ) (spends brings : α → Bool) (c : ℕ)
    (hI : ∀ s a s', admitted a → step s a = some s' → I s → I s')
    (hstep : ∀ s a s', step s a = some s' → I s →
      (if spends a then 1 else 0) + potential s' ≤ potential s + if brings a then c else 0) :
    ∀ (as : List α) (s s' : σ), (∀ a ∈ as, admitted a) → run step s as = some s' → I s →
      as.countP spends + potential s' ≤ potential s + c * as.countP brings
  | [], s, s', _, h, _ => by
    cases h
    exact Nat.le_of_eq (Nat.add_comm ..)
  | a :: as, s, s', hok, h, hs => by
    obtain ⟨s₁, h₁, h⟩ := Option.bind_eq_some_iff.1 h
    have hfirst := hstep s a s₁ h₁ hs
    have hrest := run_potential potential spends brings c hI hstep as s₁ s'
      (fun b hb => hok b (List.mem_cons_of_mem _ hb)) h (hI s a s₁ (hok a (List.mem_cons_self ..)) h₁ hs)
    have hbrings : c * (a :: as).countP brings = c * as.countP brings + if brings a then c else 0 := by
      rw [List.countP_cons, Nat.mul_add]
      cases brings a <;> simp
    rw [hbrings, List.countP_cons]
    omega

/-- If, in the states of an invariant, the steps of `C` are those of `D`, then so it is along every run. -/
theorem along_congr {I : σ → Prop} {C D : σ → α → Prop} (hI : ∀ s a s', step s a = some s' → I s → I s')
    (h : ∀ s a, I s → (C s a ↔ D s a)) : ∀ (as : List α) (s : σ), I s → (Along step C s as ↔ Along step D s as)
  | [], _, _ => Iff.rfl
  | a :: as, s, hs => by
    refine and_congr (h s a hs) (forall₂_congr fun s' hs' => ?_)
    exact along_congr hI h as s' (hI s a s' hs' hs)

/-- If, in the states of an invariant, the steps by admitted actions that keep `P` are those of `C`, then `P` holds in
all states of a run of such actions exactly when all steps of the run are of `C`. -/
theorem always_iff_along_of_admitted {I P : σ → Prop} {admitted : α → Prop} {C : σ → α → Prop}
    (hI : ∀ s a s', admitted a → step s a = some s' → I s → I s')
    (h : ∀ s a, admitted a → I s → P s → ((∀ s' ∈ step s a, P s') ↔ C s a)) : ∀ (as : List α) (s : σ),
      (∀ a ∈ as, admitted a) → I s → P s →
      ((∀ pre, pre <+: as → ∀ s', run step s pre = some s' → P s') ↔ Along step C s as)
  | [], s, _, hs, hp => by
    refine ⟨fun _ => trivial, fun _ pre hpre s' hrun => ?_⟩
    rw [List.prefix_nil.1 hpre] at hrun
    cases hrun
    exact hp
  | a :: as, s, hok, hs, hp => by
    have ha : admitted a := hok a (List.mem_cons_self ..)
    have hfirst := h s a ha hs hp
    have hrest : ∀ s' ∈ step s a, P s' → ((∀ pre, pre <+: as → ∀ s'', run step s' pre = some s'' → P s'') ↔
        Along step C s' as) := fun s' hs' hp' =>
      always_iff_along_of_admitted hI h as s' (fun b hb => hok b (List.mem_cons_of_mem _ hb)) (hI s a s' ha hs' hs) hp'
    constructor
    · intro hall
      have hnext : ∀ s' ∈ step s a, P s' := fun s' hs' => by
        refine hall [a] (List.prefix_cons_inj a |>.2 (List.nil_prefix ..)) s' ?_
        rw [run, hs', Option.bind_some, run]
      refine ⟨hfirst.1 hnext, fun s' hs' => (hrest s' hs' (hnext s' hs')).1 fun pre hpre s'' hrun => ?_⟩
      refine hall (a :: pre) (List.prefix_cons_inj a |>.2 hpre) s'' ?_
      rw [run, hs', Option.bind_some, hrun]
    · rintro ⟨hc, halong⟩ pre hpre s' hrun
      cases pre with
      | nil =>
        cases hrun
        exact hp
      | cons b pre =>
        obtain ⟨rfl, hpre'⟩ := List.cons_prefix_cons.1 hpre
        obtain ⟨s₁, h₁, hrun⟩ := Option.bind_eq_some_iff.1 hrun
        exact (hrest s₁ h₁ (hfirst.2 hc s₁ h₁)).2 (halong s₁ h₁) pre hpre' s' hrun

/-- The same where every action is admitted. -/
theorem always_iff_along {I P : σ → Prop} {C : σ → α → Prop} (hI : ∀ s a s', step s a = some s' → I s → I s')
    (h : ∀ s a, I s → P s → ((∀ s' ∈ step s a, P s') ↔ C s a)) (as : List α) (s : σ) (hs : I s) (hp : P s) :
    (∀ pre, pre <+: as → ∀ s', run step s pre = some s' → P s') ↔ Along step C s as :=
  @always_iff_along_of_admitted σ α step I P (fun _ => True) C (fun s a s' _ => hI s a s') (fun s a _ => h s a) as s
    (fun _ _ => trivial) hs hp

/-- A function that refuses nothing runs as a fold. -/
theorem run_total (f : σ → α → σ) : ∀ (as : List α) (s : σ), run (fun s a => some (f s a)) s as = some (as.foldl f s)
  | [], _ => rfl
  | a :: as, s => by rw [run, Option.bind_some, run_total f as, List.foldl_cons]

/-- Induction over a run, with the actions taken so far. -/
theorem run_induction {P : List α → σ → Prop} (hstep : ∀ done s a s', step s a = some s' → P done s → P (done ++ [a]) s') :
    ∀ (as done : List α) (s s' : σ), run step s as = some s' → P done s → P (done ++ as) s'
  | [], done, s, s', h, hs => by
    cases h
    rw [List.append_nil]
    exact hs
  | a :: as, done, s, s', h, hs => by
    obtain ⟨s₁, h₁, h⟩ := Option.bind_eq_some_iff.1 h
    have hrest := run_induction hstep as (done ++ [a]) s₁ s' h (hstep done s a s₁ h₁ hs)
    rwa [List.append_assoc] at hrest

/-- If every step by an admitted action is seen as a step of another machine or not seen at all, then every run of such
actions is seen as a run. -/
theorem run_simulates {τ : Type*} {β : Type*} {step' : τ → β → Option τ} {view : σ → τ} {I : σ → Prop} {admitted : α → Prop}
    {Q : β → Prop} (hI : ∀ s a s', admitted a → step s a = some s' → I s → I s')
    (h : ∀ s a s', step s a = some s' → I s → view s' = view s ∨ ∃ b, Q b ∧ step' (view s) b = some (view s')) :
    ∀ (as : List α) (s s' : σ), (∀ a ∈ as, admitted a) → run step s as = some s' → I s →
      ∃ bs, (∀ b ∈ bs, Q b) ∧ run step' (view s) bs = some (view s')
  | [], s, s', _, hrun, _ => by
    cases hrun
    exact ⟨[], nofun, rfl⟩
  | a :: as, s, s', hok, hrun, hs => by
    obtain ⟨s₁, h₁, hrun⟩ := Option.bind_eq_some_iff.1 hrun
    have hs₁ : I s₁ := hI s a s₁ (hok a (List.mem_cons_self ..)) h₁ hs
    obtain ⟨bs, hbs, hview⟩ := run_simulates hI h as s₁ s' (fun b hb => hok b (List.mem_cons_of_mem _ hb)) hrun hs₁
    rcases h s a s₁ h₁ hs with heq | ⟨b, hb, hstep⟩
    · rw [heq] at hview
      exact ⟨bs, hbs, hview⟩
    · refine ⟨b :: bs, List.forall_mem_cons.2 ⟨hb, hbs⟩, ?_⟩
      rw [run, hstep, Option.bind_some, hview]

section Trace

variable {β : Type*} (step) (label : σ → α → List β)

/-- What is seen of a run, each step having a label. -/
def trace : σ → List α → List β
  | _, [] => []
  | s, a :: as => label s a ++ ((step s a).map fun s' => trace s' as).getD []

variable {step label}

/-- If another machine can do what is seen of each step, then it can do what is seen of a run. -/
theorem run_trace {τ : Type*} {step' : τ → β → Option τ} {view : σ → τ} {I : σ → Prop}
    (hI : ∀ s a s', step s a = some s' → I s → I s')
    (h : ∀ s a s', step s a = some s' → I s → run step' (view s) (label s a) = some (view s')) :
    ∀ (as : List α) (s s' : σ), run step s as = some s' → I s → run step' (view s) (trace step label s as) = some (view s')
  | [], s, s', hrun, _ => by
    cases hrun
    rfl
  | a :: as, s, s', hrun, hs => by
    obtain ⟨s₁, h₁, hrun⟩ := Option.bind_eq_some_iff.1 hrun
    rw [trace, h₁, Option.map_some, Option.getD_some, run_append, h s a s₁ h₁ hs, Option.bind_some]
    exact run_trace hI h as s₁ s' hrun (hI s a s₁ h₁ hs)

end Trace

/-! ## History variables -/

section Traced

variable {γ : Type*} (step) (record : σ → α → γ → γ)

/-- The machine with a history variable. -/
def traced (s : σ × γ) (a : α) : Option (σ × γ) := (step s.1 a).map fun s' => (s', record s.1 a s.2)

variable {step record}

theorem traced_eq_some {s s' : σ × γ} {a : α} :
    traced step record s a = some s' ↔ step s.1 a = some s'.1 ∧ s'.2 = record s.1 a s.2 := by
  unfold traced
  rw [Option.map_eq_some_iff]
  constructor
  · rintro ⟨t, ht, rfl⟩
    exact ⟨ht, rfl⟩
  · rintro ⟨ht, hr⟩
    exact ⟨s'.1, ht, by rw [← hr]⟩

end Traced

end Machine
