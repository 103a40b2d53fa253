/-
An ordered associative container: the entries of a map kept strictly sorted by a comparator, with
lookup, insertion through a default, update-or-erase of one entry, and the loop that walks the
entries from the front and may erase or rewrite each one before it goes on. A value always carries
the proof that its keys are sorted, so two maps are equal as soon as their entries are.
-/
import Mathlib.Order.Defs.Unbundled
import Mathlib.Order.RelClasses
import Mathlib.Data.List.Pairwise
import Mathlib.Data.List.Nodup

universe u v w

/-- A map from `K` to `V` whose entries are strictly sorted by `lt`. -/
@[ext] structure OrderedMap {K : Type u} (lt : K → K → Prop) (V : Type v) where
  entries : List (K × V)
  sorted : entries.Pairwise fun a b => lt a.1 b.1

namespace OrderedMap

variable {K : Type u} {V : Type v} {lt : K → K → Prop}

def empty : OrderedMap lt V := ⟨[], .nil⟩

@[simp] theorem empty_entries : (empty : OrderedMap lt V).entries = [] := rfl

/-! ## Lookup -/

theorem keys_nodup [Std.Irrefl lt] (m : OrderedMap lt V) : (m.entries.map Prod.fst).Nodup := by
  rw [List.Nodup, List.pairwise_map]
  refine m.sorted.imp fun {a b} hab heq => ?_
  rw [heq] at hab
  exact Std.Irrefl.irrefl _ hab

theorem eq_of_key_eq [Std.Irrefl lt] (m : OrderedMap lt V) {k : K} {v v' : V}
    (h : (k, v) ∈ m.entries) (h' : (k, v') ∈ m.entries) : v = v' :=
  (Prod.mk.inj (List.inj_on_of_nodup_map m.keys_nodup h h' rfl)).2

/-- A map is the set of its entries. -/
theorem ext_mem [IsStrictTotalOrder K lt] {m m' : OrderedMap lt V} (h : ∀ e, e ∈ m.entries ↔ e ∈ m'.entries) :
    m = m' := by
  have hnodup : ∀ m : OrderedMap lt V, m.entries.Nodup := fun m => m.keys_nodup.of_map
  have hperm : m.entries.Perm m'.entries := (List.perm_ext_iff_of_nodup (hnodup m) (hnodup m')).2 h
  refine OrderedMap.ext (hperm.eq_of_pairwise (fun a b _ _ hab hba => ?_) m.sorted m'.sorted)
  exact absurd (IsTrans.trans _ _ _ hab hba) (Std.Irrefl.irrefl a.1)

section Lookup

variable [DecidableEq K]

/-- Only one entry has its key. -/
theorem filter_key [Std.Irrefl lt] (m : OrderedMap lt V) {e : K × V} (h : e ∈ m.entries) :
    m.entries.filter (fun e' => e'.1 = e.1) = [e] := by
  refine List.perm_singleton.1 ((List.perm_ext_iff_of_nodup (m.keys_nodup.of_map.filter _) (List.nodup_singleton e)).2
    fun e' => ?_)
  rw [List.mem_filter, List.mem_singleton, decide_eq_true_eq]
  refine ⟨fun he => List.inj_on_of_nodup_map m.keys_nodup he.1 h he.2, ?_⟩
  rintro rfl
  exact ⟨h, rfl⟩

/-- The value stored under `k`. -/
def find? (m : OrderedMap lt V) (k : K) : Option V :=
  (m.entries.find? fun e => e.1 = k).map Prod.snd

theorem find?_eq_some [Std.Irrefl lt] (m : OrderedMap lt V) {k : K} {v : V} :
    m.find? k = some v ↔ (k, v) ∈ m.entries := by
  unfold find?
  constructor
  · intro h
    obtain ⟨e, he, rfl⟩ := Option.map_eq_some_iff.1 h
    have hk : e.1 = k := by simpa using List.find?_some he
    have := List.mem_of_find?_eq_some he
    rwa [← hk]
  · intro h
    cases hf : m.entries.find? fun e => e.1 = k with
    | none =>
      rw [List.find?_eq_none] at hf
      simpa using hf _ h
    | some e =>
      have hk : e.1 = k := by simpa using List.find?_some hf
      have hm := List.mem_of_find?_eq_some hf
      have : e.2 = v := by
        refine eq_of_key_eq m (k := k) ?_ h
        rw [← hk]; exact hm
      simp [this]

theorem find?_eq_none (m : OrderedMap lt V) {k : K} :
    m.find? k = none ↔ ∀ v, (k, v) ∉ m.entries := by
  unfold find?
  rw [Option.map_eq_none_iff, List.find?_eq_none]
  constructor
  · intro h v hv
    simpa using h _ hv
  · rintro h ⟨k', v⟩ he
    simp only [decide_eq_true_eq]
    rintro rfl
    exact h v he

end Lookup

/-! ## Insertion through a default -/

section Upsert

variable [DecidableEq K] [DecidableRel lt]

/-- The entry list after `m[k] = f(m[k])`; `f` gets `none` when the key is new. -/
def upsertEntries (lt : K → K → Prop) [DecidableRel lt] (k : K) (f : Option V → V) :
    List (K × V) → List (K × V)
  | [] => [(k, f none)]
  | (k', v) :: es =>
    if lt k k' then (k, f none) :: (k', v) :: es
    else if k = k' then (k, f (some v)) :: es
    else (k', v) :: upsertEntries lt k f es

theorem upsertEntries_key {k : K} {f : Option V → V} {e : K × V} :
    ∀ {es : List (K × V)}, e ∈ upsertEntries lt k f es → e.1 = k ∨ e ∈ es
  | [], h => by
    simp only [upsertEntries, List.mem_singleton] at h
    subst h; exact .inl rfl
  | (k', v) :: es, h => by
    unfold upsertEntries at h
    split at h
    · rcases List.mem_cons.1 h with rfl | h
      · exact .inl rfl
      · exact .inr h
    · split at h
      · rcases List.mem_cons.1 h with rfl | h
        · exact .inl rfl
        · exact .inr (List.mem_cons_of_mem _ h)
      · rcases List.mem_cons.1 h with rfl | h
        · exact .inr (List.mem_cons_self ..)
        · rcases upsertEntries_key h with h | h
          · exact .inl h
          · exact .inr (List.mem_cons_of_mem _ h)

theorem upsertEntries_sorted [IsStrictTotalOrder K lt] (k : K) (f : Option V → V) :
    ∀ (es : List (K × V)), es.Pairwise (fun a b => lt a.1 b.1) →
      (upsertEntries lt k f es).Pairwise fun a b => lt a.1 b.1
  | [], _ => List.pairwise_singleton ..
  | (k', v) :: es, h => by
    obtain ⟨hlt, hes⟩ := List.pairwise_cons.1 h
    unfold upsertEntries
    split
    · rename_i hk
      refine List.pairwise_cons.2 ⟨fun e he => ?_, h⟩
      rcases List.mem_cons.1 he with rfl | he
      · exact hk
      · exact IsTrans.trans _ _ _ hk (hlt e he)
    · rename_i hk
      split
      · rename_i heq
        subst heq
        exact List.pairwise_cons.2 ⟨hlt, hes⟩
      · rename_i hne
        refine List.pairwise_cons.2 ⟨fun e he => ?_, upsertEntries_sorted k f es hes⟩
        rcases upsertEntries_key he with hek | he
        · -- not before `k'` and not `k'`, so after it
          rcases trichotomous_of lt k k' with h | h | h
          · exact absurd h hk
          · exact absurd h hne
          · rw [hek]; exact h
        · exact hlt e he

/-- `m[k]` updated by `f`, where a missing key is inserted at its place in the order. -/
def upsert [IsStrictTotalOrder K lt] (m : OrderedMap lt V) (k : K) (f : Option V → V) : OrderedMap lt V :=
  ⟨upsertEntries lt k f m.entries, upsertEntries_sorted k f m.entries m.sorted⟩

@[simp] theorem upsert_entries [IsStrictTotalOrder K lt] (m : OrderedMap lt V) (k : K) (f : Option V → V) :
    (m.upsert k f).entries = upsertEntries lt k f m.entries := rfl

theorem mem_upsertEntries [IsStrictTotalOrder K lt] {k : K} {f : Option V → V} {e : K × V} :
    ∀ {es : List (K × V)}, es.Pairwise (fun a b => lt a.1 b.1) →
      (e ∈ upsertEntries lt k f es ↔
        (e.1 ≠ k ∧ e ∈ es) ∨ e = (k, f ((es.find? fun e => e.1 = k).map Prod.snd)))
  | [], _ => by simp [upsertEntries]
  | (k', v) :: es, h => by
    obtain ⟨hlt, hes⟩ := List.pairwise_cons.1 h
    have hirr : ∀ a, ¬ lt a a := fun a => Std.Irrefl.irrefl a
    unfold upsertEntries
    split
    · -- the key goes in front, so it is not stored yet
      rename_i hk
      have hnot : ∀ e ∈ (k', v) :: es, e.1 ≠ k := by
        intro e he heq
        rcases List.mem_cons.1 he with rfl | he
        · rw [← heq] at hk; exact hirr _ hk
        · have := IsTrans.trans _ _ _ hk (hlt e he)
          rw [heq] at this; exact hirr _ this
      have hnone : ((k', v) :: es).find? (fun e => e.1 = k) = none := by
        rw [List.find?_eq_none]
        intro e he
        simpa using hnot e he
      rw [hnone, List.mem_cons]
      constructor
      · rintro (rfl | he)
        · exact .inr rfl
        · exact .inl ⟨hnot e he, he⟩
      · rintro (⟨-, he⟩ | rfl)
        · exact .inr he
        · exact .inl rfl
    · rename_i hk
      split
      · rename_i heq
        subst heq
        have hnot : ∀ e ∈ es, e.1 ≠ k := fun e he heq => by
          have := hlt e he
          rw [heq] at this; exact hirr _ this
        simp only [List.mem_cons, List.find?_cons, decide_true, Option.map_some]
        constructor
        · rintro (rfl | he)
          · exact .inr rfl
          · exact .inl ⟨hnot e he, .inr he⟩
        · rintro (⟨hne, rfl | he⟩ | rfl)
          · exact absurd rfl hne
          · exact .inr he
          · exact .inl rfl
      · rename_i hne
        have hne' : ¬ k' = k := fun h => hne h.symm
        rw [List.mem_cons, mem_upsertEntries hes, List.find?_cons, List.mem_cons]
        simp only [hne', decide_false]
        constructor
        · rintro (rfl | ⟨h1, h2⟩ | h)
          · exact .inl ⟨hne', .inl rfl⟩
          · exact .inl ⟨h1, .inr h2⟩
          · exact .inr h
        · rintro (⟨h1, rfl | h2⟩ | h)
          · exact .inl rfl
          · exact .inr (.inl ⟨h1, h2⟩)
          · exact .inr (.inr h)

/-- Membership after an upsert: the other keys keep their entries. -/
theorem mem_upsert [IsStrictTotalOrder K lt] (m : OrderedMap lt V) {k : K} {f : Option V → V} {e : K × V} :
    e ∈ (m.upsert k f).entries ↔ (e.1 ≠ k ∧ e ∈ m.entries) ∨ e = (k, f (m.find? k)) :=
  mem_upsertEntries m.sorted

end Upsert

/-! ## Update or erase one entry -/

section Update

variable [DecidableEq K]

/-- The entry under `k` rewritten by `f`, or erased where `f` answers `none`. -/
def update (m : OrderedMap lt V) (k : K) (f : V → Option V) : OrderedMap lt V where
  entries := m.entries.filterMap fun e => if e.1 = k then (f e.2).map (e.1, ·) else some e
  sorted := by
    refine m.sorted.filterMap _ fun a b hab a' ha b' hb => ?_
    have key : ∀ {e e' : K × V}, (if e.1 = k then (f e.2).map (e.1, ·) else some e) = some e' → e'.1 = e.1 := by
      intro e e' h
      split at h
      · obtain ⟨v, -, rfl⟩ := Option.map_eq_some_iff.1 h; rfl
      · cases h; rfl
    rw [key ha, key hb]
    exact hab

theorem mem_update (m : OrderedMap lt V) {k : K} {f : V → Option V} {e : K × V} :
    e ∈ (m.update k f).entries ↔
      (e.1 ≠ k ∧ e ∈ m.entries) ∨ (e.1 = k ∧ ∃ v, (k, v) ∈ m.entries ∧ f v = some e.2) := by
  unfold update
  simp only [List.mem_filterMap]
  constructor
  · rintro ⟨e', he', h⟩
    split at h
    · rename_i hk
      obtain ⟨v, hv, rfl⟩ := Option.map_eq_some_iff.1 h
      refine .inr ⟨hk, e'.2, ?_, hv⟩
      rw [← hk]; exact he'
    · rename_i hk
      cases h
      exact .inl ⟨hk, he'⟩
  · rintro (⟨hk, he⟩ | ⟨hk, v, hv, hf⟩)
    · exact ⟨e, he, by rw [if_neg hk]⟩
    · refine ⟨(k, v), hv, ?_⟩
      rw [if_pos rfl, hf, ← hk]; rfl

end Update

/-! ## Renaming keys and values -/

section Rekey

variable {K' : Type*} {V' : Type*} {lt' : K' → K' → Prop}

/-- The map with its keys renamed by `f` and its values by `g`, where `f` keeps the order of the keys
that occur. -/
def rekey (m : OrderedMap lt V) (f : K → K') (g : V → V')
    (h : ∀ e ∈ m.entries, ∀ e' ∈ m.entries, lt e.1 e'.1 → lt' (f e.1) (f e'.1)) : OrderedMap lt' V' where
  entries := m.entries.map (Prod.map f g)
  sorted := List.pairwise_map.2 (m.sorted.imp_of_mem fun he he' hlt => h _ he _ he' hlt)

/-- Renaming the elements of a map of queues renames them in the order of the queues. -/
theorem flatMap_rekey {α β : Type*} (f : K → K') (g : α → β) (es : List (K × List α)) :
    (es.map (Prod.map f (List.map g))).flatMap Prod.snd = (es.flatMap Prod.snd).map g := by
  induction es with
  | nil => rfl
  | cons e es ih => rw [List.map_cons, List.flatMap_cons, List.flatMap_cons, List.map_append, ih]; rfl

end Rekey

/-! ## Walking the entries from the front -/

section Walk

variable {σ : Type w}

/-- The loop over the entries from the front. For each entry the body either leaves the loop
(`none`), erases the entry and goes on (`some (none, s)`), or keeps it with a new value and goes on
(`some (some v, s)`). -/
def walkEntries (body : σ → K → V → Option (Option V × σ)) : List (K × V) → σ → List (K × V) × σ
  | [], s => ([], s)
  | (k, v) :: es, s =>
    match body s k v with
    | none => ((k, v) :: es, s)
    | some (none, s') => walkEntries body es s'
    | some (some v', s') => ((k, v') :: (walkEntries body es s').1, (walkEntries body es s').2)

theorem walkEntries_keys (body : σ → K → V → Option (Option V × σ)) :
    ∀ (es : List (K × V)) (s : σ),
      ((walkEntries body es s).1.map Prod.fst).Sublist (es.map Prod.fst)
  | [], s => List.Sublist.slnil
  | (k, v) :: es, s => by
    unfold walkEntries
    split
    · exact List.Sublist.refl _
    · rename_i s' _
      exact (walkEntries_keys body es s').cons _
    · rename_i v' s' _
      exact (walkEntries_keys body es s').cons_cons _

/-- The loop over the entries of a map. -/
def walk (m : OrderedMap lt V) (body : σ → K → V → Option (Option V × σ)) (s : σ) : OrderedMap lt V × σ :=
  (⟨(walkEntries body m.entries s).1, by
    have h := m.sorted
    rw [← List.pairwise_map (f := Prod.fst)] at h ⊢
    exact h.sublist (walkEntries_keys body m.entries s)⟩,
   (walkEntries body m.entries s).2)

@[simp] theorem walk_entries (m : OrderedMap lt V) (body : σ → K → V → Option (Option V × σ)) (s : σ) :
    (m.walk body s).1.entries = (walkEntries body m.entries s).1 := rfl

@[simp] theorem walk_state (m : OrderedMap lt V) (body : σ → K → V → Option (Option V × σ)) (s : σ) :
    (m.walk body s).2 = (walkEntries body m.entries s).2 := rfl

/-- What the body keeps true of each entry, the walk keeps true of all. -/
theorem walkEntries_forall {body : σ → K → V → Option (Option V × σ)} {P : K → V → Prop}
    (hbody : ∀ s k v v' s', P k v → body s k v = some (some v', s') → P k v') :
    ∀ (es : List (K × V)) (s : σ), (∀ e ∈ es, P e.1 e.2) → ∀ e ∈ (walkEntries body es s).1, P e.1 e.2
  | [], _, _, e, he => by simp [walkEntries] at he
  | (k, v) :: es, s, h, e, he => by
    have hes : ∀ e ∈ es, P e.1 e.2 := fun e he => h e (List.mem_cons_of_mem _ he)
    unfold walkEntries at he
    split at he
    · exact h e he
    · rename_i s' _
      exact walkEntries_forall hbody es s' hes e he
    · rename_i v' s' hb
      rcases List.mem_cons.1 he with rfl | he
      · exact hbody s k v v' s' (h (k, v) (List.mem_cons_self ..)) hb
      · exact walkEntries_forall hbody es s' hes e he

end Walk

/-! ## Maps of queues -/

section Queues

variable {α : Type v}

/-- All elements of a map of queues: the queues one after another, in key order. -/
def flat (m : OrderedMap lt (List α)) : List α := m.entries.flatMap Prod.snd

@[simp] theorem flat_empty : (empty : OrderedMap lt (List α)).flat = [] := rfl

theorem mem_flat {m : OrderedMap lt (List α)} {a : α} :
    a ∈ m.flat ↔ ∃ k q, (k, q) ∈ m.entries ∧ a ∈ q := by
  unfold flat
  rw [List.mem_flatMap]
  exact ⟨fun ⟨e, he, ha⟩ => ⟨e.1, e.2, he, ha⟩, fun ⟨k, q, he, ha⟩ => ⟨(k, q), he, ha⟩⟩

/-- Along a sorted list on which `p` is downward closed, the elements that satisfy it come first. -/
theorem takeWhile_eq_filter {α : Type v} {R : α → α → Prop} {p : α → Bool}
    (hp : ∀ a b, R a b → p b = true → p a = true) :
    ∀ (l : List α), l.Pairwise R →
      l.takeWhile p = l.filter p ∧ l.dropWhile p = l.filter fun a => !p a
  | [], _ => ⟨rfl, rfl⟩
  | a :: l, h => by
    obtain ⟨ha, hl⟩ := List.pairwise_cons.1 h
    obtain ⟨h1, h2⟩ := takeWhile_eq_filter hp l hl
    by_cases hpa : p a = true
    · simp [hpa, h1, h2]
    · have hall : ∀ b ∈ l, ¬ p b = true := fun b hb hpb => hpa (hp a b (ha b hb) hpb)
      have hnot : l.filter p = [] := List.filter_eq_nil_iff.2 hall
      have hself : l.filter (fun a => !p a) = l :=
        List.filter_eq_self.2 fun b hb => by simpa using hall b hb
      simp [hpa, hnot, hself]

/-- Selecting queues by their key selects the elements, when each element knows its key. -/
theorem flatMap_filter_key {key : α → K} (p : K → Bool) :
    ∀ (es : List (K × List α)), (∀ e ∈ es, ∀ a ∈ e.2, key a = e.1) →
      (es.filter fun e => p e.1).flatMap Prod.snd = (es.flatMap Prod.snd).filter fun a => p (key a)
  | [], _ => rfl
  | (k, q) :: es, h => by
    have ih := flatMap_filter_key p es fun e he => h e (List.mem_cons_of_mem _ he)
    have hq : ∀ a ∈ q, p (key a) = p k := fun a ha => by rw [h (k, q) (List.mem_cons_self ..) a ha]
    rw [List.flatMap_cons, List.filter_append, ← ih]
    by_cases hp : p k = true
    · have hself : (q.filter fun a => p (key a)) = q := List.filter_eq_self.2 fun a ha => by rw [hq a ha, hp]
      simp [hp, hself]
    · have hnil : (q.filter fun a => p (key a)) = [] :=
        List.filter_eq_nil_iff.2 fun a ha => by rw [hq a ha]; exact hp
      simp [hp, hnil]

variable [DecidableEq K]

/-- `m[k].push_back(a)`. -/
def pushBack [DecidableRel lt] [IsStrictTotalOrder K lt] (m : OrderedMap lt (List α)) (k : K) (a : α) :
    OrderedMap lt (List α) :=
  m.upsert k fun q => q.getD [] ++ [a]

theorem upsertEntries_push_perm [DecidableRel lt] (k : K) (a : α) :
    ∀ (es : List (K × List α)),
      ((upsertEntries lt k (fun q => q.getD [] ++ [a]) es).flatMap Prod.snd).Perm (a :: es.flatMap Prod.snd)
  | [] => by simp [upsertEntries]
  | (k', q) :: es => by
    unfold upsertEntries
    split
    · simp
    · split
      · simp only [List.flatMap_cons, Option.getD_some, List.append_assoc, List.singleton_append]
        exact List.perm_middle
      · simp only [List.flatMap_cons]
        exact ((upsertEntries_push_perm k a es).append_left q).trans List.perm_middle

/-- Appending to one queue adds exactly that element. -/
theorem flat_pushBack_perm [DecidableRel lt] [IsStrictTotalOrder K lt] (m : OrderedMap lt (List α)) (k : K)
    (a : α) : (m.pushBack k a).flat.Perm (a :: m.flat) :=
  upsertEntries_push_perm k a m.entries

theorem find?_pushBack [DecidableRel lt] [IsStrictTotalOrder K lt] (m : OrderedMap lt (List α)) (k k' : K) (a : α) :
    (m.pushBack k a).find? k' = if k' = k then some ((m.find? k).getD [] ++ [a]) else m.find? k' := by
  split
  · rename_i hk
    subst hk
    exact (find?_eq_some _).2 ((mem_upsert m).2 (.inr rfl))
  · rename_i hk
    cases hf : m.find? k' with
    | none =>
      rw [find?_eq_none] at hf ⊢
      intro q hq
      rcases (mem_upsert m).1 hq with ⟨-, hq⟩ | hq
      · exact hf q hq
      · exact hk (congrArg Prod.fst hq)
    | some q => exact (find?_eq_some _).2 ((mem_upsert m).2 (.inl ⟨hk, (find?_eq_some _).1 hf⟩))

theorem upsertEntries_push_flat [DecidableRel lt] [IsStrictTotalOrder K lt] {key : α → K} {k : K} {a : α} :
    ∀ (es : List (K × List α)), es.Pairwise (fun e e' => lt e.1 e'.1) → (∀ e ∈ es, ∀ x ∈ e.2, key x = e.1) →
      (upsertEntries lt k (fun q => q.getD [] ++ [a]) es).flatMap Prod.snd =
        (es.flatMap Prod.snd).filter (fun x => ¬ lt k (key x)) ++
          a :: (es.flatMap Prod.snd).filter fun x => lt k (key x)
  | [], _, _ => by simp [upsertEntries]
  | (k', q) :: es, hs, hkey => by
    obtain ⟨hlt, hes⟩ := List.pairwise_cons.1 hs
    have hirr : ¬ lt k k := Std.Irrefl.irrefl k
    have hq : ∀ x ∈ q, key x = k' := hkey (k', q) (List.mem_cons_self ..)
    have hrest : ∀ x ∈ es.flatMap Prod.snd, lt k' (key x) := by
      intro x hx
      obtain ⟨e, he, hx⟩ := List.mem_flatMap.1 hx
      rw [hkey e (List.mem_cons_of_mem _ he) x hx]
      exact hlt e he
    -- the queues of later keys are selected as a whole
    have hall : ∀ l : List α, (∀ x ∈ l, lt k (key x)) →
        l.filter (fun x => ¬ lt k (key x)) = [] ∧ l.filter (fun x => lt k (key x)) = l :=
      fun l h => ⟨List.filter_eq_nil_iff.2 fun x hx => by simp [h x hx],
        List.filter_eq_self.2 fun x hx => by simp [h x hx]⟩
    have hnone : ∀ l : List α, (∀ x ∈ l, ¬ lt k (key x)) →
        l.filter (fun x => ¬ lt k (key x)) = l ∧ l.filter (fun x => lt k (key x)) = [] :=
      fun l h => ⟨List.filter_eq_self.2 fun x hx => by simp [h x hx],
        List.filter_eq_nil_iff.2 fun x hx => by simp [h x hx]⟩
    unfold upsertEntries
    split
    · rename_i hk
      have hfront : ∀ x ∈ ((k', q) :: es).flatMap Prod.snd, lt k (key x) := by
        intro x hx
        rcases List.mem_append.1 (List.flatMap_cons ▸ hx) with hx | hx
        · rw [hq x hx]; exact hk
        · exact IsTrans.trans _ _ _ hk (hrest x hx)
      rw [(hall _ hfront).1, (hall _ hfront).2]
      simp
    · rename_i hk
      have hqnot : ∀ x ∈ q, ¬ lt k (key x) := fun x hx => by rw [hq x hx]; exact hk
      rw [List.flatMap_cons, List.filter_append, List.filter_append, (hnone q hqnot).1, (hnone q hqnot).2]
      split
      · rename_i heq
        subst heq
        rw [(hall _ hrest).1, (hall _ hrest).2]
        simp
      · rw [List.flatMap_cons, upsertEntries_push_flat es hes fun e he => hkey e (List.mem_cons_of_mem _ he)]
        simp

/-- The new element comes after those of its own and earlier keys and before those of later keys. -/
theorem flat_pushBack [DecidableRel lt] [IsStrictTotalOrder K lt] (key : α → K) (m : OrderedMap lt (List α)) {k : K}
    {a : α} (hkey : ∀ e ∈ m.entries, ∀ x ∈ e.2, key x = e.1) :
    (m.pushBack k a).flat = m.flat.filter (fun x => ¬ lt k (key x)) ++ a :: m.flat.filter fun x => lt k (key x) :=
  upsertEntries_push_flat m.entries m.sorted hkey

/-- Appending to one queue keeps any order of the elements that places the new one so. -/
theorem flat_pushBack_pairwise [DecidableRel lt] [IsStrictTotalOrder K lt] {R : α → α → Prop} (key : α → K)
    (m : OrderedMap lt (List α)) {k : K} {a : α} (hkey : ∀ e ∈ m.entries, ∀ x ∈ e.2, key x = e.1)
    (hR : m.flat.Pairwise R) (hback : ∀ x ∈ m.flat, ¬ lt k (key x) → R x a)
    (hfront : ∀ x ∈ m.flat, lt k (key x) → R a x)
    (hsplit : ∀ x ∈ m.flat, ∀ y ∈ m.flat, ¬ lt k (key x) → lt k (key y) → R x y) :
    (m.pushBack k a).flat.Pairwise R := by
  rw [flat_pushBack key m hkey, List.pairwise_append, List.pairwise_cons]
  refine ⟨hR.filter _, ⟨fun x hx => ?_, hR.filter _⟩, fun x hx y hy => ?_⟩
  · obtain ⟨hx, hk⟩ := List.mem_filter.1 hx
    exact hfront x hx (by simpa using hk)
  · obtain ⟨hx, hk⟩ := List.mem_filter.1 hx
    rcases List.mem_cons.1 hy with rfl | hy
    · exact hback x hx (by simpa using hk)
    · obtain ⟨hy, hk'⟩ := List.mem_filter.1 hy
      exact hsplit x hx y hy (by simpa using hk) (by simpa using hk')

/-- Entries of non-empty queues in key order are determined by their elements, when each element
knows its key. -/
theorem entries_eq_of_flat_eq [IsStrictTotalOrder K lt] {key : α → K} :
    ∀ (es es' : List (K × List α)), es.Pairwise (fun e e' => lt e.1 e'.1) →
      es'.Pairwise (fun e e' => lt e.1 e'.1) → (∀ e ∈ es, e.2 ≠ [] ∧ ∀ x ∈ e.2, key x = e.1) →
      (∀ e ∈ es', e.2 ≠ [] ∧ ∀ x ∈ e.2, key x = e.1) → es.flatMap Prod.snd = es'.flatMap Prod.snd → es = es'
  | [], [], _, _, _, _, _ => rfl
  | [], (k, q) :: es, _, _, _, h', hflat => by
    exfalso
    refine (h' (k, q) (List.mem_cons_self ..)).1 ?_
    exact (List.append_eq_nil_iff.1 (List.flatMap_cons ▸ hflat.symm)).1
  | (k, q) :: es, [], _, _, h, _, hflat => by
    exfalso
    refine (h (k, q) (List.mem_cons_self ..)).1 ?_
    exact (List.append_eq_nil_iff.1 (List.flatMap_cons ▸ hflat)).1
  | (k, q) :: es, (k', q') :: es', hs, hs', h, h', hflat => by
    obtain ⟨hlt, hes⟩ := List.pairwise_cons.1 hs
    obtain ⟨hlt', hes'⟩ := List.pairwise_cons.1 hs'
    obtain ⟨hne, hq⟩ := h (k, q) (List.mem_cons_self ..)
    obtain ⟨hne', hq'⟩ := h' (k', q') (List.mem_cons_self ..)
    simp only [List.flatMap_cons] at hne hq hne' hq' hflat
    -- the first elements agree, and with them the first keys
    have hk : k = k' := by
      obtain ⟨a, l, rfl⟩ := List.exists_cons_of_ne_nil hne
      obtain ⟨a', l', rfl⟩ := List.exists_cons_of_ne_nil hne'
      have ha : a = a' := (List.cons.inj hflat).1
      rw [← hq a (List.mem_cons_self ..), ← hq' a' (List.mem_cons_self ..), ha]
    subst hk
    have hlater : ∀ (es : List (K × List α)), (∀ e ∈ es, lt k e.1) → (∀ e ∈ es, ∀ x ∈ e.2, key x = e.1) →
        (es.flatMap Prod.snd).filter (fun x => key x = k) = [] := by
      intro es hk hkey
      refine List.filter_eq_nil_iff.2 fun x hx hxk => ?_
      obtain ⟨e, he, hxe⟩ := List.mem_flatMap.1 hx
      have hek := hk e he
      rw [← hkey e he x hxe, of_decide_eq_true hxk] at hek
      exact Std.Irrefl.irrefl k hek
    have hself : ∀ l : List α, (∀ x ∈ l, key x = k) → l.filter (fun x => key x = k) = l :=
      fun l hl => List.filter_eq_self.2 fun x hx => by simpa using hl x hx
    -- the elements under that key are the first queue, on both sides
    have hqq : q = q' := by
      have hf := congrArg (List.filter fun x => key x = k) hflat
      rw [List.filter_append, List.filter_append, hself q hq, hself q' hq',
        hlater es hlt fun e he => (h e (List.mem_cons_of_mem _ he)).2,
        hlater es' hlt' fun e he => (h' e (List.mem_cons_of_mem _ he)).2, List.append_nil, List.append_nil] at hf
      exact hf
    subst hqq
    rw [entries_eq_of_flat_eq es es' hes hes' (fun e he => h e (List.mem_cons_of_mem _ he))
      (fun e he => h' e (List.mem_cons_of_mem _ he)) (List.append_cancel_left hflat)]

/-- The queue under `k` filtered by `p`; a queue that becomes empty is erased with its key. -/
def filterAt (m : OrderedMap lt (List α)) (k : K) (p : α → Bool) : OrderedMap lt (List α) :=
  m.update k fun q => if (q.filter p).isEmpty then none else some (q.filter p)

theorem flatMap_filterAt (k : K) (p : α → Bool) :
    ∀ (es : List (K × List α)), (∀ e ∈ es, e.1 ≠ k → ∀ a ∈ e.2, p a = true) →
      (es.filterMap fun e => if e.1 = k then
        (if (e.2.filter p).isEmpty then none else some (e.2.filter p)).map (e.1, ·) else some e).flatMap
          Prod.snd = (es.flatMap Prod.snd).filter p
  | [], _ => rfl
  | (k', q) :: es, h => by
    have ih := flatMap_filterAt k p es fun e he => h e (List.mem_cons_of_mem _ he)
    rw [List.filterMap_cons, List.flatMap_cons, List.filter_append, ← ih]
    by_cases hk : k' = k
    · subst hk
      by_cases he : (q.filter p).isEmpty
      · have hq : q.filter p = [] := List.isEmpty_iff.1 he
        simp [hq]
      · simp [he]
    · have hq : q.filter p = q := List.filter_eq_self.2 (h (k', q) (List.mem_cons_self ..) hk)
      simp [hk, hq]

/-- Filtering one queue filters the whole map, when `p` only rejects elements of that queue. -/
theorem flat_filterAt (m : OrderedMap lt (List α)) (k : K) (p : α → Bool)
    (h : ∀ e ∈ m.entries, e.1 ≠ k → ∀ a ∈ e.2, p a = true) : (m.filterAt k p).flat = m.flat.filter p :=
  flatMap_filterAt k p m.entries h

theorem mem_filterAt (m : OrderedMap lt (List α)) {k : K} {p : α → Bool} {e : K × List α} :
    e ∈ (m.filterAt k p).entries ↔ (e.1 ≠ k ∧ e ∈ m.entries) ∨
      (e.1 = k ∧ e.2 ≠ [] ∧ ∃ q, (k, q) ∈ m.entries ∧ e.2 = q.filter p) := by
  unfold filterAt
  rw [mem_update]
  constructor
  · rintro (h | ⟨hk, q, hq, hf⟩)
    · exact .inl h
    · split at hf
      · cases hf
      · rename_i hne
        have hf := (Option.some.inj hf).symm
        exact .inr ⟨hk, fun he => hne (by rw [← hf, he]; rfl), q, hq, hf⟩
  · rintro (h | ⟨hk, hne, q, hq, hf⟩)
    · exact .inl h
    · refine .inr ⟨hk, q, hq, ?_⟩
      rw [if_neg (by rw [← hf, List.isEmpty_iff]; exact hne), hf]

/-- Filtering out what has just been appended gives the map back. -/
theorem filterAt_pushBack [DecidableRel lt] [IsStrictTotalOrder K lt] (m : OrderedMap lt (List α)) {k : K} {a : α}
    {p : α → Bool} (hne : ∀ e ∈ m.entries, e.2 ≠ []) (hp : ∀ e ∈ m.entries, ∀ x ∈ e.2, p x = true)
    (ha : p a = false) : (m.pushBack k a).filterAt k p = m := by
  have hkeep : ∀ q, (k, q) ∈ m.entries → (q ++ [a]).filter p = q := by
    intro q hq
    rw [List.filter_append, List.filter_eq_self.2 (hp (k, q) hq), List.filter_singleton, ha]
    exact List.append_nil q
  refine ext_mem fun e => ?_
  rw [mem_filterAt]
  constructor
  · rintro (⟨hk, he⟩ | ⟨hk, hnil, q, hq, hf⟩)
    · rcases (mem_upsert m).1 he with ⟨-, he⟩ | he
      · exact he
      · exact absurd (congrArg Prod.fst he) hk
    · rcases (mem_upsert m).1 hq with ⟨hk', -⟩ | hq
      · exact absurd rfl hk'
      · have hq : q = (m.find? k).getD [] ++ [a] := congrArg Prod.snd hq
        cases hfind : m.find? k with
        | none =>
          -- the level was new, so nothing of it is left
          refine absurd ?_ hnil
          rw [hf, hq, hfind]
          simp [ha]
        | some q' =>
          have hmem := (find?_eq_some m).1 hfind
          rw [hfind, Option.getD_some] at hq
          rw [hq, hkeep q' hmem] at hf
          rw [← hk, ← hf] at hmem
          exact hmem
  · intro he
    by_cases hk : e.1 = k
    · have hmem : (k, e.2) ∈ m.entries := by rw [← hk]; exact he
      refine .inr ⟨hk, hne e he, e.2 ++ [a], (mem_upsert m).2 (.inr ?_), (hkeep _ hmem).symm⟩
      rw [(find?_eq_some m).2 hmem]
      rfl
    · exact .inl ⟨hk, (mem_upsert m).2 (.inl ⟨hk, he⟩)⟩

/-- What is stored under each key after one queue is filtered. -/
theorem find?_filterAt [Std.Irrefl lt] (m : OrderedMap lt (List α)) (k k' : K) (p : α → Bool) :
    (m.filterAt k p).find? k' =
      if k' = k then ((m.find? k).map (List.filter p)).filter (!·.isEmpty) else m.find? k' := by
  have hiff : ∀ q, (m.filterAt k p).find? k' = some q ↔
      (if k' = k then ((m.find? k).map (List.filter p)).filter (!·.isEmpty) else m.find? k') = some q := by
    intro q
    rw [find?_eq_some, mem_filterAt]
    split
    · rename_i hk
      subst hk
      simp only [ne_eq, not_true_eq_false, false_and, false_or, true_and, Option.filter_eq_some_iff,
        Option.map_eq_some_iff, find?_eq_some, Bool.not_eq_true', List.isEmpty_eq_false_iff]
      constructor
      · rintro ⟨hne, q', hq', rfl⟩
        exact ⟨⟨q', hq', rfl⟩, hne⟩
      · rintro ⟨⟨q', hq', rfl⟩, hne⟩
        exact ⟨hne, q', hq', rfl⟩
    · rename_i hk
      simp [hk, find?_eq_some]
  exact Option.ext hiff

end Queues

end OrderedMap
