/-
Ids across books. As long as no order is submitted under an id that rests somewhere, every id rests in one place at
most: once in one book. A replay of requests that submit every id once builds such books.
-/
import StockExchange.Engine.ReplayEngine
import StockExchange.Engine.Owners

namespace StockExchange

theorem mem_submittedIds_singleton {id : OrderID} {op : Op} :
    id ∈ submittedIds [op] ↔ ∃ order, op = .submit order ∧ order.orderId = id := by
  cases op with
  | submit order => simp [submittedIds, eq_comm]
  | cancel id => simp [submittedIds]
  | modify request => simp [submittedIds]

theorem BookState.not_rests_init (symbol : Symbol) (id : OrderID) : ¬ (init symbol).Rests id := by
  rintro ⟨br, n, hn, -⟩
  rw [init_nodes] at hn
  cases hn

namespace BookRegistry

/-- An order with the id rests in some book. -/
def Rests (registry : BookRegistry) (id : OrderID) : Prop :=
  ∃ symbol book, registry symbol = some book ∧ book.Rests id

/-- No id rests twice, neither in one book nor in two. -/
structure OnceEach (registry : BookRegistry) : Prop where
  books : registry.All fun book => book.IdsOk
  apart : ∀ symbol symbol' book book' id, registry symbol = some book → registry symbol' = some book' →
    book.Rests id → book'.Rests id → symbol = symbol'

theorem empty_onceEach : empty.OnceEach where
  books _ _ h := nomatch h
  apart _ _ _ _ _ h := nomatch h

variable {registry : BookRegistry}

/-- Looking up a book adds nothing that rests. -/
theorem rests_of_getOrderBook {symbol s : Symbol} {book : OrderBook} {id : OrderID}
    (hb : (registry.getOrderBook symbol).2 s = some book) (hr : book.Rests id) : registry s = some book := by
  by_cases hs : s = symbol
  · subst hs
    rw [getOrderBook_self] at hb
    cases hreg : registry s with
    | none =>
      rw [hreg] at hb
      cases hb
      exact absurd hr (BookState.not_rests_init s id)
    | some b =>
      rw [hreg] at hb
      exact hb
  · rwa [getOrderBook_of_ne hs] at hb

theorem OnceEach.getOrderBook (h : registry.OnceEach) (symbol : Symbol) : (registry.getOrderBook symbol).2.OnceEach where
  books := h.books.getOrderBook (BookState.init_idsOk symbol)
  apart _ _ _ _ id hb hb' hr hr' :=
    h.apart _ _ _ _ id (rests_of_getOrderBook hb hr) (rests_of_getOrderBook hb' hr') hr hr'

/-- What rests after an operation has rested in the same book before, or is the submitted order. -/
theorem rests_before {symbol : Symbol} {book : OrderBook} (hb : registry symbol = some book) (op : Op) (env : Env)
    {s : Symbol} {b : OrderBook} {id : OrderID} (hs : registry.set symbol (book.apply op env).book s = some b)
    (hr : b.Rests id) : (∃ b', registry s = some b' ∧ b'.Rests id) ∨ s = symbol ∧ id ∈ submittedIds [op] := by
  by_cases heq : s = symbol
  · subst heq
    rw [set_self] at hs
    cases hs
    have howned : book.Owned fun id _ => book.Rests id ∨ id ∈ submittedIds [op] := fun br n hn => .inl ⟨br, n, hn, rfl⟩
    obtain ⟨br, n, hn, rfl⟩ := hr
    rcases (OrderBook.apply_owned howned op env fun order ho => .inr (mem_submittedIds_singleton.2 ⟨order, ho, rfl⟩)).1
      br n hn with hr | hid
    · exact .inl ⟨book, hb, hr⟩
    · exact .inr ⟨rfl, hid⟩
  · rw [set_of_ne heq] at hs
    exact .inl ⟨b, hs, hr⟩

theorem rests_apply {symbol : Symbol} {book : OrderBook} (hb : registry symbol = some book) (op : Op) (env : Env)
    {id : OrderID} (hr : (registry.set symbol (book.apply op env).book).Rests id) :
    registry.Rests id ∨ id ∈ submittedIds [op] := by
  obtain ⟨s, b, hs, hr⟩ := hr
  rcases rests_before hb op env hs hr with ⟨c, hc, hrc⟩ | ⟨-, hid⟩
  · exact .inl ⟨s, c, hc, hrc⟩
  · exact .inr hid

/-- An operation keeps every id in one place, as long as a submitted id rests nowhere yet. -/
theorem OnceEach.apply (h : registry.OnceEach) {symbol : Symbol} {book : OrderBook} (hb : registry symbol = some book)
    (op : Op) (env : Env) (hfresh : ∀ order, op = .submit order → ¬ registry.Rests order.orderId) :
    (registry.set symbol (book.apply op env).book).OnceEach := by
  obtain ⟨hids, -⟩ := book.apply_idsOk op env (h.books symbol book hb)
    fun order ho hr => hfresh order ho ⟨symbol, book, hb, hr⟩
  have hnew : ∀ s b id, registry s = some b → b.Rests id → id ∉ submittedIds [op] := by
    intro s b id hs hr hid
    obtain ⟨order, ho, rfl⟩ := mem_submittedIds_singleton.1 hid
    exact hfresh order ho ⟨s, b, hs, hr⟩
  refine ⟨h.books.set_iff.2 hids, fun s s' b b' id hs hs' hr hr' => ?_⟩
  rcases rests_before hb op env hs hr with ⟨c, hc, hrc⟩ | ⟨rfl, hid⟩
  · rcases rests_before hb op env hs' hr' with ⟨c', hc', hrc'⟩ | ⟨-, hid⟩
    · exact h.apart s s' c c' id hc hc' hrc hrc'
    · exact absurd hid (hnew s c id hc hrc)
  · rcases rests_before hb op env hs' hr' with ⟨c', hc', hrc'⟩ | ⟨rfl, -⟩
    · exact absurd hid (hnew s' c' id hc' hrc')
    · rfl

end BookRegistry

namespace ReplayEngine

/-- Requests that submit every id once lead to books where every id rests once at most. -/
theorem foldl_onceEach (env : Env) (rs : List Request) (h : FreshIds (rs.map Request.op)) :
    (rs.foldl apply ⟨.empty, env⟩).registry.OnceEach ∧
      ∀ id, (rs.foldl apply ⟨.empty, env⟩).registry.Rests id → id ∈ submittedIds (rs.map Request.op) := by
  induction rs using List.reverseRecOn with
  | nil =>
    refine ⟨BookRegistry.empty_onceEach, ?_⟩
    rintro id ⟨symbol, book, hb, -⟩
    cases hb
  | append_singleton rs r ih =>
    rw [List.map_append, List.map_singleton] at h
    obtain ⟨honce, hids⟩ := ih h.init
    rw [List.foldl_append, List.foldl_cons, List.foldl_nil]
    let s := rs.foldl apply ⟨.empty, env⟩
    have hself : (s.registry.getOrderBook r.symbol).2 r.symbol = some (s.registry.getOrderBook r.symbol).1 := by
      rw [BookRegistry.getOrderBook_self, BookRegistry.getOrderBook_fst]
    have hrests : ∀ id, (s.registry.getOrderBook r.symbol).2.Rests id → id ∈ submittedIds (rs.map Request.op) := by
      rintro id ⟨symbol, book, hb, hr⟩
      exact hids id ⟨symbol, book, BookRegistry.rests_of_getOrderBook hb hr, hr⟩
    refine ⟨(honce.getOrderBook r.symbol).apply hself r.op s.env fun order ho hr => ?_, fun id hr => ?_⟩
    · rw [ho] at h
      exact h.last (hrests _ hr)
    · rw [List.map_append, List.map_singleton, submittedIds_snoc, List.mem_append]
      exact (BookRegistry.rests_apply hself r.op s.env hr).imp_left (hrests id)

end ReplayEngine

end StockExchange
