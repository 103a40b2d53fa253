/-
Packed records: values stored in a fixed number of bytes without padding, integers little-endian. A
`Packed α` is a bijection between `α` and the byte lists of its size; records are built from their
fields with `prod` and `iso`, so the round trips in both directions come with the layout.
-/
import Mathlib.Algebra.Group.Nat.Defs
import Mathlib.Data.List.Basic

universe u v

/-- A layout of `α` in `size` bytes. -/
structure Packed (α : Type u) where
  size : ℕ
  put : α → List UInt8
  get : List UInt8 → α
  length_put : ∀ a, (put a).length = size
  get_put : ∀ a, get (put a) = a
  put_get : ∀ bs, bs.length = size → put (get bs) = bs

namespace Packed

/-! ## Little-endian integers -/

/-- The `k` low bytes of a number, the lowest first. -/
def bytesLE : ℕ → ℕ → List UInt8
  | 0, _ => []
  | k + 1, n => UInt8.ofNat n :: bytesLE k (n / 256)

def ofBytesLE : List UInt8 → ℕ
  | [] => 0
  | b :: bs => b.toNat + 256 * ofBytesLE bs

theorem length_bytesLE : ∀ k n, (bytesLE k n).length = k
  | 0, _ => rfl
  | k + 1, n => by rw [bytesLE, List.length_cons, length_bytesLE k]

theorem ofBytesLE_bytesLE : ∀ k n, ofBytesLE (bytesLE k n) = n % 256 ^ k
  | 0, n => by simp [bytesLE, ofBytesLE, Nat.mod_one]
  | k + 1, n => by
    have hpow : 256 ^ (k + 1) = 256 * 256 ^ k := Nat.pow_succ'
    rw [bytesLE, ofBytesLE, ofBytesLE_bytesLE k, UInt8.toNat_ofNat', hpow, Nat.mod_mul]

theorem ofBytesLE_lt : ∀ bs : List UInt8, ofBytesLE bs < 256 ^ bs.length
  | [] => by simp [ofBytesLE]
  | b :: bs => by
    have ih := ofBytesLE_lt bs
    have hb : b.toNat < 256 := b.toNat_lt
    rw [ofBytesLE, List.length_cons, Nat.pow_succ]
    omega

theorem bytesLE_ofBytesLE : ∀ bs : List UInt8, bytesLE bs.length (ofBytesLE bs) = bs
  | [] => rfl
  | b :: bs => by
    have hb : b.toNat < 256 := b.toNat_lt
    have hlow : UInt8.ofNat (b.toNat + 256 * ofBytesLE bs) = b := by
      rw [← UInt8.toNat_inj, UInt8.toNat_ofNat']
      omega
    have hhigh : (b.toNat + 256 * ofBytesLE bs) / 256 = ofBytesLE bs := by omega
    rw [List.length_cons, bytesLE, ofBytesLE, hlow, hhigh, bytesLE_ofBytesLE bs]

def u8 : Packed UInt8 where
  size := 1
  put b := [b]
  get bs := bs.headD 0
  length_put _ := rfl
  get_put _ := rfl
  put_get bs h := by
    obtain ⟨b, rfl⟩ := List.length_eq_one_iff.1 h
    rfl

def u16 : Packed UInt16 where
  size := 2
  put n := bytesLE 2 n.toNat
  get bs := UInt16.ofNat (ofBytesLE bs)
  length_put n := length_bytesLE 2 n.toNat
  get_put n := by
    have hn : n.toNat < 256 ^ 2 := n.toNat_lt
    rw [ofBytesLE_bytesLE, Nat.mod_eq_of_lt hn, UInt16.ofNat_toNat]
  put_get bs h := by
    have hlt := ofBytesLE_lt bs
    rw [h] at hlt
    rw [UInt16.toNat_ofNat_of_lt' hlt, ← h, bytesLE_ofBytesLE]

def u32 : Packed UInt32 where
  size := 4
  put n := bytesLE 4 n.toNat
  get bs := UInt32.ofNat (ofBytesLE bs)
  length_put n := length_bytesLE 4 n.toNat
  get_put n := by
    have hn : n.toNat < 256 ^ 4 := n.toNat_lt
    rw [ofBytesLE_bytesLE, Nat.mod_eq_of_lt hn, UInt32.ofNat_toNat]
  put_get bs h := by
    have hlt := ofBytesLE_lt bs
    rw [h] at hlt
    rw [UInt32.toNat_ofNat_of_lt' hlt, ← h, bytesLE_ofBytesLE]

def u64 : Packed UInt64 where
  size := 8
  put n := bytesLE 8 n.toNat
  get bs := UInt64.ofNat (ofBytesLE bs)
  length_put n := length_bytesLE 8 n.toNat
  get_put n := by
    have hn : n.toNat < 256 ^ 8 := n.toNat_lt
    rw [ofBytesLE_bytesLE, Nat.mod_eq_of_lt hn, UInt64.ofNat_toNat]
  put_get bs h := by
    have hlt := ofBytesLE_lt bs
    rw [h] at hlt
    rw [UInt64.toNat_ofNat_of_lt' hlt, ← h, bytesLE_ofBytesLE]

/-! ## Arrays and records -/

/-- An array of `n` bytes. -/
abbrev Chars (n : ℕ) := { bs : List UInt8 // bs.length = n }

/-- The same byte `n` times. -/
def Chars.replicate (n : ℕ) (b : UInt8) : Chars n := ⟨List.replicate n b, List.length_replicate⟩

def chars (n : ℕ) : Packed (Chars n) where
  size := n
  put c := c.1
  get bs := ⟨(bs ++ List.replicate n 0).take n, by simp⟩
  length_put c := c.2
  get_put c := by
    refine Subtype.ext ?_
    show (c.1 ++ List.replicate n 0).take n = c.1
    rw [List.take_append_of_le_length (Nat.le_of_eq c.2.symm), List.take_of_length_le (Nat.le_of_eq c.2)]
  put_get bs h := by
    show (bs ++ List.replicate n 0).take n = bs
    rw [List.take_append_of_le_length (Nat.le_of_eq h.symm), List.take_of_length_le (Nat.le_of_eq h)]

variable {α : Type u} {β : Type v}

/-- One value right after the other. -/
def prod (A : Packed α) (B : Packed β) : Packed (α × β) where
  size := A.size + B.size
  put p := A.put p.1 ++ B.put p.2
  get bs := (A.get (bs.take A.size), B.get (bs.drop A.size))
  length_put p := by rw [List.length_append, A.length_put, B.length_put]
  get_put p := by
    rw [List.take_left' (A.length_put p.1), List.drop_left' (A.length_put p.1), A.get_put, B.get_put]
  put_get bs h := by
    rw [A.put_get, B.put_get, List.take_append_drop]
    · rw [List.length_drop]
      omega
    · rw [List.length_take]
      omega

/-- The layout of a type in one-to-one correspondence with another. -/
def iso (A : Packed α) (f : α → β) (g : β → α) (hfg : ∀ b, f (g b) = b) (hgf : ∀ a, g (f a) = a) : Packed β where
  size := A.size
  put b := A.put (g b)
  get bs := f (A.get bs)
  length_put b := A.length_put (g b)
  get_put b := by rw [A.get_put, hfg]
  put_get bs h := by rw [hgf, A.put_get bs h]

theorem put_inj (A : Packed α) {a b : α} : A.put a = A.put b ↔ a = b := by
  constructor
  · intro h
    rw [← A.get_put a, h, A.get_put]
  · rintro rfl
    rfl

/-- The bytes behind a value do not matter to a read of its size. -/
theorem get_take (A : Packed α) (a : α) (rest : List UInt8) : A.get ((A.put a ++ rest).take A.size) = a := by
  rw [List.take_left' (A.length_put a), A.get_put]

/-! ## Files of records -/

section Records

variable (A : Packed α)

/-- The records of a file, one after the other as long as a whole one is left; `fuel` is at least their
number. -/
def readRecords : ℕ → List UInt8 → List α
  | 0, _ => []
  | fuel + 1, bytes =>
    if A.size ≤ bytes.length then A.get (bytes.take A.size) :: readRecords fuel (bytes.drop A.size) else []

def records (bytes : List UInt8) : List α := A.readRecords bytes.length bytes

/-- Reading back a file of whole records, up to an incomplete last one. -/
theorem readRecords_put (hsize : 0 < A.size) {rest : List UInt8} (hrest : rest.length < A.size) :
    ∀ (as : List α) {fuel : ℕ}, as.length ≤ fuel → A.readRecords fuel (as.flatMap A.put ++ rest) = as
  | [], 0, _ => rfl
  | [], fuel + 1, _ => by
    rw [readRecords, if_neg]
    rw [List.flatMap_nil, List.nil_append]
    omega
  | a :: as, 0, h => absurd h (Nat.not_succ_le_zero _)
  | a :: as, fuel + 1, h => by
    have hlen := A.length_put a
    have ih := readRecords_put hsize hrest as (Nat.le_of_succ_le_succ h)
    rw [List.flatMap_cons, List.append_assoc, readRecords, if_pos, A.get_take, List.drop_left' hlen, ih]
    rw [List.length_append, hlen]
    omega

theorem length_flatMap_put : ∀ as : List α, (as.flatMap A.put).length = as.length * A.size
  | [] => by rw [List.flatMap_nil, List.length_nil, List.length_nil, Nat.zero_mul]
  | a :: as => by
    rw [List.flatMap_cons, List.length_append, A.length_put, length_flatMap_put as, List.length_cons, Nat.succ_mul,
      Nat.add_comm]

theorem records_put (hsize : 0 < A.size) (as : List α) {rest : List UInt8} (hrest : rest.length < A.size) :
    A.records (as.flatMap A.put ++ rest) = as := by
  refine A.readRecords_put hsize hrest as ?_
  rw [List.length_append, A.length_flatMap_put]
  have hmul : as.length * 1 ≤ as.length * A.size := Nat.mul_le_mul_left _ hsize
  omega

/-- A file is its records and a rest that is too short for one. -/
theorem put_readRecords (hsize : 0 < A.size) : ∀ (fuel : ℕ) (bytes : List UInt8), bytes.length ≤ fuel →
    ∃ rest, bytes = (A.readRecords fuel bytes).flatMap A.put ++ rest ∧ rest.length < A.size
  | 0, bytes, h => by
    refine ⟨[], ?_, hsize⟩
    rw [List.length_eq_zero_iff.1 (Nat.le_zero.1 h)]
    rfl
  | fuel + 1, bytes, h => by
    rw [readRecords]
    split
    next hle =>
      have hdrop : (bytes.drop A.size).length ≤ fuel := by
        rw [List.length_drop]
        omega
      obtain ⟨rest, heq, hlt⟩ := put_readRecords hsize fuel (bytes.drop A.size) hdrop
      refine ⟨rest, ?_, hlt⟩
      rw [List.flatMap_cons, A.put_get _ (List.length_take_of_le hle), List.append_assoc, ← heq, List.take_append_drop]
    next hlt =>
      refine ⟨bytes, rfl, ?_⟩
      omega

theorem records_eq_iff (hsize : 0 < A.size) (bytes : List UInt8) (as : List α) :
    A.records bytes = as ↔ ∃ rest, bytes = as.flatMap A.put ++ rest ∧ rest.length < A.size := by
  constructor
  · rintro rfl
    exact A.put_readRecords hsize _ bytes (Nat.le_refl _)
  · rintro ⟨rest, rfl, hrest⟩
    exact A.records_put hsize as hrest

/-- Records written behind a rest that is too short for one: they are read back exactly if they look the same from
where the rest begins. -/
theorem records_behind_rest (hsize : 0 < A.size) (as new : List α) {rest : List UInt8} (hrest : rest.length < A.size) :
    A.records (as.flatMap A.put ++ (rest ++ new.flatMap A.put)) = as ++ new ↔
      new.flatMap A.put <+: rest ++ new.flatMap A.put := by
  rw [A.records_eq_iff hsize]
  simp only [List.flatMap_append, List.append_assoc, List.append_cancel_left_eq]
  constructor
  · rintro ⟨last, heq, -⟩
    exact ⟨last, heq.symm⟩
  · rintro ⟨last, heq⟩
    refine ⟨last, heq.symm, ?_⟩
    have hlen := congrArg List.length heq
    simp only [List.length_append] at hlen
    omega

/-- A file of records that has been cut off somewhere: the records in front of the cut and a part of the next. -/
theorem cut_eq (hsize : 0 < A.size) (as : List α) {cut : List UInt8} (h : cut <+: as.flatMap A.put) :
    cut = (as.take (cut.length / A.size)).flatMap A.put ++ cut.drop (cut.length / A.size * A.size) := by
  have hlen : cut.length ≤ as.length * A.size := by
    rw [← A.length_flatMap_put]
    exact h.length_le
  have hn : cut.length / A.size ≤ as.length := by
    rw [← Nat.mul_div_cancel as.length hsize]
    exact Nat.div_le_div_right hlen
  have hwhole : (as.take (cut.length / A.size)).flatMap A.put <+: as.flatMap A.put := by
    refine ⟨(as.drop (cut.length / A.size)).flatMap A.put, ?_⟩
    rw [← List.flatMap_append, List.take_append_drop]
  have htaken : ((as.take (cut.length / A.size)).flatMap A.put).length = cut.length / A.size * A.size := by
    rw [A.length_flatMap_put, List.length_take, Nat.min_eq_left hn]
  -- both are prefixes of the file, and the whole records are not longer than the cut
  have hpre : (as.take (cut.length / A.size)).flatMap A.put <+: cut := by
    refine List.prefix_of_prefix_length_le hwhole h ?_
    rw [htaken]
    exact Nat.div_mul_le_self _ _
  have htake := List.prefix_iff_eq_take.1 hpre
  rw [htaken] at htake
  conv_lhs => rw [← List.take_append_drop (cut.length / A.size * A.size) cut, ← htake]

theorem length_cut_rest (cut : List UInt8) :
    (cut.drop (cut.length / A.size * A.size)).length = cut.length % A.size := by
  have hdiv := Nat.div_add_mod cut.length A.size
  rw [Nat.mul_comm] at hdiv
  rw [List.length_drop]
  omega

/-- Of a file that has been cut off somewhere, the records in front of the cut are left. -/
theorem records_of_prefix (hsize : 0 < A.size) (as : List α) {cut : List UInt8} (h : cut <+: as.flatMap A.put) :
    A.records cut = as.take (cut.length / A.size) := by
  conv_lhs => rw [A.cut_eq hsize as h]
  refine A.records_put hsize _ ?_
  rw [A.length_cut_rest]
  exact Nat.mod_lt _ hsize

end Records

end Packed
