import Mathlib.Data.List.Basic
import Mathlib.Data.Nat.Bitwise
import Mathlib.Tactic.IntervalCases
import Mathlib.Tactic.Ring

/-!
# Bytes, little-endian numbers and pages

`leBytes n v` is the `n`-byte little-endian form of `v` and `leVal` reads a number back. A `Page n` is a
block of `n` bytes; `slice` and `move` are the two directions of `memmove` between a page and a list of
bytes. A slice sees a move exactly where the two ranges overlap. A page is also a bitmap: bit `i` is bit
`i % 8` of byte `i / 8`.
-/

open List

/-- The `n` low bytes of `v`, lowest first. -/
def leBytes : ℕ → ℕ → List UInt8
  | 0, _ => []
  | n + 1, v => UInt8.ofNat v :: leBytes n (v / 256)

/-- The number a list of bytes spells, lowest byte first. -/
def leVal : List UInt8 → ℕ
  | [] => 0
  | b :: bs => b.toNat + 256 * leVal bs

@[simp] theorem leBytes_length (n v : ℕ) : (leBytes n v).length = n := by
  induction n generalizing v with
  | zero => rfl
  | succ n ih => simp [leBytes, ih]

theorem leVal_leBytes (n v : ℕ) : leVal (leBytes n v) = v % 256 ^ n := by
  induction n generalizing v with
  | zero => simp [leBytes, leVal, Nat.mod_one]
  | succ n ih =>
    have hbyte : (UInt8.ofNat v).toNat = v % 256 := by simp
    rw [leBytes, leVal, ih, hbyte, pow_succ', Nat.mod_mul]

theorem leVal_leBytes_of_lt {n v : ℕ} (h : v < 256 ^ n) : leVal (leBytes n v) = v := by
  rw [leVal_leBytes, Nat.mod_eq_of_lt h]

theorem leVal_lt (bs : List UInt8) : leVal bs < 256 ^ bs.length := by
  induction bs with
  | nil => simp [leVal]
  | cons b bs ih =>
    have hb := b.toNat_lt
    simp only [leVal, length_cons, pow_succ]
    omega

variable {α : Type*} {c : List α}

/-- The entry at index `i` of an array of `m`-byte items. -/
theorem take_drop_flatMap {β : Type*} {f : α → List β} {m : ℕ} (hf : ∀ a, (f a).length = m)
    {l : List α} {i : ℕ} (hi : i < l.length) : ((l.flatMap f).drop (m * i)).take m = f l[i] := by
  induction l generalizing i with
  | nil => simp at hi
  | cons a as ih =>
    rw [flatMap_cons]
    cases i with
    | zero => simp [← hf a]
    | succ i =>
      rw [show m * (i + 1) = (f a).length + m * i by rw [hf]; ring, drop_length_add_append]
      simpa using ih (by simpa using hi)

theorem length_flatMap_leBytes (n : ℕ) (l : List ℕ) : (l.flatMap (leBytes n)).length = n * l.length := by
  induction l with
  | nil => rfl
  | cons a as ih =>
    rw [flatMap_cons, length_append, ih, leBytes_length, length_cons]
    ring

/-- The list `c` with `src` in place of what was at offset `off`. -/
def splice {α : Type*} (c : List α) (off : ℕ) (src : List α) : List α :=
  c.take off ++ src ++ c.drop (off + src.length)

theorem splice_length {off : ℕ} (h : off ≤ c.length) (src : List α) :
    (splice c off src).length = max c.length (off + src.length) := by
  simp only [splice, length_append, length_take, length_drop]
  omega

/-- Two splices side by side are one. -/
theorem splice_splice {off : ℕ} (h : off ≤ c.length) (a b : List α) :
    splice (splice c off a) (off + a.length) b = splice c off (a ++ b) := by
  have hlen : (c.take off ++ a).length = off + a.length := by
    rw [length_append, length_take, Nat.min_eq_left h]
  have htake : (splice c off a).take (off + a.length) = c.take off ++ a := by
    rw [splice, take_left' hlen]
  have hdrop : (splice c off a).drop (off + a.length + b.length) = c.drop (off + (a ++ b).length) := by
    rw [splice, drop_append, hlen, drop_eq_nil_of_le (by omega), nil_append, drop_drop,
      length_append]
    congr 1
    omega
  unfold splice at htake hdrop ⊢
  rw [htake, hdrop]
  simp only [append_assoc]

/-- A block of `n` bytes. -/
abbrev Page (n : ℕ) : Type := Fin n → UInt8

namespace Page

variable {n : ℕ}

/-- The byte at offset `i`, zero past the end. -/
def byte (b : Page n) (i : ℕ) : UInt8 := if h : i < n then b ⟨i, h⟩ else 0

/-- `memmove(dst, b + off, m)`. -/
def slice (b : Page n) (off m : ℕ) : List UInt8 := (List.range m).map fun j => b.byte (off + j)

/-- The `uint` at offset `off`. -/
def word (b : Page n) (off : ℕ) : ℕ := leVal (b.slice off 4)

/-- The `int` at offset `off`. -/
def int (b : Page n) (off : ℕ) : ℤ :=
  if b.word off < 2 ^ 31 then b.word off else b.word off - 2 ^ 32

/-- `memmove(b + off, src, src.length)`. -/
def move (b : Page n) (off : ℕ) (src : List UInt8) : Page n := fun i =>
  if off ≤ i.val ∧ i.val < off + src.length then src.getD (i.val - off) 0 else b i

@[simp] theorem slice_length (b : Page n) (off m : ℕ) : (b.slice off m).length = m := by
  simp [slice]

theorem byte_move (b : Page n) (off : ℕ) (src : List UInt8) (i : ℕ) : (b.move off src).byte i =
      if off ≤ i ∧ i < off + src.length ∧ i < n then src.getD (i - off) 0 else b.byte i := by
  unfold byte move
  by_cases hi : i < n <;> simp [hi]

variable {off off' m k j i : ℕ} {src : List UInt8}

/-- Reading back what was just written. -/
theorem slice_move_self (b : Page n) (h : off + src.length ≤ n) : (b.move off src).slice off src.length = src := by
  apply ext_getElem
  · simp
  · intro j hj hj'
    simp only [slice, getElem_map, getElem_range, byte_move]
    rw [if_pos ⟨by omega, by omega, by omega⟩, Nat.add_sub_cancel_left]
    simp [getD_eq_getElem?_getD, hj']

/-- Reading inside what was just written. -/
theorem slice_move_inside (b : Page n)
    (h : off + src.length ≤ n) (hlo : off ≤ off') (hhi : off' + m ≤ off + src.length) :
    (b.move off src).slice off' m = (src.drop (off' - off)).take m := by
  apply ext_getElem
  · simp only [slice_length, length_take, length_drop]
    omega
  · intro j hj hj'
    rw [slice_length] at hj
    simp only [slice, getElem_map, getElem_range, byte_move, getElem_take,
      getElem_drop]
    rw [if_pos ⟨by omega, by omega, by omega⟩]
    have hlt : off' - off + j < src.length := by omega
    rw [show off' + j - off = off' - off + j by omega]
    simp [getD_eq_getElem?_getD, hlt]

/-- Reading beside what was written. -/
theorem slice_move_disjoint (b : Page n) (h : off' + m ≤ off ∨ off + src.length ≤ off') :
    (b.move off src).slice off' m = b.slice off' m := by
  unfold slice
  refine map_congr_left fun j hj => ?_
  rw [mem_range] at hj
  rw [byte_move, if_neg (by omega)]

/-! ## Bits -/

theorem toNat_mask (hk : k < 8) : (1 <<< UInt8.ofNat k : UInt8).toNat = 2 ^ k := by
  interval_cases k <;> rfl

/-- `byte & (1 << k)`. -/
def testBit (x : UInt8) (k : ℕ) : Bool := (x &&& (1 <<< UInt8.ofNat k)) != 0

theorem testBit_eq (x : UInt8) (hk : k < 8) : testBit x k = x.toNat.testBit k := by
  have hmask : (x &&& (1 <<< UInt8.ofNat k) != 0) = ((x.toNat &&& 2 ^ k) != 0) := by
    rw [← toNat_mask hk, ← UInt8.toNat_and, Bool.eq_iff_iff]
    simp [← UInt8.toNat_inj]
  rw [testBit, hmask, Nat.and_two_pow]
  cases x.toNat.testBit k <;> simp

theorem testBit_or (x : UInt8) (hj : j < 8) (hk : k < 8) :
    testBit (x ||| (1 <<< UInt8.ofNat k)) j = (testBit x j || decide (j = k)) := by
  rw [testBit_eq _ hj, testBit_eq _ hj, UInt8.toNat_or, toNat_mask hk, Nat.testBit_or,
    Nat.testBit_two_pow]
  simp [eq_comm]

theorem testBit_andNot (x : UInt8) (hj : j < 8) (hk : k < 8) :
    testBit (x &&& ~~~ (1 <<< UInt8.ofNat k)) j = (testBit x j && decide (j ≠ k)) := by
  rw [testBit_eq _ hj, testBit_eq _ hj, UInt8.toNat_and, UInt8.toNat_not, toNat_mask hk,
    Nat.testBit_and]
  congr 1
  interval_cases k <;> interval_cases j <;> rfl

/-- Bit `i` of a page. -/
def bit (b : Page n) (i : ℕ) : Bool := testBit (b.byte (i / 8)) (i % 8)

/-- `b[i/8] |= 1 << (i % 8)`. -/
def setBit (b : Page n) (i : ℕ) : Page n :=
  b.move (i / 8) [b.byte (i / 8) ||| (1 <<< UInt8.ofNat (i % 8))]

/-- `b[i/8] &= ~(1 << (i % 8))`. -/
def clearBit (b : Page n) (i : ℕ) : Page n :=
  b.move (i / 8) [b.byte (i / 8) &&& ~~~ (1 <<< UInt8.ofNat (i % 8))]

/-- Replacing one byte changes one byte. -/
theorem byte_move_one (b : Page n) (x : UInt8) (hk : k < n) (i : ℕ) :
    (b.move k [x]).byte i = if i = k then x else b.byte i := by
  rw [byte_move, length_singleton]
  by_cases hi : i = k
  · subst hi
    rw [if_pos ⟨Nat.le_refl i, Nat.lt_succ_self i, hk⟩, if_pos rfl, Nat.sub_self]
    rfl
  · rw [if_neg (by omega), if_neg hi]

theorem bit_setBit (b : Page n) (hi : i < 8 * n) (j : ℕ) : (b.setBit i).bit j = (b.bit j || decide (j = i)) := by
  unfold bit setBit
  rw [byte_move_one b _ (by omega)]
  split
  · rename_i hj
    rw [testBit_or _ (Nat.mod_lt _ (by omega)) (Nat.mod_lt _ (by omega)), hj]
    have : j % 8 = i % 8 ↔ j = i := by omega
    simp only [this]
  · rename_i hj
    have : j ≠ i := fun h => hj (h ▸ rfl)
    simp [this]

theorem bit_clearBit (b : Page n) (hi : i < 8 * n) (j : ℕ) : (b.clearBit i).bit j = (b.bit j && decide (j ≠ i)) := by
  unfold bit clearBit
  rw [byte_move_one b _ (by omega)]
  split
  · rename_i hj
    rw [testBit_andNot _ (Nat.mod_lt _ (by omega)) (Nat.mod_lt _ (by omega)), hj]
    have : j % 8 ≠ i % 8 ↔ j ≠ i := by omega
    simp only [this]
  · rename_i hj
    have : j ≠ i := fun h => hj (h ▸ rfl)
    simp [this]

end Page
