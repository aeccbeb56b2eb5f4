import Mathlib.Data.Int.ModEq
import Mathlib.Data.List.Basic
import Mathlib.Logic.Function.Basic

/-!
# Ring buffers with free-running counters

An array of `N` cells with a read counter and a write counter of `k` bits, which are never reduced modulo `N` but
wrap modulo `2 ^ k`. When `N` divides `2 ^ k` and is smaller, the cells from the read counter to the write counter
are a queue of at most `N` elements, and the full and the empty queue are told apart by the counters.
-/

namespace Ring

open List

variable {α : Type*} {N k : ℕ} [NeZero N]

/-- The cell a counter stands for. -/
def slot (N : ℕ) [NeZero N] (c : BitVec k) : Fin N := Fin.ofNat N c.toNat

theorem slot_add (h : N ∣ 2 ^ k) (c : BitVec k) (i : ℕ) :
    slot N (c + BitVec.ofNat k i) = Fin.ofNat N (c.toNat + i) := by
  apply Fin.ext
  simp only [slot, Fin.ofNat, BitVec.toNat_add, BitVec.toNat_ofNat, Nat.add_mod_mod]
  exact Nat.mod_mod_of_dvd _ h

/-- Offsets smaller than `N` stand for different cells. -/
theorem ofNat_add_inj {c i j : ℕ} (hi : i < N) (hj : j < N) (h : Fin.ofNat N (c + i) = Fin.ofNat N (c + j)) :
    i = j := by
  have hmod : c + i ≡ c + j [MOD N] := congrArg Fin.val h
  have hij : i % N = j % N := hmod.add_left_cancel'
  rwa [Nat.mod_eq_of_lt hi, Nat.mod_eq_of_lt hj] at hij

/-- The cells from counter `r` to counter `w` hold the queue `xs`. -/
structure Holds (data : Fin N → α) (r w : BitVec k) (xs : List α) : Prop where
  length_le : xs.length ≤ N
  tail : w = r + BitVec.ofNat k xs.length
  cells : ∀ i x, xs[i]? = some x → data (slot N (r + BitVec.ofNat k i)) = x

/-- The queue as it stands in the cells. -/
def contents (data : Fin N → α) (r w : BitVec k) : List α :=
  (List.range (w - r).toNat).map fun i => data (slot N (r + BitVec.ofNat k i))

theorem Holds.nil (data : Fin N → α) (c : BitVec k) : Holds data c c [] :=
  ⟨Nat.zero_le _, by simp, by simp⟩

section
variable {data : Fin N → α} {r w : BitVec k} {xs : List α} (hlt : N < 2 ^ k)
include hlt

/-- The counters tell the length. -/
theorem Holds.toNat_sub (h : Holds data r w xs) : (w - r).toNat = xs.length := by
  have hlen := h.length_le
  rw [h.tail, BitVec.add_comm, BitVec.add_sub_cancel, BitVec.toNat_ofNat, Nat.mod_eq_of_lt (by omega)]

theorem Holds.contents_eq (h : Holds data r w xs) : contents data r w = xs := by
  apply ext_getElem?
  intro i
  rw [contents, h.toNat_sub hlt, getElem?_map]
  by_cases hi : i < xs.length
  · rw [getElem?_range hi, getElem?_eq_getElem hi]
    exact congrArg some (h.cells i _ (getElem?_eq_getElem hi))
  · rw [getElem?_eq_none (by simpa using hi), getElem?_eq_none (by simpa using hi)]
    rfl

theorem Holds.eq_iff (h : Holds data r w xs) : r = w ↔ xs = [] := by
  constructor
  · intro heq
    have hlen := h.toNat_sub hlt
    rw [heq, BitVec.sub_self] at hlen
    exact length_eq_zero_iff.mp hlen.symm
  · intro hnil
    rw [h.tail, hnil]
    simp

theorem Holds.full_iff (h : Holds data r w xs) : w = r + BitVec.ofNat k N ↔ xs.length = N := by
  constructor
  · intro heq
    have hlen := h.toNat_sub hlt
    rw [heq, BitVec.add_comm, BitVec.add_sub_cancel, BitVec.toNat_ofNat, Nat.mod_eq_of_lt hlt] at hlen
    exact hlen.symm
  · intro hlen
    rw [h.tail, hlen]

end

section
variable {data : Fin N → α} {r w : BitVec k} {xs : List α} (hdvd : N ∣ 2 ^ k)
include hdvd

/-- Storing at the write counter appends. -/
theorem Holds.push (h : Holds data r w xs) (hroom : xs.length < N) (x : α) :
    Holds (Function.update data (slot N w) x) r (w + 1) (xs ++ [x]) := by
  have hw : slot N w = Fin.ofNat N (r.toNat + xs.length) := by rw [h.tail, slot_add hdvd]
  refine ⟨by simp; omega, ?_, fun i y hy => ?_⟩
  · rw [h.tail, length_append, length_singleton, BitVec.ofNat_add, BitVec.add_assoc]
    rfl
  · rw [slot_add hdvd, hw]
    by_cases hi : i < xs.length
    · -- an old element: its cell is another one
      have hne : Fin.ofNat N (r.toNat + i) ≠ Fin.ofNat N (r.toNat + xs.length) := by
        intro heq
        exact absurd (ofNat_add_inj (by omega) hroom heq) (by omega)
      rw [Function.update_of_ne hne, ← slot_add hdvd]
      exact h.cells i y (by rwa [getElem?_append_left hi] at hy)
    · have hi' : i = xs.length := by
        have := (List.getElem?_eq_some_iff.mp hy).1
        simp only [length_append, length_singleton] at this
        omega
      subst hi'
      simpa using hy

omit hdvd in
/-- Reading at the read counter finds the head of the queue. -/
theorem Holds.head {x : α} (h : Holds data r w (x :: xs)) : data (slot N r) = x := by
  simpa using h.cells 0 x rfl

omit hdvd in
/-- Advancing the read counter drops the head of the queue. -/
theorem Holds.pop {x : α} (h : Holds data r w (x :: xs)) : Holds data (r + 1) w xs := by
  have hone : ∀ i, r + 1 + BitVec.ofNat k i = r + BitVec.ofNat k (i + 1) := by
    intro i
    rw [BitVec.ofNat_add, BitVec.add_assoc, BitVec.add_comm (BitVec.ofNat k i)]
    rfl
  refine ⟨?_, ?_, fun i y hy => ?_⟩
  · exact Nat.le_of_succ_le h.length_le
  · rw [hone]
    exact h.tail
  · rw [hone]
    exact h.cells (i + 1) y hy

end

/-- The first part of the queue lies between the read counter and a counter in the middle. -/
theorem Holds.append_left {data : Fin N → α} {r w : BitVec k} {xs ys : List α} (h : Holds data r w (xs ++ ys)) :
    Holds data r (r + BitVec.ofNat k xs.length) xs := by
  have hlen := h.length_le
  rw [length_append] at hlen
  refine ⟨by omega, rfl, fun i x hx => h.cells i x ?_⟩
  rw [getElem?_append_left (List.getElem?_eq_some_iff.mp hx).1]
  exact hx

/-- The second part lies between the counter in the middle and the write counter. -/
theorem Holds.append_right {data : Fin N → α} {r w : BitVec k} {xs ys : List α} (h : Holds data r w (xs ++ ys)) :
    Holds data (r + BitVec.ofNat k xs.length) w ys := by
  have hlen := h.length_le
  rw [length_append] at hlen
  refine ⟨by omega, ?_, fun i y hy => ?_⟩
  · rw [h.tail, length_append, BitVec.ofNat_add, BitVec.add_assoc]
  · rw [BitVec.add_assoc, ← BitVec.ofNat_add]
    refine h.cells _ y ?_
    rw [getElem?_append_right (Nat.le_add_right ..), Nat.add_sub_cancel_left]
    exact hy

/-- Moving the write counter back drops the last element, -/
theorem Holds.unpush {data : Fin N → α} {r w : BitVec k} {xs : List α} {x : α} (h : Holds data r w (xs ++ [x])) :
    Holds data r (w - 1) xs := by
  have hw : w - 1 = r + BitVec.ofNat k xs.length := by
    rw [h.tail, length_append, length_singleton, BitVec.ofNat_add, ← BitVec.add_assoc]
    exact BitVec.add_sub_cancel _ _
  rw [hw]
  exact h.append_left

/-- which stands in the cell below the write counter. -/
theorem Holds.last {data : Fin N → α} {r w : BitVec k} {xs : List α} {x : α} (h : Holds data r w (xs ++ [x])) :
    data (slot N (w - 1)) = x := by
  rw [h.unpush.tail]
  exact h.cells _ x (by simp)

end Ring
