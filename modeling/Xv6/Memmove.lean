import Mathlib

/-!
# `memmove` (`string.c`, `ulib.c`)

The kernel's `memmove` copies downwards when the destination begins inside the source; the one of the user library
always copies upwards. Memory is a byte at every address of 32 bits.
-/

namespace Xv6

open Function

/-- A byte at every address. -/
abbrev ByteMem : Type := BitVec 32 → UInt8

/-- `while(n-- > 0) *d++ = *s++`. -/
def copyUp : ℕ → BitVec 32 → BitVec 32 → ByteMem → ByteMem
  | 0, _, _, m => m
  | n + 1, d, s, m => copyUp n (d + 1) (s + 1) (update m d (m s))

/-- `while(n-- > 0) *--d = *--s`. -/
def copyDown : ℕ → BitVec 32 → BitVec 32 → ByteMem → ByteMem
  | 0, _, _, m => m
  | n + 1, d, s, m => copyDown n (d - 1) (s - 1) (update m (d - 1) (m (s - 1)))

/-- `memmove` of `string.c`; `n` is a `uint`. -/
def memmove (dst src n : BitVec 32) (m : ByteMem) : ByteMem :=
  if src < dst ∧ src + n > dst then copyDown n.toNat (dst + n) (src + n) m else copyUp n.toNat dst src m

/-- `memmove` of `ulib.c`; `n` is an `int`. -/
def userMemmove (dst src n : BitVec 32) (m : ByteMem) : ByteMem := copyUp n.toInt.toNat dst src m

/-! ## The loops -/

/-- The address of a byte of a range. -/
def offset (p : BitVec 32) (i : ℕ) : BitVec 32 := p + BitVec.ofNat 32 i

variable {m m' : ByteMem} {d s p a : BitVec 32} {n i j : ℕ}

theorem offset_zero (p : BitVec 32) : offset p 0 = p := BitVec.add_zero p

theorem offset_one_add (p : BitVec 32) (i : ℕ) : offset (p + 1) i = offset p (i + 1) := by
  unfold offset
  rw [BitVec.add_assoc, Nat.add_comm i 1, BitVec.ofNat_add]
  rfl

theorem offset_succ_sub_one (p : BitVec 32) (i : ℕ) : offset p (i + 1) - 1 = offset p i := by
  unfold offset
  rw [BitVec.ofNat_add, ← BitVec.add_assoc]
  exact BitVec.add_sub_cancel _ _

theorem offset_toNat (p : BitVec 32) (n : BitVec 32) : offset p n.toNat = p + n := by
  rw [offset, BitVec.ofNat_toNat, BitVec.setWidth_eq]

theorem toNat_offset (h : p.toNat + i < 2 ^ 32) : (offset p i).toNat = p.toNat + i := by
  rw [offset, BitVec.toNat_add, BitVec.toNat_ofNat, Nat.add_mod_mod, Nat.mod_eq_of_lt h]

/-- Two bytes of ranges that do not wrap around. -/
theorem offset_eq_iff (hp : p.toNat + i < 2 ^ 32) (hd : d.toNat + j < 2 ^ 32) :
    offset p i = offset d j ↔ p.toNat + i = d.toNat + j := by
  rw [← BitVec.toNat_inj, toNat_offset hp, toNat_offset hd]

/-- A byte of the source that is also one of the destination. -/
theorem offset_distance (hlt : s < d) (hi : d.toNat + i < 2 ^ 32) :
    offset s (i + (d.toNat - s.toNat)) = offset d i := by
  have hsd := BitVec.lt_def.mp hlt
  rw [offset_eq_iff (by omega) hi]
  omega

/-- What is stored last by `copyUp`. -/
theorem copyUp_succ (n : ℕ) (d s : BitVec 32) (m : ByteMem) : copyUp (n + 1) d s m =
      update (copyUp n d s m) (offset d n) (copyUp n d s m (offset s n)) := by
  induction n generalizing d s m with
  | zero => simp only [copyUp, offset_zero]
  | succ n ih =>
    rw [copyUp, ih, offset_one_add, offset_one_add]
    rfl

/-- The bytes of a range that are copied to another one, and nothing else. -/
structure Moved (m : ByteMem) (d s : BitVec 32) (n : ℕ) (m' : ByteMem) : Prop where
  copied : ∀ i < n, m' (offset d i) = m (offset s i)
  others : ∀ a, (∀ i < n, a ≠ offset d i) → m' a = m a

theorem Moved.unique {m1 m2 : ByteMem} (h1 : Moved m d s n m1) (h2 : Moved m d s n m2) : m1 = m2 := by
  funext a
  by_cases ha : ∃ i < n, a = offset d i
  · obtain ⟨i, hi, rfl⟩ := ha
    rw [h1.copied i hi, h2.copied i hi]
  · rw [not_exists] at ha
    have hout : ∀ i < n, a ≠ offset d i := fun i hi heq => ha i ⟨hi, heq⟩
    rw [h1.others a hout, h2.others a hout]

theorem copyUp_others (n : ℕ) (ha : ∀ i < n, a ≠ offset d i) : copyUp n d s m a = m a := by
  induction n with
  | zero => rfl
  | succ n ih =>
    rw [copyUp_succ, update_of_ne (ha n n.lt_succ_self)]
    exact ih fun i hi => ha i (Nat.lt_succ_of_lt hi)

section

variable (hd : d.toNat + n ≤ 2 ^ 32)

include hd

/-- `copyUp` stores a byte once, so it keeps what it has stored. -/
theorem copyUp_stored (hj : j < n) :
    copyUp n d s m (offset d j) = copyUp j d s m (offset s j) := by
  induction n with
  | zero => exact absurd hj (Nat.not_lt_zero j)
  | succ n ih =>
    rw [copyUp_succ]
    rcases Nat.lt_succ_iff_lt_or_eq.mp hj with hlt | rfl
    · have hne : offset d j ≠ offset d n := by
        rw [Ne, offset_eq_iff (by omega) (by omega)]
        omega
      rw [update_of_ne hne]
      exact ih (by omega) hlt
    · rw [update_self]

/-- A byte that `copyUp` has not overwritten before it reads it. -/
theorem copyUp_read (hs : s.toNat + n ≤ 2 ^ 32) (hj : j < n)
    (hbefore : s < d → s.toNat + j < d.toNat) : copyUp n d s m (offset d j) = m (offset s j) := by
  rw [copyUp_stored hd hj]
  refine copyUp_others j fun i hi => ?_
  rw [Ne, offset_eq_iff (by omega) (by omega)]
  intro heq
  have hlt := hbefore (BitVec.lt_def.mpr (by omega))
  omega

/-- A byte that `copyUp` has overwritten before it reads it. -/
theorem copyUp_reread (hlt : s < d) (hi : i + (d.toNat - s.toNat) < n) :
    copyUp n d s m (offset d (i + (d.toNat - s.toNat))) = copyUp n d s m (offset d i) := by
  have hsd := BitVec.lt_def.mp hlt
  rw [copyUp_stored hd hi, offset_distance hlt (by omega), copyUp_stored (by omega) (by omega), copyUp_stored hd (by omega)]

/-- `copyUp` moves the bytes exactly if those it overwrites too early repeat. -/
theorem moved_copyUp_iff (hs : s.toNat + n ≤ 2 ^ 32) : Moved m d s n (copyUp n d s m) ↔
      (s < d → ∀ i, i + (d.toNat - s.toNat) < n → m (offset d i) = m (offset s i)) := by
  constructor
  · intro hmoved hlt i hi
    rw [← offset_distance hlt (by omega), ← hmoved.copied _ hi, copyUp_reread hd hlt hi]
    exact hmoved.copied i (by omega)
  · intro hrepeat
    refine ⟨fun j hj => ?_, fun a ha => copyUp_others n ha⟩
    -- by induction on the offset, in steps of the distance
    induction j using Nat.strongRecOn with
    | ind j ih =>
      by_cases hbefore : s < d → s.toNat + j < d.toNat
      · exact copyUp_read hd hs hj hbefore
      · rw [Classical.not_imp] at hbefore
        obtain ⟨hlt, hge⟩ := hbefore
        have hsd := BitVec.lt_def.mp hlt
        obtain ⟨i, rfl⟩ : ∃ i, j = i + (d.toNat - s.toNat) := ⟨j - (d.toNat - s.toNat), by omega⟩
        rw [copyUp_reread hd hlt hj, ih i (by omega) (by omega), offset_distance hlt (by omega)]
        exact (hrepeat hlt i hj).symm

/-- Copying downwards is right if the destination is above the source. -/
theorem moved_copyDown (hlt : s < d) :
    Moved m d s n (copyDown n (offset d n) (offset s n) m) := by
  have hsd := BitVec.lt_def.mp hlt
  induction n generalizing m with
  | zero => exact ⟨fun i hi => absurd hi (Nat.not_lt_zero i), fun _ _ => rfl⟩
  | succ n ih =>
    rw [copyDown, offset_succ_sub_one, offset_succ_sub_one]
    have hrest := ih (m := update m (offset d n) (m (offset s n))) (by omega)
    refine ⟨fun i hi => ?_, fun a ha => ?_⟩
    · rcases Nat.lt_succ_iff_lt_or_eq.mp hi with hin | rfl
      · rw [hrest.copied i hin, update_of_ne]
        rw [Ne, offset_eq_iff (by omega) (by omega)]
        omega
      · rw [hrest.others, update_self]
        intro j hj
        rw [Ne, offset_eq_iff (by omega) (by omega)]
        omega
    · rw [hrest.others a fun i hi => ha i (by omega), update_of_ne (ha n n.lt_succ_self)]

end

/-! ## The functions -/

theorem moved_memmove {dst src n : BitVec 32} (hd : dst.toNat + n.toNat ≤ 2 ^ 32)
    (hs : src.toNat + n.toNat ≤ 2 ^ 32) : Moved m dst src n.toNat (memmove dst src n m) := by
  unfold memmove
  split
  · rename_i hover
    rw [← offset_toNat, ← offset_toNat]
    exact moved_copyDown hd hover.1
  · rename_i hover
    refine (moved_copyUp_iff hd hs).mpr fun hlt i hi => ?_
    -- the end of the source does not wrap around either, as it is below that of the destination
    have hsd := BitVec.lt_def.mp hlt
    have hend : (src + n).toNat = src.toNat + n.toNat := by
      rw [← offset_toNat, toNat_offset (by omega)]
    exact absurd ⟨hlt, BitVec.lt_def.mpr (by omega)⟩ hover

/-- After the kernel's `memmove` the destination holds what the source held, and all other bytes are unchanged. -/
theorem memmove_moves (m : ByteMem) (dst src n : BitVec 32) (hd : dst.toNat + n.toNat ≤ 2 ^ 32)
    (hs : src.toNat + n.toNat ≤ 2 ^ 32) :
    (∀ i < n.toNat, memmove dst src n m (dst + BitVec.ofNat 32 i) = m (src + BitVec.ofNat 32 i)) ∧
      ∀ a, (∀ i < n.toNat, a ≠ dst + BitVec.ofNat 32 i) → memmove dst src n m a = m a :=
  ⟨(moved_memmove hd hs).copied, (moved_memmove hd hs).others⟩

/-- Five bytes, moved up by two. -/
theorem memmove_moves_overlap : let m : ByteMem := fun a => UInt8.ofNat a.toNat
    (∀ i < 5, memmove 12 10 5 m (12 + BitVec.ofNat 32 i) = m (10 + BitVec.ofNat 32 i)) ∧ memmove 12 10 5 m 17 = m 17 := by
  intro m
  have h := memmove_moves m 12 10 5 (by decide) (by decide)
  exact ⟨h.1, h.2 17 (by decide)⟩

/-- The two functions leave the same memory exactly if the destination does not begin inside the source, or the source
repeats with the distance between them. -/
theorem userMemmove_eq_iff (m : ByteMem) (dst src n : BitVec 32) (hn : 0 ≤ n.toInt)
    (hd : dst.toNat + n.toNat ≤ 2 ^ 32) (hs : src.toNat + n.toNat ≤ 2 ^ 32) :
    userMemmove dst src n m = memmove dst src n m ↔ (src < dst → ∀ i, i + (dst.toNat - src.toNat) < n.toNat →
      m (dst + BitVec.ofNat 32 i) = m (src + BitVec.ofNat 32 i)) := by
  have hlen : n.toInt.toNat = n.toNat := by
    rw [BitVec.toInt_eq_toNat_cond] at hn ⊢
    split at hn
    · rename_i hsmall
      rw [if_pos hsmall, Int.toNat_natCast]
    · omega
  have hmoved := moved_memmove (m := m) hd hs
  rw [userMemmove, hlen]
  refine Iff.trans ⟨fun heq => ?_, fun h => ?_⟩ (moved_copyUp_iff hd hs)
  · rw [heq]
    exact hmoved
  · exact h.unique hmoved

/-- Moving two bytes up by one: the user library copies the first one twice. -/
theorem userMemmove_differs : let m : ByteMem := fun a => if a = 0 then 1 else 0
    userMemmove 1 0 2 m 2 = 1 ∧ memmove 1 0 2 m 2 = 0 := by
  decide

/-- Equal bytes move alike, even with overlap. -/
theorem userMemmove_eq_zero : userMemmove 1 0 2 (fun _ => 0) = memmove 1 0 2 (fun _ => 0) ∧
      userMemmove 1 0 2 (fun a => if a = 0 then 1 else 0) ≠ memmove 1 0 2 (fun a => if a = 0 then 1 else 0) := by
  refine ⟨(userMemmove_eq_iff _ 1 0 2 (by decide) (by decide) (by decide)).mpr fun _ _ _ => rfl, ?_⟩
  rw [Ne, userMemmove_eq_iff _ 1 0 2 (by decide) (by decide) (by decide)]
  intro h
  exact absurd (h (by decide) 0 (by decide)) (by decide)

end Xv6
