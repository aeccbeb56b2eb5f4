import Mathlib.Data.BitVec
import Mathlib.Data.Nat.Digits.Lemmas
import Mathlib.Tactic.Ring

/-!
# Printing and parsing integers (`printf.c`, `ulib.c`)

`printint` writes the digits of an `int` into a buffer of 16 bytes, the last one first, and then prints the buffer
backwards; `atoi` reads them again. The arithmetic is modulo `2 ^ 32`.
-/

namespace Xv6

open List

/-! ## The functions -/

/-- `digits[d]`, where `digits` is "0123456789ABCDEF". -/
def digitChar (d : ℕ) : UInt8 := [48, 49, 50, 51, 52, 53, 54, 55, 56, 57, 65, 66, 67, 68, 69, 70].getD d 0

/-- The size of `buf` in `printint`. -/
def PRINTBUF : ℕ := 16

/-- `do buf[i++] = digits[x % base]; while((x /= base) != 0)`, with some room left in `buf`; nothing is returned if it
writes past the end. -/
def digitsLoop (base : ℕ) : ℕ → ℕ → Option (List UInt8)
  | 0, _ => none
  | room + 1, x =>
    if x / base = 0 then some [digitChar (x % base)]
    else (digitsLoop base room (x / base)).map (digitChar (x % base) :: ·)

/-- `if(neg) buf[i++] = '-'`. -/
def pushMinus (neg : Bool) (buf : List UInt8) : Option (List UInt8) :=
  if neg then if buf.length < PRINTBUF then some (buf ++ [45]) else none else some buf

/-- `printint`: the characters passed to `putc`. -/
def printint (xx : BitVec 32) (base : ℕ) (sgn : Bool) : Option (List UInt8) := do
  let neg := sgn && decide (xx.toInt < 0)
  let x := if neg then -xx else xx
  let buf ← digitsLoop base PRINTBUF x.toNat
  let buf ← pushMinus neg buf
  pure buf.reverse

/-- `'0' <= c && c <= '9'`. -/
def IsDigit (c : UInt8) : Prop := 48 ≤ c ∧ c ≤ 57

instance (c : UInt8) : Decidable (IsDigit c) := inferInstanceAs (Decidable (_ ∧ _))

/-- `while('0' <= *s && *s <= '9') n = n*10 + *s++ - '0'`. The string ends with a NUL. -/
def atoiLoop : BitVec 32 → List UInt8 → BitVec 32
  | n, [] => n
  | n, c :: s => if IsDigit c then atoiLoop (n * 10 + BitVec.ofNat 32 c.toNat - 48) s else n

/-- `atoi`. -/
def atoi (s : List UInt8) : BitVec 32 :=
  let s := s.dropWhile (· == 32)
  let sign := if s.head? = some 45 then -1 else 1
  let s := if s.head? = some 43 ∨ s.head? = some 45 then s.tail else s
  sign * atoiLoop 0 s

/-! ## Numerals -/

/-- The digits of a numeral without leading zeros, the last one first. -/
def places (base n : ℕ) : List ℕ := if n = 0 then [0] else base.digits n

/-- The canonical numeral of a natural number. -/
def numeral (base n : ℕ) : List UInt8 := (places base n).reverse.map digitChar

/-- The canonical decimal numeral of an integer. -/
def decimal (x : ℤ) : List UInt8 := if x < 0 then 45 :: numeral 10 x.natAbs else numeral 10 x.natAbs

variable {base n d : ℕ} {c : UInt8} {rest : List UInt8}

theorem places_of_lt (h : n < base) : places base n = [n] := by
  unfold places
  split
  · rename_i hzero
    rw [hzero]
  · rename_i hpos
    exact Nat.digits_of_lt base n hpos h

theorem places_of_le (hbase : 1 < base) (h : base ≤ n) : places base n = n % base :: places base (n / base) := by
  have hdiv : 0 < n / base := Nat.div_pos h (by omega)
  rw [places, if_neg (by omega), places, if_neg (by omega), Nat.digits_def' hbase (by omega)]

theorem places_lt (hbase : 1 < base) (hd : d ∈ places base n) : d < base := by
  unfold places at hd
  split at hd
  · rw [mem_singleton] at hd
    omega
  · exact Nat.digits_lt_base hbase hd

theorem ofDigits_places : Nat.ofDigits base (places base n) = n := by
  unfold places
  split
  · rename_i hzero
    simp [hzero]
  · exact Nat.ofDigits_digits base n

theorem places_length_le {k : ℕ} (hbase : 1 < base) (hk : 0 < k) (hn : n < base ^ k) : (places base n).length ≤ k := by
  unfold places
  split
  · exact hk
  · exact (Nat.digits_length_le_iff hbase n).mpr hn

/-! ## Printing -/

/-- The loop of `printint`: the induction is on the room in the buffer. -/
theorem digitsLoop_eq (hbase : 1 < base) {room : ℕ} (hroom : (places base n).length ≤ room) :
    digitsLoop base room n = some ((places base n).map digitChar) := by
  induction room generalizing n with
  | zero =>
    by_cases hlt : n < base
    · simp [places_of_lt hlt] at hroom
    · simp [places_of_le hbase (Nat.le_of_not_lt hlt)] at hroom
  | succ room ih =>
    unfold digitsLoop
    by_cases hlt : n < base
    · rw [if_pos (Nat.div_eq_of_lt hlt), places_of_lt hlt, Nat.mod_eq_of_lt hlt]
      rfl
    · have hle : base ≤ n := Nat.le_of_not_lt hlt
      have hdiv : 0 < n / base := Nat.div_pos hle (by omega)
      rw [places_of_le hbase hle, length_cons] at hroom
      rw [if_neg (by omega), ih (by omega), places_of_le hbase hle]
      rfl

/-- The number that is printed is the absolute value; that of `INT_MIN` is no `int`. -/
theorem toNat_magnitude (x : BitVec 32) : (if x.toInt < 0 then -x else x).toNat = x.toInt.natAbs := by
  have hlt := x.isLt
  rw [BitVec.toInt_eq_toNat_cond]
  by_cases hpos : 2 * x.toNat < 2 ^ 32
  · rw [if_pos hpos, if_neg (by omega)]
    rfl
  · rw [if_neg hpos, if_pos (by omega), BitVec.toNat_neg, Nat.mod_eq_of_lt (by omega)]
    omega

theorem printint_signed (x : BitVec 32) : printint x 10 true = some (decimal x.toInt) := by
  have hmag := toNat_magnitude x
  have hlt := (if x.toInt < 0 then -x else x).isLt
  have hlen : (places 10 x.toInt.natAbs).length ≤ 10 := places_length_le (by decide) (by decide) (by omega)
  have hloop : digitsLoop 10 PRINTBUF x.toInt.natAbs = some ((places 10 x.toInt.natAbs).map digitChar) :=
    digitsLoop_eq (by decide) (hlen.trans (by decide))
  have hroom : (places 10 x.toInt.natAbs).length < PRINTBUF := Nat.lt_of_le_of_lt hlen (by decide)
  unfold printint decimal
  simp only [Bool.true_and, decide_eq_true_eq, hmag, hloop, Option.bind_eq_bind, Option.bind_some, pushMinus,
    length_map, if_pos hroom]
  split
  · simp [numeral]
  · simp [numeral]

theorem printint_hex (x : BitVec 32) : printint x 16 false = some (numeral 16 x.toNat) := by
  have hlen : (places 16 x.toNat).length ≤ 8 := places_length_le (by decide) (by decide) x.isLt
  simp [printint, pushMinus, numeral, digitsLoop_eq (by decide : 1 < 16) (hlen.trans (by decide : 8 ≤ PRINTBUF))]

/-! ## Parsing -/

theorem isDigit_digitChar (h : d < 10) : IsDigit (digitChar d) := by
  interval_cases d <;> decide

theorem toNat_digitChar (h : d < 10) : (digitChar d).toNat = 48 + d := by
  interval_cases d <;> rfl

section

variable (hrest : ∀ c, rest.head? = some c → ¬ IsDigit c)

include hrest

theorem atoiLoop_of_not (n : BitVec 32) : atoiLoop n rest = n := by
  cases rest with
  | nil => rfl
  | cons c rest => exact if_neg (hrest c rfl)

/-- The loop of `atoi`: the induction is on the digits, the first one first. -/
theorem atoiLoop_digits (ds : List ℕ) (hds : ∀ d ∈ ds, d < 10) (a : ℕ) :
    atoiLoop (BitVec.ofNat 32 a) (ds.map digitChar ++ rest) =
      BitVec.ofNat 32 (a * 10 ^ ds.length + Nat.ofDigits 10 ds.reverse) := by
  induction ds generalizing a with
  | nil => simpa using atoiLoop_of_not hrest _
  | cons d ds ih =>
    have hd := hds d mem_cons_self
    have hstep : BitVec.ofNat 32 a * 10 + BitVec.ofNat 32 (digitChar d).toNat - 48 = BitVec.ofNat 32 (a * 10 + d) := by
      rw [toNat_digitChar hd, BitVec.ofNat_add, BitVec.ofNat_add, BitVec.ofNat_mul]
      show BitVec.ofNat 32 a * 10 + (48 + BitVec.ofNat 32 d) - 48 = BitVec.ofNat 32 a * 10 + BitVec.ofNat 32 d
      ring
    rw [map_cons, cons_append, atoiLoop, if_pos (isDigit_digitChar hd), hstep,
      ih (fun d' hd' => hds d' (mem_cons_of_mem d hd')), Nat.ofDigits_reverse_cons, length_cons]
    congr 1
    ring

theorem atoiLoop_numeral (n : ℕ) :
    atoiLoop 0 (numeral 10 n ++ rest) = BitVec.ofNat 32 n := by
  have hds : ∀ d ∈ (places 10 n).reverse, d < 10 := fun d hd => places_lt (by decide) (mem_reverse.mp hd)
  have hloop := atoiLoop_digits hrest _ hds 0
  rwa [reverse_reverse, ofDigits_places, Nat.zero_mul, Nat.zero_add] at hloop

end

/-- A numeral starts with a digit. -/
theorem numeral_cons (n : ℕ) : ∃ c s, numeral 10 n = c :: s ∧ IsDigit c := by
  cases hs : numeral 10 n with
  | nil =>
    have hnil : places 10 n = [] := by simpa [numeral] using hs
    by_cases hlt : n < 10
    · simp [places_of_lt hlt] at hnil
    · simp [places_of_le (by decide : 1 < 10) (Nat.le_of_not_lt hlt)] at hnil
  | cons c s =>
    have hmem : c ∈ numeral 10 n := by simp [hs]
    obtain ⟨d, hd, rfl⟩ := mem_map.mp hmem
    exact ⟨_, s, rfl, isDigit_digitChar (places_lt (by decide) (mem_reverse.mp hd))⟩

theorem dropWhile_spaces (k : ℕ) {s : List UInt8} (hs : ∀ c, s.head? = some c → c ≠ 32) :
    (List.replicate k 32 ++ s).dropWhile (· == 32) = s := by
  induction k with
  | zero =>
    cases s with
    | nil => rfl
    | cons c s => simp [hs c rfl]
  | succ k ih => simpa [replicate_succ] using ih

theorem atoi_decimal (k : ℕ) (x : BitVec 32) (hrest : ∀ c, rest.head? = some c → ¬ IsDigit c) :
    atoi (List.replicate k 32 ++ decimal x.toInt ++ rest) = x := by
  obtain ⟨c, s, hs, hc⟩ := numeral_cons x.toInt.natAbs
  have hval := atoiLoop_numeral hrest x.toInt.natAbs
  have hx : BitVec.ofNat 32 x.toInt.natAbs = if x.toInt < 0 then -x else x := by
    rw [← toNat_magnitude, BitVec.ofNat_toNat, BitVec.setWidth_eq]
  have hne : c ≠ 32 ∧ c ≠ 43 ∧ c ≠ 45 := by
    refine ⟨?_, ?_, ?_⟩ <;> rintro rfl <;> exact absurd hc (by decide)
  rw [append_assoc, atoi]
  unfold decimal
  by_cases hlt : x.toInt < 0
  · rw [if_pos hlt] at hx ⊢
    rw [cons_append, dropWhile_spaces k (by simp)]
    simp only [head?_cons, tail_cons, if_true, or_true, hval, hx]
    ring
  · rw [if_neg hlt] at hx ⊢
    rw [hs, cons_append, dropWhile_spaces k (by simpa using hne.1)]
    simp only [head?_cons, Option.some.injEq, hne.2.1, hne.2.2, or_self, if_false]
    rw [← cons_append, ← hs, hval, hx, one_mul]

/-- `printint` prints the canonical numeral, signed in base 10 and unsigned in base 16, without writing past its buffer;
and `atoi` reads every `int` again, after any spaces and before anything that is no digit. -/
theorem printint_atoi (x : BitVec 32) :
    printint x 10 true = some (decimal x.toInt) ∧ printint x 16 false = some (numeral 16 x.toNat) ∧
      ∀ (k : ℕ) (rest : List UInt8), (∀ c, rest.head? = some c → ¬ IsDigit c) →
        atoi (List.replicate k 32 ++ decimal x.toInt ++ rest) = x :=
  ⟨printint_signed x, printint_hex x, fun k _ hrest => atoi_decimal k x hrest⟩

/-- `atoi(" -7,")`. -/
theorem printint_atoi_minus : printint (-7) 10 true = some [45, 55] ∧ atoi [32, 45, 55, 44] = -7 := by
  refine ⟨by decide, (printint_atoi (-7)).2.2 1 [44] fun c hc => ?_⟩
  obtain rfl := Option.some.inj hc
  decide

end Xv6
