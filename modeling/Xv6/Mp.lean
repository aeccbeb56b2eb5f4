import Mathlib
import Xv6.Memmove
import Xv6.Param

/-!
# The MP configuration table (`mp.c`)

`mpinit` searches memory for the table in which the firmware describes the processors, and visits its entries. At an
entry of unknown type `break` leaves the `switch` but not the loop, and the loop visits the same entry for ever.
-/

namespace Xv6

namespace Mp

/-! ## The functions -/

/-- `P2V`. -/
def P2V (a : BitVec 32) : BitVec 32 := a + 0x80000000

/-- The little-endian number of `len` bytes at an address. -/
def field (m : ByteMem) (a : BitVec 32) : ℕ → BitVec 32
  | 0 => 0
  | len + 1 => (m a).toBitVec.setWidth 32 + field m (a + 1) len * 256

/-- `sum`. -/
def sum (m : ByteMem) (addr : BitVec 32) (len : ℕ) : UInt8 := ((List.range len).map fun i => m (offset addr i)).sum

/-- `memcmp(p, signature, 4) == 0`. -/
def HasSignature (m : ByteMem) (p : BitVec 32) (signature : List UInt8) : Prop :=
  (List.range 4).map (fun i => m (offset p i)) = signature

instance {m : ByteMem} {p : BitVec 32} {signature : List UInt8} : Decidable (HasSignature m p signature) :=
  inferInstanceAs (Decidable (_ = _))

/-- The loop of `mpsearch1`. -/
def mpsearch1Loop (m : ByteMem) (e : BitVec 32) : ℕ → BitVec 32 → Option (BitVec 32)
  | 0, _ => none
  | left + 1, p =>
    if p < e then
      if HasSignature m p [95, 77, 80, 95] ∧ sum m p 16 = 0 then some p else mpsearch1Loop m e left (p + 16)
    else none

/-- `mpsearch1`: the address of a `struct mp`, which has 16 bytes, in `len` bytes. -/
def mpsearch1 (m : ByteMem) (a : BitVec 32) (len : ℕ) : Option (BitVec 32) :=
  mpsearch1Loop m (P2V a + BitVec.ofNat 32 len) (len / 16) (P2V a)

/-- `mpsearch`. -/
def mpsearch (m : ByteMem) : Option (BitVec 32) :=
  let bda := P2V 0x400
  let p := field m (bda + 0x0E) 2 <<< 4
  let first := if p ≠ 0 then mpsearch1 m p 1024 else mpsearch1 m (field m (bda + 0x13) 2 * 1024 - 1024) 1024
  first.orElse fun _ => mpsearch1 m 0xF0000 0x10000

/-- The length of the table, in the header. -/
def confLength (m : ByteMem) (conf : BitVec 32) : BitVec 32 := field m (conf + 4) 2

/-- `mpconfig`: the `struct mp` and the `struct mpconf`. -/
def mpconfig (m : ByteMem) : Option (BitVec 32 × BitVec 32) := do
  let mp ← mpsearch m
  let physaddr := field m (mp + 4) 4
  let conf := P2V physaddr
  if physaddr ≠ 0 ∧ HasSignature m conf [80, 67, 77, 80] ∧ (m (conf + 6) = 1 ∨ m (conf + 6) = 4) ∧
      sum m conf (confLength m conf).toNat = 0 then
    some (mp, conf)
  else none

/-- The types of entries. -/
def MPPROC : UInt8 := 0

@[inherit_doc MPPROC]
def MPBUS : UInt8 := 1

@[inherit_doc MPPROC]
def MPIOAPIC : UInt8 := 2

@[inherit_doc MPPROC]
def MPIOINTR : UInt8 := 3

@[inherit_doc MPPROC]
def MPLINTR : UInt8 := 4

/-- The variables of the loop in `mpinit`: the cursor, the `apicid`s of `cpus[0..ncpu]`, and the flags. -/
structure State where
  p : BitVec 32
  cpus : List UInt8
  ioapicid : UInt8
  ismp : Bool

/-- The `switch` of `mpinit`. -/
def visit (m : ByteMem) (st : State) : State :=
  let type := m st.p
  if type = MPPROC then
    { st with
      p := st.p + 20
      cpus := if st.cpus.length < NCPU then st.cpus ++ [m (st.p + 1)] else st.cpus }
  else if type = MPIOAPIC then { st with p := st.p + 8, ioapicid := m (st.p + 1) }
  else if type = MPBUS ∨ type = MPIOINTR ∨ type = MPLINTR then { st with p := st.p + 8 }
  else { st with ismp := false }

/-- The loop of `mpinit`; without result if it needs more rounds. -/
def entries (m : ByteMem) (e : BitVec 32) : ℕ → State → Option State
  | 0, st => if st.p < e then none else some st
  | rounds + 1, st => if st.p < e then entries m e rounds (visit m st) else some st

/-- The panics of `mpinit`. -/
inductive Panic where
  /-- "Expect to run on an SMP". -/
  | noTable
  /-- "Didn't find a suitable machine". -/
  | unsuitable
deriving DecidableEq

/-- What `mpinit` leaves: the address of the local APIC, the processors, and whether it programs the IMCR. -/
structure Machine where
  lapic : BitVec 32
  cpus : List UInt8
  ioapicid : UInt8
  imcr : Bool

/-- Where the entries begin, after the header of 44 bytes. -/
def start (conf : BitVec 32) : State := ⟨conf + 44, [], 0, true⟩

/-- Where the entries end. -/
def stop (m : ByteMem) (conf : BitVec 32) : BitVec 32 := conf + confLength m conf

/-- `mpinit`, if the loop ends within some rounds. -/
def mpinit (m : ByteMem) (rounds : ℕ) : Option (Except Panic Machine) :=
  match mpconfig m with
  | none => some (.error .noTable)
  | some (mp, conf) =>
    (entries m (stop m conf) rounds (start conf)).map fun st =>
      if st.ismp then .ok ⟨field m (conf + 36) 4, st.cpus, st.ioapicid, m (mp + 12) ≠ 0⟩ else .error .unsuitable

/-! ## The entries -/

/-- The sizes of the entries of known type. -/
def sizeof (type : UInt8) : Option ℕ :=
  if type = MPPROC then some 20
  else if type = MPIOAPIC ∨ type = MPBUS ∨ type = MPIOINTR ∨ type = MPLINTR then some 8 else none

/-- All entries up to `e` are of known type, and none of them goes beyond the end of the address space. -/
inductive Known (m : ByteMem) (e : BitVec 32) : BitVec 32 → Prop where
  | done {p : BitVec 32} (h : ¬ p < e) : Known m e p
  | entry {p : BitVec 32} {size : ℕ} (h : p < e) (hsize : sizeof (m p) = some size) (hfits : p.toNat + size < 2 ^ 32)
      (rest : Known m e (offset p size)) : Known m e p

/-- The table is visited as it should be: the loop ends after some rounds; it has visited entries at increasing addresses
and recorded at most `NCPU` processors; and `mpinit` panics exactly if one of them was of unknown type. -/
def VisitsTable (m : ByteMem) (conf : BitVec 32) : Prop :=
  ∃ n, (∀ i < n, ((visit m)^[i] (start conf)).p < stop m conf) ∧ ¬ ((visit m)^[n] (start conf)).p < stop m conf ∧
    (∀ i, i + 1 < n → ((visit m)^[i] (start conf)).p < ((visit m)^[i + 1] (start conf)).p) ∧
    ((visit m)^[n] (start conf)).cpus.length ≤ NCPU ∧ (∃ r, mpinit m n = some r) ∧
    (mpinit m n = some (.error .unsuitable) ↔ ∃ i < n, sizeof (m ((visit m)^[i] (start conf)).p) = none)

variable {m : ByteMem} {e conf : BitVec 32} {st : State} {size n : ℕ}

/-- What a visit does to the cursor. -/
theorem visit_of_some (h : sizeof (m st.p) = some size) :
    (visit m st).p = offset st.p size ∧ (visit m st).ismp = st.ismp ∧ 0 < size ∧ size ≤ 20 := by
  unfold sizeof at h
  unfold visit
  split at h
  · rename_i hproc
    rw [if_pos hproc]
    obtain rfl := Option.some.inj h
    exact ⟨rfl, rfl, by decide, by decide⟩
  split at h
  · rename_i hproc hknown
    obtain rfl := Option.some.inj h
    rw [if_neg hproc]
    split
    · exact ⟨rfl, rfl, by decide, by decide⟩
    · rename_i hio
      rw [if_pos (hknown.resolve_left hio)]
      exact ⟨rfl, rfl, by decide, by decide⟩
  · nomatch h

/-- At an entry of unknown type the cursor stays where it is. -/
theorem visit_of_none (h : sizeof (m st.p) = none) : (visit m st).p = st.p := by
  unfold sizeof at h
  unfold visit
  split at h
  · nomatch h
  split at h
  · nomatch h
  · rename_i hproc hknown
    rw [if_neg hproc, if_neg fun hio => hknown (.inl hio), if_neg fun hother => hknown (.inr hother)]

theorem cpus_visit (h : st.cpus.length ≤ NCPU) : (visit m st).cpus.length ≤ NCPU := by
  dsimp only [visit]
  by_cases hproc : m st.p = MPPROC
  · rw [if_pos hproc]
    by_cases hroom : st.cpus.length < NCPU
    · rw [if_pos hroom, List.length_append]
      exact hroom
    · rw [if_neg hroom]
      exact h
  · rw [if_neg hproc]
    split
    · exact h
    split
    · exact h
    · exact h

theorem cpus_iterate (h : st.cpus.length ≤ NCPU) (n : ℕ) : ((visit m)^[n] st).cpus.length ≤ NCPU := by
  induction n with
  | zero => exact h
  | succ n ih =>
    rw [Function.iterate_succ_apply']
    exact cpus_visit ih

/-- The loop ends after the rounds in which the cursor is before the end. -/
theorem entries_iterate (hbefore : ∀ i < n, ((visit m)^[i] st).p < e) (hend : ¬ ((visit m)^[n] st).p < e) :
    entries m e n st = some ((visit m)^[n] st) := by
  induction n generalizing st with
  | zero => exact if_neg hend
  | succ n ih =>
    have h0 : st.p < e := hbefore 0 n.succ_pos
    rw [entries, if_pos h0]
    exact ih (fun i hi => hbefore (i + 1) (Nat.succ_lt_succ hi)) hend

theorem mpinit_of_config {mp : BitVec 32} (h : mpconfig m = some (mp, conf)) (rounds : ℕ) :
    mpinit m rounds = (entries m (stop m conf) rounds (start conf)).map fun st =>
      if st.ismp then .ok ⟨field m (conf + 36) 4, st.cpus, st.ioapicid, m (mp + 12) ≠ 0⟩ else .error .unsuitable := by
  unfold mpinit
  rw [h]

/-- The loop does not end at an entry of unknown type. -/
theorem iterate_of_none (h : sizeof (m st.p) = none) (n : ℕ) : ((visit m)^[n] st).p = st.p := by
  induction n with
  | zero => rfl
  | succ n ih =>
    rw [Function.iterate_succ_apply', visit_of_none (by rw [ih]; exact h), ih]

theorem entries_of_none (h : sizeof (m st.p) = none) (hbefore : st.p < e) (n : ℕ) : entries m e n st = none := by
  induction n generalizing st with
  | zero => exact if_pos hbefore
  | succ n ih =>
    have hstay := visit_of_none h
    rw [entries, if_pos hbefore]
    exact ih (by rw [hstay]; exact h) (by rw [hstay]; exact hbefore)

/-! ## The loop as a whole -/

/-- Known entries are visited one after the other: the induction is on the entries to come. -/
theorem Known.visits (h : Known m e st.p) : ∃ n, (∀ i < n, ((visit m)^[i] st).p < e) ∧ ¬ ((visit m)^[n] st).p < e ∧
    (∀ i < n, ((visit m)^[i] st).p < ((visit m)^[i + 1] st).p) ∧
    (∀ i < n, sizeof (m ((visit m)^[i] st).p) ≠ none) ∧ ((visit m)^[n] st).ismp = st.ismp := by
  generalize hp : st.p = p at h
  induction h generalizing st with
  | done h =>
    rw [← hp] at h
    exact ⟨0, by simp, h, by simp, by simp, rfl⟩
  | @entry p size hlt hsize hfits rest ih =>
    rw [← hp] at hsize hlt hfits
    obtain ⟨hnext, hismp, hpos, -⟩ := visit_of_some hsize
    obtain ⟨n, hbefore, hend, hmono, hknown, hok⟩ := ih (hnext.trans (by rw [hp]))
    refine ⟨n + 1, fun i hi => ?_, hend, fun i hi => ?_, fun i hi => ?_, hok.trans hismp⟩
    · cases i with
      | zero => exact hlt
      | succ i => exact hbefore i (by omega)
    · cases i with
      | zero =>
        show st.p < (visit m st).p
        rw [hnext, BitVec.lt_def, toNat_offset hfits]
        omega
      | succ i => exact hmono i (by omega)
    · cases i with
      | zero =>
        show sizeof (m st.p) ≠ none
        rw [hsize]
        exact Option.some_ne_none size
      | succ i => exact hknown i (by omega)

/-- If the loop ends after visits at increasing addresses, then it has only met known entries. -/
theorem known_of_visits (hbefore : ∀ i < n, ((visit m)^[i] st).p < e) (hend : ¬ ((visit m)^[n] st).p < e)
    (hmono : ∀ i, i + 1 < n → ((visit m)^[i] st).p < ((visit m)^[i + 1] st).p) : Known m e st.p := by
  induction n generalizing st with
  | zero => exact .done hend
  | succ n ih =>
    have hlt : st.p < e := hbefore 0 n.succ_pos
    cases hsize : sizeof (m st.p) with
    | none =>
      rw [iterate_of_none hsize] at hend
      exact absurd hlt hend
    | some size =>
      obtain ⟨hnext, -, -, hle⟩ := visit_of_some hsize
      have hrest : Known m e (visit m st).p :=
        ih (fun i hi => hbefore (i + 1) (Nat.succ_lt_succ hi)) hend fun i hi => hmono (i + 1) (Nat.succ_lt_succ hi)
      rw [hnext] at hrest
      refine .entry hlt hsize ?_ hrest
      -- a cursor that wraps around would be before the end, and lower
      by_contra hwrap
      have hlow : (visit m st).p.toNat = st.p.toNat + size - 2 ^ 32 := by
        have hp := st.p.isLt
        rw [hnext, offset, BitVec.toNat_add, BitVec.toNat_ofNat, Nat.add_mod_mod]
        omega
      have hlt' := BitVec.lt_def.mp hlt
      have hp := st.p.isLt
      cases n with
      | zero =>
        have hnot : ¬ (visit m st).p < e := hend
        rw [BitVec.lt_def] at hnot
        omega
      | succ n =>
        have hstep : st.p < (visit m st).p := hmono 0 (by omega)
        rw [BitVec.lt_def] at hstep
        omega

/-- The loop of `mpinit` visits a table as it should exactly if all entries are of known type. -/
theorem visitsTable_iff (m : ByteMem) (mp conf : BitVec 32) (h : mpconfig m = some (mp, conf)) :
    VisitsTable m conf ↔ Known m (stop m conf) (conf + 44) := by
  constructor
  · rintro ⟨n, hbefore, hend, hmono, -⟩
    exact known_of_visits hbefore hend hmono
  · intro hknown
    have hstart : Known m (stop m conf) (start conf).p := hknown
    obtain ⟨n, hbefore, hend, hmono, hall, hok⟩ := hstart.visits
    have hismp : ((visit m)^[n] (start conf)).ismp = true := hok
    have hrun : mpinit m n = some (.ok ⟨field m (conf + 36) 4, ((visit m)^[n] (start conf)).cpus,
        ((visit m)^[n] (start conf)).ioapicid, m (mp + 12) ≠ 0⟩) := by
      rw [mpinit_of_config h, entries_iterate hbefore hend, Option.map_some, if_pos hismp]
    refine ⟨n, hbefore, hend, fun i hi => hmono i (by omega), cpus_iterate (Nat.zero_le _) n, ⟨_, hrun⟩, ?_⟩
    rw [hrun]
    constructor
    · intro heq
      exact absurd (Option.some.inj heq) nofun
    · rintro ⟨i, hi, hnone⟩
      exact absurd hnone (hall i hi)

/-- A table with one entry of type 5. -/
def oddTable : ByteMem := fun a =>
  let mp : List UInt8 := [95, 77, 80, 95, 0, 16, 0, 0, 1, 4, 144]
  let conf : List UInt8 := [80, 67, 77, 80, 45, 0, 4, 154]
  if a = 0x8000102C then 5
  else if 0x80001000 ≤ a ∧ a < 0x8000102C then conf.getD (a - 0x80001000).toNat 0
  else if 0x800F0000 ≤ a then mp.getD (a - 0x800F0000).toNat 0
  else 0

theorem mpconfig_oddTable : mpconfig oddTable = some (0x800F0000, 0x80001000) := by
  decide +kernel

/-- The table passes the tests, and the loop does not end. -/
theorem mpinit_loops : (mpconfig oddTable).isSome ∧ ∀ rounds, mpinit oddTable rounds = none := by
  refine ⟨by rw [mpconfig_oddTable]; rfl, fun rounds => ?_⟩
  have hnone : sizeof (oddTable (start 0x80001000).p) = none := by decide
  have hbefore : (start 0x80001000).p < stop oddTable 0x80001000 := by decide
  rw [mpinit_of_config mpconfig_oddTable, entries_of_none hnone hbefore, Option.map_none]

theorem visitsTable_iff_odd :
    mpconfig oddTable = some (0x800F0000, 0x80001000) ∧ ¬ VisitsTable oddTable 0x80001000 := by
  refine ⟨mpconfig_oddTable, ?_⟩
  rw [visitsTable_iff oddTable _ _ mpconfig_oddTable]
  rintro (hdone | ⟨hlt, hsize, -, -⟩)
  · exact hdone (by decide)
  · have hnone : sizeof (oddTable (0x80001000 + 44)) = none := by decide
    rw [hnone] at hsize
    nomatch hsize

end Mp

end Xv6
