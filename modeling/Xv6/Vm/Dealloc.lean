import Xv6.Lib.Words
import Xv6.Vm.Walk

/-!
# `deallocuvm` and `freevm`, exactly

The loop of `deallocuvm` jumps over the range of a page table that does not exist. It does what the loop does that
visits every page, and its 32-bit variable never wraps below `KERNBASE`. So it frees the pages in the range, each once
and in the order of their addresses, and clears their entries.
-/

namespace Xv6

open Function List

namespace Vm

open Code

variable {D : Set ℕ} {o o' : ℕ → Owner} {s s' : Mem} {d r q a oldsz : ℕ} {i j : Fin NPDENTRIES}
  {E : Panic → Mem → Prop}

/-! ## The loop in 32-bit arithmetic -/

/-- `PGADDR`. -/
def PGADDR (d t off : BitVec 32) : BitVec 32 := d <<< 22 ||| t <<< 12 ||| off

/-- At most `fuel` rounds of the loop of `deallocuvm`, as its 32-bit variable takes them; `false` if it goes on. -/
def deallocuvmRounds (pgdir : ℕ) (oldsz : BitVec 32) : (fuel : ℕ) → (a : BitVec 32) → VmCode Bool
  | 0, _ => pure false
  | fuel + 1, a =>
    if a < oldsz then do
      match ← walkpgdir pgdir a.toNat false with
      | none =>
        let a := PGADDR ((a >>> 22 &&& 0x3FF#32) + 1) 0 0 - 4096#32
        deallocuvmRounds pgdir oldsz fuel (a + 4096#32)
      | some (t, j) =>
        let s ← get
        let pte := s.page t j
        if pte.p then do
          if pte.ppn = 0 then throw .kfree
          kfree pte.ppn
          setPte t j .zero
        deallocuvmRounds pgdir oldsz fuel (a + 4096#32)
    else pure true

/-- `deallocuvm` with all its values in 32 bits; `none` if it does not end within `fuel` rounds. -/
def deallocuvm32 (pgdir : ℕ) (oldsz newsz : BitVec 32) (fuel : ℕ) : VmCode (Option (BitVec 32)) := do
  if oldsz ≤ newsz then pure (some oldsz)
  else if ← deallocuvmRounds pgdir oldsz fuel (newsz + 4096#32 - 1#32 &&& ~~~4095#32) then pure (some newsz)
  else pure none

theorem toNat_nextTable {a : BitVec 32} (h : a.toNat < KERNBASE) :
    (PGADDR ((a >>> 22 &&& 0x3FF#32) + 1#32) 0 0 - 4096#32 + 4096#32).toNat = (a.toNat / 2 ^ 22 + 1) * 2 ^ 22 := by
  simp only [KERNBASE] at h
  have hmask : a >>> 22 &&& 0x3FF#32 = a >>> 22 := by
    apply BitVec.eq_of_toNat_eq
    rw [BitVec.toNat_and, BitVec.toNat_ushiftRight, show (0x3FF#32).toNat = 2 ^ 10 - 1 from rfl,
      Nat.and_two_pow_sub_one_eq_mod, Nat.shiftRight_eq_div_pow]
    exact Nat.mod_eq_of_lt (by omega)
  have hzero : PGADDR (a >>> 22 + 1#32) 0 0 = (a >>> 22 + 1#32) <<< 22 := by simp [PGADDR]
  rw [BitVec.sub_add_cancel, hmask, hzero, BitVec.toNat_shiftLeft, BitVec.toNat_add, BitVec.toNat_ushiftRight,
    Nat.shiftRight_eq_div_pow, Nat.shiftLeft_eq, BitVec.toNat_ofNat]
  omega

theorem toNat_pgroundup {a : BitVec 32} (h : a.toNat < KERNBASE) :
    (a + 4096#32 - 1#32 &&& ~~~4095#32).toNat = PGROUNDUP a.toNat := by
  simp only [KERNBASE] at h
  have hsum : (a + 4096#32 - 1#32).toNat = a.toNat + 4095 := by
    simp only [BitVec.toNat_sub, BitVec.toNat_add, BitVec.toNat_ofNat]
    omega
  have hmask := BitVec.toNat_and_not_mask (a + 4096#32 - 1#32) (n := 12) (by decide)
  rw [hsum] at hmask
  exact hmask

theorem toNat_add_page {a : BitVec 32} (h : a.toNat < KERNBASE) : (a + 4096#32).toNat = a.toNat + PGSIZE := by
  simp only [KERNBASE, PGSIZE] at *
  simp only [BitVec.toNat_add, BitVec.toNat_ofNat]
  omega

/-- The 32-bit loop ends, and does what the loop over natural numbers does. -/
theorem deallocuvmRounds_eq {oldsz : BitVec 32} (hsz : oldsz.toNat ≤ KERNBASE) : ∀ (fuel : ℕ) (a : BitVec 32),
    oldsz.toNat - a.toNat < fuel →
    deallocuvmRounds d oldsz fuel a = deallocuvmLoop d oldsz.toNat a.toNat >>= fun _ => pure true
  | 0, a, hfuel => absurd hfuel (Nat.not_lt_zero _)
  | fuel + 1, a, hfuel => by
    unfold deallocuvmRounds deallocuvmLoop
    by_cases hlt : a < oldsz
    · have hnat : a.toNat < oldsz.toNat := hlt
      have hbound : a.toNat < KERNBASE := by omega
      have hjump := toNat_nextTable hbound
      have hpage := toNat_add_page hbound
      have htable := deallocuvmRounds_eq hsz fuel (PGADDR ((a >>> 22 &&& 0x3FF#32) + 1#32) 0 0 - 4096#32 + 4096#32)
        (by omega)
      have hstep := deallocuvmRounds_eq hsz fuel (a + 4096#32) (by rw [hpage]; simp only [PGSIZE]; omega)
      rw [hjump] at htable
      rw [hpage] at hstep
      rw [if_pos hlt, dif_pos hnat, bind_assoc]
      refine bind_congr fun x => ?_
      cases x with
      | none => exact htable
      | some x =>
        simp only [hstep, bind_assoc]
        refine bind_congr fun m => ?_
        split_ifs <;> simp only [bind_assoc]
    · have hnat : ¬ a.toNat < oldsz.toNat := hlt
      rw [if_neg hlt, dif_neg hnat]
      rfl

/-- `deallocuvm` in 32 bits ends, with the result and the effect of `deallocuvm`. -/
theorem deallocuvm32_eq {oldsz newsz : BitVec 32} (hsz : oldsz.toNat ≤ KERNBASE) {fuel : ℕ}
    (hfuel : oldsz.toNat < fuel) : deallocuvm32 d oldsz newsz fuel =
      deallocuvm d oldsz.toNat newsz.toNat >>= fun x => pure (some (BitVec.ofNat 32 x)) := by
  unfold deallocuvm32 deallocuvm
  by_cases hle : oldsz ≤ newsz
  · have hnat : oldsz.toNat ≤ newsz.toNat := hle
    rw [if_pos hle, if_pos hnat]
    simp
  · have hnat : ¬ oldsz.toNat ≤ newsz.toNat := hle
    have hnew : newsz.toNat < KERNBASE := by omega
    have hrounds := deallocuvmRounds_eq (d := d) hsz fuel (newsz + 4096#32 - 1#32 &&& ~~~4095#32) (by omega)
    rw [toNat_pgroundup hnew] at hrounds
    rw [if_neg hle, if_neg hnat, hrounds]
    simp

/-! ## The loop over every page -/

/-- `deallocuvm` at one page. -/
def deallocPage (pgdir a : ℕ) : VmCode Unit := do
  match ← walkpgdir pgdir a false with
  | none => pure ()
  | some (t, j) =>
    let s ← get
    let pte := s.page t j
    if pte.p then do
      if pte.ppn = 0 then throw .kfree
      kfree pte.ppn
      setPte t j .zero

/-- The loop that visits every page. -/
def deallocuvmPlain (pgdir oldsz a : ℕ) : VmCode Unit :=
  if _h : a < oldsz then do
    deallocPage pgdir a
    deallocuvmPlain pgdir oldsz (a + PGSIZE)
  else pure ()
termination_by oldsz - a
decreasing_by
  simp only [PGSIZE]
  omega

variable {va hi : ℕ} {α : Type} {x : VmCode α} {Q : Unit → Mem → Prop}

theorem walkpgdir_absent (h : (s.page d (PDX va)).p = false) : (walkpgdir d va false).run s = .ok none s := by
  have hwp : Wp (walkpgdir d va false) (fun x s' => x = none ∧ s' = s) (fun _ _ => False) s :=
    wp_look (fun _ => ⟨rfl, rfl⟩) fun hp => absurd (h.symm.trans hp) Bool.false_ne_true
  obtain ⟨x, s', hrun, rfl, rfl⟩ := wp_returns hwp
  exact hrun

theorem deallocPage_absent (h : (s.page d (PDX a)).p = false) : (deallocPage d a).run s = .ok () s := by
  unfold deallocPage
  rw [EStateM.run_bind, walkpgdir_absent h]
  rfl

/-- Where there is no page table, the loop over every page goes on to the next one. -/
theorem deallocuvmPlain_skip (habsent : (s.page d (PDX a)).p = false) (n : ℕ) : ∀ b, b % PGSIZE = 0 →
    b / 2 ^ 22 = a / 2 ^ 22 → (a / 2 ^ 22 + 1) * 2 ^ 22 - b ≤ n * PGSIZE →
    (deallocuvmPlain d oldsz b).run s = (deallocuvmPlain d oldsz ((a / 2 ^ 22 + 1) * 2 ^ 22)).run s := by
  induction n with
  | zero => intro b _ hb hn; omega
  | succ n ih =>
    intro b hmod hb hn
    have hpdx : PDX b = PDX a := by
      apply Fin.ext
      simp only [PDX, hb]
    by_cases hlt : b < oldsz
    · have hround : (deallocuvmPlain d oldsz b).run s = (deallocuvmPlain d oldsz (b + PGSIZE)).run s := by
        conv_lhs => unfold deallocuvmPlain
        rw [dif_pos hlt, EStateM.run_bind, deallocPage_absent (by rw [hpdx, habsent])]
      rw [hround]
      by_cases hnext : (b + PGSIZE) / 2 ^ 22 = a / 2 ^ 22
      · exact ih (b + PGSIZE) (by simp only [PGSIZE] at *; omega) hnext (by simp only [PGSIZE] at *; omega)
      · have hend : b + PGSIZE = (a / 2 ^ 22 + 1) * 2 ^ 22 := by
          simp only [PGSIZE] at *
          omega
        rw [hend]
    · have hend : ¬ (a / 2 ^ 22 + 1) * 2 ^ 22 < oldsz := by omega
      conv_lhs => unfold deallocuvmPlain
      conv_rhs => unfold deallocuvmPlain
      rw [dif_neg hlt, dif_neg hend]

theorem walkpgdir_present (h : (s.page d (PDX va)).p = true) :
    (walkpgdir d va false).run s = .ok (some ((s.page d (PDX va)).ppn, PTX va)) s := by
  have hwp : Wp (walkpgdir d va false) (fun x s' => x = some ((s.page d (PDX va)).ppn, PTX va) ∧ s' = s)
      (fun _ _ => False) s :=
    wp_look (fun hno => absurd (hno.symm.trans h) Bool.false_ne_true) fun _ => ⟨rfl, rfl⟩
  obtain ⟨x, s', hrun, rfl, rfl⟩ := wp_returns hwp
  exact hrun

theorem VmCode.ext {y : VmCode α} (h : ∀ s, x.run s = y.run s) : x = y := funext h

theorem run_bind_ok {β : Type} {f : α → VmCode β} {v : α} (h : x.run s = .ok v s') :
    (x >>= f).run s = (f v).run s' := by
  rw [EStateM.run_bind, h]

theorem deallocuvmLoop_absent (hlt : a < oldsz) (h : (s.page d (PDX a)).p = false) :
    (deallocuvmLoop d oldsz a).run s = (deallocuvmLoop d oldsz ((a / 2 ^ 22 + 1) * 2 ^ 22)).run s := by
  conv_lhs => unfold deallocuvmLoop
  rw [dif_pos hlt, run_bind_ok (walkpgdir_absent h)]

theorem deallocuvmLoop_present (hlt : a < oldsz) (h : (s.page d (PDX a)).p = true) : (deallocuvmLoop d oldsz a).run s =
      (deallocPage d a >>= fun _ => deallocuvmLoop d oldsz (a + PGSIZE) : VmCode Unit).run s := by
  conv_lhs => unfold deallocuvmLoop
  rw [dif_pos hlt, run_bind_ok (walkpgdir_present h)]
  generalize deallocuvmLoop d oldsz (a + PGSIZE) = rest
  unfold deallocPage
  rw [bind_assoc, run_bind_ok (walkpgdir_present h)]
  simp only [bind_assoc]
  congr 1
  refine bind_congr fun m => ?_
  split_ifs <;> simp

/-- The jumps of `deallocuvm` are exact. -/
theorem deallocuvmLoop_eq_plain (n : ℕ) : ∀ (a : ℕ) (s : Mem), oldsz - a ≤ n → a % PGSIZE = 0 →
    (deallocuvmLoop d oldsz a).run s = (deallocuvmPlain d oldsz a).run s := by
  induction n using Nat.strong_induction_on with
  | _ n ih =>
    intro a s hn ha
    by_cases hlt : a < oldsz
    · cases hp : (s.page d (PDX a)).p with
      | false =>
        have hmod : (a / 2 ^ 22 + 1) * 2 ^ 22 % PGSIZE = 0 := by
          simp only [PGSIZE]
          omega
        rw [deallocuvmLoop_absent hlt hp, ih (n - 1) (by omega) _ s (by omega) hmod]
        exact (deallocuvmPlain_skip hp _ a ha rfl (Nat.le_mul_of_pos_right _ (by decide))).symm
      | true =>
        have hmod : (a + PGSIZE) % PGSIZE = 0 := by rw [Nat.add_mod_right, ha]
        have hcode : deallocuvmLoop d oldsz (a + PGSIZE) = deallocuvmPlain d oldsz (a + PGSIZE) :=
          VmCode.ext fun s => ih (n - 1) (by omega) (a + PGSIZE) s (by simp only [PGSIZE]; omega) hmod
        rw [deallocuvmLoop_present hlt hp, hcode]
        conv_rhs => unfold deallocuvmPlain
        rw [dif_pos hlt]
    · unfold deallocuvmLoop deallocuvmPlain
      rw [dif_neg hlt, dif_neg hlt]

/-! ## What is freed -/

/-- The pages present in `[a, oldsz)`, in the order of their addresses. -/
def presentPages (s : Mem) (d oldsz a : ℕ) : List ℕ :=
  if _h : a < oldsz then
    (if (s.pte d a).p then [(s.pte d a).ppn] else []) ++ presentPages s d oldsz (a + PGSIZE)
  else []
termination_by oldsz - a
decreasing_by
  simp only [PGSIZE]
  omega

/-- The pages present depend on the entries from `a` on only. -/
theorem presentPages_congr (n : ℕ) : ∀ a, oldsz - a ≤ n → (∀ b, a ≤ b → b < oldsz → b % PGSIZE = a % PGSIZE →
    s'.pte d b = s.pte d b) → presentPages s' d oldsz a = presentPages s d oldsz a := by
  induction n using Nat.strong_induction_on with
  | _ n ih =>
    intro a hn h
    unfold presentPages
    split
    · rename_i hlt
      rw [h a le_rfl hlt rfl, ih (n - 1) (by omega) (a + PGSIZE) (by simp only [PGSIZE]; omega)
        fun b hb hlt' hmod => ?_]
      exact h b (by omega) hlt' (by rw [hmod, Nat.add_mod_right])
    · rfl

/-- The frame of the page at `a` is freed and its entry cleared. -/
def Mem.release (s : Mem) (d a : ℕ) : Mem :=
  (s.push (s.pte d a).ppn).setEntry (s.page d (PDX a)).ppn (PTX a) .zero

/-- The page is freed before its entry is cleared, which makes no difference. -/
theorem Exact.release_eq (h : Exact D o s) (hd : d ∈ D) (hlow : a < KERNBASE) (hp : (s.pte d a).p = true) :
    s.release d a = (s.setEntry (s.page d (PDX a)).ppn (PTX a) .zero).push (s.pte d a).ppn := by
  have hpd := Mem.present_of_entry hp
  have hne : (s.page d (PDX a)).ppn ≠ (s.pte d a).ppn := by
    intro heq
    have ho := h.table hd hpd
    rw [heq, Mem.pte, h.frame hd (low_of_lt hlow) hp] at ho
    nomatch ho
  unfold Mem.release Mem.push Mem.setEntry Mem.put
  simp only [update_of_ne hne]
  rw [update_comm hne.symm]

theorem Exact.release (h : Exact D o s) (hd : d ∈ D) (hlow : a < KERNBASE) (hp : (s.pte d a).p = true) :
    Exact D (update o (s.pte d a).ppn .free) (s.release d a) := by
  have ho := h.frame hd (low_of_lt hlow) hp
  have hunmap := h.unmap hd (low_of_lt hlow) hp
  have hpush := hunmap.push (q := (s.pte d a).ppn) (by rw [Mem.pte, update_self]; trivial)
    (h.range _ (by rw [Mem.pte, ho]; simp))
  rw [h.release_eq hd hlow hp]
  rwa [Mem.pte, update_idem] at hpush

theorem wp_deallocPage (h : Exact D o s) (hd : d ∈ D) (hlow : a < KERNBASE)
    (habsent : (s.pte d a).p = false → Q () s) (hpresent : (s.pte d a).p = true → Q () (s.release d a)) :
    Wp (deallocPage d a) Q E s := by
  unfold deallocPage
  rw [wp_bind]
  refine wp_look (fun hno => ?_) fun hpd => ?_
  · exact habsent (by rw [Mem.pte, Mem.entry_of_absent hno]; rfl)
  · have hentry : s.pte d a = s.page (s.page d (PDX a)).ppn (PTX a) := Mem.entry_of_present hpd
    simp only [wp_bind, wp_get, ← hentry]
    cases hp : (s.pte d a).p with
    | true =>
      have ho := h.frame hd (low_of_lt hlow) hp
      have hrange := h.range (s.pte d a).ppn (by rw [Mem.pte, ho]; simp)
      have hpos := h.pos
      have hne : (s.pte d a).ppn ≠ 0 := by
        have := hrange.1
        omega
      simp only [if_true, if_neg hne, wp_bind]
      exact wp_kfree_exact hrange (hpresent hp)
    | false => exact habsent hp

/-- The memory after the pages present in `[a, hi)` have been freed. -/
structure Cleared (D : Set ℕ) (d hi a : ℕ) (o : ℕ → Owner) (s : Mem) (o' : ℕ → Owner) (s' : Mem) : Prop where
  exact : Exact D o' s'
  lo : s'.lo = s.lo
  fails : s'.fails = s.fails
  dirs : ∀ d' ∈ D, s'.page d' = s.page d'
  entry : ∀ d' ∈ D, ∀ i j, s'.entry d' i j =
    if d' = d ∧ (a ≤ addr i j ∧ addr i j < hi) ∧ (s.entry d i j).p = true then .zero else s.entry d' i j
  freed : ∀ r i j, o r = .frame d i j → a ≤ addr i j → addr i j < hi → o' r = .free
  kept : ∀ r, (∀ i j, o r = .frame d i j → ¬ (a ≤ addr i j ∧ addr i j < hi)) → o' r = o r
  page : ∀ q, (∀ i, o q ≠ .table d i) → o' q = o q → s'.page q = s.page q
  freelist : s'.freelist = (presentPages s d hi a).reverse ++ s.freelist

theorem Cleared.refl (h : Exact D o s) (hle : hi ≤ a) : Cleared D d hi a o s o s := by
  refine ⟨h, rfl, rfl, fun _ _ => rfl, fun d' hd' i j => ?_, fun r i j _ _ _ => by omega, fun _ _ => rfl,
    fun _ _ _ => rfl, ?_⟩
  · rw [if_neg]
    rintro ⟨-, ⟨_, _⟩, -⟩
    omega
  · unfold presentPages
    rw [dif_neg (by omega)]
    rfl

/-- The indices of an aligned address. -/
theorem index_iff (ha : a % PGSIZE = 0) (h32 : a < 2 ^ 32) : i = PDX a ∧ j = PTX a ↔ addr i j = a := by
  constructor
  · rintro ⟨rfl, rfl⟩
    exact addr_index ha h32
  · rintro rfl
    exact ⟨(PDX_addr i j).symm, (PTX_addr i j).symm⟩

/-- An address in the range is the first one or one of the next pages. -/
theorem addr_range (ha : a % PGSIZE = 0) : a + PGSIZE ≤ addr i j ↔ a ≤ addr i j ∧ addr i j ≠ a := by
  have hmod := addr_mod i j
  simp only [PGSIZE] at *
  omega

theorem pte_addr : s.pte d (addr i j) = s.entry d i j := by rw [Mem.pte, PDX_addr, PTX_addr]

theorem Cleared.skip (ha : a % PGSIZE = 0) (hlt : a < hi) (hlow : a < KERNBASE)
    (hno : (s.pte d a).p = false) (h0 : Exact D o s) (h : Cleared D d hi (a + PGSIZE) o s o' s') :
    Cleared D d hi a o s o' s' := by
  have h32 : a < 2 ^ 32 := Nat.lt_trans hlow (by decide)
  refine ⟨h.exact, h.lo, h.fails, h.dirs, fun d' hd' i j => ?_, fun r i j ho hle hlt' => ?_, fun r hr => ?_, h.page, ?_⟩
  · rw [h.entry d' hd']
    refine if_congr ?_ rfl rfl
    rw [addr_range ha]
    refine and_congr_right fun _ => ⟨fun hand => ⟨⟨hand.1.1.1, hand.1.2⟩, hand.2⟩, fun hand => ⟨⟨⟨hand.1.1, ?_⟩, hand.1.2⟩,
      hand.2⟩⟩
    rintro rfl
    rw [← pte_addr, hno] at hand
    exact absurd hand.2 Bool.false_ne_true
  · refine h.freed r i j ho ((addr_range ha).mpr ⟨hle, ?_⟩) hlt'
    rintro rfl
    have hp := (h0.frame_iff.mp ho).2.2.1
    rw [← pte_addr, hno] at hp
    exact absurd hp Bool.false_ne_true
  · refine h.kept r fun i j ho hand => hr i j ho ⟨?_, hand.2⟩
    exact ((addr_range ha).mp hand.1).1
  · rw [h.freelist]
    conv_rhs => unfold presentPages
    rw [dif_pos hlt, if_neg (by simp [hno]), nil_append]

theorem Cleared.cons (ha : a % PGSIZE = 0) (hlt : a < hi) (hhi : hi ≤ KERNBASE)
    (hp : (s.pte d a).p = true) (hd : d ∈ D) (h0 : Exact D o s)
    (h : Cleared D d hi (a + PGSIZE) (update o (s.pte d a).ppn .free) (s.release d a) o' s') :
    Cleared D d hi a o s o' s' := by
  have hlow : a < KERNBASE := Nat.lt_of_lt_of_le hlt hhi
  have h32 : a < 2 ^ 32 := Nat.lt_trans hlow (by decide)
  have hpd := Mem.present_of_entry hp
  have hoq : o (s.pte d a).ppn = .frame d (PDX a) (PTX a) := h0.frame hd (low_of_lt hlow) hp
  have hunmap := h0.unmap hd (low_of_lt hlow) hp
  have hout : (update o (s.entry d (PDX a) (PTX a)).ppn .none (s.pte d a).ppn).Outside := by
    rw [Mem.pte, update_self]
    trivial
  -- the entries after the first round
  have hentry : ∀ d' ∈ D, ∀ i j, (s.release d a).entry d' i j =
      if d' = d ∧ addr i j = a then .zero else s.entry d' i j := by
    intro d' hd' i j
    rw [h0.release_eq hd hlow hp]
    have hpush : ((s.setEntry (s.page d (PDX a)).ppn (PTX a) .zero).push (s.pte d a).ppn).entry d' i j =
        (s.setEntry (s.page d (PDX a)).ppn (PTX a) .zero).entry d' i j :=
      hunmap.entry_put (by intro ho; rw [ho] at hout; exact hout) (by intro _ _ ho; rw [ho] at hout; exact hout) hd' _
    rw [hpush, h0.entry_setEntry hd hd' hpd]
    exact if_congr (and_congr_right fun _ => index_iff ha h32) rfl rfl
  have hpage : ∀ q, (∀ i, o q ≠ .table d i) → q ≠ (s.pte d a).ppn → (s.release d a).page q = s.page q := by
    intro q hq hne
    have hqt : q ≠ (s.page d (PDX a)).ppn := by
      rintro rfl
      exact hq _ (h0.table hd hpd)
    rw [Mem.release, Mem.setEntry_page_of_ne _ hqt, Mem.push_page_of_ne hne]
  refine ⟨h.exact, h.lo, h.fails, fun d' hd' => ?_, fun d' hd' i j => ?_, fun r i j ho hle hlt' => ?_, fun r hr => ?_,
    fun q hq hsame => ?_, ?_⟩
  · rw [h.dirs d' hd']
    refine hpage d' (fun i ho => absurd ((h0.dir hd').symm.trans ho) nofun) ?_
    rintro rfl
    rw [h0.dir hd'] at hoq
    nomatch hoq
  · have hrange := addr_range (i := i) (j := j) ha
    rw [h.entry d' hd', hentry d' hd', hentry d hd]
    by_cases hdd : d' = d
    · subst hdd
      by_cases haddr : addr i j = a
      · have hpa : (s.entry d' i j).p = true := by rw [← pte_addr, haddr]; exact hp
        have hout' : ¬ a + PGSIZE ≤ addr i j := fun hle => (hrange.mp hle).2 haddr
        rw [if_neg fun hand => hout' hand.2.1.1, if_pos ⟨rfl, haddr⟩, if_pos ⟨rfl, ⟨haddr.ge, haddr ▸ hlt⟩, hpa⟩]
      · have hne : ¬ (d' = d' ∧ addr i j = a) := fun hand => haddr hand.2
        rw [if_neg hne]
        refine if_congr (and_congr_right fun _ => and_congr_left fun _ => and_congr_left fun _ => ?_) rfl rfl
        exact hrange.trans (and_iff_left haddr)
    · rw [if_neg fun hand => hdd hand.1, if_neg fun hand => hdd hand.1, if_neg fun hand => hdd hand.1]
  · by_cases haddr : addr i j = a
    · have hr : r = (s.pte d a).ppn := by
        have hfr := (h0.frame_iff.mp ho).2.2.2
        rw [← pte_addr, haddr] at hfr
        exact hfr.symm
      subst hr
      have hfree : update o (s.pte d a).ppn .free (s.pte d a).ppn = .free := update_self ..
      rw [h.kept _ (by rw [hfree]; exact nofun), hfree]
    · have hne : r ≠ (s.pte d a).ppn := by
        rintro rfl
        rw [hoq] at ho
        obtain ⟨-, rfl, rfl⟩ := Owner.frame.inj ho
        exact haddr (addr_index ha h32)
      exact h.freed r i j (by rw [update_of_ne hne]; exact ho) ((addr_range ha).mpr ⟨hle, haddr⟩) hlt'
  · have hne : r ≠ (s.pte d a).ppn := by
      rintro rfl
      refine hr _ _ hoq ?_
      rw [addr_index ha h32]
      exact ⟨le_rfl, hlt⟩
    rw [h.kept r, update_of_ne hne]
    rw [update_of_ne hne]
    exact fun i j ho hand => hr i j ho ⟨((addr_range ha).mp hand.1).1, hand.2⟩
  · have hne : q ≠ (s.pte d a).ppn := by
      rintro rfl
      have hfree : update o (s.pte d a).ppn .free (s.pte d a).ppn = .free := update_self ..
      have hfree' : o' (s.pte d a).ppn = .free := (h.kept _ (by rw [hfree]; exact nofun)).trans hfree
      rw [hfree', hoq] at hsame
      nomatch hsame
    rw [h.page q (by rw [update_of_ne hne]; exact hq) (by rw [update_of_ne hne]; exact hsame)]
    exact hpage q hq hne
  · have hcongr : presentPages (s.release d a) d hi (a + PGSIZE) = presentPages s d hi (a + PGSIZE) := by
      refine presentPages_congr _ _ le_rfl fun b hb hlt' hmod => ?_
      rw [Mem.pte, hentry d hd, if_neg]
      · rfl
      · rintro ⟨-, heq⟩
        rw [Nat.add_mod_right, ha] at hmod
        have hb32 : b < 2 ^ 32 := Nat.lt_trans (Nat.lt_of_lt_of_le hlt' hhi) (by decide)
        rw [addr_index hmod hb32] at heq
        simp only [PGSIZE] at hb
        omega
    rw [h.freelist, hcongr]
    conv_rhs => unfold presentPages
    rw [dif_pos hlt, if_pos hp]
    simp [Mem.release]

theorem wp_deallocuvmPlain (hd : d ∈ D) (hhi : hi ≤ KERNBASE) (n : ℕ) : ∀ {s : Mem} {o : ℕ → Owner} (a : ℕ),
    hi - a ≤ n → a % PGSIZE = 0 → Exact D o s →
    Wp (deallocuvmPlain d hi a) (fun _ s' => ∃ o', Cleared D d hi a o s o' s') E s := by
  induction n using Nat.strong_induction_on with
  | _ n ih =>
    intro s o a hn ha h
    unfold deallocuvmPlain
    by_cases hlt : a < hi
    · have hlow : a < KERNBASE := by omega
      have hstep : (a + PGSIZE) % PGSIZE = 0 := by rw [Nat.add_mod_right, ha]
      rw [dif_pos hlt, wp_bind]
      refine wp_deallocPage h hd hlow (fun hno => ?_) fun hp => ?_
      · refine wp_post (ih (n - 1) (by omega) (a + PGSIZE) (by simp only [PGSIZE]; omega) hstep h) ?_
        rintro - s' ⟨o', h'⟩
        exact ⟨o', h'.skip ha hlt hlow hno h⟩
      · refine wp_post (ih (n - 1) (by omega) (a + PGSIZE) (by simp only [PGSIZE]; omega) hstep
          (h.release hd hlow hp)) ?_
        rintro - s' ⟨o', h'⟩
        exact ⟨o', h'.cons ha hlt hhi hp hd h⟩
    · rw [dif_neg hlt]
      exact ⟨o, Cleared.refl h (by omega)⟩

/-- `deallocuvm` returns, and frees the pages present in the range. -/
theorem wp_deallocuvm_exact {Q : ℕ → Mem → Prop} (h : Exact D o s) (hd : d ∈ D) {oldsz : ℕ} (hsz : oldsz ≤ KERNBASE)
    (newsz : ℕ) (hQ : ∀ o' s', Cleared D d oldsz (PGROUNDUP newsz) o s o' s' → Q (min oldsz newsz) s') :
    Wp (deallocuvm d oldsz newsz) Q E s := by
  unfold deallocuvm
  by_cases hle : oldsz ≤ newsz
  · rw [if_pos hle]
    have hQ' := hQ o s (Cleared.refl h (by simp only [PGROUNDUP, PGSIZE]; omega))
    rwa [Nat.min_eq_left hle] at hQ'
  · rw [if_neg hle, wp_bind]
    have hplain := wp_deallocuvmPlain (E := E) hd hsz _ (PGROUNDUP newsz) le_rfl (PGROUNDUP_mod newsz) h
    have hrun : (deallocuvmLoop d oldsz (PGROUNDUP newsz)).run s = (deallocuvmPlain d oldsz (PGROUNDUP newsz)).run s :=
      deallocuvmLoop_eq_plain _ _ s le_rfl (PGROUNDUP_mod newsz)
    unfold Wp at hplain ⊢
    rw [hrun]
    revert hplain
    cases (deallocuvmPlain d oldsz (PGROUNDUP newsz)).run s with
    | ok _ s' =>
      rintro ⟨o', hcleared⟩
      have hQ' := hQ o' s' hcleared
      rwa [Nat.min_eq_right (Nat.le_of_not_le hle)] at hQ'
    | error _ _ => exact id

/-! ## `freevm` -/

/-- The page belongs to directory `d`: it is the directory, one of its tables or one of its frames. -/
def Owner.Of (d r : ℕ) : Owner → Prop
  | .dir => r = d
  | .table d' _ => d' = d
  | .frame d' _ _ => d' = d
  | _ => False

instance (d r : ℕ) (x : Owner) : Decidable (x.Of d r) := by
  cases x <;> unfold Owner.Of <;> infer_instance

/-- The labels once the pages of directory `d` are free. -/
def released (o : ℕ → Owner) (d r : ℕ) : Owner := if (o r).Of d r then .free else o r

/-- The page tables of `d` for the entries `is`, in their order. -/
def tablePages (s : Mem) (d : ℕ) (is : List (Fin NPDENTRIES)) : List ℕ :=
  is.filterMap fun i => if (s.page d i).p then some (s.page d i).ppn else none

/-- The memory after `freevm` of `d`. -/
structure Freed (D : Set ℕ) (d : ℕ) (o : ℕ → Owner) (s s' : Mem) : Prop where
  exact : Exact (D \ {d}) (released o d) s'
  lo : s'.lo = s.lo
  fails : s'.fails = s.fails
  page : ∀ q, ¬ (o q).Of d q → s'.page q = s.page q
  freelist : s'.freelist =
    (presentPages s d KERNBASE 0 ++ tablePages s d (List.finRange NPDENTRIES) ++ [d]).reverse ++ s.freelist

/-- The memory while `freevm` frees the tables: those of the entries `is` are left. -/
structure Freeing (D : Set ℕ) (d : ℕ) (o : ℕ → Owner) (s : Mem) (is : List (Fin NPDENTRIES)) (s' : Mem) : Prop where
  exact : ∃ o', Exact (D \ {d}) o' s' ∧ o' d = .none ∧
    (∀ q, o' q = if ∃ i, o q = .table d i ∧ i ∉ is then .free else Exact.dropped o d q)
  lo : s'.lo = s.lo
  fails : s'.fails = s.fails
  page : ∀ q, (∀ i, o q ≠ .table d i) → s'.page q = s.page q
  freelist : s'.freelist.reverse ++ tablePages s d is =
    s.freelist.reverse ++ tablePages s d (List.finRange NPDENTRIES)
  nodup : is.Nodup

theorem Freeing.step {is : List (Fin NPDENTRIES)} (h0 : Exact D o s) (hd : d ∈ D) (h : Freeing D d o s (i :: is) s') :
    Wp (do
      let s ← get
      if (s.page d i).p then kfree (s.page d i).ppn)
      (fun _ s'' => Freeing D d o s is s'') E s' := by
  obtain ⟨⟨o', hexact, hdir, hlabel⟩, hlo, hfails, hpage, hfree, hnodup⟩ := h
  rw [nodup_cons] at hnodup
  have hpd : s'.page d = s.page d := hpage d fun i' ho => absurd ((h0.dir hd).symm.trans ho) nofun
  rw [wp_bind, wp_get, hpd]
  split
  · rename_i hp
    have hot := h0.table hd hp
    have hnone : o' (s.page d i).ppn = .none := by
      rw [hlabel, if_neg, Exact.dropped, hot]
      · simp
      · rintro ⟨i', ho, hi'⟩
        obtain ⟨-, rfl⟩ := Owner.table.inj (hot.symm.trans ho)
        exact hi' mem_cons_self
    have hrange : s'.InRange (s.page d i).ppn := by
      rw [Mem.InRange, hlo]
      exact h0.range _ (by rw [hot]; simp)
    refine wp_kfree_exact hrange ⟨⟨_, hexact.push (by rw [hnone]; trivial) hrange, ?_, fun q => ?_⟩, hlo, hfails,
      fun q hq => ?_, ?_, hnodup.2⟩
    · have hne : d ≠ (s.page d i).ppn := by
        intro heq
        rw [← heq, h0.dir hd] at hot
        nomatch hot
      rw [update_of_ne hne, hdir]
    · by_cases hq : q = (s.page d i).ppn
      · subst hq
        rw [update_self, if_pos ⟨i, hot, hnodup.1⟩]
      · rw [update_of_ne hq, hlabel q]
        refine if_congr (exists_congr fun i' => and_congr_right fun ho => ?_) rfl rfl
        have hne : i' ≠ i := by
          rintro rfl
          exact hq (h0.table_iff.mp ho).2.2.symm
        simp [hne]
    · rw [Mem.push_page_of_ne]
      · exact hpage q hq
      · rintro rfl
        exact hq i hot
    · rw [← hfree]
      simp [tablePages, hp]
  · rename_i hp
    refine ⟨⟨o', hexact, hdir, fun q => ?_⟩, hlo, hfails, hpage, ?_, hnodup.2⟩
    · rw [hlabel q]
      refine if_congr (exists_congr fun i' => and_congr_right fun ho => ?_) rfl rfl
      have hne : i' ≠ i := by
        rintro rfl
        exact hp (h0.table_iff.mp ho).2.1
      simp [hne]
    · rw [← hfree]
      simp [tablePages, hp]

theorem PGROUNDUP_zero : PGROUNDUP 0 = 0 := by simp [PGROUNDUP, PGSIZE]

/-- `freevm` returns, and frees all pages of the directory. -/
theorem wp_freevm_exact (h : Exact D o s) (hd : d ∈ D)
    (hQ : ∀ s', Freed D d o s s' → Q () s') : Wp (freevm d) Q E s := by
  unfold freevm
  rw [wp_bind]
  refine wp_deallocuvm_exact h hd (Nat.le_refl KERNBASE) 0 fun o1 s1 hc => ?_
  rw [PGROUNDUP_zero] at hc
  have hframes : ∀ i j, Low i → (s1.entry d i j).p = false := by
    intro i j hlow
    rw [hc.entry d hd]
    by_cases hp : (s.entry d i j).p = true
    · rw [if_pos ⟨rfl, ⟨Nat.zero_le _, low_iff.mp hlow⟩, hp⟩]
      rfl
    · rw [if_neg fun hand => hp hand.2.2]
      simpa using hp
  have hdrop := hc.exact.drop hframes
  -- the labels of tables and directories are those of before
  have htables : ∀ q i, o1 q = .table d i ↔ o q = .table d i := by
    intro q i
    by_cases hk : ∃ i' j', o q = .frame d i' j'
    · obtain ⟨i', j', ho⟩ := hk
      have hfr := h.frame_iff.mp ho
      rw [hc.freed q i' j' ho (Nat.zero_le _) (low_iff.mp hfr.2.1), ho]
      simp
    · rw [hc.kept q fun i' j' ho => absurd ⟨i', j', ho⟩ hk]
  have hpd : s1.page d = s.page d := hc.dirs d hd
  have htp : ∀ is, tablePages s1 d is = tablePages s d is := fun is => by rw [tablePages, tablePages, hpd]
  have hnodup : (List.finRange NPDENTRIES).Nodup := nodup_finRange _
  rw [wp_bind]
  have hstart : Freeing D d o1 s1 (List.finRange NPDENTRIES) s1 := by
    refine ⟨⟨_, hdrop, ?_, fun q => ?_⟩, rfl, rfl, fun _ _ => rfl, rfl, hnodup⟩
    · rw [Exact.dropped, hc.exact.dir hd]
      simp
    · rw [if_neg]
      rintro ⟨i, -, hi⟩
      exact hi (mem_finRange i)
  generalize List.finRange NPDENTRIES = is at hstart ⊢
  refine wp_post (wp_forM (fun is s' => Freeing D d o1 s1 is s') (fun i is s' hf => hf.step hc.exact hd) hstart) ?_
  rintro - s2 ⟨⟨o2, hexact, hdir, hlabel⟩, hlo, hfails, hpage, hfree, -⟩
  have hrange : s2.InRange d := by
    rw [Mem.InRange, hlo, hc.lo]
    exact h.range d (by rw [h.dir hd]; simp)
  have hpush := hexact.push (by rw [hdir]; trivial) hrange
  have hfreed : update o2 d .free = released o d := by
    funext q
    by_cases hq : q = d
    · subst hq
      rw [update_self, released, if_pos (by rw [h.dir hd]; rfl)]
    · rw [update_of_ne hq, hlabel q]
      by_cases hf : ∃ i j, o q = .frame d i j
      · obtain ⟨i, j, ho⟩ := hf
        have hfree1 := hc.freed q i j ho (Nat.zero_le _) (low_iff.mp (h.frame_iff.mp ho).2.1)
        have hdropped : Exact.dropped o1 d q = .free := by rw [Exact.dropped, hfree1]
        have hreleased : released o d q = .free := if_pos (by rw [ho]; rfl)
        rw [if_neg (by simp [hfree1]), hdropped, hreleased]
      · have hsame : o1 q = o q := hc.kept q fun i j ho => absurd ⟨i, j, ho⟩ hf
        unfold Exact.dropped released
        rw [hsame]
        cases ho : o q with
        | frame d' i j =>
          have hne : d' ≠ d := by
            rintro rfl
            exact hf ⟨i, j, ho⟩
          simp [Owner.Of, hne]
        | table d' i => by_cases hdd : d' = d <;> simp [Owner.Of, hdd]
        | _ => simp [Owner.Of, hq]
  refine wp_kfree_exact hrange (hQ _ ⟨hfreed ▸ hpush, hlo.trans hc.lo, hfails.trans hc.fails, fun q hq => ?_, ?_⟩)
  · have hqd : q ≠ d := by
      rintro rfl
      exact hq (by rw [h.dir hd]; rfl)
    have hnt : ∀ i, o q ≠ .table d i := fun i ho => hq (by rw [ho]; rfl)
    have hsame : o1 q = o q := hc.kept q fun i j ho => absurd (by rw [ho]; rfl) hq
    rw [Mem.push_page_of_ne hqd, hpage q (fun i ho => hnt i ((htables q i).mp ho)), hc.page q hnt hsame]
  · have hlist : s2.freelist = (tablePages s d (List.finRange NPDENTRIES)).reverse ++ s1.freelist := by
      rw [← htp, ← reverse_inj, reverse_append, reverse_reverse, ← hfree]
      simp [tablePages]
    rw [Mem.push_freelist, hlist, hc.freelist]
    simp only [reverse_append, reverse_cons, reverse_nil, nil_append, append_assoc,
      cons_append]

end Vm

end Xv6
