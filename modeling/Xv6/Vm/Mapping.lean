import Xv6.Vm.Growproc
import Xv6.Vm.UserBytes

/-!
# A page directory as a map

`mappages` and `setupkvm` in the arithmetic of the machine, where the last range of `kmap` ends at address 0. A
directory is a partial map from pages to entries: `mappages` adds a range to it, whatever physical memory the range is
to stand for.
-/

namespace Xv6

namespace Vm

open Code

variable {s s' s'' : Mem} {d a va q : ℕ} {i j : Fin NPDENTRIES} {e : Pte} {E : Panic → Mem → Prop}

/-! ## `vm.c` -/

def PTE_P : BitVec 32 := 0x001

def PTE_W : BitVec 32 := 0x002

namespace Machine

def PGROUNDDOWN (a : BitVec 32) : BitVec 32 := a &&& ~~~0xFFF#32

/-- The loop of `mappages`; the result is `none` if it has not ended after `fuel` steps. -/
def mappagesLoop (pgdir : ℕ) (last perm : BitVec 32) : (fuel : ℕ) → (a pa : BitVec 32) → VmCode (Option Bool)
  | 0, _, _ => pure none
  | fuel + 1, a, pa => do
    match ← walkpgdir pgdir a.toNat true with
    | none => pure (some false)
    | some (t, j) =>
      let s ← get
      if (s.page t j).p then throw .remap
      setPte t j (Pte.ofWord (pa ||| perm ||| PTE_P))
      if a = last then pure (some true)
      else mappagesLoop pgdir last perm fuel (a + 4096) (pa + 4096)

def mappages (fuel pgdir : ℕ) (va size pa perm : BitVec 32) : VmCode (Option Bool) :=
  let a := PGROUNDDOWN va
  let last := PGROUNDDOWN (va + size - 1)
  mappagesLoop pgdir last perm fuel a pa

def V2P (a : BitVec 32) : BitVec 32 := a - BitVec.ofNat 32 KERNBASE

/-- `kmap`: `virt`, `phys_start`, `phys_end` and `perm`. -/
def kmap (data : BitVec 32) : List (BitVec 32 × BitVec 32 × BitVec 32 × BitVec 32) :=
  [(BitVec.ofNat 32 KERNBASE, 0, BitVec.ofNat 32 EXTMEM, PTE_W),
   (BitVec.ofNat 32 KERNLINK, V2P (BitVec.ofNat 32 KERNLINK), V2P data, 0),
   (data, V2P data, BitVec.ofNat 32 PHYSTOP, PTE_W),
   (BitVec.ofNat 32 DEVSPACE, BitVec.ofNat 32 DEVSPACE, 0, PTE_W)]

/-- The loop of `setupkvm`. -/
def setupkvmLoop (fuel pgdir : ℕ) : List (BitVec 32 × BitVec 32 × BitVec 32 × BitVec 32) → VmCode (Option (Option ℕ))
  | [] => pure (some (some pgdir))
  | (virt, physStart, physEnd, perm) :: ks => do
    match ← mappages fuel pgdir virt (physEnd - physStart) physStart perm with
    | none => pure none
    | some true => setupkvmLoop fuel pgdir ks
    | some false =>
      freevm pgdir
      pure (some none)

/-- `setupkvm`; the test of `PHYSTOP` compares two constants, and passes. -/
def setupkvm (fuel : ℕ) (data : BitVec 32) : VmCode (Option (Option ℕ)) := do
  match ← kalloc with
  | none => pure (some none)
  | some pgdir =>
    memset pgdir .zero
    setupkvmLoop fuel pgdir (kmap data)

end Machine

/-! ## Directories -/

/-- Before there are directories, pages are free or have no use. -/
theorem Exact.of_freelist (hpos : 0 < s.lo) (hnodup : s.freelist.Nodup) (hrange : ∀ r ∈ s.freelist, s.InRange r) :
    Exact ∅ (fun r => if r ∈ s.freelist then .free else .none) s := by
  refine ⟨hpos, fun r hr => ?_, hnodup, fun r x hx => ?_⟩
  · by_contra hno
    exact hr (if_neg fun hmem => hno (hrange r hmem))
  · cases x with
    | free => simp [Uses]
    | dir => split_ifs <;> simp [Uses]
    | table d i => split_ifs <;> simp [Uses]
    | frame d i j => split_ifs <;> simp [Uses]
    | _ => exact absurd trivial hx

/-- Page `d` is a page directory: its tables are different pages, neither `d` nor free. -/
structure IsDir (s : Mem) (d : ℕ) : Prop where
  nodup : s.freelist.Nodup
  used : d ∉ s.freelist
  table : ∀ i, (s.page d i).p = true → (s.page d i).ppn ≠ d ∧ (s.page d i).ppn ∉ s.freelist
  inj : ∀ i i', (s.page d i).p = true → (s.page d i').p = true → (s.page d i).ppn = (s.page d i').ppn → i = i'

/-- Page `q` is a table of `d`. -/
def IsTable (s : Mem) (d q : ℕ) : Prop := ∃ i, (s.page d i).p = true ∧ (s.page d i).ppn = q

/-- What `mappages` leaves alone: the pages that are neither `d`, nor its tables, nor free. -/
structure Framed (s : Mem) (d : ℕ) (s' : Mem) : Prop where
  dir : IsDir s' d
  page : ∀ q, q ≠ d → q ∉ s.freelist → ¬ IsTable s d q → s'.page q = s.page q
  table : ∀ q, IsTable s' d q → IsTable s d q ∨ q ∈ s.freelist
  calls : ∃ k, Calls k s s'

variable {k x fuel : ℕ} {val : ℕ → Pte} {Q : Option Bool → Mem → Prop} {last perm pa size data : BitVec 32}

theorem Calls.mem (h : Calls k s s') (hq : q ∈ s'.freelist) : q ∈ s.freelist := by
  rw [h.freelist] at hq
  exact List.mem_of_mem_drop hq

theorem Framed.refl (h : IsDir s d) : Framed s d s := ⟨h, fun _ _ _ _ => rfl, fun _ => .inl, 0, Calls.refl s⟩

theorem Framed.trans (h : Framed s d s') (h' : Framed s' d s'') : Framed s d s'' := by
  obtain ⟨k, hk⟩ := h.calls
  obtain ⟨k', hk'⟩ := h'.calls
  refine ⟨h'.dir, fun q hqd hfree htable => ?_, fun q hq => ?_, k + k', hk.trans hk'⟩
  · have hno : ¬ IsTable s' d q := fun ht => (h.table q ht).elim htable hfree
    rw [h'.page q hqd (fun hq => hfree (hk.mem hq)) hno, h.page q hqd hfree htable]
  · rcases h'.table q hq with ht | hmem
    · exact h.table q ht
    · exact .inr (hk.mem hmem)

/-- The memory after `walkpgdir` has found or made the table for entry `i`. -/
structure TableAt (s : Mem) (d : ℕ) (i : Fin NPDENTRIES) (s' : Mem) : Prop extends Framed s d s' where
  present : (s'.page d i).p = true
  entry : ∀ x y, s'.entry d x y = s.entry d x y

/-- A free page becomes the table of an entry that had none. -/
theorem IsDir.newTable (h : IsDir s d) (hp : (s.page d i).p = false) {t : ℕ} (hnext : s.next = some t) :
    TableAt s d i ((s.pop.put t fun _ => .zero).setEntry d i ⟨t, true, true, true, 0⟩) := by
  obtain ⟨-, rs, hfl⟩ := Mem.next_eq_some hnext
  have ht : t ∈ s.freelist := by simp [hfl]
  have htd : t ≠ d := by
    rintro rfl
    exact h.used ht
  have hnodup := h.nodup
  rw [hfl, List.nodup_cons] at hnodup
  have hsub : ∀ q, q ∈ s.pop.freelist → q ∈ s.freelist := fun q hq => List.mem_of_mem_tail hq
  have hfree : t ∉ s.pop.freelist := by
    rw [Mem.pop, hfl]
    exact hnodup.1
  have hpage : ∀ x, ((s.pop.put t fun _ => .zero).setEntry d i ⟨t, true, true, true, 0⟩).page d x =
      if x = i then ⟨t, true, true, true, 0⟩ else s.page d x := by
    intro x
    rw [Mem.setEntry_page_self, Mem.put_page_of_ne _ htd.symm]
    rfl
  have hne : ∀ x, (s.page d x).p = true → x ≠ i := by
    rintro x hx rfl
    exact absurd (hp.symm.trans hx) Bool.false_ne_true
  refine ⟨⟨⟨?_, fun hq => h.used (hsub d hq), fun x hx => ?_, fun x y hx hy heq => ?_⟩, fun q hqd hq _ => ?_, ?_,
    1, (Calls.pop hnext).congr rfl rfl⟩, by rw [hpage, if_pos rfl], fun x y => ?_⟩
  · show s.pop.freelist.Nodup
    rw [Mem.pop, hfl]
    exact hnodup.2
  · rw [hpage] at hx ⊢
    by_cases hxi : x = i
    · rw [if_pos hxi]
      exact ⟨htd, hfree⟩
    · rw [if_neg hxi] at hx ⊢
      exact ⟨(h.table x hx).1, fun hq => (h.table x hx).2 (hsub _ hq)⟩
  · rw [hpage] at hx hy heq
    rw [hpage] at heq
    by_cases hxi : x = i <;> by_cases hyi : y = i
    · rw [hxi, hyi]
    · rw [if_neg hyi] at hy heq
      rw [if_pos hxi] at heq
      exact absurd (show (s.page d y).ppn ∈ s.freelist from heq ▸ ht) (h.table y hy).2
    · rw [if_neg hxi] at hx heq
      rw [if_pos hyi] at heq
      exact absurd (show (s.page d x).ppn ∈ s.freelist from heq ▸ ht) (h.table x hx).2
    · rw [if_neg hxi] at hx heq
      rw [if_neg hyi] at hy heq
      exact h.inj x y hx hy heq
  · rw [Mem.setEntry_page_of_ne _ hqd, Mem.put_page_of_ne]
    · rfl
    · rintro rfl
      exact hq ht
  · rintro q ⟨x, hx, rfl⟩
    rw [hpage] at hx ⊢
    by_cases hxi : x = i
    · rw [if_pos hxi]
      exact .inr ht
    · rw [if_neg hxi] at hx ⊢
      exact .inl ⟨x, hx, rfl⟩
  · unfold Mem.entry
    rw [hpage]
    by_cases hxi : x = i
    · subst hxi
      rw [if_pos rfl, if_pos rfl, if_neg (by simp [hp]), Mem.setEntry_page_of_ne _ htd, Mem.put_page_self]
    · rw [if_neg hxi]
      by_cases hx : (s.page d x).p = true
      · have hxt : (s.page d x).ppn ≠ t := fun heq => (h.table x hx).2 (heq ▸ ht)
        rw [if_pos hx, if_pos hx, Mem.setEntry_page_of_ne _ (h.table x hx).1, Mem.put_page_of_ne _ hxt]
        rfl
      · rw [if_neg hx, if_neg hx]

theorem wp_walkpgdir_dir {Q : Option (ℕ × Fin NPDENTRIES) → Mem → Prop} (h : IsDir s d)
    (hfail : s.next = none → Q none s.tick)
    (hok : ∀ s', TableAt s d (PDX va) s' → Q (some ((s'.page d (PDX va)).ppn, PTX va)) s') :
    Wp (walkpgdir d va true) Q E s := by
  unfold walkpgdir
  rw [wp_bind, wp_get]
  cases hp : (s.page d (PDX va)).p with
  | true =>
    simp only [hp, if_true, wp_pure]
    exact hok s ⟨Framed.refl h, hp, fun _ _ => rfl⟩
  | false =>
    simp only [hp, Bool.false_eq_true, if_false, Bool.true_eq_false, wp_bind]
    refine wp_kalloc_exact hfail fun t hnext => ?_
    have hQ := hok _ (h.newTable hp hnext)
    rw [Mem.setEntry_page_self, if_pos rfl] at hQ
    exact hQ

/-- An entry is written into a table of the directory. -/
theorem IsDir.setEntry (h : IsDir s d) (hp : (s.page d i).p = true) : Framed s d (s.setEntry (s.page d i).ppn j e) ∧
      ∀ x y, (s.setEntry (s.page d i).ppn j e).entry d x y = if x = i ∧ y = j then e else s.entry d x y := by
  have hdir : (s.setEntry (s.page d i).ppn j e).page d = s.page d := Mem.setEntry_page_of_ne e (h.table i hp).1.symm
  refine ⟨⟨⟨h.nodup, h.used, ?_, ?_⟩, fun q _ _ hq => ?_, fun q hq => .inl ?_, 0, (Calls.refl s).congr rfl rfl⟩,
    fun x y => ?_⟩
  · rw [hdir]
    exact h.table
  · rw [hdir]
    exact h.inj
  · refine Mem.setEntry_page_of_ne e ?_
    rintro rfl
    exact hq ⟨i, hp, rfl⟩
  · unfold IsTable at hq
    rwa [hdir] at hq
  · unfold Mem.entry
    rw [hdir]
    by_cases hx : (s.page d x).p = true
    · rw [if_pos hx, if_pos hx]
      by_cases hxi : x = i
      · subst hxi
        rw [Mem.setEntry_page_self]
        simp
      · have hne : (s.page d x).ppn ≠ (s.page d i).ppn := fun heq => hxi (h.inj x i hx hp heq)
        rw [Mem.setEntry_page_of_ne e hne, if_neg fun hand => hxi hand.1]
    · rw [if_neg hx, if_neg hx, if_neg]
      rintro ⟨rfl, -⟩
      exact hx hp

/-! ## Ranges -/

/-- The memory after the `n` pages from `a` on have been mapped, the page at `x` with entry `val x`. -/
structure Mapped (s : Mem) (d a n : ℕ) (val : ℕ → Pte) (s' : Mem) : Prop extends Framed s d s' where
  mapped : ∀ x, a ≤ x → x < a + n * PGSIZE → s'.pte d x = val (PGROUNDDOWN x)
  other : ∀ x < 2 ^ 32, x < a ∨ a + n * PGSIZE ≤ x → s'.pte d x = s.pte d x

theorem Mapped.refl (h : IsDir s d) : Mapped s d a 0 val s :=
  ⟨Framed.refl h, fun x hle hlt => by omega, fun _ _ _ => rfl⟩

theorem Mapped.trans {n m : ℕ} (h : Mapped s d a n val s')
    (h' : Mapped s' d (a + n * PGSIZE) m val s'') (h32 : a + (n + m) * PGSIZE ≤ 2 ^ 32) :
    Mapped s d a (n + m) val s'' := by
  have hend : a + n * PGSIZE + m * PGSIZE = a + (n + m) * PGSIZE := by ring
  have hmid : a + n * PGSIZE ≤ a + (n + m) * PGSIZE := by
    rw [← hend]
    exact Nat.le_add_right ..
  refine ⟨h.toFramed.trans h'.toFramed, fun x hle hlt => ?_, fun x hx hout => ?_⟩
  · by_cases hx : x < a + n * PGSIZE
    · rw [h'.other x (by omega) (.inl hx), h.mapped x hle hx]
    · exact h'.mapped x (by omega) (by omega)
  · rw [h'.other x hx (by omega), h.other x hx (by omega)]

/-- The page of an address. -/
theorem index_eq_iff (ha : a % PGSIZE = 0) (h32 : a < 2 ^ 32) (hx : x < 2 ^ 32) :
    PDX x = PDX a ∧ PTX x = PTX a ↔ a ≤ x ∧ x < a + PGSIZE := by
  simp only [Fin.ext_iff, PDX, PTX, NPDENTRIES, PGSIZE] at *
  omega

theorem PGROUNDDOWN_of_page (ha : a % PGSIZE = 0) (hle : a ≤ x) (hlt : x < a + PGSIZE) : PGROUNDDOWN x = a := by
  simp only [PGROUNDDOWN, PGSIZE] at *
  omega

/-- One page. -/
theorem TableAt.mapped (h : TableAt s d (PDX a) s') (ha : a % PGSIZE = 0) (h32 : a + PGSIZE ≤ 2 ^ 32)
    (he : e = val a) : Mapped s d a 1 val (s'.setEntry (s'.page d (PDX a)).ppn (PTX a) e) := by
  obtain ⟨hframed, hentry⟩ := h.dir.setEntry (j := PTX a) (e := e) h.present
  have hpage : 0 < PGSIZE := by decide
  refine ⟨h.toFramed.trans hframed, fun x hle hlt => ?_, fun x hx hout => ?_⟩
  · rw [one_mul] at hlt
    rw [Mem.pte, hentry, if_pos ((index_eq_iff ha (by omega) (by omega)).mpr ⟨hle, hlt⟩), he, PGROUNDDOWN_of_page ha hle hlt]
  · rw [one_mul] at hout
    rw [Mem.pte, hentry, if_neg, h.entry, Mem.pte]
    intro hidx
    have := (index_eq_iff ha (by omega) hx).mp hidx
    omega

/-! ## `mappages` -/

/-- The first page of `mappages`, and those after it. -/
theorem Machine.wp_mappagesLoop_step {a : BitVec 32}
    (h : IsDir s d) (ha : a.toNat % PGSIZE = 0) (habsent : (s.pte d a.toNat).p = false)
    (hval : Pte.ofWord (pa ||| perm ||| PTE_P) = val a.toNat) (hfail : s.next = none → Q (some false) s.tick)
    (hok : ∀ s', Mapped s d a.toNat 1 val s' →
      Wp (if a = last then pure (some true) else mappagesLoop d last perm fuel (a + 4096) (pa + 4096)) Q E s') :
    Wp (mappagesLoop d last perm (fuel + 1) a pa) Q E s := by
  have h32 : a.toNat + PGSIZE ≤ 2 ^ 32 := by
    have := a.isLt
    simp only [PGSIZE] at *
    omega
  unfold mappagesLoop
  rw [wp_bind]
  refine wp_walkpgdir_dir h hfail fun s' ht => ?_
  have hno : (s'.page (s'.page d (PDX a.toNat)).ppn (PTX a.toNat)).p = false := by
    rw [← Mem.entry_of_present ht.present, ht.entry]
    exact habsent
  simp only [wp_bind, wp_get, hno, Bool.false_eq_true, if_false]
  exact hok _ (ht.mapped ha h32 hval)

theorem Machine.wp_mappagesLoop (val : ℕ → Pte) (left : ℕ) :
    ∀ {s : Mem} {a pa : BitVec 32} {fuel : ℕ}, IsDir s d → a.toNat % PGSIZE = 0 →
    a.toNat + left * PGSIZE = last.toNat → left < fuel →
    (∀ n ≤ left, Pte.ofWord ((pa + BitVec.ofNat 32 (n * PGSIZE)) ||| perm ||| PTE_P) = val (a.toNat + n * PGSIZE)) →
    (∀ x, a.toNat ≤ x → x < a.toNat + (left + 1) * PGSIZE → (s.pte d x).p = false) →
    (∀ n s1, n ≤ left → Mapped s d a.toNat n val s1 → s1.next = none → Q (some false) s1.tick) →
    (∀ s', Mapped s d a.toNat (left + 1) val s' → Q (some true) s') →
    Wp (mappagesLoop d last perm fuel a pa) Q E s := by
  induction left with
  | zero =>
    intro s a pa fuel h ha hlast hfuel hval habsent hfail hok
    obtain ⟨fuel, rfl⟩ := Nat.exists_eq_succ_of_ne_zero (by omega : fuel ≠ 0)
    have heq : a = last := BitVec.eq_of_toNat_eq (by omega)
    have hv : Pte.ofWord (pa ||| perm ||| PTE_P) = val a.toNat := by simpa using hval 0 le_rfl
    refine wp_mappagesLoop_step h ha (habsent _ le_rfl (by simp [PGSIZE])) hv (hfail 0 s le_rfl (Mapped.refl h))
      fun s' hm => ?_
    rw [if_pos heq]
    exact hok s' hm
  | succ left ih =>
    intro s a pa fuel h ha hlast hfuel hval habsent hfail hok
    obtain ⟨fuel, rfl⟩ := Nat.exists_eq_succ_of_ne_zero (by omega : fuel ≠ 0)
    have hPG : 0 < PGSIZE := by decide
    have hsucc : (left + 1) * PGSIZE = left * PGSIZE + PGSIZE := Nat.succ_mul ..
    have hlt := last.isLt
    have hne : a ≠ last := by
      rintro rfl
      omega
    have hnext : (a + 4096).toNat = a.toNat + PGSIZE := by
      rw [BitVec.toNat_add]
      exact Nat.mod_eq_of_lt (show a.toNat + PGSIZE < 2 ^ 32 by omega)
    have hv : Pte.ofWord (pa ||| perm ||| PTE_P) = val a.toNat := by simpa using hval 0 (Nat.zero_le _)
    refine wp_mappagesLoop_step h ha (habsent _ le_rfl (by rw [Nat.succ_mul]; omega)) hv
      (hfail 0 s (Nat.zero_le _) (Mapped.refl h)) fun s' hm => ?_
    rw [if_neg hne]
    have htop : last.toNat + PGSIZE ≤ 2 ^ 32 := by
      have hmod : last.toNat % PGSIZE = 0 := by rw [← hlast, Nat.add_mul_mod_self_right, ha]
      simp only [PGSIZE] at hmod ⊢
      omega
    have hjoin : ∀ n s1, n ≤ left + 1 → Mapped s' d (a + 4096).toNat n val s1 → Mapped s d a.toNat (n + 1) val s1 := by
      intro n s1 hn h1
      rw [hnext, ← one_mul PGSIZE] at h1
      have hle : (1 + n) * PGSIZE ≤ (1 + (left + 1)) * PGSIZE := Nat.mul_le_mul_right _ (by omega)
      have hsum : (1 + (left + 1)) * PGSIZE = PGSIZE + (left + 1) * PGSIZE := by rw [Nat.add_mul, one_mul]
      rw [Nat.add_comm n 1]
      exact hm.trans h1 (by omega)
    refine ih hm.dir (by rw [hnext, Nat.add_mod_right, ha]) (by rw [hnext]; omega) (by omega) (fun n hn => ?_)
      (fun x hle hlt' => ?_) (fun n s1 hn h1 hnone => ?_) fun s1 h1 => ?_
    · have hvn := hval (n + 1) (by omega)
      have hpa : pa + 4096 + BitVec.ofNat 32 (n * PGSIZE) = pa + BitVec.ofNat 32 ((n + 1) * PGSIZE) := by
        rw [Nat.succ_mul, Nat.add_comm (n * PGSIZE), BitVec.ofNat_add, BitVec.add_assoc]
        rfl
      rw [hpa, hvn, hnext, Nat.succ_mul]
      exact congrArg val (by omega)
    · rw [hnext] at hle hlt'
      rw [hm.other x (by omega) (.inr (by rw [one_mul]; exact hle))]
      exact habsent x (by omega) (by rw [Nat.succ_mul]; omega)
    · exact hfail (n + 1) s1 (by omega) (hjoin n s1 (by omega) h1) hnone
    · exact hok s1 (hjoin (left + 1) s1 le_rfl h1)

theorem Machine.PGROUNDDOWN_toNat (a : BitVec 32) : (PGROUNDDOWN a).toNat = Vm.PGROUNDDOWN a.toNat := by
  have hshift : PGROUNDDOWN a = (a >>> 12) <<< 12 := by
    apply BitVec.eq_of_getLsbD_eq
    intro i hi
    simp only [PGROUNDDOWN, BitVec.getLsbD_and, BitVec.getLsbD_not, BitVec.getLsbD_shiftLeft, BitVec.getLsbD_ushiftRight]
    interval_cases i <;> simp
  have hlt := a.isLt
  rw [hshift, BitVec.toNat_shiftLeft, BitVec.toNat_ushiftRight, Nat.shiftRight_eq_div_pow, Nat.shiftLeft_eq,
    Nat.mod_eq_of_lt (by omega)]
  rfl

/-- The page of `x` is one of those of the `size` bytes at `va`. -/
def InPages (va size x : ℕ) : Prop :=
  PGROUNDDOWN va ≤ PGROUNDDOWN x ∧ PGROUNDDOWN x ≤ PGROUNDDOWN (va + size - 1)

/-- The page of `x` is present, at the physical address `phys` and with the flags `perm`. -/
structure Translates (s : Mem) (d x : ℕ) (phys perm : BitVec 32) : Prop where
  word : (s.pte d x).word = phys ||| perm ||| PTE_P
  present : (s.pte d x).p = true
  addr : perm.toNat < PGSIZE → (s.pte d x).ppn * PGSIZE = phys.toNat
  flags : perm.toNat < PGSIZE → (s.pte d x).word &&& 0xFFF = perm ||| PTE_P

theorem getLsbD_of_page {x : BitVec 32} (h : x.toNat % PGSIZE = 0) (hk : k < 12) : x.getLsbD k = false := by
  have hbit : (x.toNat % 2 ^ 12).testBit k = x.toNat.testBit k := by
    rw [Nat.testBit_mod_two_pow]
    simp [hk]
  have hzero : x.toNat % 2 ^ 12 = 0 := h
  rw [← BitVec.testBit_toNat, ← hbit, hzero, Nat.zero_testBit]

theorem getLsbD_of_flags {x : BitVec 32} (h : x.toNat < PGSIZE) (hk : 12 ≤ k) : x.getLsbD k = false := by
  rw [← BitVec.testBit_toNat]
  exact Nat.testBit_lt_two_pow (h.trans_le (show 2 ^ 12 ≤ 2 ^ k from Nat.pow_le_pow_right (by decide) hk))

/-- The flags do not touch the address. -/
theorem ppn_ofWord {x : BitVec 32} (h : perm.toNat < PGSIZE) :
    (Pte.ofWord (x ||| perm ||| PTE_P)).ppn = x.toNat / PGSIZE := by
  have hlt := x.isLt
  have hword : (x ||| perm ||| PTE_P).extractLsb' 12 20 = x.extractLsb' 12 20 := by
    apply BitVec.eq_of_getLsbD_eq
    intro k hk
    simp only [BitVec.getLsbD_extractLsb', BitVec.getLsbD_or, hk, decide_true, Bool.true_and]
    rw [getLsbD_of_flags h (by omega), getLsbD_of_flags (x := PTE_P) (by decide) (by omega)]
    simp
  show ((x ||| perm ||| PTE_P).extractLsb' 12 20).toNat = _
  rw [hword, BitVec.extractLsb'_toNat, Nat.shiftRight_eq_div_pow, Nat.mod_eq_of_lt (by omega)]
  rfl

theorem translates_of_pte {phys : BitVec 32} (hphys : phys.toNat % PGSIZE = 0)
    (h : s.pte d x = Pte.ofWord (phys ||| perm ||| PTE_P)) : Translates s d x phys perm := by
  rw [← Nat.dvd_iff_mod_eq_zero] at hphys
  refine ⟨by rw [h, Pte.word_ofWord], ?_, fun hperm => ?_, fun hperm => ?_⟩
  · rw [h]
    simp [Pte.ofWord, PTE_P]
  · rw [h, ppn_ofWord hperm, Nat.div_mul_cancel hphys]
  · rw [h, Pte.word_ofWord]
    apply BitVec.eq_of_getLsbD_eq
    intro k hk
    simp only [BitVec.getLsbD_and, BitVec.getLsbD_or]
    by_cases hk12 : k < 12
    · rw [getLsbD_of_page (Nat.mod_eq_zero_of_dvd hphys) hk12]
      interval_cases k <;> simp
    · rw [getLsbD_of_flags hperm (by omega), getLsbD_of_flags (x := PTE_P) (by decide) (by omega),
        getLsbD_of_flags (x := 0xFFF) (by decide) (by omega)]
      simp

/-- What `mappages` does with a range of absent pages. -/
structure MapsRange (s : Mem) (d : ℕ) (va size pa perm : BitVec 32) (r : Option Bool) (s' : Mem) : Prop where
  dir : IsDir s' d
  other : ∀ x < 2 ^ 32, ¬ InPages va.toNat size.toNat x → s'.pte d x = s.pte d x
  page : ∀ q, q ≠ d → q ∉ s.freelist → ¬ IsTable s d q → s'.page q = s.page q
  /-- No call of `kalloc` has failed and the range is mapped, or the last call has failed. -/
  result : (r = some true ∧ (∃ k, Calls k s s') ∧ ∀ x < 2 ^ 32, InPages va.toNat size.toNat x →
      Translates s' d x (pa + BitVec.ofNat 32 (PGROUNDDOWN x - PGROUNDDOWN va.toNat)) perm) ∨
    r = some false ∧ ∃ k, s.FirstFails k ∧ ∀ n, s'.fails n = s.fails (k + 1 + n)

/-- The last byte of a range that does not wrap. -/
theorem toNat_last {va : BitVec 32} (hsize : 1 ≤ size.toNat) (hend : va.toNat + size.toNat - 1 < 2 ^ 32) :
    (va + size - 1).toNat = va.toNat + size.toNat - 1 := by
  bv_omega

theorem Machine.wp_mappages {va : BitVec 32} (h : IsDir s d) (hsize : 1 ≤ size.toNat)
    (hend : va.toNat + size.toNat - 1 < 2 ^ 32) (hpa : pa.toNat % PGSIZE = 0)
    (habsent : ∀ x < 2 ^ 32, InPages va.toNat size.toNat x → (s.pte d x).p = false) (hfuel : 2 ^ 20 ≤ fuel) :
    Wp (mappages fuel d va size pa perm) (MapsRange s d va size pa perm) (fun _ _ => False) s := by
  have hfirst : (PGROUNDDOWN va).toNat = Vm.PGROUNDDOWN va.toNat := PGROUNDDOWN_toNat va
  have hlast : (PGROUNDDOWN (va + size - 1)).toNat = Vm.PGROUNDDOWN (va.toNat + size.toNat - 1) := by
    rw [PGROUNDDOWN_toNat, toNat_last hsize hend]
  obtain ⟨left, hleft⟩ : ∃ left, (PGROUNDDOWN va).toNat + left * PGSIZE = (PGROUNDDOWN (va + size - 1)).toNat := by
    refine ⟨(va.toNat + size.toNat - 1) / PGSIZE - va.toNat / PGSIZE, ?_⟩
    rw [hfirst, hlast]
    simp only [Vm.PGROUNDDOWN, PGSIZE]
    omega
  have hin : ∀ x, InPages va.toNat size.toNat x ↔
      (PGROUNDDOWN va).toNat ≤ x ∧ x < (PGROUNDDOWN va).toNat + (left + 1) * PGSIZE := by
    intro x
    rw [Nat.succ_mul, InPages, ← hfirst, ← hlast, ← hleft, hfirst]
    simp only [Vm.PGROUNDDOWN, PGSIZE]
    omega
  have htop : (PGROUNDDOWN va).toNat + (left + 1) * PGSIZE ≤ 2 ^ 32 := by
    rw [Nat.succ_mul, ← Nat.add_assoc, hleft, hlast]
    simp only [Vm.PGROUNDDOWN, PGSIZE]
    omega
  refine wp_mappagesLoop (fun y => Pte.ofWord ((pa + BitVec.ofNat 32 (y - (PGROUNDDOWN va).toNat)) ||| perm ||| PTE_P))
    left h ?_ hleft ?_ (fun n _ => ?_) (fun x hle hlt => ?_) (fun n s1 hn hm hnone => ?_) fun s' hm => ?_
  · rw [hfirst]
    exact Nat.mul_mod_left ..
  · simp only [PGSIZE] at htop
    omega
  · rw [Nat.add_sub_cancel_left]
  · exact habsent x (by omega) ((hin x).mpr ⟨hle, hlt⟩)
  · obtain ⟨k, hk⟩ := hm.calls
    have hmul : n * PGSIZE ≤ (left + 1) * PGSIZE := Nat.mul_le_mul_right _ (by omega)
    refine ⟨⟨hm.dir.nodup, hm.dir.used, hm.dir.table, hm.dir.inj⟩, fun x hx hout => ?_, hm.page,
      .inr ⟨rfl, k, hk.firstFails hnone, fun m => ?_⟩⟩
    · rw [hin] at hout
      exact hm.other x hx (by omega)
    · show s1.fails (m + 1) = _
      rw [hk.fails]
      congr 1
      omega
  · refine ⟨hm.dir, fun x hx hout => ?_, hm.page, .inl ⟨rfl, hm.calls, fun x hx hxin => ?_⟩⟩
    · rw [hin] at hout
      exact hm.other x hx (by omega)
    · have hphys : (pa + BitVec.ofNat 32 (Vm.PGROUNDDOWN x - Vm.PGROUNDDOWN va.toNat)).toNat % PGSIZE = 0 := by
        rw [BitVec.toNat_add, BitVec.toNat_ofNat]
        simp only [Vm.PGROUNDDOWN, PGSIZE] at hpa ⊢
        omega
      obtain ⟨hle, hlt⟩ := (hin x).mp hxin
      refine translates_of_pte hphys ?_
      rw [hm.mapped x hle hlt, hfirst]

/-! ## `setupkvm` -/

/-- The flags of `kmap`. -/
def kperm (w : Bool) : BitVec 32 := if w then PTE_W else 0

theorem ofWord_kperm (w : Bool) (h : pa.toNat % PGSIZE = 0) :
    Pte.ofWord (pa ||| kperm w ||| PTE_P) = ⟨pa.toNat / PGSIZE, true, w, false, 0⟩ := by
  have hppn : ((pa ||| kperm w ||| PTE_P).extractLsb' 12 20).toNat = pa.toNat / PGSIZE :=
    ppn_ofWord (by cases w <;> decide)
  have hlow : ∀ k < 12, (pa ||| kperm w ||| PTE_P).getLsbD k = (kperm w ||| PTE_P).getLsbD k := by
    intro k hk
    simp only [BitVec.getLsbD_or, getLsbD_of_page h hk, Bool.false_or]
  have hrest : (pa ||| kperm w ||| PTE_P).extractLsb' 3 9 = (kperm w ||| PTE_P).extractLsb' 3 9 := by
    apply BitVec.eq_of_getLsbD_eq
    intro k hk
    rw [BitVec.getLsbD_extractLsb', BitVec.getLsbD_extractLsb', hlow _ (by omega)]
  unfold Pte.ofWord
  rw [hppn, hlow 0 (by decide), hlow 1 (by decide), hlow 2 (by decide), hrest]
  cases w <;> rfl

/-- The loop of `mappages`, where neither address wraps. -/
theorem Machine.mappagesLoop_eq (w : Bool) (left : ℕ) : ∀ {a pa : BitVec 32} {fuel : ℕ},
    pa.toNat % PGSIZE = 0 → a.toNat + left * PGSIZE = last.toNat → pa.toNat + left * PGSIZE < 2 ^ 32 → left < fuel →
    mappagesLoop d last (kperm w) fuel a pa = some <$> Vm.mappagesLoop d w false 0 left a.toNat pa.toNat := by
  have hPG : 0 < PGSIZE := by decide
  induction left with
  | zero =>
    intro a pa fuel hpa hlast _ hfuel
    obtain ⟨fuel, rfl⟩ := Nat.exists_eq_succ_of_ne_zero (by omega : fuel ≠ 0)
    have heq : a = last := BitVec.eq_of_toNat_eq (by omega)
    unfold mappagesLoop Vm.mappagesLoop
    rw [ofWord_kperm w hpa, if_pos heq, map_bind]
    refine bind_congr fun x => ?_
    rcases x with _ | ⟨t, j⟩
    · rfl
    · simp only [map_bind]
      refine bind_congr fun s => ?_
      split_ifs <;> simp only [map_bind, map_pure]
  | succ left ih =>
    intro a pa fuel hpa hlast hpa32 hfuel
    obtain ⟨fuel, rfl⟩ := Nat.exists_eq_succ_of_ne_zero (by omega : fuel ≠ 0)
    have hsucc : (left + 1) * PGSIZE = left * PGSIZE + PGSIZE := Nat.succ_mul ..
    have hlt := last.isLt
    have hne : a ≠ last := by
      rintro rfl
      omega
    have ha' : (a + 4096).toNat = a.toNat + PGSIZE := by
      rw [BitVec.toNat_add]
      exact Nat.mod_eq_of_lt (show a.toNat + PGSIZE < 2 ^ 32 by omega)
    have hpa' : (pa + 4096).toNat = pa.toNat + PGSIZE := by
      rw [BitVec.toNat_add]
      exact Nat.mod_eq_of_lt (show pa.toNat + PGSIZE < 2 ^ 32 by omega)
    have hrec : mappagesLoop d last (kperm w) fuel (a + 4096) (pa + 4096) = _ :=
      ih (by rw [hpa', Nat.add_mod_right, hpa]) (by rw [ha']; omega) (by rw [hpa']; omega) (by omega)
    rw [ha', hpa'] at hrec
    unfold mappagesLoop Vm.mappagesLoop
    simp only [ofWord_kperm w hpa, if_neg hne, hrec, map_bind]
    refine bind_congr fun x => ?_
    rcases x with _ | ⟨t, j⟩
    · rfl
    · simp only [map_bind]
      refine bind_congr fun s => ?_
      split_ifs <;> simp only [map_bind]

/-- `mappages`, for whole pages that do not wrap. -/
theorem Machine.mappages_eq {va : BitVec 32} (w : Bool) (hsize : 1 ≤ size.toNat)
    (hend : va.toNat + size.toNat ≤ 2 ^ 32) (hva : va.toNat % PGSIZE = 0) (hpa : pa.toNat % PGSIZE = 0)
    (hpaend : pa.toNat + size.toNat ≤ 2 ^ 32) (hfuel : 2 ^ 20 ≤ fuel) :
    mappages fuel d va size pa (kperm w) = some <$> Vm.mappages d va.toNat size.toNat pa.toNat w false 0 := by
  have hfirst : (PGROUNDDOWN va).toNat = Vm.PGROUNDDOWN va.toNat := PGROUNDDOWN_toNat va
  have hlast : (PGROUNDDOWN (va + size - 1)).toNat = Vm.PGROUNDDOWN (va.toNat + size.toNat - 1) := by
    rw [PGROUNDDOWN_toNat, toNat_last hsize (by omega)]
  unfold mappages Vm.mappages
  rw [← hfirst]
  refine mappagesLoop_eq w _ hpa ?_ ?_ ?_
  · rw [hfirst, hlast]
    simp only [Vm.PGROUNDDOWN, PGSIZE] at hva ⊢
    omega
  · rw [hfirst]
    simp only [Vm.PGROUNDDOWN, PGSIZE] at hva hpa ⊢
    omega
  · rw [hfirst]
    simp only [Vm.PGROUNDDOWN, PGSIZE] at hva ⊢
    omega

/-- An entry of `kmap` in the arithmetic of the machine, and the same entry without it. -/
structure SameRange (k : BitVec 32 × BitVec 32 × BitVec 32 × BitVec 32) (k' : ℕ × ℕ × ℕ × Bool) : Prop where
  virt : k.1.toNat = k'.1
  start : k.2.1.toNat = k'.2.1
  size : (k.2.2.1 - k.2.1).toNat = k'.2.2.1 - k'.2.1
  perm : k.2.2.2 = kperm k'.2.2.2
  pos : 1 ≤ k'.2.2.1 - k'.2.1
  virtEnd : k'.1 + (k'.2.2.1 - k'.2.1) ≤ 2 ^ 32
  startEnd : k'.2.1 + (k'.2.2.1 - k'.2.1) ≤ 2 ^ 32
  virtPage : k'.1 % PGSIZE = 0
  startPage : k'.2.1 % PGSIZE = 0

theorem Machine.setupkvmLoop_eq (hfuel : 2 ^ 20 ≤ fuel)
    {ks : List (BitVec 32 × BitVec 32 × BitVec 32 × BitVec 32)} {ks' : List (ℕ × ℕ × ℕ × Bool)}
    (h : List.Forall₂ SameRange ks ks') : setupkvmLoop fuel d ks = some <$> Vm.setupkvmLoop d ks' := by
  induction h with
  | nil => rfl
  | @cons k k' ks ks' hk _ ih =>
    obtain ⟨virt, physStart, physEnd, perm⟩ := k
    obtain ⟨virt', physStart', physEnd', w⟩ := k'
    obtain ⟨hv, hs, hsize, hperm, hpos, hvirtEnd, hstartEnd, hvirt, hstart⟩ := hk
    simp only at hv hs hsize hperm hpos hvirtEnd hstartEnd hvirt hstart
    subst hv hs hperm
    rw [← hsize] at hpos hvirtEnd hstartEnd
    have hmap := mappages_eq (d := d) w hpos hvirtEnd hvirt hstart hstartEnd hfuel
    rw [hsize] at hmap
    simp only [setupkvmLoop, Vm.setupkvmLoop]
    rw [hmap, map_bind, bind_map_left]
    refine bind_congr fun ok => ?_
    cases ok with
    | true => exact ih
    | false =>
      rw [if_neg Bool.false_ne_true, map_bind]
      rfl

/-- The last range of `kmap` ends at address 0, and its size is right all the same. -/
theorem Machine.kmap_sameRange (hpage : data.toNat % PGSIZE = 0) (hlow : KERNLINK < data.toNat)
    (hhigh : data.toNat < KERNBASE + PHYSTOP) : List.Forall₂ SameRange (kmap data) (Vm.kmap data.toNat) := by
  simp only [KERNLINK, KERNBASE, EXTMEM, PHYSTOP] at hlow hhigh
  have hV2P : (V2P data).toNat = data.toNat - KERNBASE := by
    unfold V2P
    simp only [KERNBASE]
    bv_omega
  refine .cons ?_ (.cons ?_ (.cons ?_ (.cons ?_ .nil)))
  · exact ⟨by decide, by decide, by decide, rfl, by decide, by decide, by decide, by decide, by decide⟩
  · have hsize : (V2P data - V2P (BitVec.ofNat 32 KERNLINK)).toNat = data.toNat - KERNBASE - EXTMEM := by
      have hlink : (V2P (BitVec.ofNat 32 KERNLINK)).toNat = EXTMEM := by decide
      simp only [KERNBASE, EXTMEM] at hV2P hlink ⊢
      rw [BitVec.toNat_sub, hV2P, hlink]
      omega
    refine ⟨show (BitVec.ofNat 32 KERNLINK).toNat = KERNLINK by decide,
      show (V2P (BitVec.ofNat 32 KERNLINK)).toNat = EXTMEM by decide, hsize, rfl, ?_, ?_, ?_,
      show KERNLINK % PGSIZE = 0 by decide, show EXTMEM % PGSIZE = 0 by decide⟩
    all_goals
      simp only [KERNLINK, KERNBASE, EXTMEM]
      omega
  · have hsize : (BitVec.ofNat 32 PHYSTOP - V2P data).toNat = PHYSTOP - (data.toNat - KERNBASE) := by
      rw [BitVec.toNat_sub, hV2P]
      simp only [PHYSTOP, KERNBASE, BitVec.toNat_ofNat]
      omega
    refine ⟨rfl, hV2P, hsize, rfl, ?_, ?_, ?_, hpage, ?_⟩
    all_goals
      simp only [PHYSTOP, KERNBASE, PGSIZE] at hpage ⊢
      omega
  · exact ⟨by decide, by decide, by decide, rfl, by decide, by decide, by decide, by decide, by decide⟩

theorem Machine.setupkvm_eq (hpage : data.toNat % PGSIZE = 0) (hlow : KERNLINK < data.toNat)
    (hhigh : data.toNat < KERNBASE + PHYSTOP) (hfuel : 2 ^ 20 ≤ fuel) :
    setupkvm fuel data = some <$> Vm.setupkvm data.toNat := by
  unfold setupkvm Vm.setupkvm
  rw [map_bind]
  refine bind_congr fun r => ?_
  cases r with
  | none => rfl
  | some pgdir =>
    simp only [map_bind]
    exact bind_congr fun _ => setupkvmLoop_eq hfuel (kmap_sameRange hpage hlow hhigh)

/-- What `setupkvm` does: the directory has the ranges of `kmap` and nothing else, or a call of `kalloc` has failed. The
pages in use are as they were. -/
structure SetsUp (s : Mem) (data : ℕ) (r : Option (Option ℕ)) (s' : Mem) : Prop where
  page : ∀ q, q ∉ s.freelist → s'.page q = s.page q
  result : (∃ d ∈ s.freelist, r = some (some d) ∧ ∀ x < 2 ^ 32, s'.pte d x = kentry (kmap data) (PGROUNDDOWN x)) ∨
    r = some none ∧ ∃ n, s.FirstFails n

theorem Machine.wp_setupkvm (hpos : 0 < s.lo) (hnodup : s.freelist.Nodup)
    (hrange : ∀ r ∈ s.freelist, s.InRange r) (hpage : data.toNat % PGSIZE = 0) (hlow : KERNLINK < data.toNat)
    (hhigh : data.toNat < KERNBASE + PHYSTOP) (hfuel : 2 ^ 20 ≤ fuel) :
    Wp (setupkvm fuel data) (SetsUp s data.toNat) (fun _ _ => False) s := by
  have hbase : KERNBASE ≤ data.toNat := (Nat.le_add_right KERNBASE EXTMEM).trans hlow.le
  obtain ⟨l, hdata⟩ : ∃ l : Layout, l.data = data.toNat := ⟨⟨data.toNat, hbase, hhigh.le⟩, rfl⟩
  have hl : Linked l := ⟨hdata ▸ hpage, hdata ▸ hlow, hdata ▸ hhigh⟩
  have hfree : ∀ q, q ∉ s.freelist → (if q ∈ s.freelist then Owner.free else .none) ≠ .free := by
    intro q hq
    rw [if_neg hq]
    exact nofun
  rw [setupkvm_eq hpage hlow hhigh hfuel, map_eq_pure_bind, wp_bind, ← hdata]
  refine wp_setupkvm_exact hl (Exact.of_freelist hpos hnodup hrange) (fun s' n hr _ hfails => ?_) fun d o' s' hks => ?_
  · exact ⟨fun q hq => hr.page q (hfree q hq), .inr ⟨rfl, n, hfails⟩⟩
  · refine ⟨fun q hq => hks.page q (hfree q hq), .inl ⟨d, ?_, rfl, fun x hx => ?_⟩⟩
    · by_contra hd
      exact hfree d hd hks.free
    · rw [Mem.pte, hks.kernel, addr_pte hx]

/-- An empty directory in page 1, and free pages. -/
@[irreducible] def emptyDir : Mem := ⟨1, [2, 3, 4], fun _ _ => .zero, fun _ => false⟩

theorem emptyDir_eq : emptyDir = ⟨1, [2, 3, 4], fun _ _ => .zero, fun _ => false⟩ := by unfold emptyDir; rfl

theorem emptyDir_isDir : IsDir emptyDir 1 := by
  rw [emptyDir_eq]
  exact ⟨by decide, by decide, fun i hi => absurd hi Bool.false_ne_true, fun i _ hi => absurd hi Bool.false_ne_true⟩

theorem emptyDir_pte (x : ℕ) : (emptyDir.pte 1 x).p = false := by
  rw [emptyDir_eq]
  rfl

end Vm

end Xv6
