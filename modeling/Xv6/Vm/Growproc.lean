import Xv6.Vm.Grow

/-!
# `growproc`

`growproc` is exact or does nothing, unless it is to take away all of the memory or more.
-/

namespace Xv6

open Function

namespace Vm

open Code

variable {n : ℕ} {D : Set ℕ} {o o' : ℕ → Owner} {s : Kern n} {p : Fin n} {d va : ℕ} {m : ℤ}

theorem addr_pte (h : va < 2 ^ 32) : addr (PDX va) (PTX va) = PGROUNDDOWN va := by
  simp only [addr, PDX, PTX, PGROUNDDOWN, NPDENTRIES, PGSIZE]
  omega

theorem lt_PGROUNDUP {x : ℕ} : va < PGROUNDUP x ↔ PGROUNDDOWN va < x := by
  simp only [PGROUNDUP, PGROUNDDOWN, PGSIZE]
  omega

/-- The pages present below `KERNBASE` are exactly those below `PGROUNDUP(sz)`. -/
def Covers (m : Mem) (d sz : ℕ) : Prop := ∀ va < KERNBASE, (m.pte d va).p = true ↔ va < PGROUNDUP sz

/-- The contents of the page at `va`. -/
def Mem.contents (m : Mem) (d va : ℕ) : Table := m.page (m.pte d va).ppn

/-- `growproc` of process `p`, whose directory is `d`, is exact or does nothing. -/
structure GrowsExactly (s : Kern n) (p : Fin n) (d : ℕ) (m : ℤ) : Prop where
  returns : ∃ ok s', (growproc p m).run s = .ok ok s'
  /-- On success the size is the sum, the pages are those below it, old ones with their contents and new ones empty. -/
  grown : ∀ s', (growproc p m).run s = .ok true s' → ((s'.proc p).sz : ℤ) = (s.proc p).sz + m ∧
    Covers s'.mem d (s'.proc p).sz ∧
    (∀ va < KERNBASE, va < PGROUNDUP (s.proc p).sz → va < PGROUNDUP (s'.proc p).sz →
      s'.mem.contents d va = s.mem.contents d va) ∧
    ∀ va < KERNBASE, PGROUNDUP (s.proc p).sz ≤ va → va < PGROUNDUP (s'.proc p).sz →
      s'.mem.contents d va = fun _ => .zero
  /-- On failure the size, the pages and their contents are as before. -/
  failed : ∀ s', (growproc p m).run s = .ok false s' → (s'.proc p).sz = (s.proc p).sz ∧
    ∀ va < KERNBASE, (s'.mem.pte d va).p = (s.mem.pte d va).p ∧
      ((s.mem.pte d va).p = true → s'.mem.contents d va = s.mem.contents d va)

/-- The size that `growproc` asks for. -/
def newsize (sz : ℕ) (m : ℤ) : ℕ := ((sz + m) % 2 ^ 32).toNat

theorem wp_growproc {Q : Bool → Kern n → Prop} {E : Panic → Kern n → Prop} (hp : (s.proc p).pgdir = some d)
    (hpos : 0 < m → Wp (vm (allocuvm d (s.proc p).sz (newsize (s.proc p).sz m))) (fun x s' =>
      if x = 0 then Q false s' else Q true { s' with proc := update s'.proc p { s.proc p with sz := x } }) E s)
    (hneg : m < 0 → Wp (vm (deallocuvm d (s.proc p).sz (newsize (s.proc p).sz m))) (fun x s' =>
      if x = 0 then Q false s' else Q true { s' with proc := update s'.proc p { s.proc p with sz := x } }) E s)
    (hzero : m = 0 → Q true s) : Wp (growproc p m) Q E s := by
  have hdir : pgdirOf (s.proc p) = (pure d : KernCode n ℕ) := by
    unfold pgdirOf
    rw [hp]
  unfold growproc
  rw [wp_bind, wp_get, hdir]
  simp only [pure_bind]
  split_ifs with h1 h2
  · rw [wp_bind]
    refine wp_post (hpos h1) (fun x s' hx => ?_)
    split_ifs at hx ⊢
    · exact hx
    · exact hx
  · rw [wp_bind]
    refine wp_post (hneg h2) (fun x s' hx => ?_)
    split_ifs at hx ⊢
    · exact hx
    · exact hx
  · exact hzero (by omega)

/-- What holds of every result holds of `growproc`. -/
theorem GrowsExactly.of_wp (h : Wp (growproc p m) (fun ok s' => if ok then
      ((s'.proc p).sz : ℤ) = (s.proc p).sz + m ∧ Covers s'.mem d (s'.proc p).sz ∧
      (∀ va < KERNBASE, va < PGROUNDUP (s.proc p).sz → va < PGROUNDUP (s'.proc p).sz →
        s'.mem.contents d va = s.mem.contents d va) ∧
      ∀ va < KERNBASE, PGROUNDUP (s.proc p).sz ≤ va → va < PGROUNDUP (s'.proc p).sz →
        s'.mem.contents d va = fun _ => .zero
    else (s'.proc p).sz = (s.proc p).sz ∧ ∀ va < KERNBASE, (s'.mem.pte d va).p = (s.mem.pte d va).p ∧
      ((s.mem.pte d va).p = true → s'.mem.contents d va = s.mem.contents d va)) (fun _ _ => False) s) :
    GrowsExactly s p d m := by
  obtain ⟨ok, s', hrun, -⟩ := wp_returns h
  exact ⟨⟨ok, s', hrun⟩, fun s' hrun => by simpa using wp_ok h hrun, fun s' hrun => by simpa using wp_ok h hrun⟩

theorem low_of_va (hva : va < KERNBASE) : Low (PDX va) ∧ addr (PDX va) (PTX va) = PGROUNDDOWN va :=
  ⟨low_of_lt hva, addr_pte (Nat.lt_trans hva (by decide))⟩

/-- Unmapping above a size keeps the pages below it. -/
theorem Cleared.contents {mem mem' : Mem} {hi a : ℕ} (h : Cleared D d hi a o mem o' mem') (h0 : Exact D o mem) (hd : d ∈ D)
    (hva : va < KERNBASE) (hlt : PGROUNDDOWN va < a ∨ hi ≤ PGROUNDDOWN va) (hp : (mem.pte d va).p = true) :
    mem'.pte d va = mem.pte d va ∧ mem'.contents d va = mem.contents d va := by
  obtain ⟨hlow, haddr⟩ := low_of_va hva
  have hpte : mem'.pte d va = mem.pte d va := by
    rw [Mem.pte, h.entry d hd, if_neg]
    · rfl
    · rw [haddr]
      omega
  have ho := h0.frame hd hlow hp
  have hkeep : o' (mem.pte d va).ppn = o (mem.pte d va).ppn := by
    refine h.kept _ fun i j ho' => ?_
    obtain ⟨-, rfl, rfl⟩ := Owner.frame.inj (ho.symm.trans ho')
    rw [haddr]
    omega
  refine ⟨hpte, ?_⟩
  rw [Mem.contents, Mem.contents, hpte, h.page _ (fun i ho' => ?_) hkeep]
  rw [Mem.pte, ho] at ho'
  cases ho'

section

variable {mem mem' : Mem} {a0 a : ℕ} {mk : Fin NPDENTRIES → Fin NPDENTRIES → ℕ → Pte}
  {fill : Fin NPDENTRIES → Fin NPDENTRIES → Table}

theorem Exact.frame_pte (h : Exact D o mem) (hd : d ∈ D) (hva : va < KERNBASE) (hp : (mem.pte d va).p = true) :
    o (mem.pte d va).ppn = .frame d (PDX va) (PTX va) := h.frame hd (low_of_lt hva) hp

theorem Exact.frame_ne_free (h : Exact D o mem) (hd : d ∈ D) (hva : va < KERNBASE) (hp : (mem.pte d va).p = true) :
    o (mem.pte d va).ppn ≠ .free := by
  rw [h.frame_pte hd hva hp]
  exact nofun

theorem Exact.frame_ne_table (h : Exact D o mem) (hd : d ∈ D) (hva : va < KERNBASE) (hp : (mem.pte d va).p = true)
    (i : Fin NPDENTRIES) : o (mem.pte d va).ppn ≠ .table d i := by
  rw [h.frame_pte hd hva hp]
  exact nofun

theorem Exact.frame_ne_dir (h : Exact D o mem) (hd : d ∈ D) (hva : va < KERNBASE) (hp : (mem.pte d va).p = true) :
    (mem.pte d va).ppn ≠ d := by
  intro heq
  have ho := h.frame_pte hd hva hp
  rw [heq, h.dir hd] at ho
  nomatch ho

theorem Grown.new_pte (h : Grown D d a0 a mk fill o mem o' mem') (hva : va < KERNBASE) (hle : a0 ≤ va)
    (hlt : va < a) (ha0 : a0 % PGSIZE = 0) :
    ∃ r, mem'.pte d va = mk (PDX va) (PTX va) r ∧ o r = .free ∧ o' r = .frame d (PDX va) (PTX va) ∧
      mem'.page r = fill (PDX va) (PTX va) := by
  have haddr := (low_of_va hva).2
  refine h.new _ _ ?_ ?_
  · rw [haddr]
    simp only [PGROUNDDOWN, PGSIZE] at *
    omega
  · rw [haddr]
    simp only [PGROUNDDOWN, PGSIZE]
    omega

theorem Grown.old_pte (h : Grown D d a0 a mk fill o mem o' mem') (hd : d ∈ D) (hva : va < KERNBASE)
    (hout : va < a0 ∨ a ≤ va) (ha : a % PGSIZE = 0) : mem'.pte d va = mem.pte d va := by
  have haddr := (low_of_va hva).2
  refine h.old d hd _ _ fun _ => ?_
  rw [haddr]
  simp only [PGROUNDDOWN, PGSIZE] at *
  omega

end

theorem growsExactly_neg (h0 : Exact D o s.mem) (hd : d ∈ D) (hp : (s.proc p).pgdir = some d)
    (hsz : (s.proc p).sz < KERNBASE) (hcovers : Covers s.mem d (s.proc p).sz) (hm : -2 ^ 31 ≤ m) (hneg : m < 0)
    (hrest : (s.proc p).sz = 0 ∨ 0 < (s.proc p).sz + m) : GrowsExactly s p d m := by
  refine .of_wp (wp_growproc hp (fun hpos => absurd hpos (by omega)) (fun _ => ?_) fun hzero => absurd hzero (by omega))
  unfold vm
  rw [wp_zoom]
  refine wp_deallocuvm_exact h0 hd hsz.le _ fun o' mem' hc => ?_
  rcases hrest with hzero | hpos
  · -- nothing to take away
    have hmin : min (s.proc p).sz (newsize (s.proc p).sz m) = 0 := by rw [hzero, Nat.zero_min]
    rw [if_pos hmin, if_neg (by simp)]
    refine ⟨rfl, fun va hva => ?_⟩
    have hno : ¬ (s.mem.pte d va).p = true := by
      rw [hcovers va hva, hzero, PGROUNDUP_zero]
      exact Nat.not_lt_zero _
    refine ⟨?_, fun hp' => absurd hp' hno⟩
    have hentry : mem'.pte d va = s.mem.pte d va := by
      rw [Mem.pte, hc.entry d hd, if_neg]
      · rfl
      · rintro ⟨-, ⟨-, hlt⟩, -⟩
        omega
    rw [hentry]
  · have hnew : ((newsize (s.proc p).sz m : ℕ) : ℤ) = (s.proc p).sz + m := by
      unfold newsize
      simp only [KERNBASE] at hsz
      omega
    have hmin : min (s.proc p).sz (newsize (s.proc p).sz m) = newsize (s.proc p).sz m := by omega
    rw [hmin, if_neg (by omega), if_pos rfl]
    simp only [update_self]
    refine ⟨hnew, fun va hva => ?_, fun va hva hlt hlt' => ?_, fun va hva hle hlt' => ?_⟩
    · obtain ⟨hlow, haddr⟩ := low_of_va hva
      have hcov := hcovers va hva
      rw [Mem.pte, hc.entry d hd, haddr]
      rw [lt_PGROUNDUP] at hcov
      by_cases hin : PGROUNDUP (newsize (s.proc p).sz m) ≤ PGROUNDDOWN va ∧ PGROUNDDOWN va < (s.proc p).sz
      · rw [if_pos ⟨rfl, hin, hcov.mpr hin.2⟩]
        have hge : ¬ va < PGROUNDUP (newsize (s.proc p).sz m) := by
          have := hin.1
          simp only [PGROUNDDOWN, PGSIZE] at this
          omega
        exact ⟨fun hz => absurd hz Bool.false_ne_true, fun hlt => absurd hlt hge⟩
      · rw [if_neg fun hand => hin hand.2.1]
        refine hcov.trans ⟨fun hlt => ?_, fun hlt => ?_⟩
        · have hnot : ¬ PGROUNDUP (newsize (s.proc p).sz m) ≤ PGROUNDDOWN va := fun hle => hin ⟨hle, hlt⟩
          simp only [PGROUNDUP, PGROUNDDOWN, PGSIZE] at *
          omega
        · rw [lt_PGROUNDUP] at hlt
          omega
    · refine (hc.contents h0 hd hva (.inl ?_) ((hcovers va hva).mpr hlt)).2
      simp only [PGROUNDUP, PGROUNDDOWN, PGSIZE] at *
      omega
    · have hmono : PGROUNDUP (newsize (s.proc p).sz m) ≤ PGROUNDUP (s.proc p).sz := by
        simp only [PGROUNDUP, PGSIZE]
        omega
      omega

theorem growsExactly_pos (h0 : Exact D o s.mem) (hd : d ∈ D) (hp : (s.proc p).pgdir = some d)
    (hsz : (s.proc p).sz < KERNBASE) (hcovers : Covers s.mem d (s.proc p).sz) (hm : m < 2 ^ 31) (hpos : 0 < m) :
    GrowsExactly s p d m := by
  have hnew : ((newsize (s.proc p).sz m : ℕ) : ℤ) = (s.proc p).sz + m := by
    unfold newsize
    simp only [KERNBASE] at hsz
    omega
  refine .of_wp (wp_growproc hp (fun _ => ?_) (fun hneg => absurd hneg (by omega)) fun hzero => absurd hzero (by omega))
  unfold vm
  rw [wp_zoom]
  refine wp_allocuvm_exact h0 hd (by omega) (fun hnewK i j hle hlt => ?_) (fun o' mem' hu _ _ => ?_)
    fun o' mem' hlt hg => ?_
  · have hno := hcovers (addr i j) (Nat.lt_trans hlt hnewK)
    rw [pte_addr] at hno
    have hge : ¬ addr i j < PGROUNDUP (s.proc p).sz := by omega
    simpa [hge] using hno
  · rw [if_pos rfl, if_neg (by simp)]
    refine ⟨rfl, fun va hva => ?_⟩
    have hentry := hu.entry d hd (PDX va) (PTX va)
    refine ⟨hentry.1, fun hp' => ?_⟩
    have hpte : mem'.pte d va = s.mem.pte d va := hentry.2 hp'
    rw [Mem.contents, Mem.contents, hpte]
    exact hu.page _ (h0.frame_ne_free hd hva hp') (h0.frame_ne_dir hd hva hp') (h0.frame_ne_table hd hva hp')
  · rw [if_neg (by omega), if_pos rfl]
    simp only [update_self]
    have hmono : PGROUNDUP (s.proc p).sz ≤ PGROUNDUP (newsize (s.proc p).sz m) := by
      simp only [PGROUNDUP, PGSIZE]
      omega
    refine ⟨hnew, fun va hva => ?_, fun va hva hlt' _ => ?_, fun va hva hle hlt' => ?_⟩
    · by_cases hin : PGROUNDUP (s.proc p).sz ≤ va ∧ va < PGROUNDUP (newsize (s.proc p).sz m)
      · obtain ⟨r, hent, -⟩ := hg.new_pte hva hin.1 hin.2 (PGROUNDUP_mod _)
        rw [hent]
        exact ⟨fun _ => hin.2, fun _ => rfl⟩
      · rw [hg.old_pte hd hva (by omega) (PGROUNDUP_mod _), hcovers va hva]
        omega
    · have hp' := (hcovers va hva).mpr hlt'
      rw [Mem.contents, Mem.contents, hg.old_pte hd hva (.inl hlt') (PGROUNDUP_mod _)]
      exact hg.page _ (h0.frame_ne_free hd hva hp') (h0.frame_ne_dir hd hva hp') (h0.frame_ne_table hd hva hp')
    · obtain ⟨r, hent, -, -, hfill⟩ := hg.new_pte hva hle hlt' (PGROUNDUP_mod _)
      rw [Mem.contents, hent]
      exact hfill

theorem growsExactly_zero (hp : (s.proc p).pgdir = some d) (hcovers : Covers s.mem d (s.proc p).sz) :
    GrowsExactly s p d 0 := by
  refine .of_wp (wp_growproc hp (fun hpos => absurd hpos (by omega)) (fun hneg => absurd hneg (by omega)) fun _ => ?_)
  rw [if_pos rfl]
  exact ⟨by omega, hcovers, fun _ _ _ _ => rfl, fun va _ hle hlt => by omega⟩

/-- If all of the memory or more is to go, the answer is wrong. -/
theorem not_growsExactly (h0 : Exact D o s.mem) (hd : d ∈ D) (hp : (s.proc p).pgdir = some d)
    (hsz : (s.proc p).sz < KERNBASE) (hcovers : Covers s.mem d (s.proc p).sz) (hm : -2 ^ 31 ≤ m)
    (hpos : 0 < (s.proc p).sz) (hneg : m < 0) (hall : (s.proc p).sz + m ≤ 0) : ¬ GrowsExactly s p d m := by
  intro hexact
  have hrun : Wp (growproc p m) (fun ok s' => if ok then (s'.proc p).sz = (s.proc p).sz
      else (s'.mem.pte d 0).p = false) (fun _ _ => False) s := by
    refine wp_growproc hp (fun hpos => absurd hpos (by omega)) (fun _ => ?_) fun hzero => absurd hzero (by omega)
    unfold vm
    rw [wp_zoom]
    refine wp_deallocuvm_exact h0 hd hsz.le _ fun o' mem' hc => ?_
    rcases eq_or_lt_of_le hall with hzero | hlt
    · -- everything is freed, and the size 0 is taken for a failure
      have hnew : newsize (s.proc p).sz m = 0 := by
        unfold newsize
        rw [hzero]
        rfl
      rw [hnew] at hc ⊢
      rw [if_pos (Nat.min_zero _), if_neg (by simp), Mem.pte, hc.entry d hd, addr_pte (by decide), PGROUNDUP_zero, if_pos]
      · rfl
      · refine ⟨rfl, ⟨Nat.zero_le _, hpos⟩, (hcovers 0 (by decide)).mpr ?_⟩
        rw [lt_PGROUNDUP]
        exact hpos
    · -- the sum wraps around, and the size does not change
      have hnew : (s.proc p).sz ≤ newsize (s.proc p).sz m := by
        unfold newsize
        simp only [KERNBASE] at hsz
        omega
      rw [Nat.min_eq_left hnew, if_neg hpos.ne', if_pos rfl]
      simp only [update_self]
  obtain ⟨ok, s', hok, hpost⟩ := wp_returns hrun
  cases ok with
  | true =>
    have hsum := (hexact.grown s' hok).1
    simp only [if_true] at hpost
    omega
  | false =>
    have hsame := ((hexact.failed s' hok).2 0 (by decide)).1
    have hzero : (s.mem.pte d 0).p = true := by
      refine (hcovers 0 (by decide)).mpr ?_
      rw [lt_PGROUNDUP]
      exact hpos
    simp only [Bool.false_eq_true, if_false] at hpost
    exact absurd (hpost.symm.trans (hsame.trans hzero)) Bool.false_ne_true

/-- For a process whose pages are those below its size, `growproc` is exact or does nothing, unless all of the memory
or more is to go: then the pages are freed and the answer is a failure, or the sum wraps around and the answer is a
success. -/
theorem growproc_exact_iff (h0 : Exact D o s.mem) (hd : d ∈ D) (hp : (s.proc p).pgdir = some d)
    (hsz : (s.proc p).sz < KERNBASE) (hcovers : Covers s.mem d (s.proc p).sz) (hm : -2 ^ 31 ≤ m) (hm' : m < 2 ^ 31) :
    GrowsExactly s p d m ↔ ¬ (0 < (s.proc p).sz ∧ m < 0 ∧ (s.proc p).sz + m ≤ 0) := by
  refine ⟨fun hexact hall => not_growsExactly h0 hd hp hsz hcovers hm hall.1 hall.2.1 hall.2.2 hexact, fun hrest => ?_⟩
  rcases lt_trichotomy m 0 with hneg | rfl | hpos
  · exact growsExactly_neg h0 hd hp hsz hcovers hm hneg (by omega)
  · exact growsExactly_zero hp hcovers
  · exact growsExactly_pos h0 hd hp hsz hcovers hm' hpos

/-! ## A process with one page -/

/-- The first entry of a directory or a page table. -/
def firstEntry : Fin NPDENTRIES := ⟨0, by decide⟩

/-- Page 1 is a directory that maps address 0 to page 3 by the page table in page 2; `k` pages from 4 on are free. -/
def onePage (k : ℕ) : Mem where
  lo := 1
  freelist := List.range' 4 k
  page r i := if r = 1 ∧ i = firstEntry then ⟨2, true, true, true, 0⟩
    else if r = 2 ∧ i = firstEntry then ⟨3, true, true, true, 0⟩ else .zero
  fails _ := false

def onePageOwner (k r : ℕ) : Owner :=
  if r = 1 then .dir else if r = 2 then .table 1 firstEntry else if r = 3 then .frame 1 firstEntry firstEntry
  else if 4 ≤ r ∧ r < 4 + k then .free else .none

variable {k : ℕ}

theorem onePage_dir (i : Fin NPDENTRIES) :
    (onePage k).page 1 i = if i = firstEntry then ⟨2, true, true, true, 0⟩ else .zero := by
  simp [onePage]

theorem onePage_entry (i j : Fin NPDENTRIES) : (onePage k).entry 1 i j =
    if i = firstEntry ∧ j = firstEntry then ⟨3, true, true, true, 0⟩ else .zero := by
  by_cases hi : i = firstEntry <;> by_cases hj : j = firstEntry <;> simp [Mem.entry, onePage, hi, hj, Pte.zero]

theorem onePage_exact (hk : k < 100) : Exact {1} (onePageOwner k) (onePage k) := by
  have hmem : ∀ r, r ∈ (onePage k).freelist ↔ 4 ≤ r ∧ r < 4 + k := fun r => List.mem_range'_1
  refine ⟨Nat.one_pos, fun r hr => ?_, List.nodup_range' 1 Nat.one_pos, fun r x hx => ?_⟩
  · have hr' : 1 ≤ r ∧ r < 104 := by
      unfold onePageOwner at hr
      split_ifs at hr <;> first | omega | exact absurd rfl hr
    exact ⟨hr'.1, Nat.lt_trans hr'.2 (by decide)⟩
  · unfold onePageOwner
    cases x with
    | free =>
      rw [Uses, hmem]
      split_ifs <;> simp <;> omega
    | dir =>
      rw [Uses, Set.mem_singleton_iff]
      split_ifs <;> simp <;> omega
    | table d i =>
      rw [Uses, Set.mem_singleton_iff]
      by_cases hd : d = 1
      · subst hd
        rw [onePage_dir]
        by_cases hi : i = firstEntry
        · subst hi
          split_ifs <;> simp <;> omega
        · have hi' : ¬ firstEntry = i := fun heq => hi heq.symm
          split_ifs <;> simp [hi', Pte.zero]
      · have hd' : ¬ 1 = d := fun heq => hd heq.symm
        split_ifs <;> simp [hd, hd']
    | frame d i j =>
      rw [Uses, Set.mem_singleton_iff]
      by_cases hd : d = 1
      · subst hd
        rw [onePage_entry]
        by_cases hij : i = firstEntry ∧ j = firstEntry
        · obtain ⟨rfl, rfl⟩ := hij
          have hlow : Low firstEntry := Nat.lt_of_sub_pos (by decide)
          split_ifs <;> simp [hlow] <;> omega
        · have hij' : ¬ (firstEntry = i ∧ firstEntry = j) := fun heq => hij ⟨heq.1.symm, heq.2.symm⟩
          split_ifs <;> simp [hij', Pte.zero]
      · have hd' : ¬ 1 = d := fun heq => hd heq.symm
        split_ifs <;> simp [hd, hd']
    | _ => exact absurd trivial hx

theorem onePage_covers : Covers (onePage k) 1 PGSIZE := by
  intro va hva
  have hfirst : PDX va = firstEntry ∧ PTX va = firstEntry ↔ va < PGROUNDUP PGSIZE := by
    simp only [Fin.ext_iff, PDX, PTX, firstEntry, PGROUNDUP, PGSIZE, NPDENTRIES, KERNBASE] at *
    omega
  rw [Mem.pte, onePage_entry, ← hfirst]
  by_cases h : PDX va = firstEntry ∧ PTX va = firstEntry
  · simp [h]
  · simp [h, Pte.zero]

/-- One process, which has one page. -/
def onePageKern (k : ℕ) : Kern 1 := ⟨onePage k, fun _ => ⟨.RUNNING, some 1, none, PGSIZE⟩, [], none⟩

/-- Asked to take away its whole memory, `growproc` frees it and reports a failure. -/
theorem growproc_all_fails : ¬ GrowsExactly (onePageKern 0) 0 1 (-4096) :=
  not_growsExactly (onePage_exact (k := 0) (by decide)) (Set.mem_singleton 1) rfl (by decide) onePage_covers (by decide) (by decide)
    (by decide) (by decide)

theorem growproc_exact_onePage : GrowsExactly (onePageKern 3) 0 1 4096 :=
  (growproc_exact_iff (onePage_exact (k := 3) (by decide)) (Set.mem_singleton 1) rfl (by decide) onePage_covers (by decide)
    (by decide)).mpr (by decide)

end Vm

end Xv6
