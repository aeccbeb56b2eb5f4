import Xv6.Vm.Growproc

/-!
# `copyuvm`, exactly

The child gets a new page for every page of the parent. If a page for the copy cannot be had, everything goes back. If
a page table for it cannot be had, the page that has just been filled stays with nobody: `goto bad` does not free it.
-/

namespace Xv6

open Function

namespace Vm

open Code

variable {l : Layout} {D : Set ℕ} {o o1 o' : ℕ → Owner} {s s1 s' : Mem} {d pd r a sz : ℕ} {E : Panic → Mem → Prop}

/-! ## Address spaces that a change leaves alone -/

/-- The entries of a directory are in pages that are not free. -/
theorem Exact.entry_congr (h : Exact D o s) (hd : d ∈ D) (hpage : ∀ q, o q ≠ .free → s'.page q = s.page q)
    (i j : Fin NPDENTRIES) : s'.entry d i j = s.entry d i j := by
  have hdir : s'.page d = s.page d := hpage d (by simp [h.dir hd])
  unfold Mem.entry
  rw [hdir]
  by_cases hp : (s.page d i).p = true
  · rw [if_pos hp, if_pos hp, hpage]
    simp [h.table hd hp]
  · rw [if_neg hp, if_neg hp]

theorem KSpace.built (h : KSpace l D d o s o' s') : Built (insert d D) d o s o' s' :=
  ⟨h.exact, h.lo, h.owner, fun q hq _ => h.page q hq⟩

/-- A page is with nobody; all others have the owners they had, and those that were not free their contents. -/
structure Leaked (D : Set ℕ) (o : ℕ → Owner) (s : Mem) (r : ℕ) (s' : Mem) : Prop where
  exact : Exact D (update o r .none) s'
  lo : s'.lo = s.lo
  free : o r = .free
  page : ∀ q, o q ≠ .free → s'.page q = s.page q

/-- `freevm` gives back what has been built. -/
theorem Built.restored (hb : Built (insert d D) d o s o1 s1) (hfresh : d ∉ D) (h0 : Exact D o s)
    {t : Mem} (hf : Freed (insert d D) d o1 t s') (hlo : t.lo = s1.lo) (hpage : t.page = s1.page) : Restored D o s s' := by
  have hnot := h0.not_of hfresh
  refine ⟨?_, (hf.lo.trans hlo).trans hb.lo, fun q hq => ?_⟩
  · have hexact := hf.exact
    rwa [Set.insert_sdiff_self_of_notMem hfresh, hb.released_eq hnot] at hexact
  · have hkeep := hb.keep hq
    rw [hf.page q (by rw [hkeep]; exact hnot q), hpage, hb.page q hq (hnot q)]

/-- Except for a page that has been taken and is not mapped. -/
theorem Built.leaked (hb : Built (insert d D) d o s o1 s1) (hfresh : d ∉ D) (h0 : Exact D o s)
    (hnext : s1.next = some r) (x : Table)
    (hf : Freed (insert d D) d (update o1 r .none) (s1.pop.put r x).tick s') : Leaked D o s r s' := by
  have hnot := h0.not_of hfresh
  obtain ⟨-, hor', -⟩ := hb.exact.take hnext
  have hor := hb.free hor'
  have hrel : released (update o1 r .none) d = update o r .none := by
    have hrel' := hb.released_eq hnot
    funext q
    by_cases hq : q = r
    · subst hq
      simp [released, Owner.Of]
    · have heq := congrFun hrel' q
      simp only [released, update_of_ne hq] at heq ⊢
      exact heq
  refine ⟨?_, hf.lo.trans hb.lo, hor, fun q hq => ?_⟩
  · have hexact := hf.exact
    rwa [Set.insert_sdiff_self_of_notMem hfresh, hrel] at hexact
  · have hqr : q ≠ r := by
      rintro rfl
      exact hq hor
    have hkeep := hb.keep hq
    have hput : (s1.pop.put r x).tick.page q = s1.page q := Mem.put_page_of_ne x hqr
    rw [hf.page q (by rw [update_of_ne hqr, hkeep]; exact hnot q), hput, hb.page q hq (hnot q)]

/-! ## The loop -/

/-- The child's entry for a page of the parent. -/
def copyPte (s : Mem) (pd : ℕ) (i j : Fin NPDENTRIES) (r : ℕ) : Pte := { s.entry pd i j with ppn := r }

/-- The contents of a page of the parent. -/
def copyPage (s : Mem) (pd : ℕ) (i j : Fin NPDENTRIES) : Table := s.page (s.entry pd i j).ppn

/-- The child after `k` pages: its kernel half, the copies, and the calls of `kalloc` so far. -/
structure Copied (l : Layout) (D : Set ℕ) (pd d k : ℕ) (o : ℕ → Owner) (s : Mem) (o' : ℕ → Owner) (s' : Mem) : Prop where
  space : ∃ o1 s1, KSpace l D d o s o1 s1 ∧ Grown (insert d D) d 0 (k * PGSIZE) (copyPte s pd) (copyPage s pd) o1 s1 o' s'
  calls : Calls (65 + (k + (k + 1023) / 1024)) s s'

theorem Copied.built (h : Copied l D pd d a o s o' s') : Built (insert d D) d o s o' s' := by
  obtain ⟨o1, s1, hk, hg⟩ := h.space
  exact hk.built.trans hg.built

theorem Copied.fresh (h : Copied l D pd d a o s o' s') : d ∉ D := by
  obtain ⟨_, _, hk, -⟩ := h.space
  exact hk.fresh

variable {k : ℕ} {Q : Option ℕ → Mem → Prop}

theorem addr_first_lt (hk : k * PGSIZE < KERNBASE) (hmod : k % 1024 ≠ 0) :
    addr (PDX (k * PGSIZE)) firstEntry < k * PGSIZE := by
  have hidx : (PDX (k * PGSIZE) : ℕ) = k / 1024 := by
    simp only [PDX, NPDENTRIES, PGSIZE, KERNBASE] at *
    omega
  have hval : (firstEntry : ℕ) = 0 := rfl
  rw [addr, hidx, hval]
  simp only [PGSIZE]
  omega

/-- A page table is there for all but the first page of each 4 MB. -/
theorem Copied.mem_tabs (h : Copied l D pd d k o s o' s') (hk : k * PGSIZE < KERNBASE) :
    PDX (k * PGSIZE) ∈ tabs s' d ↔ k % 1024 ≠ 0 := by
  obtain ⟨o1, s1, hks, hg⟩ := h.space
  rw [hg.tables]
  have hno : PDX (k * PGSIZE) ∉ tabs s1 d := hks.low _ (low_of_lt hk)
  constructor
  · rintro (hin | ⟨j, -, hlt⟩)
    · exact absurd hin hno
    · simp only [addr, PDX, NPDENTRIES, PGSIZE, KERNBASE] at *
      omega
  · intro hmod
    exact .inr ⟨firstEntry, Nat.zero_le _, addr_first_lt hk hmod⟩

/-- The parent as the loop sees it. -/
theorem Copied.parent (h : Copied l D pd d k o s o' s') (h0 : Exact D o s) (hpd : pd ∈ D) (i j : Fin NPDENTRIES) :
    s'.entry pd i j = s.entry pd i j :=
  h0.entry_congr hpd (fun q hq => h.built.page q hq (h0.not_of h.fresh q)) i j

theorem fewer_left {n : ℕ} (hlt : k * PGSIZE < sz) (hn : sz - k * PGSIZE ≤ n) : sz - (k + 1) * PGSIZE ≤ n - 1 := by
  have hpos : 1 ≤ PGSIZE := by decide
  rw [Nat.succ_mul]
  generalize PGSIZE = p at *
  omega

theorem succ_le_PGROUNDUP (hlt : k * PGSIZE < sz) : (k + 1) * PGSIZE ≤ PGROUNDUP sz := by
  rw [Nat.succ_mul]
  simp only [PGROUNDUP, PGSIZE] at *
  omega

theorem wp_copyuvmLoop_exact (h0 : Exact D o s) (hpd : pd ∈ D) (hsz : sz < KERNBASE)
    (hpresent : ∀ va < PGROUNDUP sz, (s.pte pd va).p = true)
    (hframe : ∀ s' k, Restored D o s s' → k * PGSIZE < sz → s.FirstFails (65 + (k + (k + 1023) / 1024)) → Q none s')
    (htable : ∀ s' r k, Leaked D o s r s' → k * PGSIZE < sz → k % 1024 = 0 →
      s.FirstFails (65 + (k + (k + 1023) / 1024) + 1) → Q none s')
    (hok : ∀ o' s' k, k * PGSIZE = PGROUNDUP sz → Copied l D pd d k o s o' s' → Q (some d) s') (n : ℕ) :
    ∀ {s' : Mem} {o' : ℕ → Owner} (k : ℕ), sz - k * PGSIZE ≤ n → k * PGSIZE ≤ PGROUNDUP sz →
    Copied l D pd d k o s o' s' → Wp (copyuvmLoop pd sz d (k * PGSIZE)) Q E s' := by
  have hend : ∀ k, ¬ k * PGSIZE < sz → k * PGSIZE ≤ PGROUNDUP sz → k * PGSIZE = PGROUNDUP sz := by
    intro k hge hle
    simp only [PGROUNDUP, PGSIZE] at *
    omega
  induction n using Nat.strong_induction_on with
  | _ n ih =>
    intro s' o' k hn hle hc
    unfold copyuvmLoop
    by_cases hlt : k * PGSIZE < sz
    · have hlow := Nat.lt_trans hlt hsz
      have hmod : k * PGSIZE % PGSIZE = 0 := Nat.mul_mod_left ..
      have hmem : pd ∈ insert d D := .inr hpd
      have hne : pd ≠ d := by
        rintro rfl
        exact hc.fresh hpd
      have hnot := h0.not_of hc.fresh
      have hp : (s.pte pd (k * PGSIZE)).p = true := hpresent _ (by rw [lt_PGROUNDUP, PGROUNDDOWN_of_mod hmod]; exact hlt)
      have hpte : s'.pte pd (k * PGSIZE) = s.pte pd (k * PGSIZE) := hc.parent h0 hpd _ _
      rw [dif_pos hlt, wp_bind]
      refine wp_look (fun hno => ?_) fun hdir => ?_
      · have hzero : s'.pte pd (k * PGSIZE) = .zero := by rw [Mem.pte, Mem.entry, hno]; rfl
        rw [← hpte, hzero] at hp
        exact absurd hp Bool.false_ne_true
      · have hentry : s'.page (s'.page pd (PDX (k * PGSIZE))).ppn (PTX (k * PGSIZE)) = s.pte pd (k * PGSIZE) := by
          rw [← hpte, Mem.pte, Mem.entry, if_pos hdir]
        have hcont : s'.page (s.pte pd (k * PGSIZE)).ppn = s.page (s.pte pd (k * PGSIZE)).ppn :=
          hc.built.page _ (h0.frame_ne_free hpd hlow hp) (hnot _)
        simp only [wp_bind, wp_get]
        rw [hentry, hp, hcont]
        simp only [Bool.true_eq_false, if_false]
        rw [wp_bind]
        refine wp_kalloc_exact (fun hnext => ?_) fun r hnext => ?_
        · rw [wp_bind]
          refine wp_freevm_exact hc.built.exact.tick (.inl rfl) fun s'' hf => ?_
          exact hframe s'' k (hc.built.restored hc.fresh h0 hf rfl rfl) hlt (hc.calls.firstFails hnext)
        · obtain ⟨o1, s1, hks, hg⟩ := hc.space
          have habsent : (s1.pte d (k * PGSIZE)).p = false := by
            rw [Mem.pte, Mem.entry, if_neg]
            · rfl
            · exact fun hp' => hks.low _ (low_of_lt hlow) (mem_tabs.mpr hp')
          rw [wp_bind, wp_setPage, wp_bind]
          refine hg.wp_step (.inl rfl) hmod hlow (Nat.zero_le _) habsent hnext ?_ (fun hno hnext' => ?_)
            fun o'' s'' hg' hcalls => ?_
          · exact congrArg (fun b => (⟨r, b, _, _, _⟩ : Pte)) hp
          · -- the page of the copy is not mapped yet
            have hk : k % 1024 = 0 := by
              by_contra hk
              exact hno ((hc.mem_tabs hlow).mpr hk)
            have hcalls := hc.calls.trans ((Calls.pop hnext).congr
              (t := s'.pop.put r (copyPage s pd (PDX (k * PGSIZE)) (PTX (k * PGSIZE)))) rfl rfl)
            simp only [Bool.false_eq_true, if_false, wp_bind]
            refine wp_freevm_exact (Held.take hc.built.exact hnext _).exact (.inl rfl) fun s'' hf => ?_
            exact htable s'' r k (hc.built.leaked hc.fresh h0 hnext _ hf) hlt hk (hcalls.firstFails hnext')
          · simp only [if_true]
            have hstep : k * PGSIZE + PGSIZE = (k + 1) * PGSIZE := (Nat.succ_mul k PGSIZE).symm
            rw [hstep] at hg' ⊢
            refine ih (n - 1) (by omega) (k + 1) ?_ ?_ ⟨⟨o1, s1, hks, hg'⟩, ?_⟩
            · exact fewer_left hlt hn
            · exact succ_le_PGROUNDUP hlt
            · have hcount : 65 + (k + (k + 1023) / 1024) + (1 + if PDX (k * PGSIZE) ∈ tabs s' d then 0 else 1) =
                  65 + (k + 1 + (k + 1 + 1023) / 1024) := by
                rw [if_congr (hc.mem_tabs hlow) rfl rfl]
                split_ifs <;> omega
              exact hcount ▸ hc.calls.trans hcalls
    · rw [dif_neg hlt]
      exact hok o' s' k (hend k hlt hle) hc

/-- `copyuvm` for a parent whose pages are all there. -/
theorem wp_copyuvm_exact (hl : Linked l) (h0 : Exact D o s) (hpd : pd ∈ D) (hsz : sz < KERNBASE)
    (hpresent : ∀ va < PGROUNDUP sz, (s.pte pd va).p = true)
    (hkernel : ∀ s' n, Restored D o s s' → n < 65 → s.FirstFails n → Q none s')
    (hframe : ∀ s' k, Restored D o s s' → k * PGSIZE < sz → s.FirstFails (65 + (k + (k + 1023) / 1024)) → Q none s')
    (htable : ∀ s' r k, Leaked D o s r s' → k * PGSIZE < sz → k % 1024 = 0 →
      s.FirstFails (65 + (k + (k + 1023) / 1024) + 1) → Q none s')
    (hok : ∀ d o' s' k, k * PGSIZE = PGROUNDUP sz → Copied l D pd d k o s o' s' → Q (some d) s') :
    Wp (copyuvm l.data pd sz) Q E s := by
  unfold copyuvm
  rw [wp_bind]
  refine wp_setupkvm_exact hl h0 hkernel fun d o1 s1 hks => ?_
  have hstart : Copied l D pd d 0 o s o1 s1 := by
    refine ⟨⟨o1, s1, hks, ?_⟩, hks.calls⟩
    rw [Nat.zero_mul]
    exact Grown.refl hks.exact
  have hloop := wp_copyuvmLoop_exact (E := E) h0 hpd hsz hpresent hframe htable (hok d) sz 0 (Nat.sub_le ..)
    (by rw [Nat.zero_mul]; exact Nat.zero_le _) hstart
  rwa [Nat.zero_mul] at hloop

end Vm

end Xv6
