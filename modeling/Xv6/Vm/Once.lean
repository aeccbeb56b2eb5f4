import Xv6.Vm.Growproc

/-!
# What is freed, exactly once

`deallocuvm` visits the pages of a range, but jumps to the next page table where one is missing. It ends in 32-bit
arithmetic, does what the loop that visits every page does, and frees each page once. `allocuvm` uses it to undo its
work, `freevm` to free a whole address space.
-/

namespace Xv6

open List

namespace Vm

open Code

variable {D : Set ℕ} {o o' : ℕ → Owner} {s s' : Mem} {d r a hi : ℕ}

theorem mem_presentPages (hhi : hi ≤ 2 ^ 32) (n : ℕ) : ∀ a, hi - a ≤ n → a % PGSIZE = 0 →
    (r ∈ presentPages s d hi a ↔ ∃ i j, (a ≤ addr i j ∧ addr i j < hi) ∧ (s.entry d i j).p = true ∧ (s.entry d i j).ppn = r) := by
  induction n using Nat.strong_induction_on with
  | _ n ih =>
    intro a hn ha
    unfold presentPages
    by_cases hlt : a < hi
    · have haddr := addr_index ha (Nat.lt_of_lt_of_le hlt hhi)
      rw [dif_pos hlt, mem_append, ih (n - 1) (by omega) (a + PGSIZE) (by simp only [PGSIZE]; omega)
        (by rw [Nat.add_mod_right, ha])]
      constructor
      · rintro (hr | ⟨i, j, ⟨hle, hlt'⟩, hp⟩)
        · by_cases hp : (s.pte d a).p = true
          · rw [if_pos hp, mem_singleton] at hr
            exact ⟨PDX a, PTX a, by rw [haddr]; exact ⟨le_rfl, hlt⟩, hp, hr.symm⟩
          · rw [if_neg hp] at hr
            exact absurd hr not_mem_nil
        · exact ⟨i, j, ⟨by omega, hlt'⟩, hp⟩
      · rintro ⟨i, j, ⟨hle, hlt'⟩, hp, hr⟩
        by_cases hij : addr i j = a
        · obtain ⟨rfl, rfl⟩ := (index_iff ha (Nat.lt_of_lt_of_le hlt hhi)).mpr hij
          refine .inl ?_
          have hp' : (s.pte d a).p = true := hp
          rw [if_pos hp', mem_singleton]
          exact hr.symm
        · exact .inr ⟨i, j, ⟨(addr_range ha).mpr ⟨hle, hij⟩, hlt'⟩, hp, hr⟩
    · rw [dif_neg hlt]
      refine ⟨fun hr => absurd hr not_mem_nil, ?_⟩
      rintro ⟨i, j, hin, -⟩
      omega

theorem mem_tablePages : r ∈ tablePages s d (List.finRange NPDENTRIES) ↔
    ∃ i, (s.page d i).p = true ∧ (s.page d i).ppn = r := by
  generalize hall : List.finRange NPDENTRIES = is
  have hmem : ∀ i, i ∈ is := fun i => hall ▸ mem_finRange i
  rw [tablePages, mem_filterMap]
  constructor
  · rintro ⟨i, -, hi⟩
    by_cases hp : (s.page d i).p = true
    · rw [if_pos hp] at hi
      exact ⟨i, hp, Option.some.inj hi⟩
    · rw [if_neg hp] at hi
      cases hi
  · rintro ⟨i, hp, hr⟩
    exact ⟨i, hmem i, by rw [if_pos hp, hr]⟩

/-- The pages with `P`, and no others, have been put on the free list, each of them once. -/
structure FreesOnce (s s' : Mem) (P : ℕ → Prop) : Prop where
  freed : ∃ l, s'.freelist = l ++ s.freelist ∧ ∀ r, r ∈ l ↔ P r
  nodup : s'.freelist.Nodup

/-- A page that `d` maps to an address in `[a, hi)`. -/
def PresentIn (s : Mem) (d a hi r : ℕ) : Prop :=
  ∃ i j, (a ≤ addr i j ∧ addr i j < hi) ∧ (s.entry d i j).p = true ∧ (s.entry d i j).ppn = r

theorem Cleared.freesOnce (h : Cleared D d hi a o s o' s') (hhi : hi ≤ 2 ^ 32) (ha : a % PGSIZE = 0) :
    FreesOnce s s' (PresentIn s d a hi) := by
  refine ⟨⟨_, h.freelist, fun r => ?_⟩, h.exact.nodup⟩
  rw [mem_reverse]
  exact mem_presentPages hhi _ a le_rfl ha

theorem Freed.freesOnce (h : Freed D d o s s') : FreesOnce s s' fun r =>
    PresentIn s d 0 KERNBASE r ∨ (∃ i, (s.page d i).p = true ∧ (s.page d i).ppn = r) ∨ r = d := by
  refine ⟨⟨_, h.freelist, fun r => ?_⟩, h.exact.nodup⟩
  rw [mem_reverse, mem_append, mem_append, mem_singleton, mem_tablePages, or_assoc]
  exact or_congr_left (mem_presentPages (by decide) _ 0 le_rfl rfl)

/-- The loop of `deallocuvm` and the plain one end in the same memory. -/
theorem deallocuvm_run {oldsz newsz : ℕ} (hrun : (deallocuvmPlain d oldsz (PGROUNDUP newsz)).run s = .ok () s') :
    (deallocuvm d oldsz newsz).run s = .ok (min oldsz newsz) s' := by
  unfold deallocuvm
  by_cases hle : oldsz ≤ newsz
  · have hout : ¬ PGROUNDUP newsz < oldsz := by
      simp only [PGROUNDUP, PGSIZE]
      omega
    unfold deallocuvmPlain at hrun
    rw [dif_neg hout] at hrun
    rw [if_pos hle, Nat.min_eq_left hle]
    cases hrun
    rfl
  · rw [← deallocuvmLoop_eq_plain _ _ s le_rfl (PGROUNDUP_mod newsz)] at hrun
    rw [if_neg hle, Nat.min_eq_right (Nat.le_of_not_le hle), run_bind_ok hrun]
    rfl

/-- `deallocuvm` in 32-bit arithmetic and the plain loop clear the same range. -/
theorem deallocuvm32_run (h : Exact D o s) (hd : d ∈ D) (oldsz newsz : BitVec 32) (hsz : oldsz.toNat ≤ KERNBASE) :
    ∃ o' s', (∀ fuel, oldsz.toNat < fuel → (deallocuvm32 d oldsz newsz fuel).run s =
        .ok (some (BitVec.ofNat 32 (min oldsz.toNat newsz.toNat))) s') ∧
      (deallocuvmPlain d oldsz.toNat (PGROUNDUP newsz.toNat)).run s = .ok () s' ∧
      Cleared D d oldsz.toNat (PGROUNDUP newsz.toNat) o s o' s' := by
  obtain ⟨⟨⟩, s', hrun, o', hc⟩ := wp_returns (wp_deallocuvmPlain hd hsz _ (PGROUNDUP newsz.toNat) le_rfl
    (PGROUNDUP_mod newsz.toNat) h)
  refine ⟨o', s', fun fuel hfuel => ?_, hrun, hc⟩
  rw [deallocuvm32_eq hsz hfuel, run_bind_ok (deallocuvm_run hrun)]
  rfl

/-- `allocuvm` has mapped the range, or the pages that are mapped, and their contents, are those of before and no page
is lost. -/
theorem allocuvm_run (h : Exact D o s) (hd : d ∈ D) {oldsz newsz : ℕ} (hle : oldsz ≤ newsz)
    (habsent : ∀ va < KERNBASE, PGROUNDUP oldsz ≤ va → va < newsz → (s.pte d va).p = false) :
    ∃ x s', (allocuvm d oldsz newsz).run s = .ok x s' ∧ (x = newsz ∨ x = 0 ∧
      (∀ d' ∈ D, ∀ va < KERNBASE, (s'.pte d' va).p = (s.pte d' va).p ∧
        ((s.pte d' va).p = true → s'.pte d' va = s.pte d' va ∧ s'.contents d' va = s.contents d' va)) ∧
      ∀ r ∈ s.freelist, r ∈ s'.freelist ∨ ∃ i, (s'.page d i).p = true ∧ (s'.page d i).ppn = r) := by
  refine wp_returns (wp_allocuvm_exact h hd hle (fun hnew i j hle' hlt => ?_) (fun o' s' hu hlost _ => ?_)
    fun _ _ _ _ => .inl rfl)
  · have hno := habsent (addr i j) (Nat.lt_trans hlt hnew) hle' hlt
    rwa [pte_addr] at hno
  · refine .inr ⟨rfl, fun d' hd' va hva => ?_, fun r hr => ?_⟩
    · have hentry := hu.entry d' hd' (PDX va) (PTX va)
      refine ⟨hentry.1, fun hp => ⟨hentry.2 hp, ?_⟩⟩
      have hpte : s'.pte d' va = s.pte d' va := hentry.2 hp
      have ho := h.frame_pte hd' hva hp
      rw [Mem.contents, Mem.contents, hpte, hu.page _ (h.frame_ne_free hd' hva hp) ?_ (by simp [ho])]
      rintro rfl
      rw [h.dir hd] at ho
      cases ho
    · have hfree := h.free_iff.mpr hr
      rcases hu.owner r with heq | ⟨-, hnone | ⟨i, hi⟩⟩
      · exact .inl (hu.exact.free_iff.mp (heq.trans hfree))
      · exact absurd hnone (hlost r hfree)
      · exact .inr ⟨i, (hu.exact.table_iff.mp hi).2⟩

/-- `deallocuvm` ends, frees exactly once each page in its range, clears its entry and no other, and does what the
plain loop does. `allocuvm` without memory leaves the pages of before if none was in its range, and `freevm` frees every
page, page table and the directory once. -/
theorem deallocuvm_skip_exact (h : Exact D o s) (hd : d ∈ D) (oldsz newsz : BitVec 32) (hsz : oldsz.toNat ≤ KERNBASE) :
    (∃ s', (∀ fuel, oldsz.toNat < fuel → (deallocuvm32 d oldsz newsz fuel).run s =
          .ok (some (BitVec.ofNat 32 (min oldsz.toNat newsz.toNat))) s') ∧
        (deallocuvmPlain d oldsz.toNat (PGROUNDUP newsz.toNat)).run s = .ok () s' ∧
        FreesOnce s s' (PresentIn s d (PGROUNDUP newsz.toNat) oldsz.toNat) ∧
        ∀ d' ∈ D, ∀ i j, s'.entry d' i j =
          if d' = d ∧ (PGROUNDUP newsz.toNat ≤ addr i j ∧ addr i j < oldsz.toNat) ∧ (s.entry d i j).p = true then .zero
          else s.entry d' i j) ∧
      (oldsz ≤ newsz → (∀ va < KERNBASE, PGROUNDUP oldsz.toNat ≤ va → va < newsz.toNat → (s.pte d va).p = false) →
        ∃ x s', (allocuvm d oldsz.toNat newsz.toNat).run s = .ok x s' ∧ (x = newsz.toNat ∨ x = 0 ∧
          (∀ d' ∈ D, ∀ va < KERNBASE, (s'.pte d' va).p = (s.pte d' va).p ∧
            ((s.pte d' va).p = true → s'.pte d' va = s.pte d' va ∧ s'.contents d' va = s.contents d' va)) ∧
          ∀ r ∈ s.freelist, r ∈ s'.freelist ∨ ∃ i, (s'.page d i).p = true ∧ (s'.page d i).ppn = r)) ∧
      ∃ s', (freevm d).run s = .ok () s' ∧ FreesOnce s s' fun r =>
        PresentIn s d 0 KERNBASE r ∨ (∃ i, (s.page d i).p = true ∧ (s.page d i).ppn = r) ∨ r = d := by
  refine ⟨?_, fun hle habsent => allocuvm_run h hd hle habsent, ?_⟩
  · obtain ⟨o', s', hrun, hplain, hc⟩ := deallocuvm32_run h hd oldsz newsz hsz
    exact ⟨s', hrun, hplain, hc.freesOnce (hsz.trans (by decide)) (PGROUNDUP_mod _), hc.entry⟩
  · have hwp : Wp (freevm d) (fun _ s' => Freed D d o s s') (fun _ _ => False) s :=
      wp_freevm_exact h hd fun _ hfreed => hfreed
    obtain ⟨⟨⟩, s', hrun, hfreed⟩ := wp_returns hwp
    exact ⟨s', hrun, hfreed.freesOnce⟩

theorem deallocuvm_skip_onePage : ∃ s', (deallocuvm32 1 1#32 0#32 2).run (onePage 0) = .ok (some 0#32) s' ∧
    FreesOnce (onePage 0) s' (PresentIn (onePage 0) 1 0 1) := by
  obtain ⟨s', hrun, -, hfrees, -⟩ := (deallocuvm_skip_exact (onePage_exact (k := 0) (by decide)) (Set.mem_singleton 1)
    1#32 0#32 (by decide)).1
  exact ⟨s', hrun 2 (by decide), hfrees⟩

/-- Without memory, `allocuvm` also unmaps a page that was in its range before. -/
theorem allocuvm_unmaps : ((onePage 0).pte 1 0).p = true ∧
    ∃ s', (allocuvm 1 0 1).run (onePage 0) = .ok 0 s' ∧ (s'.pte 1 0).p = false := by
  have hp : ((onePage 0).pte 1 0).p = true := (onePage_covers 0 (by decide)).mpr (lt_PGROUNDUP.mpr (by decide))
  have hwp : Wp (allocuvm 1 0 1) (fun x s' => x = 0 ∧ (s'.pte 1 0).p = false) (fun _ _ => False) (onePage 0) := by
    unfold allocuvm allocuvmLoop
    rw [if_neg (by decide), if_neg (by decide), PGROUNDUP_zero, dif_pos (by decide), wp_bind]
    refine wp_kalloc_exact (fun _ => ?_) fun r hnext => ?_
    · rw [wp_bind]
      refine wp_deallocuvm_exact (onePage_exact (k := 0) (by decide)).tick (Set.mem_singleton 1) (by decide) 0
        fun o' s' hc => ⟨rfl, ?_⟩
      rw [Mem.pte, hc.entry 1 (Set.mem_singleton 1), addr_pte (by decide), PGROUNDUP_zero, if_pos ⟨rfl, by decide, hp⟩]
      rfl
    · cases hnext
  obtain ⟨x, s', hrun, rfl, hno⟩ := wp_returns hwp
  exact ⟨hp, s', hrun, hno⟩

end Vm

end Xv6
