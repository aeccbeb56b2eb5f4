import Mathlib.Tactic.Ring
import Xv6.Vm.Dealloc

/-!
# `setupkvm`, exactly

The mappings of the kernel do not overlap, so that `mappages` does not panic, and they need 64 page tables. If one of
the 65 calls of `kalloc` fails, all pages taken before go back.
-/

namespace Xv6

open Function List

namespace Vm

open Code

variable {D : Set ℕ} {o o' o'' : ℕ → Owner} {s s' s'' : Mem} {d r q a : ℕ} {i j : Fin NPDENTRIES}
  {E : Panic → Mem → Prop}

/-! ## Code that takes pages for one directory -/

/-- Pages of the free list have been taken for directory `d`, and no pages but those of `d` have changed. -/
structure Built (D : Set ℕ) (d : ℕ) (o : ℕ → Owner) (s : Mem) (o' : ℕ → Owner) (s' : Mem) : Prop where
  exact : Exact D o' s'
  lo : s'.lo = s.lo
  owner : ∀ q, o' q = o q ∨ o q = .free ∧ (o' q).Of d q
  page : ∀ q, o q ≠ .free → ¬ (o q).Of d q → s'.page q = s.page q

theorem Built.refl (h : Exact D o s) : Built D d o s o s := ⟨h, rfl, fun _ => .inl rfl, fun _ _ _ => rfl⟩

theorem Built.trans (h : Built D d o s o' s') (h' : Built D d o' s' o'' s'') : Built D d o s o'' s'' := by
  refine ⟨h'.exact, h'.lo.trans h.lo, fun q => ?_, fun q hq hof => ?_⟩
  · rcases h.owner q with heq | ⟨hfree, hof⟩
    · rw [← heq]
      exact h'.owner q
    · rcases h'.owner q with heq | ⟨hfree', -⟩
      · exact .inr ⟨hfree, heq ▸ hof⟩
      · rw [hfree'] at hof
        exact absurd hof id
  · have heq : o' q = o q := (h.owner q).resolve_right fun hand => hq hand.1
    rw [h'.page q (heq ▸ hq) (heq ▸ hof), h.page q hq hof]

/-- Freeing the directory gives back what has been taken for it. -/
theorem Built.released_eq (h : Built D d o s o' s') (hnot : ∀ q, ¬ (o q).Of d q) : released o' d = o := by
  funext q
  unfold released
  rcases h.owner q with heq | ⟨hfree, hof⟩
  · rw [heq, if_neg (hnot q)]
  · rw [if_pos hof, hfree]

/-- The pages of a directory that is none. -/
theorem Exact.not_of (h : Exact D o s) (hd : d ∉ D) : ∀ q, ¬ (o q).Of d q := by
  intro q hof
  cases ho : o q with
  | dir =>
    rw [ho] at hof
    obtain rfl : q = d := hof
    exact hd (h.dir_iff.mp ho)
  | table d' i =>
    rw [ho] at hof
    obtain rfl : d' = d := hof
    exact hd (h.table_iff.mp ho).1
  | frame d' i j =>
    rw [ho] at hof
    obtain rfl : d' = d := hof
    exact hd (h.frame_iff.mp ho).1
  | _ =>
    rw [ho] at hof
    exact hof

variable {e : Pte} {Q : Unit → Mem → Prop}

theorem MapsTo.built (h : MapsTo D d a e o s o' s') (h0 : Exact D o s) (hd : d ∈ D)
    (hframe : Low (PDX a) → o e.ppn = .free) : Built D d o s o' s' := by
  refine ⟨h.exact, h.lo, fun q => ?_, fun q hq hof => h.page q ?_ hq ?_⟩
  · rcases h.owner q with heq | ⟨hfree, ho⟩ | ⟨hlow, hq, ho⟩
    · exact .inl heq
    · exact .inr ⟨hfree, by rw [ho]; rfl⟩
    · exact .inr ⟨hq ▸ hframe hlow, by rw [ho]; rfl⟩
  · rintro rfl
    exact hof (by rw [h0.dir hd]; rfl)
  · intro ho
    exact hof (by rw [ho]; rfl)

theorem wp_memset : Wp (memset r e) Q E s ↔ Q () (s.put r fun _ => e) := Iff.rfl

theorem wp_setPage {x : Table} : Wp (setPage r x) Q E s ↔ Q () (s.put r x) := Iff.rfl

theorem wp_setPte : Wp (setPte r j e) Q E s ↔ Q () (s.setEntry r j e) := Iff.rfl

/-! ## The tables of a directory -/

/-- The entries of directory `d` that have page tables. -/
def tabs (s : Mem) (d : ℕ) : Finset (Fin NPDENTRIES) := Finset.univ.filter fun i => (s.page d i).p = true

theorem mem_tabs : i ∈ tabs s d ↔ (s.page d i).p = true := by simp [tabs]

/-- As many calls of `kalloc` succeed as there are new page tables. -/
def Counted (d : ℕ) (s s' : Mem) : Prop := ∃ k, Calls k s s' ∧ k + (tabs s d).card = (tabs s' d).card

theorem Counted.refl (d : ℕ) (s : Mem) : Counted d s s := ⟨0, Calls.refl s, Nat.zero_add _⟩

theorem Counted.trans (h : Counted d s s') (h' : Counted d s' s'') : Counted d s s'' := by
  obtain ⟨k, hc, hk⟩ := h
  obtain ⟨k', hc', hk'⟩ := h'
  exact ⟨k + k', hc.trans hc', by omega⟩

theorem MapsTo.mem_tabs_iff (h : MapsTo D d a e o s o' s') : i ∈ tabs s' d ↔ i ∈ tabs s d ∨ i = PDX a := by
  rw [mem_tabs, mem_tabs]
  by_cases hi : i = PDX a
  · subst hi
    simp [h.present]
  · rw [h.tables i hi]
    simp [hi]

theorem MapsTo.counted (h : MapsTo D d a e o s o' s') : Counted d s s' := by
  have htabs : tabs s' d = insert (PDX a) (tabs s d) := by
    ext i
    rw [h.mem_tabs_iff, Finset.mem_insert, or_comm]
  refine ⟨_, h.calls, ?_⟩
  rw [htabs]
  split
  · rename_i hp
    rw [Finset.insert_eq_of_mem (mem_tabs.mpr hp), Nat.zero_add]
  · rename_i hp
    rw [Finset.card_insert_of_notMem fun hmem => hp (mem_tabs.mp hmem), Nat.add_comm]

/-! ## A mapping of the kernel -/

/-- The memory after `n` pages from `a` on have been mapped for the kernel, the page at `va` with entry `val va`. -/
structure KMapped (D : Set ℕ) (d a n : ℕ) (val : ℕ → Pte) (o : ℕ → Owner) (s : Mem) (o' : ℕ → Owner) (s' : Mem) :
    Prop where
  built : Built D d o s o' s'
  mapped : ∀ i j, a ≤ addr i j → addr i j < a + n * PGSIZE → s'.entry d i j = val (addr i j)
  entry : ∀ d' ∈ D, ∀ i j, (d' = d → addr i j < a ∨ a + n * PGSIZE ≤ addr i j) → s'.entry d' i j = s.entry d' i j
  tables : ∀ i, i ∈ tabs s' d ↔ i ∈ tabs s d ∨ ∃ j, a ≤ addr i j ∧ addr i j < a + n * PGSIZE
  counted : Counted d s s'

theorem KMapped.refl {val : ℕ → Pte} (h : Exact D o s) : KMapped D d a 0 val o s o s := by
  refine ⟨Built.refl h, fun i j hle hlt => by omega, fun _ _ _ _ _ => rfl, fun i => ⟨.inl, ?_⟩, Counted.refl d s⟩
  rintro (hi | ⟨j, hle, hlt⟩)
  · exact hi
  · omega

theorem KMapped.cons {n : ℕ} {val : ℕ → Pte} (ha : a % PGSIZE = 0) (h32 : a < 2 ^ 32) (hlow : ¬ Low (PDX a))
    (h0 : Exact D o s) (hd : d ∈ D) (hval : e = val a) (h : MapsTo D d a e o s o' s')
    (h' : KMapped D d (a + PGSIZE) n val o' s' o'' s'') : KMapped D d a (n + 1) val o s o'' s'' := by
  have hend : a + PGSIZE + n * PGSIZE = a + (n + 1) * PGSIZE := by ring
  refine ⟨(h.built h0 hd fun hl => absurd hl hlow).trans h'.built, fun i j hle hlt => ?_, fun d' hd' i j hout => ?_,
    fun i => ?_, h.counted.trans h'.counted⟩
  · by_cases haddr : addr i j = a
    · have hij := (index_iff ha h32).mpr haddr
      rw [h'.entry d hd i j fun _ => .inl (by simp only [PGSIZE]; omega), h.entry d hd, if_pos ⟨rfl, hij⟩, hval, haddr]
    · exact h'.mapped i j ((addr_range ha).mpr ⟨hle, haddr⟩) (by omega)
  · rw [h'.entry d' hd' i j fun hdd => ?_, h.entry d' hd', if_neg]
    · rintro ⟨rfl, hij⟩
      have haddr := (index_iff ha h32).mp hij
      have hPG : 0 < PGSIZE := by decide
      rcases hout rfl with hlt | hge
      · omega
      · have := Nat.le_mul_of_pos_left PGSIZE (Nat.succ_pos n)
        omega
    · rcases hout hdd with hlt | hge
      · exact .inl (by omega)
      · exact .inr (by omega)
  · rw [h'.tables, h.mem_tabs_iff, or_assoc]
    refine or_congr_right ⟨?_, ?_⟩
    · rintro (rfl | ⟨j, hle, hlt⟩)
      · refine ⟨PTX a, ?_⟩
        rw [addr_index ha h32]
        have := Nat.le_mul_of_pos_left PGSIZE (Nat.succ_pos n)
        have hPG : 0 < PGSIZE := by decide
        omega
      · exact ⟨j, by omega, by omega⟩
    · rintro ⟨j, hle, hlt⟩
      by_cases haddr : addr i j = a
      · exact .inl ((index_iff ha h32).mpr haddr).1
      · exact .inr ⟨j, (addr_range ha).mpr ⟨hle, haddr⟩, by omega⟩

/-- Mapping a range above `KERNBASE` that has no pages: all of it is mapped, or a page table is missing. -/
theorem wp_mappagesLoop_exact (hd : d ∈ D) (w : Bool) (val : ℕ → Pte) {Q : Bool → Mem → Prop} (left : ℕ) :
    ∀ {s : Mem} {o : ℕ → Owner} (a pa : ℕ), Exact D o s → a % PGSIZE = 0 → KERNBASE ≤ a → a + left * PGSIZE < 2 ^ 32 →
    (∀ n ≤ left, val (a + n * PGSIZE) = ⟨(pa + n * PGSIZE) / PGSIZE, true, w, false, 0⟩) →
    (∀ i j, a ≤ addr i j → addr i j < a + (left + 1) * PGSIZE → (s.entry d i j).p = false) →
    (∀ n o1 s1 b, n ≤ left → KMapped D d a n val o s o1 s1 → b = a + n * PGSIZE → PDX b ∉ tabs s1 d → s1.next = none →
      Q false s1.tick) →
    (∀ o' s', KMapped D d a (left + 1) val o s o' s' → Q true s') →
    Wp (mappagesLoop d w false 0 left a pa) Q E s := by
  induction left using Nat.strong_induction_on with
  | _ left ih =>
    intro s o a pa h ha hk h32 hval habsent hfail hok
    have hlow := not_low_of_le hk (by omega)
    have hpte : (s.pte d a).p = false := by
      refine habsent _ _ ?_ ?_
      all_goals rw [addr_index ha (by omega)]
      rw [Nat.succ_mul]
      simp only [PGSIZE]
      omega
    refine wp_mappagesLoop_step h hd hpte (fun hno hnext => ?_) fun o' s' hw => ?_
    · exact hfail 0 o s a (Nat.zero_le _) (KMapped.refl h) (by omega) (by simp [mem_tabs, hno]) hnext
    have hexact := hw.exact.setKernel (j := PTX a) (e := ⟨pa / PGSIZE, true, w, false, 0⟩) hd hw.present hlow
    have hmaps := hw.mapsTo hd hexact fun q => .inl rfl
    have hv : (⟨pa / PGSIZE, true, w, false, 0⟩ : Pte) = val a := by simpa using (hval 0 (Nat.zero_le _)).symm
    cases left with
    | zero => exact hok _ _ (KMapped.cons ha (by omega) hlow h hd hv hmaps (KMapped.refl hexact))
    | succ left =>
      have hsucc : (left + 1) * PGSIZE = left * PGSIZE + PGSIZE := Nat.succ_mul ..
      refine ih left (Nat.lt_succ_self left) (a + PGSIZE) (pa + PGSIZE) hexact (by rw [Nat.add_mod_right, ha]) (by omega)
        (by omega) (fun n hn => ?_) (fun i j hle hlt => ?_) (fun n o1 s1 b hn hkm hb htab hnext => ?_) fun o1 s1 hkm => ?_
      · have hvn := hval (n + 1) (by omega)
        rw [Nat.succ_mul] at hvn
        rw [show a + PGSIZE + n * PGSIZE = a + (n * PGSIZE + PGSIZE) by ring,
          show pa + PGSIZE + n * PGSIZE = pa + (n * PGSIZE + PGSIZE) by ring]
        exact hvn
      · have hne : addr i j ≠ a := ((addr_range ha).mp hle).2
        rw [hmaps.entry d hd, if_neg fun hand => hne ((index_iff ha (by omega)).mp hand.2)]
        exact habsent i j (by omega) (by rw [Nat.succ_mul, hsucc]; rw [hsucc] at hlt; omega)
      · have hcons := KMapped.cons ha (by omega) hlow h hd hv hmaps hkm
        exact hfail (n + 1) o1 s1 b (by omega) hcons (by rw [hb, Nat.succ_mul]; ring) htab hnext
      · exact hok _ _ (KMapped.cons ha (by omega) hlow h hd hv hmaps hkm)

/-! ## `setupkvm` -/

/-- The mapping `k` contains the address `va`. -/
def MapsAddr (va : ℕ) (k : ℕ × ℕ × ℕ × Bool) : Prop := k.1 ≤ va ∧ va < k.1 + (k.2.2.1 - k.2.1)

instance (va : ℕ) (k : ℕ × ℕ × ℕ × Bool) : Decidable (MapsAddr va k) := inferInstanceAs (Decidable (_ ∧ _))

/-- The entry for `va` that the mappings `ks` give. -/
def kentry (ks : List (ℕ × ℕ × ℕ × Bool)) (va : ℕ) : Pte :=
  match ks.find? (MapsAddr va) with
  | none => .zero
  | some k => ⟨(k.2.1 + (va - k.1)) / PGSIZE, true, k.2.2.2, false, 0⟩

/-- Mappings of whole pages above `KERNBASE`, one after the other. -/
structure Ranges (ks : List (ℕ × ℕ × ℕ × Bool)) : Prop where
  virt : ∀ k ∈ ks, KERNBASE ≤ k.1 ∧ k.1 % PGSIZE = 0
  size : ∀ k ∈ ks, 0 < k.2.2.1 - k.2.1 ∧ (k.2.2.1 - k.2.1) % PGSIZE = 0 ∧ k.1 + (k.2.2.1 - k.2.1) ≤ 2 ^ 32
  sorted : ks.Pairwise fun k k' => k.1 + (k.2.2.1 - k.2.1) ≤ k'.1

theorem Ranges.tail {k : ℕ × ℕ × ℕ × Bool} {ks : List (ℕ × ℕ × ℕ × Bool)} (h : Ranges (k :: ks)) : Ranges ks :=
  ⟨fun k' hk => h.virt k' (mem_cons_of_mem _ hk), fun k' hk => h.size k' (mem_cons_of_mem _ hk),
    (pairwise_cons.mp h.sorted).2⟩

/-- The memory after the mappings `ks` have been made. -/
structure KSet (ks : List (ℕ × ℕ × ℕ × Bool)) (D : Set ℕ) (d : ℕ) (o : ℕ → Owner) (s : Mem) (o' : ℕ → Owner)
    (s' : Mem) : Prop where
  built : Built D d o s o' s'
  counted : Counted d s s'
  mapped : ∀ i j, (∃ k ∈ ks, MapsAddr (addr i j) k) → s'.entry d i j = kentry ks (addr i j)
  entry : ∀ i j, (¬ ∃ k ∈ ks, MapsAddr (addr i j) k) → s'.entry d i j = s.entry d i j
  tables : ∀ i, i ∈ tabs s' d ↔ i ∈ tabs s d ∨ ∃ j, ∃ k ∈ ks, MapsAddr (addr i j) k

/-- The memory when a page table is missing for the mappings `ks`. -/
structure KFails (ks : List (ℕ × ℕ × ℕ × Bool)) (D : Set ℕ) (d : ℕ) (o : ℕ → Owner) (s : Mem) (o' : ℕ → Owner)
    (s' : Mem) : Prop where
  built : Built D d o s o' s'
  counted : Counted d s s'
  tables : ∀ i ∈ tabs s' d, i ∈ tabs s d ∨ ∃ j, ∃ k ∈ ks, MapsAddr (addr i j) k
  missing : ∃ i, i ∉ tabs s' d ∧ ∃ j, ∃ k ∈ ks, MapsAddr (addr i j) k
  next : s'.next = none

theorem PGROUNDDOWN_of_mod (h : a % PGSIZE = 0) : PGROUNDDOWN a = a := Nat.div_mul_cancel (Nat.dvd_of_mod_eq_zero h)

/-- The number of pages after the first one. -/
theorem pages_left (h : a % PGSIZE = 0) (left : ℕ) : (PGROUNDDOWN (a + (left + 1) * PGSIZE - 1) - a) / PGSIZE = left := by
  simp only [PGROUNDDOWN, PGSIZE] at *
  omega

theorem wp_setupkvmLoop_exact (hd : d ∈ D) {Q : Option ℕ → Mem → Prop} : ∀ (ks : List (ℕ × ℕ × ℕ × Bool)) {s : Mem}
    {o : ℕ → Owner}, Ranges ks → Exact D o s → (∀ i j, (∃ k ∈ ks, MapsAddr (addr i j) k) → (s.entry d i j).p = false) →
    (∀ o1 s1 s', KFails ks D d o s o1 s1 → Freed D d o1 s1.tick s' → Q none s') →
    (∀ o' s', KSet ks D d o s o' s' → Q (some d) s') → Wp (setupkvmLoop d ks) Q E s := by
  intro ks
  induction ks with
  | nil =>
    intro s o _ h _ _ hok
    exact hok o s ⟨Built.refl h, Counted.refl d s, by simp, fun _ _ _ => rfl, fun i => by simp⟩
  | cons k ks ih =>
    intro s o hr h habsent hfail hok
    obtain ⟨virt, ps, pe, perm⟩ := k
    obtain ⟨hvirt, hmod⟩ := hr.virt _ mem_cons_self
    obtain ⟨hpos, hsize, h32⟩ := hr.size _ mem_cons_self
    simp only at hvirt hmod hpos hsize h32
    have hsorted := (pairwise_cons.mp hr.sorted).1
    -- the number of pages
    obtain ⟨left, hleft⟩ : ∃ left, pe - ps = (left + 1) * PGSIZE := by
      refine ⟨(pe - ps) / PGSIZE - 1, ?_⟩
      simp only [PGSIZE] at *
      omega
    have hsucc : (left + 1) * PGSIZE = left * PGSIZE + PGSIZE := Nat.succ_mul ..
    -- an address is mapped by the first range, or by the others
    have hcons : ∀ va, (∃ k ∈ (virt, ps, pe, perm) :: ks, MapsAddr va k) ↔
        (virt ≤ va ∧ va < virt + (left + 1) * PGSIZE) ∨ ∃ k ∈ ks, MapsAddr va k := fun va => by
      simp only [mem_cons, exists_eq_or_imp, MapsAddr, hleft]
    have hfirst : ∀ {va}, virt ≤ va ∧ va < virt + (left + 1) * PGSIZE →
        ∃ k ∈ (virt, ps, pe, perm) :: ks, MapsAddr va k := fun hva => (hcons _).mpr (.inl hva)
    have hothers : ∀ {va}, (∃ k ∈ ks, MapsAddr va k) → ∃ k ∈ (virt, ps, pe, perm) :: ks, MapsAddr va k :=
      fun hva => (hcons _).mpr (.inr hva)
    have hcode : mappages d virt (pe - ps) ps perm false 0 = mappagesLoop d perm false 0 left virt ps := by
      show mappagesLoop d perm false 0 ((PGROUNDDOWN (virt + (pe - ps) - 1) - PGROUNDDOWN virt) / PGSIZE)
        (PGROUNDDOWN virt) ps = _
      rw [PGROUNDDOWN_of_mod hmod, hleft, pages_left hmod]
    unfold setupkvmLoop
    rw [wp_bind, hcode]
    refine wp_mappagesLoop_exact hd perm (fun va => ⟨(ps + (va - virt)) / PGSIZE, true, perm, false, 0⟩) left virt ps h
      hmod hvirt (by simp only [PGSIZE] at *; omega) (fun n hn => by rw [Nat.add_sub_cancel_left])
      (fun i j hle hlt => habsent i j (hfirst ⟨hle, hlt⟩)) (fun n o1 s1 b hn hkm hb htab hnext => ?_) fun o1 s1 hkm => ?_
    · -- a table is missing
      simp only [Bool.false_eq_true, if_false, wp_bind]
      have hle : n * PGSIZE ≤ left * PGSIZE := Nat.mul_le_mul_right _ hn
      refine wp_freevm_exact hkm.built.exact.tick hd fun s' hfreed => hfail o1 s1 s' ?_ hfreed
      refine ⟨hkm.built, hkm.counted, fun i hi => ?_, ⟨PDX b, htab, PTX b, ?_⟩, hnext⟩
      · exact ((hkm.tables i).mp hi).imp_right (Exists.imp fun j hj => hfirst ⟨hj.1, by omega⟩)
      · have hb32 : b < 2 ^ 32 := by simp only [PGSIZE] at *; omega
        have hbmod : b % PGSIZE = 0 := by simp only [PGSIZE] at *; omega
        rw [addr_index hbmod hb32]
        exact hfirst (by simp only [PGSIZE] at *; omega)
    · simp only [if_true]
      have hdisjoint : ∀ i j, (∃ k ∈ ks, MapsAddr (addr i j) k) → virt + (left + 1) * PGSIZE ≤ addr i j := by
        rintro i j ⟨k, hk, hle, -⟩
        have := hsorted k hk
        simp only at this
        omega
      refine ih hr.tail hkm.built.exact (fun i j hmap => ?_) (fun o2 s2 s' hf hfreed => ?_)
        fun o2 s2 hset => ?_
      · rw [hkm.entry d hd i j fun _ => .inr (hdisjoint i j hmap)]
        exact habsent i j (hothers hmap)
      · refine hfail o2 s2 s' ⟨hkm.built.trans hf.built, hkm.counted.trans hf.counted, fun i hi => ?_, ?_, hf.next⟩ hfreed
        · rcases hf.tables i hi with hi1 | hi2
          · exact ((hkm.tables i).mp hi1).imp_right (Exists.imp fun _ => hfirst)
          · exact .inr (hi2.imp fun _ => hothers)
        · obtain ⟨i, hi, j, hm⟩ := hf.missing
          exact ⟨i, hi, j, hothers hm⟩
      · refine hok o2 s2 ⟨hkm.built.trans hset.built, hkm.counted.trans hset.counted, fun i j hmap => ?_,
          fun i j hno => ?_, fun i => ?_⟩
        · by_cases hmap' : ∃ k ∈ ks, MapsAddr (addr i j) k
          · have hnot : ¬ MapsAddr (addr i j) (virt, ps, pe, perm) := by
              rintro ⟨_, hlt⟩
              have := hdisjoint i j hmap'
              simp only at hlt
              omega
            rw [hset.mapped i j hmap', kentry, kentry, find?_cons_of_neg (by simpa using hnot)]
          · have hin := ((hcons _).mp hmap).resolve_right hmap'
            rw [hset.entry i j hmap', hkm.mapped i j hin.1 hin.2, kentry,
              find?_cons_of_pos (by simpa [MapsAddr, hleft] using hin)]
        · rw [hset.entry i j fun hm => hno (hothers hm)]
          refine hkm.entry d hd i j fun _ => ?_
          by_contra hout
          exact hno (hfirst (by omega))
        · simp only [hset.tables, hkm.tables, or_assoc, hcons, exists_or]

/-- Where the linker puts the kernel's data. -/
structure Linked (l : Layout) : Prop where
  aligned : l.data % PGSIZE = 0
  text : KERNLINK < l.data
  room : l.data < KERNBASE + PHYSTOP

variable {l : Layout}

theorem Linked.ranges (h : Linked l) : Ranges (kmap l.data) := by
  obtain ⟨haligned, htext, hroom⟩ := h
  simp only [KERNLINK, KERNBASE, EXTMEM, PHYSTOP, PGSIZE] at haligned htext hroom
  refine ⟨?_, ?_, ?_⟩
  · simp only [kmap, mem_cons, not_mem_nil, or_false, forall_eq_or_imp, forall_eq, KERNLINK, KERNBASE, EXTMEM,
      DEVSPACE, PGSIZE, and_true]
    omega
  · simp only [kmap, mem_cons, not_mem_nil, or_false, forall_eq_or_imp, forall_eq, KERNLINK, KERNBASE, EXTMEM,
      PHYSTOP, DEVSPACE, PGSIZE]
    refine ⟨⟨?_, ?_, ?_⟩, ⟨?_, ?_, ?_⟩, ⟨?_, ?_, ?_⟩, ?_, ?_, ?_⟩ <;> first | omega | exact trivial
  · simp only [kmap, pairwise_cons, mem_cons, not_mem_nil, or_false, forall_eq_or_imp, forall_eq,
      KERNLINK, KERNBASE, EXTMEM, PHYSTOP, DEVSPACE, List.Pairwise.nil, and_true, false_imp_iff, implies_true]
    omega

/-- The addresses that the kernel maps. -/
theorem Linked.mapsAddr_iff (h : Linked l) {va : ℕ} : (∃ k ∈ kmap l.data, MapsAddr va k) ↔
    KERNBASE ≤ va ∧ va < KERNBASE + PHYSTOP ∨ DEVSPACE ≤ va ∧ va < 2 ^ 32 := by
  obtain ⟨haligned, htext, hroom⟩ := h
  simp only [KERNLINK, KERNBASE, EXTMEM, PHYSTOP] at htext hroom
  simp only [kmap, MapsAddr, mem_cons, not_mem_nil, or_false, exists_eq_or_imp, exists_eq_left, KERNLINK,
    KERNBASE, EXTMEM, PHYSTOP, DEVSPACE]
  omega

/-- The directory entries that need page tables for the kernel. -/
def kernelTabs : Finset (Fin NPDENTRIES) := Finset.univ.filter fun i => 512 ≤ i.val ∧ i.val < 568 ∨ 1016 ≤ i.val

theorem card_kernelTabs : kernelTabs.card = 64 := by decide +kernel

theorem Linked.mem_kernelTabs (h : Linked l) : (∃ j, ∃ k ∈ kmap l.data, MapsAddr (addr i j) k) ↔ i ∈ kernelTabs := by
  have hi := i.isLt
  have hmem : i ∈ kernelTabs ↔ 512 ≤ i.val ∧ i.val < 568 ∨ 1016 ≤ i.val := by simp [kernelTabs]
  simp only [h.mapsAddr_iff, hmem]
  constructor
  · rintro ⟨j, hj⟩
    have hlt := j.isLt
    simp only [addr, KERNBASE, PHYSTOP, DEVSPACE, NPDENTRIES] at *
    omega
  · intro hi'
    refine ⟨⟨0, by decide⟩, ?_⟩
    simp only [addr, KERNBASE, PHYSTOP, DEVSPACE, NPDENTRIES] at *
    omega

/-- The memory after `setupkvm` has made directory `d`. -/
structure KSpace (l : Layout) (D : Set ℕ) (d : ℕ) (o : ℕ → Owner) (s : Mem) (o' : ℕ → Owner) (s' : Mem) : Prop where
  fresh : d ∉ D
  free : o d = .free
  exact : Exact (insert d D) o' s'
  lo : s'.lo = s.lo
  owner : ∀ q, o' q = o q ∨ o q = .free ∧ (o' q).Of d q
  page : ∀ q, o q ≠ .free → s'.page q = s.page q
  low : ∀ i, Low i → i ∉ tabs s' d
  tables : tabs s' d = kernelTabs
  kernel : ∀ i j, s'.entry d i j = kentry (kmap l.data) (addr i j)
  calls : Calls 65 s s'

/-- The memory in which all pages have the owners they had, and those that were not free their contents. -/
structure Restored (D : Set ℕ) (o : ℕ → Owner) (s s' : Mem) : Prop where
  exact : Exact D o s'
  lo : s'.lo = s.lo
  page : ∀ q, o q ≠ .free → s'.page q = s.page q

/-- The same pages are free. -/
theorem Restored.mem_freelist (h : Restored D o s s') (h0 : Exact D o s) : r ∈ s'.freelist ↔ r ∈ s.freelist :=
  h.exact.free_iff.symm.trans h0.free_iff

/-- The first call of `kalloc` that fails is the one after `n` others. -/
def Mem.FirstFails (s : Mem) (n : ℕ) : Prop := s.FailsAt n ∧ ∀ m < n, ¬ s.FailsAt m

theorem Calls.firstFails {k : ℕ} (h : Calls k s s') (hnext : s'.next = none) : s.FirstFails k :=
  ⟨(h.failsAt_iff (n := 0)).mp (Mem.next_eq_none.mp hnext), fun _ hm => h.not_failsAt hm⟩

theorem wp_setupkvm_exact {Q : Option ℕ → Mem → Prop} (hl : Linked l) (h : Exact D o s)
    (hfail : ∀ s' n, Restored D o s s' → n < 65 → s.FirstFails n → Q none s')
    (hok : ∀ d o' s', KSpace l D d o s o' s' → Q (some d) s') : Wp (setupkvm l.data) Q E s := by
  unfold setupkvm
  rw [wp_bind]
  refine wp_kalloc_exact (fun hnext => ?_) fun d hnext => ?_
  · exact hfail _ 0 ⟨h.tick, rfl, fun _ _ => rfl⟩ (by decide) ((Calls.refl s).firstFails hnext)
  · obtain ⟨h1, hod, hrange⟩ := h.take hnext
    have hfresh : d ∉ D := fun hd => absurd (hod.symm.trans (h.dir hd)) nofun
    have hnot := h.not_of hfresh
    -- the directory is empty at first
    set t := s.pop.put d fun _ => .zero
    have h2 : Exact D (update o d .none) t := h1.put (by simp) (by simp) _
    have hzero : ∀ i, t.page d i = .zero := fun i => by rw [Mem.put_page_self]
    have h3 := h2.newDir hzero (by simp [Owner.Outside]) hrange
    rw [update_idem] at h3
    have hcalls : Calls 1 s t := (Calls.pop hnext).congr rfl rfl
    have hempty : tabs t d = ∅ := by
      ext i
      simp [mem_tabs, hzero, Pte.zero]
    have hentry : ∀ i j, t.entry d i j = .zero := fun i j =>
      Mem.entry_of_absent (by rw [hzero]; rfl)
    have habsent : ∀ i j, (∃ k ∈ kmap l.data, MapsAddr (addr i j) k) →
        (t.entry d i j).p = false := fun i j _ => by rw [hentry]; rfl
    have hpage : ∀ q, o q ≠ .free → t.page q = s.page q := by
      intro q hq
      refine Mem.put_page_of_ne _ ?_
      rintro rfl
      exact hq hod
    have howner : ∀ {o' s'}, Built (insert d D) d (update o d .dir) t o' s' →
        ∀ q, q ≠ d → o' q = o q ∨ o q = .free ∧ (o' q).Of d q := by
      intro o' s' hb q hq
      have ho := hb.owner q
      rwa [update_of_ne hq] at ho
    have hkept : ∀ {o' s'}, Built (insert d D) d (update o d .dir) t o' s' →
        ∀ q, o q ≠ .free → q ≠ d ∧ s'.page q = s.page q := by
      intro o' s' hb q hq
      have hqd : q ≠ d := by
        rintro rfl
        exact hq hod
      refine ⟨hqd, (hb.page q ?_ ?_).trans (hpage q hq)⟩
      · rwa [update_of_ne hqd]
      · rw [update_of_ne hqd]
        exact hnot q
    rw [wp_bind, wp_memset]
    refine wp_setupkvmLoop_exact (Set.mem_insert d D) (kmap l.data) hl.ranges h3 habsent
      (fun o1 s1 s' hf hfreed => ?_) fun o' s' hset => ?_
    · -- a table is missing, and all pages go back
      have hrestored : released o1 d = o := by
        funext q
        unfold released
        by_cases hq : q = d
        · subst hq
          have ho : o1 q = .dir := (hf.built.exact.dir (Set.mem_insert q D))
          rw [if_pos (by rw [ho]; rfl), hod]
        · rcases howner hf.built q hq with heq | ⟨hfree, hof⟩
          · rw [heq, if_neg (hnot q)]
          · rw [if_pos hof, hfree]
      obtain ⟨k, hk, hcard⟩ := hf.counted
      have hlt : (tabs s1 d).card < 64 := by
        rw [← card_kernelTabs]
        refine Finset.card_lt_card ⟨fun i hi => ?_, fun hsub => ?_⟩
        · refine hl.mem_kernelTabs.mp ((hf.tables i hi).resolve_left ?_)
          rw [hempty]
          exact Finset.notMem_empty i
        · obtain ⟨i, hi, hmap⟩ := hf.missing
          exact hi (hsub (hl.mem_kernelTabs.mp hmap))
      rw [hempty, Finset.card_empty, Nat.add_zero] at hcard
      refine hfail s' (1 + k) ⟨?_, hfreed.lo.trans hf.built.lo, fun q hq => ?_⟩ (by omega)
        ((hcalls.trans hk).firstFails hf.next)
      · have hexact := hfreed.exact
        rwa [hrestored, Set.insert_sdiff_self_of_notMem hfresh] at hexact
      · obtain ⟨hqd, hsame⟩ := hkept hf.built q hq
        have ho : o1 q = o q := (howner hf.built q hqd).resolve_right fun hand => hq hand.1
        rw [hfreed.page q (by rw [ho]; exact hnot q)]
        exact hsame
    · have htables : tabs s' d = kernelTabs := by
        ext i
        rw [hset.tables, hl.mem_kernelTabs, hempty]
        simp
      obtain ⟨k, hk, hcard⟩ := hset.counted
      rw [hempty, htables, card_kernelTabs, Finset.card_empty, Nat.add_zero] at hcard
      subst hcard
      refine hok d o' s' ⟨hfresh, hod, hset.built.exact, hset.built.lo, fun q => ?_, fun q hq => ?_, fun i hlow => ?_,
        htables, fun i j => ?_, hcalls.trans hk⟩
      · by_cases hq : q = d
        · subst hq
          exact .inr ⟨hod, by rw [hset.built.exact.dir (Set.mem_insert q D)]; rfl⟩
        · exact howner hset.built q hq
      · exact (hkept hset.built q hq).2
      · rw [htables]
        have := i.isLt
        simp only [Low] at hlow
        simp only [kernelTabs, Finset.mem_filter, Finset.mem_univ, true_and]
        omega
      · by_cases hmap : ∃ k ∈ kmap l.data, MapsAddr (addr i j) k
        · exact hset.mapped i j hmap
        · rw [hset.entry i j hmap, kentry, find?_eq_none.mpr fun k hk => by simpa using fun hm => hmap ⟨k, hk, hm⟩]
          exact hentry i j

end Vm

end Xv6
