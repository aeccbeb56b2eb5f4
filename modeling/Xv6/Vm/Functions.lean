import Xv6.Vm.Owner

/-!
# The functions of `vm.c` keep the owners

One specification for each function: from an agreeing labelling it reaches a state with an agreeing labelling, in
which the pages of kernel stacks and pipes, and those that the caller has just allocated, have the owners they had.
-/

namespace Xv6

open Function List

namespace Vm

open Code

variable {D : Set ℕ} {o : ℕ → Owner} {s : Mem} {d r : ℕ}

/-- What the functions reach: an agreeing labelling that keeps the owners outside `vm.c`. -/
def Reaches (D : Set ℕ) (o : ℕ → Owner) (lo : ℕ) (s : Mem) : Prop := s.lo = lo ∧ ∃ o', Inv D o' s ∧ Keeps o o'

variable {lo va oldsz sz addr : ℕ} {i j : Fin NPDENTRIES}

theorem Reaches.trans {D : Set ℕ} {o o' : ℕ → Owner} {s : Mem} (ho : Keeps o o') (h : Reaches D o' lo s) :
    Reaches D o lo s := by
  obtain ⟨hlo, o'', hi, hk⟩ := h
  exact ⟨hlo, o'', hi, ho.trans hk⟩

theorem Inv.reaches (h : Inv D o s) : Reaches D o s.lo s := ⟨rfl, o, h, Keeps.refl o⟩

/-- Freeing keeps the owners, unless the page was one of the caller's. -/
theorem Keeps.free {o o' : ℕ → Owner} (h : Keeps o o') (hr : ¬ (o r).Outside) : Keeps o (Function.update o' r .free) := by
  intro q hq
  have hne : q ≠ r := by
    rintro rfl
    exact hr hq
  rw [update_of_ne hne]
  exact h q hq

theorem low_of_lt (h : va < KERNBASE) : Low (PDX va) := by
  simp only [Low, PDX, KERNBASE, NPDENTRIES] at *
  omega

theorem not_low_of_le (h : KERNBASE ≤ va) (h' : va < 2 ^ 32) : ¬ Low (PDX va) := by
  simp only [Low, PDX, KERNBASE, NPDENTRIES] at *
  omega

/-! ## `walkpgdir` and `mappages` -/

/-- Without allocation `walkpgdir` only looks. -/
theorem wp_walkpgdir_look {Q : Option (ℕ × Fin NPDENTRIES) → Mem → Prop}
    (habsent : (s.page d (PDX va)).p = false → Q none s)
    (hpresent : (s.page d (PDX va)).p = true → Q (some ((s.page d (PDX va)).ppn, PTX va)) s) :
    Wp (walkpgdir d va false) Q Any s := by
  unfold walkpgdir
  rw [wp_bind, wp_get]
  cases hp : (s.page d (PDX va)).p with
  | true => simpa [hp] using hpresent hp
  | false => simpa [hp] using habsent hp

/-- With allocation it finds a page table of the directory, or fails. -/
theorem wp_walkpgdir (h : Inv D o s) (hd : d ∈ D) (va : ℕ) : Wp (walkpgdir d va true) (fun x s' =>
    s'.lo = s.lo ∧ ∃ o', Inv D o' s' ∧ Keeps o o' ∧
      ∀ t j, x = some (t, j) → j = PTX va ∧ (s'.page d (PDX va)).p = true ∧ t = (s'.page d (PDX va)).ppn) Any s := by
  unfold walkpgdir
  rw [wp_bind, wp_get]
  cases hp : (s.page d (PDX va)).p with
  | true =>
    simp only [hp, if_true, wp_pure]
    refine ⟨trivial, o, h, Keeps.refl o, fun t j htj => ?_⟩
    obtain ⟨rfl, rfl⟩ : (s.page d (PDX va)).ppn = t ∧ PTX va = j := by simpa using htj
    exact ⟨rfl, trivial, rfl⟩
  | false =>
    simp only [hp, Bool.false_eq_true, if_false, Bool.true_eq_false, wp_bind]
    refine wp_post (wp_kalloc h) ?_
    rintro x s1 ⟨hlo, hpage, hx⟩
    cases x with
    | none => exact ⟨hlo, o, hx, Keeps.refl o, by simp⟩
    | some r =>
      obtain ⟨hr, hor, h1⟩ := hx
      -- the new page is cleared and becomes a page table
      have hdr : d ≠ r := by
        rintro rfl
        exact absurd (hor.symm.trans (h.dir d hd)) (by simp)
      have hu1 := h1.unused (r := r) (by simp [Owner.Outside])
      have h2 := h1.write hu1.dir hu1.table fun _ => .zero
      have hu2 := hu1.write fun _ => .zero
      have habsent : ((update s1.page r fun _ => Pte.zero) d (PDX va)).p = false := by
        rw [update_of_ne hdr, hpage, hp]
      have h3 := h2.new_table (w := true) (u := true) (f := 0) hd hu2 (by rw [hlo]; exact hr) (fun j => by simp) habsent
      refine ⟨hlo, _, h3, ?_, fun t j htj => ?_⟩
      · rw [update_idem]
        exact Keeps.update _ (by simp [hor, Owner.Outside])
      · obtain ⟨rfl, rfl⟩ : r = t ∧ PTX va = j := by simpa using htj
        simp

/-- Mapping one page below `KERNBASE` to a page of the caller's, which becomes a frame or stays the caller's. -/
theorem wp_mappages (h : Inv D o s) (hd : d ∈ D) (hva : va < KERNBASE) (haligned : va % PGSIZE = 0)
    (hr : o r = .none) (hlo : s.lo ≤ r) (w u : Bool) (f : BitVec 9) :
    Wp (mappages d va PGSIZE (r * PGSIZE) w u f) (fun ok s' =>
    s'.lo = s.lo ∧ ∃ o', Inv D o' s' ∧ (∀ q, q ≠ r → (o q).Outside → o' q = o q) ∧
      (o' r = .none ∨ ok = true ∧ ∃ i j, o' r = .frame d i j)) Any s := by
  have hone : (PGROUNDDOWN (va + PGSIZE - 1) - PGROUNDDOWN va) / PGSIZE = 0 := by
    simp only [PGROUNDDOWN, PGSIZE] at *
    omega
  have ha : PGROUNDDOWN va = va := by
    simp only [PGROUNDDOWN, PGSIZE] at *
    omega
  have hppn : r * PGSIZE / PGSIZE = r := Nat.mul_div_cancel _ (by decide)
  change Wp (mappagesLoop d w u f ((PGROUNDDOWN (va + PGSIZE - 1) - PGROUNDDOWN va) / PGSIZE) (PGROUNDDOWN va)
    (r * PGSIZE)) _ _ _
  rw [hone, ha]
  unfold mappagesLoop
  rw [wp_bind]
  refine wp_post (wp_walkpgdir h hd va) ?_
  intro x s1 ⟨hlo1, o1, h1, hk1, hx⟩
  have hr1 : o1 r = .none := (hk1 r (by simp [hr, Owner.Outside])).trans hr
  cases x with
  | none => exact ⟨hlo1, o1, h1, fun q _ hq => hk1 q hq, .inl hr1⟩
  | some x =>
    obtain ⟨t, j⟩ := x
    obtain ⟨rfl, hp, rfl⟩ := hx t j rfl
    simp only [wp_bind, wp_get]
    split_ifs with hremap
    · trivial
    · -- the page becomes the frame of this entry
      have h2 := h1.relabel (x := .frame d (PDX va) (PTX va)) (h1.unused (by simp [hr1, Owner.Outside])) fun _ => hlo1 ▸ hlo
      have he : Entry (update o1 r (.frame d (PDX va) (PTX va))) d (PDX va) (PTX va) ⟨r, true, w, u, f⟩ :=
        ⟨fun _ => .inl ⟨rfl, update_self ..⟩, fun hno => absurd (low_of_lt hva) hno⟩
      refine ⟨hlo1, update o1 r (.frame d (PDX va) (PTX va)), ?_, fun q hq hout => ?_,
        .inr ⟨rfl, _, _, update_self ..⟩⟩
      · rw [hppn]
        exact h2.set_entry hd hp he
      · rw [update_of_ne hq]
        exact hk1 q hout

/-- Mapping pages above `KERNBASE`, not for user code. -/
theorem wp_mappagesLoop_kernel (hd : d ∈ D) (w : Bool) (f : BitVec 9) (left : ℕ) : ∀ {s : Mem} {o : ℕ → Owner} (a pa : ℕ),
    Inv D o s → KERNBASE ≤ a → a + left * PGSIZE < 2 ^ 32 →
    Wp (mappagesLoop d w false f left a pa) (fun _ s' => Reaches D o s.lo s') Any s := by
  induction left using Nat.strongRecOn with
  | ind left ih =>
    intro s o a pa h hlow hhigh
    have hbound : a < 2 ^ 32 := by omega
    unfold mappagesLoop
    rw [wp_bind]
    refine wp_post (wp_walkpgdir h hd a) ?_
    intro x s1 ⟨hlo, o1, h1, hk, hx⟩
    cases x with
    | none => exact ⟨hlo, o1, h1, hk⟩
    | some x =>
      obtain ⟨t, j⟩ := x
      obtain ⟨rfl, hp, rfl⟩ := hx t j rfl
      simp only [wp_bind, wp_get]
      split_ifs with hremap
      · trivial
      · have he : Entry o1 d (PDX a) (PTX a) ⟨pa / PGSIZE, true, w, false, f⟩ :=
          ⟨fun hl => absurd hl (not_low_of_le hlow hbound), fun _ => rfl⟩
        have h2 := h1.set_entry hd hp he
        cases left with
        | zero => exact ⟨hlo, o1, h2, hk⟩
        | succ left =>
          rw [Nat.add_mul] at hhigh
          refine wp_post (ih left (by omega) (a + PGSIZE) (pa + PGSIZE) h2 (by omega) (by omega)) ?_
          intro ok s2 h3
          rw [← hlo]
          exact h3.trans hk

theorem wp_mappages_kernel (h : Inv D o s) (hd : d ∈ D) {virt size : ℕ} (hlow : KERNBASE ≤ virt)
    (hhigh : virt + size ≤ 2 ^ 32) (hvirt : virt < 2 ^ 32) (pa : ℕ) (w : Bool) (f : BitVec 9) :
    Wp (mappages d virt size pa w false f) (fun _ s' => Reaches D o s.lo s') Any s := by
  apply wp_mappagesLoop_kernel hd w f _ _ _ h
  · simp only [PGROUNDDOWN, PGSIZE, KERNBASE] at *
    omega
  · simp only [PGROUNDDOWN, PGSIZE, KERNBASE] at *
    omega

/-! ## `deallocuvm` and `freevm` -/

/-- A frame is freed and its entry cleared. -/
theorem wp_freeFrame (h : Inv D o s) (hd : d ∈ D) (hp : (s.page d i).p = true) (hlow : Low i)
    (hpj : (s.page (s.page d i).ppn j).p = true) :
    Wp (do kfree (s.page (s.page d i).ppn j).ppn; setPte (s.page d i).ppn j .zero)
      (fun _ s' => Reaches D o s.lo s') Any s := by
  have ho : o (s.page (s.page d i).ppn j).ppn = .frame d i j := by
    rcases (h.entry d hd i hp j).1 hlow with ⟨-, ho⟩ | ⟨hno, -⟩
    · exact ho
    · exact absurd (hno.symm.trans hpj) Bool.false_ne_true
  have htf : (s.page (s.page d i).ppn j).ppn ≠ (s.page d i).ppn := by
    intro heq
    rw [heq, h.table d hd i hp] at ho
    nomatch ho
  have hzero : Entry o d i j .zero := ⟨fun _ => .inr ⟨rfl, rfl⟩, fun _ => rfl⟩
  unfold kfree
  simp only [wp_bind, wp_get]
  split_ifs with hrange
  · trivial
  · -- the two stores are to different pages
    have hfree := (h.set_entry hd hp hzero).free_page (h.unused_frame hd hp hlow hpj) (by simp; omega) fun _ => .junk
    refine ⟨rfl, update o (s.page (s.page d i).ppn j).ppn .free, ?_,
      Keeps.update .free (by simp [ho, Owner.Outside])⟩
    convert hfree using 2
    simp only [update_of_ne htf.symm]
    exact update_comm htf ..

theorem wp_deallocuvmLoop (hd : d ∈ D) (hsz : oldsz ≤ KERNBASE) (n : ℕ) : ∀ {s : Mem} {o : ℕ → Owner}
    (a : ℕ), oldsz - a ≤ n → Inv D o s → Wp (deallocuvmLoop d oldsz a) (fun _ s' => Reaches D o s.lo s') Any s := by
  induction n using Nat.strong_induction_on with
  | _ n ih =>
    intro s o a hn h
    unfold deallocuvmLoop
    split_ifs with hlt
    · rw [wp_bind]
      apply wp_walkpgdir_look
      · -- no page table: on to the next directory entry
        intro _
        exact ih (n - 1) (by omega) _ (by omega) h
      · intro hp
        have hstep : a < a + PGSIZE := by simp [PGSIZE]
        simp only [wp_bind, wp_get]
        split_ifs with hpj hzero
        · trivial
        · have hfree := wp_freeFrame h hd hp (low_of_lt (by omega)) hpj
          rw [wp_bind] at hfree ⊢
          refine wp_post hfree ?_
          intro _ s1 hs1
          rw [wp_bind]
          refine wp_post hs1 ?_
          rintro _ s2 ⟨hlo, o2, h2, hk⟩
          refine wp_post (ih (n - 1) (by omega) (a + PGSIZE) (by omega) h2) ?_
          intro _ s3 h3
          rw [← hlo]
          exact h3.trans hk
        · exact ih (n - 1) (by omega) (a + PGSIZE) (by omega) h
    · exact h.reaches

theorem wp_deallocuvm (h : Inv D o s) (hd : d ∈ D) (hsz : oldsz ≤ KERNBASE) (newsz : ℕ) :
    Wp (deallocuvm d oldsz newsz) (fun x s' => Reaches D o s.lo s' ∧ x ≤ oldsz) Any s := by
  unfold deallocuvm
  split_ifs with hle
  · exact ⟨h.reaches, le_rfl⟩
  · rw [wp_bind]
    refine wp_post (wp_deallocuvmLoop hd hsz _ (PGROUNDUP newsz) le_rfl h) ?_
    intro _ s1 h1
    exact ⟨h1, by omega⟩

/-- What is left to free of a page directory that is no longer considered. -/
structure Remains (D : Set ℕ) (o0 : ℕ → Owner) (d : ℕ) (P : Table) (is : List (Fin NPDENTRIES)) (lo : ℕ) (s : Mem) :
    Prop where
  lo : s.lo = lo
  page : s.page d = P
  nodup : is.Nodup
  labels : ∃ o, Inv D o s ∧ Keeps o0 o ∧ o d = .dir ∧ ∀ i ∈ is, (P i).p = true → o (P i).ppn = .table d i

theorem Remains.step {P : Table} {is : List (Fin NPDENTRIES)} (h : Remains D o d P (i :: is) lo s) (hd : d ∉ D) : Wp (do
      let s ← get
      if (s.page d i).p then kfree (s.page d i).ppn)
      (fun _ s' => Remains D o d P is lo s') Any s := by
  obtain ⟨hlo, hpage, hnodup, o1, h1, hk, hdir, htables⟩ := h
  rw [nodup_cons] at hnodup
  rw [wp_bind, wp_get, hpage]
  split_ifs with hp
  · have hot := htables i mem_cons_self hp
    have hloose : Loose D o1 (P i).ppn := by simpa [Loose, hot] using hd
    refine wp_post (wp_kfree h1 (hloose.unused h1)) ?_
    rintro _ s2 ⟨hlo2, h2, hpage2⟩
    have hdt : d ≠ (P i).ppn := by
      intro heq
      rw [← heq, hdir] at hot
      cases hot
    refine ⟨hlo2.trans hlo, (hpage2 d hdt).trans hpage, hnodup.2, _, h2, ?_, ?_, fun i' hi' hp' => ?_⟩
    · exact hk.trans (Keeps.update .free (by simp [hot, Owner.Outside]))
    · rw [update_of_ne hdt]
      exact hdir
    · -- another entry is another table
      have hot' := htables i' (mem_cons_of_mem _ hi') hp'
      have hne : (P i').ppn ≠ (P i).ppn := by
        intro heq
        rw [heq, hot] at hot'
        obtain rfl : i = i' := by simpa using hot'
        exact hnodup.1 hi'
      rw [update_of_ne hne]
      exact hot'
  · exact ⟨hlo, hpage, hnodup.2, o1, h1, hk, hdir, fun i' hi' => htables i' (mem_cons_of_mem _ hi')⟩

theorem wp_freevm (h : Inv D o s) (hd : d ∈ D) : Wp (freevm d) (fun _ s' => Reaches (D \ {d}) o s.lo s') Any s := by
  unfold freevm
  rw [wp_bind]
  have hdealloc := wp_deallocuvm h hd (Nat.le_refl KERNBASE) 0
  refine wp_post hdealloc ?_
  intro _ s1 hpost
  have hnot : d ∉ D \ {d} := by simp
  have hnodup : (List.finRange NPDENTRIES).Nodup := nodup_finRange _
  rw [wp_bind]
  generalize List.finRange NPDENTRIES = is at hnodup ⊢
  obtain ⟨hlo, o1, h1, hk⟩ := hpost.1
  refine wp_post (wp_forM (fun is s' => Remains (D \ {d}) o1 d (s1.page d) is s1.lo s') ?_ ?_) ?_
  · intro i is s' hrem
    exact hrem.step hnot
  · exact ⟨rfl, rfl, hnodup, o1, h1.drop d, Keeps.refl o1, h1.dir d hd, fun i _ hp => h1.table d hd i hp⟩
  · rintro _ s2 ⟨hlo2, _, _, o2, h2, hk2, hdir, _⟩
    have hloose : Loose (D \ {d}) o2 d := by simp [Loose, hdir]
    refine wp_post (wp_kfree h2 (hloose.unused h2)) ?_
    rintro _ s3 ⟨hlo3, h3, _⟩
    refine ⟨hlo3.trans (hlo2.trans hlo), _, h3, ?_⟩
    exact (hk.trans hk2).trans (Keeps.update .free (by simp [hdir, Owner.Outside]))

/-! ## `setupkvm`, `allocuvm` and `copyuvm` -/

/-- What a function that makes a page directory reaches: a new one, or none. -/
def Makes (D : Set ℕ) (o : ℕ → Owner) (lo : ℕ) : Option ℕ → Mem → Prop
  | none, s => Reaches D o lo s
  | some d, s => d ∉ D ∧ Reaches (insert d D) o lo s

/-- Where the kernel's data begin. -/
structure Layout where
  data : ℕ
  low : KERNBASE ≤ data
  high : data ≤ KERNBASE + PHYSTOP

/-- The mappings of the kernel are above `KERNBASE`. -/
theorem Layout.kmap_range (l : Layout) : ∀ k ∈ kmap l.data, KERNBASE ≤ k.1 ∧ k.1 + (k.2.2.1 - k.2.1) ≤ 2 ^ 32 ∧
    k.1 < 2 ^ 32 := by
  have hlow := l.low
  have hhigh := l.high
  simp only [KERNBASE, PHYSTOP] at hlow hhigh
  intro k hk
  simp only [kmap, mem_cons, not_mem_nil, or_false] at hk
  rcases hk with rfl | rfl | rfl | rfl <;> simp only [KERNBASE, KERNLINK, EXTMEM, PHYSTOP, DEVSPACE] <;> omega

theorem wp_setupkvmLoop (hd : d ∉ D) : ∀ (ks : List (ℕ × ℕ × ℕ × Bool)) {s : Mem} {o : ℕ → Owner},
    (∀ k ∈ ks, KERNBASE ≤ k.1 ∧ k.1 + (k.2.2.1 - k.2.1) ≤ 2 ^ 32 ∧ k.1 < 2 ^ 32) → Inv (insert d D) o s →
    Wp (setupkvmLoop d ks) (Makes D o s.lo) Any s
  | [], s, o, _, h => ⟨hd, h.reaches⟩
  | (virt, ps, pe, perm) :: ks, s, o, hks, h => by
    unfold setupkvmLoop
    rw [wp_bind]
    obtain ⟨hlow, hhigh, hvirt⟩ := hks _ mem_cons_self
    refine wp_post (wp_mappages_kernel h (Set.mem_insert d D) hlow hhigh hvirt ps perm 0) ?_
    rintro ok s1 ⟨hlo, o1, h1, hk⟩
    split_ifs
    · refine wp_post (wp_setupkvmLoop hd ks (fun k hk => hks k (mem_cons_of_mem _ hk)) h1) ?_
      intro x s2 hx
      rw [← hlo]
      cases x with
      | none => exact hx.trans hk
      | some d' => exact ⟨hx.1, hx.2.trans hk⟩
    · rw [wp_bind]
      refine wp_post (wp_freevm h1 (Set.mem_insert d D)) ?_
      intro _ s2 h2
      rw [Set.insert_sdiff_self_of_notMem hd, hlo] at h2
      exact h2.trans hk

theorem wp_setupkvm (h : Inv D o s) (l : Layout) : Wp (setupkvm l.data) (Makes D o s.lo) Any s := by
  unfold setupkvm
  rw [wp_bind]
  refine wp_post (wp_kalloc h) ?_
  intro x s1 ⟨hlo, hpage, hx⟩
  cases x with
  | none => exact ⟨hlo, o, hx, Keeps.refl o⟩
  | some r =>
    obtain ⟨hr, hor, h1⟩ := hx
    have hnot : r ∉ D := by
      intro hmem
      exact absurd (hor.symm.trans (h.dir r hmem)) nofun
    have hu1 := h1.unused (r := r) (by simp [Owner.Outside])
    have h2 := (h1.write hu1.dir hu1.table fun _ => .zero).new_dir (hu1.write fun _ => .zero) (by rw [hlo]; exact hr)
      (by simp [Pte.zero])
    rw [update_idem] at h2
    have hk : Keeps o (update o r .dir) := Keeps.update .dir (by simp [hor, Owner.Outside])
    simp only [wp_bind, memset, wp_modify]
    refine wp_post (wp_setupkvmLoop hnot (kmap l.data) l.kmap_range h2) ?_
    intro x s3 hx
    rw [← hlo]
    cases x with
    | none => exact Reaches.trans hk hx
    | some d' => exact ⟨hx.1, Reaches.trans hk hx.2⟩

/-- A page taken from the free list is not one of those whose owners are kept. -/
theorem Keeps.of_frame {o o1 o2 : ℕ → Owner} (hor : o r = .free) (h1 : o1 = Function.update o r .none)
    (hk : ∀ q, q ≠ r → (o1 q).Outside → o2 q = o1 q) : Keeps o o2 := by
  intro q hq
  have hne : q ≠ r := by
    rintro rfl
    simp [hor, Owner.Outside] at hq
  have hsame : o1 q = o q := by rw [h1, update_of_ne hne]
  rw [hk q hne (by rw [hsame]; exact hq), hsame]

theorem wp_allocuvmLoop (hd : d ∈ D) {newsz : ℕ} (hsz : newsz < KERNBASE) (n : ℕ) : ∀ {s : Mem} {o : ℕ → Owner}
    (a : ℕ), newsz - a ≤ n → a % PGSIZE = 0 → Inv D o s →
    Wp (allocuvmLoop d oldsz newsz a) (fun x s' => Reaches D o s.lo s' ∧ x ≤ newsz) Any s := by
  induction n using Nat.strong_induction_on with
  | _ n ih =>
    intro s o a hn ha h
    unfold allocuvmLoop
    split_ifs with hlt
    · rw [wp_bind]
      refine wp_post (wp_kalloc h) ?_
      rintro x s1 ⟨hlo, hpage, hx⟩
      cases x with
      | none =>
        rw [wp_bind]
        refine wp_post (wp_deallocuvm hx hd hsz.le oldsz) ?_
        intro _ s2 h2
        exact ⟨hlo ▸ h2.1, Nat.zero_le _⟩
      | some r =>
        obtain ⟨hr, hor, h1⟩ := hx
        have hnone : update o r .none r = .none := update_self ..
        have hu1 := h1.unused (r := r) (by simp [Owner.Outside])
        have h2 := h1.write hu1.dir hu1.table fun _ => .zero
        simp only [wp_bind, memset, wp_modify]
        refine wp_post (wp_mappages h2 hd (by omega) ha hnone (by rw [hlo]; exact hr) true true 0) ?_
        rintro ok s3 ⟨hlo3, o3, h3, hk3, hok⟩
        have hk : Keeps o o3 := Keeps.of_frame hor rfl hk3
        split_ifs with hdone
        · have hstep : (a + PGSIZE) % PGSIZE = 0 := by rw [Nat.add_mod_right, ha]
          refine wp_post (ih (n - 1) (by omega) (a + PGSIZE) (by simp only [PGSIZE]; omega) hstep h3) ?_
          rintro x s4 ⟨h4, hx⟩
          rw [hlo3, hlo] at h4
          exact ⟨h4.trans hk, hx⟩
        · -- the page that could not be mapped is freed after the others
          rw [wp_bind]
          have hr3 : o3 r = .none := hok.resolve_right fun hr => hdone hr.1
          refine wp_post (wp_deallocuvm h3 hd hsz.le oldsz) ?_
          rintro _ s4 ⟨⟨hlo4, o4, h4, hk4⟩, -⟩
          have hr4 : o4 r = .none := (hk4 r (by simp [hr3, Owner.Outside])).trans hr3
          rw [wp_bind]
          refine wp_post (wp_kfree h4 (h4.unused (by simp [hr4, Owner.Outside]))) ?_
          rintro _ s5 ⟨hlo5, h5, _⟩
          refine ⟨⟨?_, _, h5, (hk.trans hk4).free (by simp [hor, Owner.Outside])⟩, Nat.zero_le _⟩
          rw [hlo5, hlo4, hlo3]
          exact hlo
    · exact ⟨h.reaches, le_rfl⟩

theorem PGROUNDUP_mod (sz : ℕ) : PGROUNDUP sz % PGSIZE = 0 := Nat.mul_mod_left ..

theorem wp_allocuvm (h : Inv D o s) (hd : d ∈ D) (hold : oldsz ≤ KERNBASE) (newsz : ℕ) :
    Wp (allocuvm d oldsz newsz) (fun x s' => Reaches D o s.lo s' ∧ x ≤ KERNBASE ∧ (x ≠ 0 → newsz < KERNBASE)) Any s := by
  unfold allocuvm
  split_ifs with hbig hless
  · exact ⟨h.reaches, Nat.zero_le _, fun hx => absurd rfl hx⟩
  · exact ⟨h.reaches, hold, fun _ => by omega⟩
  · refine wp_post (wp_allocuvmLoop hd (by omega) _ _ le_rfl (PGROUNDUP_mod oldsz) h) ?_
    intro x s1 ⟨h1, hx⟩
    exact ⟨h1, by omega, fun _ => by omega⟩

theorem wp_copyuvmLoop {p : ℕ} (hsz : sz ≤ KERNBASE) (hd : d ∉ D) (n : ℕ) : ∀ {s : Mem} {o : ℕ → Owner}
    (i : ℕ), sz - i ≤ n → i % PGSIZE = 0 → Inv (insert d D) o s → Wp (copyuvmLoop p sz d i) (Makes D o s.lo) Any s := by
  induction n using Nat.strong_induction_on with
  | _ n ih =>
    intro s o i hn hi h
    have hmem : d ∈ insert d D := Set.mem_insert d D
    unfold copyuvmLoop
    split_ifs with hlt
    · rw [wp_bind]
      apply wp_walkpgdir_look
      · exact fun _ => trivial
      · intro hp
        simp only [wp_bind, wp_get]
        split_ifs with hpj
        · trivial
        · rw [wp_bind]
          refine wp_post (wp_kalloc h) ?_
          rintro x s1 ⟨hlo, hpage, hx⟩
          cases x with
          | none =>
            rw [wp_bind]
            refine wp_post (wp_freevm hx hmem) ?_
            intro _ s2 h2
            rw [Set.insert_sdiff_self_of_notMem hd, hlo] at h2
            exact h2
          | some r =>
            obtain ⟨hr, hor, h1⟩ := hx
            have hnone : update o r .none r = .none := update_self ..
            have hu1 := h1.unused (r := r) (by simp [Owner.Outside])
            have h2 := h1.write hu1.dir hu1.table (s.page (s.page (s.page p (PDX i)).ppn (PTX i)).ppn)
            simp only [wp_bind, setPage, wp_modify]
            refine wp_post (wp_mappages h2 hmem (by omega) hi hnone (by rw [hlo]; exact hr) _ _ _) ?_
            rintro ok s3 ⟨hlo3, o3, h3, hk3, hok⟩
            have hk : Keeps o o3 := Keeps.of_frame hor rfl hk3
            split_ifs with hdone
            · have hstep : (i + PGSIZE) % PGSIZE = 0 := by rw [Nat.add_mod_right, hi]
              refine wp_post (ih (n - 1) (by omega) (i + PGSIZE) (by simp only [PGSIZE]; omega) hstep h3) ?_
              intro x s4 hx
              rw [hlo3, hlo] at hx
              cases x with
              | none => exact Reaches.trans hk hx
              | some d' => exact ⟨hx.1, Reaches.trans hk hx.2⟩
            · rw [wp_bind]
              refine wp_post (wp_freevm h3 hmem) ?_
              intro _ s4 h4
              rw [Set.insert_sdiff_self_of_notMem hd, hlo3, hlo] at h4
              exact Reaches.trans hk h4
    · exact ⟨hd, h.reaches⟩

theorem wp_copyuvm (h : Inv D o s) (l : Layout) (p : ℕ) (hsz : sz ≤ KERNBASE) :
    Wp (copyuvm l.data p sz) (Makes D o s.lo) Any s := by
  unfold copyuvm
  rw [wp_bind]
  refine wp_post (wp_setupkvm h l) ?_
  intro x s1 hx
  cases x with
  | none => exact hx
  | some d =>
    obtain ⟨hd, hlo, o1, h1, hk⟩ := hx
    refine wp_post (wp_copyuvmLoop (p := p) hsz hd _ 0 le_rfl rfl h1) ?_
    intro x s2 hx
    rw [hlo] at hx
    cases x with
    | none => exact Reaches.trans hk hx
    | some d' => exact ⟨hx.1, Reaches.trans hk hx.2⟩

/-! ## User memory -/

/-- The page behind an entry below `KERNBASE` can be written: it is a frame, or page 0. -/
theorem Inv.write_user (h : Inv D o s) (hd : d ∈ D) (hp : (s.page d i).p = true) (hlow : Low i) (x : Table) :
    Inv D o { s with page := update s.page (s.page (s.page d i).ppn j).ppn x } := by
  have ho : ∀ q, o (s.page (s.page d i).ppn j).ppn = q → q ≠ .dir ∧ ∀ d' i', q ≠ .table d' i' := by
    rintro q rfl
    rcases (h.entry d hd i hp j).1 hlow with ⟨-, ho⟩ | ⟨-, hzero⟩
    · simp [ho]
    · have hnone : o 0 = .none := by
        by_contra hne
        have := h.range 0 hne
        have := h.pos
        omega
      simp [hzero, hnone]
  refine h.write (fun hmem => (ho _ (h.dir _ hmem)).1 rfl) (fun d' hd' i' hp' heq => ?_) x
  exact (ho _ (heq ▸ h.table d' hd' i' hp')).2 d' i' rfl

theorem wp_loaduvm_go {file : ℕ → Table × Bool} (hd : d ∈ D) (hsz : addr + sz ≤ KERNBASE) (n : ℕ) :
    ∀ {s : Mem} (i : ℕ), sz - i ≤ n → Inv D o s →
    Wp (loaduvm.go d addr file sz i) (fun _ s' => Reaches D o s.lo s') Any s := by
  induction n using Nat.strong_induction_on with
  | _ n ih =>
    intro s i hn h
    unfold loaduvm.go
    by_cases hlt : i < sz
    · rw [dif_pos hlt, wp_bind]
      apply wp_walkpgdir_look
      · exact fun _ => trivial
      · intro hp
        have h1 := h.write_user (j := PTX (addr + i)) hd hp (low_of_lt (by omega)) (file i).1
        simp only [wp_bind, wp_get, setPage, wp_modify]
        split_ifs
        · exact ih (n - 1) (by omega) (i + PGSIZE) (by simp only [PGSIZE]; omega) h1
        · exact h1.reaches
    · rw [dif_neg hlt]
      exact h.reaches

theorem wp_loaduvm (h : Inv D o s) (hd : d ∈ D) (hsz : addr + sz ≤ KERNBASE)
    (file : ℕ → Table × Bool) : Wp (loaduvm d addr file sz) (fun _ s' => Reaches D o s.lo s') Any s := by
  unfold loaduvm
  split_ifs
  · trivial
  · exact wp_loaduvm_go hd hsz _ 0 le_rfl h

theorem wp_clearpteu (h : Inv D o s) (hd : d ∈ D) (uva : ℕ) :
    Wp (clearpteu d uva) (fun _ s' => Reaches D o s.lo s') Any s := by
  unfold clearpteu
  rw [wp_bind]
  apply wp_walkpgdir_look
  · exact fun _ => trivial
  · intro hp
    have he := h.entry d hd _ hp (PTX uva)
    exact (h.set_entry (e := { s.page (s.page d (PDX uva)).ppn (PTX uva) with u := false }) hd hp
      ⟨he.1, fun _ => rfl⟩).reaches

theorem wp_copyout (hd : d ∈ D) : ∀ (xs : List Table) {s : Mem} (va : ℕ), Inv D o s →
    Wp (copyout d va xs) (fun _ s' => Reaches D o s.lo s') Any s
  | [], s, _, h => h.reaches
  | x :: xs, s, va, h => by
    unfold copyout uva2ka
    rw [wp_bind, wp_bind]
    apply wp_walkpgdir_look
    · exact fun _ => trivial
    · intro hp
      simp only [wp_bind, wp_get]
      split_ifs with hpj hu
      · exact h.reaches
      · exact h.reaches
      · -- an entry for user code is below KERNBASE
        have hlow : Low (PDX (PGROUNDDOWN va)) := by
          by_contra hno
          exact hu ((h.entry d hd _ hp _).2 hno)
        exact wp_copyout hd xs _ (h.write_user hd hp hlow x)

theorem wp_inituvm (h : Inv D o s) (hd : d ∈ D) (init : Table) :
    Wp (inituvm d init) (fun _ s' => Reaches D o s.lo s') Any s := by
  unfold inituvm
  rw [wp_bind]
  refine wp_post (wp_kalloc h) ?_
  rintro x s1 ⟨hlo, hpage, hx⟩
  cases x with
  | none => trivial
  | some r =>
    obtain ⟨hr, hor, h1⟩ := hx
    have hnone : update o r .none r = .none := update_self ..
    have hu1 := h1.unused (r := r) (by simp [Owner.Outside])
    have h2 := h1.write hu1.dir hu1.table fun _ => .zero
    simp only [wp_bind, memset, setPage, wp_modify]
    refine wp_post (wp_mappages h2 hd (by decide) rfl hnone (by rw [hlo]; exact hr) true true 0) ?_
    rintro ok s3 ⟨hlo3, o3, h3, hk3, hok⟩
    have hk : Keeps o o3 := Keeps.of_frame hor rfl hk3
    -- mapped or not, the page is no directory and no table
    have hr3 : o3 r ≠ .dir ∧ ∀ d' i', o3 r ≠ .table d' i' := by
      rcases hok with hr3 | ⟨-, i, j, hr3⟩ <;> simp [hr3]
    have h4 := h3.write (fun hmem => hr3.1 (h3.dir r hmem)) (fun d' hd' i' hp' heq => ?_) init
    · exact ⟨hlo3.trans hlo, o3, h4, hk⟩
    · exact hr3.2 d' i' (heq ▸ h3.table d' hd' i' hp')

end Vm

end Xv6
