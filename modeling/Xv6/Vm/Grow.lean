import Xv6.Vm.Setup
import Xv6.Vm.Calls

/-!
# `allocuvm` and `growproc`, exactly

The loops of `allocuvm` and `copyuvm` map one page after the other. What they have done after some rounds is one
relation, with the entries and the contents of the new pages as parameters. If `allocuvm` runs out of memory, the
pages that it has mapped are unmapped again; page tables stay.
-/

namespace Xv6

open Function

namespace Vm

open Code

variable {D : Set ℕ} {o o' o'' : ℕ → Owner} {s s' s'' : Mem} {d r q a a0 : ℕ} {i j : Fin NPDENTRIES}
  {E : Panic → Mem → Prop} {mk : Fin NPDENTRIES → Fin NPDENTRIES → ℕ → Pte} {fill : Fin NPDENTRIES → Fin NPDENTRIES → Table}

/-! ## Mapping new pages in a row -/

/-- The pages in `[a0, a)` of directory `d` have been mapped to pages of the free list: that for `i` and `j` by the entry
`mk i j` and with the contents `fill i j`. -/
structure Grown (D : Set ℕ) (d a0 a : ℕ) (mk : Fin NPDENTRIES → Fin NPDENTRIES → ℕ → Pte)
    (fill : Fin NPDENTRIES → Fin NPDENTRIES → Table) (o : ℕ → Owner) (s : Mem) (o' : ℕ → Owner) (s' : Mem) : Prop where
  built : Built D d o s o' s'
  new : ∀ i j, a0 ≤ addr i j → addr i j < a → ∃ r, s'.entry d i j = mk i j r ∧ o r = .free ∧ o' r = .frame d i j ∧
    s'.page r = fill i j
  old : ∀ d' ∈ D, ∀ i j, (d' = d → addr i j < a0 ∨ a ≤ addr i j) → s'.entry d' i j = s.entry d' i j
  page : ∀ q, o q ≠ .free → q ≠ d → (∀ i, o q ≠ .table d i) → s'.page q = s.page q
  tables : ∀ i, i ∈ tabs s' d ↔ i ∈ tabs s d ∨ ∃ j, a0 ≤ addr i j ∧ addr i j < a

theorem Grown.refl (h : Exact D o s) : Grown D d a a mk fill o s o s := by
  refine ⟨Built.refl h, fun i j hle hlt => by omega, fun _ _ _ _ _ => rfl, fun _ _ _ _ => rfl, fun i => ⟨.inl, ?_⟩⟩
  rintro (hi | ⟨j, hle, hlt⟩)
  · exact hi
  · omega

/-- A page that is still free was free before. -/
theorem Built.free (h : Built D d o s o' s') (hq : o' q = .free) : o q = .free := by
  rcases h.owner q with heq | ⟨hfree, -⟩
  · exact heq.symm.trans hq
  · exact hfree

theorem Built.keep (h : Built D d o s o' s') (hq : o q ≠ .free) : o' q = o q :=
  (h.owner q).resolve_right fun hand => hq hand.1

/-- The next page is mapped, or its page table is missing. -/
theorem Grown.wp_step {Q : Bool → Mem → Prop} {w u : Bool} {f : BitVec 9} (hg : Grown D d a0 a mk fill o s o' s')
    (hd : d ∈ D) (ha : a % PGSIZE = 0) (hlow : a < KERNBASE) (ha0 : a0 ≤ a) (habsent : (s.pte d a).p = false)
    (hnext : s'.next = some r) (hmk : mk (PDX a) (PTX a) r = ⟨r, true, w, u, f⟩)
    (hfail : PDX a ∉ tabs s' d → (s'.pop.put r (fill (PDX a) (PTX a))).next = none →
      Q false (s'.pop.put r (fill (PDX a) (PTX a))).tick)
    (hok : ∀ o'' s'', Grown D d a0 (a + PGSIZE) mk fill o s o'' s'' →
      Calls (1 + if PDX a ∈ tabs s' d then 0 else 1) s' s'' → Q true s'') :
    Wp (mappages d a PGSIZE (r * PGSIZE) w u f) Q E (s'.pop.put r (fill (PDX a) (PTX a))) := by
  set t := s'.pop.put r (fill (PDX a) (PTX a))
  have h32 : a < 2 ^ 32 := Nat.lt_trans hlow (by decide)
  have haddr := addr_index ha h32
  obtain ⟨h1, hor', hrange⟩ := hg.built.exact.take hnext
  have hor := hg.built.free hor'
  have hrd : r ≠ d := by
    rintro rfl
    exact absurd (hor'.symm.trans (hg.built.exact.dir hd)) (by simp)
  have h2 : Exact D (update o' r .none) t := h1.put (by simp) (by simp) _
  have hentry : ∀ d' ∈ D, ∀ i j, t.entry d' i j = s'.entry d' i j :=
    fun d' hd' i j => h1.entry_put (by simp) (by simp) hd' _
  have hdir : t.page d = s'.page d := Mem.put_page_of_ne _ hrd.symm
  have htabs : tabs t d = tabs s' d := by
    ext i
    rw [mem_tabs, mem_tabs, hdir]
  have hno : (t.pte d a).p = false := by
    rw [Mem.pte, hentry d hd, hg.old d hd _ _ fun _ => .inr haddr.ge]
    exact habsent
  refine wp_mappages_user h2 hd ha hlow hno (update_self ..) hrange (fun hp hnext' => ?_)
    fun o'' s'' hm hframe => ?_
  · refine hfail ?_ hnext'
    rw [← htabs, mem_tabs, hp]
    exact Bool.false_ne_true
  · have hupd : ∀ q, q ≠ r → update o' r .none q = o' q := fun q hq => update_of_ne hq ..
    have hown : ∀ q, q ≠ r → o'' q = o' q ∨ o' q = .free ∧ o'' q = .table d (PDX a) := by
      intro q hq
      have ho := hm.owner q
      rw [hupd q hq] at ho
      rcases ho with heq | hfree | ⟨-, heq, -⟩
      · exact .inl heq
      · exact .inr hfree
      · exact absurd heq hq
    have hpg : ∀ q, q ≠ r → q ≠ d → o' q ≠ .free → (∀ i, o' q ≠ .table d i) → s''.page q = s'.page q := by
      intro q hq hqd hfree htable
      rw [hm.page q hqd (by rw [hupd q hq]; exact hfree) (by rw [hupd q hq]; exact htable _)]
      exact Mem.put_page_of_ne _ hq
    have hne : ∀ q, o q ≠ .free → q ≠ r := by
      rintro q hq rfl
      exact hq hor
    have hexact : Built D d o s o'' s'' := by
      refine ⟨hm.exact, hm.lo.trans hg.built.lo, fun q => ?_, fun q hq hof => ?_⟩
      · by_cases hqr : q = r
        · subst hqr
          exact .inr ⟨hor, by rw [hframe]; rfl⟩
        · rcases hown q hqr with heq | ⟨hfree, htable⟩
          · rw [heq]
            exact hg.built.owner q
          · exact .inr ⟨hg.built.free hfree, by rw [htable]; rfl⟩
      · have hkeep := hg.built.keep hq
        rw [hpg q (hne q hq) ?_ (hkeep ▸ hq) fun i ho => hof (by rw [← hkeep, ho]; rfl), hg.built.page q hq hof]
        rintro rfl
        exact hof (by rw [← hkeep, hg.built.exact.dir hd]; rfl)
    refine hok o'' s'' ⟨hexact, fun i j hle hlt => ?_, fun d' hd' i j hout => ?_, fun q hq hqd htable => ?_, fun i => ?_⟩ ?_
    · by_cases hij : addr i j = a
      · obtain ⟨rfl, rfl⟩ := (index_iff ha h32).mpr hij
        refine ⟨r, ?_, hor, hframe, ?_⟩
        · rw [hm.entry d hd, if_pos ⟨rfl, rfl, rfl⟩, hmk]
        · rw [hm.page r hrd (by simp) (by simp), Mem.put_page_self]
      · have hlt' : addr i j < a := by
          have hmod := addr_mod i j
          simp only [PGSIZE] at *
          omega
        obtain ⟨r', hent, hfree, hfr, hfill⟩ := hg.new i j hle hlt'
        have hr'r : r' ≠ r := by
          rintro rfl
          exact absurd (hor'.symm.trans hfr) (by simp)
        refine ⟨r', ?_, hfree, ?_, ?_⟩
        · rw [hm.entry d hd, if_neg fun hand => hij ((index_iff ha h32).mp hand.2), hentry d hd, hent]
        · rcases hown r' hr'r with heq | ⟨hfree', -⟩
          · rw [heq, hfr]
          · exact absurd (hfr.symm.trans hfree') (by simp)
        · rw [hpg r' hr'r ?_ (by simp [hfr]) (by simp [hfr]), hfill]
          rintro rfl
          exact absurd (hfr.symm.trans (hg.built.exact.dir hd)) (by simp)
    · have hneq : ¬ (d' = d ∧ i = PDX a ∧ j = PTX a) := by
        rintro ⟨rfl, hij⟩
        have heq := (index_iff ha h32).mp hij
        have hPG : 0 < PGSIZE := by decide
        rcases hout rfl with hlt | hge <;> omega
      rw [hm.entry d' hd', if_neg hneq, hentry d' hd', hg.old d' hd' i j fun hdd => ?_]
      exact (hout hdd).imp_right fun hge => by omega
    · have hkeep := hg.built.keep hq
      rw [hpg q (hne q hq) hqd (hkeep ▸ hq) (by rw [hkeep]; exact htable), hg.page q hq hqd htable]
    · rw [hm.mem_tabs_iff, htabs, hg.tables, or_assoc]
      refine or_congr_right ⟨?_, ?_⟩
      · rintro (⟨j, hle, hlt⟩ | rfl)
        · exact ⟨j, hle, by omega⟩
        · refine ⟨PTX a, ?_⟩
          rw [haddr]
          exact ⟨ha0, Nat.lt_add_of_pos_right (by decide)⟩
      · rintro ⟨j, hle, hlt⟩
        by_cases hij : addr i j = a
        · exact .inr ((index_iff ha h32).mpr hij).1
        · refine .inl ⟨j, hle, ?_⟩
          have hmod := addr_mod i j
          simp only [PGSIZE] at *
          omega
    · have hcalls := ((Calls.pop hnext).congr (t := t) rfl rfl).trans hm.calls
      have hif : (if (t.page d (PDX a)).p = true then 0 else 1) =
          if PDX a ∈ tabs s' d then 0 else 1 := if_congr (by rw [← htabs, mem_tabs]) rfl rfl
      rwa [hif] at hcalls

/-! ## Running out of memory -/

/-- The same memory, except for a page of the free list that the caller may have. -/
structure Held (D : Set ℕ) (o : ℕ → Owner) (s : Mem) (o' : ℕ → Owner) (s' : Mem) : Prop where
  exact : Exact D o' s'
  lo : s'.lo = s.lo
  entry : ∀ d ∈ D, ∀ i j, s'.entry d i j = s.entry d i j
  owner : ∀ q, o' q = o q ∨ o q = .free ∧ o' q = .none
  page : ∀ q, o q ≠ .free → s'.page q = s.page q

theorem Held.tick (h : Exact D o s) : Held D o s o s.tick :=
  ⟨h.tick, rfl, fun _ _ _ _ => rfl, fun _ => .inl rfl, fun _ _ => rfl⟩

/-- A page has been taken and filled. -/
theorem Held.take (h : Exact D o s) (hnext : s.next = some r) (x : Table) :
    Held D o s (update o r .none) (s.pop.put r x).tick := by
  obtain ⟨h1, hor, -⟩ := h.take hnext
  refine ⟨(h1.put (by simp) (by simp) x).tick, rfl, fun d hd i j => h1.entry_put (by simp) (by simp) hd x, fun q => ?_,
    fun q hq => ?_⟩
  · by_cases hqr : q = r
    · subst hqr
      exact .inr ⟨hor, update_self ..⟩
    · exact .inl (update_of_ne hqr ..)
  · refine Mem.put_page_of_ne x ?_
    rintro rfl
    exact hq hor

/-- The pages mapped by directory `d` are those of before, and the others have their owners, except that there may be
new page tables and a page that the caller has. -/
structure Undone (D : Set ℕ) (d : ℕ) (o : ℕ → Owner) (s : Mem) (o' : ℕ → Owner) (s' : Mem) : Prop where
  exact : Exact D o' s'
  lo : s'.lo = s.lo
  owner : ∀ q, o' q = o q ∨ o q = .free ∧ (o' q = .none ∨ ∃ i, o' q = .table d i)
  entry : ∀ d' ∈ D, ∀ i j, (s'.entry d' i j).p = (s.entry d' i j).p ∧
    ((s.entry d' i j).p = true → s'.entry d' i j = s.entry d' i j)
  page : ∀ q, o q ≠ .free → q ≠ d → (∀ i, o q ≠ .table d i) → s'.page q = s.page q

theorem Grown.undo {o1 o2 o3 : ℕ → Owner} {s1 s2 s3 : Mem} {hi : ℕ} (hg : Grown D d a0 a mk fill o s o1 s1)
    (hh : Held D o1 s1 o2 s2) (hc : Cleared D d hi a0 o2 s2 o3 s3) (h0 : Exact D o s) (hd : d ∈ D) (ha : a ≤ hi)
    (habsent : ∀ i j, a0 ≤ addr i j → addr i j < hi → (s.entry d i j).p = false) : Undone D d o s o3 s3 := by
  -- the frames in the range are the new ones
  have hframe : ∀ q i j, o q = .frame d i j → ¬ (a0 ≤ addr i j ∧ addr i j < hi) := by
    rintro q i j ho ⟨hle, hlt⟩
    exact absurd ((habsent i j hle hlt).symm.trans (h0.frame_iff.mp ho).2.2.1) Bool.false_ne_true
  have hnew : ∀ q i j, o1 q = .frame d i j → o q = .free → a0 ≤ addr i j ∧ addr i j < a := by
    intro q i j ho hfree
    by_contra hout
    have hfr := hg.built.exact.frame_iff.mp ho
    rw [hg.old d hd i j fun _ => by omega] at hfr
    exact absurd (hfree.symm.trans (h0.frame_iff.mpr hfr)) nofun
  have hentry : ∀ d' ∈ D, ∀ i j, (d' = d → addr i j < a0 ∨ hi ≤ addr i j) → s3.entry d' i j = s.entry d' i j := by
    intro d' hd' i j hout
    rw [hc.entry d' hd', if_neg, hh.entry d' hd', hg.old d' hd' i j fun hdd => (hout hdd).imp_right fun hge => by omega]
    rintro ⟨rfl, ⟨hle, hlt⟩, -⟩
    rcases hout rfl with hlt' | hge <;> omega
  refine ⟨hc.exact, hc.lo.trans (hh.lo.trans hg.built.lo), fun q => ?_, fun d' hd' i j => ?_, fun q hq hqd htable => ?_⟩
  · rcases hh.owner q with h2 | ⟨hfree, hnone⟩
    · by_cases hin : ∃ i j, o2 q = .frame d i j ∧ a0 ≤ addr i j ∧ addr i j < hi
      · obtain ⟨i, j, ho, hle, hlt⟩ := hin
        refine .inl ?_
        rw [hc.freed q i j ho hle hlt]
        rcases hg.built.owner q with heq | ⟨hfree, -⟩
        · exact absurd ⟨hle, hlt⟩ (hframe q i j (heq.symm.trans (h2.symm.trans ho)))
        · exact hfree.symm
      · rw [hc.kept q fun i j ho hand => hin ⟨i, j, ho, hand⟩, h2]
        rcases hg.built.owner q with heq | ⟨hfree, hof⟩
        · exact .inl heq
        · cases ho : o1 q with
          | dir =>
            rw [ho] at hof
            obtain rfl : q = d := hof
            exact absurd (hfree.symm.trans (h0.dir hd)) nofun
          | table d' i =>
            rw [ho] at hof
            obtain rfl : d' = d := hof
            exact .inr ⟨hfree, .inr ⟨i, rfl⟩⟩
          | frame d' i j =>
            rw [ho] at hof
            obtain rfl : d' = d := hof
            have hrange := hnew q i j ho hfree
            exact absurd ⟨i, j, h2.trans ho, hrange.1, by omega⟩ hin
          | _ =>
            rw [ho] at hof
            exact absurd hof id
    · rw [hc.kept q (by rw [hnone]; exact nofun)]
      exact .inr ⟨hg.built.free hfree, .inl hnone⟩
  · by_cases hin : d' = d ∧ a0 ≤ addr i j ∧ addr i j < hi
    · obtain ⟨rfl, hle, hlt⟩ := hin
      have hno := habsent i j hle hlt
      refine ⟨?_, fun hp => absurd (hno.symm.trans hp) Bool.false_ne_true⟩
      rw [hno, hc.entry d' hd']
      by_cases hp : (s2.entry d' i j).p = true
      · rw [if_pos ⟨rfl, ⟨hle, hlt⟩, hp⟩]
        rfl
      · rw [if_neg fun hand => hp hand.2.2]
        simpa using hp
    · have hsame := hentry d' hd' i j fun hdd => by
        by_contra hno
        exact hin ⟨hdd, by omega, by omega⟩
      exact ⟨by rw [hsame], fun _ => hsame⟩
  · have h1 := hg.built.keep hq
    have h2 : o2 q = o q := by
      rcases hh.owner q with heq | ⟨hfree, -⟩
      · exact heq.trans h1
      · exact absurd (h1.symm.trans hfree) hq
    have h3 : o3 q = o2 q := hc.kept q fun i j ho => hframe q i j (h2.symm.trans ho)
    rw [hc.page q (by rw [h2]; exact htable) h3, hh.page q (by rw [h1]; exact hq), hg.page q hq hqd htable]

/-- The page that the caller had goes back. -/
theorem Undone.push (h : Undone D d o s o' s') (hr : o' r = .none) (hfree : o r = .free) (hrange : s'.InRange r) :
    Undone D d o s (update o' r .free) (s'.push r) := by
  refine ⟨h.exact.push (by rw [hr]; trivial) hrange, h.lo, fun q => ?_, fun d' hd' i j => ?_, fun q hq hqd htable => ?_⟩
  · by_cases hqr : q = r
    · subst hqr
      exact .inl ((update_self ..).trans hfree.symm)
    · rw [update_of_ne hqr]
      exact h.owner q
  · have hput : (s'.push r).entry d' i j = s'.entry d' i j := h.exact.entry_put (by simp [hr]) (by simp [hr]) hd' _
    rw [hput]
    exact h.entry d' hd' i j
  · rw [Mem.push_page_of_ne, h.page q hq hqd htable]
    rintro rfl
    exact hq hfree

/-! ## `allocuvm` -/

/-- The entry of a new page of user memory. -/
def userPte (_ _ : Fin NPDENTRIES) (r : ℕ) : Pte := ⟨r, true, true, true, 0⟩

/-- A new page of user memory. -/
def zeroPage (_ _ : Fin NPDENTRIES) : Table := fun _ => .zero

variable {oldsz newsz c : ℕ}

/-- The first page past the loop. -/
theorem eq_PGROUNDUP (hsize : oldsz ≤ newsz) (ha : a % PGSIZE = 0) (hle : newsz ≤ a)
    (hb : a = PGROUNDUP oldsz ∨ a < newsz + PGSIZE) : a = PGROUNDUP newsz := by
  simp only [PGROUNDUP, PGSIZE] at *
  omega

/-- Each page needs one call of `kalloc`, and perhaps one for its page table. -/
theorem calls_succ (h : c ≤ 2 * (a / PGSIZE)) {P : Prop} [Decidable P] :
    c + (1 + if P then 0 else 1) ≤ 2 * ((a + PGSIZE) / PGSIZE) := by
  rw [Nat.add_div_right _ (by decide)]
  split_ifs <;> omega

theorem calls_lt (hlt : a < newsz) (h : c ≤ 2 * (a / PGSIZE)) : c < 2 * (PGROUNDUP newsz / PGSIZE) := by
  simp only [PGROUNDUP, PGSIZE] at *
  omega

theorem calls_lt' (hlt : a < newsz) (h : c ≤ 2 * (a / PGSIZE)) : c + 1 < 2 * (PGROUNDUP newsz / PGSIZE) := by
  simp only [PGROUNDUP, PGSIZE] at *
  omega

/-- Clearing a range leaves no page without an owner. -/
theorem Cleared.none {hi : ℕ} (hc : Cleared D d hi a o s o' s') (hno : o' q = .none) : o q = .none := by
  by_cases hin : ∃ i j, o q = .frame d i j ∧ a ≤ addr i j ∧ addr i j < hi
  · obtain ⟨i, j, ho, hle, hlt⟩ := hin
    exact absurd ((hc.freed q i j ho hle hlt).symm.trans hno) (by simp)
  · rwa [hc.kept q fun i j ho hand => hin ⟨i, j, ho, hand⟩] at hno

theorem wp_allocuvmLoop_exact (h0 : Exact D o s) (hd : d ∈ D) (hsz : newsz < KERNBASE)
    (habsent : ∀ i j, PGROUNDUP oldsz ≤ addr i j → addr i j < newsz → (s.entry d i j).p = false)
    {Q : ℕ → Mem → Prop} (hfail : ∀ o' s', Undone D d o s o' s' → (∀ q, o q = .free → o' q ≠ .none) →
      (∃ m, m < 2 * (PGROUNDUP newsz / PGSIZE) ∧ s.FailsAt m) → Q 0 s')
    (hok : ∀ o' s', Grown D d (PGROUNDUP oldsz) (PGROUNDUP newsz) userPte zeroPage o s o' s' → Q newsz s')
    (hsize : oldsz ≤ newsz) (n : ℕ) :
    ∀ {s' : Mem} {o' : ℕ → Owner} (a : ℕ), newsz - a ≤ n → a % PGSIZE = 0 → PGROUNDUP oldsz ≤ a →
    (a = PGROUNDUP oldsz ∨ a < newsz + PGSIZE) → Grown D d (PGROUNDUP oldsz) a userPte zeroPage o s o' s' →
    (∃ c, c ≤ 2 * (a / PGSIZE) ∧ Calls c s s') → Wp (allocuvmLoop d oldsz newsz a) Q E s' := by
  induction n using Nat.strong_induction_on with
  | _ n ih =>
    intro s' o' a hn ha ha0 hb hg hcount
    obtain ⟨c, hc2, hcalls⟩ := hcount
    unfold allocuvmLoop
    by_cases hlt : a < newsz
    · rw [dif_pos hlt, wp_bind]
      have hfree : ∀ q, o q = .free → o' q ≠ .none := by
        intro q hq hno
        rcases hg.built.owner q with heq | ⟨-, hof⟩
        · exact absurd (hno.symm.trans (heq.trans hq)) (by simp)
        · rw [hno] at hof
          exact hof
      refine wp_kalloc_exact (fun hnext => ?_) fun r hnext => ?_
      · rw [wp_bind]
        have hh := Held.tick hg.built.exact
        refine wp_deallocuvm_exact hh.exact hd hsz.le oldsz fun o3 s3 hc => ?_
        refine hfail o3 s3 (hg.undo hh hc h0 hd hlt.le habsent) (fun q hq hno => ?_)
          ⟨c, calls_lt hlt hc2, (hcalls.firstFails hnext).1⟩
        exact hfree q hq (hc.none hno)
      · obtain ⟨-, hor', hrange⟩ := hg.built.exact.take hnext
        have hor := hg.built.free hor'
        have hpa : (s.pte d a).p = false := by
          have haddr := addr_index ha (Nat.lt_trans (Nat.lt_trans hlt hsz) (by decide))
          exact habsent _ _ (by rw [haddr]; exact ha0) (by rw [haddr]; exact hlt)
        rw [wp_bind, wp_memset, wp_bind]
        refine hg.wp_step (w := true) (u := true) (f := 0) hd ha (Nat.lt_trans hlt hsz) ha0 hpa hnext rfl
          (fun _ hnext' => ?_) fun o'' s'' hg' hcalls' => ?_
        · -- the page that could not be mapped is freed after the others
          simp only [Bool.false_eq_true, if_false, wp_bind]
          have hh := Held.take hg.built.exact hnext (zeroPage (PDX a) (PTX a))
          refine wp_deallocuvm_exact hh.exact hd hsz.le oldsz fun o3 s3 hc => ?_
          have hundo := hg.undo hh hc h0 hd hlt.le habsent
          have hnone : o3 r = .none := by
            rw [hc.kept r (by rw [update_self]; simp), update_self]
          have hrange3 : s3.InRange r := by
            rw [Mem.InRange, hc.lo, hh.lo]
            exact hrange
          have hcalls' := hcalls.trans ((Calls.pop hnext).congr (t := s'.pop.put r (zeroPage (PDX a) (PTX a))) rfl rfl)
          refine wp_kfree_exact hrange3 (hfail _ _ (hundo.push hnone hor hrange3) (fun q hq hno => ?_)
            ⟨c + 1, calls_lt' hlt hc2, (hcalls'.firstFails hnext').1⟩)
          by_cases hqr : q = r
          · subst hqr
            rw [update_self] at hno
            cases hno
          · rw [update_of_ne hqr] at hno
            have hno' := hc.none hno
            rw [update_of_ne hqr] at hno'
            exact hfree q hq hno'
        · simp only [if_true]
          exact ih (n - 1) (by omega) (a + PGSIZE) (by simp only [PGSIZE]; omega) (by rw [Nat.add_mod_right, ha])
            (by omega) (.inr (by omega)) hg' ⟨_, calls_succ hc2, hcalls.trans hcalls'⟩
    · rw [dif_neg hlt]
      rw [eq_PGROUNDUP hsize ha (by omega) hb] at hg
      exact hok o' s' hg

/-- `allocuvm` for a range that has no pages: it maps the range to empty pages, or undoes what it has done. -/
theorem wp_allocuvm_exact (h0 : Exact D o s) (hd : d ∈ D) (hle : oldsz ≤ newsz)
    (habsent : newsz < KERNBASE → ∀ i j, PGROUNDUP oldsz ≤ addr i j → addr i j < newsz → (s.entry d i j).p = false)
    {Q : ℕ → Mem → Prop} (hfail : ∀ o' s', Undone D d o s o' s' → (∀ q, o q = .free → o' q ≠ .none) →
      (newsz < KERNBASE → ∃ m, m < 2 * (PGROUNDUP newsz / PGSIZE) ∧ s.FailsAt m) → Q 0 s')
    (hok : ∀ o' s', newsz < KERNBASE →
      Grown D d (PGROUNDUP oldsz) (PGROUNDUP newsz) userPte zeroPage o s o' s' → Q newsz s') :
    Wp (allocuvm d oldsz newsz) Q E s := by
  unfold allocuvm
  by_cases hbig : KERNBASE ≤ newsz
  · rw [if_pos hbig]
    refine hfail o s ⟨h0, rfl, fun _ => .inl rfl, fun _ _ _ _ => ⟨rfl, fun _ => rfl⟩, fun _ _ _ _ => rfl⟩
      (fun q hq hno => ?_) fun hlt => absurd hlt (by omega)
    exact absurd (hno.symm.trans hq) nofun
  · rw [if_neg hbig, if_neg (by omega)]
    exact wp_allocuvmLoop_exact h0 hd (by omega) (habsent (by omega))
      (fun o' s' hu hlost hcount => hfail o' s' hu hlost fun _ => hcount) (fun o' s' => hok o' s' (by omega)) hle _ _
      le_rfl (PGROUNDUP_mod oldsz) le_rfl (.inl rfl) (Grown.refl h0) ⟨0, Nat.zero_le _, Calls.refl s⟩

end Vm

end Xv6
