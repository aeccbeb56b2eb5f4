import Xv6.Vm.Owner

/-!
# Owners that account for every page

A labelling of the physical pages that agrees with the memory in both directions: a page is labelled with a use
exactly if it has that use. So it tells which pages the free list, the page directories in `D`, their page tables and
the frames below `KERNBASE` are, and a function that restores the labels has leaked nothing.
-/

namespace Xv6

open Function

namespace Vm

/-! ## The memory, changed in one place -/

namespace Mem

/-- The entry for `i` and `j` of page directory `d`, which is clear where there is no page table. -/
def entry (s : Mem) (d : ℕ) (i j : Fin NPDENTRIES) : Pte :=
  if (s.page d i).p then s.page (s.page d i).ppn j else .zero

/-- The memory after a call of `kalloc` that fails. -/
def tick (s : Mem) : Mem := { s with fails := fun n => s.fails (n + 1) }

/-- The memory after a call of `kalloc` that finds a page. -/
def pop (s : Mem) : Mem := { s with freelist := s.freelist.tail, fails := fun n => s.fails (n + 1) }

/-- The page that the next call of `kalloc` finds. -/
def next (s : Mem) : Option ℕ := if s.fails 0 then none else s.freelist.head?

/-- The memory with another page `q`. -/
def put (s : Mem) (q : ℕ) (x : Table) : Mem := { s with page := update s.page q x }

/-- The memory with another entry `j` in page `t`. -/
def setEntry (s : Mem) (t : ℕ) (j : Fin NPDENTRIES) (e : Pte) : Mem := s.put t (update (s.page t) j e)

/-- The memory after `kfree`. -/
def push (s : Mem) (q : ℕ) : Mem := { s.put q fun _ => .junk with freelist := q :: s.freelist }

variable (s : Mem) (q t d : ℕ) (i j : Fin NPDENTRIES) (x : Table) (e : Pte)

@[simp] theorem tick_lo : s.tick.lo = s.lo := rfl
@[simp] theorem tick_page : s.tick.page = s.page := rfl
@[simp] theorem tick_freelist : s.tick.freelist = s.freelist := rfl
@[simp] theorem tick_entry : s.tick.entry = s.entry := rfl
@[simp] theorem pop_lo : s.pop.lo = s.lo := rfl
@[simp] theorem pop_page : s.pop.page = s.page := rfl
@[simp] theorem pop_entry : s.pop.entry = s.entry := rfl
@[simp] theorem put_lo : (s.put q x).lo = s.lo := rfl
@[simp] theorem put_freelist : (s.put q x).freelist = s.freelist := rfl
@[simp] theorem put_fails : (s.put q x).fails = s.fails := rfl
@[simp] theorem put_page_self : (s.put q x).page q = x := update_self ..
@[simp] theorem setEntry_lo : (s.setEntry t j e).lo = s.lo := rfl
@[simp] theorem setEntry_freelist : (s.setEntry t j e).freelist = s.freelist := rfl
@[simp] theorem setEntry_fails : (s.setEntry t j e).fails = s.fails := rfl
@[simp] theorem push_lo : (s.push q).lo = s.lo := rfl
@[simp] theorem push_freelist : (s.push q).freelist = q :: s.freelist := rfl
@[simp] theorem push_fails : (s.push q).fails = s.fails := rfl

variable {s q t d i j}

theorem put_page_of_ne {r : ℕ} (h : r ≠ q) : (s.put q x).page r = s.page r := update_of_ne h ..

theorem setEntry_page_of_ne {r : ℕ} (h : r ≠ t) : (s.setEntry t j e).page r = s.page r := put_page_of_ne _ h

theorem setEntry_page_self (j' : Fin NPDENTRIES) :
    (s.setEntry t j e).page t j' = if j' = j then e else s.page t j' := by
  rw [setEntry, put_page_self, update_apply]

theorem push_page_of_ne {r : ℕ} (h : r ≠ q) : (s.push q).page r = s.page r := put_page_of_ne _ h

theorem entry_of_present (h : (s.page d i).p = true) : s.entry d i j = s.page (s.page d i).ppn j := if_pos h

theorem entry_of_absent (h : (s.page d i).p = false) : s.entry d i j = .zero := if_neg (by simp [h])

/-- The table of a present entry exists. -/
theorem present_of_entry (h : (s.entry d i j).p = true) : (s.page d i).p = true := by
  by_contra hno
  rw [entry, if_neg hno] at h
  exact absurd h Bool.false_ne_true

end Mem

/-! ## The labelling -/

/-- What a page is used for. -/
def Uses (D : Set ℕ) (s : Mem) (r : ℕ) : Owner → Prop
  | .free => r ∈ s.freelist
  | .dir => r ∈ D
  | .table d i => d ∈ D ∧ (s.page d i).p = true ∧ (s.page d i).ppn = r
  | .frame d i j => d ∈ D ∧ Low i ∧ (s.entry d i j).p = true ∧ (s.entry d i j).ppn = r
  | _ => False

/-- The pages that `kfree` accepts. -/
def Mem.InRange (s : Mem) (r : ℕ) : Prop := s.lo ≤ r ∧ r < PHYSTOP / PGSIZE

/-- The labelling `o` agrees with all uses of pages. -/
structure Exact (D : Set ℕ) (o : ℕ → Owner) (s : Mem) : Prop where
  pos : 0 < s.lo
  range : ∀ r, o r ≠ .none → s.InRange r
  nodup : s.freelist.Nodup
  uses : ∀ r x, ¬ x.Outside → (o r = x ↔ Uses D s r x)

variable {D : Set ℕ} {o : ℕ → Owner} {s s' : Mem} {d r t q : ℕ} {i j : Fin NPDENTRIES} {e : Pte}

namespace Exact

section

variable (h : Exact D o s)

include h

theorem free_iff : o r = .free ↔ r ∈ s.freelist := h.uses r .free id

theorem dir_iff : o r = .dir ↔ r ∈ D := h.uses r .dir id

theorem table_iff : o r = .table d i ↔ d ∈ D ∧ (s.page d i).p = true ∧ (s.page d i).ppn = r :=
  h.uses r (.table d i) id

theorem frame_iff :
    o r = .frame d i j ↔ d ∈ D ∧ Low i ∧ (s.entry d i j).p = true ∧ (s.entry d i j).ppn = r :=
  h.uses r (.frame d i j) id

theorem dir (hd : d ∈ D) : o d = .dir := h.dir_iff.mpr hd

theorem table (hd : d ∈ D) (hp : (s.page d i).p = true) : o (s.page d i).ppn = .table d i :=
  h.table_iff.mpr ⟨hd, hp, rfl⟩

theorem frame (hd : d ∈ D) (hlow : Low i) (hp : (s.entry d i j).p = true) :
    o (s.entry d i j).ppn = .frame d i j :=
  h.frame_iff.mpr ⟨hd, hlow, hp, rfl⟩

/-- The rule for a change of the memory that concerns the use of page `q` only. -/
theorem change {D' : Set ℕ} {y : Owner} (hlo : s'.lo = s.lo) (hy : y ≠ .none → s.InRange q)
    (hnodup : s'.freelist.Nodup) (hother : ∀ r, r ≠ q → ∀ x, ¬ x.Outside → (Uses D' s' r x ↔ Uses D s r x))
    (hq : ∀ x, ¬ x.Outside → (Uses D' s' q x ↔ x = y)) : Exact D' (update o q y) s' := by
  refine ⟨hlo ▸ h.pos, fun r hr => ?_, hnodup, fun r x hx => ?_⟩
  · rw [Mem.InRange, hlo]
    by_cases hrq : r = q
    · subst hrq
      exact hy (by simpa using hr)
    · exact h.range r (by simpa [hrq] using hr)
  · by_cases hrq : r = q
    · subst hrq
      rw [update_self, hq x hx]
      exact eq_comm
    · rw [update_of_ne hrq, hother r hrq x hx]
      exact h.uses r x hx

/-- The uses do not depend on pages other than directories and tables. -/
theorem same (hlo : s'.lo = s.lo) (hfree : s'.freelist = s.freelist)
    (hdir : ∀ d ∈ D, s'.page d = s.page d) (hentry : ∀ d ∈ D, ∀ i j, Low i → s'.entry d i j = s.entry d i j ∨
      (s'.entry d i j).p = (s.entry d i j).p ∧ (s'.entry d i j).ppn = (s.entry d i j).ppn) : Exact D o s' := by
  refine ⟨hlo ▸ h.pos, fun r hr => ?_, hfree ▸ h.nodup, fun r x hx => (h.uses r x hx).trans ?_⟩
  · rw [Mem.InRange, hlo]
    exact h.range r hr
  · cases x with
    | free => simp only [Uses, hfree]
    | table d i => exact and_congr_right fun hd => by rw [hdir d hd]
    | frame d i j =>
      refine and_congr_right fun hd => and_congr_right fun hlow => ?_
      rcases hentry d hd i j hlow with heq | ⟨hp, hppn⟩
      · rw [heq]
      · rw [hp, hppn]
    | _ => exact Iff.rfl

theorem tick : Exact D o s.tick := ⟨h.pos, h.range, h.nodup, h.uses⟩

/-- A page outside the uses. -/
theorem not_uses (hq : (o q).Outside) {x : Owner} (hx : ¬ x.Outside) : ¬ Uses D s q x := by
  intro huse
  rw [← (h.uses q x hx).mpr huse] at hx
  exact hx hq

/-- The next page of the free list is taken. -/
theorem pop {rs : List ℕ} (hfl : s.freelist = r :: rs) : Exact D (update o r .none) s.pop := by
  have hnodup := h.nodup
  rw [hfl, List.nodup_cons] at hnodup
  have hor : o r = .free := h.free_iff.mpr (by simp [hfl])
  have hpop : s.pop.freelist = rs := by rw [Mem.pop, hfl, List.tail_cons]
  refine h.change rfl (fun hno => absurd rfl hno) (hpop ▸ hnodup.2) (fun q hq x _ => ?_) fun x hx => ?_
  · cases x with
    | free => simp [Uses, hpop, hfl, hq]
    | _ => exact Iff.rfl
  · refine ⟨fun huse => ?_, fun heq => absurd (by rw [heq]; trivial) hx⟩
    by_cases hfree : x = .free
    · subst hfree
      rw [Uses, hpop] at huse
      exact absurd huse hnodup.1
    · -- the page had the use of the free list and no other
      have hor' : o r = x := (h.uses r x hx).mpr (by cases x <;> first | exact huse | exact absurd rfl hfree)
      exact absurd (hor'.symm.trans hor) hfree

theorem page_put (hdir : o q ≠ .dir) (hd : d ∈ D) (x : Table) : (s.put q x).page d = s.page d := by
  refine Mem.put_page_of_ne x ?_
  rintro rfl
  exact hdir (h.dir hd)

theorem entry_put (hdir : o q ≠ .dir) (htable : ∀ d i, o q ≠ .table d i) (hd : d ∈ D) (x : Table) :
    (s.put q x).entry d i j = s.entry d i j := by
  have hpage := h.page_put hdir hd x
  unfold Mem.entry
  rw [hpage]
  split
  · rename_i hp
    rw [Mem.put_page_of_ne]
    rintro rfl
    exact htable d i (h.table hd hp)
  · rfl

/-- A page that is no directory and no table can be written. -/
theorem put (hdir : o q ≠ .dir) (htable : ∀ d i, o q ≠ .table d i) (x : Table) :
    Exact D o (s.put q x) :=
  h.same rfl rfl (fun _ hd => h.page_put hdir hd x) fun _ hd _ _ _ => .inl (h.entry_put hdir htable hd x)

/-- A page that has no use goes to the free list. -/
theorem push (hq : (o q).Outside) (hr : s.InRange q) : Exact D (update o q .free) (s.push q) := by
  have hdir : o q ≠ .dir := fun ho => by rw [ho] at hq; exact hq
  have htable : ∀ d i, o q ≠ .table d i := fun d i ho => by rw [ho] at hq; exact hq
  have hnot : q ∉ s.freelist := fun hmem => h.not_uses hq (x := .free) id hmem
  have hput := h.put hdir htable fun _ => .junk
  refine hput.change rfl (fun _ => hr) (List.nodup_cons.mpr ⟨hnot, h.nodup⟩) (fun r hrq x hx => ?_) fun x hx => ?_
  · cases x with
    | free => simp [Uses, hrq]
    | _ => exact Iff.rfl
  · have hno : ∀ x, ¬ x.Outside → ¬ Uses D (s.put q fun _ => .junk) q x := fun x hx => hput.not_uses hq hx
    cases x with
    | free => simp [Uses]
    | none | kstack _ | pipe => exact absurd trivial hx
    | dir => exact ⟨fun huse => absurd huse (hno .dir id), nofun⟩
    | table d i => exact ⟨fun huse => absurd huse (hno (.table d i) id), nofun⟩
    | frame d i j => exact ⟨fun huse => absurd huse (hno (.frame d i j) id), nofun⟩

end

/-! ## Entries -/

variable {d' : ℕ} {i' : Fin NPDENTRIES} {w u : Bool} {f : BitVec 9}

section

variable (h : Exact D o s)

include h

/-- A table belongs to one entry of one directory. -/
theorem table_inj (hd : d ∈ D) (hd' : d' ∈ D)
    (hp : (s.page d i).p = true) (hp' : (s.page d' i').p = true) (heq : (s.page d' i').ppn = (s.page d i).ppn) :
    d' = d ∧ i' = i := by
  have ho := h.table hd' hp'
  rw [heq, h.table hd hp] at ho
  exact ⟨(Owner.table.inj ho).1.symm, (Owner.table.inj ho).2.symm⟩

theorem page_setEntry (hd : d ∈ D) (hd' : d' ∈ D) (hp : (s.page d i).p = true) :
    (s.setEntry (s.page d i).ppn j e).page d' = s.page d' := by
  refine Mem.setEntry_page_of_ne e ?_
  intro heq
  have ho := h.table hd hp
  rw [← heq, h.dir hd'] at ho
  nomatch ho

theorem entry_setEntry {x y : Fin NPDENTRIES} (hd : d ∈ D) (hd' : d' ∈ D)
    (hp : (s.page d i).p = true) : (s.setEntry (s.page d i).ppn j e).entry d' x y =
      if d' = d ∧ x = i ∧ y = j then e else s.entry d' x y := by
  unfold Mem.entry
  rw [h.page_setEntry hd hd' hp]
  by_cases hp' : (s.page d' x).p = true
  · rw [if_pos hp', if_pos hp']
    by_cases heq : (s.page d' x).ppn = (s.page d i).ppn
    · obtain ⟨rfl, rfl⟩ := h.table_inj hd hd' hp hp' heq
      rw [Mem.setEntry_page_self]
      simp
    · rw [Mem.setEntry_page_of_ne e heq, if_neg]
      rintro ⟨rfl, rfl, -⟩
      exact heq rfl
  · rw [if_neg hp', if_neg hp', if_neg]
    rintro ⟨rfl, rfl, -⟩
    exact hp' hp

/-- An entry above `KERNBASE` can be written. -/
theorem setKernel (hd : d ∈ D) (hp : (s.page d i).p = true) (hlow : ¬ Low i) :
    Exact D o (s.setEntry (s.page d i).ppn j e) := by
  refine h.same rfl rfl (fun d' hd' => h.page_setEntry hd hd' hp) fun d' hd' i' j' hlow' => .inl ?_
  rw [h.entry_setEntry hd hd' hp, if_neg]
  rintro ⟨-, rfl, -⟩
  exact hlow hlow'

/-- The flags of an entry can be changed. -/
theorem setFlags (hd : d ∈ D) (hp : (s.page d i).p = true) (hpe : e.p = (s.entry d i j).p)
    (hppn : e.ppn = (s.entry d i j).ppn) : Exact D o (s.setEntry (s.page d i).ppn j e) := by
  refine h.same rfl rfl (fun d' hd' => h.page_setEntry hd hd' hp) fun d' hd' i' j' hlow' => ?_
  rw [h.entry_setEntry hd hd' hp]
  split
  · rename_i heq
    obtain ⟨rfl, rfl, rfl⟩ := heq
    exact .inr ⟨hpe, hppn⟩
  · exact .inl rfl

/-- A page outside the uses becomes the frame of an entry. -/
theorem map (hd : d ∈ D) (hp : (s.page d i).p = true) (hlow : Low i)
    (habsent : (s.entry d i j).p = false) (hpe : e.p = true) (hq : (o e.ppn).Outside) (hr : s.InRange e.ppn) :
    Exact D (update o e.ppn (.frame d i j)) (s.setEntry (s.page d i).ppn j e) := by
  refine h.change rfl (fun _ => hr) h.nodup (fun r hrq x hx => ?_) fun x hx => ?_
  · cases x with
    | table d' i' => exact and_congr_right fun hd' => by rw [h.page_setEntry hd hd' hp]
    | frame d' i' j' =>
      refine and_congr_right fun hd' => and_congr_right fun hlow' => ?_
      rw [h.entry_setEntry hd hd' hp]
      split
      · rename_i heq
        obtain ⟨rfl, rfl, rfl⟩ := heq
        exact ⟨fun hu => absurd hu.2.symm hrq, fun hu => absurd (habsent.symm.trans hu.1) Bool.false_ne_true⟩
      · exact Iff.rfl
    | _ => exact Iff.rfl
  · have hno : ∀ x, ¬ x.Outside → ¬ Uses D s e.ppn x := fun x hx => h.not_uses hq hx
    cases x with
    | none | kstack _ | pipe => exact absurd trivial hx
    | free => exact ⟨fun hu => absurd hu (hno .free id), nofun⟩
    | dir => exact ⟨fun hu => absurd hu (hno .dir id), nofun⟩
    | table d' i' =>
      refine ⟨fun hu => absurd ?_ (hno (.table d' i') id), nofun⟩
      have hsame := h.page_setEntry (j := j) (e := e) hd hu.1 hp
      exact ⟨hu.1, by rw [← hsame]; exact hu.2.1, by rw [← hsame]; exact hu.2.2⟩
    | frame d' i' j' =>
      constructor
      · intro hu
        have hent := h.entry_setEntry (j := j) (e := e) (x := i') (y := j') hd hu.1 hp
        by_cases heq : d' = d ∧ i' = i ∧ j' = j
        · obtain ⟨rfl, rfl, rfl⟩ := heq
          rfl
        · rw [if_neg heq] at hent
          exact absurd ⟨hu.1, hu.2.1, hent ▸ hu.2.2.1, hent ▸ hu.2.2.2⟩ (hno (.frame d' i' j') id)
      · intro heq
        obtain ⟨rfl, rfl, rfl⟩ := Owner.frame.inj heq
        have hent := h.entry_setEntry (j := j') (e := e) (x := i') (y := j') hd hd hp
        rw [if_pos ⟨rfl, rfl, rfl⟩] at hent
        exact ⟨hd, hlow, by rw [hent]; exact hpe, by rw [hent]⟩

/-- The frame of an entry that is cleared has no use. -/
theorem unmap (hd : d ∈ D) (hlow : Low i) (hp : (s.entry d i j).p = true) :
    Exact D (update o (s.entry d i j).ppn .none) (s.setEntry (s.page d i).ppn j .zero) := by
  have hpd := Mem.present_of_entry hp
  have ho := h.frame hd hlow hp
  refine h.change rfl (fun hno => absurd rfl hno) h.nodup (fun r hrq x hx => ?_) fun x hx => ?_
  · cases x with
    | table d' i' => exact and_congr_right fun hd' => by rw [h.page_setEntry hd hd' hpd]
    | frame d' i' j' =>
      refine and_congr_right fun hd' => and_congr_right fun hlow' => ?_
      rw [h.entry_setEntry hd hd' hpd]
      split
      · rename_i heq
        obtain ⟨rfl, rfl, rfl⟩ := heq
        exact ⟨fun hu => absurd hu.1 Bool.false_ne_true, fun hu => absurd hu.2.symm hrq⟩
      · exact Iff.rfl
    | _ => exact Iff.rfl
  · -- the page was the frame of this entry and nothing else
    have hone : ∀ x, ¬ x.Outside → Uses D s (s.entry d i j).ppn x → x = .frame d i j := fun x hx hu =>
      ((h.uses _ x hx).mpr hu).symm.trans ho
    refine ⟨fun hu => ?_, fun heq => absurd (by rw [heq]; trivial) hx⟩
    cases x with
    | none | kstack _ | pipe => exact absurd trivial hx
    | free => exact absurd (hone .free id hu) nofun
    | dir => exact absurd (hone .dir id hu) nofun
    | table d' i' =>
      have hsame := h.page_setEntry (j := j) (e := .zero) hd hu.1 hpd
      exact absurd (hone (.table d' i') id ⟨hu.1, by rw [← hsame]; exact hu.2.1, by rw [← hsame]; exact hu.2.2⟩) nofun
    | frame d' i' j' =>
      have hent := h.entry_setEntry (j := j) (e := .zero) (x := i') (y := j') hd hu.1 hpd
      obtain ⟨hd', hlow', hpu, hppn⟩ := hu
      rw [hent] at hpu hppn
      by_cases heq : d' = d ∧ i' = i ∧ j' = j
      · rw [if_pos heq] at hpu
        exact absurd hpu Bool.false_ne_true
      · rw [if_neg heq] at hpu hppn
        obtain ⟨rfl, rfl, rfl⟩ := Owner.frame.inj (hone (.frame d' i' j') id ⟨hd', hlow', hpu, hppn⟩)
        exact absurd ⟨rfl, rfl, rfl⟩ heq

/-! ## Tables and directories -/

theorem entry_newTable {j' : Fin NPDENTRIES} (hd : d ∈ D)
    (hd' : d' ∈ D) (habsent : (s.page d i).p = false) (hzero : ∀ j, s.page q j = .zero) (hq : q ≠ d) :
    (s.setEntry d i ⟨q, true, w, u, f⟩).entry d' i' j' = s.entry d' i' j' := by
  have htable : ∀ d' ∈ D, ∀ i', (s.page d' i').p = true → (s.page d' i').ppn ≠ d := by
    intro d' hd' i' hp heq
    have ho := h.table hd' hp
    rw [heq, h.dir hd] at ho
    nomatch ho
  unfold Mem.entry
  by_cases hdd : d' = d
  · subst hdd
    rw [Mem.setEntry_page_self]
    by_cases hi : i' = i
    · subst hi
      rw [if_pos rfl, if_pos rfl, if_neg (by simp [habsent]), Mem.setEntry_page_of_ne _ hq, hzero]
    · rw [if_neg hi]
      split
      · rename_i hp
        rw [Mem.setEntry_page_of_ne _ (htable d' hd i' hp)]
      · rfl
  · rw [Mem.setEntry_page_of_ne _ hdd]
    split
    · rename_i hp
      rw [Mem.setEntry_page_of_ne _ (htable d' hd' i' hp)]
    · rfl

/-- An empty page outside the uses becomes a page table. -/
theorem newTable (hd : d ∈ D) (habsent : (s.page d i).p = false)
    (hzero : ∀ j, s.page q j = .zero) (hq : (o q).Outside) (hr : s.InRange q) :
    Exact D (update o q (.table d i)) (s.setEntry d i ⟨q, true, w, u, f⟩) := by
  have hqd : q ≠ d := by
    rintro rfl
    rw [h.dir hd] at hq
    exact hq
  have hent : ∀ d' ∈ D, ∀ i' j', (s.setEntry d i ⟨q, true, w, u, f⟩).entry d' i' j' = s.entry d' i' j' :=
    fun d' hd' i' j' => h.entry_newTable hd hd' habsent hzero hqd
  have hpage : ∀ d' i', (s.setEntry d i ⟨q, true, w, u, f⟩).page d' i' =
      if d' = d ∧ i' = i then ⟨q, true, w, u, f⟩ else s.page d' i' := by
    intro d' i'
    by_cases hdd : d' = d
    · subst hdd
      rw [Mem.setEntry_page_self]
      simp
    · rw [Mem.setEntry_page_of_ne _ hdd, if_neg fun hand => hdd hand.1]
  refine h.change rfl (fun _ => hr) h.nodup (fun r hrq x hx => ?_) fun x hx => ?_
  · cases x with
    | table d' i' =>
      refine and_congr_right fun hd' => ?_
      rw [hpage]
      split
      · rename_i heq
        obtain ⟨rfl, rfl⟩ := heq
        exact ⟨fun hu => absurd hu.2.symm hrq, fun hu => absurd (habsent.symm.trans hu.1) Bool.false_ne_true⟩
      · exact Iff.rfl
    | frame d' i' j' => exact and_congr_right fun hd' => by rw [hent d' hd']
    | _ => exact Iff.rfl
  · have hno : ∀ x, ¬ x.Outside → ¬ Uses D s q x := fun x hx => h.not_uses hq hx
    cases x with
    | none | kstack _ | pipe => exact absurd trivial hx
    | free => exact ⟨fun hu => absurd hu (hno .free id), nofun⟩
    | dir => exact ⟨fun hu => absurd hu (hno .dir id), nofun⟩
    | table d' i' =>
      constructor
      · rintro ⟨hd', hp, hppn⟩
        rw [hpage] at hp hppn
        by_cases heq : d' = d ∧ i' = i
        · rw [heq.1, heq.2]
        · rw [if_neg heq] at hp hppn
          exact absurd ⟨hd', hp, hppn⟩ (hno (.table d' i') id)
      · intro heq
        obtain ⟨rfl, rfl⟩ := Owner.table.inj heq
        exact ⟨hd, by rw [hpage, if_pos ⟨rfl, rfl⟩], by rw [hpage, if_pos ⟨rfl, rfl⟩]⟩
    | frame d' i' j' =>
      refine ⟨fun hu => absurd ?_ (hno (.frame d' i' j') id), nofun⟩
      exact ⟨hu.1, hu.2.1, hent d' hu.1 i' j' ▸ hu.2.2.1, hent d' hu.1 i' j' ▸ hu.2.2.2⟩

/-- An empty page outside the uses becomes a page directory. -/
theorem newDir (hzero : ∀ i, s.page q i = .zero) (hq : (o q).Outside) (hr : s.InRange q) :
    Exact (insert q D) (update o q .dir) s := by
  have hnew : ∀ i, (s.page q i).p = false := fun i => by rw [hzero i]; rfl
  have hno : ∀ x, ¬ x.Outside → ¬ Uses D s q x := fun x hx => h.not_uses hq hx
  have hent : ∀ i j, (s.entry q i j).p = false := fun i j => by rw [Mem.entry_of_absent (hnew i)]; rfl
  refine h.change rfl (fun _ => hr) h.nodup (fun r hrq x hx => ?_) fun x hx => ?_
  · cases x with
    | dir => simp [Uses, hrq]
    | table d' i' =>
      refine ⟨fun hu => ⟨hu.1.resolve_left ?_, hu.2⟩, fun hu => ⟨.inr hu.1, hu.2⟩⟩
      rintro rfl
      exact absurd ((hnew i').symm.trans hu.2.1) Bool.false_ne_true
    | frame d' i' j' =>
      refine ⟨fun hu => ⟨hu.1.resolve_left ?_, hu.2⟩, fun hu => ⟨.inr hu.1, hu.2⟩⟩
      rintro rfl
      exact absurd ((hent i' j').symm.trans hu.2.2.1) Bool.false_ne_true
    | _ => exact Iff.rfl
  · cases x with
    | none | kstack _ | pipe => exact absurd trivial hx
    | free => exact ⟨fun hu => absurd hu (hno .free id), nofun⟩
    | dir => simp [Uses]
    | table d' i' =>
      refine ⟨fun hu => absurd ⟨hu.1.resolve_left ?_, hu.2⟩ (hno (.table d' i') id), nofun⟩
      rintro rfl
      exact absurd ((hnew i').symm.trans hu.2.1) Bool.false_ne_true
    | frame d' i' j' =>
      refine ⟨fun hu => absurd ⟨hu.1.resolve_left ?_, hu.2⟩ (hno (.frame d' i' j') id), nofun⟩
      rintro rfl
      exact absurd ((hent i' j').symm.trans hu.2.2.1) Bool.false_ne_true

end

/-- The labels once directory `d` is no longer considered: it and its tables have no use. -/
def dropped (o : ℕ → Owner) (d r : ℕ) : Owner :=
  match o r with
  | .dir => if r = d then .none else .dir
  | .table d' i => if d' = d then .none else .table d' i
  | x => x

theorem drop (h : Exact D o s) (hframes : ∀ i j, Low i → (s.entry d i j).p = false) :
    Exact (D \ {d}) (dropped o d) s := by
  refine ⟨h.pos, fun r hr => h.range r fun hno => hr (by rw [dropped, hno]), h.nodup, fun r x hx => ?_⟩
  have huses := h.uses r x hx
  unfold dropped
  cases x with
  | none | kstack _ | pipe => exact absurd trivial hx
  | free =>
    rw [← (show o r = .free ↔ Uses (D \ {d}) s r .free from huses)]
    split <;> (try split) <;> simp_all
  | dir =>
    rw [show Uses (D \ {d}) s r .dir ↔ Uses D s r .dir ∧ r ≠ d from Iff.rfl, ← huses]
    split <;> (try split) <;> simp_all
  | table d' i =>
    rw [show Uses (D \ {d}) s r (.table d' i) ↔ Uses D s r (.table d' i) ∧ d' ≠ d from
      ⟨fun hu => ⟨⟨hu.1.1, hu.2⟩, hu.1.2⟩, fun hu => ⟨⟨hu.1.1, hu.2⟩, hu.1.2⟩⟩, ← huses]
    split <;> (try split) <;> simp_all <;> grind
  | frame d' i j =>
    have hne : Uses D s r (.frame d' i j) → d' ≠ d := by
      rintro ⟨-, hlow, hp, -⟩ rfl
      exact absurd ((hframes i j hlow).symm.trans hp) Bool.false_ne_true
    rw [show Uses (D \ {d}) s r (.frame d' i j) ↔ Uses D s r (.frame d' i j) from
      ⟨fun hu => ⟨hu.1.1, hu.2⟩, fun hu => ⟨⟨hu.1, hne hu⟩, hu.2⟩⟩, ← huses]
    split <;> (try split) <;> simp_all

end Exact

end Vm

end Xv6
