import Mathlib.Data.Finset.Card
import Mathlib.Data.Fintype.Basic
import Xv6.Vm.Exact
import Xv6.Vm.Functions

/-!
# `kalloc`, `walkpgdir` and `mappages`, exactly

What these functions do to a memory whose pages are all accounted for: which entries change, which pages change
hands, and how many calls of `kalloc` succeed before one fails.
-/

namespace Xv6

open Function List

namespace Vm

open Code

variable {D : Set ℕ} {o o' : ℕ → Owner} {s s' s'' : Mem} {d r t q a va : ℕ} {i j : Fin NPDENTRIES} {e : Pte}
  {E : Panic → Mem → Prop}

/-! ## Addresses -/

/-- The address of the page for directory index `i` and table index `j`. -/
def addr (i j : Fin NPDENTRIES) : ℕ := i.val * 2 ^ 22 + j.val * 2 ^ 12

theorem PDX_addr (i j : Fin NPDENTRIES) : PDX (addr i j) = i := by
  have hi := i.isLt
  have hj := j.isLt
  apply Fin.ext
  simp only [PDX, addr, NPDENTRIES] at *
  omega

theorem PTX_addr (i j : Fin NPDENTRIES) : PTX (addr i j) = j := by
  have hi := i.isLt
  have hj := j.isLt
  apply Fin.ext
  simp only [PTX, addr, NPDENTRIES] at *
  omega

theorem addr_index (ha : a % PGSIZE = 0) (h32 : a < 2 ^ 32) : addr (PDX a) (PTX a) = a := by
  simp only [PDX, PTX, addr, NPDENTRIES, PGSIZE] at *
  omega

theorem addr_mod (i j : Fin NPDENTRIES) : addr i j % PGSIZE = 0 := by
  simp only [addr, PGSIZE]
  omega

theorem low_iff : Low i ↔ addr i j < KERNBASE := by
  have hj := j.isLt
  simp only [Low, addr, KERNBASE, NPDENTRIES] at *
  omega

/-- The entry of `d` for the address `va`. -/
def Mem.pte (s : Mem) (d va : ℕ) : Pte := s.entry d (PDX va) (PTX va)

/-! ## `kalloc` and `kfree` -/

/-- The first `k` calls of `kalloc` succeed, and after them the memory has this free list. -/
structure Calls (k : ℕ) (s s' : Mem) : Prop where
  freelist : s'.freelist = s.freelist.drop k
  fails : ∀ n, s'.fails n = s.fails (k + n)
  le : k ≤ s.freelist.length
  ok : ∀ n < k, s.fails n = false

/-- The call of `kalloc` after `n` others fails. -/
def Mem.FailsAt (s : Mem) (n : ℕ) : Prop := s.fails n = true ∨ s.freelist.length ≤ n

theorem Calls.refl (s : Mem) : Calls 0 s s := ⟨rfl, fun n => by rw [Nat.zero_add], Nat.zero_le _, nofun⟩

variable {k n pa : ℕ} {Q : Option (ℕ × Fin NPDENTRIES) → Mem → Prop}

theorem Calls.trans {k' : ℕ} (h : Calls k s s') (h' : Calls k' s' s'') : Calls (k + k') s s'' := by
  have hle := h.le
  have hle' := h'.le
  have hlen : s'.freelist.length = s.freelist.length - k := by rw [h.freelist, length_drop]
  refine ⟨by rw [h'.freelist, h.freelist, drop_drop], fun n => ?_, by omega, fun n hn => ?_⟩
  · rw [h'.fails, h.fails, Nat.add_assoc]
  · rcases Nat.lt_or_ge n k with hlt | hge
    · exact h.ok n hlt
    · have hok := h'.ok (n - k) (by omega)
      rw [h.fails] at hok
      rwa [show k + (n - k) = n by omega] at hok

/-- Changes of pages do not matter for `kalloc`. -/
theorem Calls.congr {t : Mem} (h : Calls k s s') (hfree : t.freelist = s'.freelist) (hfails : t.fails = s'.fails) :
    Calls k s t :=
  ⟨hfree.trans h.freelist, fun n => by rw [hfails, h.fails], h.le, h.ok⟩

theorem Calls.failsAt_iff (h : Calls k s s') : s'.FailsAt n ↔ s.FailsAt (k + n) := by
  have hle := h.le
  have hlen : s'.freelist.length = s.freelist.length - k := by rw [h.freelist, length_drop]
  unfold Mem.FailsAt
  rw [h.fails, hlen]
  exact or_congr_right ⟨fun _ => by omega, fun _ => by omega⟩

theorem Calls.not_failsAt (h : Calls k s s') (hn : n < k) : ¬ s.FailsAt n := by
  have hle := h.le
  rintro (hf | hl)
  · exact absurd ((h.ok n hn).symm.trans hf) Bool.false_ne_true
  · omega

theorem Mem.next_eq_none : s.next = none ↔ s.FailsAt 0 := by
  unfold Mem.next Mem.FailsAt
  cases hf : s.fails 0 with
  | true => simp
  | false =>
    rw [if_neg Bool.false_ne_true, head?_eq_none_iff]
    simp

theorem Mem.next_eq_some (h : s.next = some r) : s.fails 0 = false ∧ ∃ rs, s.freelist = r :: rs := by
  unfold Mem.next at h
  split at h
  · nomatch h
  · rename_i hf
    exact ⟨by simpa using hf, s.freelist.tail, eq_cons_of_mem_head? h⟩

theorem Calls.pop (h : s.next = some r) : Calls 1 s s.pop := by
  obtain ⟨hf, rs, hfl⟩ := Mem.next_eq_some h
  refine ⟨by rw [Mem.pop, hfl]; rfl, fun n => by rw [Nat.add_comm]; rfl, by rw [hfl]; simp, fun n hn => ?_⟩
  rwa [show n = 0 by omega]

theorem wp_kalloc_exact {Q : Option ℕ → Mem → Prop} (hnone : s.next = none → Q none s.tick)
    (hsome : ∀ r, s.next = some r → Q (some r) s.pop) : Wp kalloc Q E s := by
  unfold kalloc
  rw [wp_bind, wp_get]
  split
  · rename_i r rs hfl hf
    have hnext : s.next = some r := by simp [Mem.next, hfl, hf]
    have hpop : s.pop = { s with freelist := rs, fails := fun n => s.fails (n + 1) } := by
      rw [Mem.pop, hfl, tail_cons]
    have hQ := hsome r hnext
    rw [hpop] at hQ
    exact hQ
  · rename_i hno
    refine hnone ?_
    unfold Mem.next
    cases hf : s.fails 0 with
    | true => simp
    | false =>
      cases hfl : s.freelist with
      | nil => simp
      | cons r rs => exact absurd hf (hno r rs hfl)

theorem wp_kfree_exact {Q : Unit → Mem → Prop} (hr : s.InRange q) (hQ : Q () (s.push q)) : Wp (kfree q) Q E s := by
  unfold kfree
  rw [wp_bind, wp_get]
  obtain ⟨hlo, hhi⟩ := hr
  rw [if_neg (by omega)]
  exact hQ

/-- A page from the free list is in the caller's hands. -/
theorem Exact.take (h : Exact D o s) (hnext : s.next = some r) :
    Exact D (update o r .none) s.pop ∧ o r = .free ∧ s.InRange r := by
  obtain ⟨-, rs, hfl⟩ := Mem.next_eq_some hnext
  have hor : o r = .free := h.free_iff.mpr (by simp [hfl])
  exact ⟨h.pop hfl, hor, h.range r (by simp [hor])⟩

/-! ## `walkpgdir` -/

/-- Without allocation `walkpgdir` only looks. -/
theorem wp_look (habsent : (s.page d (PDX va)).p = false → Q none s)
    (hpresent : (s.page d (PDX va)).p = true → Q (some ((s.page d (PDX va)).ppn, PTX va)) s) :
    Wp (walkpgdir d va false) Q E s := by
  unfold walkpgdir
  rw [wp_bind, wp_get]
  cases hp : (s.page d (PDX va)).p with
  | true => simpa [hp] using hpresent hp
  | false => simpa [hp] using habsent hp

/-- The memory in which there is a table for entry `i` of `d`, one page of the free list having been used if there
was none. -/
structure Walked (D : Set ℕ) (d : ℕ) (i : Fin NPDENTRIES) (o : ℕ → Owner) (s : Mem) (o' : ℕ → Owner) (s' : Mem) :
    Prop where
  exact : Exact D o' s'
  lo : s'.lo = s.lo
  present : (s'.page d i).p = true
  tables : ∀ i', i' ≠ i → s'.page d i' = s.page d i'
  entry : ∀ d' ∈ D, ∀ i j, s'.entry d' i j = s.entry d' i j
  owner : ∀ q, o' q = o q ∨ o q = .free ∧ o' q = .table d i
  page : ∀ q, q ≠ d → o q ≠ .free → s'.page q = s.page q
  calls : Calls (if (s.page d i).p then 0 else 1) s s'

theorem wp_walk (h : Exact D o s) (hd : d ∈ D) (hfail : (s.page d (PDX va)).p = false → s.next = none → Q none s.tick)
    (hok : ∀ o' s', Walked D d (PDX va) o s o' s' → Q (some ((s'.page d (PDX va)).ppn, PTX va)) s') :
    Wp (walkpgdir d va true) Q E s := by
  unfold walkpgdir
  rw [wp_bind, wp_get]
  cases hp : (s.page d (PDX va)).p with
  | true =>
    simp only [hp, if_true, wp_pure]
    refine hok o s ⟨h, rfl, hp, fun _ _ => rfl, fun _ _ _ _ => rfl, fun _ => .inl rfl, fun _ _ _ => rfl, ?_⟩
    rw [if_pos hp]
    exact Calls.refl s
  | false =>
    simp only [hp, Bool.false_eq_true, if_false, Bool.true_eq_false, wp_bind]
    refine wp_kalloc_exact (fun hnext => hfail hp hnext) fun t hnext => ?_
    obtain ⟨h1, hot, hrange⟩ := h.take hnext
    have hnone : update o t .none t = .none := update_self ..
    have htd : t ≠ d := by
      rintro rfl
      exact absurd (hot.symm.trans (h.dir hd)) (by simp)
    -- the page is cleared and becomes a table
    have h2 : Exact D (update o t .none) (s.pop.put t fun _ => .zero) :=
      h1.put (by simp) (by simp) _
    have hpd : (s.pop.put t fun _ => .zero).page d = s.page d := Mem.put_page_of_ne _ htd.symm
    have habsent : ((s.pop.put t fun _ => .zero).page d (PDX va)).p = false := by rw [hpd]; exact hp
    have hzero : ∀ j, (s.pop.put t fun _ => .zero).page t j = .zero := fun j => by rw [Mem.put_page_self]
    have h3 := h2.newTable (w := true) (u := true) (f := 0) hd habsent hzero (by rw [hnone]; trivial) hrange
    rw [update_idem] at h3
    have hself : ((s.pop.put t fun _ => .zero).setEntry d (PDX va) ⟨t, true, true, true, 0⟩).page d (PDX va) =
        ⟨t, true, true, true, 0⟩ := by rw [Mem.setEntry_page_self, if_pos rfl]
    have hwalked : Walked D d (PDX va) o s (update o t (.table d (PDX va)))
        ((s.pop.put t fun _ => .zero).setEntry d (PDX va) ⟨t, true, true, true, 0⟩) := by
      refine ⟨h3, rfl, by rw [hself], fun i' hi' => ?_, fun d' hd' i' j' => ?_, fun q => ?_, fun q hqd hq => ?_, ?_⟩
      · rw [Mem.setEntry_page_self, if_neg hi', hpd]
      · rw [h2.entry_newTable hd hd' habsent hzero htd]
        exact h1.entry_put (by simp) (by simp) hd' _
      · by_cases hqt : q = t
        · subst hqt
          exact .inr ⟨hot, update_self ..⟩
        · exact .inl (update_of_ne hqt ..)
      · rw [Mem.setEntry_page_of_ne _ hqd, Mem.put_page_of_ne]
        · rfl
        · rintro rfl
          exact hq hot
      · rw [if_neg (by simp [hp])]
        exact (Calls.pop hnext).congr rfl rfl
    have hQ := hok _ _ hwalked
    rw [hself] at hQ
    exact hQ

/-! ## `mappages` -/

/-- The memory after entry `e` has been made for the page at `a`. -/
structure MapsTo (D : Set ℕ) (d a : ℕ) (e : Pte) (o : ℕ → Owner) (s : Mem) (o' : ℕ → Owner) (s' : Mem) : Prop where
  exact : Exact D o' s'
  lo : s'.lo = s.lo
  present : (s'.page d (PDX a)).p = true
  tables : ∀ i', i' ≠ PDX a → s'.page d i' = s.page d i'
  entry : ∀ d' ∈ D, ∀ i j, s'.entry d' i j = if d' = d ∧ i = PDX a ∧ j = PTX a then e else s.entry d' i j
  owner : ∀ q, o' q = o q ∨ o q = .free ∧ o' q = .table d (PDX a) ∨
    Low (PDX a) ∧ q = e.ppn ∧ o' q = .frame d (PDX a) (PTX a)
  page : ∀ q, q ≠ d → o q ≠ .free → o q ≠ .table d (PDX a) → s'.page q = s.page q
  calls : Calls (if (s.page d (PDX a)).p then 0 else 1) s s'

/-- The entry is written into the table that `walkpgdir` has found. -/
theorem Walked.mapsTo {o'' : ℕ → Owner} (h : Walked D d (PDX a) o s o' s') (hd : d ∈ D)
    (hexact : Exact D o'' (s'.setEntry (s'.page d (PDX a)).ppn (PTX a) e))
    (howner : ∀ q, o'' q = o' q ∨ Low (PDX a) ∧ q = e.ppn ∧ o'' q = .frame d (PDX a) (PTX a)) :
    MapsTo D d a e o s o'' (s'.setEntry (s'.page d (PDX a)).ppn (PTX a) e) := by
  have hpage := h.exact.page_setEntry (j := PTX a) (e := e) hd hd h.present
  have htable := h.exact.table hd h.present
  refine ⟨hexact, h.lo, by rw [hpage, h.present], fun i' hi' => ?_, fun d' hd' i j => ?_, fun q => ?_,
    fun q hqd hfree hq => ?_, h.calls.congr rfl rfl⟩
  · rw [hpage]
    exact h.tables i' hi'
  · rw [h.exact.entry_setEntry hd hd' h.present, h.entry d' hd']
  · rcases howner q with ho | hframe
    · rw [ho]
      exact (h.owner q).imp_right .inl
    · exact .inr (.inr hframe)
  · rw [Mem.setEntry_page_of_ne]
    · exact h.page q hqd hfree
    · -- the table is one of before or a page of the free list
      rintro rfl
      rcases h.owner (s'.page d (PDX a)).ppn with ho | ⟨ho, -⟩
      · exact hq (ho.symm.trans htable)
      · exact hfree ho

variable {w u : Bool} {f : BitVec 9}

/-- The first page of `mappages`, and those after it. -/
theorem wp_mappagesLoop_step {Q : Bool → Mem → Prop} {left : ℕ} (h : Exact D o s)
    (hd : d ∈ D) (habsent : (s.pte d a).p = false)
    (hfail : (s.page d (PDX a)).p = false → s.next = none → Q false s.tick)
    (hok : ∀ o' s', Walked D d (PDX a) o s o' s' →
      Wp (match left with
        | 0 => pure true
        | left + 1 => mappagesLoop d w u f left (a + PGSIZE) (pa + PGSIZE)) Q E
        (s'.setEntry (s'.page d (PDX a)).ppn (PTX a) ⟨pa / PGSIZE, true, w, u, f⟩)) :
    Wp (mappagesLoop d w u f left a pa) Q E s := by
  unfold mappagesLoop
  rw [wp_bind]
  refine wp_walk h hd hfail fun o' s' hw => ?_
  have hno : (s'.page (s'.page d (PDX a)).ppn (PTX a)).p = false := by
    rw [← Mem.entry_of_present hw.present, hw.entry d hd]
    exact habsent
  simp only [wp_bind, wp_get, hno, Bool.false_eq_true, if_false]
  exact hok o' s' hw

theorem mappages_page (ha : a % PGSIZE = 0) :
    mappages d a PGSIZE pa w u f = mappagesLoop d w u f 0 a pa := by
  have hone : (PGROUNDDOWN (a + PGSIZE - 1) - PGROUNDDOWN a) / PGSIZE = 0 := by
    simp only [PGROUNDDOWN, PGSIZE] at *
    omega
  have hdown : PGROUNDDOWN a = a := by
    simp only [PGROUNDDOWN, PGSIZE] at *
    omega
  show mappagesLoop d w u f ((PGROUNDDOWN (a + PGSIZE - 1) - PGROUNDDOWN a) / PGSIZE) (PGROUNDDOWN a) pa = _
  rw [hone, hdown]

/-- Mapping a page of the caller's below `KERNBASE`. -/
theorem wp_mappages_user {Q : Bool → Mem → Prop} (h : Exact D o s) (hd : d ∈ D)
    (ha : a % PGSIZE = 0) (hlow : a < KERNBASE) (habsent : (s.pte d a).p = false) (hr : o r = .none)
    (hrange : s.InRange r) (hfail : (s.page d (PDX a)).p = false → s.next = none → Q false s.tick)
    (hok : ∀ o' s', MapsTo D d a ⟨r, true, w, u, f⟩ o s o' s' → o' r = .frame d (PDX a) (PTX a) → Q true s') :
    Wp (mappages d a PGSIZE (r * PGSIZE) w u f) Q E s := by
  rw [mappages_page ha]
  refine wp_mappagesLoop_step h hd habsent hfail fun o' s' hw => ?_
  rw [Nat.mul_div_cancel _ (by decide : 0 < PGSIZE)]
  have hr' : o' r = .none := by
    rcases hw.owner r with ho | ⟨ho, -⟩
    · rw [ho, hr]
    · exact absurd (hr.symm.trans ho) nofun
  have hno : (s'.entry d (PDX a) (PTX a)).p = false := by
    rw [hw.entry d hd]
    exact habsent
  have hexact := hw.exact.map (e := ⟨r, true, w, u, f⟩) hd hw.present (low_of_lt hlow) hno rfl (by rw [hr']; trivial)
    (by rw [Mem.InRange, hw.lo]; exact hrange)
  refine hok _ _ (hw.mapsTo hd hexact fun q => ?_) (update_self ..)
  by_cases hq : q = r
  · subst hq
    exact .inr ⟨low_of_lt hlow, rfl, update_self ..⟩
  · exact .inl (update_of_ne hq ..)

end Vm

end Xv6
