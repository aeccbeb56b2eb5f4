import Mathlib.Data.List.FinRange
import Mathlib.Data.Set.Basic
import Xv6.Vm.Pages

/-!
# Who owns a page

A labelling of the physical pages with owners, and the invariant that every use of a page agrees with its label: the
free list, the page directories in `D`, their page tables, the frames mapped by them below `KERNBASE`. As a label is
one owner, no page can have two. Every function of `vm.c` keeps the invariant, for a labelling that differs from the
one before in pages of these kinds only.
-/

namespace Xv6

open Function

namespace Vm

/-- The owners of a page: the free list, a page directory, its table for directory entry `i`, its frame for entry `j`
of that table, the kernel stack of a process, a pipe. -/
inductive Owner where
  | none
  | free
  | dir
  | table (d : ℕ) (i : Fin NPDENTRIES)
  | frame (d : ℕ) (i j : Fin NPDENTRIES)
  | kstack (p : ℕ)
  | pipe
deriving DecidableEq

/-- The owners outside `vm.c` and the free list. -/
def Owner.Outside : Owner → Prop
  | .none | .kstack _ | .pipe => True
  | _ => False

/-- The page directory entries below `KERNBASE`. -/
def Low (i : Fin NPDENTRIES) : Prop := i.val < 512

/-- Entry `j` of the page table for directory entry `i` of `d`: below `KERNBASE` a frame or nothing, above it not for
user code. -/
def Entry (o : ℕ → Owner) (d : ℕ) (i j : Fin NPDENTRIES) (e : Pte) : Prop :=
  (Low i → (e.p = true ∧ o e.ppn = .frame d i j) ∨ (e.p = false ∧ e.ppn = 0)) ∧ (¬ Low i → e.u = false)

/-- The labelling `o` agrees with the free list and with the page directories `D`. -/
structure Inv (D : Set ℕ) (o : ℕ → Owner) (s : Mem) : Prop where
  pos : 0 < s.lo
  range : ∀ r, o r ≠ .none → s.lo ≤ r
  nodup : s.freelist.Nodup
  free : ∀ r ∈ s.freelist, o r = .free
  dir : ∀ d ∈ D, o d = .dir
  table : ∀ d ∈ D, ∀ i, (s.page d i).p = true → o (s.page d i).ppn = .table d i
  entry : ∀ d ∈ D, ∀ i, (s.page d i).p = true → ∀ j, Entry o d i j (s.page (s.page d i).ppn j)

/-- Pages of owners outside `vm.c` keep their owners. -/
def Keeps (o o' : ℕ → Owner) : Prop := ∀ r, (o r).Outside → o' r = o r

theorem Keeps.refl (o : ℕ → Owner) : Keeps o o := fun _ _ => rfl

theorem Keeps.trans {o o' o'' : ℕ → Owner} (h : Keeps o o') (h' : Keeps o' o'') : Keeps o o'' := by
  intro r hr
  have hsame := h r hr
  rw [h' r (by rw [hsame]; exact hr), hsame]

theorem Keeps.update {o : ℕ → Owner} {r : ℕ} (x : Owner) (h : ¬ (o r).Outside) : Keeps o (update o r x) := by
  intro q hq
  have hne : q ≠ r := by
    rintro rfl
    exact h hq
  exact update_of_ne hne ..

variable {D : Set ℕ} {o o' : ℕ → Owner} {s : Mem} {d r t : ℕ} {i j : Fin NPDENTRIES} {e : Pte}

/-! ## The labelling -/

theorem Entry.relabel (h : Entry o d i j e) (hr : o r ≠ .frame d i j) (x : Owner) : Entry (update o r x) d i j e := by
  refine ⟨fun hlow => ?_, h.2⟩
  refine (h.1 hlow).imp_left fun ⟨hp, ho⟩ => ⟨hp, ?_⟩
  have hne : e.ppn ≠ r := by
    rintro rfl
    exact hr ho
  rw [update_of_ne hne, ho]

/-- Pages that no use agrees with can be relabelled. -/
def Loose (D : Set ℕ) (o : ℕ → Owner) (r : ℕ) : Prop :=
  match o r with
  | .free => False
  | .dir => r ∉ D
  | .table d _ | .frame d _ _ => d ∉ D
  | _ => True

theorem Loose.of_outside (h : (o r).Outside) : Loose D o r := by
  unfold Loose
  unfold Owner.Outside at h
  split <;> simp_all

theorem Loose.ne_dir (h : Loose D o r) (hd : d ∈ D) (hdir : o d = .dir) : d ≠ r := by
  rintro rfl
  simp [Loose, hdir] at h
  exact h hd

theorem Loose.ne_table (h : Loose D o r) (hd : d ∈ D) : o r ≠ .table d i := by
  intro ho
  simp [Loose, ho] at h
  exact h hd

theorem Loose.ne_frame (h : Loose D o r) (hd : d ∈ D) : o r ≠ .frame d i j := by
  intro ho
  simp [Loose, ho] at h
  exact h hd

theorem Loose.ne_free (h : Loose D o r) : o r ≠ .free := by
  intro ho
  simp [Loose, ho] at h

/-- Nothing uses the page. -/
structure Unused (D : Set ℕ) (s : Mem) (r : ℕ) : Prop where
  free : r ∉ s.freelist
  dir : r ∉ D
  table : ∀ d ∈ D, ∀ i, (s.page d i).p = true → (s.page d i).ppn ≠ r
  frame : ∀ d ∈ D, ∀ i, (s.page d i).p = true → Low i → ∀ j, (s.page (s.page d i).ppn j).p = true →
    (s.page (s.page d i).ppn j).ppn ≠ r

theorem Loose.unused (hr : Loose D o r) (h : Inv D o s) : Unused D s r := by
  refine ⟨fun hmem => hr.ne_free (h.free r hmem), fun hd => hr.ne_dir hd (h.dir r hd) rfl, fun d hd i hp heq => ?_,
    fun d hd i hp hlow j hpj heq => ?_⟩
  · exact hr.ne_table hd (heq ▸ h.table d hd i hp)
  · rcases (h.entry d hd i hp j).1 hlow with ⟨-, ho⟩ | ⟨hno, -⟩
    · exact hr.ne_frame hd (heq ▸ ho)
    · exact absurd (hno.symm.trans hpj) Bool.false_ne_true

theorem Inv.unused (h : Inv D o s) (hr : (o r).Outside) : Unused D s r := (Loose.of_outside hr).unused h

/-- An unused page gets another label. -/
theorem Inv.relabel (h : Inv D o s) (hr : Unused D s r) {x : Owner} (hx : x ≠ .none → s.lo ≤ r) :
    Inv D (update o r x) s := by
  refine ⟨h.pos, fun q hq => ?_, h.nodup, fun q hq => ?_, fun d hd => ?_, fun d hd i hp => ?_, fun d hd i hp j => ?_⟩
  · by_cases hqr : q = r
    · subst hqr
      exact hx (by simpa using hq)
    · exact h.range q (by simpa [hqr] using hq)
  · have hne : q ≠ r := by
      rintro rfl
      exact hr.free hq
    rw [update_of_ne hne]
    exact h.free q hq
  · have hne : d ≠ r := by
      rintro rfl
      exact hr.dir hd
    rw [update_of_ne hne]
    exact h.dir d hd
  · rw [update_of_ne (hr.table d hd i hp)]
    exact h.table d hd i hp
  · refine ⟨fun hlow => ?_, (h.entry d hd i hp j).2⟩
    refine ((h.entry d hd i hp j).1 hlow).imp_left fun ⟨hpj, ho⟩ => ⟨hpj, ?_⟩
    rw [update_of_ne (hr.frame d hd i hp hlow j hpj), ho]

/-- A page that is not a directory or a table can be written. -/
theorem Inv.write (h : Inv D o s) (hdir : r ∉ D) (htable : ∀ d ∈ D, ∀ i, (s.page d i).p = true → (s.page d i).ppn ≠ r)
    (x : Table) : Inv D o { s with page := update s.page r x } := by
  have hd' : ∀ d ∈ D, update s.page r x d = s.page d := by
    intro d hd
    have hne : d ≠ r := by
      rintro rfl
      exact hdir hd
    exact update_of_ne hne ..
  refine ⟨h.pos, h.range, h.nodup, h.free, h.dir, fun d hd i hp => ?_, fun d hd i hp j => ?_⟩
  · simp only [hd' d hd] at hp ⊢
    exact h.table d hd i hp
  · simp only [hd' d hd] at hp ⊢
    rw [update_of_ne (htable d hd i hp)]
    exact h.entry d hd i hp j

theorem Unused.write (hr : Unused D s r) (x : Table) : Unused D { s with page := update s.page r x } r := by
  have hd' : ∀ d ∈ D, update s.page r x d = s.page d := by
    intro d hd
    have hne : d ≠ r := by
      rintro rfl
      exact hr.dir hd
    exact update_of_ne hne ..
  refine ⟨hr.free, hr.dir, fun d hd i hp => ?_, fun d hd i hp hlow j hpj => ?_⟩
  · simp only [hd' d hd] at hp ⊢
    exact hr.table d hd i hp
  · simp only [hd' d hd] at hp hpj ⊢
    rw [update_of_ne (hr.table d hd i hp)] at hpj ⊢
    exact hr.frame d hd i hp hlow j hpj

section

variable (h : Inv D o s)

include h

/-- A page goes back to the free list. -/
theorem Inv.free_page (hr : Unused D s r) (hlo : s.lo ≤ r) (x : Table) :
    Inv D (update o r .free) { s with page := update s.page r x, freelist := r :: s.freelist } := by
  have hw := h.write hr.dir hr.table x
  have hi : Inv D (update o r .free) { s with page := update s.page r x } :=
    hw.relabel (hr.write x) fun _ => hlo
  refine ⟨hi.pos, hi.range, List.nodup_cons.mpr ⟨hr.free, h.nodup⟩, ?_, hi.dir, hi.table, hi.entry⟩
  intro q hq
  rcases List.mem_cons.mp hq with rfl | hq
  · exact update_self ..
  · exact hi.free q hq

/-- A page is taken from the free list. -/
theorem Inv.take {rs : List ℕ} (hfl : s.freelist = r :: rs) (f : ℕ → Bool) :
    Inv D (update o r .none) { s with freelist := rs, fails := f } := by
  have hor : o r = .free := h.free r (by simp [hfl])
  have hnodup := h.nodup
  rw [hfl, List.nodup_cons] at hnodup
  refine ⟨h.pos, fun q hq => ?_, hnodup.2, fun q hq => ?_, fun d hd => ?_, fun d hd i hp => ?_, fun d hd i hp j => ?_⟩
  · by_cases hqr : q = r
    · simp [hqr] at hq
    · exact h.range q (by simpa [hqr] using hq)
  · have hne : q ≠ r := by
      rintro rfl
      exact hnodup.1 hq
    rw [update_of_ne hne]
    exact h.free q (by simp [hfl, hq])
  · have hne : d ≠ r := by
      rintro rfl
      exact absurd (hor.symm.trans (h.dir d hd)) nofun
    rw [update_of_ne hne]
    exact h.dir d hd
  · have hne : (s.page d i).ppn ≠ r := by
      intro hreq
      have ht := h.table d hd i hp
      rw [hreq, hor] at ht
      nomatch ht
    rw [update_of_ne hne]
    exact h.table d hd i hp
  · exact (h.entry d hd i hp j).relabel (by simp [hor]) _

/-- A page directory is no longer considered. -/
theorem Inv.drop (d : ℕ) : Inv (D \ {d}) o s :=
  ⟨h.pos, h.range, h.nodup, h.free, fun d' hd => h.dir d' hd.1, fun d' hd => h.table d' hd.1,
    fun d' hd => h.entry d' hd.1⟩

/-- An empty page becomes a page directory. -/
theorem Inv.new_dir (hr : Unused D s r) (hlo : s.lo ≤ r) (hzero : ∀ i, (s.page r i).p = false) :
    Inv (insert r D) (update o r .dir) s := by
  have hi : Inv D (update o r .dir) s := h.relabel hr fun _ => hlo
  have hnone : ∀ d i, d = r → (s.page d i).p ≠ true := by
    rintro d i rfl
    simp [hzero i]
  refine ⟨hi.pos, hi.range, hi.nodup, hi.free, fun d hd => ?_, fun d hd i hp => ?_, fun d hd i hp => ?_⟩
  · rcases hd with rfl | hd
    · exact update_self ..
    · exact hi.dir d hd
  · exact hi.table d (hd.resolve_left fun heq => hnone d i heq hp) i hp
  · exact hi.entry d (hd.resolve_left fun heq => hnone d i heq hp) i hp

/-- An empty page becomes a page table. -/
theorem Inv.new_table (hd : d ∈ D) (hr : Unused D s r) (hlo : s.lo ≤ r)
    (hzero : ∀ j, s.page r j = .zero) (habsent : (s.page d i).p = false) {w u : Bool} {f : BitVec 9} :
    Inv D (update o r (.table d i))
      { s with page := update s.page d (update (s.page d) i ⟨r, true, w, u, f⟩) } := by
  have hi : Inv D (update o r (.table d i)) s := h.relabel hr fun _ => hlo
  have hdr : ∀ d' ∈ D, d' ≠ r := by
    rintro d' hd' rfl
    exact hr.dir hd'
  -- the directory is not a table of any
  have hnt : ∀ d' ∈ D, ∀ i', (s.page d' i').p = true → (s.page d' i').ppn ≠ d := by
    intro d' hd' i' hp hreq
    have := hi.table d' hd' i' hp
    rw [hreq, hi.dir d hd] at this
    nomatch this
  refine ⟨hi.pos, hi.range, hi.nodup, hi.free, hi.dir, fun d' hd' i' hp => ?_, fun d' hd' i' hp j => ?_⟩
  · by_cases hdd : d' = d
    · subst hdd
      by_cases hii : i' = i
      · subst hii
        simp
      · simp only [update_self, update_of_ne hii] at hp ⊢
        exact hi.table d' hd' i' hp
    · simp only [update_of_ne hdd] at hp ⊢
      exact hi.table d' hd' i' hp
  · by_cases hdd : d' = d
    · subst hdd
      by_cases hii : i' = i
      · subst hii
        simp only [update_self, update_of_ne (hdr d' hd').symm, hzero j]
        exact ⟨fun _ => .inr ⟨rfl, rfl⟩, fun _ => rfl⟩
      · simp only [update_self, update_of_ne hii] at hp ⊢
        rw [update_of_ne (hnt d' hd' i' hp)]
        exact hi.entry d' hd' i' hp j
    · simp only [update_of_ne hdd] at hp ⊢
      rw [update_of_ne (hnt d' hd' i' hp)]
      exact hi.entry d' hd' i' hp j

/-- An entry of a page table is changed. -/
theorem Inv.set_entry (hd : d ∈ D) (hp : (s.page d i).p = true) (he : Entry o d i j e) :
    Inv D o { s with
      page := update s.page (s.page d i).ppn (update (s.page (s.page d i).ppn) j e) } := by
  have ht := h.table d hd i hp
  have hd' : ∀ d' ∈ D, d' ≠ (s.page d i).ppn := by
    rintro d' hd' hreq
    rw [← hreq, h.dir d' hd'] at ht
    nomatch ht
  refine ⟨h.pos, h.range, h.nodup, h.free, h.dir, fun d' hd'' i' hp' => ?_, fun d' hd'' i' hp' j' => ?_⟩
  · simp only [update_of_ne (hd' d' hd'')] at hp' ⊢
    exact h.table d' hd'' i' hp'
  · simp only [update_of_ne (hd' d' hd'')] at hp' ⊢
    by_cases heq : (s.page d' i').ppn = (s.page d i).ppn
    · -- one table, one directory entry
      have hsame := h.table d' hd'' i' hp'
      rw [heq, ht] at hsame
      obtain ⟨rfl, rfl⟩ : d = d' ∧ i = i' := by simpa using hsame
      rw [update_self]
      by_cases hj : j' = j
      · subst hj
        rwa [update_self]
      · rw [update_of_ne hj]
        exact h.entry d hd i hp j'
    · rw [update_of_ne heq]
      exact h.entry d' hd'' i' hp' j'

/-- Clearing the entry of a frame leaves the frame unused. -/
theorem Inv.unused_frame (hd : d ∈ D) (hp : (s.page d i).p = true) (hlow : Low i)
    (hpj : (s.page (s.page d i).ppn j).p = true) : Unused D { s with
      page := update s.page (s.page d i).ppn (update (s.page (s.page d i).ppn) j .zero) }
      (s.page (s.page d i).ppn j).ppn := by
  have hzero : Entry o d i j .zero := ⟨fun _ => .inr ⟨rfl, rfl⟩, fun _ => rfl⟩
  have hi := h.set_entry hd hp hzero
  have ho : o (s.page (s.page d i).ppn j).ppn = .frame d i j := by
    rcases (h.entry d hd i hp j).1 hlow with ⟨-, ho⟩ | ⟨hno, -⟩
    · exact ho
    · exact absurd (hno.symm.trans hpj) Bool.false_ne_true
  refine ⟨fun hmem => ?_, fun hd' => ?_, fun d' hd' i' hp' heq => ?_, fun d' hd' i' hp' hlow' j' hpj' heq => ?_⟩
  · exact absurd (ho.symm.trans (h.free _ hmem)) nofun
  · exact absurd (ho.symm.trans (h.dir _ hd')) nofun
  · have ht := hi.table d' hd' i' hp'
    rw [heq, ho] at ht
    nomatch ht
  · -- an entry for this frame would be the one that was cleared
    rcases (hi.entry d' hd' i' hp' j').1 hlow' with ⟨-, ho'⟩ | ⟨hno, -⟩
    · rw [heq, ho] at ho'
      obtain ⟨rfl, rfl, rfl⟩ : d = d' ∧ i = i' ∧ j = j' := by simpa using ho'
      have hdt : d ≠ (s.page d i).ppn := by
        intro hreq
        have ht := h.table d hd i hp
        rw [← hreq, h.dir d hd] at ht
        nomatch ht
      simp only [update_of_ne hdt, update_self] at hpj'
      exact absurd hpj' Bool.false_ne_true
    · exact absurd (hno.symm.trans hpj') Bool.false_ne_true

end

/-! ## `kalloc.c` -/

open Code

/-- No postcondition where the kernel panics. -/
def Any : Panic → Mem → Prop := fun _ _ => True

theorem wp_kalloc (h : Inv D o s) : Wp kalloc (fun x s' => s'.lo = s.lo ∧ s'.page = s.page ∧ match x with
    | none => Inv D o s'
    | some r => s.lo ≤ r ∧ o r = .free ∧ Inv D (update o r .none) s') Any s := by
  unfold kalloc
  rw [wp_bind, wp_get]
  split
  next r rs hfl _ =>
    have hor : o r = .free := h.free r (by simp [hfl])
    refine ⟨rfl, rfl, h.range r (by simp [hor]), hor, h.take hfl _⟩
  next =>
    exact ⟨rfl, rfl, h.pos, h.range, h.nodup, h.free, h.dir, h.table, h.entry⟩

theorem wp_kfree (h : Inv D o s) (hr : Unused D s r) : Wp (kfree r) (fun _ s' => s'.lo = s.lo ∧
    Inv D (update o r .free) s' ∧ ∀ q, q ≠ r → s'.page q = s.page q) Any s := by
  unfold kfree
  rw [wp_bind, wp_get]
  split_ifs with hrange
  · trivial
  · refine ⟨rfl, h.free_page hr (by omega) _, fun q hq => ?_⟩
    exact update_of_ne hq ..

end Vm

end Xv6
