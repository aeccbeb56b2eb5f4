import Xv6.Param
import Xv6.Vm.Fork

/-!
# A failed `fork`

`fork` with the open files and the working directory of the processes. When it fails it has given back all pages,
except that the page that `copyuvm` has just filled is lost if there is no page for the page table that is to map it.
-/

namespace Xv6

open Function

namespace Vm

open Code

variable {n : ℕ} {l : Layout} {D : Set ℕ} {o : ℕ → Owner} {p np : Fin n} {pd : ℕ}

/-! ## `fork` -/

/-- The memory and the processes, with the open files and the working directory of each process and the reference counts
of the files and inodes. -/
structure Forker (n : ℕ) where
  kern : Kern n
  ofile : Fin n → Fin NOFILE → Option ℕ
  cwd : Fin n → ℕ
  fileRef : ℕ → ℕ
  inodeRef : ℕ → ℕ

abbrev ForkCode (n : ℕ) (α : Type) : Type := Code Panic (Forker n) α

def kern {α : Type} (x : KernCode n α) : ForkCode n α := Code.zoom Forker.kern (fun k s => { s with kern := k }) x

def filedup (f : ℕ) : ForkCode n ℕ := do
  let s ← get
  if s.fileRef f < 1 then throw .filedup
  modify fun s => { s with fileRef := update s.fileRef f (s.fileRef f + 1) }
  pure f

def idup (ip : ℕ) : ForkCode n ℕ := do
  modify fun s => { s with inodeRef := update s.inodeRef ip (s.inodeRef ip + 1) }
  pure ip

/-- The loop over the open files, from those of `is` on. -/
def forkFiles (p np : Fin n) : List (Fin NOFILE) → ForkCode n Unit
  | [] => pure ()
  | i :: is => do
    let s ← get
    match s.ofile p i with
    | none => pure ()
    | some f =>
      let f' ← filedup f
      modify fun s => { s with ofile := update s.ofile np (update (s.ofile np) i (some f')) }
    forkFiles p np is

/-- `fork` of process `p`, with its files: the child, or the result -1. -/
def forkAll (l : Layout) (p : Fin n) : ForkCode n (Option (Fin n)) := do
  let s ← get
  match findUnused s.kern with
  | none => pure none
  | some np =>
    match ← kern (vm kalloc) with
    | none =>
      kern (setProc np { s.kern.proc np with kstack := none })
      pure none
    | some k =>
      kern (setProc np { s.kern.proc np with state := .EMBRYO, kstack := some k })
      let pgdir ← kern (pgdirOf (s.kern.proc p))
      match ← kern (vm (copyuvm l.data pgdir (s.kern.proc p).sz)) with
      | none =>
        kern (vm (kfree k))
        kern (setProc np { s.kern.proc np with state := .UNUSED, pgdir := none, kstack := none })
        pure none
      | some d =>
        kern (setProc np ⟨.EMBRYO, some d, some k, (s.kern.proc p).sz⟩)
        forkFiles p np (List.finRange NOFILE)
        let ip ← idup (s.cwd p)
        modify fun s => { s with cwd := update s.cwd np ip }
        kern (setProc np ⟨.RUNNABLE, some d, some k, (s.kern.proc p).sz⟩)
        pure (some np)

/-! ## What is left of it -/

variable {s s' : Forker n} {mem : Mem}

/-- Nothing is left of `fork` but perhaps changes of the memory: the slot is free again, and the other processes, the
open files, the working directories and the counts are unchanged. -/
structure Unforked (s : Forker n) (np : Fin n) (s' : Forker n) : Prop where
  slot : (s'.kern.proc np).state = .UNUSED
  procs : ∀ q, q ≠ np → s'.kern.proc q = s.kern.proc q
  ofile : s'.ofile = s.ofile
  cwd : s'.cwd = s.cwd
  fileRef : s'.fileRef = s.fileRef
  inodeRef : s'.inodeRef = s.inodeRef

/-- The slot of the child and the memory have changed. -/
def Forker.change (s : Forker n) (np : Fin n) (x : Proc) (mem : Mem) : Forker n :=
  { s with kern := { s.kern with mem := mem, proc := update s.kern.proc np x } }

theorem Unforked.change {x : Proc} (hx : x.state = .UNUSED) : Unforked s np (s.change np x mem) := by
  refine ⟨?_, fun q hq => update_of_ne hq .., rfl, rfl, rfl, rfl⟩
  have hself : (s.change np x mem).kern.proc np = x := update_self ..
  rw [hself]
  exact hx

theorem findUnused_state {k : Kern n} (h : findUnused k = some np) : (k.proc np).state = .UNUSED := by
  simpa using List.find?_some h

variable {a b r k : ℕ} {mem' : Mem}

theorem FirstFails.unique (ha : mem.FirstFails a) (hb : mem.FirstFails b) : a = b := by
  rcases Nat.lt_trichotomy a b with hlt | heq | hlt
  · exact absurd ha.1 (hb.2 a hlt)
  · exact heq
  · exact absurd hb.1 (ha.2 b hlt)

theorem Calls.firstFails_add (h : Calls a mem mem') (hf : mem'.FirstFails b) : mem.FirstFails (a + b) := by
  refine ⟨h.failsAt_iff.mp hf.1, fun m hm => ?_⟩
  rcases Nat.lt_or_ge m a with hlt | hge
  · exact h.not_failsAt hlt
  · have hno := hf.2 (m - a) (by omega)
    rw [h.failsAt_iff] at hno
    rwa [show a + (m - a) = m by omega] at hno

/-- No page of the copy is at the place of a page table in the row of calls. -/
theorem frame_call_ne (k q : ℕ) : 1 + (65 + (k + (k + 1023) / 1024)) ≠ 67 + 1025 * q := by
  omega

theorem Mem.InRange.congr (h : mem.InRange r) (hlo : mem'.lo = mem.lo) : mem'.InRange r := by
  rw [Mem.InRange, hlo]
  exact h

/-- The kernel stack goes back to the free list. -/
theorem Restored.push (h : Restored D (update o k .none) mem.pop mem') (hk : o k = .free)
    (hrange : mem.InRange k) : Restored D o mem (mem'.push k) := by
  have hexact := h.exact.push (by rw [update_self]; trivial) (hrange.congr h.lo)
  rw [update_idem, ← hk, update_eq_self] at hexact
  refine ⟨hexact, h.lo, fun q hq => ?_⟩
  have hqk : q ≠ k := by
    rintro rfl
    exact hq hk
  rw [Mem.push_page_of_ne hqk, h.page q (by rw [update_of_ne hqk]; exact hq), Mem.pop_page]

/-- The page that was lost is not on the free list. -/
theorem Leaked.not_mem_push (h : Leaked D (update o k .none) mem.pop r mem') :
    o r = .free ∧ r ∉ (mem'.push k).freelist := by
  have hfree := h.free
  have hrk : r ≠ k := by
    rintro rfl
    rw [update_self] at hfree
    nomatch hfree
  rw [update_of_ne hrk] at hfree
  refine ⟨hfree, fun hmem => ?_⟩
  rcases List.mem_cons.mp hmem with heq | hin
  · exact hrk heq
  · have ho := h.exact.free_iff.mpr hin
    rw [update_self] at ho
    nomatch ho

theorem le_PGROUNDUP (sz : ℕ) : sz ≤ PGROUNDUP sz := by
  simp only [PGROUNDUP, PGSIZE]
  omega

theorem wp_forkAll {Q : Option (Fin n) → Forker n → Prop} {E : Panic → Forker n → Prop} (hl : Linked l) (h0 : Exact D o s.kern.mem) (hpd : pd ∈ D)
    (hp : (s.kern.proc p).pgdir = some pd) (hsz : (s.kern.proc p).sz < KERNBASE)
    (hpresent : ∀ va < PGROUNDUP (s.kern.proc p).sz, (s.kern.mem.pte pd va).p = true)
    (hnone : findUnused s.kern = none → Q none s)
    (hclean : ∀ np s' m, findUnused s.kern = some np → Unforked s np s' → Restored D o s.kern.mem s'.kern.mem →
      s.kern.mem.FirstFails m → (∀ q, m ≠ 67 + 1025 * q) → Q none s')
    (hleak : ∀ np s' r q, findUnused s.kern = some np → r ∈ s.kern.mem.freelist → r ∉ s'.kern.mem.freelist →
      q * 1024 * PGSIZE < (s.kern.proc p).sz → s.kern.mem.FirstFails (67 + 1025 * q) → Q none s')
    (hok : ∀ np s', findUnused s.kern = some np →
      (∀ q, q * 1024 * PGSIZE < (s.kern.proc p).sz → ¬ s.kern.mem.FirstFails (67 + 1025 * q)) → Q (some np) s')
    (hpanic : (∀ q, q * 1024 * PGSIZE < (s.kern.proc p).sz → ¬ s.kern.mem.FirstFails (67 + 1025 * q)) →
      ∀ e s', E e s') : Wp (forkAll l p) Q E s := by
  have hdir : pgdirOf (s.kern.proc p) = (pure pd : KernCode n ℕ) := by
    unfold pgdirOf
    rw [hp]
  unfold forkAll
  rw [wp_bind, wp_get]
  cases hfind : findUnused s.kern with
  | none => exact hnone hfind
  | some np =>
    have hslot := findUnused_state hfind
    simp only [wp_bind, kern, vm, wp_zoom]
    refine wp_kalloc_exact (fun hnext => ?_) fun k hnext => ?_
    · exact hclean np (s.change np { s.kern.proc np with kstack := none } s.kern.mem.tick) 0 hfind (.change hslot)
        ⟨h0.tick, rfl, fun _ _ => rfl⟩ ((Calls.refl _).firstFails hnext) (by omega)
    · obtain ⟨h1, hok', hrange⟩ := h0.take hnext
      have hpte : ∀ va, s.kern.mem.pop.pte pd va = s.kern.mem.pte pd va := fun _ => rfl
      have hcalls := Calls.pop hnext
      simp only [wp_bind, wp_zoom, setProc, wp_modify, hdir, wp_pure]
      refine wp_copyuvm_exact hl h1 hpd hsz hpresent (fun mem' m hr hm hfirst => ?_) (fun mem' j hr _ hfirst => ?_)
        (fun mem' r j hlk hlt hj hfirst => ?_) fun d o' mem' j hj hc => ?_
      · simp only [wp_bind, wp_zoom, wp_modify, wp_pure, update_idem]
        refine wp_kfree_exact (hrange.congr hr.lo) ?_
        exact hclean np (s.change np ⟨.UNUSED, none, none, (s.kern.proc np).sz⟩ (mem'.push k)) _ hfind (.change rfl)
          (hr.push hok' hrange) (hcalls.firstFails_add hfirst) (by omega)
      · simp only [wp_bind, wp_zoom, wp_modify, wp_pure, update_idem]
        refine wp_kfree_exact (hrange.congr hr.lo) ?_
        exact hclean np (s.change np ⟨.UNUSED, none, none, (s.kern.proc np).sz⟩ (mem'.push k)) _ hfind (.change rfl)
          (hr.push hok' hrange) (hcalls.firstFails_add hfirst) (frame_call_ne j)
      · simp only [wp_bind, wp_zoom, wp_modify, wp_pure]
        obtain ⟨hr, hnot⟩ := hlk.not_mem_push
        refine wp_kfree_exact (hrange.congr hlk.lo) ?_
        have hj' : j / 1024 * 1024 = j := by omega
        refine hleak np _ r (j / 1024) hfind (h0.free_iff.mp hr) hnot (by rw [hj']; exact hlt) ?_
        have hcall : 1 + (65 + (j + (j + 1023) / 1024) + 1) = 67 + 1025 * (j / 1024) := by omega
        exact hcall ▸ hcalls.firstFails_add hfirst
      · -- enough memory for all page tables
        have hno : ∀ q, q * 1024 * PGSIZE < (s.kern.proc p).sz → ¬ s.kern.mem.FirstFails (67 + 1025 * q) := by
          intro q hq hfirst
          refine (hcalls.trans hc.calls).not_failsAt ?_ hfirst.1
          have hlt : q * 1024 < j := by
            have hlt' : q * 1024 * PGSIZE < j * PGSIZE := by
              rw [hj]
              exact Nat.lt_of_lt_of_le hq (le_PGROUNDUP _)
            exact Nat.lt_of_mul_lt_mul_right hlt'
          omega
        simp only [wp_bind, wp_zoom, wp_modify, wp_pure]
        refine wp_mono wp_true (fun _ s1 _ => ?_) fun e s1 _ => hpanic hno e s1
        refine wp_mono wp_true (fun _ s2 _ => ?_) fun e s2 _ => hpanic hno e s2
        exact hok np _ hfind hno

/-- What a failed `fork` of process `p` has to leave: the free pages, a free slot, and the parent with its memory, its
open files and the references of its working directory. -/
structure ForkUndone (s : Forker n) (p : Fin n) (s' : Forker n) : Prop where
  free : ∀ r, r ∈ s'.kern.mem.freelist ↔ r ∈ s.kern.mem.freelist
  slot : ∀ np, findUnused s.kern = some np → (s'.kern.proc np).state = .UNUSED
  proc : s'.kern.proc p = s.kern.proc p
  memory : ∀ pd, (s.kern.proc p).pgdir = some pd → (∀ i j, s'.kern.mem.entry pd i j = s.kern.mem.entry pd i j) ∧
    ∀ va < KERNBASE, (s.kern.mem.pte pd va).p = true → s'.kern.mem.contents pd va = s.kern.mem.contents pd va
  files : s'.ofile = s.ofile ∧ s'.fileRef = s.fileRef
  cwd : s'.cwd = s.cwd ∧ s'.inodeRef = s.inodeRef

/-- A failed `fork` of process `p` leaks nothing. -/
def ForkFailsClean (l : Layout) (s : Forker n) (p : Fin n) : Prop :=
  ∀ s', (forkAll l p).run s = .ok none s' → ForkUndone s p s'

/-- The first call of `kalloc` that fails is for a page table of the child's user memory: after the kernel stack and the
65 pages of the kernel half, in every 4 MB that for its first page is followed by the one for the page table. -/
def TableFails (s : Forker n) (p : Fin n) : Prop :=
  ∃ q, q * 1024 * PGSIZE < (s.kern.proc p).sz ∧ s.kern.mem.FirstFails (67 + 1025 * q)

/-- A failed `fork` leaks nothing, unless the first call of `kalloc` that fails is for a page table of the child's user
memory: then the page that was to be mapped is lost. -/
theorem fork_fails_clean_iff (hl : Linked l) (h0 : Exact D o s.kern.mem) (hpd : pd ∈ D)
    (hp : (s.kern.proc p).pgdir = some pd) (hstate : (s.kern.proc p).state ≠ .UNUSED)
    (hsz : (s.kern.proc p).sz < KERNBASE)
    (hpresent : ∀ va < PGROUNDUP (s.kern.proc p).sz, (s.kern.mem.pte pd va).p = true) :
    ForkFailsClean l s p ↔ ¬ (findUnused s.kern ≠ none ∧ TableFails s p) := by
  constructor
  · rintro hclean ⟨hfind, q, hq, hfirst⟩
    have hwp : Wp (forkAll l p) (fun x s' => x = none ∧ ∃ r, r ∈ s.kern.mem.freelist ∧ r ∉ s'.kern.mem.freelist)
        (fun _ _ => False) s := by
      refine wp_forkAll hl h0 hpd hp hsz hpresent (fun hnone => absurd hnone hfind) (fun np s' m _ _ _ hm hne => ?_)
        (fun np s' r q' _ hr hr' _ _ => ⟨rfl, r, hr, hr'⟩) (fun np s' _ hno => ?_) fun hno => ?_
      · exact absurd (FirstFails.unique hm hfirst) (hne q)
      · exact absurd hfirst (hno q hq)
      · exact absurd hfirst (hno q hq)
    obtain ⟨x, s', hrun, rfl, r, hr, hr'⟩ := wp_returns hwp
    exact hr' (((hclean s' hrun).free r).mpr hr)
  · intro hno s' hrun
    refine wp_ok (Q := fun x s' => x = none → ForkUndone s p s') (E := fun _ _ => True) ?_ hrun rfl
    refine wp_forkAll hl h0 hpd hp hsz hpresent (fun hnone _ => ?_) (fun np s' m hfind hu hr _ _ _ => ?_)
      (fun np s' r q hfind _ _ hq hfirst => ?_) (fun _ _ _ _ => nofun) fun _ _ _ => trivial
    · exact ⟨fun _ => Iff.rfl, fun np hfind => absurd (hnone.symm.trans hfind) nofun, rfl,
        fun _ _ => ⟨fun _ _ => rfl, fun _ _ _ => rfl⟩, ⟨rfl, rfl⟩, rfl, rfl⟩
    · have hne : p ≠ np := by
        rintro rfl
        exact hstate (findUnused_state hfind)
      refine ⟨fun r => hr.mem_freelist h0, fun np' hfind' => ?_, hu.procs p hne, fun pd' hpd' => ?_,
        ⟨hu.ofile, hu.fileRef⟩, hu.cwd, hu.inodeRef⟩
      · obtain rfl := Option.some.inj (hfind.symm.trans hfind')
        exact hu.slot
      · obtain rfl := Option.some.inj (hp.symm.trans hpd')
        have hentry := h0.entry_congr hpd hr.page
        refine ⟨hentry, fun va hva hpte => ?_⟩
        rw [Mem.contents, Mem.contents, Mem.pte, hentry]
        exact hr.page _ (h0.frame_ne_free hpd hva hpte)
    · exact absurd ⟨by rw [hfind]; exact nofun, q, hq, hfirst⟩ hno

/-! ## A process with one page -/

theorem neZero_two : NeZero 2 := ⟨two_ne_zero⟩

section

attribute [local instance] neZero_two

/-- The process with one page and a free slot; `k` pages are free. -/
def onePageForker (k : ℕ) : Forker 2 where
  kern := ⟨onePage k, fun q => if q = 0 then ⟨.RUNNING, some 1, none, PGSIZE⟩ else ⟨.UNUSED, none, none, 0⟩, [], none⟩
  ofile _ _ := none
  cwd _ := 0
  fileRef _ := 0
  inodeRef _ := 1

end

theorem onePage_first : (onePage k).FirstFails k := by
  have hlen : (onePage k).freelist.length = k := List.length_range'
  refine ⟨.inr hlen.le, fun m hm => ?_⟩
  rintro (hf | hle)
  · exact absurd hf Bool.false_ne_true
  · omega

/-- With 67 free pages there is none for the page table. -/
theorem fork_leaks : ¬ ForkFailsClean smallLayout (onePageForker 67) 0 := by
  intro hclean
  have hwp : Wp (forkAll smallLayout 0) (fun x s' => x = none ∧ ∃ r, r ∈ (onePage 67).freelist ∧ r ∉ s'.kern.mem.freelist)
      (fun _ _ => False) (onePageForker 67) := by
    refine wp_forkAll smallLayout_linked (onePage_exact (k := 67) (by decide)) (Set.mem_singleton 1) rfl (by decide)
      (fun _ => onePage_present) (fun hnone => absurd hnone (by decide)) (fun np s' m _ _ _ hm hne => ?_)
      (fun np s' r q' _ hr hr' _ _ => ⟨rfl, r, hr, hr'⟩) (fun np s' _ hno => ?_) fun hno => ?_
    · exact absurd (FirstFails.unique hm onePage_first) (hne 0)
    · exact absurd onePage_first (hno 0 (by decide))
    · exact absurd onePage_first (hno 0 (by decide))
  obtain ⟨x, s', hrun, rfl, r, hr, hr'⟩ := wp_returns hwp
  exact hr' (((hclean s' hrun).free r).mpr hr)

theorem fork_fails_clean_onePage : ForkFailsClean smallLayout (onePageForker 66) 0 := by
  have hpresent : ∀ va < PGROUNDUP PGSIZE, ((onePage 66).pte 1 va).p = true := fun _ => onePage_present
  refine (fork_fails_clean_iff (s := onePageForker 66) (p := 0) smallLayout_linked (onePage_exact (k := 66) (by decide))
    (Set.mem_singleton 1) rfl (by decide) (by decide) hpresent).mpr ?_
  rintro ⟨-, q, -, hfirst⟩
  have hq := FirstFails.unique hfirst onePage_first
  omega

end Vm

end Xv6
