import Xv6.Vm.Calls

/-!
# Every page has at most one owner

Each call keeps an agreeing labelling, and so does every run. An agreeing labelling leaves no room for a second owner.
-/

namespace Xv6

open Function List

namespace Vm

open Code

variable {n : ℕ} {s : Kern n} {o : ℕ → Owner} {p : Fin n} {l : Layout}

theorem keeping_kvmalloc (h : Owned s o) (hno : s.kpgdir = none) : Keeping (kvmalloc l) s := by
  unfold Keeping kvmalloc
  rw [wp_bind]
  refine wp_vm (wp_setupkvm h.inv l) fun x m hm => ?_
  rw [wp_modify]
  cases x with
  | none =>
    obtain ⟨o', ho'⟩ := h.reaches hm
    refine ⟨o', ?_⟩
    have hsame : ({ s with mem := m, kpgdir := none } : Kern n) = { s with mem := m } := by rw [← hno]
    exact hsame ▸ ho'
  | some d =>
    obtain ⟨hd, -, o', hi, hk⟩ := hm
    have hkeep : ∀ p e, s.Live p → (s.proc p).pgdir = some e → e ≠ d := by
      rintro p e hp he rfl
      exact hd (.inl ⟨p, hp, he⟩)
    have hdirs : Kern.dirs { s with mem := m, kpgdir := some d } = insert d s.dirs := by
      ext e
      constructor
      · rintro (hl | hd')
        · exact .inr (.inl hl)
        · exact .inl (by simpa using hd'.symm)
      · rintro (rfl | hl | hd')
        · exact .inr rfl
        · exact .inl hl
        · simp [hno] at hd'
    refine ⟨o', hdirs ▸ hi, fun p r hp hr => ?_, fun x hx => ?_, h.pipes, h.single, fun p e hp he => ?_, h.sz⟩
    · have ho := h.kstack p r hp hr
      rw [hk r (by simp [ho, Owner.Outside]), ho]
    · have ho := h.pipe x hx
      rw [hk _ (by simp [ho, Owner.Outside]), ho]
    · simpa using (hkeep p e hp he).symm

variable {k r : ℕ} {x : Proc} {o' : ℕ → Owner} {s' : Kern n}

/-- The part that `fork` and `userinit` share: the new slot has a kernel stack. -/
theorem Owned.claim_kstack (h : Owned s o) {m : Mem} {np : Fin n} (hlo : m.lo = s.mem.lo) (hr : s.mem.lo ≤ k)
    (hor : o k = .free) (hi : Inv s.dirs (update o k .none) m) :
    Owned { s with mem := m } (update o k (.kstack np)) := by
  obtain ⟨hi', hk⟩ := hi.claim hlo hr hor (.kstack np)
  exact h.keep hi' hk

theorem keeping_userinit (h : Owned s o) (init : Table) : Keeping (userinit l init) s := by
  unfold Keeping userinit
  rw [wp_bind, wp_get]
  cases hfind : findUnused s with
  | none => trivial
  | some np =>
    have hu := findUnused_spec hfind
    simp only [wp_bind]
    refine wp_vm (wp_kalloc h.inv) fun x m hm => ?_
    obtain ⟨hlo, -, hx⟩ := hm
    cases x with
    | none => trivial
    | some k =>
      obtain ⟨hr, hor, hi⟩ := hx
      have h1 : Owned { s with mem := m } (update o k (.kstack np)) := h.claim_kstack hlo hr hor hi
      simp only [wp_bind, setProc, wp_modify]
      refine wp_vm (wp_setupkvm (s := m) h1.inv l) fun x m2 hm2 => ?_
      cases x with
      | none => trivial
      | some d =>
        obtain ⟨hd, hlo2, o2, hi2, hk2⟩ := hm2
        simp only [wp_bind]
        refine wp_vm (wp_inituvm hi2 (Set.mem_insert d _) init) fun _ m3 hm3 => ?_
        obtain ⟨-, o3, hi3, hk3⟩ := hm3
        have hkeep := hk2.trans hk3
        have hkstack : o3 k = .kstack np := by
          rw [hkeep k (by simp [Owner.Outside])]
          exact update_self ..
        rw [wp_modify, update_idem]
        exact ⟨o3, h1.newProc hu hd hi3 hkeep hkstack (by decide)⟩

theorem keeping_fork (h : Owned s o) (hp : s.Live p) : Keeping (fork l p) s := by
  unfold Keeping fork
  rw [wp_bind, wp_get]
  cases hfind : findUnused s with
  | none => exact ⟨o, h⟩
  | some np =>
    have hu := findUnused_spec hfind
    simp only [wp_bind]
    refine wp_vm (wp_kalloc h.inv) fun x m hm => ?_
    obtain ⟨hlo, -, hx⟩ := hm
    cases x with
    | none =>
      simp only [wp_bind, setProc, wp_modify, wp_pure]
      exact ⟨o, (h.keep hx (Keeps.refl o)).setDead hu hu⟩
    | some k =>
      obtain ⟨hr, hor, hi⟩ := hx
      have h1 : Owned { s with mem := m } (update o k (.kstack np)) := h.claim_kstack hlo hr hor hi
      simp only [wp_bind, setProc, wp_modify]
      apply wp_pgdirOf
      intro d hd
      refine wp_vm (wp_copyuvm (s := m) h1.inv l d (h.sz p hp)) fun x m2 hm2 => ?_
      cases x with
      | none =>
        -- the kernel stack goes back to the free list
        obtain ⟨-, o2, hi2, hk2⟩ := hm2
        have hkstack : o2 k = .kstack np := by
          rw [hk2 k (by simp [Owner.Outside])]
          exact update_self ..
        have hloose : Loose s.dirs o2 k := .of_outside (by simp [hkstack, Owner.Outside])
        simp only [wp_bind]
        refine wp_vm (wp_kfree hi2 (hloose.unused hi2)) fun _ m3 hm3 => ?_
        obtain ⟨-, hi3, -⟩ := hm3
        simp only [wp_modify, wp_pure, update_idem]
        have hkeep : Keeps o (update o2 k .free) := by
          intro q hq
          have hne : q ≠ k := by
            rintro rfl
            simp [hor, Owner.Outside] at hq
          have hq1 : update o k (.kstack np) q = o q := update_of_ne hne ..
          rw [update_of_ne hne, hk2 q (by rw [hq1]; exact hq), hq1]
        exact ⟨_, (h.keep hi3 hkeep).setDead hu rfl⟩
      | some d' =>
        obtain ⟨hd', -, o2, hi2, hk2⟩ := hm2
        have hkstack : o2 k = .kstack np := by
          rw [hk2 k (by simp [Owner.Outside])]
          exact update_self ..
        simp only [wp_bind, wp_modify, wp_pure, update_idem]
        exact ⟨o2, h1.newProc hu hd' hi2 hk2 hkstack (h.sz p hp)⟩

/-- A change of a process that keeps its pages. -/
theorem Owned.setLive (h : Owned s o) (hp : s.Live p) (hx : x.state ≠ .UNUSED)
    (hpgdir : x.pgdir = (s.proc p).pgdir) (hkstack : x.kstack = (s.proc p).kstack) (hsz : x.sz ≤ KERNBASE) :
    Owned { s with proc := update s.proc p x } o := by
  refine h.setProc h.inv (fun d => ?_) (fun q r _ => h.kstack q r) h.pipe fun _ => ⟨fun r hr => ?_, hsz, fun d hd => ?_⟩
  · rw [s.mem_dirs_iff p, hpgdir]
    simp [hp, hx]
  · exact h.kstack p r hp (hkstack ▸ hr)
  · rw [hpgdir] at hd
    exact ⟨h.kernel p d hp hd, fun q hne hq hd' => hne (h.single q p d hq hp hd' hd)⟩

theorem Kern.mem_dirs {d : ℕ} (hp : s.Live p) (hd : (s.proc p).pgdir = some d) : d ∈ s.dirs := .inl ⟨p, hp, hd⟩

theorem keeping_growproc (h : Owned s o) (hp : s.Live p) (m : ℤ) : Keeping (growproc p m) s := by
  unfold Keeping growproc
  rw [wp_bind, wp_get, wp_bind]
  apply wp_pgdirOf
  intro d hd
  have hmem := s.mem_dirs hp hd
  split_ifs
  · rw [wp_bind]
    refine wp_vm (wp_allocuvm h.inv hmem (h.sz p hp) _) fun x m1 hm => ?_
    obtain ⟨o1, h1⟩ := h.reaches hm.1
    split_ifs
    · exact ⟨o1, h1⟩
    · exact ⟨o1, h1.setLive hp hp rfl rfl hm.2.1⟩
  · rw [wp_bind]
    refine wp_vm (wp_deallocuvm h.inv hmem (h.sz p hp) _) fun x m1 hm => ?_
    obtain ⟨o1, h1⟩ := h.reaches hm.1
    split_ifs
    · exact ⟨o1, h1⟩
    · exact ⟨o1, h1.setLive hp hp rfl rfl (hm.2.trans (h.sz p hp))⟩
  · exact ⟨o, h⟩

/-! ## `exec` -/

section
variable {D : Set ℕ} {d : ℕ} {m : Mem}

theorem wp_execLoop (hd : d ∈ D) : ∀ (phs : List (Option Proghdr)) {m : Mem} {o : ℕ → Owner} (sz : ℕ), sz ≤ KERNBASE →
    Inv D o m → Wp (execLoop d sz phs)
      (fun x m' => Reaches D o m.lo m' ∧ ∀ sz', x = some sz' → sz' ≤ KERNBASE) Any m
  | [], m, o, sz, hsz, h => ⟨h.reaches, by rintro _ ⟨⟩; exact hsz⟩
  | none :: phs, m, o, sz, hsz, h => ⟨h.reaches, nofun⟩
  | some ph :: phs, m, o, sz, hsz, h => by
    unfold execLoop
    split_ifs with hload hmemsz hwrap haligned
    · exact wp_execLoop hd phs sz hsz h
    · exact ⟨h.reaches, nofun⟩
    · exact ⟨h.reaches, nofun⟩
    · rw [wp_bind]
      refine wp_post (wp_allocuvm h hd hsz _) ?_
      intro x m1 ⟨hm, _⟩
      split_ifs
      · exact ⟨hm, nofun⟩
      · exact ⟨hm, nofun⟩
    · rw [wp_bind]
      refine wp_post (wp_allocuvm h hd hsz _) ?_
      intro x m1 ⟨⟨hlo, o1, h1, hk⟩, hx, hnewsz⟩
      split_ifs with hzero
      · exact ⟨⟨hlo, o1, h1, hk⟩, nofun⟩
      · -- the segment ends below KERNBASE, so that what is loaded does
        have hend : ph.vaddr.toNat + ph.filesz.toNat ≤ KERNBASE := by
          have hbelow := hnewsz hzero
          rw [BitVec.toNat_add] at hbelow
          rw [BitVec.lt_def, BitVec.toNat_add] at hwrap
          rw [BitVec.lt_def] at hmemsz
          have hv := ph.vaddr.isLt
          have hm := ph.memsz.isLt
          omega
        rw [wp_bind]
        refine wp_post (wp_loaduvm h1 hd hend ph.file) ?_
        intro ok m2 ⟨hlo2, o2, h2, hk2⟩
        split_ifs
        · refine wp_post (wp_execLoop hd phs x hx h2) ?_
          intro y m3 ⟨hm3, hy⟩
          rw [hlo2, hlo] at hm3
          exact ⟨hm3.trans (hk.trans hk2), hy⟩
        · exact ⟨⟨hlo2.trans hlo, o2, h2, hk.trans hk2⟩, nofun⟩

theorem wp_pushArgs (hd : d ∈ D) : ∀ (args : List (ℕ × List Table)) {m : Mem} {o : ℕ → Owner}, Inv D o m →
    Wp (pushArgs d args) (fun _ m' => Reaches D o m.lo m') Any m
  | [], m, o, h => h.reaches
  | (sp, xs) :: rest, m, o, h => by
    unfold pushArgs
    rw [wp_bind]
    refine wp_post (wp_copyout hd xs sp h) ?_
    intro ok m1 ⟨hlo, o1, h1, hk⟩
    split_ifs
    · refine wp_post (wp_pushArgs hd rest h1) ?_
      intro _ m2 hm2
      rw [hlo] at hm2
      exact hm2.trans hk
    · exact ⟨hlo, o1, h1, hk⟩

theorem PGROUNDUP_le {sz : ℕ} (h : sz ≤ KERNBASE) : PGROUNDUP sz ≤ KERNBASE := by
  simp only [PGROUNDUP, PGSIZE, KERNBASE] at *
  omega

theorem wp_execImage (h : Inv D o m) (hd : d ∈ D) (phs : List (Option Proghdr)) (args : List (ℕ × List Table)) :
    Wp (execImage d phs args) (fun x m' => Reaches D o m.lo m' ∧ ∀ sz, x = some sz → sz ≤ KERNBASE) Any m := by
  unfold execImage
  rw [wp_bind]
  refine wp_post (wp_execLoop hd phs 0 (Nat.zero_le _) h) ?_
  rintro x m1 ⟨⟨hlo, o1, h1, hk⟩, hx⟩
  cases x with
  | none => exact ⟨⟨hlo, o1, h1, hk⟩, by simp⟩
  | some sz =>
    have hsz : sz ≤ KERNBASE := hx sz rfl
    have hround : PGROUNDUP sz ≤ KERNBASE := PGROUNDUP_le hsz
    simp only [wp_bind]
    -- otherwise the comparison with `KERNBASE` is evaluated
    generalize PGROUNDUP sz + 2 * PGSIZE = newsz
    refine wp_post (wp_allocuvm h1 hd hround newsz) ?_
    rintro y m2 ⟨⟨hlo2, o2, h2, hk2⟩, hy, _⟩
    split_ifs
    · exact ⟨⟨hlo2.trans hlo, o2, h2, hk.trans hk2⟩, by simp⟩
    · rw [wp_bind]
      refine wp_post (wp_clearpteu h2 hd _) ?_
      rintro _ m3 ⟨hlo3, o3, h3, hk3⟩
      rw [wp_bind]
      refine wp_post (wp_pushArgs hd args h3) ?_
      intro ok m4 hm4
      rw [hlo3, hlo2, hlo] at hm4
      have hm := hm4.trans ((hk.trans hk2).trans hk3)
      split_ifs
      · exact ⟨hm, by rintro _ ⟨⟩; exact hy⟩
      · exact ⟨hm, by simp⟩

end

section

variable (h : Owned s o)

include h

/-- A process gets a new image, and its old page directory is gone. -/
theorem Owned.newImage (hp : s.Live p) {old d sz : ℕ} (hold : (s.proc p).pgdir = some old)
    (hd : d ∉ s.dirs) {m : Mem} (hi : Inv (insert d s.dirs \ {old}) o' m) (hk : Keeps o o')
    (hsz : sz ≤ KERNBASE) :
    Owned { s with mem := m, proc := update s.proc p { s.proc p with pgdir := some d, sz := sz } } o' := by
  obtain ⟨hstacks, hpipes⟩ := h.outside hk
  have hmem := s.mem_dirs hp hold
  refine h.setProc hi (fun e => ?_) (fun q r _ => hstacks q r) hpipes fun _ => ⟨fun r => hstacks p r hp, hsz, ?_⟩
  · have hkernel := h.kernel p old hp hold
    have hsingle := fun q hq => h.single q p old hq hp
    rw [Set.mem_sdiff, Set.mem_insert_iff, Set.mem_singleton_iff, s.mem_dirs_iff p]
    have hlive : (s.proc p).state ≠ .UNUSED := hp
    grind
  · rintro e ⟨⟩
    exact ⟨fun hkp => hd (.inr hkp), fun q _ hq he => hd (.inl ⟨q, hq, he⟩)⟩

theorem keeping_exec (hp : s.Live p) (phs : List (Option Proghdr)) (args : List (ℕ × List Table)) :
    Keeping (exec l p phs args) s := by
  unfold Keeping exec
  rw [wp_bind, wp_get, wp_bind]
  refine wp_vm (wp_setupkvm h.inv l) fun x m hm => ?_
  cases x with
  | none => exact h.reaches hm
  | some d =>
    obtain ⟨hd, -, o1, h1, hk1⟩ := hm
    have hmem : d ∈ insert d s.dirs := Set.mem_insert d _
    simp only [wp_bind]
    refine wp_vm (wp_execImage (m := m) h1 hmem phs args) fun x m2 hm2 => ?_
    obtain ⟨⟨-, o2, h2, hk2⟩, hsz⟩ := hm2
    cases x with
    | none =>
      simp only [wp_bind]
      refine wp_vm (wp_freevm (s := m2) h2 hmem) fun _ m3 hm3 => ?_
      rw [Set.insert_sdiff_self_of_notMem hd] at hm3
      exact h.reaches (hm3.trans (hk1.trans hk2))
    | some sz =>
      simp only [wp_bind]
      apply wp_pgdirOf
      intro old hold
      simp only [setProc, wp_modify]
      have hold' : old ∈ insert d s.dirs := .inr (s.mem_dirs hp hold)
      refine wp_vm (wp_freevm (s := m2) h2 hold') fun _ m3 hm3 => ?_
      obtain ⟨-, o3, h3, hk3⟩ := hm3
      exact ⟨o3, h.newImage hp hold hd h3 ((hk1.trans hk2).trans hk3) (hsz sz rfl)⟩

/-! ## `exit` and `wait` -/

theorem keeping_exit (hp : s.Live p) : Keeping (exit p) s := by
  unfold Keeping exit
  rw [wp_bind, wp_get, setProc, wp_modify]
  exact ⟨o, h.setLive hp nofun rfl rfl (h.sz p hp)⟩

/-- A process is gone, with its page directory and its kernel stack. -/
theorem Owned.removeProc (hp : s.Live p) {d : ℕ} (hd : (s.proc p).pgdir = some d)
    (hkstack : (s.proc p).kstack = some k) {m : Mem} (hi : Inv (s.dirs \ {d}) o' m)
    (hkeep : Keeps (update o k .free) o') (hx : x.state = .UNUSED) :
    Owned { s with mem := m, proc := update s.proc p x } o' := by
  have hok := h.kstack p k hp hkstack
  -- the pages of the others keep their owners
  have hsame : ∀ r, r ≠ k → (o r).Outside → o' r = o r := by
    intro r hr hout
    have hup : update o k .free r = o r := update_of_ne hr ..
    rw [hkeep r (by rw [hup]; exact hout), hup]
  refine h.setProc hi (fun e => ?_) (fun q r hqp hq hr => ?_) (fun y hy => ?_) fun hno => absurd hx hno
  · have hkernel := h.kernel p d hp hd
    have hsingle := fun q hq => h.single q p d hq hp
    rw [Set.mem_sdiff, Set.mem_singleton_iff, s.mem_dirs_iff p]
    grind
  · have ho := h.kstack q r hq hr
    have hrk : r ≠ k := by
      rintro rfl
      rw [hok] at ho
      exact hqp (Fin.ext (Owner.kstack.inj ho).symm)
    rw [hsame r hrk (by simp [ho, Owner.Outside]), ho]
  · have ho := h.pipe y hy
    have hrk : y.page ≠ k := by
      rintro rfl
      rw [hok] at ho
      cases ho
    rw [hsame _ hrk (by simp [ho, Owner.Outside]), ho]

theorem keeping_wait (hp : s.Live p) : Keeping (wait p) s := by
  unfold Keeping wait
  rw [wp_bind, wp_get]
  cases hkstack : (s.proc p).kstack with
  | none => trivial
  | some k =>
    have hok := h.kstack p k hp hkstack
    have hloose : Loose s.dirs o k := .of_outside (by simp [hok, Owner.Outside])
    simp only [wp_bind]
    refine wp_vm (wp_kfree h.inv (hloose.unused h.inv)) fun _ m1 hm1 => ?_
    obtain ⟨-, h1, -⟩ := hm1
    apply wp_pgdirOf
    intro d hd
    refine wp_vm (wp_freevm (s := m1) h1 (s.mem_dirs hp hd)) fun _ m2 hm2 => ?_
    obtain ⟨-, o2, h2, hk2⟩ := hm2
    rw [setProc, wp_modify]
    exact ⟨o2, h.removeProc hp hd hkstack h2 hk2 rfl⟩

/-! ## Pipes -/

theorem keeping_pipealloc : Keeping pipealloc s := by
  unfold Keeping pipealloc
  rw [wp_bind]
  refine wp_vm (wp_kalloc h.inv) fun x m hm => ?_
  obtain ⟨hlo, -, hx⟩ := hm
  cases x with
  | none => exact ⟨o, h.keep hx (Keeps.refl o)⟩
  | some r =>
    obtain ⟨hr, hor, hi⟩ := hx
    obtain ⟨hi', hk⟩ := hi.claim hlo hr hor .pipe
    have h1 := h.keep hi' hk
    rw [wp_bind, wp_modify, wp_pure]
    refine ⟨update o r .pipe, h1.inv, h1.kstack, ?_, ?_, h1.single, h1.kernel, h1.sz⟩
    · intro y hy
      rcases mem_cons.mp hy with rfl | hy
      · exact update_self ..
      · exact h1.pipe y hy
    · refine nodup_cons.mpr ⟨fun hmem => ?_, h.pipes⟩
      obtain ⟨y, hy, rfl⟩ := mem_map.mp hmem
      exact absurd (hor.symm.trans (h.pipe y hy)) nofun

/-- A pipe is gone, with its page. -/
theorem Owned.removePipe (hr : o r = .pipe) {m : Mem} (hi : Inv s.dirs (update o r .free) m) :
    Owned { s with mem := m, pipes := s.pipes.filter (·.page ≠ r) } (update o r .free) := by
  have hne : ∀ q, o q ≠ .pipe → update o r .free q = o q := by
    intro q hq
    have hqr : q ≠ r := by
      rintro rfl
      exact hq hr
    exact update_of_ne hqr ..
  refine ⟨hi, fun q k hq hk => ?_, fun y hy => ?_, ?_, h.single, h.kernel, h.sz⟩
  · have ho := h.kstack q k hq hk
    rw [hne k (by simp [ho]), ho]
  · obtain ⟨hmem, hyr⟩ := mem_filter.mp hy
    rw [update_of_ne (by simpa using hyr)]
    exact h.pipe y hmem
  · exact h.pipes.sublist (filter_sublist.map _)

/-- Closing one end of a pipe leaves the pages as they are. -/
theorem Owned.setPipe {x : Pipe} (hx : x.page = r) :
    Owned { s with pipes := s.pipes.map fun y => if y.page = r then x else y } o := by
  have hpage : ∀ y : Pipe, (if y.page = r then x else y).page = y.page := by
    intro y
    split_ifs with hy
    · rw [hx, hy]
    · rfl
  refine ⟨h.inv, h.kstack, fun y hy => ?_, ?_, h.single, h.kernel, h.sz⟩
  · obtain ⟨z, hz, rfl⟩ := mem_map.mp hy
    rw [hpage z]
    exact h.pipe z hz
  · have hpages : (s.pipes.map fun y => if y.page = r then x else y).map Pipe.page = s.pipes.map Pipe.page := by
      rw [map_map]
      exact map_congr_left fun y _ => hpage y
    simpa only [hpages] using h.pipes

theorem keeping_pipeclose (r : ℕ) (writable : Bool) : Keeping (pipeclose r writable) s := by
  unfold Keeping pipeclose
  rw [wp_bind, wp_get]
  cases hfind : s.pipes.find? (·.page = r) with
  | none => exact ⟨o, h⟩
  | some x =>
    have hpage : x.page = r := by simpa using find?_some hfind
    have hor : o r = .pipe := hpage ▸ h.pipe x (mem_of_find?_eq_some hfind)
    have hloose : Loose s.dirs o r := .of_outside (by simp [hor, Owner.Outside])
    have hpage' : (if writable then { x with writeopen := false } else { x with readopen := false } : Pipe).page = r := by
      split_ifs <;> exact hpage
    dsimp only
    generalize (if writable then { x with writeopen := false } else { x with readopen := false } : Pipe) = y at hpage' ⊢
    split_ifs
    · rw [wp_bind, wp_modify]
      refine wp_vm (wp_kfree h.inv (hloose.unused h.inv)) fun _ m hm => ?_
      exact ⟨_, h.removePipe hor hm.2.1⟩
    · rw [wp_modify]
      exact ⟨o, h.setPipe hpage'⟩

theorem keeping_store (hp : s.Live p) (va : ℕ) (x : Table) : Keeping (store p va x) s := by
  unfold Keeping store
  rw [wp_bind, wp_get, wp_bind]
  apply wp_pgdirOf
  intro d hd
  rw [wp_bind]
  refine wp_vm (wp_copyout (s.mem_dirs hp hd) [x] va h.inv) fun _ m hm => ?_
  exact h.reaches hm

end

/-! ## Runs -/

theorem Kern.Runs.live (h : s.Runs p) : s.Live p := h.1

theorem Keeping.after {α : Type} {x : KernCode n α} (h : Keeping x s) (hs : s.after x = some s') :
    ∃ o, Owned s' o := by
  unfold Kern.after at hs
  unfold Keeping Wp at h
  cases hx : x.run s with
  | ok a s1 =>
    rw [hx] at hs h
    obtain rfl : s1 = s' := by simpa using hs
    exact h
  | error e s1 =>
    rw [hx] at hs
    nomatch hs

theorem Owned.next {e : Event n} (h : Owned s o) (hs : s.next l e = some s') : ∃ o, Owned s' o := by
  cases e with
  | kvmalloc =>
    obtain ⟨hno, hs⟩ := Option.ite_none_right_eq_some.mp hs
    exact (keeping_kvmalloc h hno).after hs
  | userinit init => exact (keeping_userinit h init).after hs
  | fork p =>
    obtain ⟨hp, hs⟩ := Option.ite_none_right_eq_some.mp hs
    exact (keeping_fork h hp.live).after hs
  | growproc p m =>
    obtain ⟨hp, hs⟩ := Option.ite_none_right_eq_some.mp hs
    exact (keeping_growproc h hp.live m).after hs
  | exec p phs args =>
    obtain ⟨hp, hs⟩ := Option.ite_none_right_eq_some.mp hs
    exact (keeping_exec h hp.live phs args).after hs
  | exit p =>
    obtain ⟨hp, hs⟩ := Option.ite_none_right_eq_some.mp hs
    exact (keeping_exit h hp.live).after hs
  | wait c =>
    obtain ⟨hc, hs⟩ := Option.ite_none_right_eq_some.mp hs
    exact (keeping_wait h (by simp [Kern.Live, hc])).after hs
  | pipe => exact (keeping_pipealloc h).after hs
  | close r w => exact (keeping_pipeclose h r w).after hs
  | store p va x =>
    obtain ⟨hp, hs⟩ := Option.ite_none_right_eq_some.mp hs
    exact (keeping_store h hp.live va x).after hs

/-- At the start a page is on the free list or has no owner. -/
theorem Init.owned (h : Init s) : ∃ o, Owned s o := by
  have hlive : ∀ p, ¬ s.Live p := fun p hp => hp (h.proc p)
  have hdirs : ∀ d, d ∉ s.dirs := by
    rintro d (⟨p, hp, -⟩ | hd)
    · exact hlive p hp
    · simp [h.kpgdir] at hd
  refine ⟨fun r => if r ∈ s.mem.freelist then .free else .none, ⟨h.pos, fun r hr => ?_, h.nodup, fun r hr => if_pos hr,
    fun d hd => absurd hd (hdirs d), fun d hd => absurd hd (hdirs d), fun d hd => absurd hd (hdirs d)⟩,
    fun p _ hp => absurd hp (hlive p), fun x hx => ?_, ?_, fun p _ _ hp => absurd hp (hlive p),
    fun p _ hp => absurd hp (hlive p), fun p hp => absurd hp (hlive p)⟩
  · by_contra hlt
    exact hr (if_neg fun hmem => hlt (h.free r hmem))
  · simp [h.pipes] at hx
  · simp [h.pipes]

theorem owned_of_reachable (h : (lts n l).Reachable s) : ∃ o, Owned s o := by
  refine h.invariant (I := fun s => ∃ o, Owned s o) (fun _ hs => Init.owned hs) ?_
  rintro s e s' ⟨o, ho⟩ - hs
  exact ho.next hs

/-- What a page is used for, as the kernel's own data say it. -/
inductive Owns (s : Kern n) : Owner → ℕ → Prop where
  | free {r : ℕ} : r ∈ s.mem.freelist → Owns s .free r
  | dir {d : ℕ} : d ∈ s.dirs → Owns s .dir d
  | table {d : ℕ} {i : Fin NPDENTRIES} : d ∈ s.dirs → (s.mem.page d i).p = true →
      Owns s (.table d i) (s.mem.page d i).ppn
  | frame {d : ℕ} {i j : Fin NPDENTRIES} : d ∈ s.dirs → (s.mem.page d i).p = true → Low i →
      (s.mem.page (s.mem.page d i).ppn j).p = true → Owns s (.frame d i j) (s.mem.page (s.mem.page d i).ppn j).ppn
  | kstack {p : Fin n} {r : ℕ} : s.Live p → (s.proc p).kstack = some r → Owns s (.kstack p) r
  | pipe {x : Pipe} : x ∈ s.pipes → Owns s .pipe x.page

/-- Each use agrees with the label. -/
theorem Owned.owns (h : Owned s o) {x : Owner} (hx : Owns s x r) : o r = x := by
  cases hx with
  | free hr => exact h.inv.free r hr
  | dir hd => exact h.inv.dir r hd
  | table hd hp => exact h.inv.table _ hd _ hp
  | frame hd hp hlow hpj =>
    rcases (h.inv.entry _ hd _ hp _).1 hlow with ⟨-, ho⟩ | ⟨hno, -⟩
    · exact ho
    · exact absurd (hno.symm.trans hpj) Bool.false_ne_true
  | kstack hp hr => exact h.kstack _ r hp hr
  | pipe hx => exact h.pipe _ hx

/-- Every page has at most one owner, between the calls of any run. The free list has no page twice, a page directory
is of one process, a pipe has its page for itself, and no two processes map the same frame. -/
theorem page_owner (h : (lts n l).Reachable s) :
    (∀ r x y, Owns s x r → Owns s y r → x = y) ∧ s.mem.freelist.Nodup ∧ (s.pipes.map Pipe.page).Nodup ∧
      (∀ p q d, s.Live p → s.Live q → (s.proc p).pgdir = some d → (s.proc q).pgdir = some d → p = q) ∧
      ∀ p q d e i j i' j' r, s.Live p → s.Live q → (s.proc p).pgdir = some d → (s.proc q).pgdir = some e →
        Owns s (.frame d i j) r → Owns s (.frame e i' j') r → p = q ∧ i = i' ∧ j = j' := by
  obtain ⟨o, ho⟩ := owned_of_reachable h
  refine ⟨fun r x y hx hy => (ho.owns hx).symm.trans (ho.owns hy), ho.inv.nodup, ho.pipes, ho.single, ?_⟩
  intro p q d e i j i' j' r hp hq hd he hx hy
  have hsame := (ho.owns hx).symm.trans (ho.owns hy)
  obtain ⟨rfl, rfl, rfl⟩ := Owner.frame.inj hsame
  exact ⟨ho.single p q d hp hq hd he, rfl, rfl⟩

/-- Two pipes on three free pages, and one of them closed. -/
theorem page_owner_pipes : ∃ s, (lts 1 ⟨KERNBASE, by decide, by decide⟩).Reachable s ∧
    s.pipes.map Pipe.page = [2] ∧ s.mem.freelist = [1, 3] ∧ ∀ r x y, Owns s x r → Owns s y r → x = y := by
  let s : Kern 1 := ⟨⟨1, [1, 2, 3], fun _ _ => .zero, fun _ => false⟩, fun _ => ⟨.UNUSED, none, none, 0⟩, [], none⟩
  have hinit : (lts 1 ⟨KERNBASE, by decide, by decide⟩).init s :=
    ⟨by decide, by decide, by decide, fun _ => rfl, rfl, rfl⟩
  obtain ⟨s', hrun, hs'⟩ := Lts.Run.exists_of_exec _ (fun _ _ => true) s
    [.pipe, .pipe, .close 1 false, .close 1 true] (fun s => s.pipes.map Pipe.page == [2] && s.mem.freelist == [1, 3])
    hinit (by rfl)
  simp only [Bool.and_eq_true, beq_iff_eq] at hs'
  exact ⟨s', hrun.reachable, hs'.1, hs'.2, (page_owner hrun.reachable).1⟩

end Vm

end Xv6
