import Xv6.Vm.Null

/-!
# `exec` as a whole

If `exec` fails, nothing is left of it. If it succeeds, the process has the image that the file describes, a guard page
and a stack page with the arguments.
-/

namespace Xv6

namespace Vm

open Code

variable {n : ℕ} {l : Layout} {D : Set ℕ} {o o' : ℕ → Owner} {p : Fin n} {d old top : ℕ} {s s' : Execer n}
  {M : ℕ → UInt8} {rd : Reader} {found : Bool} {path : List UInt8} {argv : List (List UInt8)}

/-! ## The new image stays when the old one is freed -/

/-- The address space of `d`: the pages below `top`, with the guard page, and the mappings of the kernel. -/
structure AddressSpace (l : Layout) (d top : ℕ) (M : ℕ → UInt8) (s : Mem) : Prop where
  present : ∀ va < top, ∃ r, s.pte d va = ⟨r, true, true, decide (some (top - 2 * PGSIZE) ≠ some (PGROUNDDOWN va)), 0⟩
  absent : ∀ va < KERNBASE, top ≤ va → (s.pte d va).p = false
  byte : ∀ va < top, s.byte d va = M va
  kernel : ∀ i j, ¬ Low i → s.entry d i j = kentry (kmap l.data) (addr i j)

variable {m m' : Mem} {E : Panic → Mem → Prop}

theorem Image.addressSpace (h : Image l D d o m top (some (top - 2 * PGSIZE)) M o' m') :
    AddressSpace l d top M m' := ⟨h.present, h.absent, h.byte, h.kernel⟩

/-- `freevm` of another directory does not matter. -/
theorem AddressSpace.freed (h : AddressSpace l d top M m) (hexact : Exact D o m) (hd : d ∈ D) (hne : d ≠ old)
    (htop : top ≤ KERNBASE) (hf : Freed D old o m m') : AddressSpace l d top M m' := by
  have hdir : m'.page d = m.page d := by
    refine hf.page d ?_
    rw [hexact.dir hd]
    exact hne
  have hentry : ∀ i j, m'.entry d i j = m.entry d i j := by
    intro i j
    unfold Mem.entry
    rw [hdir]
    by_cases hp : (m.page d i).p = true
    · rw [if_pos hp, if_pos hp, hf.page]
      rw [hexact.table hd hp]
      exact hne
    · rw [if_neg hp, if_neg hp]
  have hpte : ∀ va, m'.pte d va = m.pte d va := fun va => hentry _ _
  refine ⟨fun va hva => ?_, fun va hva hge => ?_, fun va hva => ?_, fun i j hi => ?_⟩
  · rw [hpte]
    exact h.present va hva
  · rw [hpte]
    exact h.absent va hva hge
  · obtain ⟨r, hr⟩ := h.present va hva
    have ho := hexact.frame_pte hd (Nat.lt_of_lt_of_le hva htop) (by rw [hr])
    rw [← h.byte va hva, Mem.byte, Mem.byte, Mem.contents, Mem.contents, hpte, hf.page]
    rw [ho]
    exact hne
  · rw [hentry]
    exact h.kernel i j hi

/-! ## The two outcomes -/

/-- Nothing is left of `exec`: the memory is that of before, and so are the processes; what was taken in the file system has
been given back. -/
structure ExecFailed (D : Set ℕ) (o : ℕ → Owner) (found : Bool) (s s' : Execer n) : Prop where
  memory : Restored D o s.kern.mem s'.kern.mem
  proc : s'.kern.proc = s.kern.proc
  regs : s'.regs = s.regs
  fs : s'.fs = s.fs ++ (if found then [.beginOp, .namei true, .ilock, .iunlockput, .endOp]
    else [.beginOp, .namei false, .endOp])

/-- The process has an image with bytes `M`, a guard page, and a stack page with the arguments below `top`. -/
structure ExecOk (l : Layout) (rd : Reader) (p : Fin n) (argv : List (List UInt8)) (o : ℕ → Owner) (old : ℕ)
    (s s' : Execer n) (hdr : List UInt8) (d sz : ℕ) (M M' : ℕ → UInt8) : Prop where
  header : rd.read .elf 0 Sys.ELFHDR = some hdr
  image : overlayHeaders rd (Sys.Elfhdr.read hdr).phnum 0 (Sys.Elfhdr.read hdr).phoff (fun _ => 0) = some M
  zero : ∀ a, PGROUNDUP sz ≤ a → M a = 0
  size : PGROUNDUP sz + 2 * PGSIZE < KERNBASE
  proc : (s'.kern.proc p).pgdir = some d ∧ (s'.kern.proc p).sz = PGROUNDUP sz + 2 * PGSIZE
  space : AddressSpace l d (PGROUNDUP sz + 2 * PGSIZE) M' s'.kern.mem
  stack : ∃ ptrs sp M1, Pushed (PGROUNDUP sz + PGSIZE) (PGROUNDUP sz + 2 * PGSIZE) argv ptrs sp M M1 ∧
    sp = (s'.regs p).esp + (argv.length + 4) * 4 ∧ PGROUNDUP sz + PGSIZE ≤ (s'.regs p).esp ∧
    M' = overlay M1 (s'.regs p).esp ((ustack sp argv.length ptrs).flatMap (leBytes 4))
  /-- Pages that were in use have their contents, but for those of the old image. -/
  others : ∀ q, o q ≠ .free → ¬ (o q).Of old q → s'.kern.mem.page q = s.kern.mem.page q

/-- What `execLoad` leaves. -/
def LoadDone (l : Layout) (D : Set ℕ) (o : ℕ → Owner) (m : Mem) (rd : Reader) (r : Except (Option ℕ) (ℕ × ℕ × ℕ)) (m' : Mem) :
    Prop :=
  match r with
  | .error none => Restored D o m m'
  | .error (some d) => d ∉ D ∧ ∃ o', Built (insert d D) d o m o' m'
  | .ok (d, sz, _) => ∃ hdr o' M, rd.read .elf 0 Sys.ELFHDR = some hdr ∧
    overlayHeaders rd (Sys.Elfhdr.read hdr).phnum 0 (Sys.Elfhdr.read hdr).phoff (fun _ => 0) = some M ∧ sz < KERNBASE ∧
    Image l D d o m (PGROUNDUP sz) none M o' m' ∧ ∀ a, PGROUNDUP sz ≤ a → M a = 0

theorem wp_execLoad (hl : Linked l) (h0 : Exact D o m) : Wp (execLoad rd l.data) (LoadDone l D o m rd) E m := by
  have hbad : LoadDone l D o m rd (.error none) m := ⟨h0, rfl, fun _ _ => rfl⟩
  unfold execLoad
  cases hread : rd.read .elf 0 Sys.ELFHDR with
  | none => exact hbad
  | some bs =>
    dsimp only
    by_cases hlen : bs.length ≠ Sys.ELFHDR
    · rw [if_pos hlen]
      exact hbad
    rw [if_neg hlen]
    by_cases hmagic : (Sys.Elfhdr.read bs).magic ≠ ELF_MAGIC
    · rw [if_pos hmagic]
      exact hbad
    rw [if_neg hmagic, wp_bind]
    refine wp_setupkvm_exact hl h0 (fun m' _ hr _ _ => hr) fun d o1 m1 hks => ?_
    have him : Image l D d o m (PGROUNDUP 0) none (fun _ => 0) o1 m1 := by
      rw [PGROUNDUP_zero]
      exact hks.image
    rw [wp_bind]
    refine wp_post (wp_execHeaders _ _ _ 0 (by decide) him fun _ _ => rfl) ?_
    rintro r m2 hdone
    cases r with
    | none => exact ⟨hks.fresh, hdone⟩
    | some sz =>
      obtain ⟨o2, M, hM, hsz, him2, hzero⟩ := hdone
      exact ⟨bs, o2, M, hread, hM, hsz, him2, hzero⟩

theorem PGROUNDUP_idem (sz : ℕ) : PGROUNDUP (PGROUNDUP sz) = PGROUNDUP sz := by
  simp only [PGROUNDUP, PGSIZE]
  omega

theorem PGROUNDUP_add (sz : ℕ) : PGROUNDUP (PGROUNDUP sz + 2 * PGSIZE) = PGROUNDUP sz + 2 * PGSIZE := by
  simp only [PGROUNDUP, PGSIZE]
  omega

/-- What `execStack` leaves for an image of size `sz` with bytes `M`. -/
def StackDone (l : Layout) (D : Set ℕ) (d : ℕ) (o : ℕ → Owner) (m : Mem) (sz : ℕ) (argv : List (List UInt8)) (M : ℕ → UInt8)
    (r : Option (ℕ × ℕ)) (m' : Mem) : Prop :=
  match r with
  | none => ∃ o', Built (insert d D) d o m o' m'
  | some (top, esp) => top = PGROUNDUP sz + 2 * PGSIZE ∧ top < KERNBASE ∧ ∃ o' M',
    Image l D d o m top (some (top - 2 * PGSIZE)) M' o' m' ∧ ∃ ptrs sp M1,
      Pushed (top - PGSIZE) top argv ptrs sp M M1 ∧ sp = esp + (argv.length + 4) * 4 ∧ top - PGSIZE ≤ esp ∧
      M' = overlay M1 esp ((ustack sp argv.length ptrs).flatMap (leBytes 4))

theorem wp_execStack {sz : ℕ} (hsz : sz < KERNBASE) (him : Image l D d o m (PGROUNDUP sz) none M o' m')
    (hzero : ∀ a, PGROUNDUP sz ≤ a → M a = 0) (hlen : ∀ arg ∈ argv, arg.length < KERNBASE) :
    Wp (execStack d sz argv) (StackDone l D d o m sz argv M) (fun e _ => e = .nullPte) m' := by
  have hle := PGROUNDUP_le_KERNBASE hsz
  rw [← PGROUNDUP_idem] at him hzero
  have hmax : max (PGROUNDUP sz) (stackTop (PGROUNDUP sz)) = PGROUNDUP sz + 2 * PGSIZE := by
    rw [stackTop_eq]
    exact Nat.max_eq_right (Nat.le_add_right ..)
  have hsub : PGROUNDUP sz + 2 * PGSIZE - 2 * PGSIZE = PGROUNDUP sz := Nat.add_sub_cancel ..
  have hpos : 0 < PGSIZE := by decide
  unfold execStack
  refine wp_bind.mpr (him.wp_allocuvm hzero hle (fun o'' m'' hb _ => ?_) fun o'' m'' hnew him' => ?_)
  · rw [if_pos rfl]
    exact ⟨o'', hb⟩
  · rw [hmax, PGROUNDUP_add] at him'
    rw [hmax, if_neg (by omega), wp_bind, hsub]
    refine him'.wp_clearpteu (by omega) (PGROUNDUP_mod sz) fun m3 him3 => ?_
    have him4 : Image l D d o m (PGROUNDUP sz + 2 * PGSIZE) (some (PGROUNDUP sz + 2 * PGSIZE - 2 * PGSIZE)) M o'' m3 := by
      rw [hsub]
      exact him3
    rw [wp_bind]
    refine wp_mono (wp_execPush (Nat.le_add_left ..) him4 hlen) ?_ fun _ _ he => he.1
    rintro r m4 hpushed
    obtain ⟨M', him5, hstack⟩ := hpushed.image
    cases r with
    | none => exact ⟨o'', him5.built⟩
    | some esp => exact ⟨rfl, stackTop_eq _ ▸ hnew, o'', M', him5, hstack esp rfl⟩

theorem wp_freevm_built {m1 : Mem} {Q : Unit → Mem → Prop} (h0 : Exact D o m) (hfresh : d ∉ D)
    (hb : Built (insert d D) d o m o' m1) (hQ : ∀ m', Restored D o m m' → Q () m') : Wp (freevm d) Q E m1 := by
  refine wp_freevm_exact hb.exact (.inl rfl) fun m' hf => ?_
  exact hQ m' (hb.restored hfresh h0 hf rfl rfl)

theorem wp_execAll {Q : Bool → Execer n → Prop} (hl : Linked l) (h0 : Exact D o s.kern.mem) (hold : old ∈ D)
    (hp : (s.kern.proc p).pgdir = some old) (hlen : ∀ arg ∈ argv, arg.length < KERNBASE)
    (hfail : ∀ s', ExecFailed D o found s s' → Q false s')
    (hok : ∀ s' hdr d sz M M', ExecOk l rd p argv o old s s' hdr d sz M M' → Q true s') :
    Wp (execAll l p found rd path argv) Q (fun e _ => e = .nullPte) s := by
  unfold execAll
  simp only [fsCall, wp_bind, wp_modify]
  cases found with
  | false =>
    rw [if_pos rfl]
    simp only [wp_bind, wp_modify, wp_pure]
    refine hfail _ ⟨⟨h0, rfl, fun _ _ => rfl⟩, rfl, rfl, ?_⟩
    simp
  | true =>
    rw [if_neg (by simp)]
    simp only [wp_bind, wp_modify, onKern, vm, wp_zoom]
    refine wp_post (wp_execLoad (E := fun e _ => e = .nullPte) hl h0) ?_
    rintro r m1 hload
    rcases r with (_ | d) | ⟨d, sz, entry⟩
    · simp only [wp_bind, wp_modify, wp_pure]
      refine hfail _ ⟨hload, rfl, rfl, ?_⟩
      simp
    · obtain ⟨hfresh, o1, hb⟩ := hload
      simp only [wp_bind, wp_modify, wp_zoom, wp_pure]
      refine wp_freevm_built h0 hfresh hb fun m2 hr => ?_
      refine hfail _ ⟨hr, rfl, rfl, ?_⟩
      simp
    · obtain ⟨hdr, o1, M, hhdr, hM, hsz, him, hzero⟩ := hload
      simp only [wp_bind, wp_modify, wp_zoom]
      refine wp_post (wp_execStack hsz him hzero hlen) ?_
      rintro r m2 hstack
      rcases r with _ | ⟨top, esp⟩
      · obtain ⟨o2, hb⟩ := hstack
        simp only [wp_bind, wp_zoom, wp_pure]
        refine wp_freevm_built h0 him.fresh hb fun m3 hr => ?_
        refine hfail _ ⟨hr, rfl, rfl, ?_⟩
        simp
      · obtain ⟨htop, hlt, o2, M', him2, ptrs, sp, M1, hpushed, hsp, hesp, hM'⟩ := hstack
        subst htop
        have hdir : pgdirOf (s.kern.proc p) = (pure old : KernCode n ℕ) := by
          unfold pgdirOf
          rw [hp]
        have hne : d ≠ old := by
          rintro rfl
          exact him.fresh hold
        simp only [wp_bind, wp_get, wp_zoom, hdir, wp_pure, wp_modify, setProc]
        refine wp_freevm_exact him2.built.exact (.inr hold) fun m3 hf => ?_
        refine hok _ hdr d sz M M' ⟨hhdr, hM, hzero, hlt, ?_, ?_, ⟨ptrs, sp, M1, ?_⟩, fun q hq hof => ?_⟩
        · simp
        · exact him2.addressSpace.freed him2.built.exact (.inl rfl) hne him2.le hf
        · simp only [Function.update_self]
          have hsub : PGROUNDUP sz + 2 * PGSIZE - PGSIZE = PGROUNDUP sz + PGSIZE := by omega
          rw [hsub] at hpushed hesp
          exact ⟨hpushed, hsp, hesp, hM'⟩
        · have hkeep := him2.built.keep hq
          exact (hf.page q (by rw [hkeep]; exact hof)).trans (him2.built.page q hq (h0.not_of him.fresh q))

/-! ## Failure -/

/-- If `exec` returns -1, the process and the memory are as before, all pages are back on the free list, and what was
taken in the file system has been given back once. -/
theorem exec_failure_atomic (hl : Linked l) (h0 : Exact D o s.kern.mem) (hold : old ∈ D)
    (hp : (s.kern.proc p).pgdir = some old) (hlen : ∀ arg ∈ argv, arg.length < KERNBASE) :
    ∀ s', (execAll l p found rd path argv).run s = .ok false s' →
      (s'.kern.proc p).pgdir = (s.kern.proc p).pgdir ∧ (s'.kern.proc p).sz = (s.kern.proc p).sz ∧ s'.regs p = s.regs p ∧
      (∀ r, r ∈ s'.kern.mem.freelist ↔ r ∈ s.kern.mem.freelist) ∧ s'.kern.mem.freelist.Nodup ∧
      (∀ q, o q ≠ .free → s'.kern.mem.page q = s.kern.mem.page q) ∧
      s'.fs = s.fs ++ (if found then [.beginOp, .namei true, .ilock, .iunlockput, .endOp]
        else [.beginOp, .namei false, .endOp]) := by
  intro s' hrun
  have hwp : Wp (execAll l p found rd path argv) (fun b s' => b = false → ExecFailed D o found s s')
      (fun e _ => e = .nullPte) s :=
    wp_execAll hl h0 hold hp hlen (fun s' hfail _ => hfail) fun _ _ _ _ _ _ _ => nofun
  have hfail := wp_ok hwp hrun rfl
  exact ⟨by rw [hfail.proc], by rw [hfail.proc], by rw [hfail.regs], fun r => hfail.memory.mem_freelist h0,
    hfail.memory.exact.nodup, hfail.memory.page, hfail.fs⟩

/-- The process with one page, before a call of `exec`. -/
def onePageExecer : Execer 1 := ⟨onePageKern 0, fun _ => ⟨0, 0, []⟩, []⟩

/-- An empty file is no program. -/
theorem exec_failure_empty : ∃ s', (execAll smallLayout 0 true (Reader.file []) [] []).run onePageExecer = .ok false s' ∧
    (s'.kern.proc 0).sz = PGSIZE ∧ s'.fs = [.beginOp, .namei true, .ilock, .iunlockput, .endOp] := by
  obtain ⟨s', hrun⟩ : ∃ s', (execAll smallLayout 0 true (Reader.file []) [] []).run onePageExecer = .ok false s' := ⟨_, rfl⟩
  have hatomic := exec_failure_atomic (s := onePageExecer) (p := 0) smallLayout_linked (onePage_exact (k := 0) (by decide))
    (Set.mem_singleton 1) rfl noArgs_length s' hrun
  exact ⟨s', hrun, hatomic.2.1, hatomic.2.2.2.2.2.2⟩

/-! ## A program without segments -/

/-- A header without program headers. -/
def emptyProgram : List UInt8 := [0x7F, 0x45, 0x4C, 0x46] ++ List.replicate 48 0

/-- The process with one page, before a call of `exec`, with enough free pages. -/
def richExecer : Execer 1 := ⟨onePageKern 80, fun _ => ⟨0, 0, []⟩, []⟩

theorem hi_length : ∀ arg ∈ ([[104, 105]] : List (List UInt8)), arg.length < KERNBASE := by
  intro arg harg
  rw [List.mem_singleton.mp harg]
  decide

theorem hi_safe : ¬ NullArg (2 * PGSIZE) 0 0 [[104, 105]] := by
  rw [nullArg_cons]
  rintro (⟨-, -, hroom, -⟩ | hnil)
  · exact absurd hroom (by decide)
  · exact not_nullArg_nil hnil

theorem wp_execLoad_empty {D : Set ℕ} {o : ℕ → Owner} {l : Layout}
    {Q : Except (Option ℕ) (ℕ × ℕ × ℕ) → Mem → Prop} (hl : Linked l) (h : Exact D o m)
    (hcalls : ∀ n < 65, ¬ m.FirstFails n) (hQ : ∀ d o' m', KSpace l D d o m o' m' → Q (.ok (d, 0, 0)) m') :
    Wp (execLoad (Reader.file emptyProgram) l.data) Q E m := by
  have hread : (Reader.file emptyProgram).read .elf 0 Sys.ELFHDR = some emptyProgram := by decide
  unfold execLoad
  rw [hread]
  dsimp only
  rw [if_neg (by decide), if_neg (by decide), wp_bind]
  refine wp_setupkvm_exact hl h (fun m' n _ hn hfirst => absurd hfirst (hcalls n hn)) fun d o' m' hks => ?_
  rw [show (Sys.Elfhdr.read emptyProgram).phnum = 0 by decide]
  exact hQ d o' m' hks

theorem wp_execStack_hi {d : ℕ} {o' : ℕ → Owner} (hks : KSpace smallLayout {1} d (onePageOwner 80) (onePage 80) o' m') :
    Wp (execStack d 0 [[104, 105]]) (fun r m'' => ∃ sp o'' M, r = some (2 * PGSIZE, sp) ∧
      Image smallLayout {1} d (onePageOwner 80) (onePage 80) (2 * PGSIZE) (some 0) M o'' m'') E m' := by
  have him : Image smallLayout {1} d (onePageOwner 80) (onePage 80) (PGROUNDUP 0) none (fun _ => 0) o' m' := by
    rw [PGROUNDUP_zero]
    exact hks.image
  have htop : PGROUNDUP (max 0 (2 * PGSIZE)) = 2 * PGSIZE := by decide
  have hmax : max 0 (2 * PGSIZE) = 2 * PGSIZE := by decide
  unfold execStack
  dsimp only
  rw [PGROUNDUP_zero, stackTop_eq, Nat.zero_add, wp_bind]
  refine him.wp_allocuvm (fun _ _ => rfl) (by decide) (fun o'' s'' _ hcount => ?_) fun o'' s'' _ him' => ?_
  · obtain ⟨m, hm, hfails⟩ := hcount (by decide)
    have hm' : m < 4 := Nat.lt_of_lt_of_le hm (by decide)
    rw [hks.calls.failsAt_iff] at hfails
    rcases hfails with hf | hle
    · exact absurd hf Bool.false_ne_true
    · rw [show (onePage 80).freelist.length = 80 from List.length_range'] at hle
      omega
  · rw [htop] at him'
    rw [hmax, if_neg (by decide), wp_bind]
    refine him'.wp_clearpteu (by decide) rfl fun s3 him3 => ?_
    rw [wp_bind]
    refine wp_mono (wp_execPush le_rfl him3 hi_length) ?_ fun _ _ he => absurd he.2 hi_safe
    rintro r m4 hpushed
    obtain ⟨M', him5, -⟩ := hpushed.image
    cases r with
    | none => exact absurd rfl (hpushed.fits.mpr (by decide))
    | some sp => exact ⟨sp, o'', M', rfl, him5⟩

/-- With enough free pages, `exec` of the program without segments succeeds. -/
theorem exec_emptyProgram :
    ∃ s', (execAll smallLayout 0 true (Reader.file emptyProgram) [] [[104, 105]]).run richExecer = .ok true s' := by
  have hwp : Wp (execAll smallLayout 0 true (Reader.file emptyProgram) [] [[104, 105]]) (fun b _ => b = true)
      (fun _ _ => False) richExecer := by
    unfold execAll
    simp only [fsCall, wp_bind, wp_modify]
    rw [if_neg (by simp)]
    simp only [wp_bind, wp_modify, onKern, vm, wp_zoom]
    refine wp_execLoad_empty smallLayout_linked (onePage_exact (k := 80) (by decide))
      (fun n hn hfirst => absurd (onePage_firstFails hfirst) (by omega)) fun d o1 m1 hks => ?_
    simp only [wp_bind, wp_modify, wp_zoom]
    refine wp_post (wp_execStack_hi hks) ?_
    rintro r m2 ⟨sp, o2, M, rfl, him⟩
    have hdir : pgdirOf ((onePageKern 80).proc 0) = (pure 1 : KernCode 1 ℕ) := rfl
    simp only [wp_bind, wp_get, wp_zoom, richExecer, hdir, wp_pure, wp_modify, setProc]
    exact wp_freevm_exact him.built.exact (.inr rfl) fun m3 _ => trivial
  obtain ⟨b, s', hrun, rfl⟩ := wp_returns hwp
  exact ⟨s', hrun⟩

end Vm

end Xv6
