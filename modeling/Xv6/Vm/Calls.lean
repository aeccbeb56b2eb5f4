import Xv6.Lib.Lts
import Xv6.Proc.Table
import Xv6.Vm.Functions

/-!
# Physical pages over whole runs

The calls that allocate and free pages, one after the other: `fork`, `exec`, `growproc`, `exit`, `wait`, `pipe` and
`close`, with stores of user code in between, by any number of processes. What `exec` reads from the file is left
open, and so is which zombie a `wait` finds. A panic ends the run.
-/

namespace Xv6

open Function

namespace Vm

/-- What matters of `struct proc`. -/
structure Proc where
  state : Procstate
  pgdir : Option ℕ
  kstack : Option ℕ
  sz : ℕ

/-- What matters of `struct pipe`: its page and its ends. -/
structure Pipe where
  page : ℕ
  readopen : Bool
  writeopen : Bool

/-- Physical memory, the process table, the pipes, and the page directory of the scheduler. -/
structure Kern (n : ℕ) where
  mem : Mem
  proc : Fin n → Proc
  pipes : List Pipe
  kpgdir : Option ℕ

variable {n : ℕ}

abbrev KernCode (n : ℕ) (α : Type) : Type := Code Panic (Kern n) α

/-- Code of `vm.c` and `kalloc.c`. -/
def vm {α : Type} (x : VmCode α) : KernCode n α := Code.zoom Kern.mem (fun m s => { s with mem := m }) x

def setProc (p : Fin n) (x : Proc) : KernCode n Unit :=
  modify fun s => { s with proc := update s.proc p x }

/-- The page directory of a process; `switchuvm` panics if there is none. -/
def pgdirOf (x : Proc) : KernCode n ℕ :=
  match x.pgdir with
  | none => throw .switchuvm
  | some d => pure d

def kvmalloc (l : Layout) : KernCode n Unit := do
  let d ← vm (setupkvm l.data)
  modify fun s => { s with kpgdir := d }

/-- The free slot that `allocproc` finds. -/
def findUnused (s : Kern n) : Option (Fin n) := (List.finRange n).find? fun p => (s.proc p).state = .UNUSED

def userinit (l : Layout) (init : Table) : KernCode n Unit := do
  let s ← get
  match findUnused s with
  | none => throw .userinit
  | some p =>
    match ← vm kalloc with
    | none => throw .userinit
    | some k =>
      setProc p { s.proc p with state := .EMBRYO, kstack := some k }
      match ← vm (setupkvm l.data) with
      | none => throw .userinit
      | some d =>
        vm (inituvm d init)
        setProc p ⟨.RUNNABLE, some d, some k, PGSIZE⟩

/-- `fork` of process `p`. -/
def fork (l : Layout) (p : Fin n) : KernCode n Bool := do
  let s ← get
  match findUnused s with
  | none => pure false
  | some np =>
    match ← vm kalloc with
    | none =>
      setProc np { s.proc np with kstack := none }
      pure false
    | some k =>
      setProc np { s.proc np with state := .EMBRYO, kstack := some k }
      let pgdir ← pgdirOf (s.proc p)
      match ← vm (copyuvm l.data pgdir (s.proc p).sz) with
      | none =>
        vm (kfree k)
        setProc np { s.proc np with state := .UNUSED, pgdir := none, kstack := none }
        pure false
      | some d =>
        setProc np ⟨.RUNNABLE, some d, some k, (s.proc p).sz⟩
        pure true

/-- `growproc(m)` of process `p`. -/
def growproc (p : Fin n) (m : ℤ) : KernCode n Bool := do
  let s ← get
  let sz := (s.proc p).sz
  let pgdir ← pgdirOf (s.proc p)
  let newsz := ((sz + m) % 2 ^ 32).toNat
  if 0 < m then
    let x ← vm (allocuvm pgdir sz newsz)
    if x = 0 then pure false
    else
      setProc p { s.proc p with sz := x }
      pure true
  else if m < 0 then
    let x ← vm (deallocuvm pgdir sz newsz)
    if x = 0 then pure false
    else
      setProc p { s.proc p with sz := x }
      pure true
  else pure true

/-- A program header that `exec` has read. -/
structure Proghdr where
  load : Bool
  vaddr : BitVec 32
  memsz : BitVec 32
  filesz : BitVec 32
  /-- What `loaduvm` reads. -/
  file : ℕ → Table × Bool

/-- The loop of `exec` over the program headers; `none` is a header that cannot be read. The result is the size, if
there was no error. -/
def execLoop (pgdir : ℕ) : ℕ → List (Option Proghdr) → VmCode (Option ℕ)
  | sz, [] => pure (some sz)
  | _, none :: _ => pure none
  | sz, some ph :: phs => do
    if ph.load = false then execLoop pgdir sz phs
    else if ph.memsz < ph.filesz then pure none
    else if ph.vaddr + ph.memsz < ph.vaddr then pure none
    else
      let sz ← allocuvm pgdir sz (ph.vaddr + ph.memsz).toNat
      if sz = 0 then pure none
      else if ph.vaddr.toNat % PGSIZE ≠ 0 then pure none
      else if ← loaduvm pgdir ph.vaddr.toNat ph.file ph.filesz.toNat then execLoop pgdir sz phs
      else pure none

/-- The argument strings and `ustack`, each given by where it goes and by what its pages become. -/
def pushArgs (pgdir : ℕ) : List (ℕ × List Table) → VmCode Bool
  | [] => pure true
  | (sp, xs) :: rest => do
    if ← copyout pgdir sp xs then pushArgs pgdir rest else pure false

/-- `exec`, after `setupkvm`: the size of the new image, if there was no error. -/
def execImage (pgdir : ℕ) (phs : List (Option Proghdr)) (args : List (ℕ × List Table)) : VmCode (Option ℕ) := do
  match ← execLoop pgdir 0 phs with
  | none => pure none
  | some sz =>
    let sz := PGROUNDUP sz
    let sz ← allocuvm pgdir sz (sz + 2 * PGSIZE)
    if sz = 0 then pure none
    else
      clearpteu pgdir (sz - 2 * PGSIZE)
      if ← pushArgs pgdir args then pure (some sz) else pure none

/-- `exec` of process `p`, of a file that exists and has the right header. -/
def exec (l : Layout) (p : Fin n) (phs : List (Option Proghdr)) (args : List (ℕ × List Table)) : KernCode n Bool := do
  let s ← get
  match ← vm (setupkvm l.data) with
  | none => pure false
  | some pgdir =>
    match ← vm (execImage pgdir phs args) with
    | none =>
      vm (freevm pgdir)
      pure false
    | some sz =>
      let oldpgdir ← pgdirOf (s.proc p)
      setProc p { s.proc p with pgdir := some pgdir, sz := sz }
      vm (freevm oldpgdir)
      pure true

def exit (p : Fin n) : KernCode n Unit := do
  let s ← get
  setProc p { s.proc p with state := .ZOMBIE }

/-- `wait`, where it finds the zombie `c`. -/
def wait (c : Fin n) : KernCode n Unit := do
  let s ← get
  match (s.proc c).kstack with
  | none => throw .kfree
  | some k =>
    vm (kfree k)
    let pgdir ← pgdirOf (s.proc c)
    vm (freevm pgdir)
    setProc c { s.proc c with state := .UNUSED, kstack := none }

/-- `pipealloc`, where there are two files. -/
def pipealloc : KernCode n Bool := do
  match ← vm kalloc with
  | none => pure false
  | some r =>
    modify fun s => { s with pipes := ⟨r, true, true⟩ :: s.pipes }
    pure true

/-- `pipeclose` of an end of the pipe in page `r`. -/
def pipeclose (r : ℕ) (writable : Bool) : KernCode n Unit := do
  let s ← get
  match s.pipes.find? (·.page = r) with
  | none => pure ()
  | some x =>
    let x := if writable then { x with writeopen := false } else { x with readopen := false }
    if x.readopen = false ∧ x.writeopen = false then
      modify fun s => { s with pipes := s.pipes.filter (·.page ≠ r) }
      vm (kfree r)
    else modify fun s => { s with pipes := s.pipes.map fun y => if y.page = r then x else y }

/-- User code of process `p` stores into the page at `va`. -/
def store (p : Fin n) (va : ℕ) (x : Table) : KernCode n Unit := do
  let s ← get
  let pgdir ← pgdirOf (s.proc p)
  let _ ← vm (copyout pgdir va [x])

/-- The calls. -/
inductive Event (n : ℕ) where
  | kvmalloc
  | userinit (init : Table)
  | fork (p : Fin n)
  | growproc (p : Fin n) (m : ℤ)
  | exec (p : Fin n) (phs : List (Option Proghdr)) (args : List (ℕ × List Table))
  | exit (p : Fin n)
  | wait (c : Fin n)
  | pipe
  | close (r : ℕ) (writable : Bool)
  | store (p : Fin n) (va : ℕ) (x : Table)

/-- A process that can make calls. -/
def Kern.Runs (s : Kern n) (p : Fin n) : Prop := (s.proc p).state ≠ .UNUSED ∧ (s.proc p).state ≠ .ZOMBIE

instance (s : Kern n) (p : Fin n) : Decidable (s.Runs p) := inferInstanceAs (Decidable (_ ∧ _))

/-- The state after code that does not panic. -/
def Kern.after {α : Type} (s : Kern n) (x : KernCode n α) : Option (Kern n) :=
  match x.run s with
  | .ok _ s' => some s'
  | .error _ _ => none

/-- The effect of a call. -/
def Kern.next (l : Layout) (s : Kern n) : Event n → Option (Kern n)
  | .kvmalloc => if s.kpgdir = none then s.after (Vm.kvmalloc l) else none
  | .userinit init => s.after (Vm.userinit l init)
  | .fork p => if s.Runs p then s.after (Vm.fork l p) else none
  | .growproc p m => if s.Runs p then s.after (Vm.growproc p m) else none
  | .exec p phs args => if s.Runs p then s.after (Vm.exec l p phs args) else none
  | .exit p => if s.Runs p then s.after (Vm.exit p) else none
  | .wait c => if (s.proc c).state = .ZOMBIE then s.after (Vm.wait c) else none
  | .pipe => s.after Vm.pipealloc
  | .close r w => s.after (Vm.pipeclose r w)
  | .store p va x => if s.Runs p then s.after (Vm.store p va x) else none

/-- After `kinit2`: the pages from `end` to `PHYSTOP` are on the free list, and nothing else is. -/
structure Init (s : Kern n) : Prop where
  pos : 0 < s.mem.lo
  free : ∀ r ∈ s.mem.freelist, s.mem.lo ≤ r
  nodup : s.mem.freelist.Nodup
  proc : ∀ p, (s.proc p).state = .UNUSED
  pipes : s.pipes = []
  kpgdir : s.kpgdir = none

/-- Every run. -/
def lts (n : ℕ) (l : Layout) : Lts (Kern n) (Event n) where
  init := Init
  next s := s.next l

/-! ## The invariant -/

open Code

variable {s : Kern n} {o o' : ℕ → Owner} {p np : Fin n} {l : Layout}

/-- The process exists. -/
def Kern.Live (s : Kern n) (p : Fin n) : Prop := (s.proc p).state ≠ .UNUSED

/-- The page directories in use. -/
def Kern.dirs (s : Kern n) : Set ℕ :=
  { d | (∃ p, s.Live p ∧ (s.proc p).pgdir = some d) ∨ s.kpgdir = some d }

/-- The labelling agrees with the processes and the pipes too. -/
structure Owned (s : Kern n) (o : ℕ → Owner) : Prop where
  inv : Inv s.dirs o s.mem
  kstack : ∀ p r, s.Live p → (s.proc p).kstack = some r → o r = .kstack p
  pipe : ∀ x ∈ s.pipes, o x.page = .pipe
  pipes : (s.pipes.map Pipe.page).Nodup
  single : ∀ p q d, s.Live p → s.Live q → (s.proc p).pgdir = some d → (s.proc q).pgdir = some d → p = q
  kernel : ∀ p d, s.Live p → (s.proc p).pgdir = some d → s.kpgdir ≠ some d
  sz : ∀ p, s.Live p → (s.proc p).sz ≤ KERNBASE

/-- Code after which there is an agreeing labelling, if it does not panic. -/
def Keeping {α : Type} (x : KernCode n α) (s : Kern n) : Prop :=
  Wp x (fun _ s' => ∃ o, Owned s' o) (fun _ _ => True) s

/-- The rule for code on the memory. -/
theorem wp_vm {α : Type} {x : VmCode α} {R : α → Mem → Prop} {Q : α → Kern n → Prop} (hx : Wp x R Any s.mem)
    (hQ : ∀ a m, R a m → Q a { s with mem := m }) : Wp (vm x) Q (fun _ _ => True) s := by
  unfold vm
  rw [wp_zoom]
  exact wp_mono hx hQ fun _ _ _ => trivial

variable {x : Proc} {m : Mem}

theorem wp_pgdirOf {Q : ℕ → Kern n → Prop} (h : ∀ d, x.pgdir = some d → Q d s) :
    Wp (pgdirOf x) Q (fun _ _ => True) s := by
  unfold pgdirOf
  cases hx : x.pgdir with
  | none => trivial
  | some d => exact h d hx

/-- Kernel stacks and pipes keep their pages when the owners outside `vm.c` do. -/
theorem Owned.outside (h : Owned s o) (hk : Keeps o o') :
    (∀ q r, s.Live q → (s.proc q).kstack = some r → o' r = .kstack q) ∧ ∀ y ∈ s.pipes, o' y.page = .pipe := by
  constructor
  · intro q r hq hr
    have ho := h.kstack q r hq hr
    rw [hk r (by simp [ho, Owner.Outside]), ho]
  · intro y hy
    have ho := h.pipe y hy
    rw [hk _ (by simp [ho, Owner.Outside]), ho]

/-- A change of the memory that keeps the directories and the owners outside `vm.c`. -/
theorem Owned.keep (h : Owned s o) (hi : Inv s.dirs o' m) (hk : Keeps o o') : Owned { s with mem := m } o' :=
  ⟨hi, (h.outside hk).1, (h.outside hk).2, h.pipes, h.single, h.kernel, h.sz⟩

theorem Owned.reaches (h : Owned s o) {lo : ℕ} (hm : Reaches s.dirs o lo m) :
    ∃ o', Owned { s with mem := m } o' := by
  obtain ⟨-, o', hi, hk⟩ := hm
  exact ⟨o', h.keep hi hk⟩

theorem Kern.mem_dirs_iff (s : Kern n) (p : Fin n) {d : ℕ} : d ∈ s.dirs ↔ (s.Live p ∧ (s.proc p).pgdir = some d) ∨
    (∃ q, q ≠ p ∧ s.Live q ∧ (s.proc q).pgdir = some d) ∨ s.kpgdir = some d := by
  constructor
  · rintro (⟨q, hq, hd⟩ | hd)
    · by_cases hqp : q = p
      · exact .inl ⟨hqp ▸ hq, hqp ▸ hd⟩
      · exact .inr (.inl ⟨q, hqp, hq, hd⟩)
    · exact .inr (.inr hd)
  · rintro (hd | ⟨q, -, hq, hd⟩ | hd)
    · exact .inl ⟨p, hd⟩
    · exact .inl ⟨q, hq, hd⟩
    · exact .inr hd

/-- **The rule for one process.** It keeps or gets a kernel stack and a page directory of its own, or it is gone. -/
theorem Owned.setProc (h : Owned s o) {D : Set ℕ} (hi : Inv D o' m)
    (hD : ∀ d, d ∈ D ↔ (x.state ≠ .UNUSED ∧ x.pgdir = some d) ∨
      (∃ q, q ≠ p ∧ s.Live q ∧ (s.proc q).pgdir = some d) ∨ s.kpgdir = some d)
    (hkstack : ∀ q r, q ≠ p → s.Live q → (s.proc q).kstack = some r → o' r = .kstack q)
    (hpipe : ∀ y ∈ s.pipes, o' y.page = .pipe)
    (hself : x.state ≠ .UNUSED → (∀ r, x.kstack = some r → o' r = .kstack p) ∧ x.sz ≤ KERNBASE ∧
      ∀ d, x.pgdir = some d → s.kpgdir ≠ some d ∧ ∀ q, q ≠ p → s.Live q → (s.proc q).pgdir ≠ some d) :
    Owned { s with mem := m, proc := update s.proc p x } o' := by
  have hdirs : Kern.dirs { s with mem := m, proc := update s.proc p x } = D := by
    ext d
    rw [Kern.mem_dirs_iff _ p, hD]
    refine or_congr (by simp [Kern.Live]) (or_congr_left (exists_congr fun q => and_congr_right fun hq => ?_))
    simp [Kern.Live, hq]
  refine ⟨hdirs ▸ hi, fun q r hq hr => ?_, hpipe, h.pipes, fun q q' d hq hq' hd hd' => ?_, fun q d hq hd => ?_,
    fun q hq => ?_⟩
  all_goals simp only [Kern.Live, update_apply] at *
  · grind
  · have hsingle := h.single q q' d
    simp only [Kern.Live] at hsingle
    grind
  · have hkernel := h.kernel q d
    simp only [Kern.Live] at hkernel
    grind
  · have hsz := h.sz q
    simp only [Kern.Live] at hsz
    grind

/-- A process that does not exist can be changed as long as it does not. -/
theorem Owned.setDead (h : Owned s o) (hu : (s.proc np).state = .UNUSED) (hx : x.state = .UNUSED) :
    Owned { s with proc := update s.proc np x } o := by
  refine h.setProc h.inv (fun d => ?_) (fun q r _ => h.kstack q r) h.pipe fun hno => absurd hx hno
  rw [s.mem_dirs_iff np]
  simp [Kern.Live, hu, hx]

/-- A new process, with a new page directory and a kernel stack of its own. -/
theorem Owned.newProc (h : Owned s o) (hu : (s.proc np).state = .UNUSED) {d k sz : ℕ} (hd : d ∉ s.dirs)
    (hi : Inv (insert d s.dirs) o' m) (hk : Keeps o o') (hkstack : o' k = .kstack np) (hsz : sz ≤ KERNBASE) :
    Owned { s with mem := m, proc := update s.proc np ⟨.RUNNABLE, some d, some k, sz⟩ } o' := by
  obtain ⟨hstacks, hpipes⟩ := h.outside hk
  refine h.setProc hi (fun e => ?_) (fun q r _ => hstacks q r) hpipes fun _ => ⟨?_, hsz, ?_⟩
  · rw [Set.mem_insert_iff, s.mem_dirs_iff np]
    simp [Kern.Live, hu, eq_comm]
  · rintro r ⟨⟩
    exact hkstack
  · rintro e ⟨⟩
    exact ⟨fun hkp => hd (.inr hkp), fun q _ hq he => hd (.inl ⟨q, hq, he⟩)⟩

/-- A page from the free list becomes a kernel stack or a pipe. -/
theorem Inv.claim {D : Set ℕ} {m' : Mem} {r : ℕ} (hlo : m'.lo = m.lo) (hr : m.lo ≤ r) (hor : o r = .free)
    (hi : Inv D (update o r .none) m') (x : Owner) : Inv D (update o r x) m' ∧ Keeps o (update o r x) := by
  have hi' := hi.relabel (x := x) (hi.unused (by simp [Owner.Outside])) fun _ => hlo ▸ hr
  rw [update_idem] at hi'
  exact ⟨hi', Keeps.update x (by simp [hor, Owner.Outside])⟩

theorem findUnused_spec (h : findUnused s = some np) : (s.proc np).state = .UNUSED := by
  simpa using List.find?_some h

end Vm

end Xv6
