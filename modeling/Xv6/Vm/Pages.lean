import Mathlib
import Xv6.Lib.Hoare

/-!
# Pages and page tables (`kalloc.c`, `vm.c`)

Physical memory is a sequence of pages of 1024 entries, whatever they are used for: page directories, page tables,
frames of user memory. An entry is a physical page number with the flags `PTE_P`, `PTE_W` and `PTE_U`, and the other
flags of the processor. Virtual and physical addresses are natural numbers. Any call of `kalloc` may fail, as other processors use the free list too.
-/

namespace Xv6

open Function

namespace Vm

/-! ## `mmu.h`, `memlayout.h` -/

def PGSIZE : ℕ := 4096

def NPDENTRIES : ℕ := 1024

def KERNBASE : ℕ := 0x80000000

def EXTMEM : ℕ := 0x100000

def PHYSTOP : ℕ := 0xE000000

def DEVSPACE : ℕ := 0xFE000000

def KERNLINK : ℕ := KERNBASE + EXTMEM

/-- The page directory index of an address. -/
def PDX (va : ℕ) : Fin NPDENTRIES := ⟨va / 2 ^ 22 % NPDENTRIES, Nat.mod_lt _ (by decide)⟩

/-- The page table index of an address. -/
def PTX (va : ℕ) : Fin NPDENTRIES := ⟨va / 2 ^ 12 % NPDENTRIES, Nat.mod_lt _ (by decide)⟩

def PGROUNDUP (sz : ℕ) : ℕ := (sz + PGSIZE - 1) / PGSIZE * PGSIZE

def PGROUNDDOWN (a : ℕ) : ℕ := a / PGSIZE * PGSIZE

/-- An entry of a page directory or a page table. -/
structure Pte where
  ppn : ℕ
  p : Bool
  w : Bool
  u : Bool
  /-- Bits 3 to 11. -/
  rest : BitVec 9
deriving DecidableEq

/-- The contents of a page. -/
abbrev Table : Type := Fin NPDENTRIES → Pte

/-- The entries of a page that `memset` has filled with 0. -/
def Pte.zero : Pte := ⟨0, false, false, false, 0⟩

/-- The entries of a page that `kfree` has filled with 1: the word `0x01010101`. -/
def Pte.junk : Pte := ⟨0x01010, true, false, false, 0x20⟩

/-- Physical memory; the first page after `end`, `kmem.freelist`, and whether the next calls of `kalloc` fail. -/
structure Mem where
  lo : ℕ
  freelist : List ℕ
  page : ℕ → Table
  fails : ℕ → Bool

/-- The panics of this part of the kernel, and the use of a null pointer in `uva2ka`. -/
inductive Panic where
  | kfree
  | remap
  | loaduvmAligned
  | loaduvmExist
  | clearpteu
  | copyuvmExist
  | copyuvmPresent
  | inituvm
  | userinit
  | switchuvm
  | nullPte
  | filedup
deriving DecidableEq

abbrev VmCode (α : Type) : Type := Code Panic Mem α

/-! ## `kalloc.c` -/

def kalloc : VmCode (Option ℕ) := do
  let s ← get
  match s.freelist, s.fails 0 with
  | r :: rs, false =>
    set { s with freelist := rs, fails := fun n => s.fails (n + 1) }
    pure (some r)
  | _, _ =>
    set { s with fails := fun n => s.fails (n + 1) }
    pure none

/-- `memset`, of a whole page. -/
def memset (r : ℕ) (e : Pte) : VmCode Unit :=
  modify fun s => { s with page := update s.page r fun _ => e }

def kfree (r : ℕ) : VmCode Unit := do
  let s ← get
  if r < s.lo ∨ PHYSTOP / PGSIZE ≤ r then throw .kfree
  memset r .junk
  modify fun s => { s with freelist := r :: s.freelist }

/-! ## `vm.c` -/

/-- Store into entry `j` of page `t`. -/
def setPte (t : ℕ) (j : Fin NPDENTRIES) (e : Pte) : VmCode Unit :=
  modify fun s => { s with page := update s.page t (update (s.page t) j e) }

/-- Store a whole page. -/
def setPage (r : ℕ) (x : Table) : VmCode Unit :=
  modify fun s => { s with page := update s.page r x }

/-- `walkpgdir`: the page and the index of the entry for `va`. -/
def walkpgdir (pgdir va : ℕ) (alloc : Bool) : VmCode (Option (ℕ × Fin NPDENTRIES)) := do
  let s ← get
  let pde := s.page pgdir (PDX va)
  if pde.p then pure (some (pde.ppn, PTX va))
  else if alloc = false then pure none
  else match ← kalloc with
    | none => pure none
    | some pgtab =>
      memset pgtab .zero
      setPte pgdir (PDX va) ⟨pgtab, true, true, true, 0⟩
      pure (some (pgtab, PTX va))

/-- The loop of `mappages` from the page `a` on, with `left` pages after it. -/
def mappagesLoop (pgdir : ℕ) (w u : Bool) (rest : BitVec 9) : (left a pa : ℕ) → VmCode Bool
  | left, a, pa => do
    match ← walkpgdir pgdir a true with
    | none => pure false
    | some (t, j) =>
      let s ← get
      if (s.page t j).p then throw .remap
      setPte t j ⟨pa / PGSIZE, true, w, u, rest⟩
      match left with
      | 0 => pure true
      | left + 1 => mappagesLoop pgdir w u rest left (a + PGSIZE) (pa + PGSIZE)

/-- `mappages`, for a range that does not wrap; `false` is the result -1. -/
def mappages (pgdir va size pa : ℕ) (w u : Bool) (rest : BitVec 9) : VmCode Bool :=
  let a := PGROUNDDOWN va
  let last := PGROUNDDOWN (va + size - 1)
  mappagesLoop pgdir w u rest ((last - a) / PGSIZE) a pa

/-- The loop of `deallocuvm` from the address `a` on. -/
def deallocuvmLoop (pgdir oldsz a : ℕ) : VmCode Unit :=
  if _h : a < oldsz then do
    match ← walkpgdir pgdir a false with
    | none => deallocuvmLoop pgdir oldsz ((a / 2 ^ 22 + 1) * 2 ^ 22)
    | some (t, j) =>
      let s ← get
      let pte := s.page t j
      if pte.p then do
        if pte.ppn = 0 then throw .kfree
        kfree pte.ppn
        setPte t j .zero
      deallocuvmLoop pgdir oldsz (a + PGSIZE)
  else pure ()
termination_by oldsz - a
decreasing_by
  · omega
  · simp only [PGSIZE]
    omega

def deallocuvm (pgdir oldsz newsz : ℕ) : VmCode ℕ := do
  if oldsz ≤ newsz then pure oldsz
  else
    deallocuvmLoop pgdir oldsz (PGROUNDUP newsz)
    pure newsz

/-- The loop of `allocuvm` from the address `a` on. -/
def allocuvmLoop (pgdir oldsz newsz a : ℕ) : VmCode ℕ :=
  if _h : a < newsz then do
    match ← kalloc with
    | none =>
      let _ ← deallocuvm pgdir newsz oldsz
      pure 0
    | some mem =>
      memset mem .zero
      if ← mappages pgdir a PGSIZE (mem * PGSIZE) true true 0 then allocuvmLoop pgdir oldsz newsz (a + PGSIZE)
      else
        let _ ← deallocuvm pgdir newsz oldsz
        kfree mem
        pure 0
  else pure newsz
termination_by newsz - a
decreasing_by
  simp only [PGSIZE]
  omega

def allocuvm (pgdir oldsz newsz : ℕ) : VmCode ℕ :=
  if KERNBASE ≤ newsz then pure 0
  else if newsz < oldsz then pure oldsz
  else allocuvmLoop pgdir oldsz newsz (PGROUNDUP oldsz)

def freevm (pgdir : ℕ) : VmCode Unit := do
  let _ ← deallocuvm pgdir KERNBASE 0
  forM (List.finRange NPDENTRIES) fun i => do
    let s ← get
    if (s.page pgdir i).p then kfree (s.page pgdir i).ppn
  kfree pgdir

/-- `kmap`: the kernel's mappings; `data` is the address of its data. -/
def kmap (data : ℕ) : List (ℕ × ℕ × ℕ × Bool) :=
  [(KERNBASE, 0, EXTMEM, true),
   (KERNLINK, EXTMEM, data - KERNBASE, false),
   (data, data - KERNBASE, PHYSTOP, true),
   (DEVSPACE, DEVSPACE, 2 ^ 32, true)]

/-- The loop of `setupkvm` over the mappings. -/
def setupkvmLoop (pgdir : ℕ) : List (ℕ × ℕ × ℕ × Bool) → VmCode (Option ℕ)
  | [] => pure (some pgdir)
  | (virt, physStart, physEnd, perm) :: ks => do
    if ← mappages pgdir virt (physEnd - physStart) physStart perm false 0 then setupkvmLoop pgdir ks
    else
      freevm pgdir
      pure none

def setupkvm (data : ℕ) : VmCode (Option ℕ) := do
  match ← kalloc with
  | none => pure none
  | some pgdir =>
    memset pgdir .zero
    setupkvmLoop pgdir (kmap data)

/-- `inituvm`, with the first page `init`. -/
def inituvm (pgdir : ℕ) (init : Table) : VmCode Unit := do
  match ← kalloc with
  | none => throw .inituvm
  | some mem =>
    memset mem .zero
    let _ ← mappages pgdir 0 PGSIZE (mem * PGSIZE) true true 0
    setPage mem init

/-- `loaduvm`; `file i` is what the page is after `readi` at offset `i`, and whether it read as much as asked for. -/
def loaduvm (pgdir addr : ℕ) (file : ℕ → Table × Bool) (sz : ℕ) : VmCode Bool := do
  if addr % PGSIZE ≠ 0 then throw .loaduvmAligned
  go 0
where
  go (i : ℕ) : VmCode Bool :=
    if _h : i < sz then do
      match ← walkpgdir pgdir (addr + i) false with
      | none => throw .loaduvmExist
      | some (t, j) =>
        let s ← get
        setPage (s.page t j).ppn (file i).1
        if (file i).2 then go (i + PGSIZE) else pure false
    else pure true
  termination_by sz - i
  decreasing_by
    simp only [PGSIZE]
    omega

def clearpteu (pgdir uva : ℕ) : VmCode Unit := do
  match ← walkpgdir pgdir uva false with
  | none => throw .clearpteu
  | some (t, j) =>
    let s ← get
    setPte t j { s.page t j with u := false }

/-- The loop of `copyuvm` from the address `i` on. -/
def copyuvmLoop (pgdir sz d i : ℕ) : VmCode (Option ℕ) :=
  if _h : i < sz then do
    match ← walkpgdir pgdir i false with
    | none => throw .copyuvmExist
    | some (t, j) =>
      let s ← get
      let pte := s.page t j
      if pte.p = false then throw .copyuvmPresent
      match ← kalloc with
      | none =>
        freevm d
        pure none
      | some mem =>
        setPage mem (s.page pte.ppn)
        if ← mappages d i PGSIZE (mem * PGSIZE) pte.w pte.u pte.rest then copyuvmLoop pgdir sz d (i + PGSIZE)
        else
          freevm d
          pure none
  else pure (some d)
termination_by sz - i
decreasing_by
  simp only [PGSIZE]
  omega

def copyuvm (data pgdir sz : ℕ) : VmCode (Option ℕ) := do
  match ← setupkvm data with
  | none => pure none
  | some d => copyuvmLoop pgdir sz d 0

/-- `uva2ka`: the page that user code sees at `uva`. -/
def uva2ka (pgdir uva : ℕ) : VmCode (Option ℕ) := do
  match ← walkpgdir pgdir uva false with
  | none => throw .nullPte
  | some (t, j) =>
    let s ← get
    let pte := s.page t j
    if pte.p = false then pure none
    else if pte.u = false then pure none
    else pure (some pte.ppn)

/-- `copyout` of what makes the pages from that of `va` on those of `pages`; `false` is the result -1. -/
def copyout (pgdir : ℕ) : (va : ℕ) → List Table → VmCode Bool
  | _, [] => pure true
  | va, x :: xs => do
    match ← uva2ka pgdir (PGROUNDDOWN va) with
    | none => pure false
    | some pa =>
      setPage pa x
      copyout pgdir ((PGROUNDDOWN va + PGSIZE) % 2 ^ 32) xs

end Vm

end Xv6
