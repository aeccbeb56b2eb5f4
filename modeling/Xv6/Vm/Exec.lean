import Xv6.Param
import Xv6.Kernel.Calls
import Xv6.Vm.UserBytes

/-!
# `exec`, with the bytes of the file and of the arguments

`exec` reads the program from a file, byte by byte, and pushes the argument strings and `ustack` on the stack of the new
image.
-/

namespace Xv6

namespace Vm

open Code

def MAXARG : ℕ := 32

/-! ## Reading the file -/

/-- The calls of `readi` that `exec` makes: for the ELF header, for a program header, for a page of a segment. -/
inductive ReadCall where
  | elf
  | ph (i : ℕ)
  | seg (i page : ℕ)

/-- What the calls of `readi` with an offset and a number of bytes return; `none` is the result -1. -/
structure Reader where
  read : ReadCall → ℕ → ℕ → Option (List UInt8)
  le : ∀ {c off n bs}, read c off n = some bs → bs.length ≤ n

/-- `readi` of a file with these bytes. -/
def Reader.file (bytes : List UInt8) : Reader where
  read _ off n := if bytes.length < off ∨ 2 ^ 32 ≤ off + n then none else some ((bytes.drop off).take n)
  le := by
    intro c off n bs h
    split_ifs at h
    rw [← Option.some.inj h]
    exact List.length_take_le ..

/-! ## `loaduvm` -/

/-- The loop of `loaduvm` from offset `i` on, for program header `h`. -/
def loadLoop (rd : Reader) (h pgdir addr offset sz i : ℕ) : VmCode Bool :=
  if _h : i < sz then do
    match ← walkpgdir pgdir (addr + i) false with
    | none => throw .loaduvmExist
    | some (t, j) =>
      let s ← get
      let pa := (s.page t j).ppn
      let n := if sz - i < PGSIZE then sz - i else PGSIZE
      match rd.read (.seg h (i / PGSIZE)) ((offset + i) % 2 ^ 32) n with
      | none => pure false
      | some bs =>
        memmove pa 0 bs
        if bs.length ≠ n then pure false else loadLoop rd h pgdir addr offset sz (i + PGSIZE)
  else pure true
termination_by sz - i
decreasing_by
  simp only [PGSIZE]
  omega

/-- `loaduvm` of `sz` bytes from `offset` of the file on; `false` is the result -1. -/
def loaduvmBytes (rd : Reader) (h pgdir addr offset sz : ℕ) : VmCode Bool :=
  if addr % PGSIZE ≠ 0 then throw .loaduvmAligned else loadLoop rd h pgdir addr offset sz 0

/-! ## `copyout` -/

/-- `copyout` of the bytes `src`; `false` is the result -1. -/
def copyoutBytes (pgdir va : ℕ) (src : List UInt8) : VmCode Bool :=
  if _h : 0 < src.length then do
    let va0 := PGROUNDDOWN va
    match ← uva2ka pgdir va0 with
    | none => pure false
    | some pa0 =>
      let n := if PGSIZE - (va - va0) > src.length then src.length else PGSIZE - (va - va0)
      memmove pa0 (va - va0) (src.take n)
      copyoutBytes pgdir ((va0 + PGSIZE) % 2 ^ 32) (src.drop n)
  else pure true
termination_by src.length
decreasing_by
  have hva : va - PGROUNDDOWN va < PGSIZE := by
    simp only [PGROUNDDOWN, PGSIZE]
    omega
  rw [List.length_drop]
  split <;> omega

/-! ## `exec` -/

/-- The loop of `exec` over the program headers; `left` are still to come, the next is number `i` at offset `off`. The
result is the size, if there was no error. -/
def execHeaders (rd : Reader) (pgdir : ℕ) : (left i off sz : ℕ) → VmCode (Option ℕ)
  | 0, _, _, sz => pure (some sz)
  | left + 1, i, off, sz => do
    match rd.read (.ph i) off Sys.PROGHDR with
    | none => pure none
    | some bs =>
      if bs.length ≠ Sys.PROGHDR then pure none
      else
        let ph := Sys.Proghdr.read bs
        let next := (off + Sys.PROGHDR) % 2 ^ 32
        if ph.type ≠ ELF_PROG_LOAD then execHeaders rd pgdir left (i + 1) next sz
        else if ph.memsz < ph.filesz then pure none
        else if (ph.vaddr + ph.memsz) % 2 ^ 32 < ph.vaddr then pure none
        else
          let sz ← allocuvm pgdir sz ((ph.vaddr + ph.memsz) % 2 ^ 32)
          if sz = 0 then pure none
          else if ph.vaddr % PGSIZE ≠ 0 then pure none
          else if ← loaduvmBytes rd i pgdir ph.vaddr ph.off ph.filesz then execHeaders rd pgdir left (i + 1) next sz
          else pure none

/-- `exec` up to the end of the loop: the directory, the size and the entry point, or the directory that is to be freed,
if there is one. -/
def execLoad (rd : Reader) (data : ℕ) : VmCode (Except (Option ℕ) (ℕ × ℕ × ℕ)) := do
  match rd.read .elf 0 Sys.ELFHDR with
  | none => pure (.error none)
  | some bs =>
    if bs.length ≠ Sys.ELFHDR then pure (.error none)
    else if (Sys.Elfhdr.read bs).magic ≠ ELF_MAGIC then pure (.error none)
    else
      match ← setupkvm data with
      | none => pure (.error none)
      | some pgdir =>
        match ← execHeaders rd pgdir (Sys.Elfhdr.read bs).phnum 0 (Sys.Elfhdr.read bs).phoff 0 with
        | none => pure (.error (some pgdir))
        | some sz => pure (.ok (pgdir, sz, Sys.field bs 24 4))

/-- The next value of `sp`, for a string of `len` bytes without its NUL. -/
def pushSp (sp len : ℕ) : ℕ := ((BitVec.ofNat 32 sp - BitVec.ofNat 32 (len + 1)) &&& ~~~3#32).toNat

/-- The loop of `exec` over the arguments that are left, the first of which is `argv[argc]`. The result is `sp` and the
pointers to the strings. -/
def pushStrings (pgdir : ℕ) : (argc sp : ℕ) → List (List UInt8) → VmCode (Option (ℕ × List ℕ))
  | _, sp, [] => pure (some (sp, []))
  | argc, sp, arg :: args => do
    if MAXARG ≤ argc then pure none
    else
      let sp := pushSp sp arg.length
      if ← copyoutBytes pgdir sp (arg ++ [0]) then
        match ← pushStrings pgdir (argc + 1) sp args with
        | none => pure none
        | some (sp', ptrs) => pure (some (sp', sp :: ptrs))
      else pure none

/-- The words of `ustack`. -/
def ustack (sp argc : ℕ) (ptrs : List ℕ) : List ℕ := 0xffffffff :: argc :: ((sp + 2 ^ 32 - (argc + 1) * 4) % 2 ^ 32) :: ptrs ++ [0]

/-- `exec` from `sp = sz` on: the last value of `sp`, if there was no error. -/
def execPush (pgdir sz : ℕ) (argv : List (List UInt8)) : VmCode (Option ℕ) := do
  match ← pushStrings pgdir 0 sz argv with
  | none => pure none
  | some (sp, ptrs) =>
    let argc := argv.length
    let src := (ustack sp argc ptrs).flatMap (leBytes 4)
    let sp := (sp + 2 ^ 32 - (3 + argc + 1) * 4) % 2 ^ 32
    if ← copyoutBytes pgdir sp src then pure (some sp) else pure none

/-- The size with the guard page and the stack page. -/
@[irreducible] def stackTop (sz : ℕ) : ℕ := sz + 2 * PGSIZE

theorem stackTop_eq (sz : ℕ) : stackTop sz = sz + 2 * PGSIZE := by
  unfold stackTop
  rfl

/-- `exec` from the stack pages on: the size and `sp`, if there was no error. -/
def execStack (pgdir sz : ℕ) (argv : List (List UInt8)) : VmCode (Option (ℕ × ℕ)) := do
  let sz := PGROUNDUP sz
  let sz ← allocuvm pgdir sz (stackTop sz)
  if sz = 0 then pure none
  else
    clearpteu pgdir (sz - 2 * PGSIZE)
    match ← execPush pgdir sz argv with
    | none => pure none
    | some sp => pure (some (sz, sp))

/-- The calls of the file system. -/
inductive FsCall where
  | beginOp
  | namei (found : Bool)
  | ilock
  | iunlockput
  | endOp
deriving DecidableEq

/-- What `exec` changes of a process besides its memory. -/
structure Regs where
  eip : ℕ
  esp : ℕ
  name : List UInt8

/-- The memory and the processes, and the calls of the file system so far. -/
structure Execer (n : ℕ) where
  kern : Kern n
  regs : Fin n → Regs
  fs : List FsCall

variable {n : ℕ}

abbrev ExecCode (n : ℕ) (α : Type) : Type := Code Panic (Execer n) α

def onKern {α : Type} (x : KernCode n α) : ExecCode n α := Code.zoom Execer.kern (fun k s => { s with kern := k }) x

def fsCall (c : FsCall) : ExecCode n Unit := modify fun s => { s with fs := s.fs ++ [c] }

/-- The part of the path after the last slash. -/
def lastElem (path : List UInt8) : List UInt8 := (path.reverse.takeWhile (· ≠ 47)).reverse

/-- `exec` of process `p`. Whether there is a file is `found`, and what is read from it is `rd`. -/
def execAll (l : Layout) (p : Fin n) (found : Bool) (rd : Reader) (path : List UInt8) (argv : List (List UInt8)) :
    ExecCode n Bool := do
  fsCall .beginOp
  fsCall (.namei found)
  if found = false then
    fsCall .endOp
    pure false
  else
    fsCall .ilock
    match ← onKern (vm (execLoad rd l.data)) with
    | .error pgdir =>
      match pgdir with
      | none => pure ()
      | some pgdir => onKern (vm (freevm pgdir))
      fsCall .iunlockput
      fsCall .endOp
      pure false
    | .ok (pgdir, sz, entry) =>
      fsCall .iunlockput
      fsCall .endOp
      match ← onKern (vm (execStack pgdir sz argv)) with
      | none =>
        onKern (vm (freevm pgdir))
        pure false
      | some (sz, sp) =>
        let s ← get
        let oldpgdir ← onKern (pgdirOf (s.kern.proc p))
        modify fun s => { s with regs := Function.update s.regs p ⟨entry, sp, (lastElem path).take 15⟩ }
        onKern (setProc p { s.kern.proc p with pgdir := some pgdir, sz := sz })
        onKern (vm (freevm oldpgdir))
        pure true

end Vm

end Xv6
