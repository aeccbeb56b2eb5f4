import Xv6.Fs.Files
import Xv6.Lib.Process

/-!
# The kernel state that the file system calls share

The inode cache with its reference counts and sleep locks, the file table and the process table, over any
implementation of the file operations. `Act` lists what a process does in one step: a critical section of
`icache.lock`, `ftable.lock` or `ptable.lock`, one `acquiresleep` or `releasesleep`, one operation on an
inode it has locked (the blocks such an operation shares with others are read and written under their buffer
locks), or an access to its own `struct proc`.

A cache entry is named by its inode number, which it keeps while its reference count is positive; the number
0 stands for a null pointer. Of a pipe only its page and its open ends are kept: what is in it does not matter to
the file table.
-/

namespace Xv6

open Function

/-- The function that takes or releases an inode lock. -/
inductive Site where
  | ilock
  | iput
deriving DecidableEq

/-- The type of a `struct file`, and its inode or pipe. -/
inductive FdType where
  | none
  | pipe (page : ℕ)
  | inode (ip : ℕ)
deriving DecidableEq

/-- `struct file`. -/
structure File where
  ref : ℕ
  type : FdType
  readable : Bool
  writable : Bool
  off : ℕ
deriving DecidableEq

/-- The end of the pipe that a file stands for. -/
def File.pipeEnd (ff : File) : Option (ℕ × Bool) :=
  match ff.type with
  | .pipe r => some (r, ff.writable)
  | _ => Option.none

/-- The states of a process slot that matter here. -/
inductive ProcState where
  | unused
  | embryo
  | running
  | zombie
deriving DecidableEq

/-- The open ends of a `struct pipe`. -/
structure PipeEnds where
  readopen : Bool
  writeopen : Bool
deriving DecidableEq

/-- `pipeclose`: one end is closed, and the pipe is freed when both are. -/
def PipeEnds.close (e : PipeEnds) (writable : Bool) : Option PipeEnds :=
  let e' : PipeEnds := if writable then { e with writeopen := false } else { e with readopen := false }
  if e'.readopen = false ∧ e'.writeopen = false then none else some e'

/-- The fields of `struct proc` that the file system uses; `begun` and `ended` are history variables, the
numbers of calls of `begin_op` and `end_op`. -/
structure Proc where
  state : ProcState
  cwd : ℕ
  ofile : Fin NOFILE → Option (Fin NFILE)
  begun : ℕ
  ended : ℕ

/-- The shared state of the processes `P`, over an implementation `S` of the file operations. -/
structure Kernel (S P : Type) where
  store : S
  ref : ℕ → ℕ
  lock : ℕ → Option P
  file : Fin NFILE → File
  pipe : ℕ → Option PipeEnds
  proc : P → Proc
  initproc : P

/-- The steps of a process. -/
inductive Act (P : Type) where
  /-- `begin_op`. -/
  | beginOp
  /-- `end_op`. -/
  | endOp
  /-- `iget`. -/
  | iget (i : ℕ)
  /-- `idup`. -/
  | idup (i : ℕ)
  /-- Reading `ip->ref`, under `icache.lock` in `iput`. -/
  | ref (i : ℕ) (site : Site)
  /-- `ip->ref--` in `iput`. -/
  | refDec (i : ℕ)
  /-- `acquiresleep(&ip->lock)`. -/
  | acquire (i : ℕ) (site : Site)
  /-- `releasesleep(&ip->lock)`. -/
  | release (i : ℕ) (site : Site)
  /-- `holdingsleep(&ip->lock)`. -/
  | holding (i : ℕ)
  /-- An operation on locked inodes. -/
  | fs (op : FsOp)
  /-- Reading `cwd`. -/
  | cwd
  /-- Reading `cwd` in order to drop its reference. -/
  | takeCwd
  /-- Assigning to `cwd`. -/
  | setCwd (i : ℕ)
  /-- `filealloc`. -/
  | filealloc
  /-- `fdalloc`. -/
  | fdalloc (f : Fin NFILE)
  /-- Reading `ofile[fd]`. -/
  | ofile (fd : Fin NOFILE)
  /-- Reading `ofile[fd]` in order to drop its reference. -/
  | takeFd (fd : Fin NOFILE)
  /-- `ofile[fd] = 0`. -/
  | clearFd (fd : Fin NOFILE)
  /-- `filedup`. -/
  | filedup (f : Fin NFILE)
  /-- The critical section of `fileclose`. -/
  | fileDec (f : Fin NFILE)
  /-- Reading the fields of a `struct file`. -/
  | file (f : Fin NFILE)
  /-- The assignments to the file at the end of `sys_open`. -/
  | setFile (f : Fin NFILE) (ip : ℕ) (readable writable : Bool)
  /-- `kalloc` and the initialisation of the pipe in `pipealloc`. -/
  | kallocPipe
  /-- The assignments to the files in `pipealloc`. -/
  | setPipe (rf wf : Fin NFILE) (page : ℕ)
  /-- `pipeclose`, with its `kfree`. -/
  | pipeclose (page : ℕ) (writable : Bool)
  /-- `f->off += n`. -/
  | advance (f : Fin NFILE) (n : ℕ)
  /-- Something outside the file system: memory allocation, console input. -/
  | env
  /-- `allocproc`. -/
  | allocproc
  /-- Giving up the new process in `fork`. -/
  | freeproc (q : P)
  /-- `np->ofile[i] = filedup(curproc->ofile[i])` in `fork`. -/
  | dupFd (q : P) (fd : Fin NOFILE)
  /-- `np->cwd = ...` in `fork`. -/
  | giveCwd (q : P) (i : ℕ)
  /-- `np->state = RUNNABLE` in `fork`. -/
  | runnable (q : P)
  /-- `curproc == initproc`. -/
  | isInit
  /-- The end of `exit`. -/
  | die
  /-- The scan of `wait`: it may find a zombie. -/
  | reap
  /-- `panic`. -/
  | panic (e : Panic)

/-- What a step answers. -/
abbrev Act.Resp {P : Type} : Act P → Type
  | ref _ _ | cwd | takeCwd => ℕ
  | holding _ | isInit | reap => Bool
  | fs op => op.Resp
  | filealloc => Option (Fin NFILE)
  | fdalloc _ => Option (Fin NOFILE)
  | ofile _ | takeFd _ => Option (Fin NFILE)
  | fileDec _ => Option File
  | kallocPipe => Option ℕ
  | file _ => File
  | env => Option (List UInt8)
  | allocproc => Option P
  | panic _ => Empty
  | _ => Unit

/-- What the environment decides in a step: nothing, some bytes, a free page, or a process slot. -/
inductive Choice (P : Type) where
  | quiet
  | bytes (b : List UInt8)
  | page (r : ℕ)
  | child (q : P)

namespace Kernel

variable {S P : Type} [DecidableEq P]

/-- Change the slot of one process. -/
def setProc (k : Kernel S P) (p : P) (f : Proc → Proc) : Kernel S P :=
  { k with proc := update k.proc p (f (k.proc p)) }

/-- Change one file. -/
def setFile (k : Kernel S P) (f : Fin NFILE) (x : File) : Kernel S P :=
  { k with file := update k.file f x }

/-- Change one pipe. -/
def setPipe (k : Kernel S P) (r : ℕ) (x : Option PipeEnds) : Kernel S P :=
  { k with pipe := update k.pipe r x }

/-- Change the reference count of one inode. -/
def setRef (k : Kernel S P) (i n : ℕ) : Kernel S P := { k with ref := update k.ref i n }

/-- Change the owner of one inode lock. -/
def setLock (k : Kernel S P) (i : ℕ) (o : Option P) : Kernel S P :=
  { k with lock := update k.lock i o }

/-- The number of cache entries in use, on a disk of `N` inodes. -/
def cached (N : ℕ) (k : Kernel S P) : ℕ := ((List.range N).filter fun i => 0 < k.ref i).length

/-- Do an operation on the store. -/
def onStore {α : Type} (x : Code Halt S α) : Code Halt (Kernel S P) α :=
  Code.zoom Kernel.store (fun s k => { k with store := s }) x

/-- What a step of process `p` does. An `acquiresleep` of a lock that is held is not enabled. -/
def exec (N : ℕ) (st : (op : FsOp) → Code Halt S op.Resp) (p : P) (c : Choice P) :
    (a : Act P) → Code Halt (Kernel S P) a.Resp
  | .beginOp => fun k => .ok () (k.setProc p fun x => { x with begun := x.begun + 1 })
  | .endOp => fun k => .ok () (k.setProc p fun x => { x with ended := x.ended + 1 })
  | .iget i => fun k =>
    if 0 < k.ref i then .ok () (k.setRef i (k.ref i + 1))
    else if NINODE ≤ k.cached N then .error (.panic .igetNoInodes) k
    else onStore (st (.invalidate i)) (k.setRef i 1)
  | .idup i => fun k => .ok () (k.setRef i (k.ref i + 1))
  | .ref i _ => fun k => .ok (k.ref i) k
  | .refDec i => fun k => .ok () (k.setRef i (k.ref i - 1))
  | .acquire i _ => fun k =>
    match k.lock i with
    | none => .ok () (k.setLock i (some p))
    | some _ => .error .sleep k
  | .release i _ => fun k => .ok () (k.setLock i none)
  | .holding i => fun k => .ok (k.lock i).isSome k
  | .fs op => onStore (st op)
  | .cwd => fun k => .ok (k.proc p).cwd k
  | .takeCwd => fun k => .ok (k.proc p).cwd k
  | .setCwd i => fun k => .ok () (k.setProc p fun x => { x with cwd := i })
  | .filealloc => fun k =>
    match (List.finRange NFILE).find? fun f => (k.file f).ref = 0 with
    | none => .ok none k
    | some f => .ok (some f) (k.setFile f { k.file f with ref := 1 })
  | .fdalloc f => fun k =>
    match (List.finRange NOFILE).find? fun fd => (k.proc p).ofile fd = none with
    | none => .ok none k
    | some fd =>
      .ok (some fd) (k.setProc p fun x => { x with ofile := update x.ofile fd (some f) })
  | .ofile fd => fun k => .ok ((k.proc p).ofile fd) k
  | .takeFd fd => fun k => .ok ((k.proc p).ofile fd) k
  | .clearFd fd => fun k =>
    .ok () (k.setProc p fun x => { x with ofile := update x.ofile fd none })
  | .filedup f => fun k =>
    if (k.file f).ref < 1 then .error (.panic .filedup) k
    else .ok () (k.setFile f { k.file f with ref := (k.file f).ref + 1 })
  | .fileDec f => fun k =>
    if (k.file f).ref < 1 then .error (.panic .fileclose) k
    else if (k.file f).ref - 1 > 0 then .ok none (k.setFile f { k.file f with ref := (k.file f).ref - 1 })
    else .ok (some (k.file f)) (k.setFile f { k.file f with ref := 0, type := .none })
  | .file f => fun k => .ok (k.file f) k
  | .setFile f ip readable writable => fun k =>
    .ok () (k.setFile f { k.file f with type := .inode ip, off := 0, readable, writable })
  | .kallocPipe => fun k =>
    match c with
    | .page r => if k.pipe r = none then .ok (some r) (k.setPipe r (some ⟨true, true⟩)) else .ok none k
    | _ => .ok none k
  | .setPipe rf wf page => fun k =>
    .ok () ((k.setFile rf { k.file rf with type := .pipe page, readable := true, writable := false }).setFile wf
      { k.file wf with type := .pipe page, readable := false, writable := true })
  | .pipeclose page writable => fun k =>
    match k.pipe page with
    | none => .ok () k
    | some x => .ok () (k.setPipe page (x.close writable))
  | .advance f n => fun k =>
    .ok () (k.setFile f { k.file f with off := ((k.file f).off + n) % 2 ^ 32 })
  | .env => fun k =>
    match c with
    | .bytes b => .ok (some b) k
    | _ => .ok none k
  | .allocproc => fun k =>
    match c with
    | .child q =>
      if (k.proc q).state = .unused then .ok (some q) (k.setProc q fun x => { x with state := .embryo })
      else .ok none k
    | _ => .ok none k
  | .freeproc q => fun k => .ok () (k.setProc q fun x => { x with state := .unused })
  | .dupFd q fd => fun k =>
    match (k.proc p).ofile fd with
    | none => .ok () k
    | some f =>
      if (k.file f).ref < 1 then .error (.panic .filedup) k
      else .ok () ((k.setFile f { k.file f with ref := (k.file f).ref + 1 }).setProc q fun x =>
        { x with ofile := update x.ofile fd (some f) })
  | .giveCwd q i => fun k => .ok () (k.setProc q fun x => { x with cwd := i })
  | .runnable q => fun k => .ok () (k.setProc q fun x => { x with state := .running })
  | .isInit => fun k => .ok (p = k.initproc) k
  | .die => fun k => .ok () (k.setProc p fun x => { x with state := .zombie })
  | .reap => fun k =>
    match c with
    | .child q =>
      if (k.proc q).state = .zombie then .ok true (k.setProc q fun x => { x with state := .unused })
      else .ok false k
    | _ => .ok false k
  | .panic e => fun k => .error (.panic e) k

variable {N : ℕ} {st : (op : FsOp) → Code Halt S op.Resp} {p : P} {c : Choice P} {k : Kernel S P}

theorem run_acquire {i : ℕ} {site : Site} : (exec N st p c (.acquire i site)).run k =
    match k.lock i with
    | none => .ok () (k.setLock i (some p))
    | some _ => .error .sleep k := rfl

theorem run_filealloc : (exec N st p c .filealloc).run k =
    match (List.finRange NFILE).find? fun f => (k.file f).ref = 0 with
    | none => .ok none k
    | some f => .ok (some f) (k.setFile f { k.file f with ref := 1 }) := rfl

theorem run_fdalloc {f : Fin NFILE} : (exec N st p c (.fdalloc f)).run k =
    match (List.finRange NOFILE).find? fun fd => (k.proc p).ofile fd = none with
    | none => .ok none k
    | some fd => .ok (some fd) (k.setProc p fun x => { x with ofile := update x.ofile fd (some f) }) := rfl

end Kernel

end Xv6
