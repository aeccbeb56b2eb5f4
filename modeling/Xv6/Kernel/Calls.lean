import Xv6.Kernel.State

/-!
# The file system calls (`fs.c`, `file.c`, `sysfile.c`, `exec.c`, `proc.c`)

The functions from `ilock` up to the system calls, as programs over the steps of `Xv6.Kernel.State`. A call
returns what the C function returns; arguments that `argstr`, `argint` or `argptr` may reject are `Option`s.
-/

namespace Xv6

/-- Programs of the kernel. -/
abbrev Sys (P : Type) : Type → Type := Prog (Act P) Act.Resp

namespace Sys

variable {P : Type} {α : Type}

/-- One step. -/
def step (a : Act P) : Sys P a.Resp := Prog.perform a

/-- An operation on locked inodes. -/
def fs (op : FsOp) : Sys P op.Resp := step (.fs op)

/-- `panic`. -/
def panic (e : Panic) : Sys P α := .act (.panic e) nofun

/-! ## `fs.c`: inodes -/

/-- `ilock`. -/
def ilock (i : ℕ) : Sys P Unit := do
  let r ← step (.ref i .ilock)
  if i = 0 ∨ r < 1 then panic .ilock
  else
    step (.acquire i .ilock)
    fs (.load i)

/-- `iunlock`. -/
def iunlock (i : ℕ) : Sys P Unit := do
  let held ← step (.holding i)
  let r ← step (.ref i .ilock)
  if i = 0 ∨ held = false ∨ r < 1 then panic .iunlock else step (.release i .ilock)

/-- `ip->valid && ip->nlink == 0`. -/
def unlinked (i : ℕ) : Sys P Bool := do
  let valid ← fs (.isValid i)
  if valid then
    let st ← fs (.stat i)
    pure (st.nlink == 0)
  else pure false

/-- The part of `iput` that holds the lock. -/
def iputFree (i : ℕ) : Sys P Unit := do
  let u ← unlinked i
  if u then
    let r ← step (.ref i .iput)
    if r = 1 then fs (.ifree i) else pure ()
  else pure ()

/-- `iput`. -/
def iput (i : ℕ) : Sys P Unit := do
  step (.acquire i .iput)
  iputFree i
  step (.release i .iput)
  step (.refDec i)

/-- `iunlockput`. -/
def iunlockput (i : ℕ) : Sys P Unit := do
  iunlock i
  iput i

/-- The device functions that `readi` calls: only the console has one. `consoleread` gives up the inode
lock while it waits for input, and fails when the process is killed. -/
def devRead (i : ℕ) (major : BitVec 16) (n : ℕ) : Sys P (Option (List UInt8)) :=
  if major.toInt = CONSOLE then do
    iunlock i
    let input ← step .env
    ilock i
    pure (input.map (·.take n))
  else pure none

/-- `readi`: `none` is the result `-1`. -/
def readi (i off n : ℕ) : Sys P (Option (List UInt8)) := do
  let st ← fs (.stat i)
  if st.type = T_DEV then devRead i st.major n else fs (.readi i off n)

/-- The device functions that `writei` calls. -/
def devWrite (i : ℕ) (major : BitVec 16) (src : List UInt8) : Sys P (Option ℕ) :=
  if major.toInt = CONSOLE then do
    iunlock i
    ilock i
    pure (some src.length)
  else pure none

/-- `writei`: `none` is the result `-1`. -/
def writei (i off : ℕ) (src : List UInt8) : Sys P (Option ℕ) := do
  let st ← fs (.stat i)
  if st.type = T_DEV then devWrite i st.major src else fs (.writei i off src)

/-! ## `fs.c`: directories and paths -/

/-- `dirlookup`: the offset of the entry and its inode. -/
def dirlookup (d : ℕ) (name : List UInt8) : Sys P (Option (ℕ × ℕ)) := do
  let r ← fs (.dirlookup d name)
  match r with
  | none => pure none
  | some (off, inum) => do
    step (.iget inum)
    pure (some (off, inum))

/-- `dirlink`: `false` is the result `-1`. -/
def dirlink (d : ℕ) (name : List UInt8) (inum : ℕ) : Sys P Bool := do
  let r ← dirlookup d name
  match r with
  | some (_, i) => do
    iput i
    pure false
  | none => do
    fs (.dirlink d name inum)
    pure true

/-- The loop of `namex`, at inode `i` with the given path elements to come. -/
def namexLoop (nameiparent : Bool) : ℕ → List (List UInt8) → Sys P (Option (ℕ × List UInt8))
  | i, [] =>
    if nameiparent then do
      iput i
      pure none
    else pure (some (i, []))
  | i, name :: rest => do
    ilock i
    let st ← fs (.stat i)
    if st.type ≠ T_DIR then do
      iunlockput i
      pure none
    else if nameiparent ∧ rest = [] then do
      iunlock i
      pure (some (i, name))
    else do
      let r ← dirlookup i name
      match r with
      | none => do
        iunlockput i
        pure none
      | some (_, next) => do
        iunlockput i
        namexLoop nameiparent next rest

/-- The inode at which `namex` starts. -/
def namexStart (path : List UInt8) : Sys P ℕ := do
  if path.head? = some slash then
    step (.iget ROOTINO)
    pure ROOTINO
  else
    let i ← step .cwd
    step (.idup i)
    pure i

/-- `namex`: the inode and, for `nameiparent`, the last element of the path. -/
def namex (path : List UInt8) (nameiparent : Bool) : Sys P (Option (ℕ × List UInt8)) := do
  let i ← namexStart path
  namexLoop nameiparent i (elems path)

/-- `namei`. -/
def namei (path : List UInt8) : Sys P (Option (ℕ × List UInt8)) := namex path false

/-- `nameiparent`. -/
def nameiparent (path : List UInt8) : Sys P (Option (ℕ × List UInt8)) := namex path true

/-! ## `file.c` -/

/-- What `fileclose` does with the file of the last reference. -/
def fileclosed (ff : File) : Sys P Unit :=
  match ff.type with
  | .none => pure ()
  | .pipe r => step (.pipeclose r ff.writable)
  | .inode i => do
    step .beginOp
    iput i
    step .endOp

/-- `fileclose`. -/
def fileclose (f : Fin NFILE) : Sys P Unit := do
  let ff ← step (.fileDec f)
  match ff with
  | none => pure ()
  | some ff => fileclosed ff

/-- `filestat`. -/
def filestat (f : Fin NFILE) : Sys P ℤ := do
  let ff ← step (.file f)
  match ff.type with
  | .none | .pipe _ => pure (-1)
  | .inode i => do
    ilock i
    let _ ← fs (.stat i)
    iunlock i
    pure 0

/-- `if(r > 0) f->off += r`. -/
def advance (f : Fin NFILE) (r : Option ℕ) : Sys P Unit :=
  if r.getD 0 > 0 then step (.advance f (r.getD 0)) else pure ()

/-- `fileread`. -/
def fileread (f : Fin NFILE) (n : ℕ) : Sys P ℤ := do
  let ff ← step (.file f)
  if ff.readable = false then pure (-1)
  else
    match ff.type with
    | .none => panic .fileread
    | .pipe _ => do
      let r ← step .env
      pure ((r.map fun bytes => (bytes.length : ℤ)).getD (-1))
    | .inode i => do
      ilock i
      let ff ← step (.file f)
      let r ← readi i ff.off n
      advance f (r.map List.length)
      iunlock i
      pure ((r.map fun bytes => (bytes.length : ℤ)).getD (-1))

/-- One round of the loop of `filewrite`: a transaction that writes some bytes at the offset. -/
def filewriteChunk (f : Fin NFILE) (i : ℕ) (src : List UInt8) : Sys P (Option ℕ) := do
  step .beginOp
  ilock i
  let ff ← step (.file f)
  let r ← writei i ff.off src
  advance f r
  iunlock i
  step .endOp
  pure r

/-- The number of bytes written in one transaction. -/
def maxChunk : ℕ := (MAXOPBLOCKS - 1 - 1 - 2) / 2 * 512

/-- The loop of `filewrite`: whether everything was written. -/
def filewriteLoop (f : Fin NFILE) (i : ℕ) : ℕ → List UInt8 → Sys P Bool
  | 0, src => pure (src = [])
  | fuel + 1, src =>
    if src = [] then pure true
    else do
      let r ← filewriteChunk f i (src.take maxChunk)
      match r with
      | none => pure false
      | some n =>
        if n ≠ (src.take maxChunk).length then panic .shortFilewrite
        else filewriteLoop f i fuel (src.drop maxChunk)

/-- `filewrite`; every round writes a byte at least. -/
def filewrite (f : Fin NFILE) (src : List UInt8) : Sys P ℤ := do
  let ff ← step (.file f)
  if ff.writable = false then pure (-1)
  else
    match ff.type with
    | .none => panic .filewrite
    | .pipe _ => do
      let r ← step .env
      pure (if r.isSome then src.length else -1)
    | .inode i => do
      let ok ← filewriteLoop f i src.length src
      pure (if ok then src.length else -1)

/-! ## `sysfile.c` -/

/-- `argfd`. -/
def argfd (fd : ℕ) : Sys P (Option (Fin NFILE)) :=
  if h : fd < NOFILE then step (.ofile ⟨fd, h⟩) else pure none

/-- `sys_dup`. -/
def sysDup (fd : ℕ) : Sys P ℤ := do
  let f ← argfd fd
  match f with
  | none => pure (-1)
  | some f => do
    let fd ← step (.fdalloc f)
    match fd with
    | none => pure (-1)
    | some fd => do
      step (.filedup f)
      pure fd

/-- `sys_read`; `n` is a non-negative `int`. -/
def sysRead (fd : ℕ) (n : Option (Fin (2 ^ 31))) : Sys P ℤ := do
  let f ← argfd fd
  match f, n with
  | some f, some n => fileread f n
  | _, _ => pure (-1)

/-- `sys_write`. -/
def sysWrite (fd : ℕ) (src : Option (List UInt8)) : Sys P ℤ := do
  let f ← argfd fd
  match f, src with
  | some f, some src => if src.length < 2 ^ 31 then filewrite f src else pure (-1)
  | _, _ => pure (-1)

/-- `sys_close`. -/
def sysClose (fd : ℕ) : Sys P ℤ :=
  if h : fd < NOFILE then do
    let f ← step (.ofile ⟨fd, h⟩)
    match f with
    | none => pure (-1)
    | some f => do
      step (.clearFd ⟨fd, h⟩)
      fileclose f
      pure 0
  else pure (-1)

/-- `sys_fstat`. -/
def sysFstat (fd : ℕ) : Sys P ℤ := do
  let f ← argfd fd
  match f with
  | none => pure (-1)
  | some f => filestat f

/-- The label `bad` of `sys_link`. -/
def linkBad (ip : ℕ) : Sys P ℤ := do
  ilock ip
  fs (.update ip .unlink)
  iunlockput ip
  step .endOp
  pure (-1)

/-- `sys_link`, once the link count has been incremented. There is only one device. -/
def linkInto (ip : ℕ) (new : List UInt8) : Sys P ℤ := do
  let r ← nameiparent new
  match r with
  | none => linkBad ip
  | some (dp, name) => do
    ilock dp
    let ok ← dirlink dp name ip
    iunlockput dp
    if ok then do
      iput ip
      step .endOp
      pure 0
    else linkBad ip

/-- `sys_link`. -/
def sysLink (old new : Option (List UInt8)) : Sys P ℤ :=
  match old, new with
  | some old, some new => do
    step .beginOp
    let r ← namei old
    match r with
    | none => do
      step .endOp
      pure (-1)
    | some (ip, _) => do
      ilock ip
      let st ← fs (.stat ip)
      if st.type = T_DIR then do
        iunlockput ip
        step .endOp
        pure (-1)
      else do
        fs (.update ip .link)
        iunlock ip
        linkInto ip new
  | _, _ => pure (-1)

/-- The label `bad` of `sys_unlink`. -/
def unlinkBad (dp : ℕ) : Sys P ℤ := do
  iunlockput dp
  step .endOp
  pure (-1)

/-- `if(ip->type == T_DIR){ dp->nlink--; iupdate(dp); }`. -/
def unlinkParent (dp : ℕ) (type : BitVec 16) : Sys P Unit :=
  if type = T_DIR then fs (.update dp .unlink) else pure ()

/-- `sys_unlink`, once it is clear that the entry at `off` can go. -/
def unlinkEntry (dp ip off : ℕ) (type : BitVec 16) : Sys P ℤ := do
  fs (.clear dp off)
  unlinkParent dp type
  iunlockput dp
  fs (.update ip .unlink)
  iunlockput ip
  step .endOp
  pure 0

/-- `ip->type == T_DIR && !isdirempty(ip)`. -/
def nonEmptyDir (ip : ℕ) (type : BitVec 16) : Sys P Bool := do
  if type = T_DIR then
    let empty ← fs (.isdirempty ip)
    pure (!empty)
  else pure false

/-- `sys_unlink`. -/
def sysUnlink (path : Option (List UInt8)) : Sys P ℤ :=
  match path with
  | none => pure (-1)
  | some path => do
    step .beginOp
    let r ← nameiparent path
    match r with
    | none => do
      step .endOp
      pure (-1)
    | some (dp, name) => do
      ilock dp
      if IsDot name then unlinkBad dp
      else
        let r ← dirlookup dp name
        match r with
        | none => unlinkBad dp
        | some (off, ip) => do
          ilock ip
          let st ← fs (.stat ip)
          if st.nlink.toInt < 1 then panic .unlinkNlink
          else
            let full ← nonEmptyDir ip st.type
            if full then do
              iunlockput ip
              unlinkBad dp
            else unlinkEntry dp ip off st.type

/-- The entries `.` and `..` of a new directory. -/
def createDots (dp ip : ℕ) (type : BitVec 16) : Sys P Unit :=
  if type = T_DIR then do
    fs (.update dp .link)
    let ok ← dirlink ip dot ip
    if ok then
      let ok ← dirlink ip dotdot dp
      if ok then pure () else panic .createDots
    else panic .createDots
  else pure ()

/-- `create`, once the name is known not to exist. `ialloc` never returns 0: it panics. -/
def createNew (dp : ℕ) (name : List UInt8) (type major minor : BitVec 16) : Sys P (Option ℕ) := do
  let ip ← fs (.ialloc type)
  step (.iget ip)
  ilock ip
  fs (.update ip (.create major minor))
  createDots dp ip type
  let ok ← dirlink dp name ip
  if ok then
    iunlockput dp
    pure (some ip)
  else panic .createDirlink

/-- `create`: the inode, locked. -/
def create (path : List UInt8) (type major minor : BitVec 16) : Sys P (Option ℕ) := do
  let r ← nameiparent path
  match r with
  | none => pure none
  | some (dp, name) => do
    ilock dp
    let r ← dirlookup dp name
    match r with
    | some (_, ip) => do
      iunlockput dp
      ilock ip
      let st ← fs (.stat ip)
      if type = T_FILE ∧ st.type = T_FILE then pure (some ip)
      else do
        iunlockput ip
        pure none
    | none => createNew dp name type major minor

/-- The inode that `sys_open` opens, locked. -/
def openInode (path : List UInt8) (omode : BitVec 32) : Sys P (Option ℕ) := do
  if omode &&& O_CREATE ≠ 0 then create path T_FILE 0 0
  else
    let r ← namei path
    match r with
    | none => pure none
    | some (ip, _) => do
      ilock ip
      let st ← fs (.stat ip)
      if st.type = T_DIR ∧ omode ≠ O_RDONLY then do
        iunlockput ip
        pure none
      else pure (some ip)

/-- `filealloc` and `fdalloc`; a file without descriptor is closed again. -/
def openFile : Sys P (Option (Fin NFILE × Fin NOFILE)) := do
  let f ← step .filealloc
  match f with
  | none => pure none
  | some f => do
    let fd ← step (.fdalloc f)
    match fd with
    | none => do
      fileclose f
      pure none
    | some fd => pure (some (f, fd))

/-- `sys_open`. -/
def sysOpen (path : Option (List UInt8)) (omode : BitVec 32) : Sys P ℤ :=
  match path with
  | none => pure (-1)
  | some path => do
    step .beginOp
    let ip ← openInode path omode
    match ip with
    | none => do
      step .endOp
      pure (-1)
    | some ip => do
      let r ← openFile
      match r with
      | none => do
        iunlockput ip
        step .endOp
        pure (-1)
      | some (f, fd) => do
        iunlock ip
        step .endOp
        step (.setFile f ip (omode &&& O_WRONLY = 0) (omode &&& O_WRONLY ≠ 0 ∨ omode &&& O_RDWR ≠ 0))
        pure fd

/-- `argstr(0, &path) < 0 || (ip = f(path)) == 0`. -/
def withPath (path : Option (List UInt8)) (f : List UInt8 → Sys P (Option α)) : Sys P (Option α) :=
  match path with
  | none => pure none
  | some path => f path

/-- `sys_mkdir` and `sys_mknod`: the argument is checked inside the transaction. -/
def sysCreate (path : Option (List UInt8)) (type major minor : BitVec 16) : Sys P ℤ := do
  step .beginOp
  let r ← withPath path fun path => create path type major minor
  match r with
  | none => do
    step .endOp
    pure (-1)
  | some ip => do
    iunlockput ip
    step .endOp
    pure 0

/-- `sys_mkdir`. -/
def sysMkdir (path : Option (List UInt8)) : Sys P ℤ := sysCreate path T_DIR 0 0

/-- `sys_mknod`. -/
def sysMknod (path : Option (List UInt8)) (major minor : BitVec 16) : Sys P ℤ :=
  sysCreate path T_DEV major minor

/-- `sys_chdir`. -/
def sysChdir (path : Option (List UInt8)) : Sys P ℤ := do
  step .beginOp
  let r ← withPath path namei
  match r with
  | none => do
    step .endOp
    pure (-1)
  | some (ip, _) => do
    ilock ip
    let st ← fs (.stat ip)
    if st.type ≠ T_DIR then do
      iunlockput ip
      step .endOp
      pure (-1)
    else do
      iunlock ip
      let old ← step .takeCwd
      iput old
      step .endOp
      step (.setCwd ip)
      pure 0

/-- `pipealloc`: the file to read from and the file to write to. There is no page to give back at the label `bad`. -/
def pipealloc : Sys P (Option (Fin NFILE × Fin NFILE)) := do
  let f0 ← step .filealloc
  match f0 with
  | none => pure none
  | some f0 => do
    let f1 ← step .filealloc
    match f1 with
    | none => do
      fileclose f0
      pure none
    | some f1 => do
      let p ← step .kallocPipe
      match p with
      | none => do
        fileclose f0
        fileclose f1
        pure none
      | some p => do
        step (.setPipe f0 f1 p)
        pure (some (f0, f1))

/-- The failure of `sys_pipe`, once it has a pipe. -/
def pipeBad (rf wf : Fin NFILE) : Sys P ℤ := do
  fileclose rf
  fileclose wf
  pure (-1)

/-- `sys_pipe`; `ok` says whether `argptr` accepts the argument. -/
def sysPipe (ok : Bool) : Sys P ℤ :=
  if ok = false then pure (-1)
  else do
    let r ← pipealloc
    match r with
    | none => pure (-1)
    | some (rf, wf) => do
      let fd0 ← step (.fdalloc rf)
      match fd0 with
      | none => pipeBad rf wf
      | some fd0 => do
        let fd1 ← step (.fdalloc wf)
        match fd1 with
        | none => do
          step (.clearFd fd0)
          pipeBad rf wf
        | some _ => pure 0

/-! ## `exec.c` -/

/-- The fields of `struct elfhdr` that `exec` uses. -/
structure Elfhdr where
  magic : ℕ
  phoff : ℕ
  phnum : ℕ

/-- The fields of `struct proghdr` that `exec` uses. -/
structure Proghdr where
  type : ℕ
  off : ℕ
  vaddr : ℕ
  filesz : ℕ
  memsz : ℕ

/-- The little-endian number of `n` bytes at offset `off`. -/
def field (bytes : List UInt8) (off n : ℕ) : ℕ := leVal ((bytes.drop off).take n)

/-- `sizeof(struct elfhdr)`. -/
def ELFHDR : ℕ := 52

/-- `sizeof(struct proghdr)`. -/
def PROGHDR : ℕ := 32

/-- The header of an executable file. -/
def Elfhdr.read (bytes : List UInt8) : Elfhdr := ⟨field bytes 0 4, field bytes 28 4, field bytes 44 2⟩

/-- A program header. -/
def Proghdr.read (bytes : List UInt8) : Proghdr :=
  ⟨field bytes 0 4, field bytes 4 4, field bytes 8 4, field bytes 16 4, field bytes 20 4⟩

/-- `readi(ip, dst, off, n) != n` fails: exactly `n` bytes. -/
def readExactly (i off n : ℕ) : Sys P (Option (List UInt8)) := do
  let r ← readi i off n
  pure (r.filter fun bytes => bytes.length = n)

/-- The loop of `loaduvm`, for the pages still to read. -/
def loaduvmLoop (i offset sz : ℕ) : List ℕ → Sys P Bool
  | [] => pure true
  | page :: pages => do
    let r ← readExactly i ((offset + page * PGSIZE) % 2 ^ 32) (min (sz - page * PGSIZE) PGSIZE)
    match r with
    | none => pure false
    | some _ => loaduvmLoop i offset sz pages

/-- `loaduvm`: the pages exist, `allocuvm` has allocated them. -/
def loaduvm (i offset sz : ℕ) : Sys P Bool :=
  loaduvmLoop i offset sz (List.range ((sz + (PGSIZE - 1)) / PGSIZE))

/-- One program header that is to be loaded; `allocuvm` may fail. -/
def loadSegment (i : ℕ) (ph : Proghdr) : Sys P Bool :=
  if ph.memsz < ph.filesz then pure false
  else if (ph.vaddr + ph.memsz) % 2 ^ 32 < ph.vaddr then pure false
  else do
    let memory ← step .env
    match memory with
    | none => pure false
    | some _ => if ph.vaddr % PGSIZE ≠ 0 then pure false else loaduvm i ph.off ph.filesz

/-- The loop of `exec` over the program headers still to come. -/
def execLoop (i : ℕ) : ℕ → ℕ → Sys P Bool
  | 0, _ => pure true
  | n + 1, off => do
    let r ← readExactly i off PROGHDR
    match r with
    | none => pure false
    | some bytes =>
      if (Proghdr.read bytes).type ≠ ELF_PROG_LOAD then execLoop i n ((off + PROGHDR) % 2 ^ 32)
      else do
        let ok ← loadSegment i (Proghdr.read bytes)
        if ok then execLoop i n ((off + PROGHDR) % 2 ^ 32) else pure false

/-- Loading the program of a locked inode; `setupkvm` may fail. -/
def execLoad (i : ℕ) : Sys P Bool := do
  let r ← readExactly i 0 ELFHDR
  match r with
  | none => pure false
  | some bytes =>
    if (Elfhdr.read bytes).magic ≠ ELF_MAGIC then pure false
    else do
      let pgdir ← step .env
      match pgdir with
      | none => pure false
      | some _ => execLoop i (Elfhdr.read bytes).phnum (Elfhdr.read bytes).phoff

/-- `exec`; what it does once the file is closed may fail as well. -/
def sysExec (path : Option (List UInt8)) : Sys P ℤ :=
  match path with
  | none => pure (-1)
  | some path => do
    step .beginOp
    let r ← namei path
    match r with
    | none => do
      step .endOp
      pure (-1)
    | some (ip, _) => do
      ilock ip
      let ok ← execLoad ip
      iunlockput ip
      step .endOp
      if ok then do
        let stack ← step .env
        pure (if stack.isSome then 0 else -1)
      else pure (-1)

/-! ## `proc.c` -/

/-- The loop of `fork` over the open files. -/
def forkFiles (q : P) : List (Fin NOFILE) → Sys P Unit
  | [] => pure ()
  | fd :: fds => do
    step (.dupFd q fd)
    forkFiles q fds

/-- `fork`, once it has a process. -/
def forkInto (q : P) : Sys P ℤ := do
  let memory ← step .env
  match memory with
  | none => do
    step (.freeproc q)
    pure (-1)
  | some _ => do
    forkFiles q (List.finRange NOFILE)
    let i ← step .cwd
    step (.idup i)
    step (.giveCwd q i)
    step (.runnable q)
    pure 0

/-- `fork`; the result in the parent is shown as 0. -/
def sysFork : Sys P ℤ := do
  let q ← step .allocproc
  match q with
  | none => pure (-1)
  | some q => forkInto q

/-- The loop of `exit` over the open files. -/
def exitFiles : List (Fin NOFILE) → Sys P Unit
  | [] => pure ()
  | fd :: fds => do
    let f ← step (.takeFd fd)
    match f with
    | none => exitFiles fds
    | some f => do
      fileclose f
      step (.clearFd fd)
      exitFiles fds

/-- `exit`. -/
def sysExit : Sys P ℤ := do
  let init ← step .isInit
  if init then panic .initExiting
  else
    exitFiles (List.finRange NOFILE)
    step .beginOp
    let i ← step .takeCwd
    iput i
    step .endOp
    step (.setCwd 0)
    step .die
    pure 0

/-- One scan of `wait`, which sleeps and scans again by being called again; the pid it returns is shown as 0. -/
def sysWait : Sys P ℤ := do
  let found ← step .reap
  pure (if found then 0 else -1)

end Sys

/-! ## The machine -/

/-- The system calls. -/
inductive Syscall where
  | dup (fd : ℕ)
  | read (fd : ℕ) (n : Option (Fin (2 ^ 31)))
  | write (fd : ℕ) (src : Option (List UInt8))
  | close (fd : ℕ)
  | fstat (fd : ℕ)
  | link (old new : Option (List UInt8))
  | unlink (path : Option (List UInt8))
  | open (path : Option (List UInt8)) (omode : BitVec 32)
  | mkdir (path : Option (List UInt8))
  | mknod (path : Option (List UInt8)) (major minor : BitVec 16)
  | chdir (path : Option (List UInt8))
  | pipe (ok : Bool)
  | exec (path : Option (List UInt8))
  | fork
  | exit
  | wait

/-- The code of a system call. -/
def Syscall.code {P : Type} : Syscall → Sys P ℤ
  | dup fd => Sys.sysDup fd
  | read fd n => Sys.sysRead fd n
  | write fd src => Sys.sysWrite fd src
  | close fd => Sys.sysClose fd
  | fstat fd => Sys.sysFstat fd
  | link old new => Sys.sysLink old new
  | unlink path => Sys.sysUnlink path
  | .open path omode => Sys.sysOpen path omode
  | mkdir path => Sys.sysMkdir path
  | mknod path major minor => Sys.sysMknod path major minor
  | chdir path => Sys.sysChdir path
  | pipe ok => Sys.sysPipe ok
  | exec path => Sys.sysExec path
  | fork => Sys.sysFork
  | exit => Sys.sysExit
  | wait => Sys.sysWait

namespace Kernel

variable {S P : Type} [DecidableEq P]

/-- The processes `P` making calls `K`, over a store with `N` inodes. -/
def machine {K : Type} (N : ℕ) (st : (op : FsOp) → Code Halt S op.Resp) (code : K → Sys P ℤ) :
    Machine P (Act P) (Choice P) K (Kernel S P) Halt Act.Resp where
  exec := exec N st
  code k := do
    let _ ← code k
    pure ()
  ready k p := (k.proc p).state = .running

end Kernel

end Xv6
