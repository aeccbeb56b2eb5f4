import Xv6.Param
import Xv6.Lib.Bytes
import Xv6.Lib.Hoare
import Mathlib.Logic.Function.Basic

/-!
# Files and directories

The file system as its users see it: every inode has a type, a link count and a list of bytes, and the bytes
of a directory are its entries. `FsOp` lists what the kernel does to an inode it has locked; `Files.exec` is
the meaning of these operations here, and `Xv6.Fs.Dir` shows that the code over blocks has the same meaning.
-/

namespace Xv6

open List

/-! ## Names -/

/-- `strncmp`, for strings given by their characters up to the terminating zero. -/
def strncmp : ℕ → List UInt8 → List UInt8 → ℤ
  | 0, _, _ => 0
  | n + 1, p, q =>
    if p.headD 0 ≠ 0 ∧ p.headD 0 = q.headD 0 then strncmp n p.tail q.tail
    else (p.headD 0).toNat - (q.headD 0).toNat

/-- `strncpy`: the characters of a string, filled up with zeros. -/
def strncpy : ℕ → List UInt8 → List UInt8
  | 0, _ => []
  | n + 1, [] => List.replicate (n + 1) 0
  | n + 1, c :: t => if c = 0 then List.replicate (n + 1) 0 else c :: strncpy n t

/-- `namecmp`. -/
def namecmp (s t : List UInt8) : ℤ := strncmp DIRSIZ s t

/-- The name `.`. -/
def dot : List UInt8 := [46]

/-- The name `..`. -/
def dotdot : List UInt8 := [46, 46]

/-- The name is `.` or `..`. -/
def IsDot (name : List UInt8) : Prop := namecmp name dot = 0 ∨ namecmp name dotdot = 0

instance (name : List UInt8) : Decidable (IsDot name) := inferInstanceAs (Decidable (_ ∨ _))

/-- The character `/`. -/
def slash : UInt8 := 47

/-- `skipelem`: the next element of a path and what follows it. -/
def skipelem (path : List UInt8) : Option (List UInt8 × List UInt8) :=
  let s := path.dropWhile (· == slash)
  if s = [] then none
  else some ((s.takeWhile (· != slash)).take DIRSIZ, (s.dropWhile (· != slash)).dropWhile (· == slash))

/-- The elements that at most `fuel` calls of `skipelem` find. -/
def elemsUpTo : ℕ → List UInt8 → List (List UInt8)
  | 0, _ => []
  | fuel + 1, path =>
    match skipelem path with
    | none => []
    | some (name, rest) => name :: elemsUpTo fuel rest

/-- The elements of a path, which the loop of `namex` takes one by one. -/
def elems (path : List UInt8) : List (List UInt8) := elemsUpTo path.length path

variable {path c : List UInt8} {start : ℕ} {err : Panic} {test : Dirent → Bool}

theorem skipelem_lt {name rest : List UInt8} (h : skipelem path = some (name, rest)) :
    rest.length < path.length := by
  unfold skipelem at h
  simp only at h
  split at h
  · simp at h
  · rename_i hne
    obtain ⟨-, rfl⟩ := Prod.mk.inj (Option.some.inj h)
    have hle := (dropWhile_suffix (l := path) (· == slash)).length_le
    have hhead := head?_dropWhile_not (· == slash) path
    generalize path.dropWhile (· == slash) = t at hne hle hhead ⊢
    cases t with
    | nil => exact absurd rfl hne
    | cons c t =>
      rw [dropWhile_cons_of_pos (by simpa [bne] using hhead)]
      have hskip := (dropWhile_suffix (l := t) (· != slash)).length_le
      have hlast := (dropWhile_suffix (l := t.dropWhile (· != slash)) (· == slash)).length_le
      rw [length_cons] at hle
      omega

theorem elemsUpTo_eq {fuel fuel' : ℕ} (h : path.length ≤ fuel)
    (h' : path.length ≤ fuel') : elemsUpTo fuel path = elemsUpTo fuel' path := by
  induction fuel generalizing fuel' path with
  | zero =>
    obtain rfl : path = [] := length_eq_zero_iff.mp (by omega)
    cases fuel' <;> rfl
  | succ fuel ih =>
    cases hs : skipelem path with
    | none => cases fuel' <;> simp [elemsUpTo, hs]
    | some nr =>
      have hlt := skipelem_lt hs
      cases fuel' with
      | zero => omega
      | succ fuel' =>
        simp only [elemsUpTo, hs]
        have htail : elemsUpTo fuel nr.2 = elemsUpTo fuel' nr.2 := ih (by omega) (by omega)
        rw [htail]

/-- The elements of a path are those that repeated calls of `skipelem` find. -/
theorem elems_eq (path : List UInt8) : elems path = match skipelem path with
      | none => []
      | some (name, rest) => name :: elems rest := by
  cases hs : skipelem path with
  | none =>
    unfold elems
    cases path <;> simp [elemsUpTo, hs]
  | some nr =>
    have hlt := skipelem_lt hs
    unfold elems
    rw [elemsUpTo_eq (Nat.le_refl _) (Nat.le_succ path.length)]
    simp only [elemsUpTo, hs]
    rw [elemsUpTo_eq (Nat.le_of_lt hlt) (Nat.le_refl nr.2.length)]

/-! ## Directories -/

/-- `struct dirent`. -/
structure Dirent where
  inum : ℕ
  name : List UInt8
deriving DecidableEq

/-- `sizeof(struct dirent)`. -/
def DIRENT : ℕ := 2 + DIRSIZ

namespace Dirent

/-- The entry in the bytes of `struct dirent`. -/
def read (bytes : List UInt8) : Dirent := ⟨leVal (bytes.take 2), bytes.drop 2⟩

/-- The bytes of the entry of `dirlink`. -/
def bytes (inum : ℕ) (name : List UInt8) : List UInt8 := leBytes 2 inum ++ strncpy DIRSIZ name

end Dirent

/-- Entry number `k` of a directory. -/
def entry (data : List UInt8) (k : ℕ) : Dirent := Dirent.read ((data.drop (DIRENT * k)).take DIRENT)

/-- The number of entries of a directory, unused ones included. -/
def entries (data : List UInt8) : ℕ := data.length / DIRENT

/-- The first entry from number `start` on that passes a test. -/
def firstEntry (data : List UInt8) (start : ℕ) (test : Dirent → Bool) : Option ℕ :=
  (List.range' start (entries data - start)).find? fun k => test (entry data k)

/-- The loops over the entries of a directory: a directory that ends in the middle of an entry is an
error, if no earlier entry passes the test. -/
def scanEntries (data : List UInt8) (start : ℕ) (err : Panic) (test : Dirent → Bool) :
    Except Panic (Option ℕ) :=
  match firstEntry data start test with
  | some k => .ok (some k)
  | none => if data.length % DIRENT ≠ 0 ∧ DIRENT * start < data.length then .error err else .ok none

/-- The test of `dirlookup`. -/
def matchesName (name : List UInt8) (e : Dirent) : Bool := e.inum ≠ 0 ∧ namecmp name e.name = 0

/-- The test of `dirlink`. -/
def unused (e : Dirent) : Bool := e.inum = 0

/-- The test of `isdirempty`. -/
def used (e : Dirent) : Bool := e.inum ≠ 0

theorem strncpy_length (n : ℕ) (t : List UInt8) : (strncpy n t).length = n := by
  induction n generalizing t with
  | zero => rfl
  | succ n ih =>
    cases t with
    | nil => simp [strncpy]
    | cons c t =>
      unfold strncpy
      split
      · simp
      · rw [length_cons, ih]

theorem Dirent.bytes_length (inum : ℕ) (name : List UInt8) : (Dirent.bytes inum name).length = DIRENT := by
  rw [Dirent.bytes, length_append, leBytes_length, strncpy_length]
  rfl

theorem scanEntries_some {k : ℕ}
    (h : scanEntries c start err test = .ok (some k)) : start ≤ k ∧ k < entries c ∧ test (entry c k) = true := by
  unfold scanEntries at h
  split at h
  · rename_i k' hfirst
    obtain rfl : k' = k := by simpa using h
    have hmem := mem_range'_1.mp (mem_of_find?_eq_some hfirst)
    have htest := find?_some (p := fun k => test (entry c k)) hfirst
    exact ⟨hmem.1, by omega, htest⟩
  · split at h <;> simp at h

/-- The loop ends without an entry: none passes the test, and the last one is complete. -/
theorem scanEntries_none
    (h : scanEntries c start err test = .ok none) : c.length % DIRENT = 0 ∨ c.length ≤ DIRENT * start := by
  unfold scanEntries at h
  split at h
  · simp at h
  · split at h
    · simp at h
    · rename_i hnot
      omega

/-! ## The state -/

/-- An inode and the bytes of its file. -/
structure Node where
  type : BitVec 16
  major : BitVec 16
  minor : BitVec 16
  nlink : BitVec 16
  data : List UInt8
deriving DecidableEq

/-- The inodes, and which of them the inode cache has read from disk. -/
structure Files where
  node : ℕ → Node
  valid : ℕ → Bool

/-- The fields of a locked inode that the kernel looks at. -/
structure Stat where
  type : BitVec 16
  major : BitVec 16
  minor : BitVec 16
  nlink : BitVec 16
  size : ℕ
deriving DecidableEq

/-- The changes of a locked inode that are followed by `iupdate`: `nlink++`, `nlink--`, and the
assignments of `create`. -/
inductive Change where
  | link
  | unlink
  | create (major minor : BitVec 16)
deriving DecidableEq

namespace Change

/-- The new link count. -/
def nlink : Change → BitVec 16 → BitVec 16
  | .link, n => n + 1
  | .unlink, n => n - 1
  | .create _ _, _ => 1

/-- The new major device number. -/
def major : Change → BitVec 16 → BitVec 16
  | .create m _, _ => m
  | _, m => m

/-- The new minor device number. -/
def minor : Change → BitVec 16 → BitVec 16
  | .create _ m, _ => m
  | _, m => m

end Change

/-! ## The operations -/

/-- What the kernel does to an inode it has locked. -/
inductive FsOp where
  /-- What `ilock` does once it has the lock. -/
  | load (i : ℕ)
  /-- `ip->valid`. -/
  | isValid (i : ℕ)
  /-- The other fields of the inode. -/
  | stat (i : ℕ)
  /-- A change of the fields and `iupdate`. -/
  | update (i : ℕ) (c : Change)
  /-- `ialloc`, up to the call of `iget`. -/
  | ialloc (type : BitVec 16)
  /-- The part of `iput` that frees the inode. -/
  | ifree (i : ℕ)
  /-- `readi` of an inode that is no device. -/
  | readi (i off n : ℕ)
  /-- `writei` to an inode that is no device. -/
  | writei (i off : ℕ) (src : List UInt8)
  /-- `dirlookup`, up to the call of `iget`: the offset of the entry and its inode. -/
  | dirlookup (d : ℕ) (name : List UInt8)
  /-- The part of `dirlink` after `dirlookup`. -/
  | dirlink (d : ℕ) (name : List UInt8) (inum : ℕ)
  /-- `isdirempty`. -/
  | isdirempty (d : ℕ)
  /-- The `writei` of `sys_unlink`. -/
  | clear (d off : ℕ)
  /-- The recycling of a cache entry in `iget`. -/
  | invalidate (i : ℕ)

namespace FsOp

/-- The operations that only look at the files. -/
def Looks : FsOp → Prop
  | load _ | isValid _ | stat _ | readi _ _ _ | dirlookup _ _ | isdirempty _ | invalidate _ => True
  | _ => False

/-- What an operation returns. -/
abbrev Resp : FsOp → Type
  | load _ | update _ _ | ifree _ | dirlink _ _ _ | clear _ _ | invalidate _ => Unit
  | isValid _ | isdirempty _ => Bool
  | stat _ => Stat
  | ialloc _ => ℕ
  | readi _ _ _ => Option (List UInt8)
  | writei _ _ _ => Option ℕ
  | dirlookup _ _ => Option (ℕ × ℕ)

end FsOp

namespace Files

/-- Replace an inode. -/
def setNode (t : Files) (i : ℕ) (d : Node) : Files := { t with node := Function.update t.node i d }

/-- Replace the bytes of an inode. -/
def setData (t : Files) (i : ℕ) (data : List UInt8) : Files := t.setNode i { t.node i with data }

/-- The inode has been read from disk, or is no longer in the cache. -/
def setValid (t : Files) (i : ℕ) (v : Bool) : Files := { t with valid := Function.update t.valid i v }

/-- The inode that `ialloc` finds. -/
def freeInode (N : ℕ) (t : Files) : Option ℕ := (List.range' 1 (N - 1)).find? fun i => (t.node i).type = 0

/-- What an operation does, on a disk of `N` inodes. -/
def exec (N : ℕ) : (op : FsOp) → Code Halt Files op.Resp
  | .load i => fun t =>
    if t.valid i then .ok () t
    else if (t.node i).type = 0 then .error (.panic .ilockNoType) t
    else .ok () (t.setValid i true)
  | .isValid i => fun t => .ok (t.valid i) t
  | .stat i => fun t =>
    let d := t.node i
    .ok ⟨d.type, d.major, d.minor, d.nlink, d.data.length⟩ t
  | .update i c => fun t =>
    let d := t.node i
    .ok () (t.setNode i
      { d with nlink := c.nlink d.nlink, major := c.major d.major, minor := c.minor d.minor })
  | .ialloc type => fun t =>
    match t.freeInode N with
    | none => .error (.panic .iallocNoInodes) t
    | some i => .ok i (t.setNode i ⟨type, 0, 0, 0, []⟩)
  | .ifree i => fun t => .ok () ((t.setNode i { t.node i with type := 0, data := [] }).setValid i false)
  | .readi i off n => fun t =>
    let c := (t.node i).data
    .ok (if off > c.length ∨ 2 ^ 32 ≤ off + n then none else some ((c.drop off).take n)) t
  | .writei i off src => fun t =>
    let c := (t.node i).data
    if off > c.length ∨ 2 ^ 32 ≤ off + src.length ∨ off + src.length > MAXFILE * BSIZE then .ok none t
    else .ok (some src.length) (t.setData i (splice c off src))
  | .dirlookup d name => fun t =>
    let c := (t.node d).data
    if (t.node d).type ≠ T_DIR then .error (.panic .dirlookupNotDir) t
    else
      match scanEntries c 0 .dirlookupRead (matchesName name) with
      | .error e => .error (.panic e) t
      | .ok r => .ok (r.map fun k => (DIRENT * k, (entry c k).inum)) t
  | .dirlink d name inum => fun t =>
    let c := (t.node d).data
    match scanEntries c 0 .dirlinkRead unused with
    | .error e => .error (.panic e) t
    | .ok r =>
      let off := DIRENT * r.getD (entries c)
      if off + DIRENT > MAXFILE * BSIZE then .error (.panic .dirlink) t
      else .ok () (t.setData d (splice c off (Dirent.bytes inum name)))
  | .isdirempty d => fun t =>
    match scanEntries (t.node d).data 2 .isdiremptyReadi used with
    | .error e => .error (.panic e) t
    | .ok r => .ok r.isNone t
  | .clear d off => fun t =>
    let c := (t.node d).data
    if off > c.length ∨ off + DIRENT > MAXFILE * BSIZE then .error (.panic .unlinkWritei) t
    else .ok () (t.setData d (splice c off (List.replicate DIRENT 0)))
  | .invalidate i => fun t => .ok () (t.setValid i false)

section

variable {N d inum : ℕ} {t : Files} {name : List UInt8}

theorem run_ialloc {type : BitVec 16} : (exec N (.ialloc type)).run t =
    match t.freeInode N with
    | none => .error (.panic .iallocNoInodes) t
    | some i => .ok i (t.setNode i ⟨type, 0, 0, 0, []⟩) := rfl

theorem run_dirlookup : (exec N (.dirlookup d name)).run t =
    if (t.node d).type ≠ T_DIR then .error (.panic .dirlookupNotDir) t
    else
      match scanEntries (t.node d).data 0 .dirlookupRead (matchesName name) with
      | .error e => .error (.panic e) t
      | .ok r => .ok (r.map fun k => (DIRENT * k, (entry (t.node d).data k).inum)) t := rfl

theorem run_isdirempty : (exec N (.isdirempty d)).run t =
    match scanEntries (t.node d).data 2 .isdiremptyReadi used with
    | .error e => .error (.panic e) t
    | .ok r => .ok r.isNone t := rfl

theorem run_dirlink : (exec N (.dirlink d name inum)).run t =
    match scanEntries (t.node d).data 0 .dirlinkRead unused with
    | .error e => .error (.panic e) t
    | .ok r =>
      if DIRENT * r.getD (entries (t.node d).data) + DIRENT > MAXFILE * BSIZE then .error (.panic .dirlink) t
      else .ok () (t.setData d (splice (t.node d).data (DIRENT * r.getD (entries (t.node d).data))
        (Dirent.bytes inum name))) := rfl

end

/-- The types of inodes. -/
def Typed (type : BitVec 16) : Prop := type = T_DIR ∨ type = T_FILE ∨ type = T_DEV

/-- What the kernel knows of a locked inode before an operation. -/
def Pre (N : ℕ) (t : Files) : FsOp → Prop
  | .load i => i < N
  | .isValid _ | .invalidate _ => True
  | .stat i | .update i _ | .ifree i => i < N ∧ t.valid i = true
  | .ialloc type => Typed type
  | .readi i off n => i < N ∧ t.valid i = true ∧ (t.node i).type ≠ T_DEV ∧ off < 2 ^ 32 ∧ n < 2 ^ 32
  | .writei i off src =>
    i < N ∧ t.valid i = true ∧ (t.node i).type ≠ T_DEV ∧ off < 2 ^ 32 ∧ src.length < 2 ^ 32
  | .dirlookup d _ => d < N ∧ t.valid d = true
  | .dirlink d _ _ | .isdirempty d => d < N ∧ t.valid d = true ∧ (t.node d).type = T_DIR
  | .clear d off => d < N ∧ t.valid d = true ∧ (t.node d).type = T_DIR ∧ off < 2 ^ 32

end Files

end Xv6
