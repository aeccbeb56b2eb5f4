import Xv6.Fs.Content
import Xv6.Lib.Hoare

/-!
# Inodes and their blocks (`fs.c`)

`balloc`, `bfree`, `ialloc`, `iupdate`, `bmap`, `itrunc`, `readi` and `writei` over the blocks as the
buffers show them. A `bread` that nobody changes is a read of the block, and the change that `log_write`
records is an assignment to it; `Xv6.Log` says why a transaction's blocks are seen that way. The super block
is a parameter: no function writes block 1, so reading it again in `bfree` finds what `iinit` has read. Each
function has a specification in terms of the image it shows.
-/

namespace Xv6

open Function List

/-! ## The inodes on disk -/

namespace Dinode

/-- The bytes of `struct dinode`. -/
def bytes (d : Dinode) : List UInt8 :=
  leBytes 2 d.type.toNat ++ (leBytes 2 d.major.toNat ++ (leBytes 2 d.minor.toNat ++
    (leBytes 2 d.nlink.toNat ++ (leBytes 4 d.size ++ (List.ofFn d.addrs).flatMap (leBytes 4)))))

/-- The `struct dinode` at offset `off` of a block. -/
def read (x : Block) (off : ℕ) : Dinode where
  type := BitVec.ofNat 16 (leVal (x.slice off 2))
  major := BitVec.ofNat 16 (leVal (x.slice (off + 2) 2))
  minor := BitVec.ofNat 16 (leVal (x.slice (off + 4) 2))
  nlink := BitVec.ofNat 16 (leVal (x.slice (off + 6) 2))
  size := x.word (off + 8)
  addrs := fun k => x.word (off + 12 + 4 * k.val)

/-- The numbers fit into the fields of `struct dinode`. -/
def Fits (d : Dinode) : Prop := d.size < 2 ^ 32 ∧ ∀ k, d.addrs k < 2 ^ 32

theorem bytes_length (d : Dinode) : d.bytes.length = 64 := by
  simp only [bytes, length_append, leBytes_length, length_flatMap_leBytes, length_ofFn]
  rfl

/-- The fields of `struct dinode` in its bytes. -/
theorem bytes_fields (d : Dinode) :
    d.bytes.take 2 = leBytes 2 d.type.toNat ∧ (d.bytes.drop 2).take 2 = leBytes 2 d.major.toNat ∧
      (d.bytes.drop 4).take 2 = leBytes 2 d.minor.toNat ∧
      (d.bytes.drop 6).take 2 = leBytes 2 d.nlink.toNat ∧
      (d.bytes.drop 8).take 4 = leBytes 4 d.size ∧
      ∀ k : Fin (NDIRECT + 1), (d.bytes.drop (12 + 4 * k.val)).take 4 = leBytes 4 (d.addrs k) := by
  refine ⟨?_, ?_, ?_, ?_, ?_, fun k => ?_⟩
  · simp [bytes, leBytes]
  · simp [bytes, leBytes]
  · simp [bytes, leBytes]
  · simp [bytes, leBytes]
  · simp [bytes, leBytes]
  · have hdrop : d.bytes.drop 12 = (List.ofFn d.addrs).flatMap (leBytes 4) := by simp [bytes, leBytes]
    have hk : k.val < (List.ofFn d.addrs).length := by
      rw [length_ofFn]
      exact k.isLt
    rw [← drop_drop, hdrop, take_drop_flatMap (leBytes_length 4) hk, List.getElem_ofFn]

/-- Reading back an inode that was just written. -/
theorem read_move (x : Block) {off : ℕ} (hoff : off + 64 ≤ BSIZE) {d : Dinode} (hd : d.Fits) :
    read (Page.move x off d.bytes) off = d := by
  have hfield : ∀ o n, o + n ≤ 64 →
      (Page.move x off d.bytes).slice (off + o) n = (d.bytes.drop o).take n := by
    intro o n hon
    rw [Page.slice_move_inside x (by rw [bytes_length]; exact hoff) (Nat.le_add_right _ _)
      (by rw [bytes_length]; omega), Nat.add_sub_cancel_left]
  obtain ⟨htype, hmajor, hminor, hnlink, hsize, haddrs⟩ := bytes_fields d
  have hshort : ∀ y : BitVec 16, BitVec.ofNat 16 (leVal (leBytes 2 y.toNat)) = y := by
    intro y
    rw [leVal_leBytes_of_lt y.isLt, BitVec.ofNat_toNat, BitVec.setWidth_eq]
  have hzero := hfield 0 2 (by omega)
  rw [Nat.add_zero, drop_zero] at hzero
  unfold read Page.word
  rw [hzero, hfield 2 2 (by omega), hfield 4 2 (by omega), hfield 6 2 (by omega),
    hfield 8 4 (by omega), htype, hmajor, hminor, hnlink, hsize, hshort, hshort, hshort, hshort,
    leVal_leBytes_of_lt hd.1]
  congr 1
  funext k
  have hk := k.isLt
  rw [Nat.add_assoc, hfield (12 + 4 * k.val) 4 (by simp only [NDIRECT] at hk; omega), haddrs,
    leVal_leBytes_of_lt (hd.2 k)]

/-- Reading another inode of the block. -/
theorem read_move_of_disjoint (x : Block) {off off' : ℕ} (d : Dinode) (h : off' + 64 ≤ off ∨ off + 64 ≤ off') :
    read (Page.move x off d.bytes) off' = read x off' := by
  have hfield : ∀ o n, o + n ≤ 64 → (Page.move x off d.bytes).slice (off' + o) n = x.slice (off' + o) n :=
    fun o n hon => Page.slice_move_disjoint x (by rw [bytes_length]; omega)
  have hzero := hfield 0 2 (by omega)
  rw [Nat.add_zero] at hzero
  unfold read Page.word
  rw [hzero, hfield 2 2 (by omega), hfield 4 2 (by omega), hfield 6 2 (by omega), hfield 8 4 (by omega)]
  congr 1
  funext k
  have hk := k.isLt
  rw [Nat.add_assoc, hfield (12 + 4 * k.val) 4 (by simp only [NDIRECT] at hk; omega)]

/-- What is read from a block fits. -/
theorem fits_read (x : Block) (off : ℕ) : (read x off).Fits := by
  have hword : ∀ o, Page.word x o < 2 ^ 32 := fun o => by
    have := leVal_lt (Page.slice x o 4)
    rwa [Page.slice_length] at this
  exact ⟨hword _, fun k => hword _⟩

end Dinode

/-! ## The code -/

namespace Geometry

/-- `IBLOCK(i, sb)`: the block that holds inode `i`. -/
def IBLOCK (g : Geometry) (i : ℕ) : ℕ := i / IPB + g.inodestart

/-- `BBLOCK(b, sb)`: the block of the free map that holds the bit of block `b`. -/
def BBLOCK (g : Geometry) (b : ℕ) : ℕ := b / BPB + g.bmapstart

end Geometry

/-- The copy of a disk inode in the inode cache. -/
structure Inode where
  valid : Bool
  copy : Dinode

/-- The blocks as the buffers show them and the inode cache. `logged` is a history variable: the blocks
passed to `log_write`. -/
structure BlockFs (g : Geometry) where
  blk : ℕ → Block
  icache : ℕ → Inode
  logged : List ℕ

namespace BlockFs

variable {g : Geometry}

/-- `bread`. -/
def bread (k : ℕ) : Code Halt (BlockFs g) Block := do
  let s ← get
  pure (s.blk k)

/-- `log_write` of block `k` with new contents. -/
def logWrite (k : ℕ) (x : Block) : Code Halt (BlockFs g) Unit :=
  modify fun s => { s with blk := update s.blk k x, logged := s.logged ++ [k] }

/-- The fields of a cached inode. -/
def ip (i : ℕ) : Code Halt (BlockFs g) Dinode := do
  let s ← get
  pure (s.icache i).copy

/-- Assign to the fields of a cached inode. -/
def setIp (i : ℕ) (d : Dinode) : Code Halt (BlockFs g) Unit :=
  modify fun s => { s with icache := update s.icache i { s.icache i with copy := d } }

/-- `bzero`. -/
def bzero (b : ℕ) : Code Halt (BlockFs g) Unit := logWrite b fun _ => 0

/-- The inner loop of `balloc`: the first free block from `b` on in a block of the free map. -/
@[irreducible] def freeBit (g : Geometry) (x : Block) (b : ℕ) : Option ℕ :=
  (List.range BPB).find? fun bi => b + bi < g.size ∧ x.bit bi = false

/-- The outer loop of `balloc`. -/
def ballocLoop : List ℕ → Code Halt (BlockFs g) ℕ
  | [] => throw (.panic .ballocOutOfBlocks)
  | b :: bs => do
    let bp ← bread (g.BBLOCK b)
    match freeBit g bp b with
    | some bi =>
      logWrite (g.BBLOCK b) (bp.setBit bi)
      bzero (b + bi)
      pure (b + bi)
    | none => ballocLoop bs

/-- `balloc`: allocate a zeroed disk block. -/
def balloc : Code Halt (BlockFs g) ℕ :=
  ballocLoop ((List.range ((g.size + (BPB - 1)) / BPB)).map (· * BPB))

/-- `bfree`: free a disk block. -/
def bfree (b : ℕ) : Code Halt (BlockFs g) Unit := do
  let bp ← bread (g.BBLOCK b)
  if bp.bit (b % BPB) = false then throw (.panic .freeingFreeBlock)
  else logWrite (g.BBLOCK b) (bp.clearBit (b % BPB))

/-- The offset of inode `i` in its block. -/
def inodeOff (i : ℕ) : ℕ := 64 * (i % IPB)

/-- The loop of `ialloc`, up to the call of `iget`. -/
def iallocLoop (type : BitVec 16) : List ℕ → Code Halt (BlockFs g) ℕ
  | [] => throw (.panic .iallocNoInodes)
  | inum :: inums => do
    let bp ← bread (g.IBLOCK inum)
    if (Dinode.read bp (inodeOff inum)).type = 0 then
      logWrite (g.IBLOCK inum) (bp.move (inodeOff inum) { Dinode.zero with type }.bytes)
      pure inum
    else iallocLoop type inums

/-- `ialloc`: allocate an inode, up to the call of `iget`. -/
def ialloc (type : BitVec 16) : Code Halt (BlockFs g) ℕ :=
  iallocLoop type (List.range' 1 (g.ninodes - 1))

/-- `iupdate`: copy a modified in-memory inode to disk. -/
def iupdate (i : ℕ) : Code Halt (BlockFs g) Unit := do
  let d ← ip i
  let bp ← bread (g.IBLOCK i)
  logWrite (g.IBLOCK i) (bp.move (inodeOff i) d.bytes)

/-- What `ilock` does once it has the lock: read the inode from disk if necessary. -/
def iload (i : ℕ) : Code Halt (BlockFs g) Unit := do
  let s ← get
  if (s.icache i).valid then pure ()
  else
    let bp ← bread (g.IBLOCK i)
    let d := Dinode.read bp (inodeOff i)
    modify fun s => { s with icache := update s.icache i ⟨true, d⟩ }
    if d.type = 0 then throw (.panic .ilockNoType) else pure ()

/-- `ip->addrs[k] = addr = balloc()`. -/
def allocAddr (i : ℕ) (k : Fin (NDIRECT + 1)) : Code Halt (BlockFs g) ℕ := do
  let a ← balloc
  let d ← ip i
  setIp i (d.setAddr k a)
  pure a

/-- The address of the indirect block, allocating it if necessary. -/
def indirectBlock (i : ℕ) : Code Halt (BlockFs g) ℕ := do
  let d ← ip i
  if d.addrs INDIRECT = 0 then allocAddr i INDIRECT else pure (d.addrs INDIRECT)

/-- Entry `bn` of the indirect block at `addr`, allocating a block for it if it is zero. -/
def indirectEntry (addr bn : ℕ) : Code Halt (BlockFs g) ℕ := do
  let bp ← bread addr
  if bp.word (4 * bn) = 0 then
    let a ← balloc
    logWrite addr (bp.move (4 * bn) (leBytes 4 a))
    pure a
  else pure (bp.word (4 * bn))

/-- `bmap`: the disk block address of the `bn`th block of inode `i`, allocating it if there is none. -/
def bmap (i bn : ℕ) : Code Halt (BlockFs g) ℕ := do
  if h : bn < NDIRECT then
    let k : Fin (NDIRECT + 1) := ⟨bn, Nat.lt_succ_of_lt h⟩
    let d ← ip i
    if d.addrs k = 0 then allocAddr i k else pure (d.addrs k)
  else if bn - NDIRECT < NINDIRECT then
    let addr ← indirectBlock i
    indirectEntry addr (bn - NDIRECT)
  else throw (.panic .bmapOutOfRange)

/-- The loop of `itrunc` over the direct blocks. -/
def freeDirect (i : ℕ) : Code Halt (BlockFs g) Unit :=
  forM (List.finRange NDIRECT) fun k => do
    let d ← ip i
    if d.addrs k.castSucc ≠ 0 then
      bfree (d.addrs k.castSucc)
      setIp i (d.setAddr k.castSucc 0)

/-- The part of `itrunc` that frees the indirect block and the blocks it lists. -/
def freeIndirect (i : ℕ) : Code Halt (BlockFs g) Unit := do
  let d ← ip i
  if d.addrs INDIRECT ≠ 0 then
    let bp ← bread (d.addrs INDIRECT)
    forM (List.range NINDIRECT) fun j =>
      if bp.word (4 * j) ≠ 0 then bfree (bp.word (4 * j)) else pure ()
    bfree (d.addrs INDIRECT)
    setIp i (d.setAddr INDIRECT 0)

/-- `itrunc`: discard the contents of inode `i`. -/
def itrunc (i : ℕ) : Code Halt (BlockFs g) Unit := do
  freeDirect i
  freeIndirect i
  let d ← ip i
  setIp i { d with size := 0 }
  iupdate i

/-- The loop of `readi`; every round reads a byte at least, so `fuel` rounds read `n ≤ fuel` bytes. -/
def readLoop (i : ℕ) : ℕ → ℕ → ℕ → Code Halt (BlockFs g) (List UInt8)
  | 0, _, _ => pure []
  | fuel + 1, off, n =>
    if n = 0 then pure []
    else do
      let a ← bmap i (off / BSIZE)
      let bp ← bread a
      let m := min n (BSIZE - off % BSIZE)
      let rest ← readLoop i fuel (off + m) (n - m)
      pure (bp.slice (off % BSIZE) m ++ rest)

/-- `readi` of an inode that is no device: `none` is the result `-1`. -/
def readi (i off n : ℕ) : Code Halt (BlockFs g) (Option (List UInt8)) := do
  let d ← ip i
  if off > d.size ∨ (off + n) % 2 ^ 32 < off then pure none
  else
    let n := if off + n > d.size then d.size - off else n
    let bytes ← readLoop i n off n
    pure (some bytes)

/-- The loop of `writei`; the result is the offset behind the last byte written. -/
def writeLoop (i : ℕ) : ℕ → ℕ → List UInt8 → Code Halt (BlockFs g) ℕ
  | 0, off, _ => pure off
  | fuel + 1, off, src =>
    if src = [] then pure off
    else do
      let a ← bmap i (off / BSIZE)
      let bp ← bread a
      let m := min src.length (BSIZE - off % BSIZE)
      logWrite a (bp.move (off % BSIZE) (src.take m))
      writeLoop i fuel (off + m) (src.drop m)

/-- `writei` to an inode that is no device: `none` is the result `-1`. -/
def writei (i off : ℕ) (src : List UInt8) : Code Halt (BlockFs g) (Option ℕ) := do
  let d ← ip i
  if off > d.size ∨ (off + src.length) % 2 ^ 32 < off then pure none
  else if off + src.length > MAXFILE * BSIZE then pure none
  else
    let off ← writeLoop i src.length off src
    let d ← ip i
    if src.length > 0 ∧ off > d.size then
      setIp i { d with size := off }
      iupdate i
    pure (some src.length)

/-- The part of `iput` that frees an inode without links and other references. -/
def ifree (i : ℕ) : Code Halt (BlockFs g) Unit := do
  itrunc i
  let d ← ip i
  setIp i { d with type := 0 }
  iupdate i
  modify fun s => { s with icache := update s.icache i { s.icache i with valid := false } }

end BlockFs

end Xv6
