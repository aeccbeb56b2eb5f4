import Mathlib.Order.Interval.Finset.Nat
import Xv6.Fs.Dir
import Xv6.Fs.ReadWrite

/-!
# Writing a file-system image (`mkfs.c`)

`mkfs` writes the image sector by sector: inodes through `winode`, contents through `iappend`, which hands
out the blocks in order and keeps its copy of the inode to itself until the end, and the free map last. The
image in the making is the one of `Xv6.Fs.Image`, with the blocks below `freeblock` in use. A round of
`iappend` is a round of `writei` at the end of the file, so `Added`, `Grown` and `Wrote` describe it.
-/

namespace Xv6

open Function Code List

/-- Number of inodes of the file system `mkfs` makes. -/
def NINODES : ℕ := 200

namespace Mkfs

/-! ## The code -/

/-- Number of inode blocks. -/
def ninodeblocks : ℕ := NINODES / IPB + 1

/-- Number of bitmap blocks. -/
def nbitmap : ℕ := FSSIZE / BPB + 1

/-- Number of meta blocks: boot block, super block, log, inodes and bitmap. -/
def nmeta : ℕ := 2 + nlog + ninodeblocks + nbitmap

/-- The layout that `main` puts into the super block. -/
def disk : Geometry where
  size := FSSIZE
  ninodes := NINODES
  inodestart := 2 + nlog
  bmapstart := 2 + nlog + ninodeblocks
  datastart := nmeta
  inodes_lt := by decide
  bitmap_lt := by decide
  data_le := by decide
  size_le := by decide

/-- The bytes of `sb`: size, nblocks, ninodes, nlog, logstart, inodestart, bmapstart. -/
def superblock : List UInt8 :=
  [FSSIZE, FSSIZE - nmeta, NINODES, nlog, 2, disk.inodestart, disk.bmapstart].flatMap (leBytes 4)

/-- Why `mkfs` stops without an image: `exit(1)` behind `perror`, or a failed `assert`. -/
inductive Exit where
  | perror
  | assert
deriving DecidableEq

end Mkfs

/-- The image file, `len` sectors long, and the counters of `mkfs`. `iwrote` is a history variable: the
sectors that `winode` has written. -/
structure Mkfs where
  sect : ℕ → Block
  len : ℕ
  freeinode : ℕ
  freeblock : ℕ
  iwrote : List ℕ

namespace Mkfs

open BlockFs (inodeOff)

/-- `rsect`: reading behind the end of the file fails. -/
def rsect (sec : ℕ) : Code Exit Mkfs Block := do
  let s ← get
  if sec < s.len then pure (s.sect sec) else throw .perror

/-- `wsect`: writing behind the end extends the file. -/
def wsect (sec : ℕ) (buf : Block) : Code Exit Mkfs Unit :=
  modify fun s => { s with sect := update s.sect sec buf, len := max s.len (sec + 1) }

/-- `winode`. -/
def winode (inum : ℕ) (ip : Dinode) : Code Exit Mkfs Unit := do
  let buf ← rsect (disk.IBLOCK inum)
  wsect (disk.IBLOCK inum) (buf.move (inodeOff inum) ip.bytes)
  modify fun s => { s with iwrote := s.iwrote ++ [disk.IBLOCK inum] }

/-- `rinode`. -/
def rinode (inum : ℕ) : Code Exit Mkfs Dinode := do
  let buf ← rsect (disk.IBLOCK inum)
  pure (Dinode.read buf (inodeOff inum))

/-- `ialloc`. -/
def ialloc (type : BitVec 16) : Code Exit Mkfs ℕ := do
  let s ← get
  set { s with freeinode := s.freeinode + 1 }
  winode s.freeinode { Dinode.zero with type, nlink := 1 }
  pure s.freeinode

/-- `freeblock++`. -/
def nextBlock : Code Exit Mkfs ℕ := do
  let s ← get
  set { s with freeblock := s.freeblock + 1 }
  pure s.freeblock

/-- `if(din.addrs[k] == 0) din.addrs[k] = freeblock++`. -/
def fillAddr (din : Dinode) (k : Fin (NDIRECT + 1)) : Code Exit Mkfs Dinode :=
  if din.addrs k = 0 then do
    let b ← nextBlock
    pure (din.setAddr k b)
  else pure din

/-- `if(indirect[m] == 0)` in the block at `addr`, and `x = indirect[m]`. -/
def fillEntry (addr m : ℕ) : Code Exit Mkfs ℕ := do
  let indirect ← rsect addr
  if indirect.word (4 * m) = 0 then
    let b ← nextBlock
    wsect addr (indirect.move (4 * m) (leBytes 4 b))
    pure b
  else pure (indirect.word (4 * m))

/-- The part of a round of `iappend` that finds or allocates block `fbn`: the inode and `x`. -/
def blockOf (din : Dinode) (fbn : ℕ) : Code Exit Mkfs (Dinode × ℕ) :=
  if h : fbn < NDIRECT then do
    let din ← fillAddr din ⟨fbn, Nat.lt_succ_of_lt h⟩
    pure (din, din.addrs ⟨fbn, Nat.lt_succ_of_lt h⟩)
  else do
    let din ← fillAddr din INDIRECT
    let x ← fillEntry (din.addrs INDIRECT) (fbn - NDIRECT)
    pure (din, x)

/-- `rsect(x, buf)`, `bcopy(p, buf + off, n1)` and `wsect(x, buf)`. -/
def bcopy (x off : ℕ) (p : List UInt8) : Code Exit Mkfs Unit := do
  let buf ← rsect x
  wsect x (buf.move off p)

/-- The loop of `iappend`; every round writes a byte at least, so `fuel` rounds write `fuel` bytes. -/
def iappendLoop : ℕ → Dinode → ℕ → List UInt8 → Code Exit Mkfs (Dinode × ℕ)
  | 0, din, off, _ => pure (din, off)
  | fuel + 1, din, off, p =>
    if p = [] then pure (din, off)
    else if off / BSIZE < MAXFILE then do
      let r ← blockOf din (off / BSIZE)
      let n1 := min p.length ((off / BSIZE + 1) * BSIZE - off)
      bcopy r.2 (off - off / BSIZE * BSIZE) (p.take n1)
      iappendLoop fuel r.1 (off + n1) (p.drop n1)
    else throw .assert

/-- `iappend`. -/
def iappend (inum : ℕ) (p : List UInt8) : Code Exit Mkfs Unit := do
  let din ← rinode inum
  let r ← iappendLoop p.length din din.size p
  winode inum { r.1 with size := r.2 }

/-- `balloc`. -/
def balloc (used : ℕ) : Code Exit Mkfs Unit :=
  if used < BSIZE * 8 then
    wsect disk.bmapstart ((List.range used).foldl Page.setBit fun _ => 0)
  else throw .assert

/-- An argument of `mkfs`: its name, and what the calls of `read` return. -/
structure Input where
  name : List UInt8
  chunks : List (List UInt8)

/-- The bytes of the file. -/
def Input.data (f : Input) : List UInt8 := f.chunks.flatten

/-- The name in the root directory, before it is cut to `DIRSIZ` bytes: `mkfs` drops a leading `_`. -/
def Input.entryName (f : Input) : List UInt8 :=
  if f.name.head? = some 95 then f.name.tail else f.name

/-- The body of the loop of `main` over the arguments. -/
def addFile (f : Input) : Code Exit Mkfs Unit :=
  if 47 ∈ f.name then throw .assert
  else do
    let inum ← ialloc T_FILE
    iappend ROOTINO (Dirent.bytes inum f.entryName)
    forM f.chunks (iappend inum)

/-- `fix size of root inode dir`. -/
def fixRoot : Code Exit Mkfs Unit := do
  let din ← rinode ROOTINO
  winode ROOTINO { din with size := (din.size / BSIZE + 1) * BSIZE }

/-- The loop that clears `n` sectors. -/
@[irreducible] def clear (n : ℕ) : Code Exit Mkfs Unit := forM (List.range n) fun i => wsect i fun _ => 0

/-- `main`, from the opening of the image file on. -/
def main (files : List Input) : Code Exit Mkfs Unit := do
  modify fun s => { s with freeblock := nmeta }
  clear FSSIZE
  wsect 1 (Page.move (fun _ => 0) 0 superblock)
  let rootino ← ialloc T_DIR
  if rootino = ROOTINO then
    iappend rootino (Dirent.bytes rootino [46])
    iappend rootino (Dirent.bytes rootino [46, 46])
    forM files addFile
    fixRoot
    let s ← get
    balloc s.freeblock
  else throw .assert

/-- The state in which `main` opens the image file, which `O_TRUNC` has emptied. -/
def start : Mkfs := ⟨fun _ _ => 0, 0, 1, 0, []⟩

/-! ## The image in the making -/

open Image

/-- The image that the sectors show, with the blocks below `freeblock` in use. -/
def image (s : Mkfs) : Image where
  ino j := if j < NINODES then Dinode.read (s.sect (disk.IBLOCK j)) (inodeOff j) else Dinode.zero
  dat b := if nmeta ≤ b then s.sect b else fun _ => 0
  bm b := b < s.freeblock

/-- The image with the copy of inode `i` that `iappend` works on. -/
def view (s : Mkfs) (i : ℕ) (din : Dinode) : Image := s.image.setIno i din

/-- The sectors and counters are as `mkfs` keeps them. -/
structure Sane (s : Mkfs) : Prop where
  len : s.len = FSSIZE
  first : nmeta ≤ s.freeblock
  last : s.freeblock ≤ FSSIZE
  zero : ∀ b, s.freeblock ≤ b → s.sect b = fun _ => 0
  super : s.sect 1 = Page.move (fun _ => 0) 0 superblock
  area : ∀ sec ∈ s.iwrote, disk.inodestart ≤ sec ∧ sec < disk.bmapstart

variable {s s' : Mkfs} {i j m off fbn b : ℕ} {din : Dinode} {p : List UInt8}
  {E : Exit → Mkfs → Prop}

theorem IBLOCK_lt (h : i < NINODES) : disk.inodestart ≤ disk.IBLOCK i ∧ disk.IBLOCK i < disk.bmapstart :=
  ⟨Nat.le_add_left .., BlockFs.IBLOCK_lt h⟩

theorem bmapstart_lt : disk.bmapstart < nmeta ∧ nmeta ≤ FSSIZE := by decide

theorem wp_rsect {Q : Block → Mkfs → Prop} (h : b < s.len) (hQ : Q (s.sect b) s) : Wp (rsect b) Q E s := by
  unfold rsect
  rw [wp_bind, wp_get, if_pos h]
  exact hQ

/-- Reading behind the end of the file. -/
theorem wp_rsect_end {Q : Block → Mkfs → Prop} (h : s.len ≤ b) (hE : E .perror s) : Wp (rsect b) Q E s := by
  unfold rsect
  rw [wp_bind, wp_get, if_neg (Nat.not_lt.mpr h)]
  exact hE

variable {Q : Unit → Mkfs → Prop} {x : Block}

theorem wp_wsect (h : b < s.len) (hQ : Q () { s with sect := update s.sect b x }) : Wp (wsect b x) Q E s := by
  unfold wsect
  rw [wp_modify, Nat.max_eq_left h]
  exact hQ

/-- Writing an inode. -/
theorem image_winode (hi : i < NINODES) (hfits : din.Fits) {l : List ℕ} : image { s with
      sect := update s.sect (disk.IBLOCK i)
        ((s.sect (disk.IBLOCK i)).move (inodeOff i) din.bytes)
      iwrote := l } = s.image.setIno i din := by
  have harea := IBLOCK_lt hi
  have hmeta := bmapstart_lt
  refine Image.ext (funext fun j => ?_) (funext fun c => ?_) rfl
  · simp only [image, setIno, update_apply]
    by_cases hj : j < NINODES
    · rw [if_pos hj, if_pos hj]
      by_cases hji : j = i
      · subst hji
        rw [if_pos rfl, if_pos rfl]
        refine Dinode.read_move _ ?_ hfits
        simp only [inodeOff, IPB, BSIZE]
        omega
      · rw [if_neg hji]
        split
        · rename_i hblock
          rw [hblock]
          refine Dinode.read_move_of_disjoint _ _ ?_
          simp only [Geometry.IBLOCK, inodeOff, IPB, BSIZE] at hblock ⊢
          omega
        · rfl
    · rw [if_neg hj, if_neg hj, if_neg (by omega)]
  · simp only [image, setIno, update_apply]
    split
    · rw [if_neg (by omega)]
    · rfl

theorem wp_winode (h : s.Sane) (hi : i < NINODES) (hfits : din.Fits)
    (hQ : ∀ s', s'.Sane → s'.freeinode = s.freeinode → s'.image = s.image.setIno i din → Q () s') :
    Wp (winode i din) Q E s := by
  have harea := IBLOCK_lt hi
  have hmeta := bmapstart_lt
  have hlen : disk.IBLOCK i < s.len := by
    rw [h.len]
    omega
  unfold winode
  rw [wp_bind]
  refine wp_rsect hlen ?_
  rw [wp_bind]
  refine wp_wsect hlen ?_
  rw [wp_modify]
  refine hQ _ ⟨h.len, h.first, h.last, fun c hc => ?_, ?_, ?_⟩ rfl (image_winode hi hfits)
  · have hfirst := h.first
    simp only [update_apply]
    rw [if_neg (by simp only at hc; omega)]
    exact h.zero c hc
  · rw [← h.super]
    have hstart : 1 < disk.inodestart := by decide
    simp only [update_apply]
    exact if_neg (by omega)
  · intro sec hsec
    rcases mem_append.mp hsec with hold | hnew
    · exact h.area sec hold
    · rw [mem_singleton.mp hnew]
      exact harea

theorem wp_rinode {Q : Dinode → Mkfs → Prop} (h : s.Sane) (hi : i < NINODES)
    (hQ : Q (s.image.ino i) s) : Wp (rinode i) Q E s := by
  have harea := IBLOCK_lt hi
  have hmeta := bmapstart_lt
  unfold rinode
  rw [wp_bind]
  refine wp_rsect (by rw [h.len]; omega) ?_
  rw [wp_pure]
  simpa [image, hi] using hQ

/-! ## A block for `iappend` -/

theorem ino_view : (s.view i din).ino i = din := by simp [view, setIno]

/-- Handing out a block that goes into the inode. -/
theorem view_setAddr (h : s.Sane) (k : Fin (NDIRECT + 1)) :
    view { s with freeblock := s.freeblock + 1 } i (din.setAddr k s.freeblock) =
      ((s.view i din).alloc s.freeblock).setAddr i k s.freeblock := by
  refine Image.ext (funext fun j => ?_) (funext fun c => ?_) (funext fun c => ?_)
  · simp only [view, image, setIno, setAddr, alloc, update_apply]
    split <;> simp
  · simp only [view, image, setIno, setAddr, alloc, update_apply]
    split
    · rename_i hc
      split
      · rename_i hcb
        exact h.zero c (Nat.le_of_eq hcb.symm)
      · rfl
    · split <;> rfl
  · simp only [view, image, setIno, setAddr, alloc, update_apply]
    by_cases hc : c = s.freeblock
    · simp [hc]
    · rw [if_neg hc]
      exact decide_eq_decide.mpr (by omega)

/-- Handing out a block that goes into the indirect block. -/
theorem view_setEntry (h : s.Sane) {a : ℕ} (ha : nmeta ≤ a) (x : Block) :
    view { s with freeblock := s.freeblock + 1, sect := update s.sect a x } i din =
      ((s.view i din).alloc s.freeblock).setDat a x := by
  have hmeta := bmapstart_lt
  refine Image.ext (funext fun j => ?_) (funext fun c => ?_) (funext fun c => ?_)
  · simp only [view, image, setIno, setDat, alloc, update_apply]
    split
    · rfl
    · split
      · rename_i hj
        have := IBLOCK_lt hj
        rw [if_neg (by omega)]
      · rfl
  · simp only [view, image, setIno, setDat, alloc, update_apply]
    by_cases hc : nmeta ≤ c
    · rw [if_pos hc]
      split
      · rfl
      · split
        · rename_i hcb
          exact h.zero c (Nat.le_of_eq hcb.symm)
        · rfl
    · rw [if_neg hc, if_neg (by omega), if_neg hc]
      split <;> rfl
  · simp only [view, image, setIno, setDat, alloc, update_apply]
    by_cases hc : c = s.freeblock
    · simp [hc]
    · rw [if_neg hc]
      exact decide_eq_decide.mpr (by omega)

/-- Writing a data block. -/
theorem view_wsect (hb : nmeta ≤ b) (x : Block) :
    view { s with sect := update s.sect b x } i din = (s.view i din).setDat b x := by
  have hmeta := bmapstart_lt
  refine Image.ext (funext fun j => ?_) (funext fun c => ?_) rfl
  · simp only [view, image, setIno, setDat, update_apply]
    split
    · rfl
    · split
      · rename_i hj
        have := IBLOCK_lt hj
        rw [if_neg (by omega)]
      · rfl
  · simp only [view, image, setIno, setDat, update_apply]
    by_cases hc : nmeta ≤ c
    · rw [if_pos hc, if_pos hc]
    · rw [if_neg hc, if_neg (by omega), if_neg hc]

theorem freeBlocks_view : (s.view i din).freeBlocks disk = s.image.freeBlocks disk := rfl

/-- Behind the last block there are no free ones. -/
theorem freeBlocks_eq (h : s.Sane) : s.image.freeBlocks disk + s.freeblock = FSSIZE := by
  have hset : (Finset.range disk.size).filter (fun c => s.image.bm c = false) =
      Finset.Ico s.freeblock FSSIZE := by
    ext c
    simp only [Finset.mem_filter, Finset.mem_range, Finset.mem_Ico, image, decide_eq_false_iff_not,
      Nat.not_lt]
    exact and_comm
  have := h.last
  rw [freeBlocks, hset, Nat.card_Ico]
  omega

theorem wp_nextBlock {Q : ℕ → Mkfs → Prop} (hQ : Q s.freeblock { s with freeblock := s.freeblock + 1 }) :
    Wp nextBlock Q E s := hQ

theorem sane_next (h : s.Sane) (hb : s.freeblock < FSSIZE) : Sane { s with freeblock := s.freeblock + 1 } :=
  ⟨h.len, Nat.le_succ_of_le h.first, hb, fun c hc => h.zero c (Nat.le_of_succ_le hc), h.super, h.area⟩

theorem sane_wsect (h : s.Sane) (hfirst : nmeta ≤ b) (hlast : b < s.freeblock) :
    Sane { s with sect := update s.sect b x } := by
  refine ⟨h.len, h.first, h.last, fun c hc => ?_, ?_, h.area⟩
  · simp only at hc ⊢
    rw [update_of_ne (by omega)]
    exact h.zero c hc
  · rw [← h.super]
    have hstart : 1 < nmeta := by decide
    simp only [update_apply]
    exact if_neg (by omega)

/-- A block that an inode holds has been handed out. -/
theorem lt_freeblock {k : ℕ} (hgood : (s.view i din).Good disk []) (hi : (s.view i din).Alloc disk i)
    (hb : (s.view i din).slot i k = b) (hne : b ≠ 0) : nmeta ≤ b ∧ b < s.freeblock := by
  subst hb
  have hdata := hgood.data i k hi hne
  refine ⟨hdata.1, ?_⟩
  have hbit := (hgood.bits _ hdata.2).mpr (.inr (.inl ⟨i, k, hi, rfl⟩))
  simpa [view, image, setIno] using hbit

theorem dat_view (hb : nmeta ≤ b) : (s.view i din).dat b = s.sect b := by
  simp [view, image, setIno, hb]

theorem bm_next : (s.view i din).bm s.freeblock = false := by
  simp [view, image, setIno]

/-- Entry `fbn - NDIRECT` of the indirect block. -/
theorem wp_fillEntry {Q : ℕ → Mkfs → Prop} (h : s.Sane) (hgood : (s.view i din).Good disk [])
    (hi : (s.view i din).Alloc disk i) (hle : NDIRECT ≤ fbn) (hlt : fbn - NDIRECT < NINDIRECT)
    (hne : din.addrs INDIRECT ≠ 0) (hmapped : (s.view i din).addr i fbn ≠ 0 → Q ((s.view i din).addr i fbn) s)
    (hadded : ∀ s', (s.view i din).addr i fbn = 0 → s'.Sane → s'.freeinode = s.freeinode →
      (s'.view i din).Good disk [] →
      Added disk (s.view i din) (s'.view i din) i (blockSlot fbn) s.freeblock → Q s.freeblock s')
    (hfull : (s.view i din).addr i fbn = 0 → FSSIZE ≤ s.freeblock → ∀ s', s'.len = FSSIZE →
      Q s.freeblock s') :
    Wp (fillEntry (din.addrs INDIRECT) (fbn - NDIRECT)) Q E s := by
  have hslotI : (s.view i din).slot i NDIRECT = din.addrs INDIRECT := by rw [slot_INDIRECT, ino_view]
  obtain ⟨hfirst, hlast⟩ := lt_freeblock hgood hi hslotI hne
  have hlen : din.addrs INDIRECT < s.len := by
    rw [h.len]
    exact Nat.lt_of_lt_of_le hlast h.last
  have hentry : (s.view i din).addr i fbn = (s.sect (din.addrs INDIRECT)).word (4 * (fbn - NDIRECT)) := by
    rw [BlockFs.slot_entry hle hlt (by rw [ino_view]; exact hne), ino_view, dat_view hfirst]
  unfold fillEntry
  rw [wp_bind]
  refine wp_rsect hlen ?_
  rw [← hentry, wp_ite]
  split
  · rename_i hzero
    rw [wp_bind]
    refine wp_nextBlock ?_
    rw [wp_bind]
    refine wp_wsect hlen ?_
    rw [wp_pure]
    by_cases hb : s.freeblock < FSSIZE
    · have hslot : blockSlot fbn = NDIRECT + 1 + (fbn - NDIRECT) := by
        rw [blockSlot, if_neg (by omega)]
        omega
      obtain ⟨hgood', hadd⟩ := added_entry hgood hb bm_next hi (by rw [ino_view]; exact hne) hlt
        (by rw [← hslot]; exact hzero)
      rw [ino_view, dat_view hfirst, ← view_setEntry h hfirst] at hgood' hadd
      rw [← hslot] at hadd
      exact hadded _ hzero (sane_wsect (sane_next h hb) hfirst (Nat.lt_succ_of_lt hlast)) rfl hgood' hadd
    · exact hfull hzero (Nat.le_of_not_lt hb) _ h.len
  · rename_i hmap
    exact hmapped hmap

/-- The block of a round of `iappend`: it is there, or the next block is handed out, possibly with one for
the addresses. A block behind the end of the file system is handed out too; nothing can be read from it. -/
theorem wp_blockOf {Q : Dinode × ℕ → Mkfs → Prop} (h : s.Sane) (hgood : (s.view i din).Good disk [])
    (hi : (s.view i din).Alloc disk i) (hbn : fbn < MAXFILE)
    (hmapped : (s.view i din).addr i fbn ≠ 0 → Q (din, (s.view i din).addr i fbn) s)
    (hgrown : ∀ s' din', (s.view i din).addr i fbn = 0 → s'.Sane → s'.freeinode = s.freeinode →
      (s'.view i din').Good disk [] → Grown disk (s.view i din) (s'.view i din') i fbn →
      Q (din', (s'.view i din').addr i fbn) s')
    (hfull : s.image.freeBlocks disk < (s.view i din).bmapCost i fbn → ∀ s', s'.len = FSSIZE →
      (∀ din' x, FSSIZE ≤ x → Q (din', x) s') ∧ E .perror s') :
    Wp (blockOf din fbn) Q E s := by
  have hfree := freeBlocks_eq h
  unfold blockOf fillAddr
  split
  · rename_i hlt
    have hslot : blockSlot fbn = fbn := if_pos hlt
    have haddr : (s.view i din).addr i fbn = din.addrs ⟨fbn, Nat.lt_succ_of_lt hlt⟩ := by
      rw [addr, hslot, slot_direct (Nat.lt_succ_of_lt hlt), ino_view]
    have hm : (⟨fbn, Nat.lt_succ_of_lt hlt⟩ : Fin (NDIRECT + 1)) ≠ INDIRECT := by
      intro heq
      have : fbn = NDIRECT := congrArg Fin.val heq
      omega
    rw [wp_bind, wp_ite]
    split
    · rename_i hzero
      rw [wp_bind]
      refine wp_nextBlock ?_
      rw [wp_pure, wp_pure, Dinode.addrs_setAddr, if_pos rfl]
      by_cases hb : s.freeblock < FSSIZE
      · obtain ⟨hgood', hadd⟩ := added_direct hgood hb bm_next hi hm (by rw [ino_view]; exact hzero)
        rw [← view_setAddr h] at hgood' hadd
        replace hadd : Added disk (s.view i din) (view { s with freeblock := s.freeblock + 1 } i
            (din.setAddr ⟨fbn, Nat.lt_succ_of_lt hlt⟩ s.freeblock)) i (blockSlot fbn) s.freeblock := by
          rw [hslot]
          exact hadd
        have hres := hgrown _ _ (haddr.trans hzero) (sane_next h hb) rfl hgood'
          (hadd.grown hgood hi fun hle => by omega)
        rwa [addr, hadd.slot, if_pos rfl] at hres
      · have hshort : s.image.freeBlocks disk < (s.view i din).bmapCost i fbn := by
          rw [bmapCost, if_pos (haddr.trans hzero)]
          omega
        exact (hfull hshort { s with freeblock := s.freeblock + 1 } h.len).1 _ _ (Nat.le_of_not_lt hb)
    · rename_i hne
      rw [wp_pure, wp_pure, ← haddr]
      exact hmapped (haddr ▸ hne)
  · rename_i hge
    have hle : NDIRECT ≤ fbn := Nat.le_of_not_lt hge
    have hlt : fbn - NDIRECT < NINDIRECT := by
      unfold MAXFILE at hbn
      omega
    rw [wp_bind, wp_ite]
    split
    · rename_i hzero
      have haddr : (s.view i din).addr i fbn = 0 := by
        rw [addr, blockSlot, if_neg hge, slot_indirect (by omega), if_neg]
        rintro ⟨-, hne⟩
        exact hne (by rw [ino_view]; exact hzero)
      have hcost : (s.view i din).bmapCost i fbn = 2 := by
        rw [bmapCost, if_pos haddr, if_pos ⟨hle, by rw [ino_view]; exact hzero⟩]
      rw [wp_bind]
      refine wp_nextBlock ?_
      rw [wp_pure, wp_bind]
      by_cases hb : s.freeblock < FSSIZE
      · obtain ⟨hgood1, hadd1⟩ := added_indirect hgood hb bm_next hi (by rw [ino_view]; exact hzero)
        rw [← view_setAddr h] at hgood1 hadd1
        have hi1 := hadd1.alloc_iff.mpr hi
        refine wp_fillEntry (sane_next h hb) hgood1 hi1 hle hlt ?_ (fun hne => ?_) ?_ ?_
        · rw [Dinode.addrs_setAddr, if_pos rfl]
          exact hadd1.ne_zero
        · rw [addr, hadd1.slot, if_neg blockSlot_ne] at hne
          exact absurd haddr hne
        · intro s2 _ hsane2 hino2 hgood2 hadd2
          rw [wp_pure]
          have hres := hgrown s2 _ haddr hsane2 hino2 hgood2
            (hadd1.grown_indirect hadd2 hgood hgood1 hi hle)
          rwa [addr, hadd2.slot, if_pos rfl] at hres
        · intro _ hend s2 hlen2
          rw [wp_pure]
          refine (hfull ?_ s2 hlen2).1 _ _ hend
          rw [hcost]
          simp only at hend
          omega
      · -- the indirect block itself lies behind the end
        unfold fillEntry
        rw [wp_bind, Dinode.addrs_setAddr, if_pos rfl]
        have hshort : s.image.freeBlocks disk < (s.view i din).bmapCost i fbn := by
          rw [hcost]
          omega
        refine wp_rsect_end ?_ (hfull hshort { s with freeblock := s.freeblock + 1 } h.len).2
        rw [h.len]
        exact Nat.le_of_not_lt hb
    · rename_i hne
      rw [wp_pure, wp_bind]
      refine wp_fillEntry h hgood hi hle hlt hne (fun hmap => ?_) ?_ ?_
      · rw [wp_pure]
        exact hmapped hmap
      · intro s2 haddr hsane2 hino2 hgood2 hadd2
        rw [wp_pure]
        have hres := hgrown s2 _ haddr hsane2 hino2 hgood2
          (hadd2.grown hgood hi fun _ => by rw [ino_view]; exact hne)
        rwa [addr, hadd2.slot, if_pos rfl] at hres
      · intro haddr hend s2 hlen2
        rw [wp_pure]
        refine (hfull ?_ s2 hlen2).1 _ _ hend
        rw [bmapCost, if_pos haddr]
        omega

/-! ## `iappend` -/

/-- Copying bytes into a block of the inode. -/
theorem wp_bcopy (h : s.Sane) (hgood : (s.view i din).Good disk [])
    (hi : (s.view i din).Alloc disk i) (hm : (s.view i din).Mapped i m) (hbn : off / BSIZE < m)
    (hfit : off % BSIZE + p.length ≤ BSIZE)
    (hQ : ∀ s', s'.Sane → s'.freeinode = s.freeinode → (s'.view i din).Good disk [] →
      Wrote disk (s.view i din) (s'.view i din) i m m off p → Q () s') :
    Wp (bcopy ((s.view i din).addr i (off / BSIZE)) (off % BSIZE) p) Q E s := by
  have hne : (s.view i din).addr i (off / BSIZE) ≠ 0 := (hm.addr _).mpr hbn
  have hwrote := wrote_block hgood hi hm hbn hfit
  obtain ⟨a, ha⟩ : ∃ a, (s.view i din).addr i (off / BSIZE) = a := ⟨_, rfl⟩
  rw [ha] at hne hwrote ⊢
  obtain ⟨hfirst, hlast⟩ := lt_freeblock hgood hi ha hne
  have hlen : a < s.len := by
    rw [h.len]
    exact Nat.lt_of_lt_of_le hlast h.last
  unfold bcopy
  rw [wp_bind]
  refine wp_rsect hlen (wp_wsect hlen ?_)
  rw [dat_view hfirst, ← view_wsect hfirst] at hwrote
  refine hQ _ (sane_wsect h hfirst hlast) rfl ?_ hwrote
  rw [view_wsect hfirst]
  exact hgood.setDat hi ha hne blockSlot_ne _

/-- The loop of `iappend` writes the bytes behind the others. It stops when the file gets too big or there
are too few blocks. -/
theorem wp_iappendLoop {Q : Dinode × ℕ → Mkfs → Prop} (h : s.Sane)
    (hgood : (s.view i din).Good disk []) (hi : (s.view i din).Alloc disk i)
    (hm : (s.view i din).Mapped i m) {fuel : ℕ} (hfuel : p.length ≤ fuel) (hoff : Image.blocksOf off ≤ m)
    (hQ : ∀ s' din' m', m' = max m (Image.blocksOf (off + p.length)) → s'.Sane →
      s'.freeinode = s.freeinode → (s'.view i din').Good disk [] →
      Wrote disk (s.view i din) (s'.view i din') i m m' off p → Q (din', off + p.length) s')
    (hE : MAXFILE * BSIZE < off + p.length ∨ s.image.freeBlocks disk + diskBlocks m <
      diskBlocks (max m (Image.blocksOf (off + p.length))) → ∀ e s', E e s') :
    Wp (iappendLoop fuel din off p) Q E s := by
  induction fuel generalizing s off p m din with
  | zero =>
    obtain rfl : p = [] := length_eq_zero_iff.mp (Nat.le_zero.mp hfuel)
    exact hQ s din m (by simpa using hoff) h rfl hgood (.nil hm)
  | succ fuel ih =>
    rw [iappendLoop, wp_ite]
    split
    · rename_i hp
      subst hp
      exact hQ s din m (by simpa using hoff) h rfl hgood (.nil hm)
    · rename_i hp
      rw [wp_ite]
      split
      · rename_i hbn
        have hlen : 0 < p.length := length_pos_of_ne_nil hp
        have hmod : off - off / BSIZE * BSIZE = off % BSIZE := by
          simp only [BSIZE]
          omega
        have hn1 : (off / BSIZE + 1) * BSIZE - off = BSIZE - off % BSIZE := by
          simp only [BSIZE]
          omega
        simp only [hmod, hn1]
        set c := min p.length (BSIZE - off % BSIZE) with hc
        have hlt : off % BSIZE < BSIZE := Nat.mod_lt _ (by decide)
        have hcn : c ≤ p.length := Nat.min_le_left _ _
        have htake : (p.take c).length = c := length_take_of_le hcn
        have hround : Image.blocksOf (off + c) = off / BSIZE + 1 := by
          simp only [Image.blocksOf, BSIZE] at hlt hc ⊢
          omega
        have hle : off / BSIZE ≤ m := by
          simp only [Image.blocksOf, BSIZE] at hoff ⊢
          omega
        have hsum : off + c + (p.drop c).length = off + p.length := by
          rw [length_drop]
          omega
        have hmono : Image.blocksOf (off + c) ≤ Image.blocksOf (off + p.length) := by
          simp only [Image.blocksOf]
          exact Nat.div_le_div_right (by omega)
        -- the rest of the loop, once the inode has `m1` blocks
        have hrest : ∀ s1 din1 m1, m1 = max m (off / BSIZE + 1) → s1.Sane →
            s1.freeinode = s.freeinode → (s1.view i din1).Good disk [] →
            Wrote disk (s.view i din) (s1.view i din1) i m m1 off [] →
            Wp (do
              bcopy ((s1.view i din1).addr i (off / BSIZE)) (off % BSIZE) (p.take c)
              iappendLoop fuel din1 (off + c) (p.drop c)) Q E s1 := by
          intro s1 din1 m1 hm1 hsane1 hino1 hgood1 hwrote1
          rw [wp_bind]
          refine wp_bcopy hsane1 hgood1 (hwrote1.alloc_iff.mpr hi) hwrote1.mapped (by omega)
            (by rw [htake]; omega) ?_
          intro s2 hsane2 hino2 hgood2 hwrote2
          have hwrote := hwrote1.trans hwrote2
          rw [nil_append] at hwrote
          refine ih hsane2 hgood2 (hwrote.alloc_iff.mpr hi) hwrote.mapped
            (by rw [length_drop]; omega) (by rw [hround]; omega) ?_ ?_
          · intro s' din' m' hm' hsane' hino' hgood' hwrote'
            rw [hsum] at hm' ⊢
            refine hQ s' din' m' (by omega) hsane' (hino'.trans (hino2.trans hino1)) hgood' ?_
            rw [← htake] at hwrote'
            have := hwrote.trans hwrote'
            rwa [htake, take_append_drop] at this
          · intro hcase
            refine hE ?_
            rw [hsum] at hcase
            refine hcase.imp id fun hshort => ?_
            have hfree := hwrote.freeBlocks
            have hmax' : max m1 (Image.blocksOf (off + p.length)) =
                max m (Image.blocksOf (off + p.length)) := by
              omega
            rw [hmax'] at hshort
            simp only [freeBlocks_view] at hfree
            omega
        rw [wp_bind]
        refine wp_blockOf h hgood hi hbn (fun hne => ?_) (fun s1 din1 hz hsane1 hino1 hgood1 hgrown => ?_) ?_
        · have hbn := (hm.addr _).mp hne
          exact hrest s din m (by omega) h rfl hgood (.nil hm)
        · have hbn : off / BSIZE = m := by
            have := (hm.addr (off / BSIZE)).not.mp (not_not.mpr hz)
            omega
          rw [hbn] at hgrown
          exact hrest s1 din1 (m + 1) (by omega) hsane1 hino1 hgood1 (hgrown.wrote hm)
        · intro hshort s1 hlen1
          have hstop : ∀ e s', E e s' := by
            refine hE (.inr ?_)
            by_cases hbn : off / BSIZE < m
            · have hcost := hm.bmapCost_eq_zero hbn
              omega
            · have hbn : off / BSIZE = m := by omega
              rw [hbn] at hshort hround
              have hcost := hm.bmapCost
              have : diskBlocks (m + 1) ≤ diskBlocks (max m (Image.blocksOf (off + p.length))) :=
                diskBlocks_mono (by omega)
              omega
          refine ⟨fun din' x hx => ?_, hstop _ _⟩
          unfold bcopy
          rw [wp_bind, wp_bind]
          exact wp_rsect_end (hlen1 ▸ hx) (hstop _ _)
      · rename_i hbn
        refine hE (.inl ?_) _ _
        have hlen : 0 < p.length := length_pos_of_ne_nil hp
        have := (Nat.le_div_iff_mul_le (by decide : 0 < BSIZE)).mp (Nat.le_of_not_lt hbn)
        omega

end Mkfs

end Xv6
