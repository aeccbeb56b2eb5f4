import Xv6.Fs.Image

/-!
# Files as byte arrays

The bytes of an inode, read through its block addresses; an address that is zero reads as zeros. Giving an
inode a fresh block changes no byte of any file (`Added.byteAt`), since `balloc` zeroes the block, and
writing a data block changes the bytes of that block alone (`byteAt_setDat`), since no two addresses are the
same.
-/

namespace Xv6

open Function

namespace Image

variable {g : Geometry} {v v' : Image} {X : List ℕ} {i j k l b bn p : ℕ}

/-- The number of the address of file block `bn`. -/
def blockSlot (bn : ℕ) : ℕ := if bn < NDIRECT then bn else bn + 1

/-- The disk block of file block `bn`. -/
def addr (v : Image) (i bn : ℕ) : ℕ := v.slot i (blockSlot bn)

/-- The byte at offset `p` of the contents of inode `i`. -/
def byteAt (v : Image) (i p : ℕ) : UInt8 :=
  if v.addr i (p / BSIZE) = 0 then 0 else (v.dat (v.addr i (p / BSIZE))).byte (p % BSIZE)

/-- The contents of inode `i`. -/
def content (v : Image) (i : ℕ) : List UInt8 := (List.range (v.ino i).size).map (v.byteAt i)

/-- The number of blocks of a file of `n` bytes. -/
def blocksOf (n : ℕ) : ℕ := (n + (BSIZE - 1)) / BSIZE

/-- Inode `i` has its first `m` file blocks and no others. -/
structure Mapped (v : Image) (i m : ℕ) : Prop where
  addr : ∀ bn, v.addr i bn ≠ 0 ↔ bn < m
  indirect : (v.ino i).addrs INDIRECT ≠ 0 ↔ NDIRECT < m

/-- The number of free blocks. -/
def freeBlocks (g : Geometry) (v : Image) : ℕ :=
  ((Finset.range g.size).filter fun b => v.bm b = false).card

theorem blockSlot_ne : blockSlot bn ≠ NDIRECT := by
  unfold blockSlot
  split <;> omega

theorem blockSlot_inj {bn bn' : ℕ} (h : blockSlot bn = blockSlot bn') : bn = bn' := by
  unfold blockSlot at h
  split at h <;> split at h <;> omega

theorem Good.addr_data (h : v.Good g X) (hi : v.Alloc g i) (hne : v.addr i bn ≠ 0) :
    g.datastart ≤ v.addr i bn ∧ v.addr i bn < g.size :=
  h.data i _ hi hne

theorem content_length : (v.content i).length = (v.ino i).size := by
  simp [content]

theorem getElem_content (h : p < (v.content i).length) : (v.content i)[p] = v.byteAt i p := by
  simp [content]

theorem Mapped.le_maxfile {m : ℕ} (h : v.Mapped i m) : m ≤ MAXFILE := by
  by_contra hlt
  have hne := (h.addr MAXFILE).mpr (by omega)
  refine hne (slot_eq_zero ?_)
  simp [blockSlot, MAXFILE, NDIRECT, NINDIRECT, BSIZE]

/-- The map of free blocks after `balloc`. -/
theorem freeBlocks_alloc (hb : b < g.size) (hfree : v.bm b = false) :
    (v.alloc b).freeBlocks g + 1 = v.freeBlocks g := by
  unfold freeBlocks
  have hset : (Finset.range g.size).filter (fun c => (v.alloc b).bm c = false) =
      ((Finset.range g.size).filter fun c => v.bm c = false).erase b := by
    ext c
    simp only [Finset.mem_filter, Finset.mem_range, Finset.mem_erase, alloc, update_apply]
    by_cases hc : c = b
    · simp [hc]
    · simp [hc]
  rw [hset]
  exact Finset.card_erase_add_one (by simpa using ⟨hb, hfree⟩)

theorem freeBlocks_pos (h : 0 < v.freeBlocks g) : ∃ b < g.size, v.bm b = false := by
  obtain ⟨b, hb⟩ := Finset.card_pos.mp h
  exact ⟨b, by simpa using hb⟩

/-! ## Giving an inode a fresh block -/

/-- Inode `i` has got a block from `balloc` under its address number `k`. -/
structure Added (g : Geometry) (v v' : Image) (i k b : ℕ) : Prop where
  ino_ne : ∀ j, j ≠ i → v'.ino j = v.ino j
  ino_eq : v'.ino i = { v.ino i with addrs := (v'.ino i).addrs }
  zero : v.slot i k = 0
  slot : ∀ l, v'.slot i l = if l = k then b else v.slot i l
  other : ∀ j l, v.Alloc g j → j ≠ i → v'.slot j l = v.slot j l
  dat : ∀ c, c ≠ b → c ≠ (v.ino i).addrs INDIRECT → v'.dat c = v.dat c
  fresh : v'.dat b = fun _ => 0
  notHeld : ¬ v.Held g b
  ne_zero : b ≠ 0
  freeBlocks : v'.freeBlocks g + 1 = v.freeBlocks g

theorem Added.alloc_iff (h : Added g v v' i k b) : v'.Alloc g j ↔ v.Alloc g j := by
  unfold Alloc
  by_cases hj : j = i
  · subst hj
    rw [h.ino_eq]
  · rw [h.ino_ne j hj]

theorem Added.addr (h : Added g v v' i k b) (hj : v.Alloc g j) :
    v'.addr j bn = if j = i ∧ blockSlot bn = k then b else v.addr j bn := by
  unfold Image.addr
  by_cases hji : j = i
  · subst hji
    simp [h.slot]
  · rw [h.other j _ hj hji, if_neg fun hc => hji hc.1]

/-- A fresh block changes no byte. -/
theorem Added.byteAt (h : Added g v v' i k b) (hgood : v.Good g X) (hi : v.Alloc g i)
    (hj : v.Alloc g j) : v'.byteAt j p = v.byteAt j p := by
  unfold Image.byteAt
  rw [h.addr hj]
  split
  · rename_i hnew
    obtain ⟨rfl, hk⟩ := hnew
    have hold : v.addr j (p / BSIZE) = 0 := by
      rw [Image.addr, hk, h.zero]
    rw [if_neg h.ne_zero, hold, if_pos rfl, h.fresh]
    simp [Page.byte]
  · by_cases ha : v.addr j (p / BSIZE) = 0
    · rw [if_pos ha, if_pos ha]
    · have hb : v.addr j (p / BSIZE) ≠ b := fun hab => h.notHeld ⟨j, _, hj, hab⟩
      have hind := hgood.ne_indirect hj hi rfl ha blockSlot_ne
      rw [if_neg ha, if_neg ha, h.dat _ hb hind.symm]

/-- `balloc` and `ip->addrs[bn] = addr`. -/
theorem added_direct (hgood : v.Good g X) (hb : b < g.size) (hfree : v.bm b = false)
    (hi : v.Alloc g i) {m : Fin (NDIRECT + 1)} (hm : m ≠ INDIRECT) (hzero : (v.ino i).addrs m = 0) :
    ((v.alloc b).setAddr i m b).Good g X ∧ Added g v ((v.alloc b).setAddr i m b) i m b := by
  have hgood' := hgood.alloc hb hfree
  have hfresh := hgood.free_block hb hfree
  refine ⟨hgood'.setAddr_direct hi hm hzero, ⟨fun j hj => ?_, ?_, ?_, fun l => ?_, fun j l hj hji => ?_,
    fun c hc _ => update_of_ne hc _ _, ?_, hfresh.2.1, ?_, freeBlocks_alloc hb hfree⟩⟩
  · simp [setAddr, setIno, alloc, hj]
  · simp [setAddr, setIno, alloc, Dinode.setAddr]
  · rw [slot_direct m.isLt]
    exact hzero
  · rw [slot_setAddr_direct hm, slot_alloc hgood hb hfree hi]
  · rw [setAddr, slot_setIno_ne hji, slot_alloc hgood hb hfree hj]
  · simp [setAddr, setIno, alloc]
  · have := datastart_pos g
    omega

/-- `balloc` and `ip->addrs[NDIRECT] = addr`. -/
theorem added_indirect (hgood : v.Good g X) (hb : b < g.size) (hfree : v.bm b = false)
    (hi : v.Alloc g i) (hzero : (v.ino i).addrs INDIRECT = 0) : ((v.alloc b).setAddr i INDIRECT b).Good g X ∧
      Added g v ((v.alloc b).setAddr i INDIRECT b) i NDIRECT b := by
  have hgood' := hgood.alloc hb hfree
  have hfresh := hgood.free_block hb hfree
  have hdat : (v.alloc b).dat b = fun _ => 0 := by simp [alloc]
  refine ⟨hgood'.setAddr_indirect hi hzero hdat, ⟨fun j hj => ?_, ?_, ?_, fun l => ?_,
    fun j l hj hji => ?_, fun c hc _ => update_of_ne hc _ _, hdat, hfresh.2.1, ?_,
    freeBlocks_alloc hb hfree⟩⟩
  · simp [setAddr, setIno, alloc, hj]
  · simp [setAddr, setIno, alloc, Dinode.setAddr]
  · rw [slot_INDIRECT]
    exact hzero
  · rw [slot_setAddr_indirect (v := v.alloc b) hzero hdat, slot_alloc hgood hb hfree hi]
  · rw [setAddr, slot_setIno_ne hji, slot_alloc hgood hb hfree hj]
  · have := datastart_pos g
    omega

/-- `balloc` and `a[bn] = addr` in the indirect block. -/
theorem added_entry (hgood : v.Good g X) (hb : b < g.size) (hfree : v.bm b = false)
    (hi : v.Alloc g i) (hne : (v.ino i).addrs INDIRECT ≠ 0) {m : ℕ} (hm : m < NINDIRECT)
    (hzero : v.slot i (NDIRECT + 1 + m) = 0) :
    let v' := (v.alloc b).setDat ((v.ino i).addrs INDIRECT)
      ((v.dat ((v.ino i).addrs INDIRECT)).move (4 * m) (leBytes 4 b))
    v'.Good g X ∧ Added g v v' i (NDIRECT + 1 + m) b := by
  intro v'
  have hgood' := hgood.alloc hb hfree
  obtain ⟨hdata, hnot, -⟩ := hgood.free_block hb hfree
  have hib : (v.ino i).addrs INDIRECT ≠ b := by
    rw [← slot_INDIRECT]
    exact fun h => hnot ⟨i, NDIRECT, hi, h⟩
  have hdat : (v.alloc b).dat ((v.ino i).addrs INDIRECT) = v.dat ((v.ino i).addrs INDIRECT) :=
    update_of_ne hib _ _
  have hv' : v' = (v.alloc b).setDat (((v.alloc b).ino i).addrs INDIRECT)
      (((v.alloc b).dat (((v.alloc b).ino i).addrs INDIRECT)).move (4 * m) (leBytes 4 b)) := by
    show _ = (v.alloc b).setDat ((v.ino i).addrs INDIRECT)
      (Page.move ((v.alloc b).dat ((v.ino i).addrs INDIRECT)) (4 * m) (leBytes 4 b))
    rw [hdat]
  have hb32 : b < 2 ^ 32 := by
    have := g.size_le
    omega
  refine ⟨?_, ⟨fun _ _ => rfl, rfl, hzero, fun l => ?_, fun j l hj hji => ?_, fun c hc hci => ?_, ?_,
    hnot, ?_, freeBlocks_alloc hb hfree⟩⟩
  · rw [hv']
    exact hgood'.setDat_indirect hi hne hm ((slot_alloc hgood hb hfree hi).trans hzero)
  · rw [hv', slot_setDat_indirect (v := v.alloc b) hne hm hb32, slot_alloc hgood hb hfree hi]
  · refine (slot_setDat ?_).trans (slot_alloc hgood hb hfree hj)
    intro heq
    have heq' : v.slot j NDIRECT = v.slot i NDIRECT := by
      rw [slot_INDIRECT, slot_INDIRECT]
      exact heq
    exact hji (hgood.inj j i NDIRECT NDIRECT hj hi (by rw [heq', slot_INDIRECT]; exact hne) heq').1
  · show update (update v.dat b fun _ => 0) _ _ c = v.dat c
    rw [update_of_ne hci, update_of_ne hc]
  · show update (update v.dat b fun _ => 0) _ _ b = fun _ => 0
    rw [update_of_ne hib.symm, update_self]
  · have := datastart_pos g
    omega

/-- The number of blocks that `bmap` allocates for file block `bn`. -/
def bmapCost (v : Image) (i bn : ℕ) : ℕ :=
  (if v.addr i bn = 0 then 1 else 0) + if NDIRECT ≤ bn ∧ (v.ino i).addrs INDIRECT = 0 then 1 else 0

/-- Inode `i` has got file block `bn`, which it did not have. -/
structure Grown (g : Geometry) (v v' : Image) (i bn : ℕ) : Prop where
  ino_ne : ∀ j, j ≠ i → v'.ino j = v.ino j
  ino_eq : v'.ino i = { v.ino i with addrs := (v'.ino i).addrs }
  slot : ∀ l, v'.slot i l ≠ 0 ↔ v.slot i l ≠ 0 ∨ l = blockSlot bn ∨ (l = NDIRECT ∧ NDIRECT ≤ bn)
  other : ∀ j l, v.Alloc g j → j ≠ i → v'.slot j l = v.slot j l
  byteAt : ∀ j p, v.Alloc g j → v'.byteAt j p = v.byteAt j p
  freeBlocks : v.freeBlocks g = v'.freeBlocks g + v.bmapCost i bn

/-- One fresh block for file block `bn`. -/
theorem Added.grown (h : Added g v v' i (blockSlot bn) b) (hgood : v.Good g X) (hi : v.Alloc g i)
    (hind : NDIRECT ≤ bn → (v.ino i).addrs INDIRECT ≠ 0) : Grown g v v' i bn where
  ino_ne := h.ino_ne
  ino_eq := h.ino_eq
  slot := fun l => by
    rw [h.slot]
    have hb := h.ne_zero
    have hzero := h.zero
    by_cases hl : l = blockSlot bn
    · simp [hl, hb]
    · have hN : l = NDIRECT ∧ NDIRECT ≤ bn → v.slot i l ≠ 0 := by
        rintro ⟨rfl, hle⟩
        rw [slot_INDIRECT]
        exact hind hle
      simp only [hl, if_false, false_or]
      exact ⟨.inl, fun hor => hor.elim id hN⟩
  other := h.other
  byteAt := fun _ _ hj => h.byteAt hgood hi hj
  freeBlocks := by
    have hzero : v.addr i bn = 0 := h.zero
    have hnot : ¬ (NDIRECT ≤ bn ∧ (v.ino i).addrs INDIRECT = 0) := fun hc => hind hc.1 hc.2
    rw [bmapCost, if_pos hzero, if_neg hnot, ← h.freeBlocks]

/-- A fresh indirect block and a fresh block for file block `bn`. -/
theorem Added.grown_indirect {v1 : Image} {a : ℕ} (h1 : Added g v v1 i NDIRECT a)
    (h2 : Added g v1 v' i (blockSlot bn) b) (hgood : v.Good g X) (hgood1 : v1.Good g X)
    (hi : v.Alloc g i) (hbn : NDIRECT ≤ bn) : Grown g v v' i bn where
  ino_ne := fun j hj => (h2.ino_ne j hj).trans (h1.ino_ne j hj)
  ino_eq := by rw [h2.ino_eq, h1.ino_eq]
  slot := fun l => by
    rw [h2.slot, h1.slot]
    have ha := h1.ne_zero
    have hb := h2.ne_zero
    by_cases hl : l = blockSlot bn
    · simp [hl, hb]
    · by_cases hN : l = NDIRECT
      · simp [hN, ha, hbn, blockSlot_ne.symm]
      · simp [hl, hN]
  other := fun j l hj hji => (h2.other j l (h1.alloc_iff.mpr hj) hji).trans (h1.other j l hj hji)
  byteAt := fun j p hj =>
    (h2.byteAt hgood1 (h1.alloc_iff.mpr hi) (h1.alloc_iff.mpr hj)).trans (h1.byteAt hgood hi hj)
  freeBlocks := by
    have hzero : v.addr i bn = 0 := by
      have := h2.zero
      rw [h1.slot, if_neg blockSlot_ne] at this
      exact this
    have hind : (v.ino i).addrs INDIRECT = 0 := by
      rw [← slot_INDIRECT]
      exact h1.zero
    rw [bmapCost, if_pos hzero, if_pos ⟨hbn, hind⟩, ← h1.freeBlocks, ← h2.freeBlocks]

/-! ## Writing a data block -/

theorem addr_setDat (hgood : v.Good g X) (hi : v.Alloc g i) (hb : v.addr i bn = b) (hb0 : b ≠ 0)
    (hj : v.Alloc g j) (x : Block) (m : ℕ) : (v.setDat b x).addr j m = v.addr j m :=
  slot_setDat (hgood.ne_indirect hi hj hb hb0 blockSlot_ne)

/-- Writing the disk block of file block `bn` of inode `i`. -/
theorem byteAt_setDat (hgood : v.Good g X) (hi : v.Alloc g i) (hb : v.addr i bn = b) (hb0 : b ≠ 0)
    (hj : v.Alloc g j) (x : Block) : (v.setDat b x).byteAt j p =
      if j = i ∧ p / BSIZE = bn then x.byte (p % BSIZE) else v.byteAt j p := by
  unfold byteAt
  rw [addr_setDat hgood hi hb hb0 hj]
  split
  · rename_i hzero
    rw [if_neg]
    rintro ⟨rfl, rfl⟩
    exact hb0 (hb.symm.trans hzero)
  · rename_i hne
    split
    · rename_i hsame
      obtain ⟨rfl, rfl⟩ := hsame
      rw [hb, dat_setDat, if_pos rfl]
    · rename_i hdiff
      rw [dat_setDat, if_neg]
      intro heq
      obtain ⟨rfl, hs⟩ := hgood.inj j i _ _ hj hi hne (heq.trans hb.symm)
      exact hdiff ⟨rfl, blockSlot_inj hs⟩

/-! ## Consistent images -/

/-- Regular files and directories have contents. -/
def HasContent (d : Dinode) : Prop := d.type = T_FILE ∨ d.type = T_DIR

/-- An image is consistent: every block address lies in the data area and occurs once, the free map marks
the metadata and the blocks that occur, and a file has exactly the blocks below its size. -/
structure Consistent (g : Geometry) (v : Image) : Prop where
  data : ∀ i k, v.Alloc g i → v.slot i k ≠ 0 → g.datastart ≤ v.slot i k ∧ v.slot i k < g.size
  once : ∀ i j k l, v.Alloc g i → v.Alloc g j → v.slot i k ≠ 0 → v.slot i k = v.slot j l →
    i = j ∧ k = l
  bitmap : ∀ b, b < g.size → (v.bm b = true ↔ b < g.datastart ∨ v.Held g b)
  blocks : ∀ i, v.Alloc g i → HasContent (v.ino i) →
    ∀ bn, v.addr i bn ≠ 0 ↔ bn < blocksOf (v.ino i).size
  indirect : ∀ i, v.Alloc g i → HasContent (v.ino i) →
    ((v.ino i).addrs INDIRECT ≠ 0 ↔ (v.ino i).size > NDIRECT * BSIZE)

theorem lt_blocksOf {m n : ℕ} : m < blocksOf n ↔ m * BSIZE < n := by
  simp only [blocksOf, BSIZE]
  omega

theorem Consistent.good (h : v.Consistent g) : v.Good g [] where
  data := h.data
  inj := h.once
  bits := fun b hb => by
    rw [h.bitmap b hb]
    simp
  nodup := List.nodup_nil
  flight := nofun

theorem Consistent.mapped (h : v.Consistent g) (hi : v.Alloc g i) (hc : HasContent (v.ino i)) :
    v.Mapped i (blocksOf (v.ino i).size) where
  addr := h.blocks i hi hc
  indirect := by
    rw [h.indirect i hi hc, lt_blocksOf]

theorem Good.consistent (h : v.Good g [])
    (hm : ∀ i, v.Alloc g i → HasContent (v.ino i) → v.Mapped i (blocksOf (v.ino i).size)) : v.Consistent g where
  data := h.data
  once := h.inj
  bitmap := fun b hb => by
    rw [h.bits b hb]
    simp
  blocks := fun i hi hc => (hm i hi hc).addr
  indirect := fun i hi hc => by
    rw [(hm i hi hc).indirect, lt_blocksOf]

/-- No file is bigger than its block addresses allow. -/
theorem Consistent.size_le (h : v.Consistent g) (hi : v.Alloc g i) (hc : HasContent (v.ino i)) :
    (v.ino i).size ≤ MAXFILE * BSIZE := by
  by_contra hlt
  have := (h.mapped hi hc).le_maxfile
  have hmax : MAXFILE < blocksOf (v.ino i).size := lt_blocksOf.mpr (Nat.lt_of_not_le hlt)
  omega

/-- The block addresses of an inode depend only on what it holds. -/
theorem Mapped.congr {m : ℕ} (h : v.Mapped i m) (hslot : ∀ l, v'.slot i l = v.slot i l) : v'.Mapped i m where
  addr := fun bn => by
    rw [Image.addr, hslot]
    exact h.addr bn
  indirect := by
    rw [← slot_INDIRECT, hslot, slot_INDIRECT]
    exact h.indirect

end Image

end Xv6
