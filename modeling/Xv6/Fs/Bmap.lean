import Xv6.Fs.Inode

/-!
# Block allocation in terms of the image

The specifications of `balloc`, `bfree`, `bmap` and `itrunc`: what they do to the image that the buffers and
the cached inodes show, and that code holding one inode leaves the other inodes alone (`Step`).
-/

namespace Xv6

open Function Code List

open Image

namespace BlockFs

variable {g : Geometry}

/-- The disk copy of inode `i`. -/
def dinode (s : BlockFs g) (i : ℕ) : Dinode := Dinode.read (s.blk (g.IBLOCK i)) (inodeOff i)

/-- The image as seen through the cached inodes and the buffers. -/
def image (s : BlockFs g) : Image where
  ino i :=
    if i < g.ninodes then if (s.icache i).valid then (s.icache i).copy else s.dinode i
    else Dinode.zero
  dat b := if g.datastart ≤ b then s.blk b else fun _ => 0
  bm b := if b < g.size then (s.blk (g.BBLOCK b)).bit (b % BPB) else true

/-- Blocks change only by `log_write`, and only those of the inodes, the free map and the data. -/
def Logs (s s' : BlockFs g) : Prop :=
  ∃ bs, s'.logged = s.logged ++ bs ∧ (∀ b ∈ bs, g.inodestart ≤ b ∧ b < g.size) ∧ ∀ b ∉ bs, s'.blk b = s.blk b

/-- What code that holds inode `i` does to the other inodes: nothing. -/
structure Step (i : ℕ) (s s' : BlockFs g) : Prop where
  logs : Logs s s'
  icache : ∀ j, j ≠ i → s'.icache j = s.icache j
  valid : (s'.icache i).valid = (s.icache i).valid
  dinode : ∀ j, j ≠ i → j < g.ninodes → s'.dinode j = s.dinode j

/-- Code that changes no inode, neither in the cache nor on disk. -/
structure Keep (s s' : BlockFs g) : Prop where
  logs : Logs s s'
  icache : s'.icache = s.icache
  dinode : ∀ j, j < g.ninodes → s'.dinode j = s.dinode j

variable {s s' s'' : BlockFs g} {i j b bn : ℕ}

theorem Logs.of_blk (hblk : s'.blk = s.blk) (hlog : s'.logged = s.logged) : Logs s s' :=
  ⟨[], by rw [hlog, append_nil], by simp, fun _ _ => by rw [hblk]⟩

theorem Logs.refl (s : BlockFs g) : Logs s s := .of_blk rfl rfl

theorem Logs.trans (h : Logs s s') (h' : Logs s' s'') : Logs s s'' := by
  obtain ⟨bs, hlog, hin, hblk⟩ := h
  obtain ⟨cs, hlog', hin', hblk'⟩ := h'
  refine ⟨bs ++ cs, by rw [hlog', hlog, append_assoc], fun b hb => ?_, fun b hb => ?_⟩
  · exact (mem_append.mp hb).elim (hin b) (hin' b)
  · rw [mem_append, not_or] at hb
    exact (hblk' b hb.2).trans (hblk b hb.1)

theorem logs_logWrite {k : ℕ} (x : Block) (hk : g.inodestart ≤ k ∧ k < g.size) :
    Logs s { s with blk := update s.blk k x, logged := s.logged ++ [k] } := by
  refine ⟨[k], rfl, fun b hb => ?_, fun b hb => update_of_ne (fun heq => hb (by rw [heq]; exact mem_cons_self)) ..⟩
  rwa [mem_singleton.mp hb]

theorem Step.refl (i : ℕ) (s : BlockFs g) : Step i s s := ⟨.refl s, fun _ _ => rfl, rfl, fun _ _ _ => rfl⟩

theorem Step.trans (h : Step i s s') (h' : Step i s' s'') : Step i s s'' where
  logs := h.logs.trans h'.logs
  icache := fun j hj => (h'.icache j hj).trans (h.icache j hj)
  valid := h'.valid.trans h.valid
  dinode := fun j hj hlt => (h'.dinode j hj hlt).trans (h.dinode j hj hlt)

theorem Keep.step (h : Keep s s') (i : ℕ) : Step i s s' where
  logs := h.logs
  icache := fun j _ => congrFun h.icache j
  valid := congrArg Inode.valid (congrFun h.icache i)
  dinode := fun j _ hlt => h.dinode j hlt

theorem Keep.refl (s : BlockFs g) : Keep s s := ⟨.refl s, rfl, fun _ _ => rfl⟩

theorem Keep.trans (h : Keep s s') (h' : Keep s' s'') : Keep s s'' where
  logs := h.logs.trans h'.logs
  icache := h'.icache.trans h.icache
  dinode := fun j hlt => (h'.dinode j hlt).trans (h.dinode j hlt)

/-- The inodes of the image depend on the cache and, for inodes that are not cached, on the disk. -/
theorem ino_congr (hic : s'.icache = s.icache)
    (hdisk : ∀ j, j < g.ninodes → (s.icache j).valid = false → s'.dinode j = s.dinode j) :
    s'.image.ino = s.image.ino := by
  funext j
  unfold image
  simp only [hic]
  split
  · rename_i hlt
    split
    · rfl
    · rename_i hv
      rw [hdisk j hlt (by simpa using hv)]
  · rfl

theorem Keep.ino_eq (h : Keep s s') : s'.image.ino = s.image.ino :=
  ino_congr h.icache fun j hj _ => h.dinode j hj

/-! ## Where the blocks are -/

theorem BPB_pos : 0 < BPB := by
  unfold BPB BSIZE
  omega

theorem BPB_eq : BPB = 8 * BSIZE := Nat.mul_comm BSIZE 8

theorem IBLOCK_lt (hi : i < g.ninodes) : g.IBLOCK i < g.bmapstart := by
  have hdiv : i / IPB ≤ g.ninodes / IPB := Nat.div_le_div_right hi.le
  have := g.inodes_lt
  unfold Geometry.IBLOCK
  omega

theorem bmapstart_le_BBLOCK : g.bmapstart ≤ g.BBLOCK b := Nat.le_add_left _ _

theorem inodestart_le : g.inodestart ≤ g.bmapstart := (Nat.le_add_right _ _).trans g.inodes_lt.le

theorem bmapstart_le : g.bmapstart ≤ g.datastart := (Nat.le_add_right _ _).trans g.bitmap_lt.le

theorem BBLOCK_lt (hb : b < g.size) : g.BBLOCK b < g.datastart := by
  have hdiv : b / BPB ≤ g.size / BPB := Nat.div_le_div_right hb.le
  have := g.bitmap_lt
  unfold Geometry.BBLOCK
  omega

theorem IBLOCK_ne_BBLOCK (hi : i < g.ninodes) : g.IBLOCK i ≠ g.BBLOCK b := by
  have := IBLOCK_lt hi
  have := bmapstart_le_BBLOCK (g := g) (b := b)
  omega

theorem IBLOCK_lt_datastart (hi : i < g.ninodes) : g.IBLOCK i < g.datastart := by
  exact (IBLOCK_lt hi).trans_le bmapstart_le

theorem IBLOCK_in (hi : i < g.ninodes) : g.inodestart ≤ g.IBLOCK i ∧ g.IBLOCK i < g.size :=
  ⟨Nat.le_add_left _ _, (IBLOCK_lt_datastart hi).trans_le g.data_le⟩

variable {x : Block} {bi : ℕ} {v : Image}

/-- The block after a change that `log_write` records. -/
theorem keep_logWrite {k : ℕ} (hin : g.inodestart ≤ k ∧ k < g.size)
    (hk : ∀ j, j < g.ninodes → g.IBLOCK j ≠ k) : Keep s { s with blk := update s.blk k x, logged := s.logged ++ [k] } where
  logs := logs_logWrite x hin
  icache := rfl
  dinode := fun j hj => by
    show Dinode.read (update s.blk k x (g.IBLOCK j)) (inodeOff j) = s.dinode j
    rw [update_of_ne (hk j hj)]
    rfl

/-- Changing a data block. -/
theorem image_logWrite_data {k : ℕ} (hk : g.datastart ≤ k) (hlt : k < g.size) :
    Keep s { s with blk := update s.blk k x, logged := s.logged ++ [k] } ∧
      ({ s with blk := update s.blk k x, logged := s.logged ++ [k] } : BlockFs g).image =
        s.image.setDat k x := by
  have hin : g.inodestart ≤ k := (inodestart_le.trans bmapstart_le).trans hk
  have hkeep := keep_logWrite (s := s) (k := k) (x := x) ⟨hin, hlt⟩ fun j hj => by
    have := IBLOCK_lt_datastart hj
    omega
  refine ⟨hkeep, ?_⟩
  have hino := hkeep.ino_eq
  unfold image at hino ⊢
  unfold setDat
  congr 1
  · funext c
    by_cases hc : c = k
    · subst hc
      simp [hk]
    · simp [update_of_ne hc]
  · funext c
    by_cases hc : c < g.size
    · have := BBLOCK_lt hc
      simp [hc, update_of_ne (show g.BBLOCK c ≠ k by omega)]
    · simp [hc]

/-- Changing one bit of the free map. -/
theorem image_logWrite_bitmap {v : Bool} (hb : b < g.size)
    (hx : ∀ n, x.bit n = if n = b % BPB then v else (s.blk (g.BBLOCK b)).bit n) :
    Keep s { s with blk := update s.blk (g.BBLOCK b) x, logged := s.logged ++ [g.BBLOCK b] } ∧
      ({ s with blk := update s.blk (g.BBLOCK b) x,
                logged := s.logged ++ [g.BBLOCK b] } : BlockFs g).image =
        { s.image with bm := update s.image.bm b v } := by
  have hin : g.inodestart ≤ g.BBLOCK b ∧ g.BBLOCK b < g.size :=
    ⟨inodestart_le.trans bmapstart_le_BBLOCK, (BBLOCK_lt hb).trans_le g.data_le⟩
  have hkeep := keep_logWrite (s := s) (k := g.BBLOCK b) (x := x) hin fun j hj => IBLOCK_ne_BBLOCK hj
  refine ⟨hkeep, ?_⟩
  have hino := hkeep.ino_eq
  unfold image at hino ⊢
  congr 1
  · funext c
    have := BBLOCK_lt hb
    by_cases hc : g.datastart ≤ c
    · simp [hc, update_of_ne (show c ≠ g.BBLOCK b by omega)]
    · simp [hc]
  · funext c
    rw [update_apply]
    by_cases hcb : c = b
    · subst hcb
      simp [hb, hx]
    · rw [if_neg hcb]
      by_cases hc : c < g.size
      · simp only [hc, if_true]
        by_cases hblk : g.BBLOCK c = g.BBLOCK b
        · -- another bit of the same block
          have hmod : c % BPB ≠ b % BPB := by
            intro hmod
            have hdiv : c / BPB = b / BPB := by simpa [Geometry.BBLOCK] using hblk
            exact hcb (by rw [← Nat.div_add_mod c BPB, ← Nat.div_add_mod b BPB, hdiv, hmod])
          rw [hblk, update_self, hx, if_neg hmod]
        · rw [update_of_ne hblk]
      · simp [hc]

/-! ## `balloc` and `bfree` -/

variable {Q : Unit → BlockFs g → Prop} {E : Halt → BlockFs g → Prop} {X : List ℕ}

theorem freeBit_eq_some (h : freeBit g x b = some bi) :
    bi < BPB ∧ b + bi < g.size ∧ x.bit bi = false := by
  unfold freeBit at h
  have hmem := mem_of_find?_eq_some h
  have hp := find?_some h
  simp only [decide_eq_true_eq] at hp
  exact ⟨mem_range.mp hmem, hp⟩

theorem freeBit_eq_none (h : freeBit g x b = none) (hbi : bi < BPB) (hsize : b + bi < g.size) : x.bit bi = true := by
  unfold freeBit at h
  have := find?_eq_none.mp h bi (mem_range.mpr hbi)
  simpa [hsize] using this

theorem div_of_aligned (hb : b % BPB = 0) (hbi : bi < BPB) :
    (b + bi) % BPB = bi ∧ g.BBLOCK (b + bi) = g.BBLOCK b := by
  obtain ⟨n, rfl⟩ := Nat.dvd_of_mod_eq_zero hb
  unfold Geometry.BBLOCK
  rw [Nat.mul_add_mod, Nat.mod_eq_of_lt hbi, Nat.mul_add_div BPB_pos, Nat.div_eq_of_lt hbi,
    Nat.mul_div_cancel_left _ BPB_pos]
  exact ⟨rfl, rfl⟩

/-- The loop of `balloc` over some blocks of the free map. -/
theorem wp_ballocLoop {Q : ℕ → BlockFs g → Prop} (h : s.image.Good g X) {bs : List ℕ} (hbs : ∀ b ∈ bs, b % BPB = 0)
    (hQ : ∀ b s', b < g.size → s.image.bm b = false → Keep s s' → s'.image = s.image.alloc b → Q b s')
    (hE : (∀ b ∈ bs, ∀ bi < BPB, b + bi < g.size → s.image.bm (b + bi) = true) →
      E (.panic .ballocOutOfBlocks) s) :
    Wp (ballocLoop bs) Q E s := by
  induction bs with
  | nil => exact hE fun b hb => absurd hb not_mem_nil
  | cons b bs ih =>
    have hb0 := hbs b mem_cons_self
    rw [ballocLoop]
    unfold bread
    simp only [wp_bind, wp_get, wp_pure]
    have hblk : ∀ bi, bi < BPB → b + bi < g.size →
        s.image.bm (b + bi) = (s.blk (g.BBLOCK b)).bit bi := by
      intro bi hbi hsize
      obtain ⟨hmod, hsame⟩ := div_of_aligned (g := g) hb0 hbi
      simp only [image, hsize, if_true, hsame, hmod]
    split
    · rename_i bi hfree
      obtain ⟨hbi, hsize, hbit⟩ := freeBit_eq_some hfree
      obtain ⟨hmod, hsame⟩ := div_of_aligned (g := g) hb0 hbi
      have hbm : s.image.bm (b + bi) = false := (hblk bi hbi hsize).trans hbit
      unfold bzero logWrite
      simp only [wp_bind, wp_modify, wp_pure]
      rw [← hsame]
      -- first the bit, then the block
      obtain ⟨hkeep1, himage1⟩ := image_logWrite_bitmap (s := s) (b := b + bi)
        (x := (s.blk (g.BBLOCK (b + bi))).setBit bi) (v := true) hsize fun m => by
          rw [Page.bit_setBit _ (BPB_eq ▸ hbi), hmod]
          by_cases hm : m = bi <;> simp [hm]
      have hdata := (h.free_block hsize hbm).1
      obtain ⟨hkeep2, himage2⟩ := image_logWrite_data (k := b + bi) (x := fun _ => 0)
        (s := { s with blk := update s.blk (g.BBLOCK (b + bi))
                        ((s.blk (g.BBLOCK (b + bi))).setBit bi),
                       logged := s.logged ++ [g.BBLOCK (b + bi)] }) hdata hsize
      exact hQ _ _ hsize hbm (hkeep1.trans hkeep2) (by rw [himage2, himage1]; rfl)
    · rename_i hnone
      refine ih (fun c hc => hbs c (mem_cons_of_mem _ hc)) fun hrest => hE fun c hc => ?_
      rcases mem_cons.mp hc with rfl | hc
      · intro bi hbi hsize
        rw [hblk bi hbi hsize]
        exact freeBit_eq_none hnone hbi hsize
      · exact hrest c hc

/-- `balloc` returns some free block; it panics only when there is none. -/
theorem wp_balloc {Q : ℕ → BlockFs g → Prop} (h : s.image.Good g X)
    (hQ : ∀ b s', b < g.size → s.image.bm b = false → Keep s s' → s'.image = s.image.alloc b → Q b s')
    (hE : s.image.freeBlocks g = 0 → E (.panic .ballocOutOfBlocks) s) : Wp balloc Q E s := by
  refine wp_ballocLoop h (fun b hb => ?_) hQ fun hfull => hE ?_
  · obtain ⟨n, -, rfl⟩ := mem_map.mp hb
    exact Nat.mul_mod_left n BPB
  · by_contra hpos
    obtain ⟨b, hb, hfree⟩ := freeBlocks_pos (Nat.pos_of_ne_zero hpos)
    have hdec : b / BPB * BPB + b % BPB = b := by
      rw [Nat.mul_comm]
      exact Nat.div_add_mod b BPB
    have hmem : b / BPB < (g.size + (BPB - 1)) / BPB := by
      have := Nat.div_add_mod (g.size + (BPB - 1)) BPB
      have := Nat.mod_lt (g.size + (BPB - 1)) BPB_pos
      rw [Nat.div_lt_iff_lt_mul BPB_pos, Nat.mul_comm]
      omega
    have := hfull (b / BPB * BPB) (mem_map.mpr ⟨_, mem_range.mpr hmem, rfl⟩) (b % BPB)
      (Nat.mod_lt _ BPB_pos) (by omega)
    rw [hdec, hfree] at this
    exact Bool.false_ne_true this

/-- `bfree` of a block that is in use. -/
theorem wp_bfree (hb : b < g.size) (hbit : s.image.bm b = true)
    (hQ : ∀ s', Keep s s' → s'.image = s.image.free b → Q () s') : Wp (bfree b) Q E s := by
  have hmap : (s.blk (g.BBLOCK b)).bit (b % BPB) = true := by simpa [image, hb] using hbit
  have hmod : b % BPB < 8 * BSIZE := BPB_eq ▸ Nat.mod_lt b BPB_pos
  unfold bfree bread logWrite
  simp only [wp_bind, wp_get, wp_pure, hmap, Bool.true_eq_false, if_false,
    wp_modify]
  obtain ⟨hkeep, himage⟩ := image_logWrite_bitmap (s := s) (b := b)
    (x := (s.blk (g.BBLOCK b)).clearBit (b % BPB)) (v := false) hb fun m => by
      rw [Page.bit_clearBit _ hmod]
      by_cases hm : m = b % BPB <;> simp [hm]
  exact hQ _ hkeep himage

/-! ## Inodes in the cache and on disk -/

/-- The inode is in the cache. -/
def Loaded (s : BlockFs g) (i : ℕ) : Prop := i < g.ninodes ∧ (s.icache i).valid = true

theorem Loaded.copy_eq (h : s.Loaded i) : (s.icache i).copy = s.image.ino i := by
  simp [image, h.1, h.2]

theorem Loaded.step (h : s.Loaded i) (hstep : Step j s s') : s'.Loaded i := by
  refine ⟨h.1, ?_⟩
  by_cases hij : i = j
  · subst hij
    rw [hstep.valid, h.2]
  · rw [hstep.icache i hij, h.2]

/-- Assigning to the fields of a cached inode. -/
theorem wp_setIp (h : s.Loaded i) {d : Dinode}
    (hQ : ∀ s', Step i s s' → s'.image = s.image.setIno i d → s'.dinode = s.dinode → Q () s') :
    Wp (setIp i d) Q E s := by
  unfold setIp
  rw [wp_modify]
  refine hQ _ ⟨.of_blk rfl rfl, fun j hj => update_of_ne hj _ _, by simp, fun _ _ _ => rfl⟩ ?_ rfl
  unfold image setIno
  congr 1
  funext j
  by_cases hj : j = i
  · subst hj
    simp [h.1, h.2]
  · simp [update_of_ne hj]
    rfl

theorem wp_ip {Q : Dinode → BlockFs g → Prop} (h : s.Loaded i) (hQ : Q (s.image.ino i) s) : Wp (ip i) Q E s := by
  unfold ip
  rw [wp_bind, wp_get, wp_pure, h.copy_eq]
  exact hQ

theorem inodeOff_le : inodeOff i + 64 ≤ BSIZE := by
  have : i % IPB < IPB := Nat.mod_lt _ (by decide)
  simp only [inodeOff, IPB, BSIZE] at this ⊢
  omega

/-- Writing one inode of an inode block. -/
theorem dinode_write (hi : i < g.ninodes) (d : Dinode) {t : BlockFs g}
    (ht : t = { s with blk := update s.blk (g.IBLOCK i)
                         ((s.blk (g.IBLOCK i)).move (inodeOff i) d.bytes),
                       logged := s.logged ++ [g.IBLOCK i] }) :
    (∀ j, j ≠ i → t.dinode j = s.dinode j) ∧ (d.Fits → t.dinode i = d) ∧ t.icache = s.icache ∧
      t.image.dat = s.image.dat ∧ t.image.bm = s.image.bm := by
  subst ht
  refine ⟨fun j hj => ?_, fun hd => ?_, rfl, ?_, ?_⟩
  · unfold dinode
    simp only
    by_cases hblk : g.IBLOCK j = g.IBLOCK i
    · -- another inode of the same block
      rw [hblk, update_self]
      refine Dinode.read_move_of_disjoint _ _ ?_
      have hdiv : j / IPB = i / IPB := by simpa [Geometry.IBLOCK] using hblk
      have hmod : j % IPB ≠ i % IPB := fun hmod =>
        hj (by rw [← Nat.div_add_mod j IPB, ← Nat.div_add_mod i IPB, hdiv, hmod])
      unfold inodeOff
      omega
    · rw [update_of_ne hblk]
  · unfold dinode
    simp only [update_self]
    exact Dinode.read_move _ inodeOff_le hd
  · funext c
    have := IBLOCK_lt_datastart hi
    by_cases hc : g.datastart ≤ c
    · simp [image, hc, update_of_ne (show c ≠ g.IBLOCK i by omega)]
    · simp [image, hc]
  · funext c
    by_cases hc : c < g.size
    · simp [image, hc, update_of_ne (IBLOCK_ne_BBLOCK (b := c) hi).symm]
    · simp [image, hc]

/-- `iupdate` changes the disk copy of a cached inode and nothing that the image shows. -/
theorem wp_iupdate (h : s.Loaded i) (hd : (s.image.ino i).Fits)
    (hQ : ∀ s', Step i s s' → s'.image = s.image → s'.dinode i = s.image.ino i → Q () s') : Wp (iupdate i) Q E s := by
  unfold iupdate
  rw [wp_bind]
  refine wp_ip h ?_
  unfold bread logWrite
  simp only [wp_bind, wp_get, wp_pure, wp_modify]
  obtain ⟨hne, hself, hic, hdat, hbm⟩ := dinode_write h.1 (s.image.ino i) (s := s) rfl
  refine hQ _ ⟨logs_logWrite _ (IBLOCK_in h.1), fun _ _ => rfl, rfl, fun j hj _ => hne j hj⟩ ?_ (hself hd)
  refine Image.ext (ino_congr rfl fun j _ hv => hne j ?_) hdat hbm
  rintro rfl
  rw [h.2] at hv
  exact Bool.false_ne_true hv.symm

/-- `ilock`, once it has the lock, finds the inode in the cache or reads it; the image stays. -/
theorem wp_iload (hi : i < g.ninodes)
    (hQ : ∀ s', s'.Loaded i → s'.image = s.image → (∀ j, j ≠ i → s'.icache j = s.icache j) →
      s'.blk = s.blk → s'.logged = s.logged →
      ((s.icache i).valid = false → s'.image.ino i = s.dinode i ∧ (s.dinode i).type ≠ 0) → Q () s')
    (hE : (s.icache i).valid = false → (s.image.ino i).type = 0 → ∀ s', E (.panic .ilockNoType) s') :
    Wp (iload i) Q E s := by
  unfold iload
  rw [wp_bind, wp_get, wp_ite]
  split
  · rename_i hv
    exact hQ s ⟨hi, hv⟩ rfl (fun _ _ => rfl) rfl rfl fun hv' => by simp [hv] at hv'
  · rename_i hv
    unfold bread
    simp only [wp_bind, wp_get, wp_pure, wp_modify, wp_ite, wp_throw]
    have hino : s.image.ino i = s.dinode i := by simp [image, hi, hv]
    split
    · rename_i htype
      exact hE (by simpa using hv) (hino ▸ htype) _
    · rename_i htype
      refine hQ _ ⟨hi, by simp⟩ ?_ (fun j hj => update_of_ne hj _ _) rfl rfl fun _ => ⟨?_, htype⟩
      · refine Image.ext (funext fun j => ?_) rfl rfl
        by_cases hj : j = i
        · subst hj
          rw [hino]
          simp [image, hi]
          rfl
        · simp [image, update_of_ne hj]
          rfl
      · simp [image, hi]
        rfl

/-! ## `bmap` -/

/-- `ip->addrs[k] = addr = balloc()`. -/
theorem wp_allocAddr {Q : ℕ → BlockFs g → Prop} (hgood : s.image.Good g X) (h : s.Loaded i) {k : Fin (NDIRECT + 1)}
    (hQ : ∀ b s', b < g.size → s.image.bm b = false → Step i s s' →
      s'.image = (s.image.alloc b).setAddr i k b → Q b s')
    (hE : s.image.freeBlocks g = 0 → E (.panic .ballocOutOfBlocks) s) :
    Wp (allocAddr i k) Q E s := by
  unfold allocAddr
  rw [wp_bind]
  refine wp_balloc hgood (fun b s1 hb hfree hkeep himage => ?_) hE
  have h1 : s1.Loaded i := h.step (hkeep.step i)
  rw [wp_bind]
  refine wp_ip h1 ?_
  rw [wp_bind]
  refine wp_setIp h1 fun s2 hstep himage2 _ => ?_
  rw [wp_pure]
  refine hQ b s2 hb hfree ((hkeep.step i).trans hstep) ?_
  rw [himage2, himage]
  rfl

theorem slot_entry (hbn : NDIRECT ≤ bn) (hlt : bn - NDIRECT < NINDIRECT) (hne : (v.ino i).addrs INDIRECT ≠ 0) :
    v.addr i bn = (v.dat ((v.ino i).addrs INDIRECT)).word (4 * (bn - NDIRECT)) := by
  rw [addr, blockSlot, if_neg (by omega), slot_indirect (by omega), if_pos ⟨by omega, hne⟩,
    Nat.add_sub_add_right]

/-- The second half of `bmap` for a block behind the direct ones: the indirect block is there. -/
theorem wp_indirectEntry {Q : ℕ → BlockFs g → Prop} (hgood : s.image.Good g X)
    (hi : s.image.Alloc g i) (hbn : NDIRECT ≤ bn) (hlt : bn - NDIRECT < NINDIRECT)
    (hne : (s.image.ino i).addrs INDIRECT ≠ 0) (hmapped : s.image.addr i bn ≠ 0 → Q (s.image.addr i bn) s)
    (hQ : ∀ s' b, s.image.addr i bn = 0 → Step i s s' → s'.image.Good g X →
      Added g s.image s'.image i (blockSlot bn) b → Q (s'.image.addr i bn) s')
    (hE : s.image.addr i bn = 0 → s.image.freeBlocks g = 0 → E (.panic .ballocOutOfBlocks) s) :
    Wp (indirectEntry ((s.image.ino i).addrs INDIRECT) (bn - NDIRECT)) Q E s := by
  have hdata := hgood.data i NDIRECT hi (by rw [slot_INDIRECT]; exact hne)
  rw [slot_INDIRECT] at hdata
  have hdat : s.blk ((s.image.ino i).addrs INDIRECT) = s.image.dat ((s.image.ino i).addrs INDIRECT) := by
    generalize (s.image.ino i).addrs INDIRECT = a at hdata
    simp [image, hdata.1]
  have hentry := slot_entry (i := i) hbn hlt hne
  unfold indirectEntry bread
  simp only [wp_bind, wp_get, wp_pure, hdat]
  rw [← hentry, wp_ite]
  split
  · rename_i hzero
    rw [wp_bind]
    refine wp_balloc hgood (fun b s1 hb hfree hkeep himage => ?_) (hE hzero)
    unfold logWrite
    simp only [wp_bind, wp_modify, wp_pure]
    obtain ⟨hkeep2, himage2⟩ := image_logWrite_data (s := s1)
      (k := (s.image.ino i).addrs INDIRECT)
      (x := (s.image.dat ((s.image.ino i).addrs INDIRECT)).move (4 * (bn - NDIRECT)) (leBytes 4 b))
      hdata.1 hdata.2
    have hslot : blockSlot bn = NDIRECT + 1 + (bn - NDIRECT) := by
      rw [blockSlot, if_neg (by omega)]
      omega
    obtain ⟨hgood', hadded⟩ := added_entry hgood hb hfree hi hne hlt (by rw [← hslot]; exact hzero)
    rw [himage] at himage2
    rw [← himage2] at hgood' hadded
    rw [← hslot] at hadded
    have hres := hQ _ b hzero ((hkeep.trans hkeep2).step i) hgood' hadded
    have hb' : ∀ t : Image, Added g s.image t i (blockSlot bn) b → t.addr i bn = b := fun t ht => by
      rw [addr, ht.slot, if_pos rfl]
    rwa [hb' _ hadded] at hres
  · rename_i hne'
    exact hmapped hne'

/-- `bmap` finds the block, or gives the inode a fresh one; it panics only when there are too few free
blocks. -/
theorem wp_bmap {Q : ℕ → BlockFs g → Prop} (hgood : s.image.Good g X) (h : s.Loaded i)
    (hi : s.image.Alloc g i) (hbn : bn < MAXFILE) (hmapped : s.image.addr i bn ≠ 0 → Q (s.image.addr i bn) s)
    (hQ : ∀ s', s.image.addr i bn = 0 → Step i s s' → s'.image.Good g X →
      Grown g s.image s'.image i bn → Q (s'.image.addr i bn) s')
    (hE : s.image.freeBlocks g < s.image.bmapCost i bn → ∀ s', E (.panic .ballocOutOfBlocks) s') :
    Wp (bmap i bn) Q E s := by
  unfold bmap
  split
  · rename_i hlt
    have hslot : blockSlot bn = bn := if_pos hlt
    have haddr : s.image.addr i bn = (s.image.ino i).addrs ⟨bn, Nat.lt_succ_of_lt hlt⟩ := by
      rw [addr, hslot, slot_direct (Nat.lt_succ_of_lt hlt)]
    simp only
    rw [wp_bind]
    refine wp_ip h ?_
    rw [wp_ite]
    split
    · rename_i hzero
      have hm : (⟨bn, Nat.lt_succ_of_lt hlt⟩ : Fin (NDIRECT + 1)) ≠ INDIRECT := by
        intro heq
        have : bn = NDIRECT := congrArg Fin.val heq
        omega
      refine wp_allocAddr hgood h (fun b s' hb hfree hstep himage => ?_) fun hfull => hE ?_ s
      · obtain ⟨hgood', hadded⟩ := added_direct hgood hb hfree hi hm hzero
        rw [← himage] at hgood' hadded
        have hadded' : Added g s.image s'.image i (blockSlot bn) b := by
          rw [hslot]
          exact hadded
        have hres := hQ s' (haddr.trans hzero) hstep hgood' (hadded'.grown hgood hi fun hle => by omega)
        rwa [addr, hadded'.slot, if_pos rfl] at hres
      · rw [bmapCost, if_pos (haddr.trans hzero), hfull]
        omega
    · rename_i hne
      rw [wp_pure, ← haddr]
      exact hmapped (haddr ▸ hne)
  · rename_i hge
    have hle : NDIRECT ≤ bn := Nat.le_of_not_lt hge
    have hlt : bn - NDIRECT < NINDIRECT := by
      unfold MAXFILE at hbn
      omega
    rw [if_pos hlt, wp_bind]
    unfold indirectBlock
    rw [wp_bind]
    refine wp_ip h ?_
    rw [wp_ite]
    split
    · rename_i hzero
      have haddr : s.image.addr i bn = 0 := by
        rw [addr, blockSlot, if_neg hge, slot_indirect (by omega), if_neg fun hc => hc.2 hzero]
      refine wp_allocAddr hgood h (fun b s1 hb hfree hstep himage => ?_) fun hfull => hE ?_ s
      · obtain ⟨hgood1, hadded1⟩ := added_indirect hgood hb hfree hi hzero
        rw [← himage] at hgood1 hadded1
        have hi1 : s1.image.Alloc g i := hadded1.alloc_iff.mpr hi
        have hind : (s1.image.ino i).addrs INDIRECT = b := by
          rw [← slot_INDIRECT, hadded1.slot, if_pos rfl]
        have hne1 : (s1.image.ino i).addrs INDIRECT ≠ 0 := by
          rw [hind]
          exact hadded1.ne_zero
        have haddr1 : s1.image.addr i bn = 0 := by
          rw [addr, hadded1.slot, if_neg blockSlot_ne]
          exact haddr
        rw [← hind]
        refine wp_indirectEntry hgood1 hi1 hle hlt hne1 (fun hne => absurd haddr1 hne) ?_ ?_
        · intro s2 c _ hstep2 hgood2 hadded2
          exact hQ s2 haddr (hstep.trans hstep2) hgood2
            (hadded1.grown_indirect hadded2 hgood hgood1 hi hle)
        · intro _ hfull
          refine hE ?_ s1
          rw [bmapCost, if_pos haddr, if_pos ⟨hle, hzero⟩, ← hadded1.freeBlocks, hfull]
          omega
      · rw [bmapCost, if_pos haddr, hfull]
        omega
    · rename_i hne
      rw [wp_pure]
      refine wp_indirectEntry hgood hi hle hlt hne hmapped ?_ ?_
      · intro s' b hzero hstep hgood' hadded
        exact hQ s' hzero hstep hgood' (hadded.grown hgood hi fun _ => hne)
      · intro hzero hfull
        refine hE ?_ s
        rw [bmapCost, if_pos hzero, hfull]
        omega

/-! ## `itrunc` -/

theorem addrList_cons (k : ℕ) (ks : List ℕ) :
    v.addrList i (k :: ks) = if v.slot i k ≠ 0 then v.slot i k :: v.addrList i ks else v.addrList i ks := by
  unfold addrList
  rw [map_cons, filter_cons]
  simp

/-- The state of `itrunc` when the addresses numbered `ks` of the inode `d` are still to be freed: without
them the inode is the empty `d0`, and the image is good. -/
structure Truncating (s t : BlockFs g) (i : ℕ) (d0 : Dinode) (ks X : List ℕ) : Prop where
  step : Step i s t
  dat : t.image.dat = s.image.dat
  ino_ne : ∀ j, j ≠ i → t.image.ino j = s.image.ino j
  ino_eq : t.image.ino i = { s.image.ino i with addrs := (t.image.ino i).addrs }
  good : (t.image.setIno i d0).Good g (s.image.addrList i ks ++ X)

variable {t : BlockFs g} {d0 : Dinode} {k : ℕ} {ks : List ℕ}

/-- Freeing the next address. -/
theorem Truncating.wp_bfree (h : Truncating s t i d0 (k :: ks) X) (hk : s.image.slot i k ≠ 0)
    (hQ : ∀ t', Keep t t' → t'.image = t.image.free (s.image.slot i k) →
      Truncating s t' i d0 ks X → Q () t') :
    Wp (bfree (s.image.slot i k)) Q E t := by
  have hgood := h.good
  rw [addrList_cons, if_pos hk, cons_append] at hgood
  have hflight := hgood.flight _ mem_cons_self
  have hbit : t.image.bm (s.image.slot i k) = true := hgood.bm_flight mem_cons_self
  refine BlockFs.wp_bfree hflight.2.1 hbit fun t' hkeep himage => hQ t' hkeep himage ?_
  have hfree := hgood.free mem_cons_self
  rw [erase_cons_head] at hfree
  refine ⟨h.step.trans (hkeep.step i), ?_, ?_, ?_, ?_⟩
  · rw [himage]
    exact h.dat
  · rw [himage]
    exact h.ino_ne
  · rw [himage]
    exact h.ino_eq
  · rw [himage]
    exact hfree

/-- Clearing an address of the inode. -/
theorem Truncating.wp_setIp (h : Truncating s t i d0 ks X) (hl : s.Loaded i) {m : Fin (NDIRECT + 1)}
    (hQ : ∀ t', t'.image = t.image.setIno i ((t.image.ino i).setAddr m 0) →
      Truncating s t' i d0 ks X → Q () t') :
    Wp (setIp i ((t.image.ino i).setAddr m 0)) Q E t := by
  refine BlockFs.wp_setIp (hl.step h.step) fun t' hstep himage _ => hQ t' himage ?_
  refine ⟨h.step.trans hstep, ?_, fun j hj => ?_, ?_, ?_⟩
  · rw [himage]
    exact h.dat
  · rw [himage, setIno]
    simp only [update_of_ne hj]
    exact h.ino_ne j hj
  · rw [himage, setIno]
    simp only [update_self, Dinode.setAddr]
    rw [h.ino_eq]
  · rw [himage]
    have : (t.image.setIno i ((t.image.ino i).setAddr m 0)).setIno i d0 = t.image.setIno i d0 := by
      simp [setIno]
    rw [this]
    exact h.good

/-- An address that is zero needs no freeing. -/
theorem Truncating.skip (h : Truncating s t i d0 (k :: ks) X) (hk : s.image.slot i k = 0) :
    Truncating s t i d0 ks X := by
  have hgood := h.good
  rw [addrList_cons, if_neg (not_not.mpr hk)] at hgood
  exact ⟨h.step, h.dat, h.ino_ne, h.ino_eq, hgood⟩

/-- The empty inode that `itrunc` leaves. -/
def truncated (d : Dinode) : Dinode := { d with size := 0, addrs := fun _ => 0 }

/-- The address numbers behind the direct ones, in the order in which `itrunc` frees them. -/
def indirectOrder : List ℕ := (List.range NINDIRECT).map (NDIRECT + 1 + ·) ++ [NDIRECT]

/-- The first loop of `itrunc` frees the direct blocks. -/
theorem wp_freeDirect (hgood : s.image.Good g X) (h : s.Loaded i) (hi : s.image.Alloc g i)
    (hQ : ∀ t, Truncating s t i (truncated (s.image.ino i)) indirectOrder X →
      (∀ k : Fin NDIRECT, (t.image.ino i).addrs k.castSucc = 0) →
      (t.image.ino i).addrs INDIRECT = (s.image.ino i).addrs INDIRECT → Q () t) :
    Wp (freeDirect i) Q E s := by
  refine wp_mono (wp_forM (fun rest t =>
      Truncating s t i (truncated (s.image.ino i)) (rest.map Fin.val ++ indirectOrder) X ∧
      (∀ m, (t.image.ino i).addrs m = if ∃ k ∉ rest, m = k.castSucc then 0 else (s.image.ino i).addrs m) ∧
      rest.Nodup) ?_ ?_) ?_ (E := E) fun _ _ hE => hE
  · rintro k rest t ⟨ht, haddrs, hnodup⟩
    obtain ⟨hknot, hrest⟩ := nodup_cons.mp hnodup
    have hbk : (t.image.ino i).addrs k.castSucc = s.image.slot i k.val := by
      rw [haddrs, if_neg]
      · exact (slot_direct (Nat.lt_succ_of_lt k.isLt)).symm
      · rintro ⟨l, hl, hk⟩
        exact hl (Fin.castSucc_inj.mp hk ▸ mem_cons_self)
    -- the address is 0 afterwards, whether it was cleared or not
    have hnext : ∀ d : Dinode, (∀ m, d.addrs m = if m = k.castSucc then 0 else (t.image.ino i).addrs m) →
        ∀ m, d.addrs m = if ∃ k ∉ rest, m = k.castSucc then 0 else (s.image.ino i).addrs m := by
      intro d hd m
      rw [hd]
      split
      · rename_i hm
        rw [if_pos ⟨k, hknot, hm⟩]
      · rename_i hm
        have hiff : (∃ l ∉ k :: rest, m = l.castSucc) ↔ ∃ l ∉ rest, m = l.castSucc := by aesop
        simp only [haddrs, hiff]
    rw [wp_bind]
    refine wp_ip (h.step ht.step) ?_
    rw [wp_ite, hbk]
    rw [map_cons, cons_append] at ht
    split
    · rename_i hne
      rw [wp_bind]
      refine ht.wp_bfree hne fun t1 hkeep himage1 ht1 => ?_
      have hino : t1.image.ino = t.image.ino := by rw [himage1]; rfl
      rw [← hino]
      refine ht1.wp_setIp h fun t2 himage2 ht2 => ⟨ht2, hnext _ fun m => ?_, hrest⟩
      rw [himage2, setIno]
      simp only [update_self, Dinode.addrs_setAddr, hino]
    · rename_i hz
      rw [wp_pure]
      refine ⟨ht.skip (not_not.mp hz), hnext _ fun m => ?_, hrest⟩
      split
      · rename_i hm
        rw [hm, hbk, not_not.mp hz]
      · rfl
  · have hlist : (List.finRange NDIRECT).map Fin.val ++ indirectOrder = truncOrder := by
      have : (List.finRange NDIRECT).map Fin.val = List.range NDIRECT := by decide
      rw [this]
      rfl
    rw [hlist]
    refine ⟨⟨Step.refl i s, rfl, fun _ _ => rfl, rfl, hgood.clear hi rfl hi.2⟩, fun m => ?_, nodup_finRange _⟩
    rw [if_neg (by simp)]
  · rintro - t ⟨ht, haddrs, -⟩
    refine hQ t ht (fun k => ?_) ?_
    · rw [haddrs, if_pos ⟨k, not_mem_nil, rfl⟩]
    · rw [haddrs, if_neg]
      rintro ⟨k, -, hk⟩
      exact castSucc_ne_INDIRECT k hk.symm

/-- The second part of `itrunc` frees the blocks of the indirect block, then the block itself. -/
theorem wp_freeIndirect (h : s.Loaded i) (hgood : s.image.Good g X) (hi : s.image.Alloc g i)
    (ht : Truncating s t i d0 indirectOrder X) (hzero : ∀ k : Fin NDIRECT, (t.image.ino i).addrs k.castSucc = 0)
    (hind : (t.image.ino i).addrs INDIRECT = (s.image.ino i).addrs INDIRECT)
    (hQ : ∀ t', Truncating s t' i d0 [] X → (t'.image.ino i).addrs = (fun _ => 0) → Q () t') :
    Wp (freeIndirect i) Q E t := by
  have haddrs : ∀ d : Dinode, (∀ k : Fin NDIRECT, d.addrs k.castSucc = 0) → d.addrs INDIRECT = 0 →
      d.addrs = fun _ => 0 := fun d hd hl => funext fun m => Fin.lastCases hl hd m
  unfold freeIndirect
  rw [wp_bind]
  refine wp_ip (h.step ht.step) ?_
  rw [wp_ite]
  split
  · rename_i hne
    have hne' : (s.image.ino i).addrs INDIRECT ≠ 0 := hind ▸ hne
    -- the entries of the indirect block are the addresses behind the direct ones
    have hdata := hgood.data i NDIRECT hi (by rw [slot_INDIRECT]; exact hne')
    rw [slot_INDIRECT] at hdata
    have hword : ∀ j, j < NINDIRECT →
        (t.blk ((t.image.ino i).addrs INDIRECT)).word (4 * j) = s.image.slot i (NDIRECT + 1 + j) := by
      intro j hj
      have hdat : t.blk ((s.image.ino i).addrs INDIRECT) =
          s.image.dat ((s.image.ino i).addrs INDIRECT) := by
        rw [← ht.dat]
        generalize (s.image.ino i).addrs INDIRECT = a at hdata
        simp [image, hdata.1]
      rw [hind, hdat, slot_indirect (by omega), if_pos ⟨by omega, hne'⟩, Nat.add_sub_cancel_left]
    unfold bread
    simp only [wp_bind, wp_get, wp_pure]
    refine wp_mono (wp_forM (fun rest t' => Truncating s t' i d0
        (rest.map (NDIRECT + 1 + ·) ++ [NDIRECT]) X ∧ t'.image.ino = t.image.ino ∧
        ∀ j ∈ rest, j < NINDIRECT) ?_ ⟨ht, rfl, fun j hj => mem_range.mp hj⟩) ?_
        (E := E) fun _ _ hE => hE
    · rintro j rest t' ⟨ht', hino, hlt⟩
      rw [hword j (hlt j mem_cons_self), wp_ite]
      rw [map_cons, cons_append] at ht'
      have hlt' : ∀ m ∈ rest, m < NINDIRECT := fun m hm => hlt m (mem_cons_of_mem _ hm)
      split
      · rename_i hj
        refine ht'.wp_bfree hj fun t1 _ himage1 ht1 => ⟨ht1, ?_, hlt'⟩
        rw [himage1]
        exact hino
      · rename_i hj
        exact ⟨ht'.skip (not_not.mp hj), hino, hlt'⟩
    · rintro - t' ⟨ht', hino, -⟩
      rw [map_nil, nil_append] at ht'
      have hslot : (t.image.ino i).addrs INDIRECT = s.image.slot i NDIRECT := by
        rw [hind, slot_INDIRECT]
      rw [hslot]
      refine ht'.wp_bfree (by rw [slot_INDIRECT]; exact hne') fun t1 _ himage1 ht1 => ?_
      have hino1 : t1.image.ino = t.image.ino := by
        rw [himage1]
        exact hino
      rw [← hino1]
      refine ht1.wp_setIp h fun t2 himage2 ht2 => hQ t2 ht2 (haddrs _ (fun k => ?_) ?_)
      · rw [himage2, setIno]
        simp only [update_self, Dinode.addrs_setAddr]
        rw [if_neg (castSucc_ne_INDIRECT k), hino1, hzero]
      · rw [himage2, setIno]
        simp only [update_self, Dinode.addrs_setAddr, if_true]
  · rename_i hz
    have hz : (t.image.ino i).addrs INDIRECT = 0 := not_not.mp hz
    have hz' : (s.image.ino i).addrs INDIRECT = 0 := hind.symm.trans hz
    rw [wp_pure]
    -- without an indirect block none of the remaining addresses is set
    have hnone : ∀ ks : List ℕ, (∀ k ∈ ks, NDIRECT ≤ k) → s.image.addrList i ks = [] := by
      intro ks hks
      refine filter_eq_nil_iff.mpr fun a ha => ?_
      obtain ⟨k, hk, rfl⟩ := mem_map.mp ha
      have hslot : s.image.slot i k = 0 := by
        by_cases hkN : k = NDIRECT
        · rw [hkN, slot_INDIRECT, hz']
        · have := hks k hk
          rw [slot_indirect (by omega), if_neg fun hc => hc.2 hz']
      simp [hslot]
    have hgood' := ht.good
    rw [hnone indirectOrder (by
      intro k hk
      rcases mem_append.mp hk with hk | hk
      · obtain ⟨j, -, rfl⟩ := mem_map.mp hk
        omega
      · exact (mem_singleton.mp hk).ge)] at hgood'
    exact hQ t ⟨ht.step, ht.dat, ht.ino_ne, ht.ino_eq, hgood'⟩ (haddrs _ hzero hz)

/-- `itrunc` gives all blocks of an inode back and never meets a free one. -/
theorem wp_itrunc (hgood : s.image.Good g X) (h : s.Loaded i) (hi : s.image.Alloc g i)
    (hQ : ∀ s', Step i s s' → s'.image.dat = s.image.dat → (∀ j, j ≠ i → s'.image.ino j = s.image.ino j) →
      s'.image.ino i = truncated (s.image.ino i) → s'.dinode i = truncated (s.image.ino i) →
      s'.image.Good g X → Q () s') :
    Wp (itrunc i) Q E s := by
  unfold itrunc
  rw [wp_bind]
  refine wp_freeDirect hgood h hi fun t ht hzero hind => ?_
  rw [wp_bind]
  refine wp_freeIndirect h hgood hi ht hzero hind fun t ht haddrs => ?_
  rw [wp_bind]
  refine wp_ip (h.step ht.step) ?_
  rw [wp_bind]
  refine BlockFs.wp_setIp (h.step ht.step) fun t1 hstep1 himage1 _ => ?_
  have htrunc : ({ t.image.ino i with size := 0 } : Dinode) = truncated (s.image.ino i) := by
    rw [ht.ino_eq, truncated, haddrs]
  rw [htrunc] at himage1
  have hino : t1.image.ino i = truncated (s.image.ino i) := by simp [himage1, setIno]
  refine wp_iupdate ((h.step ht.step).step hstep1) ?_ fun t2 hstep2 himage2 hdinode => ?_
  · rw [hino]
    exact ⟨by norm_num [truncated], fun _ => by norm_num [truncated]⟩
  · refine hQ t2 ((ht.step.trans hstep1).trans hstep2) ?_ (fun j hj => ?_) ?_ ?_ ?_
    · rw [himage2, himage1]
      exact ht.dat
    · rw [himage2, himage1, setIno]
      simp only [update_of_ne hj]
      exact ht.ino_ne j hj
    · rw [himage2, hino]
    · rw [hdinode, hino]
    · rw [himage2, himage1]
      exact ht.good

end BlockFs

end Xv6
