import Xv6.Fs.SharedFile

/-!
# `filewrite` of a regular file (`file.c`)

`filewrite` splits what it is to write into chunks, each in a transaction of its own. It leaves the file as one `writei`
of all the bytes would, as long as the file does not become too big; otherwise the chunks that fit have been written
although the call fails.
-/

namespace Xv6

open List

namespace Filewrite

open BlockFs Image Code

variable {g : Geometry}

/-- The file system, and `f->off`. -/
structure State (g : Geometry) where
  fs : BlockFs g
  off : BitVec 32

abbrev FileCode (g : Geometry) (α : Type) : Type := Code Halt (State g) α

/-- Code of `fs.c`. -/
def onFs {α : Type} (x : Code Halt (BlockFs g) α) : FileCode g α := Code.zoom State.fs (fun fs s => { s with fs }) x

/-- A transaction: `writei` at the offset with the inode `ip` locked, and the new offset. -/
def writeAt (ip : ℕ) (addr : List UInt8) : FileCode g (Option ℕ) := do
  onFs (iload ip)
  let s ← get
  let r ← onFs (writei ip s.off.toNat addr)
  if r.getD 0 > 0 then modify fun s => { s with off := s.off + BitVec.ofNat 32 (r.getD 0) }
  pure r

/-- The loop of `filewrite`, with the bytes from `addr + i` on; whether `i = n` in the end. -/
def filewriteLoop (ip : ℕ) (addr : List UInt8) : FileCode g Bool :=
  if _h : addr = [] then pure true
  else do
    let n1 := min addr.length SharedFile.max
    match ← writeAt ip (addr.take n1) with
    | none => pure false
    | some r => if r ≠ n1 then throw (.panic .shortFilewrite) else filewriteLoop ip (addr.drop n1)
termination_by addr.length
decreasing_by
  have hpos := length_pos_of_ne_nil _h
  have hmax : 0 < SharedFile.max := by decide
  rw [length_drop]
  omega

/-- `filewrite` to a file that is open for writing and is no pipe. -/
def filewrite (ip : ℕ) (addr : List UInt8) : FileCode g ℤ := do
  let done ← filewriteLoop ip addr
  pure (if done then addr.length else -1)

/-! ## What is written -/

/-- The length of the longest prefix of `n` bytes at offset `off` that is made of whole chunks and fits. -/
def fitting (off n : ℕ) : ℕ :=
  if off + n ≤ MAXFILE * BSIZE then n else (MAXFILE * BSIZE - off) / SharedFile.max * SharedFile.max

variable {s s' s'' : State g} {ip : ℕ} {addr : List UInt8}

/-- The file is a regular one, it has no hole before the offset, and there are blocks for what is to be written. -/
structure Ready (s : State g) (ip n : ℕ) : Prop where
  consistent : s.fs.image.Consistent g
  alloc : s.fs.image.Alloc g ip
  type : (s.fs.image.ino ip).type = T_FILE
  off : s.off.toNat ≤ (s.fs.image.ino ip).size
  free : diskBlocks (blocksOf (max (s.fs.image.ino ip).size (s.off.toNat + fitting s.off.toNat n))) ≤
    s.fs.image.freeBlocks g + diskBlocks (blocksOf (s.fs.image.ino ip).size)

/-- The bytes have been written at the offset, and it has moved behind them. -/
structure Wrote (s : State g) (ip : ℕ) (addr : List UInt8) (s' : State g) : Prop where
  written : Written g s.fs.image s'.fs.image ip s.off.toNat addr
  off : s'.off.toNat = s.off.toNat + addr.length

variable {n off : ℕ}

section

variable (h : Ready s ip n)

include h

theorem Ready.hasContent : HasContent (s.fs.image.ino ip) := .inl h.type

theorem Ready.off_le : s.off.toNat ≤ MAXFILE * BSIZE :=
  h.off.trans (h.consistent.size_le h.alloc h.hasContent)

theorem Ready.off_le_length : s.off.toNat ≤ (s.fs.image.content ip).length := by
  rw [content_length]
  exact h.off

theorem Wrote.nil (hfs : s'.fs.image = s.fs.image) (hoff : s'.off = s.off) : Wrote s ip [] s' := by
  refine ⟨⟨hfs ▸ h.consistent, fun j _ => by rw [hfs], ?_, ?_, fun j _ _ => by rw [hfs]⟩, by rw [hoff]; rfl⟩
  · rw [hfs, length_nil, Nat.add_zero, max_eq_left h.off]
  · rw [hfs]
    simp [splice]

theorem Wrote.trans {a b : List UInt8} (h1 : Wrote s ip a s') (h2 : Wrote s' ip b s'') :
    Wrote s ip (a ++ b) s'' := by
  have hoff := h1.off
  have hw := h2.written
  rw [hoff] at hw
  refine ⟨⟨hw.consistent, fun j hj => ?_, ?_, ?_, fun j hj ha => ?_⟩, ?_⟩
  · rw [hw.ino_ne j hj, h1.written.ino_ne j hj]
  · rw [hw.ino_eq, h1.written.ino_eq, length_append, max_assoc, ← Nat.add_assoc,
      max_eq_right (Nat.le_add_right (s.off.toNat + a.length) b.length)]
  · rw [hw.content, h1.written.content, splice_splice h.off_le_length]
  · rw [hw.content_ne j hj (h1.written.alloc_iff.mpr ha), h1.written.content_ne j hj ha]
  · rw [h2.off, hoff, length_append, Nat.add_assoc]

end

/-! ## A transaction -/

/-- `writei` of some bytes at the offset. -/
theorem wp_writeAt {Q : Option ℕ → State g → Prop} {E : Halt → State g → Prop} (hc : s.fs.image.Consistent g)
    (hi : s.fs.image.Alloc g ip) (htype : (s.fs.image.ino ip).type = T_FILE)
    (hoff : s.off.toNat ≤ (s.fs.image.ino ip).size) (hn : addr.length < 2 ^ 31)
    (hfree : s.off.toNat + addr.length ≤ MAXFILE * BSIZE →
      diskBlocks (blocksOf (max (s.fs.image.ino ip).size (s.off.toNat + addr.length))) ≤
        s.fs.image.freeBlocks g + diskBlocks (blocksOf (s.fs.image.ino ip).size))
    (hbad : ∀ s', MAXFILE * BSIZE < s.off.toNat + addr.length → s'.fs.image = s.fs.image → s'.off = s.off → Q none s')
    (hok : ∀ s', s.off.toNat + addr.length ≤ MAXFILE * BSIZE → Wrote s ip addr s' →
      s.fs.image.freeBlocks g + diskBlocks (blocksOf (s.fs.image.ino ip).size) =
        s'.fs.image.freeBlocks g + diskBlocks (blocksOf (s'.fs.image.ino ip).size) → Q (some addr.length) s') :
    Wp (writeAt ip addr) Q E s := by
  have hB : MAXFILE * BSIZE < 2 ^ 31 := by norm_num [MAXFILE, NDIRECT, NINDIRECT, BSIZE]
  have hsize := hc.size_le hi (.inl htype)
  unfold writeAt onFs
  rw [wp_bind, wp_zoom]
  refine wp_iload hi.1 (fun fs hl himage _ _ _ _ => ?_) fun _ ht => absurd ht hi.2
  rw [wp_bind, wp_get, wp_bind, wp_zoom]
  rw [← himage] at hc hi htype hoff hfree hsize
  refine wp_writei hc hl hi (.inl htype) s.off.isLt (by omega) (fun hb => ?_) (fun fs' hle hfit hstep hw hcount _ => ?_)
    fun hle hfit hlt => absurd (hfree hfit) (Nat.not_le_of_lt hlt)
  · dsimp only at hb
    rw [Option.getD_none, if_neg (Nat.lt_irrefl 0)]
    exact hbad ⟨fs, s.off⟩ (by omega) himage rfl
  · rw [himage] at hw hcount
    rw [Option.getD_some]
    by_cases hpos : addr.length > 0
    · rw [if_pos hpos]
      refine hok ⟨fs', s.off + BitVec.ofNat 32 addr.length⟩ hfit ⟨hw, ?_⟩ hcount
      rw [BitVec.toNat_add, BitVec.toNat_ofNat, Nat.mod_eq_of_lt (by omega : addr.length < 2 ^ 32), Nat.mod_eq_of_lt (by omega)]
    · rw [if_neg hpos]
      refine hok ⟨fs', s.off⟩ hfit ⟨hw, ?_⟩ hcount
      show s.off.toNat = s.off.toNat + addr.length
      omega

/-! ## The loop -/

theorem max_pos : 0 < SharedFile.max := by decide

theorem fitting_of_le (h : off + n ≤ MAXFILE * BSIZE) : fitting off n = n := if_pos h

/-- A chunk that does not fit: nothing more is written. -/
theorem fitting_eq_zero (hoff : off ≤ MAXFILE * BSIZE) (h : MAXFILE * BSIZE < off + min n SharedFile.max) :
    fitting off n = 0 := by
  rw [fitting, if_neg (by omega), Nat.div_eq_of_lt (by omega), Nat.zero_mul]

/-- A chunk that fits, and what is written after it. -/
theorem fitting_chunk (h : off + min n SharedFile.max ≤ MAXFILE * BSIZE) :
    fitting off n = min n SharedFile.max + fitting (off + min n SharedFile.max) (n - min n SharedFile.max) := by
  unfold fitting
  by_cases hall : off + n ≤ MAXFILE * BSIZE
  · rw [if_pos hall, if_pos (by omega)]
    omega
  · have hbig : min n SharedFile.max = SharedFile.max := by omega
    rw [if_neg hall, if_neg (by omega), hbig] at *
    have hsub : MAXFILE * BSIZE - off = MAXFILE * BSIZE - (off + SharedFile.max) + SharedFile.max := by omega
    rw [hsub, Nat.add_div_right _ max_pos, Nat.succ_mul, Nat.add_comm]

/-- After a chunk the rest can be written. -/
theorem Wrote.ready {a b : List UInt8} (h : Ready s ip (a ++ b).length)
    (hfit : fitting s.off.toNat (a ++ b).length = a.length + fitting (s.off.toNat + a.length) b.length)
    (hw : Wrote s ip a s') (hcount : s.fs.image.freeBlocks g + diskBlocks (blocksOf (s.fs.image.ino ip).size) =
      s'.fs.image.freeBlocks g + diskBlocks (blocksOf (s'.fs.image.ino ip).size)) : Ready s' ip b.length := by
  have hsize : (s'.fs.image.ino ip).size = max (s.fs.image.ino ip).size (s.off.toNat + a.length) := by
    rw [hw.written.ino_eq]
  refine ⟨hw.written.consistent, hw.written.alloc_iff.mpr h.alloc, ?_, ?_, ?_⟩
  · rw [hw.written.ino_eq]
    exact h.type
  · rw [hw.off, hsize]
    exact le_max_right ..
  · have hfree := h.free
    rw [← hcount, hsize, hw.off, max_assoc]
    rw [hfit, ← Nat.add_assoc] at hfree
    rwa [max_eq_right (Nat.le_add_right ..)]

theorem wp_filewriteLoop (k : ℕ) : ∀ {s : State g} {addr : List UInt8}, addr.length ≤ k → addr.length < 2 ^ 31 →
    Ready s ip addr.length →
    Wp (filewriteLoop ip addr) (fun done s' => (done = true ↔ s.off.toNat + addr.length ≤ MAXFILE * BSIZE) ∧
      Wrote s ip (addr.take (fitting s.off.toNat addr.length)) s') (fun _ _ => False) s := by
  induction k with
  | zero =>
    intro s addr hk _ h
    obtain rfl : addr = [] := length_eq_zero_iff.mp (Nat.le_zero.mp hk)
    unfold filewriteLoop
    rw [dif_pos rfl, take_nil]
    exact ⟨⟨fun _ => h.off_le, fun _ => rfl⟩, .nil h rfl rfl⟩
  | succ k ih =>
    intro s addr hk hn h
    unfold filewriteLoop
    by_cases hnil : addr = []
    · subst hnil
      rw [dif_pos rfl, take_nil]
      exact ⟨⟨fun _ => h.off_le, fun _ => rfl⟩, .nil h rfl rfl⟩
    · have hpos := length_pos_of_ne_nil hnil
      have hmax := max_pos
      set n1 := min addr.length SharedFile.max with hn1
      have htake : (addr.take n1).length = n1 := length_take_of_le (Nat.min_le_left ..)
      rw [dif_neg hnil, wp_bind]
      refine wp_writeAt h.consistent h.alloc h.type h.off (by omega) (fun hfit => ?_) (fun s' hbad hfs hoff => ?_)
        fun s' hfit hw hcount => ?_
      · rw [htake] at hfit ⊢
        refine (diskBlocks_mono ?_).trans h.free
        have hle := fitting_chunk hfit
        exact Nat.div_le_div_right (by omega)
      · -- the chunk does not fit
        rw [htake] at hbad
        rw [fitting_eq_zero h.off_le hbad, take_zero]
        exact ⟨⟨fun hf => absurd hf Bool.false_ne_true, fun hle => by omega⟩, .nil h hfs hoff⟩
      · dsimp only
        rw [htake] at hfit ⊢
        rw [if_neg (not_not.mpr rfl)]
        have hsplit : addr.take n1 ++ addr.drop n1 = addr := take_append_drop ..
        have hdrop : (addr.drop n1).length = addr.length - n1 := length_drop
        have hfitting := fitting_chunk hfit
        have hready : Ready s' ip (addr.drop n1).length := by
          refine hw.ready (by rw [hsplit]; exact h) ?_ hcount
          rw [hsplit, htake, hdrop]
          exact hfitting
        refine wp_post (ih (by omega) (by omega) hready) (fun done s'' hpost => ?_)
        obtain ⟨hdone, hrest⟩ := hpost
        rw [hw.off, htake, hdrop] at hdone hrest
        refine ⟨hdone.trans ⟨fun hle => by omega, fun hle => by omega⟩, ?_⟩
        have hjoin := Wrote.trans h hw hrest
        rw [hfitting]
        rwa [← take_add] at hjoin

/-- The bytes decide what the file becomes. -/
theorem Wrote.same {s1 s2 : State g} (h1 : Wrote s ip addr s1) (h2 : Wrote s ip addr s2) : s1.off = s2.off ∧
    ∀ j, s.fs.image.Alloc g j → s1.fs.image.content j = s2.fs.image.content j ∧
      (s1.fs.image.ino j).size = (s2.fs.image.ino j).size := by
  refine ⟨BitVec.eq_of_toNat_eq (by rw [h1.off, h2.off]), fun j hj => ?_⟩
  by_cases hji : j = ip
  · subst hji
    refine ⟨by rw [h1.written.content, h2.written.content], ?_⟩
    rw [h1.written.ino_eq, h2.written.ino_eq]
  · refine ⟨by rw [h1.written.content_ne j hji hj, h2.written.content_ne j hji hj], ?_⟩
    rw [h1.written.ino_ne j hji, h2.written.ino_ne j hji]

theorem wp_filewrite (h : Ready s ip addr.length) (hn : addr.length < 2 ^ 31) : Wp (filewrite ip addr) (fun r s' =>
      r = (if s.off.toNat + addr.length ≤ MAXFILE * BSIZE then (addr.length : ℤ) else -1) ∧
        Wrote s ip (addr.take (fitting s.off.toNat addr.length)) s') (fun _ _ => False) s := by
  unfold filewrite
  rw [wp_bind]
  refine wp_post (wp_filewriteLoop _ le_rfl hn h) (fun done s' hpost => ?_)
  obtain ⟨hdone, hw⟩ := hpost
  refine ⟨?_, hw⟩
  by_cases hfit : s.off.toNat + addr.length ≤ MAXFILE * BSIZE
  · rw [if_pos hfit, if_pos (hdone.mpr hfit)]
  · rw [if_neg hfit, if_neg fun hd => hfit (hdone.mp hd)]

/-- `filewrite`, run alone on a regular file with enough free blocks, returns `n` exactly when the file does not become
too big, and then leaves contents, sizes and the offset as a single `writei` of all the bytes does. Otherwise it returns
-1 and has written the longest prefix of whole chunks that fits. It ends and does not panic. -/
theorem filewrite_eq_writei (h : Ready s ip addr.length) (hn : addr.length < 2 ^ 31) :
    ∃ r s', (filewrite ip addr).run s = .ok r s' ∧
      (r = addr.length ↔ s.off.toNat + addr.length ≤ MAXFILE * BSIZE) ∧
      (s.off.toNat + addr.length ≤ MAXFILE * BSIZE → ∃ s1, (writeAt ip addr).run s = .ok (some addr.length) s1 ∧
        s'.off = s1.off ∧ ∀ j, s.fs.image.Alloc g j → s'.fs.image.content j = s1.fs.image.content j ∧
          (s'.fs.image.ino j).size = (s1.fs.image.ino j).size) ∧
      (MAXFILE * BSIZE < s.off.toNat + addr.length → r = -1 ∧
        Wrote s ip (addr.take ((MAXFILE * BSIZE - s.off.toNat) / SharedFile.max * SharedFile.max)) s') := by
  obtain ⟨r, s', hrun, hr, hw⟩ := wp_returns (wp_filewrite h hn)
  refine ⟨r, s', hrun, ?_, fun hfit => ?_, fun hbig => ?_⟩
  · by_cases hfit : s.off.toNat + addr.length ≤ MAXFILE * BSIZE
    · rw [hr, if_pos hfit]
      exact ⟨fun _ => hfit, fun _ => rfl⟩
    · rw [hr, if_neg hfit]
      exact ⟨fun heq => absurd heq (by omega), fun hle => absurd hle hfit⟩
  · rw [fitting_of_le hfit, take_length] at hw
    have hfree := h.free
    rw [fitting_of_le hfit] at hfree
    have hsingle : Wp (writeAt ip addr) (fun r s1 => r = some addr.length ∧ Wrote s ip addr s1) (fun _ _ => False) s :=
      wp_writeAt h.consistent h.alloc h.type h.off hn (fun _ => hfree) (fun s1 hbad _ _ => by omega)
        fun s1 _ hw1 _ => ⟨rfl, hw1⟩
    obtain ⟨_, s1, hrun1, rfl, hw1⟩ := wp_returns hsingle
    exact ⟨s1, hrun1, hw.same hw1⟩
  · rw [if_neg (Nat.not_le_of_lt hbig)] at hr
    rw [fitting, if_neg (Nat.not_le_of_lt hbig)] at hw
    exact ⟨hr, hw⟩

/-- A file that has just been created, open for writing. -/
def newlyOpen : State tenBlocks := ⟨SharedFile.newFile, 0⟩

theorem newFile_freeBlocks : 4 ≤ SharedFile.newFile.image.freeBlocks tenBlocks := by
  have hsub : ({6, 7, 8, 9} : Finset ℕ) ⊆
      (Finset.range tenBlocks.size).filter fun b => SharedFile.newFile.image.bm b = false := by decide
  exact Finset.card_le_card hsub

theorem newlyOpen_ready (hn : n ≤ 2048) : Ready newlyOpen 2 n := by
  have hsize : (SharedFile.newFile.image.ino 2).size = 0 := by rw [SharedFile.newFile_ino]; rfl
  have hfree := newFile_freeBlocks
  have hmaxfile : 2048 ≤ MAXFILE * BSIZE := by decide
  have hfit : fitting 0 n = n := fitting_of_le (by omega)
  refine ⟨SharedFile.newFile_consistent, SharedFile.newFile_alloc.mpr (.inl rfl), ?_, Nat.zero_le _, ?_⟩
  · rw [show newlyOpen.fs = SharedFile.newFile from rfl, SharedFile.newFile_ino]
    rfl
  · rw [show newlyOpen.fs = SharedFile.newFile from rfl, hsize, show newlyOpen.off.toNat = 0 from rfl, hfit]
    have hblocks : blocksOf (max 0 (0 + n)) ≤ 4 := by
      simp only [blocksOf, BSIZE]
      omega
    refine (diskBlocks_mono hblocks).trans ?_
    exact Nat.le_add_right_of_le hfree

/-- Two chunks. -/
theorem filewrite_eq_writei_newlyOpen : Ready newlyOpen 2 1600 ∧
    ∃ s' s1, (filewrite 2 (List.replicate 1600 97)).run newlyOpen = .ok 1600 s' ∧
      (writeAt 2 (List.replicate 1600 97)).run newlyOpen = .ok (some 1600) s1 ∧ s'.off = s1.off := by
  have hlen : (List.replicate 1600 (97 : UInt8)).length = 1600 := length_replicate
  have hready := newlyOpen_ready (n := 1600) (by decide)
  have hfit : newlyOpen.off.toNat + 1600 ≤ MAXFILE * BSIZE := by decide
  have hready' : Ready newlyOpen 2 (List.replicate 1600 (97 : UInt8)).length := hlen.symm ▸ hready
  obtain ⟨r, s', hrun, hr, hsame, -⟩ := filewrite_eq_writei hready' (by rw [hlen]; decide)
  rw [hlen] at hr hsame
  obtain ⟨s1, hrun1, hoff, -⟩ := hsame hfit
  obtain rfl := hr.mpr hfit
  exact ⟨hready, s', s1, hrun, hrun1, hoff⟩

end Filewrite

end Xv6
