import Xv6.Fs.ReadWrite

/-!
# `readi` and `writei` implement byte arrays

A run of reads and writes of the files of a consistent image returns what the same operations return on a
list of bytes for each inode (`byte_arrays`). The end of the module is a small consistent disk.
-/

namespace Xv6

open Function Code List

open Image

namespace BlockFs

variable {g : Geometry} {s : BlockFs g}

/-! ## Runs of reads and writes -/

/-- A read or a write of a locked inode. -/
inductive FileOp where
  | read (i off n : ℕ)
  | write (i off : ℕ) (src : List UInt8)

namespace FileOp

/-- The inode of the operation. -/
def inum : FileOp → ℕ
  | .read i _ _ => i
  | .write i _ _ => i

/-- The offset and the length are 32-bit numbers. -/
def Ok32 : FileOp → Prop
  | .read _ off n => off < 2 ^ 32 ∧ n < 2 ^ 32
  | .write _ off src => off < 2 ^ 32 ∧ src.length < 2 ^ 32

/-- What an operation does to byte arrays, and what it returns: the bytes or the number of bytes. -/
def onArrays (c : ℕ → List UInt8) : FileOp → (Option (List UInt8) ⊕ Option ℕ) × (ℕ → List UInt8)
  | .read i off n =>
    (.inl (if off > (c i).length ∨ 2 ^ 32 ≤ off + n then none else some (((c i).drop off).take n)), c)
  | .write i off src =>
    if off > (c i).length ∨ 2 ^ 32 ≤ off + src.length ∨ off + src.length > MAXFILE * BSIZE then
      (.inr none, c)
    else (.inr (some src.length), update c i (splice (c i) off src))

/-- The results of a sequence of operations on byte arrays. -/
def runArrays (c : ℕ → List UInt8) : List FileOp → List (Option (List UInt8) ⊕ Option ℕ)
  | [] => []
  | op :: ops => (op.onArrays c).1 :: runArrays (op.onArrays c).2 ops

/-- An operation of the code: the inode is loaded if necessary. -/
def exec : FileOp → Code Halt (BlockFs g) (Option (List UInt8) ⊕ Option ℕ)
  | .read i off n => do
    iload i
    let r ← readi i off n
    pure (.inl r)
  | .write i off src => do
    iload i
    let r ← writei i off src
    pure (.inr r)

/-- The results of a sequence of operations of the code. -/
def execAll : List FileOp → Code Halt (BlockFs g) (List (Option (List UInt8) ⊕ Option ℕ))
  | [] => pure []
  | op :: ops => do
    let r ← exec op
    let rs ← execAll ops
    pure (r :: rs)

end FileOp

/-- The byte arrays `c` are the contents of the files of the image. -/
def Arrays (g : Geometry) (v : Image) (c : ℕ → List UInt8) : Prop :=
  ∀ j, v.Alloc g j → HasContent (v.ino j) → v.content j = c j

variable {c : ℕ → List UInt8} {i : ℕ}

/-- One operation does to the image what it does to the byte arrays. -/
theorem FileOp.wp_exec {op : FileOp} (h : s.image.Consistent g)
    (hc : Arrays g s.image c) (hi : s.image.Alloc g op.inum) (hf : HasContent (s.image.ino op.inum)) (h32 : op.Ok32) :
    Wp op.exec (fun r s' => s'.image.Consistent g ∧ r = (op.onArrays c).1 ∧
        Arrays g s'.image (op.onArrays c).2 ∧ ∀ j, (s'.image.Alloc g j ↔ s.image.Alloc g j) ∧
          (HasContent (s'.image.ino j) ↔ HasContent (s.image.ino j)))
      (fun e _ => e = .panic .ballocOutOfBlocks) s := by
  cases op with
  | read i off n =>
    unfold FileOp.exec
    rw [wp_bind]
    refine wp_iload hi.1 (fun s1 hl himage _ _ _ _ => ?_) fun _ ht => absurd ht hi.2
    rw [← himage] at h hi hf hc
    rw [wp_bind]
    refine wp_readi h hl hi hf h32.1 h32.2 ?_
    rw [wp_pure]
    refine ⟨h, ?_, hc, fun j => by rw [himage]; exact ⟨Iff.rfl, Iff.rfl⟩⟩
    simp only [FileOp.onArrays, ← hc i hi hf, content_length]
  | write i off src =>
    unfold FileOp.exec
    rw [wp_bind]
    refine wp_iload hi.1 (fun s1 hl himage _ _ _ _ => ?_) fun _ ht => absurd ht hi.2
    rw [← himage] at h hi hf hc
    simp only [← himage]
    rw [wp_bind]
    simp only [FileOp.onArrays, ← hc i hi hf, content_length]
    refine wp_writei h hl hi hf h32.1 h32.2 (fun hbad => ?_) (fun s' hle hmax _ hw _ _ => ?_)
      fun _ _ _ _ => rfl
    · rw [wp_pure, if_pos hbad]
      exact ⟨h, rfl, hc, fun j => ⟨Iff.rfl, Iff.rfl⟩⟩
    · have hB := MAXFILE_lt
      have htype : ∀ j, (s'.image.ino j).type = (s1.image.ino j).type := fun j => by
        by_cases hj : j = i
        · subst hj
          rw [hw.ino_eq]
        · rw [hw.ino_ne j hj]
      have hcont : ∀ j, HasContent (s'.image.ino j) ↔ HasContent (s1.image.ino j) := fun j => by
        unfold HasContent
        rw [htype]
      rw [wp_pure, if_neg (by omega)]
      refine ⟨hw.consistent, rfl, fun j hj hcj => ?_, fun j => ⟨hw.alloc_iff, hcont j⟩⟩
      by_cases hji : j = i
      · subst hji
        show _ = update c j _ j
        rw [update_self, hw.content]
      · have hsame := hc j (hw.alloc_iff.mp hj) ((hcont j).mp hcj)
        show _ = update c i _ j
        rw [update_of_ne hji, hw.content_ne j hji (hw.alloc_iff.mp hj), hsame]

/-- A sequence of operations returns what it returns on the byte arrays. -/
theorem FileOp.wp_execAll {ops : List FileOp} (h : s.image.Consistent g) (hc : Arrays g s.image c)
    (hops : ∀ op ∈ ops, s.image.Alloc g op.inum ∧ HasContent (s.image.ino op.inum) ∧ op.Ok32) :
    Wp (FileOp.execAll ops) (fun rs s' => s'.image.Consistent g ∧ rs = FileOp.runArrays c ops)
      (fun e _ => e = .panic .ballocOutOfBlocks) s := by
  induction ops generalizing s c with
  | nil => exact ⟨h, rfl⟩
  | cons op ops ih =>
    obtain ⟨hi, hf, h32⟩ := hops op mem_cons_self
    unfold FileOp.execAll
    rw [wp_bind]
    refine wp_post (FileOp.wp_exec h hc hi hf h32) ?_
    rintro r s1 ⟨h1, rfl, hc1, hkeep⟩
    rw [wp_bind]
    refine wp_post (ih h1 hc1 fun op' hop' => ?_) ?_
    · obtain ⟨hi', hf', h32'⟩ := hops op' (mem_cons_of_mem _ hop')
      exact ⟨(hkeep _).1.mpr hi', (hkeep _).2.mpr hf', h32'⟩
    · rintro rs s2 ⟨h2, rfl⟩
      exact ⟨h2, rfl⟩

/-! ## A small disk -/

/-- A disk of ten blocks, five of them for data. -/
def tenBlocks : Geometry where
  size := 10
  ninodes := 8
  inodestart := 2
  bmapstart := 4
  datastart := 5
  inodes_lt := by decide
  bitmap_lt := by decide
  data_le := by decide
  size_le := by decide

/-- The root directory as `mkfs` makes it: one block, with the entries `.` and `..`. -/
def rootDinode : Dinode :=
  { Dinode.zero with type := T_DIR, nlink := 1, size := 32, addrs := fun k => if k.val = 0 then 5 else 0 }

/-- A file system with an empty root directory, which the kernel has just locked for the first time. -/
def emptyRoot : BlockFs tenBlocks where
  blk b :=
    if b = 2 then Page.move (fun _ => 0) (inodeOff ROOTINO) rootDinode.bytes
    else if b = 4 then fun k => if k.val = 0 then 63 else 0
    else if b = 5 then Page.move (Page.move (fun _ => 0) 0 [1, 0, 46]) 16 [1, 0, 46, 46]
    else fun _ => 0
  icache i := if i = ROOTINO then ⟨true, rootDinode⟩ else ⟨false, Dinode.zero⟩
  logged := []

theorem leVal_slice_zero (off n : ℕ) : leVal (Page.slice (fun _ => 0 : Block) off n) = 0 := by
  have hbyte : ∀ k, Page.byte (fun _ => 0 : Block) k = 0 := fun k => by simp [Page.byte]
  simp only [Page.slice, hbyte, map_const', length_range]
  induction n with
  | zero => rfl
  | succ n ih =>
    rw [replicate_succ, leVal, ih]
    rfl

/-- The inodes on the disk. -/
theorem emptyRoot_dinode (hi : i < 8) :
    emptyRoot.dinode i = if i = ROOTINO then rootDinode else Dinode.zero := by
  have hzero : ∀ off, Dinode.read (fun _ => 0) off = Dinode.zero := fun off => by
    simp [Dinode.read, Dinode.zero, Page.word, leVal_slice_zero]
  have hblock : tenBlocks.IBLOCK i = 2 := by
    simp only [Geometry.IBLOCK, tenBlocks, IPB, BSIZE]
    omega
  have hread : emptyRoot.dinode i =
      Dinode.read (Page.move (fun _ => 0) (inodeOff ROOTINO) rootDinode.bytes) (inodeOff i) := by
    unfold dinode
    rw [hblock]
    rfl
  rw [hread]
  split
  · rename_i hroot
    rw [hroot, Dinode.read_move _ (by decide) ⟨by decide, by decide⟩]
  · rename_i hroot
    rw [Dinode.read_move_of_disjoint, hzero]
    simp only [inodeOff, IPB, BSIZE, ROOTINO] at hroot ⊢
    omega

theorem emptyRoot_ino (i : ℕ) : emptyRoot.image.ino i = if i = ROOTINO then rootDinode else Dinode.zero := by
  by_cases hroot : i = ROOTINO
  · subst hroot
    rfl
  · have hino : emptyRoot.image.ino i = if i < 8 then emptyRoot.dinode i else Dinode.zero := by
      simp only [image, emptyRoot, if_neg hroot]
      rfl
    rw [hino]
    split
    · rename_i hi
      rw [emptyRoot_dinode hi, if_neg hroot]
    · rfl

theorem emptyRoot_alloc : emptyRoot.image.Alloc tenBlocks i ↔ i = ROOTINO := by
  unfold Alloc
  rw [emptyRoot_ino]
  split
  · rename_i hi
    simp +decide [hi]
  · rename_i hi
    simp [hi, Dinode.zero]

theorem emptyRoot_slot (k : ℕ) : emptyRoot.image.slot ROOTINO k = if k = 0 then 5 else 0 := by
  unfold slot
  rw [emptyRoot_ino, if_pos rfl]
  split
  · rfl
  · rename_i hk
    rw [if_neg (by simp +decide), if_neg (by omega)]

theorem emptyRoot_consistent : emptyRoot.image.Consistent tenBlocks where
  data := by
    intro i k hi
    rw [emptyRoot_alloc.mp hi, emptyRoot_slot]
    split <;> decide
  once := by
    intro i j k l hi hj
    rw [emptyRoot_alloc.mp hi, emptyRoot_alloc.mp hj, emptyRoot_slot, emptyRoot_slot]
    grind
  bitmap := by
    intro b hb
    have hheld : emptyRoot.image.Held tenBlocks b ↔ b = 0 ∨ b = 5 := by
      constructor
      · rintro ⟨i, k, hi, rfl⟩
        rw [emptyRoot_alloc.mp hi, emptyRoot_slot]
        split <;> simp
      · rintro (rfl | rfl)
        · exact ⟨ROOTINO, 1, emptyRoot_alloc.mpr rfl, by rw [emptyRoot_slot]; rfl⟩
        · exact ⟨ROOTINO, 0, emptyRoot_alloc.mpr rfl, by rw [emptyRoot_slot]; rfl⟩
    rw [hheld]
    have hall : ∀ b < 10, emptyRoot.image.bm b = true ↔ b < 5 ∨ b = 0 ∨ b = 5 := by decide
    exact hall b hb
  blocks := by
    intro i hi _ bn
    rw [emptyRoot_alloc.mp hi, emptyRoot_ino, addr, emptyRoot_slot]
    have hsize : blocksOf rootDinode.size = 1 := by decide
    rw [if_pos rfl, hsize]
    unfold blockSlot NDIRECT
    grind
  indirect := by
    intro i hi _
    rw [emptyRoot_alloc.mp hi, emptyRoot_ino]
    decide

end BlockFs

end Xv6
