import Mathlib.Algebra.BigOperators.Group.Finset.Basic
import Mathlib.Algebra.Order.BigOperators.Group.Finset
import Mathlib.Data.List.Induction
import Xv6.Fs.Refine
import Xv6.Mkfs.Write

/-!
# Making a file system (`mkfs.c`)

The contents of all inodes after every call of `ialloc` and `iappend` (`Holds`), and from them what `main`
leaves behind when it gets to `exit(0)` (`Made`). The image is well-formed unless there are more arguments
than inodes or the root directory fills its blocks to the last byte.
-/

namespace Xv6

open Function Code List

namespace Mkfs

open Image

variable {s s' : Mkfs} {i j m off fbn b : ℕ} {din : Dinode} {p : List UInt8}
  {E : Exit → Mkfs → Prop}

/-! ## The contents of the inodes -/

/-- The number of data blocks of inodes with the contents `c`. -/
def used (n : ℕ) (c : ℕ → List UInt8) : ℕ :=
  ∑ j ∈ Finset.range n, diskBlocks (Image.blocksOf (c j).length)

/-- The inodes below `n`, the root directory first, have the contents `c`. -/
structure Holds (s : Mkfs) (n : ℕ) (c : ℕ → List UInt8) : Prop where
  sane : s.Sane
  freeinode : s.freeinode = n
  consistent : s.image.Consistent disk
  type : ∀ j, j < NINODES →
    (s.image.ino j).type = if j = 0 ∨ n ≤ j then 0 else if j = ROOTINO then T_DIR else T_FILE
  nlink : ∀ j, 0 < j → j < n → (s.image.ino j).nlink = 1
  content : ∀ j, 0 < j → j < n → s.image.content j = c j
  tail : ∀ j q, 0 < j → j < n → (c j).length ≤ q → s.image.byteAt j q = 0
  empty : ∀ j, j = 0 ∨ n ≤ j → c j = []
  room : s.image.freeBlocks disk + nmeta + used n c = FSSIZE

variable {n : ℕ} {c c' : ℕ → List UInt8}

theorem Holds.alloc_iff (h : s.Holds n c) (hn : n ≤ NINODES) : s.image.Alloc disk j ↔ 0 < j ∧ j < n := by
  have htype : (if j = ROOTINO then T_DIR else T_FILE) ≠ 0 := by
    split <;> decide
  constructor
  · rintro ⟨hlt, hne⟩
    rw [h.type j hlt] at hne
    by_contra hcon
    exact hne (if_pos (by omega))
  · rintro ⟨hpos, hlt⟩
    have hj : j < NINODES := Nat.lt_of_lt_of_le hlt hn
    refine ⟨hj, ?_⟩
    rw [h.type j hj, if_neg (by omega)]
    exact htype

theorem Holds.hasContent (h : s.Holds n c) (hn : n ≤ NINODES) (hi : s.image.Alloc disk i) :
    HasContent (s.image.ino i) := by
  obtain ⟨hpos, hlt⟩ := (h.alloc_iff hn).mp hi
  unfold HasContent
  rw [h.type i hi.1, if_neg (by omega)]
  split
  · exact .inr rfl
  · exact .inl rfl

theorem Holds.size (h : s.Holds n c) (hpos : 0 < i) (hlt : i < n) : (s.image.ino i).size = (c i).length := by
  rw [← h.content i hpos hlt, content_length]

variable {v : Image} {d : Dinode} {q : ℕ}

theorem byteAt_setIno_ne (h : j ≠ i) : (v.setIno i d).byteAt j q = v.byteAt j q := by
  unfold byteAt addr
  rw [slot_setIno_ne h]
  rfl

theorem content_setIno_ne (h : j ≠ i) : (v.setIno i d).content j = v.content j := by
  have hino : (v.setIno i d).ino j = v.ino j := by simp [setIno, h]
  unfold Image.content
  rw [hino]
  exact map_congr_left fun q _ => byteAt_setIno_ne h

/-- The bytes of an inode depend on its block addresses. -/
theorem byteAt_setIno (h : d.addrs = (v.ino i).addrs) :
    (v.setIno i d).byteAt j q = v.byteAt j q := by
  have hslot : ∀ k, (v.setIno i d).slot j k = v.slot j k := fun k => by
    by_cases hj : j = i
    · subst hj
      exact slot_congr (by simp [setIno, h]) fun _ => rfl
    · exact slot_setIno_ne hj
  unfold byteAt addr
  rw [hslot]
  rfl

/-- `ialloc` makes an empty inode. -/
theorem wp_ialloc {Q : ℕ → Mkfs → Prop} {type : BitVec 16} (h : s.Holds n c) (hpos : 0 < n)
    (hn : n < NINODES) (htype : type = if n = ROOTINO then T_DIR else T_FILE)
    (hQ : ∀ s', s'.Holds (n + 1) c → Q n s') : Wp (ialloc type) Q E s := by
  have hfree : ¬ s.image.Alloc disk n := fun hc => by
    have := (h.alloc_iff (Nat.le_of_lt hn)).mp hc
    omega
  have hsane : Sane { s with freeinode := s.freeinode + 1 } :=
    ⟨h.sane.len, h.sane.first, h.sane.last, h.sane.zero, h.sane.super, h.sane.area⟩
  unfold ialloc
  rw [wp_bind, wp_get, wp_bind, wp_set, wp_bind, h.freeinode]
  have hfits : Dinode.Fits { Dinode.zero with type, nlink := 1 } :=
    ⟨by simp [Dinode.zero], fun k => by simp [Dinode.zero]⟩
  refine wp_winode (h.freeinode ▸ hsane) hn hfits fun s' hsane' hino' himage' => ?_
  rw [wp_pure]
  replace himage' : s'.image = s.image.setIno n { Dinode.zero with type, nlink := 1 } := himage'
  have hself : s'.image.ino n = { Dinode.zero with type, nlink := 1 } := by simp [himage', setIno]
  have hne : ∀ j, j ≠ n → s'.image.ino j = s.image.ino j := fun j hj => by simp [himage', setIno, hj]
  refine hQ s' ⟨hsane', hino', ?_, fun j hj => ?_, fun j hj hlt => ?_, fun j hj hlt => ?_,
    fun j q hj hlt hq => ?_, fun j hj => h.empty j (by omega), ?_⟩
  · rw [himage']
    exact BlockFs.consistent_setIno_empty h.consistent.good
      (fun j _ hj hc => h.consistent.mapped hj hc) (fun hc => absurd hc hfree) rfl rfl
  · by_cases hjn : j = n
    · subst hjn
      rw [hself, if_neg (by omega)]
      exact htype
    · rw [hne j hjn, h.type j hj]
      simp only [show (j = 0 ∨ n + 1 ≤ j) ↔ (j = 0 ∨ n ≤ j) by omega]
  · by_cases hjn : j = n
    · subst hjn
      rw [hself]
    · rw [hne j hjn, h.nlink j hj (by omega)]
  · by_cases hjn : j = n
    · subst hjn
      rw [h.empty j (.inr (Nat.le_refl j)), Image.content, hself]
      rfl
    · rw [himage', content_setIno_ne hjn, h.content j hj (by omega)]
  · by_cases hjn : j = n
    · subst hjn
      exact if_pos (slot_of_addrs_zero (by rw [hself]; rfl))
    · rw [himage', byteAt_setIno_ne hjn, h.tail j q hj (by omega) hq]
  · have hused : used (n + 1) c = used n c := by
      unfold used
      rw [Finset.sum_range_succ, h.empty n (.inr (Nat.le_refl n))]
      rfl
    rw [hused, ← h.room, himage']
    rfl

/-- Giving one inode other contents. -/
theorem used_update (hi : i < n) (x : List UInt8) : used n (update c i x) + diskBlocks (Image.blocksOf (c i).length) =
      used n c + diskBlocks (Image.blocksOf x.length) := by
  have hmem : i ∈ Finset.range n := Finset.mem_range.mpr hi
  unfold used
  rw [← Finset.sum_erase_add _ _ hmem, ← Finset.sum_erase_add (Finset.range n) _ hmem,
    update_self]
  have hrest : ∑ j ∈ (Finset.range n).erase i, diskBlocks (Image.blocksOf (update c i x j).length) =
      ∑ j ∈ (Finset.range n).erase i, diskBlocks (Image.blocksOf (c j).length) :=
    Finset.sum_congr rfl fun j hj => by rw [update_of_ne (Finset.ne_of_mem_erase hj)]
  rw [hrest]
  omega

theorem blocksOf_mono {a b : ℕ} (h : a ≤ b) : Image.blocksOf a ≤ Image.blocksOf b :=
  Nat.div_le_div_right (by omega)

theorem splice_end (l p : List UInt8) : splice l l.length p = l ++ p := by
  simp [splice]

variable {Q : Unit → Mkfs → Prop}

/-- `iappend` appends. It stops when the file gets too big or there are too few blocks. -/
theorem wp_iappend (h : s.Holds n c) (hn : n ≤ NINODES) (hpos : 0 < i)
    (hlt : i < n) (hQ : ∀ s', s'.Holds n (update c i (c i ++ p)) → Q () s')
    (hE : MAXFILE * BSIZE < (c i ++ p).length ∨ FSSIZE < nmeta + used n (update c i (c i ++ p)) →
      ∀ e s', E e s') : Wp (iappend i p) Q E s := by
  have hi := (h.alloc_iff hn).mpr ⟨hpos, hlt⟩
  have hc := h.hasContent hn hi
  have hsize := h.size hpos hlt
  have hview : s.view i (s.image.ino i) = s.image := by simp [view, setIno]
  have hmax : max (Image.blocksOf (s.image.ino i).size) (Image.blocksOf ((s.image.ino i).size + p.length)) =
      Image.blocksOf ((s.image.ino i).size + p.length) :=
    Nat.max_eq_right (blocksOf_mono (Nat.le_add_right _ _))
  have hused := used_update (c := c) hlt (c i ++ p)
  rw [length_append, ← hsize] at hused
  rw [length_append, ← hsize] at hE
  unfold iappend
  rw [wp_bind]
  refine wp_rinode h.sane hi.1 ?_
  rw [wp_bind]
  refine wp_iappendLoop (m := Image.blocksOf (s.image.ino i).size) h.sane
    (by rw [hview]; exact h.consistent.good) (by rw [hview]; exact hi)
    (by rw [hview]; exact h.consistent.mapped hi hc) (Nat.le_refl _) (Nat.le_refl _) ?_
    fun hcase => hE (hcase.imp id fun hshort => ?_)
  · intro s1 din1 m' hm' hsane1 hino1 hgood1 hwrote
    rw [hview] at hwrote
    have hw := BlockFs.written_of_wrote h.consistent hi hc (Nat.le_refl _) hgood1 hwrote hm'
    rw [Nat.max_eq_right (Nat.le_add_right _ _), ino_view] at hw
    have hset : ∀ d, (s1.view i din1).setIno i d = s1.image.setIno i d := fun d => by simp [view, setIno]
    rw [hset] at hw
    have hi' := hw.alloc_iff.mpr hi
    have hino : (s1.image.setIno i { din1 with size := (s.image.ino i).size + p.length }).ino i =
        { din1 with size := (s.image.ino i).size + p.length } := by simp [setIno]
    have hc' : HasContent ((s1.image.setIno i
        { din1 with size := (s.image.ino i).size + p.length }).ino i) := by
      rw [hw.ino_eq]
      exact hc
    have hsz := hw.consistent.size_le hi' hc'
    have hfits := BlockFs.Good.fits hw.consistent.good hi' (Nat.lt_of_le_of_lt hsz (by decide))
    rw [hino] at hfits
    refine wp_winode hsane1 hi.1 hfits fun s' hsane' hino' himage' => ?_
    rw [← himage'] at hw
    refine hQ s' ⟨hsane', hino'.trans (hino1.trans h.freeinode), hw.consistent, fun j hj => ?_,
      fun j hj hjn => ?_, fun j hj hjn => ?_, fun j q hj hjn hq => ?_, fun j hj => ?_, ?_⟩
    · rw [← h.type j hj]
      by_cases hji : j = i
      · rw [hji, hw.ino_eq]
      · rw [hw.ino_ne j hji]
    · rw [← h.nlink j hj hjn]
      by_cases hji : j = i
      · rw [hji, hw.ino_eq]
      · rw [hw.ino_ne j hji]
    · by_cases hji : j = i
      · subst hji
        rw [update_self, hw.content, hsize, h.content j hj hjn, splice_end]
      · rw [update_of_ne hji, hw.content_ne j hji ((h.alloc_iff hn).mpr ⟨hj, hjn⟩),
          h.content j hj hjn]
    · have hbyte : s'.image.byteAt j q = (s1.view i din1).byteAt j q := by
        rw [himage', ← hset]
        exact byteAt_setIno (by rw [ino_view])
      rw [hbyte, hwrote.byteAt j q ((h.alloc_iff hn).mpr ⟨hj, hjn⟩)]
      by_cases hji : j = i
      · subst hji
        rw [update_self, length_append, ← hsize] at hq
        rw [if_neg (by omega)]
        exact h.tail j q hj hjn (by omega)
      · rw [update_of_ne hji] at hq
        rw [if_neg fun hcon => hji hcon.1]
        exact h.tail j q hj hjn hq
    · rw [update_of_ne (by omega)]
      exact h.empty j hj
    · have hfree := hwrote.freeBlocks
      have hroom := h.room
      have hsame : s'.image.freeBlocks disk = (s1.view i din1).freeBlocks disk := by
        rw [himage']
        rfl
      rw [hm', hmax] at hfree
      omega
  · have hroom := h.room
    rw [hmax] at hshort
    omega

/-! ## `main` -/

/-- The bytes of the root directory. -/
def rootData (files : List Input) : List UInt8 :=
  Dirent.bytes ROOTINO [46] ++ Dirent.bytes ROOTINO [46, 46] ++
    files.zipIdx.flatMap fun e => Dirent.bytes (e.2 + 2) e.1.entryName

/-- The contents of the inodes that `main` makes. -/
def layout (files : List Input) : ℕ → List UInt8
  | 0 => []
  | 1 => rootData files
  | k + 2 => (files[k]?.map Input.data).getD []

/-- `mkfs` has the room to make the file system: no argument has a slash, no file is too big and the blocks
lie below `FSSIZE`. -/
structure Room (files : List Input) : Prop where
  slash : ∀ f ∈ files, 47 ∉ f.name
  small : ∀ f ∈ files, f.data.length ≤ MAXFILE * BSIZE
  blocks : nmeta + used (files.length + 2) (layout files) ≤ FSSIZE

variable {files done rest : List Input} {f : Input}

theorem length_dirent (inum : ℕ) (name : List UInt8) : (Dirent.bytes inum name).length = 16 := by
  rw [Dirent.bytes_length]
  rfl

theorem rootData_snoc : rootData (done ++ [f]) = rootData done ++ Dirent.bytes (done.length + 2) f.entryName := by
  simp [rootData, zipIdx_append]

theorem length_rootData (files : List Input) : (rootData files).length = 16 * (files.length + 2) := by
  induction files using List.reverseRecOn with
  | nil => simp [rootData, length_dirent]
  | append_singleton done f ih =>
    rw [rootData_snoc, length_append, ih, length_dirent, length_append, length_singleton]
    omega

/-- What one argument adds. -/
theorem layout_snoc (done : List Input) (f : Input) : layout (done ++ [f]) = update (update (layout done) ROOTINO
      (layout done ROOTINO ++ Dirent.bytes (done.length + 2) f.entryName)) (done.length + 2) f.data := by
  funext j
  match j with
  | 0 => rfl
  | 1 => exact rootData_snoc
  | k + 2 =>
    by_cases hk : k = done.length
    · subst hk
      rw [update_self]
      simp [layout]
    · rw [update_of_ne (by omega), update_of_ne (by simp [ROOTINO])]
      simp only [layout]
      rcases Nat.lt_or_gt_of_ne hk with hlt | hgt
      · rw [getElem?_append_left hlt]
      · rw [getElem?_eq_none (by simp; omega), getElem?_eq_none (by omega)]

/-- The contents only grow. -/
theorem length_layout_le (done rest : List Input) (j : ℕ) : (layout done j).length ≤ (layout (done ++ rest) j).length := by
  match j with
  | 0 => exact Nat.le_refl _
  | 1 =>
    simp only [layout, length_rootData, length_append]
    omega
  | k + 2 =>
    simp only [layout]
    by_cases hk : k < done.length
    · rw [getElem?_append_left hk]
    · rw [getElem?_eq_none (by omega)]
      exact Nat.zero_le _

theorem used_mono {n' : ℕ} (hn : n ≤ n') (hc : ∀ j, (c j).length ≤ (c' j).length) : used n c ≤ used n' c' :=
  calc used n c ≤ used n c' := Finset.sum_le_sum fun j _ => diskBlocks_mono (blocksOf_mono (hc j))
    _ ≤ used n' c' := Finset.sum_le_sum_of_subset (Finset.range_subset_range.mpr hn)

/-- The loop of `main` over what `read` returns. -/
theorem wp_chunks {chunks : List (List UInt8)} (h : s.Holds n c) (hn : n ≤ NINODES) (hpos : 0 < i)
    (hlt : i < n) (hnil : c i = []) (hE : MAXFILE * BSIZE < chunks.flatten.length ∨
      FSSIZE < nmeta + used n (update c i chunks.flatten) → ∀ e s', E e s') :
    Wp (forM chunks (iappend i)) (fun _ s' => s'.Holds n (update c i chunks.flatten)) E s := by
  refine wp_mono (wp_forM (fun rest s => ∃ done, chunks = done ++ rest ∧
    s.Holds n (update c i done.flatten)) ?_ ⟨[], rfl, ?_⟩) ?_ fun _ _ hE => hE
  · rintro p rest s ⟨done, hdone, hs⟩
    have hsplit : (done ++ [p]).flatten = done.flatten ++ p := by simp
    refine wp_iappend hs hn hpos hlt (fun s' hs' => ⟨done ++ [p], by simp [hdone], ?_⟩) fun hcase => ?_
    · rwa [update_self, update_idem, ← hsplit] at hs'
    · rw [update_self, update_idem, ← hsplit] at hcase
      have hle : (done ++ [p]).flatten.length ≤ chunks.flatten.length := by
        simp only [hdone, length_flatten, map_append, sum_append, map_cons,
          sum_cons, map_nil, sum_nil]
        omega
      refine hE (hcase.imp (fun hbig => Nat.lt_of_lt_of_le hbig hle) fun hfull => ?_)
      refine Nat.lt_of_lt_of_le hfull (Nat.add_le_add_left (used_mono (Nat.le_refl n) fun j => ?_) _)
      by_cases hj : j = i
      · subst hj
        simpa using hle
      · rw [update_of_ne hj, update_of_ne hj]
  · have hself : update c i [] = c := by
      rw [← hnil]
      exact update_eq_self i c
    simpa [hself] using h
  · rintro - s' ⟨done, hdone, hs⟩
    rwa [hdone, append_nil]

/-- One argument. -/
theorem wp_addFile (hfiles : files = done ++ f :: rest) (hn : files.length + 2 ≤ NINODES)
    (h : s.Holds (done.length + 2) (layout done)) :
    Wp (addFile f) (fun _ s' => s'.Holds ((done ++ [f]).length + 2) (layout (done ++ [f])))
      (fun _ _ => ¬ Room files) s := by
  have hfiles' : files = (done ++ [f]) ++ rest := by simp [hfiles]
  have hlen : files.length = done.length + 1 + rest.length := by
    simp only [hfiles, length_append, length_cons]
    omega
  have hmem : f ∈ files := by simp [hfiles]
  -- contents below the final ones do not fill the disk, if there is room
  have hstop : ∀ c' : ℕ → List UInt8, (∀ j, (c' j).length ≤ (layout (done ++ [f]) j).length) →
      FSSIZE < nmeta + used (done.length + 3) c' → ¬ Room files := fun c' hc' hfull hroom => by
    have hle : used (done.length + 3) c' ≤ used (files.length + 2) (layout files) :=
      used_mono (by omega) fun j => (hc' j).trans (hfiles' ▸ length_layout_le (done ++ [f]) rest j)
    have := hroom.blocks
    omega
  unfold addFile
  rw [wp_ite]
  split
  · rename_i hslash
    exact fun hroom => hroom.slash f hmem hslash
  · rw [wp_bind]
    refine wp_ialloc h (by omega) (by omega) (by rw [if_neg (by simp [ROOTINO])]) fun s1 h1 => ?_
    rw [wp_bind]
    have hroot : (layout done ROOTINO).length = 16 * (done.length + 2) := length_rootData done
    have hsnoc := layout_snoc done f
    refine wp_iappend h1 (by omega) (by decide) (by simp [ROOTINO]) (fun s2 h2 => ?_) fun hcase _ _ => ?_
    · refine wp_post (wp_chunks h2 (by omega) (by omega) (by omega) ?_ ?_) (fun _ s3 h3 => ?_)
      · rw [update_of_ne (by simp [ROOTINO])]
        exact h.empty _ (.inr (Nat.le_refl _))
      · intro hcase _ _
        rw [← Input.data, ← hsnoc] at hcase
        rcases hcase with hbig | hfull
        · exact fun hroom => absurd (hroom.small f hmem) (Nat.not_le.mpr hbig)
        · exact hstop _ (fun _ => Nat.le_refl _) hfull
      · rw [← Input.data, ← hsnoc] at h3
        simpa using h3
    · rcases hcase with hbig | hfull
      · rw [length_append, hroot, length_dirent] at hbig
        simp only [MAXFILE, NDIRECT, NINDIRECT, BSIZE, NINODES] at hbig hn
        omega
      · refine hstop _ (fun j => ?_) hfull
        rw [hsnoc]
        by_cases hj : j = done.length + 2
        · subst hj
          rw [update_of_ne (by simp [ROOTINO]), h.empty _ (.inr (Nat.le_refl _))]
          exact Nat.zero_le _
        · rw [update_of_ne hj]

/-- The image behind `fixRoot`. -/
def fixed (v : Image) : Image :=
  v.setIno ROOTINO { v.ino ROOTINO with size := ((v.ino ROOTINO).size / BSIZE + 1) * BSIZE }

theorem wp_fixRoot (h : s.Holds n c) (hn : n ≤ NINODES) (hlt : ROOTINO < n)
    (hsmall : (c ROOTINO).length ≤ MAXFILE * BSIZE)
    (hQ : ∀ s', s'.Sane → s'.freeinode = n → s'.image = fixed s.image → Q () s') : Wp fixRoot Q E s := by
  have hi := (h.alloc_iff hn).mpr ⟨by decide, hlt⟩
  have hsize := h.size (by decide) hlt
  unfold fixRoot
  rw [wp_bind]
  refine wp_rinode h.sane hi.1 (wp_winode h.sane hi.1 ⟨?_, ?_⟩ fun s' hsane' hino' himage' =>
    hQ s' hsane' (hino'.trans h.freeinode) himage')
  · simp only [hsize]
    simp only [MAXFILE, NDIRECT, NINDIRECT, BSIZE] at hsmall ⊢
    omega
  · have hfits := BlockFs.Good.fits h.consistent.good hi (by
      rw [hsize]
      exact Nat.lt_of_le_of_lt hsmall (by decide))
    exact hfits.2

/-- The bitmap block of `balloc`. -/
theorem bit_foldl_setBit {k : ℕ} (hk : k ≤ 8 * BSIZE) (j : ℕ) :
    ((List.range k).foldl Page.setBit (fun _ => 0 : Block)).bit j = decide (j < k) := by
  induction k with
  | zero => simp [Page.bit, Page.byte, Page.testBit]
  | succ k ih =>
    rw [range_succ, foldl_append, foldl_cons, foldl_nil, Page.bit_setBit _ (by omega),
      ih (by omega)]
    rw [← Bool.decide_or]
    exact decide_eq_decide.mpr (by omega)

/-- What the kernel finds on the disk that `mkfs` has made, before it has read any inode. -/
def boot (s : Mkfs) : BlockFs disk := ⟨s.sect, fun _ => ⟨false, Dinode.zero⟩, []⟩

theorem ino_boot : s.boot.image.ino j = s.image.ino j := rfl

theorem dat_boot : s.boot.image.dat b = s.image.dat b := rfl

theorem bm_boot (hb : b < FSSIZE) : s.boot.image.bm b = (s.sect (disk.BBLOCK b)).bit (b % BPB) := if_pos hb

/-- The image of the kernel shows `v`. -/
structure Shows (w v : Image) : Prop where
  ino : w.ino = v.ino
  dat : w.dat = v.dat
  bm : ∀ b, b < FSSIZE → w.bm b = v.bm b

theorem wp_balloc (h : s.Sane) (hQ : ∀ s', s'.freeinode = s.freeinode → s'.iwrote = s.iwrote → s'.sect 1 = s.sect 1 →
      Shows s'.boot.image s.image → Q () s') :
    Wp (balloc s.freeblock) Q E s := by
  have hlast := h.last
  have hmeta := bmapstart_lt
  have hbits : s.freeblock ≤ 8 * BSIZE := Nat.le_trans hlast (by decide)
  unfold balloc
  rw [if_pos (by simp only [FSSIZE, BSIZE] at hlast ⊢; omega)]
  refine wp_wsect (by rw [h.len]; omega) (hQ _ rfl rfl ?_
    ⟨funext fun j => ?_, funext fun b => ?_, fun b hb => ?_⟩)
  · simp only [update_apply]
    exact if_neg (by decide)
  · rw [ino_boot]
    simp only [image]
    split
    · rename_i hj
      have harea := IBLOCK_lt hj
      rw [update_of_ne (by omega)]
    · rfl
  · rw [dat_boot]
    simp only [image]
    split
    · rw [update_of_ne (by omega)]
    · rfl
  · have hblock : disk.BBLOCK b = disk.bmapstart := by
      simp only [Geometry.BBLOCK, BPB, BSIZE, FSSIZE] at hb ⊢
      omega
    have hmod : b % BPB = b := Nat.mod_eq_of_lt (Nat.lt_trans hb (by decide))
    rw [bm_boot hb, hblock, hmod]
    simp only [update_self]
    exact bit_foldl_setBit hbits b

/-- What `exit(0)` leaves: the contents, with the size of the root directory rounded up. -/
structure Made (files : List Input) (s s0 : Mkfs) : Prop where
  holds : s0.Holds (files.length + 2) (layout files)
  freeinode : s.freeinode = files.length + 2
  area : ∀ sec ∈ s.iwrote, disk.inodestart ≤ sec ∧ sec < disk.bmapstart
  super : s.sect 1 = Page.move (fun _ => 0) 0 superblock
  shows : Shows s.boot.image (fixed s0.image)

theorem type_read_zero (o : ℕ) : (Dinode.read (fun _ => 0) o).type = 0 := by
  simp [Dinode.read, Page.slice, Page.byte, leVal]

/-- Nothing is there yet. -/
theorem holds_start (h : s.Sane) (hino : s.freeinode = 1) (hblock : s.freeblock = nmeta)
    (hzero : ∀ b, disk.inodestart ≤ b → s.sect b = fun _ => 0) : s.Holds 1 fun _ => [] := by
  have htype : ∀ j, j < NINODES → (s.image.ino j).type = 0 := fun j hj => by
    simp only [image]
    rw [if_pos hj, hzero _ (IBLOCK_lt hj).1, type_read_zero]
  have hnone : ∀ j, ¬ s.image.Alloc disk j := fun j hj => hj.2 (htype j hj.1)
  refine ⟨h, hino, ⟨fun i _ hi => absurd hi (hnone i), fun i _ _ _ hi => absurd hi (hnone i), fun b _ => ?_,
    fun i hi => absurd hi (hnone i), fun i hi => absurd hi (hnone i)⟩, fun j hj => ?_,
    fun j hj hlt => absurd hlt (by omega), fun j hj hlt => absurd hlt (by omega),
    fun j q hj hlt => absurd hlt (by omega), fun _ _ => rfl, ?_⟩
  · have hheld : ¬ s.image.Held disk b := by
      rintro ⟨i, _, hi, _⟩
      exact hnone i hi
    have hbm : s.image.bm b = decide (b < nmeta) := by rw [← hblock]; rfl
    rw [hbm, decide_eq_true_eq, or_iff_left hheld]
    rfl
  · rw [htype j hj, if_pos (by omega)]
  · have hfree := freeBlocks_eq h
    have hused : used 1 (fun _ => []) = 0 := by decide
    omega

/-- The loop that clears the image file. -/
theorem wp_clear {N : ℕ} (hsect : s.sect = fun _ _ => 0) (hlen : s.len = 0)
    (hQ : Q () { s with len := N }) : Wp (clear N) Q E s := by
  unfold clear
  refine wp_mono (wp_forM (fun rest s' => ∃ k, k ≤ N ∧ rest = List.range' k (N - k) ∧
    s' = { s with len := k }) ?_ ⟨0, Nat.zero_le _, range_eq_range', by rw [← hlen]⟩) ?_ fun _ _ hE => hE
  · rintro a as s' ⟨k, hk, hrest, rfl⟩
    obtain ⟨d, hd⟩ : ∃ d, N - k = d + 1 := by
      refine ⟨N - k - 1, ?_⟩
      by_contra hne
      rw [show N - k = 0 by omega] at hrest
      exact absurd hrest (cons_ne_nil _ _)
    rw [hd, range'_succ] at hrest
    obtain ⟨rfl, rfl⟩ := List.cons.inj hrest
    unfold wsect
    rw [wp_modify]
    refine ⟨a + 1, by omega, by rw [show N - (a + 1) = d by omega], ?_⟩
    simp [hsect]
  · rintro - s' ⟨k, hk, hnil, rfl⟩
    have : N - k = 0 := by
      have := congrArg List.length hnil
      rw [length_range', length_nil] at this
      exact this.symm
    rwa [show k = N by omega]

/-- `main` makes the file system if it has the room for it. -/
theorem wp_main (hn : files.length + 2 ≤ NINODES) :
    Wp (main files) (fun _ s => ∃ s0, Made files s s0) (fun _ _ => ¬ Room files) start := by
  have hlayout : ∀ j, (layout [] j).length ≤ (layout files j).length := fun j => by
    have := length_layout_le [] files j
    rwa [nil_append] at this
  -- the first entries of the root directory do not fill the disk, if there is room
  have hstop : ∀ d : List UInt8, d.length ≤ 32 → MAXFILE * BSIZE < d.length ∨
      FSSIZE < nmeta + used 2 (update (fun _ => []) ROOTINO d) → ¬ Room files := by
    intro d hd hcase hroom
    rcases hcase with hbig | hfull
    · have : MAXFILE * BSIZE = 71680 := by decide
      omega
    · have hle : used 2 (update (fun _ => []) ROOTINO d) ≤ used (files.length + 2) (layout files) := by
        refine used_mono (by omega) fun j => Nat.le_trans ?_ (hlayout j)
        by_cases hj : j = ROOTINO
        · subst hj
          rw [update_self, show layout [] ROOTINO = rootData [] from rfl, length_rootData]
          exact hd
        · rw [update_of_ne hj]
          exact Nat.zero_le _
      have := hroom.blocks
      omega
  unfold main
  rw [wp_bind, wp_modify, wp_bind]
  refine wp_clear rfl rfl ?_
  rw [wp_bind]
  refine wp_wsect (show 1 < FSSIZE by decide) ?_
  rw [wp_bind]
  refine wp_ialloc (n := 1) (c := fun _ => []) ?_ (by decide) (by decide) rfl fun s1 h1 => ?_
  · refine holds_start ⟨rfl, Nat.le_refl _, by decide, fun b hb => ?_, ?_, nofun⟩ rfl rfl fun b hb => ?_
    · exact update_of_ne (by simp only [nmeta, nlog] at hb; omega) _ _
    · simp only [update_self]
    · exact update_of_ne (by simp only [disk, nlog] at hb; omega) _ _
  · rw [if_pos (show 1 = ROOTINO from rfl), wp_bind]
    have hdots : Dirent.bytes ROOTINO [46] ++ Dirent.bytes ROOTINO [46, 46] = layout [] ROOTINO := by
      simp [layout, rootData, ROOTINO]
    refine wp_iappend h1 (by decide) (by decide) (by decide) (fun s2 h2 => ?_) fun hcase _ _ =>
      hstop _ (by simp [length_dirent]) hcase
    · rw [nil_append] at h2
      rw [wp_bind]
      have hc : update (update (fun _ => []) 1 (Dirent.bytes 1 [46])) 1
          (Dirent.bytes 1 [46] ++ Dirent.bytes 1 [46, 46]) = layout [] := by
        rw [update_idem, show Dirent.bytes 1 [46] ++ Dirent.bytes 1 [46, 46] = layout [] 1 from hdots]
        funext j
        match j with
        | 0 => rfl
        | 1 => rfl
        | k + 2 => rfl
      refine wp_iappend h2 (by decide) (by decide) (by decide) (fun s3 h3 => ?_) fun hcase _ _ => ?_
      · rw [update_self, hc] at h3
        rw [wp_bind]
        refine wp_mono (wp_forM (fun rest s => ∃ done, files = done ++ rest ∧
          s.Holds (done.length + 2) (layout done)) ?_ ⟨[], rfl, h3⟩) ?_ fun _ _ hE => hE
        · rintro f rest s ⟨done, hdone, hs⟩
          exact wp_mono (wp_addFile hdone hn hs)
            (fun _ s' hs' => ⟨done ++ [f], by simp [hdone], hs'⟩) fun _ _ hE => hE
        · rintro - s4 ⟨done, hdone, h4⟩
          rw [append_nil] at hdone
          subst hdone
          rw [wp_bind]
          have hroot : (layout files ROOTINO).length ≤ MAXFILE * BSIZE := by
            rw [show layout files ROOTINO = rootData files from rfl, length_rootData]
            simp only [MAXFILE, NDIRECT, NINDIRECT, BSIZE, NINODES] at hn ⊢
            omega
          refine wp_fixRoot h4 hn (by simp [ROOTINO]) hroot fun s5 hsane5 hino5 himage5 => ?_
          rw [wp_bind, wp_get]
          refine wp_balloc hsane5 fun s' hino' hwrote' hsuper hshows =>
            ⟨s4, h4, hino'.trans hino5, ?_, hsuper.trans hsane5.super, ?_⟩
          · rw [hwrote']
            exact hsane5.area
          · rw [← himage5]
            exact hshows
      · rw [update_self, update_idem] at hcase
        exact hstop _ (by simp [length_dirent]) hcase

/-! ## Inode numbers

`ialloc` hands out inode numbers without looking at `NINODES`, so that beyond it nothing is known but the
number of calls. -/

/-- Code that hands out no inode number. -/
def Keeps {α : Type} (x : Code Exit Mkfs α) : Prop :=
  ∀ s, Wp x (fun _ s' => s'.freeinode = s.freeinode) (fun _ _ => True) s

section
variable {α β : Type} {x : Code Exit Mkfs α} {y : Code Exit Mkfs α}

theorem keeps_pure (a : α) : Keeps (pure a) := fun _ => rfl

theorem keeps_throw (e : Exit) : Keeps (throw e : Code Exit Mkfs α) := fun _ => trivial

theorem Keeps.bind {f : α → Code Exit Mkfs β} (hx : Keeps x) (hf : ∀ a, Keeps (f a)) : Keeps (x >>= f) :=
  fun s => by
    rw [wp_bind]
    refine wp_post (hx s) (fun a s' hs' => ?_)
    rw [← hs']
    exact hf a s'

theorem keeps_ite {p : Prop} [Decidable p] (hx : Keeps x) (hy : Keeps y) : Keeps (if p then x else y) := by
  split
  · exact hx
  · exact hy

end

theorem keeps_rsect (sec : ℕ) : Keeps (rsect sec) := fun s => by
  unfold rsect
  rw [wp_bind, wp_get]
  exact keeps_ite (keeps_pure _) (keeps_throw _) s

theorem keeps_wsect (sec : ℕ) (x : Block) : Keeps (wsect sec x) := fun _ => rfl

theorem keeps_winode (inum : ℕ) (d : Dinode) : Keeps (winode inum d) :=
  (keeps_rsect _).bind fun _ => (keeps_wsect _ _).bind fun _ _ => rfl

theorem keeps_rinode (inum : ℕ) : Keeps (rinode inum) := (keeps_rsect _).bind fun _ => keeps_pure _

theorem keeps_nextBlock : Keeps nextBlock := fun _ => rfl

theorem keeps_fillAddr (d : Dinode) (k : Fin (NDIRECT + 1)) : Keeps (fillAddr d k) :=
  keeps_ite (keeps_nextBlock.bind fun _ => keeps_pure _) (keeps_pure _)

theorem keeps_fillEntry (a k : ℕ) : Keeps (fillEntry a k) :=
  (keeps_rsect a).bind fun _ => keeps_ite
    (keeps_nextBlock.bind fun _ => (keeps_wsect _ _).bind fun _ => keeps_pure _) (keeps_pure _)

theorem keeps_blockOf (d : Dinode) (fbn : ℕ) : Keeps (blockOf d fbn) := by
  unfold blockOf
  split
  · exact (keeps_fillAddr _ _).bind fun _ => keeps_pure _
  · exact (keeps_fillAddr _ _).bind fun _ => (keeps_fillEntry _ _).bind fun _ => keeps_pure _

theorem keeps_iappendLoop (fuel : ℕ) (d : Dinode) (off : ℕ) (p : List UInt8) : Keeps (iappendLoop fuel d off p) := by
  induction fuel generalizing d off p with
  | zero => exact keeps_pure _
  | succ fuel ih =>
    rw [iappendLoop]
    refine keeps_ite (keeps_pure _) (keeps_ite ((keeps_blockOf _ _).bind fun r => ?_) (keeps_throw _))
    exact ((keeps_rsect _).bind fun _ => keeps_wsect _ _).bind fun _ => ih _ _ _

theorem keeps_iappend (inum : ℕ) (p : List UInt8) : Keeps (iappend inum p) :=
  (keeps_rinode inum).bind fun _ => (keeps_iappendLoop _ _ _ _).bind fun _ => keeps_winode _ _

theorem keeps_forM {γ : Type} {g : γ → Code Exit Mkfs PUnit} (hg : ∀ a, Keeps (g a)) (l : List γ) :
    Keeps (forM l g) := fun s =>
  wp_forM (fun _ s' => s'.freeinode = s.freeinode)
    (fun a _ s' hs' => wp_mono (hg a s') (fun _ _ h => h.trans hs') fun _ _ hE => hE) rfl

theorem wp_ialloc_freeinode (type : BitVec 16) :
    Wp (ialloc type) (fun _ s' => s'.freeinode = s.freeinode + 1) (fun _ _ => True) s := by
  unfold ialloc
  rw [wp_bind, wp_get, wp_bind, wp_set]
  exact (keeps_winode _ _).bind (fun _ => keeps_pure _) _

/-- Every argument gets an inode number. -/
theorem wp_main_freeinode (files : List Input) :
    Wp (main files) (fun _ s => s.freeinode = files.length + 2) (fun _ _ => True) start := by
  unfold main
  rw [wp_bind, wp_modify, wp_bind]
  refine wp_clear rfl rfl ?_
  rw [wp_bind]
  refine wp_post (keeps_wsect _ _ _) (fun _ s0 h0 => ?_)
  rw [wp_bind]
  refine wp_post (wp_ialloc_freeinode T_DIR) (fun r s1 h1 => ?_)
  rw [h0] at h1
  rw [wp_ite]
  split
  · rw [wp_bind]
    refine wp_post (keeps_iappend _ _ s1) (fun _ s2 h2 => ?_)
    rw [wp_bind]
    refine wp_post (keeps_iappend _ _ s2) (fun _ s3 h3 => ?_)
    rw [wp_bind]
    refine wp_mono (wp_forM (fun rest s => s.freeinode + rest.length = files.length + 2) ?_ ?_)
      (fun _ s4 h4 => ?_) fun _ _ hE => hE
    · intro f rest s hs
      unfold addFile
      rw [wp_ite]
      split
      · trivial
      · rw [wp_bind]
        refine wp_post (wp_ialloc_freeinode T_FILE) (fun inum s' hs' => ?_)
        refine wp_mono (((keeps_iappend _ _).bind fun _ => keeps_forM (keeps_iappend inum) _) s')
          (fun _ s'' hs'' => ?_) fun _ _ hE => hE
        rw [hs'', hs', ← hs, length_cons]
        omega
    · rw [h3, h2, h1, Nat.add_comm]
      rfl
    · have hfix : Keeps fixRoot := (keeps_rinode _).bind fun _ => keeps_winode _ _
      rw [wp_bind]
      refine wp_post (hfix s4) (fun _ s5 h5 => ?_)
      rw [wp_bind, wp_get]
      refine wp_post (keeps_ite (keeps_wsect _ _) (keeps_throw _) s5) (fun _ s6 h6 => ?_)
      rw [h6, h5, ← h4, length_nil, Nat.add_zero]
  · trivial

/-! ## Malformed images -/

/-- The image is as the kernel relies on: files have the blocks below their size, block and inode numbers
and the inodes themselves lie where the super block says, and the free map marks what is in use. -/
structure WellFormed (s : Mkfs) : Prop where
  allocated : ∀ i, s.boot.image.Alloc disk i → ∀ bn, bn < Image.blocksOf (s.boot.image.ino i).size →
    s.boot.image.addr i bn ≠ 0
  blocks : ∀ i k, s.boot.image.Alloc disk i → s.boot.image.slot i k < disk.size
  inodes : ∀ inum, inum < s.freeinode → inum < disk.ninodes
  area : ∀ sec ∈ s.iwrote, disk.inodestart ≤ sec ∧ sec < disk.bmapstart
  bitmap : ∀ b, b < disk.size →
    (s.boot.image.bm b = true ↔ b < disk.datastart ∨ s.boot.image.Held disk b)

section
variable {s0 : Mkfs}

section

variable (h : Made files s s0)

include h

theorem Made.slot (k : ℕ) : s.boot.image.slot i k = s0.image.slot i k := by
  have hdat : s.boot.image.dat = s0.image.dat := h.shows.dat
  refine slot_congr ?_ fun _ => by rw [hdat]
  rw [h.shows.ino]
  simp only [fixed, setIno, update_apply]
  split
  · rename_i hi
    rw [hi]
  · rfl

theorem Made.ino_ne (hi : i ≠ ROOTINO) : s.boot.image.ino i = s0.image.ino i := by
  rw [h.shows.ino]
  simp [fixed, setIno, hi]

theorem Made.ino_root : s.boot.image.ino ROOTINO = { s0.image.ino ROOTINO with
    size := (16 * (files.length + 2) / BSIZE + 1) * BSIZE } := by
  have hsize := h.holds.size (i := ROOTINO) (by decide) (by simp [ROOTINO])
  rw [show layout files ROOTINO = rootData files from rfl, length_rootData] at hsize
  rw [h.shows.ino, ← hsize]
  simp [fixed, setIno]

theorem Made.alloc_iff : s.boot.image.Alloc disk i ↔ s0.image.Alloc disk i := by
  unfold Alloc
  by_cases hi : i = ROOTINO
  · subst hi
    rw [h.ino_root]
  · rw [h.ino_ne hi]

/-- The blocks of the root directory. -/
theorem Made.addr_root (hn : files.length + 2 ≤ NINODES) (bn : ℕ) :
    s.boot.image.addr ROOTINO bn ≠ 0 ↔ bn < Image.blocksOf (16 * (files.length + 2)) := by
  have hi := (h.holds.alloc_iff hn (j := ROOTINO)).mpr ⟨by decide, by simp [ROOTINO]⟩
  have hsize := h.holds.size (i := ROOTINO) (by decide) (by simp [ROOTINO])
  rw [show layout files ROOTINO = rootData files from rfl, length_rootData] at hsize
  have hmap := (h.holds.consistent.mapped hi (h.holds.hasContent hn hi)).addr bn
  rw [hsize] at hmap
  rw [addr, h.slot]
  exact hmap

end

/-- The only thing that can be wrong with the blocks: the size of the root directory is rounded up beyond
its last block. -/
theorem Made.wellFormed_iff (h : Made files s s0) (hn : files.length + 2 ≤ NINODES) :
    s.WellFormed ↔ (files.length + 2) % (BSIZE / DIRENT) ≠ 0 := by
  have hroot : s.boot.image.Alloc disk ROOTINO :=
    h.alloc_iff.mpr ((h.holds.alloc_iff hn).mpr ⟨by decide, by simp [ROOTINO]⟩)
  rw [show BSIZE / DIRENT = 32 by decide]
  constructor
  · intro hw hmod
    have hall := hw.allocated ROOTINO hroot (Image.blocksOf (16 * (files.length + 2))) (by
      rw [h.ino_root]
      simp only [Image.blocksOf, BSIZE]
      omega)
    exact absurd ((h.addr_root hn _).mp hall) (Nat.lt_irrefl _)
  · intro hmod
    refine ⟨fun i hi bn hbn => ?_, fun i k hi => ?_, fun inum hlt => ?_, h.area, fun b hb => ?_⟩
    · by_cases hir : i = ROOTINO
      · subst hir
        rw [h.ino_root] at hbn
        refine (h.addr_root hn bn).mpr ?_
        simp only [Image.blocksOf, BSIZE] at hbn ⊢
        omega
      · rw [h.ino_ne hir] at hbn
        rw [addr, h.slot]
        have hi0 := h.alloc_iff.mp hi
        exact ((h.holds.consistent.mapped hi0 (h.holds.hasContent hn hi0)).addr bn).mpr hbn
    · rw [h.slot]
      by_cases hz : s0.image.slot i k = 0
      · rw [hz]
        decide
      · exact (h.holds.consistent.data i k (h.alloc_iff.mp hi) hz).2
    · rw [h.freeinode] at hlt
      exact Nat.lt_of_lt_of_le hlt hn
    · rw [h.shows.bm b hb]
      refine (h.holds.consistent.bitmap b hb).trans (or_congr Iff.rfl ?_)
      simp only [Held, h.alloc_iff, h.slot]

end

/-- Files without contents. -/
theorem room_of_empty (hslash : ∀ f ∈ files, 47 ∉ f.name) (hempty : ∀ f ∈ files, f.data = [])
    (hn : files.length + 2 ≤ NINODES) : Room files := by
  refine ⟨hslash, fun f hf => by rw [hempty f hf]; exact Nat.zero_le _, ?_⟩
  have hfiles : ∀ k, layout files (k + 2) = [] := fun k => by
    simp only [layout]
    cases hk : files[k]? with
    | none => rfl
    | some f => exact hempty f (mem_of_getElem? hk)
  have hused : used (files.length + 2) (layout files) = diskBlocks (Image.blocksOf (16 * (files.length + 2))) := by
    unfold used
    rw [Finset.sum_range_succ', Finset.sum_range_succ', Finset.sum_eq_zero fun k _ => by rw [hfiles k]; rfl,
      show layout files (0 + 1) = rootData files from rfl, length_rootData]
    simp [layout, Image.blocksOf, diskBlocks, BSIZE, NDIRECT]
  have hle : diskBlocks (Image.blocksOf (16 * (files.length + 2))) ≤ diskBlocks (Image.blocksOf (16 * NINODES)) :=
    diskBlocks_mono (blocksOf_mono (by omega))
  have hmax : nmeta + diskBlocks (Image.blocksOf (16 * NINODES)) ≤ FSSIZE := by decide
  omega

/-- With the room for it `mkfs` gets to `exit(0)`. -/
theorem main_returns (hn : files.length + 2 ≤ NINODES) (hroom : Room files) :
    ∃ s s0, (main files).run start = .ok () s ∧ Made files s s0 := by
  obtain ⟨⟨⟩, s, hrun, s0, hmade⟩ := wp_returns
    (wp_mono (wp_main hn) (fun _ _ hQ => hQ) fun _ _ hE => hE hroom)
  exact ⟨s, s0, hrun, hmade⟩

theorem made_of_run (hn : files.length + 2 ≤ NINODES) (hrun : (main files).run start = .ok () s) :
    ∃ s0, Made files s s0 :=
  wp_ok (wp_main hn) hrun

/-- When `mkfs` gets to `exit(0)`, the image is well-formed unless there are more arguments than inodes, or
the entries of the root directory fill its blocks to the last byte: then the size is rounded up to one block
more than the directory has. -/
theorem mkfs_wellFormed_iff (hrun : (main files).run start = .ok () s) :
    s.WellFormed ↔ files.length + 2 ≤ NINODES ∧ (files.length + 2) % (BSIZE / DIRENT) ≠ 0 := by
  have hino := wp_ok (wp_main_freeinode files) hrun
  constructor
  · intro hw
    have hn : files.length + 2 ≤ NINODES := hw.inodes (files.length + 1) (by omega)
    obtain ⟨s0, hmade⟩ := made_of_run hn hrun
    exact ⟨hn, (hmade.wellFormed_iff hn).mp hw⟩
  · rintro ⟨hn, hmod⟩
    obtain ⟨s0, hmade⟩ := made_of_run hn hrun
    exact (hmade.wellFormed_iff hn).mpr hmod

/-- `mkfs fs.img a`, with an empty file. -/
theorem mkfs_wellFormed_one : ∃ s, (main [⟨[97], []⟩]).run start = .ok () s ∧ s.WellFormed := by
  have hn : [(⟨[97], []⟩ : Input)].length + 2 ≤ NINODES := by decide
  obtain ⟨s, s0, hrun, -⟩ := main_returns hn (room_of_empty (by decide) (by decide) hn)
  exact ⟨s, hrun, (mkfs_wellFormed_iff hrun).mpr (by decide)⟩

/-- Thirty empty files with names of one letter. -/
def thirty : List Input := (List.range 30).map fun k => ⟨[UInt8.ofNat (97 + k)], []⟩

/-- On thirty empty files `mkfs` gets to `exit(0)`; the root directory has two blocks by its size, and no
address for the second. -/
theorem mkfs_root_hole : ∃ s, (main thirty).run start = .ok () s ∧
    s.boot.image.Alloc disk ROOTINO ∧ (s.boot.image.ino ROOTINO).size = 2 * BSIZE ∧
    s.boot.image.addr ROOTINO 1 = 0 ∧ ¬ s.WellFormed := by
  have hn : thirty.length + 2 ≤ NINODES := by decide
  obtain ⟨s, s0, hrun, hmade⟩ := main_returns hn (room_of_empty (by decide) (by decide) hn)
  refine ⟨s, hrun, ?_, ?_, ?_, ?_⟩
  · exact hmade.alloc_iff.mpr ((hmade.holds.alloc_iff hn).mpr (by decide))
  · rw [hmade.ino_root]
    exact (by decide : (16 * (thirty.length + 2) / BSIZE + 1) * BSIZE = 2 * BSIZE)
  · by_contra hne
    exact absurd ((hmade.addr_root hn 1).mp hne) (by decide)
  · rw [hmade.wellFormed_iff hn]
    decide

end Mkfs

end Xv6
