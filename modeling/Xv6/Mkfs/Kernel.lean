import Xv6.Fs.DirMap
import Xv6.Kernel.Path
import Xv6.Mkfs.Main

/-!
# The kernel on a new file system

What `namei` and `readi` find on the image that `mkfs` has made: the files under their names, with their
bytes, and nothing else. The size of the root directory may cover a block that it does not have; `readi` of
that block allocates it and finds zeros, so that `dirlookup` goes on to the end.
-/

namespace Xv6

open Function Code List

open Image

namespace BlockFs

variable {g : Geometry} {s s' s'' : BlockFs g} {d off n m : ℕ} {E : Halt → BlockFs g → Prop}

/-! ## Reading a directory that may lack its last block -/

/-- Code that may give inode `d` a fresh block and changes nothing else. -/
structure Kept (d : ℕ) (s s' : BlockFs g) : Prop where
  step : Step d s s'
  ino_ne : ∀ j, j ≠ d → s'.image.ino j = s.image.ino j
  ino_eq : s'.image.ino d = { s.image.ino d with addrs := (s'.image.ino d).addrs }
  other : ∀ j l, s.image.Alloc g j → j ≠ d → s'.image.slot j l = s.image.slot j l
  byteAt : ∀ j q, s.image.Alloc g j → s'.image.byteAt j q = s.image.byteAt j q

theorem Kept.refl : Kept d s s := ⟨.refl d s, fun _ _ => rfl, rfl, fun _ _ _ _ => rfl, fun _ _ _ => rfl⟩

theorem Kept.alloc_iff (h : Kept d s s') {j : ℕ} : s'.image.Alloc g j ↔ s.image.Alloc g j := by
  unfold Alloc
  by_cases hj : j = d
  · subst hj
    rw [h.ino_eq]
  · rw [h.ino_ne j hj]

theorem Kept.trans (h : Kept d s s') (h' : Kept d s' s'') : Kept d s s'' where
  step := h.step.trans h'.step
  ino_ne := fun j hj => (h'.ino_ne j hj).trans (h.ino_ne j hj)
  ino_eq := by rw [h'.ino_eq, h.ino_eq]
  other := fun j l hj hne => (h'.other j l (h.alloc_iff.mpr hj) hne).trans (h.other j l hj hne)
  byteAt := fun j q hj => (h'.byteAt j q (h.alloc_iff.mpr hj)).trans (h.byteAt j q hj)

theorem Kept.size (h : Kept d s s') (j : ℕ) : (s'.image.ino j).size = (s.image.ino j).size := by
  by_cases hj : j = d
  · subst hj
    rw [h.ino_eq]
  · rw [h.ino_ne j hj]

theorem Kept.content (h : Kept d s s') {j : ℕ} (hj : s.image.Alloc g j) : s'.image.content j = s.image.content j := by
  unfold Image.content
  rw [h.size]
  exact map_congr_left fun q _ => h.byteAt j q hj

/-- Inode `d` has its `m` blocks, or all but the last, and then there is a free block for it. -/
structure Ready (d m : ℕ) (s : BlockFs g) : Prop where
  good : s.image.Good g []
  loaded : s.Loaded d
  alloc : s.image.Alloc g d
  mapped : s.image.Mapped d m ∨
    ∃ m', m = m' + 1 ∧ m' < NDIRECT ∧ s.image.Mapped d m' ∧ 0 < s.image.freeBlocks g

variable {Q : Option (List UInt8) → BlockFs g → Prop}

/-- `readi` inside one block. -/
theorem wp_readi_block (h : Ready d m s) (hn : 0 < n)
    (hfit : off % BSIZE + n ≤ BSIZE) (hbn : off / BSIZE < m) (hmax : m ≤ MAXFILE)
    (hsize : off + n ≤ (s.image.ino d).size) (hQ : ∀ s', Kept d s s' → Ready d m s' →
      Q (some ((List.range n).map fun q => s.image.byteAt d (off + q))) s') :
    Wp (readi d off n) Q E s := by
  have hoff : off < MAXFILE * BSIZE := (Nat.div_lt_iff_lt_mul (by decide)).mp (Nat.lt_of_lt_of_le hbn hmax)
  have hsmall : MAXFILE * BSIZE = 71680 := rfl
  have hB : BSIZE = 512 := rfl
  have hmin : min n (BSIZE - off % BSIZE) = n := Nat.min_eq_left (by omega)
  -- the bytes of the block, wherever it is
  have hbytes : ∀ s' : BlockFs g, Kept d s s' → s'.image.Good g [] → s'.image.addr d (off / BSIZE) ≠ 0 →
      (s'.blk (s'.image.addr d (off / BSIZE))).slice (off % BSIZE) n =
        (List.range n).map fun q => s.image.byteAt d (off + q) := by
    intro s' hkept hgood hne
    unfold Page.slice
    refine map_congr_left fun q hq => ?_
    have hq := mem_range.mp hq
    have hdiv : (off + q) / BSIZE = off / BSIZE := by
      simp only [BSIZE] at hfit ⊢
      omega
    have hmod : (off + q) % BSIZE = off % BSIZE + q := by
      simp only [BSIZE] at hfit ⊢
      omega
    rw [← hkept.byteAt d _ h.alloc, Image.byteAt, hdiv, if_neg hne, hmod,
      blk_eq_dat (hgood.addr_data (hkept.alloc_iff.mpr h.alloc) hne).1]
  obtain ⟨n, rfl⟩ : ∃ n', n = n' + 1 := ⟨n - 1, by omega⟩
  unfold readi
  rw [wp_bind]
  refine wp_ip h.loaded ?_
  rw [wp_ite, if_neg (by omega), if_neg (by omega), wp_bind, readLoop, wp_ite,
    if_neg (Nat.succ_ne_zero n), wp_bind]
  -- the rest of the loop
  have hrest : ∀ s' : BlockFs g, Kept d s s' → Ready d m s' → s'.image.addr d (off / BSIZE) ≠ 0 →
      Wp (do
        let bp ← bread (s'.image.addr d (off / BSIZE))
        let m := min (n + 1) (BSIZE - off % BSIZE)
        let rest ← readLoop d n (off + m) (n + 1 - m)
        pure (bp.slice (off % BSIZE) m ++ rest))
        (fun bytes s' => Wp (pure (some bytes)) Q E s') E s' := by
    intro s' hkept hready hne
    unfold bread
    simp only [wp_bind, wp_get, wp_pure]
    rw [hmin, Nat.sub_self]
    have hnil : readLoop (g := g) d n (off + (n + 1)) 0 = pure [] := by
      cases n <;> rfl
    rw [hnil, wp_pure, append_nil, hbytes s' hkept hready.good hne]
    exact hQ s' hkept hready
  refine wp_bmap h.good h.loaded h.alloc (Nat.lt_of_lt_of_le hbn hmax) (fun hne => ?_)
    (fun s' hz hstep hgood hgrown => ?_) fun hlt => ?_
  · exact hrest s .refl h hne
  · have hkept : Kept d s s' := ⟨hstep, hgrown.ino_ne, hgrown.ino_eq, hgrown.other, hgrown.byteAt⟩
    rcases h.mapped with hm | ⟨m', rfl, hdirect, hm, -⟩
    · exact absurd hz ((hm.addr _).mpr hbn)
    · have hlast : off / BSIZE = m' := by
        have := (hm.addr (off / BSIZE)).not.mp (not_not.mpr hz)
        omega
      rw [hlast] at hgrown
      have hm' := hgrown.mapped hm
      refine hrest s' hkept ⟨hgood, h.loaded.step hstep, hkept.alloc_iff.mpr h.alloc, .inl hm'⟩ ?_
      exact (hm'.addr _).mpr hbn
  · rcases h.mapped with hm | ⟨m', rfl, hdirect, hm, hfree⟩
    · have := hm.bmapCost_eq_zero hbn
      omega
    · by_cases hlt' : off / BSIZE < m'
      · have := hm.bmapCost_eq_zero hlt'
        omega
      · have hcost := hm.bmapCost
        rw [show off / BSIZE = m' by omega] at hlt
        unfold diskBlocks at hcost
        rw [if_neg (by omega), if_neg (by omega)] at hcost
        omega

/-- The loop over the entries of a directory. -/
theorem wp_scan_ready {err : Panic} {test : Dirent → Bool} {Q : Option (ℕ × Dirent) → BlockFs g → Prop}
    (h : Ready d m s) (hm : blocksOf (s.image.ino d).size = m) (hmax : m ≤ MAXFILE)
    (hmod : (s.image.ino d).size % DIRENT = 0) (k : ℕ) (hQ : ∀ s', Kept d s s' → Ready d m s' →
      Q ((firstEntry (s.image.content d) k test).map fun k =>
        (DIRENT * k, entry (s.image.content d) k)) s') :
    Wp (scan d err test (entryOffsets k (s.image.ino d).size)) Q E s := by
  have hD : DIRENT = 16 := rfl
  have hlen : entries (s.image.content d) = (s.image.ino d).size / 16 := by
    unfold entries
    rw [content_length, hD]
  induction hr : (s.image.ino d).size - DIRENT * k using Nat.strong_induction_on generalizing k s with
  | _ r ih =>
    have hnext : DIRENT * (k + 1) = DIRENT * k + DIRENT := Nat.mul_succ _ _
    have hDk : DIRENT * k = 16 * k := rfl
    have hmod16 : (s.image.ino d).size % 16 = 0 := hmod
    by_cases hend : (s.image.ino d).size ≤ DIRENT * k
    · rw [entryOffsets_nil hend]
      have := hQ s .refl h
      rw [firstEntry_of_le (by omega)] at this
      exact this
    · have hk : k < entries (s.image.content d) := by omega
      have hwindow : ((s.image.content d).drop (DIRENT * k)).take DIRENT =
          (List.range DIRENT).map fun q => s.image.byteAt d (DIRENT * k + q) := by
        rw [content_slice, Nat.min_eq_left (by omega)]
      have hblock : DIRENT * k % BSIZE + DIRENT ≤ BSIZE := by
        simp only [BSIZE, hD]
        omega
      rw [entryOffsets_cons (by omega)]
      unfold scan
      rw [wp_bind]
      refine wp_readi_block h (by decide) hblock ?_ hmax (by omega) fun s' hkept hready => ?_
      · rw [← hm]
        exact div_lt_blocksOf (by omega)
      · rw [← hwindow]
        have hlength : (((s.image.content d).drop (DIRENT * k)).take DIRENT).length = DIRENT := by
          rw [hwindow, length_map, length_range]
        simp only [hlength, ne_eq, not_true_eq_false, if_false]
        have hread : Dirent.read (((s.image.content d).drop (DIRENT * k)).take DIRENT) =
            entry (s.image.content d) k := rfl
        rw [hread, wp_ite]
        split
        · rename_i htest
          have := hQ s' hkept hready
          rw [firstEntry_of_lt hk, if_pos htest] at this
          exact this
        · rename_i htest
          have hcontent := hkept.content h.alloc
          have hsize := hkept.size d
          rw [← hsize]
          refine ih _ ?_ hready (by rw [hsize]; exact hm) (by rw [hsize]; exact hmod) (k + 1) ?_
            (by rw [hcontent, hsize]; exact hlen) rfl
          · rw [hsize]
            omega
          · intro s'' hkept' hready'
            rw [hcontent]
            have := hQ s'' (hkept.trans hkept') hready'
            rwa [firstEntry_of_lt hk, if_neg htest] at this

/-- `dirlookup` in a directory that may lack its last block. -/
theorem wp_dirlookup_ready {name : List UInt8} {Q : Option (ℕ × ℕ) → BlockFs g → Prop}
    (h : Ready d m s) (hm : blocksOf (s.image.ino d).size = m) (hmax : m ≤ MAXFILE)
    (hmod : (s.image.ino d).size % DIRENT = 0) (htype : (s.image.ino d).type = T_DIR)
    (hQ : ∀ s', Kept d s s' → Ready d m s' →
      Q ((firstEntry (s.image.content d) 0 (matchesName name)).map fun k =>
        (DIRENT * k, (entry (s.image.content d) k).inum)) s') :
    Wp (dirlookup d name) Q E s := by
  unfold dirlookup
  rw [wp_bind]
  refine wp_ip h.loaded ?_
  rw [if_neg (not_not.mpr htype), wp_bind]
  refine wp_scan_ready h hm hmax hmod 0 fun s' hkept hready => ?_
  rw [wp_pure, Option.map_map]
  exact hQ s' hkept hready

/-- `readi` of a whole file. -/
theorem wp_readi_whole {i : ℕ} (hgood : s.image.Good g [])
    (hl : s.Loaded i) (hi : s.image.Alloc g i) (hm : s.image.Mapped i (blocksOf (s.image.ino i).size))
    (hsize : (s.image.ino i).size < 2 ^ 32) (hQ : Q (some (s.image.content i)) s) :
    Wp (readi i 0 (s.image.ino i).size) Q E s := by
  unfold readi
  rw [wp_bind]
  refine wp_ip hl ?_
  rw [wp_ite, if_neg (by omega), if_neg (by omega), wp_bind]
  refine wp_post (wp_readLoop hgood hl hi hm (Nat.le_refl _) (by rw [Nat.zero_add])) ?_
  rintro bytes s' ⟨rfl, rfl⟩
  simp only [Nat.zero_add]
  exact hQ

end BlockFs

/-! ## `namei` of one name, run alone -/

namespace Mkfs

open Sys

section
variable {P : Type} [DecidableEq P] {α : Type} {g : Geometry} {p : P} {k : Kernel (BlockFs g) P}
  {st : BlockFs g} {ref : ℕ → ℕ} {lock : ℕ → Option P} {E : Halt → Kernel (BlockFs g) P → Prop} {i : ℕ}

/-- A program of process `p`, run alone over the blocks. -/
def alone (p : P) (x : Sys P α) : Code Halt (Kernel (BlockFs g) P) α :=
  Prog.alone (Kernel.exec g.ninodes BlockFs.exec p .quiet) x

/-- The kernel with other blocks, reference counts and locks of inodes. -/
def withStore (k : Kernel (BlockFs g) P) (st : BlockFs g) (ref : ℕ → ℕ) (lock : ℕ → Option P) :
    Kernel (BlockFs g) P :=
  { k with store := st, ref, lock }

@[simp] theorem wp_alone_bind {β : Type} {x : Sys P β} {f : β → Sys P α} {Q : α → Kernel (BlockFs g) P → Prop} :
    Wp (alone p (x >>= f)) Q E k ↔ Wp (alone p x) (fun b k' => Wp (alone p (f b)) Q E k') E k :=
  Prog.wp_alone_bind

theorem wp_step {a : Act P} {Q : a.Resp → Kernel (BlockFs g) P → Prop} :
    Wp (alone p (step a)) Q E k ↔ Wp (Kernel.exec g.ninodes BlockFs.exec p .quiet a) Q E k :=
  Prog.wp_alone_perform

theorem wp_fs {op : FsOp} {Q : op.Resp → Kernel (BlockFs g) P → Prop} :
    Wp (alone p (fs op)) Q E (withStore k st ref lock) ↔
      Wp (BlockFs.exec op) (fun r st' => Q r (withStore k st' ref lock))
        (fun e st' => E e (withStore k st' ref lock)) st :=
  wp_alone_fs

theorem wp_stat {Q : Stat → Kernel (BlockFs g) P → Prop} (hl : st.Loaded i)
    (hQ : Q ⟨(st.image.ino i).type, (st.image.ino i).major, (st.image.ino i).minor, (st.image.ino i).nlink,
      (st.image.ino i).size⟩ (withStore k st ref lock)) :
    Wp (alone p (fs (.stat i))) Q E (withStore k st ref lock) := by
  rw [wp_fs]
  show Wp (BlockFs.ip i >>= fun d => pure _) _ _ st
  rw [wp_bind]
  exact BlockFs.wp_ip hl hQ

variable {Q : Unit → Kernel (BlockFs g) P → Prop}

theorem wp_ilock (hi : i ≠ 0) (href : 0 < ref i) (hlock : lock i = none) (halloc : st.image.Alloc g i)
    (hQ : ∀ st', st'.Loaded i → st'.image = st.image → (∀ j, j ≠ i → st'.icache j = st.icache j) →
      Q () (withStore k st' ref (update lock i (some p)))) :
    Wp (alone p (ilock i)) Q E (withStore k st ref lock) := by
  refine wp_alone_ilock hi href hlock ?_
  exact BlockFs.wp_iload halloc.1 (fun st' hl himage hother _ _ _ => hQ st' hl himage hother)
    fun _ ht => absurd ht halloc.2

theorem wp_iunlock {q : P} (hi : i ≠ 0) (href : 0 < ref i)
    (hlock : lock i = some q) (hQ : Q () (withStore k st ref (update lock i none))) :
    Wp (alone p (iunlock i)) Q E (withStore k st ref lock) :=
  wp_alone_iunlock hi href hlock hQ

/-- `iput` of an inode with a link. -/
theorem wp_iput (hlock : lock i = none) (hl : st.Loaded i) (hlink : (st.image.ino i).nlink ≠ 0)
    (hQ : Q () (withStore k st (update ref i (ref i - 1)) lock)) :
    Wp (alone p (iput i)) Q E (withStore k st ref lock) := by
  refine wp_alone_iput hlock ⟨rfl, fun _ => ?_⟩ hQ
  show Wp (BlockFs.ip i >>= fun d => pure _) _ _ st
  rw [wp_bind]
  exact BlockFs.wp_ip hl ⟨rfl, fun hz => absurd hz hlink⟩

theorem wp_iunlockput {q : P} (hi : i ≠ 0) (href : 0 < ref i)
    (hlock : lock i = none) (hl : st.Loaded i) (hlink : (st.image.ino i).nlink ≠ 0)
    (hQ : Q () (withStore k st (update ref i (ref i - 1)) lock)) :
    Wp (alone p (iunlockput i)) Q E (withStore k st ref (update lock i (some q))) := by
  rw [iunlockput, wp_alone_bind]
  refine wp_iunlock hi href (update_self ..) ?_
  rw [update_idem, ← hlock, update_eq_self]
  exact wp_iput hlock hl hlink hQ

/-- `iget` of an inode that has not been read. -/
theorem wp_iget (hvalid : (st.icache i).valid = false) (hroom : (withStore k st ref lock).cached g.ninodes < NINODE)
    (hQ : Q () (withStore k st (incRef ref i) lock)) : Wp (alone p (step (.iget i))) Q E (withStore k st ref lock) := by
  have hsame : ({ st with icache := update st.icache i { st.icache i with valid := false } } :
      BlockFs g) = st := by
    rw [← hvalid, update_eq_self]
  refine wp_alone_iget (fun hfull => absurd hroom (Nat.not_lt.mpr hfull)) (fun _ => hQ) fun _ => ?_
  show Q () (withStore k { st with icache := update st.icache i { st.icache i with valid := false } }
    (incRef ref i) lock)
  rw [hsame]
  exact hQ

/-- The loop of `namex` on the last name, in the root directory. -/
theorem wp_namexLoop_last {name : List UInt8} {Q : Option (ℕ × List UInt8) → Kernel (BlockFs g) P → Prop} {m : ℕ}
    (href : 0 < ref ROOTINO) (hlock : lock ROOTINO = none) (halloc : st.image.Alloc g ROOTINO)
    (hgood : st.image.Good g []) (hmapped : st.image.Mapped ROOTINO m ∨
      ∃ m', m = m' + 1 ∧ m' < NDIRECT ∧ st.image.Mapped ROOTINO m' ∧ 0 < st.image.freeBlocks g)
    (hm : blocksOf (st.image.ino ROOTINO).size = m) (hmax : m ≤ MAXFILE)
    (hmod : (st.image.ino ROOTINO).size % DIRENT = 0) (htype : (st.image.ino ROOTINO).type = T_DIR)
    (hlink : (st.image.ino ROOTINO).nlink ≠ 0) (hinvalid : ∀ j, (st.icache j).valid = false)
    (hroom : (withStore k st ref lock).cached g.ninodes < NINODE)
    (hself : ∀ j, firstEntry (st.image.content ROOTINO) 0 (matchesName name) = some j →
      (entry (st.image.content ROOTINO) j).inum ≠ ROOTINO)
    (hQ : ∀ st', st'.image.Good g [] → (∀ j, j ≠ ROOTINO → (st'.icache j).valid = false) →
      (∀ j, j ≠ ROOTINO → st'.image.ino j = st.image.ino j) →
      (∀ j l, st.image.Alloc g j → j ≠ ROOTINO → st'.image.slot j l = st.image.slot j l) →
      (∀ j q, st.image.Alloc g j → st'.image.byteAt j q = st.image.byteAt j q) →
      match firstEntry (st.image.content ROOTINO) 0 (matchesName name) with
      | none => Q none (withStore k st' (update ref ROOTINO (ref ROOTINO - 1)) lock)
      | some j => Q (some ((entry (st.image.content ROOTINO) j).inum, []))
          (withStore k st' (update (incRef ref (entry (st.image.content ROOTINO) j).inum) ROOTINO
            (ref ROOTINO - 1)) lock)) :
    Wp (alone p (namexLoop false ROOTINO [name])) Q E (withStore k st ref lock) := by
  have hroot : ROOTINO ≠ 0 := by decide
  rw [namexLoop, wp_alone_bind]
  refine wp_ilock hroot href hlock halloc fun st1 hl1 himage1 hother1 => ?_
  have hready : BlockFs.Ready ROOTINO m st1 :=
    ⟨himage1 ▸ hgood, hl1, himage1 ▸ halloc, by rw [himage1]; exact hmapped⟩
  rw [wp_alone_bind]
  refine wp_stat hl1 ?_
  rw [himage1, if_neg (not_not.mpr htype), if_neg (by simp), wp_alone_bind, Sys.dirlookup, wp_alone_bind, wp_fs]
  refine BlockFs.wp_dirlookup_ready hready (by rw [himage1]; exact hm) hmax (by rw [himage1]; exact hmod)
    (by rw [himage1]; exact htype) fun st2 hkept hready2 => ?_
  rw [himage1]
  have hinvalid2 : ∀ j, j ≠ ROOTINO → (st2.icache j).valid = false := fun j hj => by
    rw [hkept.step.icache j hj, hother1 j hj, hinvalid]
  have hlink2 : (st2.image.ino ROOTINO).nlink ≠ 0 := by
    rw [hkept.ino_eq, himage1]
    exact hlink
  have hres := hQ st2 hready2.good hinvalid2 (fun j hj => by rw [hkept.ino_ne j hj, himage1])
    (fun j l hj hne => by rw [hkept.other j l (himage1 ▸ hj) hne, himage1])
    (fun j q hj => by rw [hkept.byteAt j q (himage1 ▸ hj), himage1])
  cases hfirst : firstEntry (st.image.content ROOTINO) 0 (matchesName name) with
  | none =>
    rw [hfirst] at hres
    show Wp (alone p (iunlockput ROOTINO >>= fun _ => pure none)) Q E _
    rw [wp_alone_bind]
    exact wp_iunlockput hroot href hlock hready2.loaded hlink2 hres
  | some j =>
    rw [hfirst] at hres
    have hne := hself j hfirst
    show Wp (alone p (step (.iget (entry (st.image.content ROOTINO) j).inum) >>= fun _ => pure _)) _ E _
    rw [wp_alone_bind]
    refine wp_iget (hinvalid2 _ hne) hroom ?_
    show Wp (alone p (iunlockput ROOTINO >>= fun _ =>
      namexLoop false (entry (st.image.content ROOTINO) j).inum [])) Q E _
    rw [wp_alone_bind]
    have hsame : incRef ref (entry (st.image.content ROOTINO) j).inum ROOTINO = ref ROOTINO :=
      update_of_ne (Ne.symm hne) ..
    refine wp_iunlockput hroot (by rw [hsame]; exact href) hlock hready2.loaded hlink2 ?_
    rw [hsame]
    exact hres

end

/-! ## The root directory -/

/-- The entries of the root directory: the inode and the name. -/
def rootEntries (files : List Input) : List (ℕ × List UInt8) :=
  (ROOTINO, [46]) :: (ROOTINO, [46, 46]) :: files.zipIdx.map fun e => (e.2 + 2, e.1.entryName)

/-- The bytes of the root directory up to its rounded size. -/
def paddedRoot (files : List Input) : List UInt8 :=
  rootData files ++ List.replicate
    ((16 * (files.length + 2) / BSIZE + 1) * BSIZE - 16 * (files.length + 2)) 0

variable {files : List Input} {s s0 : Mkfs} {i j k : ℕ}

theorem rootData_eq : rootData files = (rootEntries files).flatMap fun e => Dirent.bytes e.1 e.2 := by
  simp [rootData, rootEntries, flatMap_map]

theorem length_rootEntries (files : List Input) : (rootEntries files).length = files.length + 2 := by
  simp [rootEntries]

theorem length_paddedRoot (files : List Input) :
    (paddedRoot files).length = (16 * (files.length + 2) / BSIZE + 1) * BSIZE := by
  rw [paddedRoot, length_append, length_rootData, length_replicate]
  simp only [BSIZE]
  omega

/-- The entries that `mkfs` has written. -/
theorem entry_paddedRoot (hk : k < (rootEntries files).length) :
    entry (paddedRoot files) k = Dirent.read (Dirent.bytes (rootEntries files)[k].1 (rootEntries files)[k].2) := by
  have hlen := length_rootData files
  have hk' := length_rootEntries files ▸ hk
  have hwindow : ((paddedRoot files).drop (DIRENT * k)).take DIRENT =
      ((rootData files).drop (DIRENT * k)).take DIRENT := by
    unfold paddedRoot
    rw [drop_append_of_le_length (by rw [hlen]; simp only [DIRENT, DIRSIZ]; omega),
      take_append_of_le_length (by rw [length_drop, hlen]; simp only [DIRENT, DIRSIZ]; omega)]
  unfold entry
  rw [hwindow, rootData_eq, take_drop_flatMap (fun e => Dirent.bytes_length e.1 e.2) hk]

/-- The entries behind them. -/
theorem inum_paddedRoot (hk : files.length + 2 ≤ k) : (entry (paddedRoot files) k).inum = 0 := by
  have hlen := length_rootData files
  have hzero : ∀ b ∈ (((paddedRoot files).drop (DIRENT * k)).take DIRENT).take 2, b = 0 := by
    intro b hb
    have hb := mem_of_mem_take (mem_of_mem_take hb)
    unfold paddedRoot at hb
    rw [drop_append, drop_eq_nil_of_le (by rw [hlen]; simp only [DIRENT, DIRSIZ]; omega),
      nil_append] at hb
    exact eq_of_mem_replicate (mem_of_mem_drop hb)
  have hval : ∀ l : List UInt8, (∀ b ∈ l, b = 0) → leVal l = 0 := by
    intro l hl
    induction l with
    | nil => rfl
    | cons a l ih =>
      rw [leVal, hl a mem_cons_self, ih fun b hb => hl b (mem_cons_of_mem a hb)]
      rfl
  exact hval _ hzero

/-- The names of the files in the root directory. -/
structure Names (files : List Input) : Prop where
  slash : ∀ f ∈ files, 47 ∉ f.name
  nonempty : ∀ f ∈ files, trunc14 f.entryName ≠ []
  dot : ∀ f ∈ files, trunc14 f.entryName ≠ [46]
  dotdot : ∀ f ∈ files, trunc14 f.entryName ≠ [46, 46]
  distinct : (files.map fun f => trunc14 f.entryName).Nodup

variable {key : List UInt8}

section

variable (hn : files.length + 2 ≤ NINODES)

include hn

/-- An entry that binds a name other than the dots belongs to a file. -/
theorem binds_paddedRoot (hdot : key ≠ [46]) (hdotdot : key ≠ [46, 46]) :
    binds key (entry (paddedRoot files) k) = true ↔
      ∃ j, k = j + 2 ∧ ∃ f, files[j]? = some f ∧ trunc14 f.entryName = key := by
  have hsmall : NINODES < 2 ^ 16 := by decide
  by_cases hk : k < (rootEntries files).length
  · have hk' := length_rootEntries files ▸ hk
    rw [entry_paddedRoot hk]
    match k with
    | 0 =>
      show binds key (Dirent.read (Dirent.bytes ROOTINO [46])) = true ↔ _
      rw [binds_new (by decide) (by decide)]
      constructor
      · rintro rfl
        exact absurd rfl hdot
      · rintro ⟨j, hj, -⟩
        omega
    | 1 =>
      show binds key (Dirent.read (Dirent.bytes ROOTINO [46, 46])) = true ↔ _
      rw [binds_new (by decide) (by decide)]
      constructor
      · rintro rfl
        exact absurd rfl hdotdot
      · rintro ⟨j, hj, -⟩
        omega
    | k + 2 =>
      have hlt : k < files.length := by omega
      have helem : (rootEntries files)[k + 2] = (k + 2, files[k].entryName) := by
        simp [rootEntries]
      rw [helem, binds_new (by omega) (by omega)]
      constructor
      · intro heq
        exact ⟨k, rfl, files[k], getElem?_eq_getElem hlt, heq⟩
      · rintro ⟨j, hj, f, hf, heq⟩
        obtain rfl : k = j := by omega
        rw [getElem?_eq_getElem hlt] at hf
        rwa [Option.some.inj hf]
  · rw [length_rootEntries] at hk
    constructor
    · intro hb
      exact absurd (inum_paddedRoot (Nat.le_of_not_lt hk)) (binds_iff.mp hb).1
    · rintro ⟨j, rfl, f, hf, -⟩
      have := List.getElem?_eq_some_iff.mp hf
      obtain ⟨hlt, -⟩ := this
      omega

theorem inum_file (hj : j < files.length) :
    (entry (paddedRoot files) (j + 2)).inum = j + 2 := by
  have hsmall : NINODES < 2 ^ 16 := by decide
  have hlt : j + 2 < (rootEntries files).length := by
    rw [length_rootEntries]
    omega
  rw [entry_paddedRoot hlt, Dirent.read_bytes]
  have helem : (rootEntries files)[j + 2] = (j + 2, files[j].entryName) := by
    simp [rootEntries]
  rw [helem]
  exact Nat.mod_eq_of_lt (by omega)

/-- A file is found under its name. -/
theorem firstEntry_file {f : Input} (h : Names files)
    (hf : files[j]? = some f) (hkey : trunc14 f.entryName = key) :
    firstEntry (paddedRoot files) 0 (binds key) = some (j + 2) := by
  obtain ⟨hlt, hget⟩ := List.getElem?_eq_some_iff.mp hf
  have hmem : f ∈ files := mem_of_getElem? hf
  have hdot : key ≠ [46] := hkey ▸ h.dot f hmem
  have hdotdot : key ≠ [46, 46] := hkey ▸ h.dotdot f hmem
  have hentries : j + 2 < entries (paddedRoot files) := by
    unfold entries
    rw [length_paddedRoot]
    simp only [BSIZE, DIRENT, DIRSIZ]
    omega
  have hbinds : binds key (entry (paddedRoot files) (j + 2)) = true :=
    (binds_paddedRoot hn hdot hdotdot).mpr ⟨j, rfl, f, hf, hkey⟩
  cases hfirst : firstEntry (paddedRoot files) 0 (binds key) with
  | none => exact absurd hbinds (by rw [firstEntry_none hfirst hentries]; simp)
  | some l =>
    obtain ⟨j', rfl, f', hf', hkey'⟩ :=
      (binds_paddedRoot hn hdot hdotdot).mp (firstEntry_some hfirst).2
    obtain ⟨hlt', hget'⟩ := List.getElem?_eq_some_iff.mp hf'
    have hsame : j' = j := by
      have hl : j' < (files.map fun f => trunc14 f.entryName).length := by simpa using hlt'
      have hr : j < (files.map fun f => trunc14 f.entryName).length := by simpa using hlt
      have heq : (files.map fun f => trunc14 f.entryName)[j'] = (files.map fun f => trunc14 f.entryName)[j] := by
        simp only [getElem_map, hget, hget', hkey, hkey']
      exact h.distinct.getElem_inj_iff.mp heq
    rw [hsame]

/-- Nothing else is found. -/
theorem firstEntry_other (hdot : key ≠ [46])
    (hdotdot : key ≠ [46, 46]) (hkey : ∀ f ∈ files, trunc14 f.entryName ≠ key) :
    firstEntry (paddedRoot files) 0 (binds key) = none := by
  cases hfirst : firstEntry (paddedRoot files) 0 (binds key) with
  | none => rfl
  | some l =>
    obtain ⟨j, -, f, hf, heq⟩ := (binds_paddedRoot hn hdot hdotdot).mp (firstEntry_some hfirst).2
    exact absurd heq (hkey f (mem_of_getElem? hf))

end

/-! ## The image that the kernel finds -/

section

variable (h : Made files s s0)

include h

theorem Made.good : s.boot.image.Good disk [] where
  data := fun i k hi hne => by
    rw [h.slot] at hne ⊢
    exact h.holds.consistent.data i k (h.alloc_iff.mp hi) hne
  inj := fun i j k l hi hj hne heq => by
    rw [h.slot] at hne heq
    rw [h.slot] at heq
    exact h.holds.consistent.once i j k l (h.alloc_iff.mp hi) (h.alloc_iff.mp hj) hne heq
  bits := fun b hb => by
    rw [h.shows.bm b hb]
    refine ((h.holds.consistent.bitmap b hb).trans (or_congr Iff.rfl ?_))
    simp only [Held, h.alloc_iff, h.slot, not_mem_nil, or_false]
  nodup := nodup_nil
  flight := nofun

theorem Made.byteAt (i q : ℕ) : s.boot.image.byteAt i q = s0.image.byteAt i q := by
  have hdat : s.boot.image.dat = s0.image.dat := h.shows.dat
  unfold Image.byteAt addr
  rw [h.slot, hdat]

theorem Made.mapped (hn : files.length + 2 ≤ NINODES) (hpos : 0 < i)
    (hlt : i < files.length + 2) : s.boot.image.Mapped i (Image.blocksOf (layout files i).length) := by
  have hi := (h.holds.alloc_iff hn).mpr ⟨hpos, hlt⟩
  have hm := h.holds.consistent.mapped hi (h.holds.hasContent hn hi)
  rw [h.holds.size hpos hlt] at hm
  exact hm.congr fun l => h.slot l

theorem Made.content_root : s.boot.image.content ROOTINO = paddedRoot files := by
  have hroot : layout files ROOTINO = rootData files := rfl
  have hcontent := h.holds.content ROOTINO (by decide) (by simp [ROOTINO])
  rw [hroot] at hcontent
  have hlen := length_rootData files
  have hpad := length_paddedRoot files
  unfold paddedRoot at hpad ⊢
  refine ext_getElem ?_ fun q hq hq' => ?_
  · rw [content_length, h.ino_root, hpad]
  · rw [getElem_content, h.byteAt]
    by_cases hlt : q < (rootData files).length
    · rw [getElem_append_left hlt]
      have hq0 : q < (s0.image.content ROOTINO).length := by
        rw [hcontent]
        exact hlt
      rw [← getElem_content hq0]
      simp only [hcontent]
    · rw [getElem_append_right (Nat.le_of_not_lt hlt), getElem_replicate]
      exact h.holds.tail ROOTINO q (by decide) (by simp [ROOTINO]) (Nat.le_of_not_lt hlt)

theorem Made.freeBlocks :
    s.boot.image.freeBlocks disk + nmeta + used (files.length + 2) (layout files) = FSSIZE := by
  have hset : s.boot.image.freeBlocks disk = s0.image.freeBlocks disk :=
    congrArg Finset.card (Finset.filter_congr fun b hb => by
      rw [h.shows.bm b (Finset.mem_range.mp hb)]
      exact Iff.rfl)
  rw [hset]
  exact h.holds.room

/-- The blocks of the root directory, for its rounded size. -/
theorem Made.root_blocks (hn : files.length + 2 ≤ NINODES)
    (hfree : 0 < s.boot.image.freeBlocks disk) : s.boot.image.Mapped ROOTINO (16 * (files.length + 2) / BSIZE + 1) ∨
      ∃ m', 16 * (files.length + 2) / BSIZE + 1 = m' + 1 ∧ m' < NDIRECT ∧ s.boot.image.Mapped ROOTINO m' ∧
        0 < s.boot.image.freeBlocks disk := by
  have hm := h.mapped hn (i := ROOTINO) (by decide) (by simp [ROOTINO])
  rw [show layout files ROOTINO = rootData files from rfl, length_rootData] at hm
  by_cases hmod : 16 * (files.length + 2) % BSIZE = 0
  · refine .inr ⟨16 * (files.length + 2) / BSIZE, rfl, ?_, ?_, hfree⟩
    · simp only [BSIZE, NDIRECT, NINODES] at hn ⊢
      omega
    · rwa [show 16 * (files.length + 2) / BSIZE = Image.blocksOf (16 * (files.length + 2)) by
        simp only [Image.blocksOf, BSIZE] at hmod ⊢
        omega]
  · refine .inl ?_
    rwa [show 16 * (files.length + 2) / BSIZE + 1 = Image.blocksOf (16 * (files.length + 2)) by
      simp only [Image.blocksOf, BSIZE] at hmod ⊢
      omega]

end

/-! ## Files under their names -/

section
variable {P : Type} [DecidableEq P] {p : P} {k : Kernel (BlockFs disk) P} {path name : List UInt8}
  {E : Halt → Kernel (BlockFs disk) P → Prop}

/-- The kernel over a new file system: no inode has been read or locked, and two more fit into the cache. -/
structure Fresh (k : Kernel (BlockFs disk) P) (s : Mkfs) : Prop where
  store : k.store = s.boot
  lock : ∀ i, k.lock i = none
  room : k.cached NINODES + 2 ≤ NINODE

/-- A path of one component, from the root directory. -/
structure InRoot (k : Kernel (BlockFs disk) P) (p : P) (path name : List UInt8) : Prop where
  start : path.head? = some slash ∨ (k.proc p).cwd = ROOTINO
  component : components path = [name]

theorem wp_namexStart {Q : ℕ → Kernel (BlockFs disk) P → Prop} (hfresh : Fresh k s) (hpath : InRoot k p path name)
    (hQ : Q ROOTINO (withStore k s.boot (incRef k.ref ROOTINO) k.lock)) : Wp (alone p (namexStart path)) Q E k := by
  have hk : k = withStore k s.boot k.ref k.lock := by
    rw [← hfresh.store]
    rfl
  unfold namexStart
  by_cases hslash : path.head? = some slash
  · rw [if_pos hslash, wp_alone_bind, hk]
    refine wp_iget rfl ?_ hQ
    have := hfresh.room
    show k.cached NINODES < NINODE
    omega
  · rw [if_neg hslash, wp_alone_bind, hk, wp_step]
    show Wp (alone p (step (.idup (k.proc p).cwd) >>= fun _ => pure (k.proc p).cwd)) Q E _
    rw [hpath.start.resolve_left hslash, wp_alone_bind, wp_step]
    exact hQ

theorem trunc14_take (name : List UInt8) : trunc14 (name.take DIRSIZ) = trunc14 name := by
  unfold trunc14
  have htake : ∀ (n : ℕ) (l : List UInt8),
      ((l.take n).takeWhile (· != 0)).take n = (l.takeWhile (· != 0)).take n := by
    intro n l
    induction l generalizing n with
    | nil => simp
    | cons a l ih =>
      cases n with
      | zero => simp
      | succ n =>
        by_cases ha : a = 0
        · simp [ha]
        · simp [ha, ih]
  exact htake DIRSIZ name

/-- `namei` of a name that is not one of the dots. -/
theorem wp_namei {Q : Option (ℕ × List UInt8) → Kernel (BlockFs disk) P → Prop} (h : Made files s s0)
    (hn : files.length + 2 ≤ NINODES) (hfree : 0 < s.boot.image.freeBlocks disk) (hfresh : Fresh k s)
    (hpath : InRoot k p path name) (hdot : trunc14 name ≠ [46]) (hdotdot : trunc14 name ≠ [46, 46])
    (hQ : ∀ st', st'.image.Good disk [] → (∀ j, j ≠ ROOTINO → st'.image.ino j = s.boot.image.ino j) →
      (∀ j l, s.boot.image.Alloc disk j → j ≠ ROOTINO → st'.image.slot j l = s.boot.image.slot j l) →
      (∀ j q, s.boot.image.Alloc disk j → st'.image.byteAt j q = s.boot.image.byteAt j q) →
      match firstEntry (paddedRoot files) 0 (binds (trunc14 name)) with
      | none => ∀ ref, Q none (withStore k st' ref k.lock)
      | some j => ∀ ref, 0 < ref (entry (paddedRoot files) j).inum →
        Q (some ((entry (paddedRoot files) j).inum, [])) (withStore k st' ref k.lock)) :
    Wp (alone p (namei path)) Q E k := by
  have halloc : s.boot.image.Alloc disk ROOTINO :=
    h.alloc_iff.mpr ((h.holds.alloc_iff hn).mpr ⟨by decide, by simp [ROOTINO]⟩)
  have hkey : matchesName (name.take DIRSIZ) = binds (trunc14 name) := by
    rw [matchesName_eq, trunc14_take]
  unfold namei namex
  rw [wp_alone_bind]
  refine wp_namexStart hfresh hpath ?_
  rw [elems_eq_components, hpath.component, map_cons, map_nil]
  refine wp_namexLoop_last (m := 16 * (files.length + 2) / BSIZE + 1) ?_ (hfresh.lock _) halloc h.good
    (h.root_blocks hn hfree) ?_ ?_ ?_ ?_ ?_ (fun _ => rfl) ?_ ?_ ?_
  · rw [incRef_self]
    exact Nat.succ_pos _
  · rw [h.ino_root]
    simp only [Image.blocksOf, BSIZE]
    omega
  · simp only [BSIZE, NINODES, MAXFILE, NDIRECT, NINDIRECT] at hn ⊢
    omega
  · rw [h.ino_root]
    simp only [BSIZE, DIRENT, DIRSIZ]
    omega
  · rw [h.ino_root]
    have := h.holds.type ROOTINO (by decide)
    rw [if_neg (by simp [ROOTINO]), if_pos rfl] at this
    exact this
  · rw [h.ino_root]
    have := h.holds.nlink ROOTINO (by decide) (by simp [ROOTINO])
    simp only [this]
    decide
  · have hroom := hfresh.room
    have hcount := count_incRef NINODES k.ref ROOTINO
    refine Nat.lt_of_le_of_lt hcount ?_
    show k.cached NINODES + 1 < NINODE
    omega
  · rw [h.content_root, hkey]
    intro j hj
    obtain ⟨j', rfl, f, hf, -⟩ := (binds_paddedRoot hn hdot hdotdot).mp (firstEntry_some hj).2
    obtain ⟨hlt, -⟩ := List.getElem?_eq_some_iff.mp hf
    rw [inum_file hn hlt]
    simp [ROOTINO]
  · rw [h.content_root, hkey]
    intro st' hgood _ hino hslot hbyte
    have hres := hQ st' hgood hino hslot hbyte
    cases hfirst : firstEntry (paddedRoot files) 0 (binds (trunc14 name)) with
    | none =>
      rw [hfirst] at hres
      exact hres _
    | some j =>
      rw [hfirst] at hres
      refine hres _ ?_
      obtain ⟨j', rfl, f, hf, -⟩ := (binds_paddedRoot hn hdot hdotdot).mp (firstEntry_some hfirst).2
      obtain ⟨hlt, -⟩ := List.getElem?_eq_some_iff.mp hf
      rw [inum_file hn hlt, update_of_ne (by simp [ROOTINO]), incRef_self]
      exact Nat.succ_pos _

/-- The type and all bytes of an inode. -/
def readAll (i : ℕ) : Sys P (BitVec 16 × Option (List UInt8)) := do
  ilock i
  let st ← fs (.stat i)
  let bytes ← readi i 0 st.size
  pure (st.type, bytes)

/-- The type and all bytes of what `namei` has found. -/
def readFound : Option (ℕ × List UInt8) → Sys P (Option (BitVec 16 × Option (List UInt8)))
  | none => pure none
  | some (i, _) => do
    let x ← readAll i
    pure (some x)

/-- `namei`, and the type and all bytes of what it finds. -/
def fetch (path : List UInt8) : Sys P (Option (BitVec 16 × Option (List UInt8))) := do
  let r ← namei path
  readFound r

theorem wp_readAll {st : BlockFs disk} {ref : ℕ → ℕ} {lock : ℕ → Option P}
    {Q : BitVec 16 × Option (List UInt8) → Kernel (BlockFs disk) P → Prop} (hi : i ≠ 0) (href : 0 < ref i)
    (hlock : lock i = none) (hgood : st.image.Good disk []) (halloc : st.image.Alloc disk i)
    (hdev : (st.image.ino i).type ≠ T_DEV) (hm : st.image.Mapped i (Image.blocksOf (st.image.ino i).size))
    (hsize : (st.image.ino i).size < 2 ^ 32) (hQ : ∀ k', Q ((st.image.ino i).type, some (st.image.content i)) k') :
    Wp (alone p (readAll i)) Q E (withStore k st ref lock) := by
  unfold readAll
  rw [wp_alone_bind]
  refine wp_ilock hi href hlock halloc fun st1 hl himage _ => ?_
  rw [← himage] at hgood halloc hdev hm hsize hQ
  rw [wp_alone_bind]
  refine wp_stat hl ?_
  rw [wp_alone_bind, Sys.readi, wp_alone_bind]
  refine wp_stat hl ?_
  rw [if_neg hdev, wp_fs]
  exact BlockFs.wp_readi_whole hgood hl halloc hm hsize (hQ _)

/-- `readsb`: the fields of the super block that the file system uses. -/
def readsb (x : Block) : ℕ × ℕ × ℕ × ℕ := (x.word 0, x.word 8, x.word 20, x.word 24)

theorem readsb_superblock : readsb (Page.move (fun _ => 0) 0 superblock) =
    (disk.size, disk.ninodes, disk.inodestart, disk.bmapstart) := by
  decide

/-- The kernel finds the files under their names with their bytes, and nothing else. -/
structure Agrees (files : List Input) (k : Kernel (BlockFs disk) P) (p : P) : Prop where
  file : ∀ path name f, InRoot k p path name → f ∈ files → trunc14 name = trunc14 f.entryName →
    Wp (alone p (fetch path)) (fun r _ => r = some (T_FILE, some f.data)) (fun _ _ => False) k
  other : ∀ path name, InRoot k p path name → trunc14 name ≠ [46] → trunc14 name ≠ [46, 46] →
    (∀ f ∈ files, trunc14 f.entryName ≠ trunc14 name) →
    Wp (alone p (namei path)) (fun r _ => r = none) (fun _ _ => False) k

theorem wp_fetch {f : Input} (h : Made files s s0) (hn : files.length + 2 ≤ NINODES) (hnames : Names files)
    (hsmall : ∀ f ∈ files, f.data.length ≤ MAXFILE * BSIZE) (hfree : 0 < s.boot.image.freeBlocks disk)
    (hfresh : Fresh k s) (hpath : InRoot k p path name) (hf : f ∈ files) (hname : trunc14 name = trunc14 f.entryName) :
    Wp (alone p (fetch path)) (fun r _ => r = some (T_FILE, some f.data)) (fun _ _ => False) k := by
  obtain ⟨j, hlt, hget⟩ := getElem_of_mem hf
  have hget? : files[j]? = some f := by rw [getElem?_eq_getElem hlt, hget]
  have hlayout : layout files (j + 2) = f.data := by simp [layout, hget?]
  have hne : j + 2 ≠ ROOTINO := by simp [ROOTINO]
  have halloc : s.boot.image.Alloc disk (j + 2) :=
    h.alloc_iff.mpr ((h.holds.alloc_iff hn).mpr ⟨by omega, by omega⟩)
  have hsize : (s.boot.image.ino (j + 2)).size = f.data.length := by
    rw [h.ino_ne hne, h.holds.size (by omega) (by omega), hlayout]
  have htype : (s.boot.image.ino (j + 2)).type = T_FILE := by
    rw [h.ino_ne hne, h.holds.type _ halloc.1, if_neg (by omega), if_neg hne]
  have hbig : f.data.length < 2 ^ 32 := Nat.lt_of_le_of_lt (hsmall f hf) (by decide)
  unfold fetch
  rw [wp_alone_bind]
  refine wp_namei h hn hfree hfresh hpath (by rw [hname]; exact hnames.dot f hf)
    (by rw [hname]; exact hnames.dotdot f hf) ?_
  intro st' hgood hino hslot hbyte
  rw [firstEntry_file hn hnames hget? hname.symm]
  intro ref href
  rw [inum_file hn hlt] at href
  have hino' := hino (j + 2) hne
  have hmapped := (h.mapped hn (i := j + 2) (by omega) (by omega)).congr fun l => hslot (j + 2) l halloc hne
  have hcontent : st'.image.content (j + 2) = f.data := by
    rw [← hlayout, ← h.holds.content (j + 2) (by omega) (by omega)]
    unfold Image.content
    rw [hino', h.ino_ne hne]
    exact map_congr_left fun q _ => (hbyte (j + 2) q halloc).trans (h.byteAt (j + 2) q)
  rw [inum_file hn hlt, readFound, wp_alone_bind]
  refine wp_readAll (by omega) href (hfresh.lock _) hgood ⟨halloc.1, ?_⟩ ?_ ?_ ?_ fun k' => ?_
  · rw [hino']
    exact halloc.2
  · rw [hino', htype]
    exact (by decide : T_FILE ≠ T_DEV)
  · rw [hino', hsize, ← hlayout]
    exact hmapped
  · rw [hino', hsize]
    exact hbig
  · rw [hino', htype, hcontent]
    rfl

/-- `mkfs` and the kernel agree on the format: from at most 190 files under different names, of a size that
inodes allow, and with a block to spare, `mkfs` makes an image on which `namei` finds every file under its
name and `readi` its bytes, and no other name is found. -/
theorem mkfs_kernel_agree (hcount : files.length ≤ 190) (hnames : Names files)
    (hsmall : ∀ f ∈ files, f.data.length ≤ MAXFILE * BSIZE)
    (hroom : nmeta + used (files.length + 2) (layout files) < FSSIZE) : ∃ s, (main files).run start = .ok () s ∧
      readsb (s.boot.blk 1) = (disk.size, disk.ninodes, disk.inodestart, disk.bmapstart) ∧
      ∀ (k : Kernel (BlockFs disk) P) (p : P), Fresh k s → Agrees files k p := by
  have hn : files.length + 2 ≤ NINODES := Nat.le_trans (Nat.add_le_add_right hcount 2) (by decide)
  obtain ⟨s, s0, hrun, hmade⟩ := main_returns hn ⟨hnames.slash, hsmall, Nat.le_of_lt hroom⟩
  have hsuper : s.boot.blk 1 = Page.move (fun _ => 0) 0 superblock := hmade.super
  refine ⟨s, hrun, by rw [hsuper, readsb_superblock], fun k p hfresh => ?_⟩
  have hfree : 0 < s.boot.image.freeBlocks disk := by
    have := hmade.freeBlocks
    omega
  refine ⟨fun path name f hpath hf hname => ?_, fun path name hpath hdot hdotdot hother => ?_⟩
  · exact wp_fetch hmade hn hnames hsmall hfree hfresh hpath hf hname
  · refine wp_namei hmade hn hfree hfresh hpath hdot hdotdot fun st' _ _ _ _ => ?_
    rw [firstEntry_other hn hdot hdotdot hother]
    exact fun _ => rfl

end

/-- A kernel that has just been started. -/
def started (s : Mkfs) : Kernel (BlockFs disk) Unit where
  store := s.boot
  ref := fun _ => 0
  lock := fun _ => none
  file := fun _ => ⟨0, .none, false, false, 0⟩
  pipe := fun _ => none
  proc := fun _ => ⟨.running, ROOTINO, fun _ => none, 0, 0⟩
  initproc := ()

/-- A file `_a` of three bytes that is read in two chunks. -/
def oneInput : Input := ⟨[95, 97], [[1, 2], [3]]⟩

/-- `mkfs fs.img _a`. -/
theorem mkfs_kernel_agree_one : ∃ s, (main [oneInput]).run start = .ok () s ∧ Agrees [oneInput] (started s) () := by
  have hcount : [oneInput].length ≤ 190 := by decide
  obtain ⟨s, hrun, -, hagrees⟩ := mkfs_kernel_agree (P := Unit) hcount
    ⟨by decide, by decide, by decide, by decide, by decide⟩ (by decide) (by decide)
  exact ⟨s, hrun, hagrees (started s) () ⟨rfl, fun _ => rfl, by simp [Kernel.cached, started, NINODE]⟩⟩

end Mkfs

end Xv6
