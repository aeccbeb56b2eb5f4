import Xv6.Fs.Dir

/-!
# The code over blocks refines the operations on files

Every operation on a locked inode keeps the blocks sound, and does to the files they stand for what
`Files.exec` says (`exec_refines`).
-/

namespace Xv6

open Function Code List

open Image

namespace BlockFs

variable {g : Geometry} {s s' : BlockFs g} {i d off n : ℕ}

/-! ## Changing one inode of an image -/

variable {v : Image} {type : BitVec 16} {src name : List UInt8}

theorem content_congr {v' : Image} (hsize : (v'.ino i).size = (v.ino i).size)
    (haddrs : (v'.ino i).addrs = (v.ino i).addrs) (hdat : v'.dat = v.dat) : v'.content i = v.content i := by
  have hslot : ∀ k, v'.slot i k = v.slot i k := fun k => slot_congr haddrs fun _ => by rw [hdat]
  have hbyte : v'.byteAt i = v.byteAt i := by
    funext p
    rw [byteAt, byteAt, addr, addr, hslot, hdat]
  rw [content, content, hsize, hbyte]

/-- Changing fields of an inode that say nothing about its blocks. -/
theorem consistent_setIno (h : v.Consistent g) {d : Dinode} (htype : d.type = (v.ino i).type)
    (hsize : d.size = (v.ino i).size) (haddrs : d.addrs = (v.ino i).addrs) : (v.setIno i d).Consistent g := by
  refine Good.consistent (h.good.setIno haddrs (by rw [htype])) fun j hj hc => ?_
  have hself : (v.setIno i d).ino i = d := by simp [setIno]
  have hother : ∀ j, j ≠ i → (v.setIno i d).ino j = v.ino j := fun j hj => by simp [setIno, hj]
  by_cases hji : j = i
  · subst hji
    have hj' : v.Alloc g j := ⟨hj.1, by rw [← htype, ← hself]; exact hj.2⟩
    have hc' : HasContent (v.ino j) := by
      unfold HasContent at hc ⊢
      rwa [hself, htype] at hc
    rw [hself, hsize]
    exact (h.mapped hj' hc').congr fun l => slot_congr (by rw [hself, haddrs]) fun _ => rfl
  · rw [hother j hji] at hc ⊢
    exact (h.mapped ⟨hj.1, by rw [← hother j hji]; exact hj.2⟩ hc).congr fun l => slot_setIno_ne hji

/-- Giving an inode without blocks new fields. -/
theorem consistent_setIno_empty (hgood : v.Good g []) (hmapped : ∀ j, j ≠ i → v.Alloc g j → HasContent (v.ino j) →
      v.Mapped j (blocksOf (v.ino j).size))
    (hempty : v.Alloc g i → ∀ k, v.slot i k = 0) {d : Dinode} (hsize : d.size = 0)
    (haddrs : d.addrs = fun _ => 0) : (v.setIno i d).Consistent g := by
  refine Good.consistent (hgood.setIno_empty haddrs hempty) fun j hj hc => ?_
  have hself : (v.setIno i d).ino i = d := by simp [setIno]
  have hother : ∀ j, j ≠ i → (v.setIno i d).ino j = v.ino j := fun j hj => by simp [setIno, hj]
  by_cases hji : j = i
  · subst hji
    have hslot : ∀ k, (v.setIno j d).slot j k = 0 := fun k =>
      slot_of_addrs_zero (by rw [hself, haddrs])
    rw [hself, hsize]
    refine ⟨fun bn => ?_, ?_⟩
    · simp [addr, hslot, blocksOf, BSIZE]
    · rw [hself, haddrs]
      simp [blocksOf, BSIZE]
  · rw [hother j hji] at hc ⊢
    exact (hmapped j hji ⟨hj.1, by rw [← hother j hji]; exact hj.2⟩ hc).congr fun l => slot_setIno_ne hji

/-! ## Keeping the blocks sound -/

/-- Code that holds one inode keeps the blocks sound if it keeps that inode sound. -/
theorem Sound.of_step (h : s.Sound) (hstep : Step i s s') (hcons : s'.image.Consistent g)
    (hne : ∀ j, j ≠ i → s'.image.ino j = s.image.ino j)
    (htyped : s'.image.Alloc g i → Files.Typed (s'.image.ino i).type)
    (hthrough : (s'.icache i).valid = true → (s'.icache i).copy = s'.dinode i ∧ (s'.dinode i).type ≠ 0) : s'.Sound where
  consistent := hcons
  typed := fun j hj => by
    by_cases hji : j = i
    · exact hji ▸ htyped (hji ▸ hj)
    · rw [hne j hji]
      exact h.typed j ⟨hj.1, by rw [← hne j hji]; exact hj.2⟩
  through := fun j hj hv => by
    by_cases hji : j = i
    · subst hji
      exact hthrough hv
    · rw [hstep.icache j hji] at hv ⊢
      rw [hstep.dinode j hji hj]
      exact h.through j hj hv

/-- What happens to the files when code changes one inode and the contents of no other. -/
theorem files_eq (hvalid : ∀ j, (s'.icache j).valid = (s.icache j).valid)
    (hne : ∀ j, j ≠ i → s'.image.ino j = s.image.ino j)
    (hcont : ∀ j, j ≠ i → (s.image.ino j).type ≠ 0 → s'.image.content j = s.image.content j) :
    s'.files = s.files.setNode i (s'.files.node i) := by
  have hnode : s'.files.node = update s.files.node i (s'.files.node i) := by
    funext j
    by_cases hji : j = i
    · subst hji
      simp
    · rw [update_of_ne hji]
      simp only [files, hne j hji]
      split
      · rfl
      · rename_i htype
        rw [hcont j hji htype]
  have hv : s'.files.valid = s.files.valid := funext hvalid
  unfold Files.setNode
  rw [← hnode, ← hv]

theorem Step.valid_eq (h : Step i s s') (j : ℕ) : (s'.icache j).valid = (s.icache j).valid := by
  by_cases hji : j = i
  · rw [hji, h.valid]
  · rw [h.icache j hji]

/-! ## The operations -/

/-- The outcome of an operation agrees with the operation on files. -/
structure Agrees (s : BlockFs g) (op : FsOp) (r : op.Resp) (s' : BlockFs g) : Prop where
  sound : s'.Sound
  files : (Files.exec g.ninodes op).run s.files = .ok r s'.files
  logs : Logs s s'
  logged : op.Looks → s'.logged = s.logged

/-- A panic of an operation that is not due to a full disk is one of the operation on files. -/
def AgreesStop (s : BlockFs g) (op : FsOp) (e : Halt) : Prop :=
  e = .panic .ballocOutOfBlocks ∨ ∃ t, (Files.exec g.ninodes op).run s.files = .error e t

/-- The code of an operation agrees with the operation on files. -/
abbrev Refines (s : BlockFs g) (op : FsOp) : Prop := Wp (exec op) (Agrees s op) (fun e _ => AgreesStop s op e) s

theorem files_setValid {v : Bool} (himage : s'.image = s.image) (hic : ∀ j, j ≠ i → s'.icache j = s.icache j)
    (hi : (s'.icache i).valid = v) : s'.files = s.files.setValid i v := by
  have hvalid : s'.files.valid = update s.files.valid i v := by
    funext j
    by_cases hji : j = i
    · subst hji
      simpa [files] using hi
    · simp [files, hji, hic j hji]
  unfold Files.setValid
  rw [← hvalid]
  simp [files, himage]

section

variable (h : s.Sound)

include h

theorem agrees_load (hi : i < g.ninodes) : Refines s (.load i) := by
  have hrun : (Files.exec g.ninodes (.load i)).run s.files =
      if (s.icache i).valid then .ok () s.files
      else if (s.image.ino i).type = 0 then .error (.panic .ilockNoType) s.files
      else .ok () (s.files.setValid i true) := rfl
  refine wp_iload hi (fun s' hl himage hic hblk hlog hread => ⟨?_, ?_, .of_blk hblk hlog, fun _ => hlog⟩) ?_
  · have hdinode : s'.dinode = s.dinode := funext fun j => by rw [dinode, dinode, hblk]
    refine ⟨himage ▸ h.consistent, himage ▸ h.typed, fun j hj hv => ?_⟩
    rw [hdinode]
    by_cases hji : j = i
    · subst hji
      rw [hl.copy_eq, himage, h.ino_eq hj]
      refine ⟨rfl, ?_⟩
      by_cases hv' : (s.icache j).valid = true
      · exact (h.through j hj hv').2
      · exact (hread (by simpa using hv')).2
    · rw [hic j hji] at hv ⊢
      exact h.through j hj hv
  · rw [hrun, files_setValid himage hic hl.2]
    split
    · rename_i hv
      have hsame : update s.files.valid i true = s.files.valid :=
        update_eq_self_iff.mpr hv.symm
      unfold Files.setValid
      rw [hsame]
    · rename_i hv
      have hino := hread (by simpa using hv)
      rw [himage] at hino
      rw [if_neg (by rw [hino.1]; exact hino.2)]
  · intro hv htype s'
    exact .inr ⟨s.files, by rw [hrun, hv]; simp [htype]⟩

theorem agrees_isValid : Refines s (.isValid i) :=
  ⟨h, rfl, .refl s, fun _ => rfl⟩

theorem agrees_stat (hl : s.Loaded i) : Refines s (.stat i) := by
  unfold Refines exec
  rw [wp_bind]
  refine wp_ip hl ⟨h, ?_, .refl s, fun _ => rfl⟩
  show EStateM.Result.ok (Stat.mk _ _ _ _ _) _ = _
  rw [h.data_eq hl, content_length]
  rfl

theorem agrees_invalidate : Refines s (.invalidate i) := by
  unfold Refines exec
  rw [wp_modify]
  set s' : BlockFs g := { s with icache := update s.icache i { s.icache i with valid := false } }
    with hs'
  have hic : ∀ j, j ≠ i → s'.icache j = s.icache j := fun j hj => update_of_ne hj _ _
  have hi : (s'.icache i).valid = false := by simp [hs']
  have hino : s'.image.ino = s.image.ino := by
    funext j
    by_cases hj : j < g.ninodes
    · -- what the cache forgets is what the disk holds
      rw [h.ino_eq hj]
      unfold image
      simp only [if_pos hj]
      by_cases hji : j = i
      · rw [hji, hi]
        rfl
      · rw [hic j hji]
        split
        · rename_i hv
          exact (h.through j hj hv).1
        · rfl
    · simp [image, hj]
  have himage : s'.image = s.image := Image.ext hino rfl rfl
  refine ⟨⟨himage ▸ h.consistent, himage ▸ h.typed, fun j hj hv => ?_⟩, ?_, .of_blk rfl rfl, fun _ => rfl⟩
  · by_cases hji : j = i
    · rw [hji, hi] at hv
      exact absurd hv Bool.false_ne_true
    · rw [hic j hji] at hv ⊢
      exact h.through j hj hv
  · rw [files_setValid himage hic hi]
    rfl

theorem agrees_update (hl : s.Loaded i) (c : Change) : Refines s (.update i c) := by
  unfold Refines exec change
  rw [wp_bind]
  refine wp_ip hl ?_
  set d := s.image.ino i with hd
  rw [wp_bind]
  refine wp_setIp hl fun s1 hstep1 himage1 hdin1 => ?_
  have hino1 : s1.image.ino i = { d with
      nlink := c.nlink d.nlink, major := c.major d.major, minor := c.minor d.minor } := by
    rw [himage1]
    simp [setIno]
  have hfits : d.Fits := by
    rw [hd, h.ino_eq hl.1]
    exact Dinode.fits_read _ _
  refine wp_iupdate (hl.step hstep1) (by rw [hino1]; exact hfits) fun s2 hstep2 himage2 hdin2 => ?_
  have hstep := hstep1.trans hstep2
  have himage : s2.image = s.image.setIno i { d with
      nlink := c.nlink d.nlink, major := c.major d.major, minor := c.minor d.minor } :=
    himage2.trans himage1
  have hne : ∀ j, j ≠ i → s2.image.ino j = s.image.ino j := fun j hj => by
    rw [himage]
    simp [setIno, hj]
  have hself := (congrArg (fun v => v.ino i) himage2).trans hino1
  have hcont : ∀ j, s2.image.content j = s.image.content j := fun j => by
    by_cases hji : j = i
    · subst hji
      exact content_congr (by rw [hself]) (by rw [hself]) (by rw [himage]; rfl)
    · exact content_congr (by rw [hne j hji]) (by rw [hne j hji]) (by rw [himage]; rfl)
  refine ⟨h.of_step hstep ?_ hne ?_ ?_, ?_, hstep.logs, False.elim⟩
  · rw [himage]
    exact consistent_setIno h.consistent rfl rfl rfl
  · intro _
    rw [hself]
    exact h.typed i (h.alloc hl)
  · intro _
    have hl2 := hl.step hstep
    rw [hl2.copy_eq, hdin2, himage2, hino1]
    exact ⟨rfl, (h.alloc hl).2⟩
  · rw [files_eq hstep.valid_eq hne fun j _ _ => hcont j]
    have hnode : s2.files.node i = { s.files.node i with
        nlink := c.nlink d.nlink, major := c.major d.major, minor := c.minor d.minor } := by
      simp only [files, hself, hcont i, ← hd]
    rw [hnode]
    rfl

/-! ## Allocating and freeing inodes -/

/-- `ialloc` of a free inode that it has found. -/
theorem agrees_claim (htype : Files.Typed type) (hi : i < g.ninodes)
    (hfree : (s.dinode i).type = 0) : ∀ s' : BlockFs g, s' = { s with
        blk := update s.blk (g.IBLOCK i)
          ((s.blk (g.IBLOCK i)).move (inodeOff i) { Dinode.zero with type }.bytes),
        logged := s.logged ++ [g.IBLOCK i] } →
      s'.Sound ∧ s'.files = s.files.setNode i ⟨type, 0, 0, 0, []⟩ ∧ Logs s s' := by
  intro s' hs'
  obtain ⟨hne, hself, hic, hdat, hbm⟩ := dinode_write hi { Dinode.zero with type } hs'
  have hdin : s'.dinode i = { Dinode.zero with type } :=
    hself ⟨by norm_num [Dinode.zero], fun k => by norm_num [Dinode.zero]⟩
  have hinvalid : (s.icache i).valid = false := by
    by_contra hv
    exact (h.through i hi (by simpa using hv)).2 hfree
  have hlogs : Logs s s' := by
    rw [hs']
    exact logs_logWrite _ (IBLOCK_in hi)
  have hstep : Step i s s' := ⟨hlogs, fun j _ => by rw [hic], by rw [hic], fun j hj _ => hne j hj⟩
  have hself : s'.image.ino i = { Dinode.zero with type } := by
    rw [← hdin]
    simp [image, hi, hic, hinvalid]
  have hino : ∀ j, j ≠ i → s'.image.ino j = s.image.ino j := fun j hj => by
    unfold image
    simp only [hic, hne j hj]
  have himage : s'.image = s.image.setIno i { Dinode.zero with type } := by
    refine Image.ext (funext fun j => ?_) hdat hbm
    by_cases hji : j = i
    · rw [hji, hself]
      simp [setIno]
    · rw [hino j hji]
      simp [setIno, hji]
  have hnot : ¬ s.image.Alloc g i := fun ha => ha.2 (by rw [h.ino_eq hi, hfree])
  refine ⟨h.of_step hstep ?_ hino ?_ ?_, ?_, hlogs⟩
  · rw [himage]
    exact consistent_setIno_empty h.consistent.good (fun j _ hj hc => h.consistent.mapped hj hc)
      (fun ha => absurd ha hnot) rfl rfl
  · intro _
    rwa [hself]
  · intro hv
    rw [hic, hinvalid] at hv
    exact absurd hv Bool.false_ne_true
  · rw [files_eq hstep.valid_eq hino fun j hj _ =>
      content_congr (by rw [hino j hj]) (by rw [hino j hj]) hdat]
    have hnode : s'.files.node i = ⟨type, 0, 0, 0, []⟩ := by
      have hempty : s'.image.content i = [] := by
        rw [← length_eq_zero_iff, content_length, hself]
        rfl
      simp only [files, hself, hempty, ite_self]
      rfl
    rw [hnode]

theorem agrees_ialloc (htype : Files.Typed type) : Refines s (.ialloc type) := by
  -- the loop finds the first free inode
  have hloop : ∀ l : List ℕ, (∀ i ∈ l, i < g.ninodes) →
      Wp (iallocLoop type l)
        (fun r s' => l.find? (fun i => (s.files.node i).type = 0) = some r ∧ s'.Sound ∧
          s'.files = s.files.setNode r ⟨type, 0, 0, 0, []⟩ ∧ Logs s s')
        (fun e _ => e = .panic .iallocNoInodes ∧
          l.find? (fun i => (s.files.node i).type = 0) = none) s := by
    intro l
    induction l with
    | nil => exact fun _ => ⟨rfl, rfl⟩
    | cons i l ih =>
      intro hl
      have hi := hl i mem_cons_self
      have hnode : (s.files.node i).type = (s.dinode i).type := by rw [← h.ino_eq hi]; rfl
      unfold iallocLoop bread
      rw [wp_bind, wp_bind, wp_get, wp_pure, wp_ite]
      split
      · rename_i hfree
        have hfree : (s.dinode i).type = 0 := hfree
        obtain ⟨hsound, hfiles, hlogs⟩ := agrees_claim h htype hi hfree _ rfl
        unfold logWrite
        rw [wp_bind, wp_modify, wp_pure]
        refine ⟨?_, hsound, hfiles, hlogs⟩
        rw [find?_cons_of_pos (by simp [hnode, hfree])]
      · rename_i hused
        have hused : ¬ (s.dinode i).type = 0 := hused
        rw [find?_cons_of_neg (by simpa [hnode] using hused)]
        exact ih fun j hj => hl j (mem_cons_of_mem _ hj)
  refine wp_mono (hloop (List.range' 1 (g.ninodes - 1)) fun i hi => ?_) ?_ ?_
  · have := mem_range'_1.mp hi
    omega
  · rintro r s' ⟨hfind, hsound, hfiles, hlogs⟩
    refine ⟨hsound, ?_, hlogs, False.elim⟩
    rw [Files.run_ialloc, Files.freeInode, hfind, hfiles]
  · rintro e s' ⟨rfl, hfind⟩
    exact .inr ⟨s.files, by rw [Files.run_ialloc, Files.freeInode, hfind]⟩

theorem agrees_ifree (hl : s.Loaded i) : Refines s (.ifree i) := by
  unfold Refines exec ifree
  rw [wp_bind]
  have hi := h.alloc hl
  refine wp_itrunc h.consistent.good hl hi fun s1 hstep1 hdat1 hne1 hino1 _ hgood1 => ?_
  have hl1 := hl.step hstep1
  rw [wp_bind]
  refine wp_ip hl1 ?_
  rw [wp_bind]
  refine wp_setIp hl1 fun s2 hstep2 himage2 _ => ?_
  have hl2 := hl1.step hstep2
  have hino2 : s2.image.ino i = { truncated (s.image.ino i) with type := 0 } := by
    rw [himage2]
    simp [setIno, hino1]
  rw [wp_bind]
  refine wp_iupdate hl2 (by rw [hino2]; exact ⟨by norm_num [truncated], fun k => by norm_num [truncated]⟩)
    fun s3 hstep3 himage3 hdin3 => ?_
  rw [wp_modify]
  set s' : BlockFs g :=
    { s3 with icache := update s3.icache i { s3.icache i with valid := false } } with hs'
  have hstep := (hstep1.trans hstep2).trans hstep3
  have hic : ∀ j, j ≠ i → s'.icache j = s3.icache j := fun j hj => update_of_ne hj _ _
  have hi' : (s'.icache i).valid = false := by simp [hs']
  have himage : s'.image = s1.image.setIno i { truncated (s.image.ino i) with type := 0 } := by
    have hsame : s'.image = s3.image := by
      refine Image.ext (funext fun j => ?_) rfl rfl
      by_cases hji : j = i
      · -- the copy that the cache forgets has just been written
        rw [hji, himage3, ← hdin3]
        simp only [image, if_pos hl.1, hi']
        rfl
      · unfold image
        simp only [hic j hji]
        rfl
    rw [hsame, himage3, himage2, hino1]
  have hself : s'.image.ino i = { truncated (s.image.ino i) with type := 0 } := by
    rw [himage]
    simp [setIno]
  have hne : ∀ j, j ≠ i → s'.image.ino j = s.image.ino j := fun j hj => by
    rw [himage, ← hne1 j hj]
    simp [setIno, hj]
  have hdat : s'.image.dat = s.image.dat := by
    rw [himage, ← hdat1]
    rfl
  refine ⟨⟨?_, ?_, ?_⟩, ?_, hstep.logs.trans (.of_blk rfl rfl), False.elim⟩
  · rw [himage]
    refine consistent_setIno_empty hgood1 (fun j hji hj hc => ?_) (fun _ k => ?_) rfl rfl
    · rw [hne1 j hji] at hc ⊢
      refine (h.consistent.mapped ⟨hj.1, by rw [← hne1 j hji]; exact hj.2⟩ hc).congr fun l => ?_
      exact slot_congr (by rw [hne1 j hji]) fun _ => by rw [hdat1]
    · exact slot_of_addrs_zero (by rw [hino1]; rfl)
  · intro j hj
    by_cases hji : j = i
    · exact absurd (by rw [hji, hself]) hj.2
    · rw [hne j hji]
      exact h.typed j ⟨hj.1, by rw [← hne j hji]; exact hj.2⟩
  · intro j hj hv
    by_cases hji : j = i
    · rw [hji, hi'] at hv
      exact absurd hv Bool.false_ne_true
    · rw [hic j hji, hstep.icache j hji] at hv ⊢
      have hdin : s'.dinode j = s.dinode j := hstep.dinode j hji hj
      rw [hdin]
      exact h.through j hj hv
  · have hfiles : s'.files =
        (s.files.setNode i { s.files.node i with type := 0, data := [] }).setValid i false := by
      have hvalid : s'.files.valid = update s.files.valid i false := by
        funext j
        by_cases hji : j = i
        · subst hji
          simpa [files] using hi'
        · simp [files, hji, hic j hji, hstep.icache j hji]
      have hnode : s'.files.node =
          update s.files.node i { s.files.node i with type := 0, data := [] } := by
        funext j
        by_cases hji : j = i
        · subst hji
          simp [files, hself, truncated]
        · rw [update_of_ne hji]
          simp only [files, hne j hji]
          rw [content_congr (by rw [hne j hji]) (by rw [hne j hji]) hdat]
      unfold Files.setValid Files.setNode
      rw [← hvalid, ← hnode]
    rw [hfiles]
    rfl

/-! ## Reading and writing -/

theorem agrees_readi (hl : s.Loaded i) (hdev : (s.image.ino i).type ≠ T_DEV)
    (hoff : off < 2 ^ 32) (hn : n < 2 ^ 32) : Refines s (.readi i off n) := by
  refine wp_readi h.consistent hl (h.alloc hl) (h.hasContent hl hdev) hoff hn ⟨h, ?_, .refl s, fun _ => rfl⟩
  show EStateM.Result.ok (if off > (s.files.node i).data.length ∨ _ then _ else _) _ = _
  rw [h.data_eq hl, content_length]

/-- What `writei` leaves is sound, and the files have the new bytes. -/
theorem Sound.written (hl : s.Loaded i) (hstep : Step i s s')
    (hw : Written g s.image s'.image i off src) (hdin : s.dinode i = s.image.ino i → s'.dinode i = s'.image.ino i) :
    s'.Sound ∧ s'.files = s.files.setData i (splice (s.files.node i).data off src) := by
  have htype : (s'.image.ino i).type = (s.image.ino i).type := by rw [hw.ino_eq]
  refine ⟨h.of_step hstep hw.consistent hw.ino_ne ?_ ?_, ?_⟩
  · intro _
    rw [htype]
    exact h.typed i (h.alloc hl)
  · intro _
    rw [hdin (h.ino_eq hl.1).symm, (hl.step hstep).copy_eq, htype]
    exact ⟨rfl, (h.alloc hl).2⟩
  · rw [files_eq hstep.valid_eq hw.ino_ne fun j hji hj => ?_]
    · have hnode : s'.files.node i =
          { s.files.node i with data := splice (s.files.node i).data off src } := by
        rw [h.data_eq hl]
        simp only [files, htype, if_neg (h.alloc hl).2, hw.content]
        rw [hw.ino_eq]
      rw [hnode]
      rfl
    · by_cases hlt : j < g.ninodes
      · exact hw.content_ne j hji ⟨hlt, hj⟩
      · have hzero : s.image.ino j = Dinode.zero := by simp [image, hlt]
        exact absurd (by rw [hzero]; rfl) hj

theorem agrees_writei (hl : s.Loaded i) (hdev : (s.image.ino i).type ≠ T_DEV)
    (hoff : off < 2 ^ 32) (hn : src.length < 2 ^ 32) : Refines s (.writei i off src) := by
  have hrun : (Files.exec g.ninodes (.writei i off src)).run s.files =
      if off > (s.image.ino i).size ∨ 2 ^ 32 ≤ off + src.length ∨
          off + src.length > MAXFILE * BSIZE then .ok none s.files
      else .ok (some src.length) (s.files.setData i (splice (s.files.node i).data off src)) := by
    rw [← content_length, ← h.data_eq hl]
    rfl
  refine wp_writei h.consistent hl (h.alloc hl) (h.hasContent hl hdev) hoff hn (fun hbad => ?_)
    (fun s' hle hmax hstep hw _ hdin => ?_) fun _ _ _ _ => .inl rfl
  · exact ⟨h, by rw [hrun, if_pos hbad], .refl s, nofun⟩
  · obtain ⟨hsound, hfiles⟩ := h.written hl hstep hw hdin
    have hB := MAXFILE_lt
    exact ⟨hsound, by rw [hrun, if_neg (by omega), hfiles], hstep.logs, nofun⟩

end

/-! ## Directories -/

theorem ne_T_DEV_of_dir {d : Dinode} (h : d.type = T_DIR) : d.type ≠ T_DEV := by
  rw [h]
  decide

theorem agrees_dirlookup (h : s.Sound) (hl : s.Loaded d) : Refines s (.dirlookup d name) := by
  have hrun : (Files.exec g.ninodes (.dirlookup d name)).run s.files = _ := Files.run_dirlookup
  rw [h.data_eq hl, show (s.files.node d).type = (s.image.ino d).type from rfl] at hrun
  unfold Refines exec dirlookup
  rw [wp_bind]
  refine wp_ip hl ?_
  rw [wp_ite]
  split
  · rename_i htype
    exact .inr ⟨s.files, by rw [hrun, if_pos htype]⟩
  · rename_i htype
    have hdir : (s.image.ino d).type = T_DIR := not_not.mp htype
    rw [wp_bind]
    refine wp_scan h.consistent hl (h.alloc hl) (h.hasContent hl (ne_T_DEV_of_dir hdir)) 0
      (fun r hr => ?_) fun he => ?_
    · rw [wp_pure]
      refine ⟨h, ?_, .refl s, fun _ => rfl⟩
      rw [hrun, if_neg htype, hr, Option.map_map]
      rfl
    · exact .inr ⟨s.files, by rw [hrun, if_neg htype, he]⟩

theorem agrees_isdirempty (h : s.Sound) (hl : s.Loaded d) (hdir : (s.image.ino d).type = T_DIR) :
    Refines s (.isdirempty d) := by
  have hrun : (Files.exec g.ninodes (.isdirempty d)).run s.files = _ := Files.run_isdirempty
  rw [h.data_eq hl] at hrun
  unfold Refines exec isdirempty
  rw [wp_bind]
  refine wp_ip hl ?_
  rw [wp_bind]
  refine wp_scan h.consistent hl (h.alloc hl) (h.hasContent hl (ne_T_DEV_of_dir hdir)) 2
    (fun r hr => ?_) fun he => ?_
  · rw [wp_pure]
    refine ⟨h, ?_, .refl s, fun _ => rfl⟩
    rw [hrun, hr]
    cases r <;> rfl
  · exact .inr ⟨s.files, by rw [hrun, he]⟩

theorem agrees_clear (h : s.Sound) (hl : s.Loaded d) (hdir : (s.image.ino d).type = T_DIR)
    (hoff : off < 2 ^ 32) : Refines s (.clear d off) := by
  have hrun : (Files.exec g.ninodes (.clear d off)).run s.files =
      if off > (s.image.ino d).size ∨ off + DIRENT > MAXFILE * BSIZE then
        .error (.panic .unlinkWritei) s.files
      else .ok () (s.files.setData d (splice (s.files.node d).data off (List.replicate DIRENT 0))) := by
    rw [← content_length, ← h.data_eq hl]
    rfl
  have hB := MAXFILE_lt
  have hD : DIRENT = 16 := rfl
  unfold Refines exec clear
  rw [wp_bind]
  refine wp_writei h.consistent hl (h.alloc hl) (h.hasContent hl (ne_T_DEV_of_dir hdir)) hoff
    (by rw [length_replicate]; omega) (fun hbad => ?_) (fun s' hle hmax hstep hw _ hdin => ?_)
    fun _ _ _ _ => .inl rfl
  · rw [length_replicate] at hbad
    rw [if_pos (by simp)]
    exact .inr ⟨s.files, by rw [hrun, if_pos (by omega)]⟩
  · rw [length_replicate] at hmax ⊢
    obtain ⟨hsound, hfiles⟩ := h.written hl hstep hw hdin
    rw [if_neg (by simp)]
    exact ⟨hsound, by rw [hrun, if_neg (by omega), hfiles], hstep.logs, nofun⟩

theorem agrees_dirlink (h : s.Sound) (hl : s.Loaded d) (hdir : (s.image.ino d).type = T_DIR)
    {inum : ℕ} : Refines s (.dirlink d name inum) := by
  have hrun : (Files.exec g.ninodes (.dirlink d name inum)).run s.files = _ := Files.run_dirlink
  rw [h.data_eq hl] at hrun
  have hB := MAXFILE_lt
  have hD : DIRENT = 16 := rfl
  have hc := h.hasContent hl (ne_T_DEV_of_dir hdir)
  have hsize := h.consistent.size_le (h.alloc hl) hc
  have hbytes := Dirent.bytes_length inum name
  unfold Refines exec dirlink
  rw [wp_bind]
  refine wp_ip hl ?_
  rw [wp_bind]
  refine wp_scan h.consistent hl (h.alloc hl) hc 0 (fun r hr => ?_) fun he => ?_
  · -- the offset at which the entry goes
    have hoff : ((r.map fun k => (DIRENT * k, entry (s.image.content d) k)).map Prod.fst).getD
        (endOffset (s.image.ino d).size) = DIRENT * r.getD (entries (s.image.content d)) ∧
        DIRENT * r.getD (entries (s.image.content d)) ≤ (s.image.ino d).size := by
      have hlen : entries (s.image.content d) = (s.image.ino d).size / DIRENT := by
        rw [entries, content_length]
      cases r with
      | none =>
        have hmod := scanEntries_none hr
        rw [content_length] at hmod
        simp only [Option.map_none, Option.getD_none, endOffset, hlen]
        rw [hD] at hmod ⊢
        omega
      | some k =>
        have hk := (scanEntries_some hr).2.1
        rw [hlen, hD] at hk
        refine ⟨rfl, ?_⟩
        rw [Option.getD_some, hD]
        omega
    rw [hoff.1, wp_bind]
    refine wp_writei h.consistent hl (h.alloc hl) hc (by omega) (by omega) (fun hbad => ?_)
      (fun s' hle hmax hstep hw _ hdin => ?_) fun _ _ _ _ => .inl rfl
    · rw [if_pos (by simp)]
      exact .inr ⟨s.files, by rw [hrun, hr]; exact if_pos (by omega)⟩
    · obtain ⟨hsound, hfiles⟩ := h.written hl hstep hw hdin
      rw [hbytes, if_neg (by simp)]
      refine ⟨hsound, ?_, hstep.logs, False.elim⟩
      rw [hrun, hr, hfiles, h.data_eq hl]
      exact if_neg (by omega)
  · exact .inr ⟨s.files, by rw [hrun, he]⟩

/-! ## All operations -/

/-- **The code over blocks refines the operations on files.** -/
theorem exec_refines (h : s.Sound) {op : FsOp} (hpre : s.files.Pre g.ninodes op) :
    Wp (exec op) (Agrees s op) (fun e _ => AgreesStop s op e) s := by
  cases op with
  | load i => exact agrees_load h hpre
  | isValid i => exact agrees_isValid h
  | stat i => exact agrees_stat h hpre
  | update i c => exact agrees_update h hpre c
  | ialloc type => exact agrees_ialloc h hpre
  | ifree i => exact agrees_ifree h hpre
  | readi i off n => exact agrees_readi h ⟨hpre.1, hpre.2.1⟩ hpre.2.2.1 hpre.2.2.2.1 hpre.2.2.2.2
  | writei i off src => exact agrees_writei h ⟨hpre.1, hpre.2.1⟩ hpre.2.2.1 hpre.2.2.2.1 hpre.2.2.2.2
  | dirlookup d name => exact agrees_dirlookup h hpre
  | dirlink d name inum => exact agrees_dirlink h ⟨hpre.1, hpre.2.1⟩ hpre.2.2
  | isdirempty d => exact agrees_isdirempty h ⟨hpre.1, hpre.2.1⟩ hpre.2.2
  | clear d off => exact agrees_clear h ⟨hpre.1, hpre.2.1⟩ hpre.2.2.1 hpre.2.2.2
  | invalidate i => exact agrees_invalidate h

end BlockFs

end Xv6
