import Xv6.Kernel.Failed

/-!
# `sys_open` that fails, run alone

`sys_open` makes the file before it looks for a `struct file` and a descriptor. If there is none, it drops the inode and
returns -1, and the new file stays. This is the only way in which a call that fails leaves something behind.
-/

namespace Xv6.Failed

open Function Code List

open Sys BlockFs

variable {g : Geometry} {P : Type} {p : P} {k k1 k' : Kernel (BlockFs g) P} {ref : ℕ → ℕ} {lock : ℕ → Option P}
  {dp ip : ℕ}

/-! ## A new file -/

/-- A file that has been made, locked and with a reference. -/
structure New (k : Kernel (BlockFs g) P) (p : P) (ip : ℕ) (k' : Kernel (BlockFs g) P) : Prop where
  ne_zero : ip ≠ 0
  lt : ip < g.ninodes
  free : (k.store.image.ino ip).type = 0
  used : (k'.store.image.ino ip).type ≠ 0
  linked : (k'.store.image.ino ip).nlink ≠ 0
  ref : 0 < k'.ref ip
  lock : k'.lock ip = some p
  file : k'.file = k.file
  ofile : ∀ q, (k'.proc q).ofile = (k.proc q).ofile

/-- The kernel between `ialloc` and the new directory entry. -/
structure Making (k : Kernel (BlockFs g) P) (dp ip : ℕ) (ref : ℕ → ℕ) (lock : ℕ → Option P)
    (k' : Kernel (BlockFs g) P) : Prop where
  sound : k'.store.Sound
  type : (k'.store.files.node ip).type = T_FILE
  dir : (k'.store.files.node dp).type = T_DIR
  links : (k'.store.files.node dp).nlink = (k.store.files.node dp).nlink
  loaded : k'.store.files.valid dp = true
  ref : k'.ref = ref
  lock : k'.lock = lock
  file : k'.file = k.file
  ofile : ∀ q, (k'.proc q).ofile = (k.proc q).ofile

/-- An operation that keeps the types, and the directory in the cache. -/
theorem Making.withStore (h : Making k dp ip ref lock k1) {s : BlockFs g} (hs : s.Sound)
    (htype : ∀ j, (s.files.node j).type = (k1.store.files.node j).type)
    (hlinks : (s.files.node dp).nlink = (k1.store.files.node dp).nlink)
    (hvalid : s.files.valid dp = k1.store.files.valid dp) : Making k dp ip ref lock { k1 with store := s } :=
  ⟨hs, (htype ip).trans h.type, (htype dp).trans h.dir, hlinks.trans h.links, hvalid.trans h.loaded, h.ref, h.lock,
    h.file, h.ofile⟩

variable [DecidableEq P]

/-- An operation, in terms of the files that the blocks stand for. -/
theorem post_files {op : FsOp} {Q : op.Resp → Kernel (BlockFs g) P → Prop} (h : k.store.Sound)
    (hpre : k.store.files.Pre g.ninodes op)
    (hQ : ∀ r s, s.Sound → (Files.exec g.ninodes op).run k.store.files = .ok r s.files → Q r { k with store := s }) :
    Post p (fs op) Q k :=
  post_fs.mpr (wp_mono (exec_refines h hpre) (fun r s hs => hQ r s hs.sound hs.files) fun _ _ _ => trivial)

variable {N : ℕ} {t t' : Files} {omode : BitVec 32}

/-- `ialloc` finds a free inode. -/
theorem ialloc_run {type : BitVec 16} (h : (Files.exec N (.ialloc type)).run t = .ok ip t') :
    ip ≠ 0 ∧ ip < N ∧ (t.node ip).type = 0 ∧ t' = t.setNode ip ⟨type, 0, 0, 0, []⟩ := by
  rw [Files.run_ialloc] at h
  cases hfree : t.freeInode N with
  | none =>
    rw [hfree] at h
    cases h
  | some i =>
    rw [hfree] at h
    obtain ⟨rfl, rfl⟩ := EStateM.Result.ok.inj h
    have hmem := mem_range'_1.mp (mem_of_find?_eq_some hfree)
    have hzero := find?_some hfree
    exact ⟨by omega, by omega, by simpa using hzero, rfl⟩

theorem load_run {i : ℕ} (h : (Files.exec N (.load i)).run t = .ok () t') : t' = t.setValid i true := by
  have hrun : (Files.exec N (.load i)).run t = if t.valid i then .ok () t
      else if (t.node i).type = 0 then .error (.panic .ilockNoType) t else .ok () (t.setValid i true) := rfl
  rw [hrun] at h
  split at h
  · rename_i hv
    obtain ⟨-, rfl⟩ := EStateM.Result.ok.inj h
    rw [Files.setValid, ← hv, update_eq_self]
  split at h
  · nomatch h
  · exact (EStateM.Result.ok.inj h).2.symm

variable {name : List UInt8}

theorem dirlink_run {d inum : ℕ}
    (h : (Files.exec N (.dirlink d name inum)).run t = .ok () t') : ∃ data, t' = t.setData d data := by
  rw [Files.run_dirlink] at h
  cases hscan : scanEntries (t.node d).data 0 .dirlinkRead unused with
  | error e =>
    rw [hscan] at h
    nomatch h
  | ok r =>
    rw [hscan] at h
    dsimp only at h
    split at h
    · nomatch h
    · exact ⟨_, (EStateM.Result.ok.inj h).2.symm⟩

section

variable (h : Making k dp ip ref lock k1)

include h

/-- `iget` of the new inode. -/
theorem Making.post_iget (hne : ip ≠ dp) :
    Post p (step (.iget ip)) (fun _ k2 => Making k dp ip (incRef ref ip) lock k2) k1 := by
  have hmaking : Making k dp ip (incRef ref ip) lock (k1.setRef ip (k1.ref ip + 1)) :=
    { h with ref := by rw [← h.ref]; rfl }
  refine wp_alone_iget (fun _ => trivial) (fun _ => hmaking) fun _ => ?_
  have hpre : k1.store.files.Pre g.ninodes (.invalidate ip) := trivial
  refine wp_mono (exec_refines h.sound hpre) (fun _ s hs => ?_) fun _ _ _ => trivial
  have hfiles : s.files = k1.store.files.setValid ip false := (EStateM.Result.ok.inj hs.files).2.symm
  refine hmaking.withStore hs.sound (fun j => ?_) ?_ ?_
  · rw [hfiles]
    rfl
  · rw [hfiles]
    rfl
  · rw [hfiles]
    exact update_of_ne hne.symm ..

theorem Making.post_ilock (hne : ip ≠ dp) (h0 : ip ≠ 0) (hi : ip < g.ninodes)
    (href : 0 < ref ip) : Post p (ilock ip) (fun _ k2 => Making k dp ip ref (update lock ip (some p)) k2 ∧
      k2.store.files.valid ip = true) k1 := by
  have hlocked : Making k dp ip ref (update lock ip (some p)) (k1.setLock ip (some p)) :=
    { h with lock := by rw [← h.lock]; rfl }
  refine post_ilocking h0 (by rw [h.ref]; exact href) fun _ => post_files h.sound hi fun _ s hs hrun => ?_
  have hfiles := load_run hrun
  refine ⟨hlocked.withStore hs (fun j => ?_) ?_ ?_, ?_⟩
  · rw [hfiles]
    rfl
  · rw [hfiles]
    rfl
  · rw [hfiles]
    exact update_of_ne hne.symm ..
  · show s.files.valid ip = true
    rw [hfiles]
    exact update_self ..

/-- `nlink = 1` and `iupdate`. -/
theorem Making.post_update (hne : ip ≠ dp) (hi : ip < g.ninodes)
    (hvalid : k1.store.files.valid ip = true) :
    Post p (fs (.update ip (.create 0 0))) (fun _ k2 => Making k dp ip ref lock k2 ∧
      (k2.store.files.node ip).nlink = 1) k1 := by
  refine post_files h.sound ⟨hi, hvalid⟩ fun _ s hs hrun => ?_
  have hfiles : s.files = k1.store.files.setNode ip { k1.store.files.node ip with nlink := 1, major := 0, minor := 0 } :=
    (EStateM.Result.ok.inj hrun).2.symm
  have hself : s.files.node ip = { k1.store.files.node ip with nlink := 1, major := 0, minor := 0 } := by
    rw [hfiles]
    exact update_self ..
  have hother : ∀ j, j ≠ ip → s.files.node j = k1.store.files.node j := fun j hj => by
    rw [hfiles]
    exact update_of_ne hj ..
  refine ⟨h.withStore hs (fun j => ?_) ?_ ?_, ?_⟩
  · by_cases hj : j = ip
    · rw [hj, hself]
    · rw [hother j hj]
  · rw [hother dp hne.symm]
  · rw [hfiles]
    rfl
  · show (s.files.node ip).nlink = 1
    rw [hself]

/-- The new directory entry. -/
theorem Making.post_dirlink (hne : ip ≠ dp) (hdp : dp < g.ninodes) :
    Post p (dirlink dp name ip) (fun ok k2 => ok = true → Making k dp ip ref lock k2 ∧
      (k2.store.files.node ip).nlink = (k1.store.files.node ip).nlink) k1 := by
  refine post_bind.mpr (post_dirlookup (.refl h.sound) ⟨hdp, h.loaded⟩ (fun _ => ?_) fun _ _ _ _ _ => ?_)
  · refine post_bind.mpr (post_files h.sound ⟨hdp, h.loaded, h.dir⟩ fun _ s hs hrun _ => ?_)
    obtain ⟨data, hfiles⟩ := dirlink_run hrun
    have hself : s.files.node dp = { k1.store.files.node dp with data } := by
      rw [hfiles]
      exact update_self ..
    have hother : ∀ j, j ≠ dp → s.files.node j = k1.store.files.node j := fun j hj => by
      rw [hfiles]
      exact update_of_ne hj ..
    refine ⟨h.withStore hs (fun j => ?_) ?_ ?_, ?_⟩
    · by_cases hj : j = dp
      · rw [hj, hself]
      · rw [hother j hj]
    · rw [hself]
    · rw [hfiles]
      rfl
    · show (s.files.node ip).nlink = _
      rw [hother ip hne]
  · exact post_skip fun _ _ => nofun

end

/-- `create` of a name that does not exist. -/
theorem post_createNew_file (hdp : Stays k dp) (hlock : ∀ i, k.lock i = none)
    (hdir : (k.store.image.ino dp).type = T_DIR)
    (hk : Like k (incRef k.ref dp) (update k.lock dp (some p)) k1) (hl : k1.store.Loaded dp) :
    Post p (createNew dp name T_FILE 0 0) (fun r k2 => ∃ ip, r = some ip ∧ New k p ip k2) k1 := by
  refine post_bind.mpr (post_files hk.store.sound (.inr (.inl rfl)) fun ip s hs hrun => ?_)
  obtain ⟨h0, hi, hfree, hfiles⟩ := ialloc_run hrun
  have hdir1 : (k1.store.files.node dp).type = T_DIR := by
    show (k1.store.image.ino dp).type = T_DIR
    rw [hk.store.image, hdir]
  have hlinks1 : (k1.store.files.node dp).nlink = (k.store.files.node dp).nlink := by
    show (k1.store.image.ino dp).nlink = (k.store.image.ino dp).nlink
    rw [hk.store.image]
  have hfree0 : (k.store.image.ino ip).type = 0 := by
    rw [← hk.store.image]
    exact hfree
  have hne : ip ≠ dp := by
    rintro rfl
    rw [hdir] at hfree0
    exact absurd hfree0 (by decide)
  have hself : s.files.node ip = ⟨T_FILE, 0, 0, 0, []⟩ := by
    rw [hfiles]
    exact update_self ..
  have hother : s.files.node dp = k1.store.files.node dp := by
    rw [hfiles]
    exact update_of_ne hne.symm ..
  have hmaking : Making k dp ip (incRef k.ref dp) (update k.lock dp (some p)) { k1 with store := s } := by
    refine ⟨hs, ?_, ?_, ?_, ?_, hk.ref, hk.lock, hk.file, fun q => (hk.proc q).2⟩
    · show (s.files.node ip).type = T_FILE
      rw [hself]
    · show (s.files.node dp).type = T_DIR
      rw [hother, hdir1]
    · show (s.files.node dp).nlink = _
      rw [hother, hlinks1]
    · show s.files.valid dp = true
      rw [hfiles]
      exact hl.2
  -- no other inode changes from here on but the directory, which keeps its links
  refine post_bind.mpr (post_mono (hmaking.post_iget hne) fun _ k2 h2 => ?_)
  refine post_bind.mpr (post_mono (h2.post_ilock hne h0 hi (by rw [incRef_self]; omega)) fun _ k3 h3 => ?_)
  refine post_bind.mpr (post_mono (h3.1.post_update hne hi h3.2) fun _ k4 h4 => ?_)
  refine post_bind.mpr ?_
  show Post p (if T_FILE = T_DIR then _ else pure ()) _ k4
  rw [if_neg (by decide)]
  refine post_bind.mpr (post_mono (h4.1.post_dirlink hne hdp.lt) fun ok k5 h5 => ?_)
  cases ok with
  | false => exact post_panic
  | true =>
    obtain ⟨h5, hnlink5⟩ := h5 rfl
    -- `iunlockput(dp)` frees nothing, as the directory has been there before
    have hlike : Like k5 (incRef (incRef k.ref dp) ip)
        (update (update k.lock ip (some p)) dp (some p)) k5 := by
      rw [update_comm hne, ← h5.ref, ← h5.lock]
      exact .refl h5.sound
    have hfreeLock : update k.lock ip (some p) dp = none := by rw [update_of_ne hne.symm, hlock]
    refine post_bind.mpr (post_iunlockput hlike hdp.ne_zero hdp.lt ?_ hfreeLock ?_ fun k6 h6 => ?_)
    · have hle := le_incRef (incRef k.ref dp) ip dp
      rw [incRef_self] at hle
      omega
    · intro hz
      exact hdp.keep_incRef_incRef (h5.links.symm.trans hz)
    · rw [update_incRef] at h6
      refine ⟨ip, rfl, h0, hi, hfree0, ?_, ?_, ?_, ?_, h6.file.trans h5.file, fun q => (h6.proc q).2.trans (h5.ofile q)⟩
      · rw [h6.store.image]
        show (k5.store.files.node ip).type ≠ 0
        rw [h5.type]
        decide
      · rw [h6.store.image]
        show (k5.store.files.node ip).nlink ≠ 0
        rw [hnlink5, h4.2]
        decide
      · rw [h6.ref, incRef_self]
        omega
      · rw [h6.lock, update_self]

/-! ## The inode to open -/

/-- What the first part of `sys_open` leaves: nothing, an old inode, or a new one. -/
def Opened (k : Kernel (BlockFs g) P) (p : P) : Option ℕ → Kernel (BlockFs g) P → Prop
  | none, k' => Like k k.ref k.lock k'
  | some ip, k' => New k p ip k' ∨ Stays k ip ∧ (k.store.image.ino ip).type ≠ 0 ∧
      Like k (incRef k.ref ip) (update k.lock ip (some p)) k'

theorem post_createFile (h : Tree k p) (path : List UInt8) (hk : Like k k.ref k.lock k1) :
    Post p (create path T_FILE 0 0) (Opened k p) k1 := by
  refine post_create h path hk (fun _ h2 => h2) (fun _ ip k2 hip htype h2 => .inr ⟨hip, ?_, h2⟩)
    fun dp name k2 hdp hdir h2 hl2 => ?_
  · rw [htype]
    decide
  · refine post_mono (post_createNew_file hdp h.lock hdir h2 hl2) fun r k3 h3 => ?_
    obtain ⟨ip, rfl, hnew⟩ := h3
    exact .inl hnew

/-- Without `O_CREATE` nothing is made. -/
theorem post_openOld (h : Tree k p) (path : List UInt8) (homode : omode &&& O_CREATE = 0)
    (hk : Like k k.ref k.lock k1) : Post p (openInode path omode) (fun r k2 => match r with
      | none => Like k k.ref k.lock k2
      | some ip => Stays k ip ∧ Like k (incRef k.ref ip) (update k.lock ip (some p)) k2) k1 := by
  unfold openInode
  rw [if_neg (not_not.mpr homode)]
  refine post_bind.mpr (post_mono (post_namex h path false hk) fun r k2 hfound => ?_)
  cases r with
  | none => exact hfound.1
  | some x =>
    obtain ⟨ip, name⟩ := x
    have hip := hfound.2 ip name rfl
    refine post_bind.mpr (hip.post_lock hfound.1 fun k3 _ h3 hl3 => ?_)
    refine post_bind.mpr (post_stat h3 hl3 fun x _ _ => ?_)
    split
    · exact post_bind.mpr (hip.post_drop (h.lock ip) h3 fun k4 h4 => h4)
    · exact ⟨hip, h3⟩

/-! ## The file and the descriptor -/

/-- There is no free `struct file`, or no free descriptor. -/
def Full (k : Kernel (BlockFs g) P) (p : P) : Prop :=
  (∀ f, (k.file f).ref ≠ 0) ∨ ∀ fd, (k.proc p).ofile fd ≠ none

/-- A `struct file` without references is closed: `fileclose` sees to that. -/
def Closed (k : Kernel (BlockFs g) P) : Prop := ∀ f, (k.file f).ref = 0 → (k.file f).type = .none

section

variable {E : Halt → Kernel (BlockFs g) P → Prop} {f : Fin NFILE}

theorem wp_filealloc {Q : Option (Fin NFILE) → Kernel (BlockFs g) P → Prop}
    (hnone : (∀ f, (k.file f).ref ≠ 0) → Q none k)
    (hsome : ∀ f, (k.file f).ref = 0 → Q (some f) (k.setFile f { k.file f with ref := 1 })) :
    Wp (alone p (step .filealloc)) Q E k := by
  refine wp_alone_step.mpr ?_
  unfold Wp
  rw [Kernel.run_filealloc]
  cases hfile : (List.finRange NFILE).find? fun f => (k.file f).ref = 0 with
  | none =>
    refine hnone fun f hf => ?_
    exact find?_eq_none.mp hfile f (mem_finRange f) (by simpa using hf)
  | some f => exact hsome f (by simpa using find?_some hfile)

theorem wp_fdalloc {Q : Option (Fin NOFILE) → Kernel (BlockFs g) P → Prop}
    (hnone : (∀ fd, (k.proc p).ofile fd ≠ none) → Q none k) (hsome : ∀ fd, (k.proc p).ofile fd = none →
      Q (some fd) (k.setProc p fun x => { x with ofile := update x.ofile fd (some f) })) :
    Wp (alone p (step (.fdalloc f))) Q E k := by
  refine wp_alone_step.mpr ?_
  unfold Wp
  rw [Kernel.run_fdalloc]
  cases hfd : (List.finRange NOFILE).find? fun fd => (k.proc p).ofile fd = none with
  | none =>
    refine hnone fun fd hnil => ?_
    exact find?_eq_none.mp hfd fd (mem_finRange fd) (by simpa using hnil)
  | some fd => exact hsome fd (by simpa using find?_some hfd)

variable {Q : Unit → Kernel (BlockFs g) P → Prop}

/-- `fileclose` of a file that has just been allocated. -/
theorem wp_fileclose (href : (k.file f).ref = 0) (htype : (k.file f).type = .none) (hQ : Q () k) :
    Wp (alone p (fileclose f)) Q E (k.setFile f { k.file f with ref := 1 }) := by
  have hself : (k.setFile f { k.file f with ref := 1 }).file f = { k.file f with ref := 1 } := update_self ..
  have hback : (k.setFile f { k.file f with ref := 1 }).setFile f { k.file f with ref := 0, type := .none } = k := by
    rw [← href, ← htype]
    simp only [Kernel.setFile, update_idem, update_eq_self]
  have hrun : (Kernel.exec g.ninodes BlockFs.exec p .quiet (.fileDec f)).run (k.setFile f { k.file f with ref := 1 }) =
      .ok (some { k.file f with ref := 1, type := .none }) k := by
    show (if ((k.setFile f { k.file f with ref := 1 }).file f).ref < 1 then _
      else if ((k.setFile f { k.file f with ref := 1 }).file f).ref - 1 > 0 then _ else _) = _
    rw [hself, if_neg (by simp), if_neg (by simp), hback, ← htype]
  refine Prog.wp_alone_bind.mpr (wp_alone_step.mpr ?_)
  unfold Wp
  rw [hrun]
  exact hQ

/-- `filealloc` and `fdalloc`: the file is given back if there is no descriptor. -/
theorem wp_openFile {Q : Option (Fin NFILE × Fin NOFILE) → Kernel (BlockFs g) P → Prop} (hclosed : Closed k)
    (hfull : Full k p → Q none k) (hroom : ¬ Full k p → ∀ f fd k', Q (some (f, fd)) k') :
    Wp (alone p openFile) Q E k := by
  refine Prog.wp_alone_bind.mpr (wp_filealloc (fun hnone => hfull (.inl hnone)) fun f hf => ?_)
  refine Prog.wp_alone_bind.mpr (wp_fdalloc (fun hnone => ?_) fun fd hfd => ?_)
  · exact Prog.wp_alone_bind.mpr (wp_fileclose hf (hclosed f hf) (hfull (.inr hnone)))
  · refine hroom ?_ f fd _
    rintro (hfile | hofile)
    · exact hfile f hf
    · exact hofile fd hfd

/-- `iunlockput` of an inode that has a link. -/
theorem New.wp_iunlockput (h : New k p ip k1)
    (hQ : ∀ k2, k2.store = k1.store → Q () k2) : Wp (alone p (iunlockput ip)) Q E k1 := by
  refine Prog.wp_alone_bind.mpr (wp_alone_iunlock h.ne_zero h.ref h.lock ?_)
  refine wp_alone_iput (update_self ..) ⟨rfl, fun hv => ?_⟩ (hQ _ rfl)
  have hstat : Wp (BlockFs.exec (.stat ip)) _ (fun _ _ => False) k1.store := wp_stat_same ⟨h.lt, hv⟩
  refine wp_post hstat (fun x s hx => ⟨hx.1, fun hz => ?_⟩)
  exact absurd (hx.2.2.symm.trans hz) h.linked

end

/-! ## `sys_open` -/

/-- The kernel after `begin_op`. -/
def begun (k : Kernel (BlockFs g) P) (p : P) : Kernel (BlockFs g) P :=
  k.setProc p fun x => { x with begun := x.begun + 1 }

theorem like_begun (h : k.store.Sound) : Like k k.ref k.lock (begun k p) := by
  have hpost : Post p (step .beginOp) (fun _ k1 => k1 = begun k p → Like k k.ref k.lock k1) k :=
    post_beginOp (.refl h) fun _ h1 _ => h1
  exact hpost rfl

/-- The call makes the file: `create` returns an inode that was free. -/
def Creates (k : Kernel (BlockFs g) P) (p : P) (path : List UInt8) (omode : BitVec 32) : Prop :=
  omode &&& O_CREATE ≠ 0 ∧ ∃ ip k1, (alone p (create path T_FILE 0 0)).run (begun k p) = .ok (some ip) k1 ∧
    (k.store.image.ino ip).type = 0

/-- A call of `sys_open` that leaves nothing behind if it fails. -/
def OpenFailsClean (p : P) (path : Option (List UInt8)) (omode : BitVec 32) (k : Kernel (BlockFs g) P) : Prop :=
  ∀ k', (alone p (sysOpen path omode)).run k = .ok (-1) k' → Unchanged k k' ∧ k'.file = k.file ∧
    ∀ q, (k'.proc q).ofile = (k.proc q).ofile

omit [DecidableEq P] in
theorem full_congr (hfile : k1.file = k.file) (hofile : (k1.proc p).ofile = (k.proc p).ofile) :
    Full k1 p ↔ Full k p := by
  unfold Full
  rw [hfile, hofile]

omit [DecidableEq P] in
theorem Closed.congr (h : Closed k) (hfile : k1.file = k.file) : Closed k1 := by
  unfold Closed
  rw [hfile]
  exact h

/-- An inode that is not new, as far as there is no room for it. -/
theorem post_openInode (h : Tree k p) (path : List UInt8) (omode : BitVec 32)
    (hno : ¬ (Creates k p path omode ∧ Full k p)) : Post p (openInode path omode) (fun r k2 => match r with
      | none => Like k k.ref k.lock k2
      | some ip => k2.file = k.file ∧ (∀ q, (k2.proc q).ofile = (k.proc q).ofile) ∧
        (Full k p → Stays k ip ∧ Like k (incRef k.ref ip) (update k.lock ip (some p)) k2)) (begun k p) := by
  by_cases homode : omode &&& O_CREATE = 0
  · refine post_mono (post_openOld h path homode (like_begun h.sound)) fun r k2 h2 => ?_
    cases r with
    | none => exact h2
    | some ip => exact ⟨h2.2.file, fun q => (h2.2.proc q).2, fun _ => h2⟩
  · unfold openInode
    rw [if_pos homode]
    refine post_mono (wp_run (post_createFile h path (like_begun h.sound))) fun r k2 h2 => ?_
    obtain ⟨h2, hrun⟩ := h2
    cases r with
    | none => exact h2
    | some ip =>
      rcases h2 with hnew | ⟨hip, -, hlike⟩
      · exact ⟨hnew.file, hnew.ofile, fun hfull => absurd ⟨⟨homode, ip, k2, hrun, hnew.free⟩, hfull⟩ hno⟩
      · exact ⟨hlike.file, fun q => (hlike.proc q).2, fun _ => ⟨hip, hlike⟩⟩

theorem post_sysOpen (h : Tree k p) (hclosed : Closed k) (path : List UInt8) (omode : BitVec 32)
    (hno : ¬ (Creates k p path omode ∧ Full k p)) : Post p (sysOpen (some path) omode) (Clean k) k := by
  refine post_bind.mpr (wp_alone_step.mpr ?_)
  refine post_bind.mpr (post_mono (post_openInode h path omode hno) fun r k2 h2 => ?_)
  cases r with
  | none => exact post_fail h2
  | some ip =>
    obtain ⟨hfile, hofile, hold⟩ := h2
    refine post_bind.mpr (wp_openFile (hclosed.congr hfile) (fun hfull => ?_) fun _ f fd k3 => ?_)
    · obtain ⟨hip, hlike⟩ := hold ((full_congr hfile (hofile p)).mp hfull)
      exact post_bind.mpr (hip.post_drop (h.lock ip) hlike fun k3 h3 => post_fail h3)
    · refine post_skip fun _ _ => ?_
      refine post_skip fun _ _ => ?_
      exact post_succeeds (by omega)

/-- The new file stays, and -1 is returned. -/
theorem creates_fails (h : Tree k p) (hclosed : Closed k) {path : List UInt8}
    (hcreates : Creates k p path omode) (hfull : Full k p) :
    ∃ k' ip, (alone p (sysOpen (some path) omode)).run k = .ok (-1) k' ∧ (k.store.image.ino ip).type = 0 ∧
      (k'.store.image.ino ip).type ≠ 0 := by
  obtain ⟨homode, ip, k1, hrun, hfree⟩ := hcreates
  have hnew : New k p ip k1 := by
    rcases wp_ok (post_createFile h path (like_begun h.sound)) hrun with hnew | ⟨-, hused, -⟩
    · exact hnew
    · exact absurd hfree hused
  have hopen : Wp (alone p (openInode path omode)) (fun r k2 => r = some ip ∧ k2 = k1) (fun _ _ => False)
      (begun k p) := by
    unfold openInode Wp
    rw [if_pos homode, hrun]
    exact ⟨rfl, rfl⟩
  have hwp : Wp (alone p (sysOpen (some path) omode)) (fun r k' => r = -1 ∧ k'.store = k1.store)
      (fun _ _ => False) k := by
    refine Prog.wp_alone_bind.mpr (wp_alone_step.mpr ?_)
    refine Prog.wp_alone_bind.mpr (wp_post hopen ?_)
    rintro _ _ ⟨rfl, rfl⟩
    refine Prog.wp_alone_bind.mpr (wp_openFile (hclosed.congr hnew.file) (fun _ => ?_) fun hroom => ?_)
    · refine Prog.wp_alone_bind.mpr (hnew.wp_iunlockput fun k2 hstore => ?_)
      exact Prog.wp_alone_bind.mpr (wp_alone_step.mpr ⟨rfl, hstore⟩)
    · exact absurd ((full_congr hnew.file (hnew.ofile p)).mpr hfull) hroom
  obtain ⟨r, k', hrun', rfl, hstore⟩ := wp_returns hwp
  exact ⟨k', ip, hrun', hfree, hstore ▸ hnew.used⟩

/-- The process at the root, with sixteen descriptors for the root directory. -/
@[irreducible] def fullRoot : Kernel (BlockFs tenBlocks) Unit where
  store := emptyRoot
  ref i := if i = ROOTINO then 2 else 0
  lock _ := none
  file f := if f.val = 0 then ⟨NOFILE, .inode ROOTINO, true, false, 0⟩ else ⟨0, .none, false, false, 0⟩
  pipe _ := none
  proc _ := ⟨.running, ROOTINO, fun _ => some ⟨0, by decide⟩, 0, 0⟩
  initproc := ()

theorem fullRoot_creates : Creates fullRoot () [97] (O_CREATE ||| O_RDWR) := by
  have hreturns : Wp (alone () (create [97] T_FILE 0 0))
      (fun r _ => r = some 2 ∧ (fullRoot.store.image.ino 2).type = 0) (fun _ _ => False) (begun fullRoot ()) := by
    decide +kernel
  exact ⟨by decide, 2, wp_returns_eq hreturns⟩

end Xv6.Failed
