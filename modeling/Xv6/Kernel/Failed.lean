import Xv6.Fs.CrashSafe
import Xv6.Kernel.Path

/-!
# Calls that fail, run alone

What is left of a call of `sys_link`, `sys_unlink`, `sys_mkdir` or `sys_mknod` that returns -1: nothing. The rules are for
code over blocks, and they say what holds when code returns; a panic, or a wait for a lock, is no return.
-/

namespace Xv6

open Function Code

namespace BlockFs

open Image

variable {g : Geometry} {s s' s'' : BlockFs g} {i d : ℕ}

/-! ## Operations that leave the disk as it is -/

/-- The same image, with perhaps other inodes in the cache. -/
structure Same (s s' : BlockFs g) : Prop where
  sound : s'.Sound
  image : s'.image = s.image

theorem Same.refl (h : s.Sound) : Same s s := ⟨h, rfl⟩

theorem Same.trans (h : Same s s') (h' : Same s' s'') : Same s s'' := ⟨h'.sound, h'.image.trans h.image⟩

/-- The inodes on disk are the same. -/
theorem Same.dinode (h : Same s s') (h0 : s.Sound) (hi : i < g.ninodes) : s'.dinode i = s.dinode i := by
  rw [← h.sound.ino_eq hi, h.image, h0.ino_eq hi]

/-- What the blocks hold decides the image, since the cache is write-through. -/
theorem Sound.image_eq (h : s.Sound) (h' : s'.Sound) (hblk : s'.blk = s.blk) : s'.image = s.image := by
  have hino : s'.image.ino = s.image.ino := by
    funext j
    by_cases hj : j < g.ninodes
    · rw [h'.ino_eq hj, h.ino_eq hj, BlockFs.dinode, BlockFs.dinode, hblk]
    · simp [BlockFs.image, hj]
  refine Image.ext hino ?_ ?_
  · simp only [BlockFs.image, hblk]
  · simp only [BlockFs.image, hblk]

theorem wp_load_same (h : s.Sound) (hi : i < g.ninodes) :
    Wp (exec (.load i)) (fun _ s' => Same s s' ∧ s'.Loaded i) (fun _ _ => True) s := by
  have hload : Wp (exec (.load i)) (fun _ s' => s'.Loaded i ∧ s'.image = s.image) (fun _ _ => True) s :=
    wp_iload hi (fun s' hl himage _ _ _ _ => ⟨hl, himage⟩) fun _ _ _ => trivial
  refine wp_mono (wp_and (agrees_load h hi) hload) ?_ fun _ _ _ => trivial
  intro _ s' hpost
  exact ⟨⟨hpost.1.sound, hpost.2.2⟩, hpost.2.1⟩

theorem wp_invalidate_same (h : s.Sound) : Wp (exec (.invalidate i)) (fun _ s' => Same s s') (fun _ _ => True) s := by
  have hblk : Wp (exec (.invalidate i)) (fun _ s' => s'.blk = s.blk) (fun _ _ => True) s := rfl
  refine wp_mono (wp_and (agrees_invalidate h) hblk) ?_ fun _ _ _ => trivial
  intro _ s' hpost
  exact ⟨hpost.1.sound, h.image_eq hpost.1.sound hpost.2⟩

theorem wp_stat_same (hl : s.Loaded i) {E : Halt → BlockFs g → Prop} :
    Wp (exec (.stat i)) (fun x s' => s' = s ∧ x.type = (s.image.ino i).type ∧ x.nlink = (s.image.ino i).nlink) E s := by
  unfold exec
  rw [wp_bind]
  exact wp_ip hl ⟨rfl, rfl, rfl⟩

/-- An entry of directory `d` leads to inode `i`. -/
def IsEntry (v : Image) (d i : ℕ) : Prop :=
  (v.ino d).type = T_DIR ∧ i ≠ 0 ∧ ∃ e < entries (v.content d), (entry (v.content d) e).inum = i

theorem wp_dirlookup_same (h : s.Sound) (hl : s.Loaded d) {name : List UInt8} :
    Wp (exec (.dirlookup d name)) (fun r s' => s' = s ∧ (s.image.ino d).type = T_DIR ∧
      ∀ off i, r = some (off, i) → IsEntry s.image d i) (fun _ _ => True) s := by
  unfold exec dirlookup
  rw [wp_bind]
  refine wp_ip hl ?_
  rw [wp_ite]
  split
  · trivial
  · rename_i htype
    rw [not_not] at htype
    rw [wp_bind]
    refine wp_scan h.consistent hl (h.alloc hl) (h.hasContent hl (ne_T_DEV_of_dir htype)) 0 (fun r hr => ?_)
      fun _ => trivial
    rw [wp_pure]
    refine ⟨rfl, htype, fun off i heq => ?_⟩
    cases r with
    | none => nomatch heq
    | some e =>
      obtain ⟨-, hlt, htest⟩ := scanEntries_some hr
      simp only [Option.map_some, Option.some.injEq, Prod.mk.injEq] at heq
      simp only [matchesName, decide_eq_true_eq] at htest
      exact ⟨htype, heq.2 ▸ htest.1, e, hlt, heq.2⟩

theorem wp_isdirempty_same (h : s.Sound) (hl : s.Loaded d) (hdir : (s.image.ino d).type = T_DIR) :
    Wp (exec (.isdirempty d)) (fun _ s' => s' = s) (fun _ _ => True) s := by
  unfold exec isdirempty
  rw [wp_bind]
  refine wp_ip hl ?_
  rw [wp_bind]
  refine wp_scan h.consistent hl (h.alloc hl) (h.hasContent hl (ne_T_DEV_of_dir hdir)) 2 (fun r _ => ?_) fun _ => trivial
  rw [wp_pure]

/-- An inode with other link count and device numbers. -/
def changed (c : Change) (d : Dinode) : Dinode :=
  { d with nlink := c.nlink d.nlink, major := c.major d.major, minor := c.minor d.minor }

theorem wp_update_image (h : s.Sound) (hl : s.Loaded i) (c : Change) :
    Wp (exec (.update i c)) (fun _ s' => s'.Sound ∧ s'.image = s.image.setIno i (changed c (s.image.ino i)))
      (fun _ _ => True) s := by
  have himage : Wp (exec (.update i c)) (fun _ s' => s'.image = s.image.setIno i (changed c (s.image.ino i)))
      (fun _ _ => True) s := by
    unfold exec change
    rw [wp_bind]
    refine wp_ip hl ?_
    rw [wp_bind]
    refine wp_setIp hl fun s1 hstep1 himage1 _ => ?_
    have hfits : (s1.image.ino i).Fits := by
      have hfits0 : (s.image.ino i).Fits := by
        rw [h.ino_eq hl.1]
        exact Dinode.fits_read _ _
      rw [himage1]
      simp only [setIno, update_self]
      exact hfits0
    exact wp_iupdate (hl.step hstep1) hfits fun s2 _ himage2 _ => himage2.trans himage1
  refine wp_mono (wp_and (agrees_update h hl c) himage) ?_ fun _ _ _ => trivial
  intro _ s' hpost
  exact ⟨hpost.1.sound, hpost.2⟩

end BlockFs

namespace Failed

open Sys BlockFs

variable {g : Geometry} {P : Type} {α β : Type} {p : P} {k k1 k' : Kernel (BlockFs g) P} {ref : ℕ → ℕ}
  {lock : ℕ → Option P} {i : ℕ}

/-- The kernel as it was, except for reference counts and locks. -/
structure Like (k : Kernel (BlockFs g) P) (ref : ℕ → ℕ) (lock : ℕ → Option P) (k' : Kernel (BlockFs g) P) : Prop where
  store : Same k.store k'.store
  ref : k'.ref = ref
  lock : k'.lock = lock
  file : k'.file = k.file
  pipe : k'.pipe = k.pipe
  proc : ∀ q, (k'.proc q).cwd = (k.proc q).cwd ∧ (k'.proc q).ofile = (k.proc q).ofile

theorem Like.refl (h : k.store.Sound) : Like k k.ref k.lock k := ⟨.refl h, rfl, rfl, rfl, rfl, fun _ => ⟨rfl, rfl⟩⟩

theorem Like.withStore (h : Like k ref lock k1) {s : BlockFs g} (hs : Same k1.store s) :
    Like k ref lock { k1 with store := s } :=
  ⟨h.store.trans hs, h.ref, h.lock, h.file, h.pipe, h.proc⟩

theorem Like.withRef (h : Like k ref lock k1) (n : ℕ) : Like k (update ref i n) lock (k1.setRef i n) := by
  refine ⟨h.store, ?_, h.lock, h.file, h.pipe, h.proc⟩
  rw [← h.ref]
  rfl

theorem Like.withLock (h : Like k ref lock k1) (o : Option P) : Like k ref (update lock i o) (k1.setLock i o) := by
  refine ⟨h.store, h.ref, ?_, h.file, h.pipe, h.proc⟩
  rw [← h.lock]
  rfl

variable [DecidableEq P]

/-! ## Programs run alone over blocks -/

/-- A program of process `p`, run alone. -/
def alone (p : P) (x : Sys P α) : Code Halt (Kernel (BlockFs g) P) α :=
  Prog.alone (Kernel.exec g.ninodes BlockFs.exec p .quiet) x

/-- What holds if the program returns. -/
def Post (p : P) (x : Sys P α) (Q : α → Kernel (BlockFs g) P → Prop) (k : Kernel (BlockFs g) P) : Prop :=
  Wp (alone p x) Q (fun _ _ => True) k

section

variable {Q : α → Kernel (BlockFs g) P → Prop}

variable {x : Sys P β} {f : β → Sys P α}

theorem post_bind :
    Post p (x >>= f) Q k ↔ Post p x (fun b k' => Post p (f b) Q k') k := Prog.wp_alone_bind

theorem post_mono {R : α → Kernel (BlockFs g) P → Prop} {x : Sys P α} (h : Post p x R k) (hQ : ∀ a k', R a k' → Q a k') :
    Post p x Q k :=
  wp_mono h hQ fun _ _ _ => trivial

/-- Code whose result does not matter. -/
theorem post_any {x : Sys P α} (hQ : ∀ a k', Q a k') : Post p x Q k := wp_any hQ

theorem post_skip (h : ∀ b k', Post p (f b) Q k') : Post p (x >>= f) Q k :=
  post_bind.mpr (post_any h)

theorem post_fs {op : FsOp} {Q : op.Resp → Kernel (BlockFs g) P → Prop} :
    Post p (fs op) Q k ↔ Wp (BlockFs.exec op) (fun r s => Q r { k with store := s }) (fun _ _ => True) k.store :=
  wp_alone_fs

theorem post_panic {e : Panic} : Post p (panic e) Q k := trivial

end

variable {Q : Unit → Kernel (BlockFs g) P → Prop}

/-- `begin_op` and `end_op`. -/
theorem post_beginOp (h : Like k ref lock k1)
    (hQ : ∀ k2, Like k ref lock k2 → Q () k2) : Post p (step .beginOp) Q k1 := by
  refine wp_alone_step.mpr (hQ _ ⟨h.store, h.ref, h.lock, h.file, h.pipe, fun q => ?_⟩)
  by_cases hq : q = p
  · subst hq
    simpa [Kernel.setProc] using h.proc q
  · simpa [Kernel.setProc, hq] using h.proc q

theorem post_endOp (h : Like k ref lock k1) (hQ : ∀ k2, Like k ref lock k2 → Q () k2) : Post p (step .endOp) Q k1 := by
  refine wp_alone_step.mpr (hQ _ ⟨h.store, h.ref, h.lock, h.file, h.pipe, fun q => ?_⟩)
  by_cases hq : q = p
  · subst hq
    simpa [Kernel.setProc] using h.proc q
  · simpa [Kernel.setProc, hq] using h.proc q

/-! ## Inodes -/

variable {site : Site} {q : P}

/-- `acquiresleep` returns only if nobody holds the lock. -/
theorem post_acquire (hQ : k.lock i = none → Q () (k.setLock i (some p))) : Post p (step (.acquire i site)) Q k := by
  cases hlock : k.lock i with
  | none => exact wp_alone_acquire hlock (hQ hlock)
  | some q =>
    refine wp_alone_step.mpr ?_
    unfold Wp
    rw [Kernel.run_acquire, hlock]
    trivial

/-- Code that starts with `acquiresleep`. -/
theorem post_acquiring {Q : α → Kernel (BlockFs g) P → Prop} {f : Unit → Sys P α}
    (hQ : k.lock i = none → Post p (step (.acquire i site) >>= f) Q k) : Post p (step (.acquire i site) >>= f) Q k := by
  by_cases hlock : k.lock i = none
  · exact hQ hlock
  · exact post_bind.mpr (post_acquire fun h => absurd h hlock)

/-- `ilock` returns only if nobody holds the lock. -/
theorem post_ilocking (h0 : i ≠ 0) (href : 0 < k.ref i)
    (hQ : k.lock i = none → Post p (fs (.load i)) Q (k.setLock i (some p))) : Post p (ilock i) Q k := by
  refine post_bind.mpr (wp_alone_step.mpr ?_)
  show Post p (if i = 0 ∨ k.ref i < 1 then panic .ilock else step (.acquire i .ilock) >>= fun _ => fs (.load i)) Q k
  rw [if_neg (by omega)]
  exact post_bind.mpr (post_acquire hQ)

section

variable (h : Like k ref lock k1)

include h

theorem post_ilock (h0 : i ≠ 0) (hi : i < g.ninodes) (href : 0 < ref i)
    (hQ : ∀ k2, lock i = none → Like k ref (update lock i (some p)) k2 → k2.store.Loaded i → Q () k2) :
    Post p (ilock i) Q k1 := by
  refine post_ilocking h0 (by rw [h.ref]; exact href) fun hlock => ?_
  refine post_fs.mpr (wp_mono (wp_load_same h.store.sound hi) (fun _ s hs => ?_) fun _ _ _ => trivial)
  exact hQ _ (h.lock ▸ hlock) ((h.withLock (some p)).withStore hs.1) hs.2

theorem post_iunlock (h0 : i ≠ 0) (href : 0 < ref i) (hlock : lock i = some q)
    (hQ : ∀ k2, Like k ref (update lock i none) k2 → Q () k2) : Post p (iunlock i) Q k1 :=
  wp_alone_iunlock h0 (by rw [h.ref]; exact href) (by rw [h.lock]; exact hlock) (hQ _ (h.withLock none))

/-- `iput` that frees nothing. -/
theorem post_iput (hi : i < g.ninodes) (hkeep : (k.store.image.ino i).nlink = 0 → ref i ≠ 1)
    (hQ : ∀ k2, Like k (update ref i (ref i - 1)) lock k2 → Q () k2) : Post p (iput i) Q k1 := by
  refine post_acquiring fun hlock => wp_alone_iput hlock ⟨rfl, fun hv => ?_⟩ ?_
  · have hstat : Wp (BlockFs.exec (.stat i)) _ (fun _ _ => False) k1.store := wp_stat_same ⟨hi, hv⟩
    refine wp_post hstat (fun x s hx => ?_)
    refine ⟨hx.1, fun hz => ?_⟩
    rw [hx.2.2, h.store.image] at hz
    rw [h.ref]
    exact hkeep hz
  · rw [h.ref]
    exact hQ _ (h.withRef _)

theorem post_iget
    (hQ : ∀ k2, Like k (incRef ref i) lock k2 → Q () k2) : Post p (step (.iget i)) Q k1 := by
  have hlike : Like k (incRef ref i) lock (k1.setRef i (k1.ref i + 1)) := by
    rw [h.ref]
    exact h.withRef _
  refine wp_alone_iget (fun _ => trivial) (fun _ => hQ _ hlike) fun _ => ?_
  refine wp_mono (wp_invalidate_same h.store.sound) (fun _ s hs => ?_) fun _ _ _ => trivial
  exact hQ _ (hlike.withStore hs)

end

theorem post_iunlockput (h : Like k ref (update lock i (some q)) k1)
    (h0 : i ≠ 0) (hi : i < g.ninodes) (href : 0 < ref i) (hlock : lock i = none)
    (hkeep : (k.store.image.ino i).nlink = 0 → ref i ≠ 1)
    (hQ : ∀ k2, Like k (update ref i (ref i - 1)) lock k2 → Q () k2) : Post p (iunlockput i) Q k1 := by
  refine post_bind.mpr (post_iunlock h h0 href (update_self ..) fun k2 h2 => ?_)
  rw [update_idem, ← hlock, update_eq_self] at h2
  exact post_iput h2 hi hkeep hQ

theorem post_stat {Q : Stat → Kernel (BlockFs g) P → Prop} (h : Like k ref lock k1) (hl : k1.store.Loaded i)
    (hQ : ∀ x, x.type = (k.store.image.ino i).type → x.nlink = (k.store.image.ino i).nlink → Q x k1) :
    Post p (fs (.stat i)) Q k1 := by
  refine post_fs.mpr (wp_post (wp_stat_same hl) (fun x s hx => ?_))
  obtain ⟨rfl, htype, hnlink⟩ := hx
  rw [h.store.image] at htype hnlink
  exact hQ x htype hnlink

variable {name : List UInt8} {j dp : ℕ} {type major minor : BitVec 16}

theorem post_dirlookup {Q : Option (ℕ × ℕ) → Kernel (BlockFs g) P → Prop} {d : ℕ}
    (h : Like k ref lock k1) (hl : k1.store.Loaded d) (hnone : (k.store.image.ino d).type = T_DIR → Q none k1)
    (hsome : ∀ off i k2, IsEntry k.store.image d i → Like k (incRef ref i) lock k2 → Q (some (off, i)) k2) :
    Post p (dirlookup d name) Q k1 := by
  refine post_bind.mpr (post_fs.mpr (wp_post (wp_dirlookup_same h.store.sound hl) (fun r s hr => ?_)))
  obtain ⟨rfl, hdir, hentry⟩ := hr
  cases r with
  | none => exact hnone (h.store.image ▸ hdir)
  | some x =>
    obtain ⟨off, j⟩ := x
    have hj := hentry off j rfl
    rw [h.store.image] at hj
    exact post_bind.mpr (post_iget h fun k2 h2 => hsome off j k2 hj h2)

/-! ## Paths -/

/-- An inode that a further reference to it does not free when it is dropped. -/
structure Stays (k : Kernel (BlockFs g) P) (i : ℕ) : Prop where
  ne_zero : i ≠ 0
  lt : i < g.ninodes
  keep : (k.store.image.ino i).nlink = 0 → 0 < k.ref i

/-- A consistent file system whose directory entries lead to inodes in use, as nobody else is in a call. -/
structure Tree (k : Kernel (BlockFs g) P) (p : P) : Prop where
  sound : k.store.Sound
  entries : ∀ d i, IsEntry k.store.image d i → Stays k i
  root : Stays k ROOTINO
  cwd : Stays k (k.proc p).cwd
  lock : ∀ i, k.lock i = none

omit [DecidableEq P] in
theorem Stays.keep_incRef (h : Stays k i) (hz : (k.store.image.ino i).nlink = 0) : incRef k.ref i i ≠ 1 := by
  have hpos := h.keep hz
  rw [incRef_self]
  omega

omit [DecidableEq P] in
theorem Stays.keep_incRef_incRef (h : Stays k i) (hz : (k.store.image.ino i).nlink = 0) :
    incRef (incRef k.ref i) j i ≠ 1 := by
  have hpos := h.keep hz
  have hle := le_incRef (incRef k.ref i) j i
  rw [incRef_self] at hle
  omega

/-- Locking an inode that was taken. -/
theorem Stays.post_lock (hi : Stays k i) (h : Like k (incRef ref i) lock k1)
    (hQ : ∀ k2, lock i = none → Like k (incRef ref i) (update lock i (some p)) k2 → k2.store.Loaded i →
      Q () k2) : Post p (ilock i) Q k1 :=
  post_ilock h hi.ne_zero hi.lt (by rw [incRef_self]; omega) hQ

/-- Unlocking and dropping the inode that was taken. -/
theorem Stays.post_drop (hi : Stays k i) (hlock : k.lock i = none)
    (h : Like k (incRef k.ref i) (update k.lock i (some q)) k1)
    (hQ : ∀ k2, Like k k.ref k.lock k2 → Q () k2) : Post p (iunlockput i) Q k1 := by
  refine post_iunlockput h hi.ne_zero hi.lt (by rw [incRef_self]; omega) hlock hi.keep_incRef fun k2 h2 => ?_
  rw [update_incRef_self] at h2
  exact hQ k2 h2

/-- Dropping the first of two inodes that were taken. -/
theorem Stays.post_dropFirst (hi : Stays k i)
    (hlock : lock i = none) (h : Like k (incRef (incRef k.ref i) j) (update lock i (some q)) k1)
    (hQ : ∀ k2, Like k (incRef k.ref j) lock k2 → Q () k2) : Post p (iunlockput i) Q k1 := by
  refine post_iunlockput h hi.ne_zero hi.lt ?_ hlock hi.keep_incRef_incRef fun k2 h2 => ?_
  · have hle := le_incRef (incRef k.ref i) j i
    rw [incRef_self] at hle
    omega
  · rw [update_incRef] at h2
    exact hQ k2 h2

/-- What `namex` leaves: a reference to the inode found. -/
def Found (k : Kernel (BlockFs g) P) (r : Option (ℕ × List UInt8)) (k' : Kernel (BlockFs g) P) : Prop :=
  Like k (Path.refsAfter k.ref r) k.lock k' ∧ ∀ i name, r = some (i, name) → Stays k i

/-- The loop of `namex`: the induction is on the names to come. -/
theorem post_namexLoop (h : Tree k p) (nameiparent : Bool) (names : List (List UInt8)) (hi : Stays k i)
    (hk : Like k (incRef k.ref i) k.lock k1) : Post p (namexLoop nameiparent i names) (Found k) k1 := by
  induction names generalizing i k1 with
  | nil =>
    unfold namexLoop
    cases nameiparent with
    | true =>
      refine post_bind.mpr (post_iput hk hi.lt hi.keep_incRef fun k2 h2 => ?_)
      rw [update_incRef_self] at h2
      exact ⟨h2, by simp⟩
    | false =>
      refine ⟨hk, fun j name heq => ?_⟩
      obtain ⟨rfl, -⟩ := Prod.mk.inj (Option.some.inj heq)
      exact hi
  | cons name names ih =>
    have hgiveUp : ∀ k2, Like k (incRef k.ref i) (update k.lock i (some p)) k2 →
        Post p (iunlockput i >>= fun _ => pure none) (Found k) k2 := fun k2 h2 =>
      post_bind.mpr (hi.post_drop (h.lock i) h2 fun k3 h3 => ⟨h3, by simp⟩)
    unfold namexLoop
    refine post_bind.mpr (hi.post_lock hk fun k2 _ h2 hl2 => ?_)
    refine post_bind.mpr (post_stat h2 hl2 fun x _ _ => ?_)
    split
    · exact hgiveUp k2 h2
    split
    · refine post_bind.mpr (post_iunlock h2 hi.ne_zero (by rw [incRef_self]; omega) (update_self ..)
        fun k3 h3 => ⟨?_, fun j name heq => ?_⟩)
      · rw [update_idem, ← h.lock i, update_eq_self] at h3
        exact h3
      · obtain ⟨rfl, -⟩ := Prod.mk.inj (Option.some.inj heq)
        exact hi
    · refine post_bind.mpr (post_dirlookup h2 hl2 (fun _ => hgiveUp k2 h2) fun off next k3 hentry h3 => ?_)
      exact post_bind.mpr (hi.post_dropFirst (h.lock i) h3 fun k4 h4 => ih (h.entries _ _ hentry) h4)

theorem post_namex (h : Tree k p) (path : List UInt8) (nameiparent : Bool) (hk : Like k k.ref k.lock k1) :
    Post p (namex path nameiparent) (Found k) k1 := by
  refine post_bind.mpr ?_
  unfold namexStart
  split
  · exact post_bind.mpr (post_iget hk fun k2 h2 => post_namexLoop h nameiparent _ h.root h2)
  · refine post_bind.mpr (wp_alone_step.mpr ?_)
    show Post p (step (.idup (k1.proc p).cwd) >>= fun _ => pure (k1.proc p).cwd)
      (fun i k' => Post p (namexLoop nameiparent i (elems path)) (Found k) k') k1
    refine post_bind.mpr (wp_alone_step.mpr ?_)
    show Post p (namexLoop nameiparent (k1.proc p).cwd (elems path)) (Found k)
      (k1.setRef (k1.proc p).cwd (k1.ref (k1.proc p).cwd + 1))
    rw [(hk.proc p).1, hk.ref]
    exact post_namexLoop h nameiparent _ h.cwd (hk.withRef _)

/-! ## The calls -/

/-- The disk and the inode cache as before: contents, inodes, bitmap, references and locks. -/
def Unchanged (k k' : Kernel (BlockFs g) P) : Prop :=
  k'.store.image = k.store.image ∧ (∀ i < g.ninodes, k'.store.dinode i = k.store.dinode i) ∧ k'.ref = k.ref ∧
    k'.lock = k.lock

/-- A call that leaves nothing behind if it fails. -/
def FailsClean (p : P) (x : Sys P ℤ) (k : Kernel (BlockFs g) P) : Prop :=
  ∀ k', (alone p x).run k = .ok (-1) k' → Unchanged k k'

omit [DecidableEq P] in
theorem Like.unchanged (h : Like k k.ref k.lock k') (h0 : k.store.Sound) : Unchanged k k' :=
  ⟨h.store.image, fun _ hi => h.store.dinode h0 hi, h.ref, h.lock⟩

/-- What a call leaves if it fails. -/
def Clean (k : Kernel (BlockFs g) P) (r : ℤ) (k' : Kernel (BlockFs g) P) : Prop := r = -1 → Like k k.ref k.lock k'

theorem failsClean {x : Sys P ℤ} (h0 : k.store.Sound) (h : Post p x (Clean k) k) : FailsClean p x k := by
  intro k' hrun
  exact (wp_ok h hrun rfl).unchanged h0

/-- Leaving a call: `end_op`, and -1 is returned. -/
theorem post_fail (hk : Like k k.ref k.lock k1) : Post p (step .endOp >>= fun _ => pure (-1)) (Clean k) k1 :=
  post_bind.mpr (post_endOp hk fun _ h2 _ => h2)

/-- A call that succeeds from here on. -/
theorem post_succeeds {x : Sys P β} {n : ℤ} (hn : n ≠ -1) : Post p (x >>= fun _ => pure n) (Clean k) k1 :=
  post_skip fun _ _ heq => absurd heq hn

/-- `create` up to the point where the name is known not to exist. -/
theorem post_create {Q : Option ℕ → Kernel (BlockFs g) P → Prop} (h : Tree k p)
    (path : List UInt8) (hk : Like k k.ref k.lock k1) (hnone : ∀ k2, Like k k.ref k.lock k2 → Q none k2)
    (hold : type = T_FILE → ∀ ip k2, Stays k ip → (k.store.image.ino ip).type = T_FILE →
      Like k (incRef k.ref ip) (update k.lock ip (some p)) k2 → Q (some ip) k2)
    (hnew : ∀ dp name k2, Stays k dp → (k.store.image.ino dp).type = T_DIR →
      Like k (incRef k.ref dp) (update k.lock dp (some p)) k2 → k2.store.Loaded dp →
        Post p (createNew dp name type major minor) Q k2) :
    Post p (create path type major minor) Q k1 := by
  refine post_bind.mpr (post_mono (post_namex h path true hk) fun r k2 hfound => ?_)
  cases r with
  | none => exact hnone k2 hfound.1
  | some x =>
    obtain ⟨dp, name⟩ := x
    have hdp := hfound.2 dp name rfl
    refine post_bind.mpr (hdp.post_lock hfound.1 fun k3 _ h3 hl3 => ?_)
    refine post_bind.mpr (post_dirlookup h3 hl3 (fun hdir => hnew dp name k3 hdp hdir h3 hl3)
      fun off ip k4 hentry h4 => ?_)
    have hip := h.entries _ _ hentry
    refine post_bind.mpr (hdp.post_dropFirst (h.lock dp) h4 fun k5 h5 => ?_)
    refine post_bind.mpr (hip.post_lock h5 fun k6 _ h6 hl6 => ?_)
    refine post_bind.mpr (post_stat h6 hl6 fun x hx _ => ?_)
    split
    · rename_i hfile
      exact hold hfile.1 ip k6 hip (hx ▸ hfile.2) h6
    · exact post_bind.mpr (hip.post_drop (h.lock ip) h6 hnone)

/-- `create` returns 0 only before it has changed something. -/
theorem post_createNew : Post p (createNew dp name type major minor) (fun r _ => r ≠ none) k1 := by
  refine post_skip fun ip _ => ?_
  refine post_skip fun _ _ => ?_
  refine post_skip fun _ _ => ?_
  refine post_skip fun _ _ => ?_
  refine post_skip fun _ _ => ?_
  refine post_skip fun ok _ => ?_
  split
  · exact post_skip fun _ _ => nofun
  · exact post_panic

/-- `sys_mkdir` and `sys_mknod`. -/
theorem post_sysCreate (h : Tree k p) (path : Option (List UInt8)) (htype : type ≠ T_FILE) :
    Post p (sysCreate path type major minor) (Clean k) k := by
  refine post_bind.mpr (post_beginOp (.refl h.sound) fun k1 h1 => post_bind.mpr ?_)
  have hmake : Post p (withPath path fun path => create path type major minor)
      (fun r k2 => r = none → Like k k.ref k.lock k2) k1 := by
    cases path with
    | none => exact fun _ => h1
    | some path =>
      refine post_create h path h1 (fun _ h2 _ => h2) (fun heq => absurd heq htype) fun _ _ _ _ _ _ _ => ?_
      exact post_mono post_createNew fun r _ hr heq => absurd heq hr
  refine post_mono hmake fun r k2 h2 => ?_
  cases r with
  | none => exact post_fail (h2 rfl)
  | some ip =>
    refine post_skip fun _ _ => ?_
    exact post_succeeds (by decide)

theorem post_nonEmptyDir {x : Stat} (hk : Like k ref lock k1) (hl : k1.store.Loaded i)
    (hx : x.type = (k.store.image.ino i).type) : Post p (nonEmptyDir i x.type) (fun _ k2 => k2 = k1) k1 := by
  unfold nonEmptyDir
  split
  · rename_i hdir
    have hdir1 : (k1.store.image.ino i).type = T_DIR := by rw [hk.store.image, ← hx, hdir]
    refine post_bind.mpr (post_fs.mpr (wp_post (wp_isdirempty_same hk.store.sound hl hdir1) (fun _ s hs => ?_)))
    subst hs
    exact rfl
  · exact rfl

theorem post_unlinkEntry {ip off : ℕ} : Post p (unlinkEntry dp ip off type) (Clean k) k1 := by
  refine post_skip fun _ _ => ?_
  refine post_skip fun _ _ => ?_
  refine post_skip fun _ _ => ?_
  refine post_skip fun _ _ => ?_
  refine post_skip fun _ _ => ?_
  exact post_succeeds (by decide)

/-- `sys_unlink`: it gives up the directory, or it succeeds. -/
theorem post_sysUnlink (h : Tree k p) (path : Option (List UInt8)) : Post p (sysUnlink path) (Clean k) k := by
  unfold sysUnlink
  cases path with
  | none => exact fun _ => .refl h.sound
  | some path =>
    refine post_bind.mpr (post_beginOp (.refl h.sound) fun k1 h1 => post_bind.mpr ?_)
    refine post_mono (post_namex h path true h1) fun r k2 hfound => ?_
    cases r with
    | none => exact post_fail hfound.1
    | some x =>
      obtain ⟨dp, name⟩ := x
      have hdp := hfound.2 dp name rfl
      have hbad : ∀ k3, Like k (incRef k.ref dp) (update k.lock dp (some p)) k3 →
          Post p (unlinkBad dp) (Clean k) k3 := fun k3 h3 =>
        post_bind.mpr (hdp.post_drop (h.lock dp) h3 fun k4 h4 => post_fail h4)
      refine post_bind.mpr (hdp.post_lock hfound.1 fun k3 _ h3 hl3 => ?_)
      split
      · exact hbad k3 h3
      refine post_bind.mpr (post_dirlookup h3 hl3 (fun _ => hbad k3 h3) fun off ip k4 hentry h4 => ?_)
      have hip := h.entries _ _ hentry
      -- an entry for the directory itself would make `ilock` wait for ever
      refine post_bind.mpr (hip.post_lock h4 fun k5 hfree h5 hl5 => ?_)
      refine post_bind.mpr (post_stat h5 hl5 fun x hx _ => ?_)
      split
      · exact post_panic
      refine post_bind.mpr (post_mono (post_nonEmptyDir h5 hl5 hx) fun full k6 hk6 => ?_)
      subst hk6
      split
      · refine post_bind.mpr (post_iunlockput h5 hip.ne_zero hip.lt (by rw [incRef_self]; omega) hfree ?_ fun k7 h7 => ?_)
        · intro hz
          have hpos := hip.keep hz
          have hle := le_incRef k.ref dp ip
          rw [incRef_self]
          omega
        · rw [update_incRef_self] at h7
          exact hbad k7 h7
      · exact post_unlinkEntry

/-! ### `sys_link` -/

/-- Inode `ip` has a further link, and one more reference. -/
structure Linked (k : Kernel (BlockFs g) P) (ip : ℕ) (k' : Kernel (BlockFs g) P) : Prop where
  sound : k'.store.Sound
  image : k'.store.image = k.store.image.setIno ip (changed .link (k.store.image.ino ip))
  ref : k'.ref = incRef k.ref ip
  lock : k'.lock = k.lock
  file : k'.file = k.file
  pipe : k'.pipe = k.pipe
  proc : ∀ q, (k'.proc q).cwd = (k.proc q).cwd ∧ (k'.proc q).ofile = (k.proc q).ofile

variable {ip : ℕ}

omit [DecidableEq P] in
theorem Linked.type_eq (h : Linked k ip k') (j : ℕ) : (k'.store.image.ino j).type = (k.store.image.ino j).type := by
  rw [h.image]
  by_cases hj : j = ip
  · subst hj
    simp [Image.setIno, changed]
  · simp [Image.setIno, hj]

omit [DecidableEq P] in
theorem Linked.content_eq (h : Linked k ip k') (j : ℕ) : k'.store.image.content j = k.store.image.content j := by
  have hdat : k'.store.image.dat = k.store.image.dat := by rw [h.image]; rfl
  have hino : (k'.store.image.ino j).size = (k.store.image.ino j).size ∧
      (k'.store.image.ino j).addrs = (k.store.image.ino j).addrs := by
    rw [h.image]
    by_cases hj : j = ip
    · subst hj
      simp [Image.setIno, changed]
    · simp [Image.setIno, hj]
  exact content_congr hino.1 hino.2 hdat

omit [DecidableEq P] in
/-- The inode that is linked has a reference, so that it stays even if its count wraps around. -/
theorem Linked.stays (h : Linked k ip k') (hj : Stays k j) : Stays k' j := by
  refine ⟨hj.ne_zero, hj.lt, fun hz => ?_⟩
  rw [h.ref]
  by_cases hji : j = ip
  · rw [hji, incRef_self]
    omega
  · simp only [h.image, Image.setIno, update_of_ne hji] at hz
    exact Nat.lt_of_lt_of_le (hj.keep hz) (le_incRef ..)

omit [DecidableEq P] in
theorem Linked.tree (h : Linked k ip k') (hk : Tree k p) : Tree k' p where
  sound := h.sound
  entries := by
    rintro d i ⟨hdir, h0, hentry⟩
    rw [h.type_eq] at hdir
    rw [h.content_eq] at hentry
    exact h.stays (hk.entries d i ⟨hdir, h0, hentry⟩)
  root := h.stays hk.root
  cwd := by
    rw [(h.proc p).1]
    exact h.stays hk.cwd
  lock i := by rw [h.lock, hk.lock i]

theorem changed_unlink_link (d : Dinode) : changed .unlink (changed .link d) = d := by
  simp [changed, Change.nlink, Change.major, Change.minor, BitVec.add_sub_cancel]

/-- The label `bad` takes the link back. -/
theorem post_linkBad (h : Tree k p) (hip : Stays k ip) (hL : Linked k ip k') (hk : Like k' k'.ref k'.lock k1) :
    Post p (linkBad ip) (Clean k) k1 := by
  refine post_bind.mpr (post_ilock hk hip.ne_zero hip.lt (by rw [hL.ref, incRef_self]; omega) fun k2 _ h2 hl2 => ?_)
  refine post_bind.mpr (post_fs.mpr (wp_post (wp_update_image h2.store.sound hl2 .unlink) (fun _ s hs => ?_)))
  have himage : s.image = k.store.image := by
    rw [hs.2, h2.store.image, hL.image]
    simp only [Image.setIno, update_self, changed_unlink_link, update_idem, update_eq_self]
  have hback : Like k (incRef k.ref ip) (update k.lock ip (some p)) { k2 with store := s } :=
    ⟨⟨hs.1, himage⟩, h2.ref.trans hL.ref, by rw [h2.lock, hL.lock], h2.file.trans hL.file, h2.pipe.trans hL.pipe,
      fun q => ⟨(h2.proc q).1.trans (hL.proc q).1, (h2.proc q).2.trans (hL.proc q).2⟩⟩
  exact post_bind.mpr (hip.post_drop (h.lock ip) hback fun k4 h4 => post_fail h4)

/-- `dirlink`: if the name exists, nothing happens. -/
theorem post_dirlink {d : ℕ} (h : Tree k p) (hk : Like k ref lock k1)
    (hle : ∀ i, k.ref i ≤ ref i) (hl : k1.store.Loaded d) :
    Post p (dirlink d name ip) (fun ok k2 => ok = false → Like k ref lock k2) k1 := by
  refine post_bind.mpr (post_dirlookup hk hl (fun _ => ?_) fun off i k2 hentry h2 => ?_)
  · exact post_skip fun _ _ => nofun
  · have hi := h.entries _ _ hentry
    refine post_bind.mpr (post_iput h2 hi.lt ?_ fun k3 h3 _ => ?_)
    · intro hz
      have hpos := hi.keep hz
      have hle := hle i
      rw [incRef_self]
      omega
    · rw [update_incRef_self] at h3
      exact h3

theorem post_linkInto (h : Tree k p) (hip : Stays k ip) (hL : Linked k ip k') (new : List UInt8) :
    Post p (linkInto ip new) (Clean k) k' := by
  -- the path is resolved in the tree in which the link count is already higher
  have h' := hL.tree h
  refine post_bind.mpr (post_mono (post_namex h' new true (.refl hL.sound)) fun r k1 hfound => ?_)
  cases r with
  | none => exact post_linkBad h hip hL hfound.1
  | some x =>
    obtain ⟨dp, name⟩ := x
    have hdp := hfound.2 dp name rfl
    refine post_bind.mpr (hdp.post_lock hfound.1 fun k2 _ h2 hl2 => ?_)
    refine post_bind.mpr (post_mono (post_dirlink h' h2 (le_incRef k'.ref dp) hl2) fun ok k3 h3 => ?_)
    cases ok with
    | true =>
      refine post_skip fun _ _ => ?_
      refine post_skip fun _ _ => ?_
      exact post_succeeds (by decide)
    | false =>
      -- the name exists
      exact post_bind.mpr (hdp.post_drop (h'.lock dp) (h3 rfl) fun k4 h4 => post_linkBad h hip hL h4)

theorem post_sysLink (h : Tree k p) (old new : Option (List UInt8)) : Post p (sysLink old new) (Clean k) k := by
  unfold sysLink
  cases old with
  | none => exact fun _ => .refl h.sound
  | some old =>
  cases new with
  | none => exact fun _ => .refl h.sound
  | some new =>
    refine post_bind.mpr (post_beginOp (.refl h.sound) fun k1 h1 => post_bind.mpr ?_)
    refine post_mono (post_namex h old false h1) fun r k2 hfound => ?_
    cases r with
    | none => exact post_fail hfound.1
    | some x =>
      obtain ⟨ip, name⟩ := x
      have hip := hfound.2 ip name rfl
      refine post_bind.mpr (hip.post_lock hfound.1 fun k3 _ h3 hl3 => ?_)
      refine post_bind.mpr (post_stat h3 hl3 fun x _ _ => ?_)
      split
      · exact post_bind.mpr (hip.post_drop (h.lock ip) h3 fun k4 h4 => post_fail h4)
      · refine post_bind.mpr (post_fs.mpr (wp_post (wp_update_image h3.store.sound hl3 .link) (fun _ s hs => ?_)))
        have href : k3.ref = incRef k.ref ip := h3.ref
        have hlinked : Linked k ip ({ k3 with store := s }.setLock ip none) := by
          refine ⟨hs.1, ?_, href, ?_, h3.file, h3.pipe, h3.proc⟩
          · show s.image = _
            rw [hs.2, h3.store.image]
          · show update k3.lock ip none = k.lock
            rw [h3.lock, update_idem, ← h.lock ip, update_eq_self]
        have hheld : k3.lock ip = some p := by rw [h3.lock, update_self]
        refine post_bind.mpr (wp_alone_iunlock hip.ne_zero ?_ hheld (post_linkInto h hip hlinked new))
        show 0 < k3.ref ip
        rw [href, incRef_self]
        omega

/-- A call of `sys_link`, `sys_unlink`, `sys_mkdir` or `sys_mknod` that fails, with nobody else in the file system,
leaves the disk, the references and the locks as they were. -/
theorem failed_calls_unchanged (k : Kernel (BlockFs g) P) (p : P) (h : Tree k p) :
    (∀ old new, FailsClean p (sysLink old new) k) ∧ (∀ path, FailsClean p (sysUnlink path) k) ∧
      (∀ path, FailsClean p (sysMkdir path) k) ∧ ∀ path major minor, FailsClean p (sysMknod path major minor) k :=
  ⟨fun old new => failsClean h.sound (post_sysLink h old new),
    fun path => failsClean h.sound (post_sysUnlink h path),
    fun path => failsClean h.sound (post_sysCreate h path (by decide)),
    fun path _ _ => failsClean h.sound (post_sysCreate h path (by decide))⟩

theorem emptyRoot_entry : ∀ e < entries (emptyRoot.image.content ROOTINO),
    (entry (emptyRoot.image.content ROOTINO) e).inum = ROOTINO := by
  decide +kernel

/-- A process at the root of that file system. -/
theorem emptyRoot_tree {k : Kernel (BlockFs tenBlocks) Unit} (hstore : k.store = emptyRoot)
    (hcwd : (k.proc ()).cwd = ROOTINO) (hlock : ∀ i, k.lock i = none) : Tree k () := by
  have hstays : Stays k ROOTINO := by
    refine ⟨by decide, by decide, fun hz => ?_⟩
    rw [hstore, emptyRoot_ino] at hz
    exact absurd hz (by decide)
  refine ⟨hstore ▸ emptyRoot_sound, ?_, hstays, hcwd ▸ hstays, hlock⟩
  rintro d i ⟨hdir, -, e, he, rfl⟩
  rw [hstore] at hdir he ⊢
  have hroot : d = ROOTINO := by
    by_contra hne
    rw [emptyRoot_ino, if_neg hne] at hdir
    exact absurd hdir (by decide)
  rw [hroot] at he ⊢
  rw [emptyRoot_entry e he]
  exact hstays

/-- A process at the root of a file system with an empty root directory. -/
def atRoot : Kernel (BlockFs tenBlocks) Unit where
  store := emptyRoot
  ref i := if i = ROOTINO then 1 else 0
  lock _ := none
  file _ := ⟨0, .none, false, false, 0⟩
  pipe _ := none
  proc _ := ⟨.running, ROOTINO, fun _ => none, 0, 0⟩
  initproc := ()

/-- `mkdir(".")` fails. -/
theorem failed_calls_unchanged_mkdir :
    Tree atRoot () ∧ ∃ k', (alone () (sysMkdir (some dot))).run atRoot = .ok (-1) k' ∧ Unchanged atRoot k' := by
  have htree : Tree atRoot () := emptyRoot_tree rfl rfl fun _ => rfl
  have hreturns : Wp (alone () (sysMkdir (some dot))) (fun r _ => r = -1 ∧ True) (fun _ _ => False) atRoot := by
    decide +kernel
  obtain ⟨k', hrun, -⟩ := wp_returns_eq hreturns
  exact ⟨htree, k', hrun, (failed_calls_unchanged atRoot () htree).2.2.1 (some dot) k' hrun⟩

end Failed

end Xv6
