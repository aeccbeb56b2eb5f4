import Xv6.Lib.Lts
import Xv6.Fs.DirMap

/-!
# Directories under concurrent calls

What `create`, `mkdir`, `mknod`, `link`, `unlink` and path lookup do to directories while they hold the directory's
lock, as single steps in any order; beside them the opening of files, writing through them, and the freeing of an inode
that nobody refers to. Every directory remains a finite map: the names that were linked and not unlinked since.
-/

namespace Xv6

open Function Code List

namespace Directories

/-! ## The critical sections -/

section
variable (N : ℕ)

/-- `dirlink`: `false` is the result `-1`. -/
def dirlink (d : ℕ) (name : List UInt8) (inum : ℕ) : Code Halt Files Bool := do
  let r ← Files.exec N (.dirlookup d name)
  match r with
  | some _ => pure false
  | none => do
    Files.exec N (.dirlink d name inum)
    pure true

/-- The entries `.` and `..` of a new directory. -/
def createDots (dp ip : ℕ) (type : BitVec 16) : Code Halt Files Unit :=
  if type = T_DIR then do
    Files.exec N (.update dp .link)
    let ok ← dirlink N ip dot ip
    if ok then
      let ok ← dirlink N ip dotdot dp
      if ok then pure () else throw (.panic .createDots)
    else throw (.panic .createDots)
  else pure ()

/-- `create`, while it holds the parent: the new inode, if there was none. -/
def create (dp : ℕ) (name : List UInt8) (type major minor : BitVec 16) : Code Halt Files (Option ℕ) := do
  let r ← Files.exec N (.dirlookup dp name)
  match r with
  | some _ => pure none
  | none => do
    let ip ← Files.exec N (.ialloc type)
    Files.exec N (.load ip)
    Files.exec N (.update ip (.create major minor))
    createDots N dp ip type
    let ok ← dirlink N dp name ip
    if ok then pure (some ip) else throw (.panic .createDirlink)

/-- `ip->type == T_DIR && !isdirempty(ip)`. -/
def nonEmptyDir (ip : ℕ) (type : BitVec 16) : Code Halt Files Bool :=
  if type = T_DIR then do
    let empty ← Files.exec N (.isdirempty ip)
    pure (!empty)
  else pure false

/-- `if(ip->type == T_DIR){ dp->nlink--; iupdate(dp); }`. -/
def unlinkParent (dp : ℕ) (type : BitVec 16) : Code Halt Files Unit :=
  if type = T_DIR then Files.exec N (.update dp .unlink) else pure ()

/-- `sys_unlink`, while it holds the parent and the inode. -/
def unlink (dp : ℕ) (name : List UInt8) : Code Halt Files Bool :=
  if IsDot name then pure false
  else do
    let r ← Files.exec N (.dirlookup dp name)
    match r with
    | none => pure false
    | some (off, ip) => do
      let st ← Files.exec N (.stat ip)
      if st.nlink.toInt < 1 then throw (.panic .unlinkNlink)
      else
        let full ← nonEmptyDir N ip st.type
        if full then pure false
        else
          Files.exec N (.clear dp off)
          unlinkParent N dp st.type
          Files.exec N (.update ip .unlink)
          pure true

end

/-! ## Runs -/

/-- The inodes, the open files with their inode and whether they are writable, and for every directory the inode that
was last linked under a name and not unlinked since. -/
structure State where
  files : Files
  opened : List (ℕ × Bool)
  last : ℕ → List UInt8 → Option ℕ

/-- What can happen. -/
inductive Event where
  | dirlookup (d : ℕ) (name : List UInt8)
  | link (d : ℕ) (name : List UInt8) (inum : ℕ)
  | create (d : ℕ) (name : List UInt8) (type major minor : BitVec 16)
  | unlink (d : ℕ) (name : List UInt8)
  /-- `sys_open` of an inode that exists. -/
  | opens (i : ℕ) (omode : BitVec 32)
  /-- `writei` through an open file. -/
  | write (i off : ℕ) (src : List UInt8)
  | close (i : ℕ) (writable : Bool)
  /-- `iput` frees an inode. -/
  | free (i : ℕ)

/-- What the kernel knows when it enters the critical section. A path has led to the directory, and the reference that
the caller holds keeps it from being freed. -/
def State.Enabled (s : State) : Event → Prop
  | .dirlookup d _ | .unlink d _ => (s.files.node d).type = T_DIR
  | .link d _ inum => (s.files.node d).type = T_DIR ∧ inum ≠ 0 ∧ inum < 2 ^ 16
  | .create d _ type _ _ => (s.files.node d).type = T_DIR ∧ (type = T_DIR ∨ type = T_FILE ∨ type = T_DEV)
  | .opens i _ => (s.files.node i).type ≠ 0
  | .write i _ _ => (i, true) ∈ s.opened ∧ (s.files.node i).type ≠ T_DEV
  | .close i w => (i, w) ∈ s.opened
  | .free i => (s.files.node i).nlink = 0 ∧ ∀ w, (i, w) ∉ s.opened

instance (s : State) (e : Event) : Decidable (s.Enabled e) := by
  cases e <;> unfold State.Enabled <;> infer_instance

/-- A binding of a directory changes. -/
def State.bind (s : State) (d : ℕ) (name : List UInt8) (i : Option ℕ) : ℕ → List UInt8 → Option ℕ :=
  update s.last d (update (s.last d) (trunc14 name) i)

/-- The bindings of a new directory. -/
def dots (ip dp : ℕ) : List UInt8 → Option ℕ :=
  update (update (fun _ => none) dot (some ip)) dotdot (some dp)

/-- The effect of one event. A panic is no step. -/
def State.next (N : ℕ) (s : State) (e : Event) : Option State :=
  if s.Enabled e then
    match e with
    | .dirlookup d name =>
      match (Files.exec N (.dirlookup d name)).run s.files with
      | .ok _ files => some { s with files }
      | .error _ _ => none
    | .link d name inum =>
      match (dirlink N d name inum).run s.files with
      | .ok true files => some { s with files, last := s.bind d name (some inum) }
      | .ok false files => some { s with files }
      | .error _ _ => none
    | .create d name type major minor =>
      match (create N d name type major minor).run s.files with
      | .ok (some ip) files =>
        some { s with
          files
          last := if type = T_DIR then update (s.bind d name (some ip)) ip (dots ip d)
            else s.bind d name (some ip) }
      | .ok none files => some { s with files }
      | .error _ _ => none
    | .unlink d name =>
      match (unlink N d name).run s.files with
      | .ok true files => some { s with files, last := s.bind d name none }
      | .ok false files => some { s with files }
      | .error _ _ => none
    | .opens i omode =>
      if (s.files.node i).type = T_DIR ∧ omode ≠ O_RDONLY then some s
      else some { s with opened := (i, decide (omode &&& O_WRONLY ≠ 0 ∨ omode &&& O_RDWR ≠ 0)) :: s.opened }
    | .write i off src =>
      match (Files.exec N (.writei i off src)).run s.files with
      | .ok _ files => some { s with files }
      | .error _ _ => none
    | .close i w => some { s with opened := s.opened.erase (i, w) }
    | .free i =>
      match (Files.exec N (.ifree i)).run s.files with
      | .ok _ files => some { s with files }
      | .error _ _ => none
  else none

/-- The directories are well formed, and nothing is open. -/
structure State.Init (N : ℕ) (s : State) : Prop where
  used : ∀ i, (s.files.node i).type ≠ 0 → 0 < i ∧ i < N
  isDir : ∀ d, (s.files.node d).type = T_DIR → IsDir (s.files.node d).data
  length_le : ∀ d, (s.files.node d).type = T_DIR → (s.files.node d).data.length ≤ MAXFILE * BSIZE
  last : ∀ d, (s.files.node d).type = T_DIR → s.last d = bound (s.files.node d).data
  opened : s.opened = []

/-- All interleavings, on `N` inodes. -/
def lts (N : ℕ) : Lts State Event where
  init := State.Init N
  next := State.next N

/-! ## What the critical sections do -/

/-- The types and the bytes of the inodes. -/
def View (t : Files) (ty : ℕ → BitVec 16) (da : ℕ → List UInt8) : Prop :=
  ∀ i, (t.node i).type = ty i ∧ (t.node i).data = da i

section
variable {N : ℕ} {t : Files} {ty : ℕ → BitVec 16} {da : ℕ → List UInt8} {E : Halt → Files → Prop} {d inum i : ℕ}
  {name : List UInt8}

variable {Q : Unit → Files → Prop} {data data' : List UInt8} {k ip dp : ℕ} {type : BitVec 16}

/-- `iupdate` of the other fields. -/
theorem wp_update {c : Change} (h : View t ty da) (hQ : ∀ t', View t' ty da → Q () t') :
    Wp (Files.exec N (.update i c)) Q E t := by
  refine hQ _ fun j => ?_
  by_cases hj : j = i
  · subst hj
    simp [Files.setNode, h j]
  · simp [Files.setNode, hj, h j]

theorem wp_load (h : View t ty da) (hi : ty i ≠ 0) (hQ : ∀ t', View t' ty da → Q () t') :
    Wp (Files.exec N (.load i)) Q E t := by
  have hrun : (Files.exec N (.load i)).run t =
      if t.valid i then .ok () t else if (t.node i).type = 0 then .error (.panic .ilockNoType) t
      else .ok () (t.setValid i true) := rfl
  unfold Wp
  rw [hrun, if_neg (show ¬ (t.node i).type = 0 by rw [(h i).1]; exact hi)]
  by_cases hv : t.valid i = true
  · rw [if_pos hv]
    exact hQ t h
  · rw [if_neg hv]
    exact hQ _ h

/-- `dirlookup` of a directory. -/
theorem wp_dirlookup {Q : Option (ℕ × ℕ) → Files → Prop} (h : View t ty da) (hd : ty d = T_DIR)
    (hsize : (da d).length % DIRENT = 0)
    (hQ : Q ((firstEntry (da d) 0 (binds (trunc14 name))).map fun k => (DIRENT * k, (entry (da d) k).inum)) t) :
    Wp (Files.exec N (.dirlookup d name)) Q E t := by
  unfold Wp
  rw [Files.run_dirlookup, (h d).1, (h d).2, if_neg (not_not.mpr hd), matchesName_eq]
  unfold scanEntries
  cases hfirst : firstEntry (da d) 0 (binds (trunc14 name)) with
  | none =>
    rw [hfirst] at hQ
    rw [if_neg (by rw [hsize]; simp)]
    exact hQ
  | some k =>
    rw [hfirst] at hQ
    exact hQ

/-- What `dirlink` of a new name has done: entry `k`, which was free, binds it. -/
structure Linked (data data' name : List UInt8) (inum k : ℕ) : Prop where
  free : Free data k
  /-- The directory grows only if no entry is free. -/
  grows : k = entries data → ∀ j < entries data, (entry data j).inum ≠ 0
  replaced : Replaced data data' k (Dirent.read (Dirent.bytes inum name))
  isMap : IsMap data'
  length_le : data'.length ≤ MAXFILE * BSIZE
  bound : bound data' = update (bound data) (trunc14 name) (some inum)

/-- A directory of maximal size without a free entry. -/
def Full (data : List UInt8) : Prop :=
  (∀ j < entries data, (entry data j).inum ≠ 0) ∧ data.length + DIRENT > MAXFILE * BSIZE

theorem full_of_gt (hmod : data.length % DIRENT = 0) (hlen : data.length ≤ MAXFILE * BSIZE)
    (hmax : DIRENT * (firstEntry data 0 unused).getD (entries data) + DIRENT > MAXFILE * BSIZE) : Full data := by
  have hmul := entries_mul hmod
  cases hfirst : firstEntry data 0 unused with
  | none =>
    rw [hfirst, Option.getD_none, hmul] at hmax
    refine ⟨fun j hj => ?_, hmax⟩
    have hused := firstEntry_none hfirst hj
    simpa [unused] using hused
  | some k =>
    rw [hfirst, Option.getD_some, ← Nat.mul_succ] at hmax
    have hle := Nat.mul_le_mul_left DIRENT (firstEntry_some hfirst).1
    omega

theorem linked_splice (hmap : IsMap data) (hlen : data.length ≤ MAXFILE * BSIZE)
    (hnew : bound data (trunc14 name) = none) (hne : inum ≠ 0) (h16 : inum < 2 ^ 16)
    (hk : (firstEntry data 0 unused).getD (entries data) = k) (hmax : DIRENT * k + DIRENT ≤ MAXFILE * BSIZE) :
    Linked data (splice data (DIRENT * k) (Dirent.bytes inum name)) name inum k := by
  have hfree : Free data k ∧ (k = entries data → ∀ j < entries data, (entry data j).inum ≠ 0) := by
    cases hfirst : firstEntry data 0 unused with
    | none =>
      rw [hfirst] at hk
      refine ⟨.inl hk.symm, fun _ j hj => ?_⟩
      have hused := firstEntry_none hfirst hj
      simpa [unused] using hused
    | some j =>
      rw [hfirst] at hk
      obtain rfl : j = k := hk
      obtain ⟨hj, hzero⟩ := firstEntry_some hfirst
      exact ⟨.inr ⟨hj, by simpa [unused] using hzero⟩, fun heq => absurd heq (by omega)⟩
  have hle : k ≤ entries data := by
    rcases hfree.1 with rfl | ⟨hlt, -⟩
    · exact Nat.le_refl _
    · exact Nat.le_of_lt hlt
  have hr := replaced_splice hmap.size hle (Dirent.bytes_length inum name)
  obtain ⟨hmap', hbound⟩ := hmap.link hfree.1 hnew hr fun key => binds_new h16 hne
  have hb := Dirent.bytes_length inum name
  have hoff : DIRENT * k ≤ data.length := entries_mul hmap.size ▸ Nat.mul_le_mul_left _ hle
  refine ⟨hfree.1, hfree.2, hr, hmap', ?_, ?_⟩
  · rw [splice_length hoff, hb]
    exact Nat.max_le.mpr ⟨hlen, hmax⟩
  rw [hbound, Dirent.read_bytes, Nat.mod_eq_of_lt h16]

/-- `dirlink` fails for a name that is there, and adds the binding otherwise; a directory of maximal size panics. -/
theorem wp_dirlink {Q : Bool → Files → Prop} (h : View t ty da) (hd : ty d = T_DIR) (hmap : IsMap (da d))
    (hlen : (da d).length ≤ MAXFILE * BSIZE) (hne : inum ≠ 0) (h16 : inum < 2 ^ 16)
    (hold : bound (da d) (trunc14 name) ≠ none → Q false t)
    (hnew : ∀ t' data' k, bound (da d) (trunc14 name) = none → Linked (da d) data' name inum k →
      View t' ty (update da d data') → Q true t')
    (hE : Full (da d) → ∀ t', E (.panic .dirlink) t') : Wp (dirlink N d name inum) Q E t := by
  unfold dirlink
  rw [wp_bind]
  refine wp_dirlookup h hd hmap.size ?_
  unfold bound at hold
  cases hfirst : firstEntry (da d) 0 (binds (trunc14 name)) with
  | some k =>
    rw [hfirst] at hold
    exact hold (by simp)
  | none =>
    have hnone : bound (da d) (trunc14 name) = none := by rw [bound, hfirst]; rfl
    show Wp (Files.exec N (.dirlink d name inum) >>= fun _ => pure true) Q E t
    rw [wp_bind]
    have hscan : scanEntries (da d) 0 .dirlinkRead unused = .ok (firstEntry (da d) 0 unused) := by
      unfold scanEntries
      cases firstEntry (da d) 0 unused with
      | none => rw [if_neg (by rw [hmap.size]; simp)]
      | some k => rfl
    unfold Wp
    rw [Files.run_dirlink, (h d).2, hscan]
    by_cases hmax : DIRENT * (firstEntry (da d) 0 unused).getD (entries (da d)) + DIRENT > MAXFILE * BSIZE
    · simp only [hmax, if_true]
      exact hE (full_of_gt hmap.size hlen hmax) _
    · simp only [hmax, if_false]
      refine hnew _ _ _ hnone (linked_splice hmap hlen hnone hne h16 rfl (by omega)) fun j => ?_
      by_cases hj : j = d
      · subst hj
        simp [Files.setData, Files.setNode, h j]
      · simp [Files.setData, Files.setNode, hj, h j]

theorem wp_ialloc {Q : ℕ → Files → Prop} (h : View t ty da)
    (hQ : ∀ ip t', 0 < ip → ip < N → ty ip = 0 → View t' (update ty ip type) (update da ip []) →
      Q ip t')
    (hE : ∀ t', E (.panic .iallocNoInodes) t') : Wp (Files.exec N (.ialloc type)) Q E t := by
  unfold Wp
  rw [Files.run_ialloc]
  cases hfree : t.freeInode N with
  | none => exact hE _
  | some ip =>
    have hmem := mem_range'_1.mp (mem_of_find?_eq_some hfree)
    have hzero : (t.node ip).type = 0 := by simpa using find?_some hfree
    refine hQ ip _ (by omega) (by omega) (by rw [← (h ip).1]; exact hzero) fun j => ?_
    by_cases hj : j = ip
    · subst hj
      simp [Files.setNode]
    · simp [Files.setNode, hj, h j]

theorem trunc14_dot : trunc14 dot = dot := rfl

theorem trunc14_dotdot : trunc14 dotdot = dotdot := rfl

/-- The entry that `dirlink` wrote. -/
theorem Linked.entry (h : Linked data data' name inum k) (hne : inum ≠ 0)
    (h16 : inum < 2 ^ 16) : k < entries data' ∧ binds (trunc14 name) (Xv6.entry data' k) = true :=
  ⟨h.replaced.lt.mpr (.inl rfl), by rw [h.replaced.entry]; exact (binds_new h16 hne).mpr rfl⟩

/-- The two entries of a new directory. -/
theorem isDir_dots {k' : ℕ} (hip : ip ≠ 0) (hip16 : ip < 2 ^ 16) (hdp : dp ≠ 0)
    (hdp16 : dp < 2 ^ 16) (h : Linked [] data dot ip k) (h' : Linked data data' dotdot dp k') :
    IsDir data' ∧ Xv6.bound data' = dots ip dp := by
  obtain rfl : k = 0 := Nat.le_zero.mp h.replaced.le
  have hentries : entries data = 1 := h.replaced.entries
  have hdot := h.entry hip hip16
  obtain rfl : k' = 1 := by
    rcases h'.free with rfl | ⟨hlt, hzero⟩
    · exact hentries
    · obtain rfl : k' = 0 := by omega
      exact absurd hzero (binds_iff.mp hdot.2).1
  refine ⟨⟨h'.isMap, h'.replaced.kept h'.free hdot, h'.entry hdp hdp16⟩, ?_⟩
  rw [h'.bound, h.bound]
  rfl

theorem wp_createDots (h : View t ty da)
    (htype : ty ip = type) (hempty : da ip = []) (hip : ip ≠ 0) (hip16 : ip < 2 ^ 16) (hdp : dp ≠ 0)
    (hdp16 : dp < 2 ^ 16) (hfile : type ≠ T_DIR → Q () t)
    (hdir : ∀ t' data', IsDir data' → data'.length ≤ MAXFILE * BSIZE → bound data' = dots ip dp →
      View t' ty (update da ip data') → Q () t')
    (hE : ∀ t', E (.panic .dirlink) t') : Wp (createDots N dp ip type) Q E t := by
  unfold createDots
  split
  · rename_i hT
    rw [wp_bind]
    refine wp_update h fun t1 h1 => ?_
    have hmap : IsMap (da ip) := by
      rw [hempty]
      exact ⟨rfl, fun j k key hj => absurd hj (Nat.not_lt_zero _)⟩
    have hnone : ∀ key, bound (da ip) key = none := fun key => by rw [hempty]; rfl
    rw [wp_bind]
    refine wp_dirlink h1 (htype.trans hT) hmap (by rw [hempty]; exact Nat.zero_le _) hip hip16
      (fun hsome => absurd (hnone _) hsome) (fun t2 data k _ hlinked h2 => ?_) fun _ => hE
    have hself : update da ip data ip = data := update_self ..
    rw [hempty] at hlinked
    rw [if_pos rfl, wp_bind]
    refine wp_dirlink h2 (htype.trans hT) (by rw [hself]; exact hlinked.isMap)
      (by rw [hself]; exact hlinked.length_le) hdp hdp16 (fun hsome => ?_)
      (fun t3 data' k' _ hlinked' h3 => ?_) fun _ => hE
    · rw [hself, hlinked.bound, trunc14_dotdot, trunc14_dot, update_of_ne (by decide)] at hsome
      exact absurd rfl hsome
    · rw [hself] at hlinked'
      rw [update_idem] at h3
      rw [if_pos rfl]
      obtain ⟨hisDir, hbound⟩ := isDir_dots hip hip16 hdp hdp16 hlinked hlinked'
      exact hdir t3 data' hisDir hlinked'.length_le hbound h3
  · rename_i hT
    exact hfile hT

/-- `create` finds the name, or makes a new inode and binds the name to it. -/
theorem wp_create {Q : Option ℕ → Files → Prop} {major minor : BitVec 16} (h : View t ty da)
    (hd : ty d = T_DIR) (hmap : IsMap (da d)) (hlen : (da d).length ≤ MAXFILE * BSIZE) (hd0 : d ≠ 0)
    (hd16 : d < 2 ^ 16) (hN : N ≤ 2 ^ 16) (htype : type ≠ 0) (hold : bound (da d) (trunc14 name) ≠ none → Q none t)
    (hnew : ∀ ip t' data' k data1, bound (da d) (trunc14 name) = none → ty ip = 0 → 0 < ip → ip < N →
      Linked (da d) data' name ip k →
      (type = T_DIR → IsDir data1 ∧ data1.length ≤ MAXFILE * BSIZE ∧ bound data1 = dots ip d) →
      View t' (update ty ip type) (update (update da ip data1) d data') → Q (some ip) t')
    (hE1 : ∀ t', E (.panic .iallocNoInodes) t') (hE2 : ∀ t', E (.panic .dirlink) t') :
    Wp (create N d name type major minor) Q E t := by
  unfold create
  rw [wp_bind]
  refine wp_dirlookup h hd hmap.size ?_
  unfold bound at hold
  cases hfirst : firstEntry (da d) 0 (binds (trunc14 name)) with
  | some k =>
    rw [hfirst] at hold
    exact hold (by simp)
  | none =>
    have hnone : bound (da d) (trunc14 name) = none := by rw [bound, hfirst]; rfl
    show Wp (Files.exec N (.ialloc type) >>= _) Q E t
    rw [wp_bind]
    refine wp_ialloc h (fun ip t1 hpos hlt hfree h1 => ?_) hE1
    have hne : d ≠ ip := by
      rintro rfl
      rw [hfree] at hd
      exact absurd hd (by decide)
    have hself : update ty ip type ip = type := update_self ..
    rw [wp_bind]
    refine wp_load h1 (by rw [hself]; exact htype) fun t2 h2 => ?_
    rw [wp_bind]
    refine wp_update h2 fun t3 h3 => ?_
    rw [wp_bind]
    -- the new inode is a directory with two entries, or an empty file
    have hlast : ∀ t4 data1,
        (type = T_DIR → IsDir data1 ∧ data1.length ≤ MAXFILE * BSIZE ∧ bound data1 = dots ip d) →
        View t4 (update ty ip type) (update da ip data1) →
        Wp (dirlink N d name ip >>= fun ok => if ok then pure (some ip) else throw (.panic .createDirlink))
          Q E t4 := by
      intro t4 data1 hdata1 h4
      have hother : update da ip data1 d = da d := update_of_ne hne ..
      rw [wp_bind]
      refine wp_dirlink h4 (by rw [update_of_ne hne]; exact hd) (by rw [hother]; exact hmap)
        (by rw [hother]; exact hlen) (by omega) (by omega) (fun hsome => ?_) (fun t5 data' k _ hlinked h5 => ?_)
        fun _ => hE2
      · rw [hother] at hsome
        exact absurd hnone hsome
      · rw [hother] at hlinked
        rw [if_pos rfl]
        exact hnew ip t5 data' k data1 hnone hfree hpos hlt hlinked hdata1 h5
    refine wp_createDots h3 hself (update_self ..) (by omega) (by omega) hd0 hd16 (fun hfile => ?_)
      (fun t4 data1 hisDir hlen1 hbound h4 => ?_) hE2
    · exact hlast t3 [] (fun hT => absurd hT hfile) h3
    · rw [update_idem] at h4
      exact hlast t4 data1 (fun _ => ⟨hisDir, hlen1, hbound⟩) h4

theorem isDot_iff : IsDot name ↔ trunc14 name = dot ∨ trunc14 name = dotdot := by
  unfold IsDot
  rw [namecmp_eq_zero_iff, namecmp_eq_zero_iff, trunc14_dot, trunc14_dotdot]

/-- Clearing the entry that `dirlookup` found. -/
theorem wp_clear (h : View t ty da) (hmap : IsMap (da d))
    (hlen : (da d).length ≤ MAXFILE * BSIZE) (hk : k < entries (da d))
    (hQ : ∀ t' data', Replaced (da d) data' k (Dirent.read (List.replicate DIRENT 0)) →
      data'.length ≤ MAXFILE * BSIZE → View t' ty (update da d data') → Q () t') :
    Wp (Files.exec N (.clear d (DIRENT * k))) Q E t := by
  have hmul := entries_mul hmap.size
  have hend := Nat.mul_le_mul_left DIRENT (Nat.succ_le_of_lt hk)
  rw [Nat.mul_succ] at hend
  have hrun : (Files.exec N (.clear d (DIRENT * k))).run t =
      if DIRENT * k > (t.node d).data.length ∨ DIRENT * k + DIRENT > MAXFILE * BSIZE then
        .error (.panic .unlinkWritei) t
      else .ok () (t.setData d (splice (t.node d).data (DIRENT * k) (List.replicate DIRENT 0))) := rfl
  unfold Wp
  rw [hrun, (h d).2, if_neg (by omega)]
  refine hQ _ _ (replaced_splice hmap.size (Nat.le_of_lt hk) (by simp)) ?_ fun j => ?_
  · rw [splice_length (by omega), length_replicate]
    exact Nat.max_le.mpr ⟨hlen, by omega⟩
  · by_cases hj : j = d
    · subst hj
      simp [Files.setData, Files.setNode, h j]
    · simp [Files.setData, Files.setNode, hj, h j]

theorem wp_nonEmptyDir {Q : Bool → Files → Prop} (h : View t ty da)
    (hdir : ty ip = T_DIR → (da ip).length % DIRENT = 0) (hQ : ∀ b, Q b t) : Wp (nonEmptyDir N ip (ty ip)) Q E t := by
  unfold nonEmptyDir
  split
  · rename_i hT
    rw [wp_bind]
    unfold Wp
    rw [Files.run_isdirempty, (h ip).2]
    unfold scanEntries
    cases firstEntry (da ip) 2 used with
    | none =>
      rw [if_neg (by rw [hdir hT]; simp)]
      exact hQ _
    | some k => exact hQ _
  · exact hQ _

/-- `unlink` removes the binding of the name, unless it is `.` or `..`, is not there or leads to a directory that is
not empty. -/
theorem wp_unlink {Q : Bool → Files → Prop} (h : View t ty da) (hd : ty d = T_DIR)
    (hdirs : ∀ j, ty j = T_DIR → IsDir (da j)) (hlen : (da d).length ≤ MAXFILE * BSIZE) (hfail : Q false t)
    (hok : ∀ t' data', bound (da d) (trunc14 name) ≠ none → IsDir data' → data'.length ≤ MAXFILE * BSIZE →
      bound data' = update (bound (da d)) (trunc14 name) none → entries data' = entries (da d) →
      View t' ty (update da d data') → Q true t')
    (hE : ∀ t', E (.panic .unlinkNlink) t') : Wp (unlink N d name) Q E t := by
  have hdir := hdirs d hd
  unfold unlink
  split
  · exact hfail
  rename_i hdot
  rw [isDot_iff, not_or] at hdot
  rw [wp_bind]
  refine wp_dirlookup h hd hdir.size ?_
  cases hfirst : firstEntry (da d) 0 (binds (trunc14 name)) with
  | none => exact hfail
  | some k =>
    obtain ⟨hk, hbinds⟩ := firstEntry_some hfirst
    have hsome : bound (da d) (trunc14 name) ≠ none := by rw [bound, hfirst]; simp
    rw [Option.map_some]
    generalize (entry (da d) k).inum = ip
    show Wp (Files.exec N (.stat ip) >>= _) Q E t
    rw [wp_bind]
    show Wp (if (t.node ip).nlink.toInt < 1 then _ else _) Q E t
    split
    · exact hE t
    show Wp (nonEmptyDir N ip (t.node ip).type >>= _) Q E t
    rw [wp_bind, (h ip).1]
    refine wp_nonEmptyDir h (fun hT => (hdirs ip hT).size) fun full => ?_
    split
    · exact hfail
    rw [wp_bind]
    refine wp_clear h hdir.toIsMap hlen hk fun t1 data' hr hlen' h1 => ?_
    have hzero : (Dirent.read (List.replicate DIRENT 0)).inum = 0 := by decide
    obtain ⟨hisDir, hbound⟩ := hdir.clear hk hbinds hdot.1 hdot.2 hr hzero
    have hentries : entries data' = entries (da d) := by
      rw [hr.entries]
      exact Nat.max_eq_left hk
    rw [wp_bind]
    have hend : ∀ t2, View t2 ty (update da d data') →
        Wp (Files.exec N (.update ip .unlink) >>= fun _ => pure true) Q E t2 := by
      intro t2 h2
      rw [wp_bind]
      exact wp_update h2 fun t3 h3 => hok t3 data' hsome hisDir hlen' hbound hentries h3
    unfold unlinkParent
    split
    · exact wp_update h1 hend
    · exact hend t1 h1

end

/-! ## The invariant -/

/-- The types and the bytes, as functions. -/
theorem view_self (t : Files) : View t (fun i => (t.node i).type) (fun i => (t.node i).data) := fun _ => ⟨rfl, rfl⟩

/-- What holds in every run. -/
structure Inv (N : ℕ) (s : State) : Prop where
  used : ∀ i, (s.files.node i).type ≠ 0 → 0 < i ∧ i < N
  isDir : ∀ d, (s.files.node d).type = T_DIR → IsDir (s.files.node d).data
  length_le : ∀ d, (s.files.node d).type = T_DIR → (s.files.node d).data.length ≤ MAXFILE * BSIZE
  last : ∀ d, (s.files.node d).type = T_DIR → s.last d = bound (s.files.node d).data
  opened : ∀ f ∈ s.opened, (s.files.node f.1).type ≠ 0 ∧ (f.2 = true → (s.files.node f.1).type ≠ T_DIR)

variable {N : ℕ} {s s' : State} {d : ℕ} {name : List UInt8}

/-- The rule for a step that changes one inode, and the last operations on the names of its directory. -/
theorem Inv.setInode (h : Inv N s) {i : ℕ} {files : Files} {last : ℕ → List UInt8 → Option ℕ}
    (hother : ∀ j, j ≠ i → (files.node j).type = (s.files.node j).type ∧ (files.node j).data = (s.files.node j).data)
    (hlast : ∀ j, j ≠ i → last j = s.last j) (hused : (files.node i).type ≠ 0 → 0 < i ∧ i < N)
    (hdir : (files.node i).type = T_DIR → IsDir (files.node i).data ∧ (files.node i).data.length ≤ MAXFILE * BSIZE ∧
      last i = bound (files.node i).data)
    (hopened : ∀ w, (i, w) ∈ s.opened → (files.node i).type ≠ 0 ∧ (w = true → (files.node i).type ≠ T_DIR)) :
    Inv N { s with files, last } := by
  have hall : ∀ j, (files.node j).type = T_DIR → IsDir (files.node j).data ∧
      (files.node j).data.length ≤ MAXFILE * BSIZE ∧ last j = bound (files.node j).data := by
    intro j hj
    by_cases hji : j = i
    · subst hji
      exact hdir hj
    · rw [(hother j hji).1] at hj
      rw [(hother j hji).2, hlast j hji]
      exact ⟨h.isDir j hj, h.length_le j hj, h.last j hj⟩
  refine ⟨fun j hj => ?_, fun j hj => (hall j hj).1, fun j hj => (hall j hj).2.1, fun j hj => (hall j hj).2.2,
    fun f hf => ?_⟩
  · by_cases hji : j = i
    · subst hji
      exact hused hj
    · rw [(hother j hji).1] at hj
      exact h.used j hj
  · obtain ⟨j, w⟩ := f
    by_cases hji : j = i
    · subst hji
      exact hopened w hf
    · rw [(hother j hji).1]
      exact h.opened _ hf

/-- A step that changes the bytes of one directory. -/
theorem Inv.setDir (h : Inv N s) {files : Files} {data' : List UInt8} {last : ℕ → List UInt8 → Option ℕ}
    (hview : View files (fun i => (s.files.node i).type) (update (fun i => (s.files.node i).data) d data'))
    (hdir : IsDir data') (hlen : data'.length ≤ MAXFILE * BSIZE) (hself : last d = bound data')
    (hother : ∀ j, j ≠ d → last j = s.last j) : Inv N { s with files, last } := by
  have htype : (files.node d).type = (s.files.node d).type := (hview d).1
  have hdata : (files.node d).data = data' := by rw [(hview d).2, update_self]
  refine h.setInode (fun j hj => ⟨(hview j).1, ?_⟩) hother (fun hd => h.used d (htype ▸ hd)) (fun _ => ?_) fun w hw => ?_
  · rw [(hview j).2, update_of_ne hj]
  · rw [hdata]
    exact ⟨hdir, hlen, hself⟩
  · rw [htype]
    exact h.opened (d, w) hw

/-- The panics that remain: no inode is left, the directory is full, or the link count of a file is wrong. -/
def Stops (e : Halt) : Prop := e = .panic .iallocNoInodes ∨ e = .panic .dirlink ∨ e = .panic .unlinkNlink

theorem bind_self (s : State) (d : ℕ) (name : List UInt8) (i : Option ℕ) :
    s.bind d name i d = update (s.last d) (trunc14 name) i := update_self ..

theorem bind_of_ne (s : State) {j : ℕ} (hj : j ≠ d) (i : Option ℕ) : s.bind d name i j = s.last j :=
  update_of_ne hj ..

/-- `dirlink` keeps the directories. -/
theorem Inv.link (h : Inv N s) {inum : ℕ} (hd : (s.files.node d).type = T_DIR) (hne : inum ≠ 0) (h16 : inum < 2 ^ 16) :
    Wp (dirlink N d name inum) (fun ok files =>
      Inv N { s with files, last := if ok then s.bind d name (some inum) else s.last } ∧
      (ok = false ↔ s.last d (trunc14 name) ≠ none) ∧ (ok = false → files = s.files) ∧
      (ok = true → ∃ k, Linked (s.files.node d).data (files.node d).data name inum k))
      (fun e _ => e = .panic .dirlink ∧ Full (s.files.node d).data) s.files := by
  have hdir := h.isDir d hd
  have hlast := h.last d hd
  refine wp_dirlink (view_self s.files) hd hdir.toIsMap (h.length_le d hd) hne h16 (fun hsome => ?_)
    (fun files data' k hnone hlinked hview => ?_) fun hfull _ => ⟨rfl, hfull⟩
  · refine ⟨h, ?_, fun _ => rfl, nofun⟩
    rw [hlast]
    simpa using hsome
  · have hdata : (files.node d).data = data' := by rw [(hview d).2, update_self]
    refine ⟨?_, ?_, nofun, fun _ => ⟨k, by rw [hdata]; exact hlinked⟩⟩
    · refine h.setDir hview ⟨hlinked.isMap, hlinked.replaced.kept hlinked.free hdir.dot,
        hlinked.replaced.kept hlinked.free hdir.dotdot⟩ hlinked.length_le ?_ fun j hj => ?_
      · rw [if_pos rfl, bind_self, hlinked.bound, hlast]
      · rw [if_pos rfl, bind_of_ne s hj]
    · rw [hlast]
      simp [hnone]

/-- `unlink` keeps the directories. -/
theorem Inv.unlink (h : Inv N s) (hd : (s.files.node d).type = T_DIR) : Wp (unlink N d name) (fun ok files =>
      Inv N { s with files, last := if ok then s.bind d name none else s.last } ∧
      (ok = false → files = s.files) ∧
      (ok = true → s.last d (trunc14 name) ≠ none ∧
        bound (files.node d).data = update (s.last d) (trunc14 name) none ∧
        entries (files.node d).data = entries (s.files.node d).data))
      (fun e _ => e = .panic .unlinkNlink) s.files := by
  have hlast := h.last d hd
  refine wp_unlink (view_self s.files) hd h.isDir (h.length_le d hd) ?_
    (fun files data' hsome hdir hlen hbound hentries hview => ?_) fun _ => rfl
  · exact ⟨h, fun _ => rfl, nofun⟩
  · have hdata : (files.node d).data = data' := by rw [(hview d).2, update_self]
    refine ⟨?_, nofun, fun _ => ⟨by rw [hlast]; exact hsome, ?_⟩⟩
    · refine h.setDir hview hdir hlen ?_ fun j hj => ?_
      · rw [if_pos rfl, bind_self, hbound, hlast]
      · rw [if_pos rfl, bind_of_ne s hj]
    · rw [hdata, hlast]
      exact ⟨hbound, hentries⟩

/-- `create` keeps the directories, and a new one has its two entries. -/
theorem Inv.create (h : Inv N s) (hN : N ≤ 2 ^ 16) {type major minor : BitVec 16}
    (hd : (s.files.node d).type = T_DIR) (htype : type ≠ 0) : Wp (create N d name type major minor) (fun r files =>
      (r = none → files = s.files) ∧ ∀ ip, r = some ip → Inv N { s with
        files
        last := if type = T_DIR then update (s.bind d name (some ip)) ip (dots ip d)
          else s.bind d name (some ip) }) (fun e _ => Stops e) s.files := by
  have hdir := h.isDir d hd
  have hlast := h.last d hd
  obtain ⟨hd0, hdN⟩ := h.used d (by rw [hd]; decide)
  refine wp_create (view_self s.files) hd hdir.toIsMap (h.length_le d hd) (by omega) (by omega) hN htype
    (fun _ => ⟨fun _ => rfl, nofun⟩) (fun ip files data' k data1 hnone hfree hpos hlt hlinked hdata1 hview => ?_)
    (fun _ => .inl rfl) fun _ => .inr (.inl rfl)
  refine ⟨nofun, fun ip' hip' => ?_⟩
  obtain rfl := Option.some.inj hip'
  have hne : d ≠ ip := by
    rintro rfl
    rw [hd] at hfree
    exact absurd hfree (by decide)
  -- the state with the new inode, before the name is bound
  have hmid : Inv N ⟨⟨fun j => { (s.files.node j) with
        type := update (fun i => (s.files.node i).type) ip type j
        data := update (fun i => (s.files.node i).data) ip data1 j }, s.files.valid⟩, s.opened,
      if type = T_DIR then update s.last ip (dots ip d) else s.last⟩ := by
    refine h.setInode (i := ip) (fun j hj => by simp [hj]) (fun j hj => ?_)
      (fun _ => ⟨hpos, hlt⟩) (fun hT => ?_) fun w hw => absurd hfree (h.opened _ hw).1
    · split
      · rw [update_of_ne hj]
      · rfl
    · simp only [update_self] at hT ⊢
      simp [hT, hdata1 hT]
  have hnode : update (fun i => (s.files.node i).data) ip data1 d = (s.files.node d).data :=
    update_of_ne hne ..
  refine hmid.setDir (d := d) hview ⟨hlinked.isMap, hlinked.replaced.kept hlinked.free hdir.dot,
    hlinked.replaced.kept hlinked.free hdir.dotdot⟩ hlinked.length_le ?_ fun j hj => ?_
  · split
    · rw [update_of_ne hne, bind_self, hlinked.bound, hlast]
    · rw [bind_self, hlinked.bound, hlast]
  · show _ = (if type = T_DIR then update s.last ip (dots ip d) else s.last) j
    split
    · by_cases hj' : j = ip
      · rw [hj', update_self, update_self]
      · rw [update_of_ne hj', update_of_ne hj', bind_of_ne s hj]
    · rw [bind_of_ne s hj]

theorem State.Init.inv (h : s.Init N) : Inv N s :=
  ⟨h.used, h.isDir, h.length_le, h.last, by rw [h.opened]; exact fun f hf => absurd hf not_mem_nil⟩

theorem Inv.next (h : Inv N s) (hN : N ≤ 2 ^ 16) {e : Event} (hnext : s.next N e = some s') : Inv N s' := by
  unfold State.next at hnext
  split at hnext
  case isFalse => nomatch hnext
  rename_i henabled
  cases e with
  | dirlookup d name =>
    simp only at hnext
    split at hnext
    · rename_i r files hrun
      obtain rfl := Option.some.inj hnext
      have hsame : files = s.files := by
        refine wp_ok (Q := fun _ t => t = s.files) (E := fun _ _ => True) ?_ hrun
        exact wp_dirlookup (view_self s.files) henabled (h.isDir d henabled).size rfl
      rw [hsame]
      exact h
    · nomatch hnext
  | link d name inum =>
    obtain ⟨hd, hne, h16⟩ := henabled
    simp only at hnext
    split at hnext
    · rename_i files hrun
      obtain rfl := Option.some.inj hnext
      exact (wp_ok (h.link hd hne h16) hrun).1
    · rename_i files hrun
      obtain rfl := Option.some.inj hnext
      exact (wp_ok (h.link hd hne h16) hrun).1
    · nomatch hnext
  | create d name type major minor =>
    obtain ⟨hd, htype⟩ := henabled
    have hne : type ≠ 0 := by rcases htype with rfl | rfl | rfl <;> decide
    simp only at hnext
    split at hnext
    · rename_i ip files hrun
      obtain rfl := Option.some.inj hnext
      exact (wp_ok (h.create hN hd hne) hrun).2 ip rfl
    · rename_i files hrun
      obtain rfl := Option.some.inj hnext
      rw [(wp_ok (h.create hN hd hne) hrun).1 rfl]
      exact h
    · nomatch hnext
  | unlink d name =>
    simp only at hnext
    split at hnext
    · rename_i files hrun
      obtain rfl := Option.some.inj hnext
      exact (wp_ok (h.unlink henabled) hrun).1
    · rename_i files hrun
      obtain rfl := Option.some.inj hnext
      exact (wp_ok (h.unlink henabled) hrun).1
    · nomatch hnext
  | opens i omode =>
    simp only at hnext
    split at hnext
    · obtain rfl := Option.some.inj hnext
      exact h
    · rename_i hmode
      obtain rfl := Option.some.inj hnext
      refine ⟨h.used, h.isDir, h.length_le, h.last, fun f hf => ?_⟩
      rcases mem_cons.mp hf with rfl | hf
      · refine ⟨henabled, fun hw hT => ?_⟩
        -- a directory is only opened with mode 0
        obtain rfl : omode = O_RDONLY := by
          by_contra hne
          exact hmode ⟨hT, hne⟩
        have hread : ¬ (O_RDONLY &&& O_WRONLY ≠ 0 ∨ O_RDONLY &&& O_RDWR ≠ 0) := by decide
        exact absurd (of_decide_eq_true hw) hread
      · exact h.opened f hf
  | write i off src =>
    obtain ⟨hopen, -⟩ := henabled
    have hfile := (h.opened _ hopen).2 rfl
    simp only at hnext
    split at hnext
    · rename_i r files hrun
      obtain rfl := Option.some.inj hnext
      have hexec : (Files.exec N (.writei i off src)).run s.files =
          if off > (s.files.node i).data.length ∨ 2 ^ 32 ≤ off + src.length ∨
            off + src.length > MAXFILE * BSIZE then .ok none s.files
          else .ok (some src.length) (s.files.setData i (splice (s.files.node i).data off src)) := rfl
      rw [hexec] at hrun
      split at hrun
      · obtain ⟨-, rfl⟩ := EStateM.Result.ok.inj hrun
        exact h
      · obtain ⟨-, rfl⟩ := EStateM.Result.ok.inj hrun
        have hself : ∀ data, ((s.files.setData i data).node i).type = (s.files.node i).type := by
          simp [Files.setData, Files.setNode]
        refine h.setInode (fun j hj => ?_) (fun _ _ => rfl) (fun hi => h.used i (hself _ ▸ hi))
          (fun hi => absurd (hself _ ▸ hi) hfile) fun w hw => ?_
        · simp [Files.setData, Files.setNode, hj]
        · rw [hself]
          exact h.opened (i, w) hw
    · nomatch hnext
  | close i w =>
    obtain rfl := Option.some.inj hnext
    exact ⟨h.used, h.isDir, h.length_le, h.last, fun f hf => h.opened f (mem_of_mem_erase hf)⟩
  | free i =>
    obtain ⟨-, hclosed⟩ := henabled
    obtain rfl := Option.some.inj hnext
    have hfreed : (((s.files.setNode i { s.files.node i with type := 0, data := [] }).setValid i
        false).node i).type = 0 := by simp [Files.setNode, Files.setValid]
    refine h.setInode (fun j hj => ?_) (fun _ _ => rfl) (fun hi => absurd hfreed hi)
      (fun hi => absurd (hfreed.symm.trans hi) (by decide)) fun w hw => absurd hw (hclosed w)
    simp [Files.setNode, Files.setValid, hj]

theorem inv_of_reachable (hN : N ≤ 2 ^ 16) (h : (lts N).Reachable s) : Inv N s :=
  h.invariant (I := Inv N) (fun _ => State.Init.inv) fun _ _ _ hinv _ hnext => hinv.next hN hnext

/-! ## The result -/

/-- Every directory is a finite map. -/
structure FiniteMaps (N : ℕ) (s : State) : Prop where
  /-- Complete entries, `.` and `..` first, and no name twice. -/
  isDir : ∀ d, (s.files.node d).type = T_DIR → IsDir (s.files.node d).data
  /-- `dirlookup` finds what was last linked and not unlinked since, and does not panic. -/
  dirlookup : ∀ d name, (s.files.node d).type = T_DIR → ∃ r, (Files.exec N (.dirlookup d name)).run s.files =
    .ok r s.files ∧ r.map Prod.snd = s.last d (trunc14 name)
  /-- `dirlink` fails exactly for a name that is there; otherwise it binds the name in a free entry or in a new one, and
  no other name changes. It panics only in a directory of maximal size without a free entry. -/
  dirlink : ∀ d name inum, (s.files.node d).type = T_DIR → inum ≠ 0 → inum < 2 ^ 16 →
    Wp (dirlink N d name inum) (fun ok files =>
      (ok = false ↔ s.last d (trunc14 name) ≠ none) ∧ (ok = false → files = s.files) ∧
      (ok = true → bound (files.node d).data = update (s.last d) (trunc14 name) (some inum) ∧
        ∃ k, Linked (s.files.node d).data (files.node d).data name inum k))
      (fun e _ => e = .panic .dirlink ∧ Full (s.files.node d).data) s.files
  /-- `unlink` removes the binding of a name that was there, or changes nothing. -/
  unlink : ∀ d name, (s.files.node d).type = T_DIR → Wp (unlink N d name) (fun ok files =>
    (ok = false → files = s.files) ∧ (ok = true → s.last d (trunc14 name) ≠ none ∧
      bound (files.node d).data = update (s.last d) (trunc14 name) none ∧
      entries (files.node d).data = entries (s.files.node d).data)) (fun e _ => e = .panic .unlinkNlink) s.files
  /-- `create` panics only without inodes, or in a full directory. -/
  create : ∀ d name type major minor, (s.files.node d).type = T_DIR → type ≠ 0 →
    Wp (create N d name type major minor) (fun _ _ => True) (fun e _ => Stops e) s.files
  /-- Names count up to `DIRSIZ` bytes. -/
  names : ∀ name name', namecmp name name' = 0 ↔ trunc14 name = trunc14 name'
  /-- No file that is open on a directory is writable. -/
  readOnly : ∀ f ∈ s.opened, (s.files.node f.1).type = T_DIR → f.2 = false

/-- The root directory alone. -/
def rootOnly : State where
  files :=
    { node i := if i = 1 then ⟨T_DIR, 0, 0, 1, Dirent.bytes 1 dot ++ Dirent.bytes 1 dotdot⟩ else ⟨0, 0, 0, 0, []⟩
      valid _ := false }
  opened := []
  last d := if d = 1 then dots 1 1 else fun _ => none

theorem rootOnly_init : rootOnly.Init 8 := by
  have hroot : ∀ {i}, (rootOnly.files.node i).type ≠ 0 → i = 1 := by
    intro i hi
    by_contra hne
    exact hi (by simp [rootOnly, hne])
  have hdir : ∀ {d}, (rootOnly.files.node d).type = T_DIR → d = 1 := fun hd => hroot (by rw [hd]; decide)
  have hnames : ∀ j < 2, ∀ k < 2, trunc14 (entry (rootOnly.files.node 1).data j).name =
      trunc14 (entry (rootOnly.files.node 1).data k).name → j = k := by decide
  have hisDir : IsDir (rootOnly.files.node 1).data :=
    ⟨⟨by decide, fun j k key hj hk hbj hbk =>
      hnames j hj k hk ((binds_iff.mp hbj).2.trans (binds_iff.mp hbk).2.symm)⟩, by decide, by decide⟩
  refine ⟨fun i hi => ?_, fun d hd => ?_, fun d hd => ?_, fun d hd => ?_, rfl⟩
  · rw [hroot hi]
    decide
  · rw [hdir hd]
    exact hisDir
  · rw [hdir hd]
    decide
  · rw [hdir hd]
    funext key
    apply Option.ext
    intro i
    rw [hisDir.bound_eq_some_iff]
    have hentry : ∀ k < 2, (entry (rootOnly.files.node 1).data k).inum = 1 ∧
        trunc14 (entry (rootOnly.files.node 1).data k).name = if k = 0 then dot else dotdot := by decide
    have hlast : rootOnly.last 1 key = some i ↔ i = 1 ∧ (key = dot ∨ key = dotdot) := by
      show update (update (fun _ => none) dot (some 1)) dotdot (some 1) key = some i ↔ _
      by_cases h2 : key = dotdot
      · simp [h2, eq_comm]
      · by_cases h1 : key = dot
        · simp [h1, update_of_ne (show dot ≠ dotdot by decide), eq_comm]
        · simp [h1, h2]
    rw [hlast]
    constructor
    · rintro ⟨rfl, rfl | rfl⟩
      · exact ⟨0, by decide, by decide, by decide⟩
      · exact ⟨1, by decide, by decide, by decide⟩
    · rintro ⟨k, hk, hb, rfl⟩
      obtain ⟨hinum, hname⟩ := hentry k hk
      refine ⟨hinum, ?_⟩
      rw [← (binds_iff.mp hb).2, hname]
      split
      · exact .inl rfl
      · exact .inr rfl

end Directories

end Xv6
