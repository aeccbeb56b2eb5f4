import Xv6.Kernel.Alone
import Mathlib.Tactic.Common

/-!
# Path resolution (`skipelem`, `namex`, `namei`, `nameiparent` in `fs.c`)

The elements that `skipelem` finds are the non-empty pieces of the path between slashes. On a directory tree, `namex`
run alone follows them by directory lookup, and keeps no reference but that to the inode it returns.
-/

namespace Xv6

open Function Code List

/-! ## The elements of a path -/

/-- The non-empty pieces between slashes. -/
def components (path : List UInt8) : List (List UInt8) := (path.splitOn slash).filter (· ≠ [])

theorem components_slash (path : List UInt8) : components (slash :: path) = components path := by
  simp [components, List.splitOn, splitOnP_cons_eq_if_modifyHead]

theorem components_dropWhile (path : List UInt8) : components (path.dropWhile (· == slash)) = components path := by
  induction path with
  | nil => rfl
  | cons c path ih =>
    by_cases hc : c = slash
    · rw [dropWhile_cons_of_pos (by simpa using hc), ih, hc, components_slash]
    · rw [dropWhile_cons_of_neg (by simpa using hc)]

/-- The first component of a path that does not begin with a slash. -/
theorem components_cons {c : UInt8} {path : List UInt8} (hc : c ≠ slash) : components (c :: path) =
      (c :: path).takeWhile (· != slash) :: components ((c :: path).dropWhile (· != slash)) := by
  have hsplit := takeWhile_append_dropWhile (p := (· != slash)) (l := c :: path)
  have hfree : ∀ x ∈ (c :: path).takeWhile (· != slash), (x == slash) = false := by
    intro x hx
    simpa using all_eq_true.mp (all_takeWhile (p := (· != slash)) (l := c :: path)) x hx
  have hne : (c :: path).takeWhile (· != slash) ≠ [] := by
    rw [takeWhile_cons_of_pos (by simpa using hc)]
    exact cons_ne_nil _ _
  have hrest := head?_dropWhile_not (· != slash) (c :: path)
  generalize (c :: path).takeWhile (· != slash) = a at *
  generalize (c :: path).dropWhile (· != slash) = rest at *
  rw [← hsplit]
  cases rest with
  | nil => simp [components, List.splitOn, splitOnP_eq_singleton hfree, hne]
  | cons x rest =>
    obtain rfl : x = slash := by simpa using hrest
    rw [components_slash]
    unfold components List.splitOn
    rw [splitOnP_append_cons_of_forall_mem hfree _ (by simp), filter_cons_of_pos (by simpa using hne)]

/-- `skipelem`, called again and again, finds the components, cut off after `DIRSIZ` bytes. -/
theorem elems_eq_components (path : List UInt8) : elems path = (components path).map (·.take DIRSIZ) := by
  induction hn : path.length using Nat.strong_induction_on generalizing path with
  | _ n ih =>
    rw [elems_eq, ← components_dropWhile]
    cases hs : skipelem path with
    | none =>
      have hnil : path.dropWhile (· == slash) = [] := by
        by_contra hne
        simp [skipelem, hne] at hs
      rw [hnil]
      rfl
    | some found =>
      obtain ⟨name, rest⟩ := found
      have hlt := skipelem_lt hs
      have hhead := head?_dropWhile_not (· == slash) path
      simp only [skipelem] at hs
      generalize path.dropWhile (· == slash) = s at hs hhead
      cases s with
      | nil => simp at hs
      | cons c s =>
        rw [if_neg (cons_ne_nil _ _), Option.some.injEq, Prod.mk.injEq] at hs
        obtain ⟨rfl, rfl⟩ := hs
        rw [components_cons (by simpa using hhead), map_cons, ← components_dropWhile]
        exact congrArg _ (ih _ (hn ▸ hlt) _ rfl)

/-! ## Resolution on a directory tree -/

namespace Files

/-- Directory lookup: it fails in what is no directory, and for a name that is not there. -/
def lookup (t : Files) (d : ℕ) (name : List UInt8) : Option ℕ :=
  if (t.node d).type = T_DIR then
    (firstEntry (t.node d).data 0 (matchesName name)).map fun k => (entry (t.node d).data k).inum
  else none

/-- Lookup of one name after the other. -/
def resolve (t : Files) (start : ℕ) (names : List (List UInt8)) : Option ℕ := names.foldlM t.lookup start

/-- Lookup of all names but the last, which is to be found in a directory. -/
def resolveParent (t : Files) (start : ℕ) (names : List (List UInt8)) : Option (ℕ × List UInt8) :=
  match names.getLast? with
  | none => none
  | some name =>
    (t.resolve start names.dropLast).bind fun d => if (t.node d).type = T_DIR then some (d, name) else none

variable {t : Files} {start : ℕ}

theorem resolve_cons (name : List UInt8) (names : List (List UInt8)) :
    t.resolve start (name :: names) = (t.lookup start name).bind fun i => t.resolve i names := rfl

variable {names : List (List UInt8)}

theorem resolveParent_cons (name : List UInt8) (h : names ≠ []) :
    t.resolveParent start (name :: names) = (t.lookup start name).bind fun i => t.resolveParent i names := by
  obtain ⟨name', names, rfl⟩ := exists_cons_of_ne_nil h
  simp only [resolveParent, getLast?_cons_cons, dropLast_cons_cons, resolve_cons]
  cases t.lookup start name with
  | none => cases (name' :: names).getLast? <;> rfl
  | some i => rfl

/-- Looking up the last name in the parent. -/
theorem resolve_of_resolveParent {d : ℕ} {name : List UInt8}
    (h : t.resolveParent start names = some (d, name)) : t.resolve start names = t.lookup d name := by
  rcases eq_nil_or_concat names with rfl | ⟨init, last, rfl⟩
  · nomatch h
  · rw [concat_eq_append] at h ⊢
    simp only [resolveParent, getLast?_concat, dropLast_concat] at h
    obtain ⟨d', hd', hif⟩ := Option.bind_eq_some_iff.mp h
    split at hif
    · obtain ⟨rfl, rfl⟩ := Prod.mk.inj (Option.some.inj hif)
      rw [resolve, foldlM_append, show init.foldlM t.lookup start = some d' from hd']
      simp
    · nomatch hif

end Files

/-! ## `namex` run alone -/

namespace Kernel

variable {P : Type} [DecidableEq P]

/-- The kernel with other `valid` bits, reference counts and locks of inodes. -/
def withInodes (k : Kernel Files P) (valid : ℕ → Bool) (ref : ℕ → ℕ) (lock : ℕ → Option P) : Kernel Files P :=
  { k with store := { k.store with valid }, ref, lock }

end Kernel

/-- One reference more. -/
def incRef (ref : ℕ → ℕ) (i : ℕ) : ℕ → ℕ := update ref i (ref i + 1)

theorem le_incRef (ref : ℕ → ℕ) (i j : ℕ) : ref j ≤ incRef ref i j := by
  by_cases hj : j = i
  · simp [hj, incRef]
  · simp [hj, incRef]

theorem incRef_self (ref : ℕ → ℕ) (i : ℕ) : incRef ref i i = ref i + 1 := update_self ..

/-- Dropping a reference again, with another one taken in between. -/
theorem update_incRef (ref : ℕ → ℕ) (i j : ℕ) :
    update (incRef (incRef ref i) j) i (incRef (incRef ref i) j i - 1) = incRef ref j := by
  funext l
  unfold incRef
  by_cases hl : l = i
  · subst hl
    by_cases hj : j = l <;> simp [hj, update_of_ne, Ne.symm]
  · by_cases hj : l = j
    · subst hj
      simp [hl]
    · simp [hl, hj]

theorem update_incRef_self (ref : ℕ → ℕ) (i : ℕ) : update (incRef ref i) i (incRef ref i i - 1) = ref := by
  rw [incRef_self, incRef, update_idem, Nat.add_sub_cancel, update_eq_self]

/-- One more reference fills at most one more entry of the cache. -/
theorem count_incRef (N : ℕ) (ref : ℕ → ℕ) (i : ℕ) : ((List.range N).filter fun j => 0 < incRef ref i j).length ≤
      ((List.range N).filter fun j => 0 < ref j).length + 1 := by
  have hcount : ((List.range N).filter fun j => 0 < incRef ref i j).length ≤
      ((List.range N).filter fun j => 0 < ref j).length + if i < N then 1 else 0 := by
    induction N with
    | zero => simp
    | succ N ih =>
      have hmono := le_incRef ref i N
      have hne : N ≠ i → incRef ref i N = ref N := fun h => update_of_ne h ..
      rw [range_succ, filter_append, filter_append, length_append, length_append]
      by_cases h : 0 < incRef ref i N <;> by_cases h' : 0 < ref N <;> simp [h, h'] <;> grind
  refine Nat.le_trans hcount ?_
  split <;> simp

theorem cached_incRef {P : Type} [DecidableEq P] (N : ℕ) (k : Kernel Files P) (valid : ℕ → Bool) (i : ℕ)
    (lock : ℕ → Option P) : (k.withInodes valid (incRef k.ref i) lock).cached N ≤ k.cached N + 1 :=
  count_incRef N k.ref i

namespace Path

open Sys

variable {P : Type} [DecidableEq P] {α : Type} {N : ℕ} {p : P} {k : Kernel Files P} {valid : ℕ → Bool} {ref : ℕ → ℕ}
  {lock : ℕ → Option P} {E : Halt → Kernel Files P → Prop} {i : ℕ}

/-- A program of process `p`, run alone on `N` inodes. -/
def alone (N : ℕ) (p : P) (x : Sys P α) : Code Halt (Kernel Files P) α :=
  Prog.alone (Kernel.exec N (Files.exec N) p .quiet) x

@[simp] theorem wp_pure {a : α} {Q : α → Kernel Files P → Prop} : Wp (alone N p (pure a)) Q E k ↔ Q a k := Iff.rfl

@[simp] theorem wp_bind {β : Type} {x : Sys P β} {f : β → Sys P α} {Q : α → Kernel Files P → Prop} :
    Wp (alone N p (x >>= f)) Q E k ↔
      Wp (alone N p x) (fun b k' => Wp (alone N p (f b)) Q E k') E k :=
  Prog.wp_alone_bind

theorem wp_step {a : Act P} {Q : a.Resp → Kernel Files P → Prop} :
    Wp (alone N p (step a)) Q E k ↔ Wp (Kernel.exec N (Files.exec N) p .quiet a) Q E k :=
  Prog.wp_alone_perform

theorem wp_fs {op : FsOp} {Q : op.Resp → Kernel Files P → Prop} : Wp (alone N p (fs op)) Q E k ↔
      Wp (Files.exec N op) (fun r t => Q r { k with store := t }) (fun e t => E e { k with store := t })
        k.store :=
  wp_alone_fs

theorem wp_cwd {Q : ℕ → Kernel Files P → Prop} (hQ : Q (k.proc p).cwd k) : Wp (alone N p (step .cwd)) Q E k :=
  wp_step.mpr hQ

variable {Q : Unit → Kernel Files P → Prop} {name : List UInt8}

theorem wp_idup (hQ : Q () { k with ref := incRef k.ref i }) :
    Wp (alone N p (step (.idup i))) Q E k :=
  wp_step.mpr hQ

theorem wp_ilock (hi : i ≠ 0) (href : 0 < ref i) (hlock : lock i = none) (htype : (k.store.node i).type ≠ 0)
    (hQ : Q () (k.withInodes (update valid i true) ref (update lock i (some p)))) :
    Wp (alone N p (ilock i)) Q E (k.withInodes valid ref lock) := by
  refine wp_alone_ilock hi href hlock ?_
  have hload : (Files.exec N (.load i)).run { k.store with valid } =
      .ok () { k.store with valid := update valid i true } := by
    show (if valid i then EStateM.Result.ok () _ else if (k.store.node i).type = 0 then _ else _) = _
    rw [if_neg htype]
    split
    · rename_i hv
      rw [← hv, update_eq_self]
    · rfl
  show Wp (Files.exec N (.load i)) _ _ { k.store with valid }
  unfold Wp
  rw [hload]
  exact hQ

theorem wp_iunlock {q : P} (hi : i ≠ 0) (href : 0 < ref i)
    (hlock : lock i = some q) (hQ : Q () (k.withInodes valid ref (update lock i none))) :
    Wp (alone N p (iunlock i)) Q E (k.withInodes valid ref lock) :=
  wp_alone_iunlock hi href hlock hQ

/-- `iput` frees nothing as long as the inode has a link or another reference. -/
theorem wp_iput (hlock : lock i = none) (hkeep : (k.store.node i).nlink = 0 → ref i ≠ 1)
    (hQ : Q () (k.withInodes valid (update ref i (ref i - 1)) lock)) :
    Wp (alone N p (iput i)) Q E (k.withInodes valid ref lock) :=
  wp_alone_iput hlock ⟨rfl, fun _ => ⟨rfl, hkeep⟩⟩ hQ

/-- What `iget` does to the `valid` bits. -/
def igetValid (valid : ℕ → Bool) (ref : ℕ → ℕ) (i : ℕ) : ℕ → Bool :=
  if 0 < ref i then valid else update valid i false

/-- `iget` panics only when the cache is full. -/
theorem wp_iget (hfull : NINODE ≤ (k.withInodes valid ref lock).cached N → ∀ k', E (.panic .igetNoInodes) k')
    (hQ : Q () (k.withInodes (igetValid valid ref i) (incRef ref i) lock)) :
    Wp (alone N p (step (.iget i))) Q E (k.withInodes valid ref lock) := by
  unfold igetValid at hQ
  refine wp_alone_iget (fun hroom => hfull hroom _) (fun (hpos : 0 < ref i) => ?_) fun (hzero : ref i = 0) => ?_
  · rw [if_pos hpos] at hQ
    exact hQ
  · rw [if_neg (by omega)] at hQ
    exact hQ

variable {d : ℕ}

/-- `dirlookup` in a directory whose last entry is complete. -/
theorem wp_dirlookup {Q : Option (ℕ × ℕ) → Kernel Files P → Prop}
    (htype : (k.store.node d).type = T_DIR) (hsize : (k.store.node d).data.length % DIRENT = 0)
    (hfull : NINODE ≤ (k.withInodes valid ref lock).cached N → ∀ k', E (.panic .igetNoInodes) k')
    (hnone : k.store.lookup d name = none → Q none (k.withInodes valid ref lock))
    (hsome : ∀ off i, k.store.lookup d name = some i →
      Q (some (off, i)) (k.withInodes (igetValid valid ref i) (incRef ref i) lock)) :
    Wp (alone N p (dirlookup d name)) Q E (k.withInodes valid ref lock) := by
  rw [dirlookup, wp_bind, wp_fs]
  unfold Files.lookup at hnone hsome
  rw [if_pos htype] at hnone hsome
  have hrun : (Files.exec N (.dirlookup d name)).run (k.withInodes valid ref lock).store =
      .ok ((firstEntry (k.store.node d).data 0 (matchesName name)).map fun j =>
        (DIRENT * j, (entry (k.store.node d).data j).inum)) (k.withInodes valid ref lock).store := by
    rw [Files.run_dirlookup, show (k.withInodes valid ref lock).store.node = k.store.node from rfl,
      if_neg (not_not.mpr htype)]
    unfold scanEntries
    cases firstEntry (k.store.node d).data 0 (matchesName name) with
    | none => simp [hsize]
    | some j => rfl
  unfold Wp
  rw [hrun]
  cases hfirst : firstEntry (k.store.node d).data 0 (matchesName name) with
  | none => exact hnone (by rw [hfirst]; rfl)
  | some j =>
    show Wp (alone N p (step (.iget (entry (k.store.node d).data j).inum) >>= fun _ => pure _)) Q E _
    rw [wp_bind]
    exact wp_iget hfull (hsome _ _ (by rw [hfirst]; rfl))

theorem wp_iunlockput {q : P} (hi : i ≠ 0) (href : 0 < ref i)
    (hlock : lock i = none) (hkeep : (k.store.node i).nlink = 0 → ref i ≠ 1)
    (hQ : Q () (k.withInodes valid (update ref i (ref i - 1)) lock)) :
    Wp (alone N p (iunlockput i)) Q E (k.withInodes valid ref (update lock i (some q))) := by
  rw [iunlockput, wp_bind]
  refine wp_iunlock hi href (update_self ..) ?_
  rw [update_idem, ← hlock, update_eq_self]
  exact wp_iput hlock hkeep hQ

/-- A directory tree: directories consist of complete entries, which lead to inodes in use; the root directory and
the current directory exist; and nobody holds a lock. -/
structure Tree (k : Kernel Files P) (p : P) : Prop where
  size : ∀ d, (k.store.node d).type = T_DIR → (k.store.node d).data.length % DIRENT = 0
  entries : ∀ d e, (k.store.node d).type = T_DIR → e < entries (k.store.node d).data →
    (entry (k.store.node d).data e).inum ≠ 0 →
    (k.store.node (entry (k.store.node d).data e).inum).type ≠ 0 ∧
      (k.store.node (entry (k.store.node d).data e).inum).nlink ≠ 0
  root : (k.store.node ROOTINO).type ≠ 0 ∧ (k.store.node ROOTINO).nlink ≠ 0
  /-- The current directory may have been unlinked. -/
  cwd : (k.proc p).cwd ≠ 0 ∧ (k.store.node (k.proc p).cwd).type ≠ 0 ∧ 0 < k.ref (k.proc p).cwd
  lock : ∀ i, k.lock i = none

/-- An inode that a further reference to it does not free when it is dropped. -/
structure Stays (k : Kernel Files P) (i : ℕ) : Prop where
  ne_zero : i ≠ 0
  type : (k.store.node i).type ≠ 0
  keep : (k.store.node i).nlink = 0 → 0 < k.ref i

omit [DecidableEq P] in
theorem Tree.stays (h : Tree k p) (hi : k.store.lookup d name = some i) : Stays k i := by
  unfold Files.lookup at hi
  split at hi
  · rename_i htype
    obtain ⟨e, he, rfl⟩ := Option.map_eq_some_iff.mp hi
    have hmem := mem_range'_1.mp (mem_of_find?_eq_some he)
    have htest : matchesName name (entry (k.store.node d).data e) = true :=
      find?_some (p := fun e => matchesName name (entry (k.store.node d).data e)) he
    have hne : (entry (k.store.node d).data e).inum ≠ 0 := by
      simp only [matchesName, decide_eq_true_eq] at htest
      exact htest.1
    obtain ⟨hused, hlink⟩ := h.entries d e htype (by omega) hne
    exact ⟨hne, hused, fun hz => absurd hz hlink⟩
  · nomatch hi

/-- The reference counts once an inode has been returned. -/
def refsAfter (ref : ℕ → ℕ) : Option (ℕ × List UInt8) → ℕ → ℕ
  | none => ref
  | some (i, _) => incRef ref i

/-- Only the reference to the returned inode is new; inodes may have been read from disk. -/
def OnlyRef (k k' : Kernel Files P) (r : Option (ℕ × List UInt8)) : Prop :=
  ∃ valid, k' = k.withInodes valid (refsAfter k.ref r) k.lock

/-- The only panic: the inode cache is full. -/
def CacheFull (N : ℕ) (k : Kernel Files P) (e : Halt) : Prop := e = .panic .igetNoInodes ∧ NINODE ≤ k.cached N + 1

/-- What `namex` finds. -/
def found (t : Files) (nameiparent : Bool) (start : ℕ) (names : List (List UInt8)) : Option (ℕ × List UInt8) :=
  if nameiparent then t.resolveParent start names else (t.resolve start names).map fun i => (i, [])

theorem found_cons {t : Files} {nameiparent : Bool} {start : ℕ} {names : List (List UInt8)}
    (h : ¬ (nameiparent = true ∧ names = [])) :
    found t nameiparent start (name :: names) = (t.lookup start name).bind fun i => found t nameiparent i names := by
  unfold found
  split
  · rename_i hparent
    exact Files.resolveParent_cons name fun hnil => h ⟨hparent, hnil⟩
  · rw [Files.resolve_cons]
    cases t.lookup start name <;> rfl

/-- The loop of `namex`: the induction is on the names to come. -/
theorem wp_namexLoop (h : Tree k p) (nameiparent : Bool) (names : List (List UInt8)) (hi : Stays k i) :
    Wp (alone N p (namexLoop nameiparent i names))
      (fun r k' => r = found k.store nameiparent i names ∧ OnlyRef k k' r) (fun e _ => CacheFull N k e)
      (k.withInodes valid (incRef k.ref i) k.lock) := by
  have hkeep : ∀ {i j}, Stays k i → (k.store.node i).nlink = 0 → incRef (incRef k.ref i) j i ≠ 1 := by
    intro i j hi hz
    have hpos := hi.keep hz
    have hle := le_incRef (incRef k.ref i) j i
    rw [incRef_self] at hle
    omega
  have hkeep' : ∀ {i}, Stays k i → (k.store.node i).nlink = 0 → incRef k.ref i i ≠ 1 := by
    intro i hi hz
    have hpos := hi.keep hz
    rw [incRef_self]
    omega
  induction names generalizing i valid with
  | nil =>
    unfold namexLoop found
    cases nameiparent with
    | true =>
      refine wp_bind.mpr (wp_iput (h.lock i) (hkeep' hi) ⟨rfl, valid, ?_⟩)
      rw [update_incRef_self]
      rfl
    | false => exact ⟨rfl, valid, rfl⟩
  | cons name names ih =>
    unfold namexLoop
    rw [wp_bind]
    refine wp_ilock hi.ne_zero (by rw [incRef_self]; omega) (h.lock i) hi.type ?_
    rw [wp_bind, wp_fs]
    show Wp (alone N p (if (k.store.node i).type ≠ T_DIR then _ else _)) _ _
      (k.withInodes (update valid i true) (incRef k.ref i) (update k.lock i (some p)))
    -- giving up at this inode
    have hgiveUp : ∀ valid, found k.store nameiparent i (name :: names) = none →
        Wp (alone N p (iunlockput i >>= fun _ => pure none))
          (fun r k' => r = found k.store nameiparent i (name :: names) ∧ OnlyRef k k' r) (fun e _ => CacheFull N k e)
          (k.withInodes valid (incRef k.ref i) (update k.lock i (some p))) := by
      intro valid hnone
      rw [wp_bind]
      refine wp_iunlockput hi.ne_zero (by rw [incRef_self]; omega) (h.lock i) (hkeep' hi) ⟨hnone.symm, valid, ?_⟩
      rw [update_incRef_self]
      rfl
    split
    · rename_i htype
      have hlookup : k.store.lookup i name = none := if_neg htype
      refine hgiveUp _ ?_
      by_cases hlast : nameiparent = true ∧ names = []
      · obtain ⟨rfl, rfl⟩ := hlast
        exact if_neg htype
      · rw [found_cons hlast, hlookup]
        rfl
    rename_i htype
    rw [not_not] at htype
    split
    · rename_i hlast
      obtain ⟨rfl, rfl⟩ := hlast
      rw [wp_bind]
      refine wp_iunlock hi.ne_zero (by rw [incRef_self]; omega) (update_self ..)
        ⟨?_, update valid i true, ?_⟩
      · exact (if_pos htype).symm
      · rw [update_idem, ← h.lock i, update_eq_self]
        rfl
    rename_i hlast
    rw [wp_bind]
    refine wp_dirlookup htype (h.size i htype) (fun hfull _ => ⟨rfl, Nat.le_trans hfull (cached_incRef ..)⟩)
      (fun hnone => ?_) fun off next hnext => ?_
    · refine hgiveUp _ ?_
      rw [found_cons hlast, hnone]
      rfl
    · show Wp (alone N p (iunlockput i >>= fun _ => namexLoop nameiparent next names)) _ _ _
      rw [wp_bind]
      refine wp_iunlockput hi.ne_zero ?_ (h.lock i) (hkeep hi) ?_
      · have hle := le_incRef (incRef k.ref i) next i
        rw [incRef_self] at hle
        omega
      rw [update_incRef, found_cons hlast, hnext]
      exact ih (h.stays hnext)

/-- The inode at which a path starts. -/
def startOf (k : Kernel Files P) (p : P) (path : List UInt8) : ℕ :=
  if path.head? = some slash then ROOTINO else (k.proc p).cwd

theorem wp_namex (h : Tree k p) (path : List UInt8) (nameiparent : Bool) : Wp (alone N p (namex path nameiparent))
      (fun r k' => r = found k.store nameiparent (startOf k p path) (elems path) ∧ OnlyRef k k' r)
      (fun e _ => CacheFull N k e) k := by
  rw [namex, wp_bind, namexStart, startOf]
  split
  · rw [wp_bind]
    show Wp _ _ _ (k.withInodes k.store.valid k.ref k.lock)
    refine wp_iget (fun hfull _ => ⟨rfl, Nat.le_succ_of_le hfull⟩) ?_
    exact wp_namexLoop h nameiparent _ ⟨by decide, h.root.1, fun hz => absurd hz h.root.2⟩
  · rw [wp_bind]
    refine wp_cwd ?_
    rw [wp_bind]
    refine wp_idup ?_
    show Wp _ _ _ (k.withInodes k.store.valid (incRef k.ref (k.proc p).cwd) k.lock)
    exact wp_namexLoop h nameiparent _ ⟨h.cwd.1, h.cwd.2.1, fun _ => h.cwd.2.2⟩

end Path

variable {names : List (List UInt8)}

/-- Resolution fails exactly where a node on the way is no directory, or a name is not there. -/
theorem Files.resolve_eq_none_iff {t : Files} {start : ℕ} :
    t.resolve start names = none ↔ ∃ before name after d, names = before ++ name :: after ∧
      t.resolve start before = some d ∧
      ((t.node d).type ≠ T_DIR ∨ firstEntry (t.node d).data 0 (matchesName name) = none) := by
  have hlookup : ∀ d name, t.lookup d name = none ↔
      ((t.node d).type ≠ T_DIR ∨ firstEntry (t.node d).data 0 (matchesName name) = none) := by
    intro d name
    unfold lookup
    split
    · rename_i htype
      simp [htype]
    · rename_i htype
      simp [htype]
  induction names generalizing start with
  | nil =>
    constructor
    · exact fun h => absurd h nofun
    · rintro ⟨before, name, after, d, h, -⟩
      exact absurd h (by simp)
  | cons name names ih =>
    rw [resolve_cons]
    constructor
    · intro h
      cases hl : t.lookup start name with
      | none => exact ⟨[], name, names, start, rfl, rfl, (hlookup start name).mp hl⟩
      | some i =>
        rw [hl] at h
        obtain ⟨before, name', after, d, rfl, hd, hfail⟩ := ih.mp h
        exact ⟨name :: before, name', after, d, rfl, by rw [resolve_cons, hl]; exact hd, hfail⟩
    · rintro ⟨before, name', after, d, hsplit, hd, hfail⟩
      cases before with
      | nil =>
        obtain ⟨rfl, rfl⟩ := List.cons.inj hsplit
        obtain rfl := Option.some.inj hd
        rw [(hlookup _ _).mpr hfail]
        rfl
      | cons b before =>
        obtain ⟨rfl, rfl⟩ := List.cons.inj hsplit
        rw [resolve_cons] at hd
        obtain ⟨i, hi, hd⟩ := Option.bind_eq_some_iff.mp hd
        rw [hi]
        exact ih.mpr ⟨before, name', after, d, rfl, hd, hfail⟩

theorem Files.resolveParent_eq_none_iff {t : Files} {start : ℕ} :
    t.resolveParent start names = none ↔ names = [] ∨ t.resolve start names.dropLast = none ∨
      ∃ d, t.resolve start names.dropLast = some d ∧ (t.node d).type ≠ T_DIR := by
  rcases eq_nil_or_concat names with rfl | ⟨init, last, rfl⟩
  · simp [resolveParent]
  · rw [concat_eq_append, resolveParent, getLast?_concat, dropLast_concat]
    cases t.resolve start init with
    | none => simp
    | some d => simp

namespace Path

open Sys

variable {P : Type} [DecidableEq P]

/-- Path resolution on a directory tree, by a process that runs alone. -/
structure Resolves (N : ℕ) (k : Kernel Files P) (p : P) (path : List UInt8) : Prop where
  /-- `skipelem` makes progress, and its calls find the components in order. -/
  skipelem_lt : ∀ name rest, skipelem path = some (name, rest) → rest.length < path.length
  elems_eq : elems path = match skipelem path with
    | none => []
    | some (name, rest) => name :: elems rest
  components : elems path = (components path).map (·.take DIRSIZ)
  namei : Wp (alone N p (namei path))
    (fun r k' => r = (k.store.resolve (startOf k p path) (elems path)).map (fun i => (i, [])) ∧ OnlyRef k k' r)
    (fun e _ => CacheFull N k e) k
  namei_fails : k.store.resolve (startOf k p path) (elems path) = none ↔
    ∃ before name after d, elems path = before ++ name :: after ∧
      k.store.resolve (startOf k p path) before = some d ∧
      ((k.store.node d).type ≠ T_DIR ∨ firstEntry (k.store.node d).data 0 (matchesName name) = none)
  nameiparent : Wp (alone N p (nameiparent path))
    (fun r k' => r = k.store.resolveParent (startOf k p path) (elems path) ∧ OnlyRef k k' r)
    (fun e _ => CacheFull N k e) k
  nameiparent_fails : k.store.resolveParent (startOf k p path) (elems path) = none ↔
    elems path = [] ∨ k.store.resolve (startOf k p path) (elems path).dropLast = none ∨
      ∃ d, k.store.resolve (startOf k p path) (elems path).dropLast = some d ∧ (k.store.node d).type ≠ T_DIR
  /-- The parent is the node before the last component, in which that is looked up. -/
  parent : ∀ d name, k.store.resolveParent (startOf k p path) (elems path) = some (d, name) →
    (elems path).getLast? = some name ∧ k.store.resolve (startOf k p path) (elems path).dropLast = some d ∧
      k.store.resolve (startOf k p path) (elems path) = k.store.lookup d name

theorem path_resolution (N : ℕ) (k : Kernel Files P) (p : P) (path : List UInt8) (h : Tree k p) :
    Resolves N k p path where
  skipelem_lt _ _ hskip := Xv6.skipelem_lt hskip
  elems_eq := Xv6.elems_eq path
  components := elems_eq_components path
  namei := wp_namex h path false
  namei_fails := Files.resolve_eq_none_iff
  nameiparent := wp_namex h path true
  nameiparent_fails := Files.resolveParent_eq_none_iff
  parent d name hparent := by
    have hresolve := Files.resolve_of_resolveParent hparent
    unfold Files.resolveParent at hparent
    split at hparent
    · nomatch hparent
    · rename_i last hlast
      obtain ⟨d', hd', hif⟩ := Option.bind_eq_some_iff.mp hparent
      split at hif
      · obtain ⟨rfl, rfl⟩ := Prod.mk.inj (Option.some.inj hif)
        exact ⟨hlast, hd', hresolve⟩
      · nomatch hif

/-- The root directory with one file `a`, and one process in it. -/
def oneFile : Kernel Files Unit where
  store :=
    { node i :=
        if i = 1 then ⟨T_DIR, 0, 0, 1, Dirent.bytes 1 dot ++ Dirent.bytes 1 dotdot ++ Dirent.bytes 2 [97]⟩
        else ⟨T_FILE, 0, 0, 1, []⟩
      valid _ := false }
  ref i := if i = 1 then 1 else 0
  lock _ := none
  file _ := ⟨0, .none, false, false, 0⟩
  pipe _ := none
  proc _ := ⟨.running, 1, fun _ => none, 0, 0⟩
  initproc := ()

theorem path_resolution_file : Tree oneFile () ∧
    Wp (alone 8 () (namei [47, 47, 97])) (fun r k' => r = some (2, []) ∧ OnlyRef oneFile k' r)
      (fun e _ => CacheFull 8 oneFile e) oneFile ∧
    Wp (alone 8 () (nameiparent [97, 47])) (fun r k' => r = some (1, [97]) ∧ OnlyRef oneFile k' r)
      (fun e _ => CacheFull 8 oneFile e) oneFile := by
  have htree : Tree oneFile () := by
    refine ⟨fun d hd => ?_, fun d e hd he _ => ?_, by decide, by decide, fun _ => rfl⟩
    · by_cases hd1 : d = 1
      · subst hd1
        decide
      · simp [oneFile, hd1] at hd ⊢
    · have hany : ∀ i, (oneFile.store.node i).type ≠ 0 ∧ (oneFile.store.node i).nlink ≠ 0 := by
        intro i
        by_cases hi : i = 1 <;> simp +decide [oneFile, hi]
      exact hany _
  refine ⟨htree, ?_, ?_⟩
  · have hnamei := (path_resolution 8 oneFile () [47, 47, 97] htree).namei
    exact hnamei
  · exact (path_resolution 8 oneFile () [97, 47] htree).nameiparent

end Path

end Xv6
