import Mathlib.Algebra.Order.BigOperators.Group.Finset
import Xv6.Kernel.Refs
import Xv6.Kernel.Tx

/-!
# The reference counts of files, inodes and pipes

What is counted where: a `struct file` by the descriptors of all processes and by the variables of processes in a
call, an inode by open files, current directories and variables, the ends of a pipe by open files and by processes
that have yet to give them to a file or to close them. `Counted` says that the counts of the kernel are these numbers.
-/

namespace Xv6

open Function

namespace Sys

variable {S P : Type}

/-- The local state of a process, for all three protocols. -/
abbrev Local (P : Type) : Type := (TxState × FileState P) × Refs

/-- The descriptor stands for a reference: it is not one that `exit` has taken out or that `dup` has not counted. -/
def FileState.Counts (l : FileState P) (fd : Fin NOFILE) : Prop :=
  l.takenFd ≠ some fd ∧ l.extra.map Prod.fst ≠ some fd

instance (l : FileState P) (fd : Fin NOFILE) : Decidable (l.Counts fd) := inferInstanceAs (Decidable (_ ∧ _))

/-- Whether a descriptor is a reference to the file. -/
def fdRef (x : Proc) (l : FileState P) (f : Fin NFILE) (fd : Fin NOFILE) : ℕ :=
  if x.ofile fd = some f ∧ l.Counts fd then 1 else 0

/-- The references of a process to a file. -/
def fileRefs (x : Proc) (l : FileState P) (f : Fin NFILE) : ℕ := (∑ fd, fdRef x l f fd) + l.frefs.count f

/-- The references of a process to an inode, besides its open files. -/
def inodeRefs (x : Proc) (l : Refs) (i : ℕ) : ℕ :=
  (if x.cwd = i ∧ l.taken = false then 1 else 0) + l.refs.count i

/-- What a process has to do with an end of a pipe, besides its open files. -/
def pipeRefs (l : FileState P) (r : ℕ) (w : Bool) : ℕ :=
  (if l.closing = some (r, w) then 1 else 0) + (if l.newPipe = some r then 1 else 0)

/-- Whether the file is open, for the inode. -/
def opens (ff : File) (i : ℕ) : ℕ := if 0 < ff.ref ∧ ff.type = .inode i then 1 else 0

/-- Whether the file is open, for the end of the pipe. -/
def ends (ff : File) (r : ℕ) (w : Bool) : ℕ := if 0 < ff.ref ∧ ff.type = .pipe r ∧ ff.writable = w then 1 else 0

/-- Whether the end of a pipe is open. -/
def isOpen (e : Option PipeEnds) (w : Bool) : Bool :=
  match e with
  | none => false
  | some e => if w then e.writeopen else e.readopen

/-- Whether the end of the pipe in this page is open. -/
def openEnd (k : Kernel S P) (r : ℕ) (w : Bool) : Bool := isOpen (k.pipe r) w

/-- What a process knows of itself. -/
structure Own (x : Proc) (l : Local P) : Prop where
  live : l.1.2.live = true → x.state = .running
  dead : l.1.2.live = false → l.1.2.slot = none ∧ l.1.2.takenFd = none ∧ l.1.2.extra = none ∧ l.1.2.closed = ∅ ∧
    l.1.2.child = none ∧ l.2.taken = false
  slot : ∀ fd f, l.1.2.slot = some (fd, f) → x.ofile fd = some f
  taken : ∀ fd, l.1.2.takenFd = some fd → l.1.2.slot = none ∧ l.1.2.extra = none
  extra : ∀ fd f, l.1.2.extra = some (fd, f) → x.ofile fd = some f ∧ ∃ fd', l.1.2.slot = some (fd', f) ∧ fd' ≠ fd
  closed : ∀ fd ∈ l.1.2.closed, x.ofile fd = none
  cwd : l.1.2.live = true → ∀ c, l.2.cwd = some c → x.cwd = c
  fresh : ∀ f ∈ l.1.2.fresh, 0 < fileRefs x l.1.2 f

/-- A `struct file`: one that is not in use has no type, and a pipe is read or written. -/
structure Shape (ff : File) : Prop where
  none : ff.ref = 0 → ff.type = .none
  side : ∀ r, ff.type = .pipe r → ff.readable = !ff.writable
  off : ff.off < 2 ^ 32

/-- A process slot that nobody uses has no files and no directory. -/
def Gone (x : Proc) : Prop :=
  x.state = .unused ∨ x.state = .zombie → (∀ fd, x.ofile fd = none) ∧ x.cwd = 0

/-- A process that is being made. -/
def Making (x : Proc) (copied : Finset (Fin NOFILE)) (given : Bool) : Prop :=
  x.state = .embryo ∧ (∀ fd, fd ∉ copied → x.ofile fd = none) ∧ (given = false → x.cwd = 0)

/-- The counts of the kernel are exact. -/
structure Counted [Fintype P] (k : Kernel S P) (ls : P → Local P) : Prop where
  own : ∀ p, Own (k.proc p) (ls p)
  file : ∀ f, (k.file f).ref = ∑ p, fileRefs (k.proc p) (ls p).1.2 f
  inode : ∀ i, i ≠ 0 → k.ref i = (∑ f, opens (k.file f) i) + ∑ p, inodeRefs (k.proc p) (ls p).2 i
  pipe : ∀ r w, (openEnd k r w).toNat = (∑ f, ends (k.file f) r w) + ∑ p, pipeRefs (ls p).1.2 r w
  shape : ∀ f, Shape (k.file f)
  used : ∀ r e, k.pipe r = some e → e.readopen = true ∨ e.writeopen = true
  fresh : ∀ p f, f ∈ (ls p).1.2.fresh → (k.file f).type = .none
  disjoint : ∀ p q f, f ∈ (ls p).1.2.fresh → f ∈ (ls q).1.2.fresh → p = q
  child : ∀ p q copied given, (ls p).1.2.child = some (q, copied, given) → Making (k.proc q) copied given
  single : ∀ p p' q c g c' g', (ls p).1.2.child = some (q, c, g) → (ls p').1.2.child = some (q, c', g') → p = p'
  gone : ∀ q, Gone (k.proc q)

theorem isOpen_close (e : PipeEnds) (w v : Bool) : isOpen (e.close w) v = if v = w then false else isOpen (some e) v := by
  obtain ⟨r, wr⟩ := e
  revert r wr w v
  decide

theorem used_close (e : PipeEnds) (w : Bool) (e' : PipeEnds) (h : e.close w = some e') :
    e'.readopen = true ∨ e'.writeopen = true := by
  unfold PipeEnds.close at h
  simp only at h
  split_ifs at h with hw hboth hboth
  all_goals
    obtain rfl := Option.some.inj h
    by_contra hnone
    exact hboth (by simpa using hnone)

/-! ## The references of one process -/

section

variable {x x' : Proc} {l l' : FileState P} {f g : Fin NFILE} {fd : Fin NOFILE}

/-- Changing one descriptor, or what is known of it. -/
theorem fileRefs_change (hofile : ∀ fd', fd' ≠ fd → x'.ofile fd' = x.ofile fd')
    (hcounts : ∀ fd', fd' ≠ fd → (l'.Counts fd' ↔ l.Counts fd')) :
    fileRefs x' l' g + fdRef x l g fd + l.frefs.count g = fileRefs x l g + fdRef x' l' g fd + l'.frefs.count g := by
  have hsum : (∑ fd', fdRef x' l' g fd') + fdRef x l g fd = (∑ fd', fdRef x l g fd') + fdRef x' l' g fd := by
    refine sum_add_of_ne fun fd' hne => ?_
    simp only [fdRef, hofile fd' hne, hcounts fd' hne]
  unfold fileRefs
  omega

/-- The same descriptors, and other references. -/
theorem fileRefs_same (hofile : x'.ofile = x.ofile) (htaken : l'.takenFd = l.takenFd) (hextra : l'.extra = l.extra) :
    fileRefs x' l' g + l.frefs.count g = fileRefs x l g + l'.frefs.count g := by
  have hsum : ∀ fd, fdRef x' l' g fd = fdRef x l g fd := by
    intro fd
    have hcounts : l'.Counts fd ↔ l.Counts fd := by simp only [FileState.Counts, htaken, hextra]
    simp only [fdRef, hofile, hcounts]
  simp only [fileRefs, hsum]
  omega

theorem fileRefs_congr (hofile : x'.ofile = x.ofile) (htaken : l'.takenFd = l.takenFd) (hextra : l'.extra = l.extra)
    (hfrefs : l'.frefs = l.frefs) : fileRefs x' l' g = fileRefs x l g := by
  have h := fileRefs_same (g := g) hofile htaken hextra
  rw [hfrefs] at h
  omega

/-- An open descriptor that counts is a reference. -/
theorem fileRefs_pos (hofile : x.ofile fd = some f) (hcounts : l.Counts fd) : 0 < fileRefs x l f := by
  have hle : fdRef x l f fd ≤ ∑ fd', fdRef x l f fd' :=
    Finset.single_le_sum (fun _ _ => Nat.zero_le _) (Finset.mem_univ fd)
  have hone : fdRef x l f fd = 1 := if_pos ⟨hofile, hcounts⟩
  unfold fileRefs
  omega

theorem fileRefs_pos_of_mem (h : f ∈ l.frefs) : 0 < fileRefs x l f := by
  have hpos := Multiset.count_pos.mpr h
  unfold fileRefs
  omega

/-- The references to files after one has been dropped. -/
theorem fileRefs_drop (hf : f ∈ l.frefs) (htaken : l'.takenFd = l.takenFd) (hextra : l'.extra = l.extra)
    (hfrefs : l'.frefs = l.frefs.erase f) :
    fileRefs x l' f + 1 = fileRefs x l f ∧ ∀ g, g ≠ f → fileRefs x l' g = fileRefs x l g := by
  have hsame : ∀ g, fileRefs x l' g + l.frefs.count g = fileRefs x l g + l'.frefs.count g :=
    fun g => fileRefs_same rfl htaken hextra
  have hpos := Multiset.count_pos.mpr hf
  constructor
  · have := hsame f
    rw [hfrefs, Multiset.count_erase_self] at this
    omega
  · intro g hg
    have := hsame g
    rw [hfrefs, Multiset.count_erase_of_ne hg] at this
    omega

variable {R : Refs} {ff : File}

/-- The same current directory, and other references. -/
theorem inodeRefs_same {R' : Refs} (hcwd : x'.cwd = x.cwd) (ht : R'.taken = R.taken) (i : ℕ) :
    inodeRefs x' R' i + R.refs.count i = inodeRefs x R i + R'.refs.count i := by
  simp only [inodeRefs, hcwd, ht]
  omega

theorem inodeRefs_drop {i : ℕ} (hi : i ∈ R.refs) (j : ℕ) :
    inodeRefs x (R.drop i) j + (if j = i then 1 else 0) = inodeRefs x R j := by
  have hcount := Multiset.count_pos.mpr hi
  have hsame : inodeRefs x (R.drop i) j + R.refs.count j = inodeRefs x R j + (R.refs.erase i).count j := by
    apply inodeRefs_same <;> rfl
  by_cases hji : j = i
  · subst hji
    rw [Multiset.count_erase_self] at hsame
    rw [if_pos rfl]
    omega
  · rw [Multiset.count_erase_of_ne hji] at hsame
    rw [if_neg hji]
    omega

theorem opens_eq_zero (h : ∀ i, ff.type ≠ .inode i) (i : ℕ) : opens ff i = 0 := if_neg fun hc => h i hc.2

theorem opens_inode {j : ℕ} (hpos : 0 < ff.ref) (ht : ff.type = .inode j) (i : ℕ) :
    opens ff i = if i = j then 1 else 0 := by simp [opens, hpos, ht, eq_comm]

theorem ends_eq_zero (h : ∀ r, ff.type ≠ .pipe r) (r : ℕ) (w : Bool) : ends ff r w = 0 :=
  if_neg fun hc => h r hc.2.1

theorem ends_pipe {q : ℕ} (hpos : 0 < ff.ref) (ht : ff.type = .pipe q) (r : ℕ) (w : Bool) :
    ends ff r w = if (q, ff.writable) = (r, w) then 1 else 0 := by simp [ends, hpos, ht]

theorem FileState.counts_of_none (htaken : l.takenFd = none) (hextra : l.extra = none) (fd : Fin NOFILE) :
    l.Counts fd := by simp [FileState.Counts, htaken, hextra]

end

/-- The slot of the process is the same as far as the counts are concerned. -/
structure Alike (x' x : Proc) : Prop where
  state : x'.state = x.state
  ofile : x'.ofile = x.ofile
  cwd : x'.cwd = x.cwd

/-- The local state is the same, but for the references. -/
structure LocalAlike (l' l : Local P) : Prop where
  file : l'.1.2 = l.1.2
  taken : l'.2.taken = l.2.taken
  cwd : l'.2.cwd = l.2.cwd

theorem Alike.refl (x : Proc) : Alike x x := ⟨rfl, rfl, rfl⟩

theorem Own.alike {x x' : Proc} {l l' : Local P} (h : Own x l) (hx : Alike x' x) (hl : LocalAlike l' l) : Own x' l' := by
  obtain ⟨hf, ht, hc⟩ := hl
  constructor
  · rw [hf, hx.state]
    exact h.live
  · rw [hf, ht]
    exact h.dead
  · rw [hf, hx.ofile]
    exact h.slot
  · rw [hf]
    exact h.taken
  · rw [hf, hx.ofile]
    exact h.extra
  · rw [hf, hx.ofile]
    exact h.closed
  · rw [hf, hc, hx.cwd]
    exact h.cwd
  · rw [hf]
    intro f hmem
    rw [fileRefs_congr hx.ofile rfl rfl rfl]
    exact h.fresh f hmem

theorem Gone.alike {x x' : Proc} (h : Gone x) (hx : Alike x' x) : Gone x' := by
  unfold Gone
  rw [hx.state, hx.ofile, hx.cwd]
  exact h

/-- The files are the same, but for offsets. -/
def FilesAlike (k' k : Kernel S P) : Prop := ∀ f, (k'.file f).ref = (k.file f).ref ∧ (k'.file f).type = (k.file f).type ∧
  (k'.file f).readable = (k.file f).readable ∧ (k'.file f).writable = (k.file f).writable ∧ (k'.file f).off < 2 ^ 32

section

variable {k k' : Kernel S P} (hf : FilesAlike k' k)

include hf

theorem FilesAlike.opens (f : Fin NFILE) (i : ℕ) : opens (k'.file f) i = opens (k.file f) i := by
  simp only [Sys.opens, (hf f).1, (hf f).2.1]

theorem FilesAlike.ends (f : Fin NFILE) (r : ℕ) (w : Bool) : ends (k'.file f) r w = ends (k.file f) r w := by
  simp only [Sys.ends, (hf f).1, (hf f).2.1, (hf f).2.2.2.1]

theorem FilesAlike.shape (h : ∀ f, Shape (k.file f)) (f : Fin NFILE) : Shape (k'.file f) := by
  obtain ⟨href, htype, hr, hw, hoff⟩ := hf f
  refine ⟨fun hz => ?_, fun r ht => ?_, hoff⟩
  · rw [htype]
    exact (h f).none (href ▸ hz)
  · rw [hr, hw]
    exact (h f).side r (htype ▸ ht)

end

variable [Fintype P] {k k' : Kernel S P} {ls : P → Local P} {p : P} {x' : Proc} {l' : Local P}

theorem Counted.ref_pos (h : Counted k ls) {f : Fin NFILE} (hf : 0 < fileRefs (k.proc p) (ls p).1.2 f) :
    0 < (k.file f).ref := by
  rw [h.file]
  exact hf.trans_le (Finset.single_le_sum (f := fun p => fileRefs (k.proc p) (ls p).1.2 f) (fun _ _ => Nat.zero_le _)
    (Finset.mem_univ p))

theorem Counted.no_refs (h : Counted k ls) {f : Fin NFILE} (hf : (k.file f).ref = 0) (p : P) :
    fileRefs (k.proc p) (ls p).1.2 f = 0 := by
  by_contra hne
  have := h.ref_pos (Nat.pos_of_ne_zero hne)
  omega

theorem Counted.filesAlike (h : Counted k ls) (hf : k'.file = k.file) : FilesAlike k' k :=
  fun f => ⟨by rw [hf], by rw [hf], by rw [hf], by rw [hf], by rw [hf]; exact (h.shape f).off⟩

variable [DecidableEq P]

section

variable (h : Counted k ls)

include h

/-- **The rule for a step.** The process `p` changes its slot and its local state, and the counts of the kernel change
by as much. -/
theorem Counted.step (hproc : k'.proc = update k.proc p x') (hown : Own x' l')
    (hembryo : (k.proc p).state = .embryo → x'.state = .embryo ∧ x'.ofile = (k.proc p).ofile ∧ x'.cwd = (k.proc p).cwd)
    (hgone : Gone x') (hchild : l'.1.2.child = (ls p).1.2.child)
    (hfile : ∀ f, (k'.file f).ref + fileRefs (k.proc p) (ls p).1.2 f = (k.file f).ref + fileRefs x' l'.1.2 f)
    (hinode : ∀ i, i ≠ 0 → k'.ref i + (∑ f, opens (k.file f) i) + inodeRefs (k.proc p) (ls p).2 i =
      k.ref i + (∑ f, opens (k'.file f) i) + inodeRefs x' l'.2 i)
    (hpipe : ∀ r w, (openEnd k' r w).toNat + (∑ f, ends (k.file f) r w) + pipeRefs (ls p).1.2 r w =
      (openEnd k r w).toNat + (∑ f, ends (k'.file f) r w) + pipeRefs l'.1.2 r w)
    (hshape : ∀ f, Shape (k'.file f)) (hused : ∀ r e, k'.pipe r = some e → e.readopen = true ∨ e.writeopen = true)
    (hfresh : ∀ q f, f ∈ (update ls p l' q).1.2.fresh → (k'.file f).type = .none)
    (hdisjoint : ∀ f, f ∈ l'.1.2.fresh → f ∉ (ls p).1.2.fresh → ∀ q, f ∉ (ls q).1.2.fresh) :
    Counted k' (update ls p l') := by
  -- what does not change at the other processes
  have hother : ∀ q, q ≠ p → k'.proc q = k.proc q ∧ update ls p l' q = ls q := by
    intro q hq
    rw [hproc]
    exact ⟨update_of_ne hq .., update_of_ne hq ..⟩
  have hself : k'.proc p = x' ∧ update ls p l' p = l' := by
    rw [hproc]
    exact ⟨update_self .., update_self ..⟩
  have hsum : ∀ F : Proc → Local P → ℕ, (∑ q, F (k'.proc q) (update ls p l' q)) + F (k.proc p) (ls p) =
      (∑ q, F (k.proc q) (ls q)) + F x' l' := by
    intro F
    have := sum_add_of_ne (f := fun q => F (k'.proc q) (update ls p l' q)) (g := fun q => F (k.proc q) (ls q))
      (a := p) fun q hq => by rw [(hother q hq).1, (hother q hq).2]
    rwa [hself.1, hself.2] at this
  have hchild' : ∀ q, (update ls p l' q).1.2.child = (ls q).1.2.child := by
    intro q
    by_cases hq : q = p
    · rw [hq, hself.2, hchild]
    · rw [(hother q hq).2]
  refine ⟨fun q => ?_, fun f => ?_, fun i hi => ?_, fun r w => ?_, hshape, hused, hfresh, fun q q' f hf hf' => ?_,
    fun q q' copied given hc => ?_, fun q q' c _ _ _ _ hc hc' => ?_, fun q => ?_⟩
  · by_cases hq : q = p
    · rw [hq, hself.1, hself.2]
      exact hown
    · rw [(hother q hq).1, (hother q hq).2]
      exact h.own q
  · have h1 := hsum fun x l => fileRefs x l.1.2 f
    have h2 := h.file f
    have h3 := hfile f
    omega
  · have h1 := hsum fun x l => inodeRefs x l.2 i
    have h2 := h.inode i hi
    have h3 := hinode i hi
    omega
  · have h1 := hsum fun _ l => pipeRefs l.1.2 r w
    have h2 := h.pipe r w
    have h3 := hpipe r w
    omega
  · -- a file that is new to one process is not new to another
    have hnew : ∀ q, q ≠ p → f ∈ l'.1.2.fresh → f ∉ (ls q).1.2.fresh := by
      intro q hq hf hfq
      by_cases hold : f ∈ (ls p).1.2.fresh
      · exact hq (h.disjoint q p f hfq hold)
      · exact hdisjoint f hf hold q hfq
    by_cases hq : q = p <;> by_cases hq' : q' = p
    · rw [hq, hq']
    · rw [hq, hself.2] at hf
      rw [(hother q' hq').2] at hf'
      exact absurd hf' (hnew q' hq' hf)
    · rw [(hother q hq).2] at hf
      rw [hq', hself.2] at hf'
      exact absurd hf (hnew q hq hf')
    · rw [(hother q hq).2] at hf
      rw [(hother q' hq').2] at hf'
      exact h.disjoint q q' f hf hf'
  · rw [hchild'] at hc
    have hmake := h.child q q' copied given hc
    by_cases hq' : q' = p
    · subst hq'
      obtain ⟨hs, ho, hcwd⟩ := hembryo hmake.1
      rw [hself.1]
      exact ⟨hs, ho ▸ hmake.2.1, hcwd ▸ hmake.2.2⟩
    · rw [(hother q' hq').1]
      exact hmake
  · rw [hchild'] at hc hc'
    exact h.single q q' c _ _ _ _ hc hc'
  · by_cases hq : q = p
    · rw [hq, hself.1]
      exact hgone
    · rw [(hother q hq).1]
      exact h.gone q

/-! ## Steps that leave the files as they are -/

/-- The rule for a step that leaves the files and the pipes as they are. -/
theorem Counted.move (hproc : k'.proc = update k.proc p x') (hf : FilesAlike k' k)
    (hp : k'.pipe = k.pipe) (hown : Own x' l')
    (hembryo : (k.proc p).state = .embryo → x'.state = .embryo ∧ x'.ofile = (k.proc p).ofile ∧ x'.cwd = (k.proc p).cwd)
    (hgone : Gone x') (hchild : l'.1.2.child = (ls p).1.2.child)
    (hfile : ∀ f, fileRefs x' l'.1.2 f = fileRefs (k.proc p) (ls p).1.2 f)
    (hinode : ∀ i, i ≠ 0 → k'.ref i + inodeRefs (k.proc p) (ls p).2 i = k.ref i + inodeRefs x' l'.2 i)
    (hclosing : l'.1.2.closing = (ls p).1.2.closing) (hnew : l'.1.2.newPipe = (ls p).1.2.newPipe)
    (hfresh : l'.1.2.fresh = (ls p).1.2.fresh) : Counted k' (update ls p l') := by
  have hend : ∀ r w, openEnd k' r w = openEnd k r w := fun r w => by simp only [openEnd, hp]
  refine h.step hproc hown hembryo hgone hchild (fun f => ?_) (fun i hi => ?_) (fun r w => ?_) (hf.shape h.shape)
    (fun r e => hp ▸ h.used r e) (fun q f hmem => ?_) fun f hmem hnot => ?_
  · rw [hfile, (hf f).1]
  · simp only [hf.opens]
    have := hinode i hi
    omega
  · simp only [hf.ends, hend, pipeRefs, hclosing, hnew]
  · rw [(hf f).2.1]
    by_cases hq : q = p
    · rw [hq, update_self, hfresh] at hmem
      exact h.fresh p f hmem
    · rw [update_of_ne hq] at hmem
      exact h.fresh q f hmem
  · exact absurd (hfresh ▸ hmem) hnot

/-- A step that only has to do with references to inodes. -/
theorem Counted.refs (hproc : k'.proc = update k.proc p x') (hf : FilesAlike k' k)
    (hp : k'.pipe = k.pipe) (hx : Alike x' (k.proc p)) (hl : LocalAlike l' (ls p))
    (href : ∀ i, i ≠ 0 → k'.ref i + (ls p).2.refs.count i = k.ref i + l'.2.refs.count i) :
    Counted k' (update ls p l') := by
  refine h.move hproc hf hp ((h.own p).alike hx hl) (fun he => ⟨hx.state.trans he, hx.ofile, hx.cwd⟩)
    ((h.gone p).alike hx) (by rw [hl.file]) (fun f => ?_) (fun i hi => ?_) (by rw [hl.file]) (by rw [hl.file])
    (by rw [hl.file])
  · rw [hl.file]
    exact fileRefs_congr hx.ofile rfl rfl rfl
  · have := href i hi
    simp only [inodeRefs, hx.cwd, hl.taken]
    omega

/-- A step that the counts are not about. -/
theorem Counted.inert (hproc : k'.proc = update k.proc p x') (hf : FilesAlike k' k)
    (hp : k'.pipe = k.pipe) (href : k'.ref = k.ref) (hx : Alike x' (k.proc p)) (hl : LocalAlike l' (ls p))
    (hrefs : l'.2.refs = (ls p).2.refs) : Counted k' (update ls p l') :=
  h.refs hproc hf hp hx hl fun i _ => by rw [href, hrefs]

/-- The rule for a step that changes one file. -/
theorem Counted.onFile {f : Fin NFILE} {ff : File} (hproc : k'.proc = k.proc)
    (hf : k'.file = update k.file f ff) (hp : k'.pipe = k.pipe) (href : k'.ref = k.ref)
    (hown : Own (k.proc p) l') (hchild : l'.1.2.child = (ls p).1.2.child)
    (hthis : ff.ref + fileRefs (k.proc p) (ls p).1.2 f = (k.file f).ref + fileRefs (k.proc p) l'.1.2 f)
    (hother : ∀ g, g ≠ f → fileRefs (k.proc p) l'.1.2 g = fileRefs (k.proc p) (ls p).1.2 g)
    (hinode : ∀ i, i ≠ 0 → opens (k.file f) i + inodeRefs (k.proc p) (ls p).2 i = opens ff i + inodeRefs (k.proc p) l'.2 i)
    (hpipe : ∀ r w, ends (k.file f) r w + pipeRefs (ls p).1.2 r w = ends ff r w + pipeRefs l'.1.2 r w)
    (hshape : Shape ff) (hsub : ∀ g ∈ l'.1.2.fresh, g = f ∨ g ∈ (ls p).1.2.fresh)
    (hthisFresh : f ∈ l'.1.2.fresh → ff.type = .none ∧ (f ∈ (ls p).1.2.fresh ∨ ∀ q, f ∉ (ls q).1.2.fresh))
    (hotherFresh : ∀ q, q ≠ p → f ∈ (ls q).1.2.fresh → ff.type = .none) : Counted k' (update ls p l') := by
  have hend : ∀ r w, openEnd k' r w = openEnd k r w := fun r w => by simp only [openEnd, hp]
  have hne : ∀ g, g ≠ f → k'.file g = k.file g := fun g hg => by rw [hf, update_of_ne hg]
  have hself : k'.file f = ff := by rw [hf, update_self]
  -- one term of a sum over the files changes
  have hsum : ∀ F : File → ℕ, (∑ g, F (k'.file g)) + F (k.file f) = (∑ g, F (k.file g)) + F ff := by
    intro F
    have := sum_add_of_ne (f := fun g => F (k'.file g)) (g := fun g => F (k.file g)) (a := f) fun g hg => by rw [hne g hg]
    rwa [hself] at this
  have hproc' : k'.proc = update k.proc p (k.proc p) := by rw [hproc, update_eq_self]
  refine h.step hproc' hown (fun he => ⟨he, rfl, rfl⟩) (h.gone p) hchild
    (fun g => ?_) (fun i hi => ?_) (fun r w => ?_) (fun g => ?_) (fun r e => hp ▸ h.used r e) (fun q g hmem => ?_)
    fun g hmem hnot => ?_
  · by_cases hg : g = f
    · rw [hg, hself]
      exact hthis
    · rw [hne g hg, hother g hg]
  · have h1 := hsum fun x => opens x i
    have h2 := hinode i hi
    rw [href]
    omega
  · have h1 := hsum fun x => ends x r w
    have h2 := hpipe r w
    rw [hend]
    omega
  · by_cases hg : g = f
    · rw [hg, hself]
      exact hshape
    · rw [hne g hg]
      exact h.shape g
  · by_cases hq : q = p
    · rw [hq, update_self] at hmem
      by_cases hg : g = f
      · subst hg
        rw [hself]
        exact (hthisFresh hmem).1
      · rw [hne g hg]
        exact h.fresh p g ((hsub g hmem).resolve_left hg)
    · rw [update_of_ne hq] at hmem
      by_cases hg : g = f
      · subst hg
        rw [hself]
        exact hotherFresh q hq hmem
      · rw [hne g hg]
        exact h.fresh q g hmem
  · rcases hsub g hmem with rfl | hold
    · exact (hthisFresh hmem).2.resolve_left hnot
    · exact absurd hold hnot

end

end Sys

end Xv6
