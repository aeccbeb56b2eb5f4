import Mathlib
import Xv6.Kernel.CountSteps

/-!
# The reference counts are exact

Every system call follows the protocols, so `Counted` holds in every run. Between calls the counts are then what the
descriptors, the current directories and the open files say, and the checks of `filedup` and `fileclose` never fail.
-/

namespace Xv6

open Function

namespace Sys

variable {S P : Type}

/-- All three protocols. -/
def protocol : Discipline (Act P) Act.Resp (Local P) := (txDiscipline.prod fileDiscipline).prod refDiscipline

namespace Local

/-- Between calls. -/
def idle : Local P := ((.idle, .idle), .idle)

/-- At the start of a call. -/
def start : Local P := ((.idle, .start), .idle)

/-- Nothing is left over. -/
def Done (l : Local P) : Prop := l.1.2.Done ∧ l.2.Done

end Local

/-- Every system call follows the protocols. -/
theorem protocol_code (c : Syscall) :
    protocol.Ok (Local.start : Local P) (do let _ ← c.code; pure ()) fun _ l => l.Done := by
  refine Discipline.ok_bind.mpr ?_
  have htx := returns_code (P := P) c .idle rfl ⟨rfl, rfl⟩
  exact (htx.prod (refs_code c)).mono fun _ l h => ⟨h.1.2.2, h.2⟩

variable {a : Act P} {i : ℕ} {tx : TxState}

/-- What a process is about to do, its protocols allow. -/
theorem pre_of_follows {l : Local P} {prog : Option (Prog (Act P) Act.Resp Unit)}
    {x : a.Resp → Prog (Act P) Act.Resp Unit} (h : protocol.Follows Local.idle Local.Done l prog)
    (hprog : prog = some (.act a x)) : protocol.Pre l a := by
  subst hprog
  exact h.1

variable {t : Kernel S P} {s : Config P (Act P) (Kernel S P) Act.Resp}

theorem onStore_ok {α : Type} {k : Kernel S P} {x : Code Halt S α} {r : α}
    (h : (Kernel.onStore x).run k = .ok r t) : ∃ s, t = { k with store := s } := by
  simp only [Kernel.onStore, Code.zoom, EStateM.run] at h
  split at h
  · cases h
    exact ⟨_, rfl⟩
  · cases h

variable [Fintype P]

/-- After `userinit`: the only process has the root directory, and no file is open. -/
structure Boot (k : Kernel S P) : Prop where
  file : ∀ f, (k.file f).ref = 0 ∧ (k.file f).type = .none ∧ (k.file f).off = 0
  pipe : ∀ r, k.pipe r = none
  ofile : ∀ p fd, (k.proc p).ofile fd = none
  init : (k.proc k.initproc).state = .running ∧ (k.proc k.initproc).cwd = ROOTINO
  other : ∀ p, p ≠ k.initproc → (k.proc p).state = .unused ∧ (k.proc p).cwd = 0
  ref : ∀ i, k.ref i = if i = ROOTINO then 1 else 0

variable {k : Kernel S P} {ls : P → Local P}

theorem Boot.counted [DecidableEq P] (h : Boot k) : Counted k fun _ => Local.idle := by
  have hzero : ∀ p f, fileRefs (k.proc p) (FileState.idle : FileState P) f = 0 := by
    intro p f
    simp [fileRefs, fdRef, h.ofile, FileState.idle]
  have hcwd : ∀ i, i ≠ 0 → ∀ p,
      inodeRefs (k.proc p) Refs.idle i = if p = k.initproc then (if i = ROOTINO then 1 else 0) else 0 := by
    intro i hi p
    by_cases hp : p = k.initproc
    · simp [inodeRefs, Refs.idle, hp, h.init.2, eq_comm]
    · simp [inodeRefs, Refs.idle, hp, (h.other p hp).2, Ne.symm hi]
  have hown : ∀ p, Own (k.proc p) (Local.idle : Local P) := by
    intro p
    constructor <;> simp [Local.idle, FileState.idle, Refs.idle]
  have hfresh : (Local.idle : Local P).1.2.fresh = ∅ := rfl
  have hchild : (Local.idle : Local P).1.2.child = none := rfl
  refine ⟨hown, fun f => ?_, fun i hi => ?_, fun r w => ?_, fun f => ?_, fun r e he => ?_, by simp [hfresh],
    by simp [hfresh], by simp [hchild], by simp [hchild], fun p hs => ?_⟩
  · rw [(h.file f).1]
    exact (Finset.sum_eq_zero fun p _ => hzero p f).symm
  · have hopens : ∀ f, opens (k.file f) i = 0 := fun f => opens_eq_zero (by simp [(h.file f).2.1]) i
    have hsum : (∑ p, inodeRefs (k.proc p) (Local.idle : Local P).2 i) =
        ∑ p, if p = k.initproc then (if i = ROOTINO then 1 else 0) else 0 :=
      Finset.sum_congr rfl fun p _ => hcwd i hi p
    rw [hsum, h.ref]
    simp [hopens]
  · have hends : ∀ f, ends (k.file f) r w = 0 := fun f => ends_eq_zero (by simp [(h.file f).2.1]) r w
    simp [hends, openEnd, isOpen, h.pipe, pipeRefs, Local.idle, FileState.idle]
  · refine ⟨fun _ => (h.file f).2.1, fun r hr => absurd ((h.file f).2.1.symm.trans hr) (by simp), ?_⟩
    rw [(h.file f).2.2]
    exact Nat.two_pow_pos 32
  · exact absurd ((h.pipe r).symm.trans he) (by simp)
  · have hp : p ≠ k.initproc := by
      rintro rfl
      rw [h.init.1] at hs
      rcases hs with hs | hs <;> cases hs
    exact ⟨h.ofile p, (h.other p hp).2⟩

/-! ## Between calls -/

/-- The descriptors that point to a file. -/
def descriptors (k : Kernel S P) (f : Fin NFILE) : Finset (P × Fin NOFILE) :=
  Finset.univ.filter fun x => (k.proc x.1).ofile x.2 = some f

/-- The `FD_INODE` files in use for an inode. -/
def openFiles (k : Kernel S P) (i : ℕ) : Finset (Fin NFILE) :=
  Finset.univ.filter fun f => 0 < (k.file f).ref ∧ (k.file f).type = .inode i

/-- The processes with a current directory. -/
def workingIn (k : Kernel S P) (i : ℕ) : Finset P := Finset.univ.filter fun p => (k.proc p).cwd = i

/-- The counts are what the tables say. There is no inode 0: it stands for a null pointer. -/
structure Exact (k : Kernel S P) : Prop where
  file : ∀ f, (k.file f).ref = (descriptors k f).card
  none : ∀ f, (k.file f).ref = 0 → (k.file f).type = .none
  inode : ∀ i, i ≠ 0 → k.ref i = (openFiles k i).card + (workingIn k i).card
  pipe : ∀ r, (k.pipe r).isSome ↔ ∃ f, 0 < (k.file f).ref ∧ (k.file f).type = .pipe r
  readopen : ∀ r e, k.pipe r = some e → (e.readopen = true ↔
    ∃ f, 0 < (k.file f).ref ∧ (k.file f).type = .pipe r ∧ (k.file f).readable = true)
  writeopen : ∀ r e, k.pipe r = some e → (e.writeopen = true ↔
    ∃ f, 0 < (k.file f).ref ∧ (k.file f).type = .pipe r ∧ (k.file f).writable = true)

/-- Between calls an end is open if a file stands for it. -/
theorem Counted.openEnd_iff (h : Counted k fun _ => Local.idle) (r : ℕ) (w : Bool) :
    openEnd k r w = true ↔ ∃ f, 0 < (k.file f).ref ∧ (k.file f).type = .pipe r ∧ (k.file f).writable = w := by
  have hcount := h.pipe r w
  have hlocal : (∑ _p : P, pipeRefs (Local.idle : Local P).1.2 r w) = 0 := Finset.sum_eq_zero fun _ _ => rfl
  rw [hlocal, Nat.add_zero] at hcount
  constructor
  · intro hopen
    rw [hopen] at hcount
    obtain ⟨f, -, hf⟩ := Finset.exists_ne_zero_of_sum_ne_zero (hcount.symm.trans_ne one_ne_zero)
    refine ⟨f, ?_⟩
    by_contra hnot
    exact hf (if_neg hnot)
  · rintro ⟨f, hf⟩
    have hone : ends (k.file f) r w = 1 := if_pos hf
    have hle := Finset.single_le_sum (f := fun f => ends (k.file f) r w) (fun _ _ => Nat.zero_le _) (Finset.mem_univ f)
    by_contra hclosed
    rw [Bool.not_eq_true] at hclosed
    rw [hclosed] at hcount
    simp only [hone, ← hcount] at hle
    exact absurd hle (by decide)

theorem Counted.exact (h : Counted k fun _ => Local.idle) : Exact k := by
  refine ⟨fun f => ?_, fun f => (h.shape f).none, fun i hi => ?_, fun r => ?_, fun r e he => ?_, fun r e he => ?_⟩
  · rw [h.file, descriptors, Finset.card_filter, Fintype.sum_prod_type]
    refine Finset.sum_congr rfl fun p _ => ?_
    simp [fileRefs, fdRef, FileState.Counts, Local.idle, FileState.idle]
  · rw [h.inode i hi, openFiles, workingIn, Finset.card_filter, Finset.card_filter]
    congr 1
    refine Finset.sum_congr rfl fun p _ => ?_
    simp [inodeRefs, Local.idle, Refs.idle]
  · constructor
    · intro hsome
      obtain ⟨e, he⟩ := Option.isSome_iff_exists.mp hsome
      have hopen : ∃ w, openEnd k r w = true := by
        rcases h.used r e he with hr | hw
        · exact ⟨false, by simpa [openEnd, isOpen, he] using hr⟩
        · exact ⟨true, by simpa [openEnd, isOpen, he] using hw⟩
      obtain ⟨w, hw⟩ := hopen
      obtain ⟨f, hpos, ht, -⟩ := (h.openEnd_iff r w).mp hw
      exact ⟨f, hpos, ht⟩
    · rintro ⟨f, hpos, ht⟩
      have hopen := (h.openEnd_iff r (k.file f).writable).mpr ⟨f, hpos, ht, rfl⟩
      cases hp : k.pipe r with
      | none => simp [openEnd, isOpen, hp] at hopen
      | some e => rfl
  · have hiff := h.openEnd_iff r false
    simp only [openEnd, isOpen, he] at hiff
    refine hiff.trans (exists_congr fun f => and_congr_right fun _ => and_congr_right fun ht => ?_)
    rw [(h.shape f).side r ht]
    simp
  · have hiff := h.openEnd_iff r true
    simpa only [openEnd, isOpen, he, if_true] using hiff

/-! ## In a call -/

/-- The steps that are about to be made find the references that they need: `filedup` and `fileclose` do not panic,
in `fork` neither, and `pipeclose` closes an open end of a pipe that is allocated. -/
structure Safe (s : Config P (Act P) (Kernel S P) Act.Resp) : Prop where
  filedup : ∀ p f x, s.prog p = some (.act (.filedup f) x) → 1 ≤ (s.shared.file f).ref
  fork : ∀ p q fd f x, s.prog p = some (.act (.dupFd q fd) x) → (s.shared.proc p).ofile fd = some f →
    1 ≤ (s.shared.file f).ref
  fileclose : ∀ p f x, s.prog p = some (.act (.fileDec f) x) → 1 ≤ (s.shared.file f).ref
  pipeclose : ∀ p r w x, s.prog p = some (.act (.pipeclose r w) x) →
    ∃ e, s.shared.pipe r = some e ∧ (if w then e.writeopen else e.readopen) = true

theorem Counted.safe (h : Counted s.shared ls)
    (hfollows : ∀ p, protocol.Follows Local.idle Local.Done (ls p) (s.prog p)) : Safe s := by
  refine ⟨fun p f x hx => ?_, fun p q fd f x hx hf => ?_, fun p f x hx => ?_, fun p r w x hx => ?_⟩
  · obtain ⟨fd, hextra⟩ := (pre_of_follows (hfollows p) hx).1.2
    obtain ⟨-, fd', hslot, hne⟩ := (h.own p).extra fd f hextra
    -- the descriptor that `dup` was called with is a reference
    have hcounts : (ls p).1.2.Counts fd' := by
      refine ⟨fun htaken => ?_, ?_⟩
      · have hnone := ((h.own p).taken fd' htaken).1
        rw [hslot] at hnone
        nomatch hnone
      · rw [hextra]
        rintro ⟨⟩
        exact hne rfl
    exact h.ref_pos (fileRefs_pos ((h.own p).slot fd' f hslot) hcounts)
  · obtain ⟨htaken, hextra, -⟩ := (pre_of_follows (hfollows p) hx).1.2
    exact h.ref_pos (fileRefs_pos hf (FileState.counts_of_none htaken hextra fd))
  · exact h.ref_pos (fileRefs_pos_of_mem (pre_of_follows (hfollows p) hx).1.2.1)
  · have hopen := h.open_of_closing (pre_of_follows (hfollows p) hx).1.2
    cases hp : s.shared.pipe r with
    | none => simp [openEnd, isOpen, hp] at hopen
    | some e => exact ⟨e, rfl, by simpa [openEnd, isOpen, hp] using hopen⟩

/-! ## Calls -/

variable [DecidableEq P] {p : P}

/-- Starting a call. -/
theorem counted_call (h : Counted k ls) (hidle : ls p = Local.idle) (hready : (k.proc p).state = .running) :
    Counted k (update ls p Local.start) := by
  have ho := h.own p
  rw [hidle] at ho
  refine h.move (update_eq_self p k.proc).symm (h.filesAlike rfl) rfl ?_ (fun he => ⟨he, rfl, rfl⟩) (h.gone p)
    (by rw [hidle]; rfl) (fun f => ?_) (fun i _ => ?_) (by rw [hidle]; rfl) (by rw [hidle]; rfl) (by rw [hidle]; rfl)
  · exact ⟨fun _ => hready, nofun, ho.slot, ho.taken, ho.extra, ho.closed, nofun, nofun⟩
  · rw [hidle]
    apply fileRefs_congr <;> rfl
  · rw [hidle]
    rfl

/-- Returning from a call. -/
theorem counted_return (h : Counted k ls) (hdone : (ls p).Done) : Counted k (update ls p Local.idle) := by
  obtain ⟨hf, hr⟩ := hdone
  refine h.move (update_eq_self p k.proc).symm (h.filesAlike rfl) rfl ?_ (fun he => ⟨he, rfl, rfl⟩) (h.gone p)
    hf.child.symm (fun f => ?_) (fun i _ => ?_) hf.closing.symm hf.newPipe.symm hf.fresh.symm
  · exact ⟨nofun, fun _ => ⟨rfl, rfl, rfl, rfl, rfl, rfl⟩, nofun, nofun, nofun, nofun, nofun, nofun⟩
  · exact fileRefs_congr rfl hf.takenFd.symm hf.extra.symm hf.frefs.symm
  · have hrefs : (Refs.idle).refs = (ls p).2.refs := hr.1.symm
    have htaken : (Refs.idle).taken = (ls p).2.taken := hr.2.symm
    show k.ref i + _ = k.ref i + inodeRefs (k.proc p) Refs.idle i
    simp only [inodeRefs, hrefs, htaken]

/-! ## The steps -/

variable {k' : Kernel S P} {l' : Local P} {N : ℕ} {st : (op : FsOp) → Code Halt S op.Resp} {c : Choice P}

section

variable (h : Counted k ls)

include h

/-- A step that does nothing to the kernel. -/
theorem counted_idle (hproc : k'.proc = k.proc) (hf : k'.file = k.file) (hp : k'.pipe = k.pipe)
    (href : k'.ref = k.ref) (hl : LocalAlike l' (ls p)) (hrefs : l'.2.refs = (ls p).2.refs) :
    Counted k' (update ls p l') :=
  h.inert (by rw [hproc, update_eq_self]) (h.filesAlike hf) hp href (.refl _) hl hrefs

/-- A new reference to an inode. -/
theorem counted_addRef (hproc : k'.proc = k.proc) (hf : k'.file = k.file)
    (hp : k'.pipe = k.pipe) (href : k'.ref = update k.ref i (k.ref i + 1)) (hl : LocalAlike l' (ls p))
    (hrefs : l'.2.refs = i ::ₘ (ls p).2.refs) : Counted k' (update ls p l') := by
  refine h.refs (by rw [hproc, update_eq_self]) (h.filesAlike hf) hp (.refl _) hl fun j _ => ?_
  rw [href, hrefs]
  by_cases hj : j = i
  · subst hj
    rw [update_self, Multiset.count_cons_self]
    omega
  · rw [update_of_ne hj, Multiset.count_cons_of_ne hj]

/-- A reference to an inode is dropped. -/
theorem counted_dropRef (hi : i ∈ (ls p).2.refs) (hproc : k'.proc = k.proc)
    (hf : k'.file = k.file) (hp : k'.pipe = k.pipe) (href : k'.ref = update k.ref i (k.ref i - 1))
    (hl : LocalAlike l' (ls p)) (hrefs : l'.2.refs = (ls p).2.refs.erase i) : Counted k' (update ls p l') := by
  refine h.refs (by rw [hproc, update_eq_self]) (h.filesAlike hf) hp (.refl _) hl fun j hj0 => ?_
  rw [href, hrefs]
  by_cases hj : j = i
  · subst hj
    have hpos := Multiset.count_pos.mpr hi
    have hle := h.count_le hj0 p
    rw [update_self, Multiset.count_erase_self]
    omega
  · rw [update_of_ne hj, Multiset.count_erase_of_ne hj]

theorem counted_iget {r : Unit} (hrun : (Kernel.exec N st p c (.iget i)).run k = .ok r t) :
    Counted t (update ls p ((tx, (ls p).1.2), (ls p).2.add i)) := by
  simp only [Kernel.exec, EStateM.run] at hrun
  split_ifs at hrun with hpos hfull
  · cases hrun
    exact counted_addRef h rfl rfl rfl rfl ⟨rfl, rfl, rfl⟩ rfl
  · obtain ⟨s, rfl⟩ := onStore_ok hrun
    have hone : k.ref i + 1 = 1 := by omega
    exact counted_addRef h rfl rfl rfl (by rw [hone]; rfl) ⟨rfl, rfl, rfl⟩ rfl

theorem counted_fs {op : FsOp} {r : op.Resp}
    (hrun : (Kernel.exec N st p c (.fs op)).run k = .ok r t) :
    Counted t (update ls p ((tx, (ls p).1.2), (ls p).2.fsNext op r)) := by
  obtain ⟨s, rfl⟩ := onStore_ok (show (Kernel.onStore (st op)).run k = .ok r t from hrun)
  refine counted_idle h rfl rfl rfl rfl ⟨rfl, ?_, ?_⟩ ?_ <;> cases op <;> rfl

theorem counted_advance {f : Fin NFILE} {n : ℕ} :
    Counted (k.setFile f { k.file f with off := ((k.file f).off + n) % 2 ^ 32 })
      (update ls p ((tx, (ls p).1.2), (ls p).2)) := by
  refine h.inert (update_eq_self p k.proc).symm (fun g => ?_) rfl rfl (.refl _) ⟨rfl, rfl, rfl⟩ rfl
  by_cases hg : g = f
  · subst hg
    simp only [Kernel.setFile, update_self]
    exact ⟨trivial, trivial, trivial, trivial, Nat.mod_lt _ (Nat.two_pow_pos 32)⟩
  · simp only [Kernel.setFile, update_of_ne hg]
    exact ⟨trivial, trivial, trivial, trivial, (h.shape g).off⟩

/-- Every step of a process that follows the protocols keeps the counts. -/
theorem counted_step {r : a.Resp} (hpre : protocol.Pre (ls p) a)
    (hrun : (Kernel.exec N st p c a).run k = .ok r t) :
    protocol.Fact (ls p) a r ∧ Counted t (update ls p (protocol.next (ls p) a r)) := by
  obtain ⟨⟨-, hfile⟩, href⟩ := hpre
  have hfact : ((True ∧ True) ∧ True) := ⟨⟨trivial, trivial⟩, trivial⟩
  cases a with
  | beginOp | endOp =>
    cases hrun
    exact ⟨hfact, h.inert rfl (h.filesAlike rfl) rfl rfl ⟨rfl, rfl, rfl⟩ ⟨rfl, rfl, rfl⟩ rfl⟩
  | iget i => exact ⟨hfact, counted_iget h hrun⟩
  | idup i =>
    cases hrun
    exact ⟨hfact, counted_addRef h rfl rfl rfl rfl ⟨rfl, rfl, rfl⟩ rfl⟩
  | refDec i =>
    cases hrun
    exact ⟨hfact, counted_dropRef h href rfl rfl rfl rfl ⟨rfl, rfl, rfl⟩ rfl⟩
  | ref i site =>
    cases hrun
    cases site with
    | ilock => exact ⟨hfact, counted_idle h rfl rfl rfl rfl ⟨rfl, rfl, rfl⟩ rfl⟩
    | iput =>
      exact ⟨⟨⟨trivial, trivial⟩, fun hi => h.count_le hi p⟩, counted_idle h rfl rfl rfl rfl ⟨rfl, rfl, rfl⟩ rfl⟩
  | acquire i site =>
    simp only [Kernel.exec, EStateM.run] at hrun
    split at hrun
    · cases hrun
      exact ⟨hfact, counted_idle h rfl rfl rfl rfl ⟨rfl, rfl, rfl⟩ rfl⟩
    · cases hrun
  | release i site =>
    cases hrun
    cases site <;> exact ⟨hfact, counted_idle h rfl rfl rfl rfl ⟨rfl, rfl, rfl⟩ rfl⟩
  | holding i | isInit =>
    cases hrun
    exact ⟨hfact, counted_idle h rfl rfl rfl rfl ⟨rfl, rfl, rfl⟩ rfl⟩
  | fs op => exact ⟨hfact, counted_fs h hrun⟩
  | cwd =>
    cases hrun
    exact ⟨hfact, counted_cwd h⟩
  | takeCwd =>
    cases hrun
    exact ⟨hfact, counted_takeCwd h hfile href⟩
  | setCwd i =>
    cases hrun
    exact ⟨hfact, counted_setCwd h href.1 href.2⟩
  | filealloc =>
    simp only [Kernel.exec, EStateM.run] at hrun
    split at hrun
    · cases hrun
      exact ⟨⟨⟨trivial, nofun⟩, trivial⟩, counted_idle h rfl rfl rfl rfl ⟨rfl, rfl, rfl⟩ rfl⟩
    · rename_i f hfind
      cases hrun
      have hzero : (k.file f).ref = 0 := by simpa using List.find?_some hfind
      refine ⟨⟨⟨trivial, ?_⟩, trivial⟩, counted_filealloc h hzero⟩
      rintro _ ⟨⟩ hmem
      have hpos := fileRefs_pos_of_mem (x := k.proc p) hmem
      rw [h.no_refs hzero p] at hpos
      exact lt_irrefl 0 hpos
  | fdalloc f =>
    simp only [Kernel.exec, EStateM.run] at hrun
    split at hrun
    · cases hrun
      exact ⟨hfact, counted_idle h rfl rfl rfl rfl ⟨rfl, rfl, rfl⟩ rfl⟩
    · rename_i fd hfind
      cases hrun
      have hnone : (k.proc p).ofile fd = none := by simpa using List.find?_some hfind
      exact ⟨hfact, counted_fdalloc h hfile.1 hfile.2.1 hfile.2.2.1 hfile.2.2.2 hnone⟩
  | ofile fd =>
    cases hrun
    exact ⟨hfact, counted_ofile h hfile.1 hfile.2.1 hfile.2.2⟩
  | takeFd fd =>
    obtain ⟨hlive, htaken, hslot, hextra⟩ := hfile
    have hr : (k.proc p).ofile fd = r := by
      cases hrun
      rfl
    obtain rfl : k = t := by
      cases hrun
      rfl
    cases r with
    | none => exact ⟨hfact, counted_takeFd_none h hlive hr⟩
    | some f => exact ⟨hfact, counted_takeFd_some h hlive htaken hslot hextra hr⟩
  | clearFd fd =>
    cases hrun
    exact ⟨hfact, counted_clearFd h hfile.1 hfile.2⟩
  | filedup f =>
    obtain ⟨fd, hextra⟩ := hfile
    simp only [Kernel.exec, EStateM.run] at hrun
    split_ifs at hrun with hpos
    cases hrun
    exact ⟨hfact, counted_filedup h hextra (by omega)⟩
  | fileDec f =>
    simp only [Kernel.exec, EStateM.run] at hrun
    split_ifs at hrun with hpos hmany
    · cases hrun
      exact ⟨⟨⟨trivial, fun _ => nofun⟩, trivial⟩, counted_fileDec h hfile.1 hfile.2 hmany⟩
    · cases hrun
      refine ⟨⟨⟨trivial, ?_⟩, trivial⟩, counted_fileDec_last h hfile.1 hfile.2 (by omega)⟩
      rintro hfresh _ ⟨⟩
      exact h.fresh p f hfresh
  | file f =>
    cases hrun
    refine ⟨⟨⟨trivial, trivial⟩, (h.shape f).off⟩, counted_idle h rfl rfl rfl rfl ⟨rfl, ?_, ?_⟩ ?_⟩
    all_goals
      simp only [protocol, Discipline.prod, refDiscipline]
      split <;> rfl
  | setFile f ip readable writable =>
    cases hrun
    exact ⟨hfact, counted_setFile h hfile href.1⟩
  | kallocPipe =>
    have hnone : Counted k (update ls p (protocol.next (ls p) .kallocPipe none)) := by
      refine counted_idle h rfl rfl rfl rfl ⟨?_, rfl, rfl⟩ rfl
      show { (ls p).1.2 with newPipe := none } = (ls p).1.2
      rw [← show (ls p).1.2.newPipe = none from hfile]
    simp only [Kernel.exec, EStateM.run] at hrun
    split at hrun
    · split_ifs at hrun with hfree
      · cases hrun
        exact ⟨hfact, counted_kallocPipe h hfree hfile⟩
      · cases hrun
        exact ⟨hfact, hnone⟩
    · cases hrun
      exact ⟨hfact, hnone⟩
  | setPipe rf wf page =>
    cases hrun
    exact ⟨hfact, counted_setPipe h hfile.1 hfile.2.1 hfile.2.2.1 hfile.2.2.2⟩
  | pipeclose page writable =>
    have hopen := h.open_of_closing hfile
    simp only [Kernel.exec, EStateM.run] at hrun
    split at hrun
    · rename_i hnone
      simp [openEnd, isOpen, hnone] at hopen
    · rename_i e he
      cases hrun
      exact ⟨hfact, counted_pipeclose h hfile he⟩
  | advance f n =>
    cases hrun
    exact ⟨hfact, counted_advance h⟩
  | env =>
    simp only [Kernel.exec, EStateM.run] at hrun
    split at hrun <;> cases hrun <;>
      exact ⟨hfact, counted_idle h rfl rfl rfl rfl ⟨rfl, rfl, rfl⟩ rfl⟩
  | allocproc =>
    have hnone : Counted k (update ls p (protocol.next (ls p) .allocproc none)) := by
      refine counted_idle h rfl rfl rfl rfl ⟨?_, rfl, rfl⟩ rfl
      show { (ls p).1.2 with child := none } = (ls p).1.2
      rw [← show (ls p).1.2.child = none from hfile.1]
    simp only [Kernel.exec, EStateM.run] at hrun
    split at hrun
    · split_ifs at hrun with hunused
      · cases hrun
        exact ⟨hfact, counted_allocproc h hunused hfile.2 hfile.1⟩
      · cases hrun
        exact ⟨hfact, hnone⟩
    · cases hrun
      exact ⟨hfact, hnone⟩
  | freeproc q =>
    cases hrun
    exact ⟨hfact, counted_freeproc h hfile⟩
  | dupFd q fd =>
    obtain ⟨htaken, hextra, copied, given, hc, hfd⟩ := hfile
    have hchild : (ls p).1.2.child.map (fun c => (c.1, insert fd c.2.1, c.2.2)) =
        some (q, insert fd copied, given) := by
      rw [hc]
      rfl
    have hnext : protocol.next (ls p) (.dupFd q fd) r =
        (((ls p).1.1, { (ls p).1.2 with child := some (q, insert fd copied, given) }), (ls p).2) :=
      congrArg (fun c => (((ls p).1.1, { (ls p).1.2 with child := c }), (ls p).2)) hchild
    rw [hnext]
    simp only [Kernel.exec, EStateM.run] at hrun
    split at hrun
    · cases hrun
      exact ⟨hfact, counted_dupFd_none h hc⟩
    · split_ifs at hrun with hpos
      cases hrun
      exact ⟨hfact, counted_dupFd_some h hc hfd (by omega)⟩
  | giveCwd q i =>
    obtain ⟨copied, hc⟩ := hfile
    have hchild : (ls p).1.2.child.map (fun c => (c.1, c.2.1, true)) = some (q, copied, true) := by
      rw [hc]
      rfl
    have hnext : protocol.next (ls p) (.giveCwd q i) r =
        (((ls p).1.1, { (ls p).1.2 with child := some (q, copied, true) }), (ls p).2.drop i) :=
      congrArg (fun c => (((ls p).1.1, { (ls p).1.2 with child := c }), (ls p).2.drop i)) hchild
    rw [hnext]
    cases hrun
    exact ⟨hfact, counted_giveCwd h hc href⟩
  | runnable q =>
    obtain ⟨copied, hc⟩ := hfile
    cases hrun
    exact ⟨hfact, counted_runnable h hc⟩
  | die =>
    cases hrun
    exact ⟨hfact, counted_die h hfile.1 hfile.2.1 hfile.2.2.1 hfile.2.2.2 href.2⟩
  | reap =>
    simp only [Kernel.exec, EStateM.run] at hrun
    split at hrun
    · split_ifs at hrun with hzombie
      · cases hrun
        exact ⟨hfact, counted_reap h hzombie⟩
      · cases hrun
        exact ⟨hfact, counted_idle h rfl rfl rfl rfl ⟨rfl, rfl, rfl⟩ rfl⟩
    · cases hrun
      exact ⟨hfact, counted_idle h rfl rfl rfl rfl ⟨rfl, rfl, rfl⟩ rfl⟩
  | panic e => exact r.elim

end

/-! ## Every run -/

/-- The counts hold in every run, whatever the file operations do. -/
theorem counted_of_reachable (h : ((Kernel.machine N st Syscall.code).lts Boot).Reachable s) :
    ∃ ls, Counted s.shared ls ∧ ∀ p, protocol.Follows Local.idle Local.Done (ls p) (s.prog p) := by
  refine Machine.invariant protocol Local.idle Local.start Local.Done Counted (fun _ => Boot.counted) protocol_code
    ?_ (fun _ _ _ => counted_return) ?_ h
  · intro t ls p hI hidle hready
    exact counted_call hI hidle (of_decide_eq_true hready)
  · intro s ls p c a x r t hI _ _ _ hpre hrun
    exact counted_step hI hpre hrun

/-- In every run of the system calls by any number of processes, whichever calls fail: between calls the counts are
exact, and no step finds a reference missing. -/
theorem counts_exact (N : ℕ) (st : (op : FsOp) → Code Halt S op.Resp) {s : Config P (Act P) (Kernel S P) Act.Resp}
    (h : ((Kernel.machine N st Syscall.code).lts Boot).Reachable s) :
    ((∀ p, s.prog p = none) → Exact s.shared) ∧ Safe s := by
  obtain ⟨ls, hI, hfollows⟩ := counted_of_reachable h
  refine ⟨fun hquiet => ?_, hI.safe hfollows⟩
  have hidle : ls = fun _ => Local.idle := by
    funext p
    have hp := hfollows p
    rw [hquiet p] at hp
    exact hp
  rw [hidle] at hI
  exact hI.exact

theorem neZero_two : NeZero 2 := ⟨two_ne_zero⟩

section

attribute [local instance] neZero_two

/-- A kernel after `userinit`, with two process slots. -/
def booted : Kernel Unit (Fin 2) where
  store := ()
  ref i := if i = ROOTINO then 1 else 0
  lock _ := none
  file _ := ⟨0, .none, false, false, 0⟩
  pipe _ := none
  proc p := if p = 0 then ⟨.running, ROOTINO, fun _ => none, 0, 0⟩ else ⟨.unused, 0, fun _ => none, 0, 0⟩
  initproc := 0

end

theorem boot_booted : Boot booted := by
  refine ⟨fun _ => ⟨rfl, rfl, rfl⟩, fun _ => rfl, fun p fd => ?_, ⟨rfl, rfl⟩, fun p hp => ?_, fun _ => rfl⟩
  · simp only [booted]
    split <;> rfl
  · simp only [booted]
    rw [if_neg (show p ≠ 0 from hp)]
    exact ⟨rfl, rfl⟩

/-- The calls `pipe` and `dup` of the read end. -/
theorem counts_exact_dup : ∃ s, ((Kernel.machine 1 (fun _ => throw .sleep) Syscall.code).lts Boot).Reachable s ∧
      (s.shared.file (0 : Fin 100)).ref = 2 ∧ (descriptors (P := Fin 2) (S := Unit) s.shared (0 : Fin 100)).card = 2 ∧
      ∃ f, 0 < (s.shared.file f).ref ∧ (s.shared.file f).type = .pipe 5 := by
  obtain ⟨s, hs, hend⟩ := Lts.Run.exists_of_exec ((Kernel.machine 1 (fun _ => throw .sleep) Syscall.code).lts Boot)
    (fun _ _ => true) ⟨booted, fun _ => none⟩
    ([.call 0 (.pipe true), .step 0 .quiet, .step 0 .quiet, .step 0 (.page 5)] ++ List.replicate 4 (.step 0 .quiet) ++
      .call 0 (.dup 0) :: List.replicate 4 (.step 0 .quiet))
    (fun s => (List.finRange 2).all (fun p => (s.prog p).isNone) && (s.shared.file (0 : Fin 100)).ref == 2 &&
      (s.shared.pipe 5).isSome)
    ⟨boot_booted, fun _ => rfl⟩ (by decide +kernel)
  simp only [Bool.and_eq_true, List.all_eq_true, Option.isNone_iff_eq_none, beq_iff_eq] at hend
  obtain ⟨⟨hquiet, href⟩, hpipe⟩ := hend
  have hexact := (counts_exact 1 _ hs.reachable).1 fun p => hquiet p (List.mem_finRange p)
  exact ⟨s, hs.reachable, href, (hexact.file (0 : Fin 100)).symm.trans href, (hexact.pipe 5).mp hpipe⟩

end Sys

end Xv6
