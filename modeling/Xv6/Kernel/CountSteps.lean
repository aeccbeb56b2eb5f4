import Xv6.Kernel.Counts

/-!
# What each step does to the reference counts

One lemma for each kind of step: if the process follows the protocols, `Counted` holds after the step.
-/

namespace Xv6

open Function

namespace Sys

variable {S P : Type}

variable {x y x' : Proc} {l l' : Local P} {f : Fin NFILE} {i r : ℕ} {w given : Bool} {q : P}
  {copied : Finset (Fin NOFILE)} {fd : Fin NOFILE}

/-- A reference or a descriptor has been taken out by a process that is in a call. -/
theorem Own.live_of (h : Own x l)
    (hl : l.1.2.slot ≠ none ∨ l.1.2.takenFd ≠ none ∨ l.1.2.extra ≠ none ∨ l.1.2.child ≠ none ∨ l.2.taken = true) :
    l.1.2.live = true := by
  by_contra hlive
  obtain ⟨h1, h2, h3, -, h4, h5⟩ := h.dead (by simpa using hlive)
  rcases hl with hl | hl | hl | hl | hl
  · exact hl h1
  · exact hl h2
  · exact hl h3
  · exact hl h4
  · rw [h5] at hl
    exact Bool.false_ne_true hl

/-- Dropping a reference to a file. -/
theorem Own.fileDec (h : Own x l) (hf : f ∈ l.1.2.frefs) {c : Option (ℕ × Bool)} (hl : l'.1.2 = { l.1.2 with
      frefs := l.1.2.frefs.erase f
      fresh := l.1.2.fresh.erase f
      closing := c }) (ht : l'.2.taken = l.2.taken) (hc : l'.2.cwd = l.2.cwd) : Own x l' := by
  have hdrop := (fileRefs_drop (x := x) (l := l.1.2) hf (show l'.1.2.takenFd = _ by rw [hl]) (by rw [hl]) (by rw [hl])).2
  constructor
  · rw [hl]
    exact h.live
  · rw [hl, ht]
    exact h.dead
  · rw [hl]
    exact h.slot
  · rw [hl]
    exact h.taken
  · rw [hl]
    exact h.extra
  · rw [hl]
    exact h.closed
  · rw [hl, hc]
    exact h.cwd
  · intro g hg
    rw [hl] at hg
    obtain ⟨hgf, hmem⟩ := Finset.mem_erase.mp hg
    rw [hdrop g hgf]
    exact h.fresh g hmem

theorem Gone.of_embryo (h : x.state = .embryo) : Gone x := by
  intro hs
  rw [h] at hs
  rcases hs with hs | hs <;> nomatch hs

/-- A process that is not running does not count anything of its own. -/
theorem Own.of_dead (h : Own x l) (hlive : l.1.2.live = false)
    (hfresh : ∀ f ∈ l.1.2.fresh, fileRefs x l.1.2 f ≤ fileRefs y l.1.2 f) : Own y l := by
  obtain ⟨h1, h2, h3, h4, h5, h6⟩ := h.dead hlive
  refine ⟨fun hl => ?_, h.dead, fun fd f hs => ?_, h.taken, fun fd f hx => ?_, fun fd hfd => ?_, fun hl => ?_,
    fun f hf => (h.fresh f hf).trans_le (hfresh f hf)⟩
  · exact absurd (hlive.symm.trans hl) nofun
  · exact absurd (h1.symm.trans hs) nofun
  · exact absurd (h3.symm.trans hx) nofun
  · rw [h4] at hfd
    exact absurd hfd (Finset.notMem_empty fd)
  · exact absurd (hlive.symm.trans hl) nofun

variable [Fintype P] {k k' : Kernel S P} {ls : P → Local P} {p : P} {tx : TxState}

section

variable (h : Counted k ls)

include h

/-- A process that is in a call is running. -/
theorem Counted.running (hlive : (ls p).1.2.live = true) : (k.proc p).state = .running :=
  (h.own p).live hlive

/-- What a running process may do with its slot. -/
theorem Counted.running_embryo (hlive : (ls p).1.2.live = true) :
    (k.proc p).state = .embryo → x'.state = .embryo ∧ x'.ofile = (k.proc p).ofile ∧ x'.cwd = (k.proc p).cwd := by
  intro he
  exact absurd (he.symm.trans (h.running hlive)) nofun

theorem Counted.running_gone (hlive : (ls p).1.2.live = true)
    (hx : x'.state = (k.proc p).state) : Gone x' := by
  intro hs
  rw [hx, h.running hlive] at hs
  rcases hs with hs | hs <;> nomatch hs

/-- A process has no more references to an inode than are counted. -/
theorem Counted.count_le (hi : i ≠ 0) (p : P) : (ls p).2.refs.count i ≤ k.ref i := by
  have hsum : inodeRefs (k.proc p) (ls p).2 i ≤ ∑ q, inodeRefs (k.proc q) (ls q).2 i :=
    Finset.single_le_sum (f := fun q => inodeRefs (k.proc q) (ls q).2 i) (fun _ _ => Nat.zero_le _) (Finset.mem_univ p)
  have hinode := h.inode i hi
  unfold inodeRefs at hsum hinode
  omega

/-- The end of a pipe that is to be closed is open. -/
theorem Counted.open_of_closing (hc : (ls p).1.2.closing = some (r, w)) : openEnd k r w = true := by
  have hone : 1 ≤ pipeRefs (ls p).1.2 r w := by
    unfold pipeRefs
    rw [if_pos hc]
    omega
  have hsum : pipeRefs (ls p).1.2 r w ≤ ∑ q, pipeRefs (ls q).1.2 r w :=
    Finset.single_le_sum (f := fun q => pipeRefs (ls q).1.2 r w) (fun _ _ => Nat.zero_le _) (Finset.mem_univ p)
  have hpipe := h.pipe r w
  cases hopen : openEnd k r w with
  | true => rfl
  | false =>
    rw [hopen, Bool.toNat_false] at hpipe
    omega

/-- A process that is being made by somebody is not the one that makes it. -/
theorem Counted.child_ne
    (hc : (ls p).1.2.child = some (q, copied, given)) : q ≠ p ∧ (ls q).1.2.live = false := by
  have hembryo := (h.child p q copied given hc).1
  have hlive : (ls p).1.2.live = true := (h.own p).live_of (.inr (.inr (.inr (.inl (by simp [hc])))))
  constructor
  · rintro rfl
    exact absurd (hembryo.symm.trans (h.running hlive)) nofun
  · by_contra hq
    exact absurd (hembryo.symm.trans (h.running (by simpa using hq))) nofun

end

variable [DecidableEq P]

/-! ## The current directory -/

section

variable (h : Counted k ls)

include h

theorem counted_cwd :
    Counted k (update ls p ((tx, (ls p).1.2), { (ls p).2 with cwd := some (k.proc p).cwd })) := by
  have ho := h.own p
  refine h.move (update_eq_self p k.proc).symm (h.filesAlike rfl) rfl ?_ (fun he => ⟨he, rfl, rfl⟩) (h.gone p)
    rfl (fun _ => rfl) (fun _ _ => rfl) rfl rfl rfl
  refine ⟨ho.live, ho.dead, ho.slot, ho.taken, ho.extra, ho.closed, ?_, ho.fresh⟩
  rintro - c ⟨⟩
  rfl

theorem counted_takeCwd (hlive : (ls p).1.2.live = true) (ht : (ls p).2.taken = false) :
    Counted k (update ls p
      ((tx, (ls p).1.2), { (ls p).2.add (k.proc p).cwd with cwd := none, taken := true })) := by
  have ho := h.own p
  refine h.move (update_eq_self p k.proc).symm (h.filesAlike rfl) rfl ?_ (fun he => ⟨he, rfl, rfl⟩) (h.gone p)
    rfl (fun _ => rfl) (fun i _ => ?_) rfl rfl rfl
  · refine ⟨ho.live, fun hdead => ?_, ho.slot, ho.taken, ho.extra, ho.closed, nofun, ho.fresh⟩
    exact absurd (hdead.symm.trans hlive) nofun
  · -- the reference of `cwd` is now in a variable
    simp only [inodeRefs, ht, Refs.add, Multiset.count_cons, eq_comm (a := i)]
    by_cases hc : (k.proc p).cwd = i <;> simp [hc, add_comm]

theorem counted_setCwd (ht : (ls p).2.taken = true) (hi : i = 0 ∨ i ∈ (ls p).2.refs) :
    Counted (k.setProc p fun x => { x with cwd := i }) (update ls p ((tx, (ls p).1.2),
      if i = 0 then { (ls p).2 with cwd := some 0 } else { (ls p).2.drop i with cwd := some i, taken := false })) := by
  have ho := h.own p
  have hlive : (ls p).1.2.live = true := ho.live_of (.inr (.inr (.inr (.inr ht))))
  set R : Refs := if i = 0 then { (ls p).2 with cwd := some 0 } else { (ls p).2.drop i with cwd := some i, taken := false }
    with hR
  have hcwd : R.cwd = some i := by
    rw [hR]
    split_ifs with hz
    · rw [hz]
    · rfl
  refine h.move rfl (h.filesAlike rfl) rfl ?_ (h.running_embryo hlive) (h.running_gone hlive rfl) rfl (fun _ => rfl)
    (fun j hj => ?_) rfl rfl rfl
  · refine ⟨ho.live, fun hdead => ?_, ho.slot, ho.taken, ho.extra, ho.closed, fun _ c hc => ?_, ho.fresh⟩
    · exact absurd (hdead.symm.trans hlive) nofun
    · exact Option.some.inj (hcwd.symm.trans hc)
  · show k.ref j + inodeRefs (k.proc p) (ls p).2 j = k.ref j + inodeRefs _ R j
    rw [hR]
    split_ifs with hz
    · simp [inodeRefs, ht]
    · have hmem := hi.resolve_left hz
      have hpos := Multiset.count_pos.mpr hmem
      by_cases hij : i = j
      · subst hij
        simp only [inodeRefs, ht, Refs.drop, Multiset.count_erase_self]
        simp
        omega
      · simp [inodeRefs, ht, Refs.drop, hij, Multiset.count_erase_of_ne (Ne.symm hij)]

/-! ## Descriptors -/

/-- The rule for a process in a call that changes descriptor `fd` and what it knows of its descriptors. -/
theorem Counted.onFd (fd : Fin NOFILE) {o : Fin NOFILE → Option (Fin NFILE)} {L : FileState P}
    (hproc : k'.proc = update k.proc p { k.proc p with ofile := o })
    (hk : k'.file = k.file ∧ k'.pipe = k.pipe ∧ k'.ref = k.ref) (hlive : (ls p).1.2.live = true)
    (hL : L = { (ls p).1.2 with
      frefs := L.frefs, slot := L.slot, extra := L.extra, takenFd := L.takenFd, closed := L.closed })
    (hother : ∀ fd', fd' ≠ fd → o fd' = (k.proc p).ofile fd' ∧ (L.Counts fd' ↔ (ls p).1.2.Counts fd'))
    (hcount : ∀ g, fdRef { k.proc p with ofile := o } L g fd + L.frefs.count g =
      fdRef (k.proc p) (ls p).1.2 g fd + (ls p).1.2.frefs.count g)
    (hslot : ∀ fd f, L.slot = some (fd, f) → o fd = some f)
    (htaken : ∀ fd, L.takenFd = some fd → L.slot = none ∧ L.extra = none)
    (hextra : ∀ fd f, L.extra = some (fd, f) → o fd = some f ∧ ∃ fd', L.slot = some (fd', f) ∧ fd' ≠ fd)
    (hclosed : ∀ fd ∈ L.closed, o fd = none) : Counted k' (update ls p ((tx, L), (ls p).2)) := by
  have ho := h.own p
  have hlive' : L.live = true := by
    rw [hL]
    exact hlive
  have hfresh : L.fresh = (ls p).1.2.fresh := by rw [hL]
  have hrefs : ∀ g, fileRefs { k.proc p with ofile := o } L g = fileRefs (k.proc p) (ls p).1.2 g := by
    intro g
    have hchange : fileRefs { k.proc p with ofile := o } L g + fdRef (k.proc p) (ls p).1.2 g fd +
        (ls p).1.2.frefs.count g = fileRefs (k.proc p) (ls p).1.2 g + fdRef { k.proc p with ofile := o } L g fd +
        L.frefs.count g := fileRefs_change (fun fd' hne => (hother fd' hne).1) fun fd' hne => (hother fd' hne).2
    have := hcount g
    omega
  refine h.move hproc (h.filesAlike hk.1) hk.2.1 ?_ (h.running_embryo hlive) (h.running_gone hlive rfl) (by rw [hL])
    hrefs (fun i _ => ?_) (by rw [hL]) (by rw [hL]) hfresh
  · refine ⟨fun _ => ho.live hlive, fun hdead => absurd (hdead.symm.trans hlive') nofun, hslot, htaken, hextra, hclosed,
      fun _ => ho.cwd hlive, fun g hg => ?_⟩
    show 0 < fileRefs { k.proc p with ofile := o } L g
    rw [hrefs]
    exact ho.fresh g (hfresh ▸ hg)
  · rw [hk.2.2]
    rfl

theorem counted_ofile (hlive : (ls p).1.2.live = true)
    (ht : (ls p).1.2.takenFd = none) (he : (ls p).1.2.extra = none) : Counted k (update ls p
      ((tx, { (ls p).1.2 with slot := ((k.proc p).ofile fd).map (fd, ·) }), (ls p).2)) := by
  refine h.onFd fd (update_eq_self p k.proc).symm ⟨rfl, rfl, rfl⟩ hlive rfl (fun _ _ => ⟨rfl, Iff.rfl⟩)
    (fun _ => rfl) (fun fd' f hs => ?_) (fun fd' hfd => ?_) (fun fd' f hx => ?_) (h.own p).closed
  · obtain ⟨g, hg, heq⟩ := Option.map_eq_some_iff.mp hs
    obtain ⟨rfl, rfl⟩ := Prod.mk.inj heq
    exact hg
  · exact absurd (ht.symm.trans hfd) nofun
  · exact absurd (he.symm.trans hx) nofun

theorem counted_takeFd_none (hlive : (ls p).1.2.live = true) (hfd : (k.proc p).ofile fd = none) :
    Counted k (update ls p ((tx, { (ls p).1.2 with closed := insert fd (ls p).1.2.closed }), (ls p).2)) := by
  have ho := h.own p
  refine h.onFd fd (update_eq_self p k.proc).symm ⟨rfl, rfl, rfl⟩ hlive rfl (fun _ _ => ⟨rfl, Iff.rfl⟩)
    (fun _ => rfl) ho.slot ho.taken ho.extra fun fd' hmem => ?_
  rcases Finset.mem_insert.mp hmem with rfl | hmem
  · exact hfd
  · exact ho.closed fd' hmem

theorem counted_takeFd_some (hlive : (ls p).1.2.live = true)
    (ht : (ls p).1.2.takenFd = none) (hs : (ls p).1.2.slot = none) (he : (ls p).1.2.extra = none)
    (hfd : (k.proc p).ofile fd = some f) : Counted k (update ls p
      ((tx, { (ls p).1.2 with frefs := f ::ₘ (ls p).1.2.frefs, takenFd := some fd }), (ls p).2)) := by
  have ho := h.own p
  refine h.onFd fd (update_eq_self p k.proc).symm ⟨rfl, rfl, rfl⟩ hlive rfl (fun fd' hne => ⟨rfl, ?_⟩)
    (fun g => ?_) ho.slot (fun _ _ => ⟨hs, he⟩) ho.extra ho.closed
  · simp [FileState.Counts, ht, he, Ne.symm hne]
  · -- the reference of the descriptor is now in a variable
    have hold : fdRef (k.proc p) (ls p).1.2 g fd = if f = g then 1 else 0 := by
      simp [fdRef, hfd, FileState.counts_of_none ht he fd]
    rw [hold, Multiset.count_cons]
    simp [fdRef, FileState.Counts, add_comm, eq_comm]

theorem counted_clearFd (he : (ls p).1.2.extra = none)
    (hfd : (ls p).1.2.takenFd = some fd ∨ ∃ f, (ls p).1.2.slot = some (fd, f)) :
    Counted (k.setProc p fun x => { x with ofile := update x.ofile fd none })
      (update ls p ((tx, (ls p).1.2.clearFd fd), (ls p).2)) := by
  have ho := h.own p
  have hlive : (ls p).1.2.live = true := by
    refine ho.live_of ?_
    rcases hfd with hfd | ⟨f, hfd⟩
    · exact .inr (.inl (by simp [hfd]))
    · exact .inl (by simp [hfd])
  set o := update (k.proc p).ofile fd none with hodef
  have hnone : o fd = none := update_self ..
  have hne : ∀ fd', fd' ≠ fd → o fd' = (k.proc p).ofile fd' := fun fd' h' => update_of_ne h' ..
  have hclosed : ∀ fd' ∈ insert fd (ls p).1.2.closed, o fd' = none := by
    intro fd' hmem
    by_cases heq : fd' = fd
    · rw [heq, hnone]
    · rw [hne fd' heq]
      exact ho.closed fd' ((Finset.mem_insert.mp hmem).resolve_left heq)
  have hzero : ∀ (L : FileState P) g, fdRef { k.proc p with ofile := o } L g fd = 0 :=
    fun L g => if_neg fun hc => by simp [hnone] at hc
  by_cases ht : (ls p).1.2.takenFd = some fd
  · -- the descriptor did not count
    have hslot := (ho.taken fd ht).1
    rw [FileState.clearFd, if_pos ht]
    refine h.onFd fd rfl ⟨rfl, rfl, rfl⟩ hlive rfl (fun fd' hfd' => ⟨hne fd' hfd', ?_⟩) (fun g => ?_)
      (fun fd' f hs => ?_) (by simp) (fun fd' f hx => ?_) hclosed
    · simp [FileState.Counts, ht, he, Ne.symm hfd']
    · have hold : fdRef (k.proc p) (ls p).1.2 g fd = 0 := if_neg fun hc => hc.2.1 ht
      rw [hzero, hold]
    · exact absurd (hslot.symm.trans hs) (by simp)
    · exact absurd (he.symm.trans hx) (by simp)
  · -- its reference is now in a variable
    obtain ⟨f, hs⟩ := hfd.resolve_left ht
    have htaken : (ls p).1.2.takenFd = none := by
      by_contra hsome
      obtain ⟨fd', hfd'⟩ := Option.ne_none_iff_exists'.mp hsome
      exact absurd ((ho.taken fd' hfd').1.symm.trans hs) (by simp)
    have hold : ∀ g, fdRef (k.proc p) (ls p).1.2 g fd = if f = g then 1 else 0 := fun g => by
      simp [fdRef, ho.slot fd f hs, FileState.counts_of_none htaken he fd]
    rw [FileState.clearFd, if_neg ht, hs]
    refine h.onFd fd rfl ⟨rfl, rfl, rfl⟩ hlive rfl (fun fd' hfd' => ⟨hne fd' hfd', Iff.rfl⟩) (fun g => ?_) (by simp)
      (fun fd' hfd' => ?_) (fun fd' f hx => ?_) hclosed
    · rw [hzero, hold, zero_add]
      show ({f} + (ls p).1.2.frefs).count g = _
      rw [Multiset.count_add, Multiset.count_singleton]
      simp only [eq_comm (a := g)]
    · exact absurd (htaken.symm.trans hfd') (by simp)
    · exact absurd (he.symm.trans hx) (by simp)

theorem counted_fdalloc (hlive : (ls p).1.2.live = true)
    (ht : (ls p).1.2.takenFd = none) (he : (ls p).1.2.extra = none)
    (hf : f ∈ (ls p).1.2.frefs ∨ ∃ fd', (ls p).1.2.slot = some (fd', f)) (hfd : (k.proc p).ofile fd = none) :
    Counted (k.setProc p fun x => { x with ofile := update x.ofile fd (some f) })
      (update ls p ((tx, (ls p).1.2.fdalloc f fd), (ls p).2)) := by
  have ho := h.own p
  set o := update (k.proc p).ofile fd (some f) with hodef
  have hsome : o fd = some f := update_self ..
  have hne : ∀ fd', fd' ≠ fd → o fd' = (k.proc p).ofile fd' := fun fd' h' => update_of_ne h' ..
  have hold : ∀ g, fdRef (k.proc p) (ls p).1.2 g fd = 0 := fun g => if_neg fun hc => by simp [hfd] at hc
  by_cases hmem : f ∈ (ls p).1.2.frefs
  · -- the descriptor takes over the reference
    rw [FileState.fdalloc, if_pos hmem]
    refine h.onFd fd rfl ⟨rfl, rfl, rfl⟩ hlive rfl (fun fd' hfd' => ⟨hne fd' hfd', Iff.rfl⟩) (fun g => ?_)
      (fun fd' g hs => ?_) (fun fd' hfd' => ?_) (fun fd' g hx => ?_) fun fd' hc => ?_
    · have hpos := Multiset.count_pos.mpr hmem
      rw [hold]
      by_cases hg : g = f
      · subst hg
        simp [fdRef, FileState.Counts, ht, he]
        omega
      · simp [fdRef, Ne.symm hg, Multiset.count_erase_of_ne hg]
    · obtain ⟨rfl, rfl⟩ := Prod.mk.inj (Option.some.inj hs)
      exact hsome
    · exact absurd (ht.symm.trans hfd') (by simp)
    · exact absurd (he.symm.trans hx) (by simp)
    · exact absurd hc (Finset.notMem_empty fd')
  · -- the descriptor of `dup` does not count yet
    obtain ⟨fd0, hs⟩ := hf.resolve_left hmem
    have hslot : ∀ fd' g, (ls p).1.2.slot = some (fd', g) → fd' ≠ fd := by
      rintro fd' g hs' rfl
      exact absurd ((ho.slot fd' g hs').symm.trans hfd) (by simp)
    rw [FileState.fdalloc, if_neg hmem]
    refine h.onFd fd rfl ⟨rfl, rfl, rfl⟩ hlive rfl (fun fd' hfd' => ⟨hne fd' hfd', ?_⟩) (fun g => ?_)
      (fun fd' g hs' => ?_) (fun fd' hfd' => ?_) (fun fd' g hx => ?_) fun fd' hc => ?_
    · simp [FileState.Counts, ht, he, Ne.symm hfd']
    · have hnew : fdRef { k.proc p with ofile := o } { (ls p).1.2 with extra := some (fd, f), closed := ∅ } g fd = 0 :=
        if_neg fun hc => hc.2.2 rfl
      rw [hold, hnew]
    · exact (hne fd' (hslot fd' g hs')).trans (ho.slot fd' g hs')
    · exact absurd (ht.symm.trans hfd') (by simp)
    · obtain ⟨rfl, rfl⟩ := Prod.mk.inj (Option.some.inj hx)
      exact ⟨hsome, fd0, hs, hslot fd0 f hs⟩
    · exact absurd hc (Finset.notMem_empty fd')

/-! ## The file table -/

theorem counted_filealloc (hf : (k.file f).ref = 0) :
    Counted (k.setFile f { k.file f with ref := 1 }) (update ls p
      ((tx, { (ls p).1.2 with fresh := insert f (ls p).1.2.fresh, frefs := f ::ₘ (ls p).1.2.frefs }), (ls p).2)) := by
  have ho := h.own p
  have htype := (h.shape f).none hf
  set L : FileState P :=
    { (ls p).1.2 with fresh := insert f (ls p).1.2.fresh, frefs := f ::ₘ (ls p).1.2.frefs } with hL
  have hsame : ∀ g, fileRefs (k.proc p) L g + (ls p).1.2.frefs.count g =
      fileRefs (k.proc p) (ls p).1.2 g + (f ::ₘ (ls p).1.2.frefs).count g := fun g => fileRefs_same rfl rfl rfl
  have hother : ∀ g, g ≠ f → fileRefs (k.proc p) L g = fileRefs (k.proc p) (ls p).1.2 g := by
    intro g hg
    have := hsame g
    rw [Multiset.count_cons_of_ne hg] at this
    omega
  -- nobody has the file
  have hunused : ∀ q, f ∉ (ls q).1.2.fresh := by
    intro q hmem
    have := (h.own q).fresh f hmem
    rw [h.no_refs hf q] at this
    omega
  refine h.onFile rfl rfl rfl rfl ?_ rfl ?_ hother (fun i _ => ?_) (fun r w => ?_) ?_ (fun g hg => ?_) (fun _ => ?_)
    fun _ _ _ => htype
  · refine ⟨ho.live, ho.dead, ho.slot, ho.taken, ho.extra, ho.closed, ho.cwd, fun g hg => ?_⟩
    show 0 < fileRefs (k.proc p) L g
    by_cases hgf : g = f
    · subst hgf
      exact fileRefs_pos_of_mem (Multiset.mem_cons_self g _)
    · rw [hother g hgf]
      exact ho.fresh g ((Finset.mem_insert.mp hg).resolve_left hgf)
  · have := hsame f
    rw [Multiset.count_cons_self] at this
    show 1 + fileRefs (k.proc p) (ls p).1.2 f = (k.file f).ref + fileRefs (k.proc p) L f
    omega
  · simp [opens, htype]
  · simp [ends, htype, pipeRefs, hL]
  · exact ⟨(by simp), fun r hr => absurd (htype.symm.trans hr) (by simp), (h.shape f).off⟩
  · exact Finset.mem_insert.mp hg
  · exact ⟨htype, .inr hunused⟩

theorem counted_filedup (he : (ls p).1.2.extra = some (fd, f)) (hpos : 0 < (k.file f).ref) :
    Counted (k.setFile f { k.file f with ref := (k.file f).ref + 1 }) (update ls p
      ((tx, { (ls p).1.2 with extra := none }), (ls p).2)) := by
  have ho := h.own p
  obtain ⟨hofile, -⟩ := ho.extra fd f he
  have ht : (ls p).1.2.takenFd = none := by
    by_contra hsome
    obtain ⟨fd', hfd'⟩ := Option.ne_none_iff_exists'.mp hsome
    exact absurd ((ho.taken fd' hfd').2.symm.trans he) (by simp)
  set L : FileState P := { (ls p).1.2 with extra := none } with hL
  -- the descriptor counts now
  have hchange : ∀ g, fileRefs (k.proc p) L g = fileRefs (k.proc p) (ls p).1.2 g + fdRef (k.proc p) L g fd := by
    intro g
    have hrefs : fileRefs (k.proc p) L g + fdRef (k.proc p) (ls p).1.2 g fd + (ls p).1.2.frefs.count g =
        fileRefs (k.proc p) (ls p).1.2 g + fdRef (k.proc p) L g fd + L.frefs.count g := by
      refine fileRefs_change (fun _ _ => rfl) fun fd' hfd' => ?_
      simp [FileState.Counts, hL, he, Ne.symm hfd']
    have hold : fdRef (k.proc p) (ls p).1.2 g fd = 0 := if_neg fun hc => hc.2.2 (by rw [he]; rfl)
    have hcount : L.frefs.count g = (ls p).1.2.frefs.count g := rfl
    rw [hold, hcount] at hrefs
    omega
  have hpos' : 0 < (k.file f).ref + 1 := by omega
  have hcounts : L.Counts fd := by simp [FileState.Counts, hL, ht]
  refine h.onFile rfl rfl rfl rfl ?_ rfl ?_ (fun g hg => ?_) (fun i _ => ?_) (fun r w => ?_) ?_ (fun g hg => .inr hg)
    (fun hmem => ⟨h.fresh p f hmem, .inl hmem⟩) fun q _ hmem => h.fresh q f hmem
  · refine ⟨ho.live, fun hdead => ?_, ho.slot, fun fd' hfd' => ⟨(ho.taken fd' hfd').1, rfl⟩, (by simp), ho.closed, ho.cwd,
      fun g hg => ?_⟩
    · obtain ⟨h1, h2, -, h4⟩ := ho.dead hdead
      exact ⟨h1, h2, rfl, h4⟩
    · show 0 < fileRefs (k.proc p) L g
      rw [hchange]
      exact Nat.add_pos_left (ho.fresh g hg) _
  · have hone : fdRef (k.proc p) L f fd = 1 := if_pos ⟨hofile, hcounts⟩
    show (k.file f).ref + 1 + fileRefs (k.proc p) (ls p).1.2 f = (k.file f).ref + fileRefs (k.proc p) L f
    rw [hchange, hone]
    omega
  · have hzero : fdRef (k.proc p) L g fd = 0 := if_neg fun hc => hg (Option.some.inj (hofile.symm.trans hc.1)).symm
    rw [hchange, hzero, add_zero]
  · simp [opens, hpos, hpos']
  · simp [ends, hpos, hpos', pipeRefs, hL]
  · exact ⟨(by simp), (h.shape f).side, (h.shape f).off⟩

theorem counted_fileDec (hf : f ∈ (ls p).1.2.frefs)
    (hclosing : (ls p).1.2.closing = none) (hmany : 0 < (k.file f).ref - 1) :
    Counted (k.setFile f { k.file f with ref := (k.file f).ref - 1 }) (update ls p
      ((tx, { (ls p).1.2 with
        frefs := (ls p).1.2.frefs.erase f
        fresh := (ls p).1.2.fresh.erase f
        closing := none }), (ls p).2)) := by
  have hpos : 0 < (k.file f).ref := by omega
  set L : FileState P := { (ls p).1.2 with
    frefs := (ls p).1.2.frefs.erase f
    fresh := (ls p).1.2.fresh.erase f
    closing := none } with hL
  have hdrop := fileRefs_drop (x := k.proc p) (l := (ls p).1.2) (f := f) hf (show L.takenFd = _ from rfl) rfl rfl
  have hown : Own (k.proc p) ((tx, L), (ls p).2) := (h.own p).fileDec hf rfl rfl rfl
  refine h.onFile rfl rfl rfl rfl hown rfl ?_ hdrop.2 (fun i _ => ?_) (fun r w => ?_) ?_
    (fun g hg => .inr (Finset.mem_of_mem_erase hg)) (fun hmem => absurd hmem (Finset.notMem_erase f _))
    fun q _ hmem => h.fresh q f hmem
  · have := hdrop.1
    show (k.file f).ref - 1 + fileRefs (k.proc p) (ls p).1.2 f = (k.file f).ref + fileRefs (k.proc p) L f
    omega
  · simp [opens, hpos, hmany]
  · simp only [ends, hpos, hmany, pipeRefs, hclosing, hL]
  · exact ⟨fun hz => absurd hz (by simpa using hmany.ne'), (h.shape f).side, (h.shape f).off⟩

theorem counted_fileDec_last (hf : f ∈ (ls p).1.2.frefs)
    (hclosing : (ls p).1.2.closing = none) (hone : (k.file f).ref = 1) :
    Counted (k.setFile f { k.file f with ref := 0, type := .none }) (update ls p
      ((tx, { (ls p).1.2 with
        frefs := (ls p).1.2.frefs.erase f
        fresh := (ls p).1.2.fresh.erase f
        closing := (k.file f).pipeEnd }), (ls p).2.addType (k.file f).type)) := by
  set L : FileState P := { (ls p).1.2 with
    frefs := (ls p).1.2.frefs.erase f
    fresh := (ls p).1.2.fresh.erase f
    closing := (k.file f).pipeEnd } with hL
  have hdrop := fileRefs_drop (x := k.proc p) (l := (ls p).1.2) (f := f) hf (show L.takenFd = _ from rfl) rfl rfl
  have hown : Own (k.proc p) ((tx, L), (ls p).2.addType (k.file f).type) := by
    refine (h.own p).fileDec hf rfl ?_ ?_ <;> cases (k.file f).type <;> rfl
  refine h.onFile rfl rfl rfl rfl hown rfl ?_ hdrop.2 (fun i _ => ?_) (fun r w => ?_) ?_
    (fun g hg => .inr (Finset.mem_of_mem_erase hg)) (fun hmem => absurd hmem (Finset.notMem_erase f _)) fun _ _ _ => rfl
  · have := hdrop.1
    show 0 + fileRefs (k.proc p) (ls p).1.2 f = (k.file f).ref + fileRefs (k.proc p) L f
    omega
  · -- the reference of the file is now in a variable
    cases htype : (k.file f).type with
    | none | pipe r => simp [opens, htype, Refs.addType]
    | inode j =>
      have hsame : inodeRefs (k.proc p) ((ls p).2.add j) i + (ls p).2.refs.count i =
          inodeRefs (k.proc p) (ls p).2 i + ((ls p).2.add j).refs.count i := by
        apply inodeRefs_same <;> rfl
      have hcount : ((ls p).2.add j).refs.count i = (ls p).2.refs.count i + if i = j then 1 else 0 :=
        Multiset.count_cons i j _
      have hopens := opens_inode (show 0 < (k.file f).ref by omega) htype i
      have hclosed : opens { k.file f with ref := 0, type := .none } i = 0 := if_neg fun hc => absurd hc.1 (lt_irrefl 0)
      rw [hopens, hclosed]
      show _ + inodeRefs (k.proc p) (ls p).2 i = 0 + inodeRefs (k.proc p) ((ls p).2.add j) i
      omega
  · -- and so is the end of the pipe
    cases htype : (k.file f).type with
    | none | inode j => simp [ends, htype, pipeRefs, hclosing, hL, File.pipeEnd]
    | pipe q =>
      simp only [ends, hone, htype, pipeRefs, hclosing, hL, File.pipeEnd]
      simp
  · exact ⟨fun _ => rfl, (by simp), (h.shape f).off⟩

theorem counted_setFile {readable writable : Bool}
    (hf : f ∈ (ls p).1.2.fresh) (hi : i ∈ (ls p).2.refs) :
    Counted (k.setFile f { k.file f with type := .inode i, off := 0, readable, writable }) (update ls p
      ((tx, { (ls p).1.2 with fresh := (ls p).1.2.fresh.erase f }), (ls p).2.drop i)) := by
  have ho := h.own p
  have htype := h.fresh p f hf
  have hpos := h.ref_pos (ho.fresh f hf)
  refine h.onFile rfl rfl rfl rfl ?_ rfl rfl (fun _ _ => rfl) (fun j _ => ?_) (fun r w => ?_) ?_
    (fun g hg => .inr (Finset.mem_of_mem_erase hg)) (fun hmem => absurd hmem (Finset.notMem_erase f _))
    fun q hq hmem => absurd (h.disjoint q p f hmem hf) hq
  · refine ⟨ho.live, ho.dead, ho.slot, ho.taken, ho.extra, ho.closed, ho.cwd, fun g hg => ?_⟩
    exact ho.fresh g (Finset.mem_of_mem_erase hg)
  · -- the file takes over the reference
    have hopens : opens { k.file f with type := .inode i, off := 0, readable, writable } j = if j = i then 1 else 0 := by
      apply opens_inode
      · exact hpos
      · rfl
    rw [opens_eq_zero (by simp [htype]), hopens]
    show 0 + inodeRefs (k.proc p) (ls p).2 j = _ + inodeRefs (k.proc p) ((ls p).2.drop i) j
    rw [← inodeRefs_drop hi, Nat.zero_add, Nat.add_comm]
  · simp [ends, htype, pipeRefs]
  · exact ⟨fun hz => absurd hz hpos.ne', (by simp), Nat.two_pow_pos 32⟩

/-! ## Pipes -/

/-- The rule for a step that changes one pipe. -/
theorem Counted.onPipe {o : Option PipeEnds} {n : Option ℕ} {c : Option (ℕ × Bool)}
    (hthis : ∀ v, (isOpen o v).toNat + pipeRefs (ls p).1.2 r v =
      (openEnd k r v).toNat + pipeRefs { (ls p).1.2 with newPipe := n, closing := c } r v)
    (hother : ∀ q v, q ≠ r → pipeRefs { (ls p).1.2 with newPipe := n, closing := c } q v = pipeRefs (ls p).1.2 q v)
    (hused : ∀ e, o = some e → e.readopen = true ∨ e.writeopen = true) :
    Counted (k.setPipe r o) (update ls p ((tx, { (ls p).1.2 with newPipe := n, closing := c }), (ls p).2)) := by
  have ho := h.own p
  refine h.step (update_eq_self p k.proc).symm ?_ (fun he => ⟨he, rfl, rfl⟩) (h.gone p) rfl (fun _ => rfl)
    (fun _ _ => rfl) (fun q v => ?_) h.shape (fun q e he => ?_) (fun q f hmem => ?_) fun f hmem hnot => absurd hmem hnot
  · exact ⟨ho.live, ho.dead, ho.slot, ho.taken, ho.extra, ho.closed, ho.cwd, ho.fresh⟩
  · show (isOpen (update k.pipe r o q) v).toNat + (∑ f, ends (k.file f) q v) + _ = _
    by_cases hq : q = r
    · rw [hq, update_self, add_right_comm, hthis v, add_right_comm]
      rfl
    · rw [update_of_ne hq, ← hother q v hq]
      rfl
  · replace he : update k.pipe r o q = some e := he
    by_cases hq : q = r
    · rw [hq, update_self] at he
      exact hused e he
    · rw [update_of_ne hq] at he
      exact h.used q e he
  · by_cases hq : q = p
    · rw [hq, update_self] at hmem
      exact h.fresh p f hmem
    · rw [update_of_ne hq] at hmem
      exact h.fresh q f hmem

theorem counted_kallocPipe (hr : k.pipe r = none) (hnew : (ls p).1.2.newPipe = none) :
    Counted (k.setPipe r (some ⟨true, true⟩)) (update ls p
      ((tx, { (ls p).1.2 with newPipe := some r }), (ls p).2)) := by
  refine h.onPipe (fun v => ?_) (fun q v hq => ?_) ?_
  · simp only [openEnd, hr, isOpen, pipeRefs, hnew]
    cases v <;> simp [add_comm]
  · simp [pipeRefs, hnew, Ne.symm hq]
  · rintro e ⟨⟩
    exact .inl rfl

theorem counted_pipeclose {e : PipeEnds} (hc : (ls p).1.2.closing = some (r, w))
    (he : k.pipe r = some e) :
    Counted (k.setPipe r (e.close w)) (update ls p ((tx, { (ls p).1.2 with closing := none }), (ls p).2)) := by
  have hopen := h.open_of_closing hc
  refine h.onPipe (fun v => ?_) (fun q v hq => ?_) (used_close e w)
  · rw [openEnd, he] at hopen ⊢
    rw [isOpen_close]
    by_cases hv : v = w
    · simp [hv, hopen, pipeRefs, hc]
    · simp [hv, pipeRefs, hc, Ne.symm hv]
  · simp [pipeRefs, hc, Ne.symm hq]

/-- Two files become the ends of the new pipe. -/
theorem counted_setPipe {rf wf : Fin NFILE} {page : ℕ} (hrf : rf ∈ (ls p).1.2.fresh)
    (hwf : wf ∈ (ls p).1.2.fresh) (hne : rf ≠ wf) (hnew : (ls p).1.2.newPipe = some page) :
    Counted ((k.setFile rf { k.file rf with type := .pipe page, readable := true, writable := false }).setFile wf
        { k.file wf with type := .pipe page, readable := false, writable := true })
      (update ls p ((tx, { (ls p).1.2 with
        fresh := ((ls p).1.2.fresh.erase rf).erase wf
        newPipe := none }), (ls p).2)) := by
  have ho := h.own p
  set a : File := { k.file rf with type := .pipe page, readable := true, writable := false } with ha
  set b : File := { k.file wf with type := .pipe page, readable := false, writable := true } with hb
  set k' := (k.setFile rf a).setFile wf b with hk'
  have hposr := h.ref_pos (ho.fresh rf hrf)
  have hposw := h.ref_pos (ho.fresh wf hwf)
  have hr : k'.file rf = a := by simp [hk', Kernel.setFile, update_of_ne hne]
  have hw : k'.file wf = b := by simp [hk', Kernel.setFile]
  have hother : ∀ g, g ≠ rf → g ≠ wf → k'.file g = k.file g := by
    intro g h1 h2
    simp [hk', Kernel.setFile, update_of_ne h1, update_of_ne h2]
  have hfile : ∀ g, g = rf ∨ g = wf ∨ k'.file g = k.file g := by
    intro g
    by_cases h1 : g = rf
    · exact .inl h1
    · by_cases h2 : g = wf
      · exact .inr (.inl h2)
      · exact .inr (.inr (hother g h1 h2))
  -- two terms of a sum over the files change
  have hsum : ∀ F : File → ℕ, (∑ g, F (k'.file g)) + F (k.file rf) + F (k.file wf) = (∑ g, F (k.file g)) + F a + F b := by
    intro F
    have h1 := sum_add_of_ne (f := fun g => F (k'.file g)) (g := fun g => F ((k.setFile rf a).file g)) (a := wf) fun g hg => by
      simp [hk', Kernel.setFile, update_of_ne hg]
    have h2 := sum_add_of_ne (f := fun g => F ((k.setFile rf a).file g)) (g := fun g => F (k.file g)) (a := rf) fun g hg => by
      simp [Kernel.setFile, update_of_ne hg]
    have h3 : (k.setFile rf a).file wf = k.file wf := by simp [Kernel.setFile, update_of_ne hne.symm]
    have h4 : (k.setFile rf a).file rf = a := by simp [Kernel.setFile]
    simp only [hw, h3, h4] at h1 h2
    omega
  have htr := h.fresh p rf hrf
  have htw := h.fresh p wf hwf
  refine h.step (update_eq_self p k.proc).symm ?_ (fun he => ⟨he, rfl, rfl⟩) (h.gone p) rfl (fun g => ?_)
    (fun i _ => ?_) (fun q v => ?_) (fun g => ?_) h.used (fun q g hmem => ?_) fun g hmem hnot => ?_
  · refine ⟨ho.live, ho.dead, ho.slot, ho.taken, ho.extra, ho.closed, ho.cwd, fun g hg => ?_⟩
    exact ho.fresh g (Finset.mem_of_mem_erase (Finset.mem_of_mem_erase hg))
  · have href : (k'.file g).ref = (k.file g).ref := by
      rcases hfile g with rfl | rfl | hg
      · rw [hr]
      · rw [hw]
      · rw [hg]
    rw [href]
    rfl
  · have hs := hsum fun x => opens x i
    have h1 : opens (k.file rf) i = 0 := opens_eq_zero (by simp [htr]) i
    have h2 : opens (k.file wf) i = 0 := opens_eq_zero (by simp [htw]) i
    have h3 : opens a i = 0 := opens_eq_zero (by simp [ha]) i
    have h4 : opens b i = 0 := opens_eq_zero (by simp [hb]) i
    rw [h1, h2, h3, h4] at hs
    show k.ref i + _ + inodeRefs (k.proc p) (ls p).2 i = k.ref i + _ + inodeRefs (k.proc p) (ls p).2 i
    omega
  · have hs := hsum fun x => ends x q v
    have h1 : ends (k.file rf) q v = 0 := ends_eq_zero (by simp [htr]) q v
    have h2 : ends (k.file wf) q v = 0 := ends_eq_zero (by simp [htw]) q v
    have h3 : ends a q v = if (page, false) = (q, v) then 1 else 0 := @ends_pipe a page hposr rfl q v
    have h4 : ends b q v = if (page, true) = (q, v) then 1 else 0 := @ends_pipe b page hposw rfl q v
    rw [h1, h2, h3, h4] at hs
    show (openEnd k q v).toNat + (∑ f, ends (k.file f) q v) + pipeRefs (ls p).1.2 q v =
      (openEnd k q v).toNat + (∑ f, ends (k'.file f) q v) + pipeRefs { (ls p).1.2 with
        fresh := ((ls p).1.2.fresh.erase rf).erase wf
        newPipe := none } q v
    simp only [pipeRefs, hnew]
    by_cases hq : page = q <;> cases v <;> simp [hq] at hs ⊢ <;> omega
  · rcases hfile g with rfl | rfl | hg
    · rw [hr]
      exact ⟨fun hz => absurd hz hposr.ne', fun _ _ => rfl, (h.shape g).off⟩
    · rw [hw]
      exact ⟨fun hz => absurd hz hposw.ne', fun _ _ => rfl, (h.shape g).off⟩
    · rw [hg]
      exact h.shape g
  · -- nobody else has these files
    have hold : (g ≠ rf ∧ g ≠ wf) ∧ g ∈ (ls q).1.2.fresh := by
      by_cases hq : q = p
      · subst hq
        rw [update_self] at hmem
        obtain ⟨h1, hmem⟩ := Finset.mem_erase.mp hmem
        obtain ⟨h2, hmem⟩ := Finset.mem_erase.mp hmem
        exact ⟨⟨h2, h1⟩, hmem⟩
      · rw [update_of_ne hq] at hmem
        refine ⟨⟨?_, ?_⟩, hmem⟩
        · rintro rfl
          exact hq (h.disjoint q p g hmem hrf)
        · rintro rfl
          exact hq (h.disjoint q p g hmem hwf)
    rw [hother g hold.1.1 hold.1.2]
    exact h.fresh q g hold.2
  · exact absurd (Finset.mem_of_mem_erase (Finset.mem_of_mem_erase hmem)) hnot

/-! ## Processes -/

theorem counted_die (hlive : (ls p).1.2.live = true) (hclosed : ∀ fd, fd ∈ (ls p).1.2.closed)
    (hslot : (ls p).1.2.slot = none) (hdone : (ls p).1.2.Done) (hcwd : (ls p).2.cwd = some 0) :
    Counted (k.setProc p fun x => { x with state := .zombie }) (update ls p
      ((tx, { (ls p).1.2 with live := false, closed := ∅ }), { (ls p).2 with cwd := none, taken := false })) := by
  have ho := h.own p
  have hzero : (k.proc p).cwd = 0 := ho.cwd hlive 0 hcwd
  refine h.move rfl (h.filesAlike rfl) rfl ?_ (h.running_embryo hlive) ?_ rfl
    (fun _ => fileRefs_congr rfl rfl rfl rfl) (fun i hi => ?_) rfl rfl rfl
  · refine ⟨nofun, fun _ => ⟨hslot, hdone.takenFd, hdone.extra, rfl, hdone.child, rfl⟩, ho.slot, ho.taken, ho.extra, ?_,
      nofun, fun f hf => ?_⟩
    · exact fun fd hfd => absurd hfd (Finset.notMem_empty fd)
    · have hempty : (ls p).1.2.fresh = ∅ := hdone.fresh
      rw [hempty] at hf
      exact absurd hf (Finset.notMem_empty f)
  · exact fun _ => ⟨fun fd => ho.closed fd (hclosed fd), hzero⟩
  · show k.ref i + inodeRefs (k.proc p) (ls p).2 i = k.ref i + _
    simp [inodeRefs, hzero, Ne.symm hi]

end

/-- The same file as far as inodes and pipes are concerned. -/
structure FileAlike (ff' ff : File) : Prop where
  open_iff : 0 < ff'.ref ↔ 0 < ff.ref
  type : ff'.type = ff.type
  readable : ff'.readable = ff.readable
  writable : ff'.writable = ff.writable
  off : ff'.off = ff.off

variable {ff' ff : File} {state : ProcState}

theorem FileAlike.opens (h : FileAlike ff' ff) (i : ℕ) : opens ff' i = opens ff i := by
  simp only [Sys.opens, h.open_iff, h.type]

theorem FileAlike.ends (h : FileAlike ff' ff) (r : ℕ) (w : Bool) : ends ff' r w = ends ff r w := by
  simp only [Sys.ends, h.open_iff, h.type, h.writable]

theorem FileAlike.shape (h : FileAlike ff' ff) (hs : Shape ff) : Shape ff' := by
  have hopen := h.open_iff
  refine ⟨fun hz => ?_, fun r ht => ?_, h.off ▸ hs.off⟩
  · rw [h.type]
    exact hs.none (by omega)
  · rw [h.readable, h.writable]
    exact hs.side r (h.type ▸ ht)

/-- Files may have one reference more. -/
def Grows (k' k : Kernel S P) : Prop :=
  ∀ f, k'.file f = k.file f ∨ 0 < (k.file f).ref ∧ k'.file f = { k.file f with ref := (k.file f).ref + 1 }

omit [Fintype P] [DecidableEq P] in
theorem Grows.alike (h : Grows k' k) (f : Fin NFILE) : FileAlike (k'.file f) (k.file f) := by
  rcases h f with hf | ⟨hpos, hf⟩
  · rw [hf]
    exact ⟨Iff.rfl, rfl, rfl, rfl, rfl⟩
  · rw [hf]
    exact ⟨iff_of_true (Nat.succ_pos _) hpos, rfl, rfl, rfl, rfl⟩

omit [Fintype P] [DecidableEq P] in
theorem Grows.ref_le (h : Grows k' k) (f : Fin NFILE) : (k.file f).ref ≤ (k'.file f).ref := by
  rcases h f with hf | ⟨-, hf⟩
  · rw [hf]
  · rw [hf]
    exact Nat.le_succ _

section

variable (h : Counted k ls)

include h

/-- The rule for a step that changes the slot of another process, and the local state of the one that takes it. -/
theorem Counted.stepChild (hne : q ≠ p)
    (hproc : k'.proc = update k.proc q y) (hpipe : k'.pipe = k.pipe) (href : k'.ref = k.ref)
    (hq : Own y (ls q)) (hp : Own (k.proc p) l')
    (hfile : ∀ f, (k'.file f).ref + fileRefs (k.proc q) (ls q).1.2 f + fileRefs (k.proc p) (ls p).1.2 f =
      (k.file f).ref + fileRefs y (ls q).1.2 f + fileRefs (k.proc p) l'.1.2 f)
    (hgrows : Grows k' k)
    (hinode : ∀ i, i ≠ 0 → inodeRefs (k.proc q) (ls q).2 i + inodeRefs (k.proc p) (ls p).2 i =
      inodeRefs y (ls q).2 i + inodeRefs (k.proc p) l'.2 i)
    (hrefs : ∀ r w, pipeRefs l'.1.2 r w = pipeRefs (ls p).1.2 r w)
    (hfresh : l'.1.2.fresh = (ls p).1.2.fresh) (hgone : Gone y)
    (hchild : ∀ p' copied given, (update ls p l' p').1.2.child = some (q, copied, given) →
      p' = p ∧ Making y copied given)
    (hsame : ∀ q' copied given, l'.1.2.child = some (q', copied, given) → q' ≠ q →
      (ls p).1.2.child = some (q', copied, given)) : Counted k' (update ls p l') := by
  have hprocs : ∀ p', p' ≠ q → k'.proc p' = k.proc p' := fun p' hp' => by rw [hproc, update_of_ne hp']
  have hprocq : k'.proc q = y := by rw [hproc, update_self]
  have hlocal : ∀ p', p' ≠ p → update ls p l' p' = ls p' := fun p' hp' => update_of_ne hp' ..
  have hself : update ls p l' p = l' := update_self ..
  -- two terms of a sum over the processes change
  have hsum : ∀ F : Proc → Local P → ℕ, (∑ p', F (k'.proc p') (update ls p l' p')) + F (k.proc q) (ls q) +
      F (k.proc p) (ls p) = (∑ p', F (k.proc p') (ls p')) + F y (ls q) + F (k.proc p) l' := by
    intro F
    have h1 := sum_add_of_ne (f := fun p' => F (k'.proc p') (update ls p l' p'))
      (g := fun p' => F (k'.proc p') (ls p')) (a := p) fun p' hp' => by rw [hlocal p' hp']
    have h2 := sum_add_of_ne (f := fun p' => F (k'.proc p') (ls p')) (g := fun p' => F (k.proc p') (ls p')) (a := q)
      fun p' hp' => by rw [hprocs p' hp']
    simp only [hself, hprocq, hprocs p hne.symm] at h1 h2
    omega
  have hfresh' : ∀ p', (update ls p l' p').1.2.fresh = (ls p').1.2.fresh := by
    intro p'
    by_cases hp' : p' = p
    · rw [hp', hself, hfresh]
    · rw [hlocal p' hp']
  have hold : ∀ p' q' copied given, (update ls p l' p').1.2.child = some (q', copied, given) → q' ≠ q →
      (ls p').1.2.child = some (q', copied, given) := by
    intro p' q' copied given hc hq'
    by_cases hp' : p' = p
    · rw [hp', hself] at hc
      rw [hp']
      exact hsame q' copied given hc hq'
    · rwa [hlocal p' hp'] at hc
  refine ⟨fun p' => ?_, fun f => ?_, fun i hi => ?_, fun r w => ?_, fun f => (hgrows.alike f).shape (h.shape f),
    fun r e => hpipe ▸ h.used r e, fun p' f hf => ?_, fun p' p'' f hf hf' => ?_, fun p' q' copied given hc => ?_,
    fun p' p'' q' c g c' g' hc hc' => ?_, fun p' => ?_⟩
  · by_cases hp' : p' = p
    · rw [hp', hself, hprocs p hne.symm]
      exact hp
    · rw [hlocal p' hp']
      by_cases hq' : p' = q
      · rw [hq', hprocq]
        exact hq
      · rw [hprocs p' hq']
        exact h.own p'
  · have h1 := hsum fun x l => fileRefs x l.1.2 f
    have h2 := h.file f
    have h3 := hfile f
    omega
  · have h1 := hsum fun x l => inodeRefs x l.2 i
    have h2 := h.inode i hi
    have h3 := hinode i hi
    simp only [(hgrows.alike _).opens, href]
    omega
  · have h1 := hsum fun _ l => pipeRefs l.1.2 r w
    have h2 := h.pipe r w
    have h3 := hrefs r w
    simp only [(hgrows.alike _).ends, openEnd, hpipe] at h2 ⊢
    omega
  · rw [hfresh'] at hf
    rw [(hgrows.alike f).type]
    exact h.fresh p' f hf
  · rw [hfresh'] at hf hf'
    exact h.disjoint p' p'' f hf hf'
  · by_cases hq' : q' = q
    · subst hq'
      rw [hprocq]
      exact (hchild p' copied given hc).2
    · rw [hprocs q' hq']
      exact h.child p' q' copied given (hold p' q' copied given hc hq')
  · by_cases hq' : q' = q
    · subst hq'
      rw [(hchild p' c g hc).1, (hchild p'' c' g' hc').1]
    · exact h.single p' p'' q' c g c' g' (hold p' q' c g hc hq') (hold p'' q' c' g' hc' hq')
  · by_cases hq' : p' = q
    · rw [hq', hprocq]
      exact hgone
    · rw [hprocs p' hq']
      exact h.gone p'

/-- A step that changes the state of another process, and who makes it. -/
theorem Counted.setState
    {c : Option (P × Finset (Fin NOFILE) × Bool)} (hne : q ≠ p) (hlive : (ls q).1.2.live = false)
    (hc : (ls p).1.2.live = false → c = none) (hgone : Gone { k.proc q with state := state })
    (hchild : ∀ p' copied given, p' ≠ p → (ls p').1.2.child ≠ some (q, copied, given))
    (hthis : ∀ copied given, c = some (q, copied, given) → Making { k.proc q with state := state } copied given)
    (hsame : ∀ q' copied given, c = some (q', copied, given) → q' ≠ q → (ls p).1.2.child = some (q', copied, given)) :
    Counted (k.setProc q fun x => { x with state := state })
      (update ls p ((tx, { (ls p).1.2 with child := c }), (ls p).2)) := by
  have ho := h.own p
  refine h.stepChild hne rfl rfl rfl ((h.own q).of_dead hlive fun f _ => ?_) ?_ (fun f => ?_) (fun _ => .inl rfl)
    (fun i _ => rfl) (fun _ _ => rfl) rfl hgone ?_ hsame
  · apply le_of_eq
    apply fileRefs_congr <;> rfl
  · refine ⟨ho.live, fun hdead => ?_, ho.slot, ho.taken, ho.extra, ho.closed, ho.cwd, fun f hf => ?_⟩
    · obtain ⟨h1, h2, h3, h4, -, h6⟩ := ho.dead hdead
      exact ⟨h1, h2, h3, h4, hc hdead, h6⟩
    · rw [fileRefs_congr rfl rfl rfl rfl]
      exact ho.fresh f hf
  · have h1 : fileRefs { k.proc q with state := state } (ls q).1.2 f = fileRefs (k.proc q) (ls q).1.2 f :=
      fileRefs_congr rfl rfl rfl rfl
    have h2 : fileRefs (k.proc p) { (ls p).1.2 with child := c } f = fileRefs (k.proc p) (ls p).1.2 f :=
      fileRefs_congr rfl rfl rfl rfl
    rw [h1, h2]
    rfl
  · intro p' copied given hc'
    by_cases hp' : p' = p
    · rw [hp', update_self] at hc'
      exact ⟨hp', hthis copied given hc'⟩
    · rw [update_of_ne hp'] at hc'
      exact absurd hc' (hchild p' copied given hp')

theorem counted_allocproc (hq : (k.proc q).state = .unused) (hlive : (ls p).1.2.live = true)
    (hnone : (ls p).1.2.child = none) : Counted (k.setProc q fun x => { x with state := .embryo })
      (update ls p ((tx, { (ls p).1.2 with child := some (q, ∅, false) }), (ls p).2)) := by
  have hdead : ∀ p', (k.proc p').state = .unused → (ls p').1.2.live = false := by
    intro p' hp'
    by_contra hl
    exact absurd (hp'.symm.trans (h.running (by simpa using hl))) nofun
  have hne : q ≠ p := by
    rintro rfl
    rw [hdead q hq] at hlive
    exact Bool.false_ne_true hlive
  refine h.setState hne (hdead q hq) (fun hl => absurd (hl.symm.trans hlive) nofun) nofun ?_ ?_ ?_
  · intro p' copied given _ hc
    exact absurd ((h.child p' q copied given hc).1.symm.trans hq) nofun
  · rintro copied given hc
    obtain ⟨-, rfl, rfl⟩ : q = q ∧ ∅ = copied ∧ false = given := by simpa using hc
    obtain ⟨hofile, hcwd⟩ := h.gone q (.inl hq)
    exact ⟨rfl, fun fd _ => hofile fd, fun _ => hcwd⟩
  · intro q' copied given hc hq'
    obtain ⟨rfl, -⟩ : q = q' ∧ _ := by simpa using hc
    exact absurd rfl hq'

/-- The new process is given up, or starts. -/
theorem counted_endChild
    (hc : (ls p).1.2.child = some (q, copied, given)) (hgone : Gone { k.proc q with state := state }) :
    Counted (k.setProc q fun x => { x with state := state })
      (update ls p ((tx, { (ls p).1.2 with child := none }), (ls p).2)) := by
  obtain ⟨hne, hdead⟩ := h.child_ne hc
  refine h.setState hne hdead (fun _ => rfl) hgone (fun p' c g hp' hc' => ?_) nofun nofun
  exact hp' (h.single p' p q c g copied given hc' hc)

theorem counted_freeproc (hc : (ls p).1.2.child = some (q, ∅, false)) :
    Counted (k.setProc q fun x => { x with state := .unused })
      (update ls p ((tx, { (ls p).1.2 with child := none }), (ls p).2)) := by
  obtain ⟨-, hofile, hcwd⟩ := h.child p q ∅ false hc
  exact counted_endChild h hc fun _ => ⟨fun fd => hofile fd (Finset.notMem_empty fd), hcwd rfl⟩

theorem counted_runnable (hc : (ls p).1.2.child = some (q, copied, given)) :
    Counted (k.setProc q fun x => { x with state := .running })
      (update ls p ((tx, { (ls p).1.2 with child := none }), (ls p).2)) := by
  refine counted_endChild h hc ?_
  rintro (hs | hs) <;> nomatch hs

/-- `wait` frees the slot of a zombie. -/
theorem counted_reap (hq : (k.proc q).state = .zombie) :
    Counted (k.setProc q fun x => { x with state := .unused }) (update ls p ((tx, (ls p).1.2), (ls p).2)) := by
  have ho := h.own p
  have hdead : (ls q).1.2.live = false := by
    by_contra hl
    exact absurd (hq.symm.trans (h.running (by simpa using hl))) nofun
  have hgone : Gone { k.proc q with state := .unused } := fun _ => h.gone q (.inr hq)
  by_cases hqp : q = p
  · subst hqp
    refine h.move rfl (h.filesAlike rfl) rfl ?_ (fun he => absurd (he.symm.trans hq) nofun) hgone rfl
      (fun _ => fileRefs_congr rfl rfl rfl rfl) (fun _ _ => rfl) rfl rfl rfl
    refine Own.of_dead (x := k.proc q) (ho.alike (.refl _) ⟨rfl, rfl, rfl⟩) hdead fun f _ => le_of_eq ?_
    apply fileRefs_congr <;> rfl
  · have hnot : ∀ p' copied given, (ls p').1.2.child ≠ some (q, copied, given) := by
      intro p' copied given hc
      exact absurd ((h.child p' q copied given hc).1.symm.trans hq) nofun
    have hstep : Counted (k.setProc q fun x => { x with state := .unused })
        (update ls p ((tx, { (ls p).1.2 with child := (ls p).1.2.child }), (ls p).2)) := by
      refine h.setState hqp hdead (fun hl => (ho.dead hl).2.2.2.2.1) hgone (fun p' copied given _ => hnot p' copied given)
        (fun copied given hc => absurd hc (hnot p copied given)) fun _ _ _ hc _ => hc
    exact hstep

/-- The rule for a step that gives something to the process that is being made. -/
theorem Counted.makes {R : Refs} {copied' : Finset (Fin NOFILE)}
    {given' : Bool} (hc : (ls p).1.2.child = some (q, copied, given))
    (hproc : k'.proc = update k.proc q y) (hk : k'.pipe = k.pipe ∧ k'.ref = k.ref) (hgrows : Grows k' k)
    (hR : R.taken = (ls p).2.taken ∧ R.cwd = (ls p).2.cwd) (hmake : Making y copied' given')
    (hfile : ∀ f, (k'.file f).ref + fileRefs (k.proc q) (ls q).1.2 f = (k.file f).ref + fileRefs y (ls q).1.2 f)
    (hinode : ∀ i, i ≠ 0 → inodeRefs (k.proc q) (ls q).2 i + inodeRefs (k.proc p) (ls p).2 i =
      inodeRefs y (ls q).2 i + inodeRefs (k.proc p) R i) :
    Counted k' (update ls p ((tx, { (ls p).1.2 with child := some (q, copied', given') }), R)) := by
  have ho := h.own p
  obtain ⟨hne, hdead⟩ := h.child_ne hc
  have hlive : (ls p).1.2.live = true := ho.live_of (.inr (.inr (.inr (.inl (by simp [hc])))))
  have hsame : ∀ f, fileRefs (k.proc p) { (ls p).1.2 with child := some (q, copied', given') } f =
      fileRefs (k.proc p) (ls p).1.2 f := fun f => fileRefs_congr rfl rfl rfl rfl
  refine h.stepChild hne hproc hk.1 hk.2 ((h.own q).of_dead hdead fun f _ => ?_) ?_ (fun f => ?_) hgrows hinode
    (fun _ _ => rfl) rfl (Gone.of_embryo hmake.1) (fun p' c' g' hc' => ?_) fun q' c' g' hc' hq' => ?_
  · have := hfile f
    have := hgrows.ref_le f
    omega
  · refine ⟨ho.live, fun hd => absurd (hd.symm.trans hlive) nofun, ho.slot, ho.taken, ho.extra, ho.closed,
      fun hl c hR' => ho.cwd hl c (hR.2 ▸ hR'), fun f hf => ?_⟩
    rw [hsame]
    exact ho.fresh f hf
  · rw [hsame]
    have := hfile f
    omega
  · by_cases hp' : p' = p
    · rw [hp', update_self] at hc'
      obtain ⟨-, rfl, rfl⟩ : q = q ∧ copied' = c' ∧ given' = g' := by simpa using hc'
      exact ⟨hp', hmake⟩
    · rw [update_of_ne hp'] at hc'
      exact absurd (h.single p' p q c' g' copied given hc' hc) hp'
  · obtain ⟨rfl, -⟩ : q = q' ∧ _ := by simpa using hc'
    exact absurd rfl hq'

theorem counted_dupFd_none (hc : (ls p).1.2.child = some (q, copied, given)) : Counted k (update ls p
      ((tx, { (ls p).1.2 with child := some (q, insert fd copied, given) }), (ls p).2)) := by
  obtain ⟨hs, hofile, hcwd⟩ := h.child p q copied given hc
  refine h.makes hc (update_eq_self q k.proc).symm ⟨rfl, rfl⟩ (fun _ => .inl rfl) ⟨rfl, rfl⟩ ?_ (fun _ => rfl)
    fun _ _ => rfl
  exact ⟨hs, fun fd' hfd' => hofile fd' fun hmem => hfd' (Finset.mem_insert_of_mem hmem), hcwd⟩

theorem counted_dupFd_some
    (hc : (ls p).1.2.child = some (q, copied, given)) (hfd : fd ∉ copied) (hpos : 0 < (k.file f).ref) :
    Counted ((k.setFile f { k.file f with ref := (k.file f).ref + 1 }).setProc q fun x =>
        { x with ofile := update x.ofile fd (some f) })
      (update ls p ((tx, { (ls p).1.2 with child := some (q, insert fd copied, given) }), (ls p).2)) := by
  obtain ⟨hs, hofile, hcwd⟩ := h.child p q copied given hc
  obtain ⟨-, htaken, hextra, -⟩ := (h.own q).dead (h.child_ne hc).2
  set ff : File := { k.file f with ref := (k.file f).ref + 1 } with hff
  set y : Proc := { k.proc q with ofile := update (k.proc q).ofile fd (some f) } with hy
  have hsome : y.ofile fd = some f := update_self ..
  have hother : ∀ fd', fd' ≠ fd → y.ofile fd' = (k.proc q).ofile fd' := fun fd' h' => update_of_ne h' ..
  -- the descriptor of the child is a new reference
  have hrefs : ∀ g, fileRefs y (ls q).1.2 g = fileRefs (k.proc q) (ls q).1.2 g + if g = f then 1 else 0 := by
    intro g
    have hchange : fileRefs y (ls q).1.2 g + fdRef (k.proc q) (ls q).1.2 g fd + (ls q).1.2.frefs.count g =
        fileRefs (k.proc q) (ls q).1.2 g + fdRef y (ls q).1.2 g fd + (ls q).1.2.frefs.count g :=
      fileRefs_change hother fun _ _ => Iff.rfl
    have hold : fdRef (k.proc q) (ls q).1.2 g fd = 0 := if_neg fun h' => by simp [hofile fd hfd] at h'
    have hnew : fdRef y (ls q).1.2 g fd = if g = f then 1 else 0 := by
      simp [fdRef, hsome, FileState.counts_of_none htaken hextra fd, eq_comm]
    omega
  refine h.makes hc rfl ⟨rfl, rfl⟩ (fun g => ?_) ⟨rfl, rfl⟩ ⟨hs, fun fd' hfd' => ?_, hcwd⟩ (fun g => ?_) fun _ _ => rfl
  · by_cases hg : g = f
    · subst hg
      exact .inr ⟨hpos, update_self ..⟩
    · exact .inl (update_of_ne hg ..)
  · obtain ⟨hne', hnot⟩ : fd' ≠ fd ∧ fd' ∉ copied := by simpa using hfd'
    exact (hother fd' hne').trans (hofile fd' hnot)
  · show (update k.file f ff g).ref + _ = _ + fileRefs y (ls q).1.2 g
    rw [hrefs]
    by_cases hg : g = f
    · subst hg
      rw [update_self, if_pos rfl]
      show (k.file g).ref + 1 + _ = _
      omega
    · rw [update_of_ne hg, if_neg hg, add_zero]

theorem counted_giveCwd (hc : (ls p).1.2.child = some (q, copied, false)) (hi : i ∈ (ls p).2.refs) :
    Counted (k.setProc q fun x => { x with cwd := i }) (update ls p
      ((tx, { (ls p).1.2 with child := some (q, copied, true) }), (ls p).2.drop i)) := by
  have htaken : (ls q).2.taken = false := ((h.own q).dead (h.child_ne hc).2).2.2.2.2.2
  obtain ⟨hs, hofile, hcwd⟩ := h.child p q copied false hc
  have hzero : (k.proc q).cwd = 0 := hcwd rfl
  refine h.makes hc rfl ⟨rfl, rfl⟩ (fun _ => .inl rfl) ⟨rfl, rfl⟩ ⟨hs, hofile, nofun⟩ (fun f => ?_) fun j hj => ?_
  · have hsame : fileRefs { k.proc q with cwd := i } (ls q).1.2 f = fileRefs (k.proc q) (ls q).1.2 f :=
      fileRefs_congr rfl rfl rfl rfl
    rw [hsame]
    rfl
  · -- the child takes over the reference
    have hbefore : inodeRefs (k.proc q) (ls q).2 j = (ls q).2.refs.count j := by
      simp [inodeRefs, hzero, Ne.symm hj]
    have hafter : inodeRefs { k.proc q with cwd := i } (ls q).2 j = (if j = i then 1 else 0) + (ls q).2.refs.count j := by
      simp [inodeRefs, htaken, eq_comm]
    show inodeRefs (k.proc q) (ls q).2 j + _ = inodeRefs { k.proc q with cwd := i } (ls q).2 j +
      inodeRefs (k.proc p) ((ls p).2.drop i) j
    rw [hbefore, hafter, ← inodeRefs_drop hi]
    ac_rfl

end

end Sys

end Xv6
