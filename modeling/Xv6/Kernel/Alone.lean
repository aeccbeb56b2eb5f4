import Xv6.Kernel.Calls

/-!
# Calls on an inode, run alone

Rules for the functions of `fs.c` that take and drop references and locks, when no other process runs. They hold over
any store of inodes; what the store does is a premise.
-/

namespace Xv6.Sys

open Code

variable {S P : Type} [DecidableEq P] {N : ℕ} {st : (op : FsOp) → Code Halt S op.Resp} {p : P} {k : Kernel S P}
  {E : Halt → Kernel S P → Prop} {i : ℕ}

theorem wp_alone_step {a : Act P} {Q : a.Resp → Kernel S P → Prop} :
    Wp (Prog.alone (Kernel.exec N st p .quiet) (step a)) Q E k ↔
      Wp (Kernel.exec N st p .quiet a) Q E k :=
  Prog.wp_alone_perform

theorem wp_alone_fs {op : FsOp} {Q : op.Resp → Kernel S P → Prop} :
    Wp (Prog.alone (Kernel.exec N st p .quiet) (fs op)) Q E k ↔
      Wp (st op) (fun r s => Q r { k with store := s }) (fun e s => E e { k with store := s }) k.store := by
  rw [fs, wp_alone_step]
  exact wp_zoom

variable {Q : Unit → Kernel S P → Prop}

theorem wp_alone_acquire {site : Site} (hlock : k.lock i = none) (hQ : Q () (k.setLock i (some p))) :
    Wp (Prog.alone (Kernel.exec N st p .quiet) (step (.acquire i site))) Q E k := by
  rw [wp_alone_step]
  unfold Wp
  rw [Kernel.run_acquire, hlock]
  exact hQ

theorem wp_alone_ilock (hi : i ≠ 0) (href : 0 < k.ref i) (hlock : k.lock i = none)
    (hload : Wp (st (.load i)) (fun _ s => Q () { k.setLock i (some p) with store := s })
      (fun e s => E e { k.setLock i (some p) with store := s }) k.store) :
    Wp (Prog.alone (Kernel.exec N st p .quiet) (ilock i)) Q E k := by
  rw [ilock, Prog.wp_alone_bind, wp_alone_step]
  show Wp (Prog.alone _ (if i = 0 ∨ k.ref i < 1 then panic .ilock else _)) Q E k
  rw [if_neg (by omega), Prog.wp_alone_bind]
  refine wp_alone_acquire hlock ?_
  rw [wp_alone_fs]
  exact hload

theorem wp_alone_iunlock {q : P} (hi : i ≠ 0) (href : 0 < k.ref i)
    (hlock : k.lock i = some q) (hQ : Q () (k.setLock i none)) :
    Wp (Prog.alone (Kernel.exec N st p .quiet) (iunlock i)) Q E k := by
  rw [iunlock, Prog.wp_alone_bind, wp_alone_step]
  show Wp (Prog.alone _ (step (.ref i .ilock) >>= fun r =>
    if i = 0 ∨ (k.lock i).isSome = false ∨ r < 1 then panic .iunlock else step (.release i .ilock))) Q E k
  rw [Prog.wp_alone_bind, wp_alone_step]
  show Wp (Prog.alone _ (if i = 0 ∨ (k.lock i).isSome = false ∨ k.ref i < 1 then panic .iunlock else
    step (.release i .ilock))) Q E k
  rw [if_neg (by rw [hlock]; simp; omega), wp_alone_step]
  exact hQ

/-- `iput` that frees nothing: the inode has not been read, or it has a link or another reference. -/
theorem wp_alone_iput (hlock : k.lock i = none)
    (hkeep : Wp (st (.isValid i)) (fun valid s => s = k.store ∧ (valid = true →
      Wp (st (.stat i)) (fun x s => s = k.store ∧ (x.nlink = 0 → k.ref i ≠ 1)) (fun _ _ => False) k.store))
      (fun _ _ => False) k.store)
    (hQ : Q () (k.setRef i (k.ref i - 1))) :
    Wp (Prog.alone (Kernel.exec N st p .quiet) (iput i)) Q E k := by
  have hend : Wp (Prog.alone (Kernel.exec N st p .quiet)
      (step (.release i .iput) >>= fun _ => step (.refDec i))) Q E (k.setLock i (some p)) := by
    rw [Prog.wp_alone_bind, wp_alone_step]
    show Wp (Prog.alone (Kernel.exec N st p .quiet) (step (.refDec i))) Q E
      ((k.setLock i (some p)).setLock i none)
    have hback : (k.setLock i (some p)).setLock i none = k := by
      simp only [Kernel.setLock, Function.update_idem]
      rw [← hlock, Function.update_eq_self]
    rw [hback, wp_alone_step]
    exact hQ
  rw [iput, Prog.wp_alone_bind]
  refine wp_alone_acquire hlock ?_
  rw [Prog.wp_alone_bind, iputFree, Prog.wp_alone_bind, unlinked, Prog.wp_alone_bind, wp_alone_fs]
  refine wp_mono hkeep ?_ fun _ _ => False.elim
  rintro valid s ⟨rfl, hstat⟩
  show Wp (Prog.alone _ (if valid = true then _ else _)) _ E (k.setLock i (some p))
  split
  · rename_i hvalid
    rw [Prog.wp_alone_bind, wp_alone_fs]
    refine wp_mono (hstat hvalid) ?_ fun _ _ => False.elim
    rintro x s ⟨rfl, hx⟩
    show Wp (Prog.alone _ (if (x.nlink == 0) = true then _ else _)) _ E (k.setLock i (some p))
    split
    · rename_i hz
      rw [Prog.wp_alone_bind, wp_alone_step]
      show Wp (Prog.alone _ (if k.ref i = 1 then _ else _)) _ E (k.setLock i (some p))
      rw [if_neg (hx (by simpa using hz))]
      exact hend
    · exact hend
  · exact hend

/-- `iget` panics only when the cache is full. -/
theorem wp_alone_iget (hfull : NINODE ≤ k.cached N → E (.panic .igetNoInodes) k)
    (hpos : 0 < k.ref i → Q () (k.setRef i (k.ref i + 1)))
    (hnew : k.ref i = 0 → Wp (st (.invalidate i)) (fun _ s => Q () { k.setRef i (k.ref i + 1) with store := s })
      (fun e s => E e { k.setRef i (k.ref i + 1) with store := s }) k.store) :
    Wp (Prog.alone (Kernel.exec N st p .quiet) (step (.iget i))) Q E k := by
  rw [wp_alone_step]
  have hrun : (Kernel.exec N st p .quiet (.iget i)).run k = if 0 < k.ref i then .ok () (k.setRef i (k.ref i + 1))
      else if NINODE ≤ k.cached N then .error (.panic .igetNoInodes) k
      else (Kernel.onStore (st (.invalidate i))).run (k.setRef i 1) := rfl
  by_cases href : 0 < k.ref i
  · unfold Wp
    rw [hrun, if_pos href]
    exact hpos href
  · rw [if_neg href] at hrun
    by_cases hroom : NINODE ≤ k.cached N
    · unfold Wp
      rw [hrun, if_pos hroom]
      exact hfull hroom
    · rw [if_neg hroom] at hrun
      have hzero : k.ref i = 0 := by omega
      have hwp : Wp (Kernel.onStore (st (.invalidate i))) Q E (k.setRef i (k.ref i + 1)) :=
        wp_zoom.mpr (hnew hzero)
      rw [hzero] at hwp
      unfold Wp at hwp ⊢
      rw [hrun]
      exact hwp

end Xv6.Sys
