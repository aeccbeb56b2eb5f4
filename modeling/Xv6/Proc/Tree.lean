import Xv6.Proc.ExitWait
import Mathlib.Logic.Relation

/-!
# The processes are a tree

Following `parent` from any process ends at init, however `fork`, `exit` and `wait` are interleaved: a process is
younger than its parent, and `exit` hands its children to init, which is older than all of them (`Hist`).
-/

namespace Xv6

namespace Ptable

variable {n : ℕ} {t : Ptable n} {p q : Fin n}

/-- The parents of a process lead to init. -/
theorem Hist.rooted (hh : t.Hist) (hi : t.Inv) (hq : (t.proc q).state ≠ .UNUSED ∧ (t.proc q).state ≠ .EMBRYO) :
    Relation.ReflTransGen (fun q p => (t.proc q).parent = some p) q t.initproc := by
  induction hlife : t.life q using Nat.strong_induction_on generalizing q with
  | _ a ih =>
    by_cases hroot : q = t.initproc
    · rw [hroot]
    · obtain ⟨p, hp⟩ := Option.ne_none_iff_exists'.mp (hi.parented q hq.1 hq.2 hroot)
      have hlive := hi.alive q p hp
      exact .head hp (ih _ (hlife ▸ hh.older q p hp) ⟨hlive.1, hlive.2.1⟩ rfl)

theorem Hist.life_lt (hh : t.Hist) (hd : Relation.TransGen (fun q p => (t.proc q).parent = some p) q p) :
    t.life p < t.life q := by
  induction hd with
  | single hp => exact hh.older _ _ hp
  | tail _ hp ih => exact (hh.older _ _ hp).trans ih

/-- **The process tree.** In every interleaving, following `parent` from a process leads to init, and never back to
the process. -/
theorem process_tree (h : (lts n).Reachable t) (q : Fin n)
    (hq : (t.proc q).state ≠ .UNUSED ∧ (t.proc q).state ≠ .EMBRYO) :
    Relation.ReflTransGen (fun q p => (t.proc q).parent = some p) q t.initproc ∧
      ¬ Relation.TransGen (fun q p => (t.proc q).parent = some p) q q := by
  have hh := hist_of_run h
  exact ⟨hh.rooted (inv_of_run h) hq, fun hd => (hh.life_lt hd).false⟩

/-- Init forks a process, which forks another and exits: the orphan is a child of init. -/
theorem process_tree_orphan : ∃ t, (lts 3).Reachable t ∧ (t.proc 2).parent = some 0 ∧
    Relation.ReflTransGen (fun q p => (t.proc q).parent = some p) 2 t.initproc := by
  obtain ⟨t, hrun, hz⟩ := Lts.Run.exists_of_exec (lts 3) (fun _ _ => true) (booted 3)
    [.sched 0, .allocproc 0, .forkParent 0, .forkDone 0, .sched 1, .allocproc 1, .forkParent 1, .forkDone 1, .exit 1]
    (fun t => (t.proc 2).parent = some 0 ∧ (t.proc 2).state = .RUNNABLE) (booted_booted 3) (by decide)
  obtain ⟨hparent, hstate⟩ := of_decide_eq_true hz
  exact ⟨t, hrun.reachable, hparent, (process_tree hrun.reachable 2 (by rw [hstate]; decide)).1⟩

end Ptable

end Xv6
