import Xv6.Proc.ExitWait
import Xv6.Param

/-!
# What `kill` reaches

`kill` looks at the `pid` of every slot, whatever its state, and `allocproc` does not reset `killed`. A mark
on a free slot is therefore inherited by the next process in it. `Aims` is the condition under which this does
not happen, and then a process is marked only by a `kill` that named it or by a fault of its own.
-/

namespace Xv6

open Function

namespace Ptable

variable {n : ℕ} {t t' : Ptable n}

/-- The first slot with the `pid` that `kill` is called with is in use, and a `fork` that gives up its slot
has not been killed meanwhile. -/
def Aims (t : Ptable n) : Event n → Prop
  | .kill pid => ∀ q, t.find (fun x => x.pid = pid) = some q → (t.proc q).state ≠ .UNUSED
  | .forkFail p => ∀ np, t.ctl p = .fork np → (t.proc np).killed = false
  | _ => True

instance (t : Ptable n) (e : Event n) : Decidable (t.Aims e) := by
  cases e <;> unfold Aims <;> infer_instance

/-- A mark is on a slot in use, and somebody has made it. -/
def Earned (t : Ptable n) : Prop :=
  ∀ q, (t.proc q).killed = true → (t.proc q).state ≠ .UNUSED ∧ t.marked q = true

/-- Marks, states and `marked` have changed only where nothing is marked. -/
theorem Earned.of_slots (h : t.Earned) (hs : ∀ q, (t'.proc q).killed = true →
      ((t.proc q).killed = true ∧ ((t.proc q).state ≠ .UNUSED → (t'.proc q).state ≠ .UNUSED) ∧
        (t.marked q = true → t'.marked q = true)) ∨
      ((t'.proc q).state ≠ .UNUSED ∧ t'.marked q = true)) : t'.Earned := by
  intro q hq
  rcases hs q hq with ⟨hk, hstate, hmark⟩ | hnew
  · exact ⟨hstate (h q hk).1, hmark (h q hk).2⟩
  · exact hnew

/-- The mark of a slot, whether it is in use, and who has marked it are as before. -/
def SameMarks (t t' : Ptable n) : Prop :=
  t'.marked = t.marked ∧ ∀ q, (t'.proc q).killed = (t.proc q).killed ∧
    ((t.proc q).state ≠ .UNUSED → (t'.proc q).state ≠ .UNUSED)

theorem SameMarks.trans {t'' : Ptable n} (h : t.SameMarks t') (h' : t'.SameMarks t'') : t.SameMarks t'' :=
  ⟨h'.1.trans h.1, fun q => ⟨(h'.2 q).1.trans (h.2 q).1, fun hq => (h'.2 q).2 ((h.2 q).2 hq)⟩⟩

theorem SameMarks.earned (h : t.SameMarks t') (he : t.Earned) : t'.Earned := by
  refine he.of_slots fun q hq => .inl ⟨(h.2 q).1 ▸ hq, (h.2 q).2, fun hm => ?_⟩
  rw [h.1]
  exact hm

theorem sameMarks_wakeup1 (t : Ptable n) (chan : Chan n) : t.SameMarks (t.wakeup1 chan) := by
  refine ⟨rfl, fun q => ?_⟩
  simp only [Ptable.wakeup1, wake]
  split <;> simp_all

theorem sameMarks_exit (t : Ptable n) (p : Fin n) : t.SameMarks (t.exit p) := by
  have hwake : t.SameMarks (t.wakeParent p) := by
    unfold wakeParent
    split
    · exact ⟨rfl, fun _ => ⟨rfl, id⟩⟩
    · exact sameMarks_wakeup1 t _
  have hrep : ∀ t : Ptable n, t.SameMarks (t.reparent p) := by
    refine fun t => ⟨rfl, fun q => ⟨?_, fun hq => ?_⟩⟩
    · unfold reparent
      dsimp only
      split <;> rfl
    · rw [reparent_state]
      exact hq
  have hadopt : ∀ t : Ptable n, t.SameMarks (t.adopt p) := by
    intro t
    unfold adopt
    split
    · exact (hrep t).trans (sameMarks_wakeup1 _ _)
    · exact hrep t
  refine (hwake.trans (hadopt _)).trans ⟨rfl, fun q => ?_⟩
  simp only [exit, set, update_apply]
  split
  · rename_i hq
    rw [hq]
    exact ⟨rfl, fun _ => Procstate.noConfusion⟩
  · exact ⟨rfl, id⟩

theorem wait_marked (t : Ptable n) (p : Fin n) : (t.wait p).2.marked = t.marked := by
  unfold Ptable.wait
  split
  · rfl
  · split <;> rfl

variable {p : Fin n} {pid : BitVec 32} {e : Event n}

/-- Collecting a child clears its mark. -/
theorem Earned.wait (h : t.Earned) : (t.wait p).2.Earned := by
  refine h.of_slots fun q hq => .inl ?_
  rw [wait_marked]
  rcases wait_cases t p with ⟨q', -, -, -, hproc, -⟩ | ⟨-, -, hproc, -⟩ | ⟨-, hproc, -⟩
  all_goals
    rw [hproc] at hq ⊢
    try simp only [reset, update_apply] at hq ⊢
    grind

theorem Earned.kill (h : t.Earned) (ha : t.Aims (.kill pid)) : (t.kill pid).2.Earned := by
  unfold Ptable.kill
  split
  · exact h
  · rename_i q hfind
    have hused := ha q hfind
    refine h.of_slots fun q' hq' => ?_
    simp only [set, mark, update_apply] at hq' ⊢
    grind

theorem Earned.allocproc (h : t.Earned) (hs : t.next (.allocproc p) = some t') : t'.Earned := by
  obtain ⟨-, -, rfl | ⟨np, hnp, rfl⟩⟩ := next_allocproc hs
  · exact h
  · refine h.of_slots fun q hq => .inl ?_
    -- a free slot has no mark that the new process could inherit
    have hfree : (t.proc np).killed = false := Bool.eq_false_iff.mpr fun hk => (h np hk).1 hnp
    simp only [set, update_apply] at hq ⊢
    grind

theorem Earned.next (h : t.Earned) (ha : t.Aims e) (hs : t.next e = some t') : t'.Earned := by
  cases e
  case allocproc p => exact h.allocproc hs
  case exit p =>
    obtain ⟨-, rfl⟩ := Lts.of_guard hs
    exact (sameMarks_exit t p).earned h
  case wait p =>
    obtain ⟨-, rfl⟩ := Lts.of_guard hs
    exact h.wait
  case kill pid =>
    obtain rfl := Option.some.inj hs
    exact h.kill ha
  case wakeup chan =>
    obtain rfl := Option.some.inj hs
    exact (sameMarks_wakeup1 t chan).earned h
  case sched p =>
    obtain ⟨-, hs⟩ := Option.ite_none_right_eq_some.mp hs
    have hrun : (t.set p fun x => { x with state := .RUNNING, chan := none }).Earned := by
      refine h.of_slots fun q hq => .inl ?_
      simp only [set, update_apply] at hq ⊢
      grind
    split at hs
    · obtain rfl := Option.some.inj hs
      exact hrun.wait
    · obtain rfl := Option.some.inj hs
      exact hrun
  case sleep | yield | fault =>
    simp only [Ptable.next] at hs
    obtain ⟨hstate, rfl⟩ := Lts.of_guard hs
    refine h.of_slots fun q hq => ?_
    simp only [set, update_apply] at hq ⊢
    grind
  case forkFail p =>
    simp only [Ptable.next] at hs
    split at hs
    · rename_i np hctl
      have hnot := ha np hctl
      obtain ⟨-, rfl⟩ := Lts.of_guard hs
      refine h.of_slots fun q hq => .inl ?_
      simp only [set, update_apply] at hq ⊢
      grind
    · simp at hs
  case forkParent | forkDone =>
    simp only [Ptable.next] at hs
    split at hs
    · rename_i np hctl
      obtain ⟨-, rfl⟩ := Lts.of_guard hs
      refine h.of_slots fun q hq => .inl ?_
      simp only [set, update_apply] at hq ⊢
      grind
    · simp at hs

theorem earned_of_run (h : (lts n).Run Aims t) : t.Earned := by
  refine h.invariant (fun t hb => ?_) fun _ _ _ he ha hs => he.next ha hs
  obtain ⟨-, -, -, hinit, hfree, -⟩ := hb
  intro q hq
  by_cases hqi : q = t.initproc
  · rw [hqi, hinit] at hq
    exact absurd hq Bool.false_ne_true
  · rw [hfree q hqi] at hq
    exact absurd hq Bool.false_ne_true

/-- Who a `kill` marks: nobody but a slot in use with that `pid`. -/
theorem kill_spec (ha : t.Aims (.kill pid)) :
    ((t.kill pid).1 = true ↔ ∃ q, (t.proc q).state ≠ .UNUSED ∧ (t.proc q).pid = pid) ∧
    ∀ q, (t.kill pid).2.proc q ≠ t.proc q →
      (t.proc q).state ≠ .UNUSED ∧ (t.proc q).pid = pid ∧ (t.kill pid).2.proc q = mark (t.proc q) := by
  unfold kill
  split
  · rename_i hfind
    refine ⟨⟨nofun, ?_⟩, fun q hq => absurd rfl hq⟩
    rintro ⟨q, -, hq⟩
    have hno := List.find?_eq_none.mp hfind q (List.mem_finRange q)
    simp [hq] at hno
  · rename_i q hfind
    have hpid : (t.proc q).pid = pid := by simpa using List.find?_some hfind
    refine ⟨⟨fun _ => ⟨q, ha q hfind, hpid⟩, fun _ => rfl⟩, fun q' hq' => ?_⟩
    by_cases hqq : q' = q
    · rw [hqq]
      exact ⟨ha q hfind, hpid, update_self ..⟩
    · exact absurd (update_of_ne hqq ..) hq'

/-- A step marks a process only by a `kill` with its `pid` or by its own fault. -/
def MarksOnly (t : Ptable n) (e : Event n) (t' : Ptable n) : Prop :=
  ∀ q, t'.marked q = true → t.marked q = true ∨ e = .fault q ∨
    ∃ pid, e = .kill pid ∧ (t.proc q).pid = pid ∧ (t.proc q).state ≠ .UNUSED

theorem marksOnly_of_next (hs : t.next e = some t') : t.MarksOnly e t' := by
  intro q hq
  cases e
  case allocproc p =>
    obtain ⟨-, -, rfl | ⟨np, -, rfl⟩⟩ := next_allocproc hs
    · exact .inl hq
    · simp only [update_apply] at hq
      grind
  case exit p =>
    obtain ⟨-, rfl⟩ := Lts.of_guard hs
    exact .inl ((sameMarks_exit t p).1 ▸ hq)
  case wait p =>
    obtain ⟨-, rfl⟩ := Lts.of_guard hs
    exact .inl (wait_marked t p ▸ hq)
  case sched p =>
    obtain ⟨-, hs⟩ := Option.ite_none_right_eq_some.mp hs
    split at hs
    · obtain rfl := Option.some.inj hs
      rw [wait_marked] at hq
      exact .inl hq
    · obtain rfl := Option.some.inj hs
      exact .inl hq
  case kill pid =>
    obtain rfl := Option.some.inj hs
    unfold Ptable.kill at hq
    split at hq
    · exact .inl hq
    · rename_i found hfind
      have hpid : (t.proc found).pid = pid := by simpa using List.find?_some hfind
      simp only at hq
      split at hq
      · rename_i hused
        by_cases hqf : q = found
        · rw [hqf]
          exact .inr (.inr ⟨pid, rfl, hpid, by simpa using hused⟩)
        · rw [update_of_ne hqf] at hq
          exact .inl hq
      · exact .inl hq
  case wakeup chan =>
    obtain rfl := Option.some.inj hs
    exact .inl hq
  case fault p =>
    obtain ⟨-, rfl⟩ := Lts.of_guard hs
    simp only [update_apply] at hq
    grind
  case sleep | yield =>
    obtain ⟨-, rfl⟩ := Lts.of_guard hs
    exact .inl hq
  case forkFail | forkParent | forkDone =>
    simp only [Ptable.next] at hs
    split at hs
    · obtain ⟨-, rfl⟩ := Lts.of_guard hs
      exact .inl hq
    · simp at hs

/-- **kill reaches its target.** In every run in which `kill` finds a slot in use, if any, and no `fork` that
fails has been killed meanwhile: a mark is on a process that was named or has faulted since its slot was
allocated; `kill` succeeds exactly for the `pid` of a slot in use, and changes only such a slot; and
`allocproc` returns a process without mark. -/
theorem kill_target (h : (lts n).Run Aims t) :
    (∀ q, (t.proc q).killed = true → (t.proc q).state ≠ .UNUSED ∧ t.marked q = true) ∧
    (∀ e t', t.next e = some t' → t.MarksOnly e t') ∧ (∀ pid, t.Aims (.kill pid) →
      ((t.kill pid).1 = true ↔ ∃ q, (t.proc q).state ≠ .UNUSED ∧ (t.proc q).pid = pid) ∧
      ∀ q, (t.kill pid).2.proc q ≠ t.proc q →
        (t.proc q).state ≠ .UNUSED ∧ (t.proc q).pid = pid ∧ (t.kill pid).2.proc q = mark (t.proc q)) ∧
    ∀ np t', t.allocproc = (some np, t') → (t'.proc np).killed = false ∧ t'.marked np = false := by
  have he := earned_of_run h
  refine ⟨he, fun e t' hs => marksOnly_of_next hs, fun pid ha => kill_spec ha, fun np t' hnp => ?_⟩
  unfold Ptable.allocproc at hnp
  split at hnp
  · simp at hnp
  · rename_i q hfind
    obtain ⟨hq, rfl⟩ := Prod.mk.inj hnp
    obtain rfl := Option.some.inj hq
    have hfree : (t.proc q).state = .UNUSED := by simpa using List.find?_some hfind
    simp only [set, update_self, and_true]
    exact Bool.eq_false_iff.mpr fun hk => (he q hk).1 hfree

/-- Init forks a child and kills it by its `pid`. -/
theorem kill_target_child : ∃ t, (lts 2).Run Aims t ∧ (t.proc 1).killed = true ∧ t.marked 1 = true := by
  obtain ⟨t, hrun, hk⟩ := Lts.Run.exists_of_exec (lts 2) (fun t e => t.Aims e) (booted 2)
    [.sched 0, .allocproc 0, .forkParent 0, .forkDone 0, .kill 2] (fun t => (t.proc 1).killed) (booted_booted 2)
    (by decide)
  have hrun' : (lts 2).Run Aims t := hrun.mono fun _ _ ha => of_decide_eq_true ha
  exact ⟨t, hrun', hk, ((kill_target hrun').1 1 hk).2⟩

instance : NeZero NPROC := ⟨by decide⟩

/-- `kill(0)` finds a free slot, and the next process in it is born killed. -/
theorem kill_free_slot : ((booted NPROC).kill 0).1 = true ∧
    (∀ q, ((booted NPROC).proc q).state ≠ .UNUSED → ((booted NPROC).proc q).pid ≠ 0) ∧
    ∃ t, (lts NPROC).Reachable t ∧ (t.proc 1).state = .RUNNABLE ∧ (t.proc 1).killed = true ∧ t.marked 1 = false := by
  refine ⟨by decide, by decide, ?_⟩
  obtain ⟨t, hrun, hk⟩ := Lts.Run.exists_of_exec (lts NPROC) (fun _ _ => true) (booted NPROC)
    [.kill 0, .sched 0, .allocproc 0, .forkParent 0, .forkDone 0]
    (fun t => (t.proc 1).state = .RUNNABLE ∧ (t.proc 1).killed = true ∧ t.marked 1 = false) (booted_booted NPROC)
    (by decide)
  exact ⟨t, hrun.reachable, of_decide_eq_true hk⟩

end Ptable

end Xv6
