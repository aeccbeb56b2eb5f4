import Xv6.Lib.Lts
import Mathlib.Tactic.Common

/-!
# Timed sleep (`sys_sleep` in `sysproc.c`, the timer in `trap.c`)

The build without `tickslock`: `sys_sleep` tests `ticks` without any lock and then calls `sleep(&ticks, 0)`, and
the timer increments `ticks` and then calls `wakeup(&ticks)`. The critical sections of `ptable.lock` in `sleep`,
`wakeup` and `kill` are single steps. A `wakeup` that comes between a test and the `sleep` that follows it does
not reach the process.
-/

namespace Xv6

open Function

namespace Ticks

/-- The points of `sys_sleep(n)`; `n` is compared as an unsigned number. -/
inductive Pc where
  | out
  /-- `while(ticks - ticks0 < n)`. -/
  | test (n ticks0 : BitVec 32)
  /-- `if(myproc()->killed)`. -/
  | check (n ticks0 : BitVec 32)
  /-- `sleep(&ticks, 0)`: the critical section that makes the process `SLEEPING`. -/
  | sleep (n ticks0 : BitVec 32)
  /-- In `sched`, until the process is `RUNNABLE` again. -/
  | switched (n ticks0 : BitVec 32)
deriving DecidableEq

/-- The tick counter, whether the timer still has to call `wakeup(&ticks)`, and the processes. -/
structure State (P : Type) where
  ticks : BitVec 32
  pending : Bool
  pc : P → Pc
  sleeping : P → Bool
  killed : P → Bool

/-- What can happen. -/
inductive Event (P : Type) where
  /-- `atom_inc(&ticks)` on CPU 0. -/
  | tick
  /-- `wakeup(&ticks)`. -/
  | wakeup
  /-- The call `sys_sleep(n)`, with `ticks0 = ticks`. -/
  | call (p : P) (n : BitVec 32)
  /-- The next step of a process in `sys_sleep`. -/
  | step (p : P)
  /-- `kill`. -/
  | kill (p : P)

variable {P : Type} [DecidableEq P]

namespace State

/-- Process `p` goes on to `c`. -/
def goto (s : State P) (p : P) (c : Pc) : State P := { s with pc := update s.pc p c }

/-- The next step of process `p`. -/
def step (s : State P) (p : P) : Option (State P) :=
  match s.pc p with
  | .out => none
  | .test n t => some (s.goto p (if s.ticks - t < n then .check n t else .out))
  | .check n t => some (s.goto p (if s.killed p then .out else .sleep n t))
  | .sleep n t => some { s.goto p (.switched n t) with sleeping := update s.sleeping p true }
  | .switched n t => if s.sleeping p then none else some (s.goto p (.test n t))

/-- The effect of an event. -/
def next (s : State P) : Event P → Option (State P)
  | .tick => if s.pending then none else some { s with ticks := s.ticks + 1, pending := true }
  | .wakeup => if s.pending then some { s with pending := false, sleeping := fun _ => false } else none
  | .call p n => if s.pc p = .out then some (s.goto p (.test n s.ticks)) else none
  | .step p => s.step p
  | .kill p =>
    some { s with killed := update s.killed p true, sleeping := update s.sleeping p false }

end State

/-- Nobody is in `sys_sleep`. -/
def Init (s : State P) : Prop := s.pending = false ∧ (∀ p, s.pc p = .out) ∧ ∀ p, s.sleeping p = false

/-- Every interleaving. -/
def lts (P : Type) [DecidableEq P] : Lts (State P) (Event P) where
  init := Init
  next := State.next

/-- The process has found that it must sleep, and has not yet done so. -/
def Window (s : State P) (p : P) (n ticks0 : BitVec 32) : Prop := s.pc p = .check n ticks0 ∨ s.pc p = .sleep n ticks0

/-- `wakeup(&ticks)` is called only while every process that is about to sleep has reason to. -/
def Timely (s : State P) : Event P → Prop
  | .wakeup => ∀ p n ticks0, Window s p n ticks0 → s.ticks - ticks0 < n
  | _ => True

/-- A process sleeps although its time is over. -/
def Overdue (s : State P) (p : P) : Prop :=
  s.sleeping p = true ∧ ∃ n ticks0, s.pc p = .switched n ticks0 ∧ n ≤ s.ticks - ticks0

/-- Who sleeps is in `sched`; and unless a `wakeup` is to come, who sleeps or is about to has reason to. -/
structure Inv (s : State P) : Prop where
  asleep : ∀ p, s.sleeping p = true → ∃ n t, s.pc p = .switched n t
  early : s.pending = false → ∀ p n t, Window s p n t ∨ (s.sleeping p = true ∧ s.pc p = .switched n t) →
    s.ticks - t < n

variable {s s' : State P}

variable {p : P} {n t : BitVec 32}

theorem Inv.step (h : Inv s) (hs : s.step p = some s') : Inv s' := by
  obtain ⟨h1, h2⟩ := h
  unfold Window at h2
  cases hpc : s.pc p with
  | out => simp [State.step, hpc] at hs
  | test n t =>
    simp only [State.step, hpc, Option.some.injEq] at hs
    subst hs
    constructor <;> simp only [Window, State.goto, update_apply] <;> grind
  | check n t =>
    simp only [State.step, hpc, Option.some.injEq] at hs
    subst hs
    constructor <;> simp only [Window, State.goto, update_apply] <;> grind
  | sleep n t =>
    -- the new sleeper comes out of the window
    simp only [State.step, hpc, Option.some.injEq] at hs
    subst hs
    constructor
    · intro q hq
      by_cases hqp : q = p
      · exact ⟨n, t, by simp [State.goto, hqp]⟩
      · simpa [State.goto, hqp] using h1 q (by simpa [hqp] using hq)
    · simp only [Window, State.goto, update_apply]
      grind
  | switched n t =>
    simp only [State.step, hpc, Option.ite_none_left_eq_some, Option.some.injEq] at hs
    obtain ⟨hawake, rfl⟩ := hs
    constructor <;> simp only [Window, State.goto, update_apply] <;> grind

theorem Inv.next {e : Event P} (h : Inv s) (hok : Timely s e) (hs : s.next e = some s') : Inv s' := by
  cases e with
  | step p => exact h.step hs
  | tick =>
    simp only [State.next, Option.ite_none_left_eq_some, Option.some.injEq] at hs
    obtain ⟨-, rfl⟩ := hs
    exact ⟨h.asleep, nofun⟩
  | wakeup =>
    -- whoever slept is awake now, and whoever is about to sleep has reason to
    obtain ⟨-, rfl⟩ := Lts.of_guard hs
    refine ⟨nofun, fun _ p n t hp => ?_⟩
    rcases hp with hw | ⟨hsl, -⟩
    · exact hok p n t hw
    · exact absurd hsl Bool.false_ne_true
  | call p n =>
    obtain ⟨h1, h2⟩ := h
    obtain ⟨hout, rfl⟩ := Lts.of_guard hs
    unfold Window at h2
    constructor <;> simp only [Window, State.goto, update_apply] <;> grind
  | kill p =>
    obtain ⟨h1, h2⟩ := h
    obtain rfl := Option.some.inj hs
    unfold Window at h2
    constructor <;> simp only [Window, update_apply] <;> grind

theorem inv_of_run (h : (lts P).Run Timely s) : Inv s := by
  apply h.invariant _ fun _ _ _ hi hok hs => hi.next hok hs
  intro s hinit
  obtain ⟨_, hout, hawake⟩ := hinit
  constructor
  · intro p hp
    rw [hawake p] at hp
    exact absurd hp Bool.false_ne_true
  · intro _ p n t hp
    simp [Window, hout p] at hp

theorem step_check (hpc : s.pc p = .check n t) (hkilled : s.killed p = false) :
    (lts P).next s (.step p) = some (s.goto p (.sleep n t)) := by
  simp [lts, State.next, State.step, hpc, hkilled]

theorem step_sleep (hpc : s.pc p = .sleep n t) :
    (lts P).next s (.step p) = some { s.goto p (.switched n t) with sleeping := update s.sleeping p true } := by
  simp [lts, State.next, State.step, hpc]

/-- Who is about to sleep, and late, oversleeps. -/
theorem overdue_of_sleep (h : (lts P).Reachable s) (hidle : s.pending = false)
    (hpc : s.pc p = .sleep n t) (hlate : ¬ s.ticks - t < n) :
    ∃ s', (lts P).Reachable s' ∧ s'.pending = false ∧ Overdue s' p := by
  refine ⟨_, h.step trivial (step_sleep hpc), hidle, update_self .., n, t, ?_, ?_⟩
  · exact update_self ..
  · exact BitVec.not_lt.mp hlate

/-- **Timed sleep.** In every run in which each `wakeup(&ticks)` finds only processes about to sleep that have
reason to, no process oversleeps while no `wakeup` is to come. A `wakeup` that finds another one, not killed,
leaves it to oversleep. -/
theorem timed_sleep : (∀ s : State P, (lts P).Run Timely s → s.pending = false → ∀ p, ¬ Overdue s p) ∧
    ∀ (s : State P) p n t, (lts P).Reachable s → s.pending = true → Window s p n t → ¬ s.ticks - t < n →
      s.killed p = false → ∃ s', (lts P).Reachable s' ∧ s'.pending = false ∧ Overdue s' p := by
  constructor
  · intro s h hidle p ⟨hsleeping, n, t, hpc, hover⟩
    have hearly := (inv_of_run h).early hidle p n t (.inr ⟨hsleeping, hpc⟩)
    exact absurd hover (BitVec.not_le.mpr hearly)
  · intro s p n t hreach hpending hwindow hlate hkilled
    have hwake : (lts P).Reachable { s with pending := false, sleeping := fun _ => false } :=
      hreach.step (e := .wakeup) trivial (by simp [lts, State.next, hpending])
    rcases hwindow with hpc | hpc
    · have hcheck := hwake.step trivial (step_check (s := { s with pending := false, sleeping := _ }) hpc hkilled)
      exact overdue_of_sleep hcheck rfl (update_self ..) hlate
    · exact overdue_of_sleep hwake rfl hpc hlate

/-- One process, at tick 0. -/
def boot : State Unit where
  ticks := 0
  pending := false
  pc _ := .out
  sleeping _ := false
  killed _ := false

theorem init_boot : Init boot := ⟨rfl, fun _ => rfl, fun _ => rfl⟩

/-- A process in `sys_sleep(2)` sleeps on after the first tick, and is not late. -/
theorem timed_sleep_one : ∃ s : State Unit, s.sleeping () = true ∧ s.ticks = 1 ∧ ¬ Overdue s () := by
  obtain ⟨s, hrun, hend⟩ := Lts.Run.exists_of_exec (lts Unit) (fun s e => match e with
      | .wakeup => s.pc () = .out ∨ s.pc () = .test 2 0 ∨ s.pc () = .switched 2 0
      | _ => true) boot
    [.call () 2, .step (), .step (), .step (), .tick, .wakeup, .step (), .step (), .step (), .step ()]
    (fun s => s.sleeping () = true ∧ s.ticks = 1 ∧ s.pending = false) init_boot (by decide)
  obtain ⟨hsleeping, hticks, hidle⟩ := of_decide_eq_true hend
  have htimely : (lts Unit).Run Timely s := by
    apply hrun.mono
    intro s e he
    cases e with
    | wakeup =>
      intro p n t hw
      simp only [decide_eq_true_eq] at he
      rcases he with he | he | he <;> simp [Window, he] at hw
    | _ => trivial
  exact ⟨s, hsleeping, hticks, timed_sleep.1 s htimely hidle ()⟩

/-- A call `sys_sleep(1)` at tick 0 finds `ticks - ticks0 < 1`; the timer increments `ticks` and wakes everybody;
then the process goes to sleep, until some later tick. -/
theorem timed_sleep_lost : ∃ s : State Unit, (lts Unit).Reachable s ∧ s.pending = false ∧ Overdue s () := by
  obtain ⟨s, hrun, hend⟩ := Lts.Run.exists_of_exec (lts Unit) (fun _ _ => true) boot
    [.call () 1, .step (), .step (), .tick, .wakeup, .step ()]
    (fun s => s.pending = false ∧ s.sleeping () = true ∧ s.pc () = .switched 1 0 ∧ s.ticks = 1) init_boot (by decide)
  obtain ⟨hidle, hsleeping, hpc, hticks⟩ := of_decide_eq_true hend
  exact ⟨s, hrun.reachable, hidle, hsleeping, 1, 0, hpc, by rw [hticks]; decide⟩

end Ticks

end Xv6
