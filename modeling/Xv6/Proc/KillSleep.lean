import Xv6.Lib.Lts
import Mathlib.Tactic.Common

/-!
# Killing a process that sleeps

The five loops that give up when their process has been killed: `piperead`, `pipewrite`, `consoleread`, `wait` and
`sys_sleep`. Each tests its condition, then `killed`, and then sleeps. What the condition reads belongs to others,
so its outcome is left open. `wait` tests and sleeps inside one critical section of `ptable.lock`; the others hold
another lock, or none, which `kill` does not take.
-/

namespace Xv6

open Function

namespace KillSleep

/-- The loops, by the function they are in. -/
inductive Loop where
  | piperead
  | pipewrite
  | consoleread
  | wait
  | sysSleep
deriving DecidableEq

/-- The points of a loop. -/
inductive Pc where
  | out
  /-- The condition of the loop. -/
  | test (ℓ : Loop)
  /-- `if(myproc()->killed)`. -/
  | check (ℓ : Loop)
  /-- `wakeup(&p->nread)`, in `pipewrite` only. -/
  | wakeup
  /-- `sleep`: the critical section of `ptable.lock` that makes the process `SLEEPING`. -/
  | sleep (ℓ : Loop)
  /-- In `sched`, until the process is `RUNNABLE` again. -/
  | switched (ℓ : Loop)
deriving DecidableEq

/-- The processes: where they are, whether they are `SLEEPING`, and whether they have been killed. -/
structure State (P : Type) where
  pc : P → Pc
  sleeping : P → Bool
  killed : P → Bool
  /-- The last call gave up with `-1`. -/
  failed : P → Bool

/-- What can happen. -/
inductive Event (P : Type) where
  /-- The call of one of the functions. -/
  | call (p : P) (ℓ : Loop)
  /-- The condition says that the process must wait, or the loop ends: the function returns, or goes on to the next
  byte. -/
  | test (p : P) (wait again : Bool)
  /-- `pipewrite` finds the read end closed, or `wait` no children, where they test `killed`. -/
  | giveUp (p : P)
  /-- Any other step of a process. -/
  | step (p : P)
  /-- Somebody wakes the process up. -/
  | wakeup (p : P)
  /-- `kill` finds the process and returns 0. -/
  | kill (p : P)

variable {P : Type} [DecidableEq P]

namespace State

/-- Process `p` goes on to `c`. -/
def goto (s : State P) (p : P) (c : Pc) : State P := { s with pc := update s.pc p c }

/-- `sleep`, up to `sched`. -/
def sleep (s : State P) (p : P) (ℓ : Loop) : State P :=
  { s.goto p (.switched ℓ) with sleeping := update s.sleeping p true }

/-- The function returns `-1`. -/
def fail (s : State P) (p : P) : State P := { s.goto p .out with failed := update s.failed p true }

/-- The next step of process `p`, at the condition of a loop apart. -/
def step (s : State P) (p : P) : Option (State P) :=
  match s.pc p with
  | .out | .test _ => none
  | .check ℓ =>
    if s.killed p then some (s.fail p)
    else match ℓ with
      | .wait => some (s.sleep p .wait)
      | .pipewrite => some (s.goto p .wakeup)
      | ℓ => some (s.goto p (.sleep ℓ))
  | .wakeup => some (s.goto p (.sleep .pipewrite))
  | .sleep ℓ => some (s.sleep p ℓ)
  | .switched ℓ => if s.sleeping p then none else some (s.goto p (.test ℓ))

/-- The effect of an event. -/
def next (s : State P) : Event P → Option (State P)
  | .call p ℓ =>
    if s.pc p = .out then some { s.goto p (.test ℓ) with failed := update s.failed p false } else none
  | .test p wait again => match s.pc p with
    | .test ℓ => some (s.goto p (if wait then .check ℓ else if again then .test ℓ else .out))
    | _ => none
  | .giveUp p => if s.pc p = .check .pipewrite ∨ s.pc p = .check .wait then some (s.fail p) else none
  | .step p => s.step p
  | .wakeup p => some { s with sleeping := update s.sleeping p false }
  | .kill p =>
    some { s with killed := update s.killed p true, sleeping := update s.sleeping p false }

end State

/-- Nobody is in a loop, and nobody has been killed. -/
def Init (s : State P) : Prop := (∀ p, s.pc p = .out) ∧ (∀ p, s.sleeping p = false) ∧ ∀ p, s.killed p = false

/-- Every interleaving. -/
def lts (P : Type) [DecidableEq P] : Lts (State P) (Event P) where
  init := Init
  next := State.next

/-- The process has found that it has not been killed, and is on its way to `sleep`. -/
def Window (s : State P) (p : P) : Prop := s.pc p = .wakeup ∨ ∃ ℓ, s.pc p = .sleep ℓ

/-- `kill` does not come between the target's test of `killed` and its `sleep`. -/
def Spares (s : State P) : Event P → Prop
  | .kill p => ¬ Window s p
  | _ => True

/-- `kill` has returned 0, and the target sleeps in loop `ℓ`. -/
def Unkillable (s : State P) (p : P) (ℓ : Loop) : Prop :=
  s.killed p = true ∧ s.sleeping p = true ∧ s.pc p = .switched ℓ

variable {s s' : State P} {p : P}

/-- Who sleeps is in `sched`; `wait` has no window, and who sleeps in it has not been killed. -/
structure Inv (s : State P) : Prop where
  asleep : ∀ p, s.sleeping p = true → ∃ ℓ, s.pc p = .switched ℓ
  window : ∀ p, s.pc p ≠ .sleep .wait
  wait : ∀ p, s.sleeping p = true → s.pc p = .switched .wait → s.killed p = false

/-- A killed process does not sleep, and will test `killed` before it next sleeps. -/
def Heeds (s : State P) : Prop := ∀ p, s.killed p = true → s.sleeping p = false ∧ ¬ Window s p

omit [DecidableEq P] in
theorem Inv.awake (h : Inv s) (hpc : ∀ ℓ, s.pc p ≠ .switched ℓ) : s.sleeping p = false := by
  rw [← Bool.not_eq_true]
  intro hsl
  obtain ⟨ℓ, hℓ⟩ := h.asleep p hsl
  exact hpc ℓ hℓ

/-- What the steps of a process do to what matters here: it goes on to a point where it does not sleep, or sleeps. -/
inductive Moves (s : State P) (p : P) (s' : State P) : Prop where
  /-- From outside the window one gets into it only if not killed. -/
  | goto (c : Pc) (hpc : s'.pc = update s.pc p c) (hsleeping : s'.sleeping = s.sleeping)
      (hkilled : s'.killed = s.killed) (hp : s.sleeping p = false) (hwait : c ≠ .sleep .wait)
      (hc : c = .wakeup ∨ (∃ ℓ, c = .sleep ℓ) → s.killed p = false ∨ Window s p)
  /-- One sleeps in `wait` if not killed, and in another loop from the window. -/
  | sleep (ℓ : Loop) (hwait : ℓ = .wait → s.killed p = false) (hc : s.killed p = false ∨ Window s p)
      (hs : s' = s.sleep p ℓ)

theorem moves_of_step (h : Inv s) (hs : s.step p = some s') : Moves s p s' := by
  cases hpc : s.pc p with
  | out | test ℓ => simp [State.step, hpc] at hs
  | check ℓ =>
    have hp : s.sleeping p = false := h.awake (by simp [hpc])
    by_cases hkilled : s.killed p = true
    · simp only [State.step, hpc, if_pos hkilled, Option.some.injEq] at hs
      subst hs
      exact .goto .out rfl rfl rfl hp nofun (by simp)
    · rw [Bool.not_eq_true] at hkilled
      cases ℓ with
      | wait =>
        simp only [State.step, hpc, hkilled, Bool.false_eq_true, if_false, Option.some.injEq] at hs
        exact .sleep .wait (fun _ => hkilled) (.inl hkilled) hs.symm
      | piperead | pipewrite | consoleread | sysSleep =>
        simp only [State.step, hpc, hkilled, Bool.false_eq_true, if_false, Option.some.injEq] at hs
        subst hs
        exact .goto _ rfl rfl rfl hp nofun fun _ => .inl hkilled
  | wakeup =>
    simp only [State.step, hpc, Option.some.injEq] at hs
    subst hs
    exact .goto _ rfl rfl rfl (h.awake (by simp [hpc])) nofun fun _ => .inr (.inl hpc)
  | sleep ℓ =>
    simp only [State.step, hpc, Option.some.injEq] at hs
    refine .sleep ℓ ?_ (.inr (.inr ⟨ℓ, hpc⟩)) hs.symm
    rintro rfl
    exact absurd hpc (h.window p)
  | switched ℓ =>
    simp only [State.step, hpc, Option.ite_none_left_eq_some, Option.some.injEq, Bool.not_eq_true] at hs
    obtain ⟨hawake, rfl⟩ := hs
    exact .goto _ rfl rfl rfl hawake nofun (by simp)

theorem moves_of_call {ℓ : Loop} (h : Inv s) (hs : s.next (.call p ℓ) = some s') : Moves s p s' := by
  obtain ⟨hout, rfl⟩ := Lts.of_guard hs
  exact .goto _ rfl rfl rfl (h.awake (by simp [hout])) nofun (by simp)

theorem moves_of_test {wait again : Bool} (h : Inv s) (hs : s.next (.test p wait again) = some s') : Moves s p s' := by
  simp only [State.next] at hs
  split at hs
  next ℓ hpc =>
    obtain rfl := Option.some.inj hs
    refine .goto _ rfl rfl rfl (h.awake (by simp [hpc])) ?_ ?_
    · cases wait <;> cases again <;> simp
    · cases wait <;> cases again <;> simp
  next => simp at hs

theorem moves_of_giveUp (h : Inv s) (hs : s.next (.giveUp p) = some s') : Moves s p s' := by
  obtain ⟨hpc, rfl⟩ := Lts.of_guard hs
  refine .goto .out rfl rfl rfl (h.awake ?_) nofun (by simp)
  rcases hpc with hpc | hpc <;> simp [hpc]

theorem Inv.moves (h : Inv s) (hm : Moves s p s') : Inv s' := by
  cases hm with
  | goto c hpc hsleeping hkilled hp hwait hc =>
    have hne : ∀ q, s.sleeping q = true → q ≠ p := by
      rintro q hq rfl
      exact absurd (hp.symm.trans hq) Bool.false_ne_true
    rw [← hsleeping] at hne
    refine ⟨fun q hq => ?_, fun q => ?_, fun q hq hq' => ?_⟩
    · rw [hpc, update_of_ne (hne q hq)]
      exact h.asleep q (hsleeping ▸ hq)
    · by_cases hqp : q = p
      · rw [hpc, hqp, update_self]
        exact hwait
      · rw [hpc, update_of_ne hqp]
        exact h.window q
    · rw [hpc, update_of_ne (hne q hq)] at hq'
      rw [hkilled]
      exact h.wait q (hsleeping ▸ hq) hq'
  | sleep ℓ hwait hc hs =>
    subst hs
    refine ⟨fun q hq => ?_, fun q => ?_, fun q hq hpc => ?_⟩
    · by_cases hqp : q = p
      · exact ⟨ℓ, by simp [State.sleep, State.goto, hqp]⟩
      · simpa [State.sleep, State.goto, hqp] using h.asleep q (by simpa [State.sleep, hqp] using hq)
    · by_cases hqp : q = p
      · simp [State.sleep, State.goto, hqp]
      · simpa [State.sleep, State.goto, hqp] using h.window q
    · by_cases hqp : q = p
      · subst hqp
        exact hwait (by simpa [State.sleep, State.goto] using hpc)
      · exact h.wait q (by simpa [State.sleep, hqp] using hq) (by simpa [State.sleep, State.goto, hqp] using hpc)

theorem Heeds.moves (h : Heeds s) (hm : Moves s p s') : Heeds s' := by
  cases hm with
  | goto c hpc hsleeping hkilled hp hwait hc =>
    intro q hq
    rw [hkilled] at hq
    obtain ⟨hawake, hout⟩ := h q hq
    refine ⟨by rw [hsleeping]; exact hawake, ?_⟩
    by_cases hqp : q = p
    · subst hqp
      rw [Window, hpc, update_self]
      intro hin
      rcases hc hin with hno | hin
      · exact absurd (hno.symm.trans hq) Bool.false_ne_true
      · exact hout hin
    · rw [Window, hpc, update_of_ne hqp]
      exact hout
  | sleep ℓ hwait hc hs =>
    subst hs
    intro q hq
    obtain ⟨hawake, hout⟩ := h q hq
    have hqp : q ≠ p := by
      rintro rfl
      rcases hc with hno | hin
      · exact absurd (hno.symm.trans hq) Bool.false_ne_true
      · exact hout hin
    exact ⟨by simp [State.sleep, hqp, hawake], by simpa [State.sleep, State.goto, Window, hqp] using hout⟩

/-- Waking a process up, killed or not. -/
theorem Inv.wake (h : Inv s) {k : P → Bool} (hk : ∀ q, q ≠ p → k q = s.killed q) :
    Inv { s with killed := k, sleeping := update s.sleeping p false } := by
  have hne : ∀ q, update s.sleeping p false q = true → q ≠ p ∧ s.sleeping q = true := by
    intro q hq
    by_cases hqp : q = p <;> simp_all
  refine ⟨fun q hq => h.asleep q (hne q hq).2, h.window, fun q hq hpc => ?_⟩
  exact (hk q (hne q hq).1).trans (h.wait q (hne q hq).2 hpc)

theorem Inv.next {e : Event P} (h : Inv s) (hs : s.next e = some s') : Inv s' := by
  cases e with
  | call p ℓ => exact h.moves (moves_of_call h hs)
  | test p wait again => exact h.moves (moves_of_test h hs)
  | giveUp p => exact h.moves (moves_of_giveUp h hs)
  | step p => exact h.moves (moves_of_step h hs)
  | wakeup p => exact Option.some.inj hs ▸ h.wake (fun _ _ => rfl)
  | kill p => exact Option.some.inj hs ▸ h.wake (fun _ hq => update_of_ne hq ..)

theorem Heeds.next {e : Event P} (hi : Inv s) (h : Heeds s) (hok : Spares s e) (hs : s.next e = some s') :
    Heeds s' := by
  cases e with
  | call p ℓ => exact h.moves (moves_of_call hi hs)
  | test p wait again => exact h.moves (moves_of_test hi hs)
  | giveUp p => exact h.moves (moves_of_giveUp hi hs)
  | step p => exact h.moves (moves_of_step hi hs)
  | wakeup p =>
    obtain rfl := Option.some.inj hs
    intro q hq
    obtain ⟨hawake, hout⟩ := h q hq
    refine ⟨?_, hout⟩
    by_cases hqp : q = p <;> simp [hqp, hawake]
  | kill p =>
    obtain rfl := Option.some.inj hs
    intro q hq
    by_cases hqp : q = p
    · subst hqp
      exact ⟨by simp, hok⟩
    · obtain ⟨hawake, hout⟩ := h q (by simpa [hqp] using hq)
      exact ⟨by simp [hqp, hawake], hout⟩

omit [DecidableEq P] in
theorem inv_of_init (h : Init s) : Inv s ∧ Heeds s := by
  obtain ⟨hout, hawake, hkilled⟩ := h
  exact ⟨⟨by simp [hawake], by simp [hout], by simp [hkilled]⟩, by simp [Heeds, hkilled]⟩

theorem inv_of_run {ok : State P → Event P → Prop} (h : (lts P).Run ok s) : Inv s :=
  h.invariant (I := Inv) (fun _ hs => (inv_of_init hs).1) fun _ _ _ hi _ hs => hi.next hs

theorem heeds_of_run (h : (lts P).Run Spares s) : Heeds s := by
  have hboth : Inv s ∧ Heeds s := by
    apply h.invariant (I := fun s => Inv s ∧ Heeds s) fun _ => inv_of_init
    intro s e s' ⟨hi, hh⟩ hok hs
    exact ⟨hi.next hs, hh.next hi hok hs⟩
  exact hboth.2

theorem step_wakeup (hpc : s.pc p = .wakeup) : (lts P).next s (.step p) = some (s.goto p (.sleep .pipewrite)) := by
  simp [lts, State.next, State.step, hpc]

/-- Who goes to sleep, killed, cannot be killed. -/
theorem unkillable_of_sleep {ℓ : Loop} (h : (lts P).Reachable s) (hpc : s.pc p = .sleep ℓ) (hk : s.killed p = true) :
    ∃ s' ℓ, (lts P).Reachable s' ∧ Unkillable s' p ℓ := by
  have hstep : (lts P).next s (.step p) = some (s.sleep p ℓ) := by simp [lts, State.next, State.step, hpc]
  refine ⟨_, ℓ, h.step trivial hstep, hk, ?_, ?_⟩ <;> simp [State.sleep, State.goto]

theorem unkillable_of_window (h : (lts P).Reachable s) (hw : Window s p) (hk : s.killed p = true) :
    ∃ s' ℓ, (lts P).Reachable s' ∧ Unkillable s' p ℓ := by
  rcases hw with hpc | ⟨ℓ, hpc⟩
  · exact unkillable_of_sleep (h.step trivial (step_wakeup hpc)) (update_self ..) hk
  · exact unkillable_of_sleep h hpc hk

/-- **`kill` and sleep.** In every run in which no `kill` comes between the target's test of `killed` and its `sleep`,
a killed process does not sleep in any of the loops, and is not on its way to `sleep` without a test of `killed`. In
`wait` this is so in every run. A `kill` that comes in between can leave the target asleep. -/
theorem kill_sleep : (∀ s : State P, (lts P).Run Spares s → ∀ p, (∀ ℓ, ¬ Unkillable s p ℓ) ∧
      (s.killed p = true → s.sleeping p = false ∧ ¬ Window s p)) ∧
    (∀ s : State P, (lts P).Reachable s → ∀ p, ¬ Unkillable s p .wait) ∧
    ∀ (s : State P) p, (lts P).Reachable s → ¬ Spares s (.kill p) → ∃ s' ℓ, (lts P).Reachable s' ∧ Unkillable s' p ℓ := by
  refine ⟨fun s h p => ⟨?_, heeds_of_run h p⟩, ?_, ?_⟩
  · intro ℓ ⟨hkilled, hsleeping, _⟩
    exact absurd ((heeds_of_run h p hkilled).1.symm.trans hsleeping) Bool.false_ne_true
  · intro s h p ⟨hkilled, hsleeping, hpc⟩
    exact absurd (((inv_of_run h).wait p hsleeping hpc).symm.trans hkilled) Bool.false_ne_true
  · intro s p h hbad
    have hwindow : Window s p := not_not.mp hbad
    have hkill : (lts P).Reachable { s with killed := update s.killed p true,
                                            sleeping := update s.sleeping p false } :=
      h.step (e := .kill p) trivial rfl
    exact unkillable_of_window hkill hwindow (update_self ..)

/-- One process, in none of the loops. -/
def idle : State Unit where
  pc _ := .out
  sleeping _ := false
  killed _ := false
  failed _ := false

theorem init_idle : Init idle := ⟨fun _ => rfl, fun _ => rfl, fun _ => rfl⟩

/-- A reader asleep on an empty pipe is killed: it wakes up and its call fails. -/
theorem kill_sleep_reader : ∃ s : State Unit, s.killed () = true ∧ s.failed () = true ∧ s.sleeping () = false := by
  obtain ⟨s, hrun, hend⟩ := Lts.Run.exists_of_exec (lts Unit)
    (fun s e => match e with
      | .kill p => decide (s.pc p = .switched .piperead)
      | _ => true) idle
    [.call () .piperead, .test () true false, .step (), .step (), .kill (), .step (), .test () true false, .step ()]
    (fun s => s.killed () = true ∧ s.failed () = true) init_idle (by decide)
  obtain ⟨hkilled, hfailed⟩ := of_decide_eq_true hend
  have hspares : (lts Unit).Run Spares s := by
    apply hrun.mono
    intro s e he
    cases e with
    | kill p => simp [Spares, Window, of_decide_eq_true he]
    | _ => trivial
  exact ⟨s, hkilled, hfailed, ((kill_sleep.1 s hspares ()).2 hkilled).1⟩

/-- A reader of an empty pipe tests `killed`; then it is killed; then it goes to sleep. -/
theorem kill_sleep_missed : ∃ s : State Unit, (lts Unit).Reachable s ∧ Unkillable s () .piperead := by
  obtain ⟨s, hrun, hend⟩ := Lts.Run.exists_of_exec (lts Unit) (fun _ _ => true) idle
    [.call () .piperead, .test () true false, .step (), .kill (), .step ()]
    (fun s => s.killed () = true ∧ s.sleeping () = true ∧ s.pc () = .switched .piperead) init_idle (by decide)
  obtain ⟨hkilled, hsleeping, hpc⟩ := of_decide_eq_true hend
  exact ⟨s, hrun.reachable, hkilled, hsleeping, hpc⟩

end KillSleep

end Xv6
