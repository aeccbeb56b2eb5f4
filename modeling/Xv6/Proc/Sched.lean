import Xv6.Proc.Table

/-!
# Processes and CPUs (`scheduler`, `sched`, `yield`, `sleep`, `forkret` in `proc.c`)

Any number of CPUs with their scheduler threads, and any number of processes. A CPU executes its scheduler or the
kernel thread of a process; `swtch` changes which. `ptable.lock` belongs to a CPU, so that who acquires it before a
`swtch` and who releases it afterwards are different threads. Code that does not touch the process table is no step.
-/

namespace Xv6

open Function

namespace Sched

/-- The points of `scheduler`: what the CPU does next on its scheduler stack. -/
inductive Spc (P : Type) where
  /-- `acquire(&ptable.lock)`, with interrupts enabled. -/
  | sti
  /-- In an interrupt handler that holds `ptable.lock`. -/
  | intr
  /-- In the loop over the process table. -/
  | scan
  /-- `p->state = RUNNING`. -/
  | chosen (p : P)
  /-- `swtch(&(c->scheduler), p->context)`. -/
  | ready (p : P)
  /-- Switched away. -/
  | swtch
  /-- `c->proc = 0`. -/
  | back
deriving DecidableEq

/-- The points of a kernel thread. -/
inductive Ppc where
  /-- Without `ptable.lock`. -/
  | run
  /-- With `ptable.lock`. -/
  | locked
  /-- `sched`. -/
  | sched
  /-- Switched away in `sched`. -/
  | swtch
  /-- `forkret`, of a process that has not run yet or runs for the first time. -/
  | forkret
deriving DecidableEq

/-- `ptable.lock` is held at this point. -/
def Spc.holds {P : Type} : Spc P → Bool
  | .sti | .swtch => false
  | _ => true

/-- `ptable.lock` is held at this point, by the CPU that executes the thread. -/
def Ppc.holds : Ppc → Bool
  | .run | .swtch => false
  | _ => true

/-- The thread has a context to switch to. -/
def Ppc.saved : Ppc → Bool
  | .swtch | .forkret => true
  | _ => false

/-- Where a thread is once it is switched to. -/
def Ppc.resume : Ppc → Ppc
  | .swtch => .locked
  | x => x

/-- How a process gives up the CPU: in `yield`, in `sleep` or in `exit`. -/
inductive Leave where
  | yield
  | sleep
  | exit
deriving DecidableEq

/-- The state that it sets. -/
def Leave.state : Leave → Procstate
  | .yield => .RUNNABLE
  | .sleep => .SLEEPING
  | .exit => .ZOMBIE

/-- `ptable.lock` with the CPU that holds it, `c->proc` of every CPU, the process whose kernel stack it executes on,
the point of its scheduler; the state of every process, the point of its kernel thread, and the process it is making
in `fork`. -/
structure State (C P : Type) where
  lock : Option C
  proc : C → Option P
  stack : C → Option P
  spc : C → Spc P
  state : P → Procstate
  ppc : P → Ppc
  np : P → Option P

/-- The steps of a CPU. -/
inductive Event (C P : Type) where
  /-- `acquire(&ptable.lock)`, in the loop of the scheduler unless in an interrupt handler. -/
  | acquire (c : C) (intr : Bool)
  /-- `release(&ptable.lock)`. -/
  | release (c : C)
  /-- `c->proc = p`, for a process that is `RUNNABLE`. -/
  | choose (c : C) (p : P)
  /-- `p->state = RUNNING`. -/
  | setRunning (c : C)
  /-- `swtch` to the process. -/
  | swtch (c : C)
  /-- `c->proc = 0`. -/
  | back (c : C)
  /-- The assignment to `curproc->state` before `sched`. -/
  | leave (c : C) (how : Leave)
  /-- `sched`. -/
  | sched (c : C)
  /-- One process that `wakeup1` or `kill` finds `SLEEPING`. -/
  | wakeup (c : C) (q : P)
  /-- The critical section of `allocproc`. -/
  | allocproc (c : C) (q : P)
  /-- `fork` or `allocproc` gives up, without `ptable.lock`. -/
  | forkFail (c : C)
  /-- `np->state = RUNNABLE`. -/
  | forkDone (c : C)
  /-- `wait` frees a `ZOMBIE`. -/
  | reap (c : C) (q : P)

variable {C P : Type}

namespace State

/-- The CPU is at a point where `ptable.lock` is held. -/
def holding (s : State C P) (c : C) : Bool :=
  match s.stack c with
  | none => (s.spc c).holds
  | some p => (s.ppc p).holds

/-- The CPU may change the state of processes: it is in a critical section of a process or of an interrupt handler. -/
def inside (s : State C P) (c : C) : Bool :=
  match s.stack c with
  | none => match s.spc c with
    | .intr => true
    | _ => false
  | some p => s.ppc p = .locked

variable [DecidableEq C] [DecidableEq P]

/-- The effect of one event. A panic or a null pointer is no step. -/
def next (s : State C P) : Event C P → Option (State C P)
  | .acquire c intr =>
    if s.lock ≠ none then none
    else match s.stack c with
      | none =>
        if s.spc c = .sti then
          some { s with lock := some c, spc := update s.spc c (if intr then .intr else .scan) }
        else none
      | some p =>
        if s.ppc p = .run then some { s with lock := some c, ppc := update s.ppc p .locked } else none
  | .release c =>
    if s.lock ≠ some c then none
    else match s.stack c with
      | none =>
        if s.spc c = .scan ∨ s.spc c = .intr then
          some { s with lock := none, spc := update s.spc c .sti }
        else none
      | some p =>
        if s.ppc p = .locked ∨ s.ppc p = .forkret then
          some { s with lock := none, ppc := update s.ppc p .run }
        else none
  | .choose c p =>
    if s.stack c = none ∧ s.spc c = .scan ∧ s.state p = .RUNNABLE then
      some { s with proc := update s.proc c (some p), spc := update s.spc c (.chosen p) }
    else none
  | .setRunning c =>
    match s.stack c, s.spc c with
    | none, .chosen p =>
      some { s with state := update s.state p .RUNNING, spc := update s.spc c (.ready p) }
    | _, _ => none
  | .swtch c =>
    match s.stack c, s.spc c with
    | none, .ready p =>
      some { s with
        stack := update s.stack c (some p)
        spc := update s.spc c .swtch
        ppc := update s.ppc p (s.ppc p).resume }
    | _, _ => none
  | .back c =>
    if s.stack c = none ∧ s.spc c = .back then
      some { s with proc := update s.proc c none, spc := update s.spc c .scan }
    else none
  | .leave c how =>
    match s.stack c, s.proc c with
    | some p, some curproc =>
      if s.ppc p = .locked ∧ (how = .exit → s.np p = none) then
        some { s with
          state := update s.state curproc how.state
          ppc := update s.ppc p .sched }
      else none
    | _, _ => none
  | .sched c =>
    match s.stack c, s.proc c with
    | some p, some curproc =>
      if s.ppc p = .sched ∧ s.lock = some c ∧ s.state curproc ≠ .RUNNING then
        some { s with
          stack := update s.stack c none
          spc := update s.spc c .back
          ppc := update s.ppc curproc .swtch }
      else none
    | _, _ => none
  | .wakeup c q =>
    if s.inside c ∧ s.state q = .SLEEPING then
      some { s with state := update s.state q .RUNNABLE }
    else none
  | .allocproc c q =>
    match s.stack c with
    | some p =>
      if s.ppc p = .locked ∧ s.np p = none ∧ s.state q = .UNUSED then
        some { s with
          state := update s.state q .EMBRYO
          ppc := update s.ppc q .forkret
          np := update (update s.np q none) p (some q) }
      else none
    | none => none
  | .forkFail c =>
    match s.stack c with
    | some p =>
      match s.ppc p, s.np p with
      | .run, some q =>
        some { s with state := update s.state q .UNUSED, np := update s.np p none }
      | _, _ => none
    | none => none
  | .forkDone c =>
    match s.stack c with
    | some p =>
      match s.ppc p, s.np p with
      | .locked, some q =>
        some { s with state := update s.state q .RUNNABLE, np := update s.np p none }
      | _, _ => none
    | none => none
  | .reap c q =>
    match s.stack c with
    | some p =>
      if s.ppc p = .locked ∧ s.state q = .ZOMBIE then some { s with state := update s.state q .UNUSED }
      else none
    | none => none

/-- `userinit` has made the first process, and every CPU is at the beginning of `scheduler`. -/
structure Init (s : State C P) : Prop where
  lock : s.lock = none
  proc : ∀ c, s.proc c = none
  stack : ∀ c, s.stack c = none
  spc : ∀ c, s.spc c = .sti
  state : ∀ p, s.state p = .UNUSED ∨ s.state p = .RUNNABLE
  ppc : ∀ p, s.ppc p = .forkret
  np : ∀ p, s.np p = none

end State

/-- All interleavings. -/
def lts (C P : Type) [DecidableEq C] [DecidableEq P] : Lts (State C P) (Event C P) where
  init := State.Init
  next := State.next

/-- What holds in every run. -/
structure Inv (s : State C P) : Prop where
  lock : ∀ c, s.lock = some c ↔ s.holding c = true
  /-- A CPU that executes a process has switched to it. -/
  stack : ∀ c p, s.stack c = some p → s.proc c = some p ∧ s.spc c = .swtch
  unique : ∀ c c' p, s.stack c = some p → s.stack c' = some p → c = c'
  running : ∀ c p, s.stack c = some p →
    (s.ppc p = .sched ∧ s.state p ≠ .RUNNING) ∨
    (s.state p = .RUNNING ∧ (s.ppc p = .run ∨ s.ppc p = .locked ∨ s.ppc p = .forkret))
  /-- A CPU that executes its scheduler. -/
  swtch : ∀ c, s.stack c = none → s.spc c ≠ .swtch
  idle : ∀ c, s.stack c = none → s.spc c = .sti ∨ s.spc c = .intr ∨ s.spc c = .scan → s.proc c = none
  chosen : ∀ c p, s.stack c = none → s.spc c = .chosen p → s.proc c = some p ∧ s.state p = .RUNNABLE
  ready : ∀ c p, s.stack c = none → s.spc c = .ready p → s.proc c = some p ∧ s.state p = .RUNNING ∧
    (s.ppc p).saved = true ∧ ∀ c', s.stack c' ≠ some p
  /-- A process that is `RUNNING` is executed, or will be with the next step of its scheduler. -/
  executed : ∀ p, s.state p = .RUNNING → ∃ c, s.stack c = some p ∨ (s.stack c = none ∧ s.spc c = .ready p)
  saved : ∀ p, s.state p = .RUNNABLE ∨ s.state p = .SLEEPING ∨ s.state p = .EMBRYO → (∀ c, s.stack c ≠ some p) →
    (s.ppc p).saved = true
  np : ∀ p q, s.np p = some q → s.state q = .EMBRYO
  npUnique : ∀ p p' q, s.np p = some q → s.np p' = some q → p = p'

variable {s s' : State C P} {c : C} {p q : P}

/-- Whoever holds the lock and is not in `sched` knows that only `RUNNING` processes are executed. -/
theorem Inv.off (h : Inv s) (hl : s.lock = some c) (hc : ∀ p, s.stack c = some p → s.ppc p ≠ .sched)
    (hq : s.state q ≠ .RUNNING) (c' : C) : s.stack c' ≠ some q := by
  intro hs
  rcases h.running c' q hs with ⟨hsched, -⟩ | ⟨hrun, -⟩
  · have hl' : s.lock = some c' := (h.lock c').mpr (by simp [State.holding, hs, hsched, Ppc.holds])
    obtain rfl := Option.some.inj (hl.symm.trans hl')
    exact hc q hs hsched
  · exact hq hrun

theorem State.Init.inv (h : s.Init) : Inv s := by
  have hlock := h.lock
  have hproc := h.proc
  have hstack := h.stack
  have hspc := h.spc
  have hstate := h.state
  have hppc := h.ppc
  have hnp := h.np
  refine ⟨fun c => ?_, fun c p hs => ?_, fun c c' p hs => ?_, fun c p hs => ?_, fun c _ => ?_, fun c _ _ => hproc c,
    fun c p _ hc => ?_, fun c p _ hc => ?_, fun p hp => ?_, fun p _ _ => ?_, fun p q hq => ?_, fun p p' q hq => ?_⟩
  · simp [hlock, State.holding, hstack, hspc, Spc.holds]
  all_goals grind [Ppc.saved]

/-- Where a CPU is depends on its own points only. -/
theorem holding_congr (hstack : s'.stack c = s.stack c) (hspc : s'.spc c = s.spc c)
    (hppc : ∀ p, s.stack c = some p → s'.ppc p = s.ppc p) : s'.holding c = s.holding c := by
  unfold State.holding
  rw [hstack, hspc]
  cases hs : s.stack c with
  | none => rfl
  | some p => exact congrArg Ppc.holds (hppc p hs)

/-- Other CPUs execute other processes. -/
theorem Inv.ne_of_stack (h : Inv s) (hs : s.stack c = some p) {c' : C} (hc' : c' ≠ c) (hq : s.stack c' = some q) :
    q ≠ p := by
  rintro rfl
  exact hc' (h.unique c' c q hq hs)

/-- A step of a CPU that acquires, keeps or releases the lock. -/
theorem Inv.lock_of (h : Inv s) (hc : s'.lock = some c ↔ s'.holding c = true) (hold : s.lock = none ∨ s.lock = some c)
    (hnew : s'.lock = none ∨ s'.lock = some c) (hothers : ∀ c', c' ≠ c → s'.holding c' = s.holding c') (c' : C) :
    s'.lock = some c' ↔ s'.holding c' = true := by
  by_cases hcc : c' = c
  · subst hcc
    exact hc
  · rw [hothers c' hcc, ← h.lock c']
    constructor
    · intro hl
      rcases hnew with hn | hn
      · exact absurd (hn.symm.trans hl) nofun
      · exact absurd (Option.some.inj (hl.symm.trans hn)) hcc
    · intro hl
      rcases hold with ho | ho
      · exact absurd (ho.symm.trans hl) nofun
      · exact absurd (Option.some.inj (hl.symm.trans ho)) hcc

variable [DecidableEq C] [DecidableEq P]

/-! ## The steps -/

omit [DecidableEq C] [DecidableEq P] in
/-- While a cpu holds `ptable.lock` no other scheduler is between choosing a process and switching to it. -/
theorem Inv.others (h : Inv s) (hl : s.lock = some c) {c' : C} (hc' : c' ≠ c) (hstack : s.stack c' = none) (p : P) :
    s.spc c' ≠ .chosen p ∧ s.spc c' ≠ .ready p := by
  have hnot : s.holding c' ≠ true := fun hheld => hc' (Option.some.inj (((h.lock c').mpr hheld).symm.trans hl))
  constructor <;> intro hpc <;> simp [State.holding, hstack, hpc, Spc.holds] at hnot

omit [DecidableEq P] in
/-- A step of a scheduler, which does not come from a process that is ready. -/
theorem Inv.schedulerStep (h : Inv s) (l : Option C) (o : Option P) (x : Spc P) (hstack : s.stack c = none)
    (hready : ∀ p, s.spc c ≠ .ready p) (hold : s.lock = none ∨ s.lock = some c)
    (hl : l = some c ∧ x.holds = true ∨ l = none ∧ x.holds = false) (hswtch : x ≠ .swtch) (hx : ∀ p, x ≠ .ready p)
    (hidle : x = .sti ∨ x = .intr ∨ x = .scan → o = none)
    (hchosen : ∀ p, x = .chosen p → o = some p ∧ s.state p = .RUNNABLE) :
    Inv { s with lock := l, proc := update s.proc c o, spc := update s.spc c x } := by
  refine ⟨h.lock_of ?_ hold ?_ ?_, ?_, h.unique, h.running, ?_, ?_, ?_, ?_, ?_, h.saved, h.np, h.npUnique⟩
  · simp only [State.holding, hstack, update_self]
    rcases hl with ⟨rfl, hx⟩ | ⟨rfl, hx⟩ <;> simp [hx]
  · rcases hl with ⟨rfl, -⟩ | ⟨rfl, -⟩
    · exact .inr rfl
    · exact .inl rfl
  · exact fun c' hc' => holding_congr rfl (update_of_ne hc' ..) fun _ _ => rfl
  all_goals simp only [update_apply]
  all_goals grind [Inv]

section

variable (h : Inv s)

include h

omit [DecidableEq C] in
/-- A process acquires or releases the lock. -/
theorem Inv.processStep (l : Option C) (x : Ppc) (hstack : s.stack c = some p) (hpc : s.ppc p ≠ .sched)
    (hold : s.lock = none ∨ s.lock = some c) (hl : l = some c ∧ x = .locked ∨ l = none ∧ x = .run) :
    Inv { s with lock := l, ppc := update s.ppc p x } := by
  refine ⟨h.lock_of ?_ hold ?_ ?_, h.stack, h.unique, ?_, h.swtch, h.idle, h.chosen, ?_, h.executed, ?_, h.np,
    h.npUnique⟩
  · simp only [State.holding, hstack, update_self]
    rcases hl with ⟨rfl, rfl⟩ | ⟨rfl, rfl⟩ <;> simp [Ppc.holds]
  · rcases hl with ⟨rfl, -⟩ | ⟨rfl, -⟩
    · exact .inr rfl
    · exact .inl rfl
  · exact fun c' hc' => holding_congr rfl rfl fun q hq => update_of_ne (h.ne_of_stack hstack hc' hq) ..
  all_goals simp only [update_apply]
  all_goals grind [Inv, Ppc.saved]

theorem Inv.acquire {intr : Bool} (hnext : s.next (.acquire c intr) = some s') : Inv s' := by
  simp only [State.next] at hnext
  split at hnext
  · nomatch hnext
  rename_i hl
  rw [not_not] at hl
  split at hnext
  · rename_i hstack
    obtain ⟨hpc, rfl⟩ := Lts.of_guard hnext
    have hnone := h.idle c hstack (.inl hpc)
    have hstep := h.schedulerStep (some c) (s.proc c) (if intr then .intr else .scan) hstack (by simp [hpc]) (.inl hl)
      (.inl ⟨rfl, by cases intr <;> rfl⟩) (by cases intr <;> simp) (by cases intr <;> simp) (fun _ => hnone)
      (by cases intr <;> simp)
    rwa [update_eq_self] at hstep
  · rename_i p hstack
    obtain ⟨hpc, rfl⟩ := Lts.of_guard hnext
    exact h.processStep (some c) .locked hstack (by simp [hpc]) (.inl hl) (.inl ⟨rfl, rfl⟩)

theorem Inv.release (hnext : s.next (.release c) = some s') : Inv s' := by
  simp only [State.next] at hnext
  split at hnext
  · nomatch hnext
  rename_i hl
  rw [not_not] at hl
  split at hnext
  · rename_i hstack
    obtain ⟨hpc, rfl⟩ := Lts.of_guard hnext
    have hnone : s.proc c = none := h.idle c hstack (by rcases hpc with hpc | hpc <;> simp [hpc])
    have hstep := h.schedulerStep none (s.proc c) .sti hstack (by rcases hpc with hpc | hpc <;> simp [hpc]) (.inr hl)
      (.inr ⟨rfl, rfl⟩) nofun nofun (fun _ => hnone) nofun
    rwa [update_eq_self] at hstep
  · rename_i p hstack
    obtain ⟨hpc, rfl⟩ := Lts.of_guard hnext
    exact h.processStep none .run hstack (by rcases hpc with hpc | hpc <;> simp [hpc]) (.inr hl) (.inr ⟨rfl, rfl⟩)

theorem Inv.choose (hnext : s.next (.choose c p) = some s') : Inv s' := by
  obtain ⟨⟨hstack, hpc, hstate⟩, rfl⟩ := Lts.of_guard hnext
  have hl : s.lock = some c := (h.lock c).mpr (by simp [State.holding, hstack, hpc, Spc.holds])
  refine h.schedulerStep s.lock (some p) (.chosen p) hstack (by simp [hpc]) (.inr hl) (.inl ⟨hl, rfl⟩) nofun nofun
    nofun fun q hq => ?_
  obtain rfl := Spc.chosen.inj hq
  exact ⟨rfl, hstate⟩

theorem Inv.setRunning (hnext : s.next (.setRunning c) = some s') : Inv s' := by
  simp only [State.next] at hnext
  split at hnext
  · rename_i p hstack hpc
    obtain rfl := Option.some.inj hnext
    have hl : s.lock = some c := (h.lock c).mpr (by simp [State.holding, hstack, hpc, Spc.holds])
    have hothers := fun c' (hc' : c' ≠ c) (hs : s.stack c' = none) => h.others hl hc' hs
    have hoff := h.off hl (by simp [hstack]) (q := p) (by simp [(h.chosen c p hstack hpc).2])
    have hsaved := h.saved p (.inl (h.chosen c p hstack hpc).2) hoff
    refine ⟨h.lock_of ?_ (.inr hl) (.inr hl) ?_, ?_, h.unique, ?_, ?_, ?_, ?_, ?_, ?_, ?_, ?_, h.npUnique⟩
    · simp [State.holding, hstack, Spc.holds, hl]
    · exact fun c' hc' => holding_congr rfl (update_of_ne hc' ..) fun _ _ => rfl
    all_goals simp only [update_apply]
    all_goals grind [Inv, Ppc.saved, Ppc.resume, Leave.state]
  · nomatch hnext

theorem Inv.swtchTo (hnext : s.next (.swtch c) = some s') : Inv s' := by
  simp only [State.next] at hnext
  split at hnext
  · rename_i p hstack hpc
    obtain rfl := Option.some.inj hnext
    have hl : s.lock = some c := (h.lock c).mpr (by simp [State.holding, hstack, hpc, Spc.holds])
    have hothers := fun c' (hc' : c' ≠ c) (hs : s.stack c' = none) => h.others hl hc' hs
    obtain ⟨hproc, hrunning, hsaved, hoff⟩ := h.ready c p hstack hpc
    have hresume : (s.ppc p).resume = .locked ∨ (s.ppc p).resume = .forkret := by
      cases hs : s.ppc p <;> simp_all [Ppc.saved, Ppc.resume]
    refine ⟨h.lock_of ?_ (.inr hl) (.inr hl) ?_, ?_, ?_, ?_, ?_, ?_, ?_, ?_, ?_, ?_, h.np, h.npUnique⟩
    · rcases hresume with hr | hr <;> simp [State.holding, hl, hr, Ppc.holds]
    · exact fun c' hc' => holding_congr (update_of_ne hc' ..) (update_of_ne hc' ..) fun q hq =>
        update_of_ne (by rintro rfl; exact hoff c' hq) ..
    all_goals simp only [update_apply]
    all_goals grind [Inv, Ppc.saved, Ppc.resume, Leave.state]
  · nomatch hnext

theorem Inv.back (hnext : s.next (.back c) = some s') : Inv s' := by
  obtain ⟨⟨hstack, hpc⟩, rfl⟩ := Lts.of_guard hnext
  have hl : s.lock = some c := (h.lock c).mpr (by simp [State.holding, hstack, hpc, Spc.holds])
  exact h.schedulerStep s.lock none .scan hstack (by simp [hpc]) (.inr hl) (.inl ⟨hl, rfl⟩) nofun nofun (fun _ => rfl)
    nofun

theorem Inv.leave {how : Leave} (hnext : s.next (.leave c how) = some s') : Inv s' := by
  simp only [State.next] at hnext
  split at hnext
  · rename_i p curproc hstack hproc
    obtain rfl : p = curproc := Option.some.inj ((h.stack c p hstack).1.symm.trans hproc)
    obtain ⟨⟨hpc, hexit⟩, rfl⟩ := Lts.of_guard hnext
    have hleave : how.state ≠ .RUNNING := by cases how <;> decide
    have hl : s.lock = some c := (h.lock c).mpr (by simp [State.holding, hstack, hpc, Ppc.holds])
    refine ⟨h.lock_of ?_ (.inr hl) (.inr hl) ?_, h.stack, h.unique, ?_, h.swtch, h.idle, ?_, ?_, ?_, ?_, ?_,
      h.npUnique⟩
    · simp [State.holding, hstack, hl, Ppc.holds]
    · exact fun c' hc' => holding_congr rfl rfl fun q hq => update_of_ne (h.ne_of_stack hstack hc' hq) ..
    all_goals simp only [update_apply]
    all_goals grind [Inv, Ppc.saved, Ppc.resume, Leave.state]
  · nomatch hnext

theorem Inv.sched (hnext : s.next (.sched c) = some s') : Inv s' := by
  simp only [State.next] at hnext
  split at hnext
  · rename_i p curproc hstack hproc
    obtain rfl : p = curproc := Option.some.inj ((h.stack c p hstack).1.symm.trans hproc)
    obtain ⟨⟨hpc, hl, hstate⟩, rfl⟩ := Lts.of_guard hnext
    refine ⟨h.lock_of ?_ (.inr hl) (.inr hl) ?_, ?_, ?_, ?_, ?_, ?_, ?_, ?_, ?_, ?_, h.np, h.npUnique⟩
    · simp [State.holding, hl, Spc.holds]
    · exact fun c' hc' => holding_congr (update_of_ne hc' ..) (update_of_ne hc' ..) fun q hq =>
        update_of_ne (h.ne_of_stack hstack hc' hq) ..
    all_goals simp only [update_apply]
    all_goals grind [Inv, Ppc.saved, Ppc.resume, Leave.state]
  · nomatch hnext

theorem Inv.wakeup (hnext : s.next (.wakeup c q) = some s') : Inv s' := by
  obtain ⟨⟨hin, hstate⟩, rfl⟩ := Lts.of_guard hnext
  refine ⟨h.lock, h.stack, h.unique, ?_, h.swtch, h.idle, ?_, ?_, ?_, ?_, ?_, h.npUnique⟩
  all_goals simp only [update_apply]
  all_goals grind [Inv, Ppc.saved, Ppc.resume, Leave.state]

theorem Inv.allocproc (hnext : s.next (.allocproc c q) = some s') : Inv s' := by
  simp only [State.next] at hnext
  split at hnext
  · rename_i p hstack
    obtain ⟨⟨hpc, hnp, hstate⟩, rfl⟩ := Lts.of_guard hnext
    have hl : s.lock = some c := (h.lock c).mpr (by simp [State.holding, hstack, hpc, Ppc.holds])
    have hoff := h.off hl (by simp [hstack, hpc]) (q := q) (by simp [hstate])
    have hpq : p ≠ q := fun heq => hoff c (heq ▸ hstack)
    refine ⟨h.lock_of ?_ (.inr hl) (.inr hl) ?_, h.stack, h.unique, ?_, h.swtch, h.idle, ?_, ?_, ?_, ?_, ?_, ?_⟩
    · simp [State.holding, hstack, hl, hpc, update_of_ne hpq, Ppc.holds]
    · exact fun c' hc' => holding_congr rfl rfl fun r hr => update_of_ne (by rintro rfl; exact hoff c' hr) ..
    all_goals simp only [update_apply]
    all_goals grind [Inv, Ppc.saved, Ppc.resume, Leave.state]
  · nomatch hnext

theorem Inv.forkFail (hnext : s.next (.forkFail c) = some s') : Inv s' := by
  simp only [State.next] at hnext
  split at hnext
  · rename_i p hstack
    split at hnext
    · rename_i q hpc hq
      obtain rfl := Option.some.inj hnext
      have hstate := h.np p q hq
      refine ⟨h.lock, h.stack, h.unique, ?_, h.swtch, h.idle, ?_, ?_, ?_, ?_, ?_, ?_⟩
      all_goals simp only [update_apply]
      all_goals grind [Inv, Ppc.saved, Ppc.resume, Leave.state]
    · nomatch hnext
  · nomatch hnext

theorem Inv.forkDone (hnext : s.next (.forkDone c) = some s') : Inv s' := by
  simp only [State.next] at hnext
  split at hnext
  · rename_i p hstack
    split at hnext
    · rename_i q hpc hq
      obtain rfl := Option.some.inj hnext
      have hstate := h.np p q hq
      refine ⟨h.lock, h.stack, h.unique, ?_, h.swtch, h.idle, ?_, ?_, ?_, ?_, ?_, ?_⟩
      all_goals simp only [update_apply]
      all_goals grind [Inv, Ppc.saved, Ppc.resume, Leave.state]
    · nomatch hnext
  · nomatch hnext

theorem Inv.reap (hnext : s.next (.reap c q) = some s') : Inv s' := by
  simp only [State.next] at hnext
  split at hnext
  · rename_i p hstack
    obtain ⟨⟨hpc, hstate⟩, rfl⟩ := Lts.of_guard hnext
    refine ⟨h.lock, h.stack, h.unique, ?_, h.swtch, h.idle, ?_, ?_, ?_, ?_, ?_, h.npUnique⟩
    all_goals simp only [update_apply]
    all_goals grind [Inv, Ppc.saved, Ppc.resume, Leave.state]
  · nomatch hnext

theorem Inv.next {e : Event C P} (hnext : s.next e = some s') : Inv s' := by
  cases e with
  | acquire => exact h.acquire hnext
  | release => exact h.release hnext
  | choose => exact h.choose hnext
  | setRunning => exact h.setRunning hnext
  | swtch => exact h.swtchTo hnext
  | back => exact h.back hnext
  | leave => exact h.leave hnext
  | sched => exact h.sched hnext
  | wakeup => exact h.wakeup hnext
  | allocproc => exact h.allocproc hnext
  | forkFail => exact h.forkFail hnext
  | forkDone => exact h.forkDone hnext
  | reap => exact h.reap hnext

end

theorem inv_of_reachable (h : (lts C P).Reachable s) : Inv s :=
  h.invariant (I := Inv) (fun _ => State.Init.inv) fun _ _ _ hinv _ hnext => hinv.next hnext

/-! ## The result -/

omit [DecidableEq C] [DecidableEq P] in
/-- While `ptable.lock` is free, `c->proc` is the process that the CPU executes. -/
theorem Inv.stack_of_proc (h : Inv s) (hl : s.lock = none) (hproc : s.proc c = some p) : s.stack c = some p := by
  have hnot : ¬ s.holding c = true := fun hheld => absurd ((h.lock c).mpr hheld) (by simp [hl])
  cases hs : s.stack c with
  | some q => exact (h.stack c q hs).1.symm.trans hproc
  | none =>
    have hsti : s.spc c = .sti := by
      have hswtch := h.swtch c hs
      cases hpc : s.spc c <;> simp_all [State.holding, Spc.holds]
    exact absurd (h.idle c hs (.inl hsti)) (by simp [hproc])

omit [DecidableEq C] [DecidableEq P] in
theorem Inv.running_of_proc (h : Inv s) (hl : s.lock = none) (hproc : s.proc c = some p) : s.state p = .RUNNING := by
  have hstack := h.stack_of_proc hl hproc
  rcases h.running c p hstack with ⟨hsched, -⟩ | ⟨hrun, -⟩
  · exact absurd ((h.lock c).mpr (by simp [State.holding, hstack, hsched, Ppc.holds])) (by simp [hl])
  · exact hrun

omit [DecidableEq C] [DecidableEq P] in
theorem Inv.proc_of_running (h : Inv s) (hl : s.lock = none) (hrun : s.state p = .RUNNING) :
    ∃ c, s.proc c = some p := by
  obtain ⟨c, hc | ⟨hs, hpc⟩⟩ := h.executed p hrun
  · exact ⟨c, (h.stack c p hc).1⟩
  · exact absurd ((h.lock c).mpr (by simp [State.holding, hs, hpc, Spc.holds])) (by simp [hl])

/-- A process runs on at most one CPU. -/
structure OneCpu (s : State C P) : Prop where
  running : s.lock = none → ∀ p, s.state p = .RUNNING ↔ ∃! c, s.proc c = some p
  /-- `c->proc` is 0 or `RUNNING`, and so in no other state. -/
  proc : s.lock = none → ∀ c p, s.proc c = some p → s.state p = .RUNNING
  /-- A kernel stack is executed on by one CPU at a time, with or without the lock. -/
  stack : ∀ c c' p, s.stack c = some p → s.stack c' = some p → c = c'
  /-- `sched` is called with the lock held by this CPU, for a process that is not `RUNNING`: it does not panic. -/
  sched : ∀ c p, s.stack c = some p → s.ppc p = .sched →
    s.lock = some c ∧ s.proc c = some p ∧ s.state p ≠ .RUNNING ∧ (s.next (.sched c)).isSome
  /-- `wait` frees no kernel stack that is in use. -/
  reap : ∀ c q s', s.next (.reap c q) = some s' → ∀ c', s.stack c' ≠ some q

theorem Inv.sched_ok (h : Inv s) (hstack : s.stack c = some p) (hpc : s.ppc p = .sched) :
    s.lock = some c ∧ s.proc c = some p ∧ s.state p ≠ .RUNNING ∧ (s.next (.sched c)).isSome := by
  have hl : s.lock = some c := (h.lock c).mpr (by simp [State.holding, hstack, hpc, Ppc.holds])
  have hproc := (h.stack c p hstack).1
  have hstate : s.state p ≠ .RUNNING := by
    rcases h.running c p hstack with ⟨-, hne⟩ | ⟨-, hrun⟩
    · exact hne
    · simp [hpc] at hrun
  exact ⟨hl, hproc, hstate, by simp [State.next, hstack, hproc, hpc, hl, hstate]⟩

theorem Inv.reap_off (h : Inv s) (hnext : s.next (.reap c q) = some s') (c' : C) : s.stack c' ≠ some q := by
  simp only [State.next] at hnext
  split at hnext
  · rename_i p hstack
    obtain ⟨⟨hpc, hstate⟩, hnext⟩ := Option.ite_none_right_eq_some.mp hnext
    have hl : s.lock = some c := (h.lock c).mpr (by simp [State.holding, hstack, hpc, Ppc.holds])
    exact h.off hl (by simp [hstack, hpc]) (by simp [hstate]) c'
  · nomatch hnext

theorem one_cpu (h : (lts C P).Reachable s) : OneCpu s := by
  have hinv := inv_of_reachable h
  refine ⟨fun hl p => ⟨fun hrun => ?_, fun ⟨c, hc, _⟩ => hinv.running_of_proc hl hc⟩,
    fun hl c p => hinv.running_of_proc hl, hinv.unique, fun c p => hinv.sched_ok, fun c q s' => hinv.reap_off⟩
  obtain ⟨c, hc⟩ := hinv.proc_of_running hl hrun
  refine ⟨c, hc, fun c' hc' => ?_⟩
  exact hinv.unique c' c p (hinv.stack_of_proc hl hc') (hinv.stack_of_proc hl hc)

/-- Two CPUs, and three processes of which `userinit` has made one. -/
def boot : State (Fin 2) (Fin 3) where
  lock := none
  proc _ := none
  stack _ := none
  spc _ := .sti
  state p := if p = 0 then .RUNNABLE else .UNUSED
  ppc _ := .forkret
  np _ := none

/-- The first process forks, the child runs on the other CPU, exits and is freed. -/
theorem one_cpu_fork : ∃ s, (lts (Fin 2) (Fin 3)).Reachable s ∧ s.lock = none ∧ s.state 1 = .UNUSED ∧
    ∃! c, s.proc c = some 0 := by
  obtain ⟨s, hs, hend⟩ := Lts.Run.exists_of_exec (lts (Fin 2) (Fin 3)) (fun _ _ => true) boot
    [.acquire 0 false, .choose 0 0, .setRunning 0, .swtch 0, .release 0, .acquire 0 false, .allocproc 0 1, .release 0,
      .acquire 0 false, .forkDone 0, .release 0, .acquire 1 false, .choose 1 1, .setRunning 1, .swtch 1, .release 1,
      .acquire 1 false, .leave 1 .exit, .sched 1, .back 1, .release 1, .acquire 0 false, .reap 0 1, .release 0]
    (fun s => s.lock = none ∧ s.state 1 = .UNUSED ∧ s.state 0 = .RUNNING)
    ⟨rfl, fun _ => rfl, fun _ => rfl, fun _ => rfl, by decide, fun _ => rfl, fun _ => rfl⟩ (by decide +kernel)
  obtain ⟨hlock, hfree, hrun⟩ := of_decide_eq_true hend
  exact ⟨s, hs.reachable, hlock, hfree, ((one_cpu hs.reachable).running hlock 0).mp hrun⟩

end Sched

end Xv6
