import Mathlib
import Xv6.Lib.Lts

/-!
# The process table (`proc.c`)

The critical sections of `ptable.lock`: `allocproc`, `fork`, `exit`, `wait`, `kill`, `sleep`, `wakeup`, `yield`
and the scheduler, for a table of `n` slots. An event is one critical section, so between two events
`ptable.lock` is free. What `fork` does outside the lock (giving up the slot, setting `parent`) are events of
their own.

The table carries a history: every use of a slot has a number of its own (`life`), and `exits` and `reaps`
record who has exited and who has been collected by which `wait`.
-/

namespace Xv6

open Function

/-- `enum procstate`. -/
inductive Procstate where
  | UNUSED
  | EMBRYO
  | SLEEPING
  | RUNNABLE
  | RUNNING
  | ZOMBIE
deriving DecidableEq

/-- A channel: the address of a process slot, or some other address. -/
inductive Chan (n : ℕ) where
  | proc (q : Fin n)
  | other (addr : ℕ)
deriving DecidableEq

/-- The fields of `struct proc` that the scheduler uses. -/
structure Slot (n : ℕ) where
  state : Procstate
  pid : BitVec 32
  parent : Option (Fin n)
  chan : Option (Chan n)
  killed : Bool
deriving DecidableEq

/-- Where a process is in the kernel: nowhere in particular, in `fork` with a new slot (before and after
`parent` is set), or asleep in `wait`. -/
inductive Ctl (n : ℕ) where
  | user
  | fork (np : Fin n)
  | forked (np : Fin n)
  | wait
deriving DecidableEq

/-- A `wait` that has returned: which life it has collected, the `pid` it returned, and who called it. -/
structure Reap (n : ℕ) where
  life : ℕ
  pid : BitVec 32
  caller : Fin n

/-- The process table, and the history of its slots. -/
structure Ptable (n : ℕ) where
  proc : Fin n → Slot n
  initproc : Fin n
  nextpid : BitVec 32
  ctl : Fin n → Ctl n
  /-- The number of lives so far, and the life of each slot with the process that forked it. -/
  lives : ℕ
  life : Fin n → ℕ
  forker : Fin n → Option (Fin n)
  /-- A `kill` has named the process, or it has faulted, since the slot was allocated. -/
  marked : Fin n → Bool
  exits : List ℕ
  reaps : List (Reap n)

/-- What a round of the loop of `wait` ends with. -/
inductive WaitResult where
  | reaped (pid : BitVec 32)
  | failed
  | asleep
deriving DecidableEq

namespace Ptable

variable {n : ℕ}

/-- Change one slot. -/
def set (t : Ptable n) (q : Fin n) (f : Slot n → Slot n) : Ptable n :=
  { t with proc := update t.proc q (f (t.proc q)) }

/-- The first slot that passes a test. -/
def find (t : Ptable n) (test : Slot n → Bool) : Option (Fin n) :=
  (List.finRange n).find? fun q => test (t.proc q)

/-- The body of the loop of `wakeup1`. -/
def wake (chan : Chan n) (x : Slot n) : Slot n :=
  if x.state = .SLEEPING ∧ x.chan = some chan then { x with state := .RUNNABLE } else x

/-- `wakeup1`. -/
def wakeup1 (t : Ptable n) (chan : Chan n) : Ptable n := { t with proc := fun q => wake chan (t.proc q) }

/-- `allocproc`, up to the release of the lock: a new life starts. -/
def allocproc (t : Ptable n) : Option (Fin n) × Ptable n :=
  match t.find fun x => x.state = .UNUSED with
  | none => (none, t)
  | some np =>
    let t' := t.set np fun x => { x with state := .EMBRYO, pid := t.nextpid }
    (some np,
      { t' with
        nextpid := t.nextpid + 1
        lives := t.lives + 1
        life := update t.life np t.lives
        forker := update t.forker np none
        marked := update t.marked np false })

/-- The slots whose parent is `p`. -/
def IsChild (t : Ptable n) (p q : Fin n) : Prop := (t.proc q).parent = some p

instance (t : Ptable n) (p q : Fin n) : Decidable (t.IsChild p q) := inferInstanceAs (Decidable (_ = _))

/-- `p->parent = initproc` for the children of `p`. -/
def reparent (t : Ptable n) (p : Fin n) : Ptable n :=
  { t with proc := fun q => if t.IsChild p q then { t.proc q with parent := some t.initproc } else t.proc q }

/-- The loop of `exit` that passes abandoned children to init. -/
def adopt (t : Ptable n) (p : Fin n) : Ptable n :=
  if ∃ q, t.IsChild p q ∧ (t.proc q).state = .ZOMBIE then (t.reparent p).wakeup1 (.proc t.initproc)
  else t.reparent p

/-- The first step of `exit`. -/
def wakeParent (t : Ptable n) (p : Fin n) : Ptable n :=
  match (t.proc p).parent with
  | none => t
  | some parent => t.wakeup1 (.proc parent)

/-- The critical section of `exit`. -/
def exit (t : Ptable n) (p : Fin n) : Ptable n :=
  let t' := ((t.wakeParent p).adopt p).set p fun x => { x with state := .ZOMBIE }
  { t' with exits := t.life p :: t.exits }

/-- The fields that `wait` resets. -/
def reset (x : Slot n) : Slot n := { x with pid := 0, parent := none, killed := false, state := .UNUSED }

/-- A round of the loop of `wait`, by process `p`. -/
def wait (t : Ptable n) (p : Fin n) : WaitResult × Ptable n :=
  match (List.finRange n).find? fun q => t.IsChild p q ∧ (t.proc q).state = .ZOMBIE with
  | some q =>
    let t' := t.set q reset
    (.reaped (t.proc q).pid,
      { t' with
        ctl := update t.ctl p .user
        reaps := ⟨t.life q, (t.proc q).pid, p⟩ :: t.reaps })
  | none =>
    if (∀ q, ¬ t.IsChild p q) ∨ (t.proc p).killed = true then
      (.failed, { t with ctl := update t.ctl p .user })
    else
      let t' := t.set p fun x => { x with chan := some (.proc p), state := .SLEEPING }
      (.asleep, { t' with ctl := update t.ctl p .wait })

/-- The change of the slot that `kill` has found. -/
def mark (x : Slot n) : Slot n :=
  { x with killed := true, state := if x.state = .SLEEPING then .RUNNABLE else x.state }

/-- `kill`: whether it has found the process. -/
def kill (t : Ptable n) (pid : BitVec 32) : Bool × Ptable n :=
  match t.find fun x => x.pid = pid with
  | none => (false, t)
  | some q =>
    let named : Bool := (t.proc q).state ≠ .UNUSED
    let t' := t.set q mark
    (true, { t' with marked := if named then update t.marked q true else t.marked })

/-- The critical sections. -/
inductive Event (n : ℕ) where
  /-- `allocproc`, called by `fork`. -/
  | allocproc (p : Fin n)
  /-- `fork` gives up for lack of memory, in `allocproc` or after `copyuvm`. -/
  | forkFail (p : Fin n)
  /-- `np->parent = curproc`. -/
  | forkParent (p : Fin n)
  /-- `np->state = RUNNABLE`. -/
  | forkDone (p : Fin n)
  | exit (p : Fin n)
  /-- The call of `wait`, with the first round of its loop. -/
  | wait (p : Fin n)
  | kill (pid : BitVec 32)
  /-- `sleep` on a channel that is no process slot. -/
  | sleep (p : Fin n) (addr : ℕ)
  | wakeup (chan : Chan n)
  | yield (p : Fin n)
  /-- The scheduler runs a process. A process that was asleep in `wait` still holds the lock, and goes
  through the loop again. -/
  | sched (p : Fin n)
  /-- A trap that kills the running process. -/
  | fault (p : Fin n)
deriving DecidableEq

/-- The effect of a critical section. -/
def next (t : Ptable n) : Event n → Option (Ptable n)
  | .allocproc p =>
    if (t.proc p).state = .RUNNING ∧ t.ctl p = .user then
      match t.allocproc with
      | (none, t') => some t'
      | (some np, t') => some { t' with ctl := update t.ctl p (.fork np), forker := update t'.forker np (some p) }
    else none
  | .forkFail p =>
    match t.ctl p with
    | .fork np =>
      if (t.proc p).state = .RUNNING then
        some { t.set np fun x => { x with state := .UNUSED } with ctl := update t.ctl p .user }
      else none
    | _ => none
  | .forkParent p =>
    match t.ctl p with
    | .fork np =>
      if (t.proc p).state = .RUNNING then
        some { t.set np fun x => { x with parent := some p } with ctl := update t.ctl p (.forked np) }
      else none
    | _ => none
  | .forkDone p =>
    match t.ctl p with
    | .forked np =>
      if (t.proc p).state = .RUNNING then
        some { t.set np fun x => { x with state := .RUNNABLE } with
          ctl := update (update t.ctl np .user) p .user }
      else none
    | _ => none
  | .exit p =>
    if (t.proc p).state = .RUNNING ∧ t.ctl p = .user ∧ p ≠ t.initproc then some (t.exit p) else none
  | .wait p => if (t.proc p).state = .RUNNING ∧ t.ctl p = .user then some (t.wait p).2 else none
  | .kill pid => some (t.kill pid).2
  | .sleep p addr =>
    if (t.proc p).state = .RUNNING then
      some (t.set p fun x => { x with chan := some (.other addr), state := .SLEEPING })
    else none
  | .wakeup chan => some (t.wakeup1 chan)
  | .yield p =>
    if (t.proc p).state = .RUNNING then some (t.set p fun x => { x with state := .RUNNABLE }) else none
  | .sched p =>
    if (t.proc p).state = .RUNNABLE then
      let t' := t.set p fun x => { x with state := .RUNNING, chan := none }
      if t.ctl p = .wait then some (t'.wait p).2 else some t'
    else none
  | .fault p =>
    if (t.proc p).state = .RUNNING then
      some { t.set p fun x => { x with killed := true } with marked := update t.marked p true }
    else none

/-- The table after `userinit`: the first process, and free slots. -/
def Booted (t : Ptable n) : Prop :=
  (t.proc t.initproc).state = .RUNNABLE ∧ (t.proc t.initproc).parent = none ∧
  (t.proc t.initproc).chan = none ∧ (t.proc t.initproc).killed = false ∧
  (∀ q, q ≠ t.initproc → t.proc q = ⟨.UNUSED, 0, none, none, false⟩) ∧
  (∀ p, t.ctl p = .user) ∧ (∀ q, t.life q < t.lives) ∧ Injective t.life ∧
  (∀ q, t.marked q = false) ∧ t.exits = [] ∧ t.reaps = []

/-- Every interleaving of the critical sections. -/
def lts (n : ℕ) : Lts (Ptable n) (Event n) where
  init := Booted
  next := next

/-! ## The invariant -/

/-- The process exists and has not exited. -/
def Live (t : Ptable n) (p : Fin n) : Prop :=
  (t.proc p).state ≠ .UNUSED ∧ (t.proc p).state ≠ .EMBRYO ∧ (t.proc p).state ≠ .ZOMBIE

/-- The process is in `fork`, with slot `np`. -/
def Forks (t : Ptable n) (p np : Fin n) : Prop := t.ctl p = .fork np ∨ t.ctl p = .forked np

/-- Parents, children and forks fit together. -/
structure Inv (t : Ptable n) : Prop where
  unused : ∀ q, (t.proc q).state = .UNUSED → (t.proc q).parent = none
  alive : ∀ q p, (t.proc q).parent = some p → t.Live p
  parented : ∀ q, (t.proc q).state ≠ .UNUSED → (t.proc q).state ≠ .EMBRYO → q ≠ t.initproc →
    (t.proc q).parent ≠ none
  initproc : t.Live t.initproc
  root : (t.proc t.initproc).parent = none
  others : ∀ q, (t.proc q).parent ≠ some q
  embryo : ∀ p np, t.Forks p np → (t.proc np).state = .EMBRYO ∧ t.Live p
  forking : ∀ p np, t.ctl p = .fork np → (t.proc np).parent = none
  forked : ∀ p np, t.ctl p = .forked np → (t.proc np).parent = some p
  distinct : ∀ p p' np, t.Forks p np → t.Forks p' np → p = p'
  waits : ∀ p, t.ctl p = .wait → t.Live p ∧ (t.proc p).state ≠ .RUNNING
  asleep : ∀ p, t.ctl p = .wait → (t.proc p).state = .SLEEPING →
    (t.proc p).chan = some (.proc p) ∧ ∀ q, (t.proc q).parent = some p → (t.proc q).state ≠ .ZOMBIE

variable {t t' : Ptable n}

theorem Inv.ofBooted (h : t.Booted) : t.Inv := by
  obtain ⟨hstate, hparent, -, -, hfree, hctl, -⟩ := h
  have hslot : ∀ q, q = t.initproc ∨ t.proc q = ⟨.UNUSED, 0, none, none, false⟩ :=
    fun q => (em (q = t.initproc)).imp_right (hfree q)
  constructor <;> grind [Live, Forks]

/-- Nothing has changed but the states of live processes, and no process has gone to sleep in `wait`. -/
structure Stirs (t t' : Ptable n) : Prop where
  ctl : t'.ctl = t.ctl
  initproc : t'.initproc = t.initproc
  parent : ∀ q, (t'.proc q).parent = (t.proc q).parent
  state : ∀ q, (t'.proc q).state = (t.proc q).state ∨ (t.Live q ∧ t'.Live q)
  awake : ∀ p, t.ctl p = .wait → (t'.proc p).state ≠ .RUNNING ∧
    ((t'.proc p).state = .SLEEPING → (t.proc p).state = .SLEEPING ∧ (t'.proc p).chan = (t.proc p).chan)

theorem Stirs.live {q : Fin n} (h : t.Stirs t') : t'.Live q ↔ t.Live q := by
  rcases h.state q with hq | ⟨hq, hq'⟩
  · unfold Live
    rw [hq]
  · exact iff_of_true hq' hq

theorem Stirs.inv (h : t.Stirs t') (hi : t.Inv) : t'.Inv := by
  have hforks : ∀ p np, t'.Forks p np ↔ t.Forks p np := fun p np => by rw [Forks, Forks, h.ctl]
  -- a slot that is not live is in the state it was in
  have hdead : ∀ q, ¬ t'.Live q → (t'.proc q).state = (t.proc q).state :=
    fun q hq => (h.state q).resolve_right fun hl => hq hl.2
  have hback : ∀ q, ¬ t.Live q → (t'.proc q).state = (t.proc q).state :=
    fun q hq => (h.state q).resolve_right fun hl => hq hl.1
  refine ⟨?_, ?_, ?_, ?_, ?_, ?_, ?_, ?_, ?_, ?_, ?_, ?_⟩
  · intro q hq
    rw [h.parent]
    exact hi.unused q ((hdead q fun hl => hl.1 hq) ▸ hq)
  · intro q p hp
    exact h.live.mpr (hi.alive q p (h.parent q ▸ hp))
  · intro q hu he hne
    rw [h.parent]
    refine hi.parented q (fun hq => hu ?_) (fun hq => he ?_) (h.initproc ▸ hne)
    · exact (hback q fun hl => hl.1 hq).trans hq
    · exact (hback q fun hl => hl.2.1 hq).trans hq
  · rw [h.initproc]
    exact h.live.mpr hi.initproc
  · rw [h.initproc, h.parent]
    exact hi.root
  · intro q
    rw [h.parent]
    exact hi.others q
  · intro p np hp
    obtain ⟨hnp, hlive⟩ := hi.embryo p np ((hforks p np).mp hp)
    exact ⟨(hback np fun hl => hl.2.1 hnp).trans hnp, h.live.mpr hlive⟩
  · intro p np hp
    rw [h.parent]
    exact hi.forking p np (h.ctl ▸ hp)
  · intro p np hp
    rw [h.parent]
    exact hi.forked p np (h.ctl ▸ hp)
  · exact fun p p' np hp hp' => hi.distinct p p' np ((hforks p np).mp hp) ((hforks p' np).mp hp')
  · intro p hp
    rw [h.ctl] at hp
    exact ⟨h.live.mpr (hi.waits p hp).1, (h.awake p hp).1⟩
  · intro p hp hs
    rw [h.ctl] at hp
    obtain ⟨hsleep, hchan⟩ := (h.awake p hp).2 hs
    obtain ⟨hproc, hkids⟩ := hi.asleep p hp hsleep
    refine ⟨hchan.trans hproc, fun q hq hz => hkids q (h.parent q ▸ hq) ?_⟩
    rw [← hdead q fun hl => hl.2.2 hz]
    exact hz

theorem stirs_wakeup1 (chan : Chan n) (hi : t.Inv) : t.Stirs (t.wakeup1 chan) := by
  refine ⟨rfl, rfl, fun q => ?_, fun q => ?_, fun p hp => ?_⟩
  all_goals simp only [wakeup1, wake, Live]
  · split <;> rfl
  · split
    · rename_i hq
      simp [hq.1]
    · exact .inl rfl
  · have hrun := (hi.waits p hp).2
    split
    · simp
    · exact ⟨hrun, fun hs => ⟨hs, rfl⟩⟩

variable {p r : Fin n}

/-- Changing the state of one live process that is not asleep in `wait`. -/
theorem stirs_set {f : Slot n → Slot n} (hlive : t.Live p) (hparent : (f (t.proc p)).parent = (t.proc p).parent)
    (hlive' : (f (t.proc p)).state ≠ .UNUSED ∧ (f (t.proc p)).state ≠ .EMBRYO ∧ (f (t.proc p)).state ≠ .ZOMBIE)
    (hctl : t.ctl p ≠ .wait) (hi : t.Inv) : t.Stirs (t.set p f) := by
  refine ⟨rfl, rfl, fun q => ?_, fun q => ?_, fun q hq => ?_⟩
  all_goals simp only [set, Live, update_apply]
  · split
    · rename_i hqp
      rw [hparent, hqp]
    · rfl
  · split
    · rename_i hqp
      exact .inr ⟨hqp ▸ hlive, hlive'⟩
    · exact .inl rfl
  · have hne : q ≠ p := fun hqp => hctl (hqp ▸ hq)
    rw [if_neg hne]
    exact ⟨(hi.waits q hq).2, fun hs => ⟨hs, rfl⟩⟩

/-- A running process is not asleep in `wait`. -/
theorem Inv.ctl_of_running (hi : t.Inv) (hp : (t.proc p).state = .RUNNING) : t.ctl p ≠ .wait :=
  fun hw => (hi.waits p hw).2 hp

theorem live_of_running (hp : (t.proc p).state = .RUNNING) : t.Live p := by
  unfold Live
  rw [hp]
  decide

theorem stirs_kill (pid : BitVec 32) (hi : t.Inv) : t.Stirs (t.kill pid).2 := by
  unfold kill
  split
  · exact ⟨rfl, rfl, fun _ => rfl, fun _ => .inl rfl, fun p hp => ⟨(hi.waits p hp).2, fun hs => ⟨hs, rfl⟩⟩⟩
  · rename_i found hfound
    refine ⟨rfl, rfl, fun q => ?_, fun q => ?_, fun q hq => ?_⟩
    all_goals simp only [set, mark, Live, update_apply]
    · split
      · rename_i hqp
        rw [hqp]
      · rfl
    · split
      · rename_i hqp
        rw [hqp]
        by_cases hs : (t.proc found).state = .SLEEPING
        · simp [hs]
        · simp [hs]
      · exact .inl rfl
    · have hrun := (hi.waits q hq).2
      split
      · rename_i hqp
        subst hqp
        by_cases hs : (t.proc q).state = .SLEEPING
        · simp [hs]
        · simp [hs, hrun]
      · exact ⟨hrun, fun hs => ⟨hs, rfl⟩⟩

/-- What a call of `allocproc` does: there is no free slot, or the first one is taken. -/
theorem next_allocproc (hs : t.next (.allocproc p) = some t') :
    (t.proc p).state = .RUNNING ∧ t.ctl p = .user ∧ (t' = t ∨ ∃ np, (t.proc np).state = .UNUSED ∧ t' =
      { t.set np fun x => { x with state := .EMBRYO, pid := t.nextpid } with
        nextpid := t.nextpid + 1
        lives := t.lives + 1
        life := update t.life np t.lives
        forker := update (update t.forker np none) np (some p)
        marked := update t.marked np false
        ctl := update t.ctl p (.fork np) }) := by
  simp only [next, Ptable.allocproc, find] at hs
  obtain ⟨hguard, hs⟩ := Option.ite_none_right_eq_some.mp hs
  refine ⟨hguard.1, hguard.2, ?_⟩
  cases hfind : (List.finRange n).find? fun q => decide ((t.proc q).state = .UNUSED) with
  | none =>
    simp only [hfind, Option.some.injEq] at hs
    exact .inl hs.symm
  | some np =>
    simp only [hfind, Option.some.injEq] at hs
    exact .inr ⟨np, by simpa using List.find?_some hfind, hs.symm⟩

theorem Inv.allocproc (h : t.Inv) (hs : t.next (.allocproc p) = some t') : t'.Inv := by
  obtain ⟨hrun, huser, rfl | ⟨np, hnp, rfl⟩⟩ := next_allocproc hs
  · exact h
  · obtain ⟨h1, h2, h3, h4, h5, h6, h7, h8, h9, h10, h11, h12⟩ := h
    constructor <;> simp only [Live, Forks, set, update_apply] at * <;> grind

/-- The three ends of `fork`. -/
theorem Inv.fork {e : Event n} (h : t.Inv) (he : e = .forkFail p ∨ e = .forkParent p ∨ e = .forkDone p)
    (hs : t.next e = some t') : t'.Inv := by
  obtain ⟨h1, h2, h3, h4, h5, h6, h7, h8, h9, h10, h11, h12⟩ := h
  rcases he with rfl | rfl | rfl
  all_goals
    simp only [next] at hs
    split at hs
    · rename_i np hctl
      obtain ⟨hrun, rfl⟩ := Lts.of_guard hs
      constructor <;> simp only [Live, Forks, set, update_apply] at * <;> grind
    · simp at hs

/-! ## `exit` and `wait` -/

@[simp] theorem reparent_state (t : Ptable n) (p q : Fin n) : ((t.reparent p).proc q).state = (t.proc q).state := by
  unfold reparent
  dsimp only
  split <;> rfl

@[simp] theorem reparent_chan (t : Ptable n) (p q : Fin n) : ((t.reparent p).proc q).chan = (t.proc q).chan := by
  unfold reparent
  dsimp only
  split <;> rfl

theorem reparent_parent (t : Ptable n) (p q : Fin n) : ((t.reparent p).proc q).parent =
    if (t.proc q).parent = some p then some t.initproc else (t.proc q).parent := by
  unfold reparent IsChild
  by_cases hq : (t.proc q).parent = some p <;> simp [hq]

/-- The clauses of the invariant that do not depend on who is asleep, after `reparent`. -/
theorem Inv.reparent (hi : t.Inv) (hctl : t.ctl p = .user)
    (hquiet : t.ctl t.initproc = .wait → (t.proc t.initproc).state = .SLEEPING →
      ∀ q, t.IsChild p q → (t.proc q).state ≠ .ZOMBIE) : (t.reparent p).Inv := by
  obtain ⟨h1, h2, h3, h4, h5, h6, h7, h8, h9, h10, h11, h12⟩ := hi
  have hc : (t.reparent p).ctl = t.ctl := rfl
  have hr : (t.reparent p).initproc = t.initproc := rfl
  constructor <;> simp only [Live, Forks, IsChild, reparent_state, reparent_chan, reparent_parent, hc, hr] at * <;> grind

/-- A process asleep in `wait` does not sleep through a wakeup of its own channel. -/
theorem Inv.awake (hi : t.Inv) (hwait : t.ctl r = .wait) : ((t.wakeup1 (.proc r)).proc r).state ≠ .SLEEPING := by
  intro hsleep
  have hi' := (stirs_wakeup1 (.proc r) hi).inv hi
  have hchan := (hi'.asleep r hwait hsleep).1
  simp only [wakeup1, wake] at hsleep hchan
  split at hsleep
  · simp at hsleep
  · rename_i hnot
    rw [if_neg hnot] at hchan
    exact hnot ⟨hsleep, hchan⟩

/-- The children go to init, and so does the wakeup if one of them is a zombie. -/
theorem Inv.adopt (hi : t.Inv) (hctl : t.ctl p = .user) : (t.adopt p).Inv := by
  unfold Ptable.adopt
  split
  · -- waking init first makes no difference to the table
    have hcomm : (t.reparent p).wakeup1 (.proc t.initproc) = (t.wakeup1 (.proc t.initproc)).reparent p := by
      unfold wakeup1 Ptable.reparent IsChild wake
      congr 1
      funext q
      dsimp only
      by_cases hs : (t.proc q).state = .SLEEPING ∧ (t.proc q).chan = some (.proc t.initproc)
      · by_cases hq : (t.proc q).parent = some p <;> simp [hs, hq]
      · by_cases hq : (t.proc q).parent = some p <;> simp [hs, hq]
    rw [hcomm]
    have hi' := (stirs_wakeup1 (.proc t.initproc) hi).inv hi
    exact hi'.reparent hctl fun hwait hsleep => absurd hsleep (hi.awake hwait)
  · rename_i hnone
    exact hi.reparent hctl fun _ _ q hq hz => hnone ⟨q, hq, hz⟩

/-- The process becomes a zombie once it has no children and its parent is awake. -/
theorem Inv.zombie (hi : t.Inv) (hlive : t.Live p) (hctl : t.ctl p = .user) (hp : p ≠ t.initproc)
    (hkids : ∀ q, ¬ t.IsChild p q)
    (hparent : ∀ r, (t.proc p).parent = some r → t.ctl r = .wait → (t.proc r).state ≠ .SLEEPING) :
    (t.set p fun x => { x with state := .ZOMBIE }).Inv := by
  obtain ⟨h1, h2, h3, h4, h5, h6, h7, h8, h9, h10, h11, h12⟩ := hi
  constructor <;> simp only [Live, Forks, IsChild, set, update_apply] at * <;> grind

/-- After `reparent` the process has no children. -/
theorem not_isChild_adopt (hp : p ≠ t.initproc) (q : Fin n) : ¬ (t.adopt p).IsChild p q := by
  have hparent : ((t.adopt p).proc q).parent = ((t.reparent p).proc q).parent := by
    unfold adopt wakeup1 wake
    by_cases hz : ∃ q, t.IsChild p q ∧ (t.proc q).state = .ZOMBIE
    · rw [if_pos hz]
      dsimp only
      split <;> rfl
    · rw [if_neg hz]
  unfold IsChild
  rw [hparent, reparent_parent]
  split
  · exact fun h => hp (Option.some.inj h).symm
  · assumption

/-- Adoption changes neither the control state nor, except for waking init, the states. -/
theorem adopt_state (t : Ptable n) (p q : Fin n) : ((t.adopt p).proc q).state = (t.proc q).state ∨
      ((t.proc q).state = .SLEEPING ∧ ((t.adopt p).proc q).state = .RUNNABLE) := by
  unfold adopt
  split
  · simp only [wakeup1, wake]
    split
    · rename_i hs
      rw [reparent_state] at hs
      exact .inr ⟨hs.1, rfl⟩
    · exact .inl (reparent_state t p q)
  · exact .inl (reparent_state t p q)

/-- The parent of a process that is not its own child is not changed by its `exit`. -/
theorem adopt_parent (hp : (t.proc p).parent ≠ some p) : ((t.adopt p).proc p).parent = (t.proc p).parent := by
  have hrep : ((t.reparent p).proc p).parent = (t.proc p).parent := by rw [reparent_parent, if_neg hp]
  unfold adopt wakeup1 wake
  split
  · dsimp only
    split <;> exact hrep
  · exact hrep

theorem adopt_ctl (t : Ptable n) (p : Fin n) : (t.adopt p).ctl = t.ctl ∧ (t.adopt p).initproc = t.initproc := by
  unfold adopt
  split <;> exact ⟨rfl, rfl⟩

theorem stirs_wakeParent (p : Fin n) (hi : t.Inv) : t.Stirs (t.wakeParent p) := by
  unfold wakeParent
  split
  · exact ⟨rfl, rfl, fun _ => rfl, fun _ => .inl rfl, fun p hp => ⟨(hi.waits p hp).2, fun hs => ⟨hs, rfl⟩⟩⟩
  · exact stirs_wakeup1 _ hi

/-- The parent of an exiting process is not left asleep in `wait`. -/
theorem Inv.parent_awake (hi : t.Inv) (hr : (t.proc p).parent = some r) (hwait : t.ctl r = .wait) :
    ((t.wakeParent p).proc r).state ≠ .SLEEPING := by
  unfold wakeParent
  rw [hr]
  exact hi.awake hwait

theorem Inv.exit (hi : t.Inv) (hrun : (t.proc p).state = .RUNNING) (hctl : t.ctl p = .user)
    (hp : p ≠ t.initproc) : (t.exit p).Inv := by
  have hstirs := stirs_wakeParent p hi
  have hi1 := hstirs.inv hi
  set t1 := t.wakeParent p
  have hctl1 : t1.ctl p = .user := by rw [hstirs.ctl]; exact hctl
  have hi2 := hi1.adopt hctl1
  obtain ⟨hctl2, hinit2⟩ := adopt_ctl t1 p
  have hlive1 : t1.Live p := hstirs.live.mpr (live_of_running hrun)
  have hlive2 : (t1.adopt p).Live p := by
    unfold Live at hlive1 ⊢
    rcases adopt_state t1 p p with h | ⟨-, h⟩
    · rw [h]
      exact hlive1
    · rw [h]
      decide
  have hzombie := hi2.zombie hlive2 (by rw [hctl2]; exact hctl1) (by rw [hinit2, hstirs.initproc]; exact hp)
    (not_isChild_adopt (hstirs.initproc ▸ hp)) ?_
  · exact ⟨hzombie.1, hzombie.2, hzombie.3, hzombie.4, hzombie.5, hzombie.6, hzombie.7, hzombie.8, hzombie.9,
      hzombie.10, hzombie.11, hzombie.12⟩
  · intro r hr hwait hsleep
    rw [adopt_parent (hi1.others p), hstirs.parent] at hr
    rw [hctl2, hstirs.ctl] at hwait
    have hawake := hi.parent_awake hr hwait
    rcases adopt_state t1 p r with h | ⟨h, -⟩
    · exact hawake (h ▸ hsleep)
    · exact hawake h

/-- A round of `wait` by a process that holds the lock. -/
theorem Inv.wait (hi : t.Inv) (hlive : t.Live p) (hctl : t.ctl p = .user) : (t.wait p).2.Inv := by
  unfold Ptable.wait
  split
  · rename_i q hfind
    have hq := List.find?_some hfind
    obtain ⟨h1, h2, h3, h4, h5, h6, h7, h8, h9, h10, h11, h12⟩ := hi
    constructor <;> simp only [Live, Forks, IsChild, set, reset, update_apply] at * <;> grind
  · rename_i hfind
    have hnone : ∀ q, t.IsChild p q → (t.proc q).state ≠ .ZOMBIE := by
      intro q hq hz
      have hno := List.find?_eq_none.mp hfind q (List.mem_finRange q)
      simp [hq, hz] at hno
    split
    · rw [← hctl, update_eq_self]
      exact hi
    · obtain ⟨h1, h2, h3, h4, h5, h6, h7, h8, h9, h10, h11, h12⟩ := hi
      constructor <;> simp only [Live, Forks, IsChild, set, update_apply] at * <;> grind

/-- The table in which a process that was asleep in `wait` runs again. -/
def resume (t : Ptable n) (p : Fin n) : Ptable n :=
  { t.set p fun x => { x with state := .RUNNING, chan := none } with ctl := update t.ctl p .user }

theorem Inv.resume (hi : t.Inv) (hctl : t.ctl p = .wait) : (t.resume p).Inv := by
  obtain ⟨h1, h2, h3, h4, h5, h6, h7, h8, h9, h10, h11, h12⟩ := hi
  constructor <;> simp only [Ptable.resume, Live, Forks, set, update_apply] at * <;> grind

/-- What `wait` does is independent of where the process was before. -/
theorem wait_resume (t : Ptable n) (p : Fin n) :
    (t.set p fun x => { x with state := .RUNNING, chan := none }).wait p = (t.resume p).wait p := by
  unfold Ptable.wait resume IsChild set
  simp only [update_idem]
  rfl

theorem Inv.next {e : Event n} (hi : t.Inv) (hs : t.next e = some t') : t'.Inv := by
  cases e with
  | allocproc p => exact hi.allocproc hs
  | forkFail p => exact hi.fork (.inl rfl) hs
  | forkParent p => exact hi.fork (.inr (.inl rfl)) hs
  | forkDone p => exact hi.fork (.inr (.inr rfl)) hs
  | exit p =>
    obtain ⟨h, rfl⟩ := Lts.of_guard hs
    exact hi.exit h.1 h.2.1 h.2.2
  | wait p =>
    obtain ⟨h, rfl⟩ := Lts.of_guard hs
    exact hi.wait (live_of_running h.1) h.2
  | kill pid =>
    obtain rfl := Option.some.inj hs
    exact (stirs_kill pid hi).inv hi
  | wakeup chan =>
    obtain rfl := Option.some.inj hs
    exact (stirs_wakeup1 chan hi).inv hi
  | sleep p addr =>
    obtain ⟨h, rfl⟩ := Lts.of_guard hs
    exact (stirs_set (live_of_running h) rfl (by simp) (hi.ctl_of_running h) hi).inv hi
  | yield p =>
    obtain ⟨h, rfl⟩ := Lts.of_guard hs
    exact (stirs_set (live_of_running h) rfl (by simp) (hi.ctl_of_running h) hi).inv hi
  | sched p =>
    obtain ⟨h, hs⟩ := Option.ite_none_right_eq_some.mp hs
    have hlive : t.Live p := by
      unfold Live
      rw [h]
      decide
    split at hs
    · rename_i hctl
      obtain rfl := Option.some.inj hs
      rw [wait_resume]
      exact (hi.resume hctl).wait (live_of_running (by simp [Ptable.resume, set])) (by simp [Ptable.resume])
    · rename_i hctl
      obtain rfl := Option.some.inj hs
      exact (stirs_set hlive rfl (by simp) hctl hi).inv hi
  | fault p =>
    obtain ⟨h, rfl⟩ := Lts.of_guard hs
    have hstirs := stirs_set (f := fun x => { x with killed := true }) (live_of_running h) rfl (live_of_running h)
      (hi.ctl_of_running h) hi
    exact Stirs.inv ⟨hstirs.1, hstirs.2, hstirs.3, hstirs.4, hstirs.5⟩ hi

theorem inv_of_run {ok : Ptable n → Event n → Prop} (h : (lts n).Run ok t) : t.Inv :=
  h.invariant (fun _ hb => .ofBooted hb) fun _ _ _ hi _ hs => hi.next hs

end Ptable

end Xv6
