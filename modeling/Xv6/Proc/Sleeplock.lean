import Xv6.Lib.Lts
import Mathlib.Tactic.Common

/-!
# Sleep locks (`sleeplock.c`, `sleep` and `wakeup` in `proc.c`)

`acquiresleep` and `releasesleep` of one sleep lock by any number of processes, one statement or lock
operation at a time. `sleep` takes `ptable.lock` before it releases `lk->lk`, so a process that has decided to
sleep is asleep before any `wakeup` can scan the table.
-/

namespace Xv6

open Function

namespace Sleeplock

/-- The points of `acquiresleep`, `sleep`, `releasesleep` and `wakeup`: what the process does next. -/
inductive Pc where
  /-- Outside, without the lock. -/
  | out
  /-- `acquiresleep`: `acquire(&lk->lk)`. -/
  | acquire
  /-- `while (lk->locked)`. -/
  | test
  /-- `sleep`: `acquire(&ptable.lock)`. -/
  | sleepAcquire
  /-- `release(lk)`. -/
  | sleepRelease
  /-- `p->chan = chan; p->state = SLEEPING`. -/
  | goToSleep
  /-- `sched`: the scheduler releases `ptable.lock`. -/
  | sched
  /-- Not running, until the scheduler picks the process again, with `ptable.lock` held. -/
  | switched
  /-- `p->chan = 0; release(&ptable.lock)`. -/
  | tidy
  /-- `acquire(lk)`. -/
  | reacquire
  /-- `lk->locked = 1`. -/
  | set
  /-- `release(&lk->lk)`. -/
  | acquired
  /-- Between `acquiresleep` and `releasesleep`. -/
  | inside
  /-- `releasesleep`: `acquire(&lk->lk)`. -/
  | release
  /-- `lk->locked = 0`. -/
  | clear
  /-- `wakeup`: `acquire(&ptable.lock)`. -/
  | wakeAcquire
  /-- `wakeup1`. -/
  | wakeScan
  /-- `release(&ptable.lock)`. -/
  | wakeRelease
  /-- `release(&lk->lk)`. -/
  | released
deriving DecidableEq

/-- The sleep lock, the two spin locks with their owners, and the processes: where they are and who is
`SLEEPING` on the sleep lock. -/
structure State (P : Type) where
  locked : Bool
  lk : Option P
  ptable : Option P
  pc : P → Pc
  sleeping : P → Bool

namespace State

variable {P : Type} [DecidableEq P]

/-- Process `p` goes on to `c`. -/
def goto (s : State P) (p : P) (c : Pc) : State P := { s with pc := update s.pc p c }

/-- `acquire` of `lk->lk`: enabled when it is free. -/
def takeLk (s : State P) (p : P) (c : Pc) : Option (State P) :=
  if s.lk = none then some { s.goto p c with lk := some p } else none

/-- `acquire` of `ptable.lock`. -/
def takePtable (s : State P) (p : P) (c : Pc) : Option (State P) :=
  if s.ptable = none then some { s.goto p c with ptable := some p } else none

/-- The next step of process `p`. -/
def next (s : State P) (p : P) : Option (State P) :=
  match s.pc p with
  | .out => some (s.goto p .acquire)
  | .acquire => s.takeLk p .test
  | .test => some (s.goto p (if s.locked then .sleepAcquire else .set))
  | .sleepAcquire => s.takePtable p .sleepRelease
  | .sleepRelease => some { s.goto p .goToSleep with lk := none }
  | .goToSleep => some { s.goto p .sched with sleeping := update s.sleeping p true }
  | .sched => some { s.goto p .switched with ptable := none }
  | .switched => if s.sleeping p then none else s.takePtable p .tidy
  | .tidy => some { s.goto p .reacquire with ptable := none }
  | .reacquire => s.takeLk p .test
  | .set => some { s.goto p .acquired with locked := true }
  | .acquired => some { s.goto p .inside with lk := none }
  | .inside => some (s.goto p .release)
  | .release => s.takeLk p .clear
  | .clear => some { s.goto p .wakeAcquire with locked := false }
  | .wakeAcquire => s.takePtable p .wakeScan
  | .wakeScan => some { s.goto p .wakeRelease with sleeping := fun _ => false }
  | .wakeRelease => some { s.goto p .released with ptable := none }
  | .released => some { s.goto p .out with lk := none }

end State

/-- A free sleep lock and processes that have nothing to do with it. -/
def init (P : Type) : State P := ⟨false, none, none, fun _ => .out, fun _ => false⟩

/-- Every interleaving. -/
def lts (P : Type) [DecidableEq P] : Lts (State P) P where
  init s := s = init P
  next := State.next

/-! ## Who may be where -/

namespace Pc

/-- The points at which the process has `lk->lk`. -/
def HasLk : Pc → Bool
  | test | sleepAcquire | sleepRelease | set | acquired | clear | wakeAcquire | wakeScan | wakeRelease
  | released => true
  | _ => false

/-- The points at which the process has `ptable.lock`. -/
def HasPtable : Pc → Bool
  | sleepRelease | goToSleep | sched | tidy | wakeScan | wakeRelease => true
  | _ => false

/-- The points at which the process has the sleep lock. -/
def Holds : Pc → Bool
  | acquired | inside | release | clear => true
  | _ => false

end Pc

variable {P : Type} [DecidableEq P] {s s' : State P}

/-- The locks have the owners that the points say; `locked` is what the points say; and a process that is or
will be asleep while the lock is free has a `wakeup` to come. -/
structure Inv (s : State P) : Prop where
  lk : ∀ p, (s.pc p).HasLk = true ↔ s.lk = some p
  ptable : ∀ p, (s.pc p).HasPtable = true ↔ s.ptable = some p
  holds : ∀ p, (s.pc p).Holds = true → s.locked = true
  unique : ∀ p q, (s.pc p).Holds = true → (s.pc q).Holds = true → p = q
  tested : ∀ p, s.pc p = .sleepAcquire ∨ s.pc p = .sleepRelease → s.locked = true
  free : ∀ p, s.pc p = .set → s.locked = false
  asleep : ∀ p, s.sleeping p = true → s.pc p = .sched ∨ s.pc p = .switched
  falling : ∀ p, s.pc p = .goToSleep → s.locked = true ∨ ∃ q, s.pc q = .wakeAcquire
  pending : ∀ p, s.sleeping p = true → s.locked = true ∨ ∃ q, s.pc q = .wakeAcquire ∨ s.pc q = .wakeScan

omit [DecidableEq P] in
theorem Inv.init : Inv (init P) := by
  constructor <;> simp [Sleeplock.init, Pc.HasLk, Pc.HasPtable, Pc.Holds]

/-- What a step does to the two spin locks: it leaves a lock alone, takes a free one or releases its own, as the
points before and after say. -/
def LockStep (owner owner' : Option P) (p : P) (has has' : Bool) : Prop :=
  (owner' = owner ∧ has' = has) ∨ (owner = none ∧ owner' = some p ∧ has' = true) ∨
    (owner' = none ∧ has = true ∧ has' = false)

variable {p : P}

omit [DecidableEq P] in
theorem lockStep_owner {owner owner' : Option P} (has has' : P → Bool)
    (h : ∀ q, has q = true ↔ owner = some q) (hp : LockStep owner owner' p (has p) (has' p))
    (hother : ∀ q, q ≠ p → has' q = has q) (q : P) : has' q = true ↔ owner' = some q := by
  by_cases hq : q = p
  · subst hq
    have hown := h q
    rcases hp with ⟨h1, h2⟩ | ⟨h1, h2, h3⟩ | ⟨h1, h2, h3⟩
    · rw [h1, h2]
      exact hown
    · simp [h2, h3]
    · simp [h1, h3]
  · rw [hother q hq, h q]
    have hown := h p
    rcases hp with ⟨h1, h2⟩ | ⟨h1, h2, h3⟩ | ⟨h1, h2, h3⟩
    · rw [h1]
    · rw [h1, h2]
      exact iff_of_false nofun fun he => hq (Option.some.inj he).symm
    · rw [hown.mp h2, h1]
      exact iff_of_false (fun he => hq (Option.some.inj he).symm) nofun

/-- What a step does, apart from the points: the spin locks, `locked` and who sleeps. -/
structure Moves (s : State P) (p : P) (s' : State P) : Prop where
  other : ∀ q, q ≠ p → s'.pc q = s.pc q
  lk : LockStep s.lk s'.lk p (s.pc p).HasLk (s'.pc p).HasLk
  ptable : LockStep s.ptable s'.ptable p (s.pc p).HasPtable (s'.pc p).HasPtable
  locked : (s'.locked = s.locked ∧ (s'.pc p).Holds = (s.pc p).Holds) ∨
    (s.pc p = .set ∧ s'.pc p = .acquired ∧ s'.locked = true) ∨
    (s.pc p = .clear ∧ s'.pc p = .wakeAcquire ∧ s'.locked = false)
  sleeping : (s'.sleeping = s.sleeping ∧ s.pc p ≠ .goToSleep ∧ s.pc p ≠ .wakeScan) ∨
    (s.pc p = .goToSleep ∧ s'.pc p = .sched ∧ s'.sleeping = update s.sleeping p true) ∨
    (s.pc p = .wakeScan ∧ ∀ q, s'.sleeping q = false)
  tested : s'.pc p = .sleepAcquire ∨ s'.pc p = .sleepRelease → s'.locked = s.locked ∧
    (s.pc p = .sleepAcquire ∨ s.locked = true)
  free : s'.pc p = .set → s'.locked = false
  goToSleep : s'.pc p = .goToSleep → s.pc p = .sleepRelease ∧ s'.locked = s.locked
  wakes : s.pc p = .wakeAcquire → s'.pc p = .wakeScan ∧ s.ptable = none
  rises : s.pc p = .switched → s.sleeping p = false
  switched : s.pc p = .sched → s'.pc p = .switched

theorem takeLk_eq_some {c : Pc} : s.takeLk p c = some s' ↔ s.lk = none ∧ { s.goto p c with lk := some p } = s' := by
  simp [State.takeLk]

theorem takePtable_eq_some {c : Pc} :
    s.takePtable p c = some s' ↔ s.ptable = none ∧ { s.goto p c with ptable := some p } = s' := by
  simp [State.takePtable]

theorem moves_of_next (hs : s.next p = some s') : Moves s p s' := by
  cases hpc : s.pc p
  case acquire | reacquire | release =>
    simp only [State.next, hpc, takeLk_eq_some] at hs
    obtain ⟨hfree, rfl⟩ := hs
    constructor <;> simp_all [State.goto, LockStep, Pc.HasLk, Pc.HasPtable, Pc.Holds]
  case sleepAcquire | wakeAcquire =>
    simp only [State.next, hpc, takePtable_eq_some] at hs
    obtain ⟨hfree, rfl⟩ := hs
    constructor <;> simp_all [State.goto, LockStep, Pc.HasLk, Pc.HasPtable, Pc.Holds]
  case switched =>
    simp only [State.next, hpc, Option.ite_none_left_eq_some, takePtable_eq_some] at hs
    obtain ⟨hawake, hfree, rfl⟩ := hs
    constructor <;> simp_all [State.goto, LockStep, Pc.HasLk, Pc.HasPtable, Pc.Holds]
  case test =>
    simp only [State.next, hpc, Option.some.injEq] at hs
    cases hl : s.locked <;> simp only [hl, if_true, Bool.false_eq_true, if_false] at hs <;> subst hs
    all_goals constructor <;> simp_all [State.goto, LockStep, Pc.HasLk, Pc.HasPtable, Pc.Holds]
  all_goals
    simp only [State.next, hpc, Option.some.injEq] at hs
    subst hs
    constructor <;> simp_all [State.goto, LockStep, Pc.HasLk, Pc.HasPtable, Pc.Holds]

/-- The spin locks are owned as the points say. -/
theorem Inv.owners (h : Inv s) (hm : Moves s p s') :
    (∀ q, (s'.pc q).HasLk = true ↔ s'.lk = some q) ∧ ∀ q, (s'.pc q).HasPtable = true ↔ s'.ptable = some q := by
  constructor
  · exact lockStep_owner _ (fun q => (s'.pc q).HasLk) h.lk hm.lk fun q hq => by rw [hm.other q hq]
  · exact lockStep_owner _ (fun q => (s'.pc q).HasPtable) h.ptable hm.ptable fun q hq => by rw [hm.other q hq]

/-- `locked` is set by one process at a time. -/
theorem Inv.holds_next (h : Inv s) (hm : Moves s p s') : (∀ q, (s'.pc q).Holds = true → s'.locked = true) ∧
    ∀ q r, (s'.pc q).Holds = true → (s'.pc r).Holds = true → q = r := by
  have hold : ∀ q, (s'.pc q).Holds = true → q = p ∨ (s.pc q).Holds = true := by
    intro q hq
    by_cases hqp : q = p
    · exact .inl hqp
    · rw [hm.other q hqp] at hq
      exact .inr hq
  have hholds := h.holds
  have hunique := h.unique
  rcases hm.locked with ⟨hl, hp⟩ | ⟨hp, hp', hl⟩ | ⟨hp, hp', hl⟩
  · have hbefore : ∀ q, (s'.pc q).Holds = true → (s.pc q).Holds = true := by
      intro q hq
      rcases hold q hq with rfl | hq
      · rw [← hp]
        exact hq
      · exact hq
    exact ⟨fun q hq => hl ▸ hholds q (hbefore q hq), fun q r hq hr => hunique q r (hbefore q hq) (hbefore r hr)⟩
  · -- nobody else has the lock that the test has found free
    have honly : ∀ q, (s'.pc q).Holds = true → q = p := by
      intro q hq
      refine (hold q hq).resolve_right fun hq => ?_
      have hfree := h.free p hp
      rw [hholds q hq] at hfree
      exact absurd hfree.symm Bool.false_ne_true
    exact ⟨fun _ _ => hl, fun q r hq hr => (honly q hq).trans (honly r hr).symm⟩
  · have hnone : ∀ q, (s'.pc q).Holds ≠ true := by
      intro q hq
      have hqp : q = p := (hold q hq).elim id fun hq => hunique q p hq (by rw [hp]; rfl)
      rw [hqp, hp'] at hq
      exact absurd hq (by decide)
    exact ⟨fun q hq => absurd hq (hnone q), fun q r hq _ => absurd hq (hnone q)⟩

/-- While a process has `lk->lk`, nobody else changes `locked`. -/
theorem Inv.locked_next {q : P} (h : Inv s) (hm : Moves s p s') (hq : q ≠ p) (hlk : (s.pc q).HasLk = true) :
    s'.locked = s.locked := by
  have hown := (h.lk q).mp hlk
  have hp : (s.pc p).HasLk ≠ true := fun hp => hq (Option.some.inj (hown.symm.trans ((h.lk p).mp hp)))
  rcases hm.locked with ⟨hl, -⟩ | ⟨hset, -⟩ | ⟨hclear, -⟩
  · exact hl
  · exact absurd (by rw [hset]; rfl) hp
  · exact absurd (by rw [hclear]; rfl) hp

/-- What was found in the test still holds. -/
theorem Inv.tested_next (h : Inv s) (hm : Moves s p s') :
    (∀ q, s'.pc q = .sleepAcquire ∨ s'.pc q = .sleepRelease → s'.locked = true) ∧
    ∀ q, s'.pc q = .set → s'.locked = false := by
  constructor
  · intro q hq
    by_cases hqp : q = p
    · subst hqp
      obtain ⟨hl, hbefore⟩ := hm.tested hq
      rw [hl]
      exact hbefore.elim (fun hs => h.tested q (.inl hs)) id
    · rw [hm.other q hqp] at hq
      have hlk : (s.pc q).HasLk = true := by rcases hq with hq | hq <;> rw [hq] <;> rfl
      rw [h.locked_next hm hqp hlk]
      exact h.tested q hq
  · intro q hq
    by_cases hqp : q = p
    · subst hqp
      exact hm.free hq
    · rw [hm.other q hqp] at hq
      have hlk : (s.pc q).HasLk = true := by rw [hq]; rfl
      rw [h.locked_next hm hqp hlk]
      exact h.free q hq

/-- If the lock was taken or a `wakeup` was to come, it is so afterwards, unless the `wakeup` starts. -/
theorem awaited_next (hm : Moves s p s') (hw : s.locked = true ∨ ∃ r, s.pc r = .wakeAcquire) :
    s'.locked = true ∨ (∃ r, s'.pc r = .wakeAcquire) ∨ s.pc p = .wakeAcquire := by
  have hother := hm.other
  rcases hm.locked with ⟨hl, -⟩ | ⟨-, -, hl⟩ | ⟨-, hp', -⟩
  · grind
  · exact .inl hl
  · exact .inr (.inl ⟨p, hp'⟩)

theorem Inv.sleep_next (h : Inv s) (hm : Moves s p s') :
    (∀ q, s'.sleeping q = true → s'.pc q = .sched ∨ s'.pc q = .switched) ∧
    (∀ q, s'.pc q = .goToSleep → s'.locked = true ∨ ∃ r, s'.pc r = .wakeAcquire) ∧
    ∀ q, s'.sleeping q = true → s'.locked = true ∨ ∃ r, s'.pc r = .wakeAcquire ∨ s'.pc r = .wakeScan := by
  have hother := hm.other
  have hrises := hm.rises
  have hswitched := hm.switched
  refine ⟨fun q hq => ?_, fun q hq => ?_, fun q hq => ?_⟩
  · have hasleep := h.asleep q
    rcases hm.sleeping with ⟨hsl, -, -⟩ | ⟨-, hp', hsl⟩ | ⟨-, hsl⟩
    · grind
    · rw [hsl, update_apply] at hq
      grind
    · rw [hsl q] at hq
      exact absurd hq Bool.false_ne_true
  · by_cases hqp : q = p
    · subst hqp
      obtain ⟨hp, hl⟩ := hm.goToSleep hq
      rw [hl]
      exact .inl (h.tested q (.inr hp))
    · rw [hother q hqp] at hq
      rcases awaited_next hm (h.falling q hq) with hl | hr | hp
      · exact .inl hl
      · exact .inr hr
      · -- the `wakeup` cannot start: the process that falls asleep has `ptable.lock`
        have hown := (h.ptable q).mp (by rw [hq]; rfl)
        rw [(hm.wakes hp).2] at hown
        nomatch hown
  · have hwake : s.pc p = .wakeAcquire → s'.pc p = .wakeScan := fun hp => (hm.wakes hp).1
    rcases hm.sleeping with ⟨hsl, -, hscan⟩ | ⟨hp, -, hsl⟩ | ⟨-, hsl⟩
    · rw [hsl] at hq
      rcases h.pending q hq with hl | ⟨r, hr | hr⟩
      · rcases awaited_next hm (.inl hl) with hl | ⟨r, hr⟩ | hp
        · exact .inl hl
        · exact .inr ⟨r, .inl hr⟩
        · exact .inr ⟨p, .inr (hwake hp)⟩
      · rcases awaited_next hm (.inr ⟨r, hr⟩) with hl | ⟨r, hr⟩ | hp
        · exact .inl hl
        · exact .inr ⟨r, .inl hr⟩
        · exact .inr ⟨p, .inr (hwake hp)⟩
      · have hrp : r ≠ p := fun he => hscan (he ▸ hr)
        exact .inr ⟨r, .inr ((hother r hrp).trans hr)⟩
    · rw [hsl, update_apply] at hq
      have hnot : s.pc p ≠ .wakeAcquire := by rw [hp]; decide
      have hbefore : s.locked = true ∨ ∃ r, s.pc r = .wakeAcquire := h.falling p hp
      rcases awaited_next hm hbefore with hl | ⟨r, hr⟩ | hp
      · exact .inl hl
      · exact .inr ⟨r, .inl hr⟩
      · exact absurd hp hnot
    · rw [hsl q] at hq
      exact absurd hq Bool.false_ne_true

theorem Inv.next (h : Inv s) (hs : s.next p = some s') : Inv s' := by
  have hm := moves_of_next hs
  exact ⟨(h.owners hm).1, (h.owners hm).2, (h.holds_next hm).1, (h.holds_next hm).2, (h.tested_next hm).1,
    (h.tested_next hm).2, (h.sleep_next hm).1, (h.sleep_next hm).2.1, (h.sleep_next hm).2.2⟩

/-! ## Mutual exclusion without lost wakeups -/

/-- The process is between the return of `acquiresleep` and the statement of `releasesleep` that gives the lock
up. -/
def Inside (s : State P) (p : P) : Prop := s.pc p = .inside ∨ s.pc p = .release ∨ s.pc p = .clear

/-- **Sleep locks.** In every interleaving at most one process is inside, and when both spin locks are free
and the sleep lock is not taken nobody sleeps on it. -/
theorem sleeplock (h : (lts P).Reachable s) : (∀ p q, Inside s p → Inside s q → p = q) ∧
    (s.lk = none → s.ptable = none → s.locked = false → ∀ p, s.sleeping p = false) := by
  have hi : Inv s := h.invariant (fun _ hs => hs ▸ .init) fun _ _ _ hi _ hs => hi.next hs
  have hholds : ∀ p, Inside s p → (s.pc p).Holds = true := by
    rintro p (hp | hp | hp) <;> rw [hp] <;> rfl
  refine ⟨fun p q hp hq => hi.unique p q (hholds p hp) (hholds q hq), fun hlk _ hl p => ?_⟩
  by_contra hp
  rcases hi.pending p (by simpa using hp) with hlocked | ⟨r, hr⟩
  · rw [hl] at hlocked
    exact absurd hlocked Bool.false_ne_true
  · -- the process that is about to wake the sleepers still has `lk->lk`
    have hown := (hi.lk r).mp (by rcases hr with hr | hr <;> rw [hr] <;> rfl)
    rw [hlk] at hown
    nomatch hown

/-- Two processes: the second sleeps while the first is inside, and is woken by its `releasesleep`. -/
theorem sleeplock_two : ∃ s, (lts (Fin 2)).Reachable s ∧ s.lk = none ∧ s.pc 1 = .switched ∧
    ((∀ p q, Inside s p → Inside s q → p = q) ∧
      (s.lk = none → s.ptable = none → s.locked = false → ∀ p, s.sleeping p = false)) := by
  obtain ⟨s, hrun, hp⟩ := Lts.Run.exists_of_exec (lts (Fin 2)) (fun _ _ => true) (init (Fin 2))
    [0, 0, 0, 0, 0, 1, 1, 1, 1, 1, 1, 1, 0, 0, 0, 0, 0, 0, 0] (fun s => s.lk = none ∧ s.pc 1 = .switched) rfl
    (by decide)
  obtain ⟨hlk, hpc⟩ := of_decide_eq_true hp
  exact ⟨s, hrun.reachable, hlk, hpc, sleeplock hrun.reachable⟩

end Sleeplock

end Xv6
