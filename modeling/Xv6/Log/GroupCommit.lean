import Mathlib.Algebra.BigOperators.Group.Finset.Basic
import Mathlib.Algebra.Order.BigOperators.Group.Finset
import Mathlib.Data.Finset.Card
import Mathlib.Tactic.Linarith
import Xv6.Lib.Lts
import Xv6.Param

/-!
# Group commit (`log.c`: `begin_op`, `log_write`, `end_op`)

The in-memory side of the log as a state machine. Any number of processes run `begin_op`, a number of
`log_write`s and `end_op`; the step of a process is one critical section of `log.lock`, the unlocked
test at the head of `log_write`, or the body of `commit`. `sleep(&log, &log.lock)` gives up the lock and
the processor in one step, as `sleep` takes `ptable.lock` before it releases `log.lock`, and
`wakeup(&log)` makes every sleeper runnable.
-/

namespace Xv6

open Function

/-- `struct log`, without its spin lock and device. `lh` lists `lh.block[0..lh.n)`: no function reads
an entry at or above `lh.n`. -/
structure Log where
  size : ℕ
  outstanding : ℤ
  committing : Bool
  lh : List ℕ
deriving DecidableEq

namespace Log

/-- The test of `begin_op`: this operation might exhaust the log space. -/
def Exhausted (l : Log) : Prop :=
  (l.lh.length : ℤ) + (l.outstanding + 1) * MAXOPBLOCKS > LOGSIZE

instance (l : Log) : Decidable l.Exhausted := by
  unfold Exhausted; infer_instance

/-- One pass of the loop of `begin_op`: `none` is a call of `sleep`. -/
def beginOp (l : Log) : Option Log :=
  if l.committing then none
  else if l.Exhausted then none
  else some { l with outstanding := l.outstanding + 1 }

/-- The tests `log_write` makes before it takes `log.lock`. -/
def logWriteCheck (l : Log) : Except Panic Unit :=
  if l.lh.length ≥ LOGSIZE ∨ (l.lh.length : ℤ) ≥ (l.size : ℤ) - 1 then .error .logTooBig
  else if l.outstanding < 1 then .error .logOutsideTrans
  else .ok ()

/-- The loop of `log_write` over `lh.block`, from index `i` on: `blockno` replaces the first equal
entry (log absorption) or goes into the entry after the last one. -/
def absorb (blockno : ℕ) : List ℕ → List ℕ
  | [] => [blockno]
  | b :: bs => if b = blockno then blockno :: bs else b :: absorb blockno bs

/-- The critical section of `log_write`. The array `lh.block` has `LOGSIZE` entries; a store past its
end has no defined effect. -/
def logWrite (l : Log) (blockno : ℕ) : Option Log :=
  let lh := absorb blockno l.lh
  if lh.length ≤ LOGSIZE then some { l with lh } else none

/-- The first critical section of `end_op`; the flag is `do_commit`. -/
def endOp (l : Log) : Except Panic (Bool × Log) :=
  let l := { l with outstanding := l.outstanding - 1 }
  if l.committing then .error .logCommitting
  else if l.outstanding = 0 then .ok (true, { l with committing := true })
  else .ok (false, l)

/-- The effect of `commit` on the in-memory header. -/
def commit (l : Log) : Log :=
  if l.lh.length > 0 then { l with lh := [] } else l

end Log

/-- Where a process is with respect to the log. -/
inductive LogPhase where
  /-- outside any operation -/
  | idle
  /-- SLEEPING on `&log` in `begin_op` -/
  | sleeping
  /-- woken in `begin_op`, about to take `log.lock` and test again -/
  | woken
  /-- between `begin_op` and `end_op` -/
  | inOp
  /-- in `log_write`, past its tests and before its critical section -/
  | logging (blockno : ℕ)
  /-- in `end_op` with `do_commit` set, before or in `commit` -/
  | inCommit
  /-- back from `commit`, before the last critical section of `end_op` -/
  | committed
deriving DecidableEq

namespace LogPhase

/-- The process counts as an outstanding operation. -/
def Active : LogPhase → Prop
  | .inOp | .logging _ => True
  | _ => False

/-- The process is in the committing part of `end_op`. -/
def Committing : LogPhase → Prop
  | .inCommit | .committed => True
  | _ => False

/-- The effect of `wakeup(&log)` on one process. -/
def wake : LogPhase → LogPhase
  | .sleeping => .woken
  | ph => ph

end LogPhase

/-- The log and the processes that use it. `logged` and `used` are history variables: the blocks
passed to `log_write` since the last commit ended, and those passed by the current operation of each
process. -/
structure LogSys (P : Type) where
  log : Log
  phase : P → LogPhase
  logged : List ℕ
  used : P → Finset ℕ
  panicked : Option Panic

/-- The steps of the processes. -/
inductive LogEvent (P : Type) where
  | beginOp (p : P)
  | logWrite (p : P) (blockno : ℕ)
  | logAppend (p : P)
  | endOp (p : P)
  | commit (p : P)
  | finish (p : P)

namespace LogSys

variable {P : Type} [DecidableEq P]

/-- Move `p` to phase `ph`. -/
def goto (s : LogSys P) (p : P) (ph : LogPhase) : LogSys P :=
  { s with phase := update s.phase p ph }

/-- `wakeup(&log)`. -/
def wakeup (s : LogSys P) : LogSys P :=
  { s with phase := fun p => (s.phase p).wake }

/-- One step of the system. A panic stops the machine. -/
def next (s : LogSys P) (e : LogEvent P) : Option (LogSys P) :=
  if s.panicked.isSome then none else
  match e with
  | .beginOp p =>
    if s.phase p = .idle ∨ s.phase p = .woken then
      match s.log.beginOp with
      | none => some (s.goto p .sleeping)
      | some log => some { s.goto p .inOp with log, used := update s.used p ∅ }
    else none
  | .logWrite p blockno =>
    if s.phase p = .inOp then
      match s.log.logWriteCheck with
      | .error e => some { s with panicked := some e }
      | .ok () => some (s.goto p (.logging blockno))
    else none
  | .logAppend p =>
    match s.phase p with
    | .logging blockno =>
      (s.log.logWrite blockno).map fun log =>
        { s.goto p .inOp with
          log, logged := s.logged ++ [blockno]
          used := update s.used p (insert blockno (s.used p)) }
    | _ => none
  | .endOp p =>
    if s.phase p = .inOp then
      match s.log.endOp with
      | .error e => some { s with panicked := some e }
      | .ok (true, log) => some { s.goto p .inCommit with log }
      | .ok (false, log) => some ({ s.goto p .idle with log }).wakeup
    else none
  | .commit p =>
    if s.phase p = .inCommit then some { s.goto p .committed with log := s.log.commit, logged := [] }
    else none
  | .finish p =>
    if s.phase p = .committed then
      some ({ s.goto p .idle with log := { s.log with committing := false } }).wakeup
    else none

/-- The system after `initlog`, with no process in an operation. -/
def boot (P : Type) (size : ℕ) : LogSys P where
  log := { size, outstanding := 0, committing := false, lh := [] }
  phase := fun _ => .idle
  logged := []
  used := fun _ => ∅
  panicked := none

/-- The group commit system over a log of `size` blocks. -/
def lts (P : Type) [DecidableEq P] (size : ℕ) : Lts (LogSys P) (LogEvent P) where
  init := fun s => s = boot P size
  next := next

/-! ## What a step can do -/

/-- The transitions of `next`, one constructor for each way a step can go. -/
inductive Step (s : LogSys P) : LogEvent P → LogSys P → Prop where
  | sleep {p : P} : s.phase p = .idle ∨ s.phase p = .woken → s.log.beginOp = none →
      Step s (.beginOp p) (s.goto p .sleeping)
  | enter {p : P} {log : Log} : s.phase p = .idle ∨ s.phase p = .woken →
      s.log.beginOp = some log →
      Step s (.beginOp p) { s.goto p .inOp with log, used := update s.used p ∅ }
  | refuse {p : P} {b : ℕ} {e : Panic} : s.phase p = .inOp → s.log.logWriteCheck = .error e →
      Step s (.logWrite p b) { s with panicked := some e }
  | check {p : P} {b : ℕ} : s.phase p = .inOp → s.log.logWriteCheck = .ok () →
      Step s (.logWrite p b) (s.goto p (.logging b))
  | append {p : P} {b : ℕ} {log : Log} : s.phase p = .logging b → s.log.logWrite b = some log →
      Step s (.logAppend p)
        { s.goto p .inOp with
          log, logged := s.logged ++ [b], used := update s.used p (insert b (s.used p)) }
  | endPanic {p : P} {e : Panic} : s.phase p = .inOp → s.log.endOp = .error e →
      Step s (.endOp p) { s with panicked := some e }
  | lastEnd {p : P} {log : Log} : s.phase p = .inOp → s.log.endOp = .ok (true, log) →
      Step s (.endOp p) { s.goto p .inCommit with log }
  | someEnd {p : P} {log : Log} : s.phase p = .inOp → s.log.endOp = .ok (false, log) →
      Step s (.endOp p) ({ s.goto p .idle with log }).wakeup
  | commit {p : P} : s.phase p = .inCommit →
      Step s (.commit p) { s.goto p .committed with log := s.log.commit, logged := [] }
  | finish {p : P} : s.phase p = .committed →
      Step s (.finish p) ({ s.goto p .idle with log := { s.log with committing := false } }).wakeup

theorem step_of_next {s s' : LogSys P} {e : LogEvent P} (h : next s e = some s') : s.panicked = none ∧ Step s e s' := by
  unfold next at h
  split at h
  · simp at h
  rename_i hpanic
  refine ⟨by simpa using hpanic, ?_⟩
  cases e with
  | beginOp p =>
    simp only at h
    obtain ⟨hp, h⟩ := Option.ite_none_right_eq_some.mp h
    split at h <;> cases h
    · exact .sleep hp ‹_›
    · exact .enter hp ‹_›
  | logWrite p b =>
    simp only at h
    obtain ⟨hp, h⟩ := Option.ite_none_right_eq_some.mp h
    split at h <;> cases h
    · exact .refuse hp ‹_›
    · exact .check hp ‹_›
  | logAppend p =>
    simp only at h
    split at h
    · rename_i b hp
      obtain ⟨log, hlog, rfl⟩ := Option.map_eq_some_iff.mp h
      exact .append hp hlog
    · simp at h
  | endOp p =>
    simp only at h
    obtain ⟨hp, h⟩ := Option.ite_none_right_eq_some.mp h
    split at h <;> cases h
    · exact .endPanic hp ‹_›
    · exact .lastEnd hp ‹_›
    · exact .someEnd hp ‹_›
  | commit p =>
    simp only at h
    split at h <;> cases h
    exact .commit ‹_›
  | finish p =>
    simp only at h
    split at h <;> cases h
    exact .finish ‹_›

end LogSys

/-! ## The critical sections -/

namespace Log

variable {l l' : Log}

theorem beginOp_eq_some (h : l.beginOp = some l') :
    l.committing = false ∧ ¬ l.Exhausted ∧ l' = { l with outstanding := l.outstanding + 1 } := by
  unfold beginOp at h
  split at h
  · simp at h
  split at h
  · simp at h
  exact ⟨by simpa using ‹¬ l.committing = true›, ‹_›, by simpa using h.symm⟩

theorem beginOp_eq_none_iff : l.beginOp = none ↔ l.committing = true ∨ l.Exhausted := by
  unfold beginOp
  by_cases hc : l.committing = true <;> by_cases hx : l.Exhausted <;> simp [hc, hx]

theorem endOp_eq_error {e : Panic} (h : l.endOp = .error e) : l.committing = true ∧ e = .logCommitting := by
  unfold endOp at h
  simp only at h
  split at h
  · exact ⟨‹_›, by simpa using h.symm⟩
  · split at h <;> simp at h

theorem endOp_eq_true (h : l.endOp = .ok (true, l')) : l.committing = false ∧ l.outstanding = 1 ∧
      l' = { l with outstanding := 0, committing := true } := by
  unfold endOp at h
  simp only at h
  split at h
  · simp at h
  rename_i hc
  split at h
  · rename_i ho
    have ho' : l.outstanding = 1 := by omega
    simp only [Except.ok.injEq, Prod.mk.injEq, true_and] at h
    exact ⟨by simpa using hc, ho', by rw [← h, ho]⟩
  · simp at h

theorem endOp_eq_false (h : l.endOp = .ok (false, l')) :
    l.committing = false ∧ l.outstanding ≠ 1 ∧ l' = { l with outstanding := l.outstanding - 1 } := by
  unfold endOp at h
  simp only at h
  split at h
  · simp at h
  rename_i hc
  split at h
  · simp at h
  · rename_i ho
    simp only [Except.ok.injEq, Prod.mk.injEq, true_and] at h
    exact ⟨by simpa using hc, by omega, h.symm⟩

/-- The loop of `log_write` keeps the header as it is when the block is there, and appends the block
otherwise. -/
theorem absorb_eq (b : ℕ) (lh : List ℕ) : absorb b lh = if b ∈ lh then lh else lh ++ [b] := by
  induction lh with
  | nil => rfl
  | cons a as ih =>
    by_cases ha : a = b
    · simp [absorb, ha]
    · have ha' : ¬ b = a := fun h => ha h.symm
      by_cases hb : b ∈ as <;> simp [absorb, ha, ha', ih, hb]

variable {b : ℕ} {lh : List ℕ}

theorem mem_absorb {a : ℕ} : a ∈ absorb b lh ↔ a ∈ lh ∨ a = b := by
  rw [absorb_eq]
  split
  · rename_i hb
    exact ⟨.inl, fun h => h.elim id fun h => h ▸ hb⟩
  · simp

theorem nodup_absorb (h : lh.Nodup) : (absorb b lh).Nodup := by
  rw [absorb_eq]
  split
  · exact h
  · rename_i hb
    exact List.nodup_append.mpr ⟨h, by simp, fun a ha c hc => by
      rintro rfl
      exact hb (by simpa using List.mem_singleton.mp hc ▸ ha)⟩

theorem length_le_absorb (b : ℕ) (lh : List ℕ) : lh.length ≤ (absorb b lh).length := by
  rw [absorb_eq]
  split <;> simp

theorem logWrite_eq_some (h : l.logWrite b = some l') :
    l' = { l with lh := absorb b l.lh } ∧ (absorb b l.lh).length ≤ LOGSIZE := by
  obtain ⟨hle, rfl⟩ := Lts.of_guard h
  exact ⟨rfl, hle⟩

theorem commit_eq (l : Log) : l.commit = { l with lh := [] } := by
  unfold commit
  split
  · rfl
  · rename_i h
    have : l.lh = [] := List.length_eq_zero_iff.mp (by omega)
    rw [← this]

end Log

/-! ## The invariant of group commit -/

namespace LogPhase

@[simp] theorem wake_active (ph : LogPhase) : ph.wake.Active ↔ ph.Active := by
  cases ph <;> simp [wake, Active]

@[simp] theorem wake_committing (ph : LogPhase) : ph.wake.Committing ↔ ph.Committing := by
  cases ph <;> simp [wake, Committing]

@[simp] theorem wake_ne_sleeping (ph : LogPhase) : ph.wake ≠ .sleeping := by
  cases ph <;> simp [wake]

@[simp] theorem wake_eq_logging (ph : LogPhase) (b : ℕ) : ph.wake = .logging b ↔ ph = .logging b := by
  cases ph <;> simp [wake]

@[simp] theorem wake_eq_committed (ph : LogPhase) : ph.wake = .committed ↔ ph = .committed := by
  cases ph <;> simp [wake]

theorem committing_of_committed {ph : LogPhase} (h : ph = .committed) : ph.Committing :=
  h ▸ trivial

end LogPhase

namespace LogSys

variable {P : Type} [DecidableEq P] {s s' : LogSys P} {p q : P} {ph : LogPhase} {e : LogEvent P}

theorem goto_phase (s : LogSys P) (p : P) (ph : LogPhase) (q : P) :
    (s.goto p ph).phase q = if q = p then ph else s.phase q := by
  simp [goto, update_apply]

/-- What holds in every reachable state, sleepers apart. -/
structure Core (s : LogSys P) : Prop where
  outstanding : ∃ ops : Finset P, (∀ p, p ∈ ops ↔ (s.phase p).Active) ∧
    s.log.outstanding = ops.card
  committing_iff : s.log.committing = true ↔ ∃ p, (s.phase p).Committing
  committer : ∀ p q, (s.phase p).Committing → (s.phase q).Committing → p = q
  quiet : s.log.committing = true → s.log.outstanding = 0
  nodup : s.log.lh.Nodup
  logged : ∀ b, b ∈ s.log.lh ↔ b ∈ s.logged
  committed : ∀ p, s.phase p = .committed → s.log.lh = []
  empty : s.log.outstanding = 0 → s.log.committing = false → s.log.lh = []
  panicked : s.panicked ≠ some .logCommitting

/-- What holds in every reachable state: a process sleeps in `begin_op` only while it would have to
sleep again. -/
structure Inv (s : LogSys P) : Prop extends Core s where
  asleep : ∀ p, s.phase p = .sleeping → s.log.beginOp = none

omit [DecidableEq P] in
/-- The operation count of an active process is at least one. -/
theorem Core.outstanding_pos (h : s.Core) (hp : (s.phase p).Active) : 0 < s.log.outstanding := by
  obtain ⟨ops, hops, hcard⟩ := h.outstanding
  have : 0 < ops.card := Finset.card_pos.mpr ⟨p, (hops p).mpr hp⟩
  omega

omit [DecidableEq P] in
/-- No operation is active during a commit. -/
theorem Core.not_committing (h : s.Core) (hp : (s.phase p).Active) : s.log.committing = false := by
  cases hc : s.log.committing with
  | false => rfl
  | true =>
    have := h.outstanding_pos hp
    have := h.quiet hc
    omega

omit [DecidableEq P] in
/-- `wakeup` restores the clause on sleepers: the woken processes test again. -/
theorem Core.wakeup (h : s.Core) : s.wakeup.Inv where
  outstanding := by simpa [LogSys.wakeup] using h.outstanding
  committing_iff := by simpa [LogSys.wakeup] using h.committing_iff
  committer := by simpa [LogSys.wakeup] using h.committer
  quiet := h.quiet
  nodup := h.nodup
  logged := h.logged
  committed := by simpa [LogSys.wakeup] using h.committed
  empty := h.empty
  panicked := h.panicked
  asleep := fun _ hp => absurd hp (LogPhase.wake_ne_sleeping _)

omit [DecidableEq P] in
theorem boot_inv (size : ℕ) : (boot P size).Inv where
  outstanding := ⟨∅, by simp [boot, LogPhase.Active], by simp [boot]⟩
  committing_iff := by simp [boot, LogPhase.Committing]
  committer := by simp [boot, LogPhase.Committing]
  quiet := by simp [boot]
  nodup := by simp [boot]
  logged := by simp [boot]
  committed := by simp [boot]
  empty := by simp [boot]
  panicked := by simp [boot]
  asleep := by simp [boot]

/-- Moving a process between phases of the same standing, the log unchanged. -/
theorem Inv.move (h : s.Inv) (hact : ph.Active ↔ (s.phase p).Active) (hcom : ¬ ph.Committing)
    (hcom' : ¬ (s.phase p).Committing) (hsleep : ph = .sleeping → s.log.beginOp = none) : (s.goto p ph).Inv where
  outstanding := by
    obtain ⟨ops, hops, hcard⟩ := h.outstanding
    refine ⟨ops, fun q => ?_, hcard⟩
    rw [goto_phase]
    split
    · rename_i hq
      rw [hact, hops, hq]
    · exact hops q
  committing_iff := by
    refine h.committing_iff.trans (exists_congr fun q => ?_)
    rw [goto_phase]
    split
    · rename_i hq
      simp [hq, hcom, hcom']
    · rfl
  committer := by
    intro q r hq hr
    rw [goto_phase] at hq hr
    split at hq
    · exact absurd hq hcom
    split at hr
    · exact absurd hr hcom
    exact h.committer q r hq hr
  quiet := h.quiet
  nodup := h.nodup
  logged := h.logged
  committed := by
    intro q hq
    rw [goto_phase] at hq
    split at hq
    · exact absurd (LogPhase.committing_of_committed hq) hcom
    · exact h.committed q hq
  empty := h.empty
  panicked := h.panicked
  asleep := by
    intro q hq
    rw [goto_phase] at hq
    split at hq
    · exact hsleep hq
    · exact h.asleep q hq

variable {ops : Finset P} {log : Log}

/-- The active processes after `p` has entered an operation. -/
theorem mem_insert_active (hops : ∀ q, q ∈ ops ↔ (s.phase q).Active)
    (hph : ph.Active) (q : P) : q ∈ insert p ops ↔ ((s.goto p ph).phase q).Active := by
  rw [goto_phase, Finset.mem_insert, hops]
  split
  · simp [*]
  · simp [*]

/-- The active processes after `p` has left its operation. -/
theorem mem_erase_active (hops : ∀ q, q ∈ ops ↔ (s.phase q).Active)
    (hph : ¬ ph.Active) (q : P) : q ∈ ops.erase p ↔ ((s.goto p ph).phase q).Active := by
  rw [goto_phase, Finset.mem_erase, hops]
  split
  · simp [*]
  · simp [*]

/-- Nobody is in the committing part of `end_op` while the flag is down. -/
theorem Core.goto_not_committing (h : s.Core) (hc : s.log.committing = false)
    (hph : ¬ ph.Committing) (q : P) : ¬ ((s.goto p ph).phase q).Committing := by
  rw [goto_phase]
  split
  · exact hph
  · intro hq
    have := h.committing_iff.mpr ⟨q, hq⟩
    simp [hc] at this

/-- `begin_op` admits an operation. -/
theorem Inv.enter (h : s.Inv) (hp : ¬ (s.phase p).Active) (hlog : s.log.beginOp = some log) :
    Inv { s.goto p .inOp with log, used := update s.used p ∅ } := by
  obtain ⟨hc, -, rfl⟩ := Log.beginOp_eq_some hlog
  obtain ⟨ops, hops, hcard⟩ := h.outstanding
  have hnc : ∀ q, ¬ ((s.goto p .inOp).phase q).Committing :=
    h.goto_not_committing hc (by simp [LogPhase.Committing])
  have hpos : s.log.outstanding + 1 ≠ 0 := by omega
  refine
    { outstanding := ⟨insert p ops, mem_insert_active hops trivial, ?_⟩
      committing_iff := ?_
      committer := fun q _ hq => absurd hq (hnc q)
      quiet := by simp [hc]
      nodup := h.nodup
      logged := h.logged
      committed := fun q hq => absurd (LogPhase.committing_of_committed hq) (hnc q)
      empty := fun ho => absurd ho hpos
      panicked := h.panicked
      asleep := ?_ }
  · have : p ∉ ops := fun hmem => hp ((hops p).mp hmem)
    simp [Finset.card_insert_of_notMem this, hcard]
  · simpa [hc] using hnc
  · -- a sleeper would have to sleep in the state where `p` is admitted
    intro q hq
    simp only [goto_phase] at hq
    split at hq
    · simp at hq
    · simp [h.asleep q hq] at hlog

/-- `log_write` enters its block into the header. -/
theorem Inv.append (h : s.Inv) {b : ℕ} (hp : s.phase p = .logging b) (hlog : s.log.logWrite b = some log) :
    Inv { s.goto p .inOp with
      log, logged := s.logged ++ [b], used := update s.used p (insert b (s.used p)) } := by
  obtain ⟨rfl, -⟩ := Log.logWrite_eq_some hlog
  have hact : (s.phase p).Active := by simp [hp, LogPhase.Active]
  have hpos := h.outstanding_pos hact
  have hc := h.not_committing hact
  have hmove : (s.goto p .inOp).Inv :=
    h.move (by simp [hp, LogPhase.Active]) (by simp [LogPhase.Committing])
      (by simp [hp, LogPhase.Committing]) (by simp)
  refine
    { outstanding := hmove.outstanding
      committing_iff := hmove.committing_iff
      committer := hmove.committer
      quiet := h.quiet
      nodup := Log.nodup_absorb h.nodup
      logged := fun a => by simp [Log.mem_absorb, h.logged]
      committed := fun q hq => ?_
      empty := fun ho => absurd ho hpos.ne'
      panicked := h.panicked
      asleep := fun q hq => ?_ }
  · exact absurd (LogPhase.committing_of_committed hq)
      (h.goto_not_committing hc (by simp [LogPhase.Committing]) q)
  · -- the header grew, so an operation that had no room still has none
    have hnone := (Log.beginOp_eq_none_iff.mp (hmove.asleep q hq)).resolve_left (by simp [goto, hc])
    refine Log.beginOp_eq_none_iff.mpr (.inr ?_)
    have hlen := Log.length_le_absorb b s.log.lh
    simp only [Log.Exhausted, goto] at hnone ⊢
    omega

/-- The last `end_op` raises the committing flag. -/
theorem Inv.lastEnd (h : s.Inv) (hp : s.phase p = .inOp)
    (hlog : s.log.endOp = .ok (true, log)) : Inv { s.goto p .inCommit with log } := by
  obtain ⟨hc, hone, rfl⟩ := Log.endOp_eq_true hlog
  obtain ⟨ops, hops, hcard⟩ := h.outstanding
  have hmem : p ∈ ops := (hops p).mpr (by simp [hp, LogPhase.Active])
  have honly : ∀ q, ((s.goto p .inCommit).phase q).Committing → q = p := by
    intro q hq
    rw [goto_phase] at hq
    split at hq
    · assumption
    · have := h.committing_iff.mpr ⟨q, hq⟩
      simp [hc] at this
  refine
    { outstanding := ⟨ops.erase p, mem_erase_active hops (by simp [LogPhase.Active]), ?_⟩
      committing_iff := by
        simp only [true_iff]
        exact ⟨p, by simp [goto_phase, LogPhase.Committing]⟩
      committer := fun q r hq hr => (honly q hq).trans (honly r hr).symm
      quiet := by simp
      nodup := h.nodup
      logged := h.logged
      committed := fun q hq => ?_
      empty := by simp
      panicked := h.panicked
      asleep := fun _ _ => Log.beginOp_eq_none_iff.mpr (.inl rfl) }
  · have := Finset.card_erase_of_mem hmem
    simp only
    omega
  · obtain rfl := honly q (LogPhase.committing_of_committed hq)
    simp [goto_phase] at hq

/-- An `end_op` that is not the last one, before its `wakeup`. -/
theorem Inv.someEnd (h : s.Inv) (hp : s.phase p = .inOp)
    (hlog : s.log.endOp = .ok (false, log)) : Core { s.goto p .idle with log } := by
  obtain ⟨hc, hone, rfl⟩ := Log.endOp_eq_false hlog
  obtain ⟨ops, hops, hcard⟩ := h.outstanding
  have hmem : p ∈ ops := (hops p).mpr (by simp [hp, LogPhase.Active])
  have hnc : ∀ q, ¬ ((s.goto p .idle).phase q).Committing :=
    h.goto_not_committing hc (by simp [LogPhase.Committing])
  refine
    { outstanding := ⟨ops.erase p, mem_erase_active hops (by simp [LogPhase.Active]), ?_⟩
      committing_iff := by simpa [hc] using hnc
      committer := fun q _ hq => absurd hq (hnc q)
      quiet := by simp [hc]
      nodup := h.nodup
      logged := h.logged
      committed := fun q hq => absurd (LogPhase.committing_of_committed hq) (hnc q)
      empty := fun ho => ?_
      panicked := h.panicked }
  · have := Finset.card_erase_of_mem hmem
    have := Finset.card_pos.mpr ⟨p, hmem⟩
    simp only
    omega
  · simp only at ho
    omega

/-- The body of `commit` empties the header. -/
theorem Inv.commit (h : s.Inv) (hp : s.phase p = .inCommit) :
    Inv { s.goto p .committed with log := s.log.commit, logged := [] } := by
  have hc : s.log.committing = true := h.committing_iff.mpr ⟨p, by simp [hp, LogPhase.Committing]⟩
  have hcom : ∀ q, ((s.goto p .committed).phase q).Committing ↔ (s.phase q).Committing := by
    intro q
    rw [goto_phase]
    split
    · rename_i hq
      simp [hq, hp, LogPhase.Committing]
    · rfl
  rw [Log.commit_eq]
  obtain ⟨ops, hops, hcard⟩ := h.outstanding
  refine
    { outstanding := ⟨ops, fun q => ?_, hcard⟩
      committing_iff := by simpa [hcom] using h.committing_iff
      committer := fun q r hq hr => h.committer q r ((hcom q).mp hq) ((hcom r).mp hr)
      quiet := h.quiet
      nodup := by simp
      logged := by simp
      committed := by simp
      empty := by simp
      panicked := h.panicked
      asleep := fun _ _ => Log.beginOp_eq_none_iff.mpr (.inl hc) }
  simp only [goto_phase]
  split
  · rename_i hq
    simp [hq, hops, hp, LogPhase.Active]
  · exact hops q

/-- The last critical section of `end_op`, before its `wakeup`. -/
theorem Inv.finish (h : s.Inv) (hp : s.phase p = .committed) :
    Core { s.goto p .idle with log := { s.log with committing := false } } := by
  have hpc : (s.phase p).Committing := by simp [hp, LogPhase.Committing]
  have hnc : ∀ q, ¬ ((s.goto p .idle).phase q).Committing := by
    intro q hq
    rw [goto_phase] at hq
    split at hq
    · simp [LogPhase.Committing] at hq
    · rename_i hne
      exact hne (h.committer q p hq hpc)
  obtain ⟨ops, hops, hcard⟩ := h.outstanding
  refine
    { outstanding := ⟨ops, fun q => ?_, hcard⟩
      committing_iff := by simpa using hnc
      committer := fun q _ hq => absurd hq (hnc q)
      quiet := by simp
      nodup := h.nodup
      logged := h.logged
      committed := fun q hq => absurd (LogPhase.committing_of_committed hq) (hnc q)
      empty := fun _ _ => h.committed p hp
      panicked := h.panicked }
  simp only [goto_phase]
  split
  · rename_i hq
    simp [hq, hops, hp, LogPhase.Active]
  · exact hops q

/-- Every step keeps the invariant. -/
theorem Inv.step (h : s.Inv) (hstep : Step s e s') : s'.Inv := by
  cases hstep with
  | sleep hp hlog =>
    rcases hp with hp | hp <;>
      exact h.move (by simp [hp, LogPhase.Active]) (by simp [LogPhase.Committing])
        (by simp [hp, LogPhase.Committing]) fun _ => hlog
  | enter hp hlog => exact h.enter (by rcases hp with hp | hp <;> simp [hp, LogPhase.Active]) hlog
  | refuse hp hlog =>
    refine { h with panicked := ?_ }
    unfold Log.logWriteCheck at hlog
    split at hlog
    · cases hlog; simp
    split at hlog <;> cases hlog
    simp
  | check hp hlog =>
    exact h.move (by simp [hp, LogPhase.Active]) (by simp [LogPhase.Committing])
      (by simp [hp, LogPhase.Committing]) (by simp)
  | append hp hlog => exact h.append hp hlog
  | endPanic hp hlog =>
    have hc := (Log.endOp_eq_error hlog).1
    simp [h.not_committing (by rw [hp]; trivial)] at hc
  | lastEnd hp hlog => exact h.lastEnd hp hlog
  | someEnd hp hlog => exact (h.someEnd hp hlog).wakeup
  | commit hp => exact h.commit hp
  | finish hp => exact (h.finish hp).wakeup

/-- The invariant holds in every reachable state, over a log of any size. -/
theorem inv_of_run {size : ℕ} {ok : LogSys P → LogEvent P → Prop} (h : (lts P size).Run ok s) : s.Inv :=
  h.invariant (fun _ hs => hs ▸ boot_inv size) fun _ _ _ hinv _ hnext =>
    hinv.step (step_of_next hnext).2

/-- **Group commit.** In every reachable state a commit excludes outstanding operations and other
committers, `log_write` runs outside commits only, `end_op` does not panic, the header holds exactly
the blocks logged since the last commit, each once, an idle log is empty and admits an operation, and
nobody sleeps in `begin_op` who could be admitted. -/
theorem group_commit {size : ℕ} (h : (lts P size).Reachable s) :
    (s.log.committing = true → s.log.outstanding = 0 ∧ ∃! p, (s.phase p).Committing) ∧
    (∀ e s', next s e = some s' → (∃ p b, e = .logWrite p b) ∨ (∃ p, e = .logAppend p) →
      s.log.committing = false ∧ s'.log.committing = false) ∧
    s.panicked ≠ some .logCommitting ∧
    (s.log.lh.Nodup ∧ ∀ b, b ∈ s.log.lh ↔ b ∈ s.logged) ∧
    (s.log.outstanding = 0 → s.log.committing = false →
      s.log.lh = [] ∧ ∃ log, s.log.beginOp = some log) ∧
    ∀ p, s.phase p = .sleeping → s.log.beginOp = none := by
  have hinv := inv_of_run h
  refine ⟨fun hc => ⟨hinv.quiet hc, ?_⟩, ?_, hinv.panicked, ⟨hinv.nodup, hinv.logged⟩, ?_,
    hinv.asleep⟩
  · obtain ⟨p, hp⟩ := hinv.committing_iff.mp hc
    exact ⟨p, hp, fun q hq => hinv.committer q p hq hp⟩
  · intro e s' hnext he
    have hstep := (step_of_next hnext).2
    -- either way the event is a step of an active process
    suffices s.log.committing = false ∧ s'.log.committing = s.log.committing from
      ⟨this.1, this.2.trans this.1⟩
    cases hstep with
    | refuse hp => exact ⟨hinv.not_committing (by rw [hp]; trivial), rfl⟩
    | check hp => exact ⟨hinv.not_committing (by rw [hp]; trivial), rfl⟩
    | append hp hlog =>
      obtain ⟨rfl, -⟩ := Log.logWrite_eq_some hlog
      exact ⟨hinv.not_committing (by rw [hp]; trivial), rfl⟩
    | _ => simp at he
  · intro ho hc
    have hlh := hinv.empty ho hc
    refine ⟨hlh, { s.log with outstanding := s.log.outstanding + 1 }, ?_⟩
    simp [Log.beginOp, Log.Exhausted, hlh, hc, ho, MAXOPBLOCKS, LOGSIZE]

/-- Two operations log one block together and a third apart; the second `end_op` starts the commit. -/
theorem group_commit_two_ops : ∃ s : LogSys (Fin 2), (lts (Fin 2) nlog).Reachable s ∧
    s.log.committing = true ∧ s.log.lh = [40, 41] ∧ s.log.outstanding = 0 := by
  obtain ⟨s, hs, hp⟩ := Lts.Run.exists_of_exec (lts (Fin 2) nlog) (fun _ _ => true) (boot (Fin 2) nlog)
    [.beginOp 0, .beginOp 1, .logWrite 0 40, .logAppend 0, .logWrite 1 41, .logWrite 0 40,
      .logAppend 0, .logAppend 1, .endOp 0, .endOp 1]
    (fun s => s.log.committing && decide (s.log.lh = [40, 41])) rfl (by decide)
  simp only [Bool.and_eq_true, decide_eq_true_eq] at hp
  exact ⟨s, hs.reachable, hp.1, hp.2, ((group_commit hs.reachable).1 hp.1).1⟩

end LogSys

end Xv6
