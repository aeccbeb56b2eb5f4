import Xv6.Lib.Lts
import Xv6.Lib.Ring
import Mathlib.Tactic.Common

/-!
# Pipes (`pipe.c`)

Any number of processes in `pipewrite`, `piperead` and `pipeclose` on one pipe, while `kill` comes at any moment.
A process takes one statement at a time between `acquire(&p->lock)` and `release(&p->lock)`; the critical sections
of `ptable.lock` in `sleep`, `wakeup` and `kill` are single steps. The history of the pipe is kept beside it: the
bytes stored and the bytes taken out so far, in order, and the results of the calls of `piperead`.
-/

namespace Xv6

open Function

namespace Pipe

def PIPESIZE : ℕ := 512

instance : NeZero PIPESIZE := ⟨by decide⟩

/-- What a process can sleep on. -/
inductive Chan where
  | nread
  | nwrite
deriving DecidableEq

/-- The points of the three functions. `bs` are the bytes that `pipewrite` has still to store, `got` those that
`piperead` has copied out. -/
inductive Pc where
  | out
  | writeAcquire (bs : List UInt8)
  /-- `i < n`, and the test of `pipewrite-full`. -/
  | writeLoop (bs : List UInt8)
  /-- `if(p->readopen == 0 || myproc()->killed)`. -/
  | writeTest (bs : List UInt8)
  /-- `release(&p->lock); return -1`. -/
  | writeFail
  /-- `wakeup(&p->nread)` in the loop. -/
  | writeWakeup (bs : List UInt8)
  | writeSleep (bs : List UInt8)
  | writeSwitched (bs : List UInt8)
  /-- `wakeup(&p->nread)` after the loop. -/
  | writeDone
  | writeRelease
  | readAcquire (n : ℤ)
  /-- The test of `pipe-empty`. -/
  | readLoop (n : ℤ)
  /-- `if(myproc()->killed)`. -/
  | readTest (n : ℤ)
  | readFail
  | readSleep (n : ℤ)
  | readSwitched (n : ℤ)
  /-- The loop `piperead-copy`. -/
  | readCopy (n : ℤ) (got : List UInt8)
  /-- `wakeup(&p->nwrite)`. -/
  | readDone (n : ℤ) (got : List UInt8)
  /-- `release(&p->lock); return i`. -/
  | readRelease (n : ℤ) (got : List UInt8)
  | closeAcquire (writable : Bool)
  /-- `p->writeopen = 0` or `p->readopen = 0`. -/
  | closeSet (writable : Bool)
  | closeWakeup (writable : Bool)
  | closeRelease
deriving DecidableEq

/-- `struct pipe`, the processes, and the history. -/
structure State (P : Type) where
  data : Fin PIPESIZE → UInt8
  nread : BitVec 32
  nwrite : BitVec 32
  readopen : Bool
  writeopen : Bool
  lock : Option P
  pc : P → Pc
  sleeping : P → Option Chan
  killed : P → Bool
  /-- All bytes ever stored by `pipewrite`. -/
  stored : List UInt8
  /-- All bytes ever copied out by `piperead`. -/
  delivered : List UInt8
  /-- What the calls of `piperead` returned. -/
  reads : List (List UInt8)
  /-- The holder of `p->lock` has stored a byte since it last called `wakeup(&p->nread)`. -/
  news : Bool

/-- What can happen. -/
inductive Event (P : Type) where
  | write (p : P) (bs : List UInt8)
  | read (p : P) (n : ℤ)
  | close (p : P) (writable : Bool)
  | step (p : P)
  | kill (p : P)

variable {P : Type} [DecidableEq P]

namespace State

/-- `p->nwrite == p->nread + PIPESIZE`. -/
abbrev Full (s : State P) : Prop := s.nwrite = s.nread + BitVec.ofNat 32 PIPESIZE

/-- `p->nread == p->nwrite`. -/
abbrev Empty (s : State P) : Prop := s.nread = s.nwrite

/-- Process `p` goes on to `c`. -/
def goto (s : State P) (p : P) (c : Pc) : State P := { s with pc := update s.pc p c }

/-- `acquire(&p->lock)`. -/
def acquire (s : State P) (p : P) (c : Pc) : Option (State P) :=
  if s.lock = none then some { s.goto p c with lock := some p } else none

/-- `release(&p->lock)`. -/
def release (s : State P) : State P := { s with lock := none, news := false }

/-- `sleep(chan, &p->lock)`, up to `sched`. -/
def sleep (s : State P) (p : P) (chan : Chan) : State P :=
  { s.release with sleeping := update s.sleeping p (some chan) }

/-- `wakeup(chan)`. -/
def wakeup (s : State P) (chan : Chan) : State P :=
  { s with sleeping := fun q => if s.sleeping q = some chan then none else s.sleeping q
           news := if chan = .nread then false else s.news }

/-- `p->data[p->nwrite++ % PIPESIZE] = b`. -/
def store (s : State P) (b : UInt8) : State P :=
  { s with data := update s.data (Ring.slot PIPESIZE s.nwrite) b
           nwrite := s.nwrite + 1
           stored := s.stored ++ [b]
           news := true }

/-- The byte `p->data[p->nread % PIPESIZE]`. -/
def front (s : State P) : UInt8 := s.data (Ring.slot PIPESIZE s.nread)

/-- `addr[i] = p->data[p->nread++ % PIPESIZE]`. -/
def load (s : State P) : State P :=
  { s with nread := s.nread + 1, delivered := s.delivered ++ [s.front] }

/-- `p->writeopen = 0` or `p->readopen = 0`. -/
def setClosed (s : State P) (writable : Bool) : State P :=
  if writable then { s with writeopen := false } else { s with readopen := false }

/-- The next step of process `p`. -/
def step (s : State P) (p : P) : Option (State P) :=
  match s.pc p with
  | .out => none
  | .writeAcquire bs => s.acquire p (.writeLoop bs)
  | .writeLoop [] => some (s.goto p .writeDone)
  | .writeLoop (b :: bs) =>
    if s.Full then some (s.goto p (.writeTest (b :: bs))) else some ((s.store b).goto p (.writeLoop bs))
  | .writeTest bs =>
    if s.readopen = false ∨ s.killed p = true then some (s.goto p .writeFail) else some (s.goto p (.writeWakeup bs))
  | .writeFail => some (s.release.goto p .out)
  | .writeWakeup bs => some ((s.wakeup .nread).goto p (.writeSleep bs))
  | .writeSleep bs => some ((s.sleep p .nwrite).goto p (.writeSwitched bs))
  | .writeSwitched bs => if s.sleeping p = none then s.acquire p (.writeLoop bs) else none
  | .writeDone => some ((s.wakeup .nread).goto p .writeRelease)
  | .writeRelease => some (s.release.goto p .out)
  | .readAcquire n => s.acquire p (.readLoop n)
  | .readLoop n =>
    if s.Empty ∧ s.writeopen = true then some (s.goto p (.readTest n)) else some (s.goto p (.readCopy n []))
  | .readTest n => if s.killed p then some (s.goto p .readFail) else some (s.goto p (.readSleep n))
  | .readFail => some (s.release.goto p .out)
  | .readSleep n => some ((s.sleep p .nread).goto p (.readSwitched n))
  | .readSwitched n => if s.sleeping p = none then s.acquire p (.readLoop n) else none
  | .readCopy n got =>
    if got.length < n ∧ ¬ s.Empty then some (s.load.goto p (.readCopy n (got ++ [s.front])))
    else some (s.goto p (.readDone n got))
  | .readDone n got => some ((s.wakeup .nwrite).goto p (.readRelease n got))
  | .readRelease _ got => some ({ s.release with reads := s.reads ++ [got] }.goto p .out)
  | .closeAcquire w => s.acquire p (.closeSet w)
  | .closeSet w => some ((s.setClosed w).goto p (.closeWakeup w))
  | .closeWakeup w => some ((s.wakeup (if w then .nread else .nwrite)).goto p .closeRelease)
  | .closeRelease => some (s.release.goto p .out)

/-- Process `p` calls a function of the pipe. -/
def call (s : State P) (p : P) (c : Pc) : Option (State P) := if s.pc p = .out then some (s.goto p c) else none

/-- The effect of an event. -/
def next (s : State P) : Event P → Option (State P)
  | .write p bs => s.call p (.writeAcquire bs)
  | .read p n => s.call p (.readAcquire n)
  | .close p w => s.call p (.closeAcquire w)
  | .step p => s.step p
  | .kill p =>
    some { s with killed := update s.killed p true, sleeping := update s.sleeping p none }

end State

/-- A pipe as `pipealloc` leaves it. -/
structure Init (s : State P) : Prop where
  nread : s.nread = 0
  nwrite : s.nwrite = 0
  readopen : s.readopen = true
  writeopen : s.writeopen = true
  lock : s.lock = none
  pc : ∀ p, s.pc p = .out
  sleeping : ∀ p, s.sleeping p = none
  stored : s.stored = []
  delivered : s.delivered = []
  reads : s.reads = []
  news : s.news = false

/-- Every interleaving. -/
def lts (P : Type) [DecidableEq P] : Lts (State P) (Event P) where
  init := Init
  next := State.next

/-! ## What the holder of `p->lock` knows -/

/-- The points at which a process holds `p->lock`. -/
def Pc.HasLock : Pc → Bool
  | .out | .writeAcquire _ | .writeSwitched _ | .readAcquire _ | .readSwitched _ | .closeAcquire _ => false
  | _ => true

/-- The points at which a process can be asleep on `chan`. -/
def Pc.Sleeps : Pc → Chan → Prop
  | .readSwitched _, .nread | .writeSwitched _, .nwrite => True
  | _, _ => False

/-- The bytes of a read that has not yet returned. -/
def Pc.got : Pc → List UInt8
  | .readCopy _ got | .readDone _ got | .readRelease _ got => got
  | _ => []

namespace State

/-- The assertion at each point inside the critical section. -/
def Here (s : State P) : Pc → Prop
  | .writeTest _ | .writeFail => s.Full
  | .writeWakeup _ | .writeSleep _ => s.Full ∧ s.readopen = true
  | .readTest _ | .readSleep _ => s.Empty ∧ s.writeopen = true
  | .readCopy _ got => got = [] → ¬ s.Empty ∨ s.writeopen = false
  | .readDone n got | .readRelease n got => got = [] → 0 < n → s.Empty ∧ s.writeopen = false
  | _ => True

/-- The bytes of the read in progress. -/
def inflight (s : State P) : List UInt8 := s.lock.elim [] fun p => (s.pc p).got

/-- The bytes in the buffer are the stored ones that have not been delivered. -/
def Fifo (s : State P) : Prop :=
  ∃ rest, Ring.Holds s.data s.nread s.nwrite rest ∧ s.stored = s.delivered ++ rest

end State

/-- The invariant: who holds the lock, who can be asleep, the queue, and the assertion where the holder is. -/
structure Inv (s : State P) : Prop where
  owner : ∀ p, (s.pc p).HasLock = true ↔ s.lock = some p
  asleep : ∀ p chan, s.sleeping p = some chan → (s.pc p).Sleeps chan
  fifo : s.Fifo
  returned : s.delivered = s.reads.flatten ++ s.inflight
  here : ∀ p, s.lock = some p → s.Here (s.pc p)

variable {s s' : State P} {p : P} {c : Pc}

theorem Pc.not_sleeps {chan : Chan} (h : c.HasLock = true) : ¬ c.Sleeps chan := by
  cases c <;> simp [Pc.HasLock, Pc.Sleeps] at *

omit [DecidableEq P] in
theorem here_congr (hr : s'.nread = s.nread) (hw : s'.nwrite = s.nwrite) (hro : s'.readopen = s.readopen)
    (hwo : s'.writeopen = s.writeopen) : s'.Here c ↔ s.Here c := by
  cases c <;> simp only [State.Here, State.Full, State.Empty, hr, hw, hro, hwo]

/-- A step of the holder: the lock, and the assertion at the next point. -/
theorem Inv.of_holder (h : Inv s) (hl : s.lock = some p) (hpc : s'.pc = update s.pc p c)
    (hlock : s'.lock = if c.HasLock then some p else none)
    (hsleeping : ∀ q chan, s'.sleeping q = some chan → s.sleeping q = some chan ∨ q = p ∧ c.Sleeps chan)
    (hfifo : s'.Fifo) (hreturned : s'.delivered = s'.reads.flatten ++ if c.HasLock then c.got else [])
    (hhere : c.HasLock = true → s'.Here c) : Inv s' := by
  have hother : ∀ q, q ≠ p → (s.pc q).HasLock = false := by
    intro q hq
    rw [← Bool.not_eq_true, h.owner, hl, Option.some.injEq]
    exact hq.symm
  constructor
  · intro q
    rw [hpc, hlock]
    by_cases hq : q = p
    · subst hq
      cases hc : c.HasLock <;> simp [hc]
    · rw [update_of_ne hq, hother q hq]
      cases hc : c.HasLock <;> simp [Ne.symm hq]
  · intro q chan hq
    rw [hpc]
    rcases hsleeping q chan hq with hq | ⟨rfl, hq⟩
    · have hsl := h.asleep q chan hq
      have hne : q ≠ p := by
        rintro rfl
        exact Pc.not_sleeps ((h.owner q).mpr hl) hsl
      rwa [update_of_ne hne]
    · rwa [update_self]
  · exact hfifo
  · rw [hreturned, State.inflight, hlock, hpc]
    cases c.HasLock <;> simp
  · intro q hq
    rw [hlock] at hq
    cases hc : c.HasLock with
    | false => simp [hc] at hq
    | true =>
      obtain rfl : p = q := by simpa [hc] using hq
      rw [hpc, update_self]
      exact hhere hc

/-- Taking the lock, at a point where nothing has been found out yet. -/
theorem Inv.acquire (h : Inv s) (hs : s.acquire p c = some s') (hp : s.sleeping p = none) (hhas : c.HasLock = true)
    (hgot : c.got = []) (hhere : ∀ s : State P, s.Here c) : Inv s' := by
  obtain ⟨hfree, rfl⟩ := Lts.of_guard hs
  constructor
  · intro q
    have hq := h.owner q
    rw [hfree] at hq
    by_cases hqp : q = p
    · simp [State.goto, hqp, hhas]
    · simp [State.goto, hqp, Ne.symm hqp, hq]
  · intro q chan hq
    have hsl := h.asleep q chan hq
    have hne : q ≠ p := by
      rintro rfl
      exact absurd (hp.symm.trans hq) nofun
    simpa [State.goto, hne] using hsl
  · exact h.fifo
  · have hret := h.returned
    simp only [State.inflight, hfree, Option.elim_none] at hret
    simpa [State.inflight, State.goto, hgot] using hret
  · intro q hq
    obtain rfl : p = q := Option.some.inj hq
    simpa [State.goto] using hhere _

/-- A step outside the critical section. -/
theorem Inv.outside (h : Inv s) (hs : (s.pc p).HasLock = false) (hc : c.HasLock = false)
    (hp : s.sleeping p = none) : Inv (s.goto p c) := by
  have hholder : ∀ q, s.lock = some q → q ≠ p := by
    rintro q hq rfl
    rw [← h.owner, hs] at hq
    exact absurd hq Bool.false_ne_true
  constructor
  · intro q
    by_cases hqp : q = p
    · subst hqp
      simpa [State.goto, hc, hs] using h.owner q
    · simpa [State.goto, hqp] using h.owner q
  · intro q chan hq
    have hne : q ≠ p := by
      rintro rfl
      exact absurd (hp.symm.trans hq) nofun
    simpa [State.goto, hne] using h.asleep q chan hq
  · exact h.fifo
  · have hret := h.returned
    cases hl : s.lock with
    | none => simpa [State.inflight, State.goto, hl] using hret
    | some q => simpa [State.inflight, State.goto, hl, hholder q hl] using hret
  · intro q hq
    have hne := hholder q hq
    simp only [State.goto, update_of_ne hne]
    exact (here_congr rfl rfl rfl rfl).mpr (h.here q hq)

theorem Inv.kill (h : Inv s) : Inv { s with killed := update s.killed p true,
                                            sleeping := update s.sleeping p none } := by
  refine ⟨h.owner, fun q chan hq => h.asleep q chan ?_, h.fifo, h.returned, fun q hq => ?_⟩
  · by_cases hqp : q = p <;> simp_all
  · exact (here_congr rfl rfl rfl rfl).mpr (h.here q hq)

omit [DecidableEq P] in
theorem Inv.lock_eq (h : Inv s) (hpc : s.pc p = c) (hc : c.HasLock = true) : s.lock = some p := by
  rw [← h.owner, hpc, hc]

omit [DecidableEq P] in
/-- Outside a read, everything delivered has been returned. -/
theorem Inv.delivered_eq (h : Inv s) (hl : s.lock = some p) : s.delivered = s.reads.flatten ++ (s.pc p).got := by
  rw [h.returned, State.inflight, hl]
  rfl

theorem dvd_pow : PIPESIZE ∣ 2 ^ 32 := by decide

theorem lt_pow : PIPESIZE < 2 ^ 32 := by decide

omit [DecidableEq P] in
theorem State.Fifo.store (h : s.Fifo) (hfull : ¬ s.Full) (b : UInt8) : (s.store b).Fifo := by
  obtain ⟨rest, hholds, hstored⟩ := h
  have hroom : rest.length < PIPESIZE := by
    rw [State.Full, hholds.full_iff lt_pow] at hfull
    exact lt_of_le_of_ne hholds.length_le hfull
  exact ⟨rest ++ [b], hholds.push dvd_pow hroom b, by simp [State.store, hstored]⟩

omit [DecidableEq P] in
theorem State.Fifo.load (h : s.Fifo) (hempty : ¬ s.Empty) : s.load.Fifo := by
  obtain ⟨rest, hholds, hstored⟩ := h
  rw [State.Empty, hholds.eq_iff lt_pow] at hempty
  obtain ⟨b, rest, rfl⟩ := List.exists_cons_of_ne_nil hempty
  exact ⟨rest, hholds.pop, by simp [State.load, State.front, hholds.head, hstored]⟩

omit [DecidableEq P] in
theorem wakeup_sleeping {chan ch : Chan} {q : P} (h : (s.wakeup chan).sleeping q = some ch) :
    s.sleeping q = some ch := by
  by_cases hq : s.sleeping q = some chan <;> simp_all [State.wakeup]

section

variable (h : Inv s)

include h

omit [DecidableEq P] in
theorem Inv.awake (hpc : s.pc p = c) (hc : ∀ chan, ¬ c.Sleeps chan) : s.sleeping p = none := by
  cases hsl : s.sleeping p with
  | none => rfl
  | some chan => exact absurd (hpc ▸ h.asleep p chan hsl) (hc chan)

/-- A step of the holder that changes nothing but its own point. -/
theorem Inv.goto (hl : s.lock = some p) (hc : c.HasLock = true) (hgot : c.got = (s.pc p).got)
    (hhere : s.Here c) : Inv (s.goto p c) := by
  refine h.of_holder (c := c) hl rfl (by simp [State.goto, hl, hc]) (fun _ _ => .inl) h.fifo ?_ fun _ => ?_
  · simpa [hc, hgot, State.goto] using h.delivered_eq hl
  · exact (here_congr rfl rfl rfl rfl).mpr hhere

/-- A step of the holder that wakes sleepers. -/
theorem Inv.wakeup (hl : s.lock = some p) (chan : Chan) (hc : c.HasLock = true)
    (hgot : c.got = (s.pc p).got) (hhere : s.Here c) : Inv ((s.wakeup chan).goto p c) := by
  refine h.of_holder (c := c) hl rfl (by simp [State.goto, State.wakeup, hl, hc])
    (fun _ _ hq => .inl (wakeup_sleeping hq)) h.fifo ?_ fun _ => ?_
  · simpa [hc, hgot, State.goto, State.wakeup] using h.delivered_eq hl
  · exact (here_congr rfl rfl rfl rfl).mpr hhere

/-- The holder leaves, outside a read. -/
theorem Inv.release (hl : s.lock = some p) (hgot : (s.pc p).got = []) : Inv (s.release.goto p .out) := by
  refine h.of_holder (c := .out) hl rfl rfl (fun _ _ => .inl) h.fifo ?_ nofun
  simpa [hgot, State.goto, State.release, Pc.HasLock] using h.delivered_eq hl

/-- The holder goes to sleep, outside a read. -/
theorem Inv.sleep (hl : s.lock = some p) (hgot : (s.pc p).got = []) {chan : Chan} (hc : c.Sleeps chan)
    (hhas : c.HasLock = false) : Inv ((s.sleep p chan).goto p c) := by
  refine h.of_holder (c := c) hl rfl (by simp [State.goto, State.sleep, State.release, hhas]) (fun q ch hq => ?_) h.fifo ?_ ?_
  · by_cases hqp : q = p
    · subst hqp
      obtain rfl : chan = ch := by simpa [State.sleep, State.goto] using hq
      exact .inr ⟨rfl, hc⟩
    · exact .inl (by simpa [State.sleep, State.goto, hqp] using hq)
  · simpa [hgot, hhas, State.goto, State.sleep, State.release] using h.delivered_eq hl
  · simp [hhas]

theorem Inv.step (hs : s.step p = some s') : Inv s' := by
  cases hpc : s.pc p with
  | out => simp [State.step, hpc] at hs
  | writeAcquire bs | readAcquire n | closeAcquire w =>
    simp only [State.step, hpc] at hs
    exact h.acquire hs (h.awake hpc fun _ => by simp [Pc.Sleeps]) rfl rfl fun _ => trivial
  | writeSwitched bs | readSwitched n =>
    simp only [State.step, hpc, Option.ite_none_right_eq_some] at hs
    exact h.acquire hs.2 hs.1 rfl rfl fun _ => trivial
  | writeLoop bs =>
    have hl := h.lock_eq hpc rfl
    cases bs with
    | nil =>
      simp only [State.step, hpc, Option.some.injEq] at hs
      exact hs ▸ h.goto hl rfl (by rw [hpc]; rfl) trivial
    | cons b bs =>
      by_cases hfull : s.Full
      · simp only [State.step, hpc, if_pos hfull, Option.some.injEq] at hs
        exact hs ▸ h.goto hl rfl (by rw [hpc]; rfl) hfull
      · simp only [State.step, hpc, if_neg hfull, Option.some.injEq] at hs
        subst hs
        refine h.of_holder (c := .writeLoop bs) hl rfl hl (fun _ _ => .inl) (h.fifo.store hfull b) ?_ fun _ => trivial
        simpa [hpc, Pc.got, State.goto, State.store] using h.delivered_eq hl
  | writeTest bs =>
    have hl := h.lock_eq hpc rfl
    have hhere := h.here p hl
    rw [hpc] at hhere
    by_cases hfail : s.readopen = false ∨ s.killed p = true
    · simp only [State.step, hpc, if_pos hfail, Option.some.injEq] at hs
      exact hs ▸ h.goto hl rfl (by rw [hpc]; rfl) hhere
    · simp only [State.step, hpc, if_neg hfail, Option.some.injEq] at hs
      have hopen : s.readopen = true := by
        rw [not_or, Bool.not_eq_false] at hfail
        exact hfail.1
      exact hs ▸ h.goto hl rfl (by rw [hpc]; rfl) ⟨hhere, hopen⟩
  | writeWakeup bs =>
    have hl := h.lock_eq hpc rfl
    have hhere := h.here p hl
    rw [hpc] at hhere
    simp only [State.step, hpc, Option.some.injEq] at hs
    exact hs ▸ h.wakeup hl _ rfl (by rw [hpc]; rfl) hhere
  | writeSleep bs | readSleep n =>
    simp only [State.step, hpc, Option.some.injEq] at hs
    exact hs ▸ h.sleep (h.lock_eq hpc rfl) (by rw [hpc]; rfl) trivial rfl
  | writeDone =>
    simp only [State.step, hpc, Option.some.injEq] at hs
    exact hs ▸ h.wakeup (h.lock_eq hpc rfl) _ rfl (by rw [hpc]; rfl) trivial
  | writeFail | writeRelease | readFail | closeRelease =>
    simp only [State.step, hpc, Option.some.injEq] at hs
    exact hs ▸ h.release (h.lock_eq hpc rfl) (by rw [hpc]; rfl)
  | readLoop n =>
    have hl := h.lock_eq hpc rfl
    by_cases hwait : s.Empty ∧ s.writeopen = true
    · simp only [State.step, hpc, if_pos hwait, Option.some.injEq] at hs
      exact hs ▸ h.goto hl rfl (by rw [hpc]; rfl) hwait
    · simp only [State.step, hpc, if_neg hwait, Option.some.injEq] at hs
      have hready : ¬ s.Empty ∨ s.writeopen = false := by
        rw [← Bool.not_eq_true]
        exact not_and_or.mp hwait
      exact hs ▸ h.goto hl rfl (by rw [hpc]; rfl) fun _ => hready
  | readTest n =>
    have hl := h.lock_eq hpc rfl
    have hhere := h.here p hl
    rw [hpc] at hhere
    by_cases hkilled : s.killed p = true
    · simp only [State.step, hpc, if_pos hkilled, Option.some.injEq] at hs
      exact hs ▸ h.goto hl rfl (by rw [hpc]; rfl) trivial
    · simp only [State.step, hpc, if_neg hkilled, Option.some.injEq] at hs
      exact hs ▸ h.goto hl rfl (by rw [hpc]; rfl) hhere
  | readCopy n got =>
    have hl := h.lock_eq hpc rfl
    have hhere := h.here p hl
    rw [hpc] at hhere
    by_cases hmore : got.length < n ∧ ¬ s.Empty
    · simp only [State.step, hpc, if_pos hmore, Option.some.injEq] at hs
      subst hs
      refine h.of_holder (c := .readCopy n (got ++ [s.front])) hl rfl hl (fun _ _ => .inl) (h.fifo.load hmore.2) ?_ ?_
      · have hret := h.delivered_eq hl
        rw [hpc] at hret
        simp [State.load, State.goto, hret, Pc.got, Pc.HasLock]
      · exact fun _ hnil => absurd hnil (by simp)
    · simp only [State.step, hpc, if_neg hmore, Option.some.injEq] at hs
      refine hs ▸ h.goto hl rfl (by rw [hpc]; rfl) ?_
      -- a copy loop that ends with nothing found the pipe empty
      intro hnil hn
      have hempty : s.Empty := by
        by_contra hne
        exact hmore ⟨by simpa [hnil] using hn, hne⟩
      exact ⟨hempty, (hhere hnil).resolve_left (not_not_intro hempty)⟩
  | readDone n got =>
    have hl := h.lock_eq hpc rfl
    have hhere := h.here p hl
    rw [hpc] at hhere
    simp only [State.step, hpc, Option.some.injEq] at hs
    exact hs ▸ h.wakeup hl _ rfl (by rw [hpc]; rfl) hhere
  | readRelease n got =>
    have hl := h.lock_eq hpc rfl
    simp only [State.step, hpc, Option.some.injEq] at hs
    subst hs
    refine h.of_holder (c := .out) hl rfl rfl (fun _ _ => .inl) h.fifo ?_ (by simp [Pc.HasLock])
    have hret := h.delivered_eq hl
    rw [hpc] at hret
    simp [State.goto, State.release, hret, Pc.got]
  | closeSet w =>
    have hl := h.lock_eq hpc rfl
    simp only [State.step, hpc, Option.some.injEq] at hs
    subst hs
    cases w with
    | false | true =>
      refine h.of_holder (c := .closeWakeup _) hl rfl hl (fun _ _ => .inl) h.fifo ?_ fun _ => trivial
      simpa [hpc, Pc.got, State.goto, State.setClosed] using h.delivered_eq hl
  | closeWakeup w =>
    simp only [State.step, hpc, Option.some.injEq] at hs
    exact hs ▸ h.wakeup (h.lock_eq hpc rfl) _ rfl (by rw [hpc]; rfl) trivial

theorem Inv.call (hc : c.HasLock = false) (hs : s.call p c = some s') : Inv s' := by
  obtain ⟨hout, rfl⟩ := Lts.of_guard hs
  exact h.outside (by rw [hout]; rfl) hc (h.awake hout fun _ => by simp [Pc.Sleeps])

theorem Inv.next {e : Event P} (hs : s.next e = some s') : Inv s' := by
  cases e with
  | write p bs | read p n | close p w => exact h.call rfl hs
  | step p => exact h.step hs
  | kill p => exact Option.some.inj hs ▸ h.kill

end

omit [DecidableEq P] in
theorem inv_of_init (h : Init s) : Inv s := by
  constructor
  · simp [h.pc, h.lock, Pc.HasLock]
  · simp [h.sleeping]
  · refine ⟨[], ?_, by simp [h.stored, h.delivered]⟩
    rw [h.nread, h.nwrite]
    exact Ring.Holds.nil ..
  · simp [h.delivered, h.reads, State.inflight, h.lock]
  · simp [h.lock]

theorem inv_of_run {ok : State P → Event P → Prop} (h : (lts P).Run ok s) : Inv s :=
  h.invariant (fun _ => inv_of_init) fun _ _ _ hi _ hs => hi.next hs

/-- **The pipe is a FIFO.** The counters are at most `PIPESIZE` apart; the bytes stored so far are those delivered,
followed by those in the buffer; the calls of `piperead` returned what was delivered, in order; and a call for at
least one byte returns none only when nobody can write any more and every byte has been delivered. -/
theorem pipe_fifo (h : (lts P).Reachable s) : (s.nwrite - s.nread).toNat ≤ PIPESIZE ∧
    s.stored = s.delivered ++ Ring.contents s.data s.nread s.nwrite ∧ s.reads.flatten <+: s.delivered ∧
    (s.lock = none → s.reads.flatten = s.delivered) ∧
    ∀ p n, s.pc p = .readRelease n [] → 0 < n → s.writeopen = false ∧ s.stored = s.delivered := by
  have hi := inv_of_run h
  obtain ⟨rest, hholds, hstored⟩ := hi.fifo
  refine ⟨?_, ?_, ?_, fun hfree => ?_, fun p n hpc hn => ?_⟩
  · rw [hholds.toNat_sub lt_pow]
    exact hholds.length_le
  · rw [hholds.contents_eq lt_pow]
    exact hstored
  · rw [hi.returned]
    exact List.prefix_append ..
  · rw [hi.returned, State.inflight, hfree]
    simp
  · have hhere := hi.here p (hi.lock_eq hpc rfl)
    rw [hpc] at hhere
    obtain ⟨hempty, hclosed⟩ := hhere rfl hn
    have hrest : rest = [] := (hholds.eq_iff lt_pow).mp hempty
    exact ⟨hclosed, by simpa [hrest] using hstored⟩

/-- A pipe that `pipealloc` made, for two processes. -/
def fresh (killed : Bool → Bool) : State Bool where
  data _ := 0
  nread := 0
  nwrite := 0
  readopen := true
  writeopen := true
  lock := none
  pc _ := .out
  sleeping _ := none
  killed := killed
  stored := []
  delivered := []
  reads := []
  news := false

theorem init_fresh (killed : Bool → Bool) : Init (fresh killed) := by
  constructor <;> simp [fresh]

/-- A reader waits for a writer and gets the first of its two bytes. -/
theorem pipe_fifo_two : ∃ s : State Bool, s.reads = [[7]] ∧ s.stored = [7, 8] ∧ s.lock = none ∧
    s.stored = s.delivered ++ Ring.contents s.data s.nread s.nwrite ∧ s.reads.flatten = s.delivered := by
  obtain ⟨s, hrun, hend⟩ := Lts.Run.exists_of_exec (lts Bool) (fun _ _ => true) (fresh fun _ => false)
    ([.read false 1] ++ List.replicate 4 (.step false) ++ [.write true [7, 8]] ++ List.replicate 6 (.step true) ++
      List.replicate 6 (.step false))
    (fun s => s.reads = [[7]] ∧ s.stored = [7, 8] ∧ s.lock = none) (init_fresh _) (by decide)
  obtain ⟨hreads, hstored, hfree⟩ := of_decide_eq_true hend
  have hfifo := pipe_fifo hrun.reachable
  exact ⟨s, hreads, hstored, hfree, hfifo.2.1, hfifo.2.2.2.1 hfree⟩

end Pipe

end Xv6
