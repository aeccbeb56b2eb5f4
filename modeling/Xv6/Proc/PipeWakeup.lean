import Xv6.Proc.Pipe

/-!
# Wakeups on pipes

A process sleeps on `&p->nread` because the pipe is empty and on `&p->nwrite` because it is full. Whoever changes
that holds `p->lock` and owes the sleepers a `wakeup`; the debts of the holder are read off from its point. The one
way out of the critical section with a debt is the error return of `pipewrite`, which announces nothing: a writer
that was killed, or finds the read end closed, after it has filled the pipe.
-/

namespace Xv6

namespace Pipe

/-- The points at which a writer can owe a `wakeup(&p->nread)`. -/
def Pc.Stores : Pc → Bool
  | .writeLoop _ | .writeTest _ | .writeFail | .writeWakeup _ | .writeDone => true
  | _ => false

/-- The points at which a process can owe a `wakeup(&p->nwrite)`. -/
def Pc.Frees : Pc → Bool
  | .readCopy .. | .readDone .. | .closeWakeup false => true
  | _ => false

variable {P : Type} {s s' : State P} {p : P} {c : Pc}

/-- The point at which the holder of `p->lock` is. -/
def State.holder (s : State P) : Pc := s.lock.elim .out s.pc

/-- Who sleeps without reason is owed a `wakeup`. -/
structure Awake (s : State P) : Prop where
  news : s.news = true → s.holder.Stores = true
  reader : ∀ q, s.sleeping q = some .nread →
    (s.Empty ∧ s.writeopen = true) ∨ s.news = true ∨ s.holder = .closeWakeup true
  writer : ∀ q, s.sleeping q = some .nwrite → (s.Full ∧ s.readopen = true) ∨ s.holder.Frees = true

theorem holder_eq (hl : s.lock = some p) : s.holder = s.pc p := by
  simp [State.holder, hl]

theorem Awake.news_eq_false (h : Awake s) (hstores : s.holder.Stores = false) : s.news = false := by
  rw [← Bool.not_eq_true]
  intro hn
  exact absurd (hstores.symm.trans (h.news hn)) Bool.false_ne_true

variable {q : P} {chan : Chan}

theorem Awake.reader_reason (h : Awake s) (hq : s.sleeping q = some .nread) (hquiet : s.news = false)
    (hnot : s.holder ≠ .closeWakeup true) : s.Empty ∧ s.writeopen = true := by
  rcases h.reader q hq with hr | hr | hr
  · exact hr
  · exact absurd (hquiet.symm.trans hr) Bool.false_ne_true
  · exact absurd hr hnot

theorem Awake.writer_reason (h : Awake s) (hq : s.sleeping q = some .nwrite)
    (hfrees : s.holder.Frees = false) : s.Full ∧ s.readopen = true := by
  rcases h.writer q hq with hw | hw
  · exact hw
  · exact absurd (hfrees.symm.trans hw) Bool.false_ne_true

theorem not_empty_of_full (h : s.Full) : ¬ s.Empty := by
  intro hempty
  have hsize : BitVec.ofNat 32 PIPESIZE = s.nwrite - s.nread := by
    rw [h, BitVec.add_comm, BitVec.add_sub_cancel]
  rw [hempty, BitVec.sub_self] at hsize
  exact absurd hsize (by decide)

theorem wakeup_sleeping_ne : (s.wakeup chan).sleeping q ≠ some chan := by
  by_cases hq : s.sleeping q = some chan <;> simp [State.wakeup, hq]

variable [DecidableEq P]

/-- A writer that returns `-1` leaves no sleeping reader behind to whom it owes a `wakeup`. -/
def Announces (s : State P) : Event P → Prop
  | .step p => s.pc p = .writeFail → s.news = true → ∀ q, s.sleeping q ≠ some .nread
  | _ => True

/-! ## The steps -/

theorem Awake.acquire (h : Awake s) (hs : s.acquire p c = some s') : Awake s' := by
  obtain ⟨hfree, rfl⟩ := Lts.of_guard hs
  have hout : s.holder = .out := by simp [State.holder, hfree]
  have hquiet : s.news = false := h.news_eq_false (by rw [hout]; rfl)
  refine ⟨fun hn => ?_, fun q hq => .inl ?_, fun q hq => .inl ?_⟩
  · exact absurd (hquiet.symm.trans hn) Bool.false_ne_true
  · exact h.reader_reason hq hquiet (by simp [hout])
  · exact h.writer_reason hq (by rw [hout]; rfl)

/-- A step of the holder that keeps its debts. -/
theorem Awake.goto (h : Awake s) (hl : s.lock = some p) (hnews : s.holder.Stores = true → c.Stores = true)
    (hnot : s.holder ≠ .closeWakeup true) (hfrees : s.holder.Frees = true → c.Frees = true) : Awake (s.goto p c) := by
  have hholder : (s.goto p c).holder = c := by simp [State.holder, State.goto, hl]
  refine ⟨fun hn => ?_, fun q hq => ?_, fun q hq => ?_⟩
  · rw [hholder]
    exact hnews (h.news hn)
  · rcases h.reader q hq with hr | hr | hr
    · exact .inl hr
    · exact .inr (.inl hr)
    · exact absurd hr hnot
  · rw [hholder]
    exact (h.writer q hq).imp_right hfrees

/-- The readers are woken. -/
theorem Awake.wakeup_nread (h : Awake s) (hfrees : s.holder.Frees = false) : Awake ((s.wakeup .nread).goto p c) :=
  ⟨nofun, fun _ hq => absurd hq wakeup_sleeping_ne, fun _ hq => .inl (h.writer_reason (wakeup_sleeping hq) hfrees)⟩

/-- The writers are woken. -/
theorem Awake.wakeup_nwrite (h : Awake s) (hstores : s.holder.Stores = false)
    (hnot : s.holder ≠ .closeWakeup true) : Awake ((s.wakeup .nwrite).goto p c) := by
  have hquiet := h.news_eq_false hstores
  refine ⟨fun hn => ?_, fun q hq => .inl ?_, fun q hq => absurd hq wakeup_sleeping_ne⟩
  · exact absurd (hquiet.symm.trans hn) Bool.false_ne_true
  · exact h.reader_reason (wakeup_sleeping hq) hquiet hnot

omit [DecidableEq P] in
/-- Who leaves the critical section without debts leaves only sleepers with a reason. -/
theorem Awake.leave (h : Awake s) (hnot : s.holder ≠ .closeWakeup true) (hfrees : s.holder.Frees = false)
    (hnews : s.news = true → ∀ q, s.sleeping q ≠ some .nread) :
    (∀ q, s.sleeping q = some .nread → s.Empty ∧ s.writeopen = true) ∧
    ∀ q, s.sleeping q = some .nwrite → s.Full ∧ s.readopen = true := by
  refine ⟨fun q hq => ?_, fun q hq => h.writer_reason hq hfrees⟩
  have hquiet : s.news = false := by
    rw [← Bool.not_eq_true]
    exact fun hn => hnews hn q hq
  exact h.reader_reason hq hquiet hnot

theorem Awake.release (h : Awake s) (hnot : s.holder ≠ .closeWakeup true) (hfrees : s.holder.Frees = false)
    (hnews : s.news = true → ∀ q, s.sleeping q ≠ some .nread) : Awake (s.release.goto p c) := by
  obtain ⟨hr, hw⟩ := h.leave hnot hfrees hnews
  exact ⟨nofun, fun q hq => .inl (hr q hq), fun q hq => .inl (hw q hq)⟩

omit [DecidableEq P] in
theorem Awake.quiet (h : Awake s) (hstores : s.holder.Stores = false) :
    s.news = true → ∀ q, s.sleeping q ≠ some .nread :=
  fun hn => absurd ((h.news_eq_false hstores).symm.trans hn) Bool.false_ne_true

/-- The new sleeper has a reason too. -/
theorem Awake.sleep (h : Awake s) (hnot : s.holder ≠ .closeWakeup true) (hfrees : s.holder.Frees = false)
    (hstores : s.holder.Stores = false) (hread : chan = .nread → s.Empty ∧ s.writeopen = true)
    (hwrite : chan = .nwrite → s.Full ∧ s.readopen = true) : Awake ((s.sleep p chan).goto p c) := by
  obtain ⟨hr, hw⟩ := h.leave hnot hfrees (h.quiet hstores)
  refine ⟨nofun, fun q hq => .inl ?_, fun q hq => .inl ?_⟩
  · by_cases hqp : q = p
    · exact hread (by simpa [State.sleep, State.goto, hqp] using hq)
    · exact hr q (by simpa [State.sleep, State.goto, hqp] using hq)
  · by_cases hqp : q = p
    · exact hwrite (by simpa [State.sleep, State.goto, hqp] using hq)
    · exact hw q (by simpa [State.sleep, State.goto, hqp] using hq)

/-- A byte is stored: nobody sleeps on `&p->nwrite`, as the pipe was not full. -/
theorem Awake.store (h : Awake s) (hl : s.lock = some p) (hfull : ¬ s.Full) (hfrees : s.holder.Frees = false)
    (hc : c.Stores = true) (b : UInt8) : Awake ((s.store b).goto p c) := by
  refine ⟨fun _ => ?_, fun _ _ => .inr (.inl rfl), fun q hq => ?_⟩
  · simpa [State.holder, State.goto, State.store, hl] using hc
  · exact absurd (h.writer_reason hq hfrees).1 hfull

/-- A byte is taken out: nobody sleeps on `&p->nread`, as the pipe was not empty. -/
theorem Awake.load (h : Awake s) (hl : s.lock = some p) (hempty : ¬ s.Empty) (hstores : s.holder.Stores = false)
    (hnot : s.holder ≠ .closeWakeup true) (hc : c.Frees = true) : Awake (s.load.goto p c) := by
  have hquiet := h.news_eq_false hstores
  refine ⟨fun hn => ?_, fun q hq => ?_, fun q _ => .inr ?_⟩
  · exact absurd (hquiet.symm.trans hn) Bool.false_ne_true
  · exact absurd (h.reader_reason hq hquiet hnot).1 hempty
  · simpa [State.holder, State.goto, State.load, hl] using hc

/-- An end is closed: the debt is paid in the next step. -/
theorem Awake.setClosed (h : Awake s) {w : Bool} (hl : s.lock = some p) (hholder : s.holder = .closeSet w) :
    Awake ((s.setClosed w).goto p (.closeWakeup w)) := by
  have hquiet : s.news = false := h.news_eq_false (by rw [hholder]; rfl)
  cases w with
  | true =>
    refine ⟨fun hn => ?_, fun q hq => .inr (.inr ?_), fun q hq => .inl ?_⟩
    · exact absurd (hquiet.symm.trans hn) Bool.false_ne_true
    · simp [State.holder, State.goto, State.setClosed, hl]
    · exact h.writer_reason hq (by rw [hholder]; rfl)
  | false =>
    refine ⟨fun hn => ?_, fun q hq => .inl ?_, fun q hq => .inr ?_⟩
    · exact absurd (hquiet.symm.trans hn) Bool.false_ne_true
    · exact h.reader_reason hq hquiet (by simp [hholder])
    · simp [State.holder, State.goto, State.setClosed, hl, Pc.Frees]

theorem Awake.step (hi : Inv s) (h : Awake s) (hok : Announces s (.step p)) (hs : s.step p = some s') : Awake s' := by
  have hat : ∀ {d}, s.pc p = d → d.HasLock = true → s.lock = some p ∧ s.holder = d := by
    intro d hpc hd
    have hl := hi.lock_eq hpc hd
    exact ⟨hl, (holder_eq hl).trans hpc⟩
  cases hpc : s.pc p with
  | out => simp [State.step, hpc] at hs
  | writeAcquire bs | readAcquire n | closeAcquire w =>
    simp only [State.step, hpc] at hs
    exact h.acquire hs
  | writeSwitched bs | readSwitched n =>
    simp only [State.step, hpc, Option.ite_none_right_eq_some] at hs
    exact h.acquire hs.2
  | writeLoop bs =>
    obtain ⟨hl, hd⟩ := hat hpc rfl
    cases bs with
    | nil =>
      simp only [State.step, hpc, Option.some.injEq] at hs
      exact hs ▸ h.goto hl (fun _ => rfl) (by simp [hd]) (by simp [hd, Pc.Frees])
    | cons b bs =>
      by_cases hfull : s.Full
      · simp only [State.step, hpc, if_pos hfull, Option.some.injEq] at hs
        exact hs ▸ h.goto hl (fun _ => rfl) (by simp [hd]) (by simp [hd, Pc.Frees])
      · simp only [State.step, hpc, if_neg hfull, Option.some.injEq] at hs
        exact hs ▸ h.store hl hfull (by rw [hd]; rfl) rfl b
  | writeTest bs =>
    obtain ⟨hl, hd⟩ := hat hpc rfl
    simp only [State.step, hpc] at hs
    split at hs
    · exact Option.some.inj hs ▸ h.goto hl (fun _ => rfl) (by simp [hd]) (by simp [hd, Pc.Frees])
    · exact Option.some.inj hs ▸ h.goto hl (fun _ => rfl) (by simp [hd]) (by simp [hd, Pc.Frees])
  | writeFail =>
    obtain ⟨-, hd⟩ := hat hpc rfl
    simp only [State.step, hpc, Option.some.injEq] at hs
    exact hs ▸ h.release (by simp [hd]) (by rw [hd]; rfl) (hok hpc)
  | writeWakeup bs | writeDone =>
    obtain ⟨-, hd⟩ := hat hpc rfl
    simp only [State.step, hpc, Option.some.injEq] at hs
    exact hs ▸ h.wakeup_nread (by rw [hd]; rfl)
  | writeSleep bs =>
    obtain ⟨hl, hd⟩ := hat hpc rfl
    have hhere := hi.here p hl
    rw [hpc] at hhere
    simp only [State.step, hpc, Option.some.injEq] at hs
    exact hs ▸ h.sleep (by simp [hd]) (by rw [hd]; rfl) (by rw [hd]; rfl) (by simp) fun _ => hhere
  | writeRelease | readFail | readRelease n got | closeRelease =>
    obtain ⟨-, hd⟩ := hat hpc rfl
    simp only [State.step, hpc, Option.some.injEq] at hs
    have hquiet := h.quiet (by rw [hd]; rfl)
    have hrelease := h.release (p := p) (c := .out) (by simp [hd]) (by rw [hd]; rfl) hquiet
    exact hs ▸ ⟨hrelease.news, hrelease.reader, hrelease.writer⟩
  | readLoop n | readTest n =>
    obtain ⟨hl, hd⟩ := hat hpc rfl
    simp only [State.step, hpc] at hs
    split at hs
    · exact Option.some.inj hs ▸ h.goto hl (by simp [hd, Pc.Stores]) (by simp [hd]) (by simp [hd, Pc.Frees])
    · exact Option.some.inj hs ▸ h.goto hl (by simp [hd, Pc.Stores]) (by simp [hd]) (by simp [hd, Pc.Frees])
  | readSleep n =>
    obtain ⟨hl, hd⟩ := hat hpc rfl
    have hhere := hi.here p hl
    rw [hpc] at hhere
    simp only [State.step, hpc, Option.some.injEq] at hs
    exact hs ▸ h.sleep (by simp [hd]) (by rw [hd]; rfl) (by rw [hd]; rfl) (fun _ => hhere) (by simp)
  | readCopy n got =>
    obtain ⟨hl, hd⟩ := hat hpc rfl
    by_cases hmore : got.length < n ∧ ¬ s.Empty
    · simp only [State.step, hpc, if_pos hmore, Option.some.injEq] at hs
      exact hs ▸ h.load hl hmore.2 (by rw [hd]; rfl) (by simp [hd]) rfl
    · simp only [State.step, hpc, if_neg hmore, Option.some.injEq] at hs
      exact hs ▸ h.goto hl (by simp [hd, Pc.Stores]) (by simp [hd]) fun _ => rfl
  | readDone n got =>
    obtain ⟨-, hd⟩ := hat hpc rfl
    simp only [State.step, hpc, Option.some.injEq] at hs
    exact hs ▸ h.wakeup_nwrite (by rw [hd]; rfl) (by simp [hd])
  | closeSet w =>
    obtain ⟨hl, hd⟩ := hat hpc rfl
    simp only [State.step, hpc, Option.some.injEq] at hs
    exact hs ▸ h.setClosed hl hd
  | closeWakeup w =>
    obtain ⟨-, hd⟩ := hat hpc rfl
    simp only [State.step, hpc, Option.some.injEq] at hs
    cases w with
    | true => exact hs ▸ h.wakeup_nread (by rw [hd]; rfl)
    | false => exact hs ▸ h.wakeup_nwrite (by rw [hd]; rfl) (by simp [hd])

/-- A step outside the critical section. -/
theorem Awake.outside (hi : Inv s) (h : Awake s) (hs : (s.pc p).HasLock = false) : Awake (s.goto p c) := by
  have hholder : (s.goto p c).holder = s.holder := by
    cases hl : s.lock with
    | none => simp [State.holder, State.goto, hl]
    | some q =>
      have hne : q ≠ p := by
        rintro rfl
        rw [← hi.owner, hs] at hl
        exact absurd hl Bool.false_ne_true
      simp [State.holder, State.goto, hl, hne]
  refine ⟨fun hn => ?_, fun q hq => ?_, fun q hq => ?_⟩
  · rw [hholder]
    exact h.news hn
  · rw [hholder]
    exact h.reader q hq
  · rw [hholder]
    exact h.writer q hq

theorem Awake.call (hi : Inv s) (h : Awake s) (hs : s.call p c = some s') : Awake s' := by
  obtain ⟨hout, rfl⟩ := Lts.of_guard hs
  exact h.outside hi (by rw [hout]; rfl)

theorem Awake.next {e : Event P} (hi : Inv s) (h : Awake s) (hok : Announces s e) (hs : s.next e = some s') :
    Awake s' := by
  cases e with
  | write p bs | read p n | close p w => exact h.call hi hs
  | step p => exact h.step hi hok hs
  | kill p =>
    obtain rfl := Option.some.inj hs
    refine ⟨h.news, fun q hq => h.reader q ?_, fun q hq => h.writer q ?_⟩
    · by_cases hqp : q = p <;> simp_all
    · by_cases hqp : q = p <;> simp_all

theorem awake_of_run (h : (lts P).Run Announces s) : Awake s := by
  have hboth : Inv s ∧ Awake s := by
    apply h.invariant (I := fun s => Inv s ∧ Awake s)
    · intro s hinit
      refine ⟨inv_of_init hinit, ?_, ?_, ?_⟩
      · simp [hinit.news]
      · simp [hinit.sleeping]
      · simp [hinit.sleeping]
    · intro s e s' ⟨hi, ha⟩ hok hs
      exact ⟨hi.next hs, ha.next hi hok hs⟩
  exact hboth.2

end Pipe

end Xv6
