import Xv6.Proc.Table

/-!
# The exit/wait protocol

Every exited process is collected by exactly the `wait` of its parent, or of init, and nobody sleeps in
`wait` with an exited child. The history of the table says which life has been collected by whom.
-/

namespace Xv6

open Function

namespace Ptable

variable {n : ℕ} {t t' : Ptable n}

/-- The history fits the table. -/
structure Hist (t : Ptable n) : Prop where
  lt : ∀ q, t.life q < t.lives
  inj : ∀ q q', t.life q = t.life q' → q = q'
  old : ∀ r ∈ t.reaps, r.life < t.lives
  nodup : (t.reaps.map Reap.life).Nodup
  current : ∀ q, (t.proc q).state ≠ .UNUSED → ∀ r ∈ t.reaps, r.life ≠ t.life q
  exited : ∀ r ∈ t.reaps, r.life ∈ t.exits
  zombie : ∀ q, (t.proc q).state = .ZOMBIE → t.life q ∈ t.exits
  forker : ∀ q p, (t.proc q).parent = some p → t.forker q = some p ∨ p = t.initproc
  fork : ∀ p np, t.ctl p = .fork np → t.forker np = some p
  older : ∀ q p, (t.proc q).parent = some p → t.life p < t.life q
  forking : ∀ p np, t.ctl p = .fork np → t.life p < t.life np
  first : ∀ q, q ≠ t.initproc → (t.proc q).state ≠ .UNUSED → t.life t.initproc < t.life q

theorem Hist.ofBooted (h : t.Booted) : t.Hist := by
  obtain ⟨hstate, hparent, -, -, hfree, hctl, hlt, hinj, -, hexits, hreaps⟩ := h
  have hslot : ∀ q, q = t.initproc ∨ t.proc q = ⟨.UNUSED, 0, none, none, false⟩ :=
    fun q => (em (q = t.initproc)).imp_right (hfree q)
  refine ⟨hlt, fun q q' h => hinj h, ?_, ?_, ?_, ?_, ?_, ?_, ?_, ?_, ?_, ?_⟩ <;> grind

/-- The history is as before, no slot has been allocated or has exited, and the only new parents are init
and the process that forks. -/
structure Calm (t t' : Ptable n) : Prop where
  life : t'.life = t.life
  lives : t'.lives = t.lives
  reaps : t'.reaps = t.reaps
  exits : t'.exits = t.exits
  forker : t'.forker = t.forker
  initproc : t'.initproc = t.initproc
  unused : ∀ q, (t.proc q).state = .UNUSED → (t'.proc q).state = .UNUSED
  zombie : ∀ q, (t'.proc q).state = .ZOMBIE ↔ (t.proc q).state = .ZOMBIE
  pid : ∀ q, (t'.proc q).pid = (t.proc q).pid
  parent : ∀ q p, (t'.proc q).parent = some p → (t.proc q).parent = some p ∨ t.ctl p = .fork q ∨
    (p = t.initproc ∧ ∃ r, (t.proc q).parent = some r ∨ t.ctl r = .fork q)
  fork : ∀ p np, t'.ctl p = .fork np → t.ctl p = .fork np

theorem Calm.hist (h : t.Calm t') (hi : t.Inv) (hh : t.Hist) : t'.Hist := by
  obtain ⟨h1, h2, h3, h4, h5, h6, h7, h8, -, h10, h11⟩ := h
  constructor
  · rw [h1, h2]
    exact hh.lt
  · rw [h1]
    exact hh.inj
  · rw [h3, h2]
    exact hh.old
  · rw [h3]
    exact hh.nodup
  · intro q hq
    rw [h3, h1]
    exact hh.current q fun hu => hq (h7 q hu)
  · rw [h3, h4]
    exact hh.exited
  · intro q hq
    rw [h1, h4]
    exact hh.zombie q ((h8 q).mp hq)
  · intro q p hp
    rw [h5, h6]
    rcases h10 q p hp with hold | hf | ⟨hinit, -⟩
    · exact hh.forker q p hold
    · exact .inl (hh.fork p q hf)
    · exact .inr hinit
  · intro p np hp
    rw [h5]
    exact hh.fork p np (h11 p np hp)
  · intro q p hp
    rw [h1]
    rcases h10 q p hp with hold | hf | ⟨rfl, r, hr⟩
    · exact hh.older q p hold
    · exact hh.forking p q hf
    · -- init is older than the parent of before
      have hlt : t.life r < t.life q := hr.elim (hh.older q r) (hh.forking r q)
      have hlive : t.Live r := hr.elim (hi.alive q r) fun hf => (hi.embryo r q (.inl hf)).2
      by_cases hroot : r = t.initproc
      · exact hroot ▸ hlt
      · exact (hh.first r hroot hlive.1).trans hlt
  · intro p np hp
    rw [h1]
    exact hh.forking p np (h11 p np hp)
  · intro q hq hu
    rw [h6] at hq
    rw [h1, h6]
    exact hh.first q hq fun hold => hu (h7 q hold)

theorem calm_wakeup1 (t : Ptable n) (chan : Chan n) : t.Calm (t.wakeup1 chan) := by
  refine ⟨rfl, rfl, rfl, rfl, rfl, rfl, fun q => ?_, fun q => ?_, fun q => ?_, fun q p => ?_, fun _ _ => id⟩
  all_goals
    simp only [wakeup1, wake]
    split
  all_goals grind

theorem calm_kill (t : Ptable n) (pid : BitVec 32) : t.Calm (t.kill pid).2 := by
  unfold kill
  split
  · exact ⟨rfl, rfl, rfl, rfl, rfl, rfl, fun _ => id, fun _ => Iff.rfl, fun _ => rfl, fun _ _ => .inl, fun _ _ => id⟩
  · refine ⟨rfl, rfl, rfl, rfl, rfl, rfl, fun q => ?_, fun q => ?_, fun q => ?_, fun q p => ?_, fun _ _ => id⟩
    all_goals simp only [set, mark, update_apply]
    all_goals grind

variable {e : Event n} {p : Fin n}

/-- The end of `fork`, and the steps of a running process. -/
theorem calm_of_step (hi : t.Inv) (hs : t.next e = some t')
    (he : (∀ p, e ≠ .allocproc p) ∧ (∀ p, e ≠ .exit p) ∧ (∀ p, e ≠ .wait p) ∧ ∀ p, e ≠ .sched p) : t.Calm t' := by
  obtain ⟨ha, hx, hw, hsc⟩ := he
  have hembryo := hi.embryo
  cases e
  case allocproc p => exact absurd rfl (ha p)
  case exit p => exact absurd rfl (hx p)
  case wait p => exact absurd rfl (hw p)
  case sched p => exact absurd rfl (hsc p)
  case kill pid =>
    obtain rfl := Option.some.inj hs
    exact calm_kill t pid
  case wakeup chan =>
    obtain rfl := Option.some.inj hs
    exact calm_wakeup1 t chan
  case sleep | yield | fault =>
    obtain ⟨hrun, rfl⟩ := Lts.of_guard hs
    refine ⟨rfl, rfl, rfl, rfl, rfl, rfl, fun q => ?_, fun q => ?_, fun q => ?_, fun q p => ?_, fun _ _ => id⟩
    all_goals simp only [set, update_apply]
    all_goals grind
  case forkFail | forkParent | forkDone =>
    simp only [next] at hs
    split at hs
    · rename_i np hctl
      obtain ⟨-, rfl⟩ := Lts.of_guard hs
      have hnp := hembryo _ np (by first | exact .inl hctl | exact .inr hctl)
      refine ⟨rfl, rfl, rfl, rfl, rfl, rfl, fun q => ?_, fun q => ?_, fun q => ?_, fun q p => ?_, fun p np => ?_⟩
      all_goals simp only [set, update_apply]
      all_goals grind
    · simp at hs

/-- A process that is scheduled and not in `wait`. -/
theorem calm_sched (hrun : (t.proc p).state = .RUNNABLE) :
    t.Calm (t.set p fun x => { x with state := .RUNNING, chan := none }) := by
  refine ⟨rfl, rfl, rfl, rfl, rfl, rfl, fun q => ?_, fun q => ?_, fun q => ?_, fun q r => ?_, fun _ _ => id⟩
  all_goals simp only [set, update_apply]
  all_goals grind

theorem Hist.allocproc (hh : t.Hist) (hi : t.Inv) (hs : t.next (.allocproc p) = some t') : t'.Hist := by
  obtain ⟨hrun, huser, rfl | ⟨np, hnp, rfl⟩⟩ := next_allocproc hs
  · exact hh
  · obtain ⟨h1, h2, h3, h4, h5, h6, h7, h8, h9, h10, h11, h12⟩ := hh
    have hunused := hi.unused
    have hembryo := hi.embryo
    have halive := hi.alive
    have hinit := hi.initproc
    constructor <;> simp only [Live, Forks, set, update_apply] at * <;> grind

/-- What `exit` does before the process becomes a zombie. -/
theorem calm_adopt (t : Ptable n) (p : Fin n) : t.Calm ((t.wakeParent p).adopt p) := by
  have hrep : ∀ t : Ptable n, t.Calm (t.reparent p) := by
    intro t
    refine ⟨rfl, rfl, rfl, rfl, rfl, rfl, fun q => ?_, fun q => ?_, fun q => ?_, fun q r => ?_, fun _ _ => id⟩
    · simp
    · simp
    · unfold reparent
      dsimp only
      split <;> rfl
    · rw [reparent_parent]
      grind
  have htrans : ∀ {a b c : Ptable n}, a.Calm b → b.Calm c → a.Calm c := by
    intro a b c h h'
    obtain ⟨h1, h2, h3, h4, h5, h6, h7, h8, h9, h10, h11⟩ := h
    obtain ⟨k1, k2, k3, k4, k5, k6, k7, k8, k9, k10, k11⟩ := h'
    constructor <;> grind
  have hwake : t.Calm (t.wakeParent p) := by
    unfold wakeParent
    split
    · exact ⟨rfl, rfl, rfl, rfl, rfl, rfl, fun _ => id, fun _ => Iff.rfl, fun _ => rfl, fun _ _ => .inl, fun _ _ => id⟩
    · exact calm_wakeup1 t _
  refine htrans hwake ?_
  unfold adopt
  split
  · exact htrans (hrep _) (calm_wakeup1 _ _)
  · exact hrep _

theorem Hist.exit (hh : t.Hist) (hi : t.Inv) (hrun : (t.proc p).state = .RUNNING) : (t.exit p).Hist := by
  have hcalm := calm_adopt t p
  obtain ⟨h1, h2, h3, h4, h5, h6, h7, h8, h9, h10, h11, h12⟩ := hcalm.hist hi hh
  have hfirst := hh.first p
  have hinit := hcalm.initproc
  have hlife := hcalm.life
  have hlives := hcalm.lives
  have hreaps := hcalm.reaps
  have hexits := hcalm.exits
  have hcur := hh.current p (by rw [hrun]; decide)
  unfold Ptable.exit
  constructor <;> simp only [set, update_apply] at * <;> grind

/-- What a round of `wait` does: it collects a child, or leaves the slots of others alone. -/
theorem wait_cases (t : Ptable n) (p : Fin n) :
    (∃ q, t.IsChild p q ∧ (t.proc q).state = .ZOMBIE ∧ (t.wait p).1 = .reaped (t.proc q).pid ∧
      (t.wait p).2.proc = update t.proc q (reset (t.proc q)) ∧
      (t.wait p).2.reaps = ⟨t.life q, (t.proc q).pid, p⟩ :: t.reaps) ∨
    ((t.wait p).1 = .failed ∧ ((∀ q, ¬ t.IsChild p q) ∨ (t.proc p).killed = true) ∧
      (t.wait p).2.proc = t.proc ∧ (t.wait p).2.reaps = t.reaps) ∨
    ((t.wait p).1 = .asleep ∧
      (t.wait p).2.proc = update t.proc p { t.proc p with chan := some (.proc p), state := .SLEEPING } ∧
      (t.wait p).2.reaps = t.reaps) := by
  unfold Ptable.wait
  split
  · rename_i q hfind
    have hq := List.find?_some hfind
    exact .inl ⟨q, (of_decide_eq_true hq).1, (of_decide_eq_true hq).2, rfl, rfl, rfl⟩
  · split
    · rename_i hfail
      exact .inr (.inl ⟨rfl, hfail, rfl, rfl⟩)
    · exact .inr (.inr ⟨rfl, rfl, rfl⟩)

/-- The parts of the history that `wait` does not touch. -/
theorem wait_history (t : Ptable n) (p : Fin n) :
    (t.wait p).2.life = t.life ∧ (t.wait p).2.lives = t.lives ∧ (t.wait p).2.exits = t.exits ∧
    (t.wait p).2.forker = t.forker ∧ (t.wait p).2.initproc = t.initproc ∧
    ∀ p' np, (t.wait p).2.ctl p' = .fork np → t.ctl p' = .fork np := by
  unfold Ptable.wait
  split
  · refine ⟨rfl, rfl, rfl, rfl, rfl, fun p' np => ?_⟩
    simp only [update_apply]
    grind
  · split
    all_goals
      refine ⟨rfl, rfl, rfl, rfl, rfl, fun p' np => ?_⟩
      simp only [update_apply]
      grind

theorem Hist.wait (hh : t.Hist) (hlive : t.Live p) : (t.wait p).2.Hist := by
  obtain ⟨hlife, hlives, hexits, hforker, hinit, hctl⟩ := wait_history t p
  obtain ⟨h1, h2, h3, h4, h5, h6, h7, h8, h9, h10, h11, h12⟩ := hh
  unfold Live at hlive
  rcases wait_cases t p with ⟨q, hq, hz, -, hproc, hreaps⟩ | ⟨-, -, hproc, hreaps⟩ | ⟨-, hproc, hreaps⟩
  · unfold IsChild at hq
    constructor <;> simp only [hlife, hlives, hexits, hforker, hinit, hproc, hreaps, reset, update_apply,
      List.map_cons, List.nodup_cons] <;> grind
  · constructor <;> simp only [hlife, hlives, hexits, hforker, hinit, hproc, hreaps] <;> grind
  · constructor <;> simp only [hlife, hlives, hexits, hforker, hinit, hproc, hreaps, update_apply] <;> grind

theorem Hist.next (hh : t.Hist) (hi : t.Inv) (hs : t.next e = some t') : t'.Hist := by
  cases e
  case allocproc p => exact hh.allocproc hi hs
  case exit p =>
    obtain ⟨h, rfl⟩ := Lts.of_guard hs
    exact hh.exit hi h.1
  case wait p =>
    obtain ⟨h, rfl⟩ := Lts.of_guard hs
    exact hh.wait (live_of_running h.1)
  case sched p =>
    obtain ⟨h, hs⟩ := Option.ite_none_right_eq_some.mp hs
    have hcalm := (calm_sched h).hist hi hh
    split at hs
    · obtain rfl := Option.some.inj hs
      exact hcalm.wait (live_of_running (by simp [set]))
    · obtain rfl := Option.some.inj hs
      exact hcalm
  all_goals exact (calm_of_step hi hs (by simp)).hist hi hh

theorem hist_of_run {ok : Ptable n → Event n → Prop} (h : (lts n).Run ok t) : t.Hist := by
  have hboth : t.Inv ∧ t.Hist := h.invariant (I := fun t => t.Inv ∧ t.Hist)
    (fun _ hb => ⟨.ofBooted hb, .ofBooted hb⟩) fun _ _ _ hi _ hs => ⟨hi.1.next hs, hi.2.next hi.1 hs⟩
  exact hboth.2

/-! ## What a step of `wait` does -/

/-- The event is a round of `wait` by process `p`. -/
def Waits (t : Ptable n) (p : Fin n) : Event n → Prop
  | .wait p' => p' = p
  | .sched p' => p' = p ∧ t.ctl p = .wait
  | _ => False

/-- The table as `wait` sees it, and its result. -/
def waitResult (t : Ptable n) : Event n → Option WaitResult
  | .wait p => some (t.wait p).1
  | .sched p =>
    if t.ctl p = .wait then some ((t.set p fun x => { x with state := .RUNNING, chan := none }).wait p).1
    else none
  | _ => none

/-- The event is the `wait` that collects slot `q`: by its parent, which has forked it or is init, for the
first time since it has exited; the slot is free afterwards. -/
structure Collects (t : Ptable n) (e : Event n) (q : Fin n) (t' : Ptable n) : Prop where
  caller : ∃ p, t.Waits p e ∧ t.IsChild p q ∧ (t.forker q = some p ∨ p = t.initproc) ∧
    t'.reaps = ⟨t.life q, (t.proc q).pid, p⟩ :: t.reaps
  zombie : (t.proc q).state = .ZOMBIE
  exited : t.life q ∈ t.exits
  first : ∀ r ∈ t.reaps, r.life ≠ t.life q
  result : t.waitResult e = some (.reaped (t.proc q).pid)
  state : (t'.proc q).state = .UNUSED
  parent : (t'.proc q).parent = none

/-- What a step does to exited processes, and what `wait` returns. -/
structure WaitStep (t : Ptable n) (e : Event n) (t' : Ptable n) : Prop where
  stays : ∀ q, (t.proc q).state = .ZOMBIE →
    ((t'.proc q).state = .ZOMBIE ∧ (t'.proc q).pid = (t.proc q).pid ∧ t'.life q = t.life q) ∨ t.Collects e q t'
  returns : ∀ pid, t.waitResult e = some (.reaped pid) → ∃ q, t.Collects e q t' ∧ (t.proc q).pid = pid
  fails : t.waitResult e = some .failed →
    ∃ p, t.Waits p e ∧ ((∀ q, ¬ t.IsChild p q) ∨ (t.proc p).killed = true)

/-- A round of `wait` in table `t1`, which differs from `t` in the state and channel of the caller only. -/
theorem waitStep_of_wait {t1 : Ptable n} (hh : t.Hist) (hw : t.Waits p e)
    (hresult : t.waitResult e = some (t1.wait p).1) (hlive : t.Live p)
    (hp : ∃ c, t1 = t.set p fun x => { x with state := .RUNNING, chan := c }) :
    t.WaitStep e (t1.wait p).2 := by
  obtain ⟨c, rfl⟩ := hp
  set t1 := t.set p fun x => { x with state := .RUNNING, chan := c }
  have hlife : t1.life = t.life ∧ t1.reaps = t.reaps := ⟨rfl, rfl⟩
  have hself : t1.proc p = { t.proc p with state := .RUNNING, chan := c } := update_self ..
  have hother : ∀ q, q ≠ p → t1.proc q = t.proc q := fun q hq => update_of_ne hq ..
  have hchild : ∀ q, t1.IsChild p q ↔ t.IsChild p q := by
    intro q
    unfold IsChild
    by_cases hq : q = p
    · rw [hq, hself]
    · rw [hother q hq]
  -- a zombie is not the caller
  have hne : ∀ q, (t.proc q).state = .ZOMBIE → q ≠ p := fun q hz hq => hlive.2.2 (hq ▸ hz)
  rcases wait_cases t1 p with ⟨q, hq, hz, hr, hproc, hreaps⟩ | ⟨hr, hfail, hproc, hreaps⟩ | ⟨hr, hproc, hreaps⟩
  · have hqp : q ≠ p := by
      rintro rfl
      rw [hself] at hz
      simp at hz
    rw [hother q hqp] at hz hr hreaps
    have hq' := (hchild q).mp hq
    have hcollect : t.Collects e q (t1.wait p).2 := by
      refine ⟨⟨p, hw, hq', hh.forker q p hq', hreaps⟩, hz, hh.zombie q hz, ?_, hresult.trans (congrArg some hr), ?_, ?_⟩
      · exact hh.current q (by rw [hz]; decide)
      · rw [hproc, update_self]
        rfl
      · rw [hproc, update_self]
        rfl
    refine ⟨fun q' hz' => ?_, fun pid hpid => ⟨q, hcollect, ?_⟩, fun hf => ?_⟩
    · by_cases hqq : q' = q
      · exact .inr (hqq ▸ hcollect)
      · left
        rw [hproc, update_of_ne hqq, hother q' (hne q' hz'), (wait_history t1 p).1]
        exact ⟨hz', rfl, rfl⟩
    · rw [hresult, hr] at hpid
      simpa using hpid
    · rw [hresult, hr] at hf
      simp at hf
  · refine ⟨fun q' hz' => .inl ?_, fun pid hpid => ?_, fun _ => ⟨p, hw, ?_⟩⟩
    · rw [hproc, hother q' (hne q' hz'), (wait_history t1 p).1]
      exact ⟨hz', rfl, rfl⟩
    · rw [hresult, hr] at hpid
      simp at hpid
    · rw [hself] at hfail
      exact hfail.imp_left fun hnone q hq => hnone q ((hchild q).mpr hq)
  · refine ⟨fun q' hz' => .inl ?_, fun pid hpid => ?_, fun hf => ?_⟩
    · rw [hproc, update_of_ne (hne q' hz'), hother q' (hne q' hz'), (wait_history t1 p).1]
      exact ⟨hz', rfl, rfl⟩
    · rw [hresult, hr] at hpid
      simp at hpid
    · rw [hresult, hr] at hf
      simp at hf

/-- A step that collects nobody. -/
theorem WaitStep.ofCalm (hr : t.waitResult e = none) (h : ∀ q, (t.proc q).state = .ZOMBIE →
      (t'.proc q).state = .ZOMBIE ∧ (t'.proc q).pid = (t.proc q).pid ∧ t'.life q = t.life q) : t.WaitStep e t' :=
  ⟨fun q hz => .inl (h q hz), fun pid hpid => by simp [hr] at hpid, fun hf => by simp [hr] at hf⟩

theorem waitStep_of_next (hi : t.Inv) (hh : t.Hist) (hs : t.next e = some t') : t.WaitStep e t' := by
  cases e
  case allocproc p =>
    refine .ofCalm rfl fun q hz => ?_
    obtain ⟨-, -, rfl | ⟨np, hnp, rfl⟩⟩ := next_allocproc hs
    · exact ⟨hz, rfl, rfl⟩
    · have hq : q ≠ np := by
        rintro rfl
        simp [hz] at hnp
      refine ⟨?_, ?_, update_of_ne hq ..⟩
      · simpa only [set, update_of_ne hq] using hz
      · simp only [set, update_of_ne hq]
  case exit p =>
    refine .ofCalm rfl fun q hz => ?_
    obtain ⟨h, rfl⟩ := Lts.of_guard hs
    have hcalm := calm_adopt t p
    have hq : q ≠ p := by
      rintro rfl
      rw [h.1] at hz
      simp at hz
    simp only [Ptable.exit, set, update_of_ne hq]
    exact ⟨(hcalm.zombie q).mpr hz, hcalm.pid q, congrFun hcalm.life q⟩
  case wait p =>
    obtain ⟨h, rfl⟩ := Lts.of_guard hs
    refine waitStep_of_wait hh rfl rfl (live_of_running h.1) ⟨(t.proc p).chan, ?_⟩
    simp only [set, ← h.1, update_eq_self]
  case sched p =>
    obtain ⟨h, hs⟩ := Option.ite_none_right_eq_some.mp hs
    split at hs
    · rename_i hctl
      obtain rfl := Option.some.inj hs
      exact waitStep_of_wait hh ⟨rfl, hctl⟩ (by simp [waitResult, hctl]) (hi.waits p hctl).1 ⟨none, rfl⟩
    · rename_i hctl
      obtain rfl := Option.some.inj hs
      have hcalm := calm_sched h
      exact .ofCalm (by simp [waitResult, hctl]) fun q hz => ⟨(hcalm.zombie q).mpr hz, hcalm.pid q, rfl⟩
  all_goals
    have hcalm := calm_of_step hi hs (by simp)
    exact .ofCalm rfl fun q hz => ⟨(hcalm.zombie q).mpr hz, hcalm.pid q, congrFun hcalm.life q⟩

/-! ## The protocol -/

/-- **exit/wait.** In every interleaving: every zombie has a parent that has not exited, no process sleeps in
`wait` with a zombie child, every step treats zombies and answers `wait` as it should, and no life is
collected twice. -/
theorem exit_wait (h : (lts n).Reachable t) : (∀ q, (t.proc q).state = .ZOMBIE →
      ∃ p, (t.proc q).parent = some p ∧ (t.proc p).state ≠ .UNUSED ∧ (t.proc p).state ≠ .ZOMBIE) ∧
    (∀ p, t.ctl p = .wait → (t.proc p).state = .SLEEPING → ∀ q, t.IsChild p q → (t.proc q).state ≠ .ZOMBIE) ∧
    (∀ e t', t.next e = some t' → t.WaitStep e t') ∧
    (t.reaps.map Reap.life).Nodup ∧ ∀ r ∈ t.reaps, r.life ∈ t.exits := by
  have hi := inv_of_run h
  have hh := hist_of_run h
  refine ⟨fun q hz => ?_, fun p hp hs => (hi.asleep p hp hs).2, fun e t' hs => waitStep_of_next hi hh hs, hh.nodup,
    hh.exited⟩
  have hinit : q ≠ t.initproc := fun hq => hi.initproc.2.2 (hq ▸ hz)
  have hparent := hi.parented q (by rw [hz]; decide) (by rw [hz]; decide) hinit
  obtain ⟨p, hp⟩ := Option.ne_none_iff_exists'.mp hparent
  have hlive := hi.alive q p hp
  exact ⟨p, hp, hlive.1, hlive.2.2⟩

/-- A table with the first process in slot 0. -/
def booted (n : ℕ) [NeZero n] : Ptable n where
  proc q := if q = 0 then ⟨.RUNNABLE, 1, none, none, false⟩ else ⟨.UNUSED, 0, none, none, false⟩
  initproc := 0
  nextpid := 2
  ctl _ := .user
  lives := n
  life q := q
  forker _ := none
  marked _ := false
  exits := []
  reaps := []

theorem booted_booted (n : ℕ) [NeZero n] : (booted n).Booted := by
  refine ⟨rfl, rfl, rfl, rfl, fun q hq => if_neg hq, fun _ => rfl, fun q => q.isLt, fun q q' h => Fin.ext h,
    fun _ => rfl, rfl, rfl⟩

/-- Init forks, waits, and its child exits: init is awake again. -/
theorem exit_wait_child : ∃ t, (lts 2).Reachable t ∧ (t.proc 1).state = .ZOMBIE ∧
    (∃ p, (t.proc 1).parent = some p ∧ (t.proc p).state ≠ .UNUSED ∧ (t.proc p).state ≠ .ZOMBIE) ∧
    ∀ p, t.ctl p = .wait → (t.proc p).state = .SLEEPING → ∀ q, t.IsChild p q → (t.proc q).state ≠ .ZOMBIE := by
  obtain ⟨t, hrun, hz⟩ := Lts.Run.exists_of_exec (lts 2) (fun _ _ => true) (booted 2)
    [.sched 0, .allocproc 0, .forkParent 0, .forkDone 0, .wait 0, .sched 1, .exit 1]
    (fun t => (t.proc 1).state = .ZOMBIE) (booted_booted 2) (by decide)
  have hreach := hrun.reachable
  have hstate := of_decide_eq_true hz
  exact ⟨t, hreach, hstate, (exit_wait hreach).1 1 hstate, (exit_wait hreach).2.1⟩

end Ptable

end Xv6
