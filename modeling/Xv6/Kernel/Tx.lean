import Xv6.Kernel.Calls
import Mathlib.Data.Multiset.Basic
import Mathlib.Data.Fintype.Basic

/-!
# Every call keeps to its transaction and to its files

Two protocols that every call follows. One is about control: an operation that writes blocks needs a
transaction, `begin_op` must not be called in one and every call returns outside; the number that `ialloc` has
found goes to `iget` at once, and an `iput` that gives up the lock drops its reference next. The other is
about the file table and the process table: which references to files a process holds outside its `ofile`,
and which process slot it is filling.
-/

namespace Xv6

namespace Sys

open Discipline

variable {P : Type} {α : Type}

/-! ## The control protocol -/

/-- What an `iput` has found out about the inode it has locked: that its own reference is the only one, that
there are others, or that there is nothing to free. -/
inductive Verdict where
  | sole
  | shared
  | settled
deriving DecidableEq

/-- Where a process is in its call: whether it is in a transaction, the inode it has allocated and not yet
got a reference to, the inode whose reference it is about to drop, and the verdict of an `iput`. -/
structure TxState where
  tx : Bool
  pending : Option ℕ
  leaving : Option ℕ
  verdict : Option (ℕ × Verdict)

namespace TxState

/-- Nothing is pending. -/
def Quiet (l : TxState) : Prop := l.pending = none ∧ l.leaving = none

/-- What a step needs. -/
def ActPre (l : TxState) : Act P → Prop
  | .beginOp => l.tx = false
  | .endOp => l.tx = true
  | .fs (.ifree i) => l.tx = true ∧ l.verdict = some (i, .sole)
  | .fs op => op.Looks ∨ l.tx = true
  | .release i .iput => ∃ v, v ≠ .sole ∧ l.verdict = some (i, v)
  | _ => True

/-- What an operation changes. -/
def fsNext (l : TxState) : (op : FsOp) → op.Resp → TxState
  | .ialloc _, i => { l with pending := some i }
  | .isValid i, r => if r then l else { l with verdict := some (i, .settled) }
  | .stat i, st => if st.nlink = 0 then l else { l with verdict := some (i, .settled) }
  | .ifree i, _ => { l with verdict := some (i, .settled) }
  | .load _, _ | .update _ _, _ => { l with verdict := none }
  | _, _ => l

/-- Between calls. -/
def idle : TxState := ⟨false, none, none, none⟩

end TxState

/-- Transactions, and what must follow an `ialloc` and the end of an `iput`. -/
def txDiscipline : Discipline (Act P) Act.Resp TxState where
  Pre l a := (∀ i, l.pending = some i → a = .iget i) ∧ (∀ i, l.leaving = some i → a = .refDec i) ∧ l.ActPre a
  Fact _ _ _ := True
  next l
    | .beginOp, _ => { l with tx := true }
    | .endOp, _ => { l with tx := false }
    | .iget _, _ => { l with pending := none }
    | .refDec _, _ => { l with leaving := none }
    | .ref i .iput, r => { l with verdict := some (i, if r = 1 then .sole else .shared) }
    | .release _ .ilock, _ => { l with verdict := none }
    | .release i .iput, _ => { l with leaving := some i, verdict := none }
    | .fs op, r => l.fsNext op r
    | _, _ => l

/-! ## The file protocol -/

/-- What a process has to do with files, pipes and process slots, besides its own `ofile`: whether it is in a call,
the references to files in its variables, a descriptor it knows, the descriptor that `dup` has filled without counting
it, the files it has allocated and not initialised, the descriptor whose reference it has taken out, the descriptors it
has closed, a pipe it has allocated and not given to its files, the end of a pipe it has to close, and the process it
is making, with the descriptors copied so far and whether it has a directory. -/
structure FileState (P : Type) where
  live : Bool
  frefs : Multiset (Fin NFILE)
  slot : Option (Fin NOFILE × Fin NFILE)
  extra : Option (Fin NOFILE × Fin NFILE)
  fresh : Finset (Fin NFILE)
  takenFd : Option (Fin NOFILE)
  closed : Finset (Fin NOFILE)
  newPipe : Option ℕ
  closing : Option (ℕ × Bool)
  child : Option (P × Finset (Fin NOFILE) × Bool)

namespace FileState

/-- Between calls. -/
def idle : FileState P := ⟨false, 0, none, none, ∅, none, ∅, none, none, none⟩

/-- At the start of a call. -/
def start : FileState P := { idle with live := true }

/-- Nothing is left over. -/
structure Done (l : FileState P) : Prop where
  frefs : l.frefs = 0
  extra : l.extra = none
  fresh : l.fresh = ∅
  takenFd : l.takenFd = none
  newPipe : l.newPipe = none
  closing : l.closing = none
  child : l.child = none

/-- A file has a descriptor: one that takes over its reference, or one that `dup` has yet to count. -/
def fdalloc (l : FileState P) (f : Fin NFILE) (fd : Fin NOFILE) : FileState P :=
  if f ∈ l.frefs then { l with frefs := l.frefs.erase f, closed := ∅, slot := some (fd, f) }
  else { l with extra := some (fd, f), closed := ∅ }

/-- `ofile[fd] = 0`. -/
def clearFd (l : FileState P) (fd : Fin NOFILE) : FileState P :=
  let l' := { l with closed := insert fd l.closed }
  if l.takenFd = some fd then { l' with takenFd := none }
  else { l' with slot := none, frefs := (l.slot.elim 0 fun s => {s.2}) + l.frefs }

end FileState

/-- References to files, and the making of processes. -/
def fileDiscipline : Discipline (Act P) Act.Resp (FileState P) where
  Pre l
    | .fdalloc f => l.live = true ∧ l.takenFd = none ∧ l.extra = none ∧ (f ∈ l.frefs ∨ ∃ fd, l.slot = some (fd, f))
    | .ofile _ => l.live = true ∧ l.takenFd = none ∧ l.extra = none
    | .takeFd _ => l.live = true ∧ l.takenFd = none ∧ l.slot = none ∧ l.extra = none
    | .clearFd fd => l.extra = none ∧ (l.takenFd = some fd ∨ ∃ f, l.slot = some (fd, f))
    | .filedup f => ∃ fd, l.extra = some (fd, f)
    | .fileDec f => f ∈ l.frefs ∧ l.closing = none
    | .file f | .advance f _ => ∃ fd, l.slot = some (fd, f)
    | .setFile f _ _ _ => f ∈ l.fresh
    | .kallocPipe => l.newPipe = none
    | .setPipe rf wf r => rf ∈ l.fresh ∧ wf ∈ l.fresh ∧ rf ≠ wf ∧ l.newPipe = some r
    | .pipeclose r w => l.closing = some (r, w)
    | .takeCwd => l.live = true
    | .allocproc => l.child = none ∧ l.live = true
    | .freeproc q => l.child = some (q, ∅, false)
    | .dupFd q fd => l.takenFd = none ∧ l.extra = none ∧
        ∃ copied given, l.child = some (q, copied, given) ∧ fd ∉ copied
    | .giveCwd q _ => ∃ copied, l.child = some (q, copied, false)
    | .runnable q => ∃ copied, l.child = some (q, copied, true)
    | .die => l.live = true ∧ (∀ fd, fd ∈ l.closed) ∧ l.slot = none ∧ l.Done
    | _ => True
  Fact l
    | .filealloc, r => ∀ f, r = some f → f ∉ l.frefs
    | .fileDec f, r => f ∈ l.fresh → ∀ ff, r = some ff → ff.type = .none
    | _, _ => True
  next l
    | .filealloc, r => r.elim l fun f => { l with fresh := insert f l.fresh, frefs := f ::ₘ l.frefs }
    | .fdalloc f, r => r.elim l fun fd => l.fdalloc f fd
    | .ofile fd, r => { l with slot := r.map (fd, ·) }
    | .takeFd fd, r =>
      match r with
      | none => { l with closed := insert fd l.closed }
      | some f => { l with frefs := f ::ₘ l.frefs, takenFd := some fd }
    | .clearFd fd, _ => l.clearFd fd
    | .filedup _, _ => { l with extra := none }
    | .fileDec f, r =>
      { l with frefs := l.frefs.erase f, fresh := l.fresh.erase f, closing := r.bind File.pipeEnd }
    | .setFile f _ _ _, _ => { l with fresh := l.fresh.erase f }
    | .kallocPipe, r => { l with newPipe := r }
    | .setPipe rf wf _, _ => { l with fresh := (l.fresh.erase rf).erase wf, newPipe := none }
    | .pipeclose _ _, _ => { l with closing := none }
    | .allocproc, r => { l with child := r.map (·, ∅, false) }
    | .freeproc _, _ => { l with child := none }
    | .dupFd _ fd, _ => { l with child := l.child.map fun c => (c.1, insert fd c.2.1, c.2.2) }
    | .giveCwd _ _, _ => { l with child := l.child.map fun c => (c.1, c.2.1, true) }
    | .runnable _, _ => { l with child := none }
    | .die, _ => { l with live := false, closed := ∅ }
    | _, _ => l

/-! ## Programs that follow both protocols -/

/-- The program follows both protocols, and ends with a result, inside or outside a transaction, and with
files such that `Q` holds. -/
def Runs (tx : Bool) (fl : FileState P) (x : Sys P α) (Q : α → Bool → FileState P → Prop) : Prop :=
  ∀ l : TxState, l.tx = tx → l.Quiet →
    (txDiscipline.prod fileDiscipline).Ok (l, fl) x fun a e => e.1.Quiet ∧ Q a e.1.tx e.2

/-- The program goes from `tx` to `tx'` and leaves what the process has to do with files as it is. -/
def Stays (tx : Bool) (fl : FileState P) (x : Sys P α) (tx' : Bool) : Prop :=
  Runs tx fl x fun _ tx1 fl1 => tx1 = tx' ∧ fl1 = fl

/-- The program goes from `tx` to `tx'` and has nothing to do with files. -/
def KeepsTx (tx : Bool) (x : Sys P α) (tx' : Bool) : Prop := ∀ fl, Stays tx fl x tx'

/-- The steps that neither protocol is about. -/
def Inner : Act P → Prop
  | .iget _ | .idup _ | .ref _ .ilock | .acquire _ _ | .release _ .ilock | .holding _ | .cwd | .setCwd _
  | .env | .isInit | .reap => True
  | _ => False

namespace Runs

variable {tx : Bool} {fl : FileState P} {β : Type} {Q : α → Bool → FileState P → Prop}

theorem pure {a : α} (h : Q a tx fl) : Runs tx fl (Pure.pure a) Q := by
  rintro l rfl hl
  exact ⟨hl, h⟩

theorem bind {x : Sys P β} {f : β → Sys P α} (h : Runs tx fl x fun b tx' fl' => Runs tx' fl' (f b) Q) :
    Runs tx fl (x >>= f) Q := by
  intro l hl hq
  exact ok_bind.mpr ((h l hl hq).mono fun b _ h' => h'.2 _ rfl h'.1)

variable {x : Sys P α} {a : Act P}

theorem mono {Q' : α → Bool → FileState P → Prop} (h : Runs tx fl x Q)
    (hQ : ∀ a tx' fl', Q a tx' fl' → Q' a tx' fl') : Runs tx fl x Q' :=
  fun l hl hq => (h l hl hq).mono fun a _ h' => ⟨h'.1, hQ a _ _ h'.2⟩

theorem panic {e : Panic} : Runs tx fl (Sys.panic e) Q := by
  rintro l - ⟨hp, hv⟩
  refine ⟨⟨⟨fun i hi => ?_, fun i hi => ?_, trivial⟩, trivial⟩, nofun⟩
  · exact absurd (hp.symm.trans hi) nofun
  · exact absurd (hv.symm.trans hi) nofun

theorem ite {c : Prop} [Decidable c] {y : Sys P α} (hx : Runs tx fl x Q) (hy : Runs tx fl y Q) :
    Runs tx fl (if c then x else y) Q := by
  split
  · exact hx
  · exact hy

/-- One step. -/
theorem act {Q : a.Resp → Bool → FileState P → Prop}
    (h : ∀ l : TxState, l.tx = tx → l.Quiet → l.ActPre a ∧ fileDiscipline.Pre fl a ∧
      ∀ r, fileDiscipline.Fact fl a r →
        (txDiscipline.next l a r).Quiet ∧ Q r (txDiscipline.next l a r).tx (fileDiscipline.next fl a r)) :
    Runs tx fl (step a) Q := by
  rintro l hl ⟨hp, hv⟩
  obtain ⟨hpre, hfile, hnext⟩ := h l hl ⟨hp, hv⟩
  refine ⟨⟨⟨fun i hi => ?_, fun i hi => ?_, hpre⟩, hfile⟩, fun r hr => hnext r hr.2⟩
  · exact absurd (hp.symm.trans hi) nofun
  · exact absurd (hv.symm.trans hi) nofun

/-- One step that the control protocol is not about. -/
theorem file {Q : a.Resp → Bool → FileState P → Prop}
    (hctl : ∀ l : TxState, l.ActPre a ∧ ∀ r, txDiscipline.next l a r = l) (hfile : fileDiscipline.Pre fl a)
    (hQ : ∀ r, fileDiscipline.Fact fl a r → Q r tx (fileDiscipline.next fl a r)) : Runs tx fl (step a) Q := by
  refine act fun l hl hq => ⟨(hctl l).1, hfile, fun r hr => ?_⟩
  rw [(hctl l).2, hl]
  exact ⟨hq, hQ r hr⟩

end Runs

namespace Stays

variable {tx tx' tx'' : Bool} {fl : FileState P} {β : Type}

variable {x : Sys P β}

/-- A program that leaves the files alone, and what follows. -/
theorem runs {f : β → Sys P α} {Q : α → Bool → FileState P → Prop} (hx : Stays tx fl x tx')
    (hf : ∀ b, Runs tx' fl (f b) Q) : Runs tx fl (x >>= f) Q := by
  refine .bind (Runs.mono hx ?_)
  rintro b _ _ ⟨rfl, rfl⟩
  exact hf b

theorem pure (a : α) : Stays tx fl (Pure.pure a) tx := Runs.pure ⟨rfl, rfl⟩

theorem bind {f : β → Sys P α} (hx : Stays tx fl x tx') (hf : ∀ b, Stays tx' fl (f b) tx'') :
    Stays tx fl (x >>= f) tx'' := hx.runs hf

theorem panic (e : Panic) : Stays tx fl (Sys.panic e : Sys P α) tx' := Runs.panic

theorem ite {c : Prop} [Decidable c] {x y : Sys P α} (hx : Stays tx fl x tx') (hy : Stays tx fl y tx') :
    Stays tx fl (if c then x else y) tx' := Runs.ite hx hy

end Stays

namespace KeepsTx

variable {tx tx' tx'' : Bool} {β : Type}

theorem pure (a : α) : KeepsTx (P := P) tx (Pure.pure a) tx := fun _ => .pure a

theorem bind {x : Sys P β} {f : β → Sys P α} (hx : KeepsTx tx x tx') (hf : ∀ b, KeepsTx tx' (f b) tx'') :
    KeepsTx tx (x >>= f) tx'' := fun fl => (hx fl).bind fun b => hf b fl

theorem panic (e : Panic) : KeepsTx tx (Sys.panic e : Sys P α) tx' := fun _ => .panic e

theorem ite {c : Prop} [Decidable c] {x y : Sys P α} (hx : KeepsTx tx x tx') (hy : KeepsTx tx y tx') :
    KeepsTx tx (if c then x else y) tx' := fun fl => .ite (hx fl) (hy fl)

theorem plain {a : Act P} (h : Inner a) : KeepsTx tx (step a) tx := by
  intro fl
  refine Runs.act fun l hl hq => ?_
  cases a
  case ref i site =>
    cases site with
    | ilock => exact ⟨trivial, trivial, fun _ _ => ⟨hq, hl, rfl⟩⟩
    | iput => exact h.elim
  case release i site =>
    cases site with
    | ilock => exact ⟨trivial, trivial, fun _ _ => ⟨hq, hl, rfl⟩⟩
    | iput => exact h.elim
  case iget i => exact ⟨trivial, trivial, fun _ _ => ⟨⟨rfl, hq.2⟩, hl, rfl⟩⟩
  case idup | acquire | holding | cwd | setCwd | env | isInit | reap =>
    exact ⟨trivial, trivial, fun _ _ => ⟨hq, hl, rfl⟩⟩
  all_goals exact h.elim

variable {op : FsOp}

/-- The operations other than `ialloc` and `ifree`. -/
theorem fs (hpre : ∀ l : TxState, l.tx = tx → l.ActPre (P := P) (.fs op))
    (hnext : ∀ (l : TxState) r, (l.fsNext op r).tx = l.tx ∧ (l.fsNext op r).pending = l.pending ∧
      (l.fsNext op r).leaving = l.leaving) : KeepsTx (P := P) tx (Sys.fs op) tx := by
  refine fun fl => Runs.act fun l hl hq => ⟨hpre l hl, trivial, fun r _ => ?_⟩
  obtain ⟨h1, h2, h3⟩ := hnext l r
  exact ⟨⟨h2.trans hq.1, h3.trans hq.2⟩, h1.trans hl, rfl⟩

theorem looks (h : op.Looks) : KeepsTx (P := P) tx (Sys.fs op) tx := by
  cases op
  case load | readi | dirlookup | isdirempty | invalidate =>
    exact fs (fun _ _ => .inl h) fun _ _ => ⟨rfl, rfl, rfl⟩
  case stat i =>
    refine fs (fun _ _ => .inl h) fun l r => ?_
    simp only [TxState.fsNext]
    split <;> exact ⟨rfl, rfl, rfl⟩
  case isValid i =>
    refine fs (fun _ _ => .inl h) fun l r => ?_
    cases r <;> exact ⟨rfl, rfl, rfl⟩
  all_goals exact h.elim

/-- The operations that write, besides `ialloc` and `ifree`. -/
def Writes : FsOp → Prop
  | .update _ _ | .writei _ _ _ | .dirlink _ _ _ | .clear _ _ => True
  | _ => False

theorem writes (h : Writes op) : KeepsTx (P := P) true (Sys.fs op) true := by
  cases op
  case update | writei | dirlink | clear => exact fs (fun _ hl => .inr hl) fun _ _ => ⟨rfl, rfl, rfl⟩
  all_goals exact h.elim

/-- `ialloc`: the reference follows at once. -/
theorem ialloc {type : BitVec 16} {f : ℕ → Sys P α} (hf : ∀ ip, KeepsTx true (f ip) tx') :
    KeepsTx true (do let ip ← Sys.fs (.ialloc type); step (.iget ip); f ip) tx' := by
  intro fl l htx hq
  refine ok_bind.mpr ⟨⟨⟨?_, ?_, .inr htx⟩, trivial⟩, fun ip _ => ?_⟩
  · exact fun i hi => absurd (hq.1.symm.trans hi) nofun
  · exact fun i hi => absurd (hq.2.symm.trans hi) nofun
  · refine ok_bind.mpr ⟨⟨⟨?_, ?_, trivial⟩, trivial⟩, fun _ _ => ?_⟩
    · rintro i ⟨⟩
      rfl
    · exact fun i hi => absurd (hq.2.symm.trans hi) nofun
    · exact hf ip fl { l with pending := none } htx ⟨rfl, hq.2⟩

theorem beginOp : KeepsTx (P := P) false (step .beginOp) true :=
  fun _ => Runs.act fun _ hl hq => ⟨hl, trivial, fun _ _ => ⟨hq, rfl, rfl⟩⟩

theorem endOp : KeepsTx (P := P) true (step .endOp) false :=
  fun _ => Runs.act fun _ hl hq => ⟨hl, trivial, fun _ _ => ⟨hq, rfl, rfl⟩⟩

end KeepsTx

variable {tx : Bool}

theorem keepsTx_ilock (i : ℕ) : KeepsTx (P := P) tx (ilock i) tx :=
  .bind (.plain trivial) fun _ =>
    .ite (.panic _) (.bind (.plain trivial) fun _ => .looks trivial)

theorem keepsTx_iunlock (i : ℕ) : KeepsTx (P := P) tx (iunlock i) tx :=
  .bind (.plain trivial) fun _ => .bind (.plain trivial) fun _ =>
    .ite (.panic _) (.plain trivial)

theorem keepsTx_stat (i : ℕ) : KeepsTx (P := P) tx (fs (.stat i)) tx := .looks trivial

/-- The part of `iput` that holds the lock ends with a verdict. -/
theorem runs_iputFree (i : ℕ) {l : TxState} {fl : FileState P} (htx : l.tx = true) (hq : l.Quiet) :
    (txDiscipline.prod fileDiscipline).Ok (l, fl) (iputFree i) fun _ e =>
      e.1.tx = true ∧ e.1.Quiet ∧ (∃ v, v ≠ .sole ∧ e.1.verdict = some (i, v)) ∧ e.2 = fl := by
  have hpre : ∀ (l' : TxState) (a : Act P), l'.Quiet → l'.ActPre a → txDiscipline.Pre l' a := by
    rintro l' a ⟨hp, hv⟩ ha
    exact ⟨fun i hi => absurd (hp.symm.trans hi) nofun, fun i hi => absurd (hv.symm.trans hi) nofun, ha⟩
  have hpure : ∀ (l' : TxState) v, l'.tx = true → l'.Quiet → v ≠ .sole →
      { l' with verdict := some (i, v) : TxState }.tx = true ∧ { l' with verdict := some (i, v) : TxState }.Quiet ∧
        (∃ v', v' ≠ .sole ∧ { l' with verdict := some (i, v) : TxState }.verdict = some (i, v')) ∧ fl = fl :=
    fun l' v h1 h2 h3 => ⟨h1, h2, ⟨v, h3, rfl⟩, rfl⟩
  refine ok_bind.mpr (ok_bind.mpr ⟨⟨hpre _ _ hq (.inl trivial), trivial⟩, fun valid _ => ?_⟩)
  cases valid with
  | false => exact hpure l _ htx hq (by decide)
  | true =>
    refine ok_bind.mpr ⟨⟨hpre _ _ hq (.inl trivial), trivial⟩, fun st _ => ?_⟩
    by_cases hn : st.nlink = 0
    · -- the inode has no links: what matters is the reference count
      have hnext : TxState.fsNext l (.stat i) st = l := if_pos hn
      have hb : (st.nlink == 0) = true := beq_iff_eq.mpr hn
      show (txDiscipline.prod fileDiscipline).Ok (TxState.fsNext l (.stat i) st, fl)
        (if (st.nlink == 0) = true then _ else _) _
      rw [hnext, if_pos hb]
      refine ok_bind.mpr ⟨⟨hpre _ _ hq trivial, trivial⟩, fun r _ => ?_⟩
      show (txDiscipline.prod fileDiscipline).Ok
        ({ l with verdict := some (i, if r = 1 then .sole else .shared) }, fl) (if r = 1 then _ else _) _
      by_cases hr : r = 1
      · rw [if_pos hr, if_pos hr]
        exact ⟨⟨hpre _ _ hq ⟨htx, rfl⟩, trivial⟩, fun _ _ => hpure l _ htx hq (by decide)⟩
      · rw [if_neg hr, if_neg hr]
        exact hpure l _ htx hq (by decide)
    · have hnext : TxState.fsNext l (.stat i) st = { l with verdict := some (i, .settled) } := if_neg hn
      have hb : (st.nlink == 0) = false := beq_false_of_ne hn
      show (txDiscipline.prod fileDiscipline).Ok (TxState.fsNext l (.stat i) st, fl)
        (if (st.nlink == 0) = true then _ else _) _
      rw [hnext, hb, if_neg Bool.false_ne_true]
      exact hpure l _ htx hq (by decide)

theorem keepsTx_iput (i : ℕ) : KeepsTx (P := P) true (iput i) true := by
  refine .bind (.plain trivial) fun _ fl l htx hq => ?_
  refine ok_bind.mpr ((runs_iputFree i htx hq).mono ?_)
  rintro _ ⟨l1, _⟩ ⟨htx1, hq1, hverdict, rfl⟩
  refine ok_bind.mpr ⟨⟨⟨?_, ?_, hverdict⟩, trivial⟩, fun _ _ => ?_⟩
  · exact fun j hj => absurd (hq1.1.symm.trans hj) nofun
  · exact fun j hj => absurd (hq1.2.symm.trans hj) nofun
  · refine ⟨⟨⟨?_, ?_, trivial⟩, trivial⟩, fun _ _ => ⟨⟨hq1.1, rfl⟩, htx1, rfl⟩⟩
    · exact fun j hj => absurd (hq1.1.symm.trans hj) nofun
    · rintro j ⟨⟩
      rfl

theorem keepsTx_iunlockput (i : ℕ) : KeepsTx (P := P) true (iunlockput i) true :=
  .bind (keepsTx_iunlock i) fun _ => keepsTx_iput i

theorem keepsTx_readi (i off n : ℕ) : KeepsTx (P := P) tx (readi i off n) tx :=
  .bind (.looks trivial) fun _ => .ite
    (.ite (.bind (keepsTx_iunlock i) fun _ => .bind (.plain trivial) fun _ =>
      .bind (keepsTx_ilock i) fun _ => .pure _) (.pure _))
    (.looks trivial)

theorem keepsTx_writei (i off : ℕ) (src : List UInt8) : KeepsTx (P := P) true (writei i off src) true :=
  .bind (.looks trivial) fun _ => .ite
    (.ite (.bind (keepsTx_iunlock i) fun _ => .bind (keepsTx_ilock i) fun _ => .pure _) (.pure _))
    (.writes trivial)

theorem keepsTx_dirlookup (d : ℕ) (name : List UInt8) : KeepsTx (P := P) tx (dirlookup d name) tx := by
  refine .bind (.looks trivial) fun r => ?_
  cases r with
  | none => exact .pure _
  | some e => exact .bind (.plain trivial) fun _ => .pure _

theorem keepsTx_dirlink (d : ℕ) (name : List UInt8) (inum : ℕ) : KeepsTx (P := P) true (dirlink d name inum) true := by
  refine .bind (keepsTx_dirlookup d name) fun r => ?_
  cases r with
  | none => exact .bind (.writes trivial) fun _ => .pure _
  | some e => exact .bind (keepsTx_iput _) fun _ => .pure _

theorem keepsTx_namexLoop (parent : Bool) (i : ℕ) (names : List (List UInt8)) :
    KeepsTx (P := P) true (namexLoop parent i names) true := by
  induction names generalizing i with
  | nil => exact .ite (.bind (keepsTx_iput i) fun _ => .pure _) (.pure _)
  | cons name rest ih =>
    refine .bind (keepsTx_ilock i) fun _ => .bind (.looks trivial) fun st => .ite ?_ (.ite ?_ ?_)
    · exact .bind (keepsTx_iunlockput i) fun _ => .pure _
    · exact .bind (keepsTx_iunlock i) fun _ => .pure _
    · refine .bind (keepsTx_dirlookup i name) fun r => ?_
      cases r with
      | none => exact .bind (keepsTx_iunlockput i) fun _ => .pure _
      | some e => exact .bind (keepsTx_iunlockput i) fun _ => ih e.2

theorem keepsTx_namex (path : List UInt8) (parent : Bool) : KeepsTx (P := P) true (namex path parent) true := by
  have hstart : KeepsTx (P := P) true (namexStart path) true :=
    .ite (.bind (.plain trivial) fun _ => .pure _)
      (.bind (.plain trivial) fun _ => .bind (.plain trivial) fun _ => .pure _)
  exact .bind hstart fun i => keepsTx_namexLoop parent i _

/-! ## Open files -/

section

variable {fl : FileState P} {f : Fin NFILE}

/-- Closing a file outside of a transaction. -/
theorem runs_fileclose (hf : f ∈ fl.frefs) (hclosing : fl.closing = none) : Runs false fl (fileclose f) fun _ tx' fl' =>
      tx' = false ∧ fl' = { fl with frefs := fl.frefs.erase f, fresh := fl.fresh.erase f } := by
  have hend : { fl with frefs := fl.frefs.erase f, fresh := fl.fresh.erase f, closing := none } =
      { fl with frefs := fl.frefs.erase f, fresh := fl.fresh.erase f } := by rw [hclosing]
  refine .bind (.file (fun _ => ⟨trivial, fun _ => rfl⟩) ⟨hf, hclosing⟩ fun ff _ => ?_)
  cases ff with
  | none => exact .pure ⟨rfl, hend⟩
  | some ff =>
    show Runs false { fl with frefs := fl.frefs.erase f, fresh := fl.fresh.erase f, closing := ff.pipeEnd }
      (fileclosed ff) _
    unfold fileclosed File.pipeEnd
    cases ff.type with
    | none => exact .pure ⟨rfl, hend⟩
    | pipe r => exact .file (fun _ => ⟨trivial, fun _ => rfl⟩) rfl fun _ _ => ⟨rfl, hend⟩
    | inode i =>
      show Runs false { fl with frefs := fl.frefs.erase f, fresh := fl.fresh.erase f, closing := none } _ _
      rw [hend]
      exact (KeepsTx.beginOp _).bind fun _ => (keepsTx_iput i _).bind fun _ => KeepsTx.endOp _

section

variable (hf : ∃ fd, fl.slot = some (fd, f))

include hf

/-- The fields of an open file. -/
theorem stays_file {tx' : Bool} {g : File → Sys P α}
    (hg : ∀ ff, Stays tx fl (g ff) tx') : Stays tx fl (do let ff ← step (.file f); g ff) tx' :=
  Runs.bind (.file (fun _ => ⟨trivial, fun _ => rfl⟩) hf fun ff _ => hg ff)

theorem stays_filestat : Stays tx fl (filestat f) tx := by
  refine stays_file hf fun ff => ?_
  cases ff.type with
  | none | pipe r => exact .pure _
  | inode i =>
    exact (keepsTx_ilock i _).bind fun _ => (keepsTx_stat i _).bind fun _ =>
      (keepsTx_iunlock i _).bind fun _ => .pure _

theorem stays_advance {r : Option ℕ} : Stays tx fl (advance f r) tx :=
  .ite (Runs.file (fun _ => ⟨trivial, fun _ => rfl⟩) hf fun _ _ => ⟨rfl, rfl⟩) (.pure _)

theorem stays_fileread {n : ℕ} : Stays tx fl (fileread f n) tx := by
  refine stays_file hf fun ff => .ite (.pure _) ?_
  cases ff.type with
  | none => exact .panic _
  | pipe r => exact (KeepsTx.plain (a := .env) trivial _).bind fun _ => .pure _
  | inode i =>
    exact (keepsTx_ilock i _).bind fun _ => stays_file hf fun ff => (keepsTx_readi i _ n _).bind fun _ =>
      (stays_advance hf).bind fun _ => (keepsTx_iunlock i _).bind fun _ => .pure _

end

theorem stays_filewriteLoop (i fuel : ℕ) (src : List UInt8) (hf : ∃ fd, fl.slot = some (fd, f)) :
    Stays false fl (filewriteLoop f i fuel src) false := by
  have hchunk : ∀ src, Stays false fl (filewriteChunk f i src) false := fun src =>
    (KeepsTx.beginOp _).bind fun _ => (keepsTx_ilock i _).bind fun _ => stays_file hf fun ff =>
      (keepsTx_writei i _ src _).bind fun _ => (stays_advance hf).bind fun _ =>
        (keepsTx_iunlock i _).bind fun _ => (KeepsTx.endOp _).bind fun _ => .pure _
  induction fuel generalizing src with
  | zero => exact .pure _
  | succ fuel ih =>
    refine .ite (.pure _) ((hchunk _).bind fun r => ?_)
    cases r with
    | none => exact .pure _
    | some n => exact .ite (.panic _) (ih _)

theorem stays_filewrite {src : List UInt8} (hf : ∃ fd, fl.slot = some (fd, f)) :
    Stays false fl (filewrite f src) false := by
  refine stays_file hf fun ff => .ite (.pure _) ?_
  cases ff.type with
  | none => exact .panic _
  | pipe r => exact (KeepsTx.plain (a := .env) trivial _).bind fun _ => .pure _
  | inode i => exact (stays_filewriteLoop i _ src hf).bind fun _ => .pure _

/-- A descriptor, and what is done with its file. -/
theorem runs_argfd {fd : ℕ} {g : Option (Fin NFILE) → Sys P α} {Q : α → Bool → FileState P → Prop}
    (hlive : fl.live = true) (htaken : fl.takenFd = none) (hextra : fl.extra = none)
    (hnone : Runs tx { fl with slot := none } (g none) Q) (hslot : fl.slot = none)
    (hsome : ∀ fd f, Runs tx { fl with slot := some (fd, f) } (g (some f)) Q) :
    Runs tx fl (argfd fd >>= g) Q := by
  refine .bind ?_
  unfold argfd
  split
  · refine .file (fun _ => ⟨trivial, fun _ => rfl⟩) ⟨hlive, htaken, hextra⟩ fun r _ => ?_
    cases r with
    | none => exact hnone
    | some f => exact hsome _ f
  · rw [← hslot] at hnone
    exact .pure hnone

end

/-! ## The system calls -/

theorem keepsTx_sysLink (old new : Option (List UInt8)) : KeepsTx (P := P) false (sysLink old new) false := by
  have hbad : ∀ ip, KeepsTx (P := P) true (linkBad ip) false := fun ip =>
    .bind (keepsTx_ilock ip) fun _ => .bind (.writes trivial) fun _ => .bind (keepsTx_iunlockput ip) fun _ =>
      .bind .endOp fun _ => .pure _
  cases old with
  | none => exact .pure _
  | some old =>
    cases new with
    | none => exact .pure _
    | some new =>
      refine .bind .beginOp fun _ => .bind (keepsTx_namex old false) fun r => ?_
      cases r with
      | none => exact .bind .endOp fun _ => .pure _
      | some e =>
        refine .bind (keepsTx_ilock e.1) fun _ => .bind (.looks trivial) fun st => .ite ?_ ?_
        · exact .bind (keepsTx_iunlockput _) fun _ => .bind .endOp fun _ => .pure _
        · refine .bind (.writes trivial) fun _ => .bind (keepsTx_iunlock _) fun _ => ?_
          refine .bind (keepsTx_namex new true) fun r => ?_
          cases r with
          | none => exact hbad _
          | some d =>
            refine .bind (keepsTx_ilock d.1) fun _ => .bind (keepsTx_dirlink d.1 d.2 _) fun ok =>
              .bind (keepsTx_iunlockput _) fun _ => .ite ?_ (hbad _)
            exact .bind (keepsTx_iput _) fun _ => .bind .endOp fun _ => .pure _

theorem keepsTx_sysUnlink (path : Option (List UInt8)) : KeepsTx (P := P) false (sysUnlink path) false := by
  have hbad : ∀ dp, KeepsTx (P := P) true (unlinkBad dp) false := fun dp =>
    .bind (keepsTx_iunlockput dp) fun _ => .bind .endOp fun _ => .pure _
  cases path with
  | none => exact .pure _
  | some path =>
    refine .bind .beginOp fun _ => .bind (keepsTx_namex path true) fun r => ?_
    cases r with
    | none => exact .bind .endOp fun _ => .pure _
    | some d =>
      refine .bind (keepsTx_ilock d.1) fun _ => .ite (hbad _) (.bind (keepsTx_dirlookup d.1 d.2) fun r => ?_)
      cases r with
      | none => exact hbad _
      | some e =>
        refine .bind (keepsTx_ilock e.2) fun _ => .bind (.looks trivial) fun st => .ite (.panic _) ?_
        have hfull : KeepsTx (P := P) true (nonEmptyDir e.2 st.type) true :=
          .ite (.bind (.looks trivial) fun _ => .pure _) (.pure _)
        refine .bind hfull fun full => .ite (.bind (keepsTx_iunlockput _) fun _ => hbad _) ?_
        exact .bind (.writes trivial) fun _ => .bind (.ite (.writes trivial) (.pure _)) fun _ =>
          .bind (keepsTx_iunlockput _) fun _ => .bind (.writes trivial) fun _ =>
            .bind (keepsTx_iunlockput _) fun _ => .bind .endOp fun _ => .pure _

theorem keepsTx_create (path : List UInt8) (type major minor : BitVec 16) :
    KeepsTx (P := P) true (create path type major minor) true := by
  refine .bind (keepsTx_namex path true) fun r => ?_
  cases r with
  | none => exact .pure _
  | some d =>
    refine .bind (keepsTx_ilock d.1) fun _ => .bind (keepsTx_dirlookup d.1 d.2) fun r => ?_
    cases r with
    | some e =>
      exact .bind (keepsTx_iunlockput _) fun _ => .bind (keepsTx_ilock _) fun _ =>
        .bind (.looks trivial) fun _ => .ite (.pure _) (.bind (keepsTx_iunlockput _) fun _ => .pure _)
    | none =>
      have hdots : ∀ ip, KeepsTx (P := P) true (createDots d.1 ip type) true := fun ip =>
        .ite (.bind (.writes trivial) fun _ => .bind (keepsTx_dirlink ip dot ip) fun _ =>
          .ite (.bind (keepsTx_dirlink ip dotdot d.1) fun _ => .ite (.pure _) (.panic _)) (.panic _)) (.pure _)
      exact .ialloc fun ip => .bind (keepsTx_ilock ip) fun _ =>
        .bind (.writes trivial) fun _ => .bind (hdots ip) fun _ => .bind (keepsTx_dirlink d.1 d.2 ip) fun _ =>
          .ite (.bind (keepsTx_iunlockput _) fun _ => .pure _) (.panic _)

/-- The process has nothing to do with files, except for one it has allocated. -/
def FileState.Opens (l : FileState P) : Option (Fin NFILE × Fin NOFILE) → Prop
  | none => l.Done
  | some (f, _) => f ∈ l.fresh ∧ { l with fresh := l.fresh.erase f }.Done

theorem runs_openFile {fl : FileState P} (h : fl.Done) (hlive : fl.live = true) :
    Runs true fl openFile fun r tx' fl' => tx' = true ∧ fl'.Opens r := by
  refine .bind (.file (fun _ => ⟨trivial, fun _ => rfl⟩) trivial fun f _ => ?_)
  cases f with
  | none => exact .pure ⟨rfl, h⟩
  | some f =>
    have hmem : f ∈ f ::ₘ fl.frefs := Multiset.mem_cons_self f _
    have herase : (f ::ₘ fl.frefs).erase f = 0 := by rw [Multiset.erase_cons_head, h.frefs]
    have hfresh : (insert f fl.fresh).erase f = ∅ := by simp [h.fresh]
    refine .bind (.file (fun _ => ⟨trivial, fun _ => rfl⟩) ⟨hlive, h.takenFd, h.extra, .inl hmem⟩ fun fd _ => ?_)
    cases fd with
    | some fd =>
      refine .pure ⟨rfl, ?_⟩
      have hnew : FileState.fdalloc { fl with fresh := insert f fl.fresh, frefs := f ::ₘ fl.frefs } f fd =
          { fl with fresh := insert f fl.fresh, frefs := (f ::ₘ fl.frefs).erase f, closed := ∅, slot := some (fd, f) } :=
        if_pos hmem
      show FileState.Opens (FileState.fdalloc { fl with fresh := insert f fl.fresh, frefs := f ::ₘ fl.frefs } f fd) _
      rw [hnew]
      exact ⟨Finset.mem_insert_self f _, herase, h.extra, hfresh, h.takenFd, h.newPipe, h.closing, h.child⟩
    | none =>
      -- closing the file that has just been allocated does not start a transaction
      refine .bind (.bind (.file (fun _ => ⟨trivial, fun _ => rfl⟩) ⟨hmem, h.closing⟩ fun ff htype => ?_))
      cases ff with
      | none => exact .pure (.pure ⟨rfl, herase, h.extra, hfresh, h.takenFd, h.newPipe, rfl, h.child⟩)
      | some ff =>
        have ht : ff.type = .none := htype (Finset.mem_insert_self f _) ff rfl
        have hend : ff.pipeEnd = none := by rw [File.pipeEnd, ht]
        show Runs true _ (fileclosed ff) _
        rw [fileclosed, ht]
        exact .pure (.pure ⟨rfl, herase, h.extra, hfresh, h.takenFd, h.newPipe, hend, h.child⟩)

theorem keepsTx_openInode (path : List UInt8) (omode : BitVec 32) :
    KeepsTx (P := P) true (openInode path omode) true := by
  refine .ite (keepsTx_create path _ _ _) (.bind (keepsTx_namex path false) fun r => ?_)
  cases r with
  | none => exact .pure _
  | some e =>
    exact .bind (keepsTx_ilock _) fun _ => .bind (.looks trivial) fun _ =>
      .ite (.bind (keepsTx_iunlockput _) fun _ => .pure _) (.pure _)

/-- What a call leaves behind. -/
abbrev Returns (fl : FileState P) (x : Sys P α) : Prop := Runs false fl x fun _ tx' fl' => tx' = false ∧ fl'.Done

variable {x : Sys P α} {fds : List (Fin NOFILE)}

theorem KeepsTx.returns {fl : FileState P} (hx : KeepsTx false x false) (h : fl.Done) : Returns fl x := by
  refine Runs.mono (hx fl) ?_
  rintro _ _ _ ⟨rfl, rfl⟩
  exact ⟨rfl, h⟩

theorem Stays.returns {fl : FileState P} (hx : Stays false fl x false) (h : fl.Done) : Returns fl x := by
  refine Runs.mono hx ?_
  rintro _ _ _ ⟨rfl, rfl⟩
  exact ⟨rfl, h⟩

theorem returns_sysOpen {fl : FileState P} (path : Option (List UInt8)) (omode : BitVec 32) (h : fl.Done)
    (hlive : fl.live = true) : Returns fl (sysOpen path omode) := by
  cases path with
  | none => exact .pure ⟨rfl, h⟩
  | some path =>
    refine (KeepsTx.beginOp _).runs fun _ => (keepsTx_openInode path omode _).runs fun ip => ?_
    cases ip with
    | none => exact (KeepsTx.endOp _).runs fun _ => .pure ⟨rfl, h⟩
    | some ip =>
      refine .bind ((runs_openFile h hlive).mono ?_)
      rintro r _ fl' ⟨rfl, hr⟩
      cases r with
      | none => exact (keepsTx_iunlockput ip _).runs fun _ => (KeepsTx.endOp _).runs fun _ => .pure ⟨rfl, hr⟩
      | some e =>
        refine (keepsTx_iunlock ip _).runs fun _ => (KeepsTx.endOp _).runs fun _ => ?_
        exact .bind (.file (fun _ => ⟨trivial, fun _ => rfl⟩) hr.1 fun _ _ => .pure ⟨rfl, hr.2⟩)

theorem keepsTx_withPath {path : Option (List UInt8)} {f : List UInt8 → Sys P (Option α)}
    (hf : ∀ path, KeepsTx true (f path) true) : KeepsTx true (withPath path f) true := by
  cases path with
  | none => exact .pure _
  | some path => exact hf path

theorem keepsTx_sysCreate (path : Option (List UInt8)) (type major minor : BitVec 16) :
    KeepsTx (P := P) false (sysCreate path type major minor) false := by
  refine .bind .beginOp fun _ => .bind (keepsTx_withPath fun path => keepsTx_create path _ _ _) fun r => ?_
  cases r with
  | none => exact .bind .endOp fun _ => .pure _
  | some ip => exact .bind (keepsTx_iunlockput ip) fun _ => .bind .endOp fun _ => .pure _

/-- Taking `cwd` out. -/
theorem stays_takeCwd {tx : Bool} {fl : FileState P} (h : fl.live = true) : Stays tx fl (step .takeCwd) tx :=
  Runs.file (fun _ => ⟨trivial, fun _ => rfl⟩) h fun _ _ => ⟨rfl, rfl⟩

theorem stays_sysChdir {fl : FileState P} (path : Option (List UInt8)) (h : fl.live = true) :
    Stays false fl (sysChdir path) false := by
  refine (KeepsTx.beginOp _).bind fun _ =>
    (keepsTx_withPath (fun path => keepsTx_namex path false) _).bind fun r => ?_
  cases r with
  | none => exact (KeepsTx.endOp _).bind fun _ => .pure _
  | some e =>
    refine (keepsTx_ilock _ _).bind fun _ => (keepsTx_stat e.1 _).bind fun _ => .ite ?_ ?_
    · exact (keepsTx_iunlockput _ _).bind fun _ => (KeepsTx.endOp _).bind fun _ => .pure _
    · exact (keepsTx_iunlock _ _).bind fun _ => (stays_takeCwd h).bind fun old => (keepsTx_iput old _).bind fun _ =>
        (KeepsTx.endOp _).bind fun _ => (KeepsTx.plain (a := .setCwd _) trivial _).bind fun _ => .pure _

theorem keepsTx_readExactly (i off n : ℕ) : KeepsTx (P := P) tx (readExactly i off n) tx :=
  .bind (keepsTx_readi i off n) fun _ => .pure _

theorem keepsTx_loaduvm (i offset sz : ℕ) : KeepsTx (P := P) tx (loaduvm i offset sz) tx := by
  unfold loaduvm
  generalize List.range ((sz + (PGSIZE - 1)) / PGSIZE) = pages
  induction pages with
  | nil => exact .pure _
  | cons page pages ih =>
    refine .bind (keepsTx_readExactly i _ _) fun r => ?_
    cases r with
    | none => exact .pure _
    | some _ => exact ih

theorem keepsTx_execLoop (i n off : ℕ) : KeepsTx (P := P) tx (execLoop i n off) tx := by
  have hseg : ∀ ph, KeepsTx (P := P) tx (loadSegment i ph) tx := by
    intro ph
    refine .ite (.pure _) (.ite (.pure _) (.bind (.plain trivial) fun memory => ?_))
    cases memory with
    | none => exact .pure _
    | some _ => exact .ite (.pure _) (keepsTx_loaduvm i _ _)
  induction n generalizing off with
  | zero => exact .pure _
  | succ n ih =>
    refine .bind (keepsTx_readExactly i _ _) fun r => ?_
    cases r with
    | none => exact .pure _
    | some bytes => exact .ite (ih _) (.bind (hseg _) fun _ => .ite (ih _) (.pure _))

theorem keepsTx_sysExec (path : Option (List UInt8)) : KeepsTx (P := P) false (sysExec path) false := by
  have hload : ∀ i, KeepsTx (P := P) true (execLoad i) true := by
    intro i
    refine .bind (keepsTx_readExactly i _ _) fun r => ?_
    cases r with
    | none => exact .pure _
    | some bytes =>
      refine .ite (.pure _) (.bind (.plain trivial) fun pgdir => ?_)
      cases pgdir with
      | none => exact .pure _
      | some _ => exact keepsTx_execLoop i _ _
  cases path with
  | none => exact .pure _
  | some path =>
    refine .bind .beginOp fun _ => .bind (keepsTx_namex path false) fun r => ?_
    cases r with
    | none => exact .bind .endOp fun _ => .pure _
    | some e =>
      exact .bind (keepsTx_ilock _) fun _ => .bind (hload _) fun _ => .bind (keepsTx_iunlockput _) fun _ =>
        .bind .endOp fun _ => .ite (.bind (.plain trivial) fun _ => .pure _) (.pure _)

/-- The loop of `fork` over descriptors that have not been copied. -/
theorem runs_forkFiles {q : P} {fl : FileState P} {copied : Finset (Fin NOFILE)}
    (htaken : fl.takenFd = none) (hextra : fl.extra = none) (hchild : fl.child = some (q, copied, false))
    (hnew : ∀ fd ∈ fds, fd ∉ copied) (hnodup : fds.Nodup) : Runs false fl (forkFiles q fds) fun _ tx' fl' =>
      tx' = false ∧ ∃ copied', fl' = { fl with child := some (q, copied', false) } := by
  induction fds generalizing fl copied with
  | nil => exact .pure ⟨rfl, copied, by rw [← hchild]⟩
  | cons fd fds ih =>
    obtain ⟨hfd, hrest⟩ := List.nodup_cons.mp hnodup
    have hpre : fileDiscipline.Pre fl (.dupFd q fd) := ⟨htaken, hextra, copied, false, hchild, hnew fd (by simp)⟩
    refine .bind (.file (fun _ => ⟨trivial, fun _ => rfl⟩) hpre fun _ _ => ?_)
    have hchild' : (fileDiscipline.next fl (.dupFd q fd) ()).child = some (q, insert fd copied, false) := by
      simp [fileDiscipline, hchild]
    refine (ih ?_ ?_ hchild' (fun fd' hmem => ?_) hrest).mono fun _ _ _ h => h
    · exact htaken
    · exact hextra
    rw [Finset.mem_insert, not_or]
    exact ⟨fun heq => hfd (heq ▸ hmem), hnew fd' (by simp [hmem])⟩

theorem returns_sysFork {fl : FileState P} (h : fl.Done) (hlive : fl.live = true) : Returns fl sysFork := by
  have hdone : ({ fl with child := none } : FileState P).Done :=
    ⟨h.frefs, h.extra, h.fresh, h.takenFd, h.newPipe, h.closing, rfl⟩
  refine .bind (.file (fun _ => ⟨trivial, fun _ => rfl⟩) ⟨h.child, hlive⟩ fun q _ => ?_)
  cases q with
  | none => exact .pure ⟨rfl, hdone⟩
  | some q =>
    refine (KeepsTx.plain (a := .env) trivial _).runs fun memory => ?_
    cases memory with
    | none => exact .bind (.file (fun _ => ⟨trivial, fun _ => rfl⟩) rfl fun _ _ => .pure ⟨rfl, hdone⟩)
    | some _ =>
      refine .bind ((runs_forkFiles ?_ ?_ rfl (fun _ _ => Finset.notMem_empty _) (List.nodup_finRange _)).mono ?_)
      · exact h.takenFd
      · exact h.extra
      rintro _ _ _ ⟨rfl, copied, rfl⟩
      refine (KeepsTx.plain (a := .cwd) trivial _).runs fun i => ?_
      refine (KeepsTx.plain (a := .idup i) trivial _).runs fun _ => ?_
      refine .bind (.file (fun _ => ⟨trivial, fun _ => rfl⟩) ⟨copied, rfl⟩ fun _ _ => ?_)
      refine .bind (.file (fun _ => ⟨trivial, fun _ => rfl⟩) ⟨copied, rfl⟩ fun _ _ => ?_)
      exact .pure ⟨rfl, hdone⟩

/-- The loop of `exit` closes every descriptor. -/
theorem runs_exitFiles {fl : FileState P} (h : fl.Done) (hslot : fl.slot = none)
    (hlive : fl.live = true) : Runs false fl (exitFiles fds) fun _ tx' fl' =>
      tx' = false ∧ fl'.Done ∧ fl'.slot = none ∧ fl'.live = fl.live ∧ ∀ fd, fd ∈ fds ∨ fd ∈ fl.closed → fd ∈ fl'.closed := by
  induction fds generalizing fl with
  | nil => exact .pure ⟨rfl, h, hslot, rfl, fun fd hfd => hfd.resolve_left nofun⟩
  | cons fd fds ih =>
    -- whatever the descriptor was, it is closed when the rest of the loop starts
    have hrest : ∀ fl1 : FileState P, fl1.Done → fl1.slot = none → fl1.live = fl.live →
        fl1.closed = insert fd fl.closed → Runs false fl1 (exitFiles fds) fun _ tx' fl' =>
          tx' = false ∧ fl'.Done ∧ fl'.slot = none ∧ fl'.live = fl.live ∧
            ∀ fd', fd' ∈ fd :: fds ∨ fd' ∈ fl.closed → fd' ∈ fl'.closed := by
      intro fl1 h1 hslot1 hlive1 hclosed1
      refine (ih h1 hslot1 (hlive1.trans hlive)).mono ?_
      rintro _ _ fl' ⟨rfl, h', hslot', hlive', hclosed'⟩
      refine ⟨rfl, h', hslot', hlive'.trans hlive1, fun fd' hfd' => hclosed' fd' ?_⟩
      rw [hclosed1, Finset.mem_insert]
      rcases hfd' with hmem | hmem
      · rcases List.mem_cons.mp hmem with rfl | hmem
        · exact .inr (.inl rfl)
        · exact .inl hmem
      · exact .inr (.inr hmem)
    refine .bind (.file (fun _ => ⟨trivial, fun _ => rfl⟩) ⟨hlive, h.takenFd, hslot, h.extra⟩ fun f _ => ?_)
    cases f with
    | none =>
      exact hrest _ ⟨h.frefs, h.extra, h.fresh, h.takenFd, h.newPipe, h.closing, h.child⟩ hslot rfl rfl
    | some f =>
      refine .bind ((runs_fileclose ?_ ?_).mono ?_)
      · exact Multiset.mem_cons_self f _
      · exact h.closing
      rintro _ _ _ ⟨rfl, rfl⟩
      refine .bind (.file (fun _ => ⟨trivial, fun _ => rfl⟩) ⟨h.extra, .inl rfl⟩ fun _ _ => ?_)
      set fl1 : FileState P := { fl with
        frefs := (f ::ₘ fl.frefs).erase f
        takenFd := some fd
        fresh := fl.fresh.erase f } with hfl1
      have hclear : fl1.clearFd fd = { fl1 with closed := insert fd fl.closed, takenFd := none } := by
        simp [FileState.clearFd, hfl1]
      show Runs false (fl1.clearFd fd) _ _
      rw [hclear]
      refine hrest _ ⟨?_, h.extra, ?_, rfl, h.newPipe, h.closing, h.child⟩ hslot rfl rfl
      · simp [hfl1, h.frefs]
      · simp [hfl1, h.fresh]

theorem returns_sysExit {fl : FileState P} (h : fl.Done) (hslot : fl.slot = none) (hlive : fl.live = true) :
    Returns fl sysExit := by
  refine (KeepsTx.plain (a := .isInit) trivial _).runs fun _ => .ite .panic ?_
  refine .bind ((runs_exitFiles h hslot hlive).mono ?_)
  rintro _ _ fl' ⟨rfl, h', hslot', hlive', hclosed⟩
  refine (KeepsTx.beginOp _).runs fun _ => (stays_takeCwd (hlive'.trans hlive)).runs fun i =>
    (keepsTx_iput i _).runs fun _ => (KeepsTx.endOp _).runs fun _ =>
      (KeepsTx.plain (a := .setCwd 0) trivial _).runs fun _ => ?_
  have hall : ∀ fd, fd ∈ fl'.closed := fun fd => hclosed fd (.inl (List.mem_finRange fd))
  have hdead : ({ fl' with live := false, closed := ∅ } : FileState P).Done :=
    ⟨h'.frefs, h'.extra, h'.fresh, h'.takenFd, h'.newPipe, h'.closing, h'.child⟩
  exact .bind (.file (fun _ => ⟨trivial, fun _ => rfl⟩) ⟨hlive'.trans hlive, hall, hslot', h'⟩ fun _ _ =>
    .pure ⟨rfl, hdead⟩)

theorem returns_sysClose {fl : FileState P} (fd : ℕ) (h : fl.Done) (hlive : fl.live = true) :
    Returns fl (sysClose fd) := by
  unfold sysClose
  split
  · rename_i hfd
    refine .bind (.file (fun _ => ⟨trivial, fun _ => rfl⟩) ⟨hlive, h.takenFd, h.extra⟩ fun f _ => ?_)
    cases f with
    | none => exact .pure ⟨rfl, h.frefs, h.extra, h.fresh, h.takenFd, h.newPipe, h.closing, h.child⟩
    | some f =>
      refine .bind (.file (fun _ => ⟨trivial, fun _ => rfl⟩) ⟨h.extra, .inr ⟨f, rfl⟩⟩ fun _ _ => ?_)
      have hclear : FileState.clearFd { fl with slot := some (⟨fd, hfd⟩, f) } ⟨fd, hfd⟩ =
          { fl with closed := insert ⟨fd, hfd⟩ fl.closed, slot := none, frefs := {f} + fl.frefs } := by
        simp [FileState.clearFd, h.takenFd]
      show Runs false (FileState.clearFd { fl with slot := some (⟨fd, hfd⟩, f) } ⟨fd, hfd⟩) _ _
      rw [hclear]
      refine .bind ((runs_fileclose ?_ ?_).mono ?_)
      · simp
      · exact h.closing
      rintro _ _ _ ⟨rfl, rfl⟩
      refine .pure ⟨rfl, ?_, h.extra, ?_, h.takenFd, h.newPipe, h.closing, h.child⟩
      · simp [h.frefs]
      · simp [h.fresh]
  · exact .pure ⟨rfl, h⟩

theorem returns_sysDup {fl : FileState P} (fd : ℕ) (h : fl.Done) (hlive : fl.live = true) (hslot : fl.slot = none) :
    Returns fl (sysDup fd) := by
  have hdone : ∀ s, ({ fl with slot := s } : FileState P).Done := fun _ =>
    ⟨h.frefs, h.extra, h.fresh, h.takenFd, h.newPipe, h.closing, h.child⟩
  refine runs_argfd hlive h.takenFd h.extra (.pure ⟨rfl, hdone _⟩) hslot fun fd f => ?_
  refine .bind (.file (fun _ => ⟨trivial, fun _ => rfl⟩) ⟨hlive, h.takenFd, h.extra, .inr ⟨fd, rfl⟩⟩ fun fd' _ => ?_)
  cases fd' with
  | none => exact .pure ⟨rfl, hdone _⟩
  | some fd' =>
    have hnew : FileState.fdalloc { fl with slot := some (fd, f) } f fd' =
        { fl with slot := some (fd, f), extra := some (fd', f), closed := ∅ } := by
      rw [FileState.fdalloc, if_neg (by simp [h.frefs])]
    show Runs false (FileState.fdalloc { fl with slot := some (fd, f) } f fd') _ _
    rw [hnew]
    refine .bind (.file (fun _ => ⟨trivial, fun _ => rfl⟩) ⟨fd', rfl⟩ fun _ _ => .pure ⟨rfl, ?_⟩)
    exact ⟨h.frefs, rfl, h.fresh, h.takenFd, h.newPipe, h.closing, h.child⟩

/-! ## Pipes -/

/-- The process has nothing to do with files, except for the references to the files of a pipe. -/
def FileState.Piped (fl l : FileState P) : Option (Fin NFILE × Fin NFILE) → Prop
  | none => l.live = fl.live ∧ l.Done
  | some (rf, wf) => l.live = fl.live ∧ l.frefs = wf ::ₘ rf ::ₘ 0 ∧ { l with frefs := 0 }.Done

theorem runs_pipealloc {fl : FileState P} (h : fl.Done) :
    Runs false fl pipealloc fun r tx' fl' => tx' = false ∧ fl.Piped fl' r := by
  refine .bind (.file (fun _ => ⟨trivial, fun _ => rfl⟩) trivial fun f0 _ => ?_)
  cases f0 with
  | none => exact .pure ⟨rfl, rfl, h⟩
  | some f0 =>
    set fl0 : FileState P := { fl with fresh := insert f0 fl.fresh, frefs := f0 ::ₘ fl.frefs } with hfl0
    refine .bind (.file (fun _ => ⟨trivial, fun _ => rfl⟩) trivial fun f1 hf1 => ?_)
    cases f1 with
    | none =>
      refine .bind ((runs_fileclose ?_ ?_).mono ?_)
      · exact Multiset.mem_cons_self f0 _
      · exact h.closing
      rintro _ _ _ ⟨rfl, rfl⟩
      refine .pure ⟨rfl, rfl, ?_, h.extra, ?_, h.takenFd, h.newPipe, h.closing, h.child⟩
      · show (f0 ::ₘ fl.frefs).erase f0 = 0
        rw [Multiset.erase_cons_head, h.frefs]
      · show (insert f0 fl.fresh).erase f0 = ∅
        simp [h.fresh]
    | some f1 =>
      have hne : f0 ≠ f1 := by
        rintro rfl
        exact hf1 f0 rfl (Multiset.mem_cons_self f0 _)
      set fl1 : FileState P := { fl0 with fresh := insert f1 fl0.fresh, frefs := f1 ::ₘ fl0.frefs } with hfl1
      have hf0 : f0 ∈ fl1.frefs := Multiset.mem_cons_of_mem (Multiset.mem_cons_self f0 _)
      have hfrefs1 : fl1.frefs = f1 ::ₘ f0 ::ₘ 0 := by
        show f1 ::ₘ f0 ::ₘ fl.frefs = _
        rw [h.frefs]
      have hfresh1 : (fl1.fresh.erase f0).erase f1 = ∅ := by
        show ((insert f1 (insert f0 fl.fresh)).erase f0).erase f1 = ∅
        rw [h.fresh]
        ext f
        simp only [Finset.mem_erase, Finset.mem_insert, Finset.notMem_empty, or_false, iff_false]
        tauto
      refine .bind (.file (fun _ => ⟨trivial, fun _ => rfl⟩) h.newPipe fun p _ => ?_)
      cases p with
      | none =>
        refine .bind ((runs_fileclose ?_ ?_).mono ?_)
        · exact hf0
        · exact h.closing
        rintro _ _ _ ⟨rfl, rfl⟩
        refine .bind ((runs_fileclose ?_ ?_).mono ?_)
        · show f1 ∈ fl1.frefs.erase f0
          rw [hfrefs1, Multiset.cons_swap, Multiset.erase_cons_head]
          exact Multiset.mem_cons_self f1 0
        · exact h.closing
        · rintro _ _ _ ⟨rfl, rfl⟩
          refine .pure ⟨rfl, rfl, ?_, h.extra, ?_, h.takenFd, rfl, h.closing, h.child⟩
          · show (fl1.frefs.erase f0).erase f1 = 0
            rw [hfrefs1, Multiset.cons_swap, Multiset.erase_cons_head, Multiset.erase_cons_head]
          · exact hfresh1
      | some p =>
        have hpre : fileDiscipline.Pre { fl1 with newPipe := some p } (.setPipe f0 f1 p) := by
          refine ⟨?_, ?_, hne, rfl⟩ <;> simp [hfl1, hfl0]
        refine .bind (.file (fun _ => ⟨trivial, fun _ => rfl⟩) hpre fun _ _ => .pure ⟨rfl, rfl, ?_, ?_⟩)
        · exact hfrefs1
        · exact ⟨rfl, h.extra, hfresh1, h.takenFd, rfl, h.closing, h.child⟩

/-- Closing both files of the pipe. -/
theorem runs_pipeBad {fl : FileState P} {rf wf : Fin NFILE} (hfrefs : fl.frefs = wf ::ₘ rf ::ₘ 0)
    (h : ({ fl with frefs := 0 } : FileState P).Done) : Returns fl (pipeBad rf wf) := by
  have hfresh : fl.fresh = ∅ := h.fresh
  refine .bind ((runs_fileclose ?_ ?_).mono ?_)
  · simp [hfrefs]
  · exact h.closing
  rintro _ _ _ ⟨rfl, rfl⟩
  have herase : fl.frefs.erase rf = {wf} := by
    rw [hfrefs, Multiset.cons_swap, Multiset.erase_cons_head]
    rfl
  refine .bind ((runs_fileclose ?_ ?_).mono ?_)
  · show wf ∈ fl.frefs.erase rf
    rw [herase]
    exact Multiset.mem_singleton_self wf
  · exact h.closing
  · rintro _ _ _ ⟨rfl, rfl⟩
    refine .pure ⟨rfl, ?_, h.extra, ?_, h.takenFd, h.newPipe, h.closing, h.child⟩
    · show (fl.frefs.erase rf).erase wf = 0
      rw [herase]
      simp
    · simp [hfresh]

theorem returns_sysPipe {fl : FileState P} (ok : Bool) (h : fl.Done) (hlive : fl.live = true) :
    Returns fl (sysPipe ok) := by
  refine .ite (.pure ⟨rfl, h⟩) (.bind ((runs_pipealloc h).mono ?_))
  rintro r _ fl1 ⟨rfl, hr⟩
  cases r with
  | none => exact .pure ⟨rfl, hr.2⟩
  | some e =>
    obtain ⟨rf, wf⟩ := e
    obtain ⟨hlive1, hfrefs, hdone⟩ := hr
    have hrf : rf ∈ fl1.frefs := by simp [hfrefs]
    have hpre : fileDiscipline.Pre fl1 (.fdalloc rf) := ⟨hlive1.trans hlive, hdone.takenFd, hdone.extra, .inl hrf⟩
    refine .bind (.file (fun _ => ⟨trivial, fun _ => rfl⟩) hpre fun fd0 _ => ?_)
    cases fd0 with
    | none => exact runs_pipeBad hfrefs hdone
    | some fd0 =>
      have herase : fl1.frefs.erase rf = {wf} := by
        rw [hfrefs, Multiset.cons_swap, Multiset.erase_cons_head]
        rfl
      have hfl2 : fl1.fdalloc rf fd0 = { fl1 with frefs := {wf}, closed := ∅, slot := some (fd0, rf) } := by
        rw [FileState.fdalloc, if_pos hrf, herase]
      show Runs false (fl1.fdalloc rf fd0) _ _
      rw [hfl2]
      have hwf : wf ∈ ({wf} : Multiset (Fin NFILE)) := Multiset.mem_singleton_self wf
      refine .bind (.file (fun _ => ⟨trivial, fun _ => rfl⟩) ⟨hlive1.trans hlive, hdone.takenFd, hdone.extra, .inl hwf⟩
        fun fd1 _ => ?_)
      cases fd1 with
      | none =>
        -- the descriptor that was found is given back
        refine .bind (.file (fun _ => ⟨trivial, fun _ => rfl⟩) ⟨hdone.extra, .inr ⟨rf, rfl⟩⟩ fun _ _ => ?_)
        have htaken : fl1.takenFd = none := hdone.takenFd
        have hclear : FileState.clearFd { fl1 with frefs := {wf}, closed := ∅, slot := some (fd0, rf) } fd0 =
            { fl1 with frefs := {rf} + {wf}, closed := {fd0}, slot := none } := by
          simp [FileState.clearFd, htaken]
        show Runs false (FileState.clearFd { fl1 with frefs := {wf}, closed := ∅, slot := some (fd0, rf) } fd0) _ _
        rw [hclear]
        refine runs_pipeBad ?_ ⟨rfl, hdone.extra, hdone.fresh, hdone.takenFd, hdone.newPipe, hdone.closing, hdone.child⟩
        rw [add_comm]
        rfl
      | some fd1 =>
        refine .pure ⟨rfl, ?_⟩
        show (FileState.fdalloc { fl1 with frefs := {wf}, closed := ∅, slot := some (fd0, rf) } wf fd1).Done
        rw [FileState.fdalloc, if_pos hwf]
        exact ⟨by simp, hdone.extra, hdone.fresh, hdone.takenFd, hdone.newPipe, hdone.closing, hdone.child⟩

/-- Every system call keeps to its transactions and returns outside of one, with no file reference left. -/
theorem returns_code (c : Syscall) : Returns (P := P) .start c.code := by
  have hstart : (FileState.start : FileState P).Done := ⟨rfl, rfl, rfl, rfl, rfl, rfl, rfl⟩
  have hslot : ∀ s, ({ FileState.start with slot := s } : FileState P).Done := fun _ =>
    ⟨rfl, rfl, rfl, rfl, rfl, rfl, rfl⟩
  cases c with
  | dup fd => exact returns_sysDup fd hstart rfl rfl
  | read fd n =>
    refine runs_argfd rfl rfl rfl ?_ rfl fun fd f => ?_
    · exact .pure ⟨rfl, hslot _⟩
    · cases n with
      | none => exact .pure ⟨rfl, hslot _⟩
      | some n => exact (stays_fileread ⟨fd, rfl⟩).returns (hslot _)
  | write fd src =>
    refine runs_argfd rfl rfl rfl ?_ rfl fun fd f => ?_
    · exact .pure ⟨rfl, hslot _⟩
    · cases src with
      | none => exact .pure ⟨rfl, hslot _⟩
      | some src => exact .ite ((stays_filewrite ⟨fd, rfl⟩).returns (hslot _)) (.pure ⟨rfl, hslot _⟩)
  | close fd => exact returns_sysClose fd hstart rfl
  | fstat fd =>
    refine runs_argfd rfl rfl rfl (.pure ⟨rfl, hslot _⟩) rfl fun fd f => ?_
    exact (stays_filestat ⟨fd, rfl⟩).returns (hslot _)
  | link old new => exact (keepsTx_sysLink old new).returns hstart
  | unlink path => exact (keepsTx_sysUnlink path).returns hstart
  | «open» path omode => exact returns_sysOpen path omode hstart rfl
  | mkdir path => exact (keepsTx_sysCreate path _ _ _).returns hstart
  | mknod path major minor => exact (keepsTx_sysCreate path _ _ _).returns hstart
  | chdir path => exact (stays_sysChdir path rfl).returns hstart
  | pipe ok => exact returns_sysPipe ok hstart rfl
  | exec path => exact (keepsTx_sysExec path).returns hstart
  | fork => exact returns_sysFork hstart rfl
  | exit => exact returns_sysExit hstart rfl rfl
  | wait => exact KeepsTx.returns (.bind (.plain trivial) fun _ => .pure _) hstart

end Sys

end Xv6
