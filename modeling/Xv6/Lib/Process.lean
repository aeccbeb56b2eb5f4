import Xv6.Lib.Lts
import Xv6.Lib.Hoare
import Mathlib.Algebra.BigOperators.Group.Finset.Basic
import Mathlib.Algebra.BigOperators.Group.Finset.Piecewise
import Mathlib.Data.Fintype.BigOperators

/-!
# Interleaved processes

A program is a tree of actions on a shared state: an action is atomic, and what it answers decides how the
program goes on. A machine runs any number of processes, each executing the program of a call, in any
order.

Invariants of a machine come from a discipline, a protocol that every program follows on its own: a local
state, what an action requires of it, what its answer is known to satisfy, and how it changes. `Ok` says that
a program follows the discipline, and can be checked program by program; `Machine.invariant` says that an
invariant tying the shared state to the local states of all processes then holds in every run.
-/

/-- Programs whose actions `a : A` answer with an `R a`. -/
inductive Prog (A : Type) (R : A → Type) (α : Type) : Type where
  | ret (a : α)
  | act (a : A) (k : R a → Prog A R α)

namespace Prog

variable {A : Type} {R : A → Type} {α β : Type}

/-- Sequential composition. -/
def bind : Prog A R α → (α → Prog A R β) → Prog A R β
  | ret a, f => f a
  | act a k, f => act a fun r => (k r).bind f

instance : Monad (Prog A R) where
  pure := ret
  bind := bind

/-- The program that does one action. -/
def perform (a : A) : Prog A R (R a) := act a ret

/-- The action a program is about to do. -/
def head : Prog A R α → Option A
  | ret _ => none
  | act a _ => some a

/-- Run a program to its end, without interruption. -/
def alone {ε σ : Type} (exec : (a : A) → Code ε σ (R a)) : Prog A R α → Code ε σ α
  | ret a => pure a
  | act a k => exec a >>= fun r => (k r).alone exec

section
variable {ε σ : Type} {exec : (a : A) → Code ε σ (R a)} {Q : α → σ → Prop} {E : ε → σ → Prop} {s : σ}

@[simp] theorem wp_alone_pure {a : α} : Code.Wp ((pure a : Prog A R α).alone exec) Q E s ↔ Q a s := Iff.rfl

@[simp] theorem wp_alone_bind {x : Prog A R β} {f : β → Prog A R α} : Code.Wp ((x >>= f).alone exec) Q E s ↔
      Code.Wp (x.alone exec) (fun b s' => Code.Wp ((f b).alone exec) Q E s') E s := by
  show Code.Wp ((x.bind f).alone exec) Q E s ↔ _
  induction x generalizing s with
  | ret b => rfl
  | act a k ih =>
    simp only [bind, alone, Code.wp_bind]
    unfold Code.Wp
    cases (exec a).run s with
    | ok r s' => exact ih r
    | error e s' => exact Iff.rfl

theorem wp_alone_perform {a : A} {Q : R a → σ → Prop} :
    Code.Wp ((perform a : Prog A R (R a)).alone exec) Q E s ↔ Code.Wp (exec a) Q E s := by
  show Code.Wp (exec a >>= pure) Q E s ↔ _
  rw [Code.wp_bind]
  rfl

end

end Prog

/-- A protocol on the actions of one process: what an action requires of the local state, what its answer
satisfies, and the local state after it. -/
structure Discipline (A : Type) (R : A → Type) (L : Type) where
  Pre : L → A → Prop
  Fact : L → (a : A) → R a → Prop
  next : L → (a : A) → R a → L

namespace Discipline

variable {A : Type} {R : A → Type} {L L1 L2 α β : Type}

/-- The program follows the discipline from `l` on, and ends in a result and local state satisfying `Q`. -/
def Ok (D : Discipline A R L) : L → Prog A R α → (α → L → Prop) → Prop
  | l, .ret a, Q => Q a l
  | l, .act a k, Q => D.Pre l a ∧ ∀ r, D.Fact l a r → Ok D (D.next l a r) (k r) Q

variable {D : Discipline A R L} {l : L} {Q : α → L → Prop}

@[simp] theorem ok_pure {a : α} : D.Ok l (pure a) Q ↔ Q a l := Iff.rfl

variable {x : Prog A R β} {f : β → Prog A R α}

@[simp] theorem ok_bind :
    D.Ok l (x >>= f) Q ↔ D.Ok l x fun b l' => D.Ok l' (f b) Q := by
  show D.Ok l (x.bind f) Q ↔ _
  induction x generalizing l with
  | ret b => rfl
  | act a k ih => exact and_congr_right fun _ => forall₂_congr fun r _ => ih r

theorem Ok.mono {x : Prog A R α} {Q' : α → L → Prop} (h : D.Ok l x Q) (hQ : ∀ a l', Q a l' → Q' a l') :
    D.Ok l x Q' := by
  induction x generalizing l with
  | ret a => exact hQ a l h
  | act a k ih => exact ⟨h.1, fun r hr => ih r (h.2 r hr)⟩

/-- One program after another. -/
theorem Ok.seq {Q' : β → L → Prop} (h : D.Ok l x Q')
    (hf : ∀ b l', Q' b l' → D.Ok l' (f b) Q) : D.Ok l (x >>= f) Q := ok_bind.mpr (h.mono hf)

/-- Two disciplines at once. -/
def prod (D1 : Discipline A R L1) (D2 : Discipline A R L2) : Discipline A R (L1 × L2) where
  Pre l a := D1.Pre l.1 a ∧ D2.Pre l.2 a
  Fact l a r := D1.Fact l.1 a r ∧ D2.Fact l.2 a r
  next l a r := (D1.next l.1 a r, D2.next l.2 a r)

/-- A program that follows two disciplines follows both at once. -/
theorem Ok.prod {D1 : Discipline A R L1} {D2 : Discipline A R L2} {l1 : L1} {l2 : L2} {x : Prog A R α}
    {Q1 : α → L1 → Prop} {Q2 : α → L2 → Prop} (h1 : D1.Ok l1 x Q1) (h2 : D2.Ok l2 x Q2) :
    (D1.prod D2).Ok (l1, l2) x fun a l => Q1 a l.1 ∧ Q2 a l.2 := by
  induction x generalizing l1 l2 with
  | ret a => exact ⟨h1, h2⟩
  | act a k ih => exact ⟨⟨h1.1, h2.1⟩, fun r hr => ih r (h1.2 r hr.1) (h2.2 r hr.2)⟩

end Discipline

/-- Processes `P` that run the programs of the calls `K`. An action may depend on a choice `C` of the
environment, and on a stop (an `ε`) it is not enabled. -/
structure Machine (P A C K σ ε : Type) (R : A → Type) where
  exec : P → C → (a : A) → Code ε σ (R a)
  code : K → Prog A R Unit
  ready : σ → P → Bool

/-- The shared state, and the program of each process that is in a call. -/
structure Config (P A σ : Type) (R : A → Type) where
  shared : σ
  prog : P → Option (Prog A R Unit)

/-- A process makes a call, or does its next action (or returns). -/
inductive Sched (P C K : Type) where
  | call (p : P) (k : K)
  | step (p : P) (c : C)

namespace Machine

variable {P A C K σ ε : Type} {R : A → Type} [DecidableEq P] (M : Machine P A C K σ ε R)

/-- The effect of one event. -/
def next (s : Config P A σ R) : Sched P C K → Option (Config P A σ R)
  | .call p k =>
    match s.prog p with
    | some _ => none
    | none =>
      if M.ready s.shared p then some { s with prog := Function.update s.prog p (some (M.code k)) }
      else none
  | .step p c =>
    match s.prog p with
    | none => none
    | some (.ret _) => some { s with prog := Function.update s.prog p none }
    | some (.act a k) =>
      match (M.exec p c a).run s.shared with
      | .ok r t => some ⟨t, Function.update s.prog p (some (k r))⟩
      | .error _ _ => none

/-- All interleavings from a set of shared states in which no process is in a call. -/
def lts (init : σ → Prop) : Lts (Config P A σ R) (Sched P C K) where
  init s := init s.shared ∧ ∀ p, s.prog p = none
  next := M.next

end Machine

namespace Discipline

variable {P A L : Type} {R : A → Type}

/-- What the local state of a process says about its program: nothing is held between calls, and a running
program follows the discipline to a state in which it may return. -/
def Follows (D : Discipline A R L) (idle : L) (Done : L → Prop) (l : L) :
    Option (Prog A R Unit) → Prop
  | none => l = idle
  | some x => D.Ok l x fun _ l' => Done l'

end Discipline

namespace Machine

variable {P A C K σ ε L : Type} {R : A → Type} [DecidableEq P] {M : Machine P A C K σ ε R}

/-- **The rule for interleaved programs.** Programs that follow a discipline keep every invariant of the
shared state and the local states that calls, returns and single actions keep. -/
theorem invariant (D : Discipline A R L) (idle start : L) (Done : L → Prop) (I : σ → (P → L) → Prop)
    {init : σ → Prop} {ok : Config P A σ R → Sched P C K → Prop} (hinit : ∀ t, init t → I t fun _ => idle)
    (hcode : ∀ k, D.Ok start (M.code k) fun _ l => Done l)
    (hcall : ∀ t ls p, I t ls → ls p = idle → M.ready t p = true → I t (Function.update ls p start))
    (hdone : ∀ t ls p, I t ls → Done (ls p) → I t (Function.update ls p idle))
    (hstep : ∀ s ls p c a k r t, I s.shared ls → (∀ q, D.Follows idle Done (ls q) (s.prog q)) →
      ok s (.step p c) → s.prog p = some (.act a k) → D.Pre (ls p) a →
      (M.exec p c a).run s.shared = .ok r t →
      D.Fact (ls p) a r ∧ I t (Function.update ls p (D.next (ls p) a r)))
    {s : Config P A σ R} (h : (M.lts init).Run ok s) :
    ∃ ls, I s.shared ls ∧ ∀ p, D.Follows idle Done (ls p) (s.prog p) := by
  refine Lts.Run.invariant (I := fun s => ∃ ls, I s.shared ls ∧ ∀ p, D.Follows idle Done (ls p) (s.prog p))
    ?_ ?_ h
  · rintro s ⟨hs, hprog⟩
    exact ⟨fun _ => idle, hinit _ hs, fun p => by rw [hprog]; rfl⟩
  · rintro s e s' ⟨ls, hI, hfollow⟩ hok hnext
    -- only the process of the event changes its program and its local state
    have hother : ∀ (p : P) (l : L) (x : Option (Prog A R Unit)), D.Follows idle Done l x →
        ∀ q, D.Follows idle Done (Function.update ls p l q) (Function.update s.prog p x q) := by
      intro p l x hp q
      by_cases hq : q = p
      · subst hq
        simpa using hp
      · simpa [Function.update_of_ne hq] using hfollow q
    cases e with
    | call p k =>
      simp only [lts, next] at hnext
      split at hnext
      · simp at hnext
      · rename_i hidle
        split at hnext
        · rename_i hready
          obtain rfl := Option.some.inj hnext
          have hp := hfollow p
          rw [hidle] at hp
          exact ⟨_, hcall _ ls p hI hp hready, hother p start _ (hcode k)⟩
        · simp at hnext
    | step p c =>
      have hp := hfollow p
      simp only [lts, next] at hnext
      split at hnext
      · simp at hnext
      · rename_i u hret
        rw [hret] at hp
        obtain rfl := Option.some.inj hnext
        exact ⟨Function.update ls p idle, hdone _ ls p hI hp, hother p idle none rfl⟩
      · rename_i a k hact
        rw [hact] at hp
        split at hnext
        · rename_i r t hrun
          obtain rfl := Option.some.inj hnext
          obtain ⟨hfact, hI'⟩ := hstep s ls p c a k r t hI hfollow hok hact hp.1 hrun
          exact ⟨_, hI', hother p _ _ (hp.2 r hfact)⟩
        · simp at hnext

end Machine

/-- Two sums that differ in one term. -/
theorem sum_add_of_ne {ι M : Type} [Fintype ι] [DecidableEq ι] [AddCommMonoid M] {f g : ι → M} {a : ι}
    (h : ∀ i, i ≠ a → f i = g i) : (∑ i, f i) + g a = (∑ i, g i) + f a := by
  have hrest : ∑ i ∈ Finset.univ.erase a, f i = ∑ i ∈ Finset.univ.erase a, g i :=
    Finset.sum_congr rfl fun i hi => h i (Finset.ne_of_mem_erase hi)
  rw [← Finset.add_sum_erase _ f (Finset.mem_univ a), ← Finset.add_sum_erase _ g (Finset.mem_univ a), hrest]
  ac_rfl
