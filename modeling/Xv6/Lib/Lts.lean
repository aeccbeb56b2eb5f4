import Mathlib.Logic.Function.Basic

/-!
# Transition systems and guarded runs

A transition system is given by its initial states and a partial successor function. `Run ok` collects
the states reached by runs all of whose steps meet the guard `ok`, a condition on the state before the
step and on the event; `Reachable` is the unguarded case. The induction is packaged once, in
`Run.invariant`, and a concrete run is replayed by `exec`.
-/

/-- A transition system: initial states, and the successor of a state under an event when the event
is enabled there. -/
structure Lts (σ ℓ : Type*) where
  init : σ → Prop
  next : σ → ℓ → Option σ

namespace Lts

/-- A guarded successor that exists. -/
theorem of_guard {σ : Type*} {c : Prop} [Decidable c] {s s' : σ} (h : (if c then some s else none) = some s') :
    c ∧ s = s' := by
  simpa using h

variable {σ ℓ : Type*} (S : Lts σ ℓ)

/-- The states reached by runs in which every step meets `ok`. -/
inductive Run (ok : σ → ℓ → Prop) : σ → Prop where
  | init {s : σ} : S.init s → Run ok s
  | step {s s' : σ} {e : ℓ} : Run ok s → ok s e → S.next s e = some s' → Run ok s'

/-- The states reached by any run. -/
def Reachable (s : σ) : Prop := S.Run (fun _ _ => True) s

variable {S}

variable {ok : σ → ℓ → Prop}

/-- A property of the initial states that every guarded step preserves holds after every guarded
run. -/
theorem Run.invariant {I : σ → Prop} (hinit : ∀ s, S.init s → I s)
    (hstep : ∀ s e s', I s → ok s e → S.next s e = some s' → I s') {s : σ} (h : S.Run ok s) : I s := by
  induction h with
  | init hs => exact hinit _ hs
  | step _ hok hnext ih => exact hstep _ _ _ ih hok hnext

/-- Weakening the guard keeps the run. -/
theorem Run.mono {ok' : σ → ℓ → Prop} (hok : ∀ s e, ok s e → ok' s e) {s : σ} (h : S.Run ok s) : S.Run ok' s := by
  induction h with
  | init hs => exact .init hs
  | step _ hs hnext ih => exact .step ih (hok _ _ hs) hnext

/-- A guarded run is a run. -/
theorem Run.reachable {s : σ} (h : S.Run ok s) : S.Reachable s :=
  h.mono fun _ _ _ => trivial

variable (S)

/-- Replay a list of events, as long as each is enabled and passes the test `ok`. -/
def exec (ok : σ → ℓ → Bool) : σ → List ℓ → Option σ
  | s, [] => some s
  | s, e :: es => if ok s e then (S.next s e).bind (exec ok · es) else none

variable {S}

/-- A successful replay is a guarded run. -/
theorem Run.of_exec {ok : σ → ℓ → Bool} {s s' : σ} {es : List ℓ}
    (hs : S.Run (fun s e => ok s e = true) s) (h : S.exec ok s es = some s') : S.Run (fun s e => ok s e = true) s' := by
  induction es generalizing s with
  | nil =>
    obtain rfl : s = s' := by simpa [exec] using h
    exact hs
  | cons e es ih =>
    simp only [exec] at h
    split at h
    · rename_i hok
      obtain ⟨s1, hnext, hrest⟩ := Option.bind_eq_some_iff.mp h
      exact ih (.step hs hok hnext) hrest
    · simp at h

/-- A replay that ends in a state passing the test `p` gives a guarded run to such a state. -/
theorem Run.exists_of_exec (S : Lts σ ℓ) (ok : σ → ℓ → Bool) (s : σ) (es : List ℓ) (p : σ → Bool)
    (hs : S.init s) (h : (S.exec ok s es).any p = true) : ∃ s', S.Run (fun s e => ok s e = true) s' ∧ p s' = true := by
  cases hr : S.exec ok s es with
  | none => simp [hr] at h
  | some s' => exact ⟨s', .of_exec (.init hs) hr, by simpa [hr] using h⟩

end Lts
