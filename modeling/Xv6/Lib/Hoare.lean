import Mathlib.Data.List.Basic

/-!
# Preconditions and postconditions for stateful code that may stop

Code is a program of `EStateM ε σ`: it changes a state `σ` and either returns or stops with an `ε`,
keeping the state it stopped in. `Wp x Q E s` says that running `x` from `s` ends in a result and state
satisfying `Q`, or stops in a state satisfying `E`.
-/

/-- Code over a state `σ` that may stop with an `ε`. -/
abbrev Code (ε σ α : Type) : Type := EStateM ε σ α

namespace Code

variable {ε σ α β : Type}

/-- The weakest precondition of `x` for the postconditions `Q` (on return) and `E` (on a stop). -/
def Wp (x : Code ε σ α) (Q : α → σ → Prop) (E : ε → σ → Prop) (s : σ) : Prop :=
  match x.run s with
  | .ok a s' => Q a s'
  | .error e s' => E e s'

/-- The state in which code ends, whether it returns or stops. -/
def final (x : Code ε σ α) (s : σ) : σ :=
  match x.run s with
  | .ok _ s' => s'
  | .error _ s' => s'

variable {Q : α → σ → Prop} {E : ε → σ → Prop} {s : σ}

variable {a : α} {s' : σ} {R : α → σ → Prop} {γ : Type} {l : List γ}

@[simp] theorem wp_pure : Wp (pure a) Q E s ↔ Q a s := Iff.rfl

@[simp] theorem wp_get {Q : σ → σ → Prop} : Wp (get : Code ε σ σ) Q E s ↔ Q s s := Iff.rfl

@[simp] theorem wp_set {Q : PUnit → σ → Prop} : Wp (set s' : Code ε σ PUnit) Q E s ↔ Q ⟨⟩ s' := Iff.rfl

@[simp] theorem wp_modify {f : σ → σ} {Q : PUnit → σ → Prop} :
    Wp (modify f : Code ε σ PUnit) Q E s ↔ Q ⟨⟩ (f s) := Iff.rfl

@[simp] theorem wp_throw {e : ε} : Wp (throw e : Code ε σ α) Q E s ↔ E e s := Iff.rfl

@[simp] theorem wp_bind {x : Code ε σ β} {f : β → Code ε σ α} :
    Wp (x >>= f) Q E s ↔ Wp x (fun b s' => Wp (f b) Q E s') E s := by
  unfold Wp
  rw [EStateM.run_bind]
  cases x.run s <;> rfl

variable {x : Code ε σ α}

theorem wp_mono {Q' : α → σ → Prop} {E' : ε → σ → Prop} (h : Wp x Q E s)
    (hQ : ∀ a s', Q a s' → Q' a s') (hE : ∀ e s', E e s' → E' e s') : Wp x Q' E' s := by
  unfold Wp at h ⊢
  cases hx : x.run s with
  | ok a s' => rw [hx] at h; exact hQ a s' h
  | error e s' => rw [hx] at h; exact hE e s' h

/-- Consequence, for what holds when code returns. -/
theorem wp_post {x : Code ε σ α} (h : Wp x R E s) (hQ : ∀ a s', R a s' → Q a s') : Wp x Q E s :=
  wp_mono h hQ fun _ _ he => he

theorem wp_ite {c : Prop} [Decidable c] {y : Code ε σ α} :
    Wp (if c then x else y) Q E s ↔ if c then Wp x Q E s else Wp y Q E s := by
  split <;> rfl

/-- The rule for a loop over a list: an invariant of the items left to visit. -/
theorem wp_forM {f : γ → Code ε σ PUnit} (I : List γ → σ → Prop)
    (hstep : ∀ a as s, I (a :: as) s → Wp (f a) (fun _ s' => I as s') E s) (h : I l s) :
    Wp (forM l f) (fun _ s' => I [] s') E s := by
  induction l generalizing s with
  | nil => exact h
  | cons a as ih =>
    rw [List.forM_cons, wp_bind]
    exact wp_post (hstep a as s h) (fun _ _ h' => ih h')

/-- The rule for a loop with a counter: an invariant of the number of items visited. -/
theorem wp_forM_zipIdx {f : γ × ℕ → Code ε σ PUnit} (I : ℕ → σ → Prop)
    (hstep : ∀ i (hi : i < l.length) s, I i s → Wp (f (l[i], i)) (fun _ s' => I (i + 1) s') E s)
    (h : I 0 s) : Wp (forM l.zipIdx f) (fun _ s' => I l.length s') E s := by
  refine wp_mono (wp_forM (fun rest s => ∃ i, rest = l.zipIdx.drop i ∧ i ≤ l.length ∧ I i s)
    ?_ ⟨0, rfl, Nat.zero_le _, h⟩) ?_ fun _ _ hE => hE
  · rintro ⟨a, n⟩ rest s ⟨i, hrest, hle, hI⟩
    have hlt : i < l.length := by
      by_contra hge
      rw [List.drop_eq_nil_of_le (by simp; omega)] at hrest
      exact absurd hrest (List.cons_ne_nil _ _)
    rw [List.drop_eq_getElem_cons (by simpa using hlt)] at hrest
    obtain ⟨hhead, htail⟩ := List.cons.inj hrest
    have hitem : (a, n) = (l[i], i) := by simpa using hhead
    rw [hitem]
    exact wp_post (hstep i hlt s hI) (fun _ s' hs' => ⟨i + 1, htail, hlt, hs'⟩)
  · rintro - s' ⟨i, hnil, hle, hI⟩
    have hlen : l.length ≤ i := by simpa using (List.drop_eq_nil_iff.mp hnil.symm)
    rwa [Nat.le_antisymm hle hlen] at hI

/-- Run code on a part of a larger state. -/
def zoom {τ : Type} (part : τ → σ) (put : σ → τ → τ) (x : Code ε σ α) : Code ε τ α := fun t =>
  match x.run (part t) with
  | .ok a s => .ok a (put s t)
  | .error e s => .error e (put s t)

@[simp] theorem wp_zoom {τ : Type} {part : τ → σ} {put : σ → τ → τ} {Q : α → τ → Prop} {E : ε → τ → Prop} {t : τ} :
    Wp (zoom part put x) Q E t ↔
      Wp x (fun a s => Q a (put s t)) (fun e s => E e (put s t)) (part t) := by
  have hrun : (zoom part put x).run t = match x.run (part t) with
      | .ok a s => .ok a (put s t)
      | .error e s => .error e (put s t) := rfl
  unfold Wp
  rw [hrun]
  cases x.run (part t) <;> rfl

/-- What holds at the end whatever happens. -/
theorem wp_final {R : σ → Prop} (h : Wp x (fun _ => R) (fun _ => R) s) : R (x.final s) := by
  unfold Wp at h
  unfold final
  cases hx : x.run s <;> simpa [hx] using h

/-- What holds when code returns. -/
theorem wp_ok (h : Wp x Q E s) (hrun : x.run s = .ok a s') : Q a s' := by
  unfold Wp at h
  rwa [hrun] at h

theorem wp_true : Wp x (fun _ _ => True) (fun _ _ => True) s := by
  unfold Wp
  cases x.run s <;> trivial

/-- Code whose outcome does not matter. -/
theorem wp_any (hQ : ∀ a s', Q a s') : Wp x Q (fun _ _ => True) s :=
  wp_mono wp_true (fun a s' _ => hQ a s') fun _ _ _ => trivial

/-- Two things that hold when code returns. -/
theorem wp_and {F : ε → σ → Prop} (h : Wp x Q E s) (h' : Wp x R F s) :
    Wp x (fun a s' => Q a s' ∧ R a s') (fun e s' => E e s' ∧ F e s') s := by
  unfold Wp at *
  cases hx : x.run s with
  | ok a s' =>
    rw [hx] at h h'
    exact ⟨h, h'⟩
  | error e s' =>
    rw [hx] at h h'
    exact ⟨h, h'⟩

/-- What holds when code returns, with the run it returned from. -/
theorem wp_run (h : Wp x Q E s) : Wp x (fun a s' => Q a s' ∧ x.run s = .ok a s') E s := by
  unfold Wp at *
  cases hx : x.run s with
  | ok a s' =>
    rw [hx] at h
    exact ⟨h, rfl⟩
  | error e s' =>
    rw [hx] at h
    exact h

/-- Code that cannot stop returns. -/
theorem wp_returns (h : Wp x Q (fun _ _ => False) s) : ∃ a s', x.run s = .ok a s' ∧ Q a s' := by
  unfold Wp at h
  cases hx : x.run s with
  | ok a s' => rw [hx] at h; exact ⟨a, s', rfl, h⟩
  | error e s' => rw [hx] at h; exact absurd h id

/-- Code that returns a certain value. -/
theorem wp_returns_eq {R : σ → Prop}
    (h : Wp x (fun r s' => r = a ∧ R s') (fun _ _ => False) s) : ∃ s', x.run s = .ok a s' ∧ R s' := by
  obtain ⟨r, s', hrun, rfl, hR⟩ := wp_returns h
  exact ⟨s', hrun, hR⟩

/-- The outcome of a run decides what holds after it. -/
instance decidableWp {x : Code ε σ α} [∀ a s, Decidable (Q a s)] [∀ e s, Decidable (E e s)] : Decidable (Wp x Q E s) :=
  match h : x.run s with
  | .ok a s' => decidable_of_iff (Q a s') (by unfold Wp; rw [h])
  | .error e s' => decidable_of_iff (E e s') (by unfold Wp; rw [h])

end Code
