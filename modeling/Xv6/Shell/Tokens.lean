import Xv6.Shell.Parse

/-!
# The tokens of a line

A line is a list of tokens, and `gettoken` and `peek` are about the first of them.
-/

namespace Xv6

open List

namespace Shell

/-! ## The tokens of a line -/

theorem skip_length (s : List UInt8) : (skip s).length ≤ s.length := (dropWhile_sublist _).length_le

variable {s r toks : List UInt8}

theorem skip_cons {c : UInt8} (h : skip s = c :: r) : isWhite c = false := by
  induction s with
  | nil => nomatch h
  | cons a s ih =>
    rw [skip, dropWhile_cons] at h
    split_ifs at h with ha
    · exact ih h
    · rw [← (List.cons.inj h).1]
      simpa using ha

theorem skip_skip (s : List UInt8) : skip (skip s) = skip s := by
  cases hs : skip s with
  | nil => rfl
  | cons c r => rw [skip, dropWhile_cons, skip_cons hs, if_neg Bool.false_ne_true]

theorem scan_length {t : Tok} (h : scan (skip s) = some (t, r)) : r.length < s.length := by
  refine Nat.lt_of_lt_of_le ?_ (skip_length s)
  cases hs : skip s with
  | nil =>
    rw [hs] at h
    nomatch h
  | cons c s' =>
    rw [hs] at h
    simp only [scan] at h
    split_ifs at h with hgt happ hsym
    · obtain ⟨rfl, rfl⟩ := Prod.mk.inj (Option.some.inj h)
      simp only [length_tail, length_cons]
      omega
    · obtain ⟨rfl, rfl⟩ := Prod.mk.inj (Option.some.inj h)
      exact Nat.lt_succ_self _
    · obtain ⟨rfl, rfl⟩ := Prod.mk.inj (Option.some.inj h)
      exact Nat.lt_succ_self _
    · obtain ⟨rfl, rfl⟩ := Prod.mk.inj (Option.some.inj h)
      have hword : isWord c = true := by simp [isWord, skip_cons hs, hsym]
      rw [dropWhile_cons, if_pos hword]
      exact Nat.lt_succ_of_le (dropWhile_sublist _).length_le

/-- The tokens of what is left of a line. -/
def tokens (s : List UInt8) : List Tok :=
  match _h : scan (skip s) with
  | none => []
  | some (t, r) => t :: tokens r
termination_by s.length
decreasing_by exact scan_length _h

theorem tokens_none (h : scan (skip s) = none) : tokens s = [] := by
  rw [tokens]
  split
  · rfl
  · rename_i h'
    rw [h] at h'
    nomatch h'

theorem tokens_some {t : Tok} (h : scan (skip s) = some (t, r)) : tokens s = t :: tokens r := by
  rw [tokens]
  split
  · rename_i h'
    rw [h] at h'
    nomatch h'
  · rename_i h'
    rw [h] at h'
    obtain ⟨rfl, rfl⟩ := Prod.mk.inj (Option.some.inj h')
    rfl

@[simp]
theorem tokens_skip (s : List UInt8) : tokens (skip s) = tokens s := by
  cases h : scan (skip s) with
  | none => rw [tokens_none h, tokens_none (by rw [skip_skip, h])]
  | some p => rw [tokens_some h, tokens_some (by rw [skip_skip, h])]

@[simp]
theorem gettoken_skip (s : List UInt8) : gettoken (skip s) = gettoken s := by
  unfold gettoken
  rw [skip_skip]

/-- What is left behind the next token. -/
abbrev next (s : List UInt8) : List UInt8 := (gettoken s).2

theorem gettoken_nil (h : tokens s = []) : gettoken s = (none, []) := by
  unfold gettoken
  cases hscan : scan (skip s) with
  | none => rfl
  | some p =>
    rw [tokens_some hscan] at h
    nomatch h

theorem gettoken_cons {t : Tok} {ts : List Tok} (h : tokens s = t :: ts) :
    gettoken s = (some t, next s) ∧ tokens (next s) = ts := by
  unfold next gettoken
  cases hscan : scan (skip s) with
  | none =>
    rw [tokens_none hscan] at h
    nomatch h
  | some p =>
    rw [tokens_some hscan] at h
    obtain ⟨rfl, rfl⟩ := List.cons.inj h
    exact ⟨rfl, tokens_skip _⟩

/-- Whether a token starts with one of the symbols. -/
def Tok.isIn (toks : List UInt8) : Tok → Bool
  | .sym c => toks.contains c
  | .append => toks.contains GT
  | .word _ => false

/-- Whether the next token starts with one of the symbols. -/
def starts (toks : List UInt8) : List Tok → Bool
  | [] => false
  | t :: _ => t.isIn toks

theorem peek_eq (h : toks.all isSymbol = true) : peek s toks = (starts toks (tokens s), skip s) := by
  unfold peek
  cases hs : skip s with
  | nil => rw [tokens_none (by rw [hs]; rfl)]; rfl
  | cons c r =>
    have hscan : scan (skip s) = scan (c :: r) := by rw [hs]
    simp only [scan] at hscan
    split_ifs at hscan with hgt happ hsym
    · rw [tokens_some hscan, hgt]; rfl
    · rw [tokens_some hscan, hgt]; rfl
    · rw [tokens_some hscan]; rfl
    · rw [tokens_some hscan]
      have hc : toks.contains c = false := by
        rw [contains_eq_mem, decide_eq_false_iff_not]
        exact fun hmem => hsym (all_eq_true.mp h c hmem)
      simp only [starts, Tok.isIn, hc]

theorem peek_eq_nil : (peek s toks).2 = [] ↔ tokens s = [] := by
  change skip s = [] ↔ _
  constructor
  · intro h
    exact tokens_none (by rw [h]; rfl)
  · intro h
    cases hs : skip s with
    | nil => rfl
    | cons c r =>
      have hscan : ∃ p, scan (skip s) = some p := by
        rw [hs]
        simp only [scan]
        split_ifs <;> exact ⟨_, rfl⟩
      obtain ⟨p, hp⟩ := hscan
      rw [tokens_some hp] at h
      nomatch h

end Shell

end Xv6
