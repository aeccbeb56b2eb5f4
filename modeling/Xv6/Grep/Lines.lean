import Mathlib.Tactic
import Xv6.Grep.Match

/-!
# The lines that `grep` prints

`grep` reads into a buffer of 1024 bytes, prints the lines in it that match, and keeps what is behind the last newline for
the next `read`. If there is no newline in the buffer, it keeps nothing (`if(p == buf) m = 0`).
-/

namespace Xv6

open List

namespace Grep

abbrev NL : UInt8 := 10

/-- `sizeof(buf)`. -/
def BUFSIZE : ℕ := 1024

/-! ## `grep` -/

/-- `strchr(p, '\n')`: what is before the newline and what is behind it. -/
def strchr : List UInt8 → Option (List UInt8 × List UInt8)
  | [] => none
  | c :: p =>
    if c = 0 then none
    else if c = NL then some ([], p)
    else (strchr p).map fun (line, rest) => (c :: line, rest)

theorem strchr_length {p line rest : List UInt8} (h : strchr p = some (line, rest)) : rest.length < p.length := by
  induction p generalizing line with
  | nil => nomatch h
  | cons c p ih =>
    rw [strchr] at h
    split_ifs at h with h0 hnl
    · obtain ⟨-, rfl⟩ := Prod.mk.inj (Option.some.inj h)
      exact Nat.lt_succ_self _
    · obtain ⟨⟨line', rest'⟩, hp, heq⟩ := Option.map_eq_some_iff.mp h
      obtain ⟨-, rfl⟩ := Prod.mk.inj heq
      exact Nat.lt_succ_of_lt (ih hp)

/-- The inner loop: the lines it comes to, and what is left from `p` on. -/
def scanLines (p : List UInt8) : List (List UInt8) × List UInt8 :=
  match _h : strchr p with
  | none => ([], p)
  | some (line, rest) => (line :: (scanLines rest).1, (scanLines rest).2)
termination_by p.length
decreasing_by all_goals exact strchr_length _h

/-- What is written for a line. -/
def printed (re line : List UInt8) : List UInt8 := if matchText re line then line ++ [NL] else []

/-- What is kept of the bytes `buf`, of which the inner loop leaves `p`. -/
def kept (buf p : List UInt8) : List UInt8 := if p.length = buf.length then [] else p

/-- The loop of `grep` with the bytes `buf` in the buffer, when the calls of `read` return `chunks`. The result is what it
writes. -/
def grepLoop (re : List UInt8) : (buf : List UInt8) → (chunks : List (List UInt8)) → List UInt8
  | _, [] => []
  | buf, chunk :: chunks =>
    (scanLines (buf ++ chunk)).1.flatMap (printed re) ++
      grepLoop re (kept (buf ++ chunk) (scanLines (buf ++ chunk)).2) chunks

def grep (re : List UInt8) (chunks : List (List UInt8)) : List UInt8 := grepLoop re [] chunks

/-- The calls of `read` return some of the bytes they are asked for. -/
def Fits : (buf : List UInt8) → (chunks : List (List UInt8)) → Prop
  | _, [] => True
  | buf, chunk :: chunks => chunk ≠ [] ∧ chunk.length ≤ BUFSIZE - buf.length - 1 ∧
    Fits (kept (buf ++ chunk) (scanLines (buf ++ chunk)).2) chunks

/-! ## What it should print -/

/-- The lines of a stream that end in a newline. -/
def lines (stream : List UInt8) : List (List UInt8) := (stream.splitOn NL).dropLast

/-- The lines that match. -/
def matching (re stream : List UInt8) : List UInt8 := (lines stream).flatMap (printed re)

/-- However the patterns are, the lines that match are printed. -/
def PrintsMatching (chunks : List (List UInt8)) : Prop := ∀ re, grep re chunks = matching re chunks.flatten

/-- A `read` that returns no newline comes after the last newline. -/
def NewlineInEach (chunks : List (List UInt8)) : Prop :=
  ∀ pre chunk post, chunks = pre ++ chunk :: post → NL ∉ chunk → NL ∉ post.flatten

/-! ## Lines -/

section

variable {p q line rest buf chunk : List UInt8} {chunks : List (List UInt8)}

theorem strchr_eq_none (h : NL ∉ p) : strchr p = none := by
  induction p with
  | nil => rfl
  | cons c p ih =>
    rw [mem_cons, not_or] at h
    rw [strchr, if_neg (Ne.symm h.1), ih h.2]
    exact ite_self _

theorem strchr_line (h0 : 0 ∉ line) (hnl : NL ∉ line) : strchr (line ++ NL :: rest) = some (line, rest) := by
  induction line with
  | nil => rfl
  | cons c line ih =>
    rw [mem_cons, not_or] at h0 hnl
    rw [cons_append, strchr, if_neg (Ne.symm h0.1), if_neg (Ne.symm hnl.1), ih h0.2 hnl.2]
    rfl

theorem scanLines_of_notMem (h : NL ∉ p) : scanLines p = ([], p) := by
  rw [scanLines]
  split
  · rfl
  · rename_i hp
    rw [strchr_eq_none h] at hp
    nomatch hp

theorem scanLines_line (h0 : 0 ∉ line) (hnl : NL ∉ line) :
    scanLines (line ++ NL :: rest) = (line :: (scanLines rest).1, (scanLines rest).2) := by
  rw [scanLines]
  split
  · rename_i hp
    rw [strchr_line h0 hnl] at hp
    nomatch hp
  · rename_i hp
    rw [strchr_line h0 hnl] at hp
    obtain ⟨rfl, rfl⟩ := Prod.mk.inj (Option.some.inj hp)
    rfl

/-- A string without NUL has no newline, or a first line. -/
theorem exists_line (h : NL ∈ p) : ∃ line rest, p = line ++ NL :: rest ∧ NL ∉ line := by
  obtain ⟨line, rest, hp, hline⟩ := eq_append_cons_of_mem h
  exact ⟨line, rest, hp, hline⟩

/-- Induction on the lines of a string. -/
theorem lines_induction {P : List UInt8 → Prop} (htail : ∀ p, NL ∉ p → P p)
    (hline : ∀ line rest, NL ∉ line → P rest → P (line ++ NL :: rest)) (p : List UInt8) : P p := by
  induction hn : p.length using Nat.strong_induction_on generalizing p with
  | _ n ih =>
    by_cases h : NL ∈ p
    · obtain ⟨line, rest, rfl, hnl⟩ := exists_line h
      refine hline line rest hnl (ih rest.length ?_ rest rfl)
      rw [← hn, length_append, length_cons]
      omega
    · exact htail p h

/-- The lines of `p ++ q` are those of `p`, and then those of what `p` leaves and `q`. -/
theorem scanLines_append (h0 : 0 ∉ p) : scanLines (p ++ q) =
    ((scanLines p).1 ++ (scanLines ((scanLines p).2 ++ q)).1, (scanLines ((scanLines p).2 ++ q)).2) := by
  induction p using lines_induction with
  | htail p hnl =>
    rw [scanLines_of_notMem hnl]
    rfl
  | hline line rest hnl ih =>
    rw [mem_append, mem_cons, not_or, not_or] at h0
    rw [append_assoc, cons_append, scanLines_line h0.1 hnl, scanLines_line h0.1 hnl, ih h0.2.2]
    rfl

theorem scanLines_snd (h0 : 0 ∉ p) : NL ∉ (scanLines p).2 ∧ 0 ∉ (scanLines p).2 ∧
    p.length = ((scanLines p).1.flatMap (· ++ [NL])).length + (scanLines p).2.length := by
  induction p using lines_induction with
  | htail p hnl =>
    rw [scanLines_of_notMem hnl]
    exact ⟨hnl, h0, (Nat.zero_add _).symm⟩
  | hline line rest hnl ih =>
    rw [mem_append, mem_cons, not_or, not_or] at h0
    obtain ⟨hnl', h0', hlen⟩ := ih h0.2.2
    rw [scanLines_line h0.1 hnl]
    refine ⟨hnl', h0', ?_⟩
    simp only [length_append, length_cons, flatMap_cons, length_nil, hlen]
    omega

theorem lines_eq (h0 : 0 ∉ p) : lines p = (scanLines p).1 := by
  unfold lines List.splitOn
  induction p using lines_induction with
  | htail p hnl =>
    rw [scanLines_of_notMem hnl, splitOnP_eq_singleton]
    · rfl
    · intro x hx
      rw [beq_eq_false_iff_ne]
      exact fun heq => hnl (heq ▸ hx)
  | hline line rest hnl ih =>
    rw [mem_append, mem_cons, not_or, not_or] at h0
    have hfree : ∀ x ∈ line, (x == NL) = false := by
      intro x hx
      rw [beq_eq_false_iff_ne]
      exact fun heq => hnl (heq ▸ hx)
    rw [scanLines_line h0.1 hnl, splitOnP_append_cons_of_forall_mem hfree _ (by simp),
      dropLast_cons_of_ne_nil (splitOnP_ne_nil _ _), ih h0.2.2]

/-- With a newline, what is left is shorter. -/
theorem scanLines_lt (h0 : 0 ∉ p) (h : NL ∈ p) : (scanLines p).2.length < p.length := by
  obtain ⟨line, rest, rfl, hnl⟩ := exists_line h
  rw [mem_append, mem_cons, not_or, not_or] at h0
  have hlen := (scanLines_snd h0.2.2).2.2
  rw [scanLines_line h0.1 hnl, length_append, length_cons]
  dsimp only
  omega

theorem kept_of_mem (h0 : 0 ∉ buf) (h : NL ∈ buf) : kept buf (scanLines buf).2 = (scanLines buf).2 :=
  if_neg (scanLines_lt h0 h).ne

/-- Without a newline, nothing is kept. -/
theorem kept_of_notMem (h : NL ∉ buf) : kept buf (scanLines buf).2 = [] := by
  rw [scanLines_of_notMem h]
  exact if_pos rfl

/-! ## Every read -/

theorem NewlineInEach.tail (h : NewlineInEach (chunk :: chunks)) : NewlineInEach chunks := by
  intro pre chunk' post hchunks
  exact h (chunk :: pre) chunk' post (by rw [hchunks]; rfl)

theorem not_newlineInEach_cons (h : ¬ NewlineInEach (chunk :: chunks)) :
    NL ∉ chunk ∧ NL ∈ chunks.flatten ∨ ¬ NewlineInEach chunks := by
  by_contra hno
  rw [not_or, not_and, not_not] at hno
  refine h fun pre chunk' post hchunks hnl => ?_
  cases pre with
  | nil =>
    obtain ⟨rfl, rfl⟩ := List.cons.inj hchunks
    exact hno.1 hnl
  | cons c pre => exact hno.2 pre chunk' post (List.cons.inj hchunks).2 hnl

/-- If each `read` up to the last newline returns a newline, no line is lost. -/
theorem grepLoop_eq (re : List UInt8) (hbuf : NL ∉ buf) (h0 : 0 ∉ buf ++ chunks.flatten) (hnl : NewlineInEach chunks) :
    grepLoop re buf chunks = (scanLines (buf ++ chunks.flatten)).1.flatMap (printed re) := by
  induction chunks generalizing buf with
  | nil =>
    rw [flatten_nil, append_nil, scanLines_of_notMem hbuf]
    rfl
  | cons chunk chunks ih =>
    rw [flatten_cons, ← append_assoc] at h0 ⊢
    have h0buf : 0 ∉ buf ++ chunk := fun hmem => h0 (mem_append_left _ hmem)
    have h0rest : 0 ∉ chunks.flatten := fun hmem => h0 (mem_append_right _ hmem)
    rw [grepLoop]
    by_cases hmem : NL ∈ chunk
    · obtain ⟨hleft, h0left, -⟩ := scanLines_snd h0buf
      have h0' : 0 ∉ (scanLines (buf ++ chunk)).2 ++ chunks.flatten := by
        rw [mem_append, not_or]
        exact ⟨h0left, h0rest⟩
      rw [kept_of_mem h0buf (mem_append_right _ hmem), ih hleft h0' hnl.tail, scanLines_append h0buf,
        flatMap_append]
    · -- there is no line any more
      have hnone : NL ∉ chunks.flatten := hnl [] chunk chunks rfl hmem
      have hall : NL ∉ buf ++ chunk := by
        rw [mem_append, not_or]
        exact ⟨hbuf, hmem⟩
      have hwhole : NL ∉ buf ++ chunk ++ chunks.flatten := by
        rw [mem_append, not_or]
        exact ⟨hall, hnone⟩
      rw [kept_of_notMem hall, ih not_mem_nil h0rest hnl.tail, nil_append, scanLines_of_notMem hall,
        scanLines_of_notMem hnone, scanLines_of_notMem hwhole]
      rfl

/-- The bytes of the lines of `p`. -/
def lineBytes (p : List UInt8) : ℕ := ((scanLines p).1.flatMap (· ++ [NL])).length

theorem lineBytes_append (h0 : 0 ∉ p) : lineBytes (p ++ q) = lineBytes p + lineBytes ((scanLines p).2 ++ q) := by
  unfold lineBytes
  rw [scanLines_append h0, flatMap_append, length_append]

theorem lineBytes_of_notMem (h : NL ∉ p) : lineBytes p = 0 := by
  unfold lineBytes
  rw [scanLines_of_notMem h]
  rfl

/-- A newline in `q` ends the line that `p` begins. -/
theorem lineBytes_open (h0 : 0 ∉ p ++ q) (hp : NL ∉ p) (hq : NL ∈ q) : lineBytes (p ++ q) = p.length + lineBytes q := by
  obtain ⟨line, rest, rfl, hnl⟩ := exists_line hq
  simp only [mem_append, mem_cons, not_or] at h0
  have hpl : NL ∉ p ++ line := by
    rw [mem_append, not_or]
    exact ⟨hp, hnl⟩
  have h0pl : 0 ∉ p ++ line := by
    rw [mem_append, not_or]
    exact ⟨h0.1, h0.2.1⟩
  unfold lineBytes
  rw [← append_assoc, scanLines_line h0pl hpl, scanLines_line h0.2.1 hnl]
  simp only [flatMap_cons, length_append]
  omega

theorem lineBytes_le_open (h0 : 0 ∉ p ++ q) (hp : NL ∉ p) : lineBytes q ≤ lineBytes (p ++ q) := by
  by_cases hq : NL ∈ q
  · rw [lineBytes_open h0 hp hq]
    exact Nat.le_add_left ..
  · rw [lineBytes_of_notMem hq]
    exact Nat.zero_le _

/-- The empty pattern matches every line. -/
theorem printed_nil : printed [] = (· ++ [NL]) := by
  funext line
  have hmatch : matchText [] line = true := by
    change matchloop [] (cstr line) = true
    cases cstr line with
    | nil => rfl
    | cons c text => rfl
  rw [printed, if_pos hmatch]

theorem length_grepLoop_le (h0 : 0 ∉ buf ++ chunks.flatten) :
    (grepLoop [] buf chunks).length ≤ lineBytes (buf ++ chunks.flatten) := by
  induction chunks generalizing buf with
  | nil => exact Nat.zero_le _
  | cons chunk chunks ih =>
    rw [flatten_cons, ← append_assoc] at h0 ⊢
    have h0buf : 0 ∉ buf ++ chunk := fun hmem => h0 (mem_append_left _ hmem)
    have h0rest : 0 ∉ chunks.flatten := fun hmem => h0 (mem_append_right _ hmem)
    rw [grepLoop, printed_nil, length_append]
    by_cases hmem : NL ∈ buf ++ chunk
    · obtain ⟨-, h0left, -⟩ := scanLines_snd h0buf
      have h0' : 0 ∉ (scanLines (buf ++ chunk)).2 ++ chunks.flatten := by
        rw [mem_append, not_or]
        exact ⟨h0left, h0rest⟩
      rw [kept_of_mem h0buf hmem, lineBytes_append h0buf]
      exact Nat.add_le_add_left (ih h0') _
    · rw [kept_of_notMem hmem, scanLines_of_notMem hmem]
      refine (Nat.zero_add _).le.trans ((ih h0rest).trans ?_)
      exact lineBytes_le_open h0 hmem

/-- If a `read` before the last newline returns no newline, the beginning of a line is lost. -/
theorem length_grepLoop_lt (hbuf : NL ∉ buf) (h0 : 0 ∉ buf ++ chunks.flatten) (hfits : Fits buf chunks)
    (hnl : ¬ NewlineInEach chunks) : (grepLoop [] buf chunks).length < lineBytes (buf ++ chunks.flatten) := by
  induction chunks generalizing buf with
  | nil => exact absurd (fun pre _ _ h => absurd h (by simp)) hnl
  | cons chunk chunks ih =>
    rw [flatten_cons, ← append_assoc] at h0 ⊢
    have h0buf : 0 ∉ buf ++ chunk := fun hmem => h0 (mem_append_left _ hmem)
    have h0rest : 0 ∉ chunks.flatten := fun hmem => h0 (mem_append_right _ hmem)
    obtain ⟨hne, -, hfits'⟩ := hfits
    rw [grepLoop, printed_nil, length_append]
    by_cases hmem : NL ∈ buf ++ chunk
    · obtain ⟨hleft, h0left, -⟩ := scanLines_snd h0buf
      have h0' : 0 ∉ (scanLines (buf ++ chunk)).2 ++ chunks.flatten := by
        rw [mem_append, not_or]
        exact ⟨h0left, h0rest⟩
      have hchunk : NL ∈ chunk := (mem_append.mp hmem).resolve_left hbuf
      have hnl' := (not_newlineInEach_cons hnl).resolve_left fun h => h.1 hchunk
      rw [kept_of_mem h0buf hmem] at hfits' ⊢
      rw [lineBytes_append h0buf]
      exact Nat.add_lt_add_left (ih hleft h0' hfits' hnl') _
    · rw [kept_of_notMem hmem] at hfits' ⊢
      rw [scanLines_of_notMem hmem]
      refine (Nat.zero_add _).trans_lt ?_
      rcases not_newlineInEach_cons hnl with ⟨-, hlater⟩ | hnl'
      · -- the bytes in the buffer are lost, and a newline comes
        have hpos : 0 < (buf ++ chunk).length := by
          rw [length_append]
          exact Nat.add_pos_right _ (length_pos_iff.mpr hne)
        rw [lineBytes_open h0 hmem hlater]
        have hle : (grepLoop [] [] chunks).length ≤ lineBytes ([] ++ chunks.flatten) := length_grepLoop_le h0rest
        rw [nil_append] at hle
        omega
      · exact (ih not_mem_nil h0rest hfits' hnl').trans_le (lineBytes_le_open h0 hmem)

theorem matching_eq (re : List UInt8) (h0 : 0 ∉ p) : matching re p = (scanLines p).1.flatMap (printed re) := by
  rw [matching, lines_eq h0]

theorem not_printsMatching (h0 : 0 ∉ chunks.flatten) (hfits : Fits [] chunks) (hnl : ¬ NewlineInEach chunks) :
    ¬ PrintsMatching chunks := by
  intro hprints
  have hlt := length_grepLoop_lt not_mem_nil h0 hfits hnl
  have heq := hprints []
  rw [matching_eq [] h0, printed_nil] at heq
  exact hlt.ne (congrArg List.length heq)

end

/-! ## `grep` and the splitting of its input -/

/-- The lines that match are printed if each `read` returns a newline, but for those after the last newline. -/
theorem grep_prints_iff (chunks : List (List UInt8)) (h0 : 0 ∉ chunks.flatten) (hfits : Fits [] chunks) :
    PrintsMatching chunks ↔ NewlineInEach chunks := by
  constructor
  · intro hprints
    by_contra hnl
    exact not_printsMatching h0 hfits hnl hprints
  · intro hnl re
    rw [matching_eq re h0]
    exact grepLoop_eq re not_mem_nil h0 hnl

/-- The line `ab` in two reads. -/
def splitLine : List (List UInt8) := [[97], [98, 10]]

/-- The line `ab` in one read. -/
def wholeLine : List (List UInt8) := [[97, 98, 10]]

theorem kept_splitLine : kept ([] ++ [97]) (scanLines ([] ++ [97])).2 = [] := kept_of_notMem (by decide)

theorem splitLine_fits : Fits [] splitLine := by
  refine ⟨by decide, by decide, ?_⟩
  rw [kept_splitLine]
  exact ⟨by decide, by decide, trivial⟩

theorem wholeLine_fits : Fits [] wholeLine := ⟨by decide, by decide, trivial⟩

theorem wholeLine_newlineInEach : NewlineInEach wholeLine := by
  intro pre chunk post hchunks hnl
  cases pre with
  | nil =>
    obtain ⟨rfl, rfl⟩ := List.cons.inj hchunks
    exact absurd hnl (by decide)
  | cons c pre => exact absurd (List.cons.inj hchunks).2 (by simp)

/-- The same line, read in one piece and in two: the pattern `a` finds it only in the one piece. -/
theorem grep_loses_line : splitLine.flatten = wholeLine.flatten ∧ ¬ PrintsMatching splitLine ∧
    grep [97] splitLine = [] ∧ grep [97] wholeLine = [97, 98, 10] := by
  have hnl : ¬ NewlineInEach splitLine := fun h => absurd (h [] [97] [[98, 10]] rfl (by decide)) (by decide)
  refine ⟨rfl, not_printsMatching (by decide) splitLine_fits hnl, ?_, ?_⟩
  · have hfirst : scanLines ([] ++ [97]) = ([], [97]) := scanLines_of_notMem (by decide)
    have hsecond : scanLines ([] ++ [98, 10]) = ([[98]], []) := by
      have hline : scanLines ([98] ++ NL :: []) = ([98] :: (scanLines []).1, (scanLines []).2) :=
        scanLines_line (by decide) (by decide)
      rw [scanLines_of_notMem not_mem_nil] at hline
      exact hline
    unfold grep splitLine
    rw [grepLoop, kept_splitLine, hfirst, grepLoop, hsecond]
    decide
  · have hline : scanLines ([97, 98] ++ NL :: []) = ([97, 98] :: (scanLines []).1, (scanLines []).2) :=
      scanLines_line (by decide) (by decide)
    rw [scanLines_of_notMem not_mem_nil] at hline
    unfold grep wholeLine
    rw [grepLoop, show ([] ++ [97, 98, 10] : List UInt8) = [97, 98] ++ NL :: [] from rfl, hline]
    decide

theorem grep_prints_wholeLine : PrintsMatching wholeLine :=
  (grep_prints_iff wholeLine (by decide) wholeLine_fits).mpr wholeLine_newlineInEach

end Grep

end Xv6
