import Xv6.Shell.Tokens

/-!
# The grammar of the shell

    line = pipe {'&'} [';' line]
    pipe = exec ['|' pipe]
    exec = '(' line ')' redirs | redirs {word redirs}
    redirs = {('<' | '>' | '>>') word}

The parser returns the commands of this grammar, and ends in a panic for every other line.
-/

namespace Xv6

open List

namespace Shell

/-! ## The grammar -/

/-- `redirs`. -/
inductive Redirs : List Tok → List Redir → Prop
  | nil : Redirs [] []
  | cons {t : Tok} {w : List UInt8} {ts : List Tok} {rs : List Redir} (ht : t.isIn [LT, GT]) (h : Redirs ts rs) :
    Redirs (t :: .word w :: ts) (redirOf w t ++ rs)

/-- `{word redirs}`, with the words and the redirections. -/
inductive Words : List Tok → List (List UInt8) → List Redir → Prop
  | nil : Words [] [] []
  | cons {w : List UInt8} {ts ts' : List Tok} {ws : List (List UInt8)} {rs rs' : List Redir} (hr : Redirs ts rs)
    (h : Words ts' ws rs') : Words (.word w :: (ts ++ ts')) (w :: ws) (rs ++ rs')

mutual

inductive Exec : List Tok → Cmd → Prop
  | block {ts ts' : List Tok} {cmd : Cmd} {rs : List Redir} (h : Line ts cmd) (hr : Redirs ts' rs) :
    Exec (.sym LPAREN :: (ts ++ .sym RPAREN :: ts')) (wrap rs cmd)
  | words {ts ts' : List Tok} {ws : List (List UInt8)} {rs rs' : List Redir} (hr : Redirs ts rs) (h : Words ts' ws rs')
    (hlen : ws.length ≤ MAXARGS - 1) : Exec (ts ++ ts') (wrap (rs ++ rs') (.exec ws))

inductive Pipe : List Tok → Cmd → Prop
  | one {ts : List Tok} {cmd : Cmd} (h : Exec ts cmd) : Pipe ts cmd
  | more {ts ts' : List Tok} {cmd cmd' : Cmd} (h : Exec ts cmd) (h' : Pipe ts' cmd') :
    Pipe (ts ++ .sym BAR :: ts') (.pipe cmd cmd')

inductive Line : List Tok → Cmd → Prop
  | one {ts : List Tok} {cmd : Cmd} (k : ℕ) (h : Pipe ts cmd) : Line (ts ++ List.replicate k (.sym AMP)) (Cmd.back^[k] cmd)
  | more {ts ts' : List Tok} {cmd cmd' : Cmd} (k : ℕ) (h : Pipe ts cmd) (h' : Line ts' cmd') :
    Line (ts ++ (List.replicate k (.sym AMP) ++ .sym SEMI :: ts')) (.list (Cmd.back^[k] cmd) cmd')

end

/-! ## Soundness -/

/-- A parser that started at `s` has read a part of the tokens which the grammar allows, or it has ended in a panic. -/
def Reads {α : Type} (G : List Tok → α → Prop) (s : List UInt8) : Parse α → Prop
  | .error e => e ≠ .fuel ∧ e ≠ .overrun
  | .ok (a, s') => ∃ ts, tokens s = ts ++ tokens s' ∧ G ts a

variable {s w cs : List UInt8} {n argc : ℕ}

theorem Reads.result {α : Type} {G : List Tok → α → Prop} {x : Parse α} (h : Reads G s x) :
    (∃ e, x = .error e ∧ e ≠ .fuel ∧ e ≠ .overrun) ∨
      ∃ a s' ts, x = .ok (a, s') ∧ tokens s = ts ++ tokens s' ∧ G ts a := by
  cases x with
  | error e => exact .inl ⟨e, rfl, h⟩
  | ok p => exact .inr ⟨p.1, p.2, h.choose, rfl, h.choose_spec⟩

/-- A parser does not put anything back. -/
theorem length_le_of_tokens {s' : List UInt8} {ts : List Tok} (h : tokens s = ts ++ tokens s') :
    (tokens s').length ≤ (tokens s).length := by
  rw [h, length_append]
  exact Nat.le_add_left ..

theorem peek_redir (s : List UInt8) : peek s [LT, GT] = (starts [LT, GT] (tokens s), skip s) := peek_eq (by decide)

theorem peek_stop (s : List UInt8) :
    peek s [BAR, RPAREN, AMP, SEMI] = (starts [BAR, RPAREN, AMP, SEMI] (tokens s), skip s) := peek_eq (by decide)

theorem peek_amp (s : List UInt8) : peek s [AMP] = (starts [AMP] (tokens s), skip s) := peek_eq (by decide)

theorem peek_semi (s : List UInt8) : peek s [SEMI] = (starts [SEMI] (tokens s), skip s) := peek_eq (by decide)

theorem peek_bar (s : List UInt8) : peek s [BAR] = (starts [BAR] (tokens s), skip s) := peek_eq (by decide)

theorem peek_lparen (s : List UInt8) : peek s [LPAREN] = (starts [LPAREN] (tokens s), skip s) := peek_eq (by decide)

theorem peek_rparen (s : List UInt8) : peek s [RPAREN] = (starts [RPAREN] (tokens s), skip s) := peek_eq (by decide)

/-- One symbol other than `>`: the next token is that symbol. -/
theorem starts_singleton {c : UInt8} {ts : List Tok} (hc : c ≠ GT) : starts [c] ts = true ↔ ∃ ts', ts = .sym c :: ts' := by
  cases ts with
  | nil => simp [starts]
  | cons t ts =>
    cases t with
    | sym a => simp [starts, Tok.isIn, eq_comm]
    | append =>
      have : ¬ GT = c := fun h => hc h.symm
      simpa [starts, Tok.isIn] using this
    | word w => simp [starts, Tok.isIn]

theorem parseredirs_stop (h : starts [LT, GT] (tokens s) = false) : parseredirs (n + 1) s = .ok ([], skip s) := by
  rw [parseredirs, peek_redir, h]
  rfl

theorem parseredirs_cons {t : Tok} {ts : List Tok} (h : tokens s = t :: .word w :: ts)
    (ht : t.isIn [LT, GT]) : parseredirs (n + 1) s =
      match parseredirs n (next (next s)) with
      | .error e => .error e
      | .ok (rs, s) => .ok (redirOf w t ++ rs, s) := by
  obtain ⟨h1, hn1⟩ := gettoken_cons h
  obtain ⟨h2, hn2⟩ := gettoken_cons hn1
  rw [parseredirs, peek_redir, h]
  simp only [starts, ht, gettoken_skip, if_true]
  rw [h1]
  dsimp only
  rw [h2]
  rfl

theorem parseredirs_missing {t : Tok} {ts : List Tok} (h : tokens s = t :: ts)
    (ht : t.isIn [LT, GT]) (hts : ∀ w ts', ts ≠ .word w :: ts') : parseredirs (n + 1) s = .error .missingFile := by
  obtain ⟨h1, hn1⟩ := gettoken_cons h
  rw [parseredirs, peek_redir, h]
  simp only [starts, ht, gettoken_skip, if_true]
  rw [h1]
  dsimp only
  cases ts with
  | nil => rw [gettoken_nil hn1]
  | cons t' ts =>
    obtain ⟨h2, -⟩ := gettoken_cons hn1
    rw [h2]
    cases t' with
    | word w => exact absurd rfl (hts w ts)
    | sym c => rfl
    | append => rfl

theorem parseredirs_reads (n : ℕ) (s : List UInt8) (hn : (tokens s).length < n) : Reads Redirs s (parseredirs n s) := by
  induction n generalizing s with
  | zero => exact absurd hn (Nat.not_lt_zero _)
  | succ n ih =>
    cases hs : starts [LT, GT] (tokens s) with
    | false =>
      rw [parseredirs_stop hs]
      exact ⟨[], (tokens_skip s).symm, .nil⟩
    | true =>
      match htok : tokens s with
      | [] =>
        rw [htok] at hs
        nomatch hs
      | t :: .word w :: ts =>
        rw [htok] at hs
        have hnext : tokens (next (next s)) = ts := (gettoken_cons (gettoken_cons htok).2).2
        rw [parseredirs_cons htok hs]
        have hlen : ts.length < n := by
          rw [htok] at hn
          simp only [length_cons] at hn
          omega
        rcases (ih (next (next s)) (by rwa [hnext])).result with ⟨e, hres, he⟩ | ⟨rs, s', used, hres, hused, hr⟩
        · rw [hres]
          exact he
        · rw [hres]
          refine ⟨t :: .word w :: used, ?_, .cons hs hr⟩
          rw [htok, ← hnext, hused]
          rfl
      | [t] =>
        rw [htok] at hs
        rw [parseredirs_missing htok hs nofun]
        exact ⟨nofun, nofun⟩
      | t :: .sym c :: ts =>
        rw [htok] at hs
        rw [parseredirs_missing htok hs nofun]
        exact ⟨nofun, nofun⟩
      | t :: .append :: ts =>
        rw [htok] at hs
        rw [parseredirs_missing htok hs nofun]
        exact ⟨nofun, nofun⟩

theorem parseargs_stop (hargc : argc < MAXARGS)
    (h : tokens s = [] ∨ starts [BAR, RPAREN, AMP, SEMI] (tokens s) = true) :
    ∃ s', parseargs (n + 1) argc s = .ok (([], []), s') ∧ tokens s' = tokens s := by
  rw [parseargs, peek_stop]
  rcases h with hnil | hstop
  · refine ⟨[], ?_, ?_⟩
    · simp only [hnil, starts, gettoken_skip, gettoken_nil hnil, Bool.false_eq_true, if_false, if_neg (Nat.not_le.mpr hargc)]
    · rw [hnil]
      exact tokens_none rfl
  · refine ⟨skip s, ?_, tokens_skip s⟩
    simp only [hstop, if_true, if_neg (Nat.not_le.mpr hargc)]

theorem parseargs_word {ts : List Tok} (hargc : argc < MAXARGS)
    (h : tokens s = .word w :: ts) : parseargs (n + 1) argc s =
      if MAXARGS ≤ argc + 1 then .error .tooManyArgs
      else
        match parseredirs n (next s) with
        | .error e => .error e
        | .ok (rs, s) =>
          match parseargs n (argc + 1) s with
          | .error e => .error e
          | .ok ((ws, rs'), s) => .ok ((w :: ws, rs ++ rs'), s) := by
  obtain ⟨h1, -⟩ := gettoken_cons h
  rw [parseargs, peek_stop, h]
  simp only [starts, Tok.isIn, gettoken_skip, Bool.false_eq_true, if_false]
  rw [h1]
  exact if_neg (Nat.not_le.mpr hargc)

theorem parseargs_bad {t : Tok} {ts : List Tok} (h : tokens s = t :: ts)
    (ht : t.isIn [BAR, RPAREN, AMP, SEMI] = false) (hw : ∀ w, t ≠ .word w) :
    parseargs (n + 1) argc s = .error .badSyntax := by
  obtain ⟨h1, -⟩ := gettoken_cons h
  rw [parseargs, peek_stop, h]
  simp only [starts, ht, gettoken_skip, Bool.false_eq_true, if_false]
  rw [h1]
  cases t with
  | word w => exact absurd rfl (hw w)
  | sym c => rfl
  | append => rfl

/-- The words and redirections that `parseargs` reads when there are `argc` words before them. -/
def WordsFrom (argc : ℕ) (ts : List Tok) (r : List (List UInt8) × List Redir) : Prop :=
  Words ts r.1 r.2 ∧ argc + r.1.length < MAXARGS

theorem parseargs_reads (n argc : ℕ) (s : List UInt8) (hargc : argc < MAXARGS) (hn : (tokens s).length < n) :
    Reads (WordsFrom argc) s (parseargs n argc s) := by
  induction n generalizing argc s with
  | zero => exact absurd hn (Nat.not_lt_zero _)
  | succ n ih =>
    by_cases hstop : tokens s = [] ∨ starts [BAR, RPAREN, AMP, SEMI] (tokens s) = true
    · obtain ⟨s', hres, htok⟩ := parseargs_stop (n := n) hargc hstop
      rw [hres]
      exact ⟨[], htok.symm, .nil, hargc⟩
    · rw [not_or] at hstop
      obtain ⟨t, ts, htok⟩ := exists_cons_of_ne_nil hstop.1
      have hlen : ts.length < n := by
        rw [htok] at hn
        exact Nat.lt_of_succ_lt_succ hn
      cases t with
      | word w =>
        have hnext : tokens (next s) = ts := (gettoken_cons htok).2
        rw [parseargs_word hargc htok]
        by_cases hmax : MAXARGS ≤ argc + 1
        · rw [if_pos hmax]
          exact ⟨by simp, by simp⟩
        rw [if_neg hmax]
        rcases (parseredirs_reads n (next s) (by rwa [hnext])).result with ⟨e, hres, he⟩ | ⟨rs, s1, used, hres, hused, hr⟩
        · rw [hres]
          exact he
        have hle := length_le_of_tokens hused
        rw [hnext] at hused hle
        rw [hres]
        dsimp only
        rcases (ih (argc + 1) s1 (Nat.lt_of_not_le hmax) (by omega)).result with
          ⟨e, hres', he⟩ | ⟨⟨ws, rs'⟩, s2, used', hres', hused', hwords, hmax'⟩
        · rw [hres']
          exact he
        · rw [hres']
          refine ⟨.word w :: (used ++ used'), ?_, .cons hr hwords, ?_⟩
          · rw [htok, hused, hused', cons_append, append_assoc]
          · simp only [length_cons] at hmax' ⊢
            omega
      | sym c =>
        rw [htok] at hstop
        rw [parseargs_bad htok (by simpa [starts] using hstop.2) (by simp)]
        exact ⟨by simp, by simp⟩
      | append =>
        rw [parseargs_bad htok (by decide) (by simp)]
        exact ⟨by simp, by simp⟩

theorem parseback_stop {cmd : Cmd} (h : starts [AMP] (tokens s) = false) :
    parseback (n + 1) cmd s = .ok (cmd, skip s) := by
  rw [parseback, peek_amp, h]
  rfl

theorem parseback_amp {cmd : Cmd} {ts : List Tok} (h : tokens s = .sym AMP :: ts) :
    parseback (n + 1) cmd s = parseback n (.back cmd) (next s) := by
  rw [parseback, peek_amp, h]
  simp only [starts, Tok.isIn, gettoken_skip]
  rfl

/-- `{'&'}` after `cmd`. -/
def Backs (cmd : Cmd) (ts : List Tok) (cmd' : Cmd) : Prop :=
  ∃ k, ts = List.replicate k (.sym AMP) ∧ cmd' = Cmd.back^[k] cmd

theorem parseback_reads (n : ℕ) (cmd : Cmd) (s : List UInt8) (hn : (tokens s).length < n) :
    Reads (Backs cmd) s (parseback n cmd s) := by
  induction n generalizing cmd s with
  | zero => exact absurd hn (Nat.not_lt_zero _)
  | succ n ih =>
    cases hs : starts [AMP] (tokens s) with
    | false =>
      rw [parseback_stop hs]
      exact ⟨[], (tokens_skip s).symm, 0, rfl, rfl⟩
    | true =>
      obtain ⟨ts, htok⟩ := (starts_singleton (by decide)).mp hs
      have hnext : tokens (next s) = ts := (gettoken_cons htok).2
      rw [parseback_amp htok]
      have hlen : ts.length < n := by
        rw [htok] at hn
        exact Nat.lt_of_succ_lt_succ hn
      rcases (ih (.back cmd) (next s) (by rwa [hnext])).result with ⟨e, hres, he⟩ | ⟨_, s', _, hres, hused, k, rfl, hcmd⟩
      · rw [hres]
        exact he
      · rw [hres]
        refine ⟨.sym AMP :: List.replicate k (.sym AMP), ?_, k + 1, rfl, hcmd⟩
        rw [htok, ← hnext, hused]
        rfl

/-- The four functions with fuel `n`. On its way from one token to the next, the parser makes at most four calls. -/
structure AllRead (n : ℕ) : Prop where
  line : ∀ s, 4 * (tokens s).length + 4 ≤ n → Reads Line s (parseline n s)
  pipe : ∀ s, 4 * (tokens s).length + 3 ≤ n → Reads Pipe s (parsepipe n s)
  exec : ∀ s, 4 * (tokens s).length + 2 ≤ n → Reads Exec s (parseexec n s)
  block : ∀ s, 4 * (tokens s).length + 1 ≤ n → starts [LPAREN] (tokens s) = true → Reads Exec s (parseblock n s)

theorem AllRead.parseline (ih : AllRead n) (s : List UInt8) (hn : 4 * (tokens s).length + 4 ≤ n + 1) :
    Reads Line s (parseline (n + 1) s) := by
  rw [Shell.parseline]
  rcases (ih.pipe s (by omega)).result with ⟨e, hres, he⟩ | ⟨cmd, s1, ts, hres, hts, hg⟩
  · rw [hres]
    exact he
  have hle := length_le_of_tokens hts
  rw [hres]
  dsimp only
  rcases (parseback_reads n cmd s1 (by omega)).result with ⟨e, hres1, he⟩ | ⟨_, s2, _, hres1, hts1, k, rfl, rfl⟩
  · rw [hres1]
    exact he
  have hle1 := length_le_of_tokens hts1
  rw [hres1]
  dsimp only
  rw [peek_semi]
  cases hs : starts [SEMI] (tokens s2) with
  | false =>
    refine ⟨ts ++ List.replicate k (.sym AMP), ?_, .one k hg⟩
    rw [tokens_skip, hts, hts1, append_assoc]
  | true =>
    obtain ⟨ts2, htok⟩ := (starts_singleton (by decide)).mp hs
    have hnext : tokens (next s2) = ts2 := (gettoken_cons htok).2
    rw [htok, length_cons] at hle1
    simp only [gettoken_skip, if_true]
    rcases (ih.line (next s2) (by rw [hnext]; omega)).result with ⟨e, hres2, he⟩ | ⟨cmd', s3, ts3, hres2, hts3, hg'⟩
    · rw [hres2]
      exact he
    · rw [hres2]
      refine ⟨_, ?_, .more k hg hg'⟩
      rw [hts, hts1, htok, ← hnext, hts3]
      simp only [append_assoc, cons_append]

theorem AllRead.parsepipe (ih : AllRead n) (s : List UInt8) (hn : 4 * (tokens s).length + 3 ≤ n + 1) :
    Reads Pipe s (parsepipe (n + 1) s) := by
  rw [Shell.parsepipe]
  rcases (ih.exec s (by omega)).result with ⟨e, hres, he⟩ | ⟨cmd, s1, ts, hres, hts, hg⟩
  · rw [hres]
    exact he
  have hle := length_le_of_tokens hts
  rw [hres]
  dsimp only
  rw [peek_bar]
  cases hs : starts [BAR] (tokens s1) with
  | false =>
    refine ⟨ts, ?_, .one hg⟩
    rw [tokens_skip, hts]
  | true =>
    obtain ⟨ts1, htok⟩ := (starts_singleton (by decide)).mp hs
    have hnext : tokens (next s1) = ts1 := (gettoken_cons htok).2
    rw [htok, length_cons] at hle
    simp only [gettoken_skip, if_true]
    rcases (ih.pipe (next s1) (by rw [hnext]; omega)).result with ⟨e, hres2, he⟩ | ⟨cmd', s2, ts2, hres2, hts2, hg'⟩
    · rw [hres2]
      exact he
    · rw [hres2]
      refine ⟨_, ?_, .more hg hg'⟩
      rw [hts, htok, ← hnext, hts2]
      simp only [append_assoc, cons_append]

theorem AllRead.parseexec (ih : AllRead n) (s : List UInt8) (hn : 4 * (tokens s).length + 2 ≤ n + 1) :
    Reads Exec s (parseexec (n + 1) s) := by
  rw [Shell.parseexec, peek_lparen]
  cases hs : starts [LPAREN] (tokens s) with
  | true =>
    have hblock := ih.block (skip s) (by rw [tokens_skip]; omega) (by rw [tokens_skip, hs])
    simpa only [Reads, tokens_skip, if_true] using hblock
  | false =>
    simp only [Bool.false_eq_true, if_false]
    rcases (parseredirs_reads n (skip s) (by rw [tokens_skip]; omega)).result with
      ⟨e, hres, he⟩ | ⟨rs, s1, ts, hres, hts, hr⟩
    · rw [hres]
      exact he
    have hle := length_le_of_tokens hts
    rw [tokens_skip] at hts hle
    rw [hres]
    dsimp only
    rcases (parseargs_reads n 0 s1 (by decide) (by omega)).result with
      ⟨e, hres1, he⟩ | ⟨⟨ws, rs'⟩, s2, ts1, hres1, hts1, hwords, hmax⟩
    · rw [hres1]
      exact he
    · rw [hres1]
      refine ⟨ts ++ ts1, ?_, .words hr hwords ?_⟩
      · rw [hts, hts1, append_assoc]
      · dsimp only at hmax
        omega

theorem AllRead.parseblock (ih : AllRead n) (s : List UInt8) (hn : 4 * (tokens s).length + 1 ≤ n + 1)
    (hs : starts [LPAREN] (tokens s) = true) : Reads Exec s (parseblock (n + 1) s) := by
  obtain ⟨ts, htok⟩ := (starts_singleton (by decide)).mp hs
  have hnext : tokens (next s) = ts := (gettoken_cons htok).2
  have hlen : (tokens s).length = ts.length + 1 := by rw [htok, length_cons]
  rw [Shell.parseblock, peek_lparen, hs]
  simp only [gettoken_skip, if_true]
  rcases (ih.line (next s) (by rw [hnext]; omega)).result with ⟨e, hres, he⟩ | ⟨cmd, s1, ts1, hres, hts1, hg⟩
  · rw [hres]
    exact he
  have hle := length_le_of_tokens hts1
  rw [hres]
  dsimp only
  rw [peek_rparen]
  cases hs1 : starts [RPAREN] (tokens s1) with
  | false => exact ⟨nofun, nofun⟩
  | true =>
    obtain ⟨ts2, htok1⟩ := (starts_singleton (by decide)).mp hs1
    have hnext1 : tokens (next s1) = ts2 := (gettoken_cons htok1).2
    rw [htok1, hnext, length_cons] at hle
    simp only [gettoken_skip, if_true]
    rcases (parseredirs_reads n (next s1) (by rw [hnext1]; omega)).result with
      ⟨e, hres1, he⟩ | ⟨rs, s2, ts3, hres1, hts3, hr⟩
    · rw [hres1]
      exact he
    · rw [hres1]
      refine ⟨_, ?_, .block hg hr⟩
      rw [htok, ← hnext, hts1, htok1, ← hnext1, hts3]
      simp only [append_assoc, cons_append]

theorem allRead (n : ℕ) : AllRead n := by
  induction n with
  | zero => exact ⟨nofun, nofun, nofun, nofun⟩
  | succ n ih => exact ⟨ih.parseline, ih.parsepipe, ih.parseexec, ih.parseblock⟩

/-! ## Completeness -/

/-- There is no token, or the next one is one of the symbols `cs`. -/
def Follow (cs : List UInt8) (ts : List Tok) : Prop := ts = [] ∨ ∃ c ∈ cs, ∃ ts', ts = .sym c :: ts'

theorem Follow.not_starts {toks : List UInt8} {ts : List Tok} (h : Follow cs ts)
    (hdisj : cs.all (fun c => !toks.contains c) = true) : starts toks ts = false := by
  rcases h with rfl | ⟨c, hc, ts', rfl⟩
  · rfl
  · exact Bool.not_eq_true' _ |>.mp (all_eq_true.mp hdisj c hc)

theorem Follow.mono {cs' : List UInt8} {ts : List Tok} (h : Follow cs ts) (hsub : cs.all cs'.contains = true) :
    Follow cs' ts := by
  rcases h with rfl | ⟨c, hc, hts⟩
  · exact .inl rfl
  · exact .inr ⟨c, contains_iff_mem.mp (all_eq_true.mp hsub c hc), hts⟩

theorem Redirs.parses {ts : List Tok} {rs : List Redir} (h : Redirs ts rs) :
    ∀ {n : ℕ} {s : List UInt8} {rest : List Tok}, ts.length < n → tokens s = ts ++ rest → starts [LT, GT] rest = false →
      ∃ s', parseredirs n s = .ok (rs, s') ∧ tokens s' = rest := by
  induction h with
  | nil =>
    intro n s rest hn htok hrest
    obtain ⟨n, rfl⟩ := Nat.exists_eq_add_of_lt hn
    rw [nil_append] at htok
    refine ⟨skip s, parseredirs_stop (by rw [htok, hrest]), ?_⟩
    rw [tokens_skip, htok]
  | @cons t w ts rs ht h ih =>
    intro n s rest hn htok hrest
    cases n with
    | zero => exact absurd hn (Nat.not_lt_zero _)
    | succ n =>
      have hnext : tokens (next (next s)) = ts ++ rest := (gettoken_cons (gettoken_cons htok).2).2
      obtain ⟨s', hres, hs'⟩ := ih (n := n) (by simp only [length_cons] at hn; omega) hnext hrest
      refine ⟨s', ?_, hs'⟩
      rw [parseredirs_cons htok ht, hres]

/-- What follows the redirections of a command is not a redirection. -/
theorem Words.not_redir {ts rest : List Tok} {ws : List (List UInt8)} {rs : List Redir} (h : Words ts ws rs)
    (hrest : Follow [BAR, RPAREN, AMP, SEMI] rest) : starts [LT, GT] (ts ++ rest) = false := by
  cases h with
  | nil => exact hrest.not_starts (by decide)
  | cons hr h => rfl

theorem Words.parses {ts : List Tok} {ws : List (List UInt8)} {rs : List Redir} (h : Words ts ws rs) :
    ∀ (n argc : ℕ) {s : List UInt8} {rest : List Tok}, ts.length < n → argc + ws.length < MAXARGS → tokens s = ts ++ rest →
      Follow [BAR, RPAREN, AMP, SEMI] rest → ∃ s', parseargs n argc s = .ok ((ws, rs), s') ∧ tokens s' = rest := by
  induction h with
  | nil =>
    intro n argc s rest hn hargc htok hrest
    cases n with
    | zero => exact absurd hn (Nat.not_lt_zero _)
    | succ n =>
      rw [nil_append] at htok
      obtain ⟨s', hres, hs'⟩ := parseargs_stop (n := n) (s := s) hargc (by
        rw [htok]
        rcases hrest with rfl | ⟨c, hc, ts', rfl⟩
        · exact .inl rfl
        · exact .inr (contains_iff_mem.mpr hc))
      exact ⟨s', hres, hs'.trans htok⟩
  | @cons w ts ts' ws rs rs' hr h ih =>
    intro n argc s rest hn hargc htok hrest
    simp only [length_cons, length_append] at hn hargc
    cases n with
    | zero => exact absurd hn (Nat.not_lt_zero _)
    | succ n =>
      have hnext : tokens (next s) = ts ++ (ts' ++ rest) := by
        rw [← append_assoc]
        exact (gettoken_cons htok).2
      obtain ⟨s1, hres1, hs1⟩ := hr.parses (n := n) (by omega) hnext (h.not_redir hrest)
      obtain ⟨s2, hres2, hs2⟩ := ih n (argc + 1) (by omega) (by omega) hs1 hrest
      refine ⟨s2, ?_, hs2⟩
      rw [parseargs_word (by omega) htok, if_neg (by omega), hres1]
      dsimp only
      rw [hres2]

theorem parseback_parses {k : ℕ} : ∀ (n : ℕ) (cmd : Cmd) {s : List UInt8} {rest : List Tok}, k < n →
    tokens s = List.replicate k (.sym AMP) ++ rest → starts [AMP] rest = false →
      ∃ s', parseback n cmd s = .ok (Cmd.back^[k] cmd, s') ∧ tokens s' = rest := by
  induction k with
  | zero =>
    intro n cmd s rest hn htok hrest
    cases n with
    | zero => exact absurd hn (Nat.not_lt_zero _)
    | succ n =>
      refine ⟨skip s, parseback_stop ?_, ?_⟩
      · rw [htok]
        exact hrest
      · rw [tokens_skip, htok]
        rfl
  | succ k ih =>
    intro n cmd s rest hn htok hrest
    cases n with
    | zero => exact absurd hn (Nat.not_lt_zero _)
    | succ n =>
      obtain ⟨s', hres, hs'⟩ := ih n (.back cmd) (Nat.lt_of_succ_lt_succ hn) (gettoken_cons htok).2 hrest
      exact ⟨s', (parseback_amp htok).trans hres, hs'⟩

/-- Whatever follows the tokens `ts`, if it starts with one of `cs`, the parser reads them and returns `cmd`. -/
def Parses (f : ℕ → List UInt8 → Parse Cmd) (k : ℕ) (cs : List UInt8) (ts : List Tok) (cmd : Cmd) : Prop :=
  ∀ ⦃n s rest⦄, 4 * ts.length + k ≤ n → tokens s = ts ++ rest → Follow cs rest →
    ∃ s', f n s = .ok (cmd, s') ∧ tokens s' = rest

abbrev ExecParses : List Tok → Cmd → Prop := Parses parseexec 2 [BAR, RPAREN, AMP, SEMI]

abbrev PipeParses : List Tok → Cmd → Prop := Parses parsepipe 3 [RPAREN, AMP, SEMI]

abbrev LineParses : List Tok → Cmd → Prop := Parses parseline 4 [RPAREN]

section

variable {ts ts' : List Tok} {cmd cmd' : Cmd} {rs rs' : List Redir} {ws : List (List UInt8)}

theorem LineParses.block (h : LineParses ts cmd) (hr : Redirs ts' rs) :
    ExecParses (.sym LPAREN :: (ts ++ .sym RPAREN :: ts')) (wrap rs cmd) := by
  intro n s rest hn htok hrest
  simp only [length_cons, length_append] at hn
  obtain ⟨n, rfl⟩ := Nat.exists_eq_add_of_le' (show 2 ≤ n by omega)
  have hstart : starts [LPAREN] (tokens s) = true := by
    rw [htok]
    rfl
  have hnext : tokens (next s) = ts ++ (.sym RPAREN :: (ts' ++ rest)) := by
    rw [(gettoken_cons htok).2]
    simp only [append_eq, append_assoc, cons_append]
  obtain ⟨s1, hres1, hs1⟩ := h (n := n) (by omega) hnext (.inr ⟨RPAREN, mem_singleton_self _, _, rfl⟩)
  have hclose : starts [RPAREN] (tokens s1) = true := by
    rw [hs1]
    rfl
  obtain ⟨s2, hres2, hs2⟩ := hr.parses (n := n) (by omega) (gettoken_cons hs1).2 (hrest.not_starts (by decide))
  refine ⟨s2, ?_, hs2⟩
  rw [parseexec, peek_lparen, hstart]
  simp only [if_true]
  rw [parseblock, peek_lparen, tokens_skip, hstart]
  simp only [if_true, gettoken_skip]
  rw [hres1]
  dsimp only
  rw [peek_rparen, hclose]
  simp only [if_true, gettoken_skip]
  rw [hres2]

theorem execParses_words (hr : Redirs ts rs) (h : Words ts' ws rs') (hlen : ws.length ≤ MAXARGS - 1) :
    ExecParses (ts ++ ts') (wrap (rs ++ rs') (.exec ws)) := by
  intro n s rest hn htok hrest
  rw [length_append] at hn
  rw [append_assoc] at htok
  obtain ⟨n, rfl⟩ := Nat.exists_eq_add_of_le' (show 1 ≤ n by omega)
  -- neither a redirection, nor a word, nor what may follow the command starts with `(`
  have hstart : starts [LPAREN] (tokens s) = false := by
    rw [htok]
    cases hr with
    | nil =>
      cases h with
      | nil => exact hrest.not_starts (by decide)
      | cons hr h => rfl
    | @cons t w ts rs ht hr =>
      cases t with
      | sym c =>
        simp only [Tok.isIn, contains_iff_mem, mem_cons, not_mem_nil, or_false] at ht
        rcases ht with rfl | rfl <;> rfl
      | append => rfl
      | word w => rfl
  have hmax : 0 + ws.length < MAXARGS := by
    simp only [MAXARGS] at hlen ⊢
    omega
  obtain ⟨s1, hres1, hs1⟩ := hr.parses (n := n) (s := skip s) (by omega) ((tokens_skip s).trans htok) (h.not_redir hrest)
  obtain ⟨s2, hres2, hs2⟩ := h.parses n 0 (by omega) hmax hs1 hrest
  refine ⟨s2, ?_, hs2⟩
  rw [parseexec, peek_lparen, hstart]
  simp only [Bool.false_eq_true, if_false]
  rw [hres1]
  dsimp only
  rw [hres2]

theorem ExecParses.one (h : ExecParses ts cmd) : PipeParses ts cmd := by
  intro n s rest hn htok hrest
  obtain ⟨n, rfl⟩ := Nat.exists_eq_add_of_le' (show 1 ≤ n by omega)
  obtain ⟨s1, hres1, hs1⟩ := h (n := n) (by omega) htok (hrest.mono (by decide))
  have hstop : starts [BAR] (tokens s1) = false := by
    rw [hs1]
    exact hrest.not_starts (by decide)
  refine ⟨skip s1, ?_, (tokens_skip s1).trans hs1⟩
  rw [parsepipe, hres1]
  dsimp only
  rw [peek_bar, hstop]
  rfl

theorem ExecParses.more (h : ExecParses ts cmd) (h' : PipeParses ts' cmd') :
    PipeParses (ts ++ .sym BAR :: ts') (.pipe cmd cmd') := by
  intro n s rest hn htok hrest
  simp only [length_cons, length_append] at hn
  rw [append_assoc] at htok
  obtain ⟨n, rfl⟩ := Nat.exists_eq_add_of_le' (show 1 ≤ n by omega)
  obtain ⟨s1, hres1, hs1⟩ := h (n := n) (by omega) htok (.inr ⟨BAR, by decide, _, rfl⟩)
  have hbar : starts [BAR] (tokens s1) = true := by
    rw [hs1]
    rfl
  obtain ⟨s2, hres2, hs2⟩ := h' (n := n) (by omega) (gettoken_cons hs1).2 hrest
  refine ⟨s2, ?_, hs2⟩
  rw [parsepipe, hres1]
  dsimp only
  rw [peek_bar, hbar]
  simp only [if_true, gettoken_skip]
  rw [hres2]

theorem follow_amps {k : ℕ} {rest : List Tok} (h : Follow [RPAREN, AMP, SEMI] rest) :
    Follow [RPAREN, AMP, SEMI] (List.replicate k (.sym AMP) ++ rest) := by
  cases k with
  | zero => exact h
  | succ k => exact .inr ⟨AMP, by decide, _, rfl⟩

theorem PipeParses.one (k : ℕ) (h : PipeParses ts cmd) :
    LineParses (ts ++ List.replicate k (.sym AMP)) (Cmd.back^[k] cmd) := by
  intro n s rest hn htok hrest
  simp only [length_append, length_replicate] at hn
  rw [append_assoc] at htok
  obtain ⟨n, rfl⟩ := Nat.exists_eq_add_of_le' (show 1 ≤ n by omega)
  obtain ⟨s1, hres1, hs1⟩ := h (n := n) (by omega) htok (follow_amps (hrest.mono (by decide)))
  obtain ⟨s2, hres2, hs2⟩ := parseback_parses n cmd (by omega) hs1 (hrest.not_starts (by decide))
  have hstop : starts [SEMI] (tokens s2) = false := by
    rw [hs2]
    exact hrest.not_starts (by decide)
  refine ⟨skip s2, ?_, (tokens_skip s2).trans hs2⟩
  rw [parseline, hres1]
  dsimp only
  rw [hres2]
  dsimp only
  rw [peek_semi, hstop]
  rfl

theorem PipeParses.more (k : ℕ) (h : PipeParses ts cmd) (h' : LineParses ts' cmd') :
    LineParses (ts ++ (List.replicate k (.sym AMP) ++ .sym SEMI :: ts')) (.list (Cmd.back^[k] cmd) cmd') := by
  intro n s rest hn htok hrest
  simp only [length_cons, length_append, length_replicate] at hn
  rw [append_assoc, append_assoc] at htok
  obtain ⟨n, rfl⟩ := Nat.exists_eq_add_of_le' (show 1 ≤ n by omega)
  obtain ⟨s1, hres1, hs1⟩ := h (n := n) (by omega) htok (follow_amps (.inr ⟨SEMI, by decide, _, rfl⟩))
  obtain ⟨s2, hres2, hs2⟩ := parseback_parses n cmd (by omega) hs1 rfl
  have hsemi : starts [SEMI] (tokens s2) = true := by
    rw [hs2]
    rfl
  obtain ⟨s3, hres3, hs3⟩ := h' (n := n) (by omega) (gettoken_cons hs2).2 hrest
  refine ⟨s3, ?_, hs3⟩
  rw [parseline, hres1]
  dsimp only
  rw [hres2]
  dsimp only
  rw [peek_semi, hsemi]
  simp only [if_true, gettoken_skip]
  rw [hres3]

theorem Line.parses (h : Line ts cmd) : LineParses ts cmd :=
  -- one case for each production
  @Line.rec (fun ts cmd _ => ExecParses ts cmd) (fun ts cmd _ => PipeParses ts cmd) (fun ts cmd _ => LineParses ts cmd)
    (fun _ hr ih => ih.block hr) (fun hr h hlen => execParses_words hr h hlen) (fun _ ih => ih.one)
    (fun _ _ ih ih' => ih.more ih') (fun k _ ih => ih.one k) (fun k _ _ ih ih' => ih.more k ih') ts cmd h

theorem nulterminate_wrap : nulterminate (wrap rs cmd) = nulterminate cmd := by
  induction rs generalizing cmd with
  | nil => rfl
  | cons r rs ih => exact ih

theorem nulterminate_back (k : ℕ) : nulterminate (Cmd.back^[k] cmd) = nulterminate cmd := by
  induction k generalizing cmd with
  | zero => rfl
  | succ k ih => exact ih

/-- `nulterminate` stays inside `argv` for the commands of the grammar. -/
theorem Line.nulterminate (h : Line ts cmd) : nulterminate cmd = .ok () := by
  refine @Line.rec (fun _ cmd _ => Shell.nulterminate cmd = .ok ()) (fun _ cmd _ => Shell.nulterminate cmd = .ok ())
    (fun _ cmd _ => Shell.nulterminate cmd = .ok ()) ?_ ?_ ?_ ?_ ?_ ?_ ts cmd h
  · intro _ _ _ _ _ _ ih
    rw [nulterminate_wrap, ih]
  · intro _ _ ws _ _ _ _ hlen
    rw [nulterminate_wrap, Shell.nulterminate, if_neg]
    simp only [MAXARGS] at hlen ⊢
    omega
  · intro _ _ _ ih
    exact ih
  · intro _ _ _ _ _ _ ih ih'
    rw [Shell.nulterminate, ih]
    exact ih'
  · intro _ _ k _ ih
    rw [nulterminate_back, ih]
  · intro _ _ _ _ k _ _ ih ih'
    rw [Shell.nulterminate, nulterminate_back, ih]
    exact ih'

end

/-! ## `parsecmd` -/

theorem parsecmd_reads (hn : 4 * (tokens (line s)).length + 4 ≤ n) : match parsecmd n s with
    | .error e => e ≠ .fuel ∧ e ≠ .overrun
    | .ok cmd => Line (tokens (line s)) cmd := by
  unfold parsecmd
  rcases ((allRead n).line (line s) hn).result with ⟨e, hres, he⟩ | ⟨cmd, s', ts, hres, hts, hg⟩
  · rw [hres]
    exact he
  · rw [hres]
    dsimp only
    -- at the end of the line, the tokens that were read are all of its tokens
    by_cases hend : (peek s' []).2 = []
    · rw [if_pos hend, hg.nulterminate]
      rw [peek_eq_nil.mp hend, append_nil] at hts
      rw [hts]
      exact hg
    · rw [if_neg hend]
      exact ⟨nofun, nofun⟩

theorem Line.parsecmd {cmd : Cmd} (h : Line (tokens (line s)) cmd)
    (hn : 4 * (tokens (line s)).length + 4 ≤ n) : parsecmd n s = .ok cmd := by
  obtain ⟨s', hres, hs'⟩ := h.parses hn (append_nil _).symm (.inl rfl)
  unfold Shell.parsecmd
  rw [hres]
  dsimp only
  rw [if_pos (peek_eq_nil.mpr hs'), h.nulterminate]

/-- The parser, given fuel for each token, returns the commands of the grammar and ends in a panic for every other line. It
never uses an index of `argv` or `eargv` that is not below `MAXARGS`. -/
theorem parsecmd_iff_line (s : List UInt8) : ∀ n ≥ 4 * (tokens (line s)).length + 4,
    (∀ cmd, parsecmd n s = .ok cmd ↔ Line (tokens (line s)) cmd) ∧
      ((∀ cmd, ¬ Line (tokens (line s)) cmd) → ∃ e, parsecmd n s = .error e ∧ e ≠ .fuel ∧ e ≠ .overrun) ∧
      parsecmd n s ≠ .error .fuel ∧ parsecmd n s ≠ .error .overrun := by
  intro n hn
  have hreads := parsecmd_reads hn
  refine ⟨fun cmd => ⟨fun hres => ?_, fun hg => hg.parsecmd hn⟩, fun hno => ?_, fun hres => ?_, fun hres => ?_⟩
  · rw [hres] at hreads
    exact hreads
  · cases hres : parsecmd n s with
    | error e =>
      rw [hres] at hreads
      exact ⟨e, rfl, hreads⟩
    | ok cmd =>
      rw [hres] at hreads
      exact absurd hreads (hno cmd)
  · rw [hres] at hreads
    exact hreads.1 rfl
  · rw [hres] at hreads
    exact hreads.2 rfl

/-- The line `ls &`. -/
def lsLine : List UInt8 := [108, 115, 32, 38, 0]

theorem tokens_lsLine : tokens (line lsLine) = [.word [108, 115], .sym AMP] := by
  have hline : line lsLine = [108, 115, 32, 38] := by decide
  rw [hline, tokens_some (t := .word [108, 115]) (r := [32, 38]) (by decide), tokens_some (t := .sym AMP) (r := []) (by decide),
    tokens_none (by decide)]

theorem parsecmd_lsLine : parsecmd 12 lsLine = .ok (.back (.exec [[108, 115]])) ∧
    Line (tokens (line lsLine)) (.back (.exec [[108, 115]])) := by
  have hres : parsecmd 12 lsLine = .ok (.back (.exec [[108, 115]])) := rfl
  have hfuel : 12 ≥ 4 * (tokens (line lsLine)).length + 4 := by
    rw [tokens_lsLine]
    decide
  exact ⟨hres, ((parsecmd_iff_line lsLine 12 hfuel).1 _).mp hres⟩

end Shell

end Xv6
