import Mathlib.Data.List.TakeWhile
import Xv6.Shell.Grammar

/-!
# The strings of a command

The parser does not copy a word: it keeps a pointer `q` to its first byte and a pointer `eq` behind its last byte, both into
the line that has been read, and `nulterminate` stores a NUL at each `eq` when the whole line has been parsed. This is
the parser with the pointers. Up to the pointers it is the parser of `Xv6.Shell.Parse`.

A pointer is what is left of the line from it on.
-/

namespace Xv6

open List

namespace Shell

/-- The two pointers of a word. -/
structure Str where
  q : List UInt8
  eq : List UInt8
deriving DecidableEq

/-- The bytes from `q` to `eq`. -/
def Str.text (w : Str) : List UInt8 := w.q.take (w.q.length - w.eq.length)

/-- What `gettoken` stores in `*q` and `*eq`. -/
def bounds (s : List UInt8) : Str := ⟨skip s, ((scan (skip s)).map Prod.snd).getD []⟩

namespace Ptr

/-- What a `redircmd` has besides its command. -/
structure Redir where
  file : Str
  mode : BitVec 32
  fd : ℕ
deriving DecidableEq

/-- `struct cmd`. -/
inductive Cmd where
  | exec (argv : List Str)
  | redir (cmd : Cmd) (r : Redir)
  | pipe (left right : Cmd)
  | list (left right : Cmd)
  | back (cmd : Cmd)
deriving DecidableEq

/-- The redirection for a token, if it is one. -/
def redirOf (w : Str) : Tok → List Redir
  | .sym c => if c = LT then [⟨w, O_RDONLY, 0⟩] else if c = GT then [⟨w, O_WRONLY ||| O_CREATE, 1⟩] else []
  | .append => [⟨w, O_WRONLY ||| O_CREATE, 1⟩]
  | .word _ => []

def wrap (rs : List Redir) (cmd : Cmd) : Cmd := rs.foldl .redir cmd

def parseredirs : ℕ → List UInt8 → Parse (List Redir)
  | 0, _ => .error .fuel
  | n + 1, s =>
    let (more, s) := peek s [LT, GT]
    if more then
      let (tok, s) := gettoken s
      match gettoken s with
      | (some (.word _), s') =>
        match parseredirs n s' with
        | .error e => .error e
        | .ok (rs, s'') => .ok (tok.elim [] (redirOf (bounds s)) ++ rs, s'')
      | _ => .error .missingFile
    else .ok ([], s)

def parseargs : ℕ → (argc : ℕ) → List UInt8 → Parse (List Str × List Redir)
  | 0, _, _ => .error .fuel
  | n + 1, argc, s =>
    let (stop, s) := peek s [BAR, RPAREN, AMP, SEMI]
    if stop then if MAXARGS ≤ argc then .error .overrun else .ok (([], []), s)
    else
      match gettoken s with
      | (none, s') => if MAXARGS ≤ argc then .error .overrun else .ok (([], []), s')
      | (some (.word _), s') =>
        if MAXARGS ≤ argc then .error .overrun
        else if MAXARGS ≤ argc + 1 then .error .tooManyArgs
        else
          match parseredirs n s' with
          | .error e => .error e
          | .ok (rs, s'') =>
            match parseargs n (argc + 1) s'' with
            | .error e => .error e
            | .ok ((ws, rs'), s''') => .ok ((bounds s :: ws, rs ++ rs'), s''')
      | _ => .error .badSyntax

def parseback : ℕ → Cmd → List UInt8 → Parse Cmd
  | 0, _, _ => .error .fuel
  | n + 1, cmd, s =>
    let (more, s) := peek s [AMP]
    if more then
      let (_, s) := gettoken s
      parseback n (.back cmd) s
    else .ok (cmd, s)

mutual

def parseline : ℕ → List UInt8 → Parse Cmd
  | 0, _ => .error .fuel
  | n + 1, s =>
    match parsepipe n s with
    | .error e => .error e
    | .ok (cmd, s) =>
      match parseback n cmd s with
      | .error e => .error e
      | .ok (cmd, s) =>
        let (more, s) := peek s [SEMI]
        if more then
          let (_, s) := gettoken s
          match parseline n s with
          | .error e => .error e
          | .ok (cmd', s) => .ok (.list cmd cmd', s)
        else .ok (cmd, s)

def parsepipe : ℕ → List UInt8 → Parse Cmd
  | 0, _ => .error .fuel
  | n + 1, s =>
    match parseexec n s with
    | .error e => .error e
    | .ok (cmd, s) =>
      let (more, s) := peek s [BAR]
      if more then
        let (_, s) := gettoken s
        match parsepipe n s with
        | .error e => .error e
        | .ok (cmd', s) => .ok (.pipe cmd cmd', s)
      else .ok (cmd, s)

def parseexec : ℕ → List UInt8 → Parse Cmd
  | 0, _ => .error .fuel
  | n + 1, s =>
    let (block, s) := peek s [LPAREN]
    if block then parseblock n s
    else
      match parseredirs n s with
      | .error e => .error e
      | .ok (rs, s) =>
        match parseargs n 0 s with
        | .error e => .error e
        | .ok ((ws, rs'), s) => .ok (wrap (rs ++ rs') (.exec ws), s)

def parseblock : ℕ → List UInt8 → Parse Cmd
  | 0, _ => .error .fuel
  | n + 1, s =>
    let (block, s) := peek s [LPAREN]
    if block then
      let (_, s) := gettoken s
      match parseline n s with
      | .error e => .error e
      | .ok (cmd, s) =>
        let (close, s) := peek s [RPAREN]
        if close then
          let (_, s) := gettoken s
          match parseredirs n s with
          | .error e => .error e
          | .ok (rs, s) => .ok (wrap rs cmd, s)
        else .error .missingParen
    else .error .parseblock

end

/-- The address of a pointer in the memory that starts with a line of `len` bytes. -/
def addr (len : ℕ) (p : List UInt8) : ℕ := len - p.length

/-- `nulterminate`, on the memory that starts with a line of `len` bytes. -/
def nulterminate (len : ℕ) : Cmd → List UInt8 → Except Err (List UInt8)
  | .exec argv, mem =>
    if MAXARGS ≤ argv.length then .error .overrun
    else .ok (argv.foldl (fun mem w => mem.set (addr len w.eq) 0) mem)
  | .redir cmd r, mem => (nulterminate len cmd mem).map fun mem => mem.set (addr len r.file.eq) 0
  | .pipe left right, mem => nulterminate len left mem >>= nulterminate len right
  | .list left right, mem => nulterminate len left mem >>= nulterminate len right
  | .back cmd, mem => nulterminate len cmd mem

/-- `parsecmd`, with fuel: the command, and the memory that had the line at its beginning. -/
def parsecmd (n : ℕ) (mem : List UInt8) : Except Err (Cmd × List UInt8) :=
  match parseline n (line mem) with
  | .error e => .error e
  | .ok (cmd, s) =>
    if (peek s []).2 = [] then
      match nulterminate (line mem).length cmd mem with
      | .error e => .error e
      | .ok mem => .ok (cmd, mem)
    else .error .leftovers

/-! ## The texts instead of the pointers -/

def Redir.erase (r : Redir) : Shell.Redir := ⟨r.file.text, r.mode, r.fd⟩

def Cmd.erase : Cmd → Shell.Cmd
  | .exec argv => .exec (argv.map Str.text)
  | .redir cmd r => .redir cmd.erase r.erase
  | .pipe left right => .pipe left.erase right.erase
  | .list left right => .list left.erase right.erase
  | .back cmd => .back cmd.erase

/-- The strings of a command, in the order in which `nulterminate` comes to them. -/
def Cmd.strs : Cmd → List Str
  | .exec argv => argv
  | .redir cmd r => cmd.strs ++ [r.file]
  | .pipe left right => left.strs ++ right.strs
  | .list left right => left.strs ++ right.strs
  | .back cmd => cmd.strs

theorem wrap_erase (rs : List Redir) (cmd : Cmd) : (wrap rs cmd).erase = Shell.wrap (rs.map Redir.erase) cmd.erase := by
  induction rs generalizing cmd with
  | nil => rfl
  | cons r rs ih => exact ih (.redir cmd r)

theorem wrap_strs (rs : List Redir) (cmd : Cmd) : (wrap rs cmd).strs = cmd.strs ++ rs.map Redir.file := by
  induction rs generalizing cmd with
  | nil => exact (append_nil _).symm
  | cons r rs ih =>
    have hrest := ih (.redir cmd r)
    rw [Cmd.strs, append_assoc] at hrest
    exact hrest

theorem redirOf_erase (w : Str) (t : Tok) : (redirOf w t).map Redir.erase = Shell.redirOf w.text t := by
  cases t with
  | sym c =>
    simp only [redirOf, Shell.redirOf]
    split_ifs <;> rfl
  | append => rfl
  | word w => rfl

theorem redirOf_file {w : Str} {t : Tok} {r : Redir} (h : r ∈ redirOf w t) : r.file = w := by
  cases t with
  | sym c =>
    simp only [redirOf] at h
    split_ifs at h
    · rw [mem_singleton.mp h]
    · rw [mem_singleton.mp h]
    · exact absurd h not_mem_nil
  | append => rw [mem_singleton.mp h]
  | word w => exact absurd h not_mem_nil

/-! ## Words in the line -/

/-- The pointers are those of a word in the line `l`, as long as it can be. -/
structure WordIn (l : List UInt8) (w : Str) : Prop where
  suffix : w.q <:+ l
  text : w.text = w.q.takeWhile isWord
  eq : w.eq = w.q.dropWhile isWord
  nonempty : w.text ≠ []

theorem skip_suffix (s : List UInt8) : skip s <:+ s := dropWhile_suffix _

theorem scan_suffix {s r : List UInt8} {t : Tok} (h : scan s = some (t, r)) : r <:+ s := by
  cases s with
  | nil => nomatch h
  | cons c s =>
    simp only [scan] at h
    split_ifs at h
    · obtain ⟨-, rfl⟩ := Prod.mk.inj (Option.some.inj h)
      exact (tail_suffix _).trans (suffix_cons ..)
    · obtain ⟨-, rfl⟩ := Prod.mk.inj (Option.some.inj h)
      exact suffix_cons ..
    · obtain ⟨-, rfl⟩ := Prod.mk.inj (Option.some.inj h)
      exact suffix_cons ..
    · obtain ⟨-, rfl⟩ := Prod.mk.inj (Option.some.inj h)
      exact dropWhile_suffix _

theorem next_suffix (s : List UInt8) : next s <:+ s := by
  unfold next gettoken
  cases h : scan (skip s) with
  | none => exact nil_suffix
  | some p => exact (skip_suffix _).trans ((scan_suffix h).trans (skip_suffix s))

/-- A word that `gettoken` finds. -/
theorem gettoken_word {l s w : List UInt8} {s' : List UInt8} (h : gettoken s = (some (.word w), s')) (hs : s <:+ l) :
    WordIn l (bounds s) ∧ (bounds s).text = w := by
  unfold gettoken at h
  cases hscan : scan (skip s) with
  | none =>
    rw [hscan] at h
    exact absurd (congrArg Prod.fst h) (by simp)
  | some p =>
    obtain ⟨t, r⟩ := p
    rw [hscan] at h
    obtain rfl := Option.some.inj (congrArg Prod.fst h)
    cases hskip : skip s with
    | nil =>
      rw [hskip] at hscan
      cases hscan
    | cons c q =>
      have hbounds : bounds s = ⟨c :: q, r⟩ := by rw [bounds, hscan, hskip]; rfl
      rw [hskip] at hscan
      simp only [scan] at hscan
      split_ifs at hscan with hgt happ hsym
      · exact absurd (congrArg Prod.fst (Option.some.inj hscan)) (by simp)
      · exact absurd (congrArg Prod.fst (Option.some.inj hscan)) (by simp)
      · exact absurd (congrArg Prod.fst (Option.some.inj hscan)) (by simp)
      · obtain ⟨hw, rfl⟩ := Prod.mk.inj (Option.some.inj hscan)
        obtain rfl := Tok.word.inj hw
        have hword : isWord c = true := by simp [isWord, skip_cons hskip, hsym]
        have htext : (bounds s).text = (c :: q).takeWhile isWord := by
          have hlen := congrArg List.length (takeWhile_append_dropWhile (p := isWord) (l := c :: q))
          rw [length_append] at hlen
          rw [hbounds, Str.text]
          dsimp only
          rw [← hlen, Nat.add_sub_cancel]
          exact (List.prefix_iff_eq_take.mp (List.takeWhile_prefix _)).symm
        refine ⟨⟨?_, ?_, ?_, ?_⟩, htext⟩
        · rw [hbounds, ← hskip]
          exact (skip_suffix s).trans hs
        · rw [htext, hbounds]
        · rw [hbounds]
        · rw [htext, takeWhile_cons, if_pos hword]
          exact cons_ne_nil _ _

/-! ## The two parsers -/

/-- The parser with the pointers returns what the other one returns, and its strings are words in the line. -/
def Sim {α β : Type} (l : List UInt8) (f : α → β) (strs : α → List Str) (y : Parse β) : Parse α → Prop
  | .error e => y = .error e
  | .ok (a, s) => y = .ok (f a, s) ∧ s <:+ l ∧ ∀ w ∈ strs a, WordIn l w

section

variable {α β : Type} {l : List UInt8} {f : α → β} {strs : α → List Str} {x : Parse α} {y : Parse β}

theorem Sim.result (h : Sim l f strs y x) : (∃ e, x = .error e ∧ y = .error e) ∨
    ∃ a s, x = .ok (a, s) ∧ y = .ok (f a, s) ∧ s <:+ l ∧ ∀ w ∈ strs a, WordIn l w := by
  cases x with
  | error e => exact .inl ⟨e, rfl, h⟩
  | ok p => exact .inr ⟨p.1, p.2, rfl, h⟩

theorem parseredirs_sim (n : ℕ) {s : List UInt8} (hs : s <:+ l) :
    Sim l (List.map Redir.erase) (List.map Redir.file) (Shell.parseredirs n s) (parseredirs n s) := by
  induction n generalizing s with
  | zero => rfl
  | succ n ih =>
    rw [parseredirs, Shell.parseredirs, peek_redir]
    cases starts [LT, GT] (tokens s) with
    | false => exact ⟨rfl, (skip_suffix s).trans hs, by simp⟩
    | true =>
      simp only [if_true, gettoken_skip]
      have hnext : next s <:+ l := (next_suffix s).trans hs
      have hnext' : next (next s) <:+ l := (next_suffix _).trans hnext
      cases hg : gettoken (gettoken s).2 with
      | mk t s' =>
        unfold next at hnext'
        rw [hg] at hnext'
        rcases t with _ | _ | _ | w
        · rfl
        · rfl
        · rfl
        · obtain ⟨hword, rfl⟩ := gettoken_word hg hnext
          dsimp only
          rcases (ih hnext').result with ⟨e, hx, hy⟩ | ⟨rs, s'', hx, hy, hs'', hstrs⟩
          · rw [hx, hy]
            rfl
          · rw [hx, hy]
            refine ⟨?_, hs'', fun w hw => ?_⟩
            · cases (gettoken s).1 with
              | none => rfl
              | some t =>
                simp only [Option.elim_some, map_append, redirOf_erase]
            · rw [map_append, mem_append] at hw
              rcases hw with hw | hw
              · obtain ⟨r, hr, rfl⟩ := mem_map.mp hw
                cases ht : (gettoken s).1 with
                | none =>
                  rw [ht] at hr
                  exact absurd hr not_mem_nil
                | some t =>
                  rw [ht] at hr
                  rw [redirOf_file hr]
                  exact hword
              · exact hstrs w hw

theorem parseargs_sim (n argc : ℕ) {s : List UInt8} (hs : s <:+ l) :
    Sim l (fun p => (p.1.map Str.text, p.2.map Redir.erase)) (fun p => p.1 ++ p.2.map Redir.file)
      (Shell.parseargs n argc s) (parseargs n argc s) := by
  induction n generalizing s argc with
  | zero => rfl
  | succ n ih =>
    have hskip : skip s <:+ l := (skip_suffix s).trans hs
    rw [parseargs, Shell.parseargs, peek_stop]
    cases starts [BAR, RPAREN, AMP, SEMI] (tokens s) with
    | true =>
      simp only [if_true]
      by_cases hmax : MAXARGS ≤ argc
      · rw [if_pos hmax, if_pos hmax]
        rfl
      · rw [if_neg hmax, if_neg hmax]
        exact ⟨rfl, hskip, nofun⟩
    | false =>
      simp only [Bool.false_eq_true, if_false]
      have hnext : next (skip s) <:+ l := (next_suffix _).trans hskip
      cases hg : gettoken (skip s) with
      | mk t s' =>
        unfold next at hnext
        rw [hg] at hnext
        match t with
        | none =>
          dsimp only
          by_cases hmax : MAXARGS ≤ argc
          · rw [if_pos hmax, if_pos hmax]
            rfl
          · rw [if_neg hmax, if_neg hmax]
            exact ⟨rfl, hnext, nofun⟩
        | some (.sym c) => rfl
        | some .append => rfl
        | some (.word w) =>
          obtain ⟨hword, rfl⟩ := gettoken_word hg hskip
          dsimp only
          by_cases hmax : MAXARGS ≤ argc
          · rw [if_pos hmax, if_pos hmax]
            rfl
          rw [if_neg hmax, if_neg hmax]
          by_cases hmax' : MAXARGS ≤ argc + 1
          · rw [if_pos hmax', if_pos hmax']
            rfl
          rw [if_neg hmax', if_neg hmax']
          rcases (parseredirs_sim n hnext).result with ⟨e, hx, hy⟩ | ⟨rs, s1, hx, hy, hs1, hstrs⟩
          · rw [hx, hy]
            rfl
          rw [hx, hy]
          dsimp only
          rcases (ih (argc + 1) hs1).result with ⟨e, hx', hy'⟩ | ⟨⟨ws, rs'⟩, s2, hx', hy', hs2, hstrs'⟩
          · rw [hx', hy']
            rfl
          · rw [hx', hy']
            refine ⟨?_, hs2, fun w hw => ?_⟩
            · simp only [map_cons, map_append]
            · simp only [map_append, cons_append, mem_cons, mem_append] at hw hstrs'
              rcases hw with rfl | hw | hw | hw
              · exact hword
              · exact hstrs' w (.inl hw)
              · exact hstrs w hw
              · exact hstrs' w (.inr hw)

theorem parseback_sim (n : ℕ) (cmd : Cmd) {s : List UInt8} (hs : s <:+ l) (hcmd : ∀ w ∈ cmd.strs, WordIn l w) :
    Sim l Cmd.erase Cmd.strs (Shell.parseback n cmd.erase s) (parseback n cmd s) := by
  induction n generalizing s cmd with
  | zero => rfl
  | succ n ih =>
    rw [parseback, Shell.parseback, peek_amp]
    cases starts [AMP] (tokens s) with
    | false => exact ⟨rfl, (skip_suffix s).trans hs, hcmd⟩
    | true =>
      simp only [if_true, gettoken_skip]
      exact ih (.back cmd) ((next_suffix s).trans hs) hcmd

end

/-- The four functions with fuel `n`. -/
structure AllSim (n : ℕ) : Prop where
  line : ∀ {l s}, s <:+ l → Sim l Cmd.erase Cmd.strs (Shell.parseline n s) (parseline n s)
  pipe : ∀ {l s}, s <:+ l → Sim l Cmd.erase Cmd.strs (Shell.parsepipe n s) (parsepipe n s)
  exec : ∀ {l s}, s <:+ l → Sim l Cmd.erase Cmd.strs (Shell.parseexec n s) (parseexec n s)
  block : ∀ {l s}, s <:+ l → Sim l Cmd.erase Cmd.strs (Shell.parseblock n s) (parseblock n s)

section

variable {n : ℕ} {l s : List UInt8}

theorem strs_both {left right : Cmd} (h : ∀ w ∈ left.strs, WordIn l w) (h' : ∀ w ∈ right.strs, WordIn l w) :
    ∀ w ∈ left.strs ++ right.strs, WordIn l w := by
  intro w hw
  exact (mem_append.mp hw).elim (h w) (h' w)

theorem strs_wrap {cmd : Cmd} {rs : List Redir} (h : ∀ w ∈ cmd.strs, WordIn l w)
    (h' : ∀ w ∈ rs.map Redir.file, WordIn l w) : ∀ w ∈ (wrap rs cmd).strs, WordIn l w := by
  intro w hw
  rw [wrap_strs] at hw
  exact (mem_append.mp hw).elim (h w) (h' w)

theorem AllSim.parseline (ih : AllSim n) (hs : s <:+ l) :
    Sim l Cmd.erase Cmd.strs (Shell.parseline (n + 1) s) (Ptr.parseline (n + 1) s) := by
  rw [Ptr.parseline, Shell.parseline]
  rcases (ih.pipe hs).result with ⟨e, hx, hy⟩ | ⟨cmd, s1, hx, hy, hs1, hstrs⟩
  · rw [hx, hy]
    rfl
  rw [hx, hy]
  dsimp only
  rcases (parseback_sim n cmd hs1 hstrs).result with ⟨e, hx, hy⟩ | ⟨cmd1, s2, hx, hy, hs2, hstrs1⟩
  · rw [hx, hy]
    rfl
  rw [hx, hy]
  dsimp only
  rw [peek_semi]
  cases starts [SEMI] (tokens s2) with
  | false => exact ⟨rfl, (skip_suffix _).trans hs2, hstrs1⟩
  | true =>
    simp only [if_true, gettoken_skip]
    rcases (ih.line ((next_suffix s2).trans hs2)).result with ⟨e, hx, hy⟩ | ⟨cmd2, s3, hx, hy, hs3, hstrs2⟩
    · rw [hx, hy]
      rfl
    · rw [hx, hy]
      exact ⟨rfl, hs3, strs_both hstrs1 hstrs2⟩

theorem AllSim.parsepipe (ih : AllSim n) (hs : s <:+ l) :
    Sim l Cmd.erase Cmd.strs (Shell.parsepipe (n + 1) s) (Ptr.parsepipe (n + 1) s) := by
  rw [Ptr.parsepipe, Shell.parsepipe]
  rcases (ih.exec hs).result with ⟨e, hx, hy⟩ | ⟨cmd, s1, hx, hy, hs1, hstrs⟩
  · rw [hx, hy]
    rfl
  rw [hx, hy]
  dsimp only
  rw [peek_bar]
  cases starts [BAR] (tokens s1) with
  | false => exact ⟨rfl, (skip_suffix _).trans hs1, hstrs⟩
  | true =>
    simp only [if_true, gettoken_skip]
    rcases (ih.pipe ((next_suffix s1).trans hs1)).result with ⟨e, hx, hy⟩ | ⟨cmd1, s2, hx, hy, hs2, hstrs1⟩
    · rw [hx, hy]
      rfl
    · rw [hx, hy]
      exact ⟨rfl, hs2, strs_both hstrs hstrs1⟩

theorem AllSim.parseexec (ih : AllSim n) (hs : s <:+ l) :
    Sim l Cmd.erase Cmd.strs (Shell.parseexec (n + 1) s) (Ptr.parseexec (n + 1) s) := by
  have hskip : skip s <:+ l := (skip_suffix s).trans hs
  rw [Ptr.parseexec, Shell.parseexec, peek_lparen]
  cases starts [LPAREN] (tokens s) with
  | true => exact ih.block hskip
  | false =>
    simp only [Bool.false_eq_true, if_false]
    rcases (parseredirs_sim n hskip).result with ⟨e, hx, hy⟩ | ⟨rs, s1, hx, hy, hs1, hstrs⟩
    · rw [hx, hy]
      rfl
    rw [hx, hy]
    dsimp only
    rcases (parseargs_sim n 0 hs1).result with ⟨e, hx, hy⟩ | ⟨⟨ws, rs'⟩, s2, hx, hy, hs2, hstrs1⟩
    · rw [hx, hy]
      rfl
    · rw [hx, hy]
      refine ⟨?_, hs2, strs_wrap (fun w hw => ?_) fun w hw => ?_⟩
      · dsimp only
        rw [wrap_erase, map_append]
        rfl
      · exact hstrs1 w (mem_append_left _ hw)
      · rw [map_append, mem_append] at hw
        exact hw.elim (hstrs w) fun hw => hstrs1 w (mem_append_right _ hw)

theorem AllSim.parseblock (ih : AllSim n) (hs : s <:+ l) :
    Sim l Cmd.erase Cmd.strs (Shell.parseblock (n + 1) s) (Ptr.parseblock (n + 1) s) := by
  rw [Ptr.parseblock, Shell.parseblock, peek_lparen]
  cases starts [LPAREN] (tokens s) with
  | false => rfl
  | true =>
    simp only [if_true, gettoken_skip]
    rcases (ih.line ((next_suffix s).trans hs)).result with ⟨e, hx, hy⟩ | ⟨cmd, s1, hx, hy, hs1, hstrs⟩
    · rw [hx, hy]
      rfl
    rw [hx, hy]
    dsimp only
    rw [peek_rparen]
    cases starts [RPAREN] (tokens s1) with
    | false => rfl
    | true =>
      simp only [if_true, gettoken_skip]
      rcases (parseredirs_sim n ((next_suffix s1).trans hs1)).result with ⟨e, hx, hy⟩ | ⟨rs, s2, hx, hy, hs2, hstrs1⟩
      · rw [hx, hy]
        rfl
      · rw [hx, hy]
        refine ⟨?_, hs2, strs_wrap hstrs hstrs1⟩
        dsimp only
        rw [wrap_erase]

theorem allSim (n : ℕ) : AllSim n := by
  induction n with
  | zero => exact ⟨fun _ => rfl, fun _ => rfl, fun _ => rfl, fun _ => rfl⟩
  | succ n ih => exact ⟨ih.parseline, ih.parsepipe, ih.parseexec, ih.parseblock⟩

end

/-! ## The stores of `nulterminate` -/

/-- A NUL is stored at each of the addresses. -/
def stores (as : List ℕ) (mem : List UInt8) : List UInt8 := as.foldl (fun mem a => mem.set a 0) mem

theorem stores_getElem? (as : List ℕ) (mem : List UInt8) (i : ℕ) :
    (stores as mem)[i]? = if i ∈ as then mem[i]?.map fun _ => 0 else mem[i]? := by
  induction as generalizing mem with
  | nil => rfl
  | cons a as ih =>
    rw [stores, foldl_cons]
    refine (ih (mem.set a 0)).trans ?_
    rw [getElem?_set']
    by_cases hia : a = i
    · subst hia
      cases mem[a]? <;> simp
    · have hia' : i ≠ a := Ne.symm hia
      simp [hia, hia']

/-- The addresses behind the strings. -/
def ends (len : ℕ) (cmd : Cmd) : List ℕ := cmd.strs.map fun w => addr len w.eq

theorem stores_append (as bs : List ℕ) (mem : List UInt8) : stores (as ++ bs) mem = stores bs (stores as mem) :=
  foldl_append

theorem nulterminate_both {len : ℕ} {left right : Cmd} {mem : List UInt8}
    (hl : ∀ mem, nulterminate len left mem = .ok (stores (ends len left) mem))
    (hr : ∀ mem, nulterminate len right mem = .ok (stores (ends len right) mem)) :
    nulterminate len left mem >>= nulterminate len right = .ok (stores (ends len (.list left right)) mem) := by
  have hends : ends len (.list left right) = ends len left ++ ends len right := map_append
  rw [hl, hends, stores_append]
  exact hr _

theorem nulterminate_eq {len : ℕ} {cmd : Cmd} (h : Shell.nulterminate cmd.erase = .ok ()) (mem : List UInt8) :
    nulterminate len cmd mem = .ok (stores (ends len cmd) mem) := by
  have hboth : ∀ {x y : Except Err Unit}, (x >>= fun _ => y) = .ok () → x = .ok () ∧ y = .ok () := by
    intro x y hxy
    cases x with
    | error e => nomatch hxy
    | ok u => exact ⟨rfl, hxy⟩
  induction cmd generalizing mem with
  | exec argv =>
    rw [Cmd.erase, Shell.nulterminate, length_map] at h
    rw [nulterminate, ends, stores, Cmd.strs, foldl_map]
    split_ifs at h ⊢
    rfl
  | redir cmd r ih =>
    have hends : ends len (.redir cmd r) = ends len cmd ++ [addr len r.file.eq] := map_append
    rw [nulterminate, ih h, hends, stores_append]
    rfl
  | pipe left right ihl ihr => exact nulterminate_both (ihl (hboth h).1) (ihr (hboth h).2)
  | list left right ihl ihr => exact nulterminate_both (ihl (hboth h).1) (ihr (hboth h).2)
  | back cmd ih => exact ih h mem

/-! ## The strings after the stores -/

section

variable {l mem : List UInt8} {w w' : Str}

/-- Where the word is in the line. -/
theorem WordIn.decompose (h : WordIn l w) : ∃ pre, l = pre ++ (w.text ++ w.eq) ∧ addr l.length w.q = pre.length ∧
    addr l.length w.eq = pre.length + w.text.length := by
  obtain ⟨pre, hpre⟩ := h.suffix
  have hq : w.text ++ w.eq = w.q := by
    rw [h.text, h.eq, takeWhile_append_dropWhile]
  have hlen : l.length = pre.length + (w.text.length + w.eq.length) := by
    rw [← hpre, ← hq, length_append, length_append]
  refine ⟨pre, by rw [hq, hpre], ?_, ?_⟩
  · rw [addr, ← hq, hlen, length_append, Nat.add_sub_cancel]
  · rw [addr, hlen, ← Nat.add_assoc, Nat.add_sub_cancel]

theorem WordIn.byte (h : WordIn l w) {j : ℕ} (hj : j < w.text.length) :
    ∃ c, l[addr l.length w.q + j]? = some c ∧ w.text[j]? = some c ∧ isWord c = true := by
  obtain ⟨pre, hl, haddr, -⟩ := h.decompose
  refine ⟨w.text[j], ?_, getElem?_eq_getElem hj, ?_⟩
  · rw [haddr, hl, getElem?_append_right (Nat.le_add_right ..), Nat.add_sub_cancel_left,
      getElem?_append_left hj, getElem?_eq_getElem hj]
  · have hmem : w.text[j] ∈ w.q.takeWhile isWord := h.text ▸ getElem_mem hj
    exact mem_takeWhile_imp hmem

/-- A word does not go on at its end. -/
theorem WordIn.byte_end (h : WordIn l w) : ∀ c, l[addr l.length w.eq]? = some c → isWord c = false := by
  intro c hc
  obtain ⟨pre, hl, -, haddr⟩ := h.decompose
  rw [haddr, hl, ← append_assoc, ← length_append, getElem?_append_right le_rfl, Nat.sub_self] at hc
  have hhead : w.eq.head? = some c := by
    rw [← hc, head?_eq_getElem?]
  rw [h.eq] at hhead
  have hnot := head?_dropWhile_not isWord w.q
  rw [hhead] at hnot
  simpa using hnot

/-- No NUL is stored in a word. -/
theorem WordIn.not_end (h : WordIn l w) (h' : WordIn l w') {j : ℕ} (hj : j < w.text.length) :
    addr l.length w.q + j ≠ addr l.length w'.eq := by
  intro heq
  obtain ⟨c, hc, -, hword⟩ := h.byte hj
  rw [heq] at hc
  exact absurd (h'.byte_end c hc) (by simp [hword])

theorem line_append (mem : List UInt8) : ∃ rest, mem = line mem ++ rest ∧ (rest = [] ∨ ∃ r, rest = 0 :: r) := by
  refine ⟨mem.dropWhile (· ≠ 0), takeWhile_append_dropWhile.symm, ?_⟩
  cases hrest : mem.dropWhile (· ≠ 0) with
  | nil => exact .inl rfl
  | cons c r =>
    have hnot := head?_dropWhile_not (fun c : UInt8 => decide (c ≠ 0)) mem
    rw [hrest] at hnot
    refine .inr ⟨r, ?_⟩
    have hc : c = 0 := by simpa using hnot
    rw [hc]

/-- The string `t` is at the beginning of the memory. -/
theorem line_eq_of_getElem? {mem t : List UInt8} (h : ∀ j < t.length, mem[j]? = t[j]?)
    (hend : ∀ c, mem[t.length]? = some c → c = 0) (h0 : 0 ∉ t) : line mem = t := by
  induction t generalizing mem with
  | nil =>
    cases mem with
    | nil => rfl
    | cons c mem =>
      rw [hend c rfl]
      rfl
  | cons c t ih =>
    rw [mem_cons, not_or] at h0
    cases mem with
    | nil => exact absurd (h 0 (Nat.succ_pos _)) nofun
    | cons a mem =>
      obtain rfl : a = c := Option.some.inj (h 0 (Nat.succ_pos _))
      have hrest : line mem = t := ih (fun j hj => h (j + 1) (Nat.succ_lt_succ hj)) hend h0.2
      rw [line, takeWhile_cons, if_pos (by simpa using Ne.symm h0.1)]
      exact congrArg _ hrest

/-- The words as strings, once there is a NUL at the end of each of them. -/
theorem line_stores {as : List ℕ} (h : WordIn (line mem) w)
    (has : ∀ a ∈ as, ∃ w', WordIn (line mem) w' ∧ a = addr (line mem).length w'.eq)
    (hmem : addr (line mem).length w.eq ∈ as) : line ((stores as mem).drop (addr (line mem).length w.q)) = w.text := by
  obtain ⟨pre, hl, haddr, hend⟩ := h.decompose
  obtain ⟨rest, hrest, -⟩ := line_append mem
  refine line_eq_of_getElem? (fun j hj => ?_) (fun c hc => ?_) ?_
  · obtain ⟨c, hc, htext, -⟩ := h.byte hj
    have hlt : addr (line mem).length w.q + j < (line mem).length := (List.getElem?_eq_some_iff.mp hc).1
    rw [getElem?_drop, stores_getElem?, if_neg, htext, ← hc]
    · nth_rewrite 1 [hrest]
      exact getElem?_append_left hlt
    · intro hin
      obtain ⟨w', hw', heq⟩ := has _ hin
      exact h.not_end hw' hj heq
  · rw [getElem?_drop, haddr, ← hend, stores_getElem?, if_pos hmem] at hc
    obtain ⟨-, -, rfl⟩ := Option.map_eq_some_iff.mp hc
    rfl
  · intro h0
    have hin : (0 : UInt8) ∈ line mem := by
      rw [hl]
      exact mem_append_right _ (mem_append_left _ h0)
    have hne := mem_takeWhile_imp hin
    exact absurd hne (by decide)

end

/-- After `nulterminate`, each string of the command is the word that `gettoken` found, and no NUL has been stored inside of a
word. -/
theorem nulterminate_words (n : ℕ) (mem : List UInt8) (c : Shell.Cmd) (h : Shell.parsecmd n mem = .ok c) :
    ∃ cmd mem', parsecmd n mem = .ok (cmd, mem') ∧ cmd.erase = c ∧
      (∀ w ∈ cmd.strs, WordIn (line mem) w ∧ line (mem'.drop (addr (line mem).length w.q)) = w.text) ∧
      ∀ w ∈ cmd.strs, ∀ w' ∈ cmd.strs, ∀ a, addr (line mem).length w.q ≤ a → a < addr (line mem).length w.eq →
        a ≠ addr (line mem).length w'.eq := by
  unfold Shell.parsecmd at h
  rcases ((allSim n).line (suffix_refl (line mem))).result with ⟨e, hx, hy⟩ | ⟨cmd, s, hx, hy, hs, hstrs⟩
  · rw [hy] at h
    nomatch h
  rw [hy] at h
  dsimp only at h
  by_cases hend : (peek s []).2 = []
  · rw [if_pos hend] at h
    cases hnul : Shell.nulterminate cmd.erase with
    | error e =>
      rw [hnul] at h
      nomatch h
    | ok u =>
      rw [hnul] at h
      have hmem : nulterminate (line mem).length cmd mem = .ok _ := nulterminate_eq hnul mem
      refine ⟨cmd, stores (ends (line mem).length cmd) mem, ?_, Except.ok.inj h, fun w hw => ⟨hstrs w hw, ?_⟩,
        fun w hw w' hw' a hge hlt => ?_⟩
      · unfold parsecmd
        rw [hx]
        dsimp only
        rw [if_pos hend, hmem]
      · refine line_stores (hstrs w hw) (fun a ha => ?_) (mem_map_of_mem hw)
        obtain ⟨w', hw', rfl⟩ := mem_map.mp ha
        exact ⟨w', hstrs w' hw', rfl⟩
      · obtain ⟨pre, -, haddr, haddr'⟩ := (hstrs w hw).decompose
        obtain ⟨j, rfl⟩ := Nat.exists_eq_add_of_le hge
        exact (hstrs w hw).not_end (hstrs w' hw') (by omega)
  · rw [if_neg hend] at h
    nomatch h

/-- `ls>a`, with nothing between the words and the symbol. -/
def tightLine : List UInt8 := [108, 115, 62, 97, 0]

theorem nulterminate_tightLine : ∃ cmd mem', parsecmd 20 tightLine = .ok (cmd, mem') ∧
    cmd.erase = .redir (.exec [[108, 115]]) ⟨[97], O_WRONLY ||| O_CREATE, 1⟩ ∧
      ∀ w ∈ cmd.strs, line (mem'.drop (addr (line tightLine).length w.q)) = w.text := by
  obtain ⟨cmd, mem', hrun, herase, hwords, -⟩ := nulterminate_words 20 tightLine
    (.redir (.exec [[108, 115]]) ⟨[97], O_WRONLY ||| O_CREATE, 1⟩) rfl
  exact ⟨cmd, mem', hrun, herase, fun w hw => (hwords w hw).2⟩

end Ptr

end Shell

end Xv6
