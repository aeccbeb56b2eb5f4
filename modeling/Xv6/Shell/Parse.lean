import Mathlib.Tactic
import Xv6.Param

/-!
# The parser of the shell

The parser of `sh.c`. A pointer into the line is what is left of the line, without the NUL. A string between two pointers
is the list of its bytes, and `malloc` does not fail.
-/

namespace Xv6

namespace Shell

/-! ## `gettoken` and `peek` -/

def MAXARGS : ℕ := 10

abbrev LT : UInt8 := 60
abbrev BAR : UInt8 := 124
abbrev GT : UInt8 := 62
abbrev AMP : UInt8 := 38
abbrev SEMI : UInt8 := 59
abbrev LPAREN : UInt8 := 40
abbrev RPAREN : UInt8 := 41

/-- The characters of `whitespace`. -/
def isWhite (c : UInt8) : Bool := [32, 9, 13, 10, 11].contains c

/-- The characters of `symbols`. -/
def isSymbol (c : UInt8) : Bool := [LT, BAR, GT, AMP, SEMI, LPAREN, RPAREN].contains c

def isWord (c : UInt8) : Bool := !isWhite c && !isSymbol c

/-- The tokens: a symbol, `>>`, or a word. -/
inductive Tok where
  | sym (c : UInt8)
  | append
  | word (w : List UInt8)
deriving DecidableEq

def skip (s : List UInt8) : List UInt8 := s.dropWhile isWhite

/-- The token at `s`, which is not white space, and what is left behind it. -/
def scan : List UInt8 → Option (Tok × List UInt8)
  | [] => none
  | c :: r =>
    if c = GT then
      if r.head? = some GT then some (.append, r.tail) else some (.sym GT, r)
    else if isSymbol c then some (.sym c, r)
    else some (.word ((c :: r).takeWhile isWord), (c :: r).dropWhile isWord)

/-- `gettoken`: the token, none at the end, and what is left. -/
def gettoken (s : List UInt8) : Option Tok × List UInt8 :=
  match scan (skip s) with
  | none => (none, [])
  | some (t, r) => (some t, skip r)

/-- `peek`: whether the next character is in `toks`, and what is left from it on. -/
def peek (s : List UInt8) (toks : List UInt8) : Bool × List UInt8 :=
  (match skip s with
    | [] => false
    | c :: _ => toks.contains c, skip s)

/-! ## Commands -/

/-- What a `redircmd` has besides its command. -/
structure Redir where
  file : List UInt8
  mode : BitVec 32
  fd : ℕ
deriving DecidableEq

/-- The redirection for a token, if it is one. -/
def redirOf (w : List UInt8) : Tok → List Redir
  | .sym c => if c = LT then [⟨w, O_RDONLY, 0⟩] else if c = GT then [⟨w, O_WRONLY ||| O_CREATE, 1⟩] else []
  | .append => [⟨w, O_WRONLY ||| O_CREATE, 1⟩]
  | .word _ => []

/-- `struct cmd`. -/
inductive Cmd where
  | exec (argv : List (List UInt8))
  | redir (cmd : Cmd) (r : Redir)
  | pipe (left right : Cmd)
  | list (left right : Cmd)
  | back (cmd : Cmd)
deriving DecidableEq

/-- How the parser stops: with a panic, with an index past the end of `argv`, or for want of fuel. -/
inductive Err where
  /-- "missing file for redirection" -/
  | missingFile
  /-- "parseblock" -/
  | parseblock
  /-- "syntax - missing )" -/
  | missingParen
  /-- "syntax", in `parseexec` -/
  | badSyntax
  /-- "too many args" -/
  | tooManyArgs
  /-- "syntax", in `parsecmd`, after "leftovers" -/
  | leftovers
  | overrun
  | fuel
deriving DecidableEq

abbrev Parse (α : Type) : Type := Except Err (α × List UInt8)

/-- The redirections around a command, the first one innermost. -/
def wrap (rs : List Redir) (cmd : Cmd) : Cmd := rs.foldl .redir cmd

/-- The loop of `parseredirs`: the redirections in their order, to be put around the command. -/
def parseredirs : ℕ → List UInt8 → Parse (List Redir)
  | 0, _ => .error .fuel
  | n + 1, s =>
    let (more, s) := peek s [LT, GT]
    if more then
      let (tok, s) := gettoken s
      match gettoken s with
      | (some (.word w), s) =>
        match parseredirs n s with
        | .error e => .error e
        | .ok (rs, s) => .ok (tok.elim [] (redirOf w) ++ rs, s)
      | _ => .error .missingFile
    else .ok ([], s)

/-- The loop of `parseexec`, with `argc` arguments so far: the arguments and the redirections that follow. The arguments go
into the `execcmd` that all the redirections are around. -/
def parseargs : ℕ → (argc : ℕ) → List UInt8 → Parse (List (List UInt8) × List Redir)
  | 0, _, _ => .error .fuel
  | n + 1, argc, s =>
    let (stop, s) := peek s [BAR, RPAREN, AMP, SEMI]
    -- `argv[argc] = 0` after the loop
    if stop then if MAXARGS ≤ argc then .error .overrun else .ok (([], []), s)
    else
      match gettoken s with
      | (none, s) => if MAXARGS ≤ argc then .error .overrun else .ok (([], []), s)
      | (some (.word w), s) =>
        -- `argv[argc] = q`, and only then the comparison with `MAXARGS`
        if MAXARGS ≤ argc then .error .overrun
        else if MAXARGS ≤ argc + 1 then .error .tooManyArgs
        else
          match parseredirs n s with
          | .error e => .error e
          | .ok (rs, s) =>
            match parseargs n (argc + 1) s with
            | .error e => .error e
            | .ok ((ws, rs'), s) => .ok ((w :: ws, rs ++ rs'), s)
      | _ => .error .badSyntax

/-- The loop of `parseline` over `&`. -/
def parseback : ℕ → Cmd → List UInt8 → Parse Cmd
  | 0, _, _ => .error .fuel
  | n + 1, cmd, s =>
    let (more, s) := peek s [AMP]
    if more then
      let (_, s) := gettoken s
      parseback n (.back cmd) s
    else .ok (cmd, s)

mutual

def parseline : ℕ → List UInt8 → Parse Cmd
  | 0, _ => .error .fuel
  | n + 1, s =>
    match parsepipe n s with
    | .error e => .error e
    | .ok (cmd, s) =>
      match parseback n cmd s with
      | .error e => .error e
      | .ok (cmd, s) =>
        let (more, s) := peek s [SEMI]
        if more then
          let (_, s) := gettoken s
          match parseline n s with
          | .error e => .error e
          | .ok (cmd', s) => .ok (.list cmd cmd', s)
        else .ok (cmd, s)

def parsepipe : ℕ → List UInt8 → Parse Cmd
  | 0, _ => .error .fuel
  | n + 1, s =>
    match parseexec n s with
    | .error e => .error e
    | .ok (cmd, s) =>
      let (more, s) := peek s [BAR]
      if more then
        let (_, s) := gettoken s
        match parsepipe n s with
        | .error e => .error e
        | .ok (cmd', s) => .ok (.pipe cmd cmd', s)
      else .ok (cmd, s)

def parseexec : ℕ → List UInt8 → Parse Cmd
  | 0, _ => .error .fuel
  | n + 1, s =>
    let (block, s) := peek s [LPAREN]
    if block then parseblock n s
    else
      match parseredirs n s with
      | .error e => .error e
      | .ok (rs, s) =>
        match parseargs n 0 s with
        | .error e => .error e
        | .ok ((ws, rs'), s) => .ok (wrap (rs ++ rs') (.exec ws), s)

def parseblock : ℕ → List UInt8 → Parse Cmd
  | 0, _ => .error .fuel
  | n + 1, s =>
    let (block, s) := peek s [LPAREN]
    if block then
      let (_, s) := gettoken s
      match parseline n s with
      | .error e => .error e
      | .ok (cmd, s) =>
        let (close, s) := peek s [RPAREN]
        if close then
          let (_, s) := gettoken s
          match parseredirs n s with
          | .error e => .error e
          | .ok (rs, s) => .ok (wrap rs cmd, s)
        else .error .missingParen
    else .error .parseblock

end

/-- `nulterminate`: the arguments are read up to the null pointer behind the last one. -/
def nulterminate : Cmd → Except Err Unit
  | .exec argv => if MAXARGS ≤ argv.length then .error .overrun else .ok ()
  | .redir cmd _ => nulterminate cmd
  | .pipe left right => nulterminate left >>= fun _ => nulterminate right
  | .list left right => nulterminate left >>= fun _ => nulterminate right
  | .back cmd => nulterminate cmd

/-- The line at `s`, which ends before the first NUL. -/
def line (s : List UInt8) : List UInt8 := s.takeWhile (· ≠ 0)

/-- `parsecmd`, with fuel. -/
def parsecmd (n : ℕ) (s : List UInt8) : Except Err Cmd :=
  match parseline n (line s) with
  | .error e => .error e
  | .ok (cmd, s) =>
    if (peek s []).2 = [] then
      match nulterminate cmd with
      | .error e => .error e
      | .ok () => .ok cmd
    else .error .leftovers

end Shell

end Xv6
