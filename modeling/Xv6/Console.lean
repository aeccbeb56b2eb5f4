import Xv6.Lib.Lts
import Xv6.Lib.Ring
import Mathlib.Data.List.Induction
import Mathlib.Data.List.Nodup
import Mathlib.Tactic.Common

/-!
# The console's input (`consoleintr` and `consoleread` in `console.c`)

Any number of readers, while interrupts bring characters. `consoleintr` takes one character at a time and `consoleread`
goes once round its loop at a time, both with `cons.lock`. The history is kept beside the buffer: the characters that
were typed, the bytes that were taken out with the call that took each, and the calls that have returned.
-/

namespace Xv6

open Function List

namespace Console

def INPUT_BUF : ℕ := 128

instance : NeZero INPUT_BUF := ⟨by decide⟩

/-- Control-x. -/
def C (x : Char) : UInt8 := UInt8.ofNat (x.toNat - '@'.toNat)

/-- `'\\n'`. -/
def LF : UInt8 := 10

/-- `'\\r'`. -/
def CR : UInt8 := 13

/-- The buffer, with the read, write and edit index. -/
structure Input where
  buf : Fin INPUT_BUF → UInt8
  r : BitVec 32
  w : BitVec 32
  e : BitVec 32

namespace Input

theorem sub_one_sub_lt {w e : BitVec 32} (h : e ≠ w) : (e - 1 - w).toNat < (e - w).toNat := by
  bv_omega

/-- The loop of `C('U')`: the edit index at its end. -/
def killLine (buf : Fin INPUT_BUF → UInt8) (w e : BitVec 32) : BitVec 32 :=
  if h : e ≠ w ∧ buf (Ring.slot INPUT_BUF (e - 1)) ≠ LF then killLine buf w (e - 1) else e
termination_by (e - w).toNat
decreasing_by exact sub_one_sub_lt h.1

/-- One character of `consoleintr`, and whether it calls `wakeup(&input.r)`. -/
def intr (x : Input) (c : UInt8) : Input × Bool :=
  if c = C 'P' then (x, false)
  else if c = C 'U' then ({ x with e := killLine x.buf x.w x.e }, false)
  else if c = C 'H' ∨ c = 0x7f then (if x.e ≠ x.w then { x with e := x.e - 1 } else x, false)
  else if c ≠ 0 ∧ x.e - x.r < BitVec.ofNat 32 INPUT_BUF then
    let c := if c = CR then LF else c
    let x := { x with buf := update x.buf (Ring.slot INPUT_BUF x.e) c, e := x.e + 1 }
    if c = LF ∨ c = C 'D' ∨ x.e = x.r + BitVec.ofNat 32 INPUT_BUF then ({ x with w := x.e }, true) else (x, false)
  else (x, false)

/-- `input.buf[input.r % INPUT_BUF]`. -/
def front (x : Input) : UInt8 := x.buf (Ring.slot INPUT_BUF x.r)

end Input

/-! ## Line editing

What typing means, without the buffer: the bytes committed so far, and the line that can still be edited. -/

/-- The committed bytes and the line. -/
structure Edited where
  committed : List UInt8
  line : List UInt8

/-- The character `c` is typed when readers have taken `taken` bytes. -/
def Edited.type (x : Edited) (c : UInt8) (taken : ℕ) : Edited :=
  if c = C 'P' ∨ c = 0 then x
  else if c = C 'U' then { x with line := [] }
  else if c = C 'H' ∨ c = 0x7f then { x with line := x.line.dropLast }
  else if x.committed.length - taken + x.line.length = INPUT_BUF then x
  else
    let c := if c = CR then LF else c
    let line := x.line ++ [c]
    if c = LF ∨ c = C 'D' ∨ x.committed.length - taken + line.length = INPUT_BUF then ⟨x.committed ++ line, []⟩
    else ⟨x.committed, line⟩

/-- What was typed, each character with the number of bytes taken before it. -/
def edited (typed : List (UInt8 × ℕ)) : Edited := typed.foldl (fun x t => x.type t.1 t.2) ⟨[], []⟩

/-! ## The buffer and the edited text -/

/-- The buffer holds the committed bytes that are not read, and then the line. -/
structure Input.Rep (x : Input) (unread line : List UInt8) : Prop where
  cells : Ring.Holds x.buf x.r x.e (unread ++ line)
  w : x.w = x.r + BitVec.ofNat 32 unread.length
  full : (unread ++ line).length = INPUT_BUF → line = []
  lf : LF ∉ line

namespace Input

variable {x : Input} {unread line : List UInt8}

theorem Rep.holds_unread (h : x.Rep unread line) : Ring.Holds x.buf x.r x.w unread := by
  rw [h.w]
  exact h.cells.append_left

theorem Rep.holds_line (h : x.Rep unread line) : Ring.Holds x.buf x.w x.e line := by
  rw [h.w]
  exact h.cells.append_right

theorem Rep.e_eq_w (h : x.Rep unread line) : x.e = x.w ↔ line = [] := by
  rw [eq_comm, h.holds_line.eq_iff (by decide)]

variable {buf : Fin INPUT_BUF → UInt8} {e : BitVec 32}

theorem killLine_eq {w : BitVec 32} {line : List UInt8}
    (h : Ring.Holds buf w e line) (hlf : LF ∉ line) : killLine buf w e = w := by
  induction line using List.reverseRecOn generalizing e with
  | nil =>
    have he : w = e := (h.eq_iff (by decide)).mpr rfl
    rw [killLine, dif_neg (by simp [he]), he]
  | append_singleton line c ih =>
    rw [mem_append, not_or, mem_singleton] at hlf
    have hne : e ≠ w := fun heq => by simpa using (h.eq_iff (by decide)).mp heq.symm
    rw [killLine, dif_pos ⟨hne, by rw [h.last]; exact fun heq => hlf.2 heq.symm⟩]
    exact ih h.unpush hlf.1

section

variable (h : x.Rep unread line)

include h

theorem Rep.length_le : unread.length + line.length ≤ INPUT_BUF := by
  rw [← length_append]
  exact h.cells.length_le

/-- The test for room. -/
theorem Rep.room_iff :
    x.e - x.r < BitVec.ofNat 32 INPUT_BUF ↔ unread.length + line.length ≠ INPUT_BUF := by
  have hlen := h.length_le
  rw [BitVec.lt_def, h.cells.toNat_sub (by decide), length_append,
    show (BitVec.ofNat 32 INPUT_BUF).toNat = INPUT_BUF from rfl]
  omega

/-- Erasing the line. -/
theorem Rep.erase : ({ x with e := killLine x.buf x.w x.e } : Input).Rep unread [] := by
  rw [killLine_eq h.holds_line h.lf]
  exact ⟨by rw [append_nil]; exact h.holds_unread, h.w, fun _ => rfl, by simp⟩

/-- Erasing the last character of the line. -/
theorem Rep.backspace :
    (if x.e ≠ x.w then { x with e := x.e - 1 } else x : Input).Rep unread line.dropLast := by
  rcases eq_nil_or_concat line with rfl | ⟨line, c, rfl⟩
  · rw [if_neg (not_not.mpr (h.e_eq_w.mpr rfl))]
    exact h
  · have hlen := h.length_le
    rw [concat_eq_append] at h hlen ⊢
    rw [if_pos (fun heq => by simpa using h.e_eq_w.mp heq), dropLast_concat]
    have hcells := h.cells
    rw [← append_assoc] at hcells
    refine ⟨hcells.unpush, h.w, fun hfull => ?_, fun hmem => h.lf (by simp [hmem])⟩
    simp only [length_append, length_singleton] at hfull hlen
    omega

/-- Storing a character at the end of the line. -/
theorem Rep.store (hroom : unread.length + line.length ≠ INPUT_BUF) (c : UInt8) :
    Ring.Holds (update x.buf (Ring.slot INPUT_BUF x.e) c) x.r (x.e + 1) (unread ++ (line ++ [c])) := by
  have hlen := h.length_le
  rw [← append_assoc]
  exact h.cells.push (by decide) (by rw [length_append]; omega) c

end

/-- Committing the line. -/
theorem rep_commit {r : BitVec 32} (h : Ring.Holds buf r e unread) :
    (⟨buf, r, e, e⟩ : Input).Rep unread [] :=
  ⟨by rw [append_nil]; exact h, h.tail, fun _ => rfl, by simp⟩

/-- A character does to the buffer what it does to the text. -/
theorem Rep.intr {ed : Edited} {taken : List UInt8} (h : x.Rep unread ed.line) (hc : ed.committed = taken ++ unread)
    (c : UInt8) : ∃ unread', (x.intr c).1.Rep unread' (ed.type c taken.length).line ∧
      (ed.type c taken.length).committed = taken ++ unread' := by
  have hlen : ed.committed.length - taken.length = unread.length := by simp [hc]
  simp only [Input.intr, Edited.type, hlen]
  by_cases hP : c = C 'P'
  · simp only [hP, true_or, if_true]
    exact ⟨unread, h, hc⟩
  by_cases h0 : c = 0
  · subst h0
    rw [if_neg (by decide), if_neg (by decide), if_neg (by decide), if_neg (by simp), if_pos (.inr rfl)]
    exact ⟨unread, h, hc⟩
  simp only [hP, h0, or_false, if_false]
  by_cases hU : c = C 'U'
  · simp only [hU, if_true]
    exact ⟨unread, h.erase, hc⟩
  simp only [hU, if_false]
  by_cases hH : c = C 'H' ∨ c = 0x7f
  · simp only [hH, if_true]
    exact ⟨unread, h.backspace, hc⟩
  simp only [hH, if_false]
  by_cases hroom : unread.length + ed.line.length = INPUT_BUF
  · rw [if_neg (fun hlt => h.room_iff.mp hlt.2 hroom), if_pos hroom]
    exact ⟨unread, h, hc⟩
  rw [if_pos ⟨h0, h.room_iff.mpr hroom⟩, if_neg hroom]
  have hstore := h.store hroom (if c = CR then LF else c)
  generalize (if c = CR then LF else c) = c at hstore ⊢
  have hfull : x.e + 1 = x.r + BitVec.ofNat 32 INPUT_BUF ↔
      unread.length + (ed.line ++ [c]).length = INPUT_BUF := by
    rw [hstore.full_iff (by decide), length_append]
  simp only [hfull]
  split
  · refine ⟨unread ++ (ed.line ++ [c]), rep_commit hstore, ?_⟩
    rw [hc, append_assoc]
  · rename_i hnot
    rw [not_or, not_or] at hnot
    refine ⟨unread, ⟨hstore, h.w, fun hlen => ?_, ?_⟩, hc⟩
    · exact absurd (by rwa [length_append] at hlen) hnot.2.2
    · rw [mem_append, not_or, mem_singleton]
      exact ⟨h.lf, fun heq => hnot.1 heq.symm⟩

/-- Taking a byte. -/
theorem Rep.take (h : x.Rep unread line) (hne : x.r ≠ x.w) :
    ∃ unread', unread = x.front :: unread' ∧ ({ x with r := x.r + 1 } : Input).Rep unread' line := by
  cases unread with
  | nil => exact absurd ((h.holds_unread.eq_iff (by decide)).mpr rfl) hne
  | cons b unread =>
    have hfront : x.front = b := h.holds_unread.head
    refine ⟨unread, by rw [hfront], h.cells.pop, ?_, fun hfull => ?_, h.lf⟩
    · exact h.holds_unread.pop.tail
    · have hlen := h.length_le
      simp only [length_append, length_cons] at hfull hlen
      omega

/-- No character overwrites what is in the buffer. -/
theorem Rep.intr_buf (h : x.Rep unread line) (c : UInt8) {i : ℕ} (hi : i < unread.length + line.length) :
    (x.intr c).1.buf (Ring.slot INPUT_BUF (x.r + BitVec.ofNat 32 i)) =
      x.buf (Ring.slot INPUT_BUF (x.r + BitVec.ofNat 32 i)) := by
  have hstore : ∀ c', x.e - x.r < BitVec.ofNat 32 INPUT_BUF →
      update x.buf (Ring.slot INPUT_BUF x.e) c' (Ring.slot INPUT_BUF (x.r + BitVec.ofNat 32 i)) =
        x.buf (Ring.slot INPUT_BUF (x.r + BitVec.ofNat 32 i)) := by
    intro c' hroom
    have hcount := h.room_iff.mp hroom
    have hlen := h.length_le
    apply update_of_ne
    rw [h.cells.tail, Ring.slot_add (by decide), Ring.slot_add (by decide), length_append]
    intro heq
    exact absurd (Ring.ofNat_add_inj (by omega) (by omega) heq) (by omega)
  simp only [Input.intr]
  split_ifs with h1 h2 h3 h4 h5 <;> first | rfl | exact hstore _ h5.2

end Input

/-! ## Readers -/

/-- The locals of a call of `consoleread`, with its number and the bytes it has stored at `dst`. -/
structure Read where
  call : ℕ
  target : ℤ
  n : ℤ
  dst : List UInt8
deriving DecidableEq

/-- Where a process is. -/
inductive Pc where
  | out
  /-- `acquire(&cons.lock)`, at the beginning or at the end of `sleep`. -/
  | acquire (x : Read)
  | loop (x : Read)
  /-- Switched away in `sleep(&input.r, &cons.lock)`. -/
  | asleep (x : Read)
deriving DecidableEq

/-- The call a process is in. -/
def Pc.read : Pc → Option Read
  | .out => none
  | .acquire x | .loop x | .asleep x => some x

/-- `wakeup(&input.r)`, for one process. -/
def Pc.wake : Pc → Pc
  | .asleep x => .acquire x
  | c => c

theorem Pc.read_wake (c : Pc) : c.wake.read = c.read := by cases c <;> rfl

theorem Pc.wake_ne (c : Pc) (x : Read) : c.wake ≠ .asleep x := by cases c <;> exact nofun

/-- Who holds `cons.lock`. -/
inductive Holder (P : Type) where
  | intr
  | reader (p : P)
deriving DecidableEq

/-- A call that has returned: its locals, whether it took a `C('D')`, and its result. -/
structure Done where
  read : Read
  eof : Bool
  ret : ℤ
deriving DecidableEq

/-- The console and the processes, and the history. -/
structure State (P : Type) where
  input : Input
  lock : Option (Holder P)
  pc : P → Pc
  killed : P → Bool
  calls : ℕ
  /-- The characters of `consoleintr`, each with the number of bytes taken before it. -/
  typed : List (UInt8 × ℕ)
  /-- The bytes taken out, each with the call that took it. -/
  taken : List (ℕ × UInt8)
  done : List Done

/-- What can happen. -/
inductive Event (P : Type) where
  | read (p : P) (n : ℤ)
  | acquire (p : P)
  /-- Once round the loop of `consoleread`. -/
  | step (p : P)
  | kill (p : P)
  /-- `consoleintr` begins. -/
  | intr
  /-- `getc()` returns a character. -/
  | getc (c : UInt8)
  /-- `getc()` has no more. -/
  | iret

variable {P : Type} [DecidableEq P]

namespace State

def goto (s : State P) (p : P) (c : Pc) : State P := { s with pc := update s.pc p c }

/-- `release(&cons.lock)` and the return of `ret`. -/
def finish (s : State P) (p : P) (x : Read) (eof : Bool) (ret : ℤ) : State P :=
  { s.goto p .out with lock := none, done := s.done ++ [⟨x, eof, ret⟩] }

/-- `c = input.buf[input.r++ % INPUT_BUF]`, in the call `x`. -/
def take (s : State P) (x : Read) : State P :=
  { s with input := { s.input with r := s.input.r + 1 }, taken := s.taken ++ [(x.call, s.input.front)] }

/-- Once round the loop of `consoleread`. -/
def step (s : State P) (p : P) (x : Read) : State P :=
  if x.n ≤ 0 then s.finish p x false (x.target - x.n)
  else if s.input.r = s.input.w then
    if s.killed p then s.finish p x false (-1)
    else { s.goto p (.asleep x) with lock := none }
  else if s.input.front = C 'D' then
    -- `input.r--` puts it back: it is not taken
    if x.n < x.target then s.finish p x false (x.target - x.n)
    else (s.take x).finish p x true (x.target - x.n)
  else
    let y : Read := { x with dst := x.dst ++ [s.input.front], n := x.n - 1 }
    if s.input.front = LF then (s.take x).finish p y false (y.target - y.n)
    else (s.take x).goto p (.loop y)

/-- One character of `consoleintr`. -/
def getc (s : State P) (c : UInt8) : State P :=
  { s with
    input := (s.input.intr c).1
    pc := if (s.input.intr c).2 then fun p => (s.pc p).wake else s.pc
    typed := s.typed ++ [(c, s.taken.length)] }

/-- The effect of one event. -/
def next (s : State P) : Event P → Option (State P)
  | .read p n =>
    if s.pc p = .out then some { s.goto p (.acquire ⟨s.calls, n, n, []⟩) with calls := s.calls + 1 } else none
  | .acquire p =>
    match s.pc p, s.lock with
    | .acquire x, none => some { s.goto p (.loop x) with lock := some (.reader p) }
    | _, _ => none
  | .step p =>
    match s.pc p with
    | .loop x => some (s.step p x)
    | _ => none
  | .kill p => some { s.goto p (s.pc p).wake with killed := update s.killed p true }
  | .intr => if s.lock = none then some { s with lock := some .intr } else none
  | .getc c => if s.lock = some .intr then some (s.getc c) else none
  | .iret => if s.lock = some .intr then some { s with lock := none } else none

/-- Nobody has typed or read; the indices may have any common value. -/
structure Init (s : State P) : Prop where
  r : s.input.r = s.input.w
  w : s.input.w = s.input.e
  lock : s.lock = none
  pc : ∀ p, s.pc p = .out
  typed : s.typed = []
  taken : s.taken = []
  done : s.done = []

end State

/-- All interleavings. -/
def lts (P : Type) [DecidableEq P] : Lts (State P) (Event P) where
  init := State.Init
  next := State.next

/-! ### The text -/

/-- The bytes taken and the bytes in the buffer are the edited text. -/
def Text (x : Input) (typed : List (UInt8 × ℕ)) (taken : List (ℕ × UInt8)) : Prop :=
  ∃ unread, x.Rep unread (edited typed).line ∧ (edited typed).committed = taken.map Prod.snd ++ unread

variable {typed : List (UInt8 × ℕ)} {ev : Event P}

theorem Text.take {x : Input} {taken : List (ℕ × UInt8)} (h : Text x typed taken)
    (hne : x.r ≠ x.w) (call : ℕ) : Text { x with r := x.r + 1 } typed (taken ++ [(call, x.front)]) := by
  obtain ⟨unread, hrep, hcommitted⟩ := h
  obtain ⟨unread', rfl, hrep'⟩ := hrep.take hne
  exact ⟨unread', hrep', by simp [hcommitted]⟩

theorem Text.intr {x : Input} {taken : List (ℕ × UInt8)} (h : Text x typed taken)
    (c : UInt8) : Text (x.intr c).1 (typed ++ [(c, taken.length)]) taken := by
  obtain ⟨unread, hrep, hcommitted⟩ := h
  have hedited : edited (typed ++ [(c, taken.length)]) = (edited typed).type c (taken.map Prod.snd).length := by
    simp [edited]
  obtain ⟨unread', hrep', hcommitted'⟩ := hrep.intr hcommitted c
  exact ⟨unread', by rw [hedited]; exact hrep', by rw [hedited]; exact hcommitted'⟩

/-! ### The calls -/

/-- The bytes that a call took. -/
def bytesOf (taken : List (ℕ × UInt8)) (call : ℕ) : List UInt8 := (taken.filter (·.1 = call)).map Prod.snd

theorem bytesOf_append (taken : List (ℕ × UInt8)) (call : ℕ) (t : ℕ × UInt8) :
    bytesOf (taken ++ [t]) call = bytesOf taken call ++ if t.1 = call then [t.2] else [] := by
  simp only [bytesOf, filter_append, map_append]
  by_cases h : t.1 = call <;> simp [h]

/-- A call that returned took the bytes that it stored, and a `C('D')` only if there are none: its result is 0. -/
structure Done.Ok (d : Done) (taken : List (ℕ × UInt8)) : Prop where
  bytes : bytesOf taken d.read.call = d.read.dst ++ if d.eof then [C 'D'] else []
  notEof : C 'D' ∉ d.read.dst
  eof : d.eof → d.read.dst = [] ∧ d.ret = 0 ∧ 0 < d.read.target
  ret : d.ret = d.read.dst.length ∨ d.ret = -1

/-- The calls that go on and those that have returned. -/
structure Calls (reads : P → Option Read) (calls : ℕ) (taken : List (ℕ × UInt8)) (done : List Done) : Prop where
  lt : ∀ p x, reads p = some x → x.call < calls
  distinct : ∀ p q x y, reads p = some x → reads q = some y → x.call = y.call → p = q
  bytes : ∀ p x, reads p = some x → bytesOf taken x.call = x.dst
  notEof : ∀ p x, reads p = some x → C 'D' ∉ x.dst
  count : ∀ p x, reads p = some x → x.target = x.n + x.dst.length
  done_lt : ∀ d ∈ done, d.read.call < calls
  done_ne : ∀ d ∈ done, ∀ p x, reads p = some x → x.call ≠ d.read.call
  done_nodup : (done.map (·.read.call)).Nodup
  done_ok : ∀ d ∈ done, d.Ok taken
  origin : ∀ t ∈ taken, (∃ p x, reads p = some x ∧ x.call = t.1) ∨ ∃ d ∈ done, d.read.call = t.1

section
variable {reads : P → Option Read} {calls : ℕ} {taken : List (ℕ × UInt8)} {done : List Done} {p : P} {x : Read}

theorem bytesOf_eq_nil {call : ℕ} (h : ∀ t ∈ taken, t.1 ≠ call) : bytesOf taken call = [] := by
  rw [bytesOf, filter_eq_nil_iff.mpr (by simpa using h), map_nil]

section

variable (h : Calls reads calls taken done)

include h

omit [DecidableEq P] in
theorem Calls.taken_lt {t : ℕ × UInt8} (ht : t ∈ taken) : t.1 < calls := by
  rcases h.origin t ht with ⟨p, x, hx, hcall⟩ | ⟨d, hd, hcall⟩
  · exact hcall ▸ h.lt p x hx
  · exact hcall ▸ h.done_lt d hd

omit h in
/-- A process that is in a call after an update is the one that changed, or was in its call before. -/
theorem read_cases {o : Option Read} {q : P} {y : Read} (hq : update reads p o q = some y) :
    (q = p ∧ o = some y) ∨ (q ≠ p ∧ reads q = some y) := by
  by_cases hqp : q = p
  · subst hqp
    rw [update_self] at hq
    exact .inl ⟨rfl, hq⟩
  · rw [update_of_ne hqp] at hq
    exact .inr ⟨hqp, hq⟩

/-- A call begins. -/
theorem Calls.start (hout : reads p = none) (n : ℤ) :
    Calls (update reads p (some ⟨calls, n, n, []⟩)) (calls + 1) taken done := by
  have hnil : bytesOf taken calls = [] := bytesOf_eq_nil fun t ht => (h.taken_lt ht).ne
  refine ⟨fun q y hq => ?_, fun q q' y y' hq hq' hcall => ?_, fun q y hq => ?_, fun q y hq => ?_, fun q y hq => ?_,
    fun d hd => Nat.lt_succ_of_lt (h.done_lt d hd), fun d hd q y hq => ?_, h.done_nodup, h.done_ok, fun t ht => ?_⟩
  · rcases read_cases hq with ⟨-, ⟨⟩⟩ | ⟨-, hq⟩
    · exact Nat.lt_succ_self _
    · exact Nat.lt_succ_of_lt (h.lt q y hq)
  · rcases read_cases hq with ⟨rfl, ⟨⟩⟩ | ⟨-, hy⟩ <;> rcases read_cases hq' with ⟨rfl, ⟨⟩⟩ | ⟨-, hy'⟩
    · rfl
    · exact absurd (h.lt q' y' hy') (by simp [← hcall])
    · exact absurd (h.lt q y hy) (by simp [hcall])
    · exact h.distinct q q' y y' hy hy' hcall
  · rcases read_cases hq with ⟨-, ⟨⟩⟩ | ⟨-, hq⟩
    · exact hnil
    · exact h.bytes q y hq
  · rcases read_cases hq with ⟨-, ⟨⟩⟩ | ⟨-, hq⟩
    · simp
    · exact h.notEof q y hq
  · rcases read_cases hq with ⟨-, ⟨⟩⟩ | ⟨-, hq⟩
    · simp
    · exact h.count q y hq
  · rcases read_cases hq with ⟨-, ⟨⟩⟩ | ⟨-, hq⟩
    · exact (h.done_lt d hd).ne'
    · exact h.done_ne d hd q y hq
  · rcases h.origin t ht with ⟨q, y, hq, hcall⟩ | hdone
    · exact .inl ⟨q, y, by rw [update_of_ne (by rintro rfl; simp [hout] at hq)]; exact hq, hcall⟩
    · exact .inr hdone

/-- A call takes a byte that is not `C('D')`. -/
theorem Calls.take (hx : reads p = some x) {c : UInt8} (hc : c ≠ C 'D') :
    Calls (update reads p (some { x with dst := x.dst ++ [c], n := x.n - 1 })) calls
      (taken ++ [(x.call, c)]) done := by
  have hmem : ∀ q y, update reads p (some { x with dst := x.dst ++ [c], n := x.n - 1 }) q = some y →
      ∃ z, reads q = some z ∧ y.call = z.call ∧
        ((q = p ∧ y = { x with dst := x.dst ++ [c], n := x.n - 1 }) ∨ (q ≠ p ∧ y = z)) := by
    intro q y hq
    rcases read_cases hq with ⟨rfl, ⟨⟩⟩ | ⟨hqp, hq⟩
    · exact ⟨x, hx, rfl, .inl ⟨rfl, rfl⟩⟩
    · exact ⟨y, hq, rfl, .inr ⟨hqp, rfl⟩⟩
  refine ⟨fun q y hq => ?_, fun q q' y y' hq hq' hcall => ?_, fun q y hq => ?_, fun q y hq => ?_, fun q y hq => ?_,
    h.done_lt, fun d hd q y hq => ?_, h.done_nodup, fun d hd => ?_, fun t ht => ?_⟩
  · obtain ⟨z, hz, hcall, -⟩ := hmem q y hq
    exact hcall ▸ h.lt q z hz
  · obtain ⟨z, hz, hzcall, -⟩ := hmem q y hq
    obtain ⟨z', hz', hzcall', -⟩ := hmem q' y' hq'
    exact h.distinct q q' z z' hz hz' (by rw [← hzcall, ← hzcall', hcall])
  · obtain ⟨z, hz, hzcall, ⟨rfl, rfl⟩ | ⟨hqp, rfl⟩⟩ := hmem q y hq
    · rw [bytesOf_append, h.bytes q x hx, if_pos rfl]
    · have hne : x.call ≠ y.call := fun heq => hqp (h.distinct q p y x hz hx heq.symm)
      rw [bytesOf_append, h.bytes q y hz, if_neg hne, append_nil]
  · obtain ⟨z, hz, hzcall, ⟨rfl, rfl⟩ | ⟨hqp, rfl⟩⟩ := hmem q y hq
    · simp [h.notEof q x hx, hc.symm]
    · exact h.notEof q y hz
  · obtain ⟨z, hz, hzcall, ⟨rfl, rfl⟩ | ⟨hqp, rfl⟩⟩ := hmem q y hq
    · have hcount := h.count q x hx
      simp only [length_append, length_singleton, Nat.cast_add, Nat.cast_one]
      omega
    · exact h.count q y hz
  · obtain ⟨z, hz, hzcall, -⟩ := hmem q y hq
    exact hzcall ▸ h.done_ne d hd q z hz
  · have hok := h.done_ok d hd
    refine ⟨?_, hok.notEof, hok.eof, hok.ret⟩
    rw [bytesOf_append, if_neg (h.done_ne d hd p x hx), append_nil]
    exact hok.bytes
  · rw [mem_append, mem_singleton] at ht
    rcases ht with ht | rfl
    · rcases h.origin t ht with ⟨q, y, hq, hcall⟩ | hdone
      · by_cases hqp : q = p
        · subst hqp
          obtain rfl := Option.some.inj (hx.symm.trans hq)
          exact .inl ⟨q, _, update_self .., hcall⟩
        · exact .inl ⟨q, y, by rw [update_of_ne hqp]; exact hq, hcall⟩
      · exact .inr hdone
    · exact .inl ⟨p, _, update_self .., rfl⟩

/-- A call returns; `eof` says that it takes a `C('D')`. -/
theorem Calls.finish (hx : reads p = some x) (eof : Bool) {ret : ℤ}
    (heof : eof → x.dst = [] ∧ ret = 0 ∧ 0 < x.target) (hret : ret = x.dst.length ∨ ret = -1) :
    Calls (update reads p none) calls (taken ++ if eof then [(x.call, C 'D')] else [])
      (done ++ [⟨x, eof, ret⟩]) := by
  have hmem : ∀ q y, update reads p none q = some y → q ≠ p ∧ reads q = some y :=
    fun q y hq => (read_cases hq).resolve_left (by simp)
  have hbytes : ∀ call, bytesOf (taken ++ if eof then [(x.call, C 'D')] else []) call =
      bytesOf taken call ++ if eof ∧ x.call = call then [C 'D'] else [] := by
    intro call
    cases eof
    · simp
    · simp [bytesOf_append]
  refine ⟨fun q y hq => ?_, fun q q' y y' hq hq' hcall => ?_, fun q y hq => ?_, fun q y hq => ?_, fun q y hq => ?_,
    fun d hd => ?_, fun d hd q y hq => ?_, ?_, fun d hd => ?_, fun t ht => ?_⟩
  · exact h.lt q y (hmem q y hq).2
  · exact h.distinct q q' y y' (hmem q y hq).2 (hmem q' y' hq').2 hcall
  · obtain ⟨hqp, hy⟩ := hmem q y hq
    have hne : ¬ (eof ∧ x.call = y.call) := fun heq => hqp (h.distinct q p y x hy hx heq.2.symm)
    rw [hbytes, if_neg hne, append_nil]
    exact h.bytes q y hy
  · exact h.notEof q y (hmem q y hq).2
  · exact h.count q y (hmem q y hq).2
  · rw [mem_append, mem_singleton] at hd
    rcases hd with hd | rfl
    · exact h.done_lt d hd
    · exact h.lt p x hx
  · obtain ⟨hqp, hy⟩ := hmem q y hq
    rw [mem_append, mem_singleton] at hd
    rcases hd with hd | rfl
    · exact h.done_ne d hd q y hy
    · exact fun hcall => hqp (h.distinct q p y x hy hx hcall)
  · rw [map_append, nodup_append]
    refine ⟨h.done_nodup, by simp, fun a ha b hb => ?_⟩
    obtain ⟨d, hd, rfl⟩ := mem_map.mp ha
    obtain rfl : b = x.call := by simpa using hb
    exact (h.done_ne d hd p x hx).symm
  · rw [mem_append, mem_singleton] at hd
    rcases hd with hd | rfl
    · have hok := h.done_ok d hd
      have hne : ¬ (eof ∧ x.call = d.read.call) := fun heq => h.done_ne d hd p x hx heq.2
      refine ⟨?_, hok.notEof, hok.eof, hok.ret⟩
      rw [hbytes, if_neg hne, append_nil]
      exact hok.bytes
    · refine ⟨?_, h.notEof p x hx, heof, hret⟩
      rw [hbytes, h.bytes p x hx]
      simp
  · have hcall : t.1 = x.call ∨ t ∈ taken := by
      cases eof <;> simp at ht <;> grind
    rcases hcall with hcall | ht
    · exact .inr ⟨⟨x, eof, ret⟩, by simp, hcall.symm⟩
    · rcases h.origin t ht with ⟨q, y, hq, hcall⟩ | ⟨d, hd, hcall⟩
      · by_cases hqp : q = p
        · subst hqp
          obtain rfl := Option.some.inj (hx.symm.trans hq)
          exact .inr ⟨⟨x, eof, ret⟩, by simp, hcall⟩
        · exact .inl ⟨q, y, by rw [update_of_ne hqp]; exact hq, hcall⟩
      · exact .inr ⟨d, by simp [hd], hcall⟩

end

end

/-! ### Runs -/

/-- What holds in every run. -/
structure Inv (s : State P) : Prop where
  text : Text s.input s.typed s.taken
  calls : Calls (fun p => (s.pc p).read) s.calls s.taken s.done
  asleep : ∀ p x, s.pc p = .asleep x → s.input.r = s.input.w

variable {s s' : State P} {p : P} {x : Read}

omit [DecidableEq P] in
theorem State.Init.inv (h : s.Init) : Inv s := by
  refine ⟨⟨[], ⟨?_, ?_, fun _ => ?_, ?_⟩, ?_⟩, ?_, fun p x hp => ?_⟩
  · rw [h.typed, ← h.w, ← h.r]
    exact Ring.Holds.nil _ _
  · rw [← h.r]
    simp
  · rw [h.typed]
    rfl
  · rw [h.typed]
    exact not_mem_nil
  · rw [h.typed, h.taken]
    rfl
  · have hreads : ∀ p, (s.pc p).read = none := fun p => by rw [h.pc p]; rfl
    rw [h.taken, h.done]
    constructor <;> simp [hreads]
  · exact absurd hp (by rw [h.pc p]; nofun)

theorem State.read_goto (s : State P) (p : P) (c : Pc) :
    (fun q => ((s.goto p c).pc q).read) = update (fun q => (s.pc q).read) p c.read := by
  funext q
  by_cases hq : q = p
  · simp [hq, State.goto]
  · simp [hq, State.goto]

/-- A process that stays in its call changes nothing for the calls. -/
theorem Calls.goto (h : Calls (fun q => (s.pc q).read) s.calls s.taken s.done) {c : Pc}
    (hc : c.read = (s.pc p).read) : Calls (fun q => ((s.goto p c).pc q).read) s.calls s.taken s.done := by
  rw [State.read_goto, hc, update_eq_self p (fun q => (s.pc q).read)]
  exact h

/-- Only the process that moves can fall asleep. -/
theorem asleep_goto {c : Pc} {q : P} {y : Read} (hq : (s.goto p c).pc q = .asleep y) :
    c = .asleep y ∨ s.pc q = .asleep y := by
  by_cases hqp : q = p
  · simp only [State.goto, hqp, update_self] at hq
    exact .inl hq
  · simp only [State.goto, update_of_ne hqp] at hq
    exact .inr hq

/-- A call returns without a `C('D')`. -/
theorem Inv.finish (h : Inv s) (hx : (s.pc p).read = some x) {ret : ℤ} (hret : ret = x.dst.length ∨ ret = -1) :
    Inv (s.finish p x false ret) := by
  refine ⟨h.text, ?_, fun q y hq => ?_⟩
  · have hcalls := h.calls.finish hx false (by simp) hret
    rw [if_neg (by simp), append_nil] at hcalls
    show Calls (fun q => ((s.goto p .out).pc q).read) s.calls s.taken (s.done ++ [⟨x, false, ret⟩])
    rw [State.read_goto]
    exact hcalls
  · rcases asleep_goto hq with hout | hq
    · nomatch hout
    · exact h.asleep q y hq

/-- A call returns with a `C('D')`, and no byte. -/
theorem Inv.finish_eof (h : Inv s) (hx : (s.pc p).read = some x) (hne : s.input.r ≠ s.input.w)
    (hc : s.input.front = C 'D') (hdst : x.dst = []) (htarget : 0 < x.target) : Inv ((s.take x).finish p x true 0) := by
  refine ⟨h.text.take hne x.call, ?_, fun q y hq => ?_⟩
  · have hcalls := h.calls.finish hx true (fun _ => ⟨hdst, rfl, htarget⟩) (.inl (by simp [hdst]))
    rw [if_pos rfl] at hcalls
    show Calls (fun q => ((s.goto p .out).pc q).read) s.calls (s.taken ++ [(x.call, s.input.front)])
      (s.done ++ [⟨x, true, 0⟩])
    rw [State.read_goto, hc]
    exact hcalls
  · rcases asleep_goto hq with hout | hq
    · nomatch hout
    · exact absurd (h.asleep q y hq) hne

/-- A call takes a byte and goes on. -/
theorem Inv.take (h : Inv s) (hx : (s.pc p).read = some x) (hne : s.input.r ≠ s.input.w) (hc : s.input.front ≠ C 'D') :
    Inv ((s.take x).goto p (.loop { x with dst := x.dst ++ [s.input.front], n := x.n - 1 })) := by
  refine ⟨h.text.take hne x.call, ?_, fun q y hq => ?_⟩
  · rw [State.read_goto]
    exact h.calls.take hx hc
  · rcases asleep_goto hq with hloop | hq
    · nomatch hloop
    · exact absurd (h.asleep q y hq) hne

/-- Once round the loop. -/
theorem Inv.step (h : Inv s) (hp : s.pc p = .loop x) : Inv (s.step p x) := by
  have hx : (s.pc p).read = some x := by rw [hp]; rfl
  have hcount := h.calls.count p x hx
  have hret : x.target - x.n = x.dst.length ∨ x.target - x.n = -1 := .inl (by omega)
  simp only [State.step]
  split
  · exact h.finish hx hret
  rename_i hpos
  split
  · rename_i hempty
    split
    · exact h.finish hx (.inr rfl)
    · exact ⟨h.text, h.calls.goto (by rw [hx]; rfl), fun _ _ _ => hempty⟩
  rename_i hne
  split
  · rename_i hD
    split
    · exact h.finish hx hret
    · have hdst : x.dst = [] := length_eq_zero_iff.mp (by omega)
      rw [show x.target - x.n = 0 by rw [hdst] at hcount; simp at hcount; omega]
      exact h.finish_eof hx hne hD hdst (by omega)
  rename_i hD
  have htake := h.take hx hne hD
  split
  · -- the newline is stored, and the call returns
    have hret : x.target - (x.n - 1) = ((x.dst ++ [s.input.front]).length : ℤ) := by
      simp only [length_append, length_singleton, Nat.cast_add, Nat.cast_one]
      omega
    have hfinish := htake.finish (p := p) (x := { x with dst := x.dst ++ [s.input.front], n := x.n - 1 })
      (by simp [State.goto, Pc.read]) (.inl hret)
    simpa [State.finish, State.goto] using hfinish
  · exact htake

theorem Input.intr_r (x : Input) (c : UInt8) : (x.intr c).1.r = x.r := by
  simp only [Input.intr]
  split_ifs <;> rfl

/-- Whoever moves the write index wakes the readers. -/
theorem Input.intr_w {x : Input} {c : UInt8} (h : (x.intr c).2 = false) : (x.intr c).1.w = x.w := by
  revert h
  simp only [Input.intr]
  split_ifs <;> simp

omit [DecidableEq P] in
/-- One character. -/
theorem Inv.getc (h : Inv s) (c : UInt8) : Inv (s.getc c) := by
  refine ⟨h.text.intr c, ?_, fun q y hq => ?_⟩
  · have hreads : (fun q => ((s.getc c).pc q).read) = fun q => (s.pc q).read := by
      funext q
      simp only [State.getc]
      split
      · exact Pc.read_wake _
      · rfl
    rw [hreads]
    exact h.calls
  · simp only [State.getc] at hq ⊢
    split at hq
    · exact absurd hq (Pc.wake_ne _ _)
    · rename_i hwake
      rw [Input.intr_r, Input.intr_w (by simpa using hwake)]
      exact h.asleep q y hq

theorem Inv.next (h : Inv s) (hnext : s.next ev = some s') : Inv s' := by
  cases ev with
  | read p n =>
    obtain ⟨hout, rfl⟩ := Lts.of_guard hnext
    refine ⟨h.text, ?_, fun q y hq => ?_⟩
    · have hcalls := h.calls.start (p := p) (by rw [hout]; rfl) n
      show Calls (fun q => ((s.goto p (.acquire ⟨s.calls, n, n, []⟩)).pc q).read) (s.calls + 1) s.taken s.done
      rw [State.read_goto]
      exact hcalls
    · rcases asleep_goto hq with hacq | hq
      · nomatch hacq
      · exact h.asleep q y hq
  | acquire p =>
    simp only [State.next] at hnext
    split at hnext
    · rename_i x hp _
      obtain rfl := Option.some.inj hnext
      refine ⟨h.text, h.calls.goto (by rw [hp]; rfl), fun q y hq => ?_⟩
      rcases asleep_goto hq with hloop | hq
      · nomatch hloop
      · exact h.asleep q y hq
    · nomatch hnext
  | step p =>
    simp only [State.next] at hnext
    split at hnext
    · rename_i x hp
      obtain rfl := Option.some.inj hnext
      exact h.step hp
    · nomatch hnext
  | kill p =>
    obtain rfl := Option.some.inj hnext
    refine ⟨h.text, h.calls.goto (Pc.read_wake _), fun q y hq => ?_⟩
    rcases asleep_goto hq with hwake | hq
    · exact absurd hwake (Pc.wake_ne _ _)
    · exact h.asleep q y hq
  | intr =>
    obtain ⟨-, rfl⟩ := Lts.of_guard hnext
    exact ⟨h.text, h.calls, h.asleep⟩
  | getc c =>
    obtain ⟨-, rfl⟩ := Lts.of_guard hnext
    exact h.getc c
  | iret =>
    obtain ⟨-, rfl⟩ := Lts.of_guard hnext
    exact ⟨h.text, h.calls, h.asleep⟩

theorem inv_of_reachable (h : (lts P).Reachable s) : Inv s :=
  h.invariant (I := Inv) (fun _ => State.Init.inv) fun _ _ _ hinv _ hnext => hinv.next hnext

/-! ### The result -/

omit [DecidableEq P] in
/-- The counters of the buffer, and its two parts. -/
theorem Inv.indices (h : Inv s) : (s.input.w - s.input.r).toNat ≤ (s.input.e - s.input.r).toNat ∧
    (s.input.e - s.input.r).toNat ≤ INPUT_BUF ∧
    (edited s.typed).committed = s.taken.map Prod.snd ++ Ring.contents s.input.buf s.input.r s.input.w ∧
    (edited s.typed).line = Ring.contents s.input.buf s.input.w s.input.e := by
  obtain ⟨unread, hrep, hcommitted⟩ := h.text
  have hlen := hrep.length_le
  rw [hrep.holds_unread.toNat_sub (by decide), hrep.cells.toNat_sub (by decide), length_append,
    hrep.holds_unread.contents_eq (by decide), hrep.holds_line.contents_eq (by decide)]
  exact ⟨by omega, hlen, hcommitted, rfl⟩

theorem State.step_buf (s : State P) (p : P) (x : Read) : (s.step p x).input.buf = s.input.buf := by
  simp only [State.step]
  split_ifs <;> rfl

/-- No event overwrites a byte that is not read. -/
theorem Inv.buf (h : Inv s) (hnext : s.next ev = some s') {i : ℕ}
    (hi : i < (s.input.w - s.input.r).toNat) : s'.input.buf (Ring.slot INPUT_BUF (s.input.r + BitVec.ofNat 32 i)) =
      s.input.buf (Ring.slot INPUT_BUF (s.input.r + BitVec.ofNat 32 i)) := by
  cases ev with
  | getc c =>
    obtain ⟨unread, hrep, -⟩ := h.text
    rw [hrep.holds_unread.toNat_sub (by decide)] at hi
    obtain ⟨-, rfl⟩ := Lts.of_guard hnext
    exact hrep.intr_buf c (Nat.lt_add_right _ hi)
  | step p =>
    simp only [State.next] at hnext
    split at hnext
    · obtain rfl := Option.some.inj hnext
      rw [State.step_buf]
    · cases hnext
  | read | acquire | kill | intr | iret =>
    -- these leave the buffer alone
    simp only [State.next] at hnext
    first
      | (obtain rfl := Option.some.inj hnext; rfl)
      | (split at hnext
         · obtain rfl := Option.some.inj hnext
           rfl
         · cases hnext)

omit [DecidableEq P] in
/-- Whoever took a `C('D')` has returned 0, and took nothing else. -/
theorem Inv.eof (h : Inv s) {t : ℕ × UInt8} (ht : t ∈ s.taken) (hD : t.2 = C 'D') :
    ∃ d ∈ s.done, d.read.call = t.1 ∧ d.eof ∧ d.read.dst = [] ∧ d.ret = 0 ∧ 0 < d.read.target ∧
      bytesOf s.taken t.1 = [C 'D'] ∧ ∀ d' ∈ s.done, d'.read.call = t.1 → d' = d := by
  have hmem : C 'D' ∈ bytesOf s.taken t.1 :=
    mem_map.mpr ⟨t, mem_filter.mpr ⟨ht, by simp⟩, hD⟩
  rcases h.calls.origin t ht with ⟨p, x, hx, hcall⟩ | ⟨d, hd, hcall⟩
  · rw [← hcall, h.calls.bytes p x hx] at hmem
    exact absurd hmem (h.calls.notEof p x hx)
  · have hok := h.calls.done_ok d hd
    have hbytes := hok.bytes
    rw [hcall] at hbytes
    cases heof : d.eof with
    | false =>
      rw [heof, if_neg (by simp), append_nil] at hbytes
      exact absurd (hbytes ▸ hmem) hok.notEof
    | true =>
      obtain ⟨hdst, hret, htarget⟩ := hok.eof heof
      rw [hdst, heof, if_pos rfl, nil_append] at hbytes
      refine ⟨d, hd, hcall, heof, hdst, hret, htarget, hbytes, fun d' hd' hcall' => ?_⟩
      exact inj_on_of_nodup_map h.calls.done_nodup hd' hd (hcall'.trans hcall.symm)

/-- A `C('D')` ends the read that meets it: with 0 if it has no bytes, and otherwise it stays in the buffer. -/
theorem Inv.ctrlD (h : Inv s) (hp : s.pc p = .loop x) (hn : 0 < x.n) (hne : s.input.r ≠ s.input.w)
    (hD : s.input.front = C 'D') : ∃ s', s.next (.step p) = some s' ∧ s'.pc p = .out ∧
      if x.dst = [] then s'.taken = s.taken ++ [(x.call, C 'D')] ∧ s'.done = s.done ++ [⟨x, true, 0⟩]
      else s'.input = s.input ∧ s'.taken = s.taken ∧ s'.done = s.done ++ [⟨x, false, x.dst.length⟩] := by
  have hcount := h.calls.count p x (by rw [hp]; rfl)
  refine ⟨s.step p x, by simp only [State.next, hp], ?_⟩
  rw [State.step, if_neg (by omega), if_neg hne, if_pos hD]
  by_cases hdst : x.dst = []
  · have hlen : x.dst.length = 0 := by rw [hdst]; rfl
    rw [if_neg (by omega), if_pos hdst, show x.target - x.n = 0 by omega]
    exact ⟨update_self .., by rw [← hD]; rfl, rfl⟩
  · have hlen : 0 < x.dst.length := length_pos_iff.mpr hdst
    rw [if_pos (by omega), if_neg hdst, show x.target - x.n = x.dst.length by omega]
    exact ⟨update_self .., rfl, rfl, rfl⟩

/-- The line discipline. -/
structure LineDiscipline (s : State P) : Prop where
  /-- `r <= w <= e <= r + INPUT_BUF`, where the indices may wrap. -/
  order : (s.input.w - s.input.r).toNat ≤ (s.input.e - s.input.r).toNat ∧
    (s.input.e - s.input.r).toNat ≤ INPUT_BUF
  /-- No unread byte is overwritten. -/
  kept : ∀ ev s', s.next ev = some s' → ∀ i < (s.input.w - s.input.r).toNat,
    s'.input.buf (Ring.slot INPUT_BUF (s.input.r + BitVec.ofNat 32 i)) =
      s.input.buf (Ring.slot INPUT_BUF (s.input.r + BitVec.ofNat 32 i))
  /-- The bytes taken, with the `C('D')`s, and then those in the buffer, are what was typed after editing. -/
  stream : (edited s.typed).committed = s.taken.map Prod.snd ++ Ring.contents s.input.buf s.input.r s.input.w
  line : (edited s.typed).line = Ring.contents s.input.buf s.input.w s.input.e
  /-- The calls that returned stored the bytes that they took. -/
  done : ∀ d ∈ s.done, d.Ok s.taken
  /-- A `C('D')` is taken by one call, which takes nothing else and returns 0. -/
  eof : ∀ t ∈ s.taken, t.2 = C 'D' → ∃ d ∈ s.done, d.read.call = t.1 ∧ d.eof ∧ d.read.dst = [] ∧ d.ret = 0 ∧
    0 < d.read.target ∧ bytesOf s.taken t.1 = [C 'D'] ∧ ∀ d' ∈ s.done, d'.read.call = t.1 → d' = d
  /-- It ends the read that meets it, and stays in the buffer if that read already has bytes. -/
  ctrlD : ∀ p x, s.pc p = .loop x → 0 < x.n → s.input.r ≠ s.input.w → s.input.front = C 'D' →
    ∃ s', s.next (.step p) = some s' ∧ s'.pc p = .out ∧
      if x.dst = [] then s'.taken = s.taken ++ [(x.call, C 'D')] ∧ s'.done = s.done ++ [⟨x, true, 0⟩]
      else s'.input = s.input ∧ s'.taken = s.taken ∧ s'.done = s.done ++ [⟨x, false, x.dst.length⟩]
  /-- Nobody sleeps while there is something to read. -/
  awake : ∀ p x, s.pc p = .asleep x → s.input.r = s.input.w

theorem line_discipline (h : (lts P).Reachable s) : LineDiscipline s := by
  have hinv := inv_of_reachable h
  obtain ⟨hw, he, hcommitted, hline⟩ := hinv.indices
  exact ⟨⟨hw, he⟩, fun ev s' hnext i hi => hinv.buf hnext hi, hcommitted, hline, hinv.calls.done_ok,
    fun t ht hD => hinv.eof ht hD, fun p x hp hn hne hD => hinv.ctrlD hp hn hne hD, hinv.asleep⟩

/-- Two readers, and indices that are about to wrap. -/
def quiet : State (Fin 2) where
  input := ⟨fun _ => 0, 0xfffffffe, 0xfffffffe, 0xfffffffe⟩
  lock := none
  pc _ := .out
  killed _ := false
  calls := 0
  typed := []
  taken := []
  done := []

/-- `ab`, a backspace, and a `C('D')` behind the `a`: the first read returns the `a` and the second one 0. -/
theorem line_discipline_eof : ∃ s, (lts (Fin 2)).Reachable s ∧ s.taken = [(0, 97), (1, C 'D')] ∧
    (edited s.typed).committed = [97, C 'D'] := by
  obtain ⟨s, hs, hend⟩ := Lts.Run.exists_of_exec (lts (Fin 2)) (fun _ _ => true) quiet
    [.read 0 5, .acquire 0, .step 0, .intr, .getc 97, .getc 98, .getc 0x7f, .getc 4, .iret, .acquire 0, .step 0,
      .step 0, .read 1 5, .acquire 1, .step 1]
    (fun s => s.taken = [(0, 97), (1, C 'D')] ∧ s.input.r = s.input.w)
    ⟨rfl, rfl, rfl, fun _ => rfl, rfl, rfl, rfl⟩ (by decide +kernel)
  obtain ⟨htaken, hempty⟩ := of_decide_eq_true hend
  have hstream := (line_discipline hs.reachable).stream
  rw [hempty, htaken] at hstream
  refine ⟨s, hs.reachable, htaken, ?_⟩
  simpa [Ring.contents] using hstream

end Console

end Xv6
