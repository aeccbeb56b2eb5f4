import Mathlib.Data.Finset.Card
import Xv6.Bio
import Xv6.Lib.Lts

/-!
# The buffer cache with any number of users (`bio.c`)

Any number of uses of blocks of one device, interleaved: `bread`, changes of the data each followed by `log_write` or
`bwrite`, and `brelse`. A process that has two buffers at a time, as `write_log` and `install_trans` do, is two uses
here, and `copy` is its `memmove` from one to the other. The critical sections of `bcache.lock`, taking and releasing
the sleep lock of a buffer, and the transfer of a block by `iderw` are single steps.

The cache is compared with `Plain`, an array of blocks each used by one at a time. What the users can see is recorded
in the history of the cache, and `Plain` can do it all.
-/

namespace Xv6

open Function

namespace Bcache

/-- `struct buf`; `lock` is who holds the sleep lock, and `valid` and `dirty` are the flags. -/
structure Buf (U : Type) where
  dev : ℕ
  blockno : ℕ
  valid : Bool
  dirty : Bool
  lock : Option U
  refcnt : ℕ
  data : Block

/-- How far a use has come. -/
inductive Stage where
  /-- `acquiresleep(&b->lock)` in `bget`. -/
  | wait
  /-- The test of `B_VALID` in `bread`. -/
  | test
  /-- `iderw` in `bread`. -/
  | read
  /-- `bread` has returned; `changed` means that `log_write` or `bwrite` has still to be called. -/
  | held (changed : Bool)
  /-- `iderw` in `bwrite`. -/
  | write
  /-- `brelse` has released the sleep lock. -/
  | leave
deriving DecidableEq

/-- A use of block `k` in buffer `b`. -/
structure Use (n : ℕ) where
  b : Fin n
  k : ℕ
  stage : Stage
deriving DecidableEq

/-- What the users see: `bread` returns contents, they are changed or copied from another block, and the use ends. -/
inductive Action (U : Type) where
  | bread (u : U) (k : ℕ) (v : Block)
  | modify (u : U) (v : Block)
  | copy (u v : U)
  | brelse (u : U)

/-- `n` buffers, their order from `bcache.head.next` on, the disk, the uses, and what the users have seen. -/
structure State (n : ℕ) (U : Type) where
  buf : Fin n → Buf U
  lru : List (Fin n)
  disk : ℕ → Block
  use : U → Option (Use n)
  hist : List (Action U)

/-- What can happen. -/
inductive Event (U : Type) where
  | bget (u : U) (k : ℕ)
  /-- The next step of a use, where there is no choice. -/
  | step (u : U)
  | modify (u : U) (v : Block)
  /-- `memmove(u->data, v->data, BSIZE)`. -/
  | copy (u v : U)
  | logWrite (u : U)
  | bwrite (u : U)
  | brelse (u : U)

variable {n : ℕ} {U : Type} [DecidableEq U]

namespace State

/-- The use `u` goes on to `w`, and its buffer becomes `B`. -/
def goto (s : State n U) (u : U) (w : Use n) (B : Buf U) : State n U :=
  { s with buf := update s.buf w.b B, use := update s.use u (some w) }

/-- The users see `a`. -/
def see (s : State n U) (a : Action U) : State n U := { s with hist := s.hist ++ [a] }

/-- `bget`, up to `acquiresleep`; no successor is the panic. -/
def bget (s : State n U) (dev : ℕ) (u : U) (k : ℕ) : Option (State n U) :=
  match s.lru.find? (fun b => (s.buf b).dev = dev ∧ (s.buf b).blockno = k) with
  | some b => some (s.goto u ⟨b, k, .wait⟩ { s.buf b with refcnt := (s.buf b).refcnt + 1 })
  | none =>
    match s.lru.reverse.find? (fun b => (s.buf b).refcnt = 0 ∧ (s.buf b).dirty = false) with
    | some b => some (s.goto u ⟨b, k, .wait⟩
        { s.buf b with dev := dev, blockno := k, valid := false, dirty := false, refcnt := 1 })
    | none => none

/-- `iderw`, for use `u` of block `k`. -/
def iderw (s : State n U) (u : U) (b : Fin n) (k : ℕ) : State n U :=
  let B := s.buf b
  if B.dirty then
    { s.goto u ⟨b, k, .held false⟩ { B with dirty := false, valid := true } with
      disk := update s.disk B.blockno B.data }
  else s.goto u ⟨b, k, .held false⟩ { B with data := s.disk B.blockno, valid := true }

/-- The second half of `brelse`. -/
def unref (s : State n U) (u : U) (b : Fin n) : State n U :=
  let B := s.buf b
  { s with
    buf := update s.buf b { B with refcnt := B.refcnt - 1 }
    lru := if B.refcnt - 1 = 0 then b :: s.lru.erase b else s.lru
    use := update s.use u none }

/-- The next step of use `u`. -/
def step (s : State n U) (u : U) : Option (State n U) :=
  match s.use u with
  | some ⟨b, k, .wait⟩ =>
    if (s.buf b).lock = none then some (s.goto u ⟨b, k, .test⟩ { s.buf b with lock := some u }) else none
  | some ⟨b, k, .test⟩ =>
    if (s.buf b).valid then some ((s.goto u ⟨b, k, .held false⟩ (s.buf b)).see (.bread u k (s.buf b).data))
    else some (s.goto u ⟨b, k, .read⟩ (s.buf b))
  | some ⟨b, k, .read⟩ =>
    let s' := s.iderw u b k
    some (s'.see (.bread u k (s'.buf b).data))
  | some ⟨b, k, .write⟩ => some (s.iderw u b k)
  | some ⟨b, _, .leave⟩ => some (s.unref u b)
  | _ => none

/-- The effect of an event, for uses of blocks of device `dev`. -/
def next (dev : ℕ) (s : State n U) : Event U → Option (State n U)
  | .bget u k => if s.use u = none ∧ k ≠ 0 then s.bget dev u k else none
  | .step u => s.step u
  | .modify u v => match s.use u with
    | some ⟨b, k, .held _⟩ =>
      some ((s.goto u ⟨b, k, .held true⟩ { s.buf b with data := v }).see (.modify u v))
    | _ => none
  | .copy u v => match s.use u, s.use v with
    | some ⟨b, k, .held _⟩, some ⟨b', _, .held _⟩ =>
      some ((s.goto u ⟨b, k, .held true⟩ { s.buf b with data := (s.buf b').data }).see (.copy u v))
    | _, _ => none
  | .logWrite u => match s.use u with
    | some ⟨b, k, .held _⟩ => some (s.goto u ⟨b, k, .held false⟩ { s.buf b with dirty := true })
    | _ => none
  | .bwrite u => match s.use u with
    | some ⟨b, k, .held _⟩ => some (s.goto u ⟨b, k, .write⟩ { s.buf b with dirty := true })
    | _ => none
  | .brelse u => match s.use u with
    | some ⟨b, k, .held false⟩ =>
      some ((s.goto u ⟨b, k, .leave⟩ { s.buf b with lock := none }).see (.brelse u))
    | _ => none

end State

/-- The cache as `binit` leaves it, over a disk. -/
def binit (n : ℕ) (U : Type) (disk : ℕ → Block) : State n U where
  buf _ := ⟨0, 0, false, false, none, 0, fun _ => 0⟩
  lru := (List.finRange n).reverse
  disk := disk
  use _ := none
  hist := []

/-- Every interleaving of uses of blocks of device `dev`. -/
def lts (n : ℕ) (U : Type) [DecidableEq U] (dev : ℕ) (disk : ℕ → Block) : Lts (State n U) (Event U) where
  init s := s = binit n U disk
  next s := s.next dev

/-! ## The array of blocks -/

/-- An array of blocks, each of them used by at most one user at a time. -/
structure Plain (U : Type) where
  array : ℕ → Block
  use : U → Option ℕ

namespace Plain

/-- A user starts to use a block that nobody uses and sees its contents; changes it; copies another one that it uses;
stops. -/
def Next (a : Plain U) : Action U → Plain U → Prop
  | .bread u k v, a' => a.use u = none ∧ (∀ u', a.use u' ≠ some k) ∧ v = a.array k ∧
      a' = { a with use := update a.use u (some k) }
  | .modify u v, a' => ∃ k, a.use u = some k ∧ a' = { a with array := update a.array k v }
  | .copy u u', a' => ∃ k k', a.use u = some k ∧ a.use u' = some k' ∧
      a' = { a with array := update a.array k (a.array k') }
  | .brelse u, a' => (∃ k, a.use u = some k) ∧ a' = { a with use := update a.use u none }

/-- The array does a whole history. -/
inductive Does (a0 : Plain U) : List (Action U) → Plain U → Prop where
  | nil : Does a0 [] a0
  | snoc {h : List (Action U)} {a a' : Plain U} {e : Action U} : Does a0 h a → a.Next e a' → Does a0 (h ++ [e]) a'

end Plain

/-! ## The invariant -/

/-- The stages at which the sleep lock is held. -/
def Stage.Locked : Stage → Bool
  | .wait | .leave => false
  | _ => true

/-- The stages at which the user has the block. -/
def Stage.Open : Stage → Bool
  | .held _ | .write => true
  | _ => false

theorem Stage.locked_of_open {st : Stage} (h : st.Open = true) : st.Locked = true := by
  cases st <;> simp [Stage.Open, Stage.Locked] at *

variable {s s' : State n U} {a a' : Plain U} {dev k : ℕ} {b : Fin n} {u : U} {w : Use n} {st : Stage} {B : Buf U}

/-- Buffer `b` is that of block `k`. -/
def State.Caches (s : State n U) (dev : ℕ) (b : Fin n) (k : ℕ) : Prop :=
  (s.buf b).dev = dev ∧ (s.buf b).blockno = k

/-- The references: every buffer is in the list, a block has at most one buffer, `refcnt` is the number of the uses of
a buffer, and they are uses of its block. -/
structure Refs (dev : ℕ) (s : State n U) : Prop where
  lru : ∀ b, b ∈ s.lru
  unique : ∀ b b' k, k ≠ 0 → s.Caches dev b k → s.Caches dev b' k → b = b'
  refcnt : ∀ b, ∃ users : Finset U, (∀ u, u ∈ users ↔ ∃ w, s.use u = some w ∧ w.b = b) ∧
    users.card = (s.buf b).refcnt
  named : ∀ u w, s.use u = some w → w.k ≠ 0 ∧ s.Caches dev w.b w.k

/-- The contents: who holds a lock, and what a valid buffer and the disk hold of the array `a`. -/
structure Sim (dev : ℕ) (s : State n U) (a : Plain U) : Prop where
  lock : ∀ u b, (s.buf b).lock = some u ↔ ∃ w, s.use u = some w ∧ w.b = b ∧ w.stage.Locked = true
  valid : ∀ u w, s.use u = some w → w.stage.Open = true → (s.buf w.b).valid = true
  write : ∀ u w, s.use u = some w → w.stage = .write → (s.buf w.b).dirty = true
  read : ∀ u w, s.use u = some w → w.stage = .read → (s.buf w.b).valid = false
  dirty : ∀ b, (s.buf b).dirty = true → (s.buf b).valid = true
  data : ∀ b k, k ≠ 0 → s.Caches dev b k → (s.buf b).valid = true → (s.buf b).data = a.array k
  disk : ∀ k, k ≠ 0 → a.array k ≠ s.disk k → ∃ b, s.Caches dev b k ∧ (s.buf b).valid = true ∧
    ((s.buf b).dirty = true ∨ ∃ u, s.use u = some ⟨b, k, .held true⟩)
  plain : ∀ u k, a.use u = some k ↔ ∃ w, s.use u = some w ∧ w.k = k ∧ w.stage.Open = true

/-! ## The steps -/

omit [DecidableEq U] in
theorem caches_update (hbuf : s'.buf = update s.buf b B) (hdev : B.dev = (s.buf b).dev)
    (hblockno : B.blockno = (s.buf b).blockno) (b' : Fin n) (j : ℕ) : s'.Caches dev b' j ↔ s.Caches dev b' j := by
  by_cases hb : b' = b
  · subst hb
    simp [State.Caches, hbuf, hdev, hblockno]
  · simp [State.Caches, hbuf, hb]

variable {st' : Stage} {c : Bool} {e : Event U}

/-- A step of a use that changes nothing but the contents of its buffer. -/
theorem Refs.goto (h : Refs dev s) (hw : s.use u = some ⟨b, k, st⟩)
    (hbuf : s'.buf = update s.buf b B) (huse : s'.use = update s.use u (some ⟨b, k, st'⟩))
    (hlru : s'.lru = s.lru) (hdev : B.dev = (s.buf b).dev) (hblockno : B.blockno = (s.buf b).blockno)
    (hrefcnt : B.refcnt = (s.buf b).refcnt) : Refs dev s' := by
  have hcaches : ∀ b' j, s'.Caches dev b' j ↔ s.Caches dev b' j := caches_update hbuf hdev hblockno
  -- the same uses of the same buffers
  have huses : ∀ u' b', (∃ w, s'.use u' = some w ∧ w.b = b') ↔ ∃ w, s.use u' = some w ∧ w.b = b' := by
    intro u' b'
    by_cases hu : u' = u
    · subst hu
      simp [huse, hw]
    · simp [huse, hu]
  refine ⟨fun b' => hlru ▸ h.lru b', fun b' b'' j hj => ?_, fun b' => ?_, fun u' w hu' => ?_⟩
  · rw [hcaches, hcaches]
    exact h.unique b' b'' j hj
  · obtain ⟨users, hmem, hcard⟩ := h.refcnt b'
    refine ⟨users, fun u' => (hmem u').trans (huses u' b').symm, ?_⟩
    by_cases hb : b' = b
    · subst hb
      simp [hbuf, hrefcnt, hcard]
    · simp [hbuf, hb, hcard]
  · by_cases hu : u' = u
    · subst hu
      rw [huse, update_self, Option.some.injEq] at hu'
      obtain ⟨hk, hc⟩ := h.named u' _ hw
      subst hu'
      exact ⟨hk, (hcaches _ _).mpr hc⟩
    · rw [huse, update_of_ne hu] at hu'
      obtain ⟨hk, hc⟩ := h.named u' w hu'
      exact ⟨hk, (hcaches _ _).mpr hc⟩

/-- A step of a use whose buffer nobody else has locked: what it must leave behind in its buffer. -/
theorem Sim.goto (hr : Refs dev s) (h : Sim dev s a) (hw : s.use u = some ⟨b, k, st⟩)
    (hfree : ∀ u', (s.buf b).lock = some u' → u' = u) (hbuf : s'.buf = update s.buf b B)
    (huse : s'.use = update s.use u (some ⟨b, k, st'⟩)) (hdev : B.dev = (s.buf b).dev)
    (hblockno : B.blockno = (s.buf b).blockno)
    (hlock : B.lock = if st'.Locked then some u else none) (hvalid : st'.Open = true → B.valid = true)
    (hwrite : st' = .write → B.dirty = true) (hread : st' = .read → B.valid = false)
    (hdirty : B.dirty = true → B.valid = true) (hdata : B.valid = true → B.data = a'.array k)
    (hdisk : a'.array k ≠ s'.disk k → B.valid = true ∧ (B.dirty = true ∨ st' = .held true))
    (hother : ∀ j, j ≠ k → a'.array j = a.array j ∧ s'.disk j = s.disk j)
    (hplain : a'.use = update a.use u (if st'.Open then some k else none)) : Sim dev s' a' := by
  obtain ⟨hk, hb⟩ := hr.named u _ hw
  have hcaches : ∀ b' j, s'.Caches dev b' j ↔ s.Caches dev b' j := caches_update hbuf hdev hblockno
  have hself : s'.buf b = B := by rw [hbuf, update_self]
  have hbuf' : ∀ b', b' ≠ b → s'.buf b' = s.buf b' := fun b' hb' => by rw [hbuf, update_of_ne hb']
  have huse' : ∀ u', u' ≠ u → s'.use u' = s.use u' := fun u' hu' => by rw [huse, update_of_ne hu']
  have huself : s'.use u = some ⟨b, k, st'⟩ := by rw [huse, update_self]
  -- the others that are past the lock are at other buffers
  have hnot : ∀ u' w, u' ≠ u → s.use u' = some w → w.stage.Locked = true → w.b ≠ b := by
    intro u' w hu' hw' hl hwb
    exact hu' (hfree u' ((h.lock u' b).mpr ⟨w, hw', hwb, hl⟩))
  refine ⟨fun u' b' => ?_, fun u' w hw' hopen => ?_, fun u' w hw' hst => ?_, fun u' w hw' hst => ?_, fun b' hd => ?_,
    fun b' j hj hc hv => ?_, fun j hj hne => ?_, fun u' j => ?_⟩
  · -- the lock
    by_cases hu : u' = u
    · subst hu
      rw [huself]
      by_cases hb' : b' = b
      · subst hb'
        rw [hself, hlock]
        cases hst : st'.Locked <;> simp [hst]
      · have hold := h.lock u' b'
        rw [hw] at hold
        rw [hbuf' b' hb', hold]
        simp [Ne.symm hb']
    · rw [huse' u' hu]
      by_cases hb' : b' = b
      · subst hb'
        rw [hself, hlock]
        constructor
        · intro hl
          cases hst : st'.Locked <;> simp [hst] at hl
          exact absurd hl.symm hu
        · rintro ⟨w, hw', hwb, hl⟩
          exact absurd hwb (hnot u' w hu hw' hl)
      · rw [hbuf' b' hb']
        exact h.lock u' b'
  · by_cases hu : u' = u
    · subst hu
      obtain rfl := Option.some.inj (huself.symm.trans hw')
      rw [hself]
      exact hvalid hopen
    · rw [huse' u' hu] at hw'
      rw [hbuf' w.b (hnot u' w hu hw' (Stage.locked_of_open hopen))]
      exact h.valid u' w hw' hopen
  · by_cases hu : u' = u
    · subst hu
      obtain rfl := Option.some.inj (huself.symm.trans hw')
      rw [hself]
      exact hwrite hst
    · rw [huse' u' hu] at hw'
      rw [hbuf' w.b (hnot u' w hu hw' (by rw [hst]; rfl))]
      exact h.write u' w hw' hst
  · by_cases hu : u' = u
    · subst hu
      obtain rfl := Option.some.inj (huself.symm.trans hw')
      rw [hself]
      exact hread hst
    · rw [huse' u' hu] at hw'
      rw [hbuf' w.b (hnot u' w hu hw' (by rw [hst]; rfl))]
      exact h.read u' w hw' hst
  · by_cases hb' : b' = b
    · rw [hb', hself] at hd ⊢
      exact hdirty hd
    · rw [hbuf' b' hb'] at hd ⊢
      exact h.dirty b' hd
  · rw [hcaches] at hc
    by_cases hb' : b' = b
    · obtain rfl : j = k := by
        rw [hb'] at hc
        exact hc.2.symm.trans hb.2
      rw [hb', hself] at hv ⊢
      exact hdata hv
    · -- another buffer is of another block
      have hjk : j ≠ k := by
        rintro rfl
        exact hb' (hr.unique b' b j hj hc hb)
      rw [hbuf' b' hb'] at hv ⊢
      rw [(hother j hjk).1]
      exact h.data b' j hj hc hv
  · by_cases hjk : j = k
    · subst hjk
      obtain ⟨hv, hd⟩ := hdisk hne
      refine ⟨b, (hcaches _ _).mpr hb, by rw [hself]; exact hv, ?_⟩
      rw [hself]
      exact hd.imp_right fun hst => ⟨u, by rw [huself, hst]⟩
    · rw [(hother j hjk).1, (hother j hjk).2] at hne
      obtain ⟨b', hc, hv, hd⟩ := h.disk j hj hne
      have hb' : b' ≠ b := by
        rintro rfl
        exact hjk (hc.2.symm.trans hb.2)
      refine ⟨b', (hcaches _ _).mpr hc, by rw [hbuf' b' hb']; exact hv, ?_⟩
      rw [hbuf' b' hb']
      refine hd.imp_right ?_
      rintro ⟨u', hu'⟩
      have hne : u' ≠ u := by
        rintro rfl
        rw [hw, Option.some.injEq, Use.mk.injEq] at hu'
        exact hb' hu'.1.symm
      exact ⟨u', (huse' u' hne).trans hu'⟩
  · by_cases hu : u' = u
    · subst hu
      rw [hplain, update_self, huself]
      cases hst : st'.Open <;> simp [hst]
    · rw [hplain, update_of_ne hu, huse' u' hu]
      exact h.plain u' j

omit [DecidableEq U] in
/-- A step of a use without the lock: the buffers keep their contents, or one that is clean and unused is recycled. -/
theorem Sim.unlocked (h : Sim dev s a) (hdisk : s'.disk = s.disk)
    (huse : ∀ u' w, w.stage.Locked = true → (s'.use u' = some w ↔ s.use u' = some w))
    (hbuf : ∀ b, (∃ m, s'.buf b = { s.buf b with refcnt := m }) ∨ ((s'.buf b).lock = (s.buf b).lock ∧
      (s'.buf b).valid = false ∧ (s'.buf b).dirty = false ∧ (s.buf b).dirty = false ∧
      ∀ u' w, s.use u' = some w → w.b ≠ b)) : Sim dev s' a := by
  have hlock : ∀ b, (s'.buf b).lock = (s.buf b).lock := by
    intro b
    rcases hbuf b with ⟨m, hm⟩ | ⟨hl, -⟩
    · rw [hm]
    · exact hl
  have hused : ∀ u' w, s.use u' = some w → ∃ m, s'.buf w.b = { s.buf w.b with refcnt := m } := fun u' w hw =>
    (hbuf w.b).resolve_right fun hno => hno.2.2.2.2 u' w hw rfl
  refine ⟨fun u' b => ?_, fun u' w hw ho => ?_, fun u' w hw hst => ?_, fun u' w hw hst => ?_, fun b hd => ?_,
    fun b j hj hc hv => ?_, fun j hj hne => ?_, fun u' j => ?_⟩
  · rw [hlock, h.lock]
    constructor
    · rintro ⟨w, hw, hb, hl⟩
      exact ⟨w, (huse u' w hl).mpr hw, hb, hl⟩
    · rintro ⟨w, hw, hb, hl⟩
      exact ⟨w, (huse u' w hl).mp hw, hb, hl⟩
  · have hw' := (huse u' w (Stage.locked_of_open ho)).mp hw
    obtain ⟨m, hm⟩ := hused u' w hw'
    rw [hm]
    exact h.valid u' w hw' ho
  · have hw' := (huse u' w (by rw [hst]; rfl)).mp hw
    obtain ⟨m, hm⟩ := hused u' w hw'
    rw [hm]
    exact h.write u' w hw' hst
  · have hw' := (huse u' w (by rw [hst]; rfl)).mp hw
    obtain ⟨m, hm⟩ := hused u' w hw'
    rw [hm]
    exact h.read u' w hw' hst
  · rcases hbuf b with ⟨m, hm⟩ | ⟨-, -, hclean, -⟩
    · rw [hm] at hd ⊢
      exact h.dirty b hd
    · exact absurd (hclean.symm.trans hd) Bool.false_ne_true
  · rcases hbuf b with ⟨m, hm⟩ | ⟨-, hno, -⟩
    · rw [State.Caches, hm] at hc
      rw [hm] at hv ⊢
      exact h.data b j hj hc hv
    · exact absurd (hno.symm.trans hv) Bool.false_ne_true
  · rw [hdisk] at hne
    obtain ⟨b, hc, hv, hd⟩ := h.disk j hj hne
    obtain ⟨m, hm⟩ : ∃ m, s'.buf b = { s.buf b with refcnt := m } := by
      refine (hbuf b).resolve_right ?_
      rintro ⟨-, -, -, hclean, hno⟩
      rcases hd with hd | ⟨u', hu'⟩
      · exact absurd (hclean.symm.trans hd) Bool.false_ne_true
      · exact hno u' _ hu' rfl
    refine ⟨b, by rw [State.Caches, hm]; exact hc, by rw [hm]; exact hv, ?_⟩
    rw [hm]
    exact hd.imp_right (Exists.imp fun u' hu' => (huse u' _ rfl).mpr hu')
  · rw [h.plain]
    constructor
    · rintro ⟨w, hw, hk, ho⟩
      exact ⟨w, (huse u' w (Stage.locked_of_open ho)).mpr hw, hk, ho⟩
    · rintro ⟨w, hw, hk, ho⟩
      exact ⟨w, (huse u' w (Stage.locked_of_open ho)).mp hw, hk, ho⟩

/-- A step that changes no buffer but its reference count: a use that comes or goes without the lock. -/
theorem Sim.frame (h : Sim dev s a) {o : Option (Use n)} (hout : ∀ w, s.use u = some w → w.stage.Locked = false)
    (hin : ∀ w, o = some w → w.stage = .wait) (huse : s'.use = update s.use u o) (hdisk : s'.disk = s.disk)
    (hbuf : ∀ b, ∃ m, s'.buf b = { s.buf b with refcnt := m }) : Sim dev s' a := by
  refine h.unlocked hdisk (fun u' w hl => ?_) fun b => .inl (hbuf b)
  -- the uses past the lock are the same
  rw [huse]
  by_cases hu : u' = u
  · subst hu
    rw [update_self]
    constructor
    · intro ho
      rw [hin w ho] at hl
      exact absurd hl Bool.false_ne_true
    · intro ho
      exact absurd ((hout w ho).symm.trans hl) Bool.false_ne_true
  · rw [update_of_ne hu]

/-- A use comes to a buffer of its block. -/
theorem Refs.enter (h : Refs dev s) (hu : s.use u = none) (hk : k ≠ 0) (hb : s.Caches dev b k) :
    Refs dev (s.goto u ⟨b, k, .wait⟩ { s.buf b with refcnt := (s.buf b).refcnt + 1 }) := by
  have hcaches : ∀ b' j, (s.goto u ⟨b, k, .wait⟩ { s.buf b with refcnt := (s.buf b).refcnt + 1 }).Caches dev b' j ↔
      s.Caches dev b' j := caches_update rfl rfl rfl
  refine ⟨h.lru, fun b' b'' j hj => ?_, fun b' => ?_, fun u' w hw => ?_⟩
  · rw [hcaches, hcaches]
    exact h.unique b' b'' j hj
  · obtain ⟨users, hmem, hcard⟩ := h.refcnt b'
    have hnot : u ∉ users := by
      rw [hmem, hu]
      simp
    by_cases hb' : b' = b
    · subst hb'
      refine ⟨insert u users, fun u' => ?_, by simp [State.goto, Finset.card_insert_of_notMem hnot, hcard]⟩
      rw [Finset.mem_insert, hmem]
      by_cases hu' : u' = u <;> simp [State.goto, hu']
    · refine ⟨users, fun u' => ?_, by simp [State.goto, hb', hcard]⟩
      rw [hmem]
      by_cases hu' : u' = u
      · simp [State.goto, hu', hu, Ne.symm hb']
      · simp [State.goto, hu']
  · by_cases hu' : u' = u
    · obtain rfl : ⟨b, k, .wait⟩ = w := by simpa [State.goto, hu'] using hw
      exact ⟨hk, (hcaches _ _).mpr hb⟩
    · obtain ⟨hk', hc⟩ := h.named u' w (by simpa [State.goto, hu'] using hw)
      exact ⟨hk', (hcaches _ _).mpr hc⟩

omit [DecidableEq U] in
/-- A buffer without references has no users. -/
theorem Refs.no_users (h : Refs dev s) (hzero : (s.buf b).refcnt = 0) (hw : s.use u = some w) : w.b ≠ b := by
  intro hwb
  obtain ⟨users, hmem, hcard⟩ := h.refcnt b
  rw [hzero, Finset.card_eq_zero] at hcard
  have : u ∈ users := (hmem u).mpr ⟨w, hw, hwb⟩
  simp [hcard] at this

section
variable (hzero : (s.buf b).refcnt = 0) (hu : s.use u = none)
include hzero hu

/-- A use comes, and a buffer without references becomes that of its block. -/
theorem Refs.recycle (h : Refs dev s) (hk : k ≠ 0) (hnone : ∀ b', ¬ s.Caches dev b' k) :
    Refs dev (s.goto u ⟨b, k, .wait⟩
      { s.buf b with dev := dev, blockno := k, valid := false, dirty := false, refcnt := 1 }) := by
  set s' := s.goto u ⟨b, k, .wait⟩
    { s.buf b with dev := dev, blockno := k, valid := false, dirty := false, refcnt := 1 } with hs'
  have hself : ∀ j, s'.Caches dev b j ↔ j = k := by
    intro j
    simp [hs', State.Caches, State.goto, eq_comm]
  have hother : ∀ b' j, b' ≠ b → (s'.Caches dev b' j ↔ s.Caches dev b' j) := by
    intro b' j hb'
    simp [hs', State.Caches, State.goto, hb']
  refine ⟨h.lru, fun b' b'' j hj hc hc' => ?_, fun b' => ?_, fun u' w hw => ?_⟩
  · -- the new name is new
    by_cases hb' : b' = b <;> by_cases hb'' : b'' = b
    · rw [hb', hb'']
    · rw [hb', hself] at hc
      exact absurd (hc ▸ (hother b'' j hb'').mp hc') (hnone b'')
    · rw [hb'', hself] at hc'
      exact absurd (hc' ▸ (hother b' j hb').mp hc) (hnone b')
    · exact h.unique b' b'' j hj ((hother b' j hb').mp hc) ((hother b'' j hb'').mp hc')
  · by_cases hb' : b' = b
    · refine ⟨{u}, fun u' => ?_, by simp [hs', State.goto, hb']⟩
      rw [Finset.mem_singleton]
      by_cases hu' : u' = u
      · simp [hs', State.goto, hu', hb']
      · have hno : ∀ w, s.use u' = some w → w.b ≠ b := fun w hw => h.no_users hzero hw
        simp [hs', State.goto, hu', hb']
        exact hno
    · obtain ⟨users, hmem, hcard⟩ := h.refcnt b'
      refine ⟨users, fun u' => ?_, by simp [hs', State.goto, hb', hcard]⟩
      rw [hmem]
      by_cases hu' : u' = u
      · simp [hs', State.goto, hu', hu, Ne.symm hb']
      · simp [hs', State.goto, hu']
  · by_cases hu' : u' = u
    · obtain rfl : ⟨b, k, .wait⟩ = w := by simpa [hs', State.goto, hu'] using hw
      exact ⟨hk, (hself k).mpr rfl⟩
    · have hw' : s.use u' = some w := by simpa [hs', State.goto, hu'] using hw
      obtain ⟨hk', hc⟩ := h.named u' w hw'
      exact ⟨hk', (hother _ _ (h.no_users hzero hw')).mpr hc⟩

/-- The recycled buffer was clean, so that nothing is lost. -/
theorem Sim.recycle (hr : Refs dev s) (h : Sim dev s a) (hclean : (s.buf b).dirty = false) :
    Sim dev (s.goto u ⟨b, k, .wait⟩
      { s.buf b with dev := dev, blockno := k, valid := false, dirty := false, refcnt := 1 }) a := by
  refine h.unlocked rfl (fun u' w hl => ?_) fun b' => ?_
  · -- the uses past the lock are those of before
    by_cases hu' : u' = u
    · simp only [State.goto, hu', update_self, hu]
      constructor
      · rintro ⟨⟩
        exact absurd hl Bool.false_ne_true
      · exact nofun
    · simp [State.goto, hu']
  · by_cases hb' : b' = b
    · subst hb'
      exact .inr ⟨by simp [State.goto], by simp [State.goto], by simp [State.goto], hclean,
        fun u' w hw => hr.no_users hzero hw⟩
    · exact .inl ⟨_, by simp [State.goto, hb']; rfl⟩

end

/-- A use ends. -/
theorem Refs.unref (h : Refs dev s) (hw : s.use u = some ⟨b, k, st⟩) : Refs dev (s.unref u b) := by
  have hcaches : ∀ b' j, (s.unref u b).Caches dev b' j ↔ s.Caches dev b' j := caches_update rfl rfl rfl
  refine ⟨fun b' => ?_, fun b' b'' j hj => ?_, fun b' => ?_, fun u' w hw' => ?_⟩
  · have hmem := h.lru b'
    by_cases hb' : b' = b
    · subst hb'
      by_cases hzero : (s.buf b').refcnt - 1 = 0 <;> simp [State.unref, hzero, hmem]
    · by_cases hzero : (s.buf b).refcnt - 1 = 0 <;>
        simp [State.unref, hzero, hb', List.mem_erase_of_ne hb', hmem]
  · rw [hcaches, hcaches]
    exact h.unique b' b'' j hj
  · obtain ⟨users, hmem, hcard⟩ := h.refcnt b'
    by_cases hb' : b' = b
    · subst hb'
      have hin : u ∈ users := (hmem u).mpr ⟨_, hw, rfl⟩
      refine ⟨users.erase u, fun u' => ?_, by simp [State.unref, Finset.card_erase_of_mem hin, hcard]⟩
      rw [Finset.mem_erase, hmem]
      by_cases hu' : u' = u <;> simp [State.unref, hu']
    · refine ⟨users, fun u' => ?_, by simp [State.unref, hb', hcard]⟩
      rw [hmem]
      by_cases hu' : u' = u
      · simp [State.unref, hu', hw, Ne.symm hb']
      · simp [State.unref, hu']
  · have hu' : u' ≠ u := by
      rintro rfl
      simp [State.unref] at hw'
    obtain ⟨hk, hc⟩ := h.named u' w (by simpa [State.unref, hu'] using hw')
    exact ⟨hk, (hcaches _ _).mpr hc⟩

section
variable (hr : Refs dev s) (h : Sim dev s a) (hw : s.use u = some ⟨b, k, st⟩)
include h hw

omit [DecidableEq U] in
theorem Sim.holder (hl : st.Locked = true) : (s.buf b).lock = some u := (h.lock u b).mpr ⟨_, hw, rfl, hl⟩

omit [DecidableEq U] in
theorem Sim.only_holder (hl : st.Locked = true) (u' : U) (hu' : (s.buf b).lock = some u') : u' = u := by
  rw [h.holder hw hl, Option.some.injEq] at hu'
  exact hu'.symm

omit [DecidableEq U] in
theorem Sim.plain_use : a.use u = if st.Open then some k else none := by
  cases ho : st.Open with
  | true => exact (h.plain u k).mpr ⟨_, hw, rfl, ho⟩
  | false =>
    cases hu : a.use u with
    | none => rfl
    | some j =>
      obtain ⟨w, hw', -, ho'⟩ := (h.plain u j).mp hu
      obtain rfl := Option.some.inj (hw.symm.trans hw')
      exact absurd (ho.symm.trans ho') Bool.false_ne_true

/-- A step that the users do not see. -/
theorem Sim.plain_same {st' : Stage} (ho : st'.Open = st.Open) :
    a.use = update a.use u (if st'.Open then some k else none) := by
  rw [ho, ← h.plain_use hw, update_eq_self]

include hr

omit [DecidableEq U] in
/-- A block that differs from the disk is in its buffer, and will be written. -/
theorem Sim.disk_at (hfree : ∀ u', (s.buf b).lock = some u' → u' = u) (hne : a.array k ≠ s.disk k) :
    (s.buf b).valid = true ∧ ((s.buf b).dirty = true ∨ st = .held true) := by
  obtain ⟨hk, hc⟩ := hr.named u _ hw
  obtain ⟨b', hc', hv, hd⟩ := h.disk k hk hne
  obtain rfl := hr.unique b' b k hk hc' hc
  refine ⟨hv, hd.imp_right ?_⟩
  rintro ⟨u', hu'⟩
  obtain rfl := hfree u' ((h.lock u' b').mpr ⟨_, hu', rfl, rfl⟩)
  simpa [hw] using hu'

omit [DecidableEq U] in
/-- While the sleep lock is held by one who does not have the block yet, nobody has it. -/
theorem Sim.plain_free (hl : st.Locked = true) (ho : st.Open = false) (u' : U) : a.use u' ≠ some k := by
  intro hu'
  obtain ⟨hk, hc⟩ := hr.named u _ hw
  obtain ⟨w, hw', hwk, ho'⟩ := (h.plain u' k).mp hu'
  obtain ⟨-, hc'⟩ := hr.named u' w hw'
  have hwb : w.b = b := hr.unique w.b b k hk (hwk ▸ hc') hc
  obtain rfl := h.only_holder hw hl u' ((h.lock u' b).mpr ⟨w, hw', hwb, Stage.locked_of_open ho'⟩)
  obtain rfl := Option.some.inj (hw.symm.trans hw')
  exact absurd (ho.symm.trans ho') Bool.false_ne_true

end

/-- What a step leaves: the invariant, for the array of before or for the array after what the users have seen. -/
def After (dev : ℕ) (s : State n U) (a : Plain U) (s' : State n U) : Prop :=
  Refs dev s' ∧ ((s'.hist = s.hist ∧ Sim dev s' a) ∨
    ∃ x a', s'.hist = s.hist ++ [x] ∧ a.Next x a' ∧ Sim dev s' a')

theorem after_bget (hr : Refs dev s) (h : Sim dev s a) (hu : s.use u = none) (hk : k ≠ 0)
    (hs : s.bget dev u k = some s') : After dev s a s' := by
  unfold State.bget at hs
  split at hs
  next b hfind =>
    obtain rfl := Option.some.inj hs
    have hb : s.Caches dev b k := by simpa [State.Caches] using List.find?_some hfind
    refine ⟨hr.enter hu hk hb, .inl ⟨rfl, h.frame (u := u) (o := some ⟨b, k, .wait⟩) ?_ ?_ rfl rfl fun b' => ?_⟩⟩
    · simp [hu]
    · rintro w ⟨⟩
      rfl
    · by_cases hb' : b' = b
      · subst hb'
        exact ⟨_, update_self ..⟩
      · exact ⟨(s.buf b').refcnt, update_of_ne hb' ..⟩
  next hmiss =>
    split at hs
    next b hfind =>
      obtain rfl := Option.some.inj hs
      obtain ⟨hzero, hclean⟩ : (s.buf b).refcnt = 0 ∧ (s.buf b).dirty = false := by simpa using List.find?_some hfind
      have hnone : ∀ b', ¬ s.Caches dev b' k := by
        intro b'
        simpa [State.Caches] using List.find?_eq_none.mp hmiss b' (hr.lru b')
      exact ⟨hr.recycle hzero hu hk hnone, .inl ⟨rfl, h.recycle hzero hu hr hclean⟩⟩
    next => nomatch hs

theorem iderw_read (hclean : (s.buf b).dirty = false) :
    s.iderw u b k = s.goto u ⟨b, k, .held false⟩ { s.buf b with data := s.disk (s.buf b).blockno, valid := true } :=
  if_neg (by simp [hclean])

theorem iderw_write (hdirty : (s.buf b).dirty = true) :
    s.iderw u b k = { s.goto u ⟨b, k, .held false⟩ { s.buf b with dirty := false, valid := true } with
      disk := update s.disk (s.buf b).blockno (s.buf b).data } :=
  if_pos hdirty

theorem after_step (hr : Refs dev s) (h : Sim dev s a) (hs : s.step u = some s') : After dev s a s' := by
  unfold State.step at hs
  split at hs
  next b k hw =>
    -- the sleep lock is taken
    obtain ⟨hfree, rfl⟩ := Lts.of_guard hs
    have hfree' : ∀ u', (s.buf b).lock = some u' → u' = u := by simp [hfree]
    obtain ⟨hk, hc⟩ := hr.named u _ hw
    refine ⟨hr.goto hw rfl rfl rfl rfl rfl rfl, .inl ⟨rfl, ?_⟩⟩
    refine h.goto hr hw hfree' rfl rfl rfl rfl rfl nofun nofun nofun (h.dirty b) (h.data b k hk hc) ?_ (fun _ _ => ⟨rfl, rfl⟩)
      (h.plain_same hw rfl)
    intro hne
    exact (h.disk_at hr hw hfree' hne).imp_right fun hd => .inl (hd.resolve_right nofun)
  next b k hw =>
    obtain ⟨hk, hc⟩ := hr.named u _ hw
    have honly := h.only_holder hw rfl
    split_ifs at hs with hv
    · -- bread returns the cached block
      obtain rfl := Option.some.inj hs
      refine ⟨hr.goto hw rfl rfl rfl rfl rfl rfl, .inr ⟨_, { a with use := update a.use u (some k) }, rfl, ?_, ?_⟩⟩
      · exact ⟨h.plain_use hw, h.plain_free hr hw rfl rfl, h.data b k hk hc hv, rfl⟩
      · refine h.goto hr hw honly rfl rfl rfl rfl (h.holder hw rfl) (fun _ => hv) nofun nofun (h.dirty b)
          (h.data b k hk hc) ?_ (fun _ _ => ⟨rfl, rfl⟩) rfl
        intro hne
        exact (h.disk_at hr hw honly hne).imp_right fun hd => .inl (hd.resolve_right nofun)
    · obtain rfl := Option.some.inj hs
      rw [Bool.not_eq_true] at hv
      refine ⟨hr.goto hw rfl rfl rfl rfl rfl rfl, .inl ⟨rfl, ?_⟩⟩
      refine h.goto hr hw honly rfl rfl rfl rfl (h.holder hw rfl) nofun nofun (fun _ => hv) (h.dirty b)
        (h.data b k hk hc) ?_ (fun _ _ => ⟨rfl, rfl⟩) (h.plain_same hw rfl)
      intro hne
      exact (h.disk_at hr hw honly hne).imp_right fun hd => .inl (hd.resolve_right nofun)
  next b k hw =>
    -- bread reads the block: it is not dirty, as it is not valid
    obtain ⟨hk, hc⟩ := hr.named u _ hw
    have honly := h.only_holder hw rfl
    have hv : (s.buf b).valid = false := h.read u _ hw rfl
    have hclean : (s.buf b).dirty = false := by
      rw [← Bool.not_eq_true]
      intro hd
      exact absurd (hv.symm.trans (h.dirty b hd)) Bool.false_ne_true
    have hsame : s.disk k = a.array k := by
      by_contra hne
      exact absurd (hv.symm.trans (h.disk_at hr hw honly (Ne.symm hne)).1) Bool.false_ne_true
    rw [iderw_read hclean, hc.2] at hs
    obtain rfl := Option.some.inj hs
    refine ⟨hr.goto hw rfl rfl rfl rfl rfl rfl,
      .inr ⟨_, { a with use := update a.use u (some k) }, rfl, ?_, ?_⟩⟩
    · refine ⟨h.plain_use hw, h.plain_free hr hw rfl rfl, ?_, rfl⟩
      simp [State.goto, hsame]
    · refine h.goto hr hw honly rfl rfl rfl rfl
        (h.holder hw rfl) (fun _ => rfl) nofun nofun (fun _ => rfl) (fun _ => hsame) ?_ (fun _ _ => ⟨rfl, rfl⟩) rfl
      exact fun hne => absurd hsame.symm hne
  next b k hw =>
    -- bwrite writes the block
    obtain ⟨hk, hc⟩ := hr.named u _ hw
    have honly := h.only_holder hw rfl
    have hv : (s.buf b).valid = true := h.valid u _ hw rfl
    have hdirty : (s.buf b).dirty = true := h.write u _ hw rfl
    have hdata := h.data b k hk hc hv
    rw [iderw_write hdirty, hc.2] at hs
    obtain rfl := Option.some.inj hs
    refine ⟨hr.goto hw rfl rfl rfl rfl rfl rfl, .inl ⟨rfl, ?_⟩⟩
    refine h.goto hr hw honly rfl rfl rfl rfl
      (h.holder hw rfl) (fun _ => rfl) nofun nofun (fun _ => rfl) (fun _ => hdata) ?_ (fun j hj => ⟨rfl, ?_⟩)
      (h.plain_same hw rfl)
    · intro hne
      exact absurd (by simp [hdata]) hne
    · exact update_of_ne hj ..
  next b k hw =>
    obtain rfl := Option.some.inj hs
    refine ⟨hr.unref hw, .inl ⟨rfl, h.frame (u := u) (o := none) ?_ nofun rfl rfl fun b' => ?_⟩⟩
    · intro w hw'
      obtain rfl := Option.some.inj (hw.symm.trans hw')
      rfl
    · by_cases hb' : b' = b
      · subst hb'
        exact ⟨_, update_self ..⟩
      · exact ⟨(s.buf b').refcnt, update_of_ne hb' ..⟩
  next => nomatch hs

/-- The contents are changed by one who has the block. -/
theorem after_modify (hr : Refs dev s) (h : Sim dev s a) (hw : s.use u = some ⟨b, k, .held c⟩) {v : Block}
    {x : Action U} (hx : a.Next x { a with array := update a.array k v }) :
    After dev s a ((s.goto u ⟨b, k, .held true⟩ { s.buf b with data := v }).see x) := by
  have hv : (s.buf b).valid = true := h.valid u _ hw rfl
  refine ⟨hr.goto hw rfl rfl rfl rfl rfl rfl, .inr ⟨x, _, rfl, hx, ?_⟩⟩
  refine h.goto hr hw (h.only_holder hw rfl) rfl rfl rfl rfl (h.holder hw rfl) (fun _ => hv) nofun nofun (h.dirty b) ?_ ?_
    (fun j hj => ⟨?_, rfl⟩) (h.plain_same hw rfl)
  · exact fun _ => by simp
  · exact fun _ => ⟨hv, .inr rfl⟩
  · exact update_of_ne hj ..

/-- The buffer is marked for writing, by `log_write` or by `bwrite`. -/
theorem after_dirty (hr : Refs dev s) (h : Sim dev s a) (hw : s.use u = some ⟨b, k, .held c⟩)
    (ho : st'.Open = true) : After dev s a (s.goto u ⟨b, k, st'⟩ { s.buf b with dirty := true }) := by
  obtain ⟨hk, hc⟩ := hr.named u _ hw
  have hv : (s.buf b).valid = true := h.valid u _ hw rfl
  refine ⟨hr.goto hw rfl rfl rfl rfl rfl rfl, .inl ⟨rfl, ?_⟩⟩
  refine h.goto hr hw (h.only_holder hw rfl) rfl rfl rfl rfl ?_ (fun _ => hv) (fun _ => rfl) ?_ (fun _ => hv)
    (h.data b k hk hc) (fun _ => ⟨hv, .inl rfl⟩) (fun _ _ => ⟨rfl, rfl⟩) (h.plain_same hw ho)
  · rw [Stage.locked_of_open ho]
    exact h.holder hw rfl
  · rintro rfl
    exact absurd ho Bool.false_ne_true

theorem after_brelse (hr : Refs dev s) (h : Sim dev s a) (hw : s.use u = some ⟨b, k, .held false⟩) :
    After dev s a ((s.goto u ⟨b, k, .leave⟩ { s.buf b with lock := none }).see (.brelse u)) := by
  obtain ⟨hk, hc⟩ := hr.named u _ hw
  have honly := h.only_holder hw rfl
  refine ⟨hr.goto hw rfl rfl rfl rfl rfl rfl,
    .inr ⟨_, { a with use := update a.use u none }, rfl, ⟨⟨k, h.plain_use hw⟩, rfl⟩, ?_⟩⟩
  refine h.goto hr hw honly rfl rfl rfl rfl rfl nofun nofun nofun (h.dirty b) (h.data b k hk hc) ?_
    (fun _ _ => ⟨rfl, rfl⟩) rfl
  intro hne
  exact (h.disk_at hr hw honly hne).imp_right fun hd => .inl (hd.resolve_right nofun)

theorem after_next (hr : Refs dev s) (h : Sim dev s a) (hs : s.next dev e = some s') :
    After dev s a s' := by
  cases e with
  | bget u k =>
    simp only [State.next, Option.ite_none_right_eq_some] at hs
    exact after_bget hr h hs.1.1 hs.1.2 hs.2
  | step u => exact after_step hr h hs
  | modify u v =>
    simp only [State.next] at hs
    split at hs
    next b k c hw => exact Option.some.inj hs ▸ after_modify hr h hw ⟨k, h.plain_use hw, rfl⟩
    next => nomatch hs
  | copy u v =>
    simp only [State.next] at hs
    split at hs
    next b k c b' k' c' hw hw' =>
      obtain ⟨hk', hc'⟩ := hr.named v _ hw'
      have hdata : (s.buf b').data = a.array k' := h.data b' k' hk' hc' (h.valid v _ hw' rfl)
      exact Option.some.inj hs ▸ after_modify hr h hw ⟨k, k', h.plain_use hw, h.plain_use hw', by rw [hdata]⟩
    next => nomatch hs
  | logWrite u | bwrite u =>
    simp only [State.next] at hs
    split at hs
    next b k c hw => exact Option.some.inj hs ▸ after_dirty hr h hw rfl
    next => nomatch hs
  | brelse u =>
    simp only [State.next] at hs
    split at hs
    next b k hw => exact Option.some.inj hs ▸ after_brelse hr h hw
    next => nomatch hs

/-- The names of the buffers that a step keeps. -/
def State.name (s : State n U) (b : Fin n) : ℕ × ℕ := ((s.buf b).dev, (s.buf b).blockno)

omit [DecidableEq U] in
theorem name_update (hbuf : s'.buf = update s.buf b B) (hdev : B.dev = (s.buf b).dev)
    (hblockno : B.blockno = (s.buf b).blockno) : s'.name = s.name := by
  funext b'
  by_cases hb' : b' = b
  · subst hb'
    simp [State.name, hbuf, hdev, hblockno]
  · simp [State.name, hbuf, hb']

theorem name_iderw : (s.iderw u b k).name = s.name := by
  unfold State.iderw
  by_cases hd : (s.buf b).dirty = true
  · simp only [hd, if_true]
    exact name_update rfl rfl rfl
  · simp only [hd, Bool.false_eq_true, if_false]
    exact name_update rfl rfl rfl

/-- A step of a use keeps the names. -/
theorem name_step (hs : s.step u = some s') : s'.name = s.name := by
  unfold State.step at hs
  split at hs
  next =>
    obtain ⟨-, rfl⟩ := Lts.of_guard hs
    exact name_update rfl rfl rfl
  next =>
    split_ifs at hs
    · obtain rfl := Option.some.inj hs
      exact name_update rfl rfl rfl
    · obtain rfl := Option.some.inj hs
      exact name_update rfl rfl rfl
  next => exact Option.some.inj hs ▸ name_iderw
  next => exact Option.some.inj hs ▸ name_iderw
  next =>
    obtain rfl := Option.some.inj hs
    exact name_update rfl rfl rfl
  next => nomatch hs

/-- A buffer that becomes that of another block was neither referenced nor dirty. -/
theorem recycled (hs : s.next dev e = some s') (hne : s'.name b ≠ s.name b) :
    (s.buf b).refcnt = 0 ∧ (s.buf b).dirty = false := by
  have hkeep : s'.name ≠ s.name := fun heq => hne (congrFun heq b)
  cases e with
  | bget u k =>
    simp only [State.next, Option.ite_none_right_eq_some] at hs
    replace hs := hs.2
    unfold State.bget at hs
    split at hs
    next =>
      obtain rfl := Option.some.inj hs
      refine absurd ?_ hkeep
      exact name_update rfl rfl rfl
    next =>
      split at hs
      next b' hfind =>
        obtain rfl := Option.some.inj hs
        obtain rfl : b = b' := by
          by_contra hb
          exact hne (by simp [State.name, State.goto, hb])
        simpa using List.find?_some hfind
      next => nomatch hs
  | step u => exact absurd (name_step hs) hkeep
  | modify u v | copy u v | logWrite u | bwrite u | brelse u =>
    simp only [State.next] at hs
    split at hs
    next =>
      obtain rfl := Option.some.inj hs
      refine absurd ?_ hkeep
      exact name_update rfl rfl rfl
    next => nomatch hs

omit [DecidableEq U] in
theorem refs_binit (disk : ℕ → Block) : Refs dev (binit n U disk) := by
  refine ⟨fun b => ?_, fun b b' k hk hc _ => ?_, fun b => ⟨∅, ?_, rfl⟩, ?_⟩
  · simp [binit]
  · exact absurd hc.2.symm hk
  · simp [binit]
  · simp [binit]

omit [DecidableEq U] in
theorem sim_binit (disk : ℕ → Block) : Sim dev (binit n U disk) ⟨disk, fun _ => none⟩ := by
  constructor <;> simp [binit]

theorem inv_of_reachable {disk : ℕ → Block} (h : (lts n U dev disk).Reachable s) :
    Refs dev s ∧ ∃ a, Plain.Does ⟨disk, fun _ => none⟩ s.hist a ∧ Sim dev s a := by
  apply h.invariant (I := fun s => Refs dev s ∧ ∃ a, Plain.Does ⟨disk, fun _ => none⟩ s.hist a ∧ Sim dev s a)
  · rintro _ rfl
    exact ⟨refs_binit disk, _, .nil, sim_binit disk⟩
  · rintro s e s' ⟨hr, a, hdoes, hsim⟩ - hs
    obtain ⟨hr', hsim' | ⟨x, a', hhist, hnext, hsim'⟩⟩ := after_next hr hsim hs
    · exact ⟨hr', a, hsim'.1 ▸ hdoes, hsim'.2⟩
    · exact ⟨hr', a', hhist ▸ hdoes.snoc hnext, hsim'⟩

/-- **The buffer cache is transparent.** In every interleaving, a block has at most one buffer; a buffer that becomes
that of another block was neither referenced nor dirty; and what the users have seen is what they would have seen of an
array of blocks that starts as the disk, of which everyone who has a block has the present contents. -/
theorem buffer_cache {disk : ℕ → Block} (h : (lts n U dev disk).Reachable s) :
    (∀ b b' k, k ≠ 0 → s.Caches dev b k → s.Caches dev b' k → b = b') ∧
    (∀ e s', s.next dev e = some s' → ∀ b, s'.name b ≠ s.name b → (s.buf b).refcnt = 0 ∧ (s.buf b).dirty = false) ∧
    ∃ a, Plain.Does ⟨disk, fun _ => none⟩ s.hist a ∧
      ∀ u w, s.use u = some w → w.stage.Open = true → a.use u = some w.k ∧ (s.buf w.b).data = a.array w.k := by
  obtain ⟨hr, a, hdoes, hsim⟩ := inv_of_reachable h
  refine ⟨hr.unique, fun e s' hs b hne => recycled hs hne, a, hdoes, fun u w hw ho => ⟨?_, ?_⟩⟩
  · exact (hsim.plain u w.k).mpr ⟨w, hw, rfl, ho⟩
  · obtain ⟨hk, hc⟩ := hr.named u w hw
    exact hsim.data w.b w.k hk hc (hsim.valid u w hw ho)

/-- With one buffer: block 5 is changed and written, evicted by block 7, and read again. -/
theorem buffer_cache_evict : ∃ s : State 1 Unit, s.use () = some ⟨0, 5, .held false⟩ ∧ s.hist.length = 6 ∧
    ∃ a, Plain.Does ⟨fun _ _ => 0, fun _ => none⟩ s.hist a ∧ (s.buf 0).data = a.array 5 := by
  obtain ⟨s, hrun, hend⟩ := Lts.Run.exists_of_exec (lts 1 Unit 1 fun _ _ => 0) (fun _ _ => true)
    (binit 1 Unit fun _ _ => 0)
    [.bget () 5, .step (), .step (), .step (), .modify () fun _ => 1, .bwrite (), .step (), .brelse (), .step (),
      .bget () 7, .step (), .step (), .step (), .brelse (), .step (), .bget () 5, .step (), .step (), .step ()]
    (fun s => s.use () = some ⟨0, 5, .held false⟩ ∧ s.hist.length = 6) rfl (by decide)
  obtain ⟨huse, hlength⟩ := of_decide_eq_true hend
  obtain ⟨-, -, a, hdoes, ha⟩ := buffer_cache hrun.reachable
  exact ⟨s, huse, hlength, a, hdoes, (ha () _ huse rfl).2⟩

end Bcache

end Xv6
