import Mathlib
import Xv6.Lib.Links
import Xv6.Lib.Lts
import Xv6.Param

/-!
# The list of buffers (`bio.c`)

`Xv6.Bcache` has the buffers in a list. Here are the pointers `next` and `prev` that hold it, with the counts of
references as machine words. Processes call `bget` and `brelse` in any order and for any block; the critical sections of
`bcache.lock` and taking and releasing the sleep lock of a buffer are single steps.
-/

namespace Xv6

open Function List

namespace Lru

/-! ## The functions -/

/-- `B_DIRTY`. -/
def B_DIRTY : BitVec 32 := 4

/-- `struct buf`, without the pointers and the data. -/
structure Buf where
  flags : BitVec 32
  dev : BitVec 32
  blockno : BitVec 32
  locked : Bool
  refcnt : BitVec 32

/-- Where a process is in a call. -/
inductive Call (n : ℕ) where
  /-- In `bget`, before `acquiresleep(&b->lock)`. -/
  | wait (b : Fin n)
  /-- In `brelse`, before `acquire(&bcache.lock)`. -/
  | leave (b : Fin n)
deriving DecidableEq

/-- The buffer of a call. -/
def Call.buf {n : ℕ} : Call n → Fin n
  | wait b => b
  | leave b => b

/-- `bcache` with `n` buffers, and the calls of the processes. The rest is history: how often `bget` has taken a buffer
and `brelse` has given it back, and at which of the releases that brought a count to 0 it was last given back, or 0. -/
structure State (n : ℕ) where
  buf : Fin n → Buf
  links : Links (Fin n)
  call : Fin NPROC → Option (Call n)
  gets : Fin n → ℕ
  puts : Fin n → ℕ
  clock : ℕ
  released : Fin n → ℕ

variable {n : ℕ}

/-- `binit`, with pointers that are anything, in memory that is zero otherwise. -/
def binit (links : Links (Fin n)) : State n where
  buf _ := ⟨0, 0, 0, false, 0⟩
  links := (List.finRange n).foldl (fun links b => links.pushFront (some b)) links.empty
  call _ := none
  gets _ := 0
  puts _ := 0
  clock := 0
  released _ := 0

/-- The outcomes of the loops of `bget`. -/
inductive Outcome (n : ℕ) where
  | hit (b : Fin n)
  | recycle (b : Fin n)
  /-- `panic("bget: no buffers")`. -/
  | noBuffers
  /-- A loop goes on after `n` rounds. -/
  | loops

namespace State

variable (s : State n)

/-- `b->dev == dev && b->blockno == blockno`. -/
def Cached (dev blockno : BitVec 32) (b : Fin n) : Prop := (s.buf b).dev = dev ∧ (s.buf b).blockno = blockno

/-- `b->refcnt == 0 && (b->flags & B_DIRTY) == 0`. -/
def Unused (b : Fin n) : Prop := (s.buf b).refcnt = 0 ∧ (s.buf b).flags &&& B_DIRTY = 0

instance {dev blockno : BitVec 32} : DecidablePred (s.Cached dev blockno) := fun _ => inferInstanceAs (Decidable (_ ∧ _))

instance : DecidablePred s.Unused := fun _ => inferInstanceAs (Decidable (_ ∧ _))

/-- The loops of `bget`. -/
def search (dev blockno : BitVec 32) : Outcome n :=
  match Links.scan s.links.next (fun b => decide (s.Cached dev blockno b)) n (s.links.next none) with
  | none => .loops
  | some (some b) => .hit b
  | some none =>
    match Links.scan s.links.prev (fun b => decide (s.Unused b)) n (s.links.prev none) with
    | none => .loops
    | some (some b) => .recycle b
    | some none => .noBuffers

/-- Process `p` has taken `b`, which becomes `B`, and goes to `acquiresleep`. -/
def take (p : Fin NPROC) (b : Fin n) (B : Buf) : State n :=
  { s with
    buf := update s.buf b B
    call := update s.call p (some (.wait b))
    gets := update s.gets b (s.gets b + 1) }

/-- `bget`, up to `acquiresleep`; no successor if it panics. -/
def bget (p : Fin NPROC) (dev blockno : BitVec 32) : Option (State n) :=
  match s.search dev blockno with
  | .hit b => some (s.take p b { s.buf b with refcnt := (s.buf b).refcnt + 1 })
  | .recycle b => some (s.take p b { s.buf b with dev := dev, blockno := blockno, flags := 0, refcnt := 1 })
  | .noBuffers => none
  | .loops => none

/-- `acquiresleep(&b->lock)`. -/
def acquiresleep (p : Fin NPROC) (b : Fin n) : State n :=
  { s with
    buf := update s.buf b { s.buf b with locked := true }
    call := update s.call p none }

/-- `releasesleep(&b->lock)` in `brelse`. -/
def releasesleep (p : Fin NPROC) (b : Fin n) : State n :=
  { s with
    buf := update s.buf b { s.buf b with locked := false }
    call := update s.call p (some (.leave b)) }

/-- `b->refcnt--` in `brelse`. -/
def decrement (p : Fin NPROC) (b : Fin n) : State n :=
  { s with
    buf := update s.buf b { s.buf b with refcnt := (s.buf b).refcnt - 1 }
    call := update s.call p none
    puts := update s.puts b (s.puts b + 1) }

/-- Moving `b` to the front in `brelse`. -/
def moveToFront (b : Fin n) : State n :=
  { s with
    links := (s.links.unlink (some b)).pushFront (some b)
    clock := s.clock + 1
    released := update s.released b (s.clock + 1) }

/-- The critical section of `brelse`. -/
def unref (p : Fin NPROC) (b : Fin n) : State n :=
  if ((s.decrement p b).buf b).refcnt = 0 then (s.decrement p b).moveToFront b else s.decrement p b

end State

/-- What can happen: calls of processes and their steps, and changes of the flags by others. -/
inductive Event (n : ℕ) where
  | bget (p : Fin NPROC) (dev blockno : BitVec 32)
  | brelse (p : Fin NPROC) (b : Fin n)
  | step (p : Fin NPROC)
  | setFlags (b : Fin n) (flags : BitVec 32)

/-- The effect of an event. `brelse` panics if nobody holds the lock. -/
def next (s : State n) : Event n → Option (State n)
  | .bget p dev blockno => if s.call p = none then s.bget p dev blockno else none
  | .brelse p b => if s.call p = none ∧ (s.buf b).locked then some (s.releasesleep p b) else none
  | .step p =>
    match s.call p with
    | some (.wait b) => if (s.buf b).locked then none else some (s.acquiresleep p b)
    | some (.leave b) => some (s.unref p b)
    | none => none
  | .setFlags b flags => some { s with buf := update s.buf b { s.buf b with flags := flags } }

/-- Runs after `binit`. -/
def lts (n : ℕ) : Lts (State n) (Event n) := ⟨fun s => ∃ links, s = binit links, next⟩

/-! ## The order of the list -/

/-- The pointers spell out a list of all buffers, those released last in front. -/
structure Ordered (s : State n) (l : List (Fin n)) : Prop where
  ring : s.links.Ring l
  mem : ∀ b, b ∈ l
  order : l.Pairwise fun x y => s.released y = 0 ∨ s.released y < s.released x
  past : ∀ b, s.released b ≤ s.clock

variable {s : State n} {l : List (Fin n)} {p : Fin NPROC} {b : Fin n}

theorem Ordered.length_le (h : Ordered s l) : l.length ≤ n := by
  have := h.ring.nodup.length_le_card
  rwa [Fintype.card_fin] at this

variable {s' : State n} {c : Fin n} {call : Fin NPROC → Option (Call n)}

/-- The list is all that `Ordered` depends on. -/
theorem Ordered.congr (h : Ordered s l) (hlinks : s'.links = s.links) (hclock : s'.clock = s.clock)
    (hreleased : s'.released = s.released) : Ordered s' l :=
  ⟨hlinks ▸ h.ring, h.mem, hreleased ▸ h.order, hreleased ▸ hclock ▸ h.past⟩

/-- The loop of `binit`. -/
theorem ring_foldl (bs l : List (Fin n)) {links : Links (Fin n)} (h : links.Ring l) (hbs : (bs.reverse ++ l).Nodup) :
    (bs.foldl (fun links b => links.pushFront (some b)) links).Ring (bs.reverse ++ l) := by
  induction bs generalizing l links with
  | nil => exact h
  | cons b bs ih =>
    rw [reverse_cons, append_assoc] at hbs ⊢
    have hb : b ∉ l := (nodup_cons.mp (nodup_append.mp hbs).2.1).1
    exact ih (b :: l) (h.pushFront hb) hbs

theorem ordered_binit (links : Links (Fin n)) : ∃ l, Ordered (binit links) l := by
  refine ⟨(List.finRange n).reverse, ?_, by simp, pairwise_of_forall fun x y => .inl rfl, fun b => le_rfl⟩
  have hring := ring_foldl (List.finRange n) [] links.ring_empty (by simp [nodup_finRange])
  rwa [append_nil] at hring

/-- `brelse` moves a buffer to the front. -/
theorem Ordered.moveToFront (h : Ordered s l) (b : Fin n) : ∃ l', Ordered (s.moveToFront b) l' := by
  obtain ⟨l1, l2, rfl⟩ := append_of_mem (h.mem b)
  have hrest := h.ring.unlink
  have hb : b ∉ l1 ++ l2 := by
    have := h.ring.nodup
    grind
  refine ⟨b :: (l1 ++ l2), hrest.pushFront hb, fun c => ?_, pairwise_cons.mpr ⟨fun c hc => .inr ?_, ?_⟩, fun c => ?_⟩
  · have := h.mem c
    grind
  · have hcb : c ≠ b := fun heq => hb (heq ▸ hc)
    simp only [State.moveToFront, update_self, update_of_ne hcb]
    exact Nat.lt_succ_of_le (h.past c)
  · refine (h.order.sublist (by simp)).imp_of_mem fun {x y} hx hy hxy => ?_
    have hxb : x ≠ b := fun heq => hb (heq ▸ hx)
    have hyb : y ≠ b := fun heq => hb (heq ▸ hy)
    simpa only [State.moveToFront, update_of_ne hxb, update_of_ne hyb] using hxy
  · have := h.past c
    simp only [State.moveToFront, update_apply]
    split
    · rfl
    · omega

/-- What `bget` should do: find the block, or else recycle the buffer released longest ago of those that are not in use. -/
def Right (s : State n) (dev blockno : BitVec 32) : Outcome n → Prop
  | .hit b => s.Cached dev blockno b
  | .recycle b =>
    (∀ c, ¬ s.Cached dev blockno c) ∧ s.Unused b ∧ ∀ c, s.Unused c → s.released b ≤ s.released c
  | .noBuffers => (∀ c, ¬ s.Cached dev blockno c) ∧ ∀ c, ¬ s.Unused c
  | .loops => False

/-- A buffer found from the back of the list was released before all others of its kind. -/
theorem Ordered.released_le {q : Fin n → Bool} (h : Ordered s l) (hfind : l.reverse.find? q = some b)
    (hc : q c) : s.released b ≤ s.released c := by
  obtain ⟨-, later, earlier, hl, hlater⟩ := find?_eq_some_iff_append.mp hfind
  have horder : (l.reverse).Pairwise fun x y => s.released x = 0 ∨ s.released x < s.released y :=
    pairwise_reverse.mpr h.order
  have hmem : c ∈ l.reverse := mem_reverse.mpr (h.mem c)
  rw [hl] at horder hmem
  obtain hmem | hmem := mem_append.mp hmem
  · exact absurd hc (by simpa using hlater c hmem)
  obtain rfl | hmem := mem_cons.mp hmem
  · exact le_rfl
  obtain hzero | hlt := rel_of_pairwise_cons (pairwise_append.mp horder).2.1 hmem
  · rw [hzero]
    exact Nat.zero_le _
  · exact hlt.le

theorem Ordered.search (h : Ordered s l) (dev blockno : BitVec 32) : Right s dev blockno (s.search dev blockno) := by
  rw [State.search, h.ring.scan_next h.length_le, h.ring.scan_prev h.length_le]
  cases hhit : l.find? fun b => decide (s.Cached dev blockno b) with
  | some b =>
    have hb : s.Cached dev blockno b := by simpa using find?_some hhit
    exact hb
  | none =>
    have hmiss : ∀ c, ¬ s.Cached dev blockno c := fun c => by simpa using find?_eq_none.mp hhit c (h.mem c)
    cases hfree : l.reverse.find? fun b => decide (s.Unused b) with
    | some b =>
      refine ⟨hmiss, by simpa using find?_some hfree, fun c hc => ?_⟩
      exact h.released_le hfree (decide_eq_true hc)
    | none => exact ⟨hmiss, fun c => by simpa using find?_eq_none.mp hfree c (by simpa using h.mem c)⟩

/-! ## The counts -/

/-- The processes that are in a call for a buffer. -/
def callers (call : Fin NPROC → Option (Call n)) (b : Fin n) : Finset (Fin NPROC) :=
  {p | (call p).map Call.buf = some b}

theorem card_callers_exit {c : Call n} (h : call p = some c) (b : Fin n) :
    (callers (update call p none) b).card + (if c.buf = b then 1 else 0) = (callers call b).card := by
  have herase : callers (update call p none) b = (callers call b).erase p := by
    ext q
    by_cases hq : q = p
    · simp [callers, hq]
    · simp [callers, hq]
  rw [herase]
  split
  · rename_i hb
    exact Finset.card_erase_add_one (by simp [callers, h, hb])
  · rename_i hb
    rw [Finset.erase_eq_of_notMem (by simp [callers, h, hb]), Nat.add_zero]

theorem card_callers_enter (h : call p = none) (c : Call n) (b : Fin n) :
    (callers (update call p (some c)) b).card = (callers call b).card + if c.buf = b then 1 else 0 := by
  have hexit := card_callers_exit (update_self p (some c) call) b
  rwa [update_idem, ← h, update_eq_self, eq_comm] at hexit

/-- The uses of a buffer that are under way: processes in calls, and the holder of the lock. -/
def pending (s : State n) (b : Fin n) : ℕ := (callers s.call b).card + (s.buf b).locked.toNat

/-- The count of a buffer is the number of uses under way. -/
structure Counted (s : State n) (b : Fin n) : Prop where
  gets : s.gets b = s.puts b + pending s b
  refcnt : (s.buf b).refcnt = BitVec.ofNat 32 (pending s b)

/-- A count does not overflow. -/
theorem pending_lt (s : State n) (b : Fin n) : pending s b < 2 ^ 32 := by
  have hcard : (callers s.call b).card ≤ NPROC := (Finset.card_le_univ _).trans_eq (Fintype.card_fin NPROC)
  have hlocked := (s.buf b).locked.toNat_le
  have : NPROC + 1 < 2 ^ 32 := by decide
  unfold pending
  omega

theorem Counted.toNat_refcnt (h : Counted s b) : (s.buf b).refcnt.toNat = pending s b := by
  rw [h.refcnt, BitVec.toNat_ofNat, Nat.mod_eq_of_lt (pending_lt s b)]

theorem Counted.congr (h : Counted s b) (hrefcnt : (s'.buf b).refcnt = (s.buf b).refcnt)
    (hpending : pending s' b = pending s b) (hgets : s'.gets b = s.gets b) (hputs : s'.puts b = s.puts b) :
    Counted s' b :=
  ⟨by rw [hgets, hputs, hpending, h.gets], by rw [hrefcnt, hpending, h.refcnt]⟩

theorem Counted.take {B : Buf} (h : Counted s c) (hp : s.call p = none)
    (hB : B.locked = (s.buf b).locked ∧ B.refcnt = (s.buf b).refcnt + 1) : Counted (s.take p b B) c := by
  have hcard := card_callers_enter hp (.wait b) c
  by_cases hc : b = c
  · obtain rfl := hc
    rw [if_pos (show (Call.wait b).buf = b from rfl)] at hcard
    have hpending : pending (s.take p b B) b = pending s b + 1 := by
      simp only [pending, State.take, hcard, update_self, hB.1]
      omega
    constructor
    · rw [hpending]
      simp only [State.take, update_self, h.gets]
      omega
    · rw [hpending]
      simp only [State.take, update_self, hB.2, h.refcnt, BitVec.ofNat_add]
      rfl
  · have hcb : c ≠ b := Ne.symm hc
    rw [if_neg (show (Call.wait b).buf ≠ c from hc), Nat.add_zero] at hcard
    refine h.congr ?_ ?_ ?_ rfl
    · simp only [State.take, update_of_ne hcb]
    · simp only [pending, State.take, hcard, update_of_ne hcb]
    · simp only [State.take, update_of_ne hcb]

theorem Counted.acquiresleep (h : Counted s c) (hp : s.call p = some (.wait b))
    (hfree : (s.buf b).locked = false) : Counted (s.acquiresleep p b) c := by
  have hcard := card_callers_exit hp c
  refine h.congr ?_ ?_ rfl rfl
  · simp only [State.acquiresleep, update_apply]
    grind
  · simp only [pending, State.acquiresleep, update_apply, Call.buf] at hcard ⊢
    grind

theorem Counted.releasesleep (h : Counted s c) (hp : s.call p = none) (hheld : (s.buf b).locked = true) :
    Counted (s.releasesleep p b) c := by
  have hcard := card_callers_enter hp (.leave b) c
  refine h.congr ?_ ?_ rfl rfl
  · simp only [State.releasesleep, update_apply]
    grind
  · simp only [pending, State.releasesleep, update_apply, Call.buf] at hcard ⊢
    grind

theorem Counted.decrement (h : Counted s c) (hp : s.call p = some (.leave b)) : Counted (s.decrement p b) c := by
  have hcard := card_callers_exit hp c
  by_cases hc : b = c
  · obtain rfl := hc
    rw [if_pos (show (Call.leave b).buf = b from rfl)] at hcard
    have hpending : pending s b = pending (s.decrement p b) b + 1 := by
      simp only [pending, State.decrement, ← hcard, update_self]
      omega
    have hgets := h.gets
    have hrefcnt := h.refcnt
    rw [hpending] at hgets hrefcnt
    have hputs : (s.decrement p b).puts b = s.puts b + 1 := update_self ..
    have hless : ((s.decrement p b).buf b).refcnt = (s.buf b).refcnt - 1 := by
      simp only [State.decrement, update_self]
    refine ⟨hgets.trans (by omega), ?_⟩
    rw [hless, hrefcnt, BitVec.ofNat_add]
    exact BitVec.add_sub_cancel _ _
  · have hcb : c ≠ b := Ne.symm hc
    rw [if_neg (show (Call.leave b).buf ≠ c from hc), Nat.add_zero] at hcard
    refine h.congr ?_ ?_ rfl ?_
    · simp only [State.decrement, update_of_ne hcb]
    · simp only [pending, State.decrement, hcard, update_of_ne hcb]
    · simp only [State.decrement, update_of_ne hcb]

/-! ## Runs -/

/-- What holds after every step. -/
structure Inv (s : State n) : Prop where
  ordered : ∃ l, Ordered s l
  counted : ∀ b, Counted s b

theorem inv_binit (links : Links (Fin n)) : Inv (binit links) := by
  refine ⟨ordered_binit links, fun b => ?_⟩
  have hpending : pending (binit links) b = 0 := by simp [pending, callers, binit]
  exact ⟨by rw [hpending]; rfl, by rw [hpending]; rfl⟩

theorem Inv.bget {dev blockno : BitVec 32} (h : Inv s) (hp : s.call p = none)
    (hs : s.bget p dev blockno = some s') : Inv s' := by
  obtain ⟨l, hl⟩ := h.ordered
  have hright := hl.search dev blockno
  unfold State.bget at hs
  cases hsearch : s.search dev blockno with
  | hit b =>
    simp only [hsearch, Option.some.injEq] at hs
    obtain rfl := hs
    exact ⟨⟨l, hl.congr rfl rfl rfl⟩, fun c => (h.counted c).take hp ⟨rfl, rfl⟩⟩
  | recycle b =>
    rw [hsearch] at hright
    simp only [hsearch, Option.some.injEq] at hs
    obtain rfl := hs
    refine ⟨⟨l, hl.congr rfl rfl rfl⟩, fun c => (h.counted c).take hp ⟨rfl, ?_⟩⟩
    rw [hright.2.1.1]
    rfl
  | noBuffers => simp [hsearch] at hs
  | loops => simp [hsearch] at hs

theorem Inv.unref (h : Inv s) (hp : s.call p = some (.leave b)) : Inv (s.unref p b) := by
  obtain ⟨l, hl⟩ := h.ordered
  have hl' : Ordered (s.decrement p b) l := hl.congr rfl rfl rfl
  have hcounted : ∀ c, Counted (s.decrement p b) c := fun c => (h.counted c).decrement hp
  unfold State.unref
  split
  · exact ⟨hl'.moveToFront b, fun c => (hcounted c).congr rfl rfl rfl rfl⟩
  · exact ⟨⟨l, hl'⟩, hcounted⟩

theorem Inv.next {e : Event n} (h : Inv s) (hs : next s e = some s') : Inv s' := by
  obtain ⟨l, hl⟩ := h.ordered
  cases e with
  | bget p dev blockno =>
    obtain ⟨hp, hs⟩ := Option.ite_none_right_eq_some.mp hs
    exact h.bget hp hs
  | brelse p b =>
    obtain ⟨⟨hp, hheld⟩, hs⟩ := Option.ite_none_right_eq_some.mp hs
    obtain rfl := Option.some.inj hs
    exact ⟨⟨l, hl.congr rfl rfl rfl⟩, fun c => (h.counted c).releasesleep hp hheld⟩
  | step p =>
    simp only [Lru.next] at hs
    split at hs
    · rename_i b hp
      obtain ⟨hfree, hs⟩ := Option.ite_none_left_eq_some.mp hs
      obtain rfl := Option.some.inj hs
      exact ⟨⟨l, hl.congr rfl rfl rfl⟩, fun c => (h.counted c).acquiresleep hp (by simpa using hfree)⟩
    · rename_i b hp
      obtain rfl := Option.some.inj hs
      exact h.unref hp
    · nomatch hs
  | setFlags b flags =>
    obtain rfl := Option.some.inj hs
    refine ⟨⟨l, hl.congr rfl rfl rfl⟩, fun c => (h.counted c).congr ?_ ?_ rfl rfl⟩
    · simp only [update_apply]
      grind
    · simp only [pending, update_apply]
      grind

theorem inv_of_reachable (h : (lts n).Reachable s) : Inv s := by
  refine Lts.Run.invariant (I := Inv) ?_ (fun s e s' hs _ hnext => hs.next hnext) h
  rintro s ⟨links, rfl⟩
  exact inv_binit links

end Lru

end Xv6
