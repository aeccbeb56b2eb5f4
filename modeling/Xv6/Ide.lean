import Mathlib
import Xv6.Lib.Lts
import Xv6.Param

/-!
# The disk driver (`ide.c`, `memide.c`)

`iderw` of any number of processes, the interrupt handler `ideintr` and the device. What happens under `idelock` is one
step: nothing else reads or writes the queue and the device, and only `ideintr` changes a buffer that is queued. The
device executes one command at a time and raises an interrupt when it is done. The history variables are the requests
in the order in which they were queued, how many of them `ideintr` has completed, and the disk at the beginning.
-/

namespace Xv6

open Function List

namespace Ide

/-- `struct buf`, as far as the driver looks at it. -/
structure Buf (D : Type) where
  dev : ℕ
  blockno : ℕ
  valid : Bool
  dirty : Bool
  data : D

variable {P B D : Type}

namespace Buf

/-- `(b->flags & (B_VALID|B_DIRTY)) == B_VALID`. -/
def synced (b : Buf D) : Bool := b.valid && !b.dirty

/-- The checks of both drivers let the request pass. -/
def Request (b : Buf D) : Prop := b.synced = false ∧ b.dev = 1 ∧ b.blockno < FSSIZE

instance (b : Buf D) : Decidable b.Request := inferInstanceAs (Decidable (_ ∧ _ ∧ _))

end Buf

/-! ## The memory disk -/

/-- `iderw` of `memide.c`, for a buffer that is locked: `none` is a panic. -/
def memIderw (b : Buf D) (disk : ℕ → D) : Option (Buf D × (ℕ → D)) :=
  if b.synced = true then none
  else if b.dev ≠ 1 then none
  else if b.blockno ≥ FSSIZE then none
  else if b.dirty then
    some ({ b with dirty := false, valid := true }, update disk b.blockno b.data)
  else some ({ b with data := disk b.blockno, valid := true }, disk)

/-- Requests one by one: the buffers afterwards, and the disk. -/
def memRun (disk : ℕ → D) : List (Buf D) → Option (List (Buf D) × (ℕ → D))
  | [] => some ([], disk)
  | b :: bs => do
    let (b', disk') ← memIderw b disk
    let (bs', disk'') ← memRun disk' bs
    some (b' :: bs', disk'')

/-! ## The device -/

/-- What `idestart` writes to the ports `0x1f2` to `0x1f6`. -/
structure Ports where
  count : ℕ
  low : ℕ
  mid : ℕ
  high : ℕ
  select : ℕ

/-- A sector is a block. -/
def idestartPorts (dev blockno : ℕ) : Ports where
  count := 1
  low := blockno % 256
  mid := blockno / 2 ^ 8 % 256
  high := blockno / 2 ^ 16 % 256
  select := 224 + dev % 2 * 16 + blockno / 2 ^ 24 % 16

/-- The sector that the ports name. -/
def Ports.sector (r : Ports) : ℕ := r.low + 2 ^ 8 * r.mid + 2 ^ 16 * r.high + 2 ^ 24 * (r.select % 16)

/-- The device has nothing to do, has a command, or has executed one; after a read it has the data. -/
inductive Device (D : Type) where
  | idle
  | read (sector : ℕ)
  | write (sector : ℕ) (data : D)
  | done (data : Option D)

/-- `idestart`. -/
def idestart (b : Buf D) : Device D :=
  let sector := (idestartPorts b.dev b.blockno).sector
  if b.dirty then .write sector b.data else .read sector

/-! ## The driver -/

/-- Where a process is in `iderw`. The number is the place of its request among all requests, a history variable. -/
inductive Pc (B : Type) where
  | out
  /-- `acquire(&idelock)`, for the first time. -/
  | enter (b : B)
  /-- Sleeping on the buffer. -/
  | sleep (b : B) (k : ℕ)
  /-- Woken up: `acquire(&idelock)`, and the test of the loop. -/
  | retest (b : B) (k : ℕ)

/-- The buffer that `iderw` was called with. -/
def Pc.buf : Pc B → Option B
  | .out => none
  | .enter b | .sleep b _ | .retest b _ => some b

/-- The request that has been queued. -/
def Pc.ticket : Pc B → Option (B × ℕ)
  | .sleep b k | .retest b k => some (b, k)
  | _ => none

/-- The buffers with the owners of their sleep locks, the processes, `idequeue`, the device with its interrupt and the
disk; then the history. -/
structure State (P B D : Type) where
  buf : B → Buf D
  owner : B → Option P
  pc : P → Pc B
  idequeue : List B
  device : Device D
  interrupt : Bool
  disk : ℕ → D
  log : List (B × Buf D)
  completed : ℕ
  disk0 : ℕ → D

/-- What happens: locking and unlocking a buffer, changing one that is locked, calling `iderw`, a step of it, waking up
for another reason, the device executing a command, and `ideintr`. -/
inductive Event (P B D : Type) where
  | lock (p : P) (b : B)
  | unlock (p : P) (b : B)
  | change (p : P) (b : B) (x : Buf D)
  | iderw (p : P) (b : B)
  | step (p : P)
  | wake (p : P)
  | execute
  | ideintr

namespace State

/-- The commands that the device has executed. -/
def executed (s : State P B D) : ℕ :=
  match s.device with
  | .done _ => s.completed + 1
  | _ => s.completed

/-- The device executes its command. -/
def execute (s : State P B D) : Option (State P B D) :=
  match s.device with
  | .read n => some { s with device := .done (some (s.disk n)), interrupt := true }
  | .write n d =>
    some { s with device := .done none, interrupt := true, disk := update s.disk n d }
  | _ => none

section

variable [DecidableEq B]

/-- `wakeup`. -/
def wakeup (s : State P B D) (b : B) : State P B D :=
  { s with pc := fun p =>
      match s.pc p with
      | .sleep b' k => if b' = b then .retest b' k else .sleep b' k
      | c => c }

/-- What `ideintr` does to the buffer of the active request. -/
def finish (s : State P B D) (b : B) : Buf D :=
  match (s.buf b).dirty, s.device with
  | false, .done (some d) => { s.buf b with data := d, valid := true }
  | _, _ => { s.buf b with dirty := false, valid := true }

/-- Start the disk on the next buffer in the queue. -/
def startNext (s : State P B D) : State P B D :=
  match s.idequeue with
  | [] => { s with device := .idle }
  | b :: _ => { s with device := idestart (s.buf b) }

/-- `ideintr`. -/
def ideintr (s : State P B D) : State P B D :=
  match s.idequeue with
  | [] => { s with interrupt := false }
  | b :: queue =>
    startNext (wakeup
      { s with
        buf := update s.buf b (s.finish b)
        idequeue := queue
        interrupt := false
        completed := s.completed + 1 } b)

end

variable [DecidableEq P]

/-- The loop of `iderw`: it ends or goes to sleep. -/
def test (s : State P B D) (p : P) (b : B) (k : ℕ) : State P B D :=
  { s with pc := update s.pc p (if (s.buf b).synced then .out else .sleep b k) }

variable [DecidableEq B]

/-- Append the buffer to `idequeue`, and start the disk if the buffer is at the head. -/
def append (s : State P B D) (b : B) : State P B D :=
  { s with
    idequeue := s.idequeue ++ [b]
    device := if (s.idequeue ++ [b]).head? = some b then idestart (s.buf b) else s.device
    log := s.log ++ [(b, s.buf b)] }

/-- A step of `iderw`: up to where it gives up `idelock`. -/
def step (s : State P B D) (p : P) : Option (State P B D) :=
  match s.pc p with
  | .enter b => some ((s.append b).test p b s.log.length)
  | .retest b k => some (s.test p b k)
  | _ => none

/-- The effect of one event. Only the owner of a buffer that is not in `iderw` changes the buffer or calls `iderw`. -/
def next (s : State P B D) : Event P B D → Option (State P B D)
  | .lock p b =>
    match s.pc p, s.owner b with
    | .out, none => some { s with owner := update s.owner b (some p) }
    | _, _ => none
  | .unlock p b =>
    match s.pc p with
    | .out => if s.owner b = some p then some { s with owner := update s.owner b none } else none
    | _ => none
  | .change p b x =>
    match s.pc p with
    | .out => if s.owner b = some p then some { s with buf := update s.buf b x } else none
    | _ => none
  | .iderw p b =>
    match s.pc p with
    | .out =>
      if s.owner b = some p ∧ (s.buf b).Request then some { s with pc := update s.pc p (.enter b) } else none
    | _ => none
  | .step p => s.step p
  | .wake p =>
    match s.pc p with
    | .sleep b k => some { s with pc := update s.pc p (.retest b k) }
    | _ => none
  | .execute => s.execute
  | .ideintr => if s.interrupt then some s.ideintr else none

/-- No process is in `iderw`, and the device has nothing to do. -/
structure Init (s : State P B D) : Prop where
  pc : ∀ p, s.pc p = .out
  idequeue : s.idequeue = []
  device : s.device = .idle
  interrupt : s.interrupt = false
  log : s.log = []
  completed : s.completed = 0
  disk0 : s.disk0 = s.disk

end State

/-- All interleavings. -/
def lts (P B D : Type) [DecidableEq P] [DecidableEq B] : Lts (State P B D) (Event P B D) where
  init := State.Init
  next := State.next

/-! ## The two disks -/

theorem sector_idestartPorts (dev : ℕ) {n : ℕ} (h : n < FSSIZE) : (idestartPorts dev n).sector = n := by
  have hsize : n < 2000 := h
  simp only [Ports.sector, idestartPorts]
  omega

theorem idestart_eq {b : Buf D} (h : b.Request) :
    idestart b = if b.dirty then .write b.blockno b.data else .read b.blockno := by
  simp only [idestart, sector_idestartPorts b.dev h.2.2]

theorem memIderw_eq {b : Buf D} (h : b.Request) (disk : ℕ → D) : memIderw b disk = if b.dirty then
      some ({ b with dirty := false, valid := true }, update disk b.blockno b.data)
      else some ({ b with data := disk b.blockno, valid := true }, disk) := by
  obtain ⟨hsync, hdev, hno⟩ := h
  simp [memIderw, hsync, hdev, Nat.not_le.mpr hno]

variable {disk disk' disk'' : ℕ → D} {bs rs : List (Buf D)}

theorem synced_of_memIderw {b b' : Buf D} (h : memIderw b disk = some (b', disk')) : b'.synced = true := by
  unfold memIderw at h
  split_ifs at h with _ _ _ hdirty
  · obtain ⟨rfl, -⟩ := Prod.mk.inj (Option.some.inj h)
    rfl
  · obtain ⟨rfl, -⟩ := Prod.mk.inj (Option.some.inj h)
    simp [Buf.synced, hdirty]

theorem memRun_cons {b : Buf D} :
    memRun disk (b :: bs) = some (rs, disk'') ↔ ∃ b' disk' rs', memIderw b disk = some (b', disk') ∧
      memRun disk' bs = some (rs', disk'') ∧ rs = b' :: rs' := by
  simp only [memRun, Option.bind_eq_bind, Option.bind_eq_some_iff, Prod.exists, Option.some.injEq, Prod.mk.injEq]
  constructor
  · rintro ⟨b', disk', hb, rs', d, hrs, rfl, rfl⟩
    exact ⟨b', disk', rs', hb, hrs, rfl⟩
  · rintro ⟨b', disk', rs', hb, hrs, rfl⟩
    exact ⟨b', disk', hb, rs', disk'', hrs, rfl, rfl⟩

theorem memRun_append {b : Buf D} :
    memRun disk (bs ++ [b]) = some (rs, disk'') ↔ ∃ rs' disk' b', memRun disk bs = some (rs', disk') ∧
      memIderw b disk' = some (b', disk'') ∧ rs = rs' ++ [b'] := by
  induction bs generalizing disk rs with
  | nil =>
    rw [nil_append, memRun_cons]
    simp only [memRun, Option.some.injEq, Prod.mk.injEq]
    constructor
    · rintro ⟨b', disk', rs', hb, ⟨rfl, rfl⟩, rfl⟩
      exact ⟨[], disk, b', ⟨rfl, rfl⟩, hb, rfl⟩
    · rintro ⟨rs', disk', b', ⟨rfl, rfl⟩, hb, rfl⟩
      exact ⟨b', disk'', [], hb, ⟨rfl, rfl⟩, rfl⟩
  | cons c bs ih =>
    rw [cons_append, memRun_cons]
    constructor
    · rintro ⟨c', d, rs', hc, hrs, rfl⟩
      obtain ⟨rs'', d', b', hrs', hb, rfl⟩ := ih.mp hrs
      exact ⟨c' :: rs'', d', b', memRun_cons.mpr ⟨c', d, rs'', hc, hrs', rfl⟩, hb, rfl⟩
    · rintro ⟨rs', d', b', hrs, hb, rfl⟩
      obtain ⟨c', d, rs'', hc, hrs', rfl⟩ := memRun_cons.mp hrs
      exact ⟨c', d, rs'' ++ [b'], hc, ih.mpr ⟨rs'', d', b', hrs', hb, rfl⟩, rfl⟩

theorem memRun_length (h : memRun disk bs = some (rs, disk')) : rs.length = bs.length := by
  induction bs generalizing disk rs with
  | nil =>
    obtain ⟨rfl, -⟩ := Prod.mk.inj (Option.some.inj h)
    rfl
  | cons b bs ih =>
    obtain ⟨b', d, rs', -, hrs, rfl⟩ := memRun_cons.mp h
    rw [length_cons, length_cons, ih hrs]

theorem memRun_synced (h : memRun disk bs = some (rs, disk')) {b : Buf D} (hb : b ∈ rs) : b.synced = true := by
  induction bs generalizing disk rs with
  | nil =>
    obtain ⟨rfl, -⟩ := Prod.mk.inj (Option.some.inj h)
    exact absurd hb not_mem_nil
  | cons c bs ih =>
    obtain ⟨c', d, rs', hc, hrs, rfl⟩ := memRun_cons.mp h
    rcases mem_cons.mp hb with rfl | hb
    · exact synced_of_memIderw hc
    · exact ih hrs hb

/-! ## The invariant -/

variable {s s' : State P B D} {p q : P} {b c : B} {j k : ℕ}

theorem Pc.buf_of_ticket {x : Pc B} (h : x.ticket = some (b, k)) : x.buf = some b := by
  cases x with
  | out | enter => nomatch h
  | sleep b' k' | retest b' k' =>
    obtain ⟨rfl, rfl⟩ := Prod.mk.inj (Option.some.inj h)
    rfl

/-- What the device has for `ideintr` once it has executed the command of a buffer. -/
def State.answer (s : State P B D) (b : B) : Option D :=
  if (s.buf b).dirty then none else some (s.disk (s.buf b).blockno)

/-- What holds in every run. -/
structure Inv (s : State P B D) : Prop where
  le : s.completed ≤ s.log.length
  queue : s.idequeue = (s.log.drop s.completed).map Prod.fst
  owner : ∀ p b, (s.pc p).buf = some b → s.owner b = some p
  ticket : ∀ p b k, (s.pc p).ticket = some (b, k) → ∃ x, s.log[k]? = some (b, x)
  waiting : ∀ j b x, s.log[j]? = some (b, x) → s.completed ≤ j → s.buf b = x ∧ ∃ p, (s.pc p).ticket = some (b, j)
  request : ∀ x ∈ s.log, x.2.Request
  entered : ∀ p b, s.pc p = .enter b → (s.buf b).Request
  asleep : ∀ p b k, s.pc p = .sleep b k → s.completed ≤ k
  idle : s.idequeue = [] → s.device = .idle
  busy : ∀ b, s.idequeue.head? = some b → s.device = idestart (s.buf b) ∨ s.device = .done (s.answer b)
  interrupt : s.interrupt = true ↔ ∃ d, s.device = .done d
  memory : ∃ rs, memRun s.disk0 ((s.log.take s.executed).map Prod.snd) = some (rs, s.disk) ∧
    ∀ p b k, (s.pc p).ticket = some (b, k) → k < s.completed → rs[k]? = some (s.buf b)

theorem State.Init.inv (h : s.Init) : Inv s := by
  have hpc := h.pc
  refine ⟨?_, ?_, fun p b hb => ?_, fun p b k hk => ?_, fun j b x hx => ?_, fun x hx => ?_, fun p b hp => ?_,
    fun p b k hp => ?_, fun _ => h.device, fun b hb => ?_, ?_, [], ?_, fun p b k hk => ?_⟩
  · simp [h.completed]
  · simp [h.idequeue, h.log]
  · simp [hpc p, Pc.buf] at hb
  · simp [hpc p, Pc.ticket] at hk
  · simp [h.log] at hx
  · simp [h.log] at hx
  · simp [hpc p] at hp
  · simp [hpc p] at hp
  · simp [h.idequeue] at hb
  · simp [h.interrupt, h.device]
  · simp [h.log, memRun, h.disk0]
  · simp [hpc p, Pc.ticket] at hk

/-- What holds at the new point of one process and held at the points of all of them. -/
theorem forall_update [DecidableEq P] {x : Pc B} (Q : P → Pc B → Prop) (hx : Q p x) (hs : ∀ q, Q q (s.pc q)) :
    ∀ q, Q q (update s.pc p x q) := (Function.forall_update_iff _ _).mpr ⟨hx, fun q _ => hs q⟩

namespace Inv

section

variable (h : Inv s)

include h

/-- A buffer is in one `iderw` only. -/
theorem eq_of_buf (hp : (s.pc p).buf = some b) (hq : (s.pc q).buf = some b) : p = q :=
  Option.some.inj ((h.owner p b hp).symm.trans (h.owner q b hq))

/-- A buffer has one request at a time. -/
theorem eq_of_ticket (hp : (s.pc p).ticket = some (b, j)) (hq : (s.pc q).ticket = some (b, k)) : j = k := by
  obtain rfl := h.eq_of_buf (Pc.buf_of_ticket hp) (Pc.buf_of_ticket hq)
  exact (Prod.mk.inj (Option.some.inj (hp.symm.trans hq))).2

/-- The request of a buffer in the queue. -/
theorem exists_ticket (hb : b ∈ s.idequeue) :
    ∃ j x, s.log[j]? = some (b, x) ∧ s.completed ≤ j ∧ ∃ p, (s.pc p).ticket = some (b, j) := by
  rw [h.queue] at hb
  obtain ⟨⟨b', x⟩, hx, rfl⟩ := mem_map.mp hb
  obtain ⟨i, hi⟩ := mem_iff_getElem?.mp hx
  rw [getElem?_drop] at hi
  exact ⟨s.completed + i, x, hi, Nat.le_add_right _ _, (h.waiting _ _ _ hi (Nat.le_add_right _ _)).2⟩

/-- The request at the head of the queue. -/
theorem head (hb : s.idequeue.head? = some b) : s.log[s.completed]? = some (b, s.buf b) := by
  rw [h.queue, head?_map, head?_drop] at hb
  obtain ⟨⟨b', x⟩, hx, rfl⟩ := Option.map_eq_some_iff.mp hb
  obtain ⟨hbuf, -⟩ := h.waiting _ _ _ hx (Nat.le_refl _)
  rw [hx, hbuf]

theorem nodup : s.idequeue.Nodup := by
  rw [h.queue, nodup_iff_getElem?_ne_getElem?]
  intro i j hij hj heq
  obtain ⟨b, hb⟩ : ∃ b, ((s.log.drop s.completed).map Prod.fst)[j]? = some b := ⟨_, getElem?_eq_getElem hj⟩
  rw [hb, getElem?_map, getElem?_drop] at heq
  rw [getElem?_map, getElem?_drop] at hb
  obtain ⟨⟨b1, x1⟩, hi, rfl⟩ := Option.map_eq_some_iff.mp heq
  obtain ⟨⟨b2, x2⟩, hj, rfl⟩ := Option.map_eq_some_iff.mp hb
  obtain ⟨-, p, hp⟩ := h.waiting _ _ _ hi (Nat.le_add_right _ _)
  obtain ⟨-, q, hq⟩ := h.waiting _ _ _ hj (Nat.le_add_right _ _)
  have := h.eq_of_ticket hp hq
  omega

/-- The request of the device is in the queue. -/
theorem exists_head (hdev : s.device ≠ .idle) : ∃ b, s.idequeue.head? = some b := by
  cases hq : s.idequeue with
  | nil => exact absurd (h.idle hq) hdev
  | cons b queue => exact ⟨b, rfl⟩

theorem executed_le : s.executed ≤ s.log.length := by
  unfold State.executed
  split
  · rename_i d hdev
    obtain ⟨b, hb⟩ := h.exists_head (by rw [hdev]; nofun)
    exact (List.getElem?_eq_some_iff.mp (h.head hb)).1
  · exact h.le

/-- Nobody looks at what changes in a buffer that is in no `iderw`. -/
theorem setBuf {buf : B → Buf D} (hbuf : ∀ p b, (s.pc p).buf = some b → buf b = s.buf b) :
    Inv { s with buf := buf } := by
  have hqueue : ∀ b, s.idequeue.head? = some b → buf b = s.buf b := by
    intro b hb
    obtain ⟨-, p, hp⟩ := h.waiting _ _ _ (h.head hb) (Nat.le_refl _)
    exact hbuf p b (Pc.buf_of_ticket hp)
  refine ⟨h.le, h.queue, h.owner, h.ticket, fun j b x hx hj => ?_, h.request, fun p b hp => ?_, h.asleep, h.idle,
    fun b hb => ?_, h.interrupt, ?_⟩
  · obtain ⟨rfl, p, hp⟩ := h.waiting j b x hx hj
    exact ⟨hbuf p b (Pc.buf_of_ticket hp), p, hp⟩
  · show (buf b).Request
    rw [hbuf p b (by rw [show s.pc p = .enter b from hp]; rfl)]
    exact h.entered p b hp
  · have hbusy := h.busy b hb
    simp only [State.answer] at hbusy ⊢
    rwa [hqueue b hb]
  · obtain ⟨rs, hrun, hrs⟩ := h.memory
    refine ⟨rs, hrun, fun p b k hp hk => ?_⟩
    show rs[k]? = some (buf b)
    rw [hbuf p b (Pc.buf_of_ticket hp)]
    exact hrs p b k hp hk

/-- The owners of buffers that are in no `iderw` do not matter. -/
theorem setOwner {owner : B → Option P} (howner : ∀ p b, (s.pc p).buf = some b → owner b = s.owner b) :
    Inv { s with owner := owner } := by
  refine ⟨h.le, h.queue, fun p b hp => ?_, h.ticket, h.waiting, h.request, h.entered, h.asleep, h.idle, h.busy,
    h.interrupt, h.memory⟩
  exact (howner p b hp).trans (h.owner p b hp)

/-- A process gets to another point without a request of its own. -/
theorem setPc [DecidableEq P] {x : Pc B} (howner : ∀ b, x.buf = some b → s.owner b = some p)
    (hticket : x.ticket = (s.pc p).ticket) (hentered : ∀ b, x = .enter b → (s.buf b).Request)
    (hasleep : ∀ b k, x = .sleep b k → s.completed ≤ k) : Inv { s with pc := update s.pc p x } := by
  have htickets : ∀ q, (update s.pc p x q).ticket = (s.pc q).ticket := by
    intro q
    by_cases hq : q = p
    · rw [hq, update_self, hticket]
    · rw [update_of_ne hq]
  have hall := forall_update (s := s) (p := p) (x := x)
  refine ⟨h.le, h.queue, ?_, fun q b k hk => ?_, fun j b y hy hj => ?_, h.request, ?_, ?_, h.idle, h.busy,
    h.interrupt, ?_⟩
  · exact hall (fun q c => ∀ b, c.buf = some b → s.owner b = some q) howner h.owner
  · exact h.ticket q b k ((htickets q).symm.trans hk)
  · obtain ⟨hbuf, q, hq⟩ := h.waiting j b y hy hj
    exact ⟨hbuf, q, (htickets q).trans hq⟩
  · exact hall (fun _ c => ∀ b, c = .enter b → (s.buf b).Request) hentered h.entered
  · exact hall (fun _ c => ∀ b k, c = .sleep b k → s.completed ≤ k) hasleep h.asleep
  · obtain ⟨rs, hrun, hrs⟩ := h.memory
    exact ⟨rs, hrun, fun q b k hq hk => hrs q b k ((htickets q).symm.trans hq) hk⟩

/-- A process returns from `iderw`. -/
theorem leave [DecidableEq P] (hp : (s.pc p).buf = some b) (hsync : (s.buf b).synced = true) :
    Inv { s with pc := update s.pc p .out } := by
  have hall := forall_update (s := s) (p := p) (x := .out)
  refine ⟨h.le, h.queue, ?_, ?_, fun j c y hy hj => ?_, h.request, ?_, ?_, h.idle, h.busy, h.interrupt, ?_⟩
  · exact hall (fun q x => ∀ b, x.buf = some b → s.owner b = some q) nofun h.owner
  · exact hall (fun _ x => ∀ b k, x.ticket = some (b, k) → ∃ y, s.log[k]? = some (b, y)) nofun h.ticket
  · obtain ⟨hbuf, q, hq⟩ := h.waiting j c y hy hj
    -- a request that is waiting is not synced
    have hne : q ≠ p := by
      rintro rfl
      obtain rfl := Option.some.inj (hp.symm.trans (Pc.buf_of_ticket hq))
      have hreq := (h.request _ (mem_of_getElem? hy)).1
      rw [← hbuf, hsync] at hreq
      nomatch hreq
    refine ⟨hbuf, q, ?_⟩
    show (update s.pc p .out q).ticket = _
    rw [update_of_ne hne]
    exact hq
  · exact hall (fun _ x => ∀ b, x = .enter b → (s.buf b).Request) nofun h.entered
  · exact hall (fun _ x => ∀ b k, x = .sleep b k → s.completed ≤ k) nofun h.asleep
  · obtain ⟨rs, hrun, hrs⟩ := h.memory
    exact ⟨rs, hrun, hall (fun _ x => ∀ b k, x.ticket = some (b, k) → k < s.completed → rs[k]? = some (s.buf b)) nofun
      hrs⟩

/-- The buffer of a process that has yet to queue it is not in the queue. -/
theorem not_mem_queue (hp : s.pc p = .enter b) : b ∉ s.idequeue := by
  intro hb
  obtain ⟨j, x, -, -, q, hq⟩ := h.exists_ticket hb
  obtain rfl := h.eq_of_buf (p := p) (by rw [hp]; rfl) (Pc.buf_of_ticket hq)
  rw [hp] at hq
  nomatch hq

end

theorem idestart_ne_done (x : Buf D) (d : Option D) : idestart x ≠ .done d := by
  simp only [idestart]
  split <;> nofun

section

variable (h : Inv s)

include h

/-- A request is queued. -/
theorem append [DecidableEq P] [DecidableEq B] (hp : s.pc p = .enter b) :
    Inv ((s.append b).test p b s.log.length) := by
  have hreq := h.entered p b hp
  have hmem := h.not_mem_queue hp
  have htest : (s.append b).test p b s.log.length =
      { s.append b with pc := update s.pc p (.sleep b s.log.length) } := by
    simp only [State.test, State.append, hreq.1, Bool.false_eq_true, if_false]
  have hdone : ∀ d, (s.append b).device = .done d ↔ s.device = .done d := by
    intro d
    simp only [State.append]
    split
    · rename_i hhead
      have hnil : s.idequeue = [] := by
        cases hq : s.idequeue with
        | nil => rfl
        | cons c queue =>
          rw [hq] at hhead hmem
          obtain rfl : c = b := by simpa using hhead
          exact absurd (mem_cons_self ..) hmem
      rw [h.idle hnil]
      exact ⟨fun hd => absurd hd (idestart_ne_done _ _), nofun⟩
    · rfl
  have hexecuted : (s.append b).executed = s.executed := by
    have hcompleted : (s.append b).completed = s.completed := rfl
    unfold State.executed
    cases hdev : s.device with
    | done d =>
      rw [(hdone d).mpr hdev]
      rfl
    | idle | read | write =>
      split
      · rename_i d hd
        exact absurd (hdev.symm.trans ((hdone d).mp hd)) nofun
      · rfl
  have hlog : ∀ j c x, (s.log ++ [(b, s.buf b)])[j]? = some (c, x) →
      s.log[j]? = some (c, x) ∨ j = s.log.length ∧ c = b ∧ x = s.buf b := by
    intro j c x hx
    rcases Nat.lt_or_ge j s.log.length with hj | hj
    · rw [getElem?_append_left hj] at hx
      exact .inl hx
    · rw [getElem?_append_right hj] at hx
      obtain ⟨hzero, hx⟩ := getElem?_singleton.symm ▸ hx |> Option.ite_none_right_eq_some.mp
      obtain ⟨rfl, rfl⟩ := Prod.mk.inj (Option.some.inj hx)
      exact .inr ⟨by omega, rfl, rfl⟩
  have hall := forall_update (s := s) (p := p) (x := .sleep b s.log.length)
  rw [htest]
  refine ⟨?_, ?_, ?_, ?_, fun j c x hx hj => ?_, fun x hx => ?_, ?_, ?_, fun hnil => ?_, fun c hc => ?_, ?_, ?_⟩
  · exact Nat.le_trans h.le (by simp [State.append])
  · show s.idequeue ++ [b] = ((s.log ++ [(b, s.buf b)]).drop s.completed).map Prod.fst
    rw [drop_append_of_le_length h.le, map_append, ← h.queue]
    rfl
  · refine hall (fun q x => ∀ c, x.buf = some c → s.owner c = some q) ?_ h.owner
    rintro c ⟨⟩
    exact h.owner p b (by rw [hp]; rfl)
  · refine hall (fun _ x => ∀ c k, x.ticket = some (c, k) → ∃ y, (s.log ++ [(b, s.buf b)])[k]? = some (c, y)) ?_
      fun q c k hk => ?_
    · rintro c k ⟨⟩
      exact ⟨s.buf b, by simp⟩
    · obtain ⟨y, hy⟩ := h.ticket q c k hk
      exact ⟨y, by rw [getElem?_append_left (List.getElem?_eq_some_iff.mp hy).1]; exact hy⟩
  · rcases hlog j c x hx with hold | ⟨rfl, rfl, rfl⟩
    · obtain ⟨hbuf, q, hq⟩ := h.waiting j c x hold hj
      have hne : q ≠ p := by
        rintro rfl
        rw [hp] at hq
        nomatch hq
      exact ⟨hbuf, q, by show (update s.pc p _ q).ticket = _; rw [update_of_ne hne]; exact hq⟩
    · exact ⟨rfl, p, by show (update s.pc p _ p).ticket = _; rw [update_self]; rfl⟩
  · rcases mem_append.mp hx with hx | hx
    · exact h.request x hx
    · obtain rfl := mem_singleton.mp hx
      exact hreq
  · exact hall (fun _ x => ∀ c, x = .enter c → (s.buf c).Request) nofun h.entered
  · refine hall (fun _ x => ∀ c k, x = .sleep c k → s.completed ≤ k) ?_ h.asleep
    rintro c k ⟨⟩
    exact h.le
  · simp [State.append] at hnil
  · show (s.append b).device = idestart (s.buf c) ∨ (s.append b).device = .done (s.answer c)
    simp only [State.append] at hc ⊢
    cases hq : s.idequeue with
    | nil =>
      rw [hq] at hc
      obtain rfl : b = c := by simpa using hc
      exact .inl (by simp)
    | cons d queue =>
      rw [hq] at hc hmem
      obtain rfl : d = c := by simpa using hc
      have hne : d ≠ b := fun heq => hmem (heq ▸ mem_cons_self ..)
      have hbusy := h.busy d (by rw [hq]; rfl)
      simpa [hne] using hbusy
  · exact h.interrupt.trans (exists_congr fun d => (hdone d).symm)
  · obtain ⟨rs, hrun, hrs⟩ := h.memory
    refine ⟨rs, ?_, ?_⟩
    · show memRun s.disk0 (((s.log ++ [(b, s.buf b)]).take (s.append b).executed).map Prod.snd) = _
      rw [hexecuted, take_append_of_le_length h.executed_le]
      exact hrun
    · refine hall (fun _ x => ∀ c k, x.ticket = some (c, k) → k < s.completed → rs[k]? = some (s.buf c)) ?_ hrs
      rintro c k ⟨⟩ hk
      exact absurd h.le (Nat.not_le.mpr hk)

/-- A process that was woken up. -/
theorem retest [DecidableEq P] (hp : s.pc p = .retest b k) : Inv (s.test p b k) := by
  unfold State.test
  have hbuf : (s.pc p).buf = some b := by rw [hp]; rfl
  have hticket : (s.pc p).ticket = some (b, k) := by rw [hp]; rfl
  cases hsync : (s.buf b).synced with
  | true => exact h.leave hbuf hsync
  | false =>
    refine h.setPc ?_ hticket.symm nofun ?_
    · rintro c ⟨⟩
      exact h.owner p b hbuf
    · rintro c j ⟨⟩
      -- a request that has been completed is synced
      by_contra hlt
      obtain ⟨rs, hrun, hrs⟩ := h.memory
      have hmem := mem_of_getElem? (hrs p b k hticket (Nat.not_le.mp hlt))
      rw [memRun_synced hrun hmem] at hsync
      nomatch hsync

/-- The requests up to the head of the queue. -/
theorem take_succ (hb : s.idequeue.head? = some b) :
    (s.log.take (s.completed + 1)).map Prod.snd = (s.log.take s.completed).map Prod.snd ++ [s.buf b] := by
  rw [take_add_one, h.head hb, map_append]
  rfl

theorem head_request (hb : s.idequeue.head? = some b) : (s.buf b).Request :=
  h.request _ (mem_of_getElem? (h.head hb))

/-- The device has a command: it is that of the head of the queue. -/
theorem device_eq (hidle : s.device ≠ .idle) (hdone : ∀ d, s.device ≠ .done d) :
    ∃ b, s.idequeue.head? = some b ∧
      s.device = if (s.buf b).dirty then .write (s.buf b).blockno (s.buf b).data else .read (s.buf b).blockno := by
  obtain ⟨b, hb⟩ := h.exists_head hidle
  refine ⟨b, hb, ?_⟩
  rw [← idestart_eq (h.head_request hb)]
  exact (h.busy b hb).resolve_right (hdone _)

/-- The device executes the command of the head of the queue. -/
theorem executed (hb : s.idequeue.head? = some b) (hdone : ∀ d, s.device ≠ .done d) {r : Buf D}
    {disk : ℕ → D} (hrun : memIderw (s.buf b) s.disk = some (r, disk)) (hanswer : (s.buf b).dirty = false → disk = s.disk) :
    Inv { s with device := .done (s.answer b), interrupt := true, disk := disk } := by
  have hexecuted : s.executed = s.completed := by
    unfold State.executed
    split
    · rename_i d hd
      exact absurd hd (hdone d)
    · rfl
  refine ⟨h.le, h.queue, h.owner, h.ticket, h.waiting, h.request, h.entered, h.asleep, fun hnil => ?_, fun c hc => ?_,
    ⟨fun _ => ⟨_, rfl⟩, fun _ => rfl⟩, ?_⟩
  · rw [show s.idequeue = [] from hnil] at hb
    nomatch hb
  · obtain rfl := Option.some.inj (hb.symm.trans hc)
    refine .inr (congrArg Device.done ?_)
    unfold State.answer
    cases hd : (s.buf b).dirty with
    | true => rfl
    | false => simp [hanswer hd]
  · obtain ⟨rs, hmem, hrs⟩ := h.memory
    rw [hexecuted] at hmem
    refine ⟨rs ++ [r], ?_, fun p c k hp hk => ?_⟩
    · show memRun s.disk0 ((s.log.take (s.completed + 1)).map Prod.snd) = _
      rw [h.take_succ hb]
      exact memRun_append.mpr ⟨rs, s.disk, r, hmem, hrun, rfl⟩
    · have hlen : rs.length = s.completed := by
        rw [memRun_length hmem, length_map, length_take]
        exact Nat.min_eq_left h.le
      rw [getElem?_append_left (by rw [hlen]; exact hk)]
      exact hrs p c k hp hk

theorem execute (hexec : s.execute = some s') : Inv s' := by
  unfold State.execute at hexec
  split at hexec
  · rename_i n hdev
    obtain rfl := Option.some.inj hexec
    obtain ⟨b, hb, hcmd⟩ := h.device_eq (by rw [hdev]; nofun) (by rw [hdev]; nofun)
    rw [hdev] at hcmd
    cases hd : (s.buf b).dirty with
    | true => simp [hd] at hcmd
    | false =>
      obtain rfl : n = (s.buf b).blockno := by simpa [hd] using hcmd
      have hrun := memIderw_eq (h.head_request hb) s.disk
      rw [hd, if_neg Bool.false_ne_true] at hrun
      have hanswer : s.answer b = some (s.disk (s.buf b).blockno) := by simp [State.answer, hd]
      rw [← hanswer]
      exact h.executed hb (by rw [hdev]; nofun) hrun fun _ => rfl
  · rename_i n d hdev
    obtain rfl := Option.some.inj hexec
    obtain ⟨b, hb, hcmd⟩ := h.device_eq (by rw [hdev]; nofun) (by rw [hdev]; nofun)
    rw [hdev] at hcmd
    cases hd : (s.buf b).dirty with
    | false => simp [hd] at hcmd
    | true =>
      obtain ⟨rfl, rfl⟩ : n = (s.buf b).blockno ∧ d = (s.buf b).data := by simpa [hd] using hcmd
      have hrun := memIderw_eq (h.head_request hb) s.disk
      rw [hd, if_pos rfl] at hrun
      have hanswer : s.answer b = none := by simp [State.answer, hd]
      rw [← hanswer]
      exact h.executed hb (by rw [hdev]; nofun) hrun fun hfalse => absurd (hd.symm.trans hfalse) nofun
  · nomatch hexec

/-- `ideintr` leaves in the buffer what the memory disk leaves there. -/
theorem finish [DecidableEq B] (hb : s.idequeue.head? = some b) {d : Option D} (hdev : s.device = .done d)
    {rs : List (Buf D)} (hmem : memRun s.disk0 ((s.log.take s.executed).map Prod.snd) = some (rs, s.disk)) :
    rs[s.completed]? = some (s.finish b) := by
  have hexecuted : s.executed = s.completed + 1 := by simp [State.executed, hdev]
  rw [hexecuted, h.take_succ hb] at hmem
  obtain ⟨rs', disk, r, hrs', hr, rfl⟩ := memRun_append.mp hmem
  have hlen : rs'.length = s.completed := by
    rw [memRun_length hrs', length_map, length_take]
    exact Nat.min_eq_left h.le
  rw [← hlen, getElem?_concat_length]
  have hanswer := (h.busy b hb).resolve_left (by rw [hdev]; exact (idestart_ne_done _ _).symm)
  rw [memIderw_eq (h.head_request hb)] at hr
  unfold State.finish
  rw [hanswer]
  cases hd : (s.buf b).dirty with
  | true =>
    rw [hd, if_pos rfl] at hr
    obtain ⟨rfl, -⟩ := Prod.mk.inj (Option.some.inj hr)
    rfl
  | false =>
    rw [hd, if_neg Bool.false_ne_true] at hr
    obtain ⟨rfl, rfl⟩ := Prod.mk.inj (Option.some.inj hr)
    simp [State.answer, hd]

end

theorem wakeup_ticket [DecidableEq B] (s : State P B D) (b : B) (p : P) :
    ((s.wakeup b).pc p).ticket = (s.pc p).ticket ∧ ((s.wakeup b).pc p).buf = (s.pc p).buf := by
  simp only [State.wakeup]
  cases s.pc p with
  | sleep c k => by_cases hc : c = b <;> simp [hc, Pc.ticket, Pc.buf]
  | out | enter | retest => exact ⟨rfl, rfl⟩

theorem wakeup_enter [DecidableEq B] (h : (s.wakeup b).pc p = .enter c) : s.pc p = .enter c := by
  simp only [State.wakeup] at h
  cases hp : s.pc p with
  | sleep d k => by_cases hd : d = b <;> simp [hp, hd] at h
  | enter d => simpa [hp] using h
  | out | retest => simp [hp] at h

theorem wakeup_sleep [DecidableEq B] (h : (s.wakeup b).pc p = .sleep c k) : s.pc p = .sleep c k ∧ c ≠ b := by
  simp only [State.wakeup] at h
  cases hp : s.pc p with
  | sleep d j =>
    by_cases hd : d = b
    · simp [hp, hd] at h
    · obtain ⟨rfl, rfl⟩ : d = c ∧ j = k := by simpa [hp, hd] using h
      exact ⟨rfl, hd⟩
  | out | enter | retest => simp [hp] at h

theorem ideintr_eq [DecidableEq B] {queue : List B} (hq : s.idequeue = b :: queue) : s.ideintr = { s with
      buf := update s.buf b (s.finish b)
      pc := (s.wakeup b).pc
      idequeue := queue
      interrupt := false
      completed := s.completed + 1
      device := queue.head?.elim .idle fun c => idestart (update s.buf b (s.finish b) c) } := by
  unfold State.ideintr
  rw [hq]
  cases queue <;> rfl

/-- `ideintr` completes the request at the head of the queue. -/
theorem ideintr [DecidableEq B] (h : Inv s) (hint : s.interrupt = true) : Inv s.ideintr ∧
    s.ideintr.completed = s.completed + 1 := by
  obtain ⟨d, hdev⟩ := h.interrupt.mp hint
  obtain ⟨b, hb⟩ := h.exists_head (by rw [hdev]; nofun)
  obtain ⟨queue, hq⟩ : ∃ queue, s.idequeue = b :: queue := by
    cases hq : s.idequeue with
    | nil => simp [hq] at hb
    | cons c queue => exact ⟨queue, by rw [hq] at hb; rw [Option.some.inj hb]⟩
  have hhead := h.head hb
  have hlt : s.completed < s.log.length := (List.getElem?_eq_some_iff.mp hhead).1
  obtain ⟨-, p0, hp0⟩ := h.waiting _ _ _ hhead (Nat.le_refl _)
  -- another request is for another buffer
  have hne : ∀ p c k, (s.pc p).ticket = some (c, k) → k ≠ s.completed → c ≠ b := by
    rintro p c k hp hk rfl
    exact hk (h.eq_of_ticket hp hp0)
  have hdrop : (s.log.drop (s.completed + 1)).map Prod.fst = queue := by
    have htail := congrArg List.tail (h.queue.symm.trans hq)
    rwa [← map_tail, tail_drop] at htail
  have htickets := fun p => (wakeup_ticket s b p).1
  rw [ideintr_eq hq]
  refine ⟨⟨hlt, hdrop.symm, fun p c hc => ?_, fun p c k hk => ?_, fun j c x hx hj => ?_, h.request, fun p c hc => ?_,
    fun p c k hp => ?_, fun hnil => ?_, fun c hc => ?_, ?_, ?_⟩, rfl⟩
  · exact h.owner p c ((wakeup_ticket s b p).2.symm.trans hc)
  · exact h.ticket p c k ((htickets p).symm.trans hk)
  · have hj' : s.completed ≤ j := Nat.le_of_succ_le hj
    obtain ⟨rfl, p, hp⟩ := h.waiting j c x hx hj'
    refine ⟨?_, p, (htickets p).trans hp⟩
    exact update_of_ne (hne p c j hp (by have : s.completed + 1 ≤ j := hj; omega)) ..
  · have hp := wakeup_enter hc
    have hcb : c ≠ b := by
      rintro rfl
      exact h.not_mem_queue hp (hq ▸ mem_cons_self ..)
    show (update s.buf b _ c).Request
    rw [update_of_ne hcb]
    exact h.entered p c hp
  · obtain ⟨hp, hcb⟩ := wakeup_sleep hp
    have hle := h.asleep p c k hp
    have hk : k ≠ s.completed := by
      rintro rfl
      obtain ⟨x, hx⟩ := h.ticket p c s.completed (by rw [hp]; rfl)
      rw [hhead] at hx
      exact hcb (Prod.mk.inj (Option.some.inj hx)).1.symm
    show s.completed + 1 ≤ k
    omega
  · show queue.head?.elim _ _ = _
    rw [show queue = [] from hnil]
    rfl
  · refine .inl ?_
    show queue.head?.elim _ _ = _
    rw [show queue.head? = some c from hc]
    rfl
  · refine ⟨nofun, ?_⟩
    rintro ⟨d, hd⟩
    cases hc : queue.head? with
    | none => simp [hc] at hd
    | some c =>
      simp only [hc, Option.elim_some] at hd
      exact absurd hd (idestart_ne_done _ _)
  · obtain ⟨rs, hmem, hrs⟩ := h.memory
    have hexecuted : s.executed = s.completed + 1 := by simp [State.executed, hdev]
    have hfinish := h.finish hb hdev hmem
    refine ⟨rs, ?_, fun p c k hp hk => ?_⟩
    · rw [hexecuted] at hmem
      have hsame : ∀ t : State P B D, (∀ d, t.device ≠ .done d) → t.executed = t.completed := by
        intro t ht
        unfold State.executed
        split
        · rename_i d hd
          exact absurd hd (ht d)
        · rfl
      rw [hsame _ ?_]
      · exact hmem
      · intro d hd
        cases hc : queue.head? with
        | none => simp [hc] at hd
        | some c =>
          simp only [hc, Option.elim_some] at hd
          exact absurd hd (idestart_ne_done _ _)
    · have hp' : (s.pc p).ticket = some (c, k) := (htickets p).symm.trans hp
      show rs[k]? = some (update s.buf b _ c)
      by_cases hkc : k = s.completed
      · subst hkc
        obtain ⟨x, hx⟩ := h.ticket p c s.completed hp'
        rw [hhead] at hx
        obtain rfl := (Prod.mk.inj (Option.some.inj hx)).1
        rw [update_self]
        exact hfinish
      · rw [update_of_ne (hne p c k hp' hkc)]
        exact hrs p c k hp' (by have : k < s.completed + 1 := hk; omega)

theorem next [DecidableEq P] [DecidableEq B] (h : Inv s) {e : Event P B D} (hnext : s.next e = some s') : Inv s' := by
  cases e with
  | lock p b =>
    simp only [State.next] at hnext
    split at hnext
    · rename_i hfree
      obtain rfl := Option.some.inj hnext
      refine h.setOwner fun q c hq => update_of_ne ?_ ..
      rintro rfl
      exact absurd (hfree.symm.trans (h.owner q c hq)) nofun
    · nomatch hnext
  | unlock p b =>
    simp only [State.next] at hnext
    split at hnext
    · rename_i hout
      split_ifs at hnext with howner
      obtain rfl := Option.some.inj hnext
      refine h.setOwner fun q c hq => update_of_ne ?_ ..
      rintro rfl
      obtain rfl := Option.some.inj (howner.symm.trans (h.owner q c hq))
      rw [hout] at hq
      nomatch hq
    · nomatch hnext
  | change p b x =>
    simp only [State.next] at hnext
    split at hnext
    · rename_i hout
      split_ifs at hnext with howner
      obtain rfl := Option.some.inj hnext
      refine h.setBuf fun q c hq => update_of_ne ?_ ..
      rintro rfl
      obtain rfl := Option.some.inj (howner.symm.trans (h.owner q c hq))
      rw [hout] at hq
      nomatch hq
    · nomatch hnext
  | iderw p b =>
    simp only [State.next] at hnext
    split at hnext
    · rename_i hout
      split_ifs at hnext with hcall
      obtain rfl := Option.some.inj hnext
      refine h.setPc ?_ (by rw [hout]; rfl) ?_ nofun
      · rintro c ⟨⟩
        exact hcall.1
      · rintro c ⟨⟩
        exact hcall.2
    · nomatch hnext
  | step p =>
    simp only [State.next, State.step] at hnext
    split at hnext
    · rename_i b hp
      obtain rfl := Option.some.inj hnext
      exact h.append hp
    · rename_i b k hp
      obtain rfl := Option.some.inj hnext
      exact h.retest hp
    · nomatch hnext
  | wake p =>
    simp only [State.next] at hnext
    split at hnext
    · rename_i b k hp
      obtain rfl := Option.some.inj hnext
      refine h.setPc ?_ (by rw [hp]; rfl) nofun nofun
      rintro c ⟨⟩
      exact h.owner p b (by rw [hp]; rfl)
    · nomatch hnext
  | execute => exact h.execute hnext
  | ideintr =>
    simp only [State.next] at hnext
    split_ifs at hnext with hint
    obtain rfl := Option.some.inj hnext
    exact (h.ideintr hint).1

end Inv

theorem inv_of_reachable [DecidableEq P] [DecidableEq B] (h : (lts P B D).Reachable s) : Inv s :=
  Lts.Run.invariant (I := Inv) (fun _ hs => State.Init.inv hs) (fun _ _ _ hI _ hnext => hI.next hnext) h

/-! ## The driver and the memory disk -/

/-- The driver does what the memory disk does. -/
structure Refines [DecidableEq P] [DecidableEq B] (s : State P B D) : Prop where
  /-- The queue is the requests that have not been completed, in their order. -/
  queue : s.idequeue = (s.log.drop s.completed).map Prod.fst
  /-- These are the buffers whose `iderw` has queued them and is not done. -/
  pending : ∀ b, b ∈ s.idequeue ↔ ∃ p k, (s.pc p).ticket = some (b, k) ∧ s.completed ≤ k
  nodup : s.idequeue.Nodup
  idle : s.device = .idle ↔ s.idequeue = []
  /-- The device has the command of the head of the queue, or has executed it. -/
  busy : ∀ b, s.idequeue.head? = some b → s.device = idestart (s.buf b) ∨ s.device = .done (s.answer b)
  /-- A request is completed by one `ideintr`, in its turn. -/
  once : ∀ s', s.next .ideintr = some s' → s'.completed = s.completed + 1
  others : ∀ e s', s.next e = some s' → e ≠ .ideintr → s'.completed = s.completed
  /-- Nothing stalls: the device executes its command or has an interrupt for `ideintr`, and who can return is awake. -/
  progress : s.idequeue ≠ [] → (s.next .execute).isSome ∨ (s.next .ideintr).isSome
  awake : ∀ p b k, (s.pc p).ticket = some (b, k) → k < s.completed → s.pc p = .retest b k
  /-- The disk, and the buffer of an `iderw` that returns, are what the memory disk leaves after the requests so far. -/
  memory : ∃ rs, memRun s.disk0 ((s.log.take s.executed).map Prod.snd) = some (rs, s.disk) ∧
    ∀ p s', s.next (.step p) = some s' → s'.pc p = .out → ∃ b k, (s.pc p).ticket = some (b, k) ∧ k < s.completed ∧
      (∃ x, s.log[k]? = some (b, x)) ∧ rs[k]? = some (s'.buf b) ∧ s'.disk = s.disk

theorem completed_eq [DecidableEq P] [DecidableEq B] {e : Event P B D} (hnext : s.next e = some s')
    (he : e ≠ .ideintr) : s'.completed = s.completed := by
  cases e with
  | ideintr => exact absurd rfl he
  | lock | unlock | change | iderw | wake =>
    simp only [State.next] at hnext
    split at hnext
    · try split_ifs at hnext
      obtain rfl := Option.some.inj hnext
      rfl
    · nomatch hnext
  | step p =>
    simp only [State.next, State.step] at hnext
    split at hnext
    · obtain rfl := Option.some.inj hnext
      rfl
    · obtain rfl := Option.some.inj hnext
      rfl
    · nomatch hnext
  | execute =>
    simp only [State.next, State.execute] at hnext
    split at hnext
    · obtain rfl := Option.some.inj hnext
      rfl
    · obtain rfl := Option.some.inj hnext
      rfl
    · nomatch hnext

/-- A process that returns had a request, and it has been completed. -/
theorem Inv.returns [DecidableEq P] [DecidableEq B] (h : Inv s) (hnext : s.next (.step p) = some s')
    (hout : s'.pc p = .out) :
    ∃ b k, (s.pc p).ticket = some (b, k) ∧ k < s.completed ∧ s'.buf = s.buf ∧ s'.disk = s.disk := by
  simp only [State.next, State.step] at hnext
  split at hnext
  · rename_i b hp
    obtain rfl := Option.some.inj hnext
    have hsync : ((s.append b).buf b).synced = false := (h.entered p b hp).1
    simp [State.test, hsync] at hout
  · rename_i b k hp
    obtain rfl := Option.some.inj hnext
    have hticket : (s.pc p).ticket = some (b, k) := by rw [hp]; rfl
    have hsync : (s.buf b).synced = true := by
      by_contra hnot
      simp [State.test, hnot] at hout
    refine ⟨b, k, hticket, ?_, rfl, rfl⟩
    by_contra hle
    obtain ⟨x, hx⟩ := h.ticket p b k hticket
    obtain ⟨rfl, -⟩ := h.waiting k b x hx (Nat.not_lt.mp hle)
    have hreq := (h.request _ (mem_of_getElem? hx)).1
    exact absurd (hsync.symm.trans hreq) nofun
  · nomatch hnext

/-- The interrupt-driven driver refines the memory disk. -/
theorem ide_refines [DecidableEq P] [DecidableEq B] (h : (lts P B D).Reachable s) : Refines s := by
  have hI := inv_of_reachable h
  refine ⟨hI.queue, fun b => ⟨fun hb => ?_, ?_⟩, hI.nodup, ⟨fun hd => ?_, hI.idle⟩, hI.busy, fun s' hnext => ?_,
    fun e s' hnext he => completed_eq hnext he, fun hq => ?_, fun p b k hp hk => ?_, ?_⟩
  · obtain ⟨j, x, -, hj, p, hp⟩ := hI.exists_ticket hb
    exact ⟨p, j, hp, hj⟩
  · rintro ⟨p, k, hp, hk⟩
    obtain ⟨x, hx⟩ := hI.ticket p b k hp
    rw [hI.queue]
    refine mem_map.mpr ⟨(b, x), mem_of_getElem? (i := k - s.completed) ?_, rfl⟩
    rw [getElem?_drop, Nat.add_sub_cancel' hk]
    exact hx
  · by_contra hne
    obtain ⟨b, queue, hq⟩ := exists_cons_of_ne_nil hne
    rcases hI.busy b (by rw [hq]; rfl) with hbusy | hbusy
    · rw [hd, idestart_eq (hI.head_request (by rw [hq]; rfl))] at hbusy
      split at hbusy <;> nomatch hbusy
    · exact absurd (hd.symm.trans hbusy) nofun
  · simp only [State.next] at hnext
    split_ifs at hnext with hint
    obtain rfl := Option.some.inj hnext
    exact (hI.ideintr hint).2
  · obtain ⟨b, queue, hq⟩ := exists_cons_of_ne_nil hq
    rcases hI.busy b (by rw [hq]; rfl) with hbusy | hbusy
    · left
      rw [idestart_eq (hI.head_request (by rw [hq]; rfl))] at hbusy
      simp only [State.next, State.execute, hbusy]
      cases (s.buf b).dirty <;> rfl
    · right
      simp [State.next, hI.interrupt.mpr ⟨_, hbusy⟩]
  · cases hpc : s.pc p with
    | out | enter => simp [hpc, Pc.ticket] at hp
    | retest c j =>
      rw [hpc] at hp
      obtain ⟨rfl, rfl⟩ := Prod.mk.inj (Option.some.inj hp)
      rfl
    | sleep c j =>
      have hle := hI.asleep p c j hpc
      rw [hpc] at hp
      obtain ⟨rfl, rfl⟩ := Prod.mk.inj (Option.some.inj hp)
      exact absurd hk (Nat.not_lt.mpr hle)
  · obtain ⟨rs, hmem, hrs⟩ := hI.memory
    refine ⟨rs, hmem, fun p s' hnext hout => ?_⟩
    obtain ⟨b, k, hp, hk, hbuf, hdisk⟩ := hI.returns hnext hout
    refine ⟨b, k, hp, hk, hI.ticket p b k hp, ?_, hdisk⟩
    rw [hbuf]
    exact hrs p b k hp hk

theorem neZero_two : NeZero 2 := ⟨two_ne_zero⟩

section

attribute [local instance] neZero_two

/-- Two buffers, the first one dirty. -/
def twoBuffers : State (Fin 2) (Fin 2) ℕ where
  buf b := if b = 0 then ⟨1, 7, false, true, 5⟩ else ⟨1, 7, false, false, 0⟩
  owner b := some b
  pc _ := .out
  idequeue := []
  device := .idle
  interrupt := false
  disk _ := 3
  log := []
  completed := 0
  disk0 _ := 3

end

/-- A write and a read of the same block are queued, and executed in turn. -/
theorem ide_refines_two : ∃ s, (lts (Fin 2) (Fin 2) ℕ).Reachable s ∧ s.completed = 2 ∧ s.idequeue = [] ∧
    s.device = .idle ∧ (s.buf 1).data = 5 := by
  obtain ⟨s, hs, hend⟩ := Lts.Run.exists_of_exec (lts (Fin 2) (Fin 2) ℕ) (fun _ _ => true) twoBuffers
    [.iderw 0 0, .iderw 1 1, .step 0, .step 1, .execute, .ideintr, .execute, .ideintr, .step 1, .step 0]
    (fun s => s.completed = 2 ∧ s.idequeue = [] ∧ (s.buf 1).data = 5)
    ⟨fun _ => rfl, rfl, rfl, rfl, rfl, rfl, rfl⟩ (by decide +kernel)
  obtain ⟨hcompleted, hqueue, hdata⟩ := of_decide_eq_true hend
  exact ⟨s, hs.reachable, hcompleted, hqueue, (ide_refines hs.reachable).idle.mpr hqueue, hdata⟩

end Ide

end Xv6
