import Mathlib.Algebra.Order.BigOperators.Group.Finset
import Xv6.Kernel.Calls

/-!
# The last reference to an inode (`fs.c`)

`iget`, `idup`, `ilock`, `iunlock` and `iput` of one inode by any number of processes, one critical section of
`icache.lock` and one operation on the sleep lock at a time. `iput` reads `ip->ref` in one critical section and
decrements it in another one, so two processes that drop the last two references may both find two of them. The steps
are those of the programs of `Xv6.Kernel.Calls`.
-/

namespace Xv6

open Function

namespace Icache

/-- The points of `ilock` and `iput`: what the process does next. -/
inductive Pc where
  /-- In no call. -/
  | idle
  /-- `ilock`: `acquiresleep(&ip->lock)`. -/
  | ilock
  /-- `if(ip->valid == 0)`, and reading the inode. -/
  | load
  /-- Between `ilock` and `iunlock`. -/
  | locked
  /-- `iput`: `acquiresleep(&ip->lock)`. -/
  | iput
  /-- `if(ip->valid && ip->nlink == 0)`. -/
  | check
  /-- `int r = ip->ref`. -/
  | ref
  /-- `itrunc(ip)` and what follows. -/
  | free
  /-- `releasesleep(&ip->lock)`. -/
  | release
  /-- `ip->ref--`. -/
  | dec
deriving DecidableEq

namespace Pc

/-- The process needs a reference, which stays until it gets to `idle`. -/
def uses : Pc → Bool
  | idle => false
  | _ => true

/-- The process has the lock. -/
def locks : Pc → Bool
  | idle | ilock | iput | dec => false
  | _ => true

/-- The process will drop a reference and no longer asks whether it is the last one. -/
def drops : Pc → Bool
  | release | dec => true
  | _ => false

end Pc

/-- The cache entry of the inode, the inodes on disk, and the processes. `loaded` is a history variable: the inode has
been read from disk since the entry got its first reference. -/
structure State (P : Type) where
  ref : ℕ
  lock : Option P
  files : Files
  loaded : Bool
  pc : P → Pc

/-- The calls on the inode and their steps; `change` is an assignment to `nlink` by a process that has locked it. -/
inductive Event (P : Type) where
  | iget
  | idup
  | ilock (p : P)
  | change (p : P) (c : Change)
  | iunlock (p : P)
  | iput (p : P)
  | step (p : P)

variable {P : Type} [Fintype P]

/-- The number of processes at certain points. -/
def count (test : Pc → Bool) (pc : P → Pc) : ℕ := ∑ p, (test (pc p)).toNat

namespace State

/-- The references that processes in a call rely on. -/
def inUse (s : State P) : ℕ := count Pc.uses s.pc

/-- The references that are as good as dropped. -/
def dropping (s : State P) : ℕ := count Pc.drops s.pc

variable [DecidableEq P]

/-- The process gets to a point. -/
def goto (s : State P) (p : P) (c : Pc) : State P := { s with pc := update s.pc p c }

/-- `acquiresleep`. -/
def acquire (s : State P) (p : P) (c : Pc) : Option (State P) :=
  match s.lock with
  | none => some { s.goto p c with lock := some p }
  | some _ => none

/-- An operation on the inode. -/
def exec (N : ℕ) (s : State P) (op : FsOp) : Option (State P) :=
  match (Files.exec N op).run s.files with
  | .ok _ t => some { s with files := t }
  | .error _ _ => none

/-- The step of a process in `ilock` or `iput`. -/
def step (N i : ℕ) (s : State P) (p : P) : Option (State P) :=
  match s.pc p with
  | .idle | .locked => none
  | .ilock => s.acquire p .load
  | .load => ({ s with loaded := true }.goto p .locked).exec N (.load i)
  | .iput => s.acquire p .check
  | .check => some (s.goto p (if s.files.valid i = true ∧ (s.files.node i).nlink = 0 then .ref else .release))
  | .ref => some (s.goto p (if s.ref = 1 then .free else .release))
  | .free => (s.goto p .release).exec N (.ifree i)
  | .release => some { s.goto p .dec with lock := none }
  | .dec => some { s.goto p .idle with ref := s.ref - 1 }

/-- The effect of one event. Whoever calls `idup`, `ilock` or `iput` has a reference that nobody else relies on. -/
def next (N i : ℕ) (s : State P) : Event P → Option (State P)
  | .iget =>
    if 0 < s.ref then some { s with ref := s.ref + 1 }
    else some { s with ref := 1, files := s.files.setValid i false, loaded := false }
  | .idup => if s.inUse < s.ref then some { s with ref := s.ref + 1 } else none
  | .ilock p => if s.pc p = .idle ∧ s.inUse < s.ref then some (s.goto p .ilock) else none
  | .change p c => if s.pc p = .locked then s.exec N (.update i c) else none
  | .iunlock p => if s.pc p = .locked then some { s.goto p .idle with lock := none } else none
  | .iput p => if s.pc p = .idle ∧ s.inUse < s.ref then some (s.goto p .iput) else none
  | .step p => s.step N i p

/-- Nobody has a reference to the inode. -/
structure Init (i : ℕ) (s : State P) : Prop where
  ref : s.ref = 0
  valid : s.files.valid i = false
  loaded : s.loaded = false
  pc : ∀ p, s.pc p = .idle

/-- Where `iput` finds more than one reference, not all the others are as good as dropped. -/
def Careful (s : State P) : Event P → Prop
  | .step p => s.pc p = .ref → s.ref ≠ 1 → s.dropping + 1 < s.ref
  | _ => True

instance (s : State P) (e : Event P) : Decidable (s.Careful e) :=
  match e with
  | .step p => inferInstanceAs (Decidable (s.pc p = .ref → s.ref ≠ 1 → s.dropping + 1 < s.ref))
  | .iget | .idup | .ilock _ | .change _ _ | .iunlock _ | .iput _ => inferInstanceAs (Decidable True)

/-- The inode has no links and no references, but has not been freed. -/
def Leaked (i : ℕ) (s : State P) : Prop :=
  s.ref = 0 ∧ (s.files.node i).nlink = 0 ∧ s.files.valid i = true ∧ (s.files.node i).type ≠ 0

end State

variable {s s' : State P} {N i : ℕ} {p : P}

theorem drops_le_uses (c : Pc) : c.drops.toNat ≤ c.uses.toNat := by cases c <;> decide

/-- A process that relies on a reference and does not drop it. -/
theorem State.dropping_lt (s : State P) (huses : (s.pc p).uses = true) (hdrops : (s.pc p).drops = false) :
    s.dropping < s.inUse := by
  refine Finset.sum_lt_sum (fun q _ => drops_le_uses _) ⟨p, Finset.mem_univ p, ?_⟩
  rw [huses, hdrops]
  decide

/-- What holds in every run: there are the references that processes rely on, and only the owner of the lock looks at
the inode. -/
structure Base (i : ℕ) (s : State P) : Prop where
  uses : s.inUse ≤ s.ref
  lock : ∀ p, (s.pc p).locks = true → s.lock = some p
  seen : ∀ p, s.pc p = .ref → s.files.valid i = true ∧ (s.files.node i).nlink = 0
  type : s.files.valid i = true → (s.files.node i).type ≠ 0

/-- What holds in every run in which `iput` is careful. -/
structure Inv (i : ℕ) (s : State P) : Prop where
  loaded : s.loaded = true → s.files.valid i = true ∨ (s.files.node i).type = 0 ∧ (s.files.node i).data = []
  last : s.files.valid i = true → (s.files.node i).nlink = 0 → s.dropping < s.ref

theorem State.Init.base (h : s.Init i) : Base i s := by
  have hzero : s.inUse = 0 := Finset.sum_eq_zero fun p _ => by rw [h.pc p]; rfl
  refine ⟨hzero.trans_le (Nat.zero_le _), fun p hp => ?_, fun p hp => ?_, fun hv => ?_⟩
  · rw [h.pc p] at hp
    nomatch hp
  · exact absurd ((h.pc p).symm.trans hp) nofun
  · exact absurd (h.valid.symm.trans hv) nofun

theorem State.Init.inv (h : s.Init i) : Inv i s :=
  ⟨fun hl => absurd (h.loaded.symm.trans hl) nofun, fun hv => absurd (h.valid.symm.trans hv) nofun⟩

/-- Two processes do not both have the lock. -/
theorem Base.eq_of_locks (h : Base i s) {q : P} (hp : (s.pc p).locks = true) (hq : (s.pc q).locks = true) : p = q :=
  Option.some.inj ((h.lock p hp).symm.trans (h.lock q hq))

theorem Base.ref_pos (h : Base i s) (hp : (s.pc p).uses = true) : 0 < s.ref := by
  have hle : (s.pc p).uses.toNat ≤ s.inUse :=
    Finset.single_le_sum (f := fun p => (s.pc p).uses.toNat) (fun _ _ => Nat.zero_le _) (Finset.mem_univ p)
  rw [hp, Bool.toNat_true] at hle
  exact hle.trans h.uses

/-- Another reference. -/
theorem Base.addRef (h : Base i s) : Base i { s with ref := s.ref + 1 } :=
  ⟨Nat.le_succ_of_le h.uses, h.lock, h.seen, h.type⟩

theorem Inv.addRef (h : Inv i s) : Inv i { s with ref := s.ref + 1 } :=
  ⟨h.loaded, fun hv hn => Nat.lt_succ_of_lt (h.last hv hn)⟩

/-- The owner of the lock changes the inode. -/
theorem Base.setFiles (h : Base i s) {t : Files} {b : Bool} (hp : (s.pc p).locks = true) (hr : s.pc p ≠ .ref)
    (htype : t.valid i = true → (t.node i).type ≠ 0) : Base i { s with files := t, loaded := b } := by
  refine ⟨h.uses, h.lock, fun q hq => ?_, htype⟩
  obtain rfl : q = p := h.eq_of_locks (by rw [show s.pc q = .ref from hq]; rfl) hp
  exact absurd hq hr

/-- An assignment to `nlink`. The process that makes it keeps its reference. -/
theorem Inv.change (h : Inv i s) (hb : Base i s) {c : Change} (hp : s.pc p = .locked)
    (hexec : s.exec N (.update i c) = some s') : Inv i s' := by
  obtain rfl := Option.some.inj hexec
  have hlt := s.dropping_lt (p := p) (by rw [hp]; rfl) (by rw [hp]; rfl)
  refine ⟨fun hl => ?_, fun _ _ => hlt.trans_le hb.uses⟩
  rcases h.loaded hl with hv | ⟨ht, hd⟩
  · exact .inl hv
  · exact .inr ⟨by simpa [Files.setNode] using ht, by simpa [Files.setNode] using hd⟩

variable [DecidableEq P]

/-- All interleavings. -/
def lts (P : Type) [Fintype P] [DecidableEq P] (N i : ℕ) : Lts (State P) (Event P) where
  init := State.Init i
  next := State.next N i

theorem count_update (test : Pc → Bool) (pc : P → Pc) (p : P) (c : Pc) :
    count test (update pc p c) + (test (pc p)).toNat = count test pc + (test c).toNat := by
  have h := sum_add_of_ne (f := fun q => (test (update pc p c q)).toNat) (g := fun q => (test (pc q)).toNat)
    (a := p) fun q hq => by rw [update_of_ne hq]
  rwa [update_self] at h

/-! ## What holds in every run -/

variable {c : Pc} {l : Option P} {e : Event P}

section

variable (h : Base i s)

include h

/-- A process gets to another point, and may take or release the lock. -/
theorem Base.goto
    (huses : (s.pc p).uses = true ∨ c.uses = false ∨ s.inUse < s.ref) (hlock : c.locks = true → l = some p)
    (hothers : ∀ q, q ≠ p → (s.pc q).locks = true → l = some q)
    (hseen : c = .ref → s.files.valid i = true ∧ (s.files.node i).nlink = 0) :
    Base i { s.goto p c with lock := l } := by
  have hu := count_update Pc.uses s.pc p c
  have hle := h.uses
  have hone := Bool.toNat_le c.uses
  refine ⟨?_, fun q hq => ?_, fun q hq => ?_, h.type⟩
  · show count Pc.uses (update s.pc p c) ≤ s.ref
    unfold State.inUse at hle huses
    rcases huses with hp | hc | hlt
    · rw [hp, Bool.toNat_true] at hu
      omega
    · rw [hc, Bool.toNat_false] at hu
      omega
    · omega
  · by_cases hqp : q = p
    · subst hqp
      exact hlock (by simpa [State.goto] using hq)
    · exact hothers q hqp (by simpa [State.goto, update_of_ne hqp] using hq)
  · by_cases hqp : q = p
    · subst hqp
      exact hseen (by simpa [State.goto] using hq)
    · exact h.seen q (by simpa [State.goto, update_of_ne hqp] using hq)

/-- The owner of the lock goes on. -/
theorem Base.goOn (hp : (s.pc p).locks = true) (huses : (s.pc p).uses = true)
    (hseen : c = .ref → s.files.valid i = true ∧ (s.files.node i).nlink = 0) : Base i (s.goto p c) :=
  h.goto (l := s.lock) (.inl huses) (fun _ => h.lock p hp) (fun q _ => h.lock q) hseen

theorem Base.acquire (huses : (s.pc p).uses = true) (hc : c ≠ .ref)
    (hacq : s.acquire p c = some s') : Base i s' := by
  unfold State.acquire at hacq
  split at hacq
  · rename_i hfree
    obtain rfl := Option.some.inj hacq
    refine h.goto (.inl huses) (fun _ => rfl) (fun q _ hq => ?_) fun hr => absurd hr hc
    exact absurd (hfree.symm.trans (h.lock q hq)) nofun
  · nomatch hacq

/-- The owner of the lock releases it. -/
theorem Base.unlock (hp : (s.pc p).locks = true) (huses : (s.pc p).uses = true)
    (hc : c.locks = false) : Base i { s.goto p c with lock := none } := by
  refine h.goto (.inl huses) (fun hl => absurd (hc.symm.trans hl) nofun) (fun q hq hl => ?_) ?_
  · exact absurd (h.eq_of_locks hl hp) hq
  · rintro rfl
    nomatch hc

theorem Base.iget (hnext : s.next N i .iget = some s') : Base i s' := by
  simp only [State.next] at hnext
  split_ifs at hnext with hpos
  · obtain rfl := Option.some.inj hnext
    exact h.addRef
  · obtain rfl := Option.some.inj hnext
    have hle := h.uses
    refine ⟨?_, h.lock, fun p hp => ?_, fun hv => ?_⟩
    · show s.inUse ≤ 1
      omega
    · exact absurd (h.ref_pos (p := p) (by rw [show s.pc p = .ref from hp]; rfl)) hpos
    · exact absurd hv (by simp [Files.setValid])

theorem Base.load (hp : s.pc p = .load)
    (hexec : ({ s with loaded := true }.goto p .locked).exec N (.load i) = some s') : Base i s' := by
  have hgoto : Base i (s.goto p .locked) := h.goOn (by rw [hp]; rfl) (by rw [hp]; rfl) nofun
  have hpc : (s.goto p .locked).pc p = .locked := update_self ..
  simp only [State.exec, Files.exec, EStateM.run] at hexec
  split at hexec
  · rename_i hrun
    obtain rfl := Option.some.inj hexec
    refine hgoto.setFiles (p := p) (by rw [hpc]; rfl) (by rw [hpc]; nofun) ?_
    split_ifs at hrun with hv ht
    · cases hrun
      exact h.type
    · cases hrun
      exact fun _ => ht
  · nomatch hexec

theorem Base.dec (hp : s.pc p = .dec) : Base i { s.goto p .idle with ref := s.ref - 1 } := by
  have hgoto : Base i (s.goto p .idle) := h.goto (l := s.lock) (.inr (.inl rfl)) nofun (fun q _ => h.lock q) nofun
  refine ⟨?_, hgoto.lock, hgoto.seen, hgoto.type⟩
  have hu := count_update Pc.uses s.pc p .idle
  have hle := h.uses
  have hone : (s.pc p).uses.toNat = 1 := by rw [hp]; rfl
  have hzero : Pc.idle.uses.toNat = 0 := rfl
  unfold State.inUse at hle
  show count Pc.uses (update s.pc p .idle) ≤ s.ref - 1
  omega

theorem Base.step (hstep : s.step N i p = some s') : Base i s' := by
  unfold State.step at hstep
  split at hstep
  · nomatch hstep
  · nomatch hstep
  · rename_i hp
    exact h.acquire (c := .load) (by rw [hp]; rfl) nofun hstep
  · rename_i hp
    exact h.load hp hstep
  · rename_i hp
    exact h.acquire (c := .check) (by rw [hp]; rfl) nofun hstep
  · rename_i hp
    obtain rfl := Option.some.inj hstep
    refine h.goOn (by rw [hp]; rfl) (by rw [hp]; rfl) fun hc => ?_
    by_contra hnot
    rw [if_neg hnot] at hc
    nomatch hc
  · rename_i hp
    obtain rfl := Option.some.inj hstep
    refine h.goOn (by rw [hp]; rfl) (by rw [hp]; rfl) fun hc => ?_
    split at hc <;> nomatch hc
  · rename_i hp
    obtain rfl := Option.some.inj hstep
    have hgoto : Base i (s.goto p .release) := h.goOn (by rw [hp]; rfl) (by rw [hp]; rfl) nofun
    have hpc : (s.goto p .release).pc p = .release := update_self ..
    exact hgoto.setFiles (p := p) (by rw [hpc]; rfl) (by rw [hpc]; nofun) fun hv => absurd hv (by simp [Files.setValid])
  · rename_i hp
    obtain rfl := Option.some.inj hstep
    exact h.unlock (by rw [hp]; rfl) (by rw [hp]; rfl) rfl
  · rename_i hp
    obtain rfl := Option.some.inj hstep
    exact h.dec hp

theorem Base.next (hnext : s.next N i e = some s') : Base i s' := by
  cases e with
  | iget => exact h.iget hnext
  | step p => exact h.step hnext
  | idup =>
    simp only [State.next] at hnext
    split_ifs at hnext
    obtain rfl := Option.some.inj hnext
    exact h.addRef
  | ilock p | iput p =>
    simp only [State.next] at hnext
    split_ifs at hnext with hcall
    obtain rfl := Option.some.inj hnext
    exact h.goto (l := s.lock) (.inr (.inr hcall.2)) nofun (fun q _ => h.lock q) nofun
  | change p c =>
    simp only [State.next] at hnext
    split_ifs at hnext with hp
    obtain rfl := Option.some.inj hnext
    refine h.setFiles (p := p) (b := s.loaded) (by rw [hp]; rfl) (by rw [hp]; nofun) fun hv => ?_
    simpa [Files.setNode] using h.type hv
  | iunlock p =>
    simp only [State.next] at hnext
    split_ifs at hnext with hp
    obtain rfl := Option.some.inj hnext
    exact h.unlock (by rw [hp]; rfl) (by rw [hp]; rfl) rfl

end

theorem base_of_reachable (h : (lts P N i).Reachable s) : Base i s :=
  Lts.Run.invariant (I := Base i) (fun _ hs => State.Init.base hs) (fun _ _ _ hI _ hnext => Base.next hI hnext) h

/-! ## What holds in careful runs -/

/-- A process gets to another point, and may take or release the lock. -/
theorem Inv.goto (h : Inv i s)
    (hdrops : c.drops = true → (s.pc p).drops = true ∨ ¬(s.files.valid i = true ∧ (s.files.node i).nlink = 0) ∨
      s.dropping + 1 < s.ref) : Inv i { s.goto p c with lock := l } := by
  have hd := count_update Pc.drops s.pc p c
  refine ⟨h.loaded, fun hv hn => ?_⟩
  show count Pc.drops (update s.pc p c) < s.ref
  have hlast := h.last hv hn
  unfold State.dropping at hlast hdrops
  cases hc : c.drops with
  | false =>
    rw [hc, Bool.toNat_false] at hd
    omega
  | true =>
    rw [hc, Bool.toNat_true] at hd
    rcases hdrops hc with hp | hnot | hlt
    · rw [hp, Bool.toNat_true] at hd
      omega
    · exact absurd ⟨hv, hn⟩ hnot
    · omega

theorem Inv.acquire (h : Inv i s) (hdrops : c.drops = false) (hacq : s.acquire p c = some s') : Inv i s' := by
  unfold State.acquire at hacq
  split at hacq
  · obtain rfl := Option.some.inj hacq
    exact h.goto fun hc => absurd (hdrops.symm.trans hc) nofun
  · nomatch hacq

theorem Inv.iget (h : Inv i s) (hnext : s.next N i .iget = some s') : Inv i s' := by
  simp only [State.next] at hnext
  split_ifs at hnext with hpos
  · obtain rfl := Option.some.inj hnext
    exact h.addRef
  · obtain rfl := Option.some.inj hnext
    exact ⟨nofun, fun hv => absurd hv (by simp [Files.setValid])⟩

/-- Reading the inode. The process that reads it keeps its reference. -/
theorem Inv.load (hb : Base i s) (hp : s.pc p = .load)
    (hexec : ({ s with loaded := true }.goto p .locked).exec N (.load i) = some s') : Inv i s' := by
  have hlt := s.dropping_lt (p := p) (by rw [hp]; rfl) (by rw [hp]; rfl)
  have hdrops : (s.goto p .locked).dropping = s.dropping := by
    have hd := count_update Pc.drops s.pc p .locked
    rw [hp] at hd
    exact hd
  have hlast : (s.goto p .locked).dropping < s.ref := hdrops.trans_lt (hlt.trans_le hb.uses)
  simp only [State.exec, Files.exec, EStateM.run] at hexec
  split at hexec
  · rename_i hrun
    obtain rfl := Option.some.inj hexec
    split_ifs at hrun with hv ht
    · cases hrun
      exact ⟨fun _ => .inl hv, fun _ _ => hlast⟩
    · cases hrun
      exact ⟨fun _ => .inl (by simp [Files.setValid]), fun _ _ => hlast⟩
  · nomatch hexec

theorem Inv.dec (h : Inv i s) (hp : s.pc p = .dec) : Inv i { s.goto p .idle with ref := s.ref - 1 } := by
  have hd := count_update Pc.drops s.pc p .idle
  have hone : (s.pc p).drops.toNat = 1 := by rw [hp]; rfl
  have hzero : Pc.idle.drops.toNat = 0 := rfl
  refine ⟨h.loaded, fun hv hn => ?_⟩
  have hlast := h.last hv hn
  unfold State.dropping at hlast
  show count Pc.drops (update s.pc p .idle) < s.ref - 1
  omega

/-- The steps of `ilock` and `iput`. -/
theorem Inv.step (h : Inv i s) (hb : Base i s) (hok : s.Careful (.step p)) (hstep : s.step N i p = some s') :
    Inv i s' := by
  unfold State.step at hstep
  split at hstep
  · nomatch hstep
  · nomatch hstep
  · exact h.acquire rfl hstep
  · rename_i hp
    exact .load hb hp hstep
  · exact h.acquire rfl hstep
  · obtain rfl := Option.some.inj hstep
    refine h.goto (l := s.lock) fun hc => .inr (.inl fun hand => ?_)
    rw [if_pos hand] at hc
    nomatch hc
  · rename_i hp
    obtain rfl := Option.some.inj hstep
    refine h.goto (l := s.lock) fun hc => .inr (.inr (hok hp fun hone => ?_))
    rw [if_pos hone] at hc
    nomatch hc
  · obtain rfl := Option.some.inj hstep
    exact ⟨fun _ => .inr (by simp [State.goto, Files.setValid, Files.setNode]),
      fun hv => absurd hv (by simp [Files.setValid])⟩
  · rename_i hp
    obtain rfl := Option.some.inj hstep
    exact h.goto fun _ => .inl (by rw [hp]; rfl)
  · rename_i hp
    obtain rfl := Option.some.inj hstep
    exact h.dec hp

theorem Inv.next (h : Inv i s) (hb : Base i s) (hok : s.Careful e) (hnext : s.next N i e = some s') :
    Inv i s' := by
  cases e with
  | iget => exact h.iget hnext
  | step p => exact h.step hb hok hnext
  | idup =>
    simp only [State.next] at hnext
    split_ifs at hnext
    obtain rfl := Option.some.inj hnext
    exact h.addRef
  | ilock p | iput p =>
    simp only [State.next] at hnext
    split_ifs at hnext with hcall
    obtain rfl := Option.some.inj hnext
    exact h.goto (l := s.lock) nofun
  | change p c =>
    simp only [State.next] at hnext
    split_ifs at hnext with hp
    exact h.change hb hp hnext
  | iunlock p =>
    simp only [State.next] at hnext
    split_ifs at hnext with hp
    obtain rfl := Option.some.inj hnext
    exact h.goto nofun

theorem inv_of_run (h : (lts P N i).Run State.Careful s) : Inv i s := by
  have hboth : Base i s ∧ Inv i s :=
    Lts.Run.invariant (I := fun s => Base i s ∧ Inv i s) (fun _ hs => ⟨State.Init.base hs, State.Init.inv hs⟩)
      (fun _ _ _ hI hok hnext => ⟨hI.1.next hnext, hI.2.next hI.1 hok hnext⟩) h
  exact hboth.2

/-! ## Where `iput` is not careful -/

/-- When all references are as good as dropped, they may all be dropped. -/
theorem drain (n : ℕ) : ∀ s, (lts P N i).Reachable s → s.dropping = n → s.ref = n →
    ∃ s', (lts P N i).Reachable s' ∧ s'.ref = 0 ∧ s'.files = s.files := by
  -- a process that has released the lock drops its reference
  have hdec : ∀ n s p, (lts P N i).Reachable s → s.pc p = .dec → s.dropping = n + 1 → s.ref = n + 1 →
      ∃ s', (lts P N i).Reachable s' ∧ s'.dropping = n ∧ s'.ref = n ∧ s'.files = s.files := by
    intro n s p hs hp hd hr
    have hcount := count_update Pc.drops s.pc p .idle
    have hone : (s.pc p).drops.toNat = 1 := by rw [hp]; rfl
    have hzero : Pc.idle.drops.toNat = 0 := rfl
    have hstep : s.step N i p = some { s.goto p .idle with ref := s.ref - 1 } := by
      unfold State.step
      rw [hp]
    refine ⟨_, .step hs trivial (e := .step p) hstep, ?_, ?_, rfl⟩
    · show count Pc.drops (update s.pc p .idle) = n
      unfold State.dropping at hd
      omega
    · show s.ref - 1 = n
      omega
  induction n with
  | zero => exact fun s hs _ hr => ⟨s, hs, hr, rfl⟩
  | succ n ih =>
    intro s hs hd hr
    obtain ⟨p, -, hp⟩ := Finset.exists_ne_zero_of_sum_ne_zero (hd.trans_ne (Nat.succ_ne_zero n))
    have hone : ∃ s', (lts P N i).Reachable s' ∧ s'.dropping = n ∧ s'.ref = n ∧ s'.files = s.files := by
      cases hpc : s.pc p with
      | dec => exact hdec n s p hs hpc hd hr
      | release =>
        have hstep : s.step N i p = some { s.goto p .dec with lock := none } := by
          unfold State.step
          rw [hpc]
        have hcount := count_update Pc.drops s.pc p .dec
        rw [hpc] at hcount
        exact hdec n { s.goto p .dec with lock := none } p (.step hs trivial (e := .step p) hstep)
          (update_self ..) ((Nat.add_right_cancel hcount).trans hd) hr
      | idle | ilock | load | locked | iput | check | ref | free =>
        rw [hpc] at hp
        exact absurd rfl hp
    obtain ⟨s1, hs1, hd1, hr1, hf1⟩ := hone
    obtain ⟨s', hs', hr', hf'⟩ := ih s1 hs1 hd1 hr1
    exact ⟨s', hs', hr', hf'.trans hf1⟩

/-- A process that is not careful lets the inode leak. -/
theorem leaks_of_not_careful (h : (lts P N i).Reachable s) (hnot : ¬s.Careful e) :
    ∃ s', (lts P N i).Reachable s' ∧ s'.Leaked i := by
  cases e with
  | iget | idup | ilock | change | iunlock | iput => exact absurd trivial hnot
  | step p =>
    have hb := base_of_reachable h
    simp only [State.Careful, Classical.not_imp, not_lt] at hnot
    obtain ⟨hp, hne, hle⟩ := hnot
    obtain ⟨hvalid, hnlink⟩ := hb.seen p hp
    have hlt := s.dropping_lt (p := p) (by rw [hp]; rfl) (by rw [hp]; rfl)
    have huses := hb.uses
    have hstep : s.step N i p = some (s.goto p .release) := by
      unfold State.step
      rw [hp]
      simp only [if_neg hne]
    have hcount := count_update Pc.drops s.pc p .release
    have hzero : (s.pc p).drops.toNat = 0 := by rw [hp]; rfl
    have hone : Pc.release.drops.toNat = 1 := rfl
    have hdrops : (s.goto p .release).dropping = s.ref := by
      show count Pc.drops (update s.pc p .release) = s.ref
      unfold State.dropping at hle hlt
      omega
    obtain ⟨s', hs', hr', hf'⟩ := drain s.ref (s.goto p .release) (.step h trivial (e := .step p) hstep) hdrops rfl
    refine ⟨s', hs', hr', ?_⟩
    rw [hf']
    exact ⟨hnlink, hvalid, hb.type hvalid⟩

/-- The last reference frees an inode without links in the runs in which no `iput` finds several references that, its
own apart, are all as good as dropped. In every other run the inode may leak. -/
theorem last_reference_frees (P : Type) [Fintype P] [DecidableEq P] (N i : ℕ) :
    (∀ s, (lts P N i).Run State.Careful s → s.ref = 0 → (s.files.node i).nlink = 0 → ¬s.Leaked i ∧
      (s.loaded = true → (s.files.node i).type = 0 ∧ (s.files.node i).data = [])) ∧
    ∀ s e, (lts P N i).Reachable s → ¬s.Careful e → ∃ s', (lts P N i).Reachable s' ∧ s'.Leaked i := by
  refine ⟨fun s hs hr hn => ?_, fun s e hs hnot => leaks_of_not_careful hs hnot⟩
  have hI := inv_of_run hs
  have hinvalid : s.files.valid i ≠ true := by
    intro hv
    have hlast := hI.last hv hn
    omega
  exact ⟨fun hleak => hinvalid hleak.2.2.1, fun hl => (hI.loaded hl).resolve_left hinvalid⟩

/-! ## The programs of the kernel -/

section

variable {Q : Type} [DecidableEq Q] {s s' : State Q} {p : Q}

/-- The test of `iput` whether this is the last reference. -/
def readRef (i : ℕ) : Sys Q Unit := do
  let r ← Sys.step (.ref i .iput)
  if r = 1 then Sys.fs (.ifree i) else pure ()

/-- `iput`, with what it has still to do under the lock. -/
def putRest (i : ℕ) (x : Sys Q Unit) : Sys Q Unit := do
  x
  Sys.step (.release i .iput)
  Sys.step (.refDec i)

/-- What a process at this point has still to do of `ilock` or `iput`. -/
def Pc.code (i : ℕ) : Pc → Sys Q Unit
  | idle | locked => pure ()
  | ilock => do
    Sys.step (.acquire i .ilock)
    Sys.fs (.load i)
  | load => Sys.fs (.load i)
  | iput => Sys.iput i
  | check => putRest i (Sys.iputFree i)
  | ref => putRest i (readRef i)
  | free => putRest i (Sys.fs (.ifree i))
  | release => putRest i (pure ())
  | dec => Sys.step (.refDec i)

/-- A kernel with this cache entry. -/
def State.kernel (i : ℕ) (k : Kernel Files Q) (s : State Q) : Kernel Files Q :=
  { k with store := s.files, ref := update k.ref i s.ref, lock := update k.lock i s.lock }

/-- Some steps of one process lead from one kernel and program to another. -/
inductive Does (N : ℕ) (p : Q) : Kernel Files Q → Sys Q Unit → Kernel Files Q → Sys Q Unit → Prop where
  | refl (k x) : Does N p k x k x
  | step {k a x r t k' x'} (hrun : (Kernel.exec N (Files.exec N) p .quiet a).run k = .ok r t)
    (h : Does N p t (x r) k' x') : Does N p k (.act a x) k' x'

theorem Does.one {k t : Kernel Files Q} {a : Act Q} {x : a.Resp → Sys Q Unit} (r : a.Resp)
    (hrun : (Kernel.exec N (Files.exec N) p .quiet a).run k = .ok r t) : Does N p k (.act a x) t (x r) :=
  .step hrun (.refl _ _)

/-- An operation on the inode. -/
theorem exec_kernel (k : Kernel Files Q) (op : FsOp) {r : op.Resp} {t : Files}
    (hrun : (Files.exec N op).run s.files = .ok r t) :
    (Kernel.exec N (Files.exec N) p .quiet (.fs op)).run (s.kernel i k) = .ok r ({ s with files := t }.kernel i k) := by
  have hstore : (Files.exec N op).run (s.kernel i k).store = .ok r t := hrun
  simp only [Kernel.exec, Kernel.onStore, Code.zoom, EStateM.run] at hstore ⊢
  rw [hstore]
  rfl

theorem acquire_does (k : Kernel Files Q) {c : Pc} {site : Site} {x : Sys Q Unit} (hacq : s.acquire p c = some s') :
    Does N p (s.kernel i k) (.act (.acquire i site) fun _ => x) (s'.kernel i k) x ∧ s'.pc p = c := by
  unfold State.acquire at hacq
  split at hacq
  · rename_i hfree
    obtain rfl := Option.some.inj hacq
    exact ⟨.one () (by simp [Kernel.exec, State.kernel, hfree, Kernel.setLock, State.goto, EStateM.run]),
      update_self ..⟩
  · nomatch hacq

theorem check_does (k : Kernel Files Q) : Does N p (s.kernel i k) (Pc.code i .check) (s.kernel i k)
      (Pc.code i (if s.files.valid i = true ∧ (s.files.node i).nlink = 0 then .ref else .release)) := by
  have hvalid := exec_kernel (N := N) (p := p) (i := i) (s := s) k (.isValid i) rfl
  have hstat := exec_kernel (N := N) (p := p) (i := i) (s := s) k (.stat i) rfl
  refine .step hvalid ?_
  cases hv : s.files.valid i with
  | false => exact .refl _ _
  | true =>
    refine .step hstat ?_
    show Does N p (s.kernel i k) (putRest i (if ((s.files.node i).nlink == 0) = true then readRef i else pure ())) _ _
    by_cases hn : (s.files.node i).nlink = 0
    · rw [if_pos (beq_iff_eq.mpr hn), if_pos ⟨rfl, hn⟩]
      exact .refl _ _
    · rw [if_neg fun h => hn (beq_iff_eq.mp h), if_neg fun h => hn h.2]
      exact .refl _ _

/-- A step is what the process does in `Sys.ilock` and `Sys.iput`. -/
theorem step_does (k : Kernel Files Q) (hstep : s.step N i p = some s') :
    Does N p (s.kernel i k) (Pc.code i (s.pc p)) (s'.kernel i k) (Pc.code i (s'.pc p)) := by
  have hgoto : ∀ c, (s.goto p c).pc p = c := fun c => update_self ..
  unfold State.step at hstep
  split at hstep
  · nomatch hstep
  · nomatch hstep
  · rename_i hp
    obtain ⟨hdoes, hpc⟩ := acquire_does k hstep
    rw [hp, hpc]
    exact hdoes
  · rename_i hp
    rw [hp]
    unfold State.exec at hstep
    split at hstep
    · rename_i hrun
      obtain rfl := Option.some.inj hstep
      show Does N p _ _ _ (Pc.code i (update s.pc p .locked p))
      rw [update_self]
      exact .one _ (exec_kernel k _ hrun)
    · nomatch hstep
  · rename_i hp
    obtain ⟨hdoes, hpc⟩ := acquire_does k hstep
    rw [hp, hpc]
    exact hdoes
  · rename_i hp
    obtain rfl := Option.some.inj hstep
    rw [hp, hgoto]
    exact check_does k
  · rename_i hp
    obtain rfl := Option.some.inj hstep
    rw [hp, hgoto]
    have href : (s.kernel i k).ref i = s.ref := update_self ..
    refine .step (r := s.ref) (by rw [← href]; rfl) ?_
    show Does N p (s.kernel i k) (putRest i (if s.ref = 1 then Sys.fs (.ifree i) else pure ())) _ _
    by_cases hone : s.ref = 1
    · rw [if_pos hone, if_pos hone]
      exact .refl _ _
    · rw [if_neg hone, if_neg hone]
      exact .refl _ _
  · rename_i hp
    obtain rfl := Option.some.inj hstep
    rw [hp, hgoto]
    exact .one () (exec_kernel k _ rfl)
  · rename_i hp
    obtain rfl := Option.some.inj hstep
    rw [hp, hgoto]
    refine .one (a := .release i .iput) () ?_
    simp [State.kernel, Kernel.exec, Kernel.setLock, EStateM.run, State.goto]
  · rename_i hp
    obtain rfl := Option.some.inj hstep
    rw [hp, hgoto]
    refine .one (a := .refDec i) () ?_
    simp [State.kernel, Kernel.exec, Kernel.setRef, EStateM.run, State.goto]

/-- A process in `iput` gets the lock. -/
theorem step_does_iput : ∃ s s' : State (Fin 2), ∃ k, s.step 3 2 0 = some s' ∧
    Does 3 0 (s.kernel 2 k) (Sys.iput 2) (s'.kernel 2 k) (putRest 2 (Sys.iputFree 2)) :=
  ⟨⟨1, none, ⟨fun _ => ⟨T_FILE, 0, 0, 0, []⟩, fun _ => true⟩, true, fun _ => .iput⟩, _,
    ⟨⟨fun _ => ⟨T_FILE, 0, 0, 0, []⟩, fun _ => true⟩, fun _ => 1, fun _ => none, fun _ => ⟨0, .none, false, false, 0⟩,
      fun _ => none, fun _ => ⟨.running, 2, fun _ => none, 0, 0⟩, 0⟩, rfl, step_does _ rfl⟩

end

/-- A file with one link, to which nobody has a reference. -/
def linked (P : Type) : State P where
  ref := 0
  lock := none
  files := ⟨fun _ => ⟨T_FILE, 0, 0, 1, [1]⟩, fun _ => false⟩
  loaded := false
  pc _ := .idle

theorem init_linked (i : ℕ) : (linked (Fin 2)).Init i := ⟨rfl, rfl, rfl, fun _ => rfl⟩

/-- One process looks the file up, unlinks it and drops its reference. -/
theorem last_reference_frees_unlink :
    ∃ s, (lts (Fin 2) 3 2).Run State.Careful s ∧ s.ref = 0 ∧ (s.files.node 2).nlink = 0 ∧ (s.files.node 2).type = 0 := by
  obtain ⟨s, hs, hend⟩ := Lts.Run.exists_of_exec (lts (Fin 2) 3 2) (fun s e => s.Careful e) (linked (Fin 2))
    ([.iget, .ilock 0, .step 0, .step 0, .change 0 .unlink, .iunlock 0, .iput 0] ++ List.replicate 6 (.step 0))
    (fun s => s.ref = 0 ∧ (s.files.node 2).nlink = 0 ∧ s.loaded = true) (init_linked 2) (by decide +kernel)
  have hrun : (lts (Fin 2) 3 2).Run State.Careful s := hs.mono fun _ _ hok => of_decide_eq_true hok
  obtain ⟨hr, hn, hl⟩ := of_decide_eq_true hend
  exact ⟨s, hrun, hr, hn, (((last_reference_frees (Fin 2) 3 2).1 s hrun hr hn).2 hl).1⟩

/-- Two processes look the file up and one of them unlinks it. Then both drop their references: both find two, and
neither frees the inode. -/
theorem last_reference_leaks : ∃ s, (lts (Fin 2) 3 2).Reachable s ∧ s.Leaked 2 := by
  obtain ⟨s, hs, hend⟩ := Lts.Run.exists_of_exec (lts (Fin 2) 3 2) (fun _ _ => true) (linked (Fin 2))
    ([.iget, .iget, .ilock 0, .step 0, .step 0, .change 0 .unlink, .iunlock 0] ++
      .iput 0 :: List.replicate 4 (.step 0) ++ .iput 1 :: List.replicate 4 (.step 1) ++ [.step 0, .step 1])
    (fun s => s.ref = 0 ∧ (s.files.node 2).nlink = 0 ∧ s.files.valid 2 = true ∧ (s.files.node 2).type ≠ 0)
    (init_linked 2) (by decide +kernel)
  exact ⟨s, hs.reachable, by simpa [State.Leaked] using hend⟩

end Icache

end Xv6
