import Xv6.Vm.Exec
import Xv6.Vm.ForkFail
import Xv6.Vm.Mapping
import Xv6.Vm.Null
import Xv6.Vm.Runs

/-!
# The arguments of the system calls

`fetchint`, `fetchstr` and the functions on top of them compare user addresses with the size of the process, in the
arithmetic of 32 bits. The size is below `KERNBASE` in every run, and so the sums that pass do not wrap.
-/

namespace Xv6

open Function List

namespace Vm

open Code

variable {n : ℕ} {l : Layout} {s : Kern n} {p : Fin n}

/-! ## `syscall.c` -/

/-- What the functions see of the current process: `sz`, the saved `esp`, and its memory. -/
structure User where
  sz : BitVec 32
  esp : BitVec 32
  byte : BitVec 32 → UInt8

namespace User

variable (u : User)

/-- The word at `a`. -/
def word (a : BitVec 32) : BitVec 32 :=
  BitVec.ofNat 32 (leVal [u.byte a, u.byte (a + 1), u.byte (a + 2), u.byte (a + 3)])

def fetchint (addr : BitVec 32) : Option (BitVec 32) :=
  if u.sz ≤ addr ∨ u.sz < addr + 4 then none else some (u.word addr)

/-- The loop of `fetchstr` from `s` on, with `left` steps until `s = ep`. -/
def fetchstrLoop (pp : BitVec 32) : (left : ℕ) → (s : BitVec 32) → BitVec 32
  | 0, _ => -1
  | left + 1, s => if u.byte s = 0 then s - pp else fetchstrLoop pp left (s + 1)

/-- `fetchstr`: the result, and `*pp` if it is set. -/
def fetchstr (addr : BitVec 32) : BitVec 32 × Option (BitVec 32) :=
  if u.sz ≤ addr then (-1, none) else (u.fetchstrLoop addr (u.sz.toNat - addr.toNat) addr, some addr)

def argint (n : BitVec 32) : Option (BitVec 32) := u.fetchint (u.esp + 4 + 4 * n)

def argptr (n size : BitVec 32) : Option (BitVec 32) :=
  match u.argint n with
  | none => none
  | some i => if size.toInt < 0 ∨ u.sz ≤ i ∨ u.sz < i + size then none else some i

def argstr (n : BitVec 32) : BitVec 32 × Option (BitVec 32) :=
  match u.argint n with
  | none => (-1, none)
  | some addr => u.fetchstr addr

/-- The loop of `sys_exec` from `argv[i]` on, with `left` entries of `argv` left. -/
def argvLoop (uargv : BitVec 32) : (left i : ℕ) → Option (List (Option (BitVec 32)))
  | 0, _ => none
  | left + 1, i =>
    match u.fetchint (uargv + 4 * BitVec.ofNat 32 i) with
    | none => none
    | some uarg =>
      if uarg = 0 then some []
      else if (u.fetchstr uarg).1.toInt < 0 then none
      else (argvLoop uargv left (i + 1)).map ((u.fetchstr uarg).2 :: ·)

/-- `sys_exec`, up to the call of `exec`: `path` and `argv`. -/
def sysExec : Option (Option (BitVec 32) × List (Option (BitVec 32))) :=
  if (u.argstr 0).1.toInt < 0 then none
  else
    match u.argint 1 with
    | none => none
    | some uargv => (u.argvLoop uargv MAXARG 0).map ((u.argstr 0).2, ·)

/-! ## What may be accessed -/

/-- The `k` bytes at `a` are in the process, and no address wraps. -/
def Within (a : BitVec 32) (k : ℕ) : Prop :=
  ∀ i < k, (a + BitVec.ofNat 32 i).toNat = a.toNat + i ∧ a.toNat + i < u.sz.toNat

/-- At `a` there is a string of length `len`: with its NUL it is in the process, and the NUL is the first. -/
structure IsStr (a : BitVec 32) (len : ℕ) : Prop where
  within : u.Within a (len + 1)
  nul : u.byte (a + BitVec.ofNat 32 len) = 0
  first : ∀ i < len, u.byte (a + BitVec.ofNat 32 i) ≠ 0

/-- What the kernel may access when the functions succeed. -/
structure Safe : Prop where
  fetchint : ∀ {addr v}, u.fetchint addr = some v → u.Within addr 4 ∧ v = u.word addr
  argint : ∀ {n v}, u.argint n = some v → u.Within (u.esp + 4 + 4 * n) 4 ∧ v = u.word (u.esp + 4 + 4 * n)
  argptr : ∀ {n size a}, u.argptr n size = some a →
    0 ≤ size.toInt ∧ u.Within a size.toNat ∧ u.argint n = some a
  fetchstr : ∀ {addr}, 0 ≤ (u.fetchstr addr).1.toInt →
    (u.fetchstr addr).2 = some addr ∧ ∃ len : ℕ, (u.fetchstr addr).1.toInt = len ∧ u.IsStr addr len
  argstr : ∀ {n}, 0 ≤ (u.argstr n).1.toInt →
    ∃ a, (u.argstr n).2 = some a ∧ ∃ len : ℕ, (u.argstr n).1.toInt = len ∧ u.IsStr a len
  sysExec : ∀ {path argv}, u.sysExec = some (path, argv) →
    ∀ x ∈ path :: argv, ∃ a len, x = some a ∧ u.IsStr a len

variable {u}

variable {a addr : BitVec 32} {left : ℕ}

/-- Bytes below `sz` do not wrap. -/
theorem Within.of_le {k : ℕ} (h : a.toNat + k ≤ u.sz.toNat) : u.Within a k := by
  intro i hi
  have hsz := u.sz.isLt
  refine ⟨?_, by omega⟩
  rw [BitVec.toNat_add, BitVec.toNat_ofNat, Nat.mod_eq_of_lt (by omega : i < 2 ^ 32), Nat.mod_eq_of_lt (by omega)]

section

variable (hsz : u.sz.toNat < KERNBASE)

include hsz

/-- A sum below `2 ^ 31` each does not wrap. -/
theorem add_toNat_le {b : BitVec 32} (ha : a < u.sz) (hb : b.toNat ≤ 2 ^ 31)
    (hab : a + b ≤ u.sz) : a.toNat + b.toNat ≤ u.sz.toNat := by
  simp only [KERNBASE] at hsz
  rw [BitVec.lt_def] at ha
  rw [BitVec.le_def, BitVec.toNat_add, Nat.mod_eq_of_lt (by omega)] at hab
  exact hab

theorem fetchint_within {v : BitVec 32} (h : u.fetchint addr = some v) :
    u.Within addr 4 ∧ v = u.word addr := by
  unfold fetchint at h
  split_ifs at h with hno
  rw [not_or, BitVec.not_le, BitVec.not_lt] at hno
  exact ⟨.of_le (add_toNat_le hsz hno.1 (by decide) hno.2), (Option.some.inj h).symm⟩

theorem argptr_within {n size : BitVec 32} (h : u.argptr n size = some a) :
    0 ≤ size.toInt ∧ u.Within a size.toNat ∧ u.argint n = some a := by
  unfold argptr at h
  split at h
  · nomatch h
  · rename_i i hi
    split_ifs at h with hno
    obtain rfl := Option.some.inj h
    rw [not_or, not_or, BitVec.not_le, BitVec.not_lt, not_lt] at hno
    obtain ⟨hsize, hlt, hle⟩ := hno
    have hpos : size.toNat ≤ 2 ^ 31 := by
      rw [BitVec.toInt_eq_toNat_cond] at hsize
      split_ifs at hsize <;> omega
    exact ⟨hsize, .of_le (add_toNat_le hsz hlt hpos hle), hi⟩

/-- The loop of `fetchstr`, after `k` bytes that are not NUL. -/
theorem fetchstrLoop_spec {pp : BitVec 32} : ∀ {k : ℕ},
    pp.toNat + k + left = u.sz.toNat → (∀ i < k, u.byte (pp + BitVec.ofNat 32 i) ≠ 0) →
    0 ≤ (u.fetchstrLoop pp left (pp + BitVec.ofNat 32 k)).toInt →
    ∃ len : ℕ, (u.fetchstrLoop pp left (pp + BitVec.ofNat 32 k)).toInt = len ∧ u.IsStr pp len := by
  induction left with
  | zero =>
    intro k _ _ h
    exact absurd (show (0 : ℤ) ≤ (-1 : BitVec 32).toInt from h) (by decide)
  | succ left ih =>
    intro k hk hbefore h
    simp only [KERNBASE] at hsz
    have hstep : pp + BitVec.ofNat 32 k + 1 = pp + BitVec.ofNat 32 (k + 1) := by
      rw [BitVec.ofNat_add, BitVec.add_assoc]
      rfl
    unfold fetchstrLoop at h ⊢
    by_cases hnul : u.byte (pp + BitVec.ofNat 32 k) = 0
    · rw [if_pos hnul]
      refine ⟨k, ?_, .of_le (by omega), hnul, hbefore⟩
      have hsub : pp + BitVec.ofNat 32 k - pp = BitVec.ofNat 32 k := by
        rw [BitVec.add_comm, BitVec.add_sub_cancel]
      rw [hsub, BitVec.toInt_eq_toNat_cond, BitVec.toNat_ofNat, Nat.mod_eq_of_lt (by omega), if_pos (by omega)]
    · rw [if_neg hnul, hstep] at h ⊢
      refine ih (by omega) (fun i hi => ?_) h
      rcases Nat.lt_succ_iff_lt_or_eq.mp hi with hlt | rfl
      · exact hbefore i hlt
      · exact hnul

theorem fetchstr_isStr (h : 0 ≤ (u.fetchstr addr).1.toInt) :
    (u.fetchstr addr).2 = some addr ∧ ∃ len : ℕ, (u.fetchstr addr).1.toInt = len ∧ u.IsStr addr len := by
  unfold fetchstr at h ⊢
  split_ifs at h ⊢ with hno
  · exact absurd h (by decide)
  · rw [BitVec.le_def, not_le] at hno
    have hzero : addr + BitVec.ofNat 32 0 = addr := BitVec.add_zero addr
    have hleft : addr.toNat + 0 + (u.sz.toNat - addr.toNat) = u.sz.toNat := by omega
    have hloop := fetchstrLoop_spec hsz hleft nofun
    rw [hzero] at hloop
    exact ⟨rfl, hloop h⟩

theorem argstr_isStr {n : BitVec 32} (h : 0 ≤ (u.argstr n).1.toInt) :
    ∃ a, (u.argstr n).2 = some a ∧ ∃ len : ℕ, (u.argstr n).1.toInt = len ∧ u.IsStr a len := by
  cases hi : u.argint n with
  | none =>
    simp only [argstr, hi] at h
    exact absurd h (by decide)
  | some addr =>
    simp only [argstr, hi] at h ⊢
    exact ⟨addr, fetchstr_isStr hsz h⟩

theorem argvLoop_isStr {uargv : BitVec 32} :
    ∀ {i : ℕ} {argv : List (Option (BitVec 32))}, u.argvLoop uargv left i = some argv →
      ∀ x ∈ argv, ∃ a len, x = some a ∧ u.IsStr a len := by
  induction left with
  | zero =>
    intro i argv h
    nomatch h
  | succ left ih =>
    intro i argv h x hx
    unfold argvLoop at h
    split at h
    · nomatch h
    · rename_i uarg _
      split_ifs at h with hzero hneg
      · obtain rfl := Option.some.inj h
        exact absurd hx not_mem_nil
      · obtain ⟨rest, hrest, rfl⟩ := Option.map_eq_some_iff.mp h
        rcases mem_cons.mp hx with rfl | hx
        · obtain ⟨hpp, len, -, hstr⟩ := fetchstr_isStr hsz (not_lt.mp hneg)
          exact ⟨uarg, len, hpp, hstr⟩
        · exact ih hrest x hx

theorem sysExec_isStr {path : Option (BitVec 32)} {argv : List (Option (BitVec 32))}
    (h : u.sysExec = some (path, argv)) : ∀ x ∈ path :: argv, ∃ a len, x = some a ∧ u.IsStr a len := by
  unfold sysExec at h
  split_ifs at h with hneg
  split at h
  · nomatch h
  · obtain ⟨rest, hrest, heq⟩ := Option.map_eq_some_iff.mp h
    obtain ⟨rfl, rfl⟩ := Prod.mk.inj heq
    intro x hx
    rcases mem_cons.mp hx with rfl | hx
    · obtain ⟨a, hpp, len, -, hstr⟩ := argstr_isStr hsz (not_lt.mp hneg)
      exact ⟨a, len, hpp, hstr⟩
    · exact argvLoop_isStr hsz hrest x hx

theorem safe_of_lt : u.Safe where
  fetchint := fetchint_within hsz
  argint := fetchint_within hsz
  argptr := argptr_within hsz
  fetchstr := fetchstr_isStr hsz
  argstr := argstr_isStr hsz
  sysExec := sysExec_isStr hsz

end

end User

/-! ## The size of a process -/

/-- The size of every process is below `KERNBASE`. -/
def Kern.Small (s : Kern n) : Prop := ∀ p, s.Live p → (s.proc p).sz < KERNBASE

/-- Code after which the sizes are below `KERNBASE`, if it does not panic. -/
def KeepsSmall {α : Type} (x : KernCode n α) (s : Kern n) : Prop :=
  Wp x (fun _ s' => s'.Small) (fun _ _ => True) s

variable {d oldsz newsz : ℕ} {m : Mem} {s' : Kern n} {D : Set ℕ} {o : ℕ → Owner}

theorem wp_allocuvmLoop_result (k : ℕ) : ∀ {m : Mem} (a : ℕ), newsz - a ≤ k →
    Wp (allocuvmLoop d oldsz newsz a) (fun x _ => x ≤ newsz) Any m := by
  induction k using Nat.strong_induction_on with
  | _ k ih =>
    intro m a ha
    unfold allocuvmLoop
    by_cases hlt : a < newsz
    · rw [dif_pos hlt, wp_bind]
      refine wp_any fun r m1 => ?_
      cases r with
      | none =>
        rw [wp_bind]
        exact wp_any fun _ _ => Nat.zero_le _
      | some mem =>
        rw [wp_bind]
        refine wp_any fun _ m2 => ?_
        rw [wp_bind]
        refine wp_any fun ok m3 => ?_
        cases ok with
        | true =>
          have hpage : 0 < PGSIZE := by decide
          rw [if_pos rfl]
          exact ih (k - 1) (by omega) _ (by omega)
        | false =>
          rw [if_neg Bool.false_ne_true, wp_bind]
          refine wp_any fun _ m4 => ?_
          rw [wp_bind]
          exact wp_any fun _ _ => Nat.zero_le _
    · rw [dif_neg hlt]
      exact le_rfl

/-- `allocuvm` fails, or the new size is below `KERNBASE` and the old one is not above the result. -/
theorem wp_allocuvm_result (d oldsz newsz : ℕ) :
    Wp (allocuvm d oldsz newsz) (fun x _ => x = 0 ∨ newsz < KERNBASE ∧ x ≤ max oldsz newsz) Any m := by
  unfold allocuvm
  by_cases hbig : KERNBASE ≤ newsz
  · rw [if_pos hbig]
    exact .inl rfl
  · rw [if_neg hbig]
    by_cases hless : newsz < oldsz
    · rw [if_pos hless]
      exact .inr ⟨by omega, le_max_left ..⟩
    · rw [if_neg hless]
      refine wp_post (wp_allocuvmLoop_result _ _ le_rfl) (fun x _ hx => ?_)
      exact .inr ⟨by omega, hx.trans (le_max_right ..)⟩

theorem wp_deallocuvm_result :
    Wp (deallocuvm d oldsz newsz) (fun x _ => x ≤ oldsz) Any m := by
  unfold deallocuvm
  by_cases hle : oldsz ≤ newsz
  · rw [if_pos hle]
    exact le_rfl
  · rw [if_neg hle, wp_bind]
    exact wp_any fun _ _ => by simp only [wp_pure]; omega

/-- The stack ends below `KERNBASE`, since `allocuvm` has allocated it. -/
theorem wp_execImage_result {phs : List (Option Proghdr)} {args : List (ℕ × List Table)} :
    Wp (execImage d phs args) (fun x _ => ∀ sz, x = some sz → sz < KERNBASE) Any m := by
  unfold execImage
  rw [wp_bind]
  refine wp_any fun x m1 => ?_
  cases x with
  | none => exact nofun
  | some sz =>
    simp only [wp_bind]
    -- otherwise the comparison with `KERNBASE` is evaluated
    have hround : PGROUNDUP sz ≤ PGROUNDUP sz + 2 * PGSIZE := Nat.le_add_right ..
    generalize PGROUNDUP sz + 2 * PGSIZE = newsz at hround ⊢
    refine wp_mono (wp_allocuvm_result ..) (fun sz' m2 hsz' => ?_) fun _ _ _ => trivial
    by_cases hzero : sz' = 0
    · rw [if_pos hzero]
      exact nofun
    · rw [if_neg hzero, wp_bind]
      refine wp_any fun _ m3 => ?_
      rw [wp_bind]
      refine wp_any fun ok m4 => ?_
      cases ok with
      | false => exact nofun
      | true =>
        intro sz'' heq
        obtain rfl := Option.some.inj heq
        obtain ⟨hnew, hle⟩ := hsz'.resolve_left hzero
        rw [max_eq_right hround] at hle
        exact lt_of_le_of_lt hle hnew

/-! ## Calls -/

section

variable (h : s.Small)

include h

/-- The rule for a change of process `p`. -/
theorem Kern.Small.change (hother : ∀ q, q ≠ p → s'.proc q = s.proc q)
    (hp : s'.Live p → (s'.proc p).sz < KERNBASE) : s'.Small := by
  intro q hq
  by_cases hqp : q = p
  · subst hqp
    exact hp hq
  · unfold Kern.Live at hq
    rw [hother q hqp] at hq ⊢
    exact h q hq

theorem keepsSmall_kvmalloc : KeepsSmall (kvmalloc l) s := by
  unfold KeepsSmall kvmalloc
  rw [wp_bind]
  exact wp_vm wp_true fun _ _ _ => h

theorem keepsSmall_userinit (init : Table) : KeepsSmall (userinit l init) s := by
  unfold KeepsSmall userinit
  rw [wp_bind, wp_get]
  cases hq : findUnused s with
  | none => trivial
  | some q =>
    rw [wp_bind]
    refine wp_vm wp_true fun k m1 _ => ?_
    cases k with
    | none => trivial
    | some k =>
      unfold setProc
      rw [wp_bind, wp_modify, wp_bind]
      refine wp_vm wp_true fun d m2 _ => ?_
      cases d with
      | none => trivial
      | some d =>
        rw [wp_bind]
        refine wp_vm wp_true fun _ m3 _ => ?_
        rw [wp_modify]
        refine h.change (p := q) (fun r hr => by simp [hr]) fun _ => ?_
        simp only [update_self]
        decide

/-- The child has the size of its parent. -/
theorem keepsSmall_fork (hp : s.Live p) : KeepsSmall (fork l p) s := by
  unfold KeepsSmall fork
  rw [wp_bind, wp_get]
  cases hnp : findUnused s with
  | none => exact h
  | some np =>
    have hunused : (s.proc np).state = .UNUSED := by simpa using find?_some hnp
    rw [wp_bind]
    refine wp_vm wp_true fun k m1 _ => ?_
    cases k with
    | none =>
      unfold setProc
      rw [wp_bind, wp_modify]
      refine h.change (p := np) (fun r hr => by simp [hr]) fun hlive => ?_
      simp [Kern.Live, hunused] at hlive
    | some k =>
      unfold setProc
      rw [wp_bind, wp_modify, wp_bind]
      refine wp_pgdirOf fun pgdir _ => ?_
      rw [wp_bind]
      refine wp_vm wp_true fun d m2 _ => ?_
      cases d with
      | none =>
        rw [wp_bind]
        refine wp_vm wp_true fun _ m3 _ => ?_
        rw [wp_bind, wp_modify]
        refine h.change (p := np) (fun r hr => by simp [hr]) fun hlive => ?_
        simp [Kern.Live] at hlive
      | some d =>
        rw [wp_bind, wp_modify]
        refine h.change (p := np) (fun r hr => by simp [hr]) fun _ => ?_
        simp only [update_self]
        exact h p hp

theorem keepsSmall_growproc (hp : s.Live p) (m : ℤ) : KeepsSmall (growproc p m) s := by
  have hold := h p hp
  -- the size that is stored is below `KERNBASE` either way
  have hset : ∀ (x : ℕ) (m1 : Mem), x < KERNBASE → Kern.Small
      { s with mem := m1, proc := update s.proc p { s.proc p with sz := x } } := by
    intro x m1 hx
    refine h.change (p := p) (fun r hr => by simp [hr]) fun _ => ?_
    simp only [update_self]
    exact hx
  unfold KeepsSmall growproc
  rw [wp_bind, wp_get, wp_bind]
  refine wp_pgdirOf fun pgdir _ => ?_
  by_cases hpos : 0 < m
  · rw [if_pos hpos, wp_bind]
    refine wp_vm (wp_allocuvm_result ..) fun x m1 hx => ?_
    by_cases hzero : x = 0
    · rw [if_pos hzero]
      exact h
    · rw [if_neg hzero]
      obtain ⟨hnew, hle⟩ := hx.resolve_left hzero
      exact hset x m1 (lt_of_le_of_lt hle (max_lt hold hnew))
  · rw [if_neg hpos]
    by_cases hneg : m < 0
    · rw [if_pos hneg, wp_bind]
      refine wp_vm wp_deallocuvm_result fun x m1 hx => ?_
      by_cases hzero : x = 0
      · rw [if_pos hzero]
        exact h
      · rw [if_neg hzero]
        exact hset x m1 (lt_of_le_of_lt hx hold)
    · rw [if_neg hneg]
      exact h

theorem keepsSmall_exec (phs : List (Option Proghdr)) (args : List (ℕ × List Table)) :
    KeepsSmall (exec l p phs args) s := by
  unfold KeepsSmall exec
  rw [wp_bind, wp_get, wp_bind]
  refine wp_vm wp_true fun d m1 _ => ?_
  cases d with
  | none => exact h
  | some pgdir =>
    rw [wp_bind]
    refine wp_vm wp_execImage_result fun x m2 hx => ?_
    cases x with
    | none =>
      rw [wp_bind]
      exact wp_vm wp_true fun _ _ _ => h
    | some sz =>
      rw [wp_bind]
      refine wp_pgdirOf fun oldpgdir _ => ?_
      unfold setProc
      rw [wp_bind, wp_modify, wp_bind]
      refine wp_vm wp_true fun _ m3 _ => ?_
      refine h.change (p := p) (fun r hr => by simp [hr]) fun _ => ?_
      simp only [update_self]
      exact hx sz rfl

theorem keepsSmall_exit (hp : s.Live p) : KeepsSmall (exit p) s := by
  unfold KeepsSmall exit setProc
  rw [wp_bind, wp_get, wp_modify]
  refine h.change (p := p) (fun r hr => by simp [hr]) fun _ => ?_
  simp only [update_self]
  exact h p hp

theorem keepsSmall_wait : KeepsSmall (wait p) s := by
  unfold KeepsSmall wait
  rw [wp_bind, wp_get]
  cases hk : (s.proc p).kstack with
  | none => trivial
  | some k =>
    rw [wp_bind]
    refine wp_vm wp_true fun _ m1 _ => ?_
    rw [wp_bind]
    refine wp_pgdirOf fun pgdir _ => ?_
    rw [wp_bind]
    refine wp_vm wp_true fun _ m2 _ => ?_
    unfold setProc
    rw [wp_modify]
    refine h.change (p := p) (fun r hr => by simp [hr]) fun hlive => ?_
    simp [Kern.Live] at hlive

theorem keepsSmall_pipealloc : KeepsSmall pipealloc s := by
  unfold KeepsSmall pipealloc
  rw [wp_bind]
  refine wp_vm wp_true fun r m1 _ => ?_
  cases r <;> exact h

theorem keepsSmall_pipeclose (r : ℕ) (writable : Bool) : KeepsSmall (pipeclose r writable) s := by
  unfold KeepsSmall pipeclose
  rw [wp_bind, wp_get]
  cases s.pipes.find? (·.page = r) with
  | none => exact h
  | some x =>
    dsimp only
    generalize (if writable then { x with writeopen := false } else { x with readopen := false } : Pipe) = y
    split_ifs
    · rw [wp_bind, wp_modify]
      exact wp_vm wp_true fun _ _ _ => h
    · exact h

theorem keepsSmall_store (va : ℕ) (x : Table) : KeepsSmall (store p va x) s := by
  unfold KeepsSmall store
  rw [wp_bind, wp_get, wp_bind]
  refine wp_pgdirOf fun pgdir _ => ?_
  rw [wp_bind]
  exact wp_vm wp_true fun _ _ _ => h

end

theorem KeepsSmall.after {α : Type} {x : KernCode n α} (h : KeepsSmall x s) (hs : s.after x = some s') :
    s'.Small := by
  unfold Kern.after at hs
  cases hx : x.run s with
  | ok a s1 =>
    rw [hx] at hs
    obtain rfl := Option.some.inj hs
    exact wp_ok h hx
  | error e s1 =>
    rw [hx] at hs
    nomatch hs

theorem Kern.Small.next {e : Event n} (h : s.Small) (hs : s.next l e = some s') : s'.Small := by
  cases e with
  | kvmalloc => exact (keepsSmall_kvmalloc h).after (Option.ite_none_right_eq_some.mp hs).2
  | userinit init => exact (keepsSmall_userinit h init).after hs
  | fork p =>
    obtain ⟨hp, hs⟩ := Option.ite_none_right_eq_some.mp hs
    exact (keepsSmall_fork h hp.live).after hs
  | growproc p m =>
    obtain ⟨hp, hs⟩ := Option.ite_none_right_eq_some.mp hs
    exact (keepsSmall_growproc h hp.live m).after hs
  | exec p phs args => exact (keepsSmall_exec h phs args).after (Option.ite_none_right_eq_some.mp hs).2
  | exit p =>
    obtain ⟨hp, hs⟩ := Option.ite_none_right_eq_some.mp hs
    exact (keepsSmall_exit h hp.live).after hs
  | wait c => exact (keepsSmall_wait h).after (Option.ite_none_right_eq_some.mp hs).2
  | pipe => exact (keepsSmall_pipealloc h).after hs
  | close r w => exact (keepsSmall_pipeclose h r w).after hs
  | store p va x => exact (keepsSmall_store h va x).after (Option.ite_none_right_eq_some.mp hs).2

theorem small_of_reachable (h : (lts n l).Reachable s) : s.Small := by
  refine h.invariant (I := Kern.Small) (fun s hs p hp => absurd (Init.proc hs p) hp) ?_
  intro s e s' hs _ hnext
  exact hs.next hnext

/-- With an empty first table there is room for the first page, and `inituvm` returns. -/
theorem wp_inituvm_returns (h : Exact D o m) (hd : d ∈ D)
    (hlow : (m.page d (PDX 0)).p = false) (hm : ¬ m.FailsAt 0) (init : Table) :
    Wp (inituvm d init) (fun _ _ => True) (fun _ _ => False) m := by
  unfold inituvm
  rw [wp_bind]
  refine wp_kalloc_exact (fun hnext => absurd (Mem.next_eq_none.mp hnext) hm) fun r hnext => ?_
  obtain ⟨h1, hor, hrange⟩ := h.take hnext
  have h2 : Exact D (update o r .none) (m.pop.put r fun _ => .zero) := h1.put (by simp) (by simp) _
  have hdir : (m.pop.put r fun _ => .zero).page d = m.page d := h1.page_put (by simp) hd _
  have habsent : ((m.pop.put r fun _ => .zero).pte d 0).p = false := by
    unfold Mem.pte
    rw [Mem.entry_of_absent (by rw [hdir]; exact hlow)]
    rfl
  rw [wp_bind, wp_memset, wp_bind]
  exact wp_mappages_user h2 hd rfl (by decide) habsent (by simp) hrange (fun _ _ => trivial) fun _ _ _ _ => trivial

/-- With 67 free pages the first process starts. -/
theorem wp_userinit_returns (hl : Linked l) (h : Exact D o s.mem)
    (hfree : ∀ k < 67, ¬ s.mem.FailsAt k) (hp : findUnused s = some p) (init : Table) :
    Wp (userinit l init) (fun _ s' => s'.Live p) (fun _ _ => False) s := by
  unfold userinit vm setProc
  rw [wp_bind, wp_get]
  simp only [hp]
  rw [wp_bind, wp_zoom]
  refine wp_kalloc_exact (fun hnext => absurd (Mem.next_eq_none.mp hnext) (hfree 0 (by decide))) fun k hnext => ?_
  have hpop := Calls.pop hnext
  rw [wp_bind, wp_modify, wp_bind, wp_zoom]
  refine wp_setupkvm_exact hl (h.take hnext).1 (fun m1 i _ hi hfails => ?_) fun d o' m1 hspace => ?_
  · exact absurd (hpop.failsAt_iff.mp hfails.1) (hfree _ (by omega))
  · have hroom : ¬ m1.FailsAt 0 := fun hf =>
      hfree 66 (by decide) (hpop.failsAt_iff.mp (hspace.calls.failsAt_iff.mp hf))
    have hlow : (m1.page d (PDX 0)).p = false := by
      have hno := hspace.low (PDX 0) (Nat.lt_of_sub_pos (by decide))
      rw [mem_tabs] at hno
      exact Bool.eq_false_iff.mpr hno
    rw [wp_bind, wp_zoom]
    refine wp_post (wp_inituvm_returns hspace.exact (Set.mem_insert d D) hlow hroom init) (fun _ m2 _ => ?_)
    rw [wp_modify]
    simp [Kern.Live]

/-- A machine with 67 free pages gets a first process. -/
theorem Init.exists_live (h : Init s) (hl : Linked l) (hhi : ∀ r ∈ s.mem.freelist, r < PHYSTOP / PGSIZE)
    (hfree : ∀ k < 67, ¬ s.mem.FailsAt k) (hp : findUnused s = some p) : ∃ s', (lts n l).Reachable s' ∧ s'.Live p := by
  have hexact := Exact.of_freelist h.pos h.nodup fun r hr => ⟨h.free r hr, hhi r hr⟩
  obtain ⟨_, s', hrun, hlive⟩ := wp_returns (wp_userinit_returns hl hexact hfree hp fun _ => .zero)
  refine ⟨s', .step (e := .userinit fun _ => .zero) (.init h) trivial ?_, hlive⟩
  show s.after (userinit l fun _ => .zero) = some s'
  unfold Kern.after
  rw [hrun]

/-- The process as the functions of `syscall.c` see it. -/
def Kern.user (s : Kern n) (p : Fin n) (esp : BitVec 32) (byte : BitVec 32 → UInt8) : User :=
  ⟨BitVec.ofNat 32 (s.proc p).sz, esp, byte⟩

/-- In every run a process is smaller than `KERNBASE`, and whatever it has in `esp` and in its memory, what the kernel
may access when the arguments of a system call pass the checks lies in the process. -/
theorem args_within (h : (lts n l).Reachable s) (hp : s.Live p) (esp : BitVec 32) (byte : BitVec 32 → UInt8) :
    (s.proc p).sz < KERNBASE ∧ (s.user p esp byte).sz.toNat = (s.proc p).sz ∧ (s.user p esp byte).Safe := by
  have hsz := small_of_reachable h p hp
  have hbase : KERNBASE < 2 ^ 32 := by decide
  have huser : (s.user p esp byte).sz.toNat = (s.proc p).sz := by
    unfold Kern.user
    rw [BitVec.toNat_ofNat, Nat.mod_eq_of_lt (hsz.trans hbase)]
  exact ⟨hsz, huser, User.safe_of_lt (huser.symm ▸ hsz)⟩

/-- A machine with 67 free pages, before the first process. -/
def boot : Kern 1 where
  mem := ⟨1, (List.range 67).map (· + 1), fun _ _ => .zero, fun _ => false⟩
  proc _ := ⟨.UNUSED, none, none, 0⟩
  pipes := []
  kpgdir := none

theorem boot_init : Init boot := ⟨by decide, by decide, by decide, fun _ => rfl, rfl, rfl⟩

theorem boot_not_failsAt {k : ℕ} (hk : k < 67) : ¬ boot.mem.FailsAt k := by
  rintro (hf | hlen)
  · exact absurd hf Bool.false_ne_true
  · simp only [boot, length_map, length_range] at hlen
    omega

/-- The first process. -/
theorem args_within_boot : ∃ s : Kern 1, (lts 1 smallLayout).Reachable s ∧ s.Live 0 ∧
    (s.proc 0).sz < KERNBASE ∧ (s.user 0 0xfff fun _ => 0).Safe := by
  obtain ⟨s, hreach, hlive⟩ := boot_init.exists_live (p := 0) smallLayout_linked (by decide) (fun _ => boot_not_failsAt) rfl
  obtain ⟨hsz, -, hsafe⟩ := args_within hreach hlive 0xfff fun _ => 0
  exact ⟨s, hreach, hlive, hsz, hsafe⟩

end Vm

end Xv6
