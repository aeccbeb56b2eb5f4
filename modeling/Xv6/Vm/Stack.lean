import Xv6.Lib.Words
import Xv6.Vm.Copyout

/-!
# The stack that `exec` builds

The argument strings go below each other from the top of the stack page on, and `ustack` below them. A string that does
not fit is written from below the guard page on, or, if `sp` wraps around, from an address of the kernel on. So `copyout`
fails at the guard page or at a page of the kernel, unless `sp` is where the kernel has no page tables.
-/

namespace Xv6

open List

namespace Vm

open Code

variable {l : Layout} {D : Set ℕ} {d : ℕ} {o o' : ℕ → Owner} {s s' s'' : Mem} {top va sp len used argc : ℕ}
  {M M' : ℕ → UInt8} {arg : List UInt8} {args : List (List UInt8)} {ptrs : List ℕ}

/-! ## Room on the stack -/

/-- The room that a string takes, with its NUL. -/
def room (arg : List UInt8) : ℕ := (arg.length + 1 + 3) / 4 * 4

def stackUse (args : List (List UInt8)) : ℕ := (args.map room).sum

theorem pushSp_eq (hsp : sp < 2 ^ 32) (hlen : len + 1 < 2 ^ 32) :
    pushSp sp len = (sp + (2 ^ 32 - (len + 1))) % 2 ^ 32 / 4 * 4 := by
  have hmask := BitVec.toNat_and_not_mask (BitVec.ofNat 32 sp - BitVec.ofNat 32 (len + 1)) (n := 2) (by decide)
  unfold pushSp
  refine hmask.trans ?_
  rw [BitVec.toNat_sub, BitVec.toNat_ofNat, BitVec.toNat_ofNat, Nat.mod_eq_of_lt hsp, Nat.mod_eq_of_lt hlen, Nat.add_comm,
    show (2 : ℕ) ^ 2 = 4 from rfl]

theorem pushSp_fits (hsp : sp < 2 ^ 32) (hmod : sp % 4 = 0) (hlen : arg.length < KERNBASE) (hle : room arg ≤ sp) :
    pushSp sp arg.length = sp - room arg := by
  rw [pushSp_eq hsp (Nat.lt_of_lt_of_le (Nat.succ_lt_succ hlen) (by decide))]
  simp only [room, KERNBASE] at *
  omega

theorem pushSp_wraps (hsp : sp < 2 ^ 32) (hmod : sp % 4 = 0) (hlen : arg.length < KERNBASE) (hlt : sp < room arg) :
    pushSp sp arg.length = 2 ^ 32 + sp - room arg := by
  rw [pushSp_eq hsp (Nat.lt_of_lt_of_le (Nat.succ_lt_succ hlen) (by decide))]
  simp only [room, KERNBASE] at *
  omega

/-- The address is between the kernel's mappings of physical memory and of devices. -/
theorem mem_kernelTabs_iff (hva : KERNBASE ≤ va) (h32 : va < 2 ^ 32) :
    PDX va ∈ kernelTabs ↔ ¬ (0x8E000000 ≤ va ∧ va < 0xFE000000) := by
  have hmem : PDX va ∈ kernelTabs ↔ 512 ≤ (PDX va).val ∧ (PDX va).val < 568 ∨ 1016 ≤ (PDX va).val := by simp [kernelTabs]
  rw [hmem]
  simp only [PDX, NPDENTRIES, KERNBASE] at *
  omega

/-- Of the arguments, which are to go below `top - used`, one makes `sp` wrap around to where the kernel has no page
tables, and those before it fit in the stack page. -/
def NullArg (top used argc : ℕ) (args : List (List UInt8)) : Prop :=
  ∃ i < args.length, argc + i < MAXARG ∧ used + stackUse (args.take i) ≤ PGSIZE ∧
    top + 0x2000000 < used + stackUse (args.take (i + 1)) ∧ used + stackUse (args.take (i + 1)) ≤ top + 0x72000000

theorem not_nullArg_nil : ¬ NullArg top used argc [] := by
  rintro ⟨i, hi, -⟩
  exact absurd hi (Nat.not_lt_zero _)

theorem nullArg_cons : NullArg top used argc (arg :: args) ↔
    argc < MAXARG ∧ used ≤ PGSIZE ∧ top + 0x2000000 < used + room arg ∧ used + room arg ≤ top + 0x72000000 ∨
      NullArg top (used + room arg) (argc + 1) args := by
  constructor
  · rintro ⟨i, hi, hmax, hfit, hlo, hhi⟩
    cases i with
    | zero =>
      refine .inl ?_
      simp only [stackUse, take_zero, map_nil, sum_nil, zero_add, take_succ_cons, map_cons,
        sum_cons] at *
      omega
    | succ i =>
      refine .inr ⟨i, by simpa using hi, by omega, ?_⟩
      simp only [stackUse, take_succ_cons, map_cons, sum_cons] at *
      omega
  · rintro (⟨hmax, hfit, hlo, hhi⟩ | ⟨i, hi, hmax, hfit, hlo, hhi⟩)
    · refine ⟨0, by simp, by omega, ?_⟩
      simp only [stackUse, take_zero, map_nil, sum_nil, zero_add, take_succ_cons, map_cons,
        sum_cons] at *
      omega
    · refine ⟨i + 1, by simpa using hi, by omega, ?_⟩
      simp only [stackUse, take_succ_cons, map_cons, sum_cons] at *
      omega

theorem not_nullArg_of_full (h : PGSIZE < used) : ¬ NullArg top used argc args := by
  rintro ⟨i, -, -, hfit, -⟩
  omega

/-! ## The strings -/

/-- The strings have been written below `sp`, not below `lo`, and the next value of `sp` is `sp'`. -/
inductive Pushed (lo : ℕ) : ℕ → List (List UInt8) → List ℕ → ℕ → (ℕ → UInt8) → (ℕ → UInt8) → Prop where
  | nil (sp : ℕ) (M : ℕ → UInt8) : Pushed lo sp [] [] sp M M
  | cons {sp sp' p : ℕ} {arg : List UInt8} {args : List (List UInt8)} {ptrs : List ℕ} {M M' : ℕ → UInt8} (low : lo ≤ p) (high : p + (arg.length + 1) ≤ sp) (mod : p % 4 = 0)
      (rest : Pushed lo p args ptrs sp' (overlay M p (arg ++ [0])) M') : Pushed lo sp (arg :: args) (p :: ptrs) sp' M M'

/-- The image, the arguments that fit, and what `copyout` has written. -/
structure PushesTo (l : Layout) (D : Set ℕ) (d : ℕ) (o : ℕ → Owner) (s : Mem) (top used argc : ℕ)
    (args : List (List UInt8)) (M : ℕ → UInt8) (o' : ℕ → Owner) (s' : Mem) (r : Option (ℕ × List ℕ)) (s'' : Mem) : Prop where
  image : ∃ M', Image l D d o s top (some (top - 2 * PGSIZE)) M' o' s'' ∧ ∀ sp' ptrs, r = some (sp', ptrs) →
    Pushed (top - PGSIZE) (top - used) args ptrs sp' M M' ∧ sp' = top - (used + stackUse args)
  fits : r ≠ none ↔ used + stackUse args ≤ PGSIZE ∧ (args = [] ∨ argc + args.length ≤ MAXARG)
  writes : Writes d top (some (top - 2 * PGSIZE)) s' s''
  safe : ¬ NullArg top used argc args

/-- An address of the guard page is in a range that begins below the stack page and ends not below its last words. -/
theorem exists_guard {p n : ℕ} (htop : 2 * PGSIZE ≤ top) (halign : top % PGSIZE = 0) (hlt : p < top - PGSIZE)
    (hend : top - PGSIZE < p + n + 4) (hpos : 0 < n) : ∃ a, p ≤ a ∧ a < p + n ∧ PGROUNDDOWN a = top - 2 * PGSIZE := by
  refine ⟨min (p + n - 1) (top - PGSIZE - 1), ?_⟩
  simp only [PGROUNDDOWN, PGSIZE] at *
  omega

theorem not_guard {a : ℕ} (htop : 2 * PGSIZE ≤ top) (halign : top % PGSIZE = 0) (hle : top - PGSIZE ≤ a) :
    some (top - 2 * PGSIZE) ≠ some (PGROUNDDOWN a) := by
  intro heq
  have heq' := Option.some.inj heq
  simp only [PGROUNDDOWN, PGSIZE] at *
  omega

theorem room_bounds (arg : List UInt8) : arg.length + 1 ≤ room arg ∧ room arg < arg.length + 1 + 4 ∧ room arg % 4 = 0 := by
  simp only [room]
  omega

/-- `copyout` to an address of the kernel. -/
theorem Image.wp_copyout_kernel {Q : Bool → Mem → Prop} {E : Panic → Mem → Prop} {guard : Option ℕ} {src : List UInt8}
    (him : Image l D d o s top guard M o' s') (hva : KERNBASE ≤ va) (h32 : va < 2 ^ 32) (hsrc : 0 < src.length)
    (hkernel : PDX va ∈ kernelTabs → Q false s') (hnull : PDX va ∉ kernelTabs → E .nullPte s') :
    Wp (copyoutBytes d va src) Q E s' := by
  have hdown : KERNBASE ≤ PGROUNDDOWN va ∧ PGROUNDDOWN va ≤ va := by
    simp only [PGROUNDDOWN, PGSIZE, KERNBASE] at *
    omega
  have hidx : PDX (PGROUNDDOWN va) = PDX va := by
    simp only [PDX, PGROUNDDOWN, PGSIZE, NPDENTRIES, Fin.mk.injEq]
    omega
  unfold copyoutBytes
  rw [dif_pos hsrc]
  dsimp only
  rw [wp_bind]
  refine him.wp_uva2ka_kernel hdown.1 (by omega) (fun hmem => ?_) fun hno => ?_
  · rw [hidx] at hmem
    exact hkernel hmem
  · rw [hidx] at hno
    exact hnull hno

theorem wp_pushStrings (htop : 2 * PGSIZE ≤ top) : ∀ (args : List (List UInt8)) {s' : Mem} {M : ℕ → UInt8} (argc used : ℕ),
    Image l D d o s top (some (top - 2 * PGSIZE)) M o' s' → used ≤ PGSIZE → used % 4 = 0 →
    (∀ arg ∈ args, arg.length < KERNBASE) →
    Wp (pushStrings d argc (top - used) args) (PushesTo l D d o s top used argc args M o' s')
      (fun e _ => e = .nullPte ∧ NullArg top used argc args) s' := by
  intro args
  induction args with
  | nil =>
    intro s' M argc used him hused _ _
    refine ⟨⟨M, him, ?_⟩, ?_, .refl, not_nullArg_nil⟩
    · rintro sp' ptrs heq
      obtain ⟨rfl, rfl⟩ := Prod.mk.inj (Option.some.inj heq)
      exact ⟨.nil _ _, by simp [stackUse]⟩
    · simp [stackUse, hused]
  | cons arg args ih =>
    intro s' M argc used him hused hmod hlen
    have halign := him.aligned
    have hle := him.le
    obtain ⟨hr1, hr2, hr3⟩ := room_bounds arg
    have harg := hlen arg mem_cons_self
    have hsp : top - used < 2 ^ 32 := Nat.lt_of_le_of_lt ((Nat.sub_le ..).trans hle) (by decide)
    have hspmod : (top - used) % 4 = 0 := by
      simp only [PGSIZE] at *
      omega
    have huse : stackUse (arg :: args) = room arg + stackUse args := by simp [stackUse]
    have hsrc : (arg ++ [0]).length = arg.length + 1 := by simp
    unfold pushStrings
    by_cases hmax : MAXARG ≤ argc
    · rw [if_pos hmax]
      refine ⟨⟨M, him, by simp⟩, ?_, .refl, ?_⟩
      · simp only [ne_eq, not_true_eq_false, length_cons, false_iff, reduceCtorEq, false_or]
        omega
      · rintro ⟨i, -, hmax', -⟩
        omega
    rw [if_neg hmax]
    dsimp only
    rw [wp_bind]
    rcases Nat.lt_or_ge top (used + room arg) with hwrap | hfit
    · -- `sp` wraps around
      have hp := pushSp_wraps hsp hspmod harg (by omega)
      rw [hp]
      have hroom : room arg ≤ KERNBASE := by
        simp only [KERNBASE] at *
        omega
      have hhead : argc < MAXARG ∧ used ≤ PGSIZE ∧ top + 0x2000000 < used + room arg ∧ used + room arg ≤ top + 0x72000000 ↔
          0x8E000000 ≤ 2 ^ 32 + (top - used) - room arg ∧ 2 ^ 32 + (top - used) - room arg < 0xFE000000 := by
        omega
      have hrange : KERNBASE ≤ 2 ^ 32 + (top - used) - room arg ∧ 2 ^ 32 + (top - used) - room arg < 2 ^ 32 := by
        simp only [KERNBASE] at *
        omega
      have hfull : ¬ NullArg top (used + room arg) (argc + 1) args := not_nullArg_of_full (by omega)
      refine him.wp_copyout_kernel hrange.1 hrange.2 (by omega) (fun hmem => ?_) fun hno => ⟨rfl, ?_⟩
      · rw [mem_kernelTabs_iff hrange.1 hrange.2, ← hhead] at hmem
        refine ⟨⟨M, him, by simp⟩, ?_, .refl, ?_⟩
        · simp only [ne_eq, not_true_eq_false, huse, false_iff]
          omega
        · rw [nullArg_cons]
          exact not_or.mpr ⟨hmem, hfull⟩
      · rw [mem_kernelTabs_iff hrange.1 hrange.2, not_not, ← hhead] at hno
        exact nullArg_cons.mpr (.inl hno)
    · have hp := pushSp_fits hsp hspmod harg (by omega)
      rw [hp]
      have hp' : top - used - room arg = top - (used + room arg) := Nat.sub_sub ..
      rw [hp']
      refine wp_mono (wp_copyoutLoop (E := fun _ _ => False) _ (top - (used + room arg)) (arg ++ [0]) le_rfl (by omega) him) ?_
        fun _ _ hfalse => absurd hfalse id
      rintro b s2 ⟨M2, him2, hc⟩
      have hhead : ¬ (argc < MAXARG ∧ used ≤ PGSIZE ∧ top + 0x2000000 < used + room arg ∧
          used + room arg ≤ top + 0x72000000) := by omega
      cases b with
      | false =>
        -- the string meets the guard page
        obtain ⟨a, hle', hlt, hg⟩ := hc.bad rfl
        have hover : PGSIZE < used + room arg := by
          by_contra hno
          exact not_guard htop halign (by omega) hg
        refine ⟨⟨M2, him2, by simp⟩, ?_, hc.writes, ?_⟩
        · simp only [ne_eq, not_true_eq_false, huse, false_iff]
          omega
        · rw [nullArg_cons]
          exact not_or.mpr ⟨hhead, not_nullArg_of_full hover⟩
      | true =>
        obtain ⟨hno, hM2⟩ := hc.ok rfl
        have hin : used + room arg ≤ PGSIZE := by
          by_contra hover
          obtain ⟨a, hle', hlt, hg⟩ := exists_guard (p := top - (used + room arg)) (n := arg.length + 1) htop halign
            (by omega) (by omega) (by omega)
          exact hno a hle' (by omega) (congrArg some hg.symm)
        simp only [if_true, wp_bind]
        refine wp_mono (ih (argc + 1) (used + room arg) him2 hin (by omega) fun x hx => hlen x (mem_cons_of_mem _ hx)) ?_ ?_
        · rintro r s3 ⟨⟨M3, him3, hpushed⟩, hfits, hwrites, hsafe⟩
          have hsafe' : ¬ NullArg top used argc (arg :: args) := by
            rw [nullArg_cons]
            exact not_or.mpr ⟨hhead, hsafe⟩
          have hfits' : r ≠ none ↔ used + stackUse (arg :: args) ≤ PGSIZE ∧
              (arg :: args = [] ∨ argc + (arg :: args).length ≤ MAXARG) := by
            rw [hfits, huse]
            simp only [length_cons, reduceCtorEq, false_or]
            constructor
            · rintro ⟨hle', rfl | hmax'⟩
              · exact ⟨by omega, by simp; omega⟩
              · exact ⟨by omega, by omega⟩
            · rintro ⟨hle', hmax'⟩
              exact ⟨by omega, .inr (by omega)⟩
          cases r with
          | none => exact ⟨⟨M3, him3, by simp⟩, hfits', hc.writes.trans hwrites, hsafe'⟩
          | some x =>
            obtain ⟨sp', ptrs⟩ := x
            obtain ⟨hrest, hsp'⟩ := hpushed sp' ptrs rfl
            refine ⟨⟨M3, him3, ?_⟩, by simpa using hfits', hc.writes.trans hwrites, hsafe'⟩
            rintro sp'' ptrs' heq
            obtain ⟨rfl, rfl⟩ := Prod.mk.inj (Option.some.inj heq)
            refine ⟨.cons (by omega) (by omega) ?_ (hM2 ▸ hrest), by omega⟩
            simp only [PGSIZE] at *
            omega
        · rintro e s3 ⟨rfl, hnull⟩
          exact ⟨rfl, nullArg_cons.mpr (.inr hnull)⟩

/-! ## Where the strings are -/

section

variable {lo sp' : ℕ}

theorem Pushed.outside (h : Pushed lo sp args ptrs sp' M M') : sp' ≤ sp ∧ (lo ≤ sp → lo ≤ sp') ∧
    ptrs.length = args.length ∧ (∀ a, a < sp' ∨ sp ≤ a → M' a = M a) ∧ ∀ p ∈ ptrs, p < sp := by
  induction h with
  | nil sp M => exact ⟨le_rfl, id, rfl, fun _ _ => rfl, by simp⟩
  | @cons sp sp' p arg args ptrs M M' low high mod _ ih =>
    obtain ⟨hle, hlo, hlen, hout, hptrs⟩ := ih
    refine ⟨by omega, fun _ => hlo low, by simp [hlen], fun a ha => ?_, fun q hq => ?_⟩
    · rw [hout a (by omega), overlay_of_lt]
      rw [length_append, length_singleton]
      omega
    · rcases mem_cons.mp hq with rfl | hq
      · omega
      · exact Nat.lt_trans (hptrs q hq) (by omega)

/-- Each string is where its pointer says, above all later ones and below all earlier ones. -/
theorem Pushed.string (h : Pushed lo sp args ptrs sp' M M') : ∀ i < args.length,
    lo ≤ ptrs.getD i 0 ∧ sp' ≤ ptrs.getD i 0 ∧ ptrs.getD i 0 + ((args.getD i []).length + 1) ≤ sp ∧
    (∀ k < (args.getD i []).length + 1, M' (ptrs.getD i 0 + k) = (args.getD i [] ++ [0]).getD k 0) ∧
    ∀ j < i, ptrs.getD i 0 + ((args.getD i []).length + 1) ≤ ptrs.getD j 0 := by
  induction h with
  | nil sp M => exact fun i hi => absurd hi (Nat.not_lt_zero _)
  | @cons sp sp' p arg args ptrs M M' low high mod hrest ih =>
    intro i hi
    cases i with
    | zero =>
      obtain ⟨hle, -, -, hout, -⟩ := hrest.outside
      refine ⟨low, hle, high, fun k hk => ?_, fun j hj => absurd hj (Nat.not_lt_zero _)⟩
      simp only [getD_cons_zero] at hk ⊢
      have hlen : (arg ++ [0]).length = arg.length + 1 := by simp
      rw [hout _ (.inr (by omega)), overlay, if_pos (by omega), Nat.add_sub_cancel_left]
    | succ i =>
      obtain ⟨hlo, hsp', hend, hstr, hbelow⟩ := ih i (by simpa using hi)
      simp only [getD_cons_succ]
      refine ⟨hlo, hsp', by omega, hstr, fun j hj => ?_⟩
      cases j with
      | zero => exact hend
      | succ j => exact hbelow j (by omega)

end

/-! ## `ustack` -/

theorem ustack_length (sp argc : ℕ) (ptrs : List ℕ) :
    ((ustack sp argc ptrs).flatMap (leBytes 4)).length = (ptrs.length + 4) * 4 := by
  rw [length_flatMap_leBytes, Nat.mul_comm]
  simp [ustack]

/-- What `exec` leaves once it has pushed the arguments: `sp`, or nothing if they do not fit. -/
structure ExecPushed (l : Layout) (D : Set ℕ) (d : ℕ) (o : ℕ → Owner) (s : Mem) (top : ℕ) (argv : List (List UInt8))
    (M : ℕ → UInt8) (o' : ℕ → Owner) (s' : Mem) (r : Option ℕ) (s'' : Mem) : Prop where
  image : ∃ M', Image l D d o s top (some (top - 2 * PGSIZE)) M' o' s'' ∧ ∀ esp, r = some esp →
    ∃ ptrs sp M1, Pushed (top - PGSIZE) top argv ptrs sp M M1 ∧ sp = esp + (argv.length + 4) * 4 ∧ top - PGSIZE ≤ esp ∧
      M' = overlay M1 esp ((ustack sp argv.length ptrs).flatMap (leBytes 4))
  fits : r ≠ none ↔ stackUse argv + (argv.length + 4) * 4 ≤ PGSIZE ∧ argv.length ≤ MAXARG
  writes : Writes d top (some (top - 2 * PGSIZE)) s' s''
  safe : ¬ NullArg top 0 0 argv

theorem wp_execPush (htop : 2 * PGSIZE ≤ top) {argv : List (List UInt8)}
    (him : Image l D d o s top (some (top - 2 * PGSIZE)) M o' s') (hlen : ∀ arg ∈ argv, arg.length < KERNBASE) :
    Wp (execPush d top argv) (ExecPushed l D d o s top argv M o' s') (fun e _ => e = .nullPte ∧ NullArg top 0 0 argv) s' := by
  have halign := him.aligned
  have hle := him.le
  unfold execPush
  rw [wp_bind]
  have hpush := wp_pushStrings htop argv 0 0 him (Nat.zero_le _) rfl hlen
  rw [Nat.sub_zero] at hpush
  refine wp_post hpush ?_
  rintro r s2 ⟨⟨M2, him2, hpushed⟩, hfits, hwrites, hsafe⟩
  have hfits' : r ≠ none ↔ stackUse argv ≤ PGSIZE ∧ argv.length ≤ MAXARG := by
    rw [hfits, Nat.zero_add, Nat.zero_add]
    refine and_congr_right fun _ => ⟨?_, .inr⟩
    rintro (rfl | hmax)
    · exact Nat.zero_le _
    · exact hmax
  cases r with
  | none =>
    refine ⟨⟨M2, him2, by simp⟩, ?_, hwrites, hsafe⟩
    simp only [ne_eq, not_true_eq_false, false_iff] at hfits' ⊢
    omega
  | some x =>
    obtain ⟨sp, ptrs⟩ := x
    obtain ⟨hp, hsp⟩ := hpushed sp ptrs rfl
    rw [Nat.sub_zero] at hp
    obtain ⟨hsp1, hlo, hptrs, -⟩ := hp.outside
    obtain ⟨huse, hmax⟩ := hfits'.mp (by simp)
    have hsrc := ustack_length sp argv.length ptrs
    rw [hptrs] at hsrc
    have hMAX : MAXARG = 32 := rfl
    have hsp2 := hlo (by omega)
    have hroom : (argv.length + 4) * 4 ≤ PGSIZE := by
      simp only [PGSIZE]
      omega
    have hesp : (sp + 2 ^ 32 - (3 + argv.length + 1) * 4) % 2 ^ 32 = sp - (argv.length + 4) * 4 := by
      simp only [KERNBASE, PGSIZE] at *
      omega
    dsimp only
    rw [hesp, wp_bind]
    refine wp_mono (wp_copyoutLoop (E := fun _ _ => False) _ (sp - (argv.length + 4) * 4) _ le_rfl (by omega) him2) ?_
      fun _ _ hfalse => absurd hfalse id
    rintro b s3 ⟨M3, him3, hc⟩
    cases b with
    | false =>
      obtain ⟨a, hle', hlt, hg⟩ := hc.bad rfl
      refine ⟨⟨M3, him3, by simp⟩, ?_, hwrites.trans hc.writes, hsafe⟩
      have hover : ¬ top - PGSIZE ≤ sp - (argv.length + 4) * 4 := fun hno => not_guard htop halign (by omega) hg
      simp only [ne_eq, not_true_eq_false, false_iff]
      omega
    | true =>
      obtain ⟨hno, hM3⟩ := hc.ok rfl
      have hin : top - PGSIZE ≤ sp - (argv.length + 4) * 4 := by
        by_contra hover
        obtain ⟨a, hle', hlt, hg⟩ := exists_guard (p := sp - (argv.length + 4) * 4) (n := (argv.length + 4) * 4) htop halign
          (by omega) (by omega) (by omega)
        exact hno a hle' (by omega) (congrArg some hg.symm)
      refine ⟨⟨M3, him3, fun esp heq => ?_⟩, ?_, hwrites.trans hc.writes, hsafe⟩
      · obtain rfl := Option.some.inj heq
        exact ⟨ptrs, sp, M2, hp, by omega, hin, hM3⟩
      · simp only [ne_eq, reduceCtorEq, not_false_eq_true, true_iff]
        omega

end Vm

end Xv6
