import Xv6.Vm.ExecAll

/-!
# The image and the arguments of a program

What `exec` makes of a regular file, and what the new program finds on its stack.
-/

namespace Xv6

open List

namespace Vm

open Code

variable {n : ℕ} {l : Layout} {D : Set ℕ} {o : ℕ → Owner} {p : Fin n} {old : ℕ} {s : Execer n} {M M' : ℕ → UInt8}
  {rd : Reader} {found : Bool} {path bytes : List UInt8} {argv : List (List UInt8)}

/-! ## The image of a regular file -/

/-- The program headers of a file, from offset `off` on. -/
def programHeaders (bytes : List UInt8) : (left off : ℕ) → List Sys.Proghdr
  | 0, _ => []
  | left + 1, off =>
    Sys.Proghdr.read ((bytes.drop off).take Sys.PROGHDR) :: programHeaders bytes left ((off + Sys.PROGHDR) % 2 ^ 32)

/-- The bytes `[off, off + filesz)` of the file are put at `vaddr`, if the header is to be loaded. -/
def loadHeader (bytes : List UInt8) (M : ℕ → UInt8) (ph : Sys.Proghdr) : ℕ → UInt8 :=
  if ph.type = ELF_PROG_LOAD then overlay M ph.vaddr ((bytes.drop ph.off).take ph.filesz) else M

/-- The memory that the file describes: zero, and the segments over it in the order of the headers. -/
def fileImage (bytes : List UInt8) : ℕ → UInt8 :=
  let elf := Sys.Elfhdr.read (bytes.take Sys.ELFHDR)
  (programHeaders bytes elf.phnum elf.phoff).foldl (loadHeader bytes) fun _ => 0

variable {off sz d a va sp esp : ℕ} {hdr : List UInt8}

theorem file_read {c : ReadCall} {m : ℕ} {bs : List UInt8} (h : (Reader.file bytes).read c off m = some bs) :
    bs = (bytes.drop off).take m ∧ off ≤ bytes.length := by
  simp only [Reader.file] at h
  split_ifs at h with hbad
  exact ⟨(Option.some.inj h).symm, by omega⟩

/-- The pages of a segment are read one after the other. -/
theorem segBytes_file (hfile : bytes.length < 2 ^ 31) {h offset : ℕ} (k : ℕ) : ∀ (i : ℕ) (xs : List UInt8), sz - i ≤ k →
    offset + i < 2 ^ 32 → segBytes (Reader.file bytes) h offset sz i = some xs →
    xs = (bytes.drop (offset + i)).take (sz - i) := by
  induction k with
  | zero =>
    intro i xs hk _ hseg
    rw [segBytes_end (by omega)] at hseg
    obtain rfl := Option.some.inj hseg
    rw [show sz - i = 0 by omega, take_zero]
  | succ k ih =>
    intro i xs hk hoff hseg
    by_cases hlt : i < sz
    · rw [segBytes, dif_pos hlt, Nat.mod_eq_of_lt hoff] at hseg
      cases hread : (Reader.file bytes).read (.seg h (i / PGSIZE)) (offset + i) (if sz - i < PGSIZE then sz - i else PGSIZE) with
      | none =>
        rw [hread] at hseg
        cases hseg
      | some bs =>
        rw [hread] at hseg
        obtain ⟨hbs, hle⟩ := file_read hread
        dsimp only at hseg
        by_cases hlen : bs.length = if sz - i < PGSIZE then sz - i else PGSIZE
        · rw [if_neg (not_not.mpr hlen)] at hseg
          obtain ⟨ys, hys, rfl⟩ := Option.map_eq_some_iff.mp hseg
          by_cases hlast : sz - i < PGSIZE
          · rw [segBytes_end (by omega)] at hys
            obtain rfl := Option.some.inj hys
            rw [append_nil, hbs, if_pos hlast]
          · rw [if_neg hlast] at hlen hbs
            have hend : offset + i + PGSIZE ≤ bytes.length := by
              rw [hbs, length_take, length_drop] at hlen
              have hpos : 0 < PGSIZE := by decide
              omega
            have hnext := ih (i + PGSIZE) ys (by simp only [PGSIZE] at *; omega) (by omega) hys
            rw [hnext, hbs]
            rw [show sz - i = PGSIZE + (sz - (i + PGSIZE)) by omega, take_add, drop_drop,
              show offset + i + PGSIZE = offset + (i + PGSIZE) by omega]
        · rw [if_pos hlen] at hseg
          cases hseg
    · rw [segBytes_end (by omega)] at hseg
      obtain rfl := Option.some.inj hseg
      rw [show sz - i = 0 by omega, take_zero]

theorem overlayHeaders_file (hfile : bytes.length < 2 ^ 31) (left : ℕ) : ∀ (i off : ℕ) (M M' : ℕ → UInt8),
    overlayHeaders (Reader.file bytes) left i off M = some M' →
    M' = (programHeaders bytes left off).foldl (loadHeader bytes) M := by
  induction left with
  | zero =>
    intro i off M M' hM
    exact (Option.some.inj hM).symm
  | succ left ih =>
    intro i off M M' hM
    rw [overlayHeaders] at hM
    cases hread : (Reader.file bytes).read (.ph i) off Sys.PROGHDR with
    | none =>
      rw [hread] at hM
      cases hM
    | some bs =>
      rw [hread] at hM
      dsimp only at hM
      obtain ⟨rfl, -⟩ := file_read hread
      have hoff : (Sys.Proghdr.read ((bytes.drop off).take Sys.PROGHDR)).off < 2 ^ 32 := field_lt _ 4
      rw [programHeaders, foldl_cons, loadHeader]
      generalize Sys.Proghdr.read ((bytes.drop off).take Sys.PROGHDR) = ph at *
      by_cases htype : ph.type = ELF_PROG_LOAD
      · rw [if_neg (not_not.mpr htype)] at hM
        rw [if_pos htype]
        cases hseg : segBytes (Reader.file bytes) i ph.off ph.filesz 0 with
        | none =>
          rw [hseg] at hM
          cases hM
        | some xs =>
          rw [hseg] at hM
          have hxs := segBytes_file hfile ph.filesz 0 xs (Nat.sub_le ..) hoff hseg
          rw [Nat.add_zero, Nat.sub_zero] at hxs
          rw [← hxs]
          exact ih _ _ _ _ hM
      · rw [if_pos htype] at hM
        rw [if_neg htype]
        exact ih _ _ _ _ hM

variable {s' : Execer n} {B : ℕ → UInt8} {ptrs : List ℕ}

/-- Below the stack page the memory is that of the image. -/
theorem ExecOk.below (h : ExecOk l rd p argv o old s s' hdr d sz M M')
    (ha : a < PGROUNDUP sz + PGSIZE) : M' a = M a := by
  obtain ⟨ptrs, sp, M1, hpushed, hsp, hesp, rfl⟩ := h.stack
  obtain ⟨-, hlo, -, hout, -⟩ := hpushed.outside
  have hlow := hlo (by omega)
  rw [overlay_of_lt (.inl (by omega)), hout a (.inl (by omega))]

theorem ExecOk.hdr_eq
    (h : ExecOk l (Reader.file bytes) p argv o old s s' hdr d sz M M') (hfile : bytes.length < 2 ^ 31) : M = fileImage bytes := by
  have hhdr := (file_read h.header).1
  rw [drop_zero] at hhdr
  have himage := overlayHeaders_file hfile _ _ _ _ _ h.image
  rw [hhdr] at himage
  exact himage

theorem emptyProgram_length : emptyProgram.length < 2 ^ 31 := by decide

/-! ## The arguments -/

/-- The word at address `a`. -/
def readWord (B : ℕ → UInt8) (a : ℕ) : ℕ := leVal ((List.range 4).map fun j => B (a + j))

theorem readWord_congr {B' : ℕ → UInt8} (h : ∀ j < 4, B (a + j) = B' (a + j)) : readWord B a = readWord B' a := by
  unfold readWord
  congr 1
  exact map_congr_left fun j hj => h j (mem_range.mp hj)

theorem readWord_overlay {src : List UInt8} (h : off + 4 ≤ src.length) :
    readWord (overlay M va src) (va + off) = leVal ((src.drop off).take 4) := by
  unfold readWord
  congr 1
  refine ext_getElem ?_ fun j hj hj' => ?_
  · simp
    omega
  · simp only [length_map, length_range] at hj
    rw [getElem_map, getElem_range, getElem_take, getElem_drop, overlay, if_pos (by omega),
      show va + off + j - va = off + j by omega, getD_eq_getElem _ _ (by omega)]

/-- Word `k` of what has been written. -/
theorem readWord_words {k : ℕ} {ws : List ℕ} (hk : k < ws.length) (hlt : ws.getD k 0 < 2 ^ 32) :
    readWord (overlay M va (ws.flatMap (leBytes 4))) (va + 4 * k) = ws.getD k 0 := by
  rw [readWord_overlay (by rw [length_flatMap_leBytes]; omega), take_drop_flatMap (fun a => leBytes_length 4 a) hk,
    getD_eq_getElem _ _ hk] at *
  exact leVal_leBytes_of_lt hlt

theorem Pushed.mod {lo sp' : ℕ} {args : List (List UInt8)} (h : Pushed lo sp args ptrs sp' M M')
    (hsp : sp % 4 = 0) : sp' % 4 = 0 := by
  induction h with
  | nil sp M => exact hsp
  | cons low high mod rest ih => exact ih mod

/-- What the program finds from `esp` on, in the memory `B` of which `[top - PGSIZE, top)` is the stack page. -/
structure ArgsPassed (B : ℕ → UInt8) (esp top : ℕ) (argv : List (List UInt8)) : Prop where
  aligned : esp % 4 = 0
  ret : readWord B esp = 0xffffffff
  argc : readWord B (esp + 4) = argv.length
  array : ∃ av, readWord B (esp + 8) = av ∧ top - PGSIZE ≤ av ∧ av + 4 * (argv.length + 1) ≤ top ∧
    readWord B (av + 4 * argv.length) = 0 ∧ ∃ ptr : ℕ → ℕ, ∀ i < argv.length,
      readWord B (av + 4 * i) = ptr i ∧ top - PGSIZE ≤ ptr i ∧ ptr i + ((argv.getD i []).length + 1) ≤ top ∧
      (∀ k < (argv.getD i []).length + 1, B (ptr i + k) = (argv.getD i [] ++ [0]).getD k 0) ∧
      av + 4 * (argv.length + 1) ≤ ptr i ∧ ∀ j < i, ptr i + ((argv.getD i []).length + 1) ≤ ptr j

theorem getD_words (a b c : ℕ) (l : List ℕ) : (a :: b :: c :: l ++ [0]).getD 0 0 = a ∧ (a :: b :: c :: l ++ [0]).getD 1 0 = b ∧
    (a :: b :: c :: l ++ [0]).getD 2 0 = c ∧ (∀ i < l.length, (a :: b :: c :: l ++ [0]).getD (i + 3) 0 = l.getD i 0) ∧
    (a :: b :: c :: l ++ [0]).getD (l.length + 3) 0 = 0 := by
  refine ⟨rfl, rfl, rfl, fun i hi => ?_, ?_⟩
  · simp only [cons_append, getD_cons_succ]
    exact getD_append _ _ _ _ hi
  · simp only [cons_append, getD_cons_succ]
    rw [getD_append_right _ _ _ _ le_rfl, Nat.sub_self]
    rfl

/-- The pointer to the array. -/
theorem argv_eq {argc : ℕ} (hsp : sp = esp + (argc + 4) * 4) (h32 : sp < 2 ^ 32) :
    (sp + 2 ^ 32 - (argc + 1) * 4) % 2 ^ 32 = esp + 12 := by
  omega

theorem argsPassed_ustack {top : ℕ} {M1 : ℕ → UInt8}
    (h : Pushed (top - PGSIZE) top argv ptrs sp M M1) (hsp : sp = esp + (argv.length + 4) * 4) (hesp : top - PGSIZE ≤ esp)
    (hmod4 : top % 4 = 0) (h32 : top < 2 ^ 32)
    (hB : ∀ a < top, B a = overlay M1 esp ((ustack sp argv.length ptrs).flatMap (leBytes 4)) a) :
    ArgsPassed B esp top argv := by
  obtain ⟨hle, hlo, hlen, hout, hptrs⟩ := h.outside
  have hwords : (ustack sp argv.length ptrs).length = argv.length + 4 := by simp [ustack, hlen]
  have hsrc := ustack_length sp argv.length ptrs
  rw [hlen] at hsrc
  have hav := argv_eq hsp (Nat.lt_of_le_of_lt hle h32)
  obtain ⟨hret, hargc, hargv, hptr, hlast⟩ := getD_words 0xffffffff argv.length (esp + 12) ptrs
  have hust : ustack sp argv.length ptrs = 0xffffffff :: argv.length :: (esp + 12) :: ptrs ++ [0] := by rw [ustack, hav]
  rw [← hust] at hret hargc hargv hptr hlast
  have hmod := h.mod hmod4
  have hread : ∀ k < argv.length + 4, (ustack sp argv.length ptrs).getD k 0 < 2 ^ 32 →
      readWord B (esp + 4 * k) = (ustack sp argv.length ptrs).getD k 0 := by
    intro k hk hlt
    rw [readWord_congr fun j hj => hB (esp + 4 * k + j) (by omega)]
    exact readWord_words (by omega) hlt
  refine ⟨by omega, ?_, ?_, esp + 12, ?_, by omega, by omega, ?_, fun i => ptrs.getD i 0, fun i hi => ?_⟩
  · have hword := hread 0 (by omega)
    rw [hret, Nat.mul_zero, Nat.add_zero] at hword
    exact hword (by omega)
  · have hword := hread 1 (by omega)
    rw [hargc, Nat.mul_one] at hword
    exact hword (by omega)
  · have hword := hread 2 (by omega)
    rw [hargv] at hword
    exact hword (by omega)
  · rw [hlen] at hlast
    have hword := hread (argv.length + 3) (by omega)
    rw [hlast, show esp + 4 * (argv.length + 3) = esp + 12 + 4 * argv.length by omega] at hword
    exact hword (by omega)
  · dsimp only
    obtain ⟨hlow, hbelow, hend, hstr, hdisj⟩ := h.string i hi
    have hword := hread (i + 3) (by omega)
    rw [hptr i (by omega), show esp + 4 * (i + 3) = esp + 12 + 4 * i by omega] at hword
    refine ⟨hword (by omega), hlow, hend, fun k hk => ?_, by omega, hdisj⟩
    rw [hB _ (by omega), overlay_of_lt (.inr (by omega))]
    exact hstr k hk

theorem ExecOk.argsPassed (h : ExecOk l rd p argv o old s s' hdr d sz M M') :
    ArgsPassed (s'.kern.mem.byte d) (s'.regs p).esp (s'.kern.proc p).sz argv := by
  obtain ⟨ptrs, sp, M1, hpushed, hsp, hesp, hM'⟩ := h.stack
  have hbyte := h.space.byte
  have hsub : PGROUNDUP sz + PGSIZE = PGROUNDUP sz + 2 * PGSIZE - PGSIZE := by omega
  have hmod4 : (PGROUNDUP sz + 2 * PGSIZE) % 4 = 0 := by
    simp only [PGROUNDUP, PGSIZE]
    omega
  have h32 : PGROUNDUP sz + 2 * PGSIZE < 2 ^ 32 := Nat.lt_trans h.size (by decide)
  rw [hsub] at hpushed hesp
  rw [h.proc.2]
  generalize PGROUNDUP sz + 2 * PGSIZE = top at *
  exact argsPassed_ustack hpushed hsp hesp hmod4 h32 fun a ha => by rw [hbyte a ha, hM']

/-- A program that `exec` has started finds its arguments: from `esp` on the fake return address, `argc` and a pointer to
the array of pointers to the strings, all of them in the stack page and apart from each other; the image below the guard
page is as it was loaded. -/
theorem exec_passes_args (hl : Linked l) (h0 : Exact D o s.kern.mem) (hold : old ∈ D) (hp : (s.kern.proc p).pgdir = some old)
    (hlen : ∀ arg ∈ argv, arg.length < KERNBASE) : ∀ s', (execAll l p found rd path argv).run s = .ok true s' →
      ∃ d, (s'.kern.proc p).pgdir = some d ∧
        ArgsPassed (s'.kern.mem.byte d) (s'.regs p).esp (s'.kern.proc p).sz argv ∧
        ∃ hdr M, rd.read .elf 0 Sys.ELFHDR = some hdr ∧
          overlayHeaders rd (Sys.Elfhdr.read hdr).phnum 0 (Sys.Elfhdr.read hdr).phoff (fun _ => 0) = some M ∧
          ∀ va < (s'.kern.proc p).sz - 2 * PGSIZE, s'.kern.mem.byte d va = M va := by
  intro s' hrun
  have hwp : Wp (execAll l p found rd path argv) (fun b s' => b = true → ∃ hdr d sz M M',
      ExecOk l rd p argv o old s s' hdr d sz M M') (fun e _ => e = .nullPte) s :=
    wp_execAll hl h0 hold hp hlen (fun _ _ => nofun) fun s' hdr d sz M M' hok _ => ⟨hdr, d, sz, M, M', hok⟩
  obtain ⟨hdr, d, sz, M, M', hok⟩ := wp_ok hwp hrun rfl
  refine ⟨d, hok.proc.1, hok.argsPassed, hdr, M, hok.header, hok.image, fun va hva => ?_⟩
  rw [hok.proc.2] at hva
  rw [hok.space.byte va (by omega), hok.below (by omega)]

theorem exec_passes_hi : ∃ s' d,
    (execAll smallLayout 0 true (Reader.file emptyProgram) [] [[104, 105]]).run richExecer = .ok true s' ∧
      (s'.kern.proc 0).pgdir = some d ∧
      ArgsPassed (s'.kern.mem.byte d) (s'.regs 0).esp (s'.kern.proc 0).sz [[104, 105]] := by
  obtain ⟨s', hrun⟩ := exec_emptyProgram
  obtain ⟨d, hd, hargs, -⟩ := exec_passes_args (s := richExecer) (p := 0) smallLayout_linked
    (onePage_exact (k := 80) (by decide)) (Set.mem_singleton 1) rfl hi_length s' hrun
  exact ⟨s', d, hrun, hd, hargs⟩

end Vm

end Xv6
