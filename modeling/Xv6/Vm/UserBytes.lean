import Xv6.Lib.Bytes
import Xv6.Vm.Fork

/-!
# The bytes of user memory

A page is 1024 words; `memmove` and `readi` see its 4096 bytes.
-/

namespace Xv6

namespace Vm

/-! ## Words and bytes -/

/-- The entry as a machine word. -/
def Pte.word (e : Pte) : BitVec 32 :=
  BitVec.ofNat 20 e.ppn ++ (e.rest ++ (BitVec.ofBool e.u ++ (BitVec.ofBool e.w ++ BitVec.ofBool e.p)))

/-- The machine word as an entry. -/
def Pte.ofWord (x : BitVec 32) : Pte :=
  ⟨(x.extractLsb' 12 20).toNat, x.getLsbD 0, x.getLsbD 1, x.getLsbD 2, x.extractLsb' 3 9⟩

theorem Pte.word_ofWord (x : BitVec 32) : (Pte.ofWord x).word = x := by
  apply BitVec.eq_of_getLsbD_eq
  intro i hi
  simp only [Pte.word, Pte.ofWord, BitVec.getLsbD_append, BitVec.getLsbD_ofNat, BitVec.getLsbD_extractLsb',
    BitVec.getLsbD_ofBool, BitVec.testBit_toNat]
  interval_cases i <;> simp

theorem Pte.word_zero : Pte.zero.word = 0 := by decide

theorem entry_lt (k : Fin PGSIZE) : k.val / 4 < NPDENTRIES := by
  have := k.isLt
  simp only [PGSIZE, NPDENTRIES] at *
  omega

/-- The bytes of a page. -/
def Table.bytes (t : Table) : Page PGSIZE := fun k =>
  UInt8.ofBitVec ((t ⟨k.val / 4, entry_lt k⟩).word.extractLsb' (8 * (k.val % 4)) 8)

/-- The page with these bytes. -/
def Table.ofBytes (b : Page PGSIZE) : Table := fun j =>
  Pte.ofWord ((b.byte (4 * j.val + 3)).toBitVec ++ ((b.byte (4 * j.val + 2)).toBitVec ++
    ((b.byte (4 * j.val + 1)).toBitVec ++ (b.byte (4 * j.val)).toBitVec)))

theorem extract_byte (f : ℕ → BitVec 8) {m : ℕ} (hm : m < 4) :
    ((f 3) ++ ((f 2) ++ ((f 1) ++ (f 0)))).extractLsb' (8 * m) 8 = f m := by
  apply BitVec.eq_of_getLsbD_eq
  intro i hi
  simp only [BitVec.getLsbD_append, BitVec.getLsbD_extractLsb']
  interval_cases m <;> interval_cases i <;> simp

theorem Table.bytes_ofBytes (b : Page PGSIZE) : Table.bytes (Table.ofBytes b) = b := by
  funext k
  unfold Table.bytes Table.ofBytes
  rw [Pte.word_ofWord]
  have hbyte := extract_byte (fun m => (b.byte (4 * (k.val / 4) + m)).toBitVec) (Nat.mod_lt k.val (by decide))
  refine (congrArg UInt8.ofBitVec hbyte).trans ?_
  simp only [Nat.div_add_mod]
  rw [Page.byte, dif_pos k.isLt]

theorem Table.bytes_zero : Table.bytes (fun _ => Pte.zero) = fun _ => 0 := by
  funext k
  unfold Table.bytes
  rw [Pte.word_zero]
  simp

/-! ## Changes of bytes -/

/-- The byte that user code sees at `va`. -/
def Mem.byte (s : Mem) (d va : ℕ) : UInt8 := (Table.bytes (s.contents d va)).byte (va % PGSIZE)

/-- `memmove` of `src` to offset `off` of page `r`. -/
def memmove (r off : ℕ) (src : List UInt8) : VmCode Unit := do
  let s ← get
  setPage r (Table.ofBytes ((Table.bytes (s.page r)).move off src))

/-- Memory `M` with the bytes `src` from `va` on. -/
def overlay (M : ℕ → UInt8) (va : ℕ) (src : List UInt8) (a : ℕ) : UInt8 :=
  if va ≤ a ∧ a < va + src.length then src.getD (a - va) 0 else M a

/-! ## The image that `exec` builds -/

variable {l : Layout} {D : Set ℕ} {d : ℕ} {o o' : ℕ → Owner} {s s' : Mem} {top va : ℕ} {guard : Option ℕ} {M : ℕ → UInt8}
  {E : Panic → Mem → Prop}

open Code

/-- Directory `d` is new since memory `s`. Below `top` all its pages are there, writable and for user code but for the page
`guard`, and the bytes in them are those of `M`. Above there are only the mappings of the kernel. -/
structure Image (l : Layout) (D : Set ℕ) (d : ℕ) (o : ℕ → Owner) (s : Mem) (top : ℕ) (guard : Option ℕ) (M : ℕ → UInt8)
    (o' : ℕ → Owner) (s' : Mem) : Prop where
  fresh : d ∉ D
  built : Built (insert d D) d o s o' s'
  aligned : top % PGSIZE = 0
  le : top ≤ KERNBASE
  present : ∀ va < top, ∃ r, s'.pte d va = ⟨r, true, true, decide (guard ≠ some (PGROUNDDOWN va)), 0⟩
  absent : ∀ va < KERNBASE, top ≤ va → (s'.pte d va).p = false
  byte : ∀ va < top, s'.byte d va = M va
  kernel : ∀ i j, ¬ Low i → s'.entry d i j = kentry (kmap l.data) (addr i j)
  tables : ∀ i, ¬ Low i → (i ∈ tabs s' d ↔ i ∈ kernelTabs)

theorem pte_PGROUNDDOWN (va : ℕ) : s.pte d (PGROUNDDOWN va) = s.pte d va := by
  have hd : PDX (PGROUNDDOWN va) = PDX va := by
    simp only [PDX, PGROUNDDOWN, PGSIZE, NPDENTRIES, Fin.mk.injEq]
    omega
  have ht : PTX (PGROUNDDOWN va) = PTX va := by
    simp only [PTX, PGROUNDDOWN, PGSIZE, NPDENTRIES, Fin.mk.injEq]
    omega
  rw [Mem.pte, Mem.pte, hd, ht]

theorem Image.frame (h : Image l D d o s top guard M o' s') (hva : va < top) : va < KERNBASE ∧ (s'.pte d va).p = true := by
  obtain ⟨r, hr⟩ := h.present va hva
  exact ⟨Nat.lt_of_lt_of_le hva h.le, by rw [hr]⟩

/-- Bytes are written to a page of the image. -/
theorem Image.move (h : Image l D d o s top guard M o' s') (hva : va < top) (halign : va % PGSIZE = 0) (off : ℕ)
    (src : List UInt8) (hlen : off + src.length ≤ PGSIZE) :
    Image l D d o s top guard (overlay M (va + off) src) o' (s'.put (s'.pte d va).ppn
      (Table.ofBytes ((Table.bytes (s'.page (s'.pte d va).ppn)).move off src))) := by
  obtain ⟨hlow, hp⟩ := h.frame hva
  have hd : d ∈ insert d D := .inl rfl
  have ho := h.built.exact.frame_pte hd hlow hp
  set x := Table.ofBytes ((Table.bytes (s'.page (s'.pte d va).ppn)).move off src) with hx
  have hentry : ∀ d' ∈ insert d D, ∀ i j, (s'.put (s'.pte d va).ppn x).entry d' i j = s'.entry d' i j :=
    fun d' hd' i j => h.built.exact.entry_put (by simp [ho]) (by simp [ho]) hd' x
  have hpte : ∀ va', (s'.put (s'.pte d va).ppn x).pte d va' = s'.pte d va' := fun va' => hentry d hd _ _
  have hdir : (s'.put (s'.pte d va).ppn x).page d = s'.page d := h.built.exact.page_put (by simp [ho]) hd x
  refine ⟨h.fresh, ⟨h.built.exact.put (by simp [ho]) (by simp [ho]) x, h.built.lo, h.built.owner, fun q hq hof => ?_⟩,
    h.aligned, h.le, fun va' hva' => ?_, fun va' hva' hge => ?_, fun va' hva' => ?_, fun i j hi => ?_, fun i hi => ?_⟩
  · have hne : q ≠ (s'.pte d va).ppn := by
      rintro rfl
      refine hof ?_
      rw [← h.built.keep hq, ho]
      rfl
    rw [Mem.put_page_of_ne x hne]
    exact h.built.page q hq hof
  · rw [hpte]
    exact h.present va' hva'
  · rw [hpte]
    exact h.absent va' hva' hge
  · have hold := h.byte va' hva'
    obtain ⟨hlow', hp'⟩ := h.frame hva'
    unfold Mem.byte Mem.contents at hold ⊢
    rw [hpte]
    by_cases hsame : PGROUNDDOWN va' = va
    · have hpage : s'.pte d va' = s'.pte d va := by rw [← hsame, pte_PGROUNDDOWN]
      have heq : va + va' % PGSIZE = va' := by
        rw [← hsame]
        simp only [PGROUNDDOWN, PGSIZE]
        omega
      rw [hpage] at hold ⊢
      rw [Mem.put_page_self, hx, Table.bytes_ofBytes, Page.byte_move, hold, overlay]
      have hmod : va' % PGSIZE < PGSIZE := Nat.mod_lt _ (by decide)
      by_cases hin : off ≤ va' % PGSIZE ∧ va' % PGSIZE < off + src.length
      · rw [if_pos ⟨hin.1, hin.2, hmod⟩, if_pos (by omega), show va' - (va + off) = va' % PGSIZE - off by omega]
      · rw [if_neg (by tauto), if_neg (by omega)]
    · have hne : (s'.pte d va').ppn ≠ (s'.pte d va).ppn := by
        intro heq
        have hinj := (h.built.exact.pte_inj hd hd hlow' hlow hp' hp heq).2
        rw [hinj, PGROUNDDOWN_of_mod halign] at hsame
        exact hsame rfl
      rw [Mem.put_page_of_ne x hne, hold, overlay, if_neg]
      rintro ⟨hle, hlt⟩
      refine hsame ?_
      simp only [PGROUNDDOWN, PGSIZE] at *
      omega
  · rw [hentry d hd]
    exact h.kernel i j hi
  · rw [Vm.mem_tabs, hdir, ← Vm.mem_tabs]
    exact h.tables i hi

theorem KSpace.image (h : KSpace l D d o s o' s') : Image l D d o s 0 none (fun _ => 0) o' s' := by
  refine ⟨h.fresh, h.built, rfl, Nat.zero_le _, nofun, fun va hva _ => ?_, nofun, fun i j _ => h.kernel i j, fun i _ => ?_⟩
  · rw [Mem.pte, Mem.entry, if_neg fun hp => h.low _ (low_of_lt hva) (Vm.mem_tabs.mpr hp)]
    rfl
  · rw [h.tables]

/-- What `allocuvm` leaves if it fails has been built since. -/
theorem Undone.built (h : Undone D d o s o' s') (hd : d ∈ D) (hlost : ∀ q, o q = .free → o' q ≠ .none) (h0 : Exact D o s) :
    Built D d o s o' s' := by
  refine ⟨h.exact, h.lo, fun q => ?_, fun q hq hof => ?_⟩
  · rcases h.owner q with heq | ⟨hfree, hnone | ⟨i, hi⟩⟩
    · exact .inl heq
    · exact absurd hnone (hlost q hfree)
    · refine .inr ⟨hfree, ?_⟩
      rw [hi]
      rfl
  · refine h.page q hq ?_ fun i hi => ?_
    · rintro rfl
      refine hof ?_
      rw [h0.dir hd]
      rfl
    · refine hof ?_
      rw [hi]
      rfl

theorem Image.wp_allocuvm {Q : ℕ → Mem → Prop} {sz newsz : ℕ} (h : Image l D d o s (PGROUNDUP sz) none M o' s')
    (hzero : ∀ va, PGROUNDUP sz ≤ va → M va = 0) (hsz : sz ≤ KERNBASE)
    (hfail : ∀ o'' s'', Built (insert d D) d o s o'' s'' →
      (newsz < KERNBASE → ∃ m, m < 2 * (PGROUNDUP newsz / PGSIZE) ∧ s'.FailsAt m) → Q 0 s'')
    (hok : ∀ o'' s'', newsz < KERNBASE → Image l D d o s (PGROUNDUP (max sz newsz)) none M o'' s'' → Q (max sz newsz) s'') :
    Wp (allocuvm d sz newsz) Q E s' := by
  have hd : d ∈ insert d D := .inl rfl
  rcases Nat.lt_or_ge newsz sz with hlt | hle
  · unfold allocuvm
    rw [if_neg (by omega), if_pos hlt, wp_pure]
    have hmax : max sz newsz = sz := Nat.max_eq_left hlt.le
    rw [hmax] at hok
    exact hok o' s' (by omega) h
  · have hmax : max sz newsz = newsz := Nat.max_eq_right hle
    rw [hmax] at hok
    have hexact := h.built.exact
    refine wp_allocuvm_exact hexact hd hle (fun hnew i j hge hlt => ?_) (fun o'' s'' hu hlost hcount => ?_)
      fun o'' s'' hnew hg => ?_
    · have hno := h.absent (addr i j) (Nat.lt_trans hlt hnew) hge
      rwa [pte_addr] at hno
    · exact hfail o'' s'' (h.built.trans (hu.built hd hlost hexact)) hcount
    · have hmono : PGROUNDUP sz ≤ PGROUNDUP newsz := by
        simp only [PGROUNDUP, PGSIZE]
        omega
      have htop := PGROUNDUP_le_KERNBASE hnew
      have hhigh : ∀ i j, ¬ Low i → KERNBASE ≤ addr i j := fun i j hi =>
        Nat.le_of_not_lt fun hlt => hi (low_iff.mpr hlt)
      refine hok o'' s'' hnew ⟨h.fresh, h.built.trans hg.built, PGROUNDUP_mod _, htop, fun va hva => ?_, fun va hva hge => ?_,
        fun va hva => ?_, fun i j hi => ?_, fun i hi => ?_⟩
      · rcases Nat.lt_or_ge va (PGROUNDUP sz) with hlt | hge
        · rw [hg.old_pte hd (Nat.lt_of_lt_of_le hva htop) (.inl hlt) (PGROUNDUP_mod _)]
          exact h.present va hlt
        · obtain ⟨r, hr, -⟩ := hg.new_pte (Nat.lt_of_lt_of_le hva htop) hge hva (PGROUNDUP_mod _)
          exact ⟨r, hr⟩
      · rw [hg.old_pte hd hva (.inr hge) (PGROUNDUP_mod _)]
        exact h.absent va hva (by omega)
      · rcases Nat.lt_or_ge va (PGROUNDUP sz) with hlt | hge
        · obtain ⟨hlow, hp⟩ := h.frame hlt
          rw [← h.byte va hlt, Mem.byte, Mem.byte, Mem.contents, Mem.contents,
            hg.old_pte hd hlow (.inl hlt) (PGROUNDUP_mod _), hg.page _ (hexact.frame_ne_free hd hlow hp)
              (hexact.frame_ne_dir hd hlow hp) (hexact.frame_ne_table hd hlow hp)]
        · obtain ⟨r, hr, -, -, hfill⟩ := hg.new_pte (Nat.lt_of_lt_of_le hva htop) hge hva (PGROUNDUP_mod _)
          rw [hzero va hge, Mem.byte, Mem.contents, hr]
          change (Table.bytes (s''.page r)).byte _ = 0
          rw [hfill]
          change (Table.bytes fun _ => Pte.zero).byte _ = 0
          rw [Table.bytes_zero, Page.byte]
          split_ifs <;> rfl
      · rw [hg.old d hd i j fun _ => .inr (htop.trans (hhigh i j hi))]
        exact h.kernel i j hi
      · rw [hg.tables, h.tables i hi]
        refine ⟨fun hor => hor.resolve_right ?_, .inl⟩
        rintro ⟨j, -, hlt⟩
        have := hhigh i j hi
        omega

theorem Image.dir (h : Image l D d o s top guard M o' s') (hva : va < top) : (s'.page d (PDX va)).p = true := by
  by_contra hno
  have hp := (h.frame hva).2
  rw [Mem.pte, Mem.entry, if_neg hno] at hp
  exact absurd hp Bool.false_ne_true

theorem Image.entry_eq (h : Image l D d o s top guard M o' s') (hva : va < top) :
    s'.page (s'.page d (PDX va)).ppn (PTX va) = s'.pte d va := by
  rw [Mem.pte, Mem.entry, if_pos (h.dir hva)]

/-- The page at `va` becomes inaccessible. -/
theorem Image.wp_clearpteu {Q : Unit → Mem → Prop} (h : Image l D d o s top none M o' s') (hva : va < top)
    (halign : va % PGSIZE = 0) (hQ : ∀ s'', Image l D d o s top (some va) M o' s'' → Q () s'') :
    Wp (clearpteu d va) Q E s' := by
  have hd : d ∈ insert d D := .inl rfl
  obtain ⟨hlow, hp⟩ := h.frame hva
  have hdir := h.dir hva
  have hexact := h.built.exact
  unfold clearpteu
  rw [wp_bind]
  refine wp_look (fun hno => absurd (hno.symm.trans hdir) Bool.false_ne_true) fun _ => ?_
  rw [wp_bind, wp_get, h.entry_eq hva, wp_setPte]
  have hentry : ∀ d' ∈ insert d D, ∀ i j, (s'.setEntry (s'.page d (PDX va)).ppn (PTX va) { s'.pte d va with u := false }).entry
      d' i j = if d' = d ∧ i = PDX va ∧ j = PTX va then { s'.pte d va with u := false } else s'.entry d' i j :=
    fun d' hd' i j => hexact.entry_setEntry hd hd' hdir
  have hpage : ∀ q, (∀ i, o' q ≠ .table d i) → (s'.setEntry (s'.page d (PDX va)).ppn (PTX va)
      { s'.pte d va with u := false }).page q = s'.page q := by
    intro q hq
    refine Mem.setEntry_page_of_ne _ ?_
    rintro rfl
    exact hq _ (hexact.table hd hdir)
  have haddr := (low_of_va hlow).2
  rw [PGROUNDDOWN_of_mod halign] at haddr
  have hpte : ∀ va' < KERNBASE, (s'.setEntry (s'.page d (PDX va)).ppn (PTX va) { s'.pte d va with u := false }).pte d va' =
      if PGROUNDDOWN va' = va then { s'.pte d va' with u := false } else s'.pte d va' := by
    intro va' hva'
    rw [Mem.pte, hentry d hd]
    have hiff : PDX va' = PDX va ∧ PTX va' = PTX va ↔ PGROUNDDOWN va' = va := by
      rw [index_iff halign (Nat.lt_trans hlow (by decide)), (low_of_va hva').2]
    by_cases hsame : PGROUNDDOWN va' = va
    · rw [if_pos ⟨rfl, hiff.mpr hsame⟩, if_pos hsame, ← hsame, pte_PGROUNDDOWN]
    · rw [if_neg fun hand => hsame (hiff.mp hand.2), if_neg hsame]
      rfl
  refine hQ _ ⟨h.fresh, ⟨?_, h.built.lo, h.built.owner, fun q hq hof => ?_⟩, h.aligned, h.le, fun va' hva' => ?_,
    fun va' hva' hge => ?_, fun va' hva' => ?_, fun i j hi => ?_, fun i hi => ?_⟩
  · exact hexact.setFlags hd hdir rfl rfl
  · rw [hpage q fun i ho => hof ?_]
    · exact h.built.page q hq hof
    · rw [← h.built.keep hq, ho]
      rfl
  · obtain ⟨r, hr⟩ := h.present va' hva'
    refine ⟨r, ?_⟩
    rw [hpte va' (Nat.lt_of_lt_of_le hva' h.le), hr]
    by_cases hsame : PGROUNDDOWN va' = va
    · rw [if_pos hsame, hsame]
      simp
    · rw [if_neg hsame]
      simp [Ne.symm hsame]
  · rw [hpte va' hva']
    have hno := h.absent va' hva' hge
    split_ifs <;> exact hno
  · rw [← h.byte va' hva', Mem.byte, Mem.byte, Mem.contents, Mem.contents, hpte va' (Nat.lt_of_lt_of_le hva' h.le)]
    obtain ⟨hlow', hp'⟩ := h.frame hva'
    have hppn : (if PGROUNDDOWN va' = va then { s'.pte d va' with u := false } else s'.pte d va').ppn = (s'.pte d va').ppn := by
      split_ifs <;> rfl
    rw [hppn, hpage _ (hexact.frame_ne_table hd hlow' hp')]
  · rw [hentry d hd, if_neg]
    · exact h.kernel i j hi
    · rintro ⟨-, rfl, -⟩
      exact hi (low_of_lt hlow)
  · rw [Vm.mem_tabs, hexact.page_setEntry hd hd hdir, ← Vm.mem_tabs]
    exact h.tables i hi

end Vm

end Xv6
