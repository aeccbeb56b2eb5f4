import Xv6.Vm.Copy

/-!
# `fork` and the memory of parent and child

A successful `copyuvm` gives the child its own copy of the parent's pages. A failed `fork` gives back all pages, unless
the call of `kalloc` that failed was for a page table of the child's user memory.
-/

namespace Xv6

namespace Vm

open Code

variable {l : Layout} {D : Set ℕ} {o o' : ℕ → Owner} {s s' : Mem} {d d' pd sz va va' : ℕ}

/-! ## Writes through a directory -/

/-- User code that runs with directory `d` makes `x` the contents of the page at `va`. -/
def Mem.write (s : Mem) (d : ℕ) (w : ℕ × Table) : Mem := s.put (s.pte d w.1).ppn w.2

def Mem.writes (s : Mem) (d : ℕ) (ws : List (ℕ × Table)) : Mem := ws.foldl (fun s w => s.write d w) s

/-- The pages of user memory are distinct. -/
theorem Exact.pte_inj (h : Exact D o s) (hd : d ∈ D) (hd' : d' ∈ D) (hva : va < KERNBASE) (hva' : va' < KERNBASE)
    (hp : (s.pte d va).p = true) (hp' : (s.pte d' va').p = true) (heq : (s.pte d va).ppn = (s.pte d' va').ppn) :
    d = d' ∧ PGROUNDDOWN va = PGROUNDDOWN va' := by
  have ho := h.frame_pte hd hva hp
  rw [heq, h.frame_pte hd' hva' hp'] at ho
  obtain ⟨rfl, hi, hj⟩ := Owner.frame.inj ho
  refine ⟨rfl, ?_⟩
  rw [← (low_of_va hva).2, ← (low_of_va hva').2, hi, hj]

theorem Exact.write (h : Exact D o s) (hd : d ∈ D) {w : ℕ × Table} (hw : w.1 < KERNBASE) (hp : (s.pte d w.1).p = true) :
    Exact D o (s.write d w) ∧ (∀ d' ∈ D, ∀ va, (s.write d w).pte d' va = s.pte d' va) ∧
      ∀ d' ∈ D, d' ≠ d → ∀ va < KERNBASE, (s.pte d' va).p = true → (s.write d w).contents d' va = s.contents d' va := by
  have ho := h.frame_pte hd hw hp
  have hpte : ∀ d' ∈ D, ∀ va, (s.write d w).pte d' va = s.pte d' va := fun d' hd' va =>
    h.entry_put (by simp [ho]) (by simp [ho]) hd' w.2
  refine ⟨h.put (by simp [ho]) (by simp [ho]) w.2, hpte, fun d' hd' hne va hva hp' => ?_⟩
  rw [Mem.contents, Mem.contents, hpte d' hd']
  refine Mem.put_page_of_ne w.2 fun heq => ?_
  exact hne (h.pte_inj hd' hd hva hw hp' hp heq).1

/-- What is written through one directory is not seen through another. -/
theorem Exact.writes (hd : d ∈ D) (hd' : d' ∈ D) (hne : d' ≠ d) (hva : va < KERNBASE) (ws : List (ℕ × Table)) :
    ∀ {s : Mem}, Exact D o s → (s.pte d' va).p = true → (∀ w ∈ ws, w.1 < KERNBASE ∧ (s.pte d w.1).p = true) →
    (s.writes d ws).contents d' va = s.contents d' va := by
  induction ws with
  | nil => exact fun _ _ _ => rfl
  | cons w ws ih =>
    intro s h hp hall
    have hw := hall w List.mem_cons_self
    obtain ⟨hexact, hpte, hcont⟩ := h.write hd hw.1 hw.2
    rw [Mem.writes, List.foldl_cons]
    refine (ih hexact ?_ fun w' hw' => ?_).trans (hcont d' hd' hne va hva hp)
    · rw [hpte d' hd']
      exact hp
    · rw [hpte d hd]
      exact hall w' (List.mem_cons_of_mem _ hw')

/-! ## The child -/

/-- Directory `d` is a copy of the part below `sz` of what `pd` was in memory `s`. -/
structure CopyOf (l : Layout) (s : Mem) (pd sz d : ℕ) (s' : Mem) : Prop where
  /-- The child maps the pages below `PGROUNDUP(sz)`. -/
  present : ∀ va < KERNBASE, (s'.pte d va).p = true ↔ va < PGROUNDUP sz
  /-- The flags are the parent's. -/
  flags : ∀ va < PGROUNDUP sz, s'.pte d va = { s.pte pd va with ppn := (s'.pte d va).ppn }
  contents : ∀ va < PGROUNDUP sz, s'.contents d va = s.contents pd va
  /-- A page of the child is not one of the parent's and not another one of the child's. -/
  distinct : ∀ va < PGROUNDUP sz, (∀ va' < KERNBASE, (s.pte pd va').p = true → (s'.pte d va).ppn ≠ (s'.pte pd va').ppn) ∧
    ∀ va' < PGROUNDUP sz, (s'.pte d va).ppn = (s'.pte d va').ppn → PGROUNDDOWN va = PGROUNDDOWN va'
  /-- The kernel half is as `setupkvm` makes it. -/
  kernel : ∀ d1 s1, (setupkvm l.data).run s = .ok (some d1) s1 → ∀ i j, ¬ Low i → s'.entry d i j = s1.entry d1 i j
  /-- The parent's directory and pages are unchanged. -/
  parent : s'.page pd = s.page pd ∧ (∀ i j, s'.entry pd i j = s.entry pd i j) ∧
    ∀ va < KERNBASE, (s.pte pd va).p = true → s'.contents pd va = s.contents pd va
  /-- Writes through one directory are not visible through the other. -/
  isolated : (∀ ws : List (ℕ × Table), (∀ w ∈ ws, w.1 < PGROUNDUP sz) → ∀ va < KERNBASE, (s.pte pd va).p = true →
      (s'.writes d ws).contents pd va = s.contents pd va) ∧
    ∀ ws : List (ℕ × Table), (∀ w ∈ ws, w.1 < KERNBASE ∧ (s.pte pd w.1).p = true) → ∀ va < PGROUNDUP sz,
      (s'.writes pd ws).contents d va = s'.contents d va

theorem PGROUNDUP_le_KERNBASE (h : sz < KERNBASE) : PGROUNDUP sz ≤ KERNBASE := by
  simp only [PGROUNDUP, PGSIZE, KERNBASE] at *
  omega

theorem Copied.copyOf {k : ℕ} (hc : Copied l D pd d k o s o' s') (hl : Linked l) (h0 : Exact D o s) (hpd : pd ∈ D)
    (hsz : sz < KERNBASE) (hk : k * PGSIZE = PGROUNDUP sz) (hpresent : ∀ va < PGROUNDUP sz, (s.pte pd va).p = true) :
    CopyOf l s pd sz d s' := by
  have hne : pd ≠ d := by
    rintro rfl
    exact hc.fresh hpd
  have hle := PGROUNDUP_le_KERNBASE hsz
  have hnot := h0.not_of hc.fresh
  have hpd' : pd ∈ insert d D := .inr hpd
  have hpte : ∀ va, s'.pte pd va = s.pte pd va := fun va => hc.parent h0 hpd _ _
  have hcont : ∀ va < KERNBASE, (s.pte pd va).p = true → s'.contents pd va = s.contents pd va := by
    intro va hva hp
    rw [Mem.contents, Mem.contents, hpte]
    exact hc.built.page _ (h0.frame_ne_free hpd hva hp) (hnot _)
  have hexact := hc.built.exact
  obtain ⟨o1, s1, hks, hg⟩ := hc.space
  rw [hk] at hg
  have hnew : ∀ va < PGROUNDUP sz, ∃ r, s'.pte d va = { s.pte pd va with ppn := r } ∧ s'.page r = s.contents pd va := by
    intro va hva
    obtain ⟨r, hent, -, -, hfill⟩ := hg.new_pte (Nat.lt_of_lt_of_le hva hle) (Nat.zero_le _) hva rfl
    exact ⟨r, hent, hfill⟩
  have hin : ∀ va < PGROUNDUP sz, (s'.pte d va).p = true := by
    intro va hva
    obtain ⟨r, hent, -⟩ := hnew va hva
    rw [hent]
    exact hpresent va hva
  refine ⟨fun va hva => ⟨fun hp => ?_, hin va⟩, fun va hva => ?_, fun va hva => ?_, fun va hva => ⟨fun va' hva' hp' heq => ?_,
    fun va' hva' heq => ?_⟩, fun d1 s2 hrun i j hi => ?_, ⟨?_, hc.parent h0 hpd, hcont⟩, fun ws hws va hva hp => ?_,
    fun ws hws va hva => ?_⟩
  · by_contra hge
    have hlow := hks.low (PDX va) (low_of_lt hva)
    rw [hg.old_pte (.inl rfl) hva (.inr (Nat.le_of_not_lt hge)) (PGROUNDUP_mod sz), Mem.pte, Mem.entry,
      if_neg fun hp' => hlow (Vm.mem_tabs.mpr hp')] at hp
    exact absurd hp Bool.false_ne_true
  · obtain ⟨r, hent, -⟩ := hnew va hva
    rw [hent]
  · obtain ⟨r, hent, hfill⟩ := hnew va hva
    rw [Mem.contents, hent]
    exact hfill
  · exact hne.symm (hexact.pte_inj (.inl rfl) hpd' (Nat.lt_of_lt_of_le hva hle) hva' (hin va hva)
      (by rw [hpte]; exact hp') heq).1
  · exact (hexact.pte_inj (.inl rfl) (.inl rfl) (Nat.lt_of_lt_of_le hva hle) (Nat.lt_of_lt_of_le hva' hle) (hin va hva)
      (hin va' hva') heq).2
  · have hsetup : Wp (setupkvm l.data) (fun x s2 => ∀ d1, x = some d1 → ∀ i j, s2.entry d1 i j =
        kentry (kmap l.data) (addr i j)) (fun _ _ => True) s := by
      refine wp_setupkvm_exact hl h0 (fun _ _ _ _ _ => by simp) fun d1 o2 s2 hks' d2 heq i j => ?_
      obtain rfl := Option.some.inj heq
      exact hks'.kernel i j
    rw [wp_ok hsetup hrun d1 rfl i j, ← hks.kernel i j]
    refine hg.old d (.inl rfl) i j fun _ => .inr ?_
    have hhigh : ¬ addr i j < KERNBASE := fun hlt => hi (low_iff.mpr hlt)
    omega
  · exact hc.built.page pd (by simp [h0.dir hpd]) (hnot pd)
  · rw [hexact.writes (.inl rfl) hpd' hne hva ws (by rw [hpte]; exact hp) fun w hw => ?_]
    · exact hcont va hva hp
    · exact ⟨Nat.lt_of_lt_of_le (hws w hw) hle, hin _ (hws w hw)⟩
  · refine hexact.writes hpd' (.inl rfl) hne.symm (Nat.lt_of_lt_of_le hva hle) ws (hin va hva) fun w hw => ?_
    rw [hpte]
    exact hws w hw

/-- If `copyuvm` succeeds, the child has a copy of the parent's memory of its own. If the parent maps nothing above its
size, the two map the same pages. -/
theorem copyuvm_copies (hl : Linked l) (h0 : Exact D o s) (hpd : pd ∈ D) (hsz : sz < KERNBASE)
    (hpresent : ∀ va < PGROUNDUP sz, (s.pte pd va).p = true) : (∃ x s', (copyuvm l.data pd sz).run s = .ok x s') ∧
    ∀ d s', (copyuvm l.data pd sz).run s = .ok (some d) s' → CopyOf l s pd sz d s' ∧
      ((∀ va < KERNBASE, (s.pte pd va).p = true → va < PGROUNDUP sz) →
        ∀ va < KERNBASE, (s'.pte d va).p = (s.pte pd va).p) := by
  have hwp : Wp (copyuvm l.data pd sz) (fun x s' => ∀ d, x = some d → CopyOf l s pd sz d s') (fun _ _ => False) s := by
    refine wp_copyuvm_exact hl h0 hpd hsz hpresent (fun _ _ _ _ _ => nofun) (fun _ _ _ _ _ => nofun)
      (fun _ _ _ _ _ _ _ => nofun) fun d o' s' k hk hc d' heq => ?_
    obtain rfl := Option.some.inj heq
    exact hc.copyOf hl h0 hpd hsz hk hpresent
  refine ⟨?_, fun d s' hrun => ?_⟩
  · obtain ⟨x, s', hrun, -⟩ := wp_returns hwp
    exact ⟨x, s', hrun⟩
  · have hcopy := wp_ok hwp hrun d rfl
    refine ⟨hcopy, fun habove va hva => ?_⟩
    have hiff := hcopy.present va hva
    rw [Bool.eq_iff_iff, hiff]
    exact ⟨hpresent va, habove va hva⟩

/-! ## A parent with one page -/

/-- A kernel whose data begin one page after its text. -/
def smallLayout : Layout := ⟨0x80101000, by decide, by decide⟩

theorem smallLayout_linked : Linked smallLayout := ⟨by decide, by decide, by decide⟩

theorem onePage_present {k : ℕ} (hva : va < PGROUNDUP PGSIZE) : ((onePage k).pte 1 va).p = true :=
  (onePage_covers va (Nat.lt_of_lt_of_le hva (by decide))).mpr hva

theorem onePage_firstFails {k n : ℕ} (h : (onePage k).FirstFails n) : k ≤ n := by
  rcases h.1 with hf | hlen
  · exact absurd hf Bool.false_ne_true
  · rwa [show (onePage k).freelist.length = k from List.length_range'] at hlen

theorem copyuvm_copies_onePage : ∃ x s', (copyuvm smallLayout.data 1 PGSIZE).run (onePage 67) = .ok x s' :=
  (copyuvm_copies smallLayout_linked (onePage_exact (k := 67) (by decide)) (Set.mem_singleton 1) (by decide)
    fun _ => onePage_present).1

/-- A page of the parent above its size is not copied. -/
theorem copyuvm_not_above : ((onePage 65).pte 1 0).p = true ∧
    ∃ d s', (copyuvm smallLayout.data 1 0).run (onePage 65) = .ok (some d) s' ∧ (s'.pte d 0).p = false := by
  refine ⟨onePage_present (lt_PGROUNDUP.mpr (by decide)), ?_⟩
  have hnone : ∀ va < PGROUNDUP 0, ((onePage 65).pte 1 va).p = true := by
    rw [PGROUNDUP_zero]
    exact nofun
  have hwp : Wp (copyuvm smallLayout.data 1 0) (fun x s' => ∃ d, x = some d ∧ (s'.pte d 0).p = false)
      (fun _ _ => False) (onePage 65) := by
    refine wp_copyuvm_exact smallLayout_linked (onePage_exact (k := 65) (by decide)) (Set.mem_singleton 1) (by decide)
      hnone (fun s' n _ hn hfirst => ?_) (fun _ _ _ hlt _ => absurd hlt (Nat.not_lt_zero _))
      (fun _ _ _ _ hlt _ _ => absurd hlt (Nat.not_lt_zero _)) fun d o' s' k hk hc => ⟨d, rfl, ?_⟩
    · exact absurd (onePage_firstFails hfirst) (by omega)
    · have hcopy := hc.copyOf smallLayout_linked (onePage_exact (k := 65) (by decide)) (Set.mem_singleton 1) (by decide) hk
        hnone
      have hiff := hcopy.present 0 (by decide)
      rw [PGROUNDUP_zero] at hiff
      simpa using hiff
  obtain ⟨x, s', hrun, d, rfl, hno⟩ := wp_returns hwp
  exact ⟨d, s', hrun, hno⟩

end Vm

end Xv6
