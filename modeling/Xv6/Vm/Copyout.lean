import Xv6.Vm.ExecImage

/-!
# `copyout` to the new image

`copyout` writes to pages for user code only. It fails at the guard page and at the pages of the kernel, and it uses a
null pointer where the kernel has no page table.
-/

namespace Xv6

open List

namespace Vm

open Code

variable {l : Layout} {D : Set ℕ} {d : ℕ} {o o' : ℕ → Owner} {s s' s'' s3 : Mem} {top va : ℕ} {guard : Option ℕ}
  {M : ℕ → UInt8} {E : Panic → Mem → Prop} {src : List UInt8}

/-! ## `uva2ka` -/

/-- The page of user memory at `va`, unless it is the guard page. -/
theorem Image.wp_uva2ka {Q : Option ℕ → Mem → Prop} (him : Image l D d o s top guard M o' s') (hva : va < top)
    (hguard : guard = some (PGROUNDDOWN va) → Q none s')
    (huser : guard ≠ some (PGROUNDDOWN va) → Q (some (s'.pte d va).ppn) s') : Wp (uva2ka d va) Q E s' := by
  obtain ⟨r, hr⟩ := him.present va hva
  unfold uva2ka
  rw [wp_bind]
  refine wp_look (fun hno => absurd (hno.symm.trans (him.dir hva)) Bool.false_ne_true) fun _ => ?_
  rw [wp_bind, wp_get, him.entry_eq hva]
  dsimp only
  rw [hr] at huser ⊢
  by_cases hg : guard = some (PGROUNDDOWN va)
  · simp only [hg, ne_eq, not_true_eq_false, decide_false, Bool.true_eq_false, if_false, if_true, wp_pure]
    exact hguard hg
  · simp only [hg, ne_eq, not_false_eq_true, decide_true, Bool.true_eq_false, if_false, wp_pure]
    exact huser hg

theorem kentry_user (ks : List (ℕ × ℕ × ℕ × Bool)) (a : ℕ) : (kentry ks a).u = false := by
  unfold kentry
  split <;> rfl

/-- There is no page for user code above `KERNBASE`; without a page table, a null pointer is used. -/
theorem Image.wp_uva2ka_kernel {Q : Option ℕ → Mem → Prop} (him : Image l D d o s top guard M o' s') (hva : KERNBASE ≤ va)
    (h32 : va < 2 ^ 32) (hkernel : PDX va ∈ kernelTabs → Q none s') (hnull : PDX va ∉ kernelTabs → E .nullPte s') :
    Wp (uva2ka d va) Q E s' := by
  have hhigh := not_low_of_le hva h32
  unfold uva2ka
  rw [wp_bind]
  refine wp_look (fun hno => ?_) fun hp => ?_
  · rw [wp_throw]
    refine hnull fun hmem => ?_
    rw [← him.tables _ hhigh, Vm.mem_tabs, hno] at hmem
    exact absurd hmem Bool.false_ne_true
  · have hmem := (him.tables _ hhigh).mp (Vm.mem_tabs.mpr hp)
    have hentry : s'.page (s'.page d (PDX va)).ppn (PTX va) = kentry (kmap l.data) (addr (PDX va) (PTX va)) := by
      rw [← him.kernel _ _ hhigh, Mem.entry, if_pos hp]
    rw [wp_bind, wp_get, hentry]
    dsimp only
    split_ifs with hno hu
    · exact hkernel hmem
    · exact hkernel hmem
    · exact absurd (kentry_user _ _) hu

/-! ## The loop -/

/-- Only pages for user code have been written to. -/
structure Writes (d top : ℕ) (guard : Option ℕ) (s s' : Mem) : Prop where
  pte : ∀ va, s'.pte d va = s.pte d va
  page : ∀ q, (∀ va < top, guard ≠ some (PGROUNDDOWN va) → (s.pte d va).ppn ≠ q) → s'.page q = s.page q

theorem Writes.refl : Writes d top guard s s := ⟨fun _ => rfl, fun _ _ => rfl⟩

theorem Writes.trans (h : Writes d top guard s s') (h' : Writes d top guard s' s'') : Writes d top guard s s'' := by
  refine ⟨fun va => (h'.pte va).trans (h.pte va), fun q hq => ?_⟩
  rw [h'.page q fun va hva hg => ?_, h.page q hq]
  rw [h.pte]
  exact hq va hva hg

theorem Image.writes_put (him : Image l D d o s top guard M o' s') (hva : va < top) (hg : guard ≠ some (PGROUNDDOWN va))
    (x : Table) : Writes d top guard s' (s'.put (s'.pte d va).ppn x) := by
  obtain ⟨hlow, hp⟩ := him.frame hva
  have hd : d ∈ insert d D := .inl rfl
  have ho := him.built.exact.frame_pte hd hlow hp
  refine ⟨fun va' => him.built.exact.entry_put (by simp [ho]) (by simp [ho]) hd x, fun q hq => ?_⟩
  exact Mem.put_page_of_ne x (hq va hva hg).symm

/-- What `copyout` of `src` to `va` has done. -/
structure Copies (d top : ℕ) (guard : Option ℕ) (va : ℕ) (src : List UInt8) (M : ℕ → UInt8) (s : Mem) (b : Bool)
    (M' : ℕ → UInt8) (s' : Mem) : Prop where
  writes : Writes d top guard s s'
  outside : ∀ a, a < va ∨ va + src.length ≤ a → M' a = M a
  ok : b = true → (∀ a, va ≤ a → a < va + src.length → guard ≠ some (PGROUNDDOWN a)) ∧ M' = overlay M va src
  bad : b = false → ∃ a, va ≤ a ∧ a < va + src.length ∧ guard = some (PGROUNDDOWN a)

theorem PGROUNDDOWN_eq {a m : ℕ} (hle : va ≤ a) (hlt : a < va + m) (hm : va - PGROUNDDOWN va + m ≤ PGSIZE) :
    PGROUNDDOWN a = PGROUNDDOWN va := by
  simp only [PGROUNDDOWN, PGSIZE] at *
  omega

theorem PGROUNDDOWN_add_le (htop : top % PGSIZE = 0) (hva : va < top) : PGROUNDDOWN va + PGSIZE ≤ top := by
  simp only [PGROUNDDOWN, PGSIZE] at *
  omega

theorem Copies.nil : Copies d top guard va [] M s true M s :=
  ⟨.refl, fun _ _ => rfl, fun _ => ⟨fun a hle hlt => absurd hlt (by simpa using hle), (overlay_nil M va).symm⟩, nofun⟩

/-- The bytes for the first page, and then the others. -/
theorem Copies.cons {m next : ℕ} {b : Bool} {M' : ℕ → UInt8} (hm : m ≤ src.length) (hnext : m < src.length → next = va + m)
    (hw : Writes d top guard s s') (hg : ∀ a, va ≤ a → a < va + m → guard ≠ some (PGROUNDDOWN a))
    (h : Copies d top guard next (src.drop m) (overlay M va (src.take m)) s' b M' s'') :
    Copies d top guard va src M s b M' s'' := by
  have hlen : (src.take m).length = m := by rw [length_take, Nat.min_eq_left hm]
  have hdrop : (src.drop m).length = src.length - m := length_drop
  refine ⟨hw.trans h.writes, fun a ha => ?_, fun hb => ?_, fun hb => ?_⟩
  · rw [h.outside a (by omega), overlay_of_lt (by omega)]
  · obtain ⟨hrest, hM⟩ := h.ok hb
    refine ⟨fun a hle hlt => ?_, ?_⟩
    · rcases Nat.lt_or_ge a (va + m) with hlt' | hge
      · exact hg a hle hlt'
      · exact hrest a (by omega) (by omega)
    · rcases Nat.lt_or_ge m src.length with hlt | hge
      · have happ := overlay_append M va (src.take m) (src.drop m)
        rw [hlen, take_append_drop] at happ
        rw [hM, hnext hlt, happ]
      · rw [hM, drop_eq_nil_of_le hge, overlay_nil, take_of_length_le hge]
  · obtain ⟨a, hle, hlt, ha⟩ := h.bad hb
    exact ⟨a, by omega, by omega, ha⟩

theorem wp_copyoutLoop (n : ℕ) : ∀ {s' : Mem} {M : ℕ → UInt8} (va : ℕ) (src : List UInt8), src.length ≤ n →
    va + src.length ≤ top → Image l D d o s top guard M o' s' → Wp (copyoutBytes d va src)
      (fun b s'' => ∃ M', Image l D d o s top guard M' o' s'' ∧ Copies d top guard va src M s' b M' s'') E s' := by
  induction n using Nat.strong_induction_on with
  | _ n ih =>
    intro s' M va src hn htop him
    by_cases hpos : 0 < src.length
    · have hva : va < top := by omega
      have hle := him.le
      have hdown : PGROUNDDOWN va ≤ va ∧ va - PGROUNDDOWN va < PGSIZE ∧ PGROUNDDOWN va % PGSIZE = 0 := by
        simp only [PGROUNDDOWN, PGSIZE]
        omega
      have hidem : PGROUNDDOWN (PGROUNDDOWN va) = PGROUNDDOWN va := PGROUNDDOWN_of_mod hdown.2.2
      unfold copyoutBytes
      rw [dif_pos hpos]
      dsimp only
      rw [wp_bind]
      refine him.wp_uva2ka (by omega) (fun hg => ?_) fun hg => ?_
      · rw [hidem] at hg
        exact ⟨M, him, .refl, fun _ _ => rfl, by simp, fun _ => ⟨va, le_rfl, by omega, hg⟩⟩
      · have hg' := hg
        rw [hidem] at hg
        rw [wp_bind, wp_memmove]
        set m := if PGSIZE - (va - PGROUNDDOWN va) > src.length then src.length else PGSIZE - (va - PGROUNDDOWN va) with hm
        have hmle : 0 < m ∧ m ≤ src.length ∧ va - PGROUNDDOWN va + m ≤ PGSIZE ∧
            (m < src.length → PGROUNDDOWN va + PGSIZE = va + m) := by
          rw [hm]
          split_ifs <;> omega
        have hlen : (src.take m).length = m := by rw [length_take, Nat.min_eq_left hmle.2.1]
        have hpage : PGROUNDDOWN va < top := by omega
        have hmove := him.move hpage hdown.2.2 (va - PGROUNDDOWN va) (src.take m) (by omega)
        have hsum : PGROUNDDOWN va + (va - PGROUNDDOWN va) = va := by omega
        rw [hsum] at hmove
        have hwrites := him.writes_put hpage hg' (Table.ofBytes ((Table.bytes
          (s'.page (s'.pte d (PGROUNDDOWN va)).ppn)).move (va - PGROUNDDOWN va) (src.take m)))
        have hnext := PGROUNDDOWN_add_le him.aligned hva
        have hmod : (PGROUNDDOWN va + PGSIZE) % 2 ^ 32 = PGROUNDDOWN va + PGSIZE :=
          Nat.mod_eq_of_lt (Nat.lt_of_le_of_lt (hnext.trans hle) (by decide))
        have hdrop : (src.drop m).length = src.length - m := length_drop
        rw [hmod]
        refine wp_post (ih (n - 1) (by omega) (PGROUNDDOWN va + PGSIZE) (src.drop m) (by omega) (by omega) hmove) ?_
        rintro b s'' ⟨M', him', hc⟩
        refine ⟨M', him', hc.cons hmle.2.1 (fun hlt => hmle.2.2.2 hlt) hwrites fun a hle' hlt => ?_⟩
        rw [PGROUNDDOWN_eq hle' hlt hmle.2.2.1]
        exact hg
    · obtain rfl := length_eq_zero_iff.mp (Nat.le_zero.mp (Nat.le_of_not_lt hpos))
      unfold copyoutBytes
      rw [dif_neg (by simp)]
      exact ⟨M, him, .nil⟩

end Vm

end Xv6
