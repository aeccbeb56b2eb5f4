import Xv6.Vm.Stack

/-!
# `copyout` and missing page tables

`exec` lowers `sp` by the length of a string before any check. A string that is longer than the new image by more than
the size of the device mappings makes `sp` an address between the kernel's mappings, where `uva2ka` uses a null pointer.
-/

namespace Xv6

open List

namespace Vm

open Code

variable {l : Layout} {D : Set ℕ} {d : ℕ} {o o' : ℕ → Owner} {s s' : Mem} {top : ℕ} {M : ℕ → UInt8}
  {argv : List (List UInt8)}

/-- The calls of `copyout` that `exec` makes for an image of size `top` never use a null pointer, write to pages for user
code only, and fail if the arguments do not fit. -/
structure CopyoutSafe (d top : ℕ) (argv : List (List UInt8)) (s : Mem) : Prop where
  returns : ∃ r s', (execPush d top argv).run s = .ok r s'
  writes : ∀ r s', (execPush d top argv).run s = .ok r s' → Writes d top (some (top - 2 * PGSIZE)) s s'
  fails : ∀ r s', (execPush d top argv).run s = .ok r s' → PGSIZE < stackUse argv + (argv.length + 4) * 4 → r = none

theorem copyoutSafe_of (htop : 2 * PGSIZE ≤ top) (him : Image l D d o s top (some (top - 2 * PGSIZE)) M o' s')
    (hlen : ∀ arg ∈ argv, arg.length < KERNBASE) (hno : ¬ NullArg top 0 0 argv) : CopyoutSafe d top argv s' := by
  have hpush := wp_execPush htop him hlen
  refine ⟨?_, fun r s'' hrun => (wp_ok hpush hrun).writes, fun r s'' hrun hover => ?_⟩
  · obtain ⟨r, s'', hrun, -⟩ := wp_returns (wp_mono hpush (fun _ _ h => h) fun _ _ he => absurd he.2 hno)
    exact ⟨r, s'', hrun⟩
  · by_contra hsome
    have hfits := (wp_ok hpush hrun).fits.mp hsome
    omega

theorem not_copyoutSafe (htop : 2 * PGSIZE ≤ top) (him : Image l D d o s top (some (top - 2 * PGSIZE)) M o' s')
    (hlen : ∀ arg ∈ argv, arg.length < KERNBASE) (hnull : NullArg top 0 0 argv) : ¬ CopyoutSafe d top argv s' := by
  intro hsafe
  obtain ⟨r, s'', hrun⟩ := hsafe.returns
  exact (wp_ok (wp_execPush htop him hlen) hrun).safe hnull

/-- `copyout` is safe unless a string is longer than what is left of the image by more than 32 MB, and by no more than
the 0x72000000 bytes that reach down to the mapping of physical memory, and the strings before it fit in the stack page. -/
theorem copyout_safe_iff (htop : 2 * PGSIZE ≤ top) (him : Image l D d o s top (some (top - 2 * PGSIZE)) M o' s')
    (hlen : ∀ arg ∈ argv, arg.length < KERNBASE) : CopyoutSafe d top argv s' ↔ ¬ NullArg top 0 0 argv :=
  ⟨fun hsafe hnull => not_copyoutSafe htop him hlen hnull hsafe, copyoutSafe_of htop him hlen⟩

/-! ## An image of two pages -/

/-- Code that makes an image. -/
def makeImage : VmCode ℕ := do
  match ← setupkvm smallLayout.data with
  | none => pure 0
  | some d =>
    let _ ← allocuvm d 0 (2 * PGSIZE)
    clearpteu d 0
    pure d

/-- An image that has only a guard page and a stack page. -/
theorem exists_image : ∃ d o' s', Image smallLayout {1} d (onePageOwner 80) (onePage 80) (2 * PGSIZE) (some 0)
    (fun _ => 0) o' s' := by
  have hwp : Wp makeImage (fun d s' => ∃ o', Image smallLayout {1} d (onePageOwner 80) (onePage 80) (2 * PGSIZE)
      (some 0) (fun _ => 0) o' s') (fun _ _ => False) (onePage 80) := by
    unfold makeImage
    rw [wp_bind]
    refine wp_setupkvm_exact smallLayout_linked (onePage_exact (k := 80) (by decide)) (fun s' n _ hn hfirst => ?_)
      fun d o' s' hks => ?_
    · exact absurd (onePage_firstFails hfirst) (by omega)
    · have him : Image smallLayout {1} d (onePageOwner 80) (onePage 80) (PGROUNDUP 0) none (fun _ => 0) o' s' := by
        rw [PGROUNDUP_zero]
        exact hks.image
      have htop : PGROUNDUP (max 0 (2 * PGSIZE)) = 2 * PGSIZE := by decide
      rw [wp_bind]
      refine him.wp_allocuvm (fun _ _ => rfl) (by decide) (fun o'' s'' _ hcount => ?_) fun o'' s'' _ him' => ?_
      · obtain ⟨m, hm, hfails⟩ := hcount (by decide)
        rw [hks.calls.failsAt_iff] at hfails
        have hm' : m < 4 := Nat.lt_of_lt_of_le hm (by decide)
        rcases hfails with hf | hle
        · exact absurd hf Bool.false_ne_true
        · rw [show (onePage 80).freelist.length = 80 from length_range'] at hle
          omega
      · rw [htop] at him'
        rw [wp_bind]
        exact him'.wp_clearpteu (by decide) rfl fun s3 him3 => ⟨o'', him3⟩
  obtain ⟨d, s', -, o', him⟩ := wp_returns hwp
  exact ⟨d, o', s', him⟩

/-- A string of 32 MB and 8 KB, for the image of two pages. -/
def longArg : List UInt8 := List.replicate 0x2002000 65

theorem longArg_null : NullArg (2 * PGSIZE) 0 0 [longArg] := by
  have hroom : room longArg = 0x2002004 := by
    rw [room, longArg, length_replicate]
  refine ⟨0, by simp, by decide, ?_⟩
  simp only [take_zero, Nat.zero_add, take_succ_cons, stackUse, map_nil, map_cons, sum_nil,
    sum_cons, hroom, PGSIZE]
  omega

theorem longArg_length : ∀ arg ∈ [longArg], arg.length < KERNBASE := by
  intro arg harg
  rw [mem_singleton.mp harg, longArg, length_replicate]
  decide

/-- With the long string, `uva2ka` uses a null pointer. -/
theorem copyout_null : ∃ d s', ¬ CopyoutSafe d (2 * PGSIZE) [longArg] s' ∧
    ∃ o', Image smallLayout {1} d (onePageOwner 80) (onePage 80) (2 * PGSIZE) (some 0) (fun _ => 0) o' s' := by
  obtain ⟨d, o', s', him⟩ := exists_image
  exact ⟨d, s', not_copyoutSafe le_rfl him longArg_length longArg_null, o', him⟩

theorem noArgs_length : ∀ arg ∈ ([] : List (List UInt8)), arg.length < KERNBASE := nofun

theorem copyout_safe_noArgs : ∃ d s', CopyoutSafe d (2 * PGSIZE) [] s' := by
  obtain ⟨d, o', s', him⟩ := exists_image
  exact ⟨d, s', (copyout_safe_iff le_rfl him noArgs_length).mpr not_nullArg_nil⟩

end Vm

end Xv6
