import Xv6.Vm.Exec

/-!
# The image that `exec` loads

The loop over the program headers keeps an image whose bytes are the zero memory with the bytes of the segments over it,
in the order of the headers.
-/

namespace Xv6

open List

namespace Vm

open Code

variable {l : Layout} {D : Set ℕ} {d : ℕ} {o o' : ℕ → Owner} {s s' : Mem} {top va addr offset sz i h : ℕ}
  {guard : Option ℕ} {M : ℕ → UInt8} {E : Panic → Mem → Prop} {rd : Reader}

theorem overlay_nil (M : ℕ → UInt8) (va : ℕ) : overlay M va [] = M := by
  funext a
  rw [overlay, if_neg]
  simp only [length_nil]
  omega

theorem overlay_append (M : ℕ → UInt8) (va : ℕ) (xs ys : List UInt8) :
    overlay (overlay M va xs) (va + xs.length) ys = overlay M va (xs ++ ys) := by
  funext a
  unfold overlay
  simp only [length_append]
  by_cases hys : va + xs.length ≤ a ∧ a < va + xs.length + ys.length
  · rw [if_pos hys, if_pos (by omega), getD_append_right _ _ _ _ (by omega)]
    congr 1
    omega
  · rw [if_neg hys]
    by_cases hxs : va ≤ a ∧ a < va + xs.length
    · rw [if_pos hxs, if_pos (by omega), getD_append _ _ _ _ (by omega)]
    · rw [if_neg hxs, if_neg (by omega)]

theorem overlay_of_lt {src : List UInt8} {a : ℕ} (hlt : a < va ∨ va + src.length ≤ a) : overlay M va src a = M a := by
  rw [overlay, if_neg (by omega)]

/-! ## `loaduvm` -/

theorem wp_memmove {Q : Unit → Mem → Prop} {r off : ℕ} {src : List UInt8} : Wp (memmove r off src) Q E s ↔
    Q () (s.put r (Table.ofBytes ((Table.bytes (s.page r)).move off src))) := Iff.rfl

/-- The bytes that the calls of `readi` for a segment return from offset `i` on, if each returns all it is to. -/
def segBytes (rd : Reader) (h offset sz i : ℕ) : Option (List UInt8) :=
  if _h : i < sz then
    match rd.read (.seg h (i / PGSIZE)) ((offset + i) % 2 ^ 32) (if sz - i < PGSIZE then sz - i else PGSIZE) with
    | none => none
    | some bs =>
      if bs.length ≠ (if sz - i < PGSIZE then sz - i else PGSIZE) then none
      else (segBytes rd h offset sz (i + PGSIZE)).map (bs ++ ·)
  else some []
termination_by sz - i
decreasing_by
  simp only [PGSIZE]
  omega

theorem segBytes_end (hi : sz ≤ i) : segBytes rd h offset sz i = some [] := by
  unfold segBytes
  rw [dif_neg (by omega)]

theorem segBytes_step {bs xs : List UInt8} (hlt : i < sz)
    (hread : rd.read (.seg h (i / PGSIZE)) ((offset + i) % 2 ^ 32) (if sz - i < PGSIZE then sz - i else PGSIZE) = some bs)
    (hlen : bs.length = if sz - i < PGSIZE then sz - i else PGSIZE)
    (hrest : segBytes rd h offset sz (i + PGSIZE) = some xs) : segBytes rd h offset sz i = some (bs ++ xs) := by
  rw [segBytes, dif_pos hlt, hread]
  simp only [hlen, ne_eq, not_true_eq_false, if_false, hrest, Option.map_some]

/-- What `loaduvm` from offset `i` on makes of the image with bytes `M`. -/
structure Loads (rd : Reader) (h addr offset sz i : ℕ) (M : ℕ → UInt8) (b : Bool) (M' : ℕ → UInt8) : Prop where
  outside : ∀ a, a < addr + i ∨ addr + sz ≤ a → M' a = M a
  loaded : b = true → ∃ xs, segBytes rd h offset sz i = some xs ∧ M' = overlay M (addr + i) xs

theorem Loads.done (hi : sz ≤ i) : Loads rd h addr offset sz i M true M :=
  ⟨fun _ _ => rfl, fun _ => ⟨[], segBytes_end hi, (overlay_nil M _).symm⟩⟩

theorem wp_loadLoop (haddr : addr % PGSIZE = 0) (htop : addr + sz ≤ top) (n : ℕ) : ∀ {s' : Mem} {M : ℕ → UInt8} (i : ℕ),
    sz - i ≤ n → i % PGSIZE = 0 → Image l D d o s top guard M o' s' → Wp (loadLoop rd h d addr offset sz i)
      (fun b s'' => ∃ M', Image l D d o s top guard M' o' s'' ∧ Loads rd h addr offset sz i M b M') E s' := by
  induction n using Nat.strong_induction_on with
  | _ n ih =>
    intro s' M i hn hi him
    unfold loadLoop
    by_cases hlt : i < sz
    · have hva : addr + i < top := by omega
      have halign : (addr + i) % PGSIZE = 0 := by
        rw [Nat.add_mod, haddr, hi]
        rfl
      have hn' : (if sz - i < PGSIZE then sz - i else PGSIZE) ≤ PGSIZE ∧
          (if sz - i < PGSIZE then sz - i else PGSIZE) ≤ sz - i := by split_ifs <;> omega
      rw [dif_pos hlt, wp_bind]
      refine wp_look (fun hno => absurd (hno.symm.trans (him.dir hva)) Bool.false_ne_true) fun _ => ?_
      rw [wp_bind, wp_get, him.entry_eq hva]
      cases hread : rd.read (.seg h (i / PGSIZE)) ((offset + i) % 2 ^ 32) (if sz - i < PGSIZE then sz - i else PGSIZE) with
      | none =>
        simp only [hread, wp_pure]
        exact ⟨M, him, fun _ _ => rfl, by simp⟩
      | some bs =>
        have hle := rd.le hread
        have hmove := him.move hva halign 0 bs (by omega)
        rw [Nat.add_zero] at hmove
        simp only [hread]
        rw [wp_bind, wp_memmove]
        by_cases hlen : bs.length = if sz - i < PGSIZE then sz - i else PGSIZE
        · rw [if_neg (not_not.mpr hlen)]
          refine wp_post (ih (n - 1) (by omega) (i + PGSIZE) (by simp only [PGSIZE] at *; omega)
            (by rw [Nat.add_mod_right, hi]) hmove) ?_
          rintro b s'' ⟨M', him', hout, hloaded⟩
          refine ⟨M', him', fun a ha => ?_, fun hb => ?_⟩
          · rw [hout a (by omega), overlay_of_lt (by omega)]
          · obtain ⟨xs, hxs, rfl⟩ := hloaded hb
            refine ⟨bs ++ xs, segBytes_step hlt hread hlen hxs, ?_⟩
            by_cases hlast : sz - i < PGSIZE
            · rw [segBytes_end (by omega)] at hxs
              obtain rfl := Option.some.inj hxs
              rw [overlay_nil, append_nil]
            · rw [if_neg hlast] at hlen
              rw [← overlay_append, hlen, Nat.add_assoc]
        · rw [if_pos hlen]
          exact ⟨_, hmove, fun a ha => overlay_of_lt (by omega), by simp⟩
    · rw [dif_neg hlt]
      exact ⟨M, him, .done (by omega)⟩

/-- `loaduvm` of a part of the image. -/
theorem Image.wp_loaduvm {Q : Bool → Mem → Prop} (him : Image l D d o s top guard M o' s') (haddr : addr % PGSIZE = 0)
    (htop : addr + sz ≤ top) (hQ : ∀ b M' s'', Image l D d o s top guard M' o' s'' → Loads rd h addr offset sz 0 M b M' → Q b s'') :
    Wp (loaduvmBytes rd h d addr offset sz) Q E s' := by
  unfold loaduvmBytes
  rw [if_neg (not_not.mpr haddr)]
  refine wp_post (wp_loadLoop haddr htop sz 0 (Nat.sub_le ..) rfl him) ?_
  rintro b s'' ⟨M', him', hloads⟩
  exact hQ b M' s'' him' hloads

/-! ## The program headers -/

/-- The zero memory, or `M`, with the bytes of the segments over it, as they are read. -/
def overlayHeaders (rd : Reader) : (left i off : ℕ) → (ℕ → UInt8) → Option (ℕ → UInt8)
  | 0, _, _, M => some M
  | left + 1, i, off, M =>
    match rd.read (.ph i) off Sys.PROGHDR with
    | none => none
    | some bs =>
      let ph := Sys.Proghdr.read bs
      let next := (off + Sys.PROGHDR) % 2 ^ 32
      if ph.type ≠ ELF_PROG_LOAD then overlayHeaders rd left (i + 1) next M
      else match segBytes rd i ph.off ph.filesz 0 with
        | none => none
        | some xs => overlayHeaders rd left (i + 1) next (overlay M ph.vaddr xs)

theorem field_lt (bs : List UInt8) (off : ℕ) : Sys.field bs off 4 < 2 ^ 32 := by
  unfold Sys.field
  refine Nat.lt_of_lt_of_le (leVal_lt _) ?_
  have hlen : ((bs.drop off).take 4).length ≤ 4 := length_take_le ..
  exact (Nat.pow_le_pow_right (by decide) hlen).trans (by decide)

/-- What the loop over the headers leaves: an image with the bytes of the segments, or something to be freed. -/
def HeadersDone (l : Layout) (D : Set ℕ) (d : ℕ) (o : ℕ → Owner) (s : Mem) (M' : Option (ℕ → UInt8)) (r : Option ℕ) (s' : Mem) :
    Prop :=
  match r with
  | none => ∃ o', Built (insert d D) d o s o' s'
  | some sz => ∃ o' M, M' = some M ∧ sz < KERNBASE ∧ Image l D d o s (PGROUNDUP sz) none M o' s' ∧
    ∀ a, PGROUNDUP sz ≤ a → M a = 0

theorem wp_execHeaders (left : ℕ) : ∀ {s' : Mem} {o' : ℕ → Owner} {M : ℕ → UInt8} (i off sz : ℕ), sz < KERNBASE →
    Image l D d o s (PGROUNDUP sz) none M o' s' → (∀ a, PGROUNDUP sz ≤ a → M a = 0) →
    Wp (execHeaders rd d left i off sz) (HeadersDone l D d o s (overlayHeaders rd left i off M)) E s' := by
  induction left with
  | zero =>
    intro s' o' M i off sz hsz him hzero
    exact ⟨o', M, rfl, hsz, him, hzero⟩
  | succ left ih =>
    intro s' o' M i off sz hsz him hzero
    have hbad : HeadersDone l D d o s (overlayHeaders rd (left + 1) i off M) none s' := ⟨o', him.built⟩
    unfold execHeaders
    cases hread : rd.read (.ph i) off Sys.PROGHDR with
    | none => exact hbad
    | some bs =>
      have hspec : overlayHeaders rd (left + 1) i off M =
          if (Sys.Proghdr.read bs).type ≠ ELF_PROG_LOAD then overlayHeaders rd left (i + 1) ((off + Sys.PROGHDR) % 2 ^ 32) M
          else match segBytes rd i (Sys.Proghdr.read bs).off (Sys.Proghdr.read bs).filesz 0 with
            | none => none
            | some xs => overlayHeaders rd left (i + 1) ((off + Sys.PROGHDR) % 2 ^ 32)
              (overlay M (Sys.Proghdr.read bs).vaddr xs) := by
        rw [overlayHeaders, hread]
      have hvaddr : (Sys.Proghdr.read bs).vaddr < 2 ^ 32 := field_lt bs 8
      have hmemsz : (Sys.Proghdr.read bs).memsz < 2 ^ 32 := field_lt bs 20
      dsimp only
      generalize Sys.Proghdr.read bs = ph at *
      by_cases hlen : bs.length ≠ Sys.PROGHDR
      · rw [if_pos hlen]
        exact hbad
      rw [if_neg hlen]
      by_cases htype : ph.type ≠ ELF_PROG_LOAD
      · rw [if_pos htype, hspec, if_pos htype]
        exact ih _ _ sz hsz him hzero
      rw [if_neg htype]
      by_cases hfile : ph.memsz < ph.filesz
      · rw [if_pos hfile]
        exact hbad
      rw [if_neg hfile]
      by_cases hwrap : (ph.vaddr + ph.memsz) % 2 ^ 32 < ph.vaddr
      · rw [if_pos hwrap]
        exact hbad
      · rw [if_neg hwrap]
        have hsum : (ph.vaddr + ph.memsz) % 2 ^ 32 = ph.vaddr + ph.memsz := by
          refine Nat.mod_eq_of_lt ?_
          by_contra hge
          omega
        rw [hsum, wp_bind]
        refine him.wp_allocuvm hzero hsz.le (fun o'' s'' hb _ => ?_) fun o'' s'' hnew him' => ?_
        · rw [if_pos rfl]
          exact ⟨o'', hb⟩
        · have hmono : PGROUNDUP sz ≤ PGROUNDUP (max sz (ph.vaddr + ph.memsz)) := by
            simp only [PGROUNDUP, PGSIZE]
            omega
          have hzero' : ∀ a, PGROUNDUP (max sz (ph.vaddr + ph.memsz)) ≤ a → M a = 0 := fun a ha => hzero a (by omega)
          have htop : ph.vaddr + ph.filesz ≤ PGROUNDUP (max sz (ph.vaddr + ph.memsz)) := by
            simp only [PGROUNDUP, PGSIZE]
            omega
          split_ifs with h0 halign
          · exact ⟨o'', him'.built⟩
          · exact ⟨o'', him'.built⟩
          · rw [wp_bind]
            refine him'.wp_loaduvm (by simpa using halign) htop fun b M' s3 him3 hloads => ?_
            cases b with
            | false => exact ⟨o'', him3.built⟩
            | true =>
              obtain ⟨xs, hxs, hM'⟩ := hloads.loaded rfl
              have hzero3 : ∀ a, PGROUNDUP (max sz (ph.vaddr + ph.memsz)) ≤ a → M' a = 0 := fun a ha => by
                rw [hloads.outside a (.inr (by omega))]
                exact hzero' a ha
              rw [Nat.add_zero] at hM'
              rw [hspec, if_neg htype, hxs]
              dsimp only
              rw [if_pos rfl, ← hM']
              exact ih _ _ _ (Nat.max_lt.mpr ⟨hsz, hnew⟩) him3 hzero3

end Vm

end Xv6
