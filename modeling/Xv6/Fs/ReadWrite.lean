import Xv6.Fs.Bmap

/-!
# `readi` and `writei` on byte arrays

The loops of `readi` and `writei`, round by round: a round of `readi` finds its block, and a round of
`writei` finds it or gets a fresh one behind the last (`wp_writeRound`). `Wrote` says what a number of
rounds have done to the image, and composes.
-/

namespace Xv6

open Code List

/-- Offsets in a file fit into 32 bits. -/
theorem MAXFILE_lt : MAXFILE * BSIZE < 2 ^ 32 := by
  norm_num [MAXFILE, NDIRECT, NINDIRECT, BSIZE]

namespace Image

variable {g : Geometry} {v v' v1 v2 : Image} {X : List ℕ} {i j m m' m1 m2 bn off p : ℕ}
  {src src1 src2 : List UInt8}

/-- The number of disk blocks of a file with `m` file blocks, its indirect block included. -/
def diskBlocks (m : ℕ) : ℕ := m + if NDIRECT < m then 1 else 0

theorem diskBlocks_mono (h : m ≤ m') : diskBlocks m ≤ diskBlocks m' := by
  unfold diskBlocks
  split <;> split <;> omega

/-- A fresh block behind the last one. -/
theorem Grown.mapped (h : Grown g v v' i m) (hm : v.Mapped i m) : v'.Mapped i (m + 1) where
  addr := fun bn => by
    rw [addr, h.slot]
    have hold := hm.addr bn
    rw [addr] at hold
    rw [hold]
    constructor
    · rintro (hlt | heq | ⟨heq, -⟩)
      · omega
      · rw [blockSlot_inj heq]
        omega
      · exact absurd heq blockSlot_ne
    · intro hlt
      by_cases hbn : bn = m
      · exact .inr (.inl (by rw [hbn]))
      · exact .inl (by omega)
  indirect := by
    rw [← slot_INDIRECT, h.slot, slot_INDIRECT, hm.indirect]
    constructor
    · rintro (hlt | heq | ⟨-, hle⟩)
      · omega
      · exact absurd heq.symm blockSlot_ne
      · omega
    · intro hlt
      exact .inr (.inr ⟨rfl, by omega⟩)

theorem Mapped.bmapCost (h : v.Mapped i m) : diskBlocks m + v.bmapCost i m = diskBlocks (m + 1) := by
  have hzero : v.addr i m = 0 := by
    by_contra hne
    exact absurd ((h.addr m).mp hne) (Nat.lt_irrefl m)
  have hind : (v.ino i).addrs INDIRECT = 0 ↔ ¬ NDIRECT < m := by
    rw [← h.indirect]
    exact not_not.symm
  unfold Image.bmapCost diskBlocks
  rw [if_pos hzero]
  simp only [hind]
  split <;> split <;> split <;> omega

/-- Nothing is allocated for a block that is there. -/
theorem Mapped.bmapCost_eq_zero (h : v.Mapped i m) (hbn : bn < m) : v.bmapCost i bn = 0 := by
  unfold Image.bmapCost
  rw [if_neg ((h.addr _).mpr hbn), if_neg]
  rintro ⟨hle, hz⟩
  exact h.indirect.mpr (by omega) hz

/-- What writing `src` at offset `off` of inode `i` has done; the inode had `m` blocks and has `m'`. -/
structure Wrote (g : Geometry) (v v' : Image) (i m m' off : ℕ) (src : List UInt8) : Prop where
  ino_ne : ∀ j, j ≠ i → v'.ino j = v.ino j
  ino_eq : v'.ino i = { v.ino i with addrs := (v'.ino i).addrs }
  other : ∀ j l, v.Alloc g j → j ≠ i → v'.slot j l = v.slot j l
  mapped : v'.Mapped i m'
  byteAt : ∀ j p, v.Alloc g j → v'.byteAt j p =
    if j = i ∧ off ≤ p ∧ p < off + src.length then src.getD (p - off) 0 else v.byteAt j p
  freeBlocks : v.freeBlocks g + diskBlocks m = v'.freeBlocks g + diskBlocks m'

theorem Wrote.alloc_iff (h : Wrote g v v' i m m' off src) : v'.Alloc g j ↔ v.Alloc g j := by
  unfold Alloc
  by_cases hj : j = i
  · subst hj
    rw [h.ino_eq]
  · rw [h.ino_ne j hj]

theorem Wrote.nil (hm : v.Mapped i m) : Wrote g v v i m m off [] where
  ino_ne := fun _ _ => rfl
  ino_eq := rfl
  other := fun _ _ _ _ => rfl
  mapped := hm
  byteAt := fun j p _ => by
    rw [if_neg]
    rintro ⟨-, hle, hlt⟩
    rw [length_nil] at hlt
    omega
  freeBlocks := rfl

theorem Wrote.trans (h1 : Wrote g v v1 i m m1 off src1) (h2 : Wrote g v1 v2 i m1 m2 (off + src1.length) src2) :
    Wrote g v v2 i m m2 off (src1 ++ src2) where
  ino_ne := fun j hj => (h2.ino_ne j hj).trans (h1.ino_ne j hj)
  ino_eq := by rw [h2.ino_eq, h1.ino_eq]
  other := fun j l hj hji => (h2.other j l (h1.alloc_iff.mpr hj) hji).trans (h1.other j l hj hji)
  mapped := h2.mapped
  byteAt := fun j p hj => by
    rw [h2.byteAt j p (h1.alloc_iff.mpr hj), h1.byteAt j p hj, length_append]
    by_cases hji : j = i
    · subst hji
      simp only [true_and]
      -- before, in the first part, in the second part, behind
      by_cases hlo : off ≤ p
      · by_cases hmid : p < off + src1.length
        · rw [if_neg (by omega), if_pos ⟨hlo, hmid⟩, if_pos ⟨hlo, by omega⟩,
            getD_append _ _ _ _ (by omega)]
        · by_cases hhi : p < off + src1.length + src2.length
          · rw [if_pos ⟨by omega, hhi⟩, if_pos ⟨hlo, by omega⟩,
              getD_append_right _ _ _ _ (by omega)]
            congr 1
            omega
          · rw [if_neg (by omega), if_neg (by omega), if_neg (by omega)]
      · rw [if_neg (by omega), if_neg (by omega), if_neg (by omega)]
    · simp [hji]
  freeBlocks := by
    have := h1.freeBlocks
    have := h2.freeBlocks
    omega

/-- Writing inside one block that the inode has. -/
theorem wrote_block (hgood : v.Good g X) (hi : v.Alloc g i) (hm : v.Mapped i m)
    (hbn : off / BSIZE < m) (hfit : off % BSIZE + src.length ≤ BSIZE) : Wrote g v (v.setDat (v.addr i (off / BSIZE))
      ((v.dat (v.addr i (off / BSIZE))).move (off % BSIZE) src)) i m m off src where
  ino_ne := fun _ _ => rfl
  ino_eq := rfl
  other := fun j l hj _ =>
    slot_setDat (hgood.ne_indirect hi hj rfl ((hm.addr _).mpr hbn) blockSlot_ne)
  mapped := ⟨fun bn => by rw [addr_setDat hgood hi rfl ((hm.addr _).mpr hbn) hi]; exact hm.addr bn,
    hm.indirect⟩
  byteAt := fun j p hj => by
    have hne := (hm.addr (off / BSIZE)).mpr hbn
    rw [byteAt_setDat hgood hi rfl hne hj]
    have hB : 0 < BSIZE := by decide
    have hoff := Nat.div_add_mod off BSIZE
    have hp := Nat.div_add_mod p BSIZE
    have hlt := Nat.mod_lt p hB
    by_cases hsame : j = i ∧ p / BSIZE = off / BSIZE
    · obtain ⟨rfl, hdiv⟩ := hsame
      rw [if_pos ⟨rfl, hdiv⟩, Page.byte_move]
      rw [hdiv] at hp
      by_cases hin : off ≤ p ∧ p < off + src.length
      · rw [if_pos ⟨by omega, by omega, hlt⟩, if_pos ⟨rfl, hin⟩]
        congr 1
        omega
      · rw [if_neg (by omega), if_neg fun hc => hin hc.2, Image.byteAt, if_neg (by rw [hdiv]; exact hne),
          hdiv]
    · rw [if_neg hsame, if_neg]
      rintro ⟨rfl, hle, hlt'⟩
      refine hsame ⟨rfl, ?_⟩
      have h1 : off / BSIZE ≤ p / BSIZE := Nat.div_le_div_right hle
      have h2 : p / BSIZE < off / BSIZE + 1 := by
        rw [Nat.div_lt_iff_lt_mul hB, Nat.add_mul, Nat.mul_comm]
        omega
      omega
  freeBlocks := rfl

/-- A fresh block behind the last one changes no byte. -/
theorem Grown.wrote (h : Grown g v v' i m) (hm : v.Mapped i m) : Wrote g v v' i m (m + 1) off [] where
  ino_ne := h.ino_ne
  ino_eq := h.ino_eq
  other := h.other
  mapped := h.mapped hm
  byteAt := fun j p hj => by
    rw [h.byteAt j p hj, if_neg]
    rintro ⟨-, hle, hlt⟩
    rw [length_nil] at hlt
    omega
  freeBlocks := by
    have := h.freeBlocks
    have := hm.bmapCost
    omega

end Image

namespace BlockFs

open Image

variable {g : Geometry} {s s' : BlockFs g} {X : List ℕ} {i m off n : ℕ} {src : List UInt8}
  {E : Halt → BlockFs g → Prop}

/-! ## The rounds of the loops -/

theorem blk_eq_dat {b : ℕ} (hb : g.datastart ≤ b) : s.blk b = s.image.dat b := by
  simp [image, hb]

/-- The block of an offset below the size of a file. -/
theorem div_lt_blocksOf (h : off < n) : off / BSIZE < blocksOf n := by
  simp only [blocksOf, BSIZE]
  omega

/-- The loop of `readi` on a file without missing blocks reads the bytes and changes nothing. -/
theorem wp_readLoop (hgood : s.image.Good g X) (hl : s.Loaded i) (hi : s.image.Alloc g i)
    (hm : s.image.Mapped i m) {fuel : ℕ} (hfuel : n ≤ fuel) (hend : blocksOf (off + n) ≤ m) : Wp (readLoop i fuel off n)
      (fun bytes s' => s' = s ∧ bytes = (List.range n).map fun q => s.image.byteAt i (off + q)) E s := by
  induction fuel generalizing off n with
  | zero =>
    obtain rfl : n = 0 := Nat.le_zero.mp hfuel
    exact ⟨rfl, rfl⟩
  | succ fuel ih =>
    rw [readLoop]
    split
    · rename_i hn
      subst hn
      exact ⟨rfl, rfl⟩
    · rename_i hn
      set c := min n (BSIZE - off % BSIZE) with hc
      have hcn : c ≤ n := Nat.min_le_left _ _
      have hcB : off % BSIZE + c ≤ BSIZE := by
        have : off % BSIZE < BSIZE := Nat.mod_lt _ (by decide)
        omega
      have hc0 : 0 < c := by
        have : off % BSIZE < BSIZE := Nat.mod_lt _ (by decide)
        omega
      have hbn : off / BSIZE < m := Nat.lt_of_lt_of_le (div_lt_blocksOf (by omega)) hend
      have hne := (hm.addr _).mpr hbn
      rw [wp_bind]
      refine wp_bmap hgood hl hi (Nat.lt_of_lt_of_le hbn hm.le_maxfile) (fun _ => ?_)
        (fun _ hz => absurd hz hne) fun hlt => ?_
      · unfold bread
        simp only [wp_bind, wp_get, wp_pure]
        refine wp_mono (@ih (off + c) (n - c) (by omega)
          (by rwa [show off + c + (n - c) = off + n by omega])) ?_ fun _ _ hE => hE
        rintro rest s' ⟨rfl, rfl⟩
        refine ⟨rfl, ?_⟩
        have hrange : List.range n = List.range c ++ (List.range (n - c)).map (c + ·) := by
          rw [← range_add, Nat.add_sub_cancel' hcn]
        rw [hrange, map_append, map_map]
        congr 1
        · unfold Page.slice
          refine map_congr_left fun q hq => ?_
          have hq := mem_range.mp hq
          have hdiv : (off + q) / BSIZE = off / BSIZE := by
            simp only [BSIZE] at hcB ⊢
            omega
          have hmod : (off + q) % BSIZE = off % BSIZE + q := by
            simp only [BSIZE] at hcB ⊢
            omega
          rw [byteAt, hdiv, if_neg hne, hmod, blk_eq_dat (hgood.addr_data hi hne).1]
        · refine map_congr_left fun q _ => ?_
          rw [Function.comp_apply, Nat.add_assoc]
      · have hcost := hm.bmapCost_eq_zero hbn
        omega

/-- The part of a round of `writei` behind `bmap`. -/
theorem wp_writeBlock {Q : Unit → BlockFs g → Prop} (hgood : s.image.Good g X)
    (hi : s.image.Alloc g i) (hm : s.image.Mapped i m) (hbn : off / BSIZE < m) (hfit : off % BSIZE + src.length ≤ BSIZE)
    (hQ : ∀ s', Keep s s' → s'.image.Good g X → Wrote g s.image s'.image i m m off src → Q () s') :
    Wp (logWrite (s.image.addr i (off / BSIZE))
      ((s.blk (s.image.addr i (off / BSIZE))).move (off % BSIZE) src)) Q E s := by
  have hne := (hm.addr _).mpr hbn
  have hdata := (hgood.addr_data hi hne).1
  unfold logWrite
  rw [wp_modify]
  obtain ⟨hkeep, himage⟩ := image_logWrite_data (s := s) (k := s.image.addr i (off / BSIZE))
    (x := (s.blk (s.image.addr i (off / BSIZE))).move (off % BSIZE) src) hdata (hgood.addr_data hi hne).2
  refine hQ _ hkeep ?_ ?_
  · rw [himage]
    exact hgood.setDat hi rfl hne blockSlot_ne _
  · rw [himage, blk_eq_dat hdata]
    exact wrote_block hgood hi hm hbn hfit

/-- The loop of `writei` writes the bytes, getting blocks behind the last one. -/
theorem wp_writeLoop {Q : ℕ → BlockFs g → Prop} (hgood : s.image.Good g X) (hl : s.Loaded i)
    (hi : s.image.Alloc g i) (hm : s.image.Mapped i m) {fuel : ℕ} (hfuel : src.length ≤ fuel)
    (hoff : blocksOf off ≤ m) (hmax : off + src.length ≤ MAXFILE * BSIZE)
    (hQ : ∀ s' m', m' = max m (blocksOf (off + src.length)) → Step i s s' → (m' = m → Keep s s') →
      s'.image.Good g X → Wrote g s.image s'.image i m m' off src → Q (off + src.length) s')
    (hE : s.image.freeBlocks g + diskBlocks m < diskBlocks (max m (blocksOf (off + src.length))) →
      ∀ s', E (.panic .ballocOutOfBlocks) s') :
    Wp (writeLoop i fuel off src) Q E s := by
  induction fuel generalizing s off src m with
  | zero =>
    obtain rfl : src = [] := length_eq_zero_iff.mp (Nat.le_zero.mp hfuel)
    exact hQ s m (by simpa using hoff) (.refl i s) (fun _ => .refl s) hgood (.nil hm)
  | succ fuel ih =>
    rw [writeLoop]
    split
    · rename_i hsrc
      subst hsrc
      exact hQ s m (by simpa using hoff) (.refl i s) (fun _ => .refl s) hgood (.nil hm)
    · rename_i hsrc
      have hlen : 0 < src.length := length_pos_of_ne_nil hsrc
      set c := min src.length (BSIZE - off % BSIZE) with hc
      have hmod : off % BSIZE < BSIZE := Nat.mod_lt _ (by decide)
      have hcn : c ≤ src.length := Nat.min_le_left _ _
      have hcB : off % BSIZE + c ≤ BSIZE := by omega
      have hc0 : 0 < c := by omega
      have htake : (src.take c).length = c := length_take_of_le hcn
      have hround : blocksOf (off + c) = off / BSIZE + 1 := by
        simp only [blocksOf, BSIZE] at hcB ⊢
        omega
      have hle : off / BSIZE ≤ m := by
        simp only [blocksOf, BSIZE] at hoff ⊢
        omega
      have hbnmax : off / BSIZE < MAXFILE := by
        rw [Nat.div_lt_iff_lt_mul (by decide)]
        omega
      have hsum : off + c + (src.drop c).length = off + src.length := by
        rw [length_drop]
        omega
      have hmono : blocksOf (off + c) ≤ blocksOf (off + src.length) := by
        simp only [blocksOf]
        exact Nat.div_le_div_right (by omega)
      -- the rest of the loop, once the inode has `m1` blocks
      have hrest : ∀ s1 m1, m1 = max m (off / BSIZE + 1) → Step i s s1 → (m1 = m → Keep s s1) →
          s1.image.Good g X → Wrote g s.image s1.image i m m1 off [] →
          Wp (do
            let bp ← bread (s1.image.addr i (off / BSIZE))
            logWrite (s1.image.addr i (off / BSIZE)) (bp.move (off % BSIZE) (src.take c))
            writeLoop i fuel (off + c) (src.drop c)) Q E s1 := by
        intro s1 m1 hm1 hstep1 hkeep1 hgood1 hwrote1
        have hi1 := hwrote1.alloc_iff.mpr hi
        unfold bread
        simp only [wp_bind, wp_get, wp_pure]
        refine wp_writeBlock hgood1 hi1 hwrote1.mapped (by omega) (by rw [htake]; exact hcB) ?_
        intro s2 hkeep2 hgood2 hwrote2
        have hwrote : Wrote g s.image s2.image i m m1 off (src.take c) := hwrote1.trans hwrote2
        refine ih hgood2 (hl.step (hstep1.trans (hkeep2.step i))) (hwrote.alloc_iff.mpr hi) hwrote.mapped
          (by rw [length_drop]; omega) (by rw [hround]; omega) (by rw [hsum]; exact hmax) ?_ ?_
        · intro s' m' hm' hstep' hkeep' hgood' hwrote'
          rw [hsum] at hm' ⊢
          have hm'' : m' = max m (blocksOf (off + src.length)) := by omega
          refine hQ s' m' hm'' ((hstep1.trans (hkeep2.step i)).trans hstep') (fun heq => ?_) hgood' ?_
          · exact ((hkeep1 (by omega)).trans hkeep2).trans (hkeep' (by omega))
          · rw [← htake] at hwrote'
            have := hwrote.trans hwrote'
            rwa [htake, take_append_drop] at this
        · intro hlt
          refine hE ?_
          rw [hsum] at hlt
          have hfree := hwrote.freeBlocks
          have hmax' : max m1 (blocksOf (off + src.length)) = max m (blocksOf (off + src.length)) := by
            omega
          rw [hmax'] at hlt
          omega
      rw [wp_bind]
      refine wp_bmap hgood hl hi hbnmax (fun hne => ?_) (fun s1 hz hstep hgood1 hgrown => ?_) ?_
      · have hbn := (hm.addr _).mp hne
        exact hrest s m (by omega) (.refl i s) (fun _ => .refl s) hgood (.nil hm)
      · have hbn : off / BSIZE = m := by
          have := (hm.addr (off / BSIZE)).not.mp (not_not.mpr hz)
          omega
        rw [hbn] at hgrown
        exact hrest s1 (m + 1) (by omega) hstep (fun heq => by omega) hgood1 (hgrown.wrote hm)
      · intro hlt
        refine hE ?_
        by_cases hbn : off / BSIZE < m
        · have hcost := hm.bmapCost_eq_zero hbn
          omega
        · have hbn : off / BSIZE = m := by omega
          rw [hbn] at hlt hround
          have hcost := hm.bmapCost
          have : diskBlocks (m + 1) ≤ diskBlocks (max m (blocksOf (off + src.length))) :=
            diskBlocks_mono (by omega)
          omega

/-! ## `readi` and `writei` -/

/-- The bytes of a file from `off` on, at most `n` of them. -/
theorem content_slice {v : Image} : ((v.content i).drop off).take n =
      (List.range (min n ((v.ino i).size - off))).map fun q => v.byteAt i (off + q) := by
  refine ext_getElem ?_ fun q hq hq' => ?_
  · rw [length_take, length_drop, content_length, length_map, length_range]
  · simp only [getElem_take, getElem_drop, getElem_map, getElem_range,
      getElem_content]

/-- `readi` returns the bytes of the file and allocates nothing. -/
theorem wp_readi {Q : Option (List UInt8) → BlockFs g → Prop} (h : s.image.Consistent g)
    (hl : s.Loaded i) (hi : s.image.Alloc g i) (hc : HasContent (s.image.ino i)) (hoff : off < 2 ^ 32) (hn : n < 2 ^ 32)
    (hQ : Q (if off > (s.image.ino i).size ∨ 2 ^ 32 ≤ off + n then none
      else some (((s.image.content i).drop off).take n)) s) :
    Wp (readi i off n) Q E s := by
  unfold readi
  rw [wp_bind]
  refine wp_ip hl ?_
  have hwrap : (off + n) % 2 ^ 32 < off ↔ 2 ^ 32 ≤ off + n := by omega
  simp only [hwrap]
  rw [wp_ite]
  split
  · rename_i hbad
    rw [if_pos hbad] at hQ
    exact hQ
  · rename_i hok
    rw [if_neg hok, content_slice] at hQ
    have hmin : (if off + n > (s.image.ino i).size then (s.image.ino i).size - off else n) =
        min n ((s.image.ino i).size - off) := by
      split <;> omega
    rw [hmin, wp_bind]
    refine wp_post (wp_readLoop h.good hl hi (h.mapped hi hc) (Nat.le_refl _) ?_) ?_
    · exact Nat.div_le_div_right (by omega)
    · rintro bytes s' ⟨rfl, rfl⟩
      exact hQ

/-- The bytes that were written, as contents. -/
theorem content_splice {v v' : Image} {m m' : ℕ} (h : Wrote g v v' i m m' off src) (hi : v.Alloc g i)
    (hoff : off ≤ (v.ino i).size) {w : Image} (hsize : (w.ino i).size = max (v.ino i).size (off + src.length))
    (hbyte : ∀ p, w.byteAt i p = v'.byteAt i p) : w.content i = splice (v.content i) off src := by
  have htake : ((v.content i).take off).length = off := by
    rw [length_take, content_length]
    omega
  unfold splice
  refine ext_getElem ?_ fun p hp hp' => ?_
  · rw [content_length, hsize, length_append, length_append, htake, length_drop,
      content_length]
    omega
  · rw [content_length] at hp
    rw [getElem_content, hbyte, h.byteAt i p hi]
    by_cases hlo : off ≤ p
    · by_cases hhi : p < off + src.length
      · rw [if_pos ⟨rfl, hlo, hhi⟩, getElem_append_left (by rw [length_append, htake]; omega),
          getElem_append_right (by rw [htake]; omega)]
        simp only [htake]
        rw [getD_eq_getElem _ _ (by omega)]
      · rw [if_neg (by omega), getElem_append_right (by rw [length_append, htake]; omega)]
        simp only [length_append, htake, getElem_drop, getElem_content]
        congr 1
        omega
    · rw [if_neg (by omega), getElem_append_left (by rw [length_append, htake]; omega),
        getElem_append_left (by rw [htake]; omega)]
      simp only [getElem_take, getElem_content]

/-- What `writei` has done to the image when it returns the number of bytes. -/
structure Written (g : Geometry) (v v' : Image) (i off : ℕ) (src : List UInt8) : Prop where
  consistent : v'.Consistent g
  ino_ne : ∀ j, j ≠ i → v'.ino j = v.ino j
  ino_eq : v'.ino i = { v.ino i with
    size := max (v.ino i).size (off + src.length), addrs := (v'.ino i).addrs }
  content : v'.content i = splice (v.content i) off src
  content_ne : ∀ j, j ≠ i → v.Alloc g j → v'.content j = v.content j

theorem Written.alloc_iff {v v' : Image} (h : Written g v v' i off src) {j : ℕ} : v'.Alloc g j ↔ v.Alloc g j := by
  unfold Alloc
  by_cases hj : j = i
  · subst hj
    rw [h.ino_eq]
  · rw [h.ino_ne j hj]

/-- The end of `writei`: the loop has written everything and the size is brought up to date. -/
theorem written_of_wrote {v v' : Image} {m' : ℕ} (h : v.Consistent g) (hi : v.Alloc g i)
    (hc : HasContent (v.ino i)) (hoff : off ≤ (v.ino i).size) (hgood : v'.Good g [])
    (hwrote : Wrote g v v' i (blocksOf (v.ino i).size) m' off src)
    (hm' : m' = max (blocksOf (v.ino i).size) (blocksOf (off + src.length))) :
    Written g v (v'.setIno i { v'.ino i with size := max (v.ino i).size (off + src.length) }) i off
      src := by
  set w := v'.setIno i { v'.ino i with size := max (v.ino i).size (off + src.length) } with hw
  have hwi : w.ino i = { v'.ino i with size := max (v.ino i).size (off + src.length) } := by
    simp [hw, setIno]
  have hwne : ∀ j, j ≠ i → w.ino j = v.ino j := fun j hj => by
    rw [← hwrote.ino_ne j hj]
    simp [hw, setIno, hj]
  have hslot : ∀ j l, w.slot j l = v'.slot j l := fun j l => by
    by_cases hj : j = i
    · subst hj
      exact slot_congr (by rw [hwi]) fun _ => rfl
    · exact slot_setIno_ne hj
  have hbyte : ∀ j p, w.byteAt j p = v'.byteAt j p := fun j p => by
    simp only [byteAt, addr, hslot]
    rfl
  have hgoodw : w.Good g [] := hgood.setIno rfl Iff.rfl
  have halloc : ∀ j, w.Alloc g j ↔ v.Alloc g j := by
    intro j
    rw [hw, alloc_setIno_iff]
    split
    · rename_i hj
      subst hj
      exact hwrote.alloc_iff
    · exact hwrote.alloc_iff
  have hmax : blocksOf (max (v.ino i).size (off + src.length)) = m' := by
    rw [hm']
    simp only [blocksOf, BSIZE]
    omega
  refine ⟨hgoodw.consistent fun j hj hcj => ?_, hwne, ?_, ?_, fun j hj hja => ?_⟩
  · by_cases hji : j = i
    · subst hji
      rw [hwi]
      simp only [hmax]
      exact hwrote.mapped.congr fun l => hslot j l
    · rw [hwne j hji] at hcj ⊢
      refine (h.mapped ((halloc j).mp hj) hcj).congr fun l => ?_
      rw [hslot, hwrote.other j l ((halloc j).mp hj) hji]
  · rw [hwi, hwrote.ino_eq]
  · exact content_splice hwrote hi hoff (by rw [hwi]) fun p => hbyte i p
  · unfold content
    rw [hwne j hj]
    refine map_congr_left fun p _ => ?_
    rw [hbyte, hwrote.byteAt j p hja, if_neg fun hc => hj hc.1]

theorem Good.fits {v : Image} (h : v.Good g X) (hi : v.Alloc g i) (hsize : (v.ino i).size < 2 ^ 32) :
    (v.ino i).Fits := by
  refine ⟨hsize, fun k => ?_⟩
  by_cases hk : (v.ino i).addrs k = 0
  · rw [hk]
    norm_num
  · have hslot : v.slot i k.val = (v.ino i).addrs k := slot_direct k.isLt
    have := (h.data i k.val hi (by rw [hslot]; exact hk)).2
    have := g.size_le
    omega

/-- `writei` replaces the bytes of the file, or returns `-1` and does nothing; it panics only when there
are too few free blocks. Blocks are neither lost nor gained. -/
theorem wp_writei {Q : Option ℕ → BlockFs g → Prop} (h : s.image.Consistent g) (hl : s.Loaded i)
    (hi : s.image.Alloc g i) (hc : HasContent (s.image.ino i)) (hoff : off < 2 ^ 32) (hn : src.length < 2 ^ 32)
    (hbad : off > (s.image.ino i).size ∨ 2 ^ 32 ≤ off + src.length ∨
      off + src.length > MAXFILE * BSIZE → Q none s)
    (hQ : ∀ s', off ≤ (s.image.ino i).size → off + src.length ≤ MAXFILE * BSIZE → Step i s s' →
      Written g s.image s'.image i off src →
      s.image.freeBlocks g + diskBlocks (blocksOf (s.image.ino i).size) =
        s'.image.freeBlocks g + diskBlocks (blocksOf (s'.image.ino i).size) →
      (s.dinode i = s.image.ino i → s'.dinode i = s'.image.ino i) → Q (some src.length) s')
    (hE : off ≤ (s.image.ino i).size → off + src.length ≤ MAXFILE * BSIZE →
      s.image.freeBlocks g + diskBlocks (blocksOf (s.image.ino i).size) <
        diskBlocks (blocksOf (max (s.image.ino i).size (off + src.length))) →
      ∀ s', E (.panic .ballocOutOfBlocks) s') :
    Wp (writei i off src) Q E s := by
  unfold writei
  rw [wp_bind]
  refine wp_ip hl ?_
  have hwrap : (off + src.length) % 2 ^ 32 < off ↔ 2 ^ 32 ≤ off + src.length := by omega
  simp only [hwrap]
  rw [wp_ite]
  split
  · rename_i hb
    exact hbad (hb.imp id .inl)
  · rename_i hok
    rw [wp_ite]
    split
    · rename_i hb
      exact hbad (.inr (.inr hb))
    · rename_i hmax
      have hle : off ≤ (s.image.ino i).size := by omega
      have hmaxeq : max (blocksOf (s.image.ino i).size) (blocksOf (off + src.length)) =
          blocksOf (max (s.image.ino i).size (off + src.length)) := by
        simp only [blocksOf, BSIZE]
        omega
      rw [wp_bind]
      refine wp_writeLoop h.good hl hi (h.mapped hi hc) (Nat.le_refl _) (Nat.div_le_div_right (by omega))
        (by omega) ?_ fun hlt => hE hle (by omega) (hmaxeq ▸ hlt)
      intro s1 m' hm' hstep hkeep hgood hwrote
      have hl1 := hl.step hstep
      have hsize1 : (s1.image.ino i).size = (s.image.ino i).size := by rw [hwrote.ino_eq]
      have hw := written_of_wrote h hi hc hle hgood hwrote hm'
      have hcount := hwrote.freeBlocks
      rw [hm', hmaxeq] at hcount
      rw [wp_bind]
      refine wp_ip hl1 ?_
      rw [hsize1, wp_ite]
      split
      · rename_i hgrow
        rw [wp_bind]
        refine wp_setIp hl1 fun s2 hstep2 himage2 _ => ?_
        rw [max_eq_right (by omega : (s.image.ino i).size ≤ off + src.length)] at hw
        rw [← himage2] at hw
        have hsize2 : (s2.image.ino i).size < 2 ^ 32 := by
          have hB := MAXFILE_lt
          rw [hw.ino_eq]
          simp only
          omega
        rw [wp_bind]
        refine wp_iupdate (hl1.step hstep2) (Good.fits hw.consistent.good (hw.alloc_iff.mpr hi) hsize2)
          fun s3 hstep3 himage3 hdinode => ?_
        rw [wp_pure]
        refine hQ s3 hle (by omega) ((hstep.trans hstep2).trans hstep3) (himage3 ▸ hw) ?_ fun _ => ?_
        · rw [himage3, hw.ino_eq, hcount, himage2]
          rfl
        · rw [hdinode, himage3]
      · rename_i hsame
        rw [wp_pure]
        -- the file has not grown, so no block was allocated
        have hend : src = [] ∨ off + src.length ≤ (s.image.ino i).size := by
          rcases Nat.eq_zero_or_pos src.length with hz | hpos
          · exact .inl (length_eq_zero_iff.mp hz)
          · exact .inr (by omega)
        have hend' : off + src.length ≤ (s.image.ino i).size := by
          rcases hend with rfl | hend
          · simpa using hle
          · exact hend
        have hmm : m' = blocksOf (s.image.ino i).size := by
          rw [hm', hmaxeq, max_eq_left hend']
        have hkeep' := hkeep hmm
        have hid : s1.image.setIno i
            { s1.image.ino i with size := max (s.image.ino i).size (off + src.length) } = s1.image := by
          rw [max_eq_left hend', ← hsize1]
          simp [setIno]
        rw [hid] at hw
        refine hQ s1 hle (by omega) hstep hw ?_ fun hd => ?_
        · rw [hcount, hw.ino_eq]
        · rw [hkeep'.dinode i hl.1, hd, hkeep'.ino_eq]

end BlockFs

end Xv6
