import Mathlib.Data.Finset.Card
import Mathlib.Data.List.Nodup
import Xv6.Bio

/-!
# File-system images

What the inode code of `fs.c` works on: the inodes, the data blocks and the free map, as the cached inodes
and the buffers show them. `Good` is the allocation invariant for an image in which the blocks of a list
are marked in use and not yet, or no longer, held by an inode; between two operations there are none. Every
elementary change that the code makes has one lemma here.
-/

namespace Xv6

open Function List

/-- `struct dinode`. -/
structure Dinode where
  type : BitVec 16
  major : BitVec 16
  minor : BitVec 16
  nlink : BitVec 16
  size : ℕ
  addrs : Fin (NDIRECT + 1) → ℕ

/-- The inode of `memset(dip, 0, sizeof(*dip))`. -/
def Dinode.zero : Dinode := ⟨0, 0, 0, 0, 0, fun _ => 0⟩

/-- `addrs[k] = a`. -/
def Dinode.setAddr (d : Dinode) (k : Fin (NDIRECT + 1)) (a : ℕ) : Dinode :=
  { d with addrs := update d.addrs k a }

theorem Dinode.addrs_setAddr (d : Dinode) (k l : Fin (NDIRECT + 1)) (a : ℕ) :
    (d.setAddr k a).addrs l = if l = k then a else d.addrs l :=
  update_apply d.addrs k a l

/-- The index of the indirect block in `addrs`. -/
def INDIRECT : Fin (NDIRECT + 1) := Fin.last NDIRECT

theorem castSucc_ne_INDIRECT (k : Fin NDIRECT) : k.castSucc ≠ INDIRECT :=
  Fin.ne_of_lt (Fin.castSucc_lt_last k)

/-- The layout of the disk as `mkfs` computes it, with any number of inode, bitmap and data blocks: boot
block, super block and log, then the inodes, the free map and the data. -/
structure Geometry where
  size : ℕ
  ninodes : ℕ
  inodestart : ℕ
  bmapstart : ℕ
  datastart : ℕ
  inodes_lt : inodestart + ninodes / IPB < bmapstart
  bitmap_lt : bmapstart + size / BPB < datastart
  data_le : datastart ≤ size
  size_le : size ≤ 2 ^ 31

/-- The inodes, the data blocks and the free map. -/
@[ext] structure Image where
  ino : ℕ → Dinode
  dat : ℕ → Block
  bm : ℕ → Bool

namespace Image

variable (g : Geometry)

/-- Block address number `k` of an inode: those in `addrs`, then those in the indirect block. -/
def slot (v : Image) (i k : ℕ) : ℕ :=
  if h : k < NDIRECT + 1 then (v.ino i).addrs ⟨k, h⟩
  else if k < NDIRECT + 1 + NINDIRECT ∧ (v.ino i).addrs INDIRECT ≠ 0 then
    (v.dat ((v.ino i).addrs INDIRECT)).word (4 * (k - (NDIRECT + 1)))
  else 0

/-- An allocated inode. -/
def Alloc (v : Image) (i : ℕ) : Prop := i < g.ninodes ∧ (v.ino i).type ≠ 0

/-- Some inode holds the block. -/
def Held (v : Image) (b : ℕ) : Prop := ∃ i k, v.Alloc g i ∧ v.slot i k = b

/-- The allocation invariant, for the blocks `X` in flight. -/
structure Good (X : List ℕ) (v : Image) : Prop where
  data : ∀ i k, v.Alloc g i → v.slot i k ≠ 0 → g.datastart ≤ v.slot i k ∧ v.slot i k < g.size
  inj : ∀ i j k l, v.Alloc g i → v.Alloc g j → v.slot i k ≠ 0 → v.slot i k = v.slot j l →
    i = j ∧ k = l
  bits : ∀ b, b < g.size → (v.bm b = true ↔ b < g.datastart ∨ v.Held g b ∨ b ∈ X)
  nodup : X.Nodup
  flight : ∀ b ∈ X, g.datastart ≤ b ∧ b < g.size ∧ ¬ v.Held g b

/-! ## The elementary changes -/

/-- The effect of `balloc`: the block is in use and zero. -/
def alloc (v : Image) (b : ℕ) : Image :=
  { v with bm := update v.bm b true, dat := update v.dat b fun _ => 0 }

/-- The effect of `bfree`. -/
def free (v : Image) (b : ℕ) : Image := { v with bm := update v.bm b false }

/-- A new inode. -/
def setIno (v : Image) (i : ℕ) (d : Dinode) : Image := { v with ino := update v.ino i d }

/-- New contents of a data block. -/
def setDat (v : Image) (b : ℕ) (x : Block) : Image := { v with dat := update v.dat b x }

/-- A new block address in an inode. -/
def setAddr (v : Image) (i : ℕ) (k : Fin (NDIRECT + 1)) (a : ℕ) : Image :=
  v.setIno i ((v.ino i).setAddr k a)

variable {g} {v : Image} {X : List ℕ} {i j k l b : ℕ}

theorem slot_direct (h : k < NDIRECT + 1) : v.slot i k = (v.ino i).addrs ⟨k, h⟩ := dif_pos h

theorem slot_indirect (h : ¬ k < NDIRECT + 1) :
    v.slot i k = if k < NDIRECT + 1 + NINDIRECT ∧ (v.ino i).addrs INDIRECT ≠ 0 then
      (v.dat ((v.ino i).addrs INDIRECT)).word (4 * (k - (NDIRECT + 1))) else 0 := dif_neg h

theorem slot_INDIRECT : v.slot i NDIRECT = (v.ino i).addrs INDIRECT :=
  slot_direct (Nat.lt_succ_self NDIRECT)

variable {v' : Image} {a : ℕ}

/-- The addresses of an inode depend on the inode and its indirect block. -/
theorem slot_congr (haddrs : (v'.ino i).addrs = (v.ino i).addrs) (hdat : (v.ino i).addrs INDIRECT ≠ 0 →
      v'.dat ((v.ino i).addrs INDIRECT) = v.dat ((v.ino i).addrs INDIRECT)) :
    v'.slot i k = v.slot i k := by
  by_cases hk : k < NDIRECT + 1
  · rw [slot_direct hk, slot_direct hk, haddrs]
  · rw [slot_indirect hk, slot_indirect hk, haddrs]
    split
    · rename_i h
      rw [hdat h.2]
    · rfl

theorem dat_setDat (c : ℕ) (x : Block) : (v.setDat b x).dat c = if c = b then x else v.dat c :=
  update_apply v.dat b x c

variable {d : Dinode} {m : Fin (NDIRECT + 1)}

theorem slot_setIno_ne (h : j ≠ i) : (v.setIno i d).slot j k = v.slot j k :=
  slot_congr (by rw [setIno]; simp [update_of_ne h]) fun _ => rfl

theorem alloc_setIno_iff : (v.setIno i d).Alloc g j ↔ if j = i then j < g.ninodes ∧ d.type ≠ 0 else v.Alloc g j := by
  unfold Alloc setIno
  by_cases h : j = i
  · subst h
    simp
  · simp [h]

/-! ## Consequences of the invariant -/

/-- A block that an inode holds is not the indirect block of another inode, nor of the same one under
another number. -/
theorem Good.ne_indirect (h : v.Good g X) (hi : v.Alloc g i) (hj : v.Alloc g j) (hb : v.slot i k = b)
    (hb0 : b ≠ 0) (hk : k ≠ NDIRECT) : (v.ino j).addrs INDIRECT ≠ b := by
  rw [← slot_INDIRECT]
  rintro hjb
  have := (h.inj j i NDIRECT k hj hi (by rw [hjb]; exact hb0) (by rw [hjb, hb])).2
  exact hk this.symm

/-- A block that is free in the map is a data block that nobody holds. -/
theorem Good.free_block (h : v.Good g X) (hb : b < g.size) (hfree : v.bm b = false) :
    g.datastart ≤ b ∧ ¬ v.Held g b ∧ b ∉ X := by
  have hbits : ¬ (b < g.datastart ∨ v.Held g b ∨ b ∈ X) := by
    rw [← h.bits b hb, hfree]
    exact Bool.false_ne_true
  exact ⟨by omega, fun hh => hbits (.inr (.inl hh)), fun hX => hbits (.inr (.inr hX))⟩

theorem datastart_pos (g : Geometry) : 0 < g.datastart := Nat.lt_of_le_of_lt (Nat.zero_le _) g.bitmap_lt

/-- An invariant of what inodes hold survives when the addresses of all allocated inodes do. -/
theorem Good.congr (h : v.Good g X) (halloc : ∀ i, v'.Alloc g i ↔ v.Alloc g i)
    (hslot : ∀ i k, v.Alloc g i → v'.slot i k = v.slot i k) (hbm : v'.bm = v.bm) : v'.Good g X := by
  have hheld : ∀ b, v'.Held g b ↔ v.Held g b := by
    intro b
    constructor
    · rintro ⟨i, k, hi, hb⟩
      exact ⟨i, k, (halloc i).mp hi, (hslot i k ((halloc i).mp hi)) ▸ hb⟩
    · rintro ⟨i, k, hi, hb⟩
      exact ⟨i, k, (halloc i).mpr hi, (hslot i k hi).trans hb⟩
  refine ⟨fun i k hi => ?_, fun i j k l hi hj => ?_, fun b hb => ?_, h.nodup, fun b hb => ?_⟩
  · rw [hslot i k ((halloc i).mp hi)]
    exact h.data i k ((halloc i).mp hi)
  · rw [hslot i k ((halloc i).mp hi), hslot j l ((halloc j).mp hj)]
    exact h.inj i j k l ((halloc i).mp hi) ((halloc j).mp hj)
  · rw [hbm, hheld]
    exact h.bits b hb
  · rw [hheld]
    exact h.flight b hb

/-! ## Allocating and freeing blocks -/

theorem slot_alloc (h : v.Good g X) (hb : b < g.size) (hfree : v.bm b = false) (hi : v.Alloc g i) :
    (v.alloc b).slot i k = v.slot i k := by
  refine slot_congr rfl fun _ => update_of_ne ?_ _ _
  rw [← slot_INDIRECT]
  exact fun hib => (h.free_block hb hfree).2.1 ⟨i, NDIRECT, hi, hib⟩

/-- `balloc` puts a block in flight. -/
theorem Good.alloc (h : v.Good g X) (hb : b < g.size) (hfree : v.bm b = false) : (v.alloc b).Good g (b :: X) := by
  obtain ⟨hdata, hheld, hX⟩ := h.free_block hb hfree
  have hslot : ∀ i k, v.Alloc g i → (v.alloc b).slot i k = v.slot i k := fun i k hi =>
    slot_alloc h hb hfree hi
  have hheld' : ∀ c, (v.alloc b).Held g c ↔ v.Held g c := fun c =>
    ⟨fun ⟨i, k, hi, hc⟩ => ⟨i, k, hi, (hslot i k hi) ▸ hc⟩,
      fun ⟨i, k, hi, hc⟩ => ⟨i, k, hi, (hslot i k hi).trans hc⟩⟩
  refine ⟨fun i k hi => ?_, fun i j k l hi hj => ?_, fun c hc => ?_, nodup_cons.mpr ⟨hX, h.nodup⟩,
    fun c hc => ?_⟩
  · rw [hslot i k hi]
    exact h.data i k hi
  · rw [hslot i k hi, hslot j l hj]
    exact h.inj i j k l hi hj
  · show update v.bm b true c = true ↔ _
    rw [hheld', mem_cons]
    by_cases hcb : c = b
    · subst hcb
      simp
    · rw [update_of_ne hcb, h.bits c hc]
      simp [hcb]
  · rw [hheld']
    rcases mem_cons.mp hc with rfl | hc
    · exact ⟨hdata, hb, hheld⟩
    · exact h.flight c hc

/-- `bfree` of a block in flight. -/
theorem Good.free (h : v.Good g X) (hb : b ∈ X) : (v.free b).Good g (X.erase b) := by
  have hslot : ∀ i k, (v.free b).slot i k = v.slot i k := fun i k => slot_congr rfl fun _ => rfl
  have hheld : ∀ c, (v.free b).Held g c ↔ v.Held g c := fun c => by simp only [Held, hslot]; rfl
  refine ⟨fun i k hi => ?_, fun i j k l hi hj => ?_, fun c hc => ?_, h.nodup.erase b, fun c hc => ?_⟩
  · rw [hslot]
    exact h.data i k hi
  · rw [hslot, hslot]
    exact h.inj i j k l hi hj
  · show update v.bm b false c = true ↔ _
    rw [hheld, h.nodup.mem_erase_iff]
    by_cases hcb : c = b
    · subst hcb
      obtain ⟨hdata, -, hnot⟩ := h.flight c hb
      simp only [update_self, Bool.false_eq_true, ne_eq, not_true_eq_false, false_and,
        or_false, false_iff, not_or]
      exact ⟨by omega, hnot⟩
    · rw [update_of_ne hcb, h.bits c hc]
      simp [hcb]
  · rw [hheld]
    exact h.flight c (mem_of_mem_erase hc)

/-- A block in flight is marked in use. -/
theorem Good.bm_flight (h : v.Good g X) (hb : b ∈ X) : v.bm b = true :=
  (h.bits b (h.flight b hb).2.1).mpr (.inr (.inr hb))

/-! ## Giving a block to an inode -/

/-- An inode takes the block in flight `b` into its free address `k`, its other addresses staying. -/
theorem Good.take (h : v.Good g (b :: X)) (hi : v.Alloc g i)
    (halloc : ∀ j, v'.Alloc g j ↔ v.Alloc g j) (hbm : v'.bm = v.bm)
    (hother : ∀ j l, v.Alloc g j → j ≠ i → v'.slot j l = v.slot j l) (hzero : v.slot i k = 0)
    (hslot : ∀ l, v'.slot i l = if l = k then b else v.slot i l) : v'.Good g X := by
  obtain ⟨hbX, hX⟩ := nodup_cons.mp h.nodup
  obtain ⟨hdata, hsize, hnot⟩ := h.flight b mem_cons_self
  have hb0 : b ≠ 0 := by have := datastart_pos g; omega
  -- where the new addresses come from
  have hcase : ∀ j l, v.Alloc g j → v'.slot j l ≠ 0 →
      (j = i ∧ l = k ∧ v'.slot j l = b) ∨ (¬ (j = i ∧ l = k) ∧ v'.slot j l = v.slot j l) := by
    intro j l hj hne
    by_cases hji : j = i
    · subst hji
      rw [hslot] at hne ⊢
      by_cases hlk : l = k
      · simp [hlk]
      · simp [hlk]
    · exact .inr ⟨fun hc => hji hc.1, hother j l hj hji⟩
  have hheld : ∀ c, c ≠ 0 → (v'.Held g c ↔ v.Held g c ∨ c = b) := by
    intro c hc0
    constructor
    · rintro ⟨j, l, hj, rfl⟩
      rcases hcase j l ((halloc j).mp hj) hc0 with ⟨-, -, hb⟩ | ⟨-, hold⟩
      · exact .inr hb
      · exact .inl ⟨j, l, (halloc j).mp hj, hold.symm⟩
    · rintro (⟨j, l, hj, rfl⟩ | rfl)
      · refine ⟨j, l, (halloc j).mpr hj, ?_⟩
        by_cases hji : j = i
        · subst hji
          rw [hslot, if_neg]
          rintro rfl
          exact hc0 hzero
        · exact hother j l hj hji
      · exact ⟨i, k, (halloc i).mpr hi, by rw [hslot, if_pos rfl]⟩
  refine ⟨fun j l hj hne => ?_, fun j m l n hj hm hne heq => ?_, fun c hc => ?_, hX, fun c hc => ?_⟩
  · rcases hcase j l ((halloc j).mp hj) hne with ⟨-, -, hb⟩ | ⟨-, hold⟩
    · rw [hb]
      exact ⟨hdata, hsize⟩
    · rw [hold] at hne ⊢
      exact h.data j l ((halloc j).mp hj) hne
  · have hj' := (halloc j).mp hj
    have hm' := (halloc m).mp hm
    rcases hcase j l hj' hne with ⟨rfl, rfl, hb⟩ | ⟨-, hold⟩ <;>
      rcases hcase m n hm' (heq ▸ hne) with ⟨rfl, rfl, hb'⟩ | ⟨-, hold'⟩
    · exact ⟨rfl, rfl⟩
    · exact absurd ⟨m, n, hm', by rw [← hold', ← heq, hb]⟩ hnot
    · exact absurd ⟨j, l, hj', by rw [← hold, heq, hb']⟩ hnot
    · exact h.inj j m l n hj' hm' (hold ▸ hne) (by rw [← hold, heq, hold'])
  · rw [hbm, h.bits c hc, mem_cons]
    by_cases hc0 : c = 0
    · have := datastart_pos g
      simp [hc0, this]
    · rw [hheld c hc0]
      tauto
  · obtain ⟨hcd, hcs, hcn⟩ := h.flight c (mem_cons_of_mem _ hc)
    have hc0 : c ≠ 0 := by have := datastart_pos g; omega
    refine ⟨hcd, hcs, fun hh => ?_⟩
    rcases (hheld c hc0).mp hh with hh | rfl
    · exact hcn hh
    · exact hbX hc

theorem alloc_setAddr_iff : (v.setAddr i m a).Alloc g j ↔ v.Alloc g j := by
  unfold setAddr
  rw [alloc_setIno_iff]
  split
  · rename_i h
    subst h
    rfl
  · rfl

theorem ino_setAddr (m : Fin (NDIRECT + 1)) (a : ℕ) : (v.setAddr i m a).ino i = (v.ino i).setAddr m a := by
  simp [setAddr, setIno]

/-- Changing an address in `addrs` that is not the indirect block. -/
theorem slot_setAddr_direct (hm : m ≠ INDIRECT) (a : ℕ) :
    (v.setAddr i m a).slot i l = if l = m.val then a else v.slot i l := by
  by_cases hl : l < NDIRECT + 1
  · rw [slot_direct hl, slot_direct hl, ino_setAddr, Dinode.addrs_setAddr]
    simp only [Fin.ext_iff]
  · have hlm : l ≠ m.val := fun h => hl (h ▸ m.isLt)
    rw [if_neg hlm, slot_indirect hl, slot_indirect hl, ino_setAddr]
    simp only [Dinode.addrs_setAddr, if_neg hm.symm]
    rfl

/-- Entering a zeroed indirect block. -/
theorem slot_setAddr_indirect (hzero : (v.ino i).addrs INDIRECT = 0) (hdat : v.dat a = fun _ => 0) :
    (v.setAddr i INDIRECT a).slot i l = if l = NDIRECT then a else v.slot i l := by
  by_cases hl : l < NDIRECT + 1
  · rw [slot_direct hl, slot_direct hl, ino_setAddr, Dinode.addrs_setAddr]
    simp only [Fin.ext_iff]
    rfl
  · have hne : l ≠ NDIRECT := by omega
    rw [if_neg hne, slot_indirect hl, slot_indirect hl, ino_setAddr]
    have hword : Page.word (v.dat a) (4 * (l - (NDIRECT + 1))) = 0 := by
      rw [hdat, Page.word]
      simp [Page.slice, Page.byte, leVal, range_succ]
    have hsame : (v.setAddr i INDIRECT a).dat = v.dat := rfl
    simp only [Dinode.addrs_setAddr, if_true, hsame, hword, hzero]
    simp

/-- `ip->addrs[bn] = addr = balloc()`. -/
theorem Good.setAddr_direct (h : v.Good g (b :: X)) (hi : v.Alloc g i)
    (hm : m ≠ INDIRECT) (hzero : (v.ino i).addrs m = 0) : (v.setAddr i m b).Good g X :=
  h.take hi (fun _ => alloc_setAddr_iff) rfl (fun _ _ _ hji => slot_setIno_ne hji)
    ((slot_direct m.isLt).trans hzero) fun _ => slot_setAddr_direct hm b

/-- `ip->addrs[NDIRECT] = addr = balloc()`. -/
theorem Good.setAddr_indirect (h : v.Good g (b :: X)) (hi : v.Alloc g i)
    (hzero : (v.ino i).addrs INDIRECT = 0) (hdat : v.dat b = fun _ => 0) : (v.setAddr i INDIRECT b).Good g X :=
  h.take hi (fun _ => alloc_setAddr_iff) rfl (fun _ _ _ hji => slot_setIno_ne hji)
    (slot_INDIRECT.trans hzero) fun _ => slot_setAddr_indirect hzero hdat

/-- Reading and writing the words of an indirect block. -/
theorem word_move (x : Block) {m n : ℕ} (hm : m < NINDIRECT) (hn : n < NINDIRECT) (ha : a < 2 ^ 32) :
    (Page.move x (4 * m) (leBytes 4 a)).word (4 * n) = if n = m then a else x.word (4 * n) := by
  have hB : 4 * NINDIRECT = BSIZE := rfl
  unfold Page.word
  split
  · rename_i h
    subst h
    have hfits : 4 * n + (leBytes 4 a).length ≤ BSIZE := by
      rw [leBytes_length]
      omega
    have hself := Page.slice_move_self x hfits
    rw [leBytes_length] at hself
    rw [hself, leVal_leBytes_of_lt ha]
  · rename_i h
    rw [Page.slice_move_disjoint x (by rw [leBytes_length]; omega)]

/-- Changing an entry of the indirect block. -/
theorem slot_setDat_indirect (hne : (v.ino i).addrs INDIRECT ≠ 0) {m : ℕ} (hm : m < NINDIRECT) (ha : a < 2 ^ 32) :
    (v.setDat ((v.ino i).addrs INDIRECT)
        ((v.dat ((v.ino i).addrs INDIRECT)).move (4 * m) (leBytes 4 a))).slot i l =
      if l = NDIRECT + 1 + m then a else v.slot i l := by
  by_cases hl : l < NDIRECT + 1
  · rw [slot_direct hl, slot_direct hl, if_neg (by omega)]
    rfl
  · rw [slot_indirect hl, slot_indirect hl]
    simp only [setDat, update_self]
    by_cases hrange : l < NDIRECT + 1 + NINDIRECT
    · have : l - (NDIRECT + 1) = m ↔ l = NDIRECT + 1 + m := by omega
      simp only [hrange, hne, ne_eq, not_false_eq_true, and_self, if_true,
        word_move _ hm (show l - (NDIRECT + 1) < NINDIRECT by omega) ha, this]
    · have : l ≠ NDIRECT + 1 + m := by omega
      simp only [hrange, false_and, if_false, if_neg this]

theorem slot_setDat {x : Block} (hb : (v.ino i).addrs INDIRECT ≠ b) : (v.setDat b x).slot i k = v.slot i k :=
  slot_congr rfl fun _ => update_of_ne hb _ _

/-- `a[bn] = addr = balloc()` in the indirect block. -/
theorem Good.setDat_indirect (h : v.Good g (b :: X)) (hi : v.Alloc g i)
    (hne : (v.ino i).addrs INDIRECT ≠ 0) {m : ℕ} (hm : m < NINDIRECT) (hzero : v.slot i (NDIRECT + 1 + m) = 0) :
    (v.setDat ((v.ino i).addrs INDIRECT)
      ((v.dat ((v.ino i).addrs INDIRECT)).move (4 * m) (leBytes 4 b))).Good g X := by
  have hb : b < 2 ^ 32 := by
    have := (h.flight b mem_cons_self).2.1
    have := g.size_le
    omega
  refine h.take hi (fun _ => Iff.rfl) rfl (fun j l hj hji => ?_) hzero fun l =>
    slot_setDat_indirect hne hm hb
  refine slot_setDat fun heq => ?_
  have := (h.inj j i NDIRECT NDIRECT hj hi (by rw [slot_INDIRECT, heq]; exact hne)
    (by rw [slot_INDIRECT, slot_INDIRECT, heq])).1
  exact hji this

/-- Writing a block that some inode holds as data. -/
theorem Good.setDat (h : v.Good g X) (hi : v.Alloc g i) (hb : v.slot i k = b) (hb0 : b ≠ 0)
    (hk : k ≠ NDIRECT) (x : Block) : (v.setDat b x).Good g X :=
  h.congr (fun _ => Iff.rfl) (fun _ _ hj => slot_setDat (h.ne_indirect hi hj hb hb0 hk)) rfl

/-- Changing an inode without touching its addresses. -/
theorem Good.setIno (h : v.Good g X) (hd : d.addrs = (v.ino i).addrs)
    (htype : d.type ≠ 0 ↔ (v.ino i).type ≠ 0) : (v.setIno i d).Good g X := by
  refine h.congr (fun j => ?_) (fun j l hj => ?_) rfl
  · rw [alloc_setIno_iff]
    split
    · rename_i hji
      subst hji
      unfold Alloc
      rw [htype]
    · rfl
  · by_cases hji : j = i
    · subst hji
      exact slot_congr (by simpa [Image.setIno] using hd) fun _ => rfl
    · exact slot_setIno_ne hji

theorem slot_of_addrs_zero (h : (v.ino i).addrs = fun _ => 0) : v.slot i k = 0 := by
  by_cases hk : k < NDIRECT + 1
  · rw [slot_direct hk, h]
  · rw [slot_indirect hk, h]
    simp

/-- Making or unmaking an inode that holds no blocks. -/
theorem Good.setIno_empty (h : v.Good g X) (hd : d.addrs = fun _ => 0)
    (hempty : v.Alloc g i → ∀ k, v.slot i k = 0) : (v.setIno i d).Good g X := by
  have hself : ∀ k, (v.setIno i d).slot i k = 0 := fun k =>
    slot_of_addrs_zero (by simpa [Image.setIno] using hd)
  -- a non-zero address belongs to another inode
  have hcase : ∀ j l, (v.setIno i d).slot j l ≠ 0 → j ≠ i ∧ (v.setIno i d).slot j l = v.slot j l := by
    intro j l hne
    have hji : j ≠ i := by
      rintro rfl
      exact hne (hself l)
    exact ⟨hji, slot_setIno_ne hji⟩
  have halloc : ∀ j, j ≠ i → ((v.setIno i d).Alloc g j ↔ v.Alloc g j) := by
    intro j hji
    rw [alloc_setIno_iff, if_neg hji]
  have hheld : ∀ c, c ≠ 0 → ((v.setIno i d).Held g c ↔ v.Held g c) := by
    intro c hc
    constructor
    · rintro ⟨j, l, hj, rfl⟩
      obtain ⟨hji, hold⟩ := hcase j l hc
      exact ⟨j, l, (halloc j hji).mp hj, hold.symm⟩
    · rintro ⟨j, l, hj, rfl⟩
      have hji : j ≠ i := by
        rintro rfl
        exact hc (hempty hj l)
      exact ⟨j, l, (halloc j hji).mpr hj, slot_setIno_ne hji⟩
  refine ⟨fun j l hj hne => ?_, fun j m l n hj hm hne heq => ?_, fun c hc => ?_, h.nodup,
    fun c hc => ?_⟩
  · obtain ⟨hji, hold⟩ := hcase j l hne
    rw [hold] at hne ⊢
    exact h.data j l ((halloc j hji).mp hj) hne
  · obtain ⟨hji, hold⟩ := hcase j l hne
    obtain ⟨hmi, hold'⟩ := hcase m n (heq ▸ hne)
    exact h.inj j m l n ((halloc j hji).mp hj) ((halloc m hmi).mp hm) (hold ▸ hne)
      (by rw [← hold, heq, hold'])
  · show v.bm c = true ↔ _
    by_cases hc0 : c = 0
    · have := datastart_pos g
      rw [h.bits c hc]
      simp [hc0, this]
    · rw [hheld c hc0]
      exact h.bits c hc
  · obtain ⟨hcd, hcs, hcn⟩ := h.flight c hc
    have := datastart_pos g
    rw [hheld c (by omega)]
    exact ⟨hcd, hcs, hcn⟩

/-! ## Taking all blocks from an inode -/

/-- The address numbers of an inode in the order in which `itrunc` frees them. -/
def truncOrder : List ℕ :=
  List.range NDIRECT ++ ((List.range NINDIRECT).map (NDIRECT + 1 + ·) ++ [NDIRECT])

theorem mem_truncOrder : k ∈ truncOrder ↔ k < NDIRECT + 1 + NINDIRECT := by
  simp only [truncOrder, mem_append, mem_range, mem_map, mem_singleton]
  constructor
  · rintro (h | ⟨j, hj, rfl⟩ | rfl) <;> omega
  · intro h
    by_cases h1 : k < NDIRECT
    · exact .inl h1
    · by_cases h2 : k = NDIRECT
      · exact .inr (.inr h2)
      · exact .inr (.inl ⟨k - (NDIRECT + 1), by omega, by omega⟩)

theorem nodup_truncOrder : truncOrder.Nodup := by decide +kernel

theorem slot_eq_zero (h : ¬ k < NDIRECT + 1 + NINDIRECT) : v.slot i k = 0 := by
  rw [slot_indirect (by omega), if_neg fun hc => h hc.1]

/-- The non-zero addresses among those numbered in `ks`. -/
def addrList (v : Image) (i : ℕ) (ks : List ℕ) : List ℕ := (ks.map (v.slot i)).filter (· ≠ 0)

/-- The inode without its blocks: they are all in flight. -/
theorem Good.clear (h : v.Good g X) (hi : v.Alloc g i) (hd : d.addrs = fun _ => 0) (htype : d.type ≠ 0) :
    (v.setIno i d).Good g (v.addrList i truncOrder ++ X) := by
  have hself : ∀ k, (v.setIno i d).slot i k = 0 := fun k =>
    slot_of_addrs_zero (by simpa [Image.setIno] using hd)
  have halloc : ∀ j, (v.setIno i d).Alloc g j ↔ v.Alloc g j := by
    intro j
    rw [alloc_setIno_iff]
    split
    · rename_i hji
      subst hji
      exact ⟨fun _ => hi, fun hj => ⟨hj.1, htype⟩⟩
    · rfl
  have hcase : ∀ j l, (v.setIno i d).slot j l ≠ 0 → j ≠ i ∧ (v.setIno i d).slot j l = v.slot j l := by
    intro j l hne
    have hji : j ≠ i := by
      rintro rfl
      exact hne (hself l)
    exact ⟨hji, slot_setIno_ne hji⟩
  have hmem : ∀ c, c ∈ v.addrList i truncOrder ↔ c ≠ 0 ∧ ∃ k, v.slot i k = c := by
    intro c
    simp only [addrList, mem_filter, mem_map, mem_truncOrder, ne_eq, decide_not,
      Bool.not_eq_true', decide_eq_false_iff_not]
    constructor
    · rintro ⟨⟨k, -, hk⟩, hc⟩
      exact ⟨hc, k, hk⟩
    · rintro ⟨hc, k, hk⟩
      refine ⟨⟨k, ?_, hk⟩, hc⟩
      by_contra hlt
      exact hc (hk ▸ slot_eq_zero hlt)
  have hheld : ∀ c, c ≠ 0 → ((v.setIno i d).Held g c ↔ v.Held g c ∧ c ∉ v.addrList i truncOrder) := by
    intro c hc
    rw [hmem]
    constructor
    · rintro ⟨j, l, hj, rfl⟩
      obtain ⟨hji, hold⟩ := hcase j l hc
      refine ⟨⟨j, l, (halloc j).mp hj, hold.symm⟩, ?_⟩
      rintro ⟨-, k, hk⟩
      rw [hold] at hk hc
      exact hji (h.inj j i l k ((halloc j).mp hj) hi hc hk.symm).1
    · rintro ⟨⟨j, l, hj, rfl⟩, hnot⟩
      have hji : j ≠ i := by
        rintro rfl
        exact hnot ⟨hc, l, rfl⟩
      exact ⟨j, l, (halloc j).mpr hj, slot_setIno_ne hji⟩
  have hnodup : (v.addrList i truncOrder).Nodup := by
    -- distinct numbers with non-zero addresses have distinct addresses
    unfold addrList
    rw [filter_map]
    refine List.Nodup.map_on (fun k hk l _ hkl => ?_) (nodup_truncOrder.filter _)
    have hk0 : v.slot i k ≠ 0 := by simpa using (mem_filter.mp hk).2
    exact (h.inj i i k l hi hi hk0 hkl).2
  refine ⟨fun j l hj hne => ?_, fun j m l n hj hm hne heq => ?_, fun c hc => ?_, ?_, fun c hc => ?_⟩
  · obtain ⟨-, hold⟩ := hcase j l hne
    rw [hold] at hne ⊢
    exact h.data j l ((halloc j).mp hj) hne
  · obtain ⟨-, hold⟩ := hcase j l hne
    obtain ⟨-, hold'⟩ := hcase m n (heq ▸ hne)
    exact h.inj j m l n ((halloc j).mp hj) ((halloc m).mp hm) (hold ▸ hne)
      (by rw [← hold, heq, hold'])
  · show v.bm c = true ↔ _
    rw [h.bits c hc, mem_append]
    by_cases hc0 : c = 0
    · have := datastart_pos g
      simp [hc0, this]
    · rw [hheld c hc0]
      have himp : c ∈ v.addrList i truncOrder → v.Held g c := by
        rw [hmem]
        rintro ⟨-, k, hk⟩
        exact ⟨i, k, hi, hk⟩
      tauto
  · refine hnodup.append h.nodup fun c hc hcX => ?_
    obtain ⟨-, k, hk⟩ := (hmem c).mp hc
    exact (h.flight c hcX).2.2 ⟨i, k, hi, hk⟩
  · rcases mem_append.mp hc with hc | hc
    · obtain ⟨hc0, k, hk⟩ := (hmem c).mp hc
      have hdata := h.data i k hi (hk ▸ hc0)
      rw [hk] at hdata
      exact ⟨hdata.1, hdata.2, fun hh => ((hheld c hc0).mp hh).2 hc⟩
    · obtain ⟨hcd, hcs, hcn⟩ := h.flight c hc
      have := datastart_pos g
      exact ⟨hcd, hcs, fun hh => hcn ((hheld c (by omega)).mp hh).1⟩

end Image

end Xv6
