import Xv6.Fs.Files
import Mathlib.Tactic.Common

/-!
# Directories as finite maps

The names of entries count up to the first zero or up to `DIRSIZ` bytes. A well-formed directory binds every name at
most once; `dirlink` adds a binding and clearing an entry removes one, and the other bindings stay.
-/

namespace Xv6

open Function List

/-! ## Names -/

/-- The part of a name that counts. -/
def trunc14 (name : List UInt8) : List UInt8 := (name.takeWhile (· != 0)).take DIRSIZ

theorem strncmp_eq_zero_iff (n : ℕ) (s t : List UInt8) :
    strncmp n s t = 0 ↔ (s.takeWhile (· != 0)).take n = (t.takeWhile (· != 0)).take n := by
  induction n generalizing s t with
  | zero => simp [strncmp]
  | succ n ih =>
    unfold strncmp
    split
    · rename_i hc
      cases s with
      | nil => simp at hc
      | cons a s =>
        cases t with
        | nil => simp at hc
        | cons b t =>
          simp only [headD_cons] at hc
          obtain ⟨ha, rfl⟩ := hc
          rw [takeWhile_cons_of_pos (by simpa using ha), takeWhile_cons_of_pos (by simpa using ha),
            take_succ_cons, take_succ_cons, cons_inj_right]
          exact ih s t
    · rename_i hc
      have hsub : ((s.headD 0).toNat : ℤ) - (t.headD 0).toNat = 0 ↔ s.headD 0 = t.headD 0 := by
        rw [← UInt8.toNat_inj]
        omega
      rw [hsub]
      have hzero : s.headD 0 = t.headD 0 → s.headD 0 = 0 := by
        intro heq
        by_contra hne
        exact hc ⟨hne, heq⟩
      have hnil : ∀ u : List UInt8, u.headD 0 = 0 ↔ (u.takeWhile (· != 0)).take (n + 1) = [] := by
        intro u
        cases u with
        | nil => simp
        | cons a u => by_cases ha : a = 0 <;> simp [ha]
      constructor
      · intro heq
        rw [(hnil s).mp (hzero heq), (hnil t).mp (heq ▸ hzero heq)]
      · intro heq
        have hhead : ∀ u : List UInt8, ((u.takeWhile (· != 0)).take (n + 1)).headD 0 = u.headD 0 := by
          intro u
          cases u with
          | nil => rfl
          | cons a u => by_cases ha : a = 0 <;> simp [ha]
        rw [← hhead s, ← hhead t, heq]

theorem namecmp_eq_zero_iff (s t : List UInt8) : namecmp s t = 0 ↔ trunc14 s = trunc14 t :=
  strncmp_eq_zero_iff DIRSIZ s t

theorem takeWhile_strncpy (n : ℕ) (t : List UInt8) :
    (strncpy n t).takeWhile (· != 0) = (t.takeWhile (· != 0)).take n := by
  induction n generalizing t with
  | zero => rfl
  | succ n ih =>
    cases t with
    | nil => simp [strncpy, replicate_succ]
    | cons c t =>
      by_cases hc : c = 0
      · simp [strncpy, hc, replicate_succ]
      · simp [strncpy, hc, ih]

/-- A stored name counts as the name that was given. -/
theorem trunc14_strncpy (name : List UInt8) : trunc14 (strncpy DIRSIZ name) = trunc14 name := by
  rw [trunc14, takeWhile_strncpy, take_take, Nat.min_self]
  rfl

/-! ## Entries -/

theorem getElem?_splice {α : Type*} {l : List α} {off : ℕ} (h : off ≤ l.length) (src : List α) (i : ℕ) :
    (splice l off src)[i]? = if off ≤ i ∧ i < off + src.length then src[i - off]? else l[i]? := by
  unfold splice
  rw [append_assoc, getElem?_append, length_take, Nat.min_eq_left h]
  split
  · rename_i hlt
    rw [if_neg (by omega), getElem?_take_of_lt hlt]
  · rename_i hge
    rw [getElem?_append]
    split
    · rw [if_pos (by omega)]
    · rw [if_neg (by omega), getElem?_drop]
      congr 1
      omega

theorem Dirent.read_bytes (inum : ℕ) (name : List UInt8) :
    Dirent.read (Dirent.bytes inum name) = ⟨inum % 2 ^ 16, strncpy DIRSIZ name⟩ := by
  have htake : (Dirent.bytes inum name).take 2 = leBytes 2 inum := take_left' (leBytes_length 2 inum)
  have hdrop : (Dirent.bytes inum name).drop 2 = strncpy DIRSIZ name := drop_left' (leBytes_length 2 inum)
  rw [Dirent.read, htake, hdrop, leVal_leBytes]
  rfl

section
variable {data : List UInt8} {k : ℕ} {b : List UInt8}

theorem entries_mul (h : data.length % DIRENT = 0) : DIRENT * entries data = data.length :=
  Nat.mul_div_cancel' (Nat.dvd_of_mod_eq_zero h)

/-- Writing one entry changes no other. -/
theorem entry_splice (hk : DIRENT * k ≤ data.length) (hb : b.length = DIRENT) (j : ℕ) :
    entry (splice data (DIRENT * k) b) j = if j = k then Dirent.read b else entry data j := by
  have hwindow : ((splice data (DIRENT * k) b).drop (DIRENT * j)).take DIRENT =
      if j = k then b else (data.drop (DIRENT * j)).take DIRENT := by
    apply ext_getElem?
    intro i
    rw [getElem?_take]
    split
    · rename_i hi
      rw [getElem?_drop, getElem?_splice hk, hb]
      unfold DIRENT DIRSIZ at hi ⊢
      by_cases hj : j = k
      · subst hj
        rw [if_pos (by omega), if_pos rfl, Nat.add_sub_cancel_left]
      · rw [if_neg (by omega), if_neg hj, getElem?_take_of_lt hi, getElem?_drop]
    · rename_i hi
      split
      · exact (getElem?_eq_none (by omega)).symm
      · rw [getElem?_take, if_neg hi]
  unfold entry
  rw [hwindow]
  split <;> rfl

theorem length_splice_entry (hmod : data.length % DIRENT = 0) (hk : k ≤ entries data) (hb : b.length = DIRENT) :
    (splice data (DIRENT * k) b).length = DIRENT * Nat.max (entries data) (k + 1) := by
  have hmul := entries_mul hmod
  have hle : DIRENT * k ≤ data.length := hmul ▸ Nat.mul_le_mul_left _ hk
  rw [splice_length hle, hb, ← hmul, ← Nat.mul_succ, Nat.mul_max_mul_left]

theorem entries_splice (hmod : data.length % DIRENT = 0) (hk : k ≤ entries data) (hb : b.length = DIRENT) :
    entries (splice data (DIRENT * k) b) = Nat.max (entries data) (k + 1) := by
  rw [entries, length_splice_entry hmod hk hb, Nat.mul_div_cancel_left _ (by decide)]

end

/-! ## Bindings -/

/-- The entry binds the name. -/
def binds (key : List UInt8) (e : Dirent) : Bool := e.inum ≠ 0 ∧ trunc14 e.name = key

theorem matchesName_eq (name : List UInt8) : matchesName name = binds (trunc14 name) := by
  funext e
  simp only [matchesName, binds, namecmp_eq_zero_iff, eq_comm (a := trunc14 name)]

/-- The inode that a name is bound to. -/
def bound (data : List UInt8) (key : List UInt8) : Option ℕ :=
  (firstEntry data 0 (binds key)).map fun k => (entry data k).inum

/-- Complete entries, and no name twice. -/
structure IsMap (data : List UInt8) : Prop where
  size : data.length % DIRENT = 0
  distinct : ∀ j k key, j < entries data → k < entries data → binds key (entry data j) = true →
    binds key (entry data k) = true → j = k

/-- A directory: the first two entries are `.` and `..`. -/
structure IsDir (data : List UInt8) : Prop extends IsMap data where
  dot : 0 < entries data ∧ binds dot (entry data 0) = true
  dotdot : 1 < entries data ∧ binds dotdot (entry data 1) = true

section
variable {data : List UInt8} {test : Dirent → Bool} {k : ℕ}

theorem firstEntry_some (h : firstEntry data 0 test = some k) : k < entries data ∧ test (entry data k) = true := by
  have hmem := mem_range'_1.mp (mem_of_find?_eq_some h)
  exact ⟨by omega, find?_some (p := fun k => test (entry data k)) h⟩

theorem firstEntry_none (h : firstEntry data 0 test = none) (hk : k < entries data) : test (entry data k) = false := by
  have hfind := find?_eq_none.mp h k (mem_range'_1.mpr ⟨Nat.zero_le _, by omega⟩)
  simpa using hfind

end

/-- The bindings of a directory, entry by entry. -/
theorem IsMap.bound_eq_some_iff {data key : List UInt8} {i : ℕ} (h : IsMap data) :
    bound data key = some i ↔ ∃ k < entries data, binds key (entry data k) = true ∧ (entry data k).inum = i := by
  unfold bound
  constructor
  · intro h
    obtain ⟨k, hk, rfl⟩ := Option.map_eq_some_iff.mp h
    exact ⟨k, (firstEntry_some hk).1, (firstEntry_some hk).2, rfl⟩
  · rintro ⟨k, hk, hbinds, rfl⟩
    cases hfirst : firstEntry data 0 (binds key) with
    | none => exact absurd hbinds (by rw [firstEntry_none hfirst hk]; simp)
    | some j =>
      obtain ⟨hj, hbinds'⟩ := firstEntry_some hfirst
      rw [h.distinct j k key hj hk hbinds' hbinds]
      rfl

/-! ## Adding and removing -/

section
variable {data name : List UInt8} {k inum : ℕ}

variable {key data' : List UInt8} {e : Dirent}

theorem binds_iff : binds key e = true ↔ e.inum ≠ 0 ∧ trunc14 e.name = key := by
  simp [binds]

/-- The new entry binds its name only. -/
theorem binds_new (h16 : inum < 2 ^ 16) (hne : inum ≠ 0) :
    binds key (Dirent.read (Dirent.bytes inum name)) = true ↔ trunc14 name = key := by
  rw [Dirent.read_bytes, Nat.mod_eq_of_lt h16, binds_iff, trunc14_strncpy]
  simp [hne]

/-- Entry `k` is replaced by `e`. -/
structure Replaced (data data' : List UInt8) (k : ℕ) (e : Dirent) : Prop where
  le : k ≤ entries data
  entries : entries data' = Nat.max (entries data) (k + 1)
  size : data'.length % DIRENT = 0
  same : ∀ j, j ≠ k → entry data' j = entry data j
  entry : entry data' k = e

theorem replaced_splice (hmod : data.length % DIRENT = 0) (hk : k ≤ entries data) {b : List UInt8}
    (hb : b.length = DIRENT) : Replaced data (splice data (DIRENT * k) b) k (Dirent.read b) := by
  have hle : DIRENT * k ≤ data.length := entries_mul hmod ▸ Nat.mul_le_mul_left _ hk
  refine ⟨hk, entries_splice hmod hk hb, ?_, fun j hj => ?_, ?_⟩
  · rw [length_splice_entry hmod hk hb, Nat.mul_mod_right]
  · rw [entry_splice hle hb, if_neg hj]
  · rw [entry_splice hle hb, if_pos rfl]

theorem Replaced.lt (h : Replaced data data' k e) {j : ℕ} : j < Xv6.entries data' ↔ j = k ∨ j < Xv6.entries data := by
  have hle := h.le
  have hentries : Xv6.entries data' = max (Xv6.entries data) (k + 1) := h.entries
  omega

/-- The entries that bind a name afterwards. -/
theorem Replaced.binds (h : Replaced data data' k e) (key : List UInt8) (j : ℕ) :
    Xv6.binds key (Xv6.entry data' j) = true ↔
      (j = k ∧ Xv6.binds key e = true) ∨ (j ≠ k ∧ Xv6.binds key (Xv6.entry data j) = true) := by
  by_cases hj : j = k
  · subst hj
    rw [h.entry]
    simp
  · rw [h.same j hj]
    simp [hj]

/-- An entry that is not in use, or the place behind the last one. -/
def Free (data : List UInt8) (k : ℕ) : Prop := k = entries data ∨ (k < entries data ∧ (entry data k).inum = 0)

theorem Free.not_binds {j : ℕ} (h : Free data k) (hj : j < entries data)
    (hbinds : binds key (entry data j) = true) : j ≠ k := by
  rintro rfl
  rcases h with heq | ⟨-, hzero⟩
  · omega
  · exact (binds_iff.mp hbinds).1 hzero

/-- `dirlink` of a name that is not there adds its binding. -/
theorem IsMap.link (h : IsMap data) (hfree : Free data k)
    (hnew : bound data (trunc14 name) = none) (hr : Replaced data data' k e)
    (he : ∀ key, binds key e = true ↔ trunc14 name = key) :
    IsMap data' ∧ bound data' = update (bound data) (trunc14 name) (some e.inum) := by
  have hnone : ∀ j < entries data, binds (trunc14 name) (entry data j) = false := fun j hj =>
    firstEntry_none (Option.map_eq_none_iff.mp hnew) hj
  have hmap : IsMap data' := by
    refine ⟨hr.size, fun i j key hi hj hbi hbj => ?_⟩
    rw [hr.binds] at hbi hbj
    rw [hr.lt] at hi hj
    rcases hbi with ⟨rfl, hei⟩ | ⟨hik, hbi⟩ <;> rcases hbj with ⟨rfl, hej⟩ | ⟨hjk, hbj⟩
    · rfl
    · rw [← (he key).mp hei] at hbj
      exact absurd hbj (by rw [hnone j (hj.resolve_left hjk)]; simp)
    · rw [← (he key).mp hej] at hbi
      exact absurd hbi (by rw [hnone i (hi.resolve_left hik)]; simp)
    · exact h.distinct i j key (hi.resolve_left hik) (hj.resolve_left hjk) hbi hbj
  refine ⟨hmap, funext fun key => Option.ext fun i => ?_⟩
  rw [hmap.bound_eq_some_iff]
  by_cases hkey : key = trunc14 name
  · subst hkey
    rw [update_self, Option.some.injEq]
    constructor
    · rintro ⟨j, hj, hb, rfl⟩
      rcases (hr.binds _ _).mp hb with ⟨rfl, -⟩ | ⟨hjk, hb⟩
      · rw [hr.entry]
      · exact absurd hb (by rw [hnone j ((hr.lt.mp hj).resolve_left hjk)]; simp)
    · rintro rfl
      exact ⟨k, hr.lt.mpr (.inl rfl), (hr.binds _ _).mpr (.inl ⟨rfl, (he _).mpr rfl⟩), by rw [hr.entry]⟩
  · rw [update_of_ne hkey, h.bound_eq_some_iff]
    constructor
    · rintro ⟨j, hj, hb, rfl⟩
      rcases (hr.binds _ _).mp hb with ⟨-, he'⟩ | ⟨hjk, hb⟩
      · exact absurd ((he key).mp he').symm hkey
      · exact ⟨j, (hr.lt.mp hj).resolve_left hjk, hb, by rw [hr.same j hjk]⟩
    · rintro ⟨j, hj, hb, rfl⟩
      have hjk := hfree.not_binds hj hb
      exact ⟨j, hr.lt.mpr (.inr hj), (hr.binds _ _).mpr (.inr ⟨hjk, hb⟩), by rw [hr.same j hjk]⟩

/-- An entry that binds a name stays. -/
theorem Replaced.kept (hr : Replaced data data' k e) (hfree : Free data k) {j : ℕ}
    (h : j < Xv6.entries data ∧ Xv6.binds key (Xv6.entry data j) = true) :
    j < Xv6.entries data' ∧ Xv6.binds key (Xv6.entry data' j) = true :=
  ⟨hr.lt.mpr (.inr h.1), (hr.binds _ _).mpr (.inr ⟨hfree.not_binds h.1 h.2, h.2⟩)⟩

/-- Clearing an entry other than `.` and `..` removes its binding. -/
theorem IsDir.clear (h : IsDir data) (hk : k < entries data)
    (hb : binds key (entry data k) = true) (hdot : key ≠ Xv6.dot) (hdotdot : key ≠ Xv6.dotdot)
    (hr : Replaced data data' k e) (he : e.inum = 0) : IsDir data' ∧ bound data' = update (bound data) key none := by
  have hnot : ∀ key', ¬ binds key' e = true := fun key' hbe => (binds_iff.mp hbe).1 he
  have hlt : ∀ {j}, j < entries data' ↔ j < entries data := by
    intro j
    rw [hr.lt]
    omega
  have hbinds : ∀ key' j, binds key' (entry data' j) = true ↔ j ≠ k ∧ binds key' (entry data j) = true := by
    intro key' j
    rw [hr.binds]
    simp [hnot]
  have hmap : IsMap data' := by
    refine ⟨hr.size, fun i j key' hi hj hbi hbj => ?_⟩
    exact h.distinct i j key' (hlt.mp hi) (hlt.mp hj) ((hbinds _ _).mp hbi).2 ((hbinds _ _).mp hbj).2
  -- the two dots are other entries, since an entry has one name
  have hother : ∀ {j key'}, binds key' (entry data j) = true → key ≠ key' → j ≠ k := by
    rintro j key' hbj hne rfl
    exact hne ((binds_iff.mp hb).2.symm.trans (binds_iff.mp hbj).2)
  refine ⟨⟨hmap, ⟨hlt.mpr h.dot.1, ?_⟩, ⟨hlt.mpr h.dotdot.1, ?_⟩⟩, ?_⟩
  · exact (hbinds _ _).mpr ⟨hother h.dot.2 hdot, h.dot.2⟩
  · exact (hbinds _ _).mpr ⟨hother h.dotdot.2 hdotdot, h.dotdot.2⟩
  · funext key'
    apply Option.ext
    intro i
    rw [hmap.bound_eq_some_iff]
    by_cases hkey : key' = key
    · subst hkey
      rw [update_self]
      constructor
      · rintro ⟨j, hj, hbj, -⟩
        obtain ⟨hjk, hbj⟩ := (hbinds _ _).mp hbj
        exact absurd (h.distinct j k key' (hlt.mp hj) hk hbj hb) hjk
      · exact fun hnone => absurd hnone nofun
    · rw [update_of_ne hkey, h.bound_eq_some_iff]
      constructor
      · rintro ⟨j, hj, hbj, rfl⟩
        obtain ⟨hjk, hbj⟩ := (hbinds _ _).mp hbj
        exact ⟨j, hlt.mp hj, hbj, by rw [hr.same j hjk]⟩
      · rintro ⟨j, hj, hbj, rfl⟩
        have hjk := hother hbj fun heq => hkey heq.symm
        exact ⟨j, hlt.mpr hj, (hbinds _ _).mpr ⟨hjk, hbj⟩, by rw [hr.same j hjk]⟩

end

end Xv6
