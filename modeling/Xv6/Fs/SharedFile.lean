import Xv6.Lib.Lts
import Xv6.Fs.ByteArrays
import Xv6.Fs.Refine

/-!
# Writing through a shared descriptor (`filewrite` in `file.c`)

Any number of processes that share one `struct file`, open for writing, call `filewrite`. Between `ilock` and `iunlock` a process writes
one chunk at the offset of the file and advances the offset; the chunks of different calls come in any order. The
chunks that `writei` accepted are kept beside the file system, each with the offset at which it was written.
-/

namespace Xv6

open Function Code List

namespace SharedFile

open BlockFs Image

/-- `((MAXOPBLOCKS-1-1-2) / 2) * 512`, the largest chunk. -/
def max : ℕ := ((MAXOPBLOCKS - 1 - 1 - 2) / 2) * 512

/-- Where a process is: in a call that writes `addr`, of which `i` bytes are written. -/
inductive Pc where
  | out
  | loop (addr : List UInt8) (i : ℕ)

/-- The file system, the offset in the `struct file`, the processes, and the accepted chunks. -/
structure State (g : Geometry) (P : Type) where
  fs : BlockFs g
  off : BitVec 32
  pc : P → Pc
  accepted : List (ℕ × List UInt8)

/-- What can happen. -/
inductive Event (P : Type) where
  /-- A call of `filewrite`. -/
  | filewrite (p : P) (addr : List UInt8)
  /-- Once round its loop. -/
  | step (p : P)

variable {g : Geometry} {P : Type} [DecidableEq P]

/-- The chunk that a call writes next. -/
def chunk (addr : List UInt8) (i : ℕ) : List UInt8 := (addr.drop i).take (min (addr.length - i) max)

/-- The critical section of `ilock`: `writei`, after reading the inode if necessary. -/
def State.write (s : State g P) (ip : ℕ) (addr : List UInt8) (i : ℕ) :
    EStateM.Result Halt (BlockFs g) (Option (List UInt8) ⊕ Option ℕ) :=
  (FileOp.exec (.write ip s.off.toNat (chunk addr i))).run s.fs

/-- The effect of one event on the file with inode `ip`. A panic is no step. -/
def State.next (ip : ℕ) (s : State g P) : Event P → Option (State g P)
  | .filewrite p addr =>
    match s.pc p with
    | .out => some { s with pc := update s.pc p (.loop addr 0) }
    | .loop _ _ => none
  | .step p =>
    match s.pc p with
    | .out => none
    | .loop addr i =>
      if i < addr.length then
        match s.write ip addr i with
        | .ok (.inr (some r)) fs =>
          -- `panic("short filewrite")`
          if r ≠ min (addr.length - i) max then none
          else some {
            fs
            off := if r > 0 then s.off + BitVec.ofNat 32 r else s.off
            pc := update s.pc p (.loop addr (i + r))
            accepted := s.accepted ++ [(s.off.toNat, chunk addr i)] }
        | .ok _ fs => some { s with fs, pc := update s.pc p .out }
        | .error _ _ => none
      else some { s with pc := update s.pc p .out }

/-- All interleavings from the state `s0`. -/
def lts (ip : ℕ) (s0 : State g P) : Lts (State g P) (Event P) where
  init s := s = s0
  next := State.next ip

/-- The file is a regular one, and nobody is writing yet. -/
structure State.Init (ip : ℕ) (s : State g P) : Prop where
  consistent : s.fs.image.Consistent g
  alloc : s.fs.image.Alloc g ip
  type : (s.fs.image.ino ip).type = T_FILE
  off : s.off.toNat ≤ (s.fs.image.ino ip).size
  pc : ∀ p, s.pc p = .out
  accepted : s.accepted = []

/-- The number of bytes of some chunks. -/
def total (accepted : List (ℕ × List UInt8)) : ℕ := (accepted.map fun a => a.2.length).sum

/-- The chunks occupy consecutive, disjoint ranges, and the file is what it was, overlaid with them. -/
structure Overlaid (ip : ℕ) (s0 s : State g P) : Prop where
  consecutive : ∀ k o src, s.accepted[k]? = some (o, src) →
    o = s0.off.toNat + total (s.accepted.take k) ∧ 0 < src.length ∧ src.length ≤ max
  disjoint : s.accepted.Pairwise fun a b => a.1 + a.2.length ≤ b.1
  off : s.off.toNat = s0.off.toNat + total s.accepted
  content : s.fs.image.content ip = s.accepted.foldl (fun c a => splice c a.1 a.2) (s0.fs.image.content ip)
  /-- No accepted byte is lost. -/
  bytes : s.fs.image.content ip =
    splice (s0.fs.image.content ip) s0.off.toNat (s.accepted.map Prod.snd).flatten

/-- What holds in every run. -/
structure Inv (ip : ℕ) (s0 s : State g P) : Prop extends Overlaid ip s0 s where
  consistent : s.fs.image.Consistent g
  alloc : s.fs.image.Alloc g ip
  hasContent : HasContent (s.fs.image.ino ip)
  off_le : s.off.toNat ≤ (s.fs.image.content ip).length
  off0_le : s0.off.toNat ≤ (s0.fs.image.content ip).length

variable {ip : ℕ} {s0 s s' : State g P} {p : P} {addr : List UInt8} {i : ℕ}

theorem chunk_length : (chunk addr i).length = min (addr.length - i) max := by
  simp only [chunk, length_take, length_drop]
  omega

theorem chunk_pos (h : i < addr.length) : 0 < (chunk addr i).length := by
  rw [chunk_length]
  have hmax : 0 < max := by decide
  omega

theorem total_append (accepted : List (ℕ × List UInt8)) (a : ℕ × List UInt8) :
    total (accepted ++ [a]) = total accepted + a.2.length := by
  simp [total]

theorem total_take_le (accepted : List (ℕ × List UInt8)) (k : ℕ) : total (accepted.take k) ≤ total accepted := by
  conv_rhs => rw [← take_append_drop k accepted]
  simp only [total, map_append, sum_append]
  exact Nat.le_add_right ..

omit [DecidableEq P] in
theorem flatten_length (s : State g P) : (s.accepted.map Prod.snd).flatten.length = total s.accepted := by
  simp [total, length_flatten, comp_def]

omit [DecidableEq P] in
theorem State.Init.inv (h : s.Init ip) : Inv ip s s where
  consecutive := by simp [h.accepted]
  disjoint := by simp [h.accepted]
  off := by simp [h.accepted, total]
  content := by simp [h.accepted]
  bytes := by simp [h.accepted, splice]
  consistent := h.consistent
  alloc := h.alloc
  hasContent := .inl h.type
  off_le := by rw [content_length]; exact h.off
  off0_le := by rw [content_length]; exact h.off

variable {fs : BlockFs g} {e : Event P}

omit [DecidableEq P] in
/-- What the critical section does: `writei` accepts the chunk as a whole, or nothing happens. -/
theorem Inv.write (h : Inv ip s0 s) {r : Option (List UInt8) ⊕ Option ℕ}
    (hrun : s.write ip addr i = .ok r fs) : fs.image.Consistent g ∧ fs.image.Alloc g ip ∧ HasContent (fs.image.ino ip) ∧
    ((r = .inr none ∧ fs.image.content ip = s.fs.image.content ip) ∨
     (r = .inr (some (chunk addr i).length) ∧ s.off.toNat + (chunk addr i).length ≤ MAXFILE * BSIZE ∧
      fs.image.content ip = splice (s.fs.image.content ip) s.off.toNat (chunk addr i))) := by
  have hmax : max < 2 ^ 32 := by decide
  have hlen : (chunk addr i).length < 2 ^ 32 := by rw [chunk_length]; omega
  have hwp : Wp (FileOp.exec (.write ip s.off.toNat (chunk addr i))) _ _ s.fs :=
    FileOp.wp_exec (c := s.fs.image.content) h.consistent (fun _ _ _ => rfl) h.alloc h.hasContent
      ⟨s.off.isLt, hlen⟩
  unfold Wp at hwp
  rw [show (FileOp.exec (.write ip s.off.toNat (chunk addr i))).run s.fs = .ok r fs from hrun] at hwp
  obtain ⟨hcons, hr, harr, hkeep⟩ := hwp
  have halloc := (hkeep ip).1.mpr h.alloc
  have hcont := (hkeep ip).2.mpr h.hasContent
  have hbytes := harr ip halloc hcont
  refine ⟨hcons, halloc, hcont, ?_⟩
  simp only [FileOp.onArrays] at hr hbytes
  split at hr
  · rename_i hbad
    rw [if_pos hbad] at hbytes
    exact .inl ⟨hr, hbytes⟩
  · rename_i hok
    rw [if_neg hok] at hbytes
    exact .inr ⟨hr, by omega, by rw [hbytes]; exact update_self ..⟩

omit [DecidableEq P] in
/-- The chunks written so far end before the offset. -/
theorem Inv.end_le (h : Inv ip s0 s) {a : ℕ × List UInt8} (ha : a ∈ s.accepted) : a.1 + a.2.length ≤ s.off.toNat := by
  obtain ⟨k, hk, hka⟩ := mem_iff_getElem.mp ha
  have hconsec := (h.consecutive k a.1 a.2 (by rw [getElem?_eq_getElem hk, hka])).1
  have htotal := total_take_le s.accepted (k + 1)
  rw [take_succ_eq_append_getElem hk, total_append, hka] at htotal
  have hoff := h.off
  omega

omit [DecidableEq P] in
/-- An accepted chunk. -/
theorem Inv.accept (h : Inv ip s0 s) (hi : i < addr.length) {pc : P → Pc}
    (hrun : s.write ip addr i = .ok (.inr (some (chunk addr i).length)) fs) :
    Inv ip s0 ⟨fs, s.off + BitVec.ofNat 32 (chunk addr i).length, pc, s.accepted ++ [(s.off.toNat, chunk addr i)]⟩ := by
  obtain ⟨hcons, halloc, hcont, ⟨hr, -⟩ | ⟨-, hfits, hbytes⟩⟩ := h.write hrun
  · exact absurd hr (by simp)
  have hB := MAXFILE_lt
  have hle : (chunk addr i).length ≤ max := by rw [chunk_length]; omega
  have hoff : (s.off + BitVec.ofNat 32 (chunk addr i).length).toNat = s.off.toNat + (chunk addr i).length := by
    rw [BitVec.toNat_add, BitVec.toNat_ofNat, Nat.mod_eq_of_lt (a := (chunk addr i).length) (by omega),
      Nat.mod_eq_of_lt (by omega)]
  refine ⟨⟨fun k o src hk => ?_, ?_, ?_, ?_, ?_⟩, hcons, halloc, hcont, ?_, h.off0_le⟩
  · rcases Nat.lt_trichotomy k s.accepted.length with hlt | rfl | hgt
    · rw [getElem?_append_left hlt] at hk
      rw [take_append_of_le_length (Nat.le_of_lt hlt)]
      exact h.consecutive k o src hk
    · rw [getElem?_append_right (Nat.le_refl _), Nat.sub_self, getElem?_cons_zero,
        Option.some.injEq, Prod.mk.injEq] at hk
      obtain ⟨rfl, rfl⟩ := hk
      rw [take_left]
      exact ⟨h.off, chunk_pos hi, hle⟩
    · rw [getElem?_eq_none (by rw [length_append, length_singleton]; omega)] at hk
      nomatch hk
  · rw [pairwise_append]
    refine ⟨h.disjoint, pairwise_singleton _ _, fun a ha b hb => ?_⟩
    obtain rfl := mem_singleton.mp hb
    exact h.end_le ha
  · show (s.off + _).toNat = _
    rw [total_append, hoff, h.off, Nat.add_assoc]
  · rw [foldl_append, ← h.content]
    exact hbytes
  · show fs.image.content ip = _
    rw [hbytes, h.bytes, map_append, flatten_append, ← splice_splice h.off0_le, flatten_length, ← h.off]
    simp
  · show (s.off + _).toNat ≤ (fs.image.content ip).length
    rw [hbytes, splice_length h.off_le, hoff]
    omega

theorem Inv.next (h : Inv ip s0 s) (hnext : s.next ip e = some s') : Inv ip s0 s' := by
  cases e with
  | filewrite p addr =>
    simp only [State.next] at hnext
    split at hnext
    · obtain rfl := Option.some.inj hnext
      exact { h with }
    · nomatch hnext
  | step p =>
    simp only [State.next] at hnext
    split at hnext
    · nomatch hnext
    rename_i addr i hpc
    split at hnext
    · rename_i hi
      split at hnext
      · -- `writei` accepted the chunk
        rename_i r fs hrun
        split at hnext
        · nomatch hnext
        rename_i hr
        rw [not_not, ← chunk_length] at hr
        subst hr
        rw [if_pos (chunk_pos hi)] at hnext
        obtain rfl := Option.some.inj hnext
        exact h.accept hi hrun
      · -- it returned -1
        rename_i r fs hne hrun
        obtain rfl := Option.some.inj hnext
        obtain ⟨hcons, halloc, hcont, ⟨-, hbytes⟩ | ⟨rfl, -⟩⟩ := h.write hrun
        · exact ⟨⟨h.consecutive, h.disjoint, h.off, hbytes.trans h.content, hbytes.trans h.bytes⟩, hcons, halloc,
            hcont, by rw [hbytes]; exact h.off_le, h.off0_le⟩
        · exact (hne _ rfl).elim
      · nomatch hnext
    · obtain rfl := Option.some.inj hnext
      exact { h with }

theorem inv_of_reachable (hinit : s0.Init ip) (h : (lts ip s0).Reachable s) : Inv ip s0 s := by
  refine h.invariant (I := Inv ip s0) (fun s hs => ?_) fun _ _ _ hinv _ hnext => hinv.next hnext
  obtain rfl : s = s0 := hs
  exact hinit.inv

/-- Writes through a shared descriptor do not overwrite each other, and `filewrite` does not panic for a short write. -/
theorem writes_overlaid (hinit : s0.Init ip) (h : (lts ip s0).Reachable s) :
    Overlaid ip s0 s ∧ ∀ addr i r fs, i < addr.length → s.write ip addr i = .ok (.inr (some r)) fs →
      r = min (addr.length - i) max := by
  have hinv := inv_of_reachable hinit h
  refine ⟨hinv.toOverlaid, fun addr i r fs hi hrun => ?_⟩
  obtain ⟨-, -, -, ⟨hr, -⟩ | ⟨hr, -⟩⟩ := hinv.write hrun
  · exact absurd hr (by simp)
  · rw [Sum.inr.injEq, Option.some.injEq] at hr
    rw [hr, chunk_length]

omit [DecidableEq P] in
/-- With enough free blocks `writei` accepts the chunk. -/
theorem Inv.write_ok (h : Inv ip s0 s) (addr : List UInt8) (i : ℕ)
    (hfits : s.off.toNat + (chunk addr i).length ≤ MAXFILE * BSIZE)
    (hroom : diskBlocks (blocksOf (Nat.max (s.fs.image.ino ip).size (s.off.toNat + (chunk addr i).length))) ≤
      s.fs.image.freeBlocks g + diskBlocks (blocksOf (s.fs.image.ino ip).size)) :
    ∃ fs, s.write ip addr i = .ok (.inr (some (chunk addr i).length)) fs := by
  have hB := MAXFILE_lt
  have hoff := h.off_le
  rw [content_length] at hoff
  have hwp : Wp (FileOp.exec (.write ip s.off.toNat (chunk addr i)))
      (fun r _ => r = .inr (some (chunk addr i).length)) (fun _ _ => False) s.fs := by
    unfold FileOp.exec
    rw [wp_bind]
    refine wp_iload h.alloc.1 (fun fs hl himage _ _ _ _ => ?_) fun _ ht => absurd ht h.alloc.2
    rw [wp_bind]
    refine wp_writei (by rw [himage]; exact h.consistent) hl (by rw [himage]; exact h.alloc)
      (by rw [himage]; exact h.hasContent) s.off.isLt (by omega) ?_ (fun _ _ _ _ _ _ _ => rfl) fun _ _ hlt => ?_
    · rw [himage]
      omega
    · rw [himage] at hlt
      exact absurd hroom (Nat.not_le_of_lt hlt)
  obtain ⟨r, fs, hrun, rfl⟩ := wp_returns hwp
  exact ⟨fs, hrun⟩

/-- A step that writes a chunk. -/
theorem next_step (hpc : s.pc p = .loop addr i) (hi : i < addr.length)
    (hrun : s.write ip addr i = .ok (.inr (some (chunk addr i).length)) fs) :
    s.next ip (.step p) = some ⟨fs, s.off + BitVec.ofNat 32 (chunk addr i).length,
      update s.pc p (.loop addr (i + (chunk addr i).length)),
      s.accepted ++ [(s.off.toNat, chunk addr i)]⟩ := by
  simp only [State.next, hpc, hi, hrun, chunk_length, ne_eq, not_true_eq_false, if_true, if_false]
  rw [if_pos (by rw [← chunk_length]; exact chunk_pos hi)]

theorem reachable_next (h : (lts ip s0).Reachable s) (hnext : s.next ip e = some s') :
    (lts ip s0).Reachable s' :=
  .step h trivial hnext

/-! ## Two writers -/

/-- An empty file. -/
def emptyDinode : Dinode := { Dinode.zero with type := T_FILE, nlink := 1 }

/-- The empty root directory, and a file that has just been created. -/
def newFile : BlockFs tenBlocks :=
  { emptyRoot with icache := update emptyRoot.icache 2 ⟨true, emptyDinode⟩ }

theorem newFile_ino (j : ℕ) : newFile.image.ino j = if j = 2 then emptyDinode else emptyRoot.image.ino j := by
  by_cases hj : j = 2
  · subst hj
    rfl
  · simp only [image, newFile, if_neg hj, update_of_ne hj]
    rfl

theorem newFile_alloc {j : ℕ} : newFile.image.Alloc tenBlocks j ↔ j = 2 ∨ emptyRoot.image.Alloc tenBlocks j := by
  unfold Alloc
  rw [newFile_ino]
  by_cases hj : j = 2
  · simp +decide [hj]
  · simp [hj]

theorem newFile_image : newFile.image = emptyRoot.image.setIno 2 emptyDinode := by
  refine Image.ext ?_ rfl rfl
  funext j
  rw [newFile_ino]
  exact (update_apply ..).symm

theorem newFile_consistent : newFile.image.Consistent tenBlocks := by
  rw [newFile_image]
  exact consistent_setIno_empty emptyRoot_consistent.good (fun j _ hj hc => emptyRoot_consistent.mapped hj hc)
    (fun ha => absurd (emptyRoot_alloc.mp ha) (by decide)) rfl rfl

/-- Two processes share the file. -/
def twoWriters : State tenBlocks (Fin 2) := ⟨newFile, 0, fun _ => .out, []⟩

theorem twoWriters_init : twoWriters.Init 2 where
  consistent := newFile_consistent
  alloc := newFile_alloc.mpr (.inl rfl)
  type := by rw [show twoWriters.fs = newFile from rfl, newFile_ino]; rfl
  off := Nat.zero_le _
  pc _ := rfl
  accepted := rfl

/-- The two calls have begun. -/
def twoCalls : State tenBlocks (Fin 2) :=
  ⟨newFile, 0, update (update (fun _ => .out) 0 (.loop [97] 0)) 1 (.loop [98] 0), []⟩

theorem twoCalls_reachable : (lts 2 twoWriters).Reachable twoCalls :=
  reachable_next (reachable_next (.init rfl) (e := .filewrite 0 [97]) rfl) (e := .filewrite 1 [98]) rfl

/-- The second process writes first. -/
theorem writes_overlaid_two : ∃ s, (lts 2 twoWriters).Reachable s ∧ s.accepted = [(0, [98]), (1, [97])] ∧
    s.off.toNat = 2 ∧ s.fs.image.content 2 = [98, 97] := by
  have hsize : (newFile.image.ino 2).size = 0 := by rw [newFile_ino]; rfl
  have hfree : 0 < newFile.image.freeBlocks tenBlocks := by
    rw [freeBlocks, Finset.card_pos]
    exact ⟨6, by decide⟩
  have h0 := inv_of_reachable twoWriters_init twoCalls_reachable
  obtain ⟨fs1, hrun1⟩ := h0.write_ok [98] 0 (by decide) (by
    rw [show twoCalls.fs = newFile from rfl, hsize]
    exact Nat.le_add_right_of_le hfree)
  have hreach1 := reachable_next twoCalls_reachable (next_step (p := 1) rfl (by decide) hrun1)
  have h1 := inv_of_reachable twoWriters_init hreach1
  have hcontent1 : fs1.image.content 2 = [98] := by
    have hbytes := h1.bytes
    have hempty : newFile.image.content 2 = [] := by rw [content, hsize]; rfl
    rw [show twoWriters.fs = newFile from rfl, hempty] at hbytes
    exact hbytes
  have hsize1 : (fs1.image.ino 2).size = 1 := by rw [← content_length, hcontent1]; rfl
  have hblocks : diskBlocks (blocksOf (Nat.max 1 2)) = diskBlocks (blocksOf 1) := by decide
  obtain ⟨fs2, hrun2⟩ := h1.write_ok [97] 0
    (show 1 + 1 ≤ MAXFILE * BSIZE by decide) (by
      rw [show (fs1.image.ino 2).size = 1 from hsize1]
      exact hblocks ▸ Nat.le_add_left ..)
  have hreach2 := reachable_next hreach1 (next_step (p := 0) rfl (by decide) hrun2)
  have hend := (writes_overlaid twoWriters_init hreach2).1
  have hempty : newFile.image.content 2 = [] := by rw [content, hsize]; rfl
  refine ⟨_, hreach2, rfl, hend.off, ?_⟩
  rw [hend.bytes, show twoWriters.fs = newFile from rfl, hempty]
  rfl

end SharedFile

end Xv6
