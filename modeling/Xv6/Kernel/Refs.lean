import Xv6.Kernel.Calls
import Mathlib.Data.Multiset.Basic

/-!
# Every call accounts for its references to inodes

The local state of a process is the references to inodes in its variables and what it knows of the inodes it
has references to. Locking an inode and dropping a reference need a reference, one that `fork`, `chdir` and
`open` pass on is no longer there afterwards, and every call returns without references of its own.
-/

namespace Xv6

namespace Sys

open Discipline

variable {P : Type} {α : Type}

/-- The references in the variables of a process, the types it has seen of inodes it has references to, the
inode numbers it has found, the value of `cwd`, whether the reference of `cwd` has been taken out, and the
inode of the open file that it is using, with `writable`. -/
structure Refs where
  refs : Multiset ℕ
  pins : ℕ → BitVec 16 → Prop
  seen : ℕ → Prop
  cwd : Option ℕ
  taken : Bool
  file : Option (ℕ × Bool)

namespace Refs

/-- The process has a reference, of its own or through an open file. -/
def Owns (l : Refs) (i : ℕ) : Prop := i ∈ l.refs ∨ ∃ w, l.file = some (i, w)

/-- A new reference. -/
def add (l : Refs) (i : ℕ) : Refs := { l with refs := i ::ₘ l.refs }

/-- One reference less. -/
def drop (l : Refs) (i : ℕ) : Refs :=
  { l with
    refs := l.refs.erase i
    pins := fun j t => l.pins j t ∧ (j = i → i ∈ l.refs.erase i) }

/-- What an operation needs. -/
def FsPre (l : Refs) : FsOp → Prop
  | .readi _ off n => off < 2 ^ 32 ∧ n < 2 ^ 32
  | .writei i off src => l.file = some (i, true) ∧ off < 2 ^ 32 ∧ src.length < 2 ^ 32
  | .dirlink _ _ inum => inum ∈ l.refs
  | _ => True

/-- What an operation shows. -/
def fsNext (l : Refs) : (op : FsOp) → op.Resp → Refs
  | .stat i, st => { l with pins := fun j t => l.pins j t ∨ (j = i ∧ i ∈ l.refs ∧ t = st.type) }
  | .ialloc type, i =>
    { l with
      pins := fun j t => l.pins j t ∨ (j = i ∧ t = type)
      seen := fun j => l.seen j ∨ j = i }
  | .ifree i, _ => { l with pins := fun j t => l.pins j t ∧ j ≠ i }
  | .dirlookup _ _, r => { l with seen := fun j => l.seen j ∨ ∃ off, r = some (off, j) }
  | _, _ => l

/-- What comes out of a file that is closed. -/
def addType (l : Refs) : FdType → Refs
  | .inode i => l.add i
  | _ => l

/-- Nothing is held and nothing is known. -/
def idle : Refs := ⟨0, fun _ _ => False, fun _ => False, none, false, none⟩

/-- Nothing is left over. -/
def Done (l : Refs) : Prop := l.refs = 0 ∧ l.taken = false

end Refs

/-- References to inodes. -/
def refDiscipline : Discipline (Act P) Act.Resp Refs where
  Pre l
    | .iget i => i = ROOTINO ∨ l.seen i
    | .idup i => l.cwd = some i ∧ l.taken = false
    | .acquire i _ => l.Owns i
    | .ref i .iput | .refDec i | .giveCwd _ i => i ∈ l.refs
    | .cwd | .takeCwd => l.taken = false
    | .setCwd i => l.taken = true ∧ (i = 0 ∨ i ∈ l.refs)
    | .setFile _ i _ w => i ∈ l.refs ∧ ∃ t, l.pins i t ∧ (w = true → t ≠ T_DIR)
    | .clearFd _ => l.file = none
    | .die => l.taken = true ∧ l.cwd = some 0
    | .fs op => l.FsPre op
    | _ => True
  Fact l
    | .ref i .iput, r => i ≠ 0 → l.refs.count i ≤ r
    | .file _, r => r.off < 2 ^ 32
    | _, _ => True
  next l
    | .iget i, _ | .idup i, _ => l.add i
    | .refDec i, _ | .giveCwd _ i, _ | .setFile _ i _ _, _ => l.drop i
    | .cwd, r => { l with cwd := some r }
    | .takeCwd, r => { l.add r with cwd := none, taken := true }
    | .setCwd i, _ =>
      if i = 0 then { l with cwd := some 0 } else { l.drop i with cwd := some i, taken := false }
    | .fileDec _, r => r.elim l fun ff => l.addType ff.type
    | .file _, r =>
      match l.file, r.type with
      | none, .inode i => { l with file := some (i, r.writable) }
      | _, _ => l
    | .die, _ => { l with cwd := none, taken := false }
    | .fs op, r => l.fsNext op r
    | _, _ => l

/-- The second state has other references, and the rest as before. -/
structure Refs.To (l : Refs) (m : Multiset ℕ) (l' : Refs) : Prop where
  refs : l'.refs = m
  taken : l'.taken = l.taken
  file : l'.file = l.file

/-- What was known of the inodes that are still referenced is still known. -/
def Refs.Keeps (l l' : Refs) : Prop := ∀ i ∈ l'.refs, ∀ t, l.pins i t → l'.pins i t

variable {l l' l'' : Refs} {m m' : Multiset ℕ} {i d : ℕ}

theorem Refs.To.refl (l : Refs) : l.To l.refs l := ⟨rfl, rfl, rfl⟩

theorem Refs.To.trans (h : l.To m l') (h' : l'.To m' l'') : l.To m' l'' :=
  ⟨h'.refs, h'.taken.trans h.taken, h'.file.trans h.file⟩

theorem Refs.To.owns (h : l.To l.refs l') (hi : l.Owns i) : l'.Owns i := by
  rcases hi with hi | ⟨w, hw⟩
  · exact .inl (h.refs ▸ hi)
  · exact .inr ⟨w, h.file.trans hw⟩

/-! ## Inodes -/

variable {Q : α → Refs → Prop} {off n dp ip fd : ℕ} {src name path : List UInt8} {type major minor : BitVec 16}
  {f : Fin NFILE}

theorem refs_panic {e : Panic} : refDiscipline (P := P) |>.Ok l (panic e) Q :=
  ⟨trivial, nofun⟩

/-- `ilock` does not come back with a null pointer. -/
theorem refs_ilock_ne (h : l.Owns i) : refDiscipline (P := P) |>.Ok l (ilock i) fun _ l' => l' = l ∧ i ≠ 0 := by
  refine ok_bind.mpr ⟨trivial, fun r _ => ?_⟩
  show refDiscipline.Ok l (ite _ _ _) _
  split
  · exact refs_panic
  · rename_i hi
    exact ok_bind.mpr ⟨h, fun _ _ => ⟨trivial, fun _ _ => ⟨rfl, fun hz => hi (.inl hz)⟩⟩⟩

theorem refs_ilock (h : l.Owns i) : refDiscipline (P := P) |>.Ok l (ilock i) fun _ l' => l' = l :=
  (refs_ilock_ne h).mono fun _ _ h' => h'.1

theorem refs_iunlock : refDiscipline (P := P) |>.Ok l (iunlock i) fun _ l' => l' = l := by
  refine ok_bind.mpr ⟨trivial, fun held _ => ok_bind.mpr ⟨trivial, fun r _ => ?_⟩⟩
  show refDiscipline.Ok l (ite _ _ _) _
  split
  · exact refs_panic
  · exact ⟨trivial, fun _ _ => rfl⟩

/-- What holds after the part of `iput` that holds the lock, if the reference to be dropped is there. -/
structure Refs.Freed (l : Refs) (i : ℕ) (l' : Refs) : Prop where
  same : l.To l.refs l'
  pins : i ≠ 0 → ∀ j t, (j = i → i ∈ l.refs.erase i) → l.pins j t → l'.pins j t

theorem refs_iputFree (h : i ∈ l.refs) : refDiscipline (P := P) |>.Ok l (iputFree i) fun _ l' => l.Freed i l' := by
  have hstat : ∀ st, l.Freed i (l.fsNext (.stat i) st) := fun st => ⟨⟨rfl, rfl, rfl⟩, fun _ _ _ _ hp => .inl hp⟩
  refine ok_bind.mpr (ok_bind.mpr ⟨trivial, fun valid _ => ?_⟩)
  cases valid with
  | false => exact ⟨.refl l, fun _ _ _ _ hp => hp⟩
  | true =>
    refine ok_bind.mpr ⟨trivial, fun st _ => ?_⟩
    show refDiscipline.Ok (l.fsNext (.stat i) st) (if (st.nlink == 0) = true then _ else _) _
    split
    · refine ok_bind.mpr ⟨h, fun r hr => ?_⟩
      show refDiscipline.Ok (l.fsNext (.stat i) st) (ite _ _ _) _
      split
      · -- there is no other reference to this inode, so nothing needs to be known of it
        rename_i hone
        refine ⟨trivial, fun _ _ => ⟨⟨rfl, rfl, rfl⟩, fun hne j t hj hp => ⟨.inl hp, fun hji => ?_⟩⟩⟩
        have hcount : l.refs.count i ≤ 1 := hone ▸ hr hne
        have hmem := Multiset.count_pos.mpr (hj hji)
        rw [Multiset.count_erase_self] at hmem
        omega
      · exact hstat st
    · exact hstat st

theorem refs_iput (h : i ∈ l.refs) :
    refDiscipline (P := P) |>.Ok l (iput i) fun _ l' => l.To (l.refs.erase i) l' ∧ (i ≠ 0 → l.Keeps l') := by
  refine ok_bind.mpr ⟨.inl h, fun _ _ => ?_⟩
  refine (refs_iputFree h).seq fun _ l1 h1 => ?_
  refine ok_bind.mpr ⟨trivial, fun _ _ => ⟨?_, fun _ _ => ?_⟩⟩
  · show i ∈ l1.refs
    rw [h1.same.refs]
    exact h
  refine ⟨⟨?_, h1.same.taken, h1.same.file⟩, fun hne j hj t hp => ?_⟩
  · exact congrArg (Multiset.erase · i) h1.same.refs
  · have hrefs : (l1.drop i).refs = l.refs.erase i := congrArg (Multiset.erase · i) h1.same.refs
    have hcond : j = i → i ∈ l.refs.erase i := by
      rintro rfl
      exact hrefs ▸ hj
    exact ⟨h1.pins hne j t hcond hp, fun hji => h1.same.refs.symm ▸ hcond hji⟩

theorem refs_iunlockput (h : i ∈ l.refs) :
    refDiscipline (P := P) |>.Ok l (iunlockput i) fun _ l' => l.To (l.refs.erase i) l' ∧ (i ≠ 0 → l.Keeps l') := by
  refine refs_iunlock.seq ?_
  rintro _ _ rfl
  exact refs_iput h

theorem refs_stat : refDiscipline (P := P) |>.Ok l (fs (.stat i)) fun st l' =>
    l.To l.refs l' ∧ (∀ j t, l.pins j t → l'.pins j t) ∧ (i ∈ l.refs → l'.pins i st.type) :=
  ⟨trivial, fun _ _ => ⟨⟨rfl, rfl, rfl⟩, fun _ _ hp => .inl hp, fun hi => .inr ⟨rfl, hi, rfl⟩⟩⟩

theorem refs_readi (h : l.Owns i) (hoff : off < 2 ^ 32) (hn : n < 2 ^ 32) :
    refDiscipline (P := P) |>.Ok l (readi i off n) fun _ l' => l.To l.refs l' := by
  refine refs_stat.seq fun st l1 h1 => ?_
  show refDiscipline.Ok l1 (ite _ _ _) _
  split
  · unfold devRead
    split
    · refine refs_iunlock.seq ?_
      rintro _ _ rfl
      refine ok_bind.mpr ⟨trivial, fun input _ => ?_⟩
      refine (refs_ilock (h1.1.owns h)).seq ?_
      rintro _ _ rfl
      exact h1.1
    · exact h1.1
  · exact ⟨⟨hoff, hn⟩, fun _ _ => h1.1⟩

theorem refs_writei (h : l.file = some (i, true)) (hoff : off < 2 ^ 32) (hsrc : src.length < 2 ^ 32) :
    refDiscipline (P := P) |>.Ok l (writei i off src) fun _ l' => l.To l.refs l' := by
  refine refs_stat.seq fun st l1 h1 => ?_
  show refDiscipline.Ok l1 (ite _ _ _) _
  split
  · unfold devWrite
    split
    · refine refs_iunlock.seq ?_
      rintro _ _ rfl
      refine (refs_ilock (h1.1.owns (.inr ⟨true, h⟩))).seq ?_
      rintro _ _ rfl
      exact h1.1
    · exact h1.1
  · exact ⟨⟨h1.1.file.trans h, hoff, hsrc⟩, fun _ _ => h1.1⟩

/-! ## Directories and paths -/

/-- The references after a lookup. -/
def found (m : Multiset ℕ) (r : Option ℕ) : Multiset ℕ := r.elim m (· ::ₘ m)

theorem refs_dirlookup : refDiscipline (P := P) |>.Ok l (dirlookup d name) fun r l' =>
      l.To (found l.refs (r.map Prod.snd)) l' ∧ l'.pins = l.pins := by
  refine ok_bind.mpr ⟨trivial, fun r _ => ?_⟩
  cases r with
  | none => exact ⟨⟨rfl, rfl, rfl⟩, rfl⟩
  | some e => exact ⟨.inr (.inr ⟨e.1, rfl⟩), fun _ _ => ⟨⟨rfl, rfl, rfl⟩, rfl⟩⟩

theorem refs_dirlink {inum : ℕ} (h : inum ∈ l.refs) : refDiscipline (P := P) |>.Ok l (dirlink d name inum) fun ok l' =>
      l.To l.refs l' ∧ (ok = true → l'.pins = l.pins) := by
  refine refs_dirlookup.seq fun r l1 h1 => ?_
  cases r with
  | none =>
    have hmem : inum ∈ l1.refs := h1.1.refs.symm ▸ h
    exact ok_bind.mpr ⟨hmem, fun _ _ => ⟨h1.1, fun _ => h1.2⟩⟩
  | some e =>
    have hrefs : l1.refs = e.2 ::ₘ l.refs := h1.1.refs
    refine (refs_iput (hrefs ▸ Multiset.mem_cons_self _ _)).seq fun _ l2 h2 => ?_
    refine ⟨h1.1.trans ⟨?_, h2.1.taken, h2.1.file⟩, nofun⟩
    rw [h2.1.refs, hrefs, Multiset.erase_cons_head]

theorem refs_namexLoop (parent : Bool) (names : List (List UInt8)) (h : i ∈ l.refs) :
    refDiscipline (P := P) |>.Ok l (namexLoop parent i names) fun r l' =>
      l.To (found (l.refs.erase i) (r.map Prod.fst)) l' := by
  induction names generalizing i l with
  | nil =>
    unfold namexLoop
    split
    · exact (refs_iput h).seq fun _ _ h1 => h1.1
    · exact ⟨(Multiset.cons_erase h).symm, rfl, rfl⟩
  | cons name rest ih =>
    refine (refs_ilock (.inl h)).seq fun _ l0 h0 => ?_
    rw [h0]
    refine refs_stat.seq fun st l1 h1 => ?_
    have hi : i ∈ l1.refs := h1.1.refs ▸ h
    -- dropping the directory after a lookup leaves what was found
    have hput : ∀ (r : Option (ℕ × ℕ)) (l2 : Refs), l1.To (found l1.refs (r.map Prod.snd)) l2 →
        (refDiscipline (P := P)).Ok l2 (iunlockput i) fun _ l' =>
          l.To (found (l.refs.erase i) (r.map Prod.snd)) l' := by
      intro r l2 h2
      have hmem : i ∈ l2.refs := by
        rw [h2.refs]
        cases r with
        | none => exact hi
        | some e => exact Multiset.mem_cons_of_mem hi
      refine (refs_iunlockput hmem).mono fun _ l3 h3 => h1.1.trans (h2.trans ⟨?_, h3.1.taken, h3.1.file⟩)
      rw [h3.1.refs, h2.refs, h1.1.refs]
      cases r with
      | none => rfl
      | some e =>
        show (e.2 ::ₘ l.refs).erase i = e.2 ::ₘ l.refs.erase i
        exact Multiset.erase_cons_tail_of_mem h
    show refDiscipline.Ok l1 (ite _ _ _) _
    split
    · exact (hput none l1 (.refl l1)).seq fun _ _ h' => h'
    · split
      · refine refs_iunlock.seq ?_
        rintro _ _ rfl
        exact ⟨h1.1.refs.trans (Multiset.cons_erase h).symm, h1.1.taken, h1.1.file⟩
      · refine refs_dirlookup.seq fun r l2 h2 => ?_
        cases r with
        | none => exact (hput none l2 h2.1).seq fun _ _ h' => h'
        | some e =>
          refine (hput (some e) l2 h2.1).seq fun _ l3 h3 => ?_
          have hrefs : l3.refs = e.2 ::ₘ l.refs.erase i := h3.refs
          refine (ih (hrefs ▸ Multiset.mem_cons_self _ _)).mono fun r l4 h4 => h3.trans ?_
          rw [hrefs, Multiset.erase_cons_head] at h4
          exact h4

theorem refs_namex (path : List UInt8) (parent : Bool) (h : l.taken = false) :
    refDiscipline (P := P) |>.Ok l (namex path parent) fun r l' =>
      l.To (found l.refs (r.map Prod.fst)) l' := by
  have hstart : (refDiscipline (P := P)).Ok l (namexStart path) fun i l' => l.To (i ::ₘ l.refs) l' := by
    unfold namexStart
    split
    · exact ⟨.inl rfl, fun _ _ => ⟨rfl, rfl, rfl⟩⟩
    · exact ⟨h, fun i _ => ⟨⟨rfl, h⟩, fun _ _ => ⟨rfl, rfl, rfl⟩⟩⟩
  refine hstart.seq fun i l1 h1 => ?_
  have hrefs : l1.refs = i ::ₘ l.refs := h1.refs
  refine (refs_namexLoop parent _ (hrefs ▸ Multiset.mem_cons_self _ _)).mono fun r l2 h2 => h1.trans ?_
  rw [hrefs, Multiset.erase_cons_head] at h2
  exact h2

/-! ## `create` and `open` -/

theorem refs_createDots (hd : dp ∈ l.refs) (hi : ip ∈ l.refs) :
    refDiscipline (P := P) |>.Ok l (createDots dp ip type) fun _ l' => l.To l.refs l' ∧ l'.pins = l.pins := by
  unfold createDots
  split
  · refine ok_bind.mpr ⟨trivial, fun _ _ => ?_⟩
    refine (refs_dirlink hi).seq fun ok l1 h1 => ?_
    cases ok with
    | false => exact refs_panic
    | true =>
      have hd1 : dp ∈ l1.refs := h1.1.refs.symm ▸ hd
      refine (refs_dirlink hd1).seq fun ok l2 h2 => ?_
      cases ok with
      | false => exact refs_panic
      | true => exact ⟨⟨h2.1.refs.trans h1.1.refs, h2.1.taken.trans h1.1.taken, h2.1.file.trans h1.1.file⟩,
          (h2.2 rfl).trans (h1.2 rfl)⟩
  · exact ⟨.refl l, rfl⟩

/-- The inode that `create` returns: there is a reference to it, and its type is known. -/
def Refs.Created (l : Refs) (type : BitVec 16) (r : Option ℕ) (l' : Refs) : Prop :=
  l.To (found l.refs r) l' ∧ ∀ ip, r = some ip → type = T_FILE → l'.pins ip T_FILE

theorem refs_createNew (h : dp ∈ l.refs) (hne : dp ≠ 0) :
    refDiscipline (P := P) |>.Ok l (createNew dp name type major minor) fun r l' =>
      l.To (found (l.refs.erase dp) r) l' ∧ ∀ ip, r = some ip → l'.pins ip type := by
  refine ok_bind.mpr ⟨trivial, fun ip _ => ok_bind.mpr ⟨.inr (.inr rfl), fun _ _ => ?_⟩⟩
  set l1 : Refs := (l.fsNext (.ialloc type) ip).add ip
  have hip : ip ∈ l1.refs := Multiset.mem_cons_self _ _
  have hdp : dp ∈ l1.refs := Multiset.mem_cons_of_mem h
  have hpin : l1.pins ip type := .inr ⟨rfl, rfl⟩
  refine (refs_ilock (l := l1) (.inl hip)).seq fun _ l2 h2 => ?_
  rw [h2]
  refine ok_bind.mpr ⟨trivial, fun _ _ => ?_⟩
  refine (refs_createDots (l := l1) hdp hip).seq fun _ l3 h3 => ?_
  have hip3 : ip ∈ l3.refs := h3.1.refs.symm ▸ hip
  refine (refs_dirlink hip3).seq fun ok l4 h4 => ?_
  cases ok with
  | false => exact refs_panic
  | true =>
    have hrefs : l4.refs = ip ::ₘ l.refs := h4.1.refs.trans h3.1.refs
    have hdp4 : dp ∈ l4.refs := hrefs ▸ hdp
    refine (refs_iunlockput hdp4).seq fun _ l5 h5 => ⟨⟨?_, ?_, ?_⟩, ?_⟩
    · rw [h5.1.refs, hrefs]
      exact Multiset.erase_cons_tail_of_mem h
    · exact h5.1.taken.trans (h4.1.taken.trans h3.1.taken)
    · exact h5.1.file.trans (h4.1.file.trans h3.1.file)
    · rintro _ ⟨⟩
      refine h5.2 hne ip ?_ type ?_
      · rw [h5.1.refs, hrefs, Multiset.erase_cons_tail_of_mem h]
        exact Multiset.mem_cons_self _ _
      · rw [h4.2 rfl, h3.2]
        exact hpin

theorem refs_create (h : l.taken = false) :
    refDiscipline (P := P) |>.Ok l (create path type major minor) (l.Created type) := by
  refine (refs_namex path true h).seq fun r l1 h1 => ?_
  cases r with
  | none => exact ⟨h1, nofun⟩
  | some d =>
    have hrefs : l1.refs = d.1 ::ₘ l.refs := h1.refs
    have hd : d.1 ∈ l1.refs := hrefs ▸ Multiset.mem_cons_self _ _
    refine (refs_ilock_ne (.inl hd)).seq fun _ l2 h2 => ?_
    obtain ⟨h2, hne⟩ := h2
    rw [h2]
    refine refs_dirlookup.seq fun r l3 h3 => ?_
    cases r with
    | none =>
      have hrefs3 : l3.refs = d.1 ::ₘ l.refs := h3.1.refs.trans hrefs
      refine (refs_createNew (hrefs3 ▸ Multiset.mem_cons_self _ _) hne).mono fun r l4 h4 => ?_
      rw [hrefs3, Multiset.erase_cons_head] at h4
      exact ⟨h1.trans (h3.1.trans h4.1), fun ip hr ht => ht ▸ h4.2 ip hr⟩
    | some e =>
      have hrefs3 : l3.refs = e.2 ::ₘ d.1 ::ₘ l.refs := h3.1.refs.trans (congrArg (e.2 ::ₘ ·) hrefs)
      have hd3 : d.1 ∈ l3.refs := by
        rw [hrefs3]
        exact Multiset.mem_cons_of_mem (Multiset.mem_cons_self _ _)
      refine (refs_iunlockput hd3).seq fun _ l4 h4 => ?_
      have hrefs4 : l4.refs = e.2 ::ₘ l.refs := by
        rw [h4.1.refs, hrefs3, Multiset.erase_cons_tail_of_mem (Multiset.mem_cons_self _ _),
          Multiset.erase_cons_head]
      have hto4 : l.To (e.2 ::ₘ l.refs) l4 := h1.trans (h3.1.trans ⟨hrefs4, h4.1.taken, h4.1.file⟩)
      have he : e.2 ∈ l4.refs := hrefs4 ▸ Multiset.mem_cons_self _ _
      refine (refs_ilock (.inl he)).seq fun _ l5 h5 => ?_
      rw [h5]
      refine refs_stat.seq fun st l6 h6 => ?_
      show refDiscipline.Ok l6 (ite _ _ _) _
      split
      · rename_i htypes
        refine ⟨hto4.trans ⟨h6.1.refs.trans hrefs4, h6.1.taken, h6.1.file⟩, ?_⟩
        rintro _ ⟨⟩ -
        exact htypes.2 ▸ h6.2.2 he
      · have he6 : e.2 ∈ l6.refs := h6.1.refs.symm ▸ he
        refine (refs_iunlockput he6).seq fun _ l7 h7 => ⟨?_, nofun⟩
        refine hto4.trans (h6.1.trans ⟨?_, h7.1.taken, h7.1.file⟩)
        rw [h7.1.refs, h6.1.refs, hrefs4, Multiset.erase_cons_head]
        rfl

/-- The inode that `sys_open` opens: its type is known, and is no directory unless the file is only read. -/
def Refs.Opened (l : Refs) (omode : BitVec 32) (r : Option ℕ) (l' : Refs) : Prop :=
  l.To (found l.refs r) l' ∧ ∀ ip, r = some ip → ∃ t, l'.pins ip t ∧ (t = T_DIR → omode = O_RDONLY)

theorem refs_openInode {omode : BitVec 32} (h : l.taken = false) :
    refDiscipline (P := P) |>.Ok l (openInode path omode) (l.Opened omode) := by
  unfold openInode
  split
  · refine (refs_create h).mono fun r l1 h1 => ⟨h1.1, fun ip hr => ⟨T_FILE, h1.2 ip hr rfl, ?_⟩⟩
    exact fun hfile => absurd hfile (by decide)
  · refine (refs_namex path false h).seq fun r l1 h1 => ?_
    cases r with
    | none => exact ⟨h1, nofun⟩
    | some e =>
      have hrefs : l1.refs = e.1 ::ₘ l.refs := h1.refs
      have he : e.1 ∈ l1.refs := hrefs ▸ Multiset.mem_cons_self _ _
      refine (refs_ilock (.inl he)).seq fun _ l2 h2 => ?_
      rw [h2]
      refine refs_stat.seq fun st l3 h3 => ?_
      show refDiscipline.Ok l3 (ite _ _ _) _
      split
      · have he3 : e.1 ∈ l3.refs := h3.1.refs.symm ▸ he
        refine (refs_iunlockput he3).seq fun _ l4 h4 => ⟨?_, nofun⟩
        refine h1.trans (h3.1.trans ⟨?_, h4.1.taken, h4.1.file⟩)
        rw [h4.1.refs, h3.1.refs, hrefs, Multiset.erase_cons_head]
        rfl
      · rename_i hmode
        refine ⟨h1.trans ⟨h3.1.refs.trans hrefs, h3.1.taken, h3.1.file⟩, ?_⟩
        rintro _ ⟨⟩
        exact ⟨st.type, h3.2.2 he, fun hdir => by_contra fun hro => hmode ⟨hdir, hro⟩⟩

/-! ## The system calls -/

/-- The program gives up the references `m`, and every other reference that it gets. -/
def Uses (m : Multiset ℕ) (x : Sys P α) : Prop :=
  ∀ (l : Refs) (rest : Multiset ℕ), l.refs = m + rest → l.taken = false → l.file = none →
    refDiscipline.Ok l x fun _ l' => l.To rest l'

/-- The steps that have nothing to do with references. -/
def Loose : Act P → Prop
  | .beginOp | .endOp | .ref _ .ilock | .release _ _ | .holding _ | .filealloc | .fdalloc _ | .ofile _ | .takeFd _
  | .clearFd _ | .advance _ _ | .env | .allocproc | .freeproc _ | .dupFd _ _ | .runnable _ | .isInit | .filedup _
  | .kallocPipe | .setPipe _ _ _ | .pipeclose _ _ | .reap => True
  | _ => False

theorem refs_loose {a : Act P} (h : Loose a) (hfile : l.file = none) :
    refDiscipline.Ok l (step a) fun _ l' => l' = l := by
  cases a
  case ref i site =>
    cases site with
    | ilock => exact ⟨trivial, fun _ _ => rfl⟩
    | iput => exact h.elim
  case clearFd => exact ⟨hfile, fun _ _ => rfl⟩
  case beginOp | endOp | release | holding | filealloc | fdalloc | ofile | takeFd | advance | env | allocproc
    | freeproc | dupFd | runnable | isInit | filedup | kallocPipe | setPipe | pipeclose | reap =>
    exact ⟨trivial, fun _ _ => rfl⟩
  all_goals exact h.elim

namespace Uses

variable {β : Type}

theorem pure (a : α) : Uses (P := P) 0 (Pure.pure a) := fun _ _ hrefs _ _ => ⟨hrefs.trans (zero_add _), rfl, rfl⟩

variable {x : Sys P β} {f : β → Sys P α}

/-- First some references, then the others. -/
theorem bind (hx : Uses m x) (hf : ∀ b, Uses m' (f b)) : Uses (m + m') (x >>= f) := by
  intro l rest hrefs ht hfile
  rw [add_assoc] at hrefs
  refine (hx l _ hrefs ht hfile).seq fun b l1 h1 => ?_
  exact (hf b l1 rest h1.refs (h1.taken.trans ht) (h1.file.trans hfile)).mono fun _ _ h2 => h1.trans h2

/-- Something that needs no reference first. -/
theorem andThen (hx : Uses 0 x) (hf : ∀ b, Uses m (f b)) : Uses m (x >>= f) := by
  have h := bind hx hf
  rwa [zero_add] at h

/-- All references first. -/
theorem spend (hx : Uses m x) (hf : ∀ b, Uses 0 (f b)) : Uses m (x >>= f) := by
  have h := bind hx hf
  rwa [add_zero] at h

theorem ite {c : Prop} [Decidable c] {x y : Sys P α} (hx : Uses m x) (hy : Uses m y) : Uses m (if c then x else y) := by
  split
  · exact hx
  · exact hy

theorem panic (e : Panic) : Uses m (Sys.panic e : Sys P α) := fun _ _ _ _ _ => refs_panic

/-- A program that leaves the references as they are, and may need one. -/
theorem keep
    (hx : ∀ l : Refs, m ≤ l.refs → l.taken = false → l.file = none → refDiscipline.Ok l x fun _ l' => l.To l.refs l')
    (hf : ∀ b, Uses m (f b)) : Uses m (x >>= f) := by
  intro l rest hrefs ht hfile
  have hle : m ≤ l.refs := hrefs ▸ Multiset.le_add_right m rest
  refine (hx l hle ht hfile).seq fun b l1 h1 => ?_
  refine (hf b l1 rest (h1.refs.trans hrefs) (h1.taken.trans ht) (h1.file.trans hfile)).mono fun _ _ h2 => ?_
  exact h1.trans h2

variable {a : Act P}

theorem plain (h : Loose a) : Uses 0 (step a) := by
  intro l rest hrefs _ hfile
  refine (refs_loose h hfile).mono ?_
  rintro _ _ rfl
  exact ⟨hrefs.trans (zero_add _), rfl, rfl⟩

/-- A step that has nothing to do with references, and what follows. -/
theorem step {f : a.Resp → Sys P α} (h : Loose a) (hf : ∀ r, Uses m (f r)) :
    Uses m (Sys.step a >>= f) := andThen (plain h) hf

/-- Ending with a result. -/
theorem ends (h : Loose a) (r : α) : Uses 0 (do let _ ← Sys.step a; Pure.pure r) :=
  .step h fun _ => .pure r

theorem iput : Uses (P := P) {i} (Sys.iput i) := by
  intro l rest hrefs _ _
  have hi : i ∈ l.refs := by simp [hrefs]
  refine (refs_iput hi).mono fun _ l' h' => ⟨?_, h'.1.taken, h'.1.file⟩
  rw [h'.1.refs, hrefs, Multiset.singleton_add, Multiset.erase_cons_head]

theorem iunlock {f : Sys P α} (hf : Uses m f) : Uses m (do Sys.iunlock i; f) :=
  .keep (fun l _ _ _ => refs_iunlock.mono fun _ _ h => h ▸ .refl l) fun _ => hf

theorem iunlockput : Uses (P := P) {i} (Sys.iunlockput i) := .iunlock .iput

theorem ilock {f : Sys P α} (hi : i ∈ m) (hf : Uses m f) : Uses m (do Sys.ilock i; f) :=
  .keep (fun l hle _ _ => (refs_ilock (.inl (Multiset.mem_of_le hle hi))).mono fun _ _ h => h ▸ .refl l) fun _ => hf

/-- An operation that needs nothing. -/
theorem fs {op : FsOp} {f : op.Resp → Sys P α} (hpre : ∀ l : Refs, l.FsPre op)
    (hnext : ∀ (l : Refs) r, l.To l.refs (l.fsNext op r)) (hf : ∀ r, Uses m (f r)) : Uses m (Sys.fs op >>= f) :=
  .keep (fun l _ _ _ => ⟨hpre l, fun r _ => hnext l r⟩) hf

theorem stat {f : Stat → Sys P α} (hf : ∀ st, Uses m (f st)) : Uses m (Sys.fs (.stat i) >>= f) :=
  .fs (fun _ => trivial) (fun _ _ => ⟨rfl, rfl, rfl⟩) hf

theorem update {op : Change} {f : Sys P α} (hf : Uses m f) : Uses m (do Sys.fs (.update i op); f) :=
  .fs (fun _ => trivial) (fun l _ => .refl l) fun _ => hf

/-- A lookup may give a new reference. -/
theorem gain {γ : Type} {x : Sys P γ} {g : γ → Option ℕ} {f : γ → Sys P α}
    (hx : ∀ l : Refs, l.taken = false → refDiscipline.Ok l x fun r l' => l.To (found l.refs (g r)) l')
    (hf : ∀ r, Uses (found m (g r)) (f r)) : Uses m (x >>= f) := by
  intro l rest hrefs ht hfile
  refine (hx l ht).seq fun r l1 h1 => ?_
  have hfound : found (m + rest) (g r) = found m (g r) + rest := by
    cases g r with
    | none => rfl
    | some i => exact (Multiset.cons_add i m rest).symm
  have hrefs1 : l1.refs = found m (g r) + rest := by rw [h1.refs, hrefs, hfound]
  exact (hf r l1 rest hrefs1 (h1.taken.trans ht) (h1.file.trans hfile)).mono fun _ _ h2 => h1.trans h2

theorem namex {path : List UInt8} {parent : Bool} {f : Option (ℕ × List UInt8) → Sys P α}
    (hnone : Uses m (f none)) (hsome : ∀ e, Uses (e.1 ::ₘ m) (f (some e))) : Uses m (Sys.namex path parent >>= f) := by
  refine .gain (fun l ht => refs_namex path parent ht) fun r => ?_
  cases r with
  | none => exact hnone
  | some e => exact hsome e

theorem dirlookup {name : List UInt8} {f : Option (ℕ × ℕ) → Sys P α}
    (hnone : Uses m (f none)) (hsome : ∀ e, Uses (e.2 ::ₘ m) (f (some e))) : Uses m (Sys.dirlookup d name >>= f) := by
  refine .gain (fun l _ => refs_dirlookup.mono fun _ _ h => h.1) fun r => ?_
  cases r with
  | none => exact hnone
  | some e => exact hsome e

theorem create {path : List UInt8} {type major minor : BitVec 16} {f : Option ℕ → Sys P α}
    (hnone : Uses m (f none)) (hsome : ∀ ip, Uses (ip ::ₘ m) (f (some ip))) :
    Uses m (Sys.create path type major minor >>= f) := by
  refine .gain (g := id) (fun l ht => (refs_create ht).mono fun _ _ h => h.1) fun r => ?_
  cases r with
  | none => exact hnone
  | some ip => exact hsome ip

/-- The program returns without references. -/
theorem done {x : Sys P α} (h : Uses 0 x) : refDiscipline.Ok .idle x fun _ l => l.Done :=
  (h .idle 0 rfl rfl rfl).mono fun _ _ h' => ⟨h'.refs, h'.taken⟩

end Uses

theorem uses_fileclose (f : Fin NFILE) : Uses (P := P) 0 (fileclose f) := by
  intro l rest hrefs ht hfile
  rw [zero_add] at hrefs
  refine ok_bind.mpr ⟨trivial, fun ff _ => ?_⟩
  cases ff with
  | none => exact ⟨hrefs, rfl, rfl⟩
  | some ff =>
    show refDiscipline.Ok (l.addType ff.type) (fileclosed ff) _
    unfold fileclosed
    cases ff.type with
    | none => exact ⟨hrefs, rfl, rfl⟩
    | pipe r => exact ⟨trivial, fun _ _ => ⟨hrefs, rfl, rfl⟩⟩
    | inode i =>
      refine ok_bind.mpr ⟨trivial, fun _ _ => ?_⟩
      refine (refs_iput (l := l.add i) (Multiset.mem_cons_self _ _)).seq fun _ l1 h1 => ?_
      refine ⟨trivial, fun _ _ => ⟨?_, h1.1.taken, h1.1.file⟩⟩
      exact (h1.1.refs.trans (Multiset.erase_cons_head _ _)).trans hrefs

theorem uses_argfd {f : Option (Fin NFILE) → Sys P α} (hf : ∀ r, Uses m (f r)) : Uses m (argfd fd >>= f) := by
  refine .andThen ?_ hf
  unfold argfd
  split
  · exact .plain trivial
  · exact .pure _

/-- Failing outside of the transaction. -/
theorem uses_fail : Uses (P := P) 0 (do step .endOp; pure (-1 : ℤ)) := .ends (a := .endOp) trivial _

theorem uses_linkBad : Uses (P := P) {ip} (linkBad ip) :=
  .ilock (Multiset.mem_singleton_self ip) (.update (.spend .iunlockput fun _ => uses_fail))

theorem uses_linkInto (new : List UInt8) : Uses (P := P) {ip} (linkInto ip new) := by
  refine .namex uses_linkBad fun e => ?_
  refine .ilock (Multiset.mem_cons_self _ _) (.keep (fun l hle _ _ => ?_) fun ok => ?_)
  · have hip : ip ∈ l.refs := Multiset.mem_of_le hle (by simp)
    exact (refs_dirlink hip).mono fun _ _ h => h.1
  · refine .bind (m := {e.1}) .iunlockput fun _ => .ite (.spend .iput fun _ => ?_) uses_linkBad
    exact .ends (a := .endOp) trivial _

theorem uses_sysLink (old new : Option (List UInt8)) : Uses (P := P) 0 (sysLink old new) := by
  cases old with
  | none => exact .pure _
  | some old =>
    cases new with
    | none => exact .pure _
    | some new =>
      refine .step trivial fun _ => .namex uses_fail fun e => .ilock (Multiset.mem_cons_self _ _) (.stat fun st => ?_)
      refine .ite (.spend .iunlockput fun _ => uses_fail) (.update (.iunlock (uses_linkInto new)))

theorem uses_unlinkBad : Uses (P := P) {dp} (unlinkBad dp) := .spend .iunlockput fun _ => uses_fail

theorem uses_unlinkEntry : Uses (P := P) (ip ::ₘ {dp}) (unlinkEntry dp ip off type) := by
  have hrest : Uses (P := P) {ip} (do fs (.update ip .unlink); iunlockput ip; step .endOp; pure (0 : ℤ)) :=
    .update (.spend .iunlockput fun _ => .ends (a := .endOp) trivial _)
  have hparent : Uses (P := P) 0 (unlinkParent dp type) :=
    .ite (fun _ _ hrefs _ _ => ⟨trivial, fun _ _ => ⟨hrefs.trans (zero_add _), rfl, rfl⟩⟩) (.pure _)
  have hput : Uses (P := P) ({dp} + {ip}) (do iunlockput dp; fs (.update ip .unlink); iunlockput ip; step .endOp
                                              pure (0 : ℤ)) := .bind .iunlockput fun _ => hrest
  rw [show (ip ::ₘ {dp} : Multiset ℕ) = {dp} + {ip} from Multiset.pair_comm ip dp]
  exact .fs (fun _ => trivial) (fun l _ => .refl l) fun _ => .andThen hparent fun _ => hput

theorem uses_sysUnlink (path : Option (List UInt8)) : Uses (P := P) 0 (sysUnlink path) := by
  cases path with
  | none => exact .pure _
  | some path =>
    refine .step trivial fun _ => .namex uses_fail fun d => .ilock (Multiset.mem_cons_self _ _) ?_
    refine .ite uses_unlinkBad (.dirlookup uses_unlinkBad fun e => ?_)
    refine .ilock (Multiset.mem_cons_self _ _) (.stat fun st => .ite (.panic _) (.andThen ?_ fun full => ?_))
    · refine .ite (.fs (fun _ => trivial) (fun l _ => .refl l) fun _ => .pure _) (.pure _)
    · exact .ite (.bind (m := {e.2}) .iunlockput fun _ => uses_unlinkBad) uses_unlinkEntry

/-- A file for an inode; nothing is forgotten if there is one. -/
theorem refs_openFile (hfile : l.file = none) (ht : l.taken = false) :
    refDiscipline (P := P) |>.Ok l openFile fun r l' => l.To l.refs l' ∧ (r ≠ none → l' = l) := by
  refine (refs_loose (a := .filealloc) trivial hfile).seq ?_
  rintro f _ rfl
  cases f with
  | none => exact ⟨.refl _, fun h => absurd rfl h⟩
  | some f =>
    refine (refs_loose (a := .fdalloc f) trivial hfile).seq ?_
    rintro fd _ rfl
    cases fd with
    | some fd => exact ⟨.refl _, fun _ => rfl⟩
    | none =>
      refine (uses_fileclose f _ _ (zero_add _).symm ht hfile).seq fun _ l1 h1 => ?_
      exact ⟨h1, fun h => absurd rfl h⟩

theorem uses_sysOpen (path : Option (List UInt8)) (omode : BitVec 32) : Uses (P := P) 0 (sysOpen path omode) := by
  cases path with
  | none => exact .pure _
  | some path =>
    refine .step trivial fun _ l rest hrefs ht hfile => ?_
    rw [zero_add] at hrefs
    refine (refs_openInode ht).seq fun ip l1 h1 => ?_
    have ht1 := h1.1.taken.trans ht
    have hfile1 := h1.1.file.trans hfile
    cases ip with
    | none =>
      refine (uses_fail l1 l1.refs (zero_add _).symm ht1 hfile1).mono fun _ _ h2 => h1.1.trans ?_
      exact ⟨h2.refs.trans (h1.1.refs.trans hrefs), h2.taken, h2.file⟩
    | some ip =>
      have hrefs1 : l1.refs = {ip} + rest := h1.1.refs.trans (congrArg (ip ::ₘ ·) hrefs)
      obtain ⟨t, hpin, hmode⟩ := h1.2 ip rfl
      refine (refs_openFile hfile1 ht1).seq fun r l2 h2 => ?_
      cases r with
      | none =>
        have hput : Uses (P := P) {ip} (do iunlockput ip; step .endOp; pure (-1 : ℤ)) :=
          .spend .iunlockput fun _ => uses_fail
        refine (hput l2 rest (h2.1.refs.trans hrefs1) (h2.1.taken.trans ht1) (h2.1.file.trans hfile1)).mono
          fun _ _ h3 => (h1.1.trans h2.1).trans h3
      | some e =>
        obtain rfl := h2.2 nofun
        have hmem : ip ∈ l2.refs := by simp [hrefs1]
        have herase : l2.refs.erase ip = rest := by rw [hrefs1, Multiset.singleton_add, Multiset.erase_cons_head]
        refine refs_iunlock.seq ?_
        rintro _ _ rfl
        refine ok_bind.mpr ⟨trivial, fun _ _ => ?_⟩
        refine ok_bind.mpr ⟨⟨?_, t, hpin, fun hw hdir => ?_⟩, fun _ _ => ⟨?_, h1.1.taken, h1.1.file⟩⟩
        · exact hmem
        · -- a directory is opened for reading only
          rw [hmode hdir] at hw
          exact absurd hw (by decide)
        · exact herase

theorem uses_sysCreate (path : Option (List UInt8)) (type major minor : BitVec 16) :
    Uses (P := P) 0 (sysCreate path type major minor) := by
  cases path with
  | none => exact .step trivial fun _ => uses_fail
  | some path =>
    exact .step trivial fun _ => .create uses_fail fun ip => .spend .iunlockput fun _ => .ends (a := .endOp) trivial _

/-- The reference of `cwd` is taken out and dropped. -/
theorem refs_dropCwd {f : Sys P α} (ht : l.taken = false)
    (hf : ∀ l' : Refs, l'.refs = l.refs → l'.taken = true → l'.file = l.file → refDiscipline.Ok l' f Q) :
    refDiscipline.Ok l (do let i ← step .takeCwd; iput i; step .endOp; f) Q := by
  refine ok_bind.mpr ⟨ht, fun i _ => ?_⟩
  set l1 : Refs := { l.add i with cwd := none, taken := true } with hl1
  refine (refs_iput (l := l1) (Multiset.mem_cons_self i _)).seq fun _ l2 h2 => ?_
  refine ok_bind.mpr ⟨trivial, fun _ _ => hf l2 ?_ h2.1.taken h2.1.file⟩
  exact h2.1.refs.trans (Multiset.erase_cons_head i _)

theorem uses_sysChdir (path : Option (List UInt8)) : Uses (P := P) 0 (sysChdir path) := by
  cases path with
  | none => exact .step trivial fun _ => uses_fail
  | some path =>
    refine .step trivial fun _ => .namex uses_fail fun e l rest hrefs ht hfile => ?_
    have he : e.1 ∈ l.refs := by simp [hrefs]
    refine (refs_ilock_ne (.inl he)).seq ?_
    rintro _ _ ⟨rfl, hne⟩
    refine refs_stat.seq fun st l1 h1 => ?_
    have hrefs1 : l1.refs = {e.1} + rest := h1.1.refs.trans hrefs
    show refDiscipline.Ok l1 (ite _ _ _) _
    split
    · have hput : Uses (P := P) {e.1} (do iunlockput e.1; step .endOp; pure (-1 : ℤ)) :=
        .spend .iunlockput fun _ => uses_fail
      exact (hput l1 rest hrefs1 (h1.1.taken.trans ht) (h1.1.file.trans hfile)).mono fun _ _ h2 => h1.1.trans h2
    · refine refs_iunlock.seq ?_
      rintro _ _ rfl
      refine refs_dropCwd (h1.1.taken.trans ht) fun l2 hrefs2 ht2 hfile2 => ?_
      have he2 : e.1 ∈ l2.refs := by simp [hrefs2, hrefs1]
      have hnext : refDiscipline.next l2 (.setCwd e.1 : Act P) () =
          { l2.drop e.1 with cwd := some e.1, taken := false } := if_neg hne
      refine ok_bind.mpr ⟨⟨ht2, .inr he2⟩, fun _ _ => ?_⟩
      rw [hnext]
      refine ⟨?_, ht.symm, hfile2.trans h1.1.file⟩
      show l2.refs.erase e.1 = rest
      rw [hrefs2, hrefs1, Multiset.singleton_add, Multiset.erase_cons_head]

/-! ## `exec` -/

theorem field_lt (bytes : List UInt8) (off : ℕ) (hn : n ≤ 4) : field bytes off n < 2 ^ 32 := by
  have hlt := leVal_lt ((bytes.drop off).take n)
  have hlen : ((bytes.drop off).take n).length ≤ 4 := (List.length_take_le n _).trans hn
  exact hlt.trans_le (Nat.pow_le_pow_right (by decide) hlen)

/-- The second state has the same references, and the rest as before. -/
abbrev Refs.Same (l l' : Refs) : Prop := l.To l.refs l'

theorem Refs.Same.andThen (h : l.Same l') (h' : l'.Same l'') : l.Same l'' := h.trans (h.refs ▸ h')

theorem refs_readExactly (h : i ∈ l.refs) (hoff : off < 2 ^ 32) (hn : n < 2 ^ 32) :
    refDiscipline (P := P) |>.Ok l (readExactly i off n) fun _ l' => l.Same l' :=
  (refs_readi (.inl h) hoff hn).seq fun _ _ h' => h'

theorem refs_loaduvm {offset sz : ℕ} (h : i ∈ l.refs) :
    refDiscipline (P := P) |>.Ok l (loaduvm i offset sz) fun _ l' => l.Same l' := by
  unfold loaduvm
  generalize List.range ((sz + (PGSIZE - 1)) / PGSIZE) = pages
  induction pages generalizing l with
  | nil => exact .refl l
  | cons page pages ih =>
    have hmin : min (sz - page * PGSIZE) PGSIZE < 2 ^ 32 := (min_le_right _ _).trans_lt (by decide)
    refine (refs_readExactly h (Nat.mod_lt _ (by decide)) hmin).seq fun r l1 h1 => ?_
    cases r with
    | none => exact h1
    | some bytes => exact (ih (h1.refs.symm ▸ h)).mono fun _ _ h2 => h1.andThen h2

theorem refs_loadSegment {ph : Proghdr} (h : i ∈ l.refs) (hfile : l.file = none) :
    refDiscipline (P := P) |>.Ok l (loadSegment i ph) fun _ l' => l.Same l' := by
  unfold loadSegment
  split
  · exact .refl l
  · split
    · exact .refl l
    · refine (refs_loose (a := .env) trivial hfile).seq ?_
      rintro memory _ rfl
      cases memory with
      | none => exact .refl _
      | some _ =>
        show refDiscipline.Ok _ (ite _ _ _) _
        split
        · exact .refl _
        · exact refs_loaduvm h

theorem refs_execLoop (n : ℕ) (hoff : off < 2 ^ 32) (h : i ∈ l.refs) (hfile : l.file = none) :
    refDiscipline (P := P) |>.Ok l (execLoop i n off) fun _ l' => l.Same l' := by
  induction n generalizing off l with
  | zero => exact .refl l
  | succ n ih =>
    have hnext : (off + PROGHDR) % 2 ^ 32 < 2 ^ 32 := Nat.mod_lt _ (by decide)
    refine (refs_readExactly h hoff (by decide)).seq fun r l1 h1 => ?_
    have hi1 : i ∈ l1.refs := h1.refs.symm ▸ h
    have hfile1 := h1.file.trans hfile
    cases r with
    | none => exact h1
    | some bytes =>
      show refDiscipline.Ok l1 (ite _ _ _) _
      split
      · exact (ih hnext hi1 hfile1).mono fun _ _ h2 => h1.andThen h2
      · refine (refs_loadSegment hi1 hfile1).seq fun ok l2 h2 => ?_
        cases ok with
        | false => exact h1.andThen h2
        | true =>
          refine (ih hnext (h2.refs.symm ▸ hi1) (h2.file.trans hfile1)).mono fun _ _ h3 => ?_
          exact (h1.andThen h2).andThen h3

theorem refs_execLoad (h : i ∈ l.refs) (hfile : l.file = none) :
    refDiscipline (P := P) |>.Ok l (execLoad i) fun _ l' => l.Same l' := by
  refine (refs_readExactly h (by decide) (by decide)).seq fun r l1 h1 => ?_
  have hfile1 := h1.file.trans hfile
  cases r with
  | none => exact h1
  | some bytes =>
    show refDiscipline.Ok l1 (ite _ _ _) _
    split
    · exact h1
    · refine (refs_loose (a := .env) trivial hfile1).seq ?_
      rintro pgdir _ rfl
      cases pgdir with
      | none => exact h1
      | some _ =>
        refine (refs_execLoop _ (field_lt bytes 28 le_rfl) (h1.refs.symm ▸ h) hfile1).mono fun _ _ h2 => ?_
        exact h1.andThen h2

theorem uses_sysExec (path : Option (List UInt8)) : Uses (P := P) 0 (sysExec path) := by
  cases path with
  | none => exact .pure _
  | some path =>
    refine .step trivial fun _ => .namex uses_fail fun e => .ilock (Multiset.mem_cons_self _ _) ?_
    refine .keep (fun l hle _ hfile => refs_execLoad (Multiset.mem_of_le hle (Multiset.mem_cons_self _ _)) hfile)
      fun ok => .spend .iunlockput fun _ => .step trivial fun _ => .ite (.step trivial fun _ => .pure _) (.pure _)

/-! ## `fork`, `exit` and the open files -/

theorem uses_sysFork : Uses (P := P) 0 sysFork := by
  refine .step trivial fun q => ?_
  cases q with
  | none => exact .pure _
  | some q =>
    have hfiles : ∀ fds, Uses (P := P) 0 (forkFiles q fds) := by
      intro fds
      induction fds with
      | nil => exact .pure _
      | cons fd fds ih => exact .step trivial fun _ => ih
    refine .step trivial fun memory => ?_
    cases memory with
    | none => exact .step trivial fun _ => .pure _
    | some _ =>
      refine .andThen (hfiles _) fun _ l rest hrefs ht hfile => ?_
      rw [zero_add] at hrefs
      refine ok_bind.mpr ⟨ht, fun i _ => ok_bind.mpr ⟨⟨rfl, ht⟩, fun _ _ => ?_⟩⟩
      refine ok_bind.mpr ⟨Multiset.mem_cons_self i _, fun _ _ => ?_⟩
      refine ok_bind.mpr ⟨trivial, fun _ _ => ⟨?_, rfl, rfl⟩⟩
      exact (Multiset.erase_cons_head i _).trans hrefs

theorem uses_sysExit : Uses (P := P) 0 sysExit := by
  have hfiles : ∀ fds, Uses (P := P) 0 (exitFiles fds) := by
    intro fds
    induction fds with
    | nil => exact .pure _
    | cons fd fds ih =>
      refine .step trivial fun f => ?_
      cases f with
      | none => exact ih
      | some f => exact .andThen (uses_fileclose f) fun _ => .step trivial fun _ => ih
  refine .step trivial fun _ => .ite (.panic _) (.andThen (hfiles _) fun _ => .step trivial fun _ => ?_)
  intro l rest hrefs ht hfile
  rw [zero_add] at hrefs
  refine refs_dropCwd ht fun l1 hrefs1 ht1 hfile1 => ?_
  refine ok_bind.mpr ⟨⟨ht1, .inl rfl⟩, fun _ _ => ok_bind.mpr ⟨⟨ht1, rfl⟩, fun _ _ => ?_⟩⟩
  exact ⟨hrefs1.trans hrefs, ht.symm, hfile1⟩

theorem uses_sysClose (fd : ℕ) : Uses (P := P) 0 (sysClose fd) := by
  unfold sysClose
  split
  · refine .step trivial fun f => ?_
    cases f with
    | none => exact .pure _
    | some f => exact .step trivial fun _ => .andThen (uses_fileclose f) fun _ => .pure _
  · exact .pure _

theorem uses_sysDup (fd : ℕ) : Uses (P := P) 0 (sysDup fd) := by
  refine uses_argfd fun f => ?_
  cases f with
  | none => exact .pure _
  | some f =>
    refine .step trivial fun fd => ?_
    cases fd with
    | none => exact .pure _
    | some fd => exact .step trivial fun _ => .pure _

theorem uses_pipealloc : Uses (P := P) 0 pipealloc := by
  refine .step trivial fun f0 => ?_
  cases f0 with
  | none => exact .pure _
  | some f0 =>
    refine .step trivial fun f1 => ?_
    cases f1 with
    | none => exact .andThen (uses_fileclose f0) fun _ => .pure _
    | some f1 =>
      refine .step trivial fun p => ?_
      cases p with
      | none => exact .andThen (uses_fileclose f0) fun _ => .andThen (uses_fileclose f1) fun _ => .pure _
      | some p => exact .step trivial fun _ => .pure _

theorem uses_sysPipe (ok : Bool) : Uses (P := P) 0 (sysPipe ok) := by
  refine .ite (.pure _) (.andThen uses_pipealloc fun r => ?_)
  cases r with
  | none => exact .pure _
  | some e =>
    have hbad : Uses (P := P) 0 (pipeBad e.1 e.2) :=
      .andThen (uses_fileclose e.1) fun _ => .andThen (uses_fileclose e.2) fun _ => .pure _
    refine .step trivial fun fd0 => ?_
    cases fd0 with
    | none => exact hbad
    | some fd0 =>
      refine .step trivial fun fd1 => ?_
      cases fd1 with
      | none => exact .step trivial fun _ => hbad
      | some fd1 => exact .pure _

/-! ## Reading and writing -/

/-- The references are as before; the process may have looked at an open file. -/
structure Refs.Looked (l l' : Refs) : Prop where
  refs : l'.refs = l.refs
  taken : l'.taken = l.taken

theorem Refs.Looked.refl (l : Refs) : l.Looked l := ⟨rfl, rfl⟩

variable {g : File → Sys P α}

/-- The first look at an open file. -/
theorem refs_file (hfile : l.file = none) (hinode : ∀ ff i, ff.type = .inode i → ff.off < 2 ^ 32 →
      refDiscipline.Ok { l with file := some (i, ff.writable) } (g ff) Q)
    (helse : ∀ ff, (∀ i, ff.type ≠ .inode i) → refDiscipline.Ok l (g ff) Q) :
    refDiscipline.Ok l (do let ff ← step (.file f); g ff) Q := by
  refine ok_bind.mpr ⟨trivial, fun ff hoff => ?_⟩
  show refDiscipline.Ok (match l.file, ff.type with
    | none, .inode i => { l with file := some (i, ff.writable) }
    | _, _ => l) (g ff) Q
  rw [hfile]
  cases htype : ff.type with
  | none => exact helse ff (by simp [htype])
  | pipe r => exact helse ff (by simp [htype])
  | inode i => exact hinode ff i htype hoff

/-- Another look at the same file. -/
theorem refs_file_again {x : ℕ × Bool}
    (hfile : l.file = some x) (hg : ∀ ff, ff.off < 2 ^ 32 → refDiscipline.Ok l (g ff) Q) :
    refDiscipline.Ok l (do let ff ← step (.file f); g ff) Q := by
  refine ok_bind.mpr ⟨trivial, fun ff hoff => ?_⟩
  show refDiscipline.Ok (match l.file, ff.type with
    | none, .inode i => { l with file := some (i, ff.writable) }
    | _, _ => l) (g ff) Q
  rw [hfile]
  exact hg ff hoff

theorem refs_advance {r : Option ℕ} : refDiscipline (P := P) |>.Ok l (advance f r) fun _ l' => l' = l := by
  unfold advance
  split
  · exact ⟨trivial, fun _ _ => rfl⟩
  · rfl

theorem refs_filestat (hfile : l.file = none) :
    refDiscipline (P := P) |>.Ok l (filestat f) fun _ l' => l.Looked l' := by
  refine refs_file hfile (fun ff i htype _ => ?_) fun ff htype => ?_
  · rw [htype]
    refine (refs_ilock (.inr ⟨_, rfl⟩)).seq ?_
    rintro _ _ rfl
    refine refs_stat.seq fun st l2 h2 => refs_iunlock.seq ?_
    rintro _ _ rfl
    exact ⟨h2.1.refs, h2.1.taken⟩
  · cases htype' : ff.type with
    | none | pipe r => exact .refl l
    | inode i => exact absurd htype' (htype i)

theorem refs_fileread (hfile : l.file = none) (hn : n < 2 ^ 32) :
    refDiscipline (P := P) |>.Ok l (fileread f n) fun _ l' => l.Looked l' := by
  refine refs_file hfile (fun ff i htype _ => ?_) fun ff htype => ?_
  · show refDiscipline.Ok _ (ite _ _ _) _
    split
    · exact ⟨rfl, rfl⟩
    · rw [htype]
      refine (refs_ilock (.inr ⟨_, rfl⟩)).seq fun _ l1 h1 => ?_
      rw [h1]
      refine refs_file_again rfl fun ff' hoff => ?_
      refine (refs_readi (.inr ⟨_, rfl⟩) hoff hn).seq fun r l2 h2 => ?_
      refine refs_advance.seq ?_
      rintro _ _ rfl
      refine refs_iunlock.seq ?_
      rintro _ _ rfl
      exact ⟨h2.refs, h2.taken⟩
  · show refDiscipline.Ok _ (ite _ _ _) _
    split
    · exact .refl l
    · cases htype' : ff.type with
      | none => exact refs_panic
      | pipe r => exact ok_bind.mpr ⟨trivial, fun _ _ => .refl l⟩
      | inode i => exact absurd htype' (htype i)

theorem refs_filewriteLoop (fuel : ℕ) (hfile : l.file = some (i, true)) (hsrc : src.length < 2 ^ 32) :
    refDiscipline (P := P) |>.Ok l (filewriteLoop f i fuel src) fun _ l' => l.Same l' := by
  induction fuel generalizing l src with
  | zero => exact .refl l
  | succ fuel ih =>
    unfold filewriteLoop
    split
    · exact .refl l
    · refine ok_bind.mpr (ok_bind.mpr ⟨trivial, fun _ _ => ?_⟩)
      refine (refs_ilock (.inr ⟨true, hfile⟩)).seq fun _ l1 h1 => ?_
      rw [h1]
      refine refs_file_again hfile fun ff hoff => ?_
      have htake : (src.take maxChunk).length < 2 ^ 32 := (List.length_take_le' _ _).trans_lt hsrc
      refine (refs_writei hfile hoff htake).seq fun r l2 h2 => ?_
      refine refs_advance.seq ?_
      rintro _ _ rfl
      refine refs_iunlock.seq ?_
      rintro _ _ rfl
      refine ok_bind.mpr ⟨trivial, fun _ _ => ?_⟩
      cases r with
      | none => exact h2
      | some n =>
        show refDiscipline.Ok _ (ite _ _ _) _
        split
        · exact refs_panic
        · have hdrop : (src.drop maxChunk).length < 2 ^ 32 := by
            rw [List.length_drop]
            omega
          exact (ih (h2.file.trans hfile) hdrop).mono fun _ _ h3 => Refs.Same.andThen h2 h3

theorem refs_filewrite (hfile : l.file = none) (hsrc : src.length < 2 ^ 32) :
    refDiscipline (P := P) |>.Ok l (filewrite f src) fun _ l' => l.Looked l' := by
  refine refs_file hfile (fun ff i htype _ => ?_) fun ff htype => ?_
  · show refDiscipline.Ok _ (ite _ _ _) _
    split
    · exact ⟨rfl, rfl⟩
    · rename_i hw
      rw [htype]
      have hfile' : ({ l with file := some (i, ff.writable) } : Refs).file = some (i, true) := by simpa using hw
      refine (refs_filewriteLoop _ hfile' hsrc).seq fun ok l1 h1 => ?_
      exact ⟨h1.refs, h1.taken⟩
  · show refDiscipline.Ok _ (ite _ _ _) _
    split
    · exact .refl l
    · cases htype' : ff.type with
      | none => exact refs_panic
      | pipe r => exact ok_bind.mpr ⟨trivial, fun _ _ => .refl l⟩
      | inode i => exact absurd htype' (htype i)

/-- A descriptor, and what is done with its file. -/
theorem refs_argfd {g : Option (Fin NFILE) → Sys P α}
    (hg : ∀ r, refDiscipline.Ok .idle (g r) fun _ l' => Refs.idle.Looked l') :
    refDiscipline.Ok .idle (argfd fd >>= g) fun _ l' => l'.Done := by
  have hargfd : (refDiscipline (P := P)).Ok .idle (argfd fd) fun _ l' => l' = .idle := by
    unfold argfd
    split
    · exact ⟨trivial, fun _ _ => rfl⟩
    · rfl
  refine hargfd.seq ?_
  rintro r _ rfl
  exact (hg r).mono fun _ _ h => ⟨h.refs, h.taken⟩

/-- Every system call returns without references of its own. -/
theorem refs_code (c : Syscall) : refDiscipline (P := P) |>.Ok .idle c.code fun _ l => l.Done := by
  cases c with
  | dup fd => exact (uses_sysDup fd).done
  | read fd n =>
    refine refs_argfd fun f => ?_
    cases f <;> cases n
    case some.some f n => exact refs_fileread rfl (n.isLt.trans (by decide))
    all_goals exact .refl _
  | write fd src =>
    refine refs_argfd fun f => ?_
    cases f <;> cases src
    case some.some f src =>
      show refDiscipline.Ok _ (ite _ _ _) _
      split
      · rename_i hlen
        exact refs_filewrite rfl (hlen.trans (by decide))
      · exact .refl _
    all_goals exact .refl _
  | close fd => exact (uses_sysClose fd).done
  | fstat fd =>
    refine refs_argfd fun f => ?_
    cases f with
    | none => exact .refl _
    | some f => exact refs_filestat rfl
  | link old new => exact (uses_sysLink old new).done
  | unlink path => exact (uses_sysUnlink path).done
  | «open» path omode => exact (uses_sysOpen path omode).done
  | mkdir path => exact (uses_sysCreate path _ _ _).done
  | mknod path major minor => exact (uses_sysCreate path _ _ _).done
  | chdir path => exact (uses_sysChdir path).done
  | pipe ok => exact (uses_sysPipe ok).done
  | exec path => exact (uses_sysExec path).done
  | fork => exact uses_sysFork.done
  | exit => exact uses_sysExit.done
  | wait => exact (Uses.step (m := 0) (a := .reap) trivial fun _ => .pure _).done

end Sys

end Xv6
