import Mathlib.Data.List.Perm.Subperm
import Mathlib.Logic.Function.Basic
import Xv6.Lib.Bytes
import Xv6.Lib.Hoare
import Xv6.Param

/-!
# The buffer cache and the disk (`bio.c`, `iderw`)

One process at a time uses the cache here, so that no lock is ever waited for. The kernel has one disk:
a buffer that `binit` has left unused (device 0) has no block number, every other one belongs to the
disk. A disk write replaces one block at once and is entered into the history `writes`.
-/

namespace Xv6

open Code List

/-- The contents of a disk block. -/
abbrev Block : Type := Page BSIZE

/-- `struct buf`, its flags `B_VALID` and `B_DIRTY` apart; the list links are the order of the cache. -/
structure Buf where
  blockno : Option ℕ
  valid : Bool
  dirty : Bool
  refcnt : ℕ
  data : Block

/-- The disk and the buffer cache, most recently used buffer first. -/
structure Storage where
  disk : ℕ → Block
  bufs : List Buf
  writes : List (ℕ × Block)

/-- Apply `f` to the first item that passes the test `p`. -/
def modifyFirst {α : Type} (p : α → Bool) (f : α → α) : List α → Option (List α)
  | [] => none
  | a :: as => if p a then some (f a :: as) else (modifyFirst p f as).map (a :: ·)

namespace Storage

/-- The cached copy of a block. -/
def look (s : Storage) (k : ℕ) : Option Buf := s.bufs.find? (·.blockno = some k)

/-- Change the buffer that holds block `k`. -/
def update (s : Storage) (k : ℕ) (f : Buf → Buf) : Storage :=
  { s with bufs := s.bufs.map fun b => if b.blockno = some k then f b else b }

/-- `bget`: the buffer of block `k`, recycling the least recently used one that is neither in use nor
dirty. -/
def bget (k : ℕ) : Code Halt Storage Unit := do
  let s ← get
  match s.look k with
  | some b =>
    -- a buffer in use is locked, and by the only process there is
    if 0 < b.refcnt then throw .sleep
    else set (s.update k fun b => { b with refcnt := b.refcnt + 1 })
  | none =>
    match modifyFirst (fun b => b.refcnt = 0 ∧ b.dirty = false)
        (fun b => { b with blockno := some k, valid := false, dirty := false, refcnt := 1 })
        s.bufs.reverse with
    | some bufs => set { s with bufs := bufs.reverse }
    | none => throw (.panic .bgetNoBuffers)

/-- `iderw`: write a dirty buffer to the disk, read an invalid one from it. -/
def iderw (k : ℕ) : Code Halt Storage Unit := do
  let s ← get
  match s.look k with
  | none => pure ()
  | some b =>
    if b.valid = true ∧ b.dirty = false then throw (.panic .iderwNothing)
    else if b.dirty then
      set { s.update k (fun b => { b with valid := true, dirty := false }) with
        disk := Function.update s.disk k b.data, writes := s.writes ++ [(k, b.data)] }
    else set (s.update k fun b => { b with valid := true, data := s.disk k })

/-- `bread`: the buffer of block `k` with the contents of the block. -/
def bread (k : ℕ) : Code Halt Storage Unit := do
  bget k
  let s ← get
  if (s.look k).any (·.valid) then pure () else iderw k

/-- The data of the buffer of block `k`. -/
def data (k : ℕ) : Code Halt Storage Block := do
  let s ← get
  pure ((s.look k).elim (fun _ => 0) (·.data))

/-- `memmove` into the data of the buffer of block `k`. -/
def setData (k : ℕ) (d : Block) : Code Halt Storage Unit :=
  modify fun s => s.update k fun b => { b with data := d }

/-- `b->flags |= B_DIRTY` for the buffer of block `k`. -/
def setDirty (k : ℕ) : Code Halt Storage Unit :=
  modify fun s => s.update k fun b => { b with dirty := true }

/-- `bwrite`: write the buffer of block `k` to the disk. -/
def bwrite (k : ℕ) : Code Halt Storage Unit := do
  setDirty k
  iderw k

/-- `brelse`: give up the buffer of block `k`; an unused buffer becomes the most recently used one. -/
def brelse (k : ℕ) : Code Halt Storage Unit := do
  modify fun s => s.update k fun b => { b with refcnt := b.refcnt - 1 }
  let s ← get
  match s.look k with
  | none => pure ()
  | some b =>
    if b.refcnt = 0 then set { s with bufs := b :: s.bufs.eraseP (·.blockno = some k) }
    else pure ()

/-- `binit`: the empty cache. -/
def binit : List Buf :=
  List.replicate NBUF ⟨none, false, false, 0, fun _ => 0⟩

/-! ## What the operations do, block by block

The order of the buffers decides only which clean buffer is recycled. The lemmas below describe every
operation through `look` and keep the buffers of different blocks apart (`Uniq`). -/

/-- No two buffers hold the same block. -/
def Uniq (bufs : List Buf) : Prop :=
  bufs.Pairwise fun a b => ∀ k, a.blockno = some k → b.blockno ≠ some k

variable {s s' : Storage} {j k : ℕ} {f : Buf → Buf} {b : Buf}

variable {l bufs : List Buf} {Q : Unit → Storage → Prop} {E : Halt → Storage → Prop}

theorem Uniq.perm {l' : List Buf} (h : Uniq l) (hp : l.Perm l') : Uniq l' :=
  List.Pairwise.perm h hp fun hab k hb ha => hab k ha hb

theorem Uniq.find?_eq (h : Uniq l) (hb : b ∈ l) (hk : b.blockno = some k) : l.find? (·.blockno = some k) = some b := by
  induction l with
  | nil => simp at hb
  | cons a as ih =>
    obtain ⟨ha, has⟩ := pairwise_cons.mp h
    rw [find?_cons]
    rcases mem_cons.mp hb with rfl | hb
    · simp [hk]
    · have hne : a.blockno ≠ some k := fun hak => ha b hb k hak hk
      simpa [hne] using ih has hb

theorem look_eq_some (h : s.look k = some b) : b ∈ s.bufs ∧ b.blockno = some k :=
  ⟨mem_of_find?_eq_some h, by simpa using find?_some h⟩

theorem look_eq_none : s.look k = none ↔ ∀ b ∈ s.bufs, b.blockno ≠ some k := by
  simp [look]

theorem look_update (hf : ∀ b, (f b).blockno = b.blockno) :
    (s.update k f).look j = if j = k then (s.look k).map f else s.look j := by
  unfold look update
  rw [find?_map]
  have hkey : ((fun b : Buf => decide (b.blockno = some j)) ∘
      fun b => if b.blockno = some k then f b else b) = fun b => decide (b.blockno = some j) := by
    funext b
    simp only [Function.comp_apply]
    split <;> simp [hf]
  rw [hkey]
  split
  · rename_i hjk
    subst hjk
    cases hfind : s.bufs.find? (fun b => decide (b.blockno = some j)) with
    | none => rfl
    | some b =>
      have hb : b.blockno = some j := by simpa using find?_some hfind
      simp [hb]
  · rename_i hjk
    cases hfind : s.bufs.find? (fun b => decide (b.blockno = some j)) with
    | none => rfl
    | some b =>
      have hb : b.blockno = some j := by simpa using find?_some hfind
      have hne : ¬ b.blockno = some k := by simp [hb, hjk]
      simp [hne]

/-- Changing the buffer of block `k`, which is cached. -/
theorem look_update_self (hk : s.look k = some b) (hf : ∀ b, (f b).blockno = b.blockno) :
    (s.update k f).look k = some (f b) := by
  rw [look_update hf, if_pos rfl, hk]
  rfl

theorem uniq_update (h : Uniq s.bufs) (hf : ∀ b, (f b).blockno = b.blockno) : Uniq (s.update k f).bufs := by
  refine pairwise_map.mpr (h.imp fun {a b} hab i => ?_)
  have hkey : ∀ c : Buf, (if c.blockno = some k then f c else c).blockno = c.blockno := by
    intro c
    split <;> simp [hf]
  rw [hkey, hkey]
  exact hab i

theorem mem_update (h : b ∈ (s.update k f).bufs) (hf : ∀ b, (f b).blockno = b.blockno) :
    b ∈ s.bufs ∨ b.blockno = some k := by
  obtain ⟨c, hc, rfl⟩ := mem_map.mp h
  split
  · rename_i hk
    exact .inr ((hf c).trans hk)
  · exact .inl hc

variable {α : Type} {p : α → Bool}

theorem modifyFirst_eq_some {f : α → α} {l l' : List α} (h : modifyFirst p f l = some l') :
    ∃ pre a post, l = pre ++ a :: post ∧ p a = true ∧ l' = pre ++ f a :: post := by
  induction l generalizing l' with
  | nil => simp [modifyFirst] at h
  | cons x xs ih =>
    simp only [modifyFirst] at h
    split at h
    · rename_i hx
      exact ⟨[], x, xs, rfl, hx, by simpa using h.symm⟩
    · obtain ⟨l1, hl1, rfl⟩ := Option.map_eq_some_iff.mp h
      obtain ⟨pre, a, post, rfl, ha, rfl⟩ := ih hl1
      exact ⟨x :: pre, a, post, rfl, ha, rfl⟩

theorem modifyFirst_eq_none {f : α → α} {l : List α} (h : modifyFirst p f l = none) : ∀ a ∈ l, p a = false := by
  induction l with
  | nil => simp
  | cons x xs ih =>
    simp only [modifyFirst] at h
    split at h
    · simp at h
    · rename_i hx
      intro a ha
      rcases mem_cons.mp ha with rfl | ha
      · simpa using hx
      · exact ih (by simpa using h) a ha

theorem look_iff (h : Uniq s.bufs) : s.look k = some b ↔ b ∈ s.bufs ∧ b.blockno = some k :=
  ⟨look_eq_some, fun hb => h.find?_eq hb.1 hb.2⟩

/-- What an operation on block `k` does to the rest of the cache: nothing, but for a clean buffer
that may be recycled. -/
structure Others (s s' : Storage) (k : ℕ) : Prop where
  uniq : Uniq s'.bufs
  length : s'.bufs.length = s.bufs.length
  look : ∀ j ≠ k, s'.look j = s.look j ∨
    (s'.look j = none ∧ ∃ b, s.look j = some b ∧ b.refcnt = 0 ∧ b.dirty = false)
  mem : ∀ b ∈ s'.bufs, b ∈ s.bufs ∨ b.blockno = some k

theorem others_update (h : Uniq s.bufs) (hf : ∀ b, (f b).blockno = b.blockno) : Others s (s.update k f) k where
  uniq := uniq_update h hf
  length := by simp [update]
  look := fun j hj => .inl (by rw [look_update hf, if_neg hj])
  mem := fun _ hb => mem_update hb hf

theorem Others.trans {s1 s2 s3 : Storage} (h : Others s1 s2 k) (h' : Others s2 s3 k) : Others s1 s3 k where
  uniq := h'.uniq
  length := h'.length.trans h.length
  look := by
    intro j hj
    rcases h'.look j hj with h2 | ⟨h2, b, hb, hfree⟩
    · rw [h2]
      exact h.look j hj
    · rcases h.look j hj with h1 | ⟨h1, -⟩
      · exact .inr ⟨h2, b, h1 ▸ hb, hfree⟩
      · simp [h1] at hb
  mem := by
    intro b hb
    rcases h'.mem b hb with hb | hb
    · exact h.mem b hb
    · exact .inr hb

/-- Recycling the buffer `v` for block `k`, which no buffer holds. -/
theorem others_recycle (h : Uniq s.bufs) (hk : s.look k = none) {v b : Buf} {rest : List Buf}
    (hv : v.refcnt = 0 ∧ v.dirty = false) (hb : b.blockno = some k) (hold : s.bufs.Perm (v :: rest))
    (hnew : bufs.Perm (b :: rest)) : Others s { s with bufs } k ∧ ({ s with bufs } : Storage).look k = some b := by
  have hnone := look_eq_none.mp hk
  have hrest : ∀ c ∈ rest, c ∈ s.bufs := fun c hc => hold.mem_iff.mpr (mem_cons_of_mem _ hc)
  obtain ⟨hvrest, hrestU⟩ := pairwise_cons.mp (h.perm hold)
  have huniq : Uniq bufs := by
    refine Uniq.perm (pairwise_cons.mpr ⟨fun c hc i hbi hci => ?_, hrestU⟩) hnew.symm
    obtain rfl : k = i := by simpa [hb] using hbi
    exact hnone c (hrest c hc) hci
  refine ⟨⟨huniq, ?_, fun j hj => ?_, fun c hc => ?_⟩, (look_iff huniq).mpr ⟨?_, hb⟩⟩
  · rw [hnew.length_eq, hold.length_eq, length_cons, length_cons]
  · by_cases hvj : v.blockno = some j
    · refine .inr ⟨look_eq_none.mpr fun c hc hcj => ?_, v, (look_iff h).mpr ⟨?_, hvj⟩, hv⟩
      · rcases mem_cons.mp (hnew.mem_iff.mp hc) with rfl | hc
        · exact hj (by simpa [hb] using hcj.symm)
        · exact hvrest c hc j hvj hcj
      · exact hold.mem_iff.mpr mem_cons_self
    · refine .inl (Option.ext fun c => ?_)
      rw [look_iff huniq, look_iff h]
      refine and_congr_left fun hcj => ?_
      simp only [hnew.mem_iff, hold.mem_iff, mem_cons]
      refine or_congr_left ⟨?_, ?_⟩
      · rintro rfl
        exact absurd (by simpa [hb] using hcj.symm) hj
      · rintro rfl
        exact absurd hcj hvj
  · rcases mem_cons.mp (hnew.mem_iff.mp hc) with rfl | hc
    · exact .inr hb
    · exact .inl (hrest c hc)
  · exact hnew.mem_iff.mpr mem_cons_self

/-- The reference count of the buffer of block `k`. -/
def ref (s : Storage) (k : ℕ) : ℕ := (s.look k).elim 0 (·.refcnt)

/-- `bget` has no buffer for block `k`: the process holds it already, or it is not cached and every
buffer is in use or dirty. -/
def Stuck (s : Storage) (k : ℕ) : Prop :=
  0 < s.ref k ∨ (s.look k = none ∧ ∀ b ∈ s.bufs, b.refcnt ≠ 0 ∨ b.dirty = true)

/-- `bget` finds or makes the buffer of the block. -/
theorem wp_bget (h : Uniq s.bufs) : Wp (bget k) (fun _ s' => s'.disk = s.disk ∧ s'.writes = s.writes ∧ Others s s' k ∧
        ∃ b', s'.look k = some b' ∧ b'.refcnt = 1 ∧
          ((s.look k = none ∧ b'.valid = false ∧ b'.dirty = false) ∨
            ∃ b, s.look k = some b ∧ b'.valid = b.valid ∧ b'.dirty = b.dirty ∧ b'.data = b.data))
      (fun _ s' => s' = s ∧ s.Stuck k) s := by
  unfold bget
  simp only [wp_bind, wp_get]
  cases hk : s.look k with
  | some b =>
    simp only [wp_ite, wp_throw, wp_set]
    split
    · rename_i hr
      exact ⟨trivial, .inl (by simpa [ref, hk] using hr)⟩
    · rename_i hr
      have hb := look_update_self (f := fun b => { b with refcnt := b.refcnt + 1 }) hk fun _ => rfl
      exact ⟨rfl, rfl, others_update h fun _ => rfl, _, hb, by simpa using hr,
        .inr ⟨b, rfl, rfl, rfl, rfl⟩⟩
  | none =>
    simp only
    split
    · rename_i bufs hrec
      obtain ⟨pre, v, post, hpre, hv, rfl⟩ := modifyFirst_eq_some hrec
      have hold : s.bufs.Perm (v :: (pre ++ post)) :=
        (reverse_perm s.bufs).symm.trans (hpre ▸ perm_middle)
      obtain ⟨hothers, hlook⟩ := others_recycle h hk (by simpa using hv)
        (b := { v with blockno := some k, valid := false, dirty := false, refcnt := 1 }) rfl hold
        ((reverse_perm _).trans perm_middle)
      exact ⟨rfl, rfl, hothers, _, hlook, rfl, .inl (by simp)⟩
    · rename_i hrec
      refine ⟨rfl, .inr ⟨hk, fun b hb => ?_⟩⟩
      have := modifyFirst_eq_none hrec b (mem_reverse.mpr hb)
      by_cases hr : b.refcnt = 0
      · exact .inr (by simpa [hr] using this)
      · exact .inl hr

/-! ## The contents a process sees -/

/-- The contents of block `k` as `bread` returns them. -/
def view (s : Storage) (k : ℕ) : Block :=
  match s.look k with
  | some b => if b.valid then b.data else s.disk k
  | none => s.disk k

/-- The block has a dirty buffer. -/
def Dirty (s : Storage) (k : ℕ) : Prop := ∃ b, s.look k = some b ∧ b.dirty = true

/-- The cache between two operations: a clean buffer holds what is on the disk. -/
structure Coh (s : Storage) : Prop where
  uniq : Uniq s.bufs
  length : s.bufs.length = NBUF
  clean : ∀ k b, s.look k = some b → b.valid = true → b.dirty = false → b.data = s.disk k
  valid : ∀ k b, s.look k = some b → b.dirty = true → b.valid = true
  unused : ∀ b ∈ s.bufs, b.blockno = none → b.refcnt = 0 ∧ b.dirty = false

theorem view_eq_of_look (h : s'.look k = s.look k) (hd : s'.disk k = s.disk k) : s'.view k = s.view k := by
  simp [view, h, hd]

theorem Coh.view_eq_disk (h : s.Coh) (hk : ¬ s.Dirty k) : s.view k = s.disk k := by
  unfold view
  split
  · rename_i b hb
    have hclean : b.dirty = false := by
      cases hd : b.dirty with
      | false => rfl
      | true => exact absurd ⟨b, hb, hd⟩ hk
    split
    · exact h.clean k b hb ‹_› hclean
    · rfl
  · rfl

/-- Recycling clean buffers changes no contents. -/
theorem Others.view_eq (h : Others s s' k) (hs : s.Coh) (hd : s'.disk = s.disk) (hj : j ≠ k) :
    s'.view j = s.view j := by
  rcases h.look j hj with hl | ⟨hl, b, hb, -, hclean⟩
  · exact view_eq_of_look hl (by rw [hd])
  · have hnd : ¬ s.Dirty j := by
      rintro ⟨c, hc, hcd⟩
      simp_all
    rw [hs.view_eq_disk hnd, view, hl, hd]

theorem Others.dirty_iff (h : Others s s' k) (hj : j ≠ k) : s'.Dirty j ↔ s.Dirty j := by
  rcases h.look j hj with hl | ⟨hl, b, hb, -, hclean⟩
  · simp [Dirty, hl]
  · simp [Dirty, hl, hb, hclean]

/-! ## Reading, writing and releasing a buffer -/

/-- The contents of an invalid buffer are read from the disk. -/
theorem wp_iderw_read (hk : s.look k = some b) (hv : b.valid = false) (hd : b.dirty = false)
    (h : Q () (s.update k fun b => { b with valid := true, data := s.disk k })) :
    Wp (iderw k) Q E s := by
  simpa [iderw, hk, hv, hd] using h

/-- A dirty buffer is written to the disk. -/
theorem wp_iderw_write (hk : s.look k = some b) (hd : b.dirty = true)
    (h : Q () { s.update k (fun b => { b with valid := true, dirty := false }) with
      disk := Function.update s.disk k b.data, writes := s.writes ++ [(k, b.data)] }) :
    Wp (iderw k) Q E s := by
  simpa [iderw, hk, hd] using h

/-- `bread` returns the contents of the block in a buffer of its own. -/
theorem wp_bread (h : s.Coh) : Wp (bread k) (fun _ s' => s'.disk = s.disk ∧ s'.writes = s.writes ∧ Others s s' k ∧
        ∃ b', s'.look k = some b' ∧ b'.valid = true ∧ b'.data = s.view k ∧
          b'.refcnt = 1 ∧ (b'.dirty = true ↔ s.Dirty k))
      (fun _ s' => s' = s ∧ s.Stuck k) s := by
  unfold bread
  rw [wp_bind]
  refine wp_post (wp_bget h.uniq) ?_
  rintro - s1 ⟨hdisk, hwrites, hothers, b1, hb1, href, hcase⟩
  rw [wp_bind, wp_get, wp_ite]
  have hdirty : b1.dirty = true ↔ s.Dirty k := by
    rcases hcase with ⟨hnone, -, hd⟩ | ⟨b, hb, -, hd, -⟩
    · simp [Dirty, hnone, hd]
    · simp [Dirty, hb, hd]
  -- the copy is valid exactly when the block was cached with a valid copy
  cases hv : b1.valid with
  | true =>
    simp only [hb1, hv, Option.any_some, if_true, wp_pure]
    refine ⟨hdisk, hwrites, hothers, b1, rfl, hv, ?_, href, hdirty⟩
    rcases hcase with ⟨-, hinv, -⟩ | ⟨b, hb, hbv, -, hdata⟩
    · simp [hv] at hinv
    · simp [view, hb, ← hbv, hv, hdata]
  | false =>
    have hclean : b1.dirty = false := by
      rcases hcase with ⟨-, -, hd⟩ | ⟨b, hb, hbv, hd, -⟩
      · exact hd
      · rw [hd]
        cases hd : b.dirty with
        | false => rfl
        | true => simp [hbv, h.valid k b hb hd] at hv
    simp only [hb1, hv, Option.any_some, Bool.false_eq_true, if_false]
    refine wp_iderw_read hb1 hv hclean ⟨hdisk, hwrites, ?_, _, look_update_self hb1 fun _ => rfl,
      rfl, ?_, href, hdirty⟩
    · exact hothers.trans (others_update hothers.uniq fun _ => rfl)
    · rcases hcase with ⟨hnone, -⟩ | ⟨b, hb, hbv, -⟩
      · simp [view, hnone, hdisk]
      · simp [view, hb, ← hbv, hv, hdisk]

/-- `bwrite` makes the contents of the buffer those of the disk block. -/
theorem wp_bwrite (h : Uniq s.bufs) (hk : s.look k = some b) (hQ : ∀ s', s'.disk = Function.update s.disk k b.data →
      s'.writes = s.writes ++ [(k, b.data)] → Others s s' k →
      s'.look k = some { b with valid := true, dirty := false } → Q () s') :
    Wp (bwrite k) Q E s := by
  unfold bwrite setDirty
  rw [wp_bind, wp_modify]
  have hk1 := look_update_self (f := fun b => { b with dirty := true }) hk fun _ => rfl
  refine wp_iderw_write hk1 rfl (hQ _ rfl rfl ?_ ?_)
  · have h1 := others_update (k := k) (f := fun b => { b with dirty := true }) h fun _ => rfl
    have h2 := others_update (k := k) (f := fun b => { b with valid := true, dirty := false })
      h1.uniq fun _ => rfl
    exact ⟨h2.uniq, (h1.trans h2).length, (h1.trans h2).look, (h1.trans h2).mem⟩
  · have hk2 := look_update_self (f := fun b => { b with valid := true, dirty := false }) hk1
      fun _ => rfl
    exact hk2

theorem perm_cons_eraseP (h : l.find? (·.blockno = some k) = some b) : l.Perm (b :: l.eraseP (·.blockno = some k)) := by
  induction l with
  | nil => simp at h
  | cons a as ih =>
    by_cases ha : a.blockno = some k
    · obtain rfl : a = b := by simpa [ha] using h
      simp [ha]
    · rw [eraseP_cons_of_neg (by simpa using ha)]
      have hfind : as.find? (·.blockno = some k) = some b := by simpa [ha] using h
      exact ((ih hfind).cons a).trans (List.Perm.swap _ _ _)

/-- Reordering the cache changes no buffer. -/
theorem others_perm (h : Uniq s.bufs) (hp : s.bufs.Perm bufs) :
    Others s { s with bufs } k ∧ ∀ j, ({ s with bufs } : Storage).look j = s.look j := by
  have huniq : Uniq bufs := h.perm hp
  have hlook : ∀ j, ({ s with bufs } : Storage).look j = s.look j := by
    intro j
    refine Option.ext fun c => ?_
    rw [look_iff huniq, look_iff h, hp.mem_iff]
  exact ⟨⟨huniq, hp.length_eq.symm, fun j _ => .inl (hlook j), fun c hc =>
    .inl (hp.mem_iff.mpr hc)⟩, hlook⟩

/-- `brelse` gives up one reference. -/
theorem wp_brelse (h : Uniq s.bufs) (hk : s.look k = some b)
    (hQ : ∀ s', s'.disk = s.disk → s'.writes = s.writes → Others s s' k →
      s'.look k = some { b with refcnt := b.refcnt - 1 } → Q () s') :
    Wp (brelse k) Q E s := by
  unfold brelse
  have hk1 := look_update_self (f := fun b => { b with refcnt := b.refcnt - 1 }) hk fun _ => rfl
  have h1 := others_update (k := k) (f := fun b => { b with refcnt := b.refcnt - 1 }) h fun _ => rfl
  rw [wp_bind, wp_modify, wp_bind, wp_get, hk1]
  simp only
  rw [wp_ite]
  split
  · rw [wp_set]
    obtain ⟨h2, hlook⟩ := others_perm (k := k) h1.uniq (perm_cons_eraseP hk1)
    exact hQ _ rfl rfl (h1.trans h2) ((hlook k).trans hk1)
  · exact hQ _ rfl rfl h1 hk1

/-! ## The operations as a process sees them -/

/-- The block is cached. -/
def Cached (s : Storage) (k : ℕ) : Prop := ∃ b, s.look k = some b ∧ b.valid = true

theorem Others.ref_eq (h : Others s s' k) (hj : j ≠ k) : s'.ref j = s.ref j := by
  rcases h.look j hj with hl | ⟨hl, b, hb, hr, -⟩
  · simp [ref, hl]
  · simp [ref, hl, hb, hr]

/-- A buffer in use stays where it is. -/
theorem Others.cached (h : Others s s' k) (hj : j ≠ k) (hr : 0 < s.ref j) (hc : s.Cached j) : s'.Cached j := by
  rcases h.look j hj with hl | ⟨hl, b, hb, hr', -⟩
  · simpa [Cached, hl] using hc
  · simp [ref, hb, hr'] at hr

/-- An operation on block `k` restores the cache when it leaves the buffer of `k` as the disk. -/
theorem Others.coh (h : Others s s' k) (hs : s.Coh) (hdisk : ∀ j ≠ k, s'.disk j = s.disk j)
    (hk : ∃ b, s'.look k = some b ∧ b.valid = true ∧ (b.dirty = false → b.data = s'.disk k)) : s'.Coh where
  uniq := h.uniq
  length := h.length.trans hs.length
  clean := by
    intro j b hb hv hd
    by_cases hjk : j = k
    · subst hjk
      obtain ⟨c, hc, -, hcd⟩ := hk
      obtain rfl : b = c := by simpa [hb] using hc
      exact hcd hd
    · rw [hdisk j hjk]
      rcases h.look j hjk with hl | ⟨hl, -⟩
      · exact hs.clean j b (hl ▸ hb) hv hd
      · simp [hl] at hb
  valid := by
    intro j b hb hd
    by_cases hjk : j = k
    · subst hjk
      obtain ⟨c, hc, hcv, -⟩ := hk
      obtain rfl : b = c := by simpa [hb] using hc
      exact hcv
    · rcases h.look j hjk with hl | ⟨hl, -⟩
      · exact hs.valid j b (hl ▸ hb) hd
      · simp [hl] at hb
  unused := by
    intro b hb hnone
    rcases h.mem b hb with hb | hb
    · exact hs.unused b hb hnone
    · simp [hnone] at hb

/-- When fewer than `NBUF` blocks are in use or dirty, some buffer can be recycled. -/
theorem Coh.exists_free (h : s.Coh) {ks : List ℕ} (hlen : ks.length < NBUF)
    (hks : ∀ j, 0 < s.ref j ∨ s.Dirty j → j ∈ ks) : ¬ ∀ b ∈ s.bufs, b.refcnt ≠ 0 ∨ b.dirty = true := by
  intro hbusy
  have hkey : ∀ b ∈ s.bufs, ∃ k ∈ ks, b.blockno = some k := by
    intro b hb
    cases hbn : b.blockno with
    | none =>
      have := h.unused b hb hbn
      have := hbusy b hb
      simp_all
    | some k =>
      have hl := (look_iff h.uniq).mpr ⟨hb, hbn⟩
      refine ⟨k, hks k ?_, rfl⟩
      rcases hbusy b hb with hr | hd
      · exact .inl (by simpa [ref, hl] using Nat.pos_of_ne_zero hr)
      · exact .inr ⟨b, hl, hd⟩
  -- the block numbers of the buffers are distinct items of `ks`
  have hnodup : (s.bufs.map (·.blockno)).Nodup := by
    refine pairwise_map.mpr (List.Pairwise.imp_of_mem ?_ h.uniq)
    intro a b ha _ hab heq
    obtain ⟨k, -, hk⟩ := hkey a ha
    exact hab k hk (heq ▸ hk)
  have hsub : s.bufs.map (·.blockno) ⊆ ks.map some := by
    intro o ho
    obtain ⟨b, hb, rfl⟩ := mem_map.mp ho
    obtain ⟨k, hk, hbk⟩ := hkey b hb
    exact mem_map.mpr ⟨k, hk, hbk.symm⟩
  have hle := (subperm_of_subset hnodup hsub).length_le
  rw [length_map, length_map, h.length] at hle
  omega

/-- A dirty block is cached; for another block a buffer has to be free. -/
theorem Coh.not_stuck (h : s.Coh) (hr : s.ref k = 0)
    (hfree : s.Dirty k ∨ ∃ ks : List ℕ, ks.length < NBUF ∧ ∀ j, 0 < s.ref j ∨ s.Dirty j → j ∈ ks) : ¬ s.Stuck k := by
  rintro (hpos | ⟨hnone, hbusy⟩)
  · omega
  · rcases hfree with ⟨b, hb, -⟩ | ⟨ks, hlen, hks⟩
    · simp [hnone] at hb
    · exact h.exists_free hlen hks hbusy

/-- The disk and the contents of all blocks are as before. -/
structure SameView (s s' : Storage) : Prop where
  coh : s'.Coh
  disk : s'.disk = s.disk
  writes : s'.writes = s.writes
  view : ∀ j, s'.view j = s.view j
  dirty : ∀ j, s'.Dirty j ↔ s.Dirty j

/-- `bread` takes a reference to the block and caches it; nothing else changes. -/
theorem wp_bread_view (h : s.Coh) : Wp (bread k) (fun _ s' => SameView s s' ∧ s'.Cached k ∧
        (∀ j, s'.ref j = if j = k then 1 else s.ref j) ∧
        ∀ j, 0 < s.ref j → s.Cached j → s'.Cached j)
      (fun _ s' => s' = s ∧ s.Stuck k) s := by
  refine wp_post (wp_bread h) ?_
  rintro - s' ⟨hdisk, hwrites, hothers, b, hb, hv, hdata, href, hdirty⟩
  have hcoh : s'.Coh := by
    refine hothers.coh h (fun j _ => by rw [hdisk]) ⟨b, hb, hv, fun hclean => ?_⟩
    have hnd : ¬ s.Dirty k := fun hd => by simp [hdirty.mpr hd] at hclean
    rw [hdata, h.view_eq_disk hnd, hdisk]
  refine ⟨⟨hcoh, hdisk, hwrites, fun j => ?_, fun j => ?_⟩, ⟨b, hb, hv⟩, fun j => ?_, fun j hr hc => ?_⟩
  · by_cases hj : j = k
    · subst hj
      simp [view, hb, hv, hdata]
    · exact hothers.view_eq h hdisk hj
  · by_cases hj : j = k
    · subst hj
      rw [← hdirty]
      simp [Dirty, hb]
    · exact hothers.dirty_iff hj
  · split
    · rename_i hj
      subst hj
      simp [ref, hb, href]
    · rename_i hj
      exact hothers.ref_eq hj
  · by_cases hj : j = k
    · exact hj ▸ ⟨b, hb, hv⟩
    · exact hothers.cached hj hr hc

/-- `brelse` gives up a reference to the block; nothing else changes. -/
theorem wp_brelse_view (h : s.Coh) (hk : s.Cached k)
    (hQ : ∀ s', SameView s s' → (∀ j, s'.ref j = if j = k then s.ref k - 1 else s.ref j) →
      (∀ j, j ≠ k → 0 < s.ref j → s.Cached j → s'.Cached j) → Q () s') :
    Wp (brelse k) Q E s := by
  obtain ⟨b, hb, hv⟩ := hk
  refine wp_brelse h.uniq hb fun s' hdisk hwrites hothers hb' => ?_
  have hcoh : s'.Coh := by
    refine hothers.coh h (fun j _ => by rw [hdisk]) ⟨_, hb', hv, fun hclean => ?_⟩
    rw [hdisk]
    exact h.clean k b hb hv hclean
  refine hQ s' ⟨hcoh, hdisk, hwrites, fun j => ?_, fun j => ?_⟩ (fun j => ?_)
    fun j hj hr hc => hothers.cached hj hr hc
  · by_cases hj : j = k
    · subst hj
      simp [view, hb, hb', hv]
    · exact hothers.view_eq h hdisk hj
  · by_cases hj : j = k
    · subst hj
      simp [Dirty, hb, hb']
    · exact hothers.dirty_iff hj
  · split
    · rename_i hj
      subst hj
      simp [ref, hb, hb']
    · rename_i hj
      exact hothers.ref_eq hj

/-- Filling a cached buffer and writing it to the disk. -/
theorem wp_store {d : Block} (h : s.Coh) (hk : s.Cached k)
    (hQ : ∀ s', s'.Coh → s'.disk = Function.update s.disk k d → s'.writes = s.writes ++ [(k, d)] →
      (∀ j, s'.view j = if j = k then d else s.view j) → (∀ j, s'.Dirty j ↔ s.Dirty j ∧ j ≠ k) →
      (∀ j, s'.ref j = s.ref j) → s'.Cached k →
      (∀ j, 0 < s.ref j → s.Cached j → s'.Cached j) → Q () s') :
    Wp (do setData k d; bwrite k) Q E s := by
  obtain ⟨b, hb, hv⟩ := hk
  unfold setData
  rw [wp_bind, wp_modify]
  have hb1 := look_update_self (f := fun b => { b with data := d }) hb fun _ => rfl
  have h1 := others_update (k := k) (f := fun b => { b with data := d }) h.uniq fun _ => rfl
  refine wp_bwrite h1.uniq hb1 fun s' hdisk hwrites h2 hb' => ?_
  have hothers := h1.trans h2
  simp only at hdisk hwrites hb'
  have hcoh : s'.Coh := by
    refine hothers.coh h (fun j hj => ?_) ⟨_, hb', rfl, fun _ => ?_⟩
    · rw [hdisk, Function.update_of_ne hj]
      rfl
    · rw [hdisk, Function.update_self]
  have hcached : s'.Cached k := ⟨_, hb', rfl⟩
  refine hQ s' hcoh hdisk hwrites (fun j => ?_) (fun j => ?_) (fun j => ?_) hcached fun j hr hc => ?_
  · split
    · rename_i hj
      subst hj
      simp [view, hb']
    · rename_i hj
      rcases hothers.look j hj with hl | ⟨hl, c, hc, -, hclean⟩
      · exact view_eq_of_look hl (by rw [hdisk, Function.update_of_ne hj]; rfl)
      · have hnd : ¬ s.Dirty j := by
          rintro ⟨e, he, hed⟩
          simp_all
        rw [h.view_eq_disk hnd, view, hl, hdisk, Function.update_of_ne hj]
        rfl
  · by_cases hj : j = k
    · subst hj
      simp [Dirty, hb']
    · simp [hothers.dirty_iff hj, hj]
  · by_cases hj : j = k
    · subst hj
      simp [ref, hb, hb']
    · exact hothers.ref_eq hj
  · by_cases hj : j = k
    · exact hj ▸ hcached
    · exact hothers.cached hj hr hc

/-- Filling a cached buffer and marking it dirty. -/
theorem staged (h : s.Coh) (hk : s.Cached k) (d : Block) {t : Storage}
    (ht : t = (s.update k fun b => { b with data := d }).update k fun b => { b with dirty := true }) :
    t.Coh ∧ t.disk = s.disk ∧ t.writes = s.writes ∧
      (∀ j, t.view j = if j = k then d else s.view j) ∧ (∀ j, t.Dirty j ↔ s.Dirty j ∨ j = k) ∧
      (∀ j, t.ref j = s.ref j) ∧ t.Cached k := by
  obtain ⟨b, hb, hv⟩ := hk
  have hb1 := look_update_self (f := fun b => { b with data := d }) hb fun _ => rfl
  have h1 := others_update (k := k) (f := fun b => { b with data := d }) h.uniq fun _ => rfl
  have hb' := look_update_self (f := fun b => { b with dirty := true }) hb1 fun _ => rfl
  have h2 := others_update (k := k) (f := fun b => { b with dirty := true }) h1.uniq fun _ => rfl
  have hothers := h1.trans h2
  rw [← ht] at hb' hothers
  have hdisk : t.disk = s.disk := ht ▸ rfl
  refine ⟨hothers.coh h (fun j _ => by rw [hdisk]) ⟨_, hb', hv, nofun⟩, hdisk, ht ▸ rfl, fun j => ?_,
    fun j => ?_, fun j => ?_, ⟨_, hb', hv⟩⟩
  · split
    · rename_i hj
      subst hj
      simp [view, hb', hv]
    · rename_i hj
      exact hothers.view_eq h hdisk hj
  · by_cases hj : j = k
    · subst hj
      simp [Dirty, hb']
    · simp [hothers.dirty_iff hj, hj]
  · by_cases hj : j = k
    · subst hj
      simp [ref, hb, hb']
    · exact hothers.ref_eq hj

/-- `data` returns the contents of a cached block. -/
theorem wp_data {Q : Block → Storage → Prop} (hk : s.Cached k) (hQ : Q (s.view k) s) : Wp (data k) Q E s := by
  obtain ⟨b, hb, hv⟩ := hk
  unfold data
  rw [wp_bind, wp_get, wp_pure]
  simpa [view, hb, hv] using hQ

end Storage

end Xv6
