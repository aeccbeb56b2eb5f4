import Xv6.Bio
import Xv6.Log.GroupCommit

/-!
# The redo log (`log.c`)

The part of the log that reads and writes the disk: the header block, `write_log`, `install_trans`,
`commit` and `recover_from_log`, over the buffer cache of `Xv6.Bio`. One process at a time runs a
transaction, so `begin_op` either passes or would sleep for ever. The bookkeeping of the in-memory header
is that of `Xv6.Log.GroupCommit`.
-/

namespace Xv6

open Code List

/-! ## The header block -/

/-- `lh->n` of a header block. -/
def headerN (blk : Block) : ℤ := blk.int 0

/-- `lh->block[0..lh->n)` of a header block. -/
def header (blk : Block) : List ℕ :=
  (List.range (headerN blk).toNat).map fun i => blk.word (4 + 4 * i)

/-- The bytes that `write_head` stores at the start of the header block. -/
def headerBytes (lh : List ℕ) : List UInt8 :=
  leBytes 4 lh.length ++ lh.flatMap (leBytes 4)

theorem headerBytes_length (lh : List ℕ) : (headerBytes lh).length = 4 + 4 * lh.length := by
  rw [headerBytes, length_append, leBytes_length, length_flatMap_leBytes]

variable {lh : List ℕ}

/-- `struct logheader` fits into a block, which is the test of `initlog`. -/
theorem headerBytes_le (h : lh.length ≤ LOGSIZE) : (headerBytes lh).length ≤ BSIZE := by
  rw [headerBytes_length]
  simp only [LOGSIZE, MAXOPBLOCKS, BSIZE] at h ⊢
  omega

theorem headerN_move (blk : Block) (lh : List ℕ) (h : lh.length ≤ LOGSIZE) :
    headerN (blk.move 0 (headerBytes lh)) = lh.length := by
  have hword : Page.word (blk.move 0 (headerBytes lh)) 0 = lh.length := by
    unfold Page.word
    rw [Page.slice_move_inside blk (by simpa using headerBytes_le h) (Nat.le_refl 0)
      (by rw [headerBytes_length]; omega)]
    have htake : ((headerBytes lh).drop (0 - 0)).take 4 = leBytes 4 lh.length := by
      rw [Nat.sub_self, drop_zero, headerBytes,
        take_append_of_le_length (by rw [leBytes_length]), take_of_length_le (by simp)]
    rw [htake]
    refine leVal_leBytes_of_lt ?_
    simp only [LOGSIZE, MAXOPBLOCKS] at h
    omega
  simp only [LOGSIZE, MAXOPBLOCKS] at h
  rw [headerN, Page.int, hword, if_pos (by omega)]

/-- Reading back the header that `write_head` has stored. -/
theorem header_move (blk : Block) (h : lh.length ≤ LOGSIZE) (hlh : ∀ b ∈ lh, b < 2 ^ 32) :
    header (blk.move 0 (headerBytes lh)) = lh := by
  unfold header
  rw [headerN_move blk lh h, Int.toNat_natCast]
  refine ext_getElem (by simp) fun i hi hi' => ?_
  rw [getElem_map, getElem_range, Page.word,
    Page.slice_move_inside blk (by simpa using headerBytes_le h) (Nat.zero_le _)
      (by rw [headerBytes_length]; omega)]
  have hentry : ((headerBytes lh).drop (4 + 4 * i - 0)).take 4 = leBytes 4 lh[i] := by
    rw [Nat.sub_zero, headerBytes]
    have hdrop : (leBytes 4 lh.length ++ lh.flatMap (leBytes 4)).drop
        ((leBytes 4 lh.length).length + 4 * i) = (lh.flatMap (leBytes 4)).drop (4 * i) :=
      drop_length_add_append _
    rw [leBytes_length] at hdrop
    rw [hdrop]
    exact take_drop_flatMap (leBytes_length 4) hi'
  rw [hentry]
  exact leVal_leBytes_of_lt (hlh _ (getElem_mem hi'))

/-- An empty header has no entries. -/
theorem header_eq_nil {blk : Block} (h : headerN blk = 0) : header blk = [] := by
  simp [header, h]

/-! ## The functions of `log.c` -/

namespace Storage

/-- One iteration of `write_log` or of `install_trans`: read the blocks `a` and `b` and copy block `src`
of the two over block `dst`. -/
def copyBlock (a b src dst : ℕ) : Code Halt Storage Unit := do
  bread a
  bread b
  let d ← data src
  setData dst d
  bwrite dst
  brelse src
  brelse dst

/-- The body of `write_head`: change block `k` on the disk. -/
def rewriteBlock (k : ℕ) (f : Block → Block) : Code Halt Storage Unit := do
  bread k
  let d ← data k
  setData k (f d)
  bwrite k
  brelse k

end Storage

/-- The disk, the buffer cache and the log. -/
structure LogFs extends Storage where
  log : Log
  start : ℕ

namespace LogFs

open Storage

/-- Code of the buffer cache. -/
def bio {α : Type} (x : Code Halt Storage α) : Code Halt LogFs α :=
  Code.zoom LogFs.toStorage (fun st s => { s with toStorage := st }) x

/-- `install_trans`: copy committed blocks from the log to their home location. -/
def installTrans : Code Halt LogFs Unit := do
  let s ← get
  forM s.log.lh.zipIdx fun (b, tail) =>
    bio (copyBlock (s.start + tail + 1) b (s.start + tail + 1) b)

/-- `read_head`: read the log header from disk into the in-memory log header. -/
def readHead : Code Halt LogFs Unit := do
  let s ← get
  bio (bread s.start)
  let blk ← bio (data s.start)
  modify fun s => { s with log := { s.log with lh := header blk } }
  bio (brelse s.start)

/-- `write_head`: write the in-memory log header to disk. -/
def writeHead : Code Halt LogFs Unit := do
  let s ← get
  bio (rewriteBlock s.start (·.move 0 (headerBytes s.log.lh)))

/-- `log.lh.n = 0`. -/
def clearHead : Code Halt LogFs Unit :=
  modify fun s => { s with log := { s.log with lh := [] } }

/-- `recover_from_log`. -/
def recoverFromLog : Code Halt LogFs Unit := do
  readHead
  installTrans
  clearHead
  writeHead

/-- `write_log`: copy modified blocks from the cache to the log. -/
def writeLog : Code Halt LogFs Unit := do
  let s ← get
  forM s.log.lh.zipIdx fun (b, tail) =>
    bio (copyBlock (s.start + tail + 1) b b (s.start + tail + 1))

/-- `commit`. -/
def commit : Code Halt LogFs Unit := do
  let s ← get
  if s.log.lh.length > 0 then
    writeLog
    writeHead
    installTrans
    clearHead
    writeHead

/-- `begin_op`. -/
def beginOp : Code Halt LogFs Unit := do
  let s ← get
  match s.log.beginOp with
  | some log => set { s with log }
  | none => throw .sleep

/-- `log_write` of the buffer of block `k`. -/
def logWrite (k : ℕ) : Code Halt LogFs Unit := do
  let s ← get
  match s.log.logWriteCheck with
  | .error p => throw (.panic p)
  | .ok () =>
    modify fun s => { s with log := { s.log with lh := Log.absorb k s.log.lh } }
    bio (setDirty k)

/-- `end_op`. -/
def endOp : Code Halt LogFs Unit := do
  let s ← get
  match s.log.endOp with
  | .error p => throw (.panic p)
  | .ok (doCommit, log) =>
    set { s with log }
    if doCommit then
      commit
      modify fun s => { s with log := { s.log with committing := false } }

/-- The typical use of `log_write`: `bread`, a new content, `log_write`, `brelse`. -/
def update (w : ℕ × Block) : Code Halt LogFs Unit := do
  bio (bread w.1)
  bio (setData w.1 w.2)
  logWrite w.1
  bio (brelse w.1)

/-- A transaction that logs the blocks `ws`. -/
def transaction (ws : List (ℕ × Block)) : Code Halt LogFs Unit := do
  beginOp
  forM ws update
  endOp

/-- The state after loss of all memory. -/
def boot (disk : ℕ → Block) (start size : ℕ) : LogFs where
  disk := disk
  bufs := binit
  writes := []
  log := { size, outstanding := 0, committing := false, lh := [] }
  start := start

/-- `initlog` and a number of transactions. -/
def run (txs : List (List (ℕ × Block))) : Code Halt LogFs Unit := do
  recoverFromLog
  forM txs transaction

end LogFs

/-! ## Copying and changing blocks when no buffer is in use -/

namespace Storage

variable {s : Storage} {a b k src dst : ℕ}

/-- No buffer is in use. -/
def Idle (s : Storage) : Prop := ∀ j, s.ref j = 0

/-- There is a buffer for a block besides block `b` and the dirty ones. -/
def Room (s : Storage) (b : ℕ) : Prop :=
  ∃ ks : List ℕ, (∀ j, s.Dirty j → j ∈ ks) ∧ ks.length < NBUF ∧ (s.Dirty b ∨ ks.length + 1 < NBUF)

variable {Q : Unit → Storage → Prop} {E : Halt → Storage → Prop}

/-- The effect of an iteration: one disk write. -/
theorem wp_copyBlock (h : s.Coh) (hidle : s.Idle) (hab : a ≠ b) (hsd : (src = a ∧ dst = b) ∨ (src = b ∧ dst = a))
    (hQ : ∀ s', s'.Coh → s'.Idle → s'.disk = Function.update s.disk dst (s.view src) →
      s'.writes = s.writes ++ [(dst, s.view src)] →
      (∀ j, s'.view j = if j = dst then s.view src else s.view j) →
      (∀ j, s'.Dirty j ↔ s.Dirty j ∧ j ≠ dst) → Q () s')
    (hE : ∀ e s', s'.disk = s.disk → s'.writes = s.writes → ¬ s.Room b → E e s') :
    Wp (copyBlock a b src dst) Q E s := by
  unfold copyBlock
  rw [wp_bind]
  refine wp_mono (wp_bread_view h) ?_ ?_
  · rintro - s1 ⟨h1, hca, href1, -⟩
    rw [wp_bind]
    refine wp_mono (wp_bread_view h1.coh) ?_ ?_
    · rintro - s2 ⟨h2, hcb, href2, hkeep⟩
      have hca2 : s2.Cached a := hkeep a (by rw [href1, if_pos rfl]; omega) hca
      have href : ∀ j, s2.ref j = if j = a ∨ j = b then 1 else 0 := by
        intro j
        rw [href2, href1, hidle j]
        by_cases hjb : j = b <;> by_cases hja : j = a <;> simp [hjb, hja]
      have hsrc : s2.Cached src := by rcases hsd with ⟨rfl, -⟩ | ⟨rfl, -⟩ <;> assumption
      have hdst : s2.Cached dst := by rcases hsd with ⟨-, rfl⟩ | ⟨-, rfl⟩ <;> assumption
      have hne : src ≠ dst := by rcases hsd with ⟨rfl, rfl⟩ | ⟨rfl, rfl⟩ <;> [exact hab; exact hab.symm]
      have href' : ∀ j, s2.ref j = if j = src ∨ j = dst then 1 else 0 := by
        intro j
        rw [href]
        rcases hsd with ⟨rfl, rfl⟩ | ⟨rfl, rfl⟩
        · rfl
        · simp only [or_comm]
      have hview : ∀ j, s2.view j = s.view j := fun j => (h2.view j).trans (h1.view j)
      rw [wp_bind]
      refine wp_data hsrc ?_
      rw [← bind_assoc, wp_bind]
      refine wp_store h2.coh hdst fun s3 hcoh3 hdisk3 hwrites3 hview3 hdirty3 href3 hdst3 hkeep3 => ?_
      have hsrc3 : s3.Cached src := hkeep3 src (by rw [href', if_pos (.inl rfl)]; omega) hsrc
      rw [wp_bind]
      refine wp_brelse_view hcoh3 hsrc3 fun s4 h4 href4 hkeep4 => ?_
      have hdst4 : s4.Cached dst :=
        hkeep4 dst hne.symm (by rw [href3, href', if_pos (.inr rfl)]; omega) hdst3
      refine wp_brelse_view h4.coh hdst4 fun s5 h5 href5 _ => ?_
      refine hQ s5 h5.coh (fun j => ?_) ?_ ?_ (fun j => ?_) fun j => ?_
      · simp only [href5, href4, href3, href']
        by_cases hjs : j = src <;> by_cases hjd : j = dst <;> simp [hjs, hjd, hne, hne.symm]
      · rw [h5.disk, h4.disk, hdisk3, h2.disk, h1.disk, hview]
      · rw [h5.writes, h4.writes, hwrites3, h2.writes, h1.writes, hview]
      · rw [h5.view, h4.view, hview3, hview, hview]
      · rw [h5.dirty, h4.dirty, hdirty3, h2.dirty, h1.dirty]
    · rintro e s2 ⟨rfl, hstuck⟩
      refine hE e s2 h1.disk h1.writes ?_
      rintro ⟨ks, hks, hlen, hroom⟩
      refine h1.coh.not_stuck (by rw [href1, if_neg hab.symm, hidle]) ?_ hstuck
      rcases hroom with hb | hroom
      · exact .inl ((h1.dirty b).mpr hb)
      · refine .inr ⟨a :: ks, by simpa using hroom, fun j hj => ?_⟩
        rcases hj with hj | hj
        · have hja : j = a := by
            by_contra hja
            rw [href1, if_neg hja, hidle] at hj
            omega
          exact hja ▸ mem_cons_self
        · exact mem_cons_of_mem _ (hks j ((h1.dirty j).mp hj))
  · rintro e s1 ⟨rfl, hstuck⟩
    refine hE e s1 rfl rfl ?_
    rintro ⟨ks, hks, hlen, -⟩
    refine h.not_stuck (hidle a) (.inr ⟨ks, hlen, fun j hj => ?_⟩) hstuck
    rcases hj with hj | hj
    · rw [hidle] at hj
      omega
    · exact hks j hj

/-- The effect of `write_head`: one disk write. -/
theorem wp_rewriteBlock {f : Block → Block}
    (h : s.Coh) (hidle : s.Idle) (hQ : ∀ s', s'.Coh → s'.Idle → s'.disk = Function.update s.disk k (f (s.view k)) →
      s'.writes = s.writes ++ [(k, f (s.view k))] →
      (∀ j, s'.view j = if j = k then f (s.view k) else s.view j) →
      (∀ j, s'.Dirty j ↔ s.Dirty j ∧ j ≠ k) → Q () s')
    (hE : ∀ e s', s'.disk = s.disk → s'.writes = s.writes →
      (∀ ks : List ℕ, (∀ j, s.Dirty j → j ∈ ks) → NBUF ≤ ks.length) → E e s') :
    Wp (rewriteBlock k f) Q E s := by
  unfold rewriteBlock
  rw [wp_bind]
  refine wp_mono (wp_bread_view h) ?_ ?_
  · rintro - s1 ⟨h1, hk, href1, -⟩
    rw [wp_bind]
    refine wp_data hk ?_
    rw [← bind_assoc, wp_bind]
    refine wp_store h1.coh hk fun s2 hcoh2 hdisk2 hwrites2 hview2 hdirty2 href2 hk2 _ => ?_
    refine wp_brelse_view hcoh2 hk2 fun s3 h3 href3 _ => ?_
    refine hQ s3 h3.coh (fun j => ?_) ?_ ?_ (fun j => ?_) fun j => ?_
    · simp only [href3, href2, href1, hidle j]
      by_cases hj : j = k <;> simp [hj]
    · rw [h3.disk, hdisk2, h1.disk, h1.view]
    · rw [h3.writes, hwrites2, h1.writes, h1.view]
    · rw [h3.view, hview2, h1.view, h1.view]
    · rw [h3.dirty, hdirty2, h1.dirty]
  · rintro e s1 ⟨rfl, hstuck⟩
    refine hE e s1 rfl rfl fun ks hks => ?_
    by_contra hlen
    refine h.not_stuck (hidle k) (.inr ⟨ks, by omega, fun j hj => ?_⟩) hstuck
    rcases hj with hj | hj
    · rw [hidle] at hj
      omega
    · exact hks j hj

end Storage

end Xv6
