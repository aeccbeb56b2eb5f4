import Xv6.Fs.ByteArrays
import Xv6.Fs.Refine
import Xv6.Log.Crash

/-!
# A crash leaves the files of whole transactions

The operations on files run over blocks (`BlockFs.exec`), the redo log commits the blocks that a transaction passes
to `log_write` (`LogFs.run`), and the machine may crash at any write to the disk, also in recovery. What recovery
leaves are the files after the first transactions, each as a whole (`crash_safe`): the refinement of files by blocks
and the crash atomicity of the log, put together. They meet in `Logs`: code changes a block only by `log_write`, and
never one of the log.
-/

namespace Xv6

open Function Code List

/-- The operations of a transaction, one after the other. -/
def execAll {S : Type} (exec : (op : FsOp) → Code Halt S op.Resp) (ops : List FsOp) : Code Halt S PUnit :=
  forM ops fun op => do
    let _ ← exec op
    pure ⟨⟩

/-- Every operation finds what it needs. -/
def Files.Meets (N : ℕ) : List FsOp → Files → Prop
  | [], _ => True
  | op :: ops, t => t.Pre N op ∧ ∀ r t', (exec N op).run t = .ok r t' → Meets N ops t'

/-- The disk after each block of a list has been written. -/
theorem replay_map (f : ℕ → Block) (bs : List ℕ) (d : ℕ → Block) :
    replay d (bs.map fun b => (b, f b)) = fun b => if b ∈ bs then f b else d b := by
  induction bs generalizing d with
  | nil => simp [replay]
  | cons b bs ih =>
    show replay (Function.update d b (f b)) (bs.map fun b => (b, f b)) = _
    rw [ih]
    funext c
    by_cases hc : c = b
    · simp [hc]
    · simp [hc]

/-- Crashes in recovery lose nothing. -/
theorem LogFs.Recoverable.crashes {start size : ℕ} {d v : ℕ → Block} (h : Recoverable start size d v) (ks : List ℕ) :
    Recoverable start size (ks.foldl (LogFs.crashedRecovery start size) d) v := by
  induction ks generalizing d with
  | nil => exact h
  | cons k ks ih => exact ih (h.crashedRecovery k)

namespace BlockFs

variable {g : Geometry} {s s' : BlockFs g}

/-- A transaction does to the files what its operations say. -/
theorem wp_execAll {ops : List FsOp} (h : s.Sound) (hpre : s.files.Meets g.ninodes ops) : Wp (execAll exec ops)
      (fun _ s' => s'.Sound ∧ (execAll (Files.exec g.ninodes) ops).run s.files = .ok () s'.files ∧ Logs s s')
      (fun _ _ => True) s := by
  induction ops generalizing s with
  | nil => exact ⟨h, rfl, .refl s⟩
  | cons op ops ih =>
    rw [execAll, List.forM_cons, wp_bind, wp_bind]
    refine wp_mono (exec_refines h hpre.1) (fun r s1 h1 => ?_) fun _ _ _ => trivial
    rw [wp_pure]
    refine wp_post (ih h1.sound (hpre.2 r _ h1.files)) ?_
    rintro - s2 ⟨h2, hfiles, hlogs⟩
    refine ⟨h2, ?_, h1.logs.trans hlogs⟩
    rw [execAll, List.forM_cons, EStateM.run_bind, EStateM.run_bind, h1.files]
    exact hfiles

/-- The blocks passed to `log_write` between two states, with their contents in the second. -/
def changes (s s' : BlockFs g) : List (ℕ × Block) :=
  (s'.logged.drop s.logged.length).map fun b => (b, s'.blk b)

/-- What is logged is all that changes. -/
theorem Logs.replay_changes (h : Logs s s') : replay s.blk (changes s s') = s'.blk := by
  obtain ⟨bs, hlog, -, hblk⟩ := h
  rw [changes, hlog, drop_left, replay_map]
  funext b
  split
  · rfl
  · rename_i hb
    exact (hblk b hb).symm

theorem Logs.mem_changes (h : Logs s s') {w : ℕ × Block} (hw : w ∈ changes s s') :
    g.inodestart ≤ w.1 ∧ w.1 < g.size := by
  obtain ⟨bs, hlog, hin, -⟩ := h
  rw [changes, hlog, drop_left] at hw
  obtain ⟨b, hb, rfl⟩ := mem_map.mp hw
  exact hin b hb

theorem Logs.beyond (h : Logs s s') {b : ℕ} (hb : g.size ≤ b) : s'.blk b = s.blk b := by
  obtain ⟨bs, -, hin, hblk⟩ := h
  exact hblk b fun hmem => absurd (hin b hmem).2 (Nat.not_lt.mpr hb)

/-- The file system on a disk, with an empty inode cache. -/
def mount (g : Geometry) (d : ℕ → Block) : BlockFs g where
  blk b := if b < g.size then d b else fun _ => 0
  icache _ := ⟨false, Dinode.zero⟩
  logged := []

/-- Mounting the blocks that follow the log gives back the files: the cache is write-through. -/
theorem Sound.mount (h : s.Sound) (hend : ∀ b, g.size ≤ b → s.blk b = fun _ => 0) {d : ℕ → Block}
    (hd : ∀ b, g.inodestart ≤ b → b < g.size → d b = s.blk b) :
    (mount g d).Sound ∧ (mount g d).files.node = s.files.node := by
  have hblk : ∀ b, g.inodestart ≤ b → (BlockFs.mount g d).blk b = s.blk b := by
    intro b hb
    simp only [BlockFs.mount]
    split
    · rename_i hlt
      exact hd b hb hlt
    · rename_i hge
      exact (hend b (Nat.le_of_not_lt hge)).symm
  have himage : (BlockFs.mount g d).image = s.image := by
    refine Image.ext (funext fun i => ?_) (funext fun b => ?_) (funext fun b => ?_)
    · by_cases hi : i < g.ninodes
      · rw [h.ino_eq hi, dinode, ← hblk _ (IBLOCK_in hi).1]
        simp only [image, if_pos hi]
        rfl
      · simp only [image, if_neg hi]
    · simp only [image]
      split
      · rename_i hb
        exact hblk b ((inodestart_le.trans bmapstart_le).trans hb)
      · rfl
    · simp only [image, hblk _ (inodestart_le.trans bmapstart_le_BBLOCK)]
  refine ⟨⟨himage ▸ h.consistent, himage ▸ h.typed, fun i _ hv => ?_⟩, ?_⟩
  · exact absurd hv Bool.false_ne_true
  · simp only [files, himage]

/-- The first elements that a filter lets through are those of a first part of the list. -/
theorem exists_take_filter {α : Type} (p : α → Bool) (l : List α) (c : ℕ) :
    ∃ m ≤ l.length, (l.filter p).take c = (l.take m).filter p := by
  obtain ⟨l1, l2, rfl, htake, -⟩ := filter_eq_append_iff.mp (take_append_drop c (l.filter p)).symm
  exact ⟨l1.length, by simp, by rw [take_left, htake]⟩

section

variable {ops : List (List FsOp)} {st : ℕ → BlockFs g}

/-- The states between the transactions. -/
theorem sound_after (hs : (st 0).Sound) (hpre : ∀ n (hn : n < ops.length), (st n).files.Meets g.ninodes ops[n])
    (hrun : ∀ n (hn : n < ops.length), (execAll exec ops[n]).run (st n) = .ok () (st (n + 1))) (m : ℕ) (hm : m ≤ ops.length) :
    (st m).Sound ∧ (execAll (Files.exec g.ninodes) (ops.take m).flatten).run (st 0).files = .ok () (st m).files ∧
      (∀ n < m, Logs (st n) (st (n + 1))) ∧ ∀ b, g.size ≤ b → (st m).blk b = (st 0).blk b := by
  induction m with
  | zero => exact ⟨hs, rfl, by simp, fun _ _ => rfl⟩
  | succ m ih =>
    obtain ⟨hsound, hfiles, hlogs, hbeyond⟩ := ih (by omega)
    obtain ⟨hsound', hfiles', hlogs'⟩ := wp_ok (wp_execAll hsound (hpre m hm)) (hrun m hm)
    refine ⟨hsound', ?_, fun n hn => ?_, fun b hb => (hlogs'.beyond hb).trans (hbeyond b hb)⟩
    · rw [execAll] at hfiles
      rw [take_succ_eq_append_getElem hm, flatten_append, flatten_singleton, execAll, List.forM_append, EStateM.run_bind,
        hfiles]
      exact hfiles'
    · rcases Nat.lt_succ_iff_lt_or_eq.mp hn with hn | rfl
      · exact hlogs n hn
      · exact hlogs'

/-- Replaying the transactions gives the blocks between them. -/
theorem replay_txs (m : ℕ) (hlogs : ∀ n < m, Logs (st n) (st (n + 1))) :
    replay (st 0).blk ((List.range m).map fun n => changes (st n) (st (n + 1))).flatten = (st m).blk := by
  induction m with
  | zero => rfl
  | succ m ih =>
    rw [range_succ, map_append, flatten_append, replay_append_list, ih fun n hn => hlogs n (by omega), map_singleton,
      flatten_singleton]
    exact (hlogs m (Nat.lt_succ_self m)).replay_changes

end

/-- **Files survive crashes.** Transactions `ops` run from a sound disk with an empty log, the machine crashes after
`k` disk writes, and recovery crashes `ks` times. The next recovery completes, and mounting the disk gives the files as
the first `m` transactions have left them: those whose commit record is among the `k` writes. -/
theorem crash_safe (start size : ℕ) (st : ℕ → BlockFs g) (ops : List (List FsOp)) (hsize : 0 < size)
    (hlog : start + size ≤ g.inodestart) (hs : (st 0).Sound) (hhead : headerN ((st 0).blk start) = 0)
    (hend : ∀ b, g.size ≤ b → (st 0).blk b = fun _ => 0)
    (hpre : ∀ n (hn : n < ops.length), (st n).files.Meets g.ninodes ops[n])
    (hrun : ∀ n (hn : n < ops.length), (execAll exec ops[n]).run (st n) = .ok () (st (n + 1))) (k : ℕ) (ks : List ℕ) :
    let txs := (List.range ops.length).map fun n => changes (st n) (st (n + 1))
    let done := ((LogFs.run txs).final (LogFs.boot (st 0).blk start size)).writes.take k
    let d := ks.foldl (LogFs.crashedRecovery start size) (replay (st 0).blk done)
    ∃ m ≤ ops.length, ∃ r t, LogFs.recoverFromLog.run (LogFs.boot d start size) = .ok () r ∧
      (txs.filter (· ≠ [])).take (LogFs.commits start done) = (txs.take m).filter (· ≠ []) ∧
      (execAll (Files.exec g.ninodes) (ops.take m).flatten).run (st 0).files = .ok () t ∧
      (mount g r.disk).Sound ∧ (mount g r.disk).files.node = t.node := by
  intro txs done d
  have hlen : txs.length = ops.length := by rw [length_map, length_range]
  obtain ⟨-, -, hlogs, -⟩ := sound_after hs hpre hrun ops.length le_rfl
  -- what is logged is outside of the log
  have hhome : ∀ ws ∈ txs, ∀ w ∈ ws, LogFs.Home start size w.1 := by
    intro ws hws w hw
    obtain ⟨n, hn, rfl⟩ := mem_map.mp hws
    obtain ⟨hle, hlt⟩ := (hlogs n (mem_range.mp hn)).mem_changes hw
    have := g.size_le
    exact ⟨.inr (hlog.trans hle), by omega⟩
  have hatomic : LogFs.Atomic start size (st 0).blk (LogFs.committed (st 0).blk txs)
      ((LogFs.run txs).final (LogFs.boot (st 0).blk start size)).writes :=
    wp_final (wp_mono (LogFs.wp_run hsize hhead hhome) (fun _ _ h => h.atomic) fun _ _ h => h.1)
  obtain ⟨r, hrecover, -, hdisk⟩ := ((hatomic k).crashes ks).recovery
  obtain ⟨m, hm, htake⟩ := exists_take_filter (fun ws : List (ℕ × Block) => decide (ws ≠ [])) txs (LogFs.commits start done)
  rw [hlen] at hm
  obtain ⟨hsound, hfiles, hlogs', hbeyond⟩ := sound_after hs hpre hrun m hm
  have hblk : LogFs.committed (st 0).blk txs (LogFs.commits start done) = (st m).blk := by
    rw [LogFs.committed, htake, flatten_filter_ne_nil, ← map_take, take_range, Nat.min_eq_left hm]
    exact replay_txs m hlogs'
  obtain ⟨hmount, hnode⟩ := hsound.mount (fun b hb => (hbeyond b hb).trans (hend b hb)) (d := r.disk) fun b hle hlt => by
    rw [hdisk b ⟨.inr (hlog.trans hle), by have := g.size_le; omega⟩, hblk]
  exact ⟨m, hm, r, (st m).files, hrecover, htake, hfiles, hmount, hnode⟩

theorem emptyRoot_sound : emptyRoot.Sound where
  consistent := emptyRoot_consistent
  typed := fun i hi => by
    rw [emptyRoot_alloc.mp hi]
    exact .inl rfl
  through := fun i hi hv => by
    have hroot : i = ROOTINO := by
      by_contra hne
      simp [emptyRoot, hne] at hv
    subst hroot
    rw [emptyRoot_dinode hi, if_pos rfl]
    exact ⟨rfl, by decide⟩

/-- One more link to the root directory, with a log of two blocks before the inodes: after any crash there is the old
count or the new one. -/
theorem crash_safe_link : ∃ st : ℕ → BlockFs tenBlocks, st 0 = emptyRoot ∧
    (execAll exec [.update ROOTINO .link]).run emptyRoot = .ok () (st 1) ∧ ∀ (k : ℕ) (ks : List ℕ),
      let txs := (List.range 1).map fun n => changes (st n) (st (n + 1))
      let done := ((LogFs.run txs).final (LogFs.boot (st 0).blk 0 2)).writes.take k
      let d := ks.foldl (LogFs.crashedRecovery 0 2) (replay (st 0).blk done)
      ∃ r, LogFs.recoverFromLog.run (LogFs.boot d 0 2) = .ok () r ∧
        ((mount tenBlocks r.disk).files.node ROOTINO).nlink ∈ [1, 2] := by
  obtain ⟨st, h0, hrun⟩ : ∃ st : ℕ → BlockFs tenBlocks, st 0 = emptyRoot ∧
      (execAll exec [.update ROOTINO .link]).run emptyRoot = .ok () (st 1) :=
    ⟨fun n => if n = 0 then emptyRoot else (execAll exec [.update ROOTINO .link]).final emptyRoot, rfl, rfl⟩
  refine ⟨st, h0, hrun, fun k ks => ?_⟩
  have hpre : emptyRoot.files.Meets tenBlocks.ninodes [.update ROOTINO .link] :=
    ⟨⟨by decide, rfl⟩, fun _ _ _ => trivial⟩
  have hend : ∀ b, 10 ≤ b → emptyRoot.blk b = fun _ => 0 := by
    intro b hb
    simp only [emptyRoot]
    rw [if_neg (by omega), if_neg (by omega), if_neg (by omega)]
  rw [← h0] at hpre hend hrun
  obtain ⟨m, hm, r, t, hrec, -, hfiles, -, hnode⟩ := crash_safe 0 2 st [[.update ROOTINO .link]] (by decide) (by decide)
    (h0 ▸ emptyRoot_sound) (by rw [h0]; decide) hend (fun n hn => Nat.lt_one_iff.mp hn ▸ hpre)
    (fun n hn => Nat.lt_one_iff.mp hn ▸ hrun) k ks
  rw [length_singleton] at hrec
  refine ⟨r, hrec, ?_⟩
  rw [hnode, mem_cons, mem_singleton]
  rw [h0] at hfiles
  rcases Nat.le_one_iff_eq_zero_or_eq_one.mp hm with rfl | rfl
  · obtain ⟨-, rfl⟩ := EStateM.Result.ok.inj hfiles
    exact .inl rfl
  · obtain ⟨-, rfl⟩ := EStateM.Result.ok.inj hfiles
    exact .inr rfl

end BlockFs

end Xv6
