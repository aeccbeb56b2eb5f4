import Xv6.Log.GroupCommit

/-!
# Log space reservation

`begin_op` admits an operation when the header and a full budget of `MAXOPBLOCKS` for every outstanding
operation and the new one fit into `LOGSIZE` blocks. `log_write` refuses a block once the header holds
`log.size - 1` of them, whether or not the block would be absorbed, and `mkfs` writes `sb.nlog = LOGSIZE`
with the header block counted. So the reservation is one block too generous: three operations that use
their whole budget reach the panic. `log_space` says exactly which calls do.
-/

namespace Xv6.LogSys

open Function

variable {P : Type} [DecidableEq P] {s s' : LogSys P} {e : LogEvent P}

/-- The call keeps its operation within `M` distinct blocks. -/
def withinBudget (M : ℕ) (s : LogSys P) : LogEvent P → Bool
  | .logWrite p b => (insert b (s.used p)).card ≤ M
  | _ => true

/-- The call is made while fewer than `LOGSIZE - 1` distinct blocks have been passed to `log_write`
since the last commit ended. -/
def roomLeft (s : LogSys P) : LogEvent P → Bool
  | .logWrite _ _ => s.logged.toFinset.card < LOGSIZE - 1
  | _ => true

omit [DecidableEq P] in
/-- The header length counts the distinct blocks logged since the last commit. -/
theorem Core.lh_length (h : s.Core) : s.log.lh.length = s.logged.toFinset.card := by
  rw [← List.toFinset_card_of_nodup h.nodup]
  congr 1
  ext b
  simp [h.logged]

/-! ## Which calls panic -/

variable {size : ℕ} {ok : LogSys P → LogEvent P → Prop} {ph : LogPhase} {log : Log}

/-- The size of the log never changes. -/
theorem size_of_run (h : (lts P size).Run ok s) : s.log.size = size := by
  refine h.invariant (I := fun s => s.log.size = size) (fun _ hs => hs ▸ rfl) ?_
  intro s e s' hsize _ hnext
  have hstep := (step_of_next hnext).2
  cases hstep with
  | enter _ hlog => obtain ⟨-, -, rfl⟩ := Log.beginOp_eq_some hlog; exact hsize
  | append _ hlog => obtain ⟨rfl, -⟩ := Log.logWrite_eq_some hlog; exact hsize
  | lastEnd _ hlog => obtain ⟨-, -, rfl⟩ := Log.endOp_eq_true hlog; exact hsize
  | someEnd _ hlog => obtain ⟨-, -, rfl⟩ := Log.endOp_eq_false hlog; exact hsize
  | commit => simpa [Log.commit_eq] using hsize
  | _ => exact hsize

/-- With the geometry of `mkfs`, the tests of `log_write` come down to one comparison. -/
theorem logWriteCheck_tooBig_iff {l : Log} (hsize : l.size = nlog) :
    l.logWriteCheck = .error .logTooBig ↔ LOGSIZE - 1 ≤ l.lh.length := by
  unfold Log.logWriteCheck
  simp only [hsize, nlog, LOGSIZE, MAXOPBLOCKS]
  split
  · simp only [true_iff]
    omega
  · rename_i hroom
    split
    · simp only [Except.error.injEq, reduceCtorEq, false_iff]
      omega
    · simp only [reduceCtorEq, false_iff]
      omega

/-- A step panics for lack of log space exactly when it is a `log_write` without room. -/
theorem tooBig_iff (h : (lts P nlog).Run ok s)
    (hnext : next s e = some s') : s'.panicked = some .logTooBig ↔ roomLeft s e = false := by
  obtain ⟨hnone, hstep⟩ := step_of_next hnext
  have hinv := inv_of_run h
  have hiff := logWriteCheck_tooBig_iff (size_of_run h)
  rw [hinv.lh_length] at hiff
  cases hstep with
  | refuse hp hcheck =>
    rw [hcheck] at hiff
    simpa [roomLeft] using hiff
  | check hp hcheck =>
    rw [hcheck] at hiff
    simp only [reduceCtorEq, false_iff] at hiff
    simpa [goto, hnone, roomLeft] using hiff
  | endPanic hp hlog =>
    obtain ⟨hc, -⟩ := Log.endOp_eq_error hlog
    simp [hinv.not_committing (by rw [hp]; trivial)] at hc
  | _ => simp [goto, wakeup, hnone, roomLeft]

/-! ## The reservation of `begin_op` -/

/-- With `M` blocks for each operation, the header and what the outstanding operations may still add
stay within the reservation. -/
structure Reserved (M : ℕ) (s : LogSys P) : Prop where
  used_subset : ∀ p, (s.phase p).Active → ∀ b ∈ s.used p, b ∈ s.log.lh
  budget : ∀ p, (s.phase p).Active → (s.used p).card ≤ M
  pending : ∀ p b, s.phase p = .logging b → (insert b (s.used p)).card ≤ M
  space : ∀ ops : Finset P, (∀ p, p ∈ ops ↔ (s.phase p).Active) →
    s.log.lh.length + ∑ p ∈ ops, (M - (s.used p).card) + 2 * (MAXOPBLOCKS - M) ≤ LOGSIZE

variable {M : ℕ} {p : P}

/-- A step that leaves the log, the budgets and the active processes alone. -/
theorem Reserved.move (h : s.Reserved M) (hact : ph.Active ↔ (s.phase p).Active)
    (hpend : ∀ b, ph = .logging b → (insert b (s.used p)).card ≤ M) : (s.goto p ph).Reserved M := by
  have hactive : ∀ q, ((s.goto p ph).phase q).Active ↔ (s.phase q).Active := by
    intro q
    rw [goto_phase]
    split
    · rename_i hq
      rw [hact, hq]
    · rfl
  refine ⟨fun q hq => h.used_subset q ((hactive q).mp hq),
    fun q hq => h.budget q ((hactive q).mp hq), fun q b hq => ?_,
    fun ops hops => h.space ops fun q => (hops q).trans (hactive q)⟩
  rw [goto_phase] at hq
  split at hq
  · rename_i hqp
    exact hqp ▸ hpend b hq
  · exact h.pending q b hq

/-- `begin_op` admits only what the reservation has room for. -/
theorem Reserved.enter (h : s.Reserved M) (hM : M ≤ MAXOPBLOCKS) (hinv : s.Inv)
    (hp : ¬ (s.phase p).Active) (hlog : s.log.beginOp = some log) :
    Reserved M { s.goto p .inOp with log, used := update s.used p ∅ } := by
  obtain ⟨hc, hroom, rfl⟩ := Log.beginOp_eq_some hlog
  obtain ⟨ops, hops, hcard⟩ := hinv.outstanding
  have hold : ∀ q, q ≠ p → ((s.goto p .inOp).phase q).Active → (s.phase q).Active := by
    intro q hq
    rw [goto_phase, if_neg hq]
    exact id
  refine ⟨fun q hq => ?_, fun q hq => ?_, fun q b hq => ?_, fun ops' hops' => ?_⟩
  · by_cases hqp : q = p
    · simp [hqp]
    · simpa [hqp] using h.used_subset q (hold q hqp hq)
  · by_cases hqp : q = p
    · simp [hqp]
    · simpa [hqp] using h.budget q (hold q hqp hq)
  · simp only [goto_phase] at hq
    split at hq
    · simp at hq
    · rename_i hqp
      simpa [hqp] using h.pending q b hq
  · have hnot : p ∉ ops := fun hmem => hp ((hops p).mp hmem)
    have hinOp : LogPhase.inOp.Active := trivial
    obtain rfl : ops' = insert p ops :=
      Finset.ext fun q => (hops' q).trans (mem_insert_active hops hinOp q).symm
    have hsame : ∑ q ∈ ops, (M - (update s.used p ∅ q).card) =
        ∑ q ∈ ops, (M - (s.used q).card) := by
      refine Finset.sum_congr rfl fun q hq => ?_
      have hqp : q ≠ p := fun hqp => hnot (hqp ▸ hq)
      rw [update_of_ne hqp]
    have hsum : ∑ q ∈ ops, (M - (s.used q).card) ≤ ops.card * M := by
      have := Finset.sum_le_card_nsmul ops (fun q => M - (s.used q).card) M
        fun _ _ => Nat.sub_le _ _
      simpa using this
    simp only [Finset.sum_insert hnot, update_self, Finset.card_empty, hsame]
    simp only [Log.Exhausted, hcard, not_lt, gt_iff_lt] at hroom
    rcases Nat.eq_zero_or_pos ops.card with h0 | hpos
    · -- nobody is active: the header is empty
      have hlh := hinv.empty (by simp [hcard, h0]) hc
      simp only [hlh, List.length_nil, LOGSIZE, MAXOPBLOCKS] at hM ⊢
      simp only [h0, zero_mul, nonpos_iff_eq_zero] at hsum
      omega
    · have hroom' : s.log.lh.length + (ops.card + 1) * MAXOPBLOCKS ≤ LOGSIZE := by exact_mod_cast hroom
      have hslack : (ops.card + 1) * M + 2 * (MAXOPBLOCKS - M) ≤ (ops.card + 1) * MAXOPBLOCKS := by
        obtain ⟨d, hd⟩ := Nat.exists_eq_add_of_le hM
        have : 2 * d ≤ (ops.card + 1) * d := Nat.mul_le_mul_right d (by omega)
        rw [hd, Nat.mul_add]
        omega
      have hexpand : (ops.card + 1) * M = ops.card * M + M := Nat.succ_mul _ _
      omega

/-- A block new to the header is new to its operation, so the header grows by what the operation's
remaining budget shrinks. -/
theorem Reserved.append (h : s.Reserved M) {b : ℕ} (hp : s.phase p = .logging b)
    (hlog : s.log.logWrite b = some log) : Reserved M { s.goto p .inOp with
      log, logged := s.logged ++ [b], used := update s.used p (insert b (s.used p)) } := by
  obtain ⟨rfl, -⟩ := Log.logWrite_eq_some hlog
  have hpact : (s.phase p).Active := by rw [hp]; trivial
  have hactive : ∀ q, ((s.goto p .inOp).phase q).Active ↔ (s.phase q).Active := by
    intro q
    rw [goto_phase]
    split
    · rename_i hq
      simp [hq, hp, LogPhase.Active]
    · rfl
  refine ⟨fun q hq a ha => ?_, fun q hq => ?_, fun q c hq => ?_, fun ops hops => ?_⟩
  · rw [Log.mem_absorb]
    by_cases hqp : q = p
    · simp only [hqp, update_self, Finset.mem_insert] at ha
      exact ha.symm.imp_left (h.used_subset p hpact a)
    · simp only [update_of_ne hqp] at ha
      exact .inl (h.used_subset q ((hactive q).mp hq) a ha)
  · by_cases hqp : q = p
    · simpa [hqp] using h.pending p b hp
    · simpa [hqp] using h.budget q ((hactive q).mp hq)
  · simp only [goto_phase] at hq
    split at hq
    · simp at hq
    · rename_i hqp
      simpa [hqp] using h.pending q c hq
  · have hspace := h.space ops fun q => (hops q).trans (hactive q)
    have hmem : p ∈ ops := (hops p).mpr ((hactive p).mpr hpact)
    have hrest : ∑ q ∈ ops.erase p, (M - (update s.used p (insert b (s.used p)) q).card) =
        ∑ q ∈ ops.erase p, (M - (s.used q).card) := by
      refine Finset.sum_congr rfl fun q hq => ?_
      rw [update_of_ne (Finset.ne_of_mem_erase hq)]
    rw [← Finset.add_sum_erase ops _ hmem] at hspace ⊢
    simp only [update_self, hrest]
    have hpend := h.pending p b hp
    by_cases hb : b ∈ s.log.lh
    · have : (s.used p).card ≤ (insert b (s.used p)).card :=
        Finset.card_le_card (Finset.subset_insert _ _)
      rw [Log.absorb_eq, if_pos hb]
      omega
    · have hbu : b ∉ s.used p := fun hmem' => hb (h.used_subset p hpact b hmem')
      rw [Finset.card_insert_of_notMem hbu] at hpend ⊢
      rw [Log.absorb_eq, if_neg hb, List.length_append, List.length_singleton]
      omega

omit [DecidableEq P] in
/-- A step that starts no operation and adds nothing to the header keeps the reservation. -/
theorem Reserved.shrink (h : s.Reserved M) (hinv : s.Inv) (hact : ∀ q, (s'.phase q).Active → (s.phase q).Active)
    (hlog : ∀ q b, s'.phase q = .logging b → s.phase q = .logging b) (hused : s'.used = s.used)
    (hlh : s'.log.lh = s.log.lh ∨ s'.log.lh = [] ∧ ∀ q, ¬ (s'.phase q).Active) : s'.Reserved M := by
  obtain ⟨ops, hops, -⟩ := hinv.outstanding
  refine ⟨fun q hq b hb => ?_, fun q hq => ?_, fun q b hq => ?_, fun ops' hops' => ?_⟩
  · rcases hlh with hlh | ⟨-, hnone⟩
    · exact hlh ▸ h.used_subset q (hact q hq) b (hused ▸ hb)
    · exact absurd hq (hnone q)
  · exact hused ▸ h.budget q (hact q hq)
  · exact hused ▸ h.pending q b (hlog q b hq)
  · have hsub : ops' ⊆ ops := fun q hq => (hops q).mpr (hact q ((hops' q).mp hq))
    have hsum := Finset.sum_le_sum_of_subset (f := fun q => M - (s.used q).card) hsub
    have hspace := h.space ops hops
    have hlen : s'.log.lh.length ≤ s.log.lh.length := by
      rcases hlh with hlh | ⟨hlh, -⟩ <;> simp [hlh]
    rw [hused]
    omega

/-- The phases after `p` has left its operation. -/
theorem goto_active (hph : ¬ ph.Active) (q : P) (hq : ((s.goto p ph).phase q).Active) : (s.phase q).Active := by
  rw [goto_phase] at hq
  split at hq
  · exact absurd hq hph
  · exact hq

theorem goto_logging (hph : ¬ ph.Active) (q : P) (b : ℕ)
    (hq : (s.goto p ph).phase q = .logging b) : s.phase q = .logging b := by
  rw [goto_phase] at hq
  split at hq
  · exact absurd (hq ▸ trivial) hph
  · exact hq

/-- A step within the budget keeps the reservation. -/
theorem Reserved.step (h : s.Reserved M) (hM : M ≤ MAXOPBLOCKS) (hinv : s.Inv)
    (hok : withinBudget M s e = true) (hstep : Step s e s') : s'.Reserved M := by
  have hidle : ¬ LogPhase.idle.Active := id
  cases hstep with
  | sleep hp _ =>
    exact h.move (by rcases hp with hp | hp <;> simp [hp, LogPhase.Active]) (by simp)
  | enter hp hlog =>
    exact h.enter hM hinv (by rcases hp with hp | hp <;> simp [hp, LogPhase.Active]) hlog
  | refuse => exact ⟨h.used_subset, h.budget, h.pending, h.space⟩
  | check hp _ =>
    refine h.move (by simp [hp, LogPhase.Active]) fun c hc => ?_
    cases hc
    simpa [withinBudget] using hok
  | append hp hlog => exact h.append hp hlog
  | endPanic => exact ⟨h.used_subset, h.budget, h.pending, h.space⟩
  | lastEnd _ hlog =>
    obtain ⟨-, -, rfl⟩ := Log.endOp_eq_true hlog
    exact h.shrink hinv (goto_active id) (goto_logging id) rfl (.inl rfl)
  | someEnd _ hlog =>
    obtain ⟨-, -, rfl⟩ := Log.endOp_eq_false hlog
    exact h.shrink hinv (by simpa [wakeup] using goto_active hidle)
      (by simpa [wakeup] using goto_logging hidle) rfl (.inl rfl)
  | @commit p hp =>
    have hc : s.log.committing = true := hinv.committing_iff.mpr ⟨p, by rw [hp]; trivial⟩
    refine h.shrink hinv (goto_active id) (goto_logging id) rfl (.inr ⟨by simp [Log.commit_eq], ?_⟩)
    intro q hq
    simp [hinv.not_committing (goto_active id q hq)] at hc
  | finish hp =>
    exact h.shrink hinv (by simpa [wakeup] using goto_active hidle)
      (by simpa [wakeup] using goto_logging hidle) rfl (.inl rfl)

/-- Operations within a budget of `M` blocks each stay within the reservation. -/
theorem reserved_of_run (hM : M ≤ MAXOPBLOCKS)
    (h : (lts P size).Run (fun s e => withinBudget M s e = true) s) : s.Reserved M := by
  refine (h.invariant (I := fun s => s.Inv ∧ s.Reserved M) ?_ ?_).2
  · rintro _ rfl
    refine ⟨boot_inv size, by simp [boot, LogPhase.Active], by simp [boot, LogPhase.Active],
      by simp [boot], fun ops hops => ?_⟩
    obtain rfl : ops = ∅ := Finset.eq_empty_of_forall_notMem fun q hq => (hops q).mp hq
    simp only [boot, List.length_nil, Finset.sum_empty, LOGSIZE, MAXOPBLOCKS]
    omega
  · rintro s e s' ⟨hinv, hres⟩ hok hnext
    have hstep := (step_of_next hnext).2
    exact ⟨hinv.step hstep, hres.step hM hinv hok hstep⟩

/-- An operation that keeps one block below its budget leaves room for the next `log_write`. -/
theorem roomLeft_of_budget (h : (lts P size).Run (fun s e => withinBudget (MAXOPBLOCKS - 1) s e = true) s)
    (e : LogEvent P) : roomLeft s e = true := by
  have hinv := inv_of_run h
  obtain ⟨ops, hops, -⟩ := hinv.outstanding
  have hspace := (reserved_of_run (by decide) h).space ops hops
  rw [hinv.lh_length] at hspace
  cases e with
  | logWrite =>
    refine decide_eq_true ?_
    simp only [LOGSIZE, MAXOPBLOCKS] at hspace ⊢
    omega
  | _ => rfl

/-! ## Log space -/

/-- **Log space.** Over the log `mkfs` lays out, with operations of at most `MAXOPBLOCKS` distinct
blocks: a `log_write` panics for lack of space exactly when it is called with `LOGSIZE - 1` distinct
blocks in the log, absorbed or not, so a run whose calls all find fewer never panics; and every
interleaving is such a run when the operations keep to `MAXOPBLOCKS - 1` blocks each. -/
theorem log_space (P : Type) [DecidableEq P] : (∀ s : LogSys P, (lts P nlog).Run
        (fun s e => withinBudget MAXOPBLOCKS s e = true ∧ roomLeft s e = true) s →
      s.panicked ≠ some .logTooBig) ∧
    (∀ s : LogSys P, (lts P nlog).Run (fun s e => withinBudget MAXOPBLOCKS s e = true) s →
      ∀ e s', next s e = some s' → (s'.panicked = some .logTooBig ↔ ¬ roomLeft s e = true)) ∧
    (∀ s : LogSys P, (lts P nlog).Run
        (fun s e => withinBudget (MAXOPBLOCKS - 1) s e = true) s →
      s.panicked ≠ some .logTooBig ∧ ∀ e, roomLeft s e = true) := by
  have hsafe : ∀ (ok : LogSys P → LogEvent P → Prop) (s : LogSys P), (lts P nlog).Run ok s →
      (∀ s, (lts P nlog).Run ok s → ∀ e, ok s e → roomLeft s e = true) →
      s.panicked ≠ some .logTooBig := by
    intro ok s h hroom
    induction h with
    | init hs => simp [show _ = boot P nlog from hs, boot]
    | step hrun hok hnext _ =>
      rw [ne_eq, tooBig_iff hrun hnext, hroom _ hrun _ hok]
      simp
  refine ⟨fun s h => hsafe _ s h fun _ _ _ hok => hok.2, fun s h e s' hnext => ?_, fun s h => ?_⟩
  · rw [tooBig_iff h hnext, Bool.not_eq_true]
  · exact ⟨hsafe _ s h fun _ hr e _ => roomLeft_of_budget hr e, roomLeft_of_budget h⟩

/-- The calls of operation `p` logging `n` blocks from block `b` on. -/
def logBlocks (p : P) (b n : ℕ) : List (LogEvent P) :=
  (List.range n).flatMap fun i => [.logWrite p (b + i), .logAppend p]

/-- Three operations, each within its budget: the last block of the third one panics. -/
theorem log_space_exhausted : ¬ ∀ s : LogSys (Fin 3), (lts (Fin 3) nlog).Run
        (fun s e => withinBudget MAXOPBLOCKS s e = true) s → s.panicked ≠ some .logTooBig := by
  intro hclaim
  obtain ⟨s, hs, hp⟩ := Lts.Run.exists_of_exec (lts (Fin 3) nlog) (withinBudget MAXOPBLOCKS)
    (boot (Fin 3) nlog)
    ([.beginOp 0, .beginOp 1, .beginOp 2] ++ logBlocks 0 100 10 ++ logBlocks 1 110 10 ++
      logBlocks 2 120 9 ++ [.logWrite 2 129])
    (fun s => decide (s.panicked = some .logTooBig)) rfl (by decide +kernel)
  exact hclaim s hs (by simpa using hp)

/-- Two operations that share a block, well below the limit. -/
theorem log_space_shared_block : ∃ s : LogSys (Fin 2), (lts (Fin 2) nlog).Run
      (fun s e => withinBudget (MAXOPBLOCKS - 1) s e = true) s ∧ s.log.lh = [100, 101, 102] ∧
    s.panicked ≠ some .logTooBig ∧ ∀ e, roomLeft s e = true := by
  obtain ⟨s, hs, hp⟩ := Lts.Run.exists_of_exec (lts (Fin 2) nlog) (withinBudget (MAXOPBLOCKS - 1))
    (boot (Fin 2) nlog)
    ([.beginOp 0, .beginOp 1] ++ logBlocks 0 100 2 ++ logBlocks 1 101 2)
    (fun s => decide (s.log.lh = [100, 101, 102])) rfl (by decide +kernel)
  exact ⟨s, hs, by simpa using hp, (log_space (Fin 2)).2.2 s hs⟩

end Xv6.LogSys
