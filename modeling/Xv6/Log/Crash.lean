import Xv6.Log.Redo

/-!
# Crash atomicity of the redo log

A crash keeps the disk as some prefix of the writes has left it. `logView` is what `recover_from_log`
makes of a home block of such a disk, and `Recoverable` says that this is the wanted contents. The proof
follows the code write by write: a write to a log block changes no home block (`Recoverable.logBlock`),
the header write with `n > 0` switches the wanted contents at once (`Recoverable.commit`), installing a
block changes nothing that recovery would not change again (`Recoverable.install`), and the last header
write finds everything installed (`Recoverable.clear`). The B_DIRTY pins keep uncommitted blocks in the
cache; this is the clause `dirty` of `InTx`.
-/

namespace Xv6

open Function Code List

/-- The disk after a number of block writes. -/
def replay (d : ℕ → Block) (ws : List (ℕ × Block)) : ℕ → Block :=
  ws.foldl (fun d w => Function.update d w.1 w.2) d

theorem replay_append (d : ℕ → Block) (ws : List (ℕ × Block)) (w : ℕ × Block) :
    replay d (ws ++ [w]) = Function.update (replay d ws) w.1 w.2 := by
  simp [replay]

theorem replay_append_list (d : ℕ → Block) (ws vs : List (ℕ × Block)) :
    replay d (ws ++ vs) = replay (replay d ws) vs := by
  simp [replay]

namespace LogFs

open Storage

/-! ## What a disk stands for -/

/-- A home block: one outside of the log. A block number is a `uint`. -/
def Home (start size b : ℕ) : Prop := (b < start ∨ start + size ≤ b) ∧ b < 2 ^ 32

instance (start size b : ℕ) : Decidable (Home start size b) := by
  unfold Home; infer_instance

/-- The number of commits among some disk writes: headers with `n > 0`. -/
def commits (start : ℕ) (ws : List (ℕ × Block)) : ℕ :=
  ws.countP fun w => w.1 = start ∧ 0 < headerN w.2

/-- The contents of a home block after the entries `lh` of the log are installed. -/
def logView (start : ℕ) (lh : List ℕ) (d : ℕ → Block) (b : ℕ) : Block :=
  if b ∈ lh then d (start + lh.idxOf b + 1) else d b

/-- Recovery from disk `d` gives the home blocks the contents `v`. -/
structure Recoverable (start size : ℕ) (d v : ℕ → Block) : Prop where
  nodup : (header (d start)).Nodup
  length : (header (d start)).length < size
  home : ∀ b ∈ header (d start), Home start size b
  view : ∀ b, Home start size b → logView start (header (d start)) d b = v b

variable {start size : ℕ} {d v : ℕ → Block} {b : ℕ}

theorem Home.ne_start (h : Home start size b) (hsize : 0 < size) : b ≠ start := by
  unfold Home at h
  omega

variable {i : ℕ} {lh : List ℕ} {x : Block}

theorem Home.ne_log (h : Home start size b) (hi : i + 1 < size) : b ≠ start + i + 1 := by
  unfold Home at h
  omega

/-- With an empty header the home blocks are in place. -/
theorem Recoverable.disk_eq (h : Recoverable start size d v) (hn : headerN (d start) = 0)
    (hb : Home start size b) : d b = v b := by
  have := h.view b hb
  rw [header_eq_nil hn] at this
  simpa [logView] using this

theorem recoverable_of_empty (hsize : 0 < size) (hn : headerN (d start) = 0)
    (hv : ∀ b, Home start size b → d b = v b) : Recoverable start size d v := by
  constructor <;> rw [header_eq_nil hn]
  · exact nodup_nil
  · exact hsize
  · simp
  · simpa [logView] using hv

/-- Writing a log block before the commit. -/
theorem Recoverable.logBlock (h : Recoverable start size d v) (hn : headerN (d start) = 0)
    (hi : i + 1 < size) (x : Block) : Recoverable start size (Function.update d (start + i + 1) x) v := by
  refine recoverable_of_empty (by omega) ?_ fun b hb => ?_
  · rwa [update_of_ne (by omega)]
  · rw [update_of_ne (hb.ne_log hi)]
    exact h.disk_eq hn hb

/-- Writing the header with the entries `lh`, whose blocks are in the log. -/
theorem Recoverable.commit (hx : header x = lh) (hnodup : lh.Nodup)
    (hlen : lh.length < size) (hhome : ∀ b ∈ lh, Home start size b)
    (hlog : ∀ i (hi : i < lh.length), d (start + i + 1) = v lh[i])
    (hrest : ∀ b, Home start size b → b ∉ lh → d b = v b) : Recoverable start size (Function.update d start x) v := by
  constructor <;> rw [update_self, hx]
  · exact hnodup
  · exact hlen
  · exact hhome
  · intro b hb
    unfold logView
    split
    · rename_i hmem
      have hlt := idxOf_lt_length_of_mem hmem
      rw [update_of_ne (by omega), hlog _ hlt, getElem_idxOf]
    · rename_i hmem
      rw [update_of_ne (hb.ne_start (by omega))]
      exact hrest b hb hmem

/-- Installing one entry of the log. -/
theorem Recoverable.install (h : Recoverable start size d v) (hi : i < (header (d start)).length) :
    Recoverable start size
      (Function.update d (header (d start))[i] (d (start + i + 1))) v := by
  have hsize := h.length
  have hbi := h.home _ (getElem_mem hi)
  have hhead : Function.update d (header (d start))[i] (d (start + i + 1)) start = d start :=
    update_of_ne (hbi.ne_start (by omega)).symm _ _
  constructor <;> rw [hhead]
  · exact h.nodup
  · exact h.length
  · exact h.home
  · intro b hb
    rw [← h.view b hb]
    unfold logView
    split
    · -- the log blocks keep their contents
      rename_i hmem
      have hlt := idxOf_lt_length_of_mem hmem
      exact update_of_ne (hbi.ne_log (by omega)).symm _ _
    · rename_i hmem
      refine update_of_ne ?_ _ _
      rintro rfl
      exact hmem (getElem_mem hi)

/-- Clearing the header after everything is installed. -/
theorem Recoverable.clear (h : Recoverable start size d v) (hx : headerN x = 0)
    (hdone : ∀ i (hi : i < (header (d start)).length), d (header (d start))[i] = d (start + i + 1)) :
    Recoverable start size (Function.update d start x) v := by
  have hsize := h.length
  refine recoverable_of_empty (by omega) ?_ fun b hb => ?_
  · rwa [update_self]
  · rw [update_of_ne (hb.ne_start (by omega)), ← h.view b hb]
    unfold logView
    split
    · rename_i hmem
      have := hdone _ (idxOf_lt_length_of_mem hmem)
      rwa [getElem_idxOf] at this
    · rfl

/-! ## Runs that can crash after every write -/

/-- After every prefix of the writes `ws` the disk stands for the contents of the last commit. -/
def Atomic (start size : ℕ) (d0 : ℕ → Block) (v : ℕ → ℕ → Block) (ws : List (ℕ × Block)) : Prop :=
  ∀ k, Recoverable start size (replay d0 (ws.take k)) (v (commits start (ws.take k)))

/-- The state between two disk writes. `v c` are the contents of the home blocks after `c` commits. -/
structure Sound (start size : ℕ) (d0 : ℕ → Block) (v : ℕ → ℕ → Block) (s : LogFs) : Prop where
  coh : s.toStorage.Coh
  idle : s.toStorage.Idle
  start_eq : s.start = start
  size_eq : s.log.size = size
  disk_eq : s.disk = replay d0 s.writes
  atomic : Atomic start size d0 v s.writes

variable {d0 : ℕ → Block} {v : ℕ → ℕ → Block} {s : LogFs}

theorem Sound.recoverable (h : Sound start size d0 v s) :
    Recoverable start size s.disk (v (commits start s.writes)) := by
  have := h.atomic s.writes.length
  rwa [take_length, ← h.disk_eq] at this

variable {w : ℕ × Block}

/-- One disk write. -/
theorem Sound.write (h : Sound start size d0 v s) {st : Storage} (hcoh : st.Coh)
    (hidle : st.Idle) (hdisk : st.disk = Function.update s.disk w.1 w.2) (hwrites : st.writes = s.writes ++ [w])
    (hrec : Recoverable start size st.disk (v (commits start st.writes))) :
    Sound start size d0 v { s with toStorage := st } where
  coh := hcoh
  idle := hidle
  start_eq := h.start_eq
  size_eq := h.size_eq
  disk_eq := by
    show st.disk = replay d0 st.writes
    rw [hwrites, replay_append, hdisk, h.disk_eq]
  atomic := by
    show Atomic start size d0 v st.writes
    have hreplay : replay d0 st.writes = st.disk := by
      rw [hwrites, replay_append, hdisk, h.disk_eq]
    intro k
    by_cases hk : k ≤ s.writes.length
    · rw [hwrites, take_append_of_le_length hk]
      exact h.atomic k
    · rw [take_of_length_le (by rw [hwrites, length_append, length_singleton]; omega),
        hreplay]
      exact hrec

theorem commits_append_ne {ws : List (ℕ × Block)} (h : w.1 ≠ start) : commits start (ws ++ [w]) = commits start ws := by
  simp [commits, h]

theorem commits_append_clear {ws : List (ℕ × Block)} (h : headerN w.2 = 0) :
    commits start (ws ++ [w]) = commits start ws := by
  simp [commits, h]

theorem commits_append_commit {ws : List (ℕ × Block)} (h : 0 < headerN x) :
    commits start (ws ++ [(start, x)]) = commits start ws + 1 := by
  simp [commits, h]

/-! ## The phases of `commit` and `recover_from_log` -/

variable {Q : Unit → LogFs → Prop} {E : Halt → LogFs → Prop}

/-- `install_trans` on a disk whose header is the in-memory one. The blocks are pinned in `commit`, and
not cached at all in `recover_from_log`. -/
theorem wp_installTrans (h : Sound start size d0 v s) (hlh : s.log.lh = lh)
    (hhead : header (s.disk start) = lh) {pinned : Prop} (hdirty : ∀ j, s.toStorage.Dirty j ↔ pinned ∧ j ∈ lh)
    (hQ : ∀ s', Sound start size d0 v s' → s'.log = s.log →
      commits start s'.writes = commits start s.writes → (∀ j, ¬ s'.toStorage.Dirty j) →
      header (s'.disk start) = lh →
      (∀ i (hi : i < lh.length), s'.disk lh[i] = s'.disk (start + i + 1)) → Q () s')
    (hE : ∀ e s', Atomic start size d0 v s'.writes → ¬ (pinned → lh.length < NBUF) → E e s') :
    Wp installTrans Q E s := by
  have hrec0 := h.recoverable
  have hnodup : lh.Nodup := hhead ▸ hrec0.nodup
  have hlen : lh.length < size := hhead ▸ hrec0.length
  have hhome : ∀ b ∈ lh, Home start size b := hhead ▸ hrec0.home
  unfold installTrans
  rw [wp_bind, wp_get, hlh, h.start_eq]
  -- the first `i` blocks are in place, and those from `i` on are still pinned
  refine wp_mono (wp_forM_zipIdx (fun i s' => Sound start size d0 v s' ∧ s'.log = s.log ∧
      commits start s'.writes = commits start s.writes ∧ header (s'.disk start) = lh ∧
      (∀ j, s'.toStorage.Dirty j ↔ pinned ∧ ∃ n, ∃ hn : n < lh.length, i ≤ n ∧ lh[n] = j) ∧
      ∀ n (hn : n < lh.length), n < i → s'.disk lh[n] = s'.disk (start + n + 1)) ?_ ?_) ?_
      (E := E) fun _ _ hE => hE
  · rintro i hi s1 ⟨h1, hlog, hcommits, hhead1, hdirty1, hdone⟩
    have hbi : Home start size lh[i] := hhome _ (getElem_mem hi)
    have hne : lh[i] ≠ start + i + 1 := hbi.ne_log (by omega)
    have hview : s1.toStorage.view (start + i + 1) = s1.disk (start + i + 1) := by
      refine h1.coh.view_eq_disk fun hd => ?_
      obtain ⟨-, n, hn, -, heq⟩ := (hdirty1 _).mp hd
      exact (hhome _ (getElem_mem hn)).ne_log (by omega) heq
    unfold bio
    rw [wp_zoom]
    refine wp_copyBlock h1.coh h1.idle hne.symm (.inl ⟨rfl, rfl⟩) ?_ ?_
    · intro st hcoh hidle hdisk hwrites _ hdirty'
      rw [hview] at hdisk hwrites
      have hcommits' : commits start st.writes = commits start s1.writes := by
        rw [hwrites]
        exact commits_append_ne (hbi.ne_start (by omega))
      have hstart : st.disk start = s1.disk start := by
        rw [hdisk, update_of_ne (hbi.ne_start (by omega)).symm]
      refine ⟨h1.write hcoh hidle hdisk hwrites ?_, hlog, hcommits'.trans hcommits,
        (congrArg header hstart).trans hhead1, fun j => ?_, fun n hn hni => ?_⟩
      · have hinst := h1.recoverable.install (i := i) (by rwa [hhead1])
        rw [hcommits', hdisk]
        simpa only [hhead1] using hinst
      · show st.Dirty j ↔ _
        rw [hdirty', hdirty1]
        constructor
        · rintro ⟨⟨hp, n, hn, hin, rfl⟩, hji⟩
          have : n ≠ i := fun hni => hji (by subst hni; rfl)
          exact ⟨hp, n, hn, by omega, rfl⟩
        · rintro ⟨hp, n, hn, hin, rfl⟩
          refine ⟨⟨hp, n, hn, by omega, rfl⟩, fun heq => ?_⟩
          have : n = i := (List.Nodup.getElem_inj_iff hnodup).mp heq
          omega
      · show st.disk lh[n] = st.disk (start + n + 1)
        rw [hdisk, update_of_ne (hbi.ne_log (by omega)).symm]
        by_cases hni' : n = i
        · subst hni'
          rw [update_self]
        · rw [update_of_ne, hdone n hn (by omega)]
          exact fun heq => hni' ((List.Nodup.getElem_inj_iff hnodup).mp heq)
    · intro e st _ hwrites hroom
      refine hE e _ (by show Atomic _ _ _ _ st.writes; exact hwrites ▸ h1.atomic) fun hfit => hroom ?_
      by_cases hp : pinned
      · refine ⟨lh, fun j hj => ?_, hfit hp, .inl ((hdirty1 _).mpr ⟨hp, i, hi, Nat.le_refl i, rfl⟩)⟩
        obtain ⟨-, n, hn, -, rfl⟩ := (hdirty1 j).mp hj
        exact getElem_mem hn
      · exact ⟨[], fun j hj => absurd ((hdirty1 j).mp hj).1 hp, by decide, .inr (by decide)⟩
  · refine ⟨h, rfl, rfl, hhead, fun j => ?_, fun n _ hn => absurd hn (Nat.not_lt_zero n)⟩
    rw [hdirty, mem_iff_getElem]
    simp
  · rintro - s1 ⟨h1, hlog, hcommits, hhead1, hdirty1, hdone⟩
    refine hQ s1 h1 hlog hcommits (fun j hj => ?_) hhead1 fun i hi => hdone i hi hi
    obtain ⟨-, n, hn, hle, -⟩ := (hdirty1 j).mp hj
    omega

/-- The state between two transactions, after `c` commits. -/
structure Quiet (start size : ℕ) (d0 : ℕ → Block) (v : ℕ → ℕ → Block) (c : ℕ) (s : LogFs) : Prop
    extends Sound start size d0 v s where
  empty : s.log.lh = []
  clean : ∀ j, ¬ s.toStorage.Dirty j
  head : headerN (s.disk start) = 0
  commits_eq : commits start s.writes = c

/-- `install_trans(); log.lh.n = 0; write_head();`. -/
theorem wp_redo (lh : List ℕ) (pinned : Prop) (h : Sound start size d0 v s) (hlh : s.log.lh = lh)
    (hhead : header (s.disk start) = lh) (hdirty : ∀ j, s.toStorage.Dirty j ↔ pinned ∧ j ∈ lh)
    (hQ : ∀ s', Quiet start size d0 v (commits start s.writes) s' →
      s'.log = { s.log with lh := [] } → Q () s')
    (hE : ∀ e s', Atomic start size d0 v s'.writes → ¬ (pinned → lh.length < NBUF) → E e s') :
    Wp (do installTrans; clearHead; writeHead) Q E s := by
  rw [wp_bind]
  refine wp_installTrans h hlh hhead hdirty (fun s1 h1 hlog hcommits hclean hhead1 hdone => ?_) hE
  unfold clearHead writeHead bio
  rw [wp_bind, wp_modify, wp_bind, wp_get, wp_zoom]
  simp only [h1.start_eq]
  refine wp_rewriteBlock h1.coh h1.idle ?_ ?_
  · intro st hcoh hidle hdisk hwrites _ hdirty'
    have hn := headerN_move (s1.toStorage.view start) [] (Nat.zero_le _)
    have hcommits' : commits start st.writes = commits start s1.writes := by
      rw [hwrites]
      exact commits_append_clear hn
    have hrec : Recoverable start size st.disk (v (commits start st.writes)) := by
      rw [hcommits', hdisk]
      refine h1.recoverable.clear hn ?_
      simpa only [hhead1] using hdone
    have hsound := h1.write hcoh hidle hdisk hwrites hrec
    refine hQ _ ⟨⟨hsound.coh, hsound.idle, rfl, hsound.size_eq, hsound.disk_eq,
      hsound.atomic⟩, rfl, fun j hj => ?_, ?_, ?_⟩ (by rw [hlog])
    · exact hclean j ((hdirty' j).mp hj).1
    · show headerN (st.disk start) = 0
      rw [hdisk, update_self]
      exact hn
    · exact hcommits'.trans hcommits
  · intro e st _ _ hcrowded
    have := hcrowded [] fun j hj => absurd hj (hclean j)
    exact absurd this (by decide)

/-- `recover_from_log` completes on every recoverable disk. -/
theorem wp_recoverFromLog (h : Recoverable start size d0 (v 0))
    (hQ : ∀ s', Quiet start size d0 v 0 s' → s'.log = (boot d0 start size).log → Q () s') :
    Wp recoverFromLog Q E (boot d0 start size) := by
  have hlook : ∀ j, (boot d0 start size).toStorage.look j = none := by
    intro j
    refine look_eq_none.mpr fun b hb => ?_
    rw [eq_of_mem_replicate hb]
    nofun
  have hcoh : (boot d0 start size).toStorage.Coh := by
    refine ⟨?_, length_replicate, fun k b hb => ?_, fun k b hb => ?_, fun b hb _ => ?_⟩
    · refine pairwise_replicate.mpr (.inr ?_)
      nofun
    · simp [hlook] at hb
    · simp [hlook] at hb
    · rw [eq_of_mem_replicate hb]
      exact ⟨rfl, rfl⟩
  have hidle : (boot d0 start size).toStorage.Idle := fun j => by simp [ref, hlook]
  have hclean : ∀ j, ¬ (boot d0 start size).toStorage.Dirty j := fun j => by simp [Dirty, hlook]
  unfold recoverFromLog readHead bio
  simp only [wp_bind, wp_get, wp_zoom]
  refine wp_mono (wp_bread_view hcoh) ?_ ?_
  · rintro - st1 ⟨h1, hk, href1, -⟩
    refine wp_data hk ?_
    rw [wp_modify]
    refine wp_brelse_view h1.coh hk fun st2 h2 href2 _ => ?_
    have hdisk : st2.disk = d0 := h2.disk.trans h1.disk
    have hwrites : st2.writes = [] := h2.writes.trans h1.writes
    have hview : st1.view start = d0 start :=
      (h1.view start).trans (hcoh.view_eq_disk (hclean start))
    have hatomic : Atomic start size d0 v st2.writes := by
      rw [hwrites]
      intro k
      rw [take_nil]
      exact h
    simp only [← wp_bind]
    refine wp_redo (header (d0 start)) False ⟨h2.coh, fun j => ?_, rfl, rfl, ?_,
      hatomic⟩ (congrArg header hview) (congrArg header (congrFun hdisk start)) (fun j => ?_) ?_ ?_
    · show st2.ref j = 0
      simp only [href2, href1, hidle j]
      split <;> simp
    · show st2.disk = replay d0 st2.writes
      rw [hdisk, hwrites]
      rfl
    · show st2.Dirty j ↔ _
      rw [h2.dirty, h1.dirty]
      exact ⟨fun hd => absurd hd (hclean j), fun hp => absurd hp.1 id⟩
    · intro s' hs' hlog
      have hzero : commits start st2.writes = 0 := by
        rw [hwrites]
        rfl
      refine hQ s' (hzero ▸ hs') hlog
    · intro e s' _ hfit
      exact absurd (fun hp => absurd hp id) hfit
  · rintro e st ⟨-, hstuck⟩
    refine absurd hstuck (hcoh.not_stuck (hidle start) (.inr ⟨[], by decide, fun j hj => ?_⟩))
    rcases hj with hj | hj
    · rw [hidle] at hj
      omega
    · exact absurd hj (hclean j)

/-! ## A transaction -/

/-- The state in a transaction that has logged `ws` after `c` commits: the logged blocks, and no others,
are pinned in the cache. -/
structure InTx (start size : ℕ) (d0 : ℕ → Block) (v : ℕ → ℕ → Block) (c : ℕ) (ws : List (ℕ × Block))
    (s : LogFs) : Prop extends Sound start size d0 v s where
  head : headerN (s.disk start) = 0
  commits_eq : commits start s.writes = c
  nodup : s.log.lh.Nodup
  home : ∀ b ∈ s.log.lh, Home start size b
  length_lt : s.log.lh.length < size
  length_le : s.log.lh.length ≤ LOGSIZE
  length_ws : s.log.lh.length ≤ ws.length
  mem : ∀ w ∈ ws, w.1 ∈ s.log.lh
  dirty : ∀ j, s.toStorage.Dirty j ↔ j ∈ s.log.lh
  view : ∀ b, Home start size b → s.toStorage.view b = replay (v c) ws b

variable {c : ℕ} {ws : List (ℕ × Block)}

/-- `begin_op` of the only process. -/
theorem Quiet.inTx (h : Quiet start size d0 v c s) (hsize : 0 < size) {log : Log}
    (hlog : log.lh = s.log.lh ∧ log.size = s.log.size) : InTx start size d0 v c [] { s with log } := by
  have hlh : log.lh = [] := hlog.1.trans h.empty
  refine ⟨⟨h.coh, h.idle, h.start_eq, hlog.2.trans h.size_eq, h.disk_eq, h.atomic⟩, h.head,
    h.commits_eq, ?_, ?_, ?_, ?_, ?_, nofun, fun j => ?_, fun b hb => ?_⟩
  · simp [hlh]
  · simp [hlh]
  · simpa [hlh] using hsize
  · simp [hlh]
  · simp [hlh]
  · simpa [hlh] using h.clean j
  · have hrec := h.recoverable
    rw [h.commits_eq] at hrec
    exact (h.coh.view_eq_disk (h.clean b)).trans (hrec.disk_eq h.head hb)

/-- `bread`, new contents, `log_write` and `brelse` of one home block. -/
theorem wp_update (h : InTx start size d0 v c ws s) (hw : Home start size w.1) (hout : s.log.outstanding = 1)
    (hQ : ∀ s', InTx start size d0 v c (ws ++ [w]) s' → s'.log.outstanding = s.log.outstanding →
      s'.log.committing = s.log.committing → Q () s')
    (hE : ∀ e s', Atomic start size d0 v s'.writes →
      ¬ (ws.length + 1 < size ∧ size ≤ NBUF) → E e s') :
    Wp (update w) Q E s := by
  have hlh := h.length_ws
  unfold update bio
  rw [wp_bind, wp_zoom]
  refine wp_mono (wp_bread_view h.coh) ?_ ?_
  · rintro - st ⟨h1, hk, href1, -⟩
    have hatomic : Atomic start size d0 v st.writes := h1.writes ▸ h.atomic
    rw [wp_bind, wp_zoom]
    unfold setData
    rw [wp_modify]
    unfold logWrite
    rw [wp_bind, wp_bind, wp_get]
    simp only [Log.logWriteCheck, h.size_eq]
    split
    · rename_i p hp
      rw [wp_throw]
      refine hE _ _ hatomic fun hfit => ?_
      simp only [NBUF, LOGSIZE, MAXOPBLOCKS, hout] at hp hfit
      rw [if_neg (by omega), if_neg (by omega)] at hp
      cases hp
    · rename_i hp
      have hroom : s.log.lh.length < LOGSIZE ∧ s.log.lh.length + 1 < size := by
        by_contra hno
        rw [if_pos (by omega)] at hp
        cases hp
      unfold bio setDirty
      rw [wp_bind, wp_modify, wp_zoom, wp_modify]
      obtain ⟨hcoh, hdisk, hwrites, hview, hdirty, href, hk'⟩ := staged h1.coh hk w.2 rfl
      rw [wp_zoom]
      refine wp_brelse_view hcoh hk' fun st' h2 href2 _ => ?_
      have hdisk' : st'.disk = s.disk := h2.disk.trans (hdisk.trans h1.disk)
      have hwrites' : st'.writes = s.writes := h2.writes.trans (hwrites.trans h1.writes)
      have hlen : (Log.absorb w.1 s.log.lh).length ≤ s.log.lh.length + 1 := by
        rw [Log.absorb_eq]
        split <;> simp
      refine hQ _ ⟨⟨h2.coh, fun j => ?_, h.start_eq, h.size_eq, ?_, ?_⟩, ?_, ?_,
        Log.nodup_absorb h.nodup, fun b hb => ?_, ?_, ?_, ?_, fun u hu => ?_, fun j => ?_,
        fun b hb => ?_⟩ rfl rfl
      · show st'.ref j = 0
        simp only [href2, href, href1, h.idle j]
        split <;> simp
      · show st'.disk = replay d0 st'.writes
        rw [hdisk', hwrites', h.disk_eq]
      · show Atomic start size d0 v st'.writes
        exact hwrites' ▸ h.atomic
      · show headerN (st'.disk start) = 0
        rw [hdisk', h.head]
      · show commits start st'.writes = c
        rw [hwrites', h.commits_eq]
      · rcases Log.mem_absorb.mp hb with hb | rfl
        · exact h.home b hb
        · exact hw
      · exact Nat.lt_of_le_of_lt hlen hroom.2
      · exact Nat.le_trans hlen hroom.1
      · rw [length_append, length_singleton]
        exact Nat.le_trans hlen (by omega)
      · rcases mem_append.mp hu with hu | hu
        · exact Log.mem_absorb.mpr (.inl (h.mem u hu))
        · exact Log.mem_absorb.mpr (.inr (by rw [mem_singleton.mp hu]))
      · show st'.Dirty j ↔ _
        rw [h2.dirty, hdirty, h1.dirty, h.dirty]
        exact Log.mem_absorb.symm
      · show st'.view b = _
        rw [h2.view, hview, h1.view, h.view b hb, replay_append, update_apply]
  · rintro e st ⟨rfl, hstuck⟩
    refine hE e _ h.atomic fun hfit => ?_
    refine h.coh.not_stuck (h.idle _) (.inr ⟨s.log.lh, by omega, fun j hj => ?_⟩) hstuck
    rcases hj with hj | hj
    · rw [h.idle] at hj
      omega
    · exact (h.dirty j).mp hj

/-- `write_log` copies the contents of the logged blocks to the log. -/
theorem wp_writeLog (h : InTx start size d0 v c ws s) (hQ : ∀ s', InTx start size d0 v c ws s' → s'.log = s.log →
      (∀ i (hi : i < s.log.lh.length),
        s'.disk (start + i + 1) = replay (v c) ws s.log.lh[i]) → Q () s')
    (hE : ∀ e s', Atomic start size d0 v s'.writes → ¬ s.log.lh.length < NBUF → E e s') :
    Wp writeLog Q E s := by
  have hlen := h.length_lt
  unfold writeLog
  rw [wp_bind, wp_get, h.start_eq]
  refine wp_mono (wp_forM_zipIdx (fun i s' => InTx start size d0 v c ws s' ∧ s'.log = s.log ∧
      ∀ n (hn : n < s.log.lh.length), n < i →
        s'.disk (start + n + 1) = replay (v c) ws s.log.lh[n]) ?_ ?_) ?_
      (E := E) fun _ _ hE => hE
  · rintro i hi s1 ⟨h1, hlog, hdone⟩
    have hmem : s.log.lh[i] ∈ s.log.lh := getElem_mem hi
    have hbi : Home start size s.log.lh[i] := h.home _ hmem
    have hne : s.log.lh[i] ≠ start + i + 1 := hbi.ne_log (by omega)
    have hview : s1.toStorage.view s.log.lh[i] = replay (v c) ws s.log.lh[i] := h1.view _ hbi
    unfold bio
    rw [wp_zoom]
    refine wp_copyBlock h1.coh h1.idle hne.symm (.inr ⟨rfl, rfl⟩) ?_ ?_
    · intro st hcoh hidle hdisk hwrites hview' hdirty'
      have hcommits : commits start st.writes = commits start s1.writes := by
        rw [hwrites]
        exact commits_append_ne (by simp only; omega)
      have hsound := h1.write hcoh hidle hdisk hwrites (by
        rw [hcommits, hdisk]
        exact h1.recoverable.logBlock h1.head (by omega) _)
      refine ⟨⟨hsound, ?_, hcommits.trans h1.commits_eq, h1.nodup, h1.home, h1.length_lt,
        h1.length_le, h1.length_ws, h1.mem, fun j => ?_, fun b hb => ?_⟩, hlog, fun n hn hni => ?_⟩
      · show headerN (st.disk start) = 0
        rw [hdisk, update_of_ne (by omega), h1.head]
      · show st.Dirty j ↔ j ∈ s1.log.lh
        rw [hdirty', h1.dirty]
        exact and_iff_left_of_imp fun hj => (h1.home j hj).ne_log (by omega)
      · show st.view b = _
        rw [hview', if_neg (hb.ne_log (by omega)), h1.view b hb]
      · show st.disk (start + n + 1) = _
        rw [hdisk]
        by_cases hni' : n = i
        · subst hni'
          rw [update_self]
          exact hview
        · rw [update_of_ne (by omega)]
          exact hdone n hn (by omega)
    · intro e st _ hwrites hroom
      refine hE e _ (by show Atomic _ _ _ _ st.writes; exact hwrites ▸ h1.atomic) fun hfit => hroom ?_
      have hdirty : ∀ j, s1.toStorage.Dirty j ↔ j ∈ s.log.lh := fun j => by rw [h1.dirty, hlog]
      exact ⟨s.log.lh, fun j hj => (hdirty j).mp hj, hfit, .inl ((hdirty _).mpr hmem)⟩
  · exact ⟨h, rfl, fun n _ hn => absurd hn (Nat.not_lt_zero n)⟩
  · rintro - s1 ⟨h1, hlog, hdone⟩
    exact hQ s1 h1 hlog fun i hi => hdone i hi hi

/-- `commit` of a transaction that has logged something. -/
theorem wp_commit (h : InTx start size d0 v c ws s)
    (hv : ws ≠ [] → ∀ b, Home start size b → v (c + 1) b = replay (v c) ws b)
    (hQ : ∀ s', Quiet start size d0 v (if ws = [] then c else c + 1) s' →
      s'.log = { s.log with lh := [] } → Q () s')
    (hE : ∀ e s', Atomic start size d0 v s'.writes → ¬ s.log.lh.length < NBUF → E e s') :
    Wp commit Q E s := by
  unfold commit
  rw [wp_bind, wp_get, wp_ite]
  split
  · rename_i hpos
    have hws : ws ≠ [] := by
      rintro rfl
      have := h.length_ws
      simp only [length_nil] at this
      omega
    rw [wp_bind]
    refine wp_writeLog h (fun s1 h1 hlog hdone => ?_) hE
    -- the header write is the commit point
    rw [wp_bind]
    unfold writeHead bio
    rw [wp_bind, wp_get, wp_zoom]
    simp only [h1.start_eq]
    refine wp_rewriteBlock h1.coh h1.idle ?_ ?_
    · intro st hcoh hidle hdisk hwrites _ hdirty'
      have hhead := header_move (s1.toStorage.view start) h1.length_le fun b hb => (h1.home b hb).2
      have hn := headerN_move (s1.toStorage.view start) _ h1.length_le
      have hcommits : commits start st.writes = c + 1 := by
        rw [hwrites, commits_append_commit (by rw [hn, hlog]; omega), h1.commits_eq]
      have hsound := h1.write hcoh hidle hdisk hwrites (by
        rw [hcommits, hdisk]
        refine Recoverable.commit hhead h1.nodup h1.length_lt h1.home (fun i hi => ?_) fun b hb hnot => ?_
        · rw [hv hws _ (h1.home _ (getElem_mem hi))]
          simpa only [hlog] using hdone i (by rwa [← hlog])
        · have hnd : ¬ s1.toStorage.Dirty b := fun hd => hnot ((h1.dirty b).mp hd)
          rw [hv hws b hb, ← h1.view b hb, h1.coh.view_eq_disk hnd])
      have hdisk' : header (st.disk start) = s1.log.lh := by
        rw [hdisk, update_self, hhead]
      refine wp_redo s1.log.lh True ⟨hsound.coh, hsound.idle, rfl, hsound.size_eq,
        hsound.disk_eq, hsound.atomic⟩ rfl hdisk' (fun j => ?_) ?_ ?_
      · show st.Dirty j ↔ True ∧ j ∈ s1.log.lh
        rw [hdirty', h1.dirty, true_and]
        have hsize := h1.length_lt
        exact and_iff_left_of_imp fun hj => (h1.home j hj).ne_start (by omega)
      · intro s' hs' hlog'
        have hc : commits start st.writes = if ws = [] then c else c + 1 := by rw [hcommits, if_neg hws]
        exact hQ s' (hc ▸ hs') (by rw [hlog', hlog])
      · intro e s' hatomic hfit
        exact hE e s' hatomic fun hlt => hfit fun _ => by rwa [hlog]
    · intro e st _ hwrites hcrowded
      refine hE e _ (by show Atomic _ _ _ _ st.writes; exact hwrites ▸ h1.atomic) ?_
      have := hcrowded s1.log.lh fun j hj => (h1.dirty j).mp hj
      rw [hlog] at this
      omega
  · rename_i hpos
    have hnil : s.log.lh = [] := by
      rw [← length_eq_zero_iff]
      omega
    have hws : ws = [] := by
      refine eq_nil_iff_forall_not_mem.mpr fun w hw => ?_
      simpa [hnil] using h.mem w hw
    rw [wp_pure]
    refine hQ s ⟨h.toSound, hnil, fun j => ?_, h.head, by rw [if_pos hws, h.commits_eq]⟩ ?_
    · rw [h.dirty, hnil]
      exact not_mem_nil
    · rw [← hnil]

/-- A whole transaction. It cannot fail when it logs no more blocks than the log has. -/
theorem wp_transaction (hsize : 0 < size) (h : Quiet start size d0 v c s)
    (hlog : s.log.outstanding = 0 ∧ s.log.committing = false) (hws : ∀ w ∈ ws, Home start size w.1)
    (hv : ws ≠ [] → ∀ b, Home start size b → v (c + 1) b = replay (v c) ws b) : Wp (transaction ws)
      (fun _ s' => Quiet start size d0 v (if ws = [] then c else c + 1) s' ∧
        s'.log.outstanding = 0 ∧ s'.log.committing = false)
      (fun _ s' => Atomic start size d0 v s'.writes ∧ ¬ (ws.length < size ∧ size ≤ NBUF)) s := by
  obtain ⟨hout, hcom⟩ := hlog
  have hbegin : s.log.beginOp = some { s.log with outstanding := s.log.outstanding + 1 } := by
    rw [Log.beginOp, if_neg (by simp [hcom]), if_neg]
    simp [Log.Exhausted, h.empty, hout, LOGSIZE, MAXOPBLOCKS]
  unfold transaction beginOp
  rw [wp_bind, wp_bind, wp_get, hbegin]
  simp only [wp_set]
  rw [wp_bind]
  refine wp_mono (wp_forM (fun rest s' => ∃ done, ws = done ++ rest ∧
      InTx start size d0 v c done s' ∧ s'.log.outstanding = 1 ∧ s'.log.committing = false) ?_ ?_) ?_
      fun _ _ hE => hE
  · rintro w rest s1 ⟨done, rfl, h1, hout1, hcom1⟩
    refine wp_update h1 (hws w (by simp)) hout1 ?_ ?_
    · intro s' hs' hout' hcom'
      exact ⟨done ++ [w], by simp, hs', hout'.trans hout1, hcom'.trans hcom1⟩
    · intro e s' hatomic hfit
      refine ⟨hatomic, fun hall => hfit ⟨?_, hall.2⟩⟩
      have := hall.1
      simp only [length_append, length_cons] at this
      omega
  · exact ⟨[], rfl, h.inTx hsize ⟨rfl, rfl⟩, by simp [hout], hcom⟩
  · rintro - s1 ⟨done, hdone, h1, hout1, hcom1⟩
    obtain rfl : ws = done := by simpa using hdone
    have hend : s1.log.endOp = .ok (true, { s1.log with outstanding := 0, committing := true }) := by
      simp [Log.endOp, hcom1, hout1]
    unfold endOp
    rw [wp_bind, wp_get, hend]
    simp only [if_true]
    rw [wp_bind, wp_set, wp_bind]
    have hsound : InTx start size d0 v c ws
        { s1 with log := { s1.log with outstanding := 0, committing := true } } :=
      ⟨⟨h1.coh, h1.idle, h1.start_eq, h1.size_eq, h1.disk_eq, h1.atomic⟩, h1.head, h1.commits_eq,
        h1.nodup, h1.home, h1.length_lt, h1.length_le, h1.length_ws, h1.mem, h1.dirty, h1.view⟩
    refine wp_commit hsound hv ?_ ?_
    · intro s' hs' hlog'
      rw [wp_modify]
      refine ⟨⟨⟨hs'.coh, hs'.idle, hs'.start_eq, hs'.size_eq, hs'.disk_eq, hs'.atomic⟩, hs'.empty,
        hs'.clean, hs'.head, hs'.commits_eq⟩, ?_, rfl⟩
      simp only [hlog']
    · intro e s' hatomic hfit
      refine ⟨hatomic, fun hall => hfit ?_⟩
      have := h1.length_ws
      exact Nat.lt_of_le_of_lt this (Nat.lt_of_lt_of_le hall.1 hall.2)

/-! ## Whole runs, crashes and recovery -/

/-- The contents of the disk after `c` commits of the transactions `txs`; an empty transaction writes
nothing. -/
def committed (d : ℕ → Block) (txs : List (List (ℕ × Block))) (c : ℕ) : ℕ → Block :=
  replay d ((txs.filter (· ≠ [])).take c).flatten

/-- A run of transactions: every prefix of its writes is recoverable, and it completes when no
transaction is too big. -/
theorem wp_run (hsize : 0 < size) (hhead : headerN (d0 start) = 0) {txs : List (List (ℕ × Block))}
    (htxs : ∀ ws ∈ txs, ∀ w ∈ ws, Home start size w.1) : Wp (run txs)
      (fun _ s' => Quiet start size d0 (committed d0 txs) (txs.filter (· ≠ [])).length s')
      (fun _ s' => Atomic start size d0 (committed d0 txs) s'.writes ∧
        ¬ ((∀ ws ∈ txs, ws.length < size) ∧ size ≤ NBUF))
      (boot d0 start size) := by
  unfold run
  rw [wp_bind]
  refine wp_recoverFromLog (v := committed d0 txs) (recoverable_of_empty hsize hhead fun b _ => rfl)
    fun s1 h1 hlog1 => ?_
  refine wp_mono (wp_forM (fun rest s' => ∃ done, txs = done ++ rest ∧
      Quiet start size d0 (committed d0 txs) (done.filter (· ≠ [])).length s' ∧
      s'.log.outstanding = 0 ∧ s'.log.committing = false) ?_ ?_) ?_ fun _ _ hE => hE
  · rintro ws rest s' ⟨done, rfl, hs', hidle⟩
    refine wp_mono (wp_transaction hsize hs' hidle (htxs ws (by simp)) fun hne b _ => ?_) ?_ ?_
    · -- the contents after this transaction
      unfold committed
      rw [filter_append, take_append_of_le_length (Nat.le_refl _), take_length,
        filter_cons_of_pos (by simpa using hne), take_append,
        take_of_length_le (by omega), Nat.add_sub_cancel_left, take_succ_cons,
        take_zero, flatten_append, replay_append_list]
      simp
    · rintro - s'' ⟨hs'', hidle''⟩
      refine ⟨done ++ [ws], by simp, ?_, hidle''⟩
      have hlen : ((done ++ [ws]).filter (· ≠ [])).length =
          if ws = [] then (done.filter (· ≠ [])).length else (done.filter (· ≠ [])).length + 1 := by
        rw [filter_append, length_append]
        split <;> simp [*]
      rw [hlen]
      exact hs''
    · rintro e s'' ⟨hatomic, hfit⟩
      exact ⟨hatomic, fun hall => hfit ⟨hall.1 ws (by simp), hall.2⟩⟩
  · exact ⟨[], rfl, h1, by rw [hlog1]; exact ⟨rfl, rfl⟩⟩
  · rintro - s' ⟨done, hdone, hs', -⟩
    obtain rfl : txs = done := by simpa using hdone
    exact hs'

/-- The disk after `recover_from_log` has run up to its `k`-th write and crashed. -/
def crashedRecovery (start size : ℕ) (d : ℕ → Block) (k : ℕ) : ℕ → Block :=
  replay d ((recoverFromLog.final (boot d start size)).writes.take k)

/-- A crash in recovery loses nothing. -/
theorem Recoverable.crashedRecovery {v : ℕ → Block} (h : Recoverable start size d v) (k : ℕ) :
    Recoverable start size (crashedRecovery start size d k) v := by
  have hwp : Wp recoverFromLog (fun _ s => Atomic start size d (fun _ => v) s.writes)
      (fun _ s => Atomic start size d (fun _ => v) s.writes) (boot d start size) :=
    wp_recoverFromLog (v := fun _ => v) h fun s' hs' _ => hs'.atomic
  exact wp_final hwp k

/-- The last recovery completes and leaves the home blocks in place and the log empty. -/
theorem Recoverable.recovery {v : ℕ → Block} (h : Recoverable start size d v) :
    ∃ s, recoverFromLog.run (boot d start size) = .ok () s ∧ headerN (s.disk start) = 0 ∧
      ∀ b, Home start size b → s.disk b = v b := by
  have hwp : Wp recoverFromLog (fun _ s => Quiet start size d (fun _ => v) 0 s)
      (fun _ _ => False) (boot d start size) :=
    wp_recoverFromLog (v := fun _ => v) h fun s' hs' _ => hs'
  obtain ⟨⟨⟩, s, hrun, hs⟩ := wp_returns hwp
  exact ⟨s, hrun, hs.head, fun b hb => hs.recoverable.disk_eq hs.head hb⟩

/-- **Crash atomicity.** Transactions `txs` on home blocks run from a disk `d0` with an empty log, the
machine crashes after the first `k` disk writes, and recovery crashes after the disk writes `ks` of its
successive attempts. The next recovery completes: the home blocks are as the transactions whose commit
record is among the `k` writes have left them, and the log is empty. Transactions that fit into the log
and the cache all commit. -/
theorem crash_atomicity (start size : ℕ) (hsize : 0 < size) (d0 : ℕ → Block) (hhead : headerN (d0 start) = 0)
    (txs : List (List (ℕ × Block))) (htxs : ∀ ws ∈ txs, ∀ w ∈ ws, Home start size w.1) :
    let done := ((run txs).final (boot d0 start size)).writes
    (∀ (k : ℕ) (ks : List ℕ),
      let d := ks.foldl (crashedRecovery start size) (replay d0 (done.take k))
      ∃ s, recoverFromLog.run (boot d start size) = .ok () s ∧ headerN (s.disk start) = 0 ∧
        ∀ b, Home start size b → s.disk b = committed d0 txs (commits start (done.take k)) b) ∧
    ((∀ ws ∈ txs, ws.length < size) → size ≤ NBUF →
      ∃ s, (run txs).run (boot d0 start size) = .ok () s ∧
        commits start done = (txs.filter (· ≠ [])).length) := by
  intro done
  have hrun := wp_run hsize hhead htxs
  refine ⟨fun k ks => ?_, fun hlen hbufs => ?_⟩
  · have hatomic : Atomic start size d0 (committed d0 txs) done :=
      wp_final (wp_mono hrun (fun _ s hs => hs.atomic) fun _ s hs => hs.1)
    suffices hrec : ∀ d, Recoverable start size d (committed d0 txs (commits start (done.take k))) →
        Recoverable start size (ks.foldl (crashedRecovery start size) d)
          (committed d0 txs (commits start (done.take k))) from (hrec _ (hatomic k)).recovery
    induction ks with
    | nil => exact fun d hd => hd
    | cons k' ks ih => exact fun d hd => ih _ (hd.crashedRecovery k')
  · obtain ⟨⟨⟩, s, hok, hs⟩ := wp_returns
      (wp_mono hrun (fun _ _ hs => hs) fun _ _ hs => hs.2 ⟨hlen, hbufs⟩)
    have hdone : done = s.writes := by
      show ((run txs).final (boot d0 start size)).writes = s.writes
      rw [Code.final, hok]
    exact ⟨s, hok, by rw [hdone, hs.commits_eq]⟩

/-- Two transactions in the log that `mkfs` makes, and crashes after the end of the second. -/
theorem crash_atomicity_two_transactions : let d0 : ℕ → Block := fun _ _ => 0
    let txs : List (List (ℕ × Block)) := [[(100, fun _ => 1), (101, fun _ => 2)], [(100, fun _ => 3)]]
    let done := ((run txs).final (boot d0 2 nlog)).writes
    headerN (d0 2) = 0 ∧ (∀ ws ∈ txs, ∀ w ∈ ws, Home 2 nlog w.1) ∧ commits 2 done = 2 ∧
      ∀ ks : List ℕ, ∃ s,
        recoverFromLog.run (boot (ks.foldl (crashedRecovery 2 nlog) (replay d0 done)) 2 nlog) = .ok () s ∧
          headerN (s.disk 2) = 0 ∧ s.disk 100 = (fun _ => 3) ∧ s.disk 101 = (fun _ => 2) := by
  intro d0 txs done
  have hhead : headerN (d0 2) = 0 := by decide
  have htxs : ∀ ws ∈ txs, ∀ w ∈ ws, Home 2 nlog w.1 := by
    intro ws hws w hw
    have hmem : w.1 ∈ [100, 101] := by
      simp only [txs, mem_cons, not_mem_nil, or_false] at hws
      rcases hws with rfl | rfl
      · exact mem_map_of_mem (f := Prod.fst) hw
      · exact mem_cons.mpr (.inl (by rw [mem_singleton.mp hw]))
    have hall : ∀ b ∈ [100, 101], Home 2 nlog b := by decide
    exact hall w.1 hmem
  obtain ⟨hcrash, hruns⟩ := crash_atomicity 2 nlog (by decide) d0 hhead txs htxs
  obtain ⟨-, -, hcommits⟩ := hruns (by simp +decide [txs]) (by decide)
  have hcommits : commits 2 done = 2 := hcommits
  refine ⟨hhead, htxs, hcommits, fun ks => ?_⟩
  obtain ⟨s, hs, hn, hdisk⟩ := hcrash done.length ks
  have htake : ((run txs).final (boot d0 2 nlog)).writes.take done.length = done := take_length
  rw [htake] at hs hdisk
  rw [hcommits] at hdisk
  exact ⟨s, hs, hn, hdisk 100 (by decide), hdisk 101 (by decide)⟩

end LogFs

end Xv6
