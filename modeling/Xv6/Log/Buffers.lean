import Xv6.Log.Redo

/-!
# The buffers that `commit` needs

The blocks of a transaction are pinned in the cache until they have been installed. `log_write` admits at most `log.size - 1`
blocks, and there are as many buffers as `log.size`: one buffer is left for the blocks of the log. `commit` holds two buffers
at a time, but the second one is that of a pinned block, or of one that has been written already.
-/

namespace Xv6

open Code List

namespace Log

/-- The contents of `lh` after some calls of `log_write`, for a log of `size` blocks. -/
inductive Admits (size : ℕ) : List ℕ → Prop
  | nil : Admits size []
  | write {l : Log} (h : Admits size l.lh) (hsize : l.size = size) (hcheck : l.logWriteCheck = .ok ()) (b : ℕ) :
    Admits size (absorb b l.lh)

theorem Admits.length_le {size : ℕ} {lh : List ℕ} (h : Admits size lh) : lh.length ≤ size - 1 := by
  cases h with
  | nil => exact Nat.zero_le _
  | @write l h hsize hcheck b =>
    have hlt : (l.lh.length : ℤ) < (l.size : ℤ) - 1 := by
      by_contra hge
      rw [logWriteCheck, if_pos (.inr (Int.not_lt.mp hge))] at hcheck
      nomatch hcheck
    rw [absorb_eq]
    split_ifs
    · omega
    · rw [length_append, length_singleton]
      omega

end Log

namespace Storage

variable {s : Storage} {a b k src dst : ℕ} {lh : List ℕ}

/-- A process that reads a block which it holds waits for itself. -/
theorem wp_bread_held {Q : Unit → Storage → Prop} {E : Halt → Storage → Prop} (h : 0 < s.ref k) (hE : E .sleep s) :
    Wp (bread k) Q E s := by
  unfold bread bget
  simp only [wp_bind, wp_get]
  cases hk : s.look k with
  | none =>
    rw [ref, hk] at h
    exact absurd h (Nat.lt_irrefl 0)
  | some b =>
    rw [ref, hk] at h
    have hpos : 0 < b.refcnt := h
    dsimp only
    rw [if_pos hpos]
    exact hE

/-- Between two iterations of `commit`: no buffer is in use, and only blocks of the transaction are dirty. -/
structure Pinned (lh : List ℕ) (s : Storage) : Prop where
  coh : s.Coh
  idle : s.Idle
  dirty : ∀ j, s.Dirty j → j ∈ lh

/-- If the transaction is smaller than the cache, there are buffers for a block of the log and one of the transaction. -/
theorem Pinned.room (h : Pinned lh s) (hlen : lh.length < NBUF) (hb : b ∈ lh) : s.Room b := by
  by_cases hdirty : s.Dirty b
  · exact ⟨lh, h.dirty, hlen, .inl hdirty⟩
  · -- block `b` itself is not pinned any more
    have herase := length_erase_add_one hb
    refine ⟨lh.erase b, fun j hj => ?_, by omega, .inr (by omega)⟩
    have hne : j ≠ b := fun heq => hdirty (heq ▸ hj)
    exact (mem_erase_of_ne hne).mpr (h.dirty j hj)

/-- An iteration of `write_log` or of `install_trans` finds its buffers. It hangs if the block is the block of the log itself. -/
theorem Pinned.wp_copyBlock {Q : Unit → Storage → Prop} {E : Halt → Storage → Prop} (h : Pinned lh s)
    (hlen : lh.length < NBUF) (hb : b ∈ lh) (hsd : (src = a ∧ dst = b) ∨ (src = b ∧ dst = a))
    (hQ : ∀ s', Pinned lh s' → (∀ j, s'.Dirty j → s.Dirty j ∧ j ≠ dst) → Q () s')
    (hE : ∀ s', a = b → E .sleep s') : Wp (copyBlock a b src dst) Q E s := by
  by_cases hab : a = b
  · subst hab
    unfold copyBlock
    rw [wp_bind]
    refine wp_mono (wp_bread_view h.coh) ?_ ?_
    · rintro - s1 ⟨-, -, href, -⟩
      rw [wp_bind]
      exact wp_bread_held (by rw [href, if_pos rfl]; exact Nat.one_pos) (hE s1 rfl)
    · rintro e s1 ⟨rfl, hstuck⟩
      refine absurd hstuck (h.coh.not_stuck (h.idle a) (.inr ⟨lh, hlen, fun j hj => ?_⟩))
      rcases hj with hj | hj
      · rw [h.idle] at hj
        exact absurd hj (Nat.lt_irrefl 0)
      · exact h.dirty j hj
  · refine Storage.wp_copyBlock h.coh h.idle hab hsd (fun s' hcoh hidle _ _ _ hdirty => ?_)
      fun _ _ _ _ hroom => absurd (h.room hlen hb) hroom
    exact hQ s' ⟨hcoh, hidle, fun j hj => h.dirty j ((hdirty j).mp hj).1⟩ fun j hj => (hdirty j).mp hj

theorem Pinned.wp_rewriteBlock {Q : Unit → Storage → Prop} {E : Halt → Storage → Prop} {f : Block → Block} (h : Pinned lh s)
    (hlen : lh.length < NBUF) (hQ : ∀ s', Pinned lh s' → (∀ j, s'.Dirty j → s.Dirty j) → Q () s') :
    Wp (rewriteBlock k f) Q E s := by
  refine Storage.wp_rewriteBlock h.coh h.idle (fun s' hcoh hidle _ _ _ hdirty => ?_) fun _ _ _ _ hfull => ?_
  · exact hQ s' ⟨hcoh, hidle, fun j hj => h.dirty j ((hdirty j).mp hj).1⟩ fun j hj => ((hdirty j).mp hj).1
  · exact absurd (hfull lh h.dirty) (Nat.not_le.mpr hlen)

/-- If no block is in use or dirty, then no buffer is. -/
theorem Coh.all_free (h : s.Coh) (hidle : s.Idle) (hclean : ∀ j, ¬ s.Dirty j) :
    ∀ buf ∈ s.bufs, buf.refcnt = 0 ∧ buf.dirty = false := by
  intro buf hbuf
  cases hbn : buf.blockno with
  | none => exact h.unused buf hbuf hbn
  | some j =>
    have hlook := (look_iff h.uniq).mpr ⟨hbuf, hbn⟩
    have href := hidle j
    rw [ref, hlook] at href
    refine ⟨href, ?_⟩
    by_contra hdirty
    exact hclean j ⟨buf, hlook, Bool.not_eq_false _ ▸ hdirty⟩

end Storage

namespace LogFs

open Storage

variable {s : LogFs} {lh : List ℕ} {Q : Unit → LogFs → Prop} {E : Halt → LogFs → Prop}

/-- The blocks of the log that a transaction of `n` blocks is copied to. -/
def InLog (start n b : ℕ) : Prop := start < b ∧ b ≤ start + n

/-- The state of `commit` between its functions. -/
structure Committing (start : ℕ) (lh : List ℕ) (s : LogFs) : Prop where
  pinned : Pinned lh s.toStorage
  start : s.start = start
  lh : s.log.lh = lh

variable {start : ℕ}

section

variable (h : Committing start lh s)

include h

theorem wp_writeLog_pinned (hlen : lh.length < NBUF)
    (hQ : ∀ s', Committing start lh s' → Q () s') (hE : ∀ s', (∃ b ∈ lh, InLog start lh.length b) → E .sleep s') :
    Wp writeLog Q E s := by
  unfold writeLog
  rw [wp_bind, wp_get, h.lh, h.start]
  refine wp_post (wp_forM_zipIdx (fun _ s' => Committing start lh s') (E := E) ?_ h) (fun _ s' h' => hQ s' h')
  intro i hi s1 h1
  unfold bio
  rw [wp_zoom]
  refine h1.pinned.wp_copyBlock hlen (getElem_mem hi) (.inr ⟨rfl, rfl⟩) (fun st hst _ => ⟨hst, h1.start, h1.lh⟩)
    fun st hab => hE _ ⟨lh[i], getElem_mem hi, ?_, ?_⟩
  · omega
  · omega

/-- Each block that is installed is unpinned. -/
theorem wp_installTrans_pinned (hlen : lh.length < NBUF)
    (hQ : ∀ s', Committing start lh s' → (∀ j, ¬ s'.toStorage.Dirty j) → Q () s')
    (hE : ∀ s', (∃ b ∈ lh, InLog start lh.length b) → E .sleep s') : Wp installTrans Q E s := by
  unfold installTrans
  rw [wp_bind, wp_get, h.lh, h.start]
  refine wp_mono (wp_forM_zipIdx
    (fun i s' => Committing start lh s' ∧ ∀ j, s'.toStorage.Dirty j → j ∈ lh.drop i) (E := E) ?_ ⟨h, h.pinned.dirty⟩)
    (fun _ s' h' => hQ s' h'.1 fun j hj => ?_) fun _ _ he => he
  · rintro i hi s1 ⟨h1, hdrop⟩
    unfold bio
    rw [wp_zoom]
    refine h1.pinned.wp_copyBlock hlen (getElem_mem hi) (.inl ⟨rfl, rfl⟩)
      (fun st hst hdirty => ⟨⟨hst, h1.start, h1.lh⟩, fun j hj => ?_⟩)
      fun st hab => hE _ ⟨lh[i], getElem_mem hi, ?_, ?_⟩
    · obtain ⟨hj', hne⟩ := hdirty j hj
      have hmem := hdrop j hj'
      rw [drop_eq_getElem_cons hi, mem_cons] at hmem
      exact hmem.resolve_left hne
    · omega
    · omega
  · have hmem := h'.2 j hj
    rw [drop_length] at hmem
    exact absurd hmem not_mem_nil

theorem wp_writeHead_pinned (hlen : lh.length < NBUF)
    (hQ : ∀ s', Committing start lh s' → Q () s') : Wp writeHead Q E s := by
  unfold writeHead
  rw [wp_bind, wp_get]
  unfold bio
  rw [wp_zoom]
  exact h.pinned.wp_rewriteBlock hlen fun st hst _ => hQ _ ⟨hst, h.start, h.lh⟩

theorem wp_commit_pinned (hlen : lh.length < NBUF)
    (hQ : ∀ s', Committing start [] s' → Q () s') (hE : ∀ s', (∃ b ∈ lh, InLog start lh.length b) → E .sleep s') :
    Wp commit Q E s := by
  unfold commit
  rw [wp_bind, wp_get, h.lh]
  by_cases hpos : lh.length > 0
  · rw [if_pos hpos, wp_bind]
    refine wp_writeLog_pinned h hlen (fun s1 h1 => ?_) hE
    rw [wp_bind]
    refine wp_writeHead_pinned h1 hlen fun s2 h2 => ?_
    rw [wp_bind]
    refine wp_installTrans_pinned h2 hlen (fun s3 h3 hclean => ?_) hE
    unfold clearHead
    rw [wp_bind, wp_modify]
    have hempty : Committing start [] { s3 with log := { s3.log with lh := [] } } :=
      ⟨⟨h3.pinned.coh, h3.pinned.idle, fun j hj => absurd hj (hclean j)⟩, h3.start, rfl⟩
    exact wp_writeHead_pinned hempty (by decide) hQ
  · rw [if_neg hpos]
    have hnil : lh = [] := eq_nil_of_length_eq_zero (Nat.eq_zero_of_not_pos hpos)
    subst hnil
    exact hQ s h

end

/-! ## A full log -/

/-- The buffer of block `k`, pinned. -/
def pinnedBuf (k : ℕ) : Buf := ⟨some k, true, true, 0, fun _ => 0⟩

/-- The last 29 of 30 buffers are pinned, as many as `log_write` admits. -/
def fullLog : LogFs where
  disk := fun _ _ => 0
  bufs := ⟨none, false, false, 0, fun _ => 0⟩ :: (List.range' 100 29).map pinnedBuf
  writes := []
  log := { size := LOGSIZE, outstanding := 0, committing := true, lh := List.range' 100 29 }
  start := 2

theorem fullLog_mem {b : Buf} (h : b ∈ fullLog.bufs) : b.blockno = none ∧ b.refcnt = 0 ∧ b.dirty = false ∨
    ∃ k ∈ List.range' 100 29, b = pinnedBuf k := by
  rcases mem_cons.mp h with rfl | h
  · exact .inl ⟨rfl, rfl, rfl⟩
  · obtain ⟨k, hk, rfl⟩ := mem_map.mp h
    exact .inr ⟨k, hk, rfl⟩

theorem fullLog_look {k : ℕ} {b : Buf} (h : fullLog.toStorage.look k = some b) :
    k ∈ List.range' 100 29 ∧ b = pinnedBuf k := by
  obtain ⟨hb, hbn⟩ := look_eq_some h
  rcases fullLog_mem hb with ⟨hnone, -⟩ | ⟨j, hj, rfl⟩
  · rw [hnone] at hbn
    nomatch hbn
  · obtain rfl := Option.some.inj hbn
    exact ⟨hj, rfl⟩

theorem fullLog_coh : fullLog.toStorage.Coh where
  uniq := by
    refine pairwise_cons.mpr ⟨fun _ _ _ h => absurd h nofun, pairwise_map.mpr ?_⟩
    refine List.Pairwise.imp ?_ (nodup_range' 1 Nat.one_pos)
    intro a b hab k ha hb
    exact hab ((Option.some.inj ha).trans (Option.some.inj hb).symm)
  length := by decide
  clean k b h _ hclean := by
    rw [(fullLog_look h).2] at hclean
    nomatch hclean
  valid k b h _ := by
    rw [(fullLog_look h).2]
    rfl
  unused b hb hnone := by
    rcases fullLog_mem hb with ⟨-, hfree⟩ | ⟨k, -, rfl⟩
    · exact hfree
    · nomatch hnone

theorem fullLog_idle : fullLog.toStorage.Idle := by
  intro j
  unfold ref
  cases h : fullLog.toStorage.look j with
  | none => rfl
  | some b =>
    rw [(fullLog_look h).2]
    rfl

theorem fullLog_dirty (j : ℕ) : fullLog.toStorage.Dirty j ↔ j ∈ List.range' 100 29 := by
  constructor
  · rintro ⟨b, hb, -⟩
    exact (fullLog_look hb).1
  · intro hj
    refine ⟨pinnedBuf j, (look_iff fullLog_coh.uniq).mpr ⟨?_, rfl⟩, rfl⟩
    exact mem_cons_of_mem _ (mem_map_of_mem hj)

theorem admits_range {n : ℕ} (hn : n ≤ 29) : Log.Admits LOGSIZE (List.range' 100 n) := by
  induction n with
  | zero => exact .nil
  | succ n ih =>
    have hnew : 100 + n ∉ List.range' 100 n := by
      rw [mem_range'_1]
      omega
    have hcheck : (⟨LOGSIZE, 1, false, List.range' 100 n⟩ : Log).logWriteCheck = .ok () := by
      have hfit : ¬ (n ≥ LOGSIZE ∨ (n : ℤ) ≥ (LOGSIZE : ℤ) - 1) := by
        simp only [LOGSIZE, MAXOPBLOCKS]
        omega
      simp only [Log.logWriteCheck, length_range']
      rw [if_neg hfit, if_neg (by decide)]
    have hadm := Log.Admits.write (ih (by omega)) rfl hcheck (100 + n)
    rwa [Log.absorb_eq, if_neg hnew, ← range'_1_concat] at hadm

theorem fullLog_not_inLog : ¬ ∃ b ∈ List.range' 100 29, InLog 2 29 b := by
  rintro ⟨b, hb, -, hle⟩
  have hge := (mem_range'_1.mp hb).1
  omega

theorem fullLog_admits : Log.Admits fullLog.log.size fullLog.log.lh := admits_range le_rfl

/-- The state with the full log, which is not to be unfolded. -/
@[irreducible] def fullState : LogFs := fullLog

theorem fullState_eq : fullState = fullLog := by
  unfold fullState
  rfl

end LogFs

end Xv6
