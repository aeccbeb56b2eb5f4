import Mathlib.Data.List.Nodup
import Mathlib.Data.Option.Basic
import Mathlib.Logic.Function.Basic

/-!
# Doubly linked rings with a sentinel

Pointers `next` and `prev` of the nodes `Option α`, where `none` is the sentinel. `Ring` says which list they spell out;
removing a node and inserting one behind the sentinel are what they should be on that list, and so is a search in
either direction.
-/

/-- The pointers of the nodes. -/
structure Links (α : Type*) where
  next : Option α → Option α
  prev : Option α → Option α

namespace Links

open Function List

variable {α : Type*} {L L' : Links α} {x y z : Option α} {l l1 l2 : List (Option α)} {a : α}

/-! ## Segments -/

/-- From `x` the pointers go through the nodes of `l` to `z`, and back. -/
def Segment (L : Links α) : Option α → List (Option α) → Option α → Prop
  | x, [], z => L.next x = z ∧ L.prev z = x
  | x, y :: l, z => (L.next x = y ∧ L.prev y = x) ∧ Segment L y l z

theorem segment_append : L.Segment x (l1 ++ y :: l2) z ↔ L.Segment x l1 y ∧ L.Segment y l2 z := by
  induction l1 generalizing x with
  | nil => exact Iff.rfl
  | cons w l1 ih => simp only [cons_append, Segment, ih, and_assoc]

/-- A segment only depends on the pointers along it. -/
theorem Segment.congr (h : L.Segment x l z) (hnext : ∀ w ∈ x :: l, L'.next w = L.next w)
    (hprev : ∀ w ∈ l ++ [z], L'.prev w = L.prev w) : L'.Segment x l z := by
  induction l generalizing x with
  | nil =>
    obtain ⟨hn, hp⟩ := h
    exact ⟨(hnext x (by simp)).trans hn, (hprev z (by simp)).trans hp⟩
  | cons y l ih =>
    obtain ⟨⟨hn, hp⟩, hrest⟩ := h
    refine ⟨⟨(hnext x (by simp)).trans hn, (hprev y (by simp)).trans hp⟩, ?_⟩
    exact ih hrest (fun w hw => hnext w (mem_cons_of_mem x hw)) fun w hw => hprev w (mem_cons_of_mem y hw)

/-- The same pointers, the other way round. -/
def flip (L : Links α) : Links α := ⟨L.prev, L.next⟩

theorem Segment.flip (h : L.Segment x l z) : L.flip.Segment z l.reverse x := by
  induction l generalizing x with
  | nil => exact ⟨h.2, h.1⟩
  | cons y l ih =>
    obtain ⟨⟨hn, hp⟩, hrest⟩ := h
    rw [reverse_cons]
    exact segment_append.mpr ⟨ih hrest, hp, hn⟩

theorem Segment.prev_next (h : L.Segment x l z) : ∀ w ∈ x :: l, L.prev (L.next w) = w := by
  induction l generalizing x with
  | nil =>
    intro w hw
    obtain rfl := mem_singleton.mp hw
    rw [h.1, h.2]
  | cons y l ih =>
    obtain ⟨⟨hn, hp⟩, hrest⟩ := h
    intro w hw
    obtain rfl | hw := mem_cons.mp hw
    · rw [hn, hp]
    · exact ih hrest w hw

/-- Where a segment ends. -/
theorem Segment.prev_mem (h : L.Segment x l z) : L.prev z ∈ x :: l := by
  induction l generalizing x with
  | nil => exact mem_singleton.mpr h.2
  | cons y l ih => exact mem_cons_of_mem x (ih h.2)

/-- Another end for a segment: only its last node has another successor. -/
theorem Segment.redirect (h : L.Segment x l y) (hnodup : (x :: l).Nodup) (hlast : L'.next (L.prev y) = z)
    (hend : L'.prev z = L.prev y) (hnext : ∀ w ∈ x :: l, w ≠ L.prev y → L'.next w = L.next w)
    (hprev : ∀ w ∈ l, L'.prev w = L.prev w) : L'.Segment x l z := by
  induction l generalizing x with
  | nil =>
    rw [h.2] at hlast hend
    exact ⟨hlast, hend⟩
  | cons w l ih =>
    obtain ⟨⟨hn, hp⟩, hrest⟩ := h
    have hx : x ≠ L.prev y := fun heq => (nodup_cons.mp hnodup).1 (heq ▸ hrest.prev_mem)
    refine ⟨⟨(hnext x (by simp) hx).trans hn, (hprev w (by simp)).trans hp⟩, ?_⟩
    exact ih hrest (nodup_cons.mp hnodup).2 (fun v hv => hnext v (mem_cons_of_mem x hv))
      fun v hv => hprev v (mem_cons_of_mem w hv)

/-! ## Rings -/

/-- The pointers lead from the sentinel through the nodes of a list, each once, and to the sentinel again. -/
structure Ring (L : Links α) (l : List α) : Prop where
  nodup : l.Nodup
  segment : L.Segment none (l.map some) none

variable {l l1 l2 : List α}

theorem Ring.flip (h : L.Ring l) : L.flip.Ring l.reverse :=
  ⟨nodup_reverse.mpr h.nodup, by rw [map_reverse]; exact h.segment.flip⟩

/-- If all nodes are in the ring, then `next` and `prev` are inverse to each other. -/
theorem Ring.prev_next (h : L.Ring l) (hall : ∀ a, a ∈ l) (x : Option α) : L.prev (L.next x) = x := by
  refine h.segment.prev_next x ?_
  cases x with
  | none => simp
  | some a => simp [hall a]

theorem nodup_map_some (h : l.Nodup) : (none :: l.map some).Nodup :=
  nodup_cons.mpr ⟨by simp, h.map (Option.some_injective α)⟩

section Update

variable [DecidableEq α]

/-- `b->next->prev = b->prev; b->prev->next = b->next;`. -/
def unlink (L : Links α) (b : Option α) : Links α :=
  let prev := update L.prev (L.next b) (L.prev b)
  ⟨update L.next (prev b) (L.next b), prev⟩

/-- `b->next = head.next; b->prev = &head; head.next->prev = b; head.next = b;`. -/
def pushFront (L : Links α) (b : Option α) : Links α :=
  let next := update L.next b (L.next none)
  let prev := update L.prev b none
  ⟨update next none b, update prev (next none) b⟩

/-- The sentinel alone. -/
def empty (L : Links α) : Links α := ⟨update L.next none none, update L.prev none none⟩

theorem ring_empty (L : Links α) : L.empty.Ring [] :=
  ⟨nodup_nil, by simp [Segment, empty]⟩

/-- Insertion behind the sentinel. -/
theorem Ring.pushFront (h : L.Ring l) (ha : a ∉ l) : (L.pushFront (some a)).Ring (a :: l) := by
  refine ⟨nodup_cons.mpr ⟨ha, h.nodup⟩, ?_⟩
  obtain ⟨hnodup, hseg⟩ := h
  cases l with
  | nil =>
    obtain ⟨hn, -⟩ := hseg
    simp [Segment, Links.pushFront, hn]
  | cons b l =>
    obtain ⟨⟨hn, -⟩, hrest⟩ := hseg
    have hb : b ∉ l := (nodup_cons.mp hnodup).1
    simp only [mem_cons, not_or] at ha
    refine ⟨?_, ?_, hrest.congr (fun w hw => ?_) fun w hw => ?_⟩
    · simp [Links.pushFront, hn, ha.1]
    · simp [Links.pushFront, hn]
    · simp only [mem_cons, mem_map] at hw
      simp only [Links.pushFront, update_apply]
      grind
    · simp only [mem_append, mem_map, mem_singleton] at hw
      simp only [Links.pushFront, update_apply, hn]
      grind

theorem unlink_next (h : L.next x ≠ x) : (L.unlink x).next = update L.next (L.prev x) (L.next x) := by
  simp only [unlink, update_of_ne h.symm]

/-- Removal of a node, wherever it is. -/
theorem Ring.unlink (h : L.Ring (l1 ++ a :: l2)) : (L.unlink (some a)).Ring (l1 ++ l2) := by
  obtain ⟨hnodup, hseg⟩ := h
  refine ⟨hnodup.sublist (by simp), ?_⟩
  rw [map_append, map_cons, segment_append] at hseg
  obtain ⟨hbefore, hafter⟩ := hseg
  have hlast := hbefore.prev_mem
  rw [nodup_append, nodup_cons] at hnodup
  obtain ⟨hnodup1, ⟨ha, hnodup2⟩, hdisjoint⟩ := hnodup
  -- the new successor of the node before is the sentinel, or the node after
  cases l2 with
  | nil =>
    obtain ⟨hn, -⟩ := hafter
    have hnext := unlink_next (L := L) (x := some a) (by rw [hn]; exact nofun)
    rw [append_nil]
    refine hbefore.redirect (nodup_map_some hnodup1) ?_ ?_ (fun w _ hw => ?_) fun w hw => ?_
    · rw [hnext, update_self, hn]
    · simp [Links.unlink, hn]
    · rw [hnext, update_of_ne hw]
    · obtain ⟨b, -, rfl⟩ := mem_map.mp hw
      simp [Links.unlink, hn]
  | cons c l2 =>
    obtain ⟨⟨hn, -⟩, hrest⟩ := hafter
    have hca : c ≠ a := by grind
    have hnext := unlink_next (L := L) (x := some a) (by rw [hn]; simpa using hca)
    rw [map_append, map_cons, segment_append]
    constructor
    · refine hbefore.redirect (nodup_map_some hnodup1) ?_ ?_ (fun w _ hw => ?_) fun w hw => ?_
      · rw [hnext, update_self, hn]
      · simp [Links.unlink, hn]
      · rw [hnext, update_of_ne hw]
      · obtain ⟨b, hb, rfl⟩ := mem_map.mp hw
        have hbc : b ≠ c := hdisjoint b hb c (by simp)
        simp [Links.unlink, hn, hbc]
    · refine hrest.congr (fun w hw => ?_) fun w hw => ?_
      · have hw : w ≠ L.prev (some a) := by grind
        rw [hnext, update_of_ne hw]
      · have hw : w ≠ some c := by grind
        simp [Links.unlink, hn, hw]

end Update

/-! ## Searches -/

/-- `for(b = ...; b != &head; b = step(b)) if(p(b)) return b;`; without result if it takes more than `fuel` rounds. -/
def scan (step : Option α → Option α) (p : α → Bool) : ℕ → Option α → Option (Option α)
  | _, none => some none
  | 0, some _ => none
  | fuel + 1, some b => if p b then some (some b) else scan step p fuel (step (some b))

variable {p : α → Bool} {fuel : ℕ}

theorem Segment.scan (h : L.Segment x (l.map some) none) (hfuel : l.length ≤ fuel) :
    scan L.next p fuel (L.next x) = some (l.find? p) := by
  induction l generalizing x fuel with
  | nil =>
    rw [h.1, Links.scan]
    rfl
  | cons a l ih =>
    obtain ⟨⟨hn, -⟩, hrest⟩ := h
    obtain ⟨fuel, rfl⟩ := Nat.exists_eq_add_of_lt (Nat.lt_of_lt_of_le l.length.succ_pos hfuel)
    rw [hn, Nat.zero_add, Links.scan, find?_cons]
    cases p a with
    | true => rfl
    | false => exact ih hrest (Nat.le_of_succ_le_succ (by simpa using hfuel))

/-- A search along `next` finds what the list has first. -/
theorem Ring.scan_next (h : L.Ring l) (hfuel : l.length ≤ fuel) :
    scan L.next p fuel (L.next none) = some (l.find? p) :=
  h.segment.scan hfuel

/-- A search along `prev` finds what the list has last. -/
theorem Ring.scan_prev (h : L.Ring l) (hfuel : l.length ≤ fuel) :
    scan L.prev p fuel (L.prev none) = some (l.reverse.find? p) :=
  h.flip.scan_next (by rwa [length_reverse])

end Links
