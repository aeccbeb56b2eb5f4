import Mathlib.Tactic
import Xv6.Lib.Hoare

/-!
# `malloc` and `free` of the user library

The allocator of `umalloc.c`. An address is a word of 32 bits, and the memory has a header at each address at which the
allocator puts one. The heap may be in any state, so that the searches need not end: they have fuel.
-/

namespace Xv6

open Function

namespace Umalloc

open Code

/-! ## The heap -/

/-- `union header`. -/
structure Header where
  ptr : BitVec 32
  size : BitVec 32
deriving DecidableEq

/-- `sizeof(Header)`. -/
abbrev HEADER : BitVec 32 := 8

structure Heap where
  /-- The address of `base`. -/
  base : BitVec 32
  mem : BitVec 32 → Header
  freep : BitVec 32
  /-- What the calls of `sbrk` return, by their number. -/
  sbrk : ℕ → BitVec 32
  /-- The calls of `sbrk` so far, the last one first: the units that are wanted, and the argument. -/
  calls : List (BitVec 32 × BitVec 32)

/-- The search has run out of fuel. -/
inductive Stop where
  | fuel
deriving DecidableEq

abbrev HeapCode (α : Type) : Type := Code Stop Heap α

/-- `p->s.ptr = q`. -/
def setPtr (p q : BitVec 32) : HeapCode Unit :=
  modify fun h => { h with mem := update h.mem p { h.mem p with ptr := q } }

/-- `p->s.size = n`. -/
def setSize (p n : BitVec 32) : HeapCode Unit :=
  modify fun h => { h with mem := update h.mem p { h.mem p with size := n } }

def setFreep (p : BitVec 32) : HeapCode Unit := modify fun h => { h with freep := p }

/-- `p->s.ptr`. -/
def ptrOf (p : BitVec 32) : HeapCode (BitVec 32) := do return ((← get).mem p).ptr

/-- `p->s.size`. -/
def sizeOf (p : BitVec 32) : HeapCode (BitVec 32) := do return ((← get).mem p).size

/-- The header pointer `p + n`. -/
def plus (p n : BitVec 32) : BitVec 32 := p + n * HEADER

/-! ## `free` -/

/-- The loop of `free`. -/
def freeLoop (bp : BitVec 32) : (fuel : ℕ) → (p : BitVec 32) → HeapCode (BitVec 32)
  | 0, _ => throw .fuel
  | fuel + 1, p => do
    let next ← ptrOf p
    if p < bp ∧ bp < next then return p
    else if next ≤ p ∧ (p < bp ∨ bp < next) then return p
    else freeLoop bp fuel next

def free (fuel : ℕ) (ap : BitVec 32) : HeapCode Unit := do
  let bp := ap - HEADER
  let p ← freeLoop bp fuel (← get).freep
  let next ← ptrOf p
  if plus bp (← sizeOf bp) = next then do
    setSize bp ((← sizeOf bp) + (← sizeOf next))
    setPtr bp (← ptrOf next)
  else setPtr bp next
  if plus p (← sizeOf p) = bp then do
    setSize p ((← sizeOf p) + (← sizeOf bp))
    setPtr p (← ptrOf bp)
  else setPtr p bp
  setFreep p

/-! ## `malloc` -/

/-- `sbrk` for `nu` units. -/
def sbrk (nu bytes : BitVec 32) : HeapCode (BitVec 32) := do
  let h ← get
  modify fun h => { h with calls := (nu, bytes) :: h.calls }
  return h.sbrk h.calls.length

def morecore (fuel : ℕ) (nu : BitVec 32) : HeapCode (BitVec 32) := do
  let nu := if nu < 4096 then 4096 else nu
  let p ← sbrk nu (nu * HEADER)
  if p = -1 then return 0
  else
    setSize p nu
    free fuel (plus p 1)
    return (← get).freep

/-- `nunits` in `malloc`. -/
def nunits (nbytes : BitVec 32) : BitVec 32 := (nbytes + HEADER - 1) / HEADER + 1

/-- The loop of `malloc`. -/
def mallocLoop (n : BitVec 32) : (fuel : ℕ) → (prevp p : BitVec 32) → HeapCode (BitVec 32)
  | 0, _, _ => throw .fuel
  | fuel + 1, prevp, p => do
    let size ← sizeOf p
    if n ≤ size then
      if size = n then
        setPtr prevp (← ptrOf p)
        setFreep prevp
        return plus p 1
      else
        setSize p (size - n)
        let p := plus p (size - n)
        setSize p n
        setFreep prevp
        return plus p 1
    else if p = (← get).freep then
      let p ← morecore fuel n
      if p = 0 then return 0
      else mallocLoop n fuel p (← ptrOf p)
    else mallocLoop n fuel p (← ptrOf p)

def malloc (fuel : ℕ) (nbytes : BitVec 32) : HeapCode (BitVec 32) := do
  let h ← get
  if h.freep = 0 then
    setPtr h.base h.base
    setFreep h.base
    setSize h.base 0
  let prevp := (← get).freep
  mallocLoop (nunits nbytes) fuel prevp (← ptrOf prevp)

/-! ## What is wanted of the sizes -/

/-- The argument of a call of `sbrk` is the number of bytes of the units, and it is not negative as an `int`. -/
def CallExact (c : BitVec 32 × BitVec 32) : Prop := c.2.toNat = c.1.toNat * 8 ∧ 0 ≤ c.2.toInt

/-- In each state of the heap, with any results of `sbrk`, a block that `malloc` returns has `nbytes` bytes behind its header,
and the arguments of `sbrk` are exact. -/
def SizesExact (nbytes : BitVec 32) : Prop :=
  ∀ fuel h, h.calls = [] → Wp (malloc fuel nbytes)
    (fun r h' => (r = 0 ∨ nbytes.toNat + 8 ≤ (h'.mem (r - HEADER)).size.toNat * 8) ∧ ∀ c ∈ h'.calls, CallExact c)
    (fun _ h' => ∀ c ∈ h'.calls, CallExact c) h

/-! ## Small requests -/

/-- The argument of `sbrk` for `n` units. -/
def request (n : BitVec 32) : BitVec 32 × BitVec 32 :=
  let nu := if n < 4096 then 4096 else n
  (nu, nu * HEADER)

section

variable {E : Stop → Heap → Prop} {h : Heap}

variable {Q : BitVec 32 → Heap → Prop} {fuel : ℕ}

variable {p n : BitVec 32}

/-- `free` does not call `sbrk`. -/
theorem wp_freeLoop {bp : BitVec 32} (hQ : ∀ p, Q p h) (hE : E .fuel h) : Wp (freeLoop bp fuel p) Q E h := by
  induction fuel generalizing p with
  | zero => exact hE
  | succ fuel ih =>
    simp only [freeLoop, ptrOf, wp_bind, wp_get, wp_pure]
    split_ifs
    · exact hQ p
    · exact hQ p
    · exact ih

theorem wp_free {Q : Unit → Heap → Prop} {ap : BitVec 32} (hQ : ∀ h', h'.calls = h.calls → Q () h')
    (hE : E .fuel h) : Wp (free fuel ap) Q E h := by
  unfold free
  simp only [wp_bind, wp_get]
  refine wp_freeLoop (fun p => ?_) hE
  simp only [ptrOf, sizeOf, setPtr, setSize, setFreep, wp_bind, wp_get, wp_pure, wp_modify, wp_ite]
  split_ifs <;> exact hQ _ rfl

theorem wp_morecore
    (hQ : ∀ p h', h'.calls = request n :: h.calls → Q p h') (hE : ∀ e h', h'.calls = request n :: h.calls → E e h') :
    Wp (morecore fuel n) Q E h := by
  unfold morecore
  simp only [sbrk, wp_bind, wp_get, wp_modify, wp_pure]
  by_cases hp : h.sbrk h.calls.length = -1
  · rw [if_pos hp]
    exact hQ 0 _ rfl
  · rw [if_neg hp]
    simp only [setSize, wp_bind, wp_modify]
    refine wp_free (fun h' hcalls => ?_) (hE _ _ rfl)
    simp only [wp_get, wp_pure]
    exact hQ _ h' hcalls

theorem plus_one_sub (p : BitVec 32) : plus p 1 - HEADER = p := by
  change p + 1#32 * HEADER - HEADER = p
  rw [BitVec.one_mul, BitVec.add_sub_cancel]

/-- What `malloc` for `n` units does about sizes: the block has `n` units, and `sbrk` is asked for them. -/
structure Sized (n r : BitVec 32) (h : Heap) : Prop where
  size : r = 0 ∨ (h.mem (r - HEADER)).size = n
  calls : ∀ c ∈ h.calls, c = request n

theorem wp_mallocLoop {prevp : BitVec 32} (hcalls : ∀ c ∈ h.calls, c = request n) :
    Wp (mallocLoop n fuel prevp p) (Sized n) (fun _ h' => ∀ c ∈ h'.calls, c = request n) h := by
  induction fuel generalizing prevp p h with
  | zero => exact hcalls
  | succ fuel ih =>
    simp only [mallocLoop, sizeOf, wp_bind, wp_get, wp_pure]
    by_cases hle : n ≤ (h.mem p).size
    · rw [if_pos hle]
      by_cases heq : (h.mem p).size = n
      · rw [if_pos heq]
        simp only [ptrOf, setPtr, setFreep, wp_bind, wp_get, wp_pure, wp_modify]
        refine ⟨.inr ?_, hcalls⟩
        rw [plus_one_sub]
        by_cases hp : p = prevp
        · subst hp
          simp [heq]
        · simp [hp, heq]
      · rw [if_neg heq]
        simp only [setSize, setFreep, wp_bind, wp_pure, wp_modify]
        refine ⟨.inr ?_, hcalls⟩
        rw [plus_one_sub]
        simp
    · rw [if_neg hle, wp_bind, wp_get]
      by_cases hfree : p = h.freep
      · rw [if_pos hfree, wp_bind]
        refine wp_morecore (fun p' h' hcalls' => ?_) fun _ h' hcalls' => ?_
        · have hall : ∀ c ∈ h'.calls, c = request n := by
            rw [hcalls']
            exact List.forall_mem_cons.mpr ⟨rfl, hcalls⟩
          by_cases hp' : p' = 0
          · rw [if_pos hp']
            exact ⟨.inl rfl, hall⟩
          · rw [if_neg hp']
            simp only [ptrOf, wp_bind, wp_get, wp_pure]
            exact ih hall
        · rw [hcalls']
          exact List.forall_mem_cons.mpr ⟨rfl, hcalls⟩
      · rw [if_neg hfree]
        simp only [ptrOf, wp_bind, wp_get, wp_pure]
        exact ih hcalls

theorem wp_malloc {nbytes : BitVec 32} (hcalls : h.calls = []) :
    Wp (malloc fuel nbytes) (Sized (nunits nbytes)) (fun _ h' => ∀ c ∈ h'.calls, c = request (nunits nbytes)) h := by
  have hnone : ∀ c ∈ h.calls, c = request (nunits nbytes) := by
    rw [hcalls]
    exact List.forall_mem_nil _
  unfold malloc
  simp only [wp_bind, wp_get, wp_ite, setPtr, setFreep, setSize, wp_modify, wp_pure, ptrOf]
  split_ifs
  · exact wp_mallocLoop hnone
  · exact wp_mallocLoop hnone

end

/-! ## The arithmetic -/

variable {nbytes : BitVec 32}

theorem toNat_nunits (h : nbytes.toNat ≤ 2 ^ 32 - 8) : (nunits nbytes).toNat = (nbytes.toNat + 7) / 8 + 1 := by
  have hsub : nbytes + HEADER - 1 = nbytes + 7#32 := by bv_omega
  rw [nunits, hsub, BitVec.toNat_add, BitVec.toNat_udiv, BitVec.toNat_add]
  simp only [BitVec.toNat_ofNat, HEADER, BitVec.ofNat_eq_ofNat, Nat.reducePow, Nat.reduceMod]
  omega

/-- The sum wraps: one unit is enough for any number of bytes. -/
theorem nunits_wraps (h : 2 ^ 32 - 8 < nbytes.toNat) : nunits nbytes = 1 := by
  have hsub : nbytes + HEADER - 1 = nbytes + 7#32 := by bv_omega
  have hlt := nbytes.isLt
  apply BitVec.eq_of_toNat_eq
  rw [nunits, hsub, BitVec.toNat_add, BitVec.toNat_udiv, BitVec.toNat_add]
  simp only [BitVec.toNat_ofNat, HEADER, BitVec.ofNat_eq_ofNat, Nat.reducePow, Nat.reduceMod]
  omega

/-- The argument of `sbrk` is exact for less than 2^28 units. -/
theorem callExact_request {n : BitVec 32} : CallExact (request n) ↔ n.toNat < 2 ^ 28 := by
  have hlt : n < 4096 ↔ n.toNat < 4096 := Iff.rfl
  have hn := n.isLt
  unfold CallExact request
  by_cases hsmall : n < 4096
  · simp only [if_pos hsmall]
    rw [hlt] at hsmall
    exact iff_of_true (by decide) (by omega)
  · simp only [if_neg hsmall, BitVec.toInt_eq_toNat_cond, BitVec.toNat_mul]
    rw [hlt] at hsmall
    simp only [HEADER, BitVec.toNat_ofNat, BitVec.ofNat_eq_ofNat]
    split_ifs <;> omega

theorem sizesExact_of_le (h : nbytes.toNat ≤ 2 ^ 31 - 16) : SizesExact nbytes := by
  have hunits := toNat_nunits (show nbytes.toNat ≤ 2 ^ 32 - 8 by omega)
  have hexact : CallExact (request (nunits nbytes)) := by
    rw [callExact_request, hunits]
    omega
  intro fuel heap hcalls
  refine wp_mono (wp_malloc hcalls) (fun r h' hsized => ⟨?_, fun c hc => ?_⟩) fun _ h' hall c hc => ?_
  · refine hsized.size.imp_right fun hsize => ?_
    rw [hsize, hunits]
    omega
  · rw [hsized.calls c hc]
    exact hexact
  · rw [hall c hc]
    exact hexact

/-! ## Large requests -/

/-- The heap before the first call, when there is no memory to be had. -/
def emptyHeap : Heap := ⟨4, fun _ => ⟨0, 0⟩, 0, fun _ => -1, []⟩

/-- A heap with one free block, of one unit. -/
def unitHeap : Heap := ⟨4, fun _ => ⟨16, 1⟩, 16, fun _ => -1, []⟩

/-- In the empty heap, `sbrk` is called. -/
theorem wp_malloc_emptyHeap {Q : BitVec 32 → Heap → Prop} {E : Stop → Heap → Prop}
    (hpos : 0 < (nunits nbytes).toNat) (h : Wp (malloc 1 nbytes) Q E emptyHeap) :
    ∃ h', Q 0 h' ∧ h'.calls = [request (nunits nbytes)] := by
  have hnot : ¬ nunits nbytes ≤ 0 := by
    intro hle
    have hle' : (nunits nbytes).toNat ≤ 0 := hle
    omega
  unfold malloc at h
  simp only [wp_bind, wp_get, wp_ite, setPtr, setFreep, setSize, wp_modify, wp_pure, ptrOf, mallocLoop, sizeOf, morecore, sbrk,
    emptyHeap, if_true, update_self, hnot, if_false] at h
  exact ⟨_, h, rfl⟩

theorem not_sizesExact (h : 2 ^ 31 - 16 < nbytes.toNat) : ¬ SizesExact nbytes := by
  intro hexact
  by_cases hwrap : nbytes.toNat ≤ 2 ^ 32 - 8
  · have hunits := toNat_nunits hwrap
    obtain ⟨h', ⟨-, hall⟩, hcalls⟩ := wp_malloc_emptyHeap (by omega) (hexact 1 emptyHeap rfl)
    have hcall := hall (request (nunits nbytes)) (by rw [hcalls]; exact List.mem_singleton_self _)
    rw [callExact_request, hunits] at hcall
    omega
  · have hunits := nunits_wraps (Nat.lt_of_not_le hwrap)
    have hrun := hexact 1 unitHeap rfl
    unfold malloc at hrun
    rw [hunits] at hrun
    obtain ⟨hr | hsize, -⟩ := hrun
    · exact absurd hr (by decide)
    · have hone : nbytes.toNat + 8 ≤ 1 * 8 := hsize
      omega

/-- The sizes are exact for requests of up to 2^31 - 16 bytes, and for no others. -/
theorem malloc_sizes_iff (nbytes : BitVec 32) : SizesExact nbytes ↔ nbytes.toNat ≤ 2 ^ 31 - 16 :=
  ⟨fun h => Nat.le_of_not_lt fun hlt => not_sizesExact hlt h, sizesExact_of_le⟩

/-- A request for 2^32 - 1 bytes can be answered with a block of one unit, and one for 2^31 bytes asks `sbrk` for a negative
number of bytes. -/
theorem malloc_sizes_wrap : ¬ SizesExact 0xFFFFFFFF ∧ ¬ SizesExact 0x80000000 ∧ nunits 0xFFFFFFFF = 1 ∧
    (request (nunits 0x80000000)).2.toInt < 0 :=
  ⟨not_sizesExact (by decide), not_sizesExact (by decide), by decide, by decide⟩

end Umalloc

end Xv6
