import Mathlib.Computability.Language
import Mathlib.Tactic.Common

/-!
# The matcher of `grep`

A string is the list of its bytes, without the NUL. `matchhere` goes through the pattern from left to right and `matchstar`
through the text, so both end.

A pattern is an optional `^`, a sequence of items, and an optional `$`. The matcher says whether a part of the text is in
the language of the items.
-/

namespace Xv6

open List

namespace Grep

abbrev CARET : UInt8 := 94
abbrev DOLLAR : UInt8 := 36
abbrev DOT : UInt8 := 46
abbrev STAR : UInt8 := 42

/-- The string at `s`, which ends before the first NUL. -/
def cstr (s : List UInt8) : List UInt8 := s.takeWhile (· ≠ 0)

/-! ## The three functions -/

/-- `matchstar(c, re, text)`, where `here` is `matchhere(re, _)`. -/
def matchstar (here : List UInt8 → Bool) (c : UInt8) : List UInt8 → Bool
  | [] => here []
  | t :: text => here (t :: text) || ((t = c || c = DOT) && matchstar here c text)

/-- The last two lines of `matchhere`: one character, and then `here`. -/
def matchone (here : List UInt8 → Bool) (c : UInt8) : List UInt8 → Bool
  | [] => false
  | t :: text => (c = DOT || c = t) && here text

def matchhere : List UInt8 → List UInt8 → Bool
  | [], _ => true
  | [c], text => if c = DOLLAR then text.isEmpty else matchone (matchhere []) c text
  | c :: d :: re, text =>
    -- a `$` that is not the last character is not special
    if d = STAR then matchstar (matchhere re) c text else matchone (matchhere (d :: re)) c text

/-- The loop of `match`, which looks at the empty string too. -/
def matchloop (re : List UInt8) : List UInt8 → Bool
  | [] => matchhere re []
  | t :: text => matchhere re (t :: text) || matchloop re text

/-- `match`. -/
def matchText (re text : List UInt8) : Bool :=
  if (cstr re).head? = some CARET then matchhere (cstr re).tail (cstr text) else matchloop (cstr re) (cstr text)

/-! ## Patterns and their languages -/

/-- An item of a pattern. -/
inductive Item where
  | one (c : UInt8)
  | star (c : UInt8)
deriving DecidableEq

/-- A pattern: whether it starts with `^`, its items, and whether it ends with the anchor `$`. -/
structure Pattern where
  start : Bool
  items : List Item
  final : Bool
deriving DecidableEq

/-- The items, and whether the anchor is behind them. -/
def parseItems : List UInt8 → List Item × Bool
  | [] => ([], false)
  | [c] => if c = DOLLAR then ([], true) else ([.one c], false)
  | c :: d :: re =>
    if d = STAR then (.star c :: (parseItems re).1, (parseItems re).2)
    else (.one c :: (parseItems (d :: re)).1, (parseItems (d :: re)).2)

def Pattern.parse (re : List UInt8) : Pattern :=
  if re.head? = some CARET then ⟨true, (parseItems re.tail).1, (parseItems re.tail).2⟩
  else ⟨false, (parseItems re).1, (parseItems re).2⟩

/-- The characters that `c` stands for. -/
def Accepts (c x : UInt8) : Prop := c = DOT ∨ c = x

def chars (c : UInt8) : Language UInt8 := {w | ∃ x, Accepts c x ∧ w = [x]}

def Item.lang : Item → Language UInt8
  | .one c => chars c
  | .star c => KStar.kstar (chars c)

/-- The language of a sequence of items. -/
def lang (items : List Item) : Language UInt8 := (items.map Item.lang).prod

/-- A part of the text that the pattern allows. -/
def Pattern.Matches (p : Pattern) (text : List UInt8) : Prop :=
  ∃ pre mid post, text = pre ++ mid ++ post ∧ mid ∈ lang p.items ∧ (p.start = true → pre = []) ∧ (p.final = true → post = [])

/-! ## The functions and the language -/

section

variable {here : List UInt8 → Bool} {c : UInt8} {text re w : List UInt8} {items : List Item}

theorem mem_kstar_chars : w ∈ KStar.kstar (chars c) ↔ ∀ x ∈ w, Accepts c x := by
  rw [Language.mem_kstar]
  constructor
  · rintro ⟨ws, rfl, hws⟩ x hx
    obtain ⟨v, hv, hxv⟩ := mem_flatten.mp hx
    obtain ⟨y, hy, rfl⟩ := hws v hv
    rw [mem_singleton.mp hxv]
    exact hy
  · intro h
    refine ⟨w.map fun x => [x], ?_, fun v hv => ?_⟩
    · rw [← flatMap_def, flatMap_singleton']
    · obtain ⟨x, hx, rfl⟩ := mem_map.mp hv
      exact ⟨x, h x hx, rfl⟩

theorem mem_lang_one : w ∈ lang (.one c :: items) ↔ ∃ x v, Accepts c x ∧ w = x :: v ∧ v ∈ lang items := by
  simp only [lang, map_cons, prod_cons, Language.mem_mul]
  constructor
  · rintro ⟨u, ⟨x, hx, rfl⟩, v, hv, rfl⟩
    exact ⟨x, v, hx, rfl, hv⟩
  · rintro ⟨x, v, hx, rfl, hv⟩
    exact ⟨[x], ⟨x, hx, rfl⟩, v, hv, rfl⟩

theorem mem_lang_star : w ∈ lang (.star c :: items) ↔ ∃ u v, (∀ x ∈ u, Accepts c x) ∧ w = u ++ v ∧ v ∈ lang items := by
  simp only [lang, map_cons, prod_cons, Language.mem_mul, Item.lang, mem_kstar_chars]
  constructor
  · rintro ⟨u, hu, v, hv, rfl⟩
    exact ⟨u, v, hu, rfl, hv⟩
  · rintro ⟨u, v, hu, rfl, hv⟩
    exact ⟨u, hu, v, hv, rfl⟩

theorem mem_lang_nil : w ∈ lang [] ↔ w = [] := Language.mem_one w

theorem matchone_iff : matchone here c text = true ↔ ∃ x v, Accepts c x ∧ text = x :: v ∧ here v = true := by
  cases text with
  | nil => simp [matchone]
  | cons t text =>
    simp only [matchone, Bool.and_eq_true, Bool.or_eq_true, decide_eq_true_eq]
    constructor
    · rintro ⟨hc, h⟩
      exact ⟨t, text, hc, rfl, h⟩
    · rintro ⟨x, v, hx, htext, h⟩
      obtain ⟨rfl, rfl⟩ := List.cons.inj htext
      exact ⟨hx, h⟩

/-- A star matches zero or more characters; the shortest part for which the rest matches is found. -/
theorem matchstar_iff : matchstar here c text = true ↔ ∃ u v, (∀ x ∈ u, Accepts c x) ∧ text = u ++ v ∧ here v = true := by
  induction text with
  | nil =>
    constructor
    · intro h
      exact ⟨[], [], nofun, rfl, h⟩
    · rintro ⟨u, v, -, huv, h⟩
      rw [(append_eq_nil_iff.mp huv.symm).2] at h
      exact h
  | cons t text ih =>
    simp only [matchstar, Bool.or_eq_true, Bool.and_eq_true, decide_eq_true_eq, ih]
    constructor
    · rintro (h | ⟨ht, u, v, hu, rfl, h⟩)
      · exact ⟨[], t :: text, nofun, rfl, h⟩
      · refine ⟨t :: u, v, fun x hx => ?_, rfl, h⟩
        rcases mem_cons.mp hx with rfl | hx
        · exact ht.symm.imp_right Eq.symm
        · exact hu x hx
    · rintro ⟨u, v, hu, huv, h⟩
      cases u with
      | nil =>
        rw [nil_append] at huv
        exact .inl (huv ▸ h)
      | cons x u =>
        obtain ⟨rfl, rfl⟩ := List.cons.inj huv
        refine .inr ⟨(hu t mem_cons_self).symm.imp_left Eq.symm, u, v, fun x hx => ?_, rfl, h⟩
        exact hu x (mem_cons_of_mem _ hx)

/-- The items of `p` match at the beginning of the text. -/
def HereMatches (p : List Item × Bool) (text : List UInt8) : Prop :=
  ∃ mid post, text = mid ++ post ∧ mid ∈ lang p.1 ∧ (p.2 = true → post = [])

theorem hereMatches_one {b : Bool} :
    HereMatches (.one c :: items, b) text ↔ ∃ x v, Accepts c x ∧ text = x :: v ∧ HereMatches (items, b) v := by
  constructor
  · rintro ⟨mid, post, rfl, hmid, hpost⟩
    obtain ⟨x, v, hx, rfl, hv⟩ := mem_lang_one.mp hmid
    exact ⟨x, v ++ post, hx, rfl, v, post, rfl, hv, hpost⟩
  · rintro ⟨x, v, hx, rfl, mid, post, rfl, hmid, hpost⟩
    exact ⟨x :: mid, post, rfl, mem_lang_one.mpr ⟨x, mid, hx, rfl, hmid⟩, hpost⟩

theorem hereMatches_star {b : Bool} : HereMatches (.star c :: items, b) text ↔
    ∃ u v, (∀ x ∈ u, Accepts c x) ∧ text = u ++ v ∧ HereMatches (items, b) v := by
  constructor
  · rintro ⟨mid, post, rfl, hmid, hpost⟩
    obtain ⟨u, v, hu, rfl, hv⟩ := mem_lang_star.mp hmid
    exact ⟨u, v ++ post, hu, append_assoc .., v, post, rfl, hv, hpost⟩
  · rintro ⟨u, v, hu, rfl, mid, post, rfl, hmid, hpost⟩
    exact ⟨u ++ mid, post, (append_assoc ..).symm, mem_lang_star.mpr ⟨u, mid, hu, rfl, hmid⟩, hpost⟩

theorem hereMatches_nil : HereMatches ([], false) text :=
  ⟨[], text, rfl, mem_lang_nil.mpr rfl, nofun⟩

theorem hereMatches_end : HereMatches ([], true) text ↔ text = [] := by
  constructor
  · rintro ⟨mid, post, rfl, hmid, hpost⟩
    rw [mem_lang_nil.mp hmid, hpost rfl]
    rfl
  · rintro rfl
    exact ⟨[], [], rfl, mem_lang_nil.mpr rfl, fun _ => rfl⟩

/-- `matchhere` and the items, along the recursion of `matchhere`. -/
theorem matchhere_iff : matchhere re text = true ↔ HereMatches (parseItems re) text := by
  induction re using parseItems.induct generalizing text with
  | case1 => exact iff_of_true rfl hereMatches_nil
  | case2 =>
    rw [parseItems, if_pos rfl, hereMatches_end, matchhere, if_pos rfl, List.isEmpty_iff]
  | case3 c hc =>
    rw [parseItems, if_neg hc, hereMatches_one, matchhere, if_neg hc, matchone_iff]
    simp only [matchhere, hereMatches_nil]
  | case4 c re ih =>
    rw [parseItems, if_pos rfl, hereMatches_star, matchhere, if_pos rfl, matchstar_iff]
    simp only [ih]
  | case5 c d re hd ih =>
    rw [parseItems, if_neg hd, hereMatches_one, matchhere, if_neg hd, matchone_iff]
    simp only [ih]

theorem matchloop_iff : matchloop re text = true ↔ ∃ pre rest, text = pre ++ rest ∧ matchhere re rest = true := by
  induction text with
  | nil =>
    constructor
    · intro h
      exact ⟨[], [], rfl, h⟩
    · rintro ⟨pre, rest, hnil, h⟩
      rw [(append_eq_nil_iff.mp hnil.symm).2] at h
      exact h
  | cons t text ih =>
    rw [matchloop, Bool.or_eq_true, ih]
    constructor
    · rintro (h | ⟨pre, rest, rfl, h⟩)
      · exact ⟨[], t :: text, rfl, h⟩
      · exact ⟨t :: pre, rest, rfl, h⟩
    · rintro ⟨pre, rest, htext, h⟩
      cases pre with
      | nil =>
        rw [nil_append] at htext
        exact .inl (htext ▸ h)
      | cons x pre => exact .inr ⟨pre, rest, (List.cons.inj htext).2, h⟩

end

/-- `match` returns 1 for the texts that have a part which the pattern allows. -/
theorem matchText_iff (re text : List UInt8) : matchText re text = true ↔ (Pattern.parse (cstr re)).Matches (cstr text) := by
  by_cases hcaret : (cstr re).head? = some CARET
  · rw [matchText, if_pos hcaret, matchhere_iff, Pattern.parse, if_pos hcaret]
    constructor
    · rintro ⟨mid, post, htext, hmid, hpost⟩
      exact ⟨[], mid, post, htext, hmid, fun _ => rfl, hpost⟩
    · rintro ⟨pre, mid, post, htext, hmid, hpre, hpost⟩
      rw [hpre rfl, nil_append] at htext
      exact ⟨mid, post, htext, hmid, hpost⟩
  · rw [matchText, if_neg hcaret, matchloop_iff, Pattern.parse, if_neg hcaret]
    simp only [matchhere_iff]
    constructor
    · rintro ⟨pre, rest, htext, mid, post, rfl, hmid, hpost⟩
      exact ⟨pre, mid, post, htext.trans (append_assoc ..).symm, hmid, nofun, hpost⟩
    · rintro ⟨pre, mid, post, htext, hmid, -, hpost⟩
      exact ⟨pre, mid ++ post, htext.trans (append_assoc ..), mid, post, rfl, hmid, hpost⟩

-- `a*$` and `**b`
example : Pattern.parse [97, 42, 36] = ⟨false, [.star 97], true⟩ := by decide
example : Pattern.parse [42, 42, 98] = ⟨false, [.star 42, .one 98], false⟩ := by decide

end Grep

end Xv6
