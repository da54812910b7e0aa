import Scry2.Lib.Distinct
import Scry2.Lib.Sorted
import Mathlib.Algebra.BigOperators.Group.List.Basic

/-!
# Products in which a factor counts once

A left regular band: what has been multiplied in before changes nothing when it comes again. A product
is then decided by its factors in the order in which they come first.
-/

namespace Scry2.Lib

class LeftRegularBand (M : Type*) [Monoid M] : Prop where
  mul_mul_left (a b : M) : a * b * a = a * b

/-- `b` is in `a` already. -/
def AbsorbsRight {M : Type*} [Mul M] (a b : M) : Prop := a * b = a

variable {M : Type*} [Monoid M]

theorem AbsorbsRight.mul_left {a b : M} (h : AbsorbsRight a b) (c : M) : AbsorbsRight (c * a) b := by
  unfold AbsorbsRight at h ⊢
  rw [mul_assoc, h]

theorem AbsorbsRight.mul {a b c : M} (hb : AbsorbsRight a b) (hc : AbsorbsRight a c) : AbsorbsRight a (b * c) := by
  unfold AbsorbsRight at hb hc ⊢
  rw [← mul_assoc, hb, hc]

theorem absorbs_one (a : M) : AbsorbsRight a 1 := mul_one a

/-- All factors, all of the product. -/
theorem absorbs_prod {a : M} {l : List M} (h : ∀ b ∈ l, AbsorbsRight a b) : AbsorbsRight a l.prod := by
  induction l with
  | nil => exact absorbs_one a
  | cons b l ih =>
    rw [List.prod_cons]
    exact (h b List.mem_cons_self).mul (ih fun c hc => h c (List.mem_cons_of_mem b hc))

section

variable [LeftRegularBand M]

theorem absorbs_self (a : M) : AbsorbsRight a a := by
  have h := LeftRegularBand.mul_mul_left a 1
  rwa [mul_one] at h

theorem AbsorbsRight.mul_right {a b : M} (h : AbsorbsRight a b) (c : M) : AbsorbsRight (a * c) b := by
  unfold AbsorbsRight at h ⊢
  calc a * c * b = a * b * c * b := by rw [h]
    _ = a * (b * c * b) := by simp only [mul_assoc]
    _ = a * (b * c) := by rw [LeftRegularBand.mul_mul_left]
    _ = a * c := by rw [← mul_assoc, h]

theorem absorbs_prod_of_mem {l : List M} {b : M} (h : b ∈ l) : AbsorbsRight l.prod b := by
  induction l with
  | nil => cases h
  | cons a l ih =>
    rw [List.prod_cons]
    rcases List.mem_cons.mp h with rfl | h
    · exact (absorbs_self b).mul_right l.prod
    · exact (ih h).mul_left a

/-- Two products of the same factors absorb each other. -/
theorem absorbs_prod_prod {l m : List M} (h : m ⊆ l) : AbsorbsRight l.prod m.prod :=
  absorbs_prod fun _ hb => absorbs_prod_of_mem (h hb)

/-- Later occurrences of a factor may be left out. -/
theorem mul_prod_map_filter {α : Type*} [DecidableEq α] (φ : α → M) {a : M} {b : α} (h : AbsorbsRight a (φ b))
    (l : List α) : a * ((l.filter fun c => !c == b).map φ).prod = a * (l.map φ).prod := by
  induction l generalizing a with
  | nil => rfl
  | cons c l ih =>
    rw [List.map_cons, List.prod_cons, ← mul_assoc]
    by_cases hc : c = b
    · subst hc
      rw [List.filter_cons_of_neg (by simp), ih h, h]
    · rw [List.filter_cons_of_pos (by simpa using hc), List.map_cons, List.prod_cons, ← mul_assoc,
        ih (h.mul_right (φ c))]

/-- A product is that of the distinct factors in the order of their first occurrence. -/
theorem prod_map_distinct {α : Type*} [DecidableEq α] (φ : α → M) (l : List α) :
    ((distinct l).map φ).prod = (l.map φ).prod := by
  unfold distinct
  induction h : l.length using Nat.strongRecOn generalizing l with
  | _ n ih =>
    cases l with
    | nil => rfl
    | cons a l =>
      have hlen := List.length_filter_le (fun b => !b == a) l
      rw [List.length_cons] at h
      rw [List.eraseDups_cons, List.map_cons, List.prod_cons, List.map_cons, List.prod_cons,
        ih _ (by omega) _ rfl, mul_prod_map_filter φ (absorbs_self (φ a))]

end

/-! ## Keeping the better of two values -/

theorem better_better_left {α β : Type*} [LinearOrder β] (rank : α → β) (a b : α) :
    better rank (better rank a b) a = better rank a b := by
  unfold better
  by_cases h : rank a < rank b
  · rw [if_pos h, if_neg h.asymm]
  · rw [if_neg h, if_neg (lt_irrefl _)]

theorem combine_combine_left {α : Type*} {op : α → α → α} (hself : ∀ a, op a a = a)
    (h : ∀ a b, op (op a b) a = op a b) (a b : Option α) :
    combine op (combine op a b) a = combine op a b := by
  cases a with
  | none => exact combine_none_right op b
  | some a =>
    cases b with
    | none => rw [combine_none_right, combine_some, hself]
    | some b => rw [combine_some, combine_some, h]

end Scry2.Lib
