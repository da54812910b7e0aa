import Mathlib.Data.List.Dedup
import Mathlib.Data.List.Infix
import Mathlib.Order.Lattice
import Mathlib.Data.List.Nodup

/-!
# The first distinct elements of a list

`l.eraseDups.take k` is what a scan keeps that skips what it has seen and stops at `k`. A list that
was cut piece by piece at `k` has the same first `k` elements, but not the same first `k` distinct
ones.
-/

namespace Scry2.Lib

/-- The order in which a `HashSet` is walked. -/
class SetOrder where
  elems : List String → List String
  nodup : ∀ l, (elems l).Nodup
  mem : ∀ l s, s ∈ elems l ↔ s ∈ l

@[reducible] def dedupOrder : SetOrder where
  elems := List.dedup
  nodup := List.nodup_dedup
  mem _ _ := List.mem_dedup

variable {α : Type*}

/-- Cutting every piece at `k` leaves the first `k` elements in place. -/
theorem take_flatten_map_take (k : Nat) (ls : List (List α)) :
    ((ls.map (List.take k)).flatten).take k = ls.flatten.take k := by
  induction ls with
  | nil => rfl
  | cons l ls ih =>
    rw [List.map_cons, List.flatten_cons, List.flatten_cons, List.take_append, List.take_append,
      List.take_take, min_self]
    congr 1
    have hk : k - l.length ≤ k := Nat.sub_le _ _
    rcases Nat.le_total l.length k with hl | hl
    · rw [List.take_of_length_le hl, ← min_eq_left hk, ← List.take_take, ih, List.take_take]
    · have h0 : k - l.length = 0 := Nat.sub_eq_zero_of_le hl
      have h1 : k - (l.take k).length = 0 := by rw [List.length_take, min_eq_left hl, Nat.sub_self]
      rw [h0, h1, List.take_zero, List.take_zero]

theorem flatten_map_take_subset (k : Nat) (ls : List (List α)) :
    (ls.map (List.take k)).flatten ⊆ ls.flatten := by
  intro a ha
  simp only [List.mem_flatten, List.mem_map] at ha ⊢
  obtain ⟨_, ⟨l, hl, rfl⟩, ha⟩ := ha
  exact ⟨l, hl, List.mem_of_mem_take ha⟩

variable [DecidableEq α] {k : Nat} {l m : List α}

theorem removeAll_eq_nil_iff : l.removeAll m = [] ↔ l ⊆ m := by
  simp only [List.removeAll, List.filter_eq_nil_iff, Bool.not_eq_true', List.elem_eq_mem]
  simp [List.subset_def]

theorem eraseDups_eq_nil_iff : l.eraseDups = [] ↔ l = [] := by
  cases l with
  | nil => simp
  | cons a l => simp [List.eraseDups_cons]

/-- What comes after the first `k` elements adds nothing when it only repeats them. -/
theorem eraseDups_eq_of_drop_subset (h : l.drop k ⊆ l.take k) : l.eraseDups = (l.take k).eraseDups := by
  conv_lhs => rw [← List.take_append_drop k l]
  rw [List.eraseDups_append, removeAll_eq_nil_iff.mpr h, List.eraseDups_nil, List.append_nil]

theorem eraseDups_of_nodup (h : l.Nodup) : l.eraseDups = l := by
  induction l with
  | nil => rfl
  | cons a l ih =>
    obtain ⟨ha, hl⟩ := List.nodup_cons.mp h
    have hfilter : l.filter (fun b => !b == a) = l := by
      rw [List.filter_eq_self]
      intro b hb
      simpa using fun e : b = a => ha (e ▸ hb)
    rw [List.eraseDups_cons, hfilter, ih hl]

theorem eraseDups_length_le (l : List α) : l.eraseDups.length ≤ l.length := by
  induction h : l.length using Nat.strongRecOn generalizing l with
  | _ n ih =>
    cases l with
    | nil => simp
    | cons a l =>
      rw [List.eraseDups_cons, List.length_cons]
      rw [List.length_cons] at h
      have hf := List.length_filter_le (fun b => !b == a) l
      have := ih _ (by omega) (l.filter fun b => !b == a) rfl
      omega

theorem nodup_of_eraseDups_length (h : l.eraseDups.length = l.length) : l.Nodup := by
  induction l with
  | nil => exact List.nodup_nil
  | cons a l ih =>
    rw [List.eraseDups_cons, List.length_cons, List.length_cons, Nat.add_right_cancel_iff] at h
    have hle := eraseDups_length_le (l.filter fun b => !b == a)
    have hf : (l.filter fun b => !b == a).length = l.length :=
      le_antisymm (List.length_filter_le _ _) (h ▸ hle)
    have hself := List.filter_eq_self.mpr (List.length_filter_eq_length_iff.mp hf)
    rw [hself] at h
    refine List.nodup_cons.mpr ⟨fun ha => ?_, ih h⟩
    simpa using List.length_filter_eq_length_iff.mp hf a ha

theorem eraseDups_take_of_nodup (h : (l.take k).Nodup) (hk : k ≤ l.length) :
    l.eraseDups.take k = l.take k := by
  conv_lhs => rw [← List.take_append_drop k l]
  have hlen : (l.take k).length = k := by rw [List.length_take, min_eq_left hk]
  rw [List.eraseDups_append, eraseDups_of_nodup h, List.take_append, hlen, Nat.sub_self, List.take_zero,
    List.append_nil, List.take_of_length_le hlen.le]

/-- The first `k` elements are distinct, or nothing after them is new. -/
def FirstDecide (k : Nat) (l : List α) : Prop := (l.take k).Nodup ∨ l.drop k ⊆ l.take k

/-- Then a list that starts the same way and adds nothing has the same first distinct elements. -/
theorem FirstDecide.eraseDups_take_eq (h : FirstDecide k l) (htake : m.take k = l.take k) (hsub : m ⊆ l) :
    m.eraseDups.take k = l.eraseDups.take k := by
  have hdrop : l.drop k ⊆ l.take k → m.eraseDups.take k = l.eraseDups.take k := by
    intro hl
    have hm : m.drop k ⊆ m.take k := by
      intro a ha
      rw [htake]
      have hal := hsub (List.mem_of_mem_drop ha)
      rw [← List.take_append_drop k l, List.mem_append] at hal
      exact hal.elim id fun h => hl h
    rw [eraseDups_eq_of_drop_subset hm, htake, ← eraseDups_eq_of_drop_subset hl]
  rcases h with hn | hl
  · by_cases hk : k ≤ l.length
    · have hkm : k ≤ m.length := by
        have := congrArg List.length htake
        rw [List.length_take, List.length_take, min_eq_left hk] at this
        omega
      rw [eraseDups_take_of_nodup (htake ▸ hn) hkm, htake, eraseDups_take_of_nodup hn hk]
    · refine hdrop ?_
      rw [List.drop_of_length_le (by omega)]
      exact List.nil_subset _
  · exact hdrop hl

/-- The first `k` elements alone give the first `k` distinct ones in no other case. -/
theorem firstDecide_iff : FirstDecide k l ↔ (l.take k).eraseDups.take k = l.eraseDups.take k := by
  refine ⟨fun h => h.eraseDups_take_eq (by rw [List.take_take, min_self]) (List.take_subset k l), fun h => ?_⟩
  have hle := eraseDups_length_le (l.take k)
  have hlk : (l.take k).length ≤ k := List.length_take_le k l
  rcases hle.lt_or_eq with hlt | heq
  · right
    rw [← List.take_append_drop k l, List.eraseDups_append, List.take_append_drop,
      List.take_append, List.take_of_length_le (by omega)] at h
    have hnil := List.self_eq_append_right.mp h
    rw [List.take_eq_nil_iff] at hnil
    rcases hnil with h0 | hnil
    · omega
    · exact removeAll_eq_nil_iff.mp (eraseDups_eq_nil_iff.mp hnil)
  · exact .inl (nodup_of_eraseDups_length heq)

/-! ## A scan that keeps what is new -/

/-- Keep each new element and stop, with `true`, when `k` are kept. At least one is kept. -/
def keepUpTo (k : Nat) : List α → List α → List α × Bool
  | kept, [] => (kept, false)
  | kept, a :: l =>
    if a ∈ kept then keepUpTo k kept l
    else if k ≤ kept.length + 1 then (kept ++ [a], true)
    else keepUpTo k (kept ++ [a]) l

theorem keepUpTo_append (k : Nat) (kept l m : List α) :
    keepUpTo k kept (l ++ m) =
      if (keepUpTo k kept l).2 then keepUpTo k kept l else keepUpTo k (keepUpTo k kept l).1 m := by
  induction l generalizing kept with
  | nil => rfl
  | cons a l ih =>
    simp only [List.cons_append, keepUpTo]
    by_cases ha : a ∈ kept
    · simp only [ha, if_true]
      exact ih kept
    · simp only [ha, if_false]
      by_cases hk : k ≤ kept.length + 1
      · simp only [hk, if_true]
      · simp only [hk, if_false]
        exact ih _

/-- The distinct elements of a list, in the order of their first occurrence. -/
def distinct (l : List α) : List α := l.eraseDups

@[simp] theorem mem_distinct {a : α} : a ∈ distinct l ↔ a ∈ l := List.mem_eraseDups

/-- The first distinct elements, and whether there were enough of them. -/
theorem keepUpTo_spec {kept : List α} (hkept : kept.Nodup) (hlen : kept.length < max k 1) (l : List α) :
    (keepUpTo k kept l).1 = (distinct (kept ++ l)).take (max k 1) ∧
      ((keepUpTo k kept l).2 = true ↔ max k 1 ≤ (distinct (kept ++ l)).length) := by
  unfold distinct
  induction l generalizing kept with
  | nil =>
    rw [keepUpTo, List.append_nil, eraseDups_of_nodup hkept, List.take_of_length_le hlen.le]
    simp only [Bool.false_eq_true, false_iff, true_and]
    omega
  | cons a l ih =>
    rw [keepUpTo]
    by_cases ha : a ∈ kept
    · have hsame : (kept ++ a :: l).eraseDups = (kept ++ l).eraseDups := by
        have hcons : (a :: l).removeAll kept = l.removeAll kept := by simp [List.removeAll, ha]
        rw [List.eraseDups_append, List.eraseDups_append, hcons]
      rw [if_pos ha, hsame]
      exact ih hkept hlen
    · have hnodup : (kept ++ [a]).Nodup := by
        rw [List.nodup_append_comm]
        exact List.nodup_cons.mpr ⟨ha, hkept⟩
      have hassoc : kept ++ a :: l = kept ++ [a] ++ l := by simp
      rw [if_neg ha, hassoc]
      split_ifs with hk
      · have hmax : max k 1 = (kept ++ [a]).length := by
          rw [List.length_append, List.length_singleton]
          omega
        rw [List.eraseDups_append, eraseDups_of_nodup hnodup, hmax, List.take_left, List.length_append]
        simp
      · refine ih hnodup ?_
        rw [List.length_append, List.length_singleton]
        omega

end Scry2.Lib
