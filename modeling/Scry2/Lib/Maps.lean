import Scry2.Lib.Sorted
import Std.Data.ExtTreeMap
import Mathlib.Order.Compare

/-!
# Finite maps as tables

A hash map is modelled by an extensional map: its entries have no order of their own, and
draining it and sorting by key is `toList`.
-/

open Std (ExtTreeMap)

namespace Scry2.Lib

variable {κ β : Type*} [LinearOrder κ]

/-- Draining a map and sorting by key tabulates it. -/
theorem tabulates_toList (t : ExtTreeMap κ β) : Tabulates t.toList fun k => t[k]? := by
  refine ⟨?_, fun k v => ExtTreeMap.mem_toList_iff_getElem?_eq_some⟩
  exact t.ordered_keys_toList.imp fun h => compare_lt_iff_lt.mp h

theorem getElem?_alter_key (m : ExtTreeMap κ β) (k j : κ) (f : Option β → Option β) :
    (m.alter k f)[j]? = if k = j then f m[k]? else m[j]? := by
  rw [ExtTreeMap.getElem?_alter]
  simp only [Std.compare_eq_iff_eq]

theorem getElem?_insert_key (m : ExtTreeMap κ β) (k j : κ) (v : β) :
    (m.insert k v)[j]? = if k = j then some v else m[j]? := by
  rw [ExtTreeMap.getElem?_insert]
  simp only [Std.compare_eq_iff_eq]

theorem getElem?_erase_key (m : ExtTreeMap κ β) (k j : κ) : (m.erase k)[j]? = if k = j then none else m[j]? := by
  rw [ExtTreeMap.getElem?_erase]
  simp only [Std.compare_eq_iff_eq]

/-- Updating one key after another, for a list of distinct keys. -/
theorem getElem?_foldl_alter (step : β → Option β → Option β) (l : List (κ × β))
    (hl : l.Pairwise (·.1 ≠ ·.1)) (s : ExtTreeMap κ β) (k : κ) :
    (l.foldl (fun m e => m.alter e.1 (step e.2)) s)[k]? =
      match l.lookup k with
      | some v => step v s[k]?
      | none => s[k]? := by
  induction l generalizing s with
  | nil => rfl
  | cons x l ih =>
    rw [List.foldl_cons, ih hl.tail, lookup_cons_eq]
    by_cases hx : x.1 = k
    · subst hx
      have hn : l.lookup x.1 = none :=
        lookup_eq_none_of_ne fun y hy => List.rel_of_pairwise_cons hl hy
      simp [hn]
    · simp only [if_neg hx]
      cases l.lookup k <;> simp [getElem?_alter_key, hx]

/-- Inserting rows one after another, for a list of distinct keys. -/
theorem getElem?_foldl_insert (l : List (κ × β)) (hl : l.Pairwise (·.1 ≠ ·.1)) (s : ExtTreeMap κ β)
    (k : κ) : (l.foldl (fun m e => m.insert e.1 e.2) s)[k]? = (l.lookup k).or s[k]? := by
  induction l generalizing s with
  | nil => rfl
  | cons x l ih =>
    rw [List.foldl_cons, ih hl.tail, lookup_cons_eq]
    by_cases hx : x.1 = k
    · subst hx
      have hn : l.lookup x.1 = none :=
        lookup_eq_none_of_ne fun y hy => List.rel_of_pairwise_cons hl hy
      simp [hn]
    · simp [if_neg hx, getElem?_insert_key]

theorem getElem?_foldl_map (step : β → Option β → Option β) (s t : ExtTreeMap κ β) (k : κ) :
    (t.foldl (fun m k v => m.alter k (step v)) s)[k]? =
      match t[k]? with
      | some v => step v s[k]?
      | none => s[k]? := by
  have ht := tabulates_toList t
  rw [ExtTreeMap.foldl_eq_foldl_toList, getElem?_foldl_alter step t.toList (ht.1.imp ne_of_lt),
    ht.lookup_eq]

end Scry2.Lib
