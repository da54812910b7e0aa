import Scry2.Lib.Maps
import Mathlib.Data.List.Dedup
import Mathlib.Data.List.Perm.Basic

/-!
# Folds that do not depend on the order

A fold over steps that may be swapped depends on the list up to permutation. If a step may also be
repeated, it depends on the elements alone.
-/

open Std (ExtTreeMap)

namespace Scry2.Lib

variable {α σ : Type*}

/-- The steps of `l` may be swapped and repeated. -/
structure Idle (f : σ → α → σ) (l : List α) : Prop where
  swap : ∀ x ∈ l, ∀ y ∈ l, ∀ s, f (f s x) y = f (f s y) x
  again : ∀ x ∈ l, ∀ s, f (f s x) x = f s x

theorem Idle.subset {f : σ → α → σ} {l m : List α} (h : Idle f l) (hsub : m ⊆ l) : Idle f m :=
  ⟨fun x hx y hy => h.swap x (hsub hx) y (hsub hy), fun x hx => h.again x (hsub hx)⟩

/-- A step that comes later need not come first. -/
theorem Idle.absorb {f : σ → α → σ} {l : List α} (h : Idle f l) {a : α} (ha : a ∈ l) (s : σ) :
    l.foldl f (f s a) = l.foldl f s := by
  classical
  have hperm : l.Perm (a :: l.erase a) := List.perm_cons_erase ha
  rw [hperm.foldl_eq' h.swap, hperm.foldl_eq' h.swap, List.foldl_cons, List.foldl_cons, h.again a ha]

theorem Idle.foldl_dedup [DecidableEq α] {f : σ → α → σ} {l : List α} (h : Idle f l) (s : σ) :
    l.dedup.foldl f s = l.foldl f s := by
  induction l generalizing s with
  | nil => rfl
  | cons a l ih =>
    have htail : Idle f l := h.subset (List.subset_cons_self a l)
    rw [List.foldl_cons]
    by_cases ha : a ∈ l
    · rw [List.dedup_cons_of_mem ha, ih htail, htail.absorb ha]
    · rw [List.dedup_cons_of_notMem ha, List.foldl_cons, ih htail]

/-- Only the elements matter. -/
theorem Idle.foldl_eq {f : σ → α → σ} {l m : List α} (h : Idle f l) (hmem : ∀ x, x ∈ l ↔ x ∈ m) (s : σ) :
    l.foldl f s = m.foldl f s := by
  classical
  have hm : Idle f m := h.subset fun x hx => (hmem x).mpr hx
  have hperm : l.dedup.Perm m.dedup :=
    (List.perm_ext_iff_of_nodup (List.nodup_dedup l) (List.nodup_dedup m)).mpr fun x => by
      rw [List.mem_dedup, List.mem_dedup, hmem]
  rw [← h.foldl_dedup, ← hm.foldl_dedup]
  exact hperm.foldl_eq' (h.subset (List.dedup_subset l)).swap s

/-! ## Keyed updates -/

variable {κ β : Type*} [LinearOrder κ]

theorem getElem?_foldl_last (l : List (κ × β)) (m : ExtTreeMap κ β) (k : κ) :
    (l.foldl (fun m e => m.insert e.1 e.2) m)[k]? = (l.reverse.lookup k).or m[k]? := by
  induction l using List.reverseRecOn with
  | nil => rfl
  | append_singleton l x ih =>
    rw [List.foldl_append, List.foldl_cons, List.foldl_nil, getElem?_insert_key, ih, List.reverse_append,
      List.reverse_singleton, List.singleton_append, lookup_cons_eq]
    split <;> rfl

/-- Updates of one key may be swapped if their steps may be. -/
theorem alter_swap (m : ExtTreeMap κ β) {k j : κ} {f g : Option β → Option β}
    (h : k = j → ∀ o, g (f o) = f (g o)) : (m.alter k f).alter j g = (m.alter j g).alter k f := by
  refine ExtTreeMap.ext_getElem? fun i => ?_
  simp only [getElem?_alter_key]
  by_cases hkj : k = j
  · subst hkj
    by_cases hi : k = i
    · rw [if_pos hi, if_pos rfl, if_pos hi, if_pos rfl, h rfl]
    · simp only [if_neg hi]
  · by_cases hk : k = i
    · subst hk
      simp only [if_neg hkj, if_neg (Ne.symm hkj), if_pos]
    · simp only [if_neg hkj, if_neg (Ne.symm hkj), if_neg hk]

theorem alter_again (m : ExtTreeMap κ β) (k : κ) {f : Option β → Option β} (h : ∀ o, f (f o) = f o) :
    (m.alter k f).alter k f = m.alter k f := by
  refine ExtTreeMap.ext_getElem? fun i => ?_
  simp only [getElem?_alter_key, if_true]
  split
  · exact h _
  · rfl

/-- Rows that agree on what each key holds. -/
def Functional (l : List (κ × β)) : Prop := ∀ x ∈ l, ∀ y ∈ l, x.1 = y.1 → x.2 = y.2

theorem Functional.idle {l : List (κ × β)} (h : Functional l) :
    Idle (fun (m : ExtTreeMap κ β) x => m.insert x.1 x.2) l := by
  refine ⟨fun x hx y hy m => ExtTreeMap.ext_getElem? fun i => ?_, fun x _ m => ExtTreeMap.ext_getElem? fun i => ?_⟩
  · simp only [getElem?_insert_key]
    by_cases hxi : x.1 = i
    · by_cases hyi : y.1 = i
      · simp only [hxi, hyi, if_true, h x hx y hy (hxi.trans hyi.symm)]
      · simp only [hxi, hyi, if_true, if_false]
    · simp only [hxi, if_false]
  · simp only [getElem?_insert_key]
    split <;> rfl

/-- The same if the first value of a key stays. -/
theorem Functional.idle_first {l : List (κ × β)} (h : Functional l) :
    Idle (fun (m : ExtTreeMap κ β) x => m.alter x.1 fun old => some (old.getD x.2)) l := by
  refine ⟨fun x hx y hy m => alter_swap m fun hkey o => ?_, fun x _ m => alter_again m x.1 fun o => ?_⟩
  · rw [h x hx y hy hkey]
  · cases o <;> rfl

end Scry2.Lib
