import Scry2.Lib.Distinct

/-!
# Elements grouped by a key

A loop that puts each element into the group of its key, and opens a group at the first element of a
key, ends with one group for each key, in the order in which the keys first occur.
-/

namespace Scry2.Lib

variable {α κ : Type*} [DecidableEq κ]

/-- The elements of each key, the keys in the order of their first occurrence. -/
def groups (key : α → κ) (l : List α) : List (κ × List α) :=
  (l.map key).eraseDups.map fun k => (k, l.filter fun a => key a = k)

/-- Put an element into the group of its key. -/
def insertGroup (k : κ) (a : α) : List (κ × List α) → List (κ × List α)
  | [] => [(k, [a])]
  | (k', as) :: rest => if k' = k then (k', as ++ [a]) :: rest else (k', as) :: insertGroup k a rest

theorem eraseDups_concat (l : List κ) (k : κ) :
    (l ++ [k]).eraseDups = if k ∈ l then l.eraseDups else l.eraseDups ++ [k] := by
  rw [List.eraseDups_append]
  split_ifs with hk
  · rw [removeAll_eq_nil_iff.mpr fun a ha => List.mem_singleton.mp ha ▸ hk, List.eraseDups_nil, List.append_nil]
  · simp [List.removeAll, hk, List.eraseDups_cons]

/-- Among groups without the key the element opens a group. -/
theorem insertGroup_new {k : κ} {gs : List (κ × List α)} (hk : k ∉ gs.map Prod.fst) (a : α) :
    insertGroup k a gs = gs ++ [(k, [a])] := by
  induction gs with
  | nil => rfl
  | cons g gs ih =>
    rw [List.map_cons, List.mem_cons, not_or] at hk
    rw [insertGroup, if_neg (Ne.symm hk.1), ih hk.2, List.cons_append]

/-- Among groups of distinct keys the element joins that of its key. -/
theorem insertGroup_old {k : κ} {f : κ → List α} {ks : List κ} (hnodup : ks.Nodup) (hk : k ∈ ks) (a : α) :
    insertGroup k a (ks.map fun k' => (k', f k')) = ks.map fun k' => (k', if k' = k then f k' ++ [a] else f k') := by
  induction ks with
  | nil => exact absurd hk List.not_mem_nil
  | cons k₀ ks ih =>
    obtain ⟨hnot, hnodup⟩ := List.nodup_cons.mp hnodup
    rw [List.map_cons, insertGroup, List.map_cons]
    split_ifs with heq
    · subst heq
      congr 1
      refine List.map_congr_left fun k' hk' => ?_
      rw [if_neg fun e : k' = k₀ => hnot (e ▸ hk')]
    · rw [ih hnodup ((List.mem_cons.mp hk).resolve_left (Ne.symm heq))]

theorem eraseDups_nodup (l : List κ) : l.eraseDups.Nodup := by
  induction l using List.reverseRecOn with
  | nil => exact List.nodup_nil
  | append_singleton l k ih =>
    rw [eraseDups_concat]
    split_ifs with hk
    · exact ih
    · rw [List.nodup_append_comm]
      exact List.nodup_cons.mpr ⟨fun h => hk (List.mem_eraseDups.mp h), ih⟩

theorem insertGroup_groups (key : α → κ) (l : List α) (a : α) :
    insertGroup (key a) a (groups key l) = groups key (l ++ [a]) := by
  have hfilter : ∀ k, (l ++ [a]).filter (fun b => decide (key b = k)) =
      if k = key a then l.filter (fun b => decide (key b = k)) ++ [a] else l.filter fun b => decide (key b = k) := by
    intro k
    rw [List.filter_append]
    split_ifs with hk
    · simp [hk]
    · simp [Ne.symm hk]
  unfold groups
  rw [List.map_append, List.map_singleton, eraseDups_concat]
  simp only [hfilter]
  by_cases hk : key a ∈ l.map key
  · rw [if_pos hk, insertGroup_old (eraseDups_nodup _) (List.mem_eraseDups.mpr hk)]
  · have hnew : key a ∉ ((l.map key).eraseDups.map fun k => (k, l.filter fun b => decide (key b = k))).map Prod.fst := by
      simpa [Function.comp_def] using hk
    have hnone : l.filter (fun b => decide (key b = key a)) = [] := by
      refine List.filter_eq_nil_iff.mpr fun b hb => ?_
      rw [decide_eq_true_eq]
      exact fun e => hk (e ▸ List.mem_map_of_mem hb)
    rw [if_neg hk, insertGroup_new hnew, List.map_append, List.map_singleton, if_pos rfl, hnone, List.nil_append]
    congr 1
    refine List.map_congr_left fun k hk' => ?_
    rw [if_neg fun e : k = key a => hk (e ▸ List.mem_eraseDups.mp hk')]

theorem groups_ne_nil {key : α → κ} {l : List α} {g : κ × List α} (hg : g ∈ groups key l) : g.2 ≠ [] := by
  obtain ⟨k, hk, rfl⟩ := List.mem_map.mp hg
  obtain ⟨a, ha, rfl⟩ := List.mem_map.mp (List.mem_eraseDups.mp hk)
  exact List.ne_nil_of_mem (List.mem_filter.mpr ⟨ha, decide_eq_true rfl⟩)

end Scry2.Lib
