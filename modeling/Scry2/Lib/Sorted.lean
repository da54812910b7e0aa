import Mathlib.Data.List.Sort
import Mathlib.Data.List.Destutter
import Mathlib.Data.Set.Basic
import Mathlib.Data.Option.Basic
import Mathlib.Order.Lattice

/-!
# Ascending lists of sets and of keyed maps

A table on disk is an ascending list without repetition. Such a list is determined by the set of
its rows (`Enumerates`), or, when rows are looked up by a key, by the map from keys to values
(`Tabulates`). Two-way merges of tables are then unions of sets and pointwise combinations of maps.
-/

namespace Scry2.Lib

variable {α κ β : Type*}

/-! ## Sets -/

/-- `l` lists the members of `s` in ascending order, each once. -/
def Enumerates [LT α] (l : List α) (s : Set α) : Prop :=
  l.Pairwise (· < ·) ∧ ∀ x, x ∈ l ↔ x ∈ s

section Sets

variable [LinearOrder α] {l m : List α} {s t : Set α}

theorem Enumerates.eq (hl : Enumerates l s) (hm : Enumerates m s) : l = m := by
  have nl : l.Nodup := hl.1.imp fun h => ne_of_lt h
  have nm : m.Nodup := hm.1.imp fun h => ne_of_lt h
  have hp : l.Perm m := (List.perm_ext_iff_of_nodup nl nm).mpr fun x => (hl.2 x).trans (hm.2 x).symm
  exact hp.eq_of_pairwise' (r := (· ≤ ·)) (hl.1.imp le_of_lt) (hm.1.imp le_of_lt)

theorem Enumerates.nil : Enumerates ([] : List α) ∅ := ⟨List.Pairwise.nil, by simp⟩

theorem Enumerates.of_pairwise (h : l.Pairwise (· < ·)) : Enumerates l {x | x ∈ l} := ⟨h, by simp⟩

/-- Sorting and then dropping equal neighbours. -/
def sortDedup (l : List α) : List α := (l.insertionSort (· ≤ ·)).destutter (· ≠ ·)

theorem mem_sortDedup {x : α} : x ∈ sortDedup l ↔ x ∈ l := by
  rw [sortDedup, (List.pairwise_insertionSort (· ≤ ·) l).destutter_eq_dedup, List.mem_dedup,
    List.mem_insertionSort]

theorem sortDedup_pairwise (l : List α) : (sortDedup l).Pairwise (· < ·) := by
  have hs := List.pairwise_insertionSort (· ≤ ·) l
  have hd : sortDedup l = (l.insertionSort (· ≤ ·)).dedup := hs.destutter_eq_dedup
  rw [hd]
  have h1 : ((l.insertionSort (· ≤ ·)).dedup).Pairwise (· ≤ ·) := hs.sublist (List.dedup_sublist _)
  have h2 : ((l.insertionSort (· ≤ ·)).dedup).Pairwise (· ≠ ·) := List.nodup_dedup _
  exact h1.imp₂ (fun _ _ => lt_of_le_of_ne) h2

theorem sortDedup_enumerates (l : List α) : Enumerates (sortDedup l) {x | x ∈ l} :=
  ⟨sortDedup_pairwise l, fun _ => mem_sortDedup⟩

theorem insertionSort_enumerates (h : l.Nodup) :
    Enumerates (l.insertionSort (· ≤ ·)) {x | x ∈ l} := by
  have hs := List.pairwise_insertionSort (· ≤ ·) l
  have hn : (l.insertionSort (· ≤ ·)).Pairwise (· ≠ ·) := (List.perm_insertionSort _ l).nodup_iff.mpr h
  exact ⟨hs.imp₂ (fun _ _ => lt_of_le_of_ne) hn, fun x => List.mem_insertionSort _⟩

/-- Sorting by two relations that agree on the list. -/
theorem insertionSort_congr {α : Type*} {r r' : α → α → Prop} [DecidableRel r] [DecidableRel r']
    {l : List α} (h : ∀ a ∈ l, ∀ b ∈ l, r a b ↔ r' a b) : l.insertionSort r = l.insertionSort r' := by
  have insert_congr : ∀ (a : α) (m : List α), (∀ b ∈ m, r a b ↔ r' a b) →
      m.orderedInsert r a = m.orderedInsert r' a := by
    intro a m hm
    induction m with
    | nil => rfl
    | cons b m ih =>
      simp only [List.orderedInsert, hm b List.mem_cons_self,
        ih fun c hc => hm c (List.mem_cons_of_mem _ hc)]
  induction l with
  | nil => rfl
  | cons a l ih =>
    rw [List.insertionSort_cons, List.insertionSort_cons,
      ih fun b hb c hc => h b (List.mem_cons_of_mem _ hb) c (List.mem_cons_of_mem _ hc)]
    apply insert_congr
    intro b hb
    exact h a List.mem_cons_self b (List.mem_cons_of_mem _ ((List.mem_insertionSort _).mp hb))

/-! ## Merging two ascending lists, dropping repeats -/

/-- The two-way merge of a sorted-union iterator. `last` is the row it yielded before. -/
def mergeFrom (last : Option α) : List α → List α → List α
  | [], [] => []
  | x :: xs, [] => if last = some x then mergeFrom last xs [] else x :: mergeFrom (some x) xs []
  | [], y :: ys => if last = some y then mergeFrom last [] ys else y :: mergeFrom (some y) [] ys
  | x :: xs, y :: ys =>
    if x < y then
      if last = some x then mergeFrom last xs (y :: ys) else x :: mergeFrom (some x) xs (y :: ys)
    else if y < x then
      if last = some y then mergeFrom last (x :: xs) ys else y :: mergeFrom (some y) (x :: xs) ys
    else
      if last = some x then mergeFrom last xs ys else x :: mergeFrom (some x) xs ys
termination_by xs ys => xs.length + ys.length

theorem mem_mergeFrom (last : Option α) (xs ys : List α) (z : α) (h : last ≠ some z) :
    z ∈ mergeFrom last xs ys ↔ z ∈ xs ∨ z ∈ ys := by
  fun_induction mergeFrom last xs ys <;> grind

/-- Everything still to come is above what was yielded last. -/
def Above (last : Option α) (l : List α) : Prop := ∀ p, last = some p → ∀ x ∈ l, p < x

theorem Above.tail {last : Option α} {x : α} (h : Above last (x :: l)) : Above last l :=
  fun p hp y hy => h p hp y (List.mem_cons_of_mem _ hy)

theorem above_of_pairwise {x : α} (h : (x :: l).Pairwise (· < ·)) : Above (some x) l := by
  rintro p ⟨⟩ y hy
  exact List.rel_of_pairwise_cons h hy

theorem above_cons {x y : α} (hxy : x < y) (h : (y :: l).Pairwise (· < ·)) :
    Above (some x) (y :: l) := by
  rintro p ⟨⟩ z hz
  rcases List.mem_cons.mp hz with rfl | hz
  · exact hxy
  · exact hxy.trans (List.rel_of_pairwise_cons h hz)

/-- Yielding `x` first keeps the output ascending when the rest stays above `x`. -/
theorem emit_pairwise {last : Option α} {x : α} (hx : Above last (x :: l))
    (hm : m.Pairwise (· < ·) ∧ Above (some x) m) :
    (x :: m).Pairwise (· < ·) ∧ Above last (x :: m) := by
  refine ⟨List.pairwise_cons.mpr ⟨fun y hy => hm.2 x rfl y hy, hm.1⟩, ?_⟩
  intro p hp y hy
  have hpx : p < x := hx p hp x List.mem_cons_self
  rcases List.mem_cons.mp hy with rfl | hy
  · exact hpx
  · exact hpx.trans (hm.2 x rfl y hy)

theorem mergeFrom_pairwise (last : Option α) (xs ys : List α) (hx : xs.Pairwise (· < ·))
    (hy : ys.Pairwise (· < ·)) (ax : Above last xs) (ay : Above last ys) :
    (mergeFrom last xs ys).Pairwise (· < ·) ∧ Above last (mergeFrom last xs ys) := by
  fun_induction mergeFrom last xs ys with
  | case1 => exact ⟨List.Pairwise.nil, by simp [Above]⟩
  | case2 x xs ih => exact ih hx.tail hy ax.tail ay
  | case3 last x xs _ ih =>
    exact emit_pairwise ax (ih hx.tail hy (above_of_pairwise hx) (by simp [Above]))
  | case4 y ys ih => exact ih hx hy.tail ax ay.tail
  | case5 last y ys _ ih =>
    exact emit_pairwise ay (ih hx hy.tail (by simp [Above]) (above_of_pairwise hy))
  | case6 x xs y ys _ ih => exact ih hx.tail hy ax.tail ay
  | case7 last x xs y ys hxy _ ih =>
    exact emit_pairwise ax (ih hx.tail hy (above_of_pairwise hx) (above_cons hxy hy))
  | case8 x xs y ys _ _ ih => exact ih hx hy.tail ax ay.tail
  | case9 last x xs y ys _ hyx _ ih =>
    exact emit_pairwise ay (ih hx hy.tail (above_cons hyx hx) (above_of_pairwise hy))
  | case10 x xs y ys _ _ ih => exact ih hx.tail hy.tail ax.tail ay.tail
  | case11 last x xs y ys h1 h2 _ ih =>
    obtain rfl : x = y := le_antisymm (not_lt.mp h2) (not_lt.mp h1)
    exact emit_pairwise ax (ih hx.tail hy.tail (above_of_pairwise hx) (above_of_pairwise hy))

theorem Enumerates.merge (hl : Enumerates l s) (hm : Enumerates m t) :
    Enumerates (mergeFrom none l m) (s ∪ t) := by
  refine ⟨(mergeFrom_pairwise none l m hl.1 hm.1 (by simp [Above]) (by simp [Above])).1, fun x => ?_⟩
  rw [mem_mergeFrom none l m x (by simp), hl.2, hm.2, Set.mem_union]

theorem Enumerates.length_le (h : Enumerates l s) (hm : ∀ x ∈ s, x ∈ m) : l.length ≤ m.length :=
  (List.subperm_of_subset (h.1.imp ne_of_lt) fun x hx => hm x ((h.2 x).mp hx)).length_le

theorem Enumerates.eq_nil (h : Enumerates l (∅ : Set α)) : l = [] :=
  List.eq_nil_iff_forall_not_mem.mpr fun x hx => (h.2 x).mp hx

end Sets

/-! ## Keyed maps -/

/-- `l` lists the graph of `f` in ascending key order. -/
def Tabulates [LT κ] (l : List (κ × β)) (f : κ → Option β) : Prop :=
  l.Pairwise (·.1 < ·.1) ∧ ∀ k v, (k, v) ∈ l ↔ f k = some v

/-- Both values when both keys are there, the one there is otherwise. -/
def combine (op : β → β → β) : Option β → Option β → Option β
  | some a, some b => some (op a b)
  | some a, none => some a
  | none, b => b

@[simp] theorem combine_none_left (op : β → β → β) (b : Option β) : combine op none b = b := rfl

@[simp] theorem combine_none_right (op : β → β → β) (a : Option β) : combine op a none = a := by
  cases a <;> rfl

@[simp] theorem combine_some (op : β → β → β) (a b : β) :
    combine op (some a) (some b) = some (op a b) := rfl

theorem combine_assoc {op : β → β → β} (h : ∀ a b c, op (op a b) c = op a (op b c))
    (a b c : Option β) : combine op (combine op a b) c = combine op a (combine op b c) := by
  cases a <;> cases b <;> cases c <;> simp [h]

theorem combine_comm {op : β → β → β} (h : ∀ a b, op a b = op b a) (a b : Option β) :
    combine op a b = combine op b a := by
  cases a <;> cases b <;> simp [h]

/-! ## Keeping the better of two values -/

section Better

variable {ρ : Type*} [LinearOrder ρ] (rank : α → ρ)

/-- The one of higher rank; the first on a tie. -/
def better (a b : α) : α := if rank a < rank b then b else a

theorem better_assoc (a b c : α) : better rank (better rank a b) c = better rank a (better rank b c) := by
  unfold better
  by_cases hab : rank a < rank b
  · by_cases hbc : rank b < rank c
    · simp [hab, hbc, hab.trans hbc]
    · simp [hab, hbc]
  · by_cases hbc : rank b < rank c
    · simp [hab, hbc]
    · have hac : ¬ rank a < rank c := not_lt.mpr ((not_lt.mp hbc).trans (not_lt.mp hab))
      simp [hab, hbc, hac]

theorem better_comm {a b : α} (h : rank a = rank b → a = b) : better rank a b = better rank b a := by
  unfold better
  rcases lt_trichotomy (rank a) (rank b) with hlt | heq | hgt
  · rw [if_pos hlt, if_neg hlt.asymm]
  · rw [h heq]
  · rw [if_neg hgt.asymm, if_pos hgt]

/-- The best of a list; the earliest on a tie. -/
def bestOf (l : List α) : Option α := l.foldl (fun acc a => combine (better rank) acc (some a)) none

theorem foldl_combine {op : α → α → α} (h : ∀ a b c, op (op a b) c = op a (op b c)) (l : List α)
    (acc : Option α) : l.foldl (fun acc a => combine op acc (some a)) acc =
      combine op acc (l.foldl (fun acc a => combine op acc (some a)) none) := by
  induction l generalizing acc with
  | nil => simp
  | cons x l ih => rw [List.foldl_cons, ih, List.foldl_cons, ih (combine op none _), combine_none_left,
      combine_assoc h]

theorem bestOf_append (l m : List α) :
    bestOf rank (l ++ m) = combine (better rank) (bestOf rank l) (bestOf rank m) := by
  rw [bestOf, List.foldl_append, foldl_combine (better_assoc rank)]
  rfl

theorem bestOf_cons (a : α) (l : List α) :
    bestOf rank (a :: l) = combine (better rank) (some a) (bestOf rank l) := bestOf_append rank [a] l

@[simp] theorem bestOf_nil : bestOf rank ([] : List α) = none := rfl

theorem better_mem (a b : α) : better rank a b = a ∨ better rank a b = b := by
  unfold better; split_ifs <;> simp

theorem le_better_left (a b : α) : rank a ≤ rank (better rank a b) := by
  unfold better; split_ifs with h
  · exact h.le
  · exact le_rfl

theorem le_better_right (a b : α) : rank b ≤ rank (better rank a b) := by
  unfold better; split_ifs with h
  · exact le_rfl
  · exact not_lt.mp h

theorem bestOf_spec {l : List α} {a : α} (h : bestOf rank l = some a) :
    a ∈ l ∧ ∀ b ∈ l, rank b ≤ rank a := by
  induction l generalizing a with
  | nil => simp at h
  | cons x l ih =>
    rw [bestOf_cons] at h
    cases hl : bestOf rank l with
    | none =>
      rw [hl, combine_none_right, Option.some.injEq] at h
      subst h
      have hnil : l = [] := by
        cases l with
        | nil => rfl
        | cons y l => rw [bestOf_cons] at hl; cases hb : bestOf rank l <;> simp [hb] at hl
      simp [hnil]
    | some y =>
      obtain ⟨hy, hmax⟩ := ih hl
      rw [hl, combine_some, Option.some.injEq] at h
      subst h
      refine ⟨?_, fun b hb => ?_⟩
      · rcases better_mem rank x y with e | e <;> simp [e, hy]
      · rcases List.mem_cons.mp hb with rfl | hb
        · exact le_better_left rank _ _
        · exact (hmax b hb).trans (le_better_right rank _ _)

theorem bestOf_isSome {l : List α} {a : α} (h : a ∈ l) : ∃ b, bestOf rank l = some b := by
  cases l with
  | nil => simp at h
  | cons x l => rw [bestOf_cons]; cases bestOf rank l <;> simp

theorem bestOf_cons_of_le {a : α} {l : List α}
    (h : ∀ b ∈ l, rank b ≤ rank a) : bestOf rank (a :: l) = some a := by
  rw [bestOf_cons]
  cases hb : bestOf rank l with
  | none => rfl
  | some b =>
    have hle := h b (bestOf_spec rank hb).1
    rw [combine_some, better, if_neg (not_lt.mpr hle)]

/-- With a rank that tells values apart the best one is the one no other exceeds. -/
theorem bestOf_eq_some_iff (hr : Function.Injective rank) {l : List α} {a : α} :
    bestOf rank l = some a ↔ a ∈ l ∧ ∀ b ∈ l, rank b ≤ rank a := by
  refine ⟨bestOf_spec rank, fun ⟨ha, hmax⟩ => ?_⟩
  obtain ⟨b, hb⟩ := bestOf_isSome rank ha
  obtain ⟨hbl, hbmax⟩ := bestOf_spec rank hb
  rw [hb, hr (le_antisymm (hmax b hbl) (hbmax a ha))]

end Better

/-! ## One row per key -/

/-- Drop a row whose key is that of the row kept before it. -/
def dedup_by_key [DecidableEq κ] (key : α → κ) (last : Option κ) : List α → List α
  | [] => []
  | a :: l =>
    if last = some (key a) then dedup_by_key key last l else a :: dedup_by_key key (some (key a)) l

theorem dedup_by_key_sublist [DecidableEq κ] (key : α → κ) (last : Option κ) (l : List α) :
    (dedup_by_key key last l).Sublist l := by
  induction l generalizing last with
  | nil => exact List.Sublist.slnil
  | cons a l ih =>
    rw [dedup_by_key]
    split_ifs
    · exact (ih _).cons _
    · exact (ih _).cons_cons _

/-- Over rows in key order, what is kept has ascending keys, above the last one. -/
theorem dedup_by_key_pairwise [LinearOrder κ] (key : α → κ) (last : Option κ) (l : List α)
    (h : l.Pairwise (key · ≤ key ·)) (hlast : ∀ k, last = some k → ∀ a ∈ l, k ≤ key a) :
    (dedup_by_key key last l).Pairwise (key · < key ·) ∧
      ∀ k, last = some k → ∀ a ∈ dedup_by_key key last l, k < key a := by
  induction l generalizing last with
  | nil => exact ⟨List.Pairwise.nil, by simp [dedup_by_key]⟩
  | cons a l ih =>
    have ha := List.pairwise_cons.mp h
    rw [dedup_by_key]
    split_ifs with hk
    · exact ih last ha.2 fun k hk' b hb => hlast k hk' b (List.mem_cons_of_mem _ hb)
    · obtain ⟨h1, h2⟩ := ih (some (key a)) ha.2 (by rintro k ⟨⟩; exact ha.1)
      refine ⟨List.pairwise_cons.mpr ⟨fun b hb => h2 _ rfl b hb, h1⟩, fun k hk' b hb => ?_⟩
      have hka : k < key a :=
        lt_of_le_of_ne (hlast k hk' a List.mem_cons_self) fun e => hk (hk'.trans (congrArg some e))
      rcases List.mem_cons.mp hb with rfl | hb
      · exact hka
      · exact hka.trans (h2 _ rfl b hb)

theorem mem_dedup_by_key [LinearOrder κ] (key : α → κ) (last : Option κ) (l : List α)
    (h : l.Pairwise (key · ≤ key ·)) {r : α → α → Prop} (hr : l.Pairwise r)
    (hlast : ∀ k, last = some k → ∀ a ∈ l, k ≤ key a) {a : α} (ha : a ∈ dedup_by_key key last l) :
    ∀ b ∈ l, key b = key a → b = a ∨ r a b := by
  induction l generalizing last with
  | nil => simp
  | cons x l ih =>
    have hx := List.pairwise_cons.mp h
    have hrx := List.pairwise_cons.mp hr
    have hcond : ∀ k, some (key x) = some k → ∀ b ∈ l, k ≤ key b := by rintro k ⟨⟩; exact hx.1
    have hlast' : ∀ k, last = some k → ∀ b ∈ l, k ≤ key b :=
      fun k hk b hb => hlast k hk b (List.mem_cons_of_mem _ hb)
    rw [dedup_by_key] at ha
    intro b hb hba
    split_ifs at ha with hk
    · -- `x` has the key of the row before it, so nothing kept does.
      have hlt := (dedup_by_key_pairwise key last l hx.2 hlast').2 _ hk a ha
      rcases List.mem_cons.mp hb with rfl | hb
      · exact absurd hba hlt.ne
      · exact ih last hx.2 hrx.2 hlast' ha b hb hba
    · rcases List.mem_cons.mp ha with rfl | ha
      · rcases List.mem_cons.mp hb with rfl | hb
        · exact Or.inl rfl
        · exact Or.inr (hrx.1 b hb)
      · have hlt := (dedup_by_key_pairwise key _ l hx.2 hcond).2 _ rfl a ha
        rcases List.mem_cons.mp hb with rfl | hb
        · exact absurd hba hlt.ne
        · exact ih _ hx.2 hrx.2 hcond ha b hb hba

theorem exists_mem_dedup_by_key [LinearOrder κ] (key : α → κ) (last : Option κ) (l : List α)
    {b : α} (hb : b ∈ l) (hlast : last ≠ some (key b)) : ∃ a ∈ dedup_by_key key last l, key a = key b := by
  induction l generalizing last with
  | nil => simp at hb
  | cons x l ih =>
    rw [dedup_by_key]
    by_cases hxb : key x = key b
    · rw [hxb, if_neg hlast]
      exact ⟨x, List.mem_cons_self, hxb⟩
    · have hbl : b ∈ l := (List.mem_cons.mp hb).resolve_left fun e => hxb (e ▸ rfl)
      split_ifs with hk
      · exact ih last hbl hlast
      · obtain ⟨a, ha, e⟩ := ih (some (key x)) hbl (by simpa using hxb)
        exact ⟨a, List.mem_cons_of_mem _ ha, e⟩

section Keyed

variable [LinearOrder κ] {l m : List (κ × β)} {f g : κ → Option β}

theorem Tabulates.eq (hl : Tabulates l f) (hm : Tabulates m f) : l = m := by
  have nl : l.Nodup := hl.1.imp fun h he => absurd (he ▸ h) (lt_irrefl _)
  have nm : m.Nodup := hm.1.imp fun h he => absurd (he ▸ h) (lt_irrefl _)
  have hp : l.Perm m :=
    (List.perm_ext_iff_of_nodup nl nm).mpr fun x => (hl.2 x.1 x.2).trans (hm.2 x.1 x.2).symm
  exact hp.eq_of_pairwise (fun a b _ _ h1 h2 => absurd (h1.trans h2) (lt_irrefl _)) hl.1 hm.1

theorem Tabulates.nil : Tabulates ([] : List (κ × β)) fun _ => none := ⟨List.Pairwise.nil, by simp⟩

theorem Tabulates.unique_map (hf : Tabulates l f) (hg : Tabulates l g) : f = g := by
  funext k
  apply Option.ext
  intro v
  rw [← hf.2, ← hg.2]

/-- The two-way merge of two streams in key order, `op` deciding a shared key. -/
def mergeKeyed (op : β → β → β) : List (κ × β) → List (κ × β) → List (κ × β)
  | [], ys => ys
  | x :: xs, [] => x :: xs
  | x :: xs, y :: ys =>
    if x.1 < y.1 then x :: mergeKeyed op xs (y :: ys)
    else if y.1 < x.1 then y :: mergeKeyed op (x :: xs) ys
    else (x.1, op x.2 y.2) :: mergeKeyed op xs ys
termination_by xs ys => xs.length + ys.length

theorem lookup_cons_eq (x : κ × β) (l : List (κ × β)) (k : κ) :
    (x :: l).lookup k = if x.1 = k then some x.2 else l.lookup k := by
  obtain ⟨k', v⟩ := x
  rw [List.lookup_cons]
  by_cases h : k' = k
  · simp [h]
  · have hk : (k == k') = false := by simpa using Ne.symm h
    simp [h, hk]

theorem lookup_eq_some_iff (h : l.Pairwise (·.1 ≠ ·.1)) (k : κ) (v : β) :
    l.lookup k = some v ↔ (k, v) ∈ l := by
  induction l with
  | nil => simp
  | cons x l ih =>
    rw [lookup_cons_eq, List.mem_cons]
    by_cases hx : x.1 = k
    · subst hx
      have hnot : (x.1, v) ∉ l := fun hm => (List.pairwise_cons.mp h).1 (x.1, v) hm rfl
      simp [hnot, Prod.ext_iff, eq_comm]
    · rw [if_neg hx, ih h.tail]
      simp [Prod.ext_iff, Ne.symm hx]

theorem Tabulates.of_pairwise (h : l.Pairwise (·.1 < ·.1)) : Tabulates l (l.lookup ·) :=
  ⟨h, fun k v => (lookup_eq_some_iff (h.imp ne_of_lt) k v).symm⟩

theorem Tabulates.lookup_eq (h : Tabulates l f) (k : κ) : l.lookup k = f k :=
  congrFun ((Tabulates.of_pairwise h.1).unique_map h) k

theorem lookup_eq_none_of_lt (h : l.Pairwise (·.1 < ·.1)) {x : κ × β} (hx : ∀ y ∈ l, x.1 < y.1)
    {k : κ} (hk : k ≤ x.1) : l.lookup k = none := by
  rw [Option.eq_none_iff_forall_ne_some]
  intro v hv
  rw [lookup_eq_some_iff (h.imp ne_of_lt)] at hv
  exact absurd (hx _ hv) (not_lt.mpr hk)

theorem lookup_eq_none_of_ne {k : κ} (h : ∀ y ∈ l, k ≠ y.1) : l.lookup k = none := by
  rw [List.lookup_eq_none_iff]
  simpa using h

theorem mem_mergeKeyed_key (op : β → β → β) (xs ys : List (κ × β)) {z : κ × β}
    (hz : z ∈ mergeKeyed op xs ys) : (∃ x ∈ xs, x.1 = z.1) ∨ ∃ y ∈ ys, y.1 = z.1 := by
  fun_induction mergeKeyed op xs ys <;> grind

theorem mergeKeyed_pairwise (op : β → β → β) (xs ys : List (κ × β)) (hx : xs.Pairwise (·.1 < ·.1))
    (hy : ys.Pairwise (·.1 < ·.1)) : (mergeKeyed op xs ys).Pairwise (·.1 < ·.1) := by
  fun_induction mergeKeyed op xs ys with
  | case1 ys => exact hy
  | case2 x xs => exact hx
  | case3 x xs y ys hlt ih =>
    refine List.pairwise_cons.mpr ⟨fun z hz => ?_, ih hx.tail hy⟩
    rcases mem_mergeKeyed_key op _ _ hz with ⟨w, hw, e⟩ | ⟨w, hw, e⟩
    · exact e ▸ List.rel_of_pairwise_cons hx hw
    · rcases List.mem_cons.mp hw with rfl | hw
      · exact e ▸ hlt
      · exact e ▸ hlt.trans (List.rel_of_pairwise_cons hy hw)
  | case4 x xs y ys _ hlt ih =>
    refine List.pairwise_cons.mpr ⟨fun z hz => ?_, ih hx hy.tail⟩
    rcases mem_mergeKeyed_key op _ _ hz with ⟨w, hw, e⟩ | ⟨w, hw, e⟩
    · rcases List.mem_cons.mp hw with rfl | hw
      · exact e ▸ hlt
      · exact e ▸ hlt.trans (List.rel_of_pairwise_cons hx hw)
    · exact e ▸ List.rel_of_pairwise_cons hy hw
  | case5 x xs y ys h1 h2 ih =>
    have hxy : x.1 = y.1 := le_antisymm (not_lt.mp h2) (not_lt.mp h1)
    refine List.pairwise_cons.mpr ⟨fun z hz => ?_, ih hx.tail hy.tail⟩
    rcases mem_mergeKeyed_key op _ _ hz with ⟨w, hw, e⟩ | ⟨w, hw, e⟩
    · exact e ▸ List.rel_of_pairwise_cons hx hw
    · exact e ▸ hxy ▸ List.rel_of_pairwise_cons hy hw

theorem lookup_mergeKeyed (op : β → β → β) (xs ys : List (κ × β)) (hx : xs.Pairwise (·.1 < ·.1))
    (hy : ys.Pairwise (·.1 < ·.1)) (k : κ) :
    (mergeKeyed op xs ys).lookup k = combine op (xs.lookup k) (ys.lookup k) := by
  fun_induction mergeKeyed op xs ys with
  | case1 ys => rfl
  | case2 x xs => simp
  | case3 x xs y ys hlt ih =>
    rw [lookup_cons_eq, lookup_cons_eq, ih hx.tail hy]
    split_ifs with hk
    · subst hk
      have : (y :: ys).lookup x.1 = none := by
        rw [lookup_cons_eq, if_neg hlt.ne']
        exact lookup_eq_none_of_lt hy.tail (fun z hz => List.rel_of_pairwise_cons hy hz) hlt.le
      rw [this, combine_none_right]
    · rfl
  | case4 x xs y ys _ hlt ih =>
    rw [lookup_cons_eq, ih hx hy.tail, lookup_cons_eq y]
    split_ifs with hk
    · subst hk
      have : (x :: xs).lookup y.1 = none := by
        rw [lookup_cons_eq, if_neg hlt.ne']
        exact lookup_eq_none_of_lt hx.tail (fun z hz => List.rel_of_pairwise_cons hx hz) hlt.le
      rw [this, combine_none_left]
    · rfl
  | case5 x xs y ys h1 h2 ih =>
    have hxy : x.1 = y.1 := le_antisymm (not_lt.mp h2) (not_lt.mp h1)
    rw [lookup_cons_eq, lookup_cons_eq, lookup_cons_eq, ih hx.tail hy.tail, ← hxy]
    split_ifs <;> rfl

theorem Tabulates.map {γ : Type*} (hl : Tabulates l f) (g : β → γ) :
    Tabulates (l.map fun e => (e.1, g e.2)) fun k => (f k).map g := by
  refine ⟨List.pairwise_map.mpr hl.1, fun k v => ?_⟩
  simp only [List.mem_map, Prod.mk.injEq, Option.map_eq_some_iff]
  constructor
  · rintro ⟨⟨k', w⟩, hm, rfl, rfl⟩
    exact ⟨w, (hl.2 _ _).mp hm, rfl⟩
  · rintro ⟨w, hw, rfl⟩
    exact ⟨(k, w), (hl.2 k w).mpr hw, rfl, rfl⟩

theorem Tabulates.merge (op : β → β → β) (hl : Tabulates l f) (hm : Tabulates m g) :
    Tabulates (mergeKeyed op l m) fun k => combine op (f k) (g k) := by
  have h := Tabulates.of_pairwise (mergeKeyed_pairwise op l m hl.1 hm.1)
  have e : ((mergeKeyed op l m).lookup ·) = fun k => combine op (f k) (g k) := by
    funext k
    rw [lookup_mergeKeyed op l m hl.1 hm.1, hl.lookup_eq, hm.lookup_eq]
  rwa [e] at h

theorem Tabulates.length_le {ks : List κ} (h : Tabulates l f) (hf : ∀ k v, f k = some v → k ∈ ks) :
    l.length ≤ ks.length := by
  have hnd : (l.map Prod.fst).Nodup := (List.pairwise_map.mpr h.1).imp ne_of_lt
  have hsub : l.map Prod.fst ⊆ ks := by
    intro k hk
    obtain ⟨e, he, rfl⟩ := List.mem_map.mp hk
    exact hf e.1 e.2 ((h.2 e.1 e.2).mp he)
  have hle := (List.subperm_of_subset hnd hsub).length_le
  rwa [List.length_map] at hle

theorem Tabulates.eq_nil (h : Tabulates l f) (hf : ∀ k, f k = none) : l = [] := by
  refine List.eq_nil_iff_forall_not_mem.mpr fun e he => ?_
  have hsome := (h.2 e.1 e.2).mp he
  rw [hf] at hsome
  cases hsome

end Keyed

end Scry2.Lib
