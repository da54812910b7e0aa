import Scry2.Lib.Sorted

/-!
# Bisection

The two loops that readers of sorted tables share: the first row not below a key, and a row equal
to a key.
-/

namespace Scry2.Lib

/-- The first index of `[lo, hi)` at which `p` fails, for a `p` that holds up to some index. -/
def bisect (p : Nat → Bool) (lo hi : Nat) : Nat :=
  if lo < hi then
    let mid := (lo + hi) / 2
    if p mid then bisect p (mid + 1) hi else bisect p lo mid
  else lo
termination_by hi - lo

/-- An index of `[lo, hi)` at which `cmp` is equal. -/
def bisectEq (cmp : Nat → Ordering) (lo hi : Nat) : Option Nat :=
  if lo < hi then
    let mid := (lo + hi) / 2
    match cmp mid with
    | .lt => bisectEq cmp (mid + 1) hi
    | .gt => bisectEq cmp lo mid
    | .eq => some mid
  else none
termination_by hi - lo

/-- Below `lo` the predicate holds, from `hi` on it fails. -/
structure Brackets (p : Nat → Bool) (n lo hi : Nat) : Prop where
  le : lo ≤ hi
  hi_le : hi ≤ n
  below : ∀ i < lo, p i = true
  above : ∀ i, hi ≤ i → i < n → p i = false

theorem bisect_spec {p : Nat → Bool} {n lo hi : Nat} (hp : ∀ i j, i ≤ j → j < n → p j = true → p i = true)
    (h : Brackets p n lo hi) : Brackets p n (bisect p lo hi) (bisect p lo hi) := by
  fun_induction bisect p lo hi with
  | case1 lo hi hlt mid hmid ih =>
    have hm : mid < hi := by omega
    exact ih ⟨hm, h.hi_le, fun i hi' => hp i mid (by omega) (hm.trans_le h.hi_le) hmid, h.above⟩
  | case2 lo hi hlt mid hmid ih =>
    refine ih ⟨by omega, by have := h.hi_le; omega, h.below, fun i hi' hn => ?_⟩
    by_contra hc
    exact hmid (hp mid i hi' hn (by simpa using hc))
  | case3 lo hi hlt =>
    obtain rfl : lo = hi := by have := h.le; omega
    exact h

/-- Bisection of a table of `n` rows: the predicate holds exactly below the answer. -/
theorem bisect_iff {p : Nat → Bool} {n : Nat} (hp : ∀ i j, i ≤ j → j < n → p j = true → p i = true) :
    bisect p 0 n ≤ n ∧ ∀ i < n, p i = true ↔ i < bisect p 0 n := by
  have h := bisect_spec hp ⟨Nat.zero_le n, le_rfl, by simp, by omega⟩
  refine ⟨h.hi_le, fun i hi => ⟨fun hpi => ?_, h.below i⟩⟩
  by_contra hge
  simp [h.above i (not_lt.mp hge) hi] at hpi

section Rows

variable {α : Type*} [LinearOrder α] {l : List α}

/-- Where the rows of `l` stop being below `key`. -/
def boundary (l : List α) (key : α) : Nat := (l.filter (· < key)).length

theorem boundary_le_length (l : List α) (key : α) : boundary l key ≤ l.length :=
  List.length_filter_le _ _

theorem take_boundary (h : l.Pairwise (· < ·)) (key : α) :
    l.take (boundary l key) = l.filter (· < key) := by
  induction l with
  | nil => rfl
  | cons x l ih =>
    have hx := List.pairwise_cons.mp h
    by_cases hk : x < key
    · have hb : boundary (x :: l) key = boundary l key + 1 := by simp [boundary, hk]
      rw [hb, List.take_succ_cons, ih hx.2, List.filter_cons, if_pos (by simpa using hk)]
    · have hnone : l.filter (· < key) = [] := by
        rw [List.filter_eq_nil_iff]
        intro y hy hyk
        exact hk ((hx.1 y hy).trans (by simpa using hyk))
      simp [boundary, hk, hnone]

theorem drop_boundary (h : l.Pairwise (· < ·)) (key : α) :
    l.drop (boundary l key) = l.filter (key ≤ ·) := by
  induction l with
  | nil => rfl
  | cons x l ih =>
    have hx := List.pairwise_cons.mp h
    by_cases hk : x < key
    · have hb : boundary (x :: l) key = boundary l key + 1 := by simp [boundary, hk]
      rw [hb, List.drop_succ_cons, ih hx.2, List.filter_cons, if_neg (by simpa using hk)]
    · have hnone : l.filter (· < key) = [] := by
        rw [List.filter_eq_nil_iff]
        intro y hy hyk
        exact hk ((hx.1 y hy).trans (by simpa using hyk))
      have hall : l.filter (key ≤ ·) = l := by
        rw [List.filter_eq_self]
        intro y hy
        simpa using (not_lt.mp hk).trans (hx.1 y hy).le
      simp [boundary, hk, hnone, hall, not_lt.mp hk]

theorem lt_iff_lt_boundary (h : l.Pairwise (· < ·)) (key : α) {i : Nat} (hi : i < l.length) :
    l[i] < key ↔ i < boundary l key := by
  constructor
  · intro hlt
    by_contra hge
    have hm : l[i] ∈ l.drop (boundary l key) := by
      rw [List.mem_iff_getElem]
      exact ⟨i - boundary l key, by simp; omega, by
        rw [List.getElem_drop]; congr 1; omega⟩
    rw [drop_boundary h] at hm
    simp only [List.mem_filter, decide_eq_true_eq] at hm
    exact absurd hlt (not_lt.mpr hm.2)
  · intro hlt
    have hm : l[i] ∈ l.take (boundary l key) := by
      rw [List.mem_iff_getElem]
      exact ⟨i, by simp; omega, by rw [List.getElem_take]⟩
    rw [take_boundary h] at hm
    simpa using (List.mem_filter.mp hm).2

/-- Bisecting an ascending table on `row < key` finds the boundary. -/
theorem bisect_eq_boundary (h : l.Pairwise (· < ·)) (key : α) (p : Nat → Bool)
    (hp : ∀ i (hi : i < l.length), p i = decide (l[i] < key)) :
    bisect p 0 l.length = boundary l key := by
  have hpb : ∀ i < l.length, p i = true ↔ i < boundary l key := by
    intro i hi
    rw [hp i hi, decide_eq_true_eq, lt_iff_lt_boundary h key hi]
  have hmono : ∀ i j, i ≤ j → j < l.length → p j = true → p i = true := by
    intro i j hij hj hpj
    exact (hpb i (by omega)).mpr (lt_of_le_of_lt hij ((hpb j hj).mp hpj))
  obtain ⟨hle, hiff⟩ := bisect_iff hmono
  have hb := boundary_le_length l key
  rcases lt_trichotomy (bisect p 0 l.length) (boundary l key) with hlt | heq | hgt
  · have := (hiff _ (by omega)).mp ((hpb _ (by omega)).mpr hlt)
    omega
  · exact heq
  · have := (hpb _ (by omega)).mp ((hiff _ (by omega)).mpr hgt)
    omega

/-- The rows between two boundaries are the rows between the two keys. -/
theorem between_boundaries (h : l.Pairwise (· < ·)) {a b : α} (hab : a ≤ b) :
    (l.drop (boundary l a)).take (boundary l b - boundary l a) =
      l.filter (fun r => a ≤ r ∧ r < b) := by
  rw [← List.drop_take, take_boundary h]
  have hf : (l.filter (· < b)).filter (· < a) = l.filter (· < a) := by
    rw [List.filter_filter]
    apply List.filter_congr
    intro r _
    by_cases hr : r < a
    · simp [hr, hr.trans_le hab]
    · simp [hr]
  have hb : boundary (l.filter (· < b)) a = boundary l a := by rw [boundary, hf, boundary]
  rw [← hb, drop_boundary (h.sublist List.filter_sublist), List.filter_filter]
  apply List.filter_congr
  intro r _
  simp

theorem boundary_mono {a b : α} (hab : a ≤ b) : boundary l a ≤ boundary l b :=
  (List.monotone_filter_right l fun r hr => by
    simp only [decide_eq_true_eq] at hr ⊢
    exact hr.trans_le hab).length_le

end Rows

/-! ## A row equal to a key -/

section Keys

variable {κ : Type*} [LinearOrder κ] {cmpAt : Nat → Ordering} {f : Nat → κ} {key : κ} {lo hi i : Nat}

/-- `cmpAt` compares the keys `f` with `key`. -/
structure Compares (cmpAt : Nat → Ordering) (f : Nat → κ) (key : κ) : Prop where
  lt : ∀ i, cmpAt i = .lt → f i < key
  gt : ∀ i, cmpAt i = .gt → key < f i
  eq : ∀ i, cmpAt i = .eq → f i = key

theorem bisectEq_eq_some (hc : Compares cmpAt f key) (h : bisectEq cmpAt lo hi = some i) :
    i < hi ∧ f i = key := by
  fun_induction bisectEq cmpAt lo hi with
  | case1 lo hi hlt mid hmid ih => exact ih h
  | case2 lo hi hlt mid hmid ih =>
    have := ih h
    exact ⟨by omega, this.2⟩
  | case3 lo hi hlt mid hmid =>
    obtain rfl : mid = i := Option.some.inj h
    exact ⟨by omega, hc.eq _ hmid⟩
  | case4 lo hi hlt => cases h

theorem bisectEq_eq_none {n : Nat} (hc : Compares cmpAt f key) (hf : ∀ a b, a < b → b < n → f a < f b)
    (hn : hi ≤ n) (h : bisectEq cmpAt lo hi = none) (hlo : lo ≤ i) (hhi : i < hi) : f i ≠ key := by
  fun_induction bisectEq cmpAt lo hi with
  | case1 lo hi hlt mid hmid ih =>
    by_cases hi' : mid < i
    · exact ih hn h hi' hhi
    · -- Below the middle every key is smaller still.
      rcases Nat.eq_or_lt_of_le (not_lt.mp hi') with rfl | hlt'
      · exact (hc.lt _ hmid).ne
      · exact ((hf i mid hlt' (by omega)).trans (hc.lt _ hmid)).ne
  | case2 lo hi hlt mid hmid ih =>
    by_cases hi' : i < mid
    · exact ih (by omega) h hlo hi'
    · rcases Nat.eq_or_lt_of_le (not_lt.mp hi') with rfl | hlt'
      · exact (hc.gt _ hmid).ne'
      · exact ((hc.gt _ hmid).trans (hf mid i hlt' (by omega))).ne'
  | case3 lo hi hlt mid hmid => cases h
  | case4 lo hi hlt => omega

theorem bisectEq_congr {cmpAt' : Nat → Ordering} (h : ∀ i < hi, cmpAt i = cmpAt' i) :
    bisectEq cmpAt lo hi = bisectEq cmpAt' lo hi := by
  fun_induction bisectEq cmpAt lo hi with
  | case1 lo hi hlt mid hmid ih =>
    have e : cmpAt' mid = .lt := by rw [← h mid (by omega), hmid]
    rw [ih h, bisectEq.eq_def cmpAt' lo hi]
    simp only [hlt, if_true]
    rw [show (lo + hi) / 2 = mid from rfl, e]
  | case2 lo hi hlt mid hmid ih =>
    have e : cmpAt' mid = .gt := by rw [← h mid (by omega), hmid]
    rw [ih fun i hi' => h i (by omega), bisectEq.eq_def cmpAt' lo hi]
    simp only [hlt, if_true]
    rw [show (lo + hi) / 2 = mid from rfl, e]
  | case3 lo hi hlt mid hmid =>
    have e : cmpAt' mid = .eq := by rw [← h mid (by omega), hmid]
    rw [bisectEq.eq_def cmpAt' lo hi]
    simp only [hlt, if_true]
    rw [show (lo + hi) / 2 = mid from rfl, e]
  | case4 lo hi hlt => rw [bisectEq, if_neg hlt]

/-- Bisecting an ascending table for a key: its row, or there is none. -/
theorem bisectEq_rows {α : Type*} {l : List α} {keyOf : α → κ} (hl : l.Pairwise (keyOf · < keyOf ·))
    (hcmp : ∀ i (hi : i < l.length), (cmpAt i).Compares (keyOf l[i]) key) :
    (∃ i, ∃ hi : i < l.length, bisectEq cmpAt 0 l.length = some i ∧ keyOf l[i] = key) ∨
      bisectEq cmpAt 0 l.length = none ∧ ∀ a ∈ l, keyOf a ≠ key := by
  let f : Nat → κ := fun i => if hi : i < l.length then keyOf l[i] else key
  have hf : ∀ i (hi : i < l.length), f i = keyOf l[i] := fun i hi => dif_pos hi
  have hcong : bisectEq cmpAt 0 l.length = bisectEq (fun i => cmp (f i) key) 0 l.length :=
    bisectEq_congr fun i hi => by rw [hf i hi, (hcmp i hi).cmp_eq]
  have hcompares : Compares (fun i => cmp (f i) key) f key :=
    ⟨fun i => cmp_eq_lt_iff _ _ |>.mp, fun i => cmp_eq_gt_iff _ _ |>.mp, fun i => cmp_eq_eq_iff _ _ |>.mp⟩
  rw [hcong]
  cases hfind : bisectEq (fun i => cmp (f i) key) 0 l.length with
  | some i =>
    obtain ⟨hi, hkey⟩ := bisectEq_eq_some hcompares hfind
    exact Or.inl ⟨i, hi, rfl, hf i hi ▸ hkey⟩
  | none =>
    refine Or.inr ⟨rfl, fun a ha => ?_⟩
    obtain ⟨i, hi, rfl⟩ := List.mem_iff_getElem.mp ha
    rw [← hf i hi]
    refine bisectEq_eq_none (n := l.length) hcompares (fun a b hab hb => ?_) le_rfl hfind (Nat.zero_le i) hi
    rw [hf a (hab.trans hb), hf b hb]
    exact List.pairwise_iff_getElem.mp hl a b (hab.trans hb) hb hab

end Keys

/-! ## A run of rows -/

/-- From the first row that is not below `q` on, the rows of a class that starts there come first. -/
theorem takeWhile_drop_eq_filter {α κ : Type*} [LinearOrder κ] {l : List α} {keyOf : α → κ} {q : κ}
    {P : κ → Bool} {n : Nat} (hl : l.Pairwise (keyOf · ≤ keyOf ·))
    (hn : ∀ i (hi : i < l.length), keyOf l[i] < q ↔ i < n) (hq : ∀ x, P x = true → q ≤ x)
    (hP : ∀ x y, q ≤ x → x ≤ y → P y = true → P x = true) :
    (l.drop n).takeWhile (fun a => P (keyOf a)) = l.filter fun a => P (keyOf a) := by
  induction l generalizing n with
  | nil => simp
  | cons a l ih =>
    obtain ⟨ha, hl⟩ := List.pairwise_cons.mp hl
    have hrest : ∀ m, (∀ i (hi : i < l.length), i + 1 < m ↔ i < m - 1) := fun m i _ => by omega
    have h0 := hn 0 (by simp)
    simp only [List.getElem_cons_zero] at h0
    have hstep : ∀ i (hi : i < l.length), keyOf l[i] < q ↔ i < n - 1 := fun i hi => by
      rw [← hrest n i hi]
      exact hn (i + 1) (by simpa using hi)
    rcases Nat.eq_zero_or_pos n with rfl | hpos
    · have hge : q ≤ keyOf a := not_lt.mp fun h => absurd (h0.mp h) (lt_irrefl 0)
      have hih := ih hl hstep
      rw [Nat.zero_sub, List.drop_zero] at hih
      rw [List.drop_zero, List.takeWhile_cons, List.filter_cons]
      split_ifs with hPa
      · rw [hih]
      · -- Nothing behind `a` is in the class either.
        symm
        rw [List.filter_eq_nil_iff]
        exact fun b hb hPb => hPa (hP _ _ hge (ha b hb) hPb)
    · have hlt : keyOf a < q := h0.mpr hpos
      have hPa : P (keyOf a) = false := by
        by_contra h
        exact absurd (hq _ (by simpa using h)) (not_le.mpr hlt)
      obtain ⟨m, rfl⟩ := Nat.exists_eq_succ_of_ne_zero hpos.ne'
      rw [List.drop_succ_cons, List.filter_cons, if_neg (by simp [hPa])]
      exact ih hl hstep

end Scry2.Lib
