import Mathlib.Algebra.BigOperators.Group.List.Basic
import Mathlib.Algebra.Order.Group.Nat
import Mathlib.Tactic.Abel

/-!
# Threads over a shared state

Threads with states of their own take atomic steps in any order, each of which changes the shared state
and the thread's own. The rules say what the steps of the single threads have to keep so that all runs
keep it.
-/

namespace Scry2.Lib

/-- What the thread of a number may do to the shared state and its own. -/
abbrev Moves (S L : Type) := Nat → S → L → S → L → Prop

structure Threads (S L : Type) where
  shared : S
  locals : List L

namespace Threads

variable {S L : Type} {M : Moves S L} {t u v : Threads S L} {w : Nat} {x y z : L} {s : S} {n m : Nat}

inductive Step (M : Moves S L) : Threads S L → Threads S L → Prop
  | move {t : Threads S L} {w : Nat} {x y : L} {s : S} (hw : t.locals[w]? = some x) (h : M w t.shared x s y) :
      Step M t ⟨s, t.locals.set w y⟩

/-- A run of so many steps. -/
inductive Runs (M : Moves S L) (t : Threads S L) : Nat → Threads S L → Prop
  | refl : Runs M t 0 t
  | step {n : Nat} {u v : Threads S L} (h : Runs M t n u) (hst : Step M u v) : Runs M t (n + 1) v

theorem getElem?_set_cases {l : List L} (h : (l.set w y)[n]? = some z) : n = w ∧ z = y ∨ n ≠ w ∧ l[n]? = some z := by
  by_cases hn : n = w
  · subst hn
    have hlt : n < l.length := by
      have := (List.getElem?_eq_some_iff.mp h).1
      rwa [List.length_set] at this
    rw [List.getElem?_set_self hlt] at h
    exact Or.inl ⟨rfl, (Option.some.inj h).symm⟩
  · rw [List.getElem?_set_ne (Ne.symm hn)] at h
    exact Or.inr ⟨hn, h⟩

theorem getElem?_set_own {l : List L} (hw : l[w]? = some x) : (l.set w y)[w]? = some y :=
  List.getElem?_set_self (List.getElem?_eq_some_iff.mp hw).1

theorem mem_set_iff {l : List L} (hw : l[w]? = some x) (hz : z ≠ x) : z ∈ l.set w y ↔ z = y ∨ z ∈ l := by
  constructor
  · exact fun h => (List.mem_or_eq_of_mem_set h).symm
  · rintro (rfl | h)
    · exact List.mem_of_getElem? (getElem?_set_own hw)
    · obtain ⟨n, hn⟩ := List.getElem?_of_mem h
      have hne : n ≠ w := by
        rintro rfl
        exact hz (Option.some.inj (hn.symm.trans hw))
      exact List.mem_of_getElem? ((List.getElem?_set_ne (Ne.symm hne)).trans hn)

/-- Two threads of a kind are counted twice. -/
theorem two_le_countP {p : L → Bool} {l : List L} (hne : n ≠ w) (hn : l[n]? = some y) (hw : l[w]? = some x)
    (hy : p y = true) (hx : p x = true) : 2 ≤ l.countP p := by
  induction l generalizing n w with
  | nil => cases hn
  | cons z l ih =>
    have hpos : ∀ {m : Nat} {a : L}, l[m]? = some a → p a = true → 0 < l.countP p := fun ha hp =>
      List.countP_pos_iff.mpr ⟨_, List.mem_of_getElem? ha, hp⟩
    rw [List.countP_cons]
    cases n with
    | zero =>
      cases w with
      | zero => exact absurd rfl hne
      | succ w =>
        cases hn
        have := hpos (by simpa using hw) hx
        rw [if_pos hy]
        omega
    | succ n =>
      cases w with
      | zero =>
        cases hw
        have := hpos (by simpa using hn) hy
        rw [if_pos hx]
        omega
      | succ w =>
        have := ih (n := n) (w := w) (by omega) (by simpa using hn) (by simpa using hw)
        omega

theorem countP_le_one {p : L → Bool} {l : List L} (h : ∀ (n : Nat) (y : L), l[n]? = some y → p y = true → n = w) :
    l.countP p ≤ 1 := by
  induction l generalizing w with
  | nil => exact Nat.zero_le 1
  | cons z l ih =>
    rw [List.countP_cons]
    cases w with
    | zero =>
      have hzero : l.countP p = 0 := by
        rw [List.countP_eq_zero]
        intro y hy hp
        obtain ⟨n, hn⟩ := List.getElem?_of_mem hy
        exact absurd (h (n + 1) y (by simpa using hn) hp) (Nat.succ_ne_zero n)
      rw [hzero]
      split <;> omega
    | succ w =>
      rw [if_neg fun hp => absurd (h 0 z rfl hp) (Nat.succ_ne_zero w).symm]
      exact ih fun n y hn hp => Nat.succ.inj (h (n + 1) y (by simpa using hn) hp)

/-! ## Invariants -/

theorem Runs.invariant {P : Threads S L → Prop} (hstep : ∀ t u, P t → Step M t u → P u) (h : Runs M t n u)
    (ht : P t) : P u := by
  induction h with
  | refl => exact ht
  | step _ hst ih => exact hstep _ _ ih hst

/-- What holds of every thread with the shared state: a step keeps it for the thread that takes it, and
disturbs no other. -/
theorem Runs.each {I : Nat → S → L → Prop}
    (hmove : ∀ w s x s' y, I w s x → M w s x s' y → I w s' y ∧ ∀ v z, v ≠ w → I v s z → I v s' z)
    (h : Runs M t n u) (ht : ∀ (w : Nat) (x : L), t.locals[w]? = some x → I w t.shared x) :
    ∀ (w : Nat) (x : L), u.locals[w]? = some x → I w u.shared x := by
  refine h.invariant (P := fun t => ∀ (w : Nat) (x : L), t.locals[w]? = some x → I w t.shared x) ?_ ht
  intro t u ht hst
  cases hst with
  | @move w x y s hw hm =>
    obtain ⟨hown, hother⟩ := hmove _ _ _ _ _ (ht w x hw) hm
    intro v z hv
    rcases getElem?_set_cases hv with ⟨rfl, rfl⟩ | ⟨hne, hv⟩
    · exact hown
    · exact hother v z hne (ht v z hv)

theorem Step.length (h : Step M t u) : u.locals.length = t.locals.length := by
  cases h
  exact List.length_set

theorem Runs.length (h : Runs M t n u) : u.locals.length = t.locals.length := by
  induction h with
  | refl => rfl
  | step _ hst ih => rw [hst.length, ih]

/-! ## What all threads together come to -/

section

variable {A : Type} [AddCommMonoid A]

def total (f : L → A) (t : Threads S L) : A := (t.locals.map f).sum

theorem total_set (f : L → A) {l : List L} (hw : l[w]? = some x) :
    ((l.set w y).map f).sum + f x = (l.map f).sum + f y := by
  induction l generalizing w with
  | nil => cases hw
  | cons z l ih =>
    cases w with
    | zero =>
      cases hw
      rw [List.set_cons_zero, List.map_cons, List.map_cons, List.sum_cons, List.sum_cons]
      abel
    | succ w =>
      have := ih (w := w) (by simpa using hw)
      rw [List.set_cons_succ, List.map_cons, List.map_cons, List.sum_cons, List.sum_cons, add_assoc, this, add_assoc]

end

/-- A counter that every thread changes by what its own share changes counts all shares. -/
theorem Step.counter {A : Type} [AddCommGroup A] {c : S → A} {f : L → A}
    (hmove : ∀ w s x s' y, M w s x s' y → c s' + f x = c s + f y) (hst : Step M t u) (h : c t.shared = t.total f) :
    c u.shared = u.total f := by
  cases hst with
  | @move w x y s hw hm =>
    have hc := hmove _ _ _ _ _ hm
    have ht := total_set (y := y) f hw
    have h : c t.shared = (t.locals.map f).sum := h
    change c s = ((t.locals.set w y).map f).sum
    apply add_right_cancel (b := f x)
    rw [hc, ht, h]

/-! ## One owner -/

/-- Just the thread that is noted as the owner holds. -/
def Owned (owner : S → Option Nat) (holds : L → Prop) (t : Threads S L) : Prop :=
  ∀ w : Nat, owner t.shared = some w ↔ ∃ x, t.locals[w]? = some x ∧ holds x

section

variable {owner : S → Option Nat} {holds : L → Prop}

theorem Owned.holds_iff (h : t.Owned owner holds) (hw : t.locals[w]? = some x) : holds x ↔ owner t.shared = some w := by
  refine ⟨fun hx => (h w).mpr ⟨x, hw, hx⟩, fun ho => ?_⟩
  obtain ⟨y, hy, hholds⟩ := (h w).mp ho
  cases hw.symm.trans hy
  exact hholds

theorem Owned.unique (h : t.Owned owner holds) (hw : t.locals[w]? = some x) (hx : holds x)
    (hv : t.locals[n]? = some z) (hz : holds z) : n = w := by
  have h₁ := (h.holds_iff hw).mp hx
  have h₂ := (h.holds_iff hv).mp hz
  exact Option.some.inj (h₂.symm.trans h₁)

/-- A thread takes what is free, and gives up only what is its own. -/
theorem Step.owned (hmove : ∀ w s x s' y, M w s x s' y → (holds x ↔ owner s = some w) →
      (holds y ↔ owner s' = some w) ∧ ∀ v, v ≠ w → (owner s' = some v ↔ owner s = some v))
    (hst : Step M t u) (h : t.Owned owner holds) : u.Owned owner holds := by
  cases hst with
  | @move w x y s hw hm =>
    obtain ⟨hown, hother⟩ := hmove _ _ _ _ _ hm (h.holds_iff hw)
    intro v
    by_cases hv : v = w
    · subst hv
      refine hown.symm.trans ⟨fun hy => ⟨y, getElem?_set_own hw, hy⟩, ?_⟩
      rintro ⟨z, hz, hholds⟩
      cases (getElem?_set_own hw).symm.trans hz
      exact hholds
    · refine (hother v hv).trans ((h v).trans (exists_congr fun z => and_congr_left fun _ => ?_))
      change t.locals[v]? = some z ↔ (t.locals.set w y)[v]? = some z
      rw [List.getElem?_set_ne (Ne.symm hv)]

end

/-! ## An end -/

/-- Each thread has so many steps left as long as the shared state stays the same. A step that gives the
others new ones costs its thread more than it gives to all of them together. -/
theorem Step.fuel {f : S → L → Nat} (N : Nat)
    (hmove : ∀ w s x s' y, M w s x s' y → ∃ rise, (∀ z, f s' z ≤ f s z + rise) ∧ f s' y + N * rise < f s x)
    (hst : Step M t u) (hN : t.locals.length ≤ N) : u.total (f u.shared) < t.total (f t.shared) := by
  cases hst with
  | @move w x y s hw hm =>
    obtain ⟨rise, hrise, hlt⟩ := hmove _ _ _ _ _ hm
    have hall : ∀ l : List L, (l.map (f s)).sum ≤ (l.map (f t.shared)).sum + l.length * rise := by
      intro l
      induction l with
      | nil => simp
      | cons z l ih =>
        have hz := hrise z
        rw [List.map_cons, List.map_cons, List.sum_cons, List.sum_cons, List.length_cons, Nat.succ_mul]
        omega
    -- The thread itself is counted apart, before and after its step.
    have hset := total_set (y := y) (f s) hw
    have hsplit : ∀ l : List L, l[w]? = some x →
        (l.map (f s)).sum + f t.shared x ≤ (l.map (f t.shared)).sum + f s x + l.length * rise := by
      intro l hl
      obtain ⟨l₁, l₂, rfl⟩ := List.mem_iff_append.mp (List.mem_of_getElem? hl)
      have h₁ := hall l₁
      have h₂ := hall l₂
      simp only [List.map_append, List.map_cons, List.sum_append, List.sum_cons, List.length_append, List.length_cons,
        Nat.add_mul, Nat.succ_mul]
      omega
    have hle := hsplit _ hw
    have hmul : t.locals.length * rise ≤ N * rise := Nat.mul_le_mul_right _ hN
    change ((t.locals.set w y).map (f s)).sum < (t.locals.map (f t.shared)).sum
    omega

theorem Runs.bounded {f : S → L → Nat} (N : Nat)
    (hmove : ∀ w s x s' y, M w s x s' y → ∃ rise, (∀ z, f s' z ≤ f s z + rise) ∧ f s' y + N * rise < f s x)
    (h : Runs M t n u) (hN : t.locals.length ≤ N) : n + u.total (f u.shared) ≤ t.total (f t.shared) := by
  induction h with
  | refl => rw [zero_add]
  | step h hst ih =>
    have := hst.fuel N hmove (h.length.trans_le hN)
    omega

end Threads

end Scry2.Lib
