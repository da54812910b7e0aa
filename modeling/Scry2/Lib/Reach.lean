import Mathlib.Data.Set.Card
import Mathlib.Data.Set.Finite.Lattice

/-!
# Reachability within a number of steps

A search that keeps one element per key covers what can be reached when the elements it drops could
not have led further than the ones it keeps.
-/

namespace Scry2.Lib

variable {α κ : Type*}

/-- `Within step start n a`: at most `n` steps lead from the start to `a`. -/
inductive Within (step : α → α → Prop) (start : α → Prop) : Nat → α → Prop
  | start {n : Nat} {a : α} (h : start a) : Within step start n a
  | step {n : Nat} {a b : α} (h : Within step start n a) (hab : step a b) : Within step start (n + 1) b

section

variable {step : α → α → Prop} {start : α → Prop}

theorem Within.mono {n m : Nat} {a : α} (h : Within step start n a) (hnm : n ≤ m) :
    Within step start m a := by
  induction h generalizing m with
  | start h => exact .start h
  | step _ hab ih =>
    obtain ⟨m, rfl⟩ : ∃ k, m = k + 1 := ⟨m - 1, by omega⟩
    exact .step (ih (by omega)) hab

theorem within_zero_iff {a : α} : Within step start 0 a ↔ start a :=
  ⟨fun h => by cases h; assumption, .start⟩

theorem Within.imp {step' : α → α → Prop} {n : Nat} {a : α} (h : Within step start n a)
    (himp : ∀ a b, step a b → step' a b) : Within step' start n a := by
  induction h with
  | start h => exact .start h
  | step _ hab ih => exact .step ih (himp _ _ hab)

/-- Finitely many starts and finitely many steps from each element. -/
theorem within_finite (hstart : {a | start a}.Finite) (hstep : ∀ a, {b | step a b}.Finite) (n : Nat) :
    {a | Within step start n a}.Finite := by
  induction n with
  | zero => exact hstart.subset fun a h => within_zero_iff.mp h
  | succ n ih =>
    refine (hstart.union (Set.Finite.biUnion ih fun a _ => hstep a)).subset ?_
    rintro b (h | ⟨h, hab⟩)
    · exact .inl h
    · exact .inr (Set.mem_biUnion h hab)

end

/-- From an element of `P`, `fast` leads wherever `slow` leads from an element of `Q` with the same key. -/
def Follows (key : α → κ) (P Q : α → Prop) (fast slow : α → α → Prop) : Prop :=
  ∀ a b, P a → Q b → key a = key b → ∀ x, slow b x → ∃ y, fast a y ∧ key y = key x

/-- A search that holds the start and expands all it holds below `depth` holds every key within
`depth`. -/
theorem Follows.covers {key : α → κ} {fast slow : α → α → Prop} {start : α → Prop} {depth : Nat}
    {Held : α → Nat → Prop} (hstart : ∀ a, start a → ∃ z, Held z 0 ∧ key z = key a)
    (hexpand : ∀ a h, Held a h → h < depth → ∀ y, fast a y → ∃ z g, Held z g ∧ g ≤ h + 1 ∧ key z = key y)
    (hfollows : Follows key (fun a => ∃ h < depth, Held a h) (fun b => ∃ n < depth, Within slow start n b) fast slow)
    {n : Nat} {b : α}
    (hb : Within slow start n b) (hn : n ≤ depth) : ∃ z g, Held z g ∧ g ≤ n ∧ key z = key b := by
  induction hb with
  | start h =>
    obtain ⟨z, hz, hkey⟩ := hstart _ h
    exact ⟨z, 0, hz, Nat.zero_le _, hkey⟩
  | @step n b x hb hbx ih =>
    obtain ⟨a, h, ha, hle, hkey⟩ := ih (by omega)
    have hlt : h < depth := by omega
    obtain ⟨y, hay, hyx⟩ := hfollows a b ⟨h, hlt, ha⟩ ⟨n, by omega, hb⟩ hkey x hbx
    obtain ⟨z, g, hz, hg, hzy⟩ := hexpand a h ha hlt y hay
    exact ⟨z, g, hz, by omega, hzy.trans hyx⟩

end Scry2.Lib
