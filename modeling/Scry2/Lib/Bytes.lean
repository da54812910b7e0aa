import Mathlib.Data.List.Lex
import Mathlib.Data.UInt
import Mathlib.Data.Prod.Lex
import Mathlib.Tactic.Ring

/-!
# Bytes and big-endian numbers

The machine integers as linear orders, the byte-wise order of byte strings, and the fact that
makes packed keys searchable: comparing big-endian bytes compares the numbers.
-/

namespace Scry2.Lib

abbrev Bytes := List UInt8

/-! ## Machine integers are linearly ordered -/

instance linearOrderUInt8 : LinearOrder UInt8 where
  le_refl := UInt8.le_refl
  le_trans _ _ _ := UInt8.le_trans
  le_antisymm _ _ := UInt8.le_antisymm
  le_total := UInt8.le_total
  lt_iff_le_not_ge a b := by
    rw [UInt8.lt_iff_toNat_lt, UInt8.le_iff_toNat_le, UInt8.le_iff_toNat_le]; omega
  toOrd := inferInstance
  toDecidableLE := inferInstance
  toDecidableEq := inferInstance
  toDecidableLT := inferInstance

instance linearOrderUInt32 : LinearOrder UInt32 where
  le_refl := UInt32.le_refl
  le_trans _ _ _ := UInt32.le_trans
  le_antisymm _ _ := UInt32.le_antisymm
  le_total := UInt32.le_total
  lt_iff_le_not_ge a b := by
    rw [UInt32.lt_iff_toNat_lt, UInt32.le_iff_toNat_le, UInt32.le_iff_toNat_le]; omega
  toOrd := inferInstance
  toDecidableLE := inferInstance
  toDecidableEq := inferInstance
  toDecidableLT := inferInstance

instance linearOrderUInt64 : LinearOrder UInt64 where
  le_refl := UInt64.le_refl
  le_trans _ _ _ := UInt64.le_trans
  le_antisymm _ _ := UInt64.le_antisymm
  le_total := UInt64.le_total
  lt_iff_le_not_ge a b := by
    rw [UInt64.lt_iff_toNat_lt, UInt64.le_iff_toNat_le, UInt64.le_iff_toNat_le]; omega
  toOrd := inferInstance
  toDecidableLE := inferInstance
  toDecidableEq := inferInstance
  toDecidableLT := inferInstance

/-- `UInt64` keys decide membership in a list. -/
instance lawfulBEqUInt64 : LawfulBEq UInt64 := inferInstance

/-! ## Lexicographic order of byte strings -/

theorem cmp_bytes (a b : Bytes) : (cmp a b).Compares a b := by
  unfold cmp cmpUsing
  split_ifs with h1 h2
  · exact h1
  · exact h2
  · exact le_antisymm (not_lt.mp h2) (not_lt.mp h1)

theorem append_lt_append_iff {α : Type*} [LinearOrder α] {a c : List α} (h : a.length = c.length)
    (b d : List α) : a ++ b < c ++ d ↔ a < c ∨ a = c ∧ b < d := by
  induction a generalizing c with
  | nil =>
    obtain rfl : c = [] := List.eq_nil_of_length_eq_zero h.symm
    simp
  | cons x xs ih =>
    cases c with
    | nil => simp at h
    | cons y ys =>
      simp only [List.cons_append, List.cons_lt_cons_iff, ih (by simpa using h), List.cons.injEq]
      tauto

/-! ## Big-endian numbers -/

/-- The `w` low bytes of `n`, most significant first. -/
def beBytes : Nat → Nat → Bytes
  | 0, _ => []
  | w + 1, n => UInt8.ofNat (n / 256 ^ w) :: beBytes w n

/-- The number whose big-endian bytes are given. -/
def ofBe (bs : Bytes) : Nat := bs.foldl (fun acc b => acc * 256 + b.toNat) 0

@[simp] theorem beBytes_length (w n : Nat) : (beBytes w n).length = w := by
  induction w with
  | zero => rfl
  | succ w ih => simp [beBytes, ih]

theorem foldl_be (bs : Bytes) (acc : Nat) :
    bs.foldl (fun acc b => acc * 256 + b.toNat) acc = acc * 256 ^ bs.length + ofBe bs := by
  induction bs generalizing acc with
  | nil => simp [ofBe]
  | cons b bs ih =>
    simp only [List.foldl_cons, ofBe, List.length_cons]
    rw [ih, ih (0 * 256 + b.toNat)]
    ring

@[simp] theorem ofBe_nil : ofBe [] = 0 := rfl

theorem ofBe_cons (b : UInt8) (bs : Bytes) : ofBe (b :: bs) = b.toNat * 256 ^ bs.length + ofBe bs := by
  rw [ofBe, List.foldl_cons, foldl_be]
  simp

theorem ofBe_lt (bs : Bytes) : ofBe bs < 256 ^ bs.length := by
  induction bs with
  | nil => simp
  | cons b bs ih =>
    rw [ofBe_cons, List.length_cons]
    have hb := b.toNat_lt
    calc b.toNat * 256 ^ bs.length + ofBe bs
        < b.toNat * 256 ^ bs.length + 256 ^ bs.length := by omega
      _ = (b.toNat + 1) * 256 ^ bs.length := by ring
      _ ≤ 256 * 256 ^ bs.length := Nat.mul_le_mul_right _ (by omega)
      _ = 256 ^ (bs.length + 1) := by ring

theorem ofBe_beBytes (w n : Nat) : ofBe (beBytes w n) = n % 256 ^ w := by
  induction w with
  | zero => simp [beBytes, Nat.mod_one]
  | succ w ih =>
    have top : (UInt8.ofNat (n / 256 ^ w)).toNat = n / 256 ^ w % 256 := by simp
    rw [beBytes, ofBe_cons, ih, beBytes_length, top, Nat.pow_succ, Nat.mod_mul]
    ring

theorem ofBe_beBytes_of_lt {w n : Nat} (h : n < 256 ^ w) : ofBe (beBytes w n) = n := by
  rw [ofBe_beBytes, Nat.mod_eq_of_lt h]

/-- Byte-wise comparison of equally long big-endian strings is numeric comparison. -/
theorem ofBe_lt_iff {a b : Bytes} (h : a.length = b.length) : ofBe a < ofBe b ↔ a < b := by
  induction a generalizing b with
  | nil =>
    obtain rfl : b = [] := List.eq_nil_of_length_eq_zero h.symm
    simp
  | cons x xs ih =>
    cases b with
    | nil => simp at h
    | cons y ys =>
      have hl : xs.length = ys.length := by simpa using h
      have hx := ofBe_lt xs
      have hy := ofBe_lt ys
      rw [ofBe_cons, ofBe_cons, List.cons_lt_cons_iff, ← ih hl, UInt8.lt_iff_toNat_lt,
        ← UInt8.toNat_inj]
      rw [hl] at hx ⊢
      rcases Nat.lt_trichotomy x.toNat y.toNat with hlt | heq | hgt
      · have : (x.toNat + 1) * 256 ^ ys.length ≤ y.toNat * 256 ^ ys.length :=
          Nat.mul_le_mul_right _ hlt
        constructor
        · intro _; exact Or.inl hlt
        · intro _; rw [Nat.add_mul] at this; omega
      · rw [heq]; omega
      · have : (y.toNat + 1) * 256 ^ ys.length ≤ x.toNat * 256 ^ ys.length :=
          Nat.mul_le_mul_right _ hgt
        rw [Nat.add_mul] at this
        omega

theorem beBytes_lt_iff {w m n : Nat} (hm : m < 256 ^ w) (hn : n < 256 ^ w) :
    beBytes w m < beBytes w n ↔ m < n := by
  rw [← ofBe_lt_iff (by simp), ofBe_beBytes_of_lt hm, ofBe_beBytes_of_lt hn]

end Scry2.Lib
