import Scry2.Lib.Bytes
import Mathlib.Data.String.Basic

/-!
# Strings

A Rust `str` is a byte string that is valid UTF-8, and so is a `String` here. Rust compares, sorts
and measures strings by their bytes.
-/

open Scry2.Lib

namespace Scry2

/-! ## Bytes of a string -/

/-- `str::as_bytes`. -/
def as_bytes (s : String) : Bytes := s.toByteArray.data.toList

/-- `str::len`: the number of bytes. -/
def len (s : String) : Nat := (as_bytes s).length

/-- `str::contains`. -/
def contains (s needle : String) : Bool := decide (as_bytes needle <:+: as_bytes s)

/-- `std::str::from_utf8`. -/
def from_utf8 (bs : Bytes) : Option String := String.fromUTF8? ⟨bs.toArray⟩

theorem as_bytes_injective : Function.Injective as_bytes := by
  intro s t h
  apply String.toByteArray_inj.mp
  apply ByteArray.ext
  apply Array.ext'
  exact h

theorem from_utf8_as_bytes (s : String) : from_utf8 (as_bytes s) = some s := by
  have e : (⟨(as_bytes s).toArray⟩ : ByteArray) = s.toByteArray := by
    apply ByteArray.ext; simp [as_bytes]
  have hv : (⟨(as_bytes s).toArray⟩ : ByteArray).IsValidUTF8 := e ▸ s.isValidUTF8
  rw [from_utf8, String.fromUTF8?, dif_pos hv]
  exact congrArg some (String.toByteArray_inj.mp e)

theorem as_bytes_of_from_utf8 {bs : Bytes} {s : String} (h : from_utf8 bs = some s) : as_bytes s = bs := by
  unfold from_utf8 String.fromUTF8? at h
  split at h
  · cases h
    rfl
  · cases h

@[simp] theorem as_bytes_empty : as_bytes "" = [] := rfl

theorem as_bytes_eq_nil_iff (s : String) : as_bytes s = [] ↔ s = "" :=
  ⟨fun h => as_bytes_injective (h.trans as_bytes_empty.symm), fun h => h ▸ rfl⟩

theorem len_pos_iff (s : String) : 0 < len s ↔ s ≠ "" := by
  rw [len, List.length_pos_iff, Ne, as_bytes_eq_nil_iff]

theorem as_bytes_append (s t : String) : as_bytes (s ++ t) = as_bytes s ++ as_bytes t := by
  simp [as_bytes]

theorem len_append (s t : String) : len (s ++ t) = len s + len t := by
  simp [len, as_bytes_append]

theorem len_eq_utf8ByteSize (s : String) : len s = s.utf8ByteSize := by
  rw [← String.size_toByteArray]; rfl

theorem as_bytes_ofList (cs : List Char) :
    as_bytes (String.ofList cs) = cs.flatMap String.utf8EncodeChar := by
  unfold as_bytes
  simp [String.toByteArray_ofList, List.utf8Encode]

theorem utf8EncodeChar_ascii {c : Char} (h : c.toNat < 0x80) :
    String.utf8EncodeChar c = [UInt8.ofNat c.toNat] := by
  have hle : c.val.toNat ≤ 0x7f := Nat.le_of_lt_succ h
  unfold String.utf8EncodeChar
  exact if_pos hle

/-! ## The string blob keeps at most `u16::MAX` bytes of a string -/

/-- `str::is_char_boundary`. -/
def is_char_boundary (s : String) (i : Nat) : Bool := (⟨i⟩ : String.Pos.Raw).isValid s

/-- The `while end > 0 && !s.is_char_boundary(end)` loop. -/
def clampEnd (s : String) : Nat → Nat
  | 0 => 0
  | e + 1 => if is_char_boundary s (e + 1) then e + 1 else clampEnd s e

def u16Max : Nat := 65535

def clamp_blob_str (s : String) : String :=
  if len s ≤ u16Max then s
  -- The prefix up to a boundary is valid, so the default is never taken.
  else (from_utf8 ((as_bytes s).take (clampEnd s u16Max))).getD ""

theorem clamp_of_len_le {s : String} (h : len s ≤ u16Max) : clamp_blob_str s = s := if_pos h

theorem clampEnd_le (s : String) (e : Nat) : clampEnd s e ≤ e := by
  induction e with
  | zero => exact le_rfl
  | succ e ih =>
    rw [clampEnd]
    split
    · exact le_rfl
    · omega

theorem clampEnd_valid (s : String) (e : Nat) : (⟨clampEnd s e⟩ : String.Pos.Raw).IsValid s := by
  induction e with
  | zero => exact String.Pos.Raw.isValid_zero
  | succ e ih =>
    rw [clampEnd]
    split
    · rename_i h
      exact String.Pos.Raw.isValid_eq_true_iff.mp h
    · exact ih

theorem as_bytes_clamp (s : String) (h : ¬ len s ≤ u16Max) :
    as_bytes (clamp_blob_str s) = (as_bytes s).take (clampEnd s u16Max) := by
  have hv := (clampEnd_valid s u16Max).isValidUTF8_extract_zero
  have e : (⟨((as_bytes s).take (clampEnd s u16Max)).toArray⟩ : ByteArray) =
      s.toByteArray.extract 0 (clampEnd s u16Max) := by
    apply ByteArray.ext
    apply Array.ext'
    simp [as_bytes, Array.toList_extract, List.extract_eq_take_drop]
  rw [clamp_blob_str, if_neg h, from_utf8, String.fromUTF8?, dif_pos (e ▸ hv)]
  rfl

theorem len_clamp_le (s : String) : len (clamp_blob_str s) ≤ u16Max := by
  by_cases h : len s ≤ u16Max
  · rwa [clamp_of_len_le h]
  · rw [len, as_bytes_clamp s h, List.length_take]
    exact le_trans (min_le_left _ _) (clampEnd_le s u16Max)

theorem le_clampEnd {s : String} {p e : Nat} (hp : (⟨p⟩ : String.Pos.Raw).IsValid s) (h : p ≤ e) :
    p ≤ clampEnd s e := by
  induction e with
  | zero => exact h
  | succ e ih =>
    rw [clampEnd]
    split
    · exact h
    · rename_i hb
      apply ih
      rcases Nat.lt_or_eq_of_le h with hlt | rfl
      · omega
      · exact absurd (String.Pos.Raw.isValid_eq_true_iff.mpr hp) hb

/-- The end of the first character is a boundary, so something is kept. -/
theorem clamp_ne_empty {s : String} (h : s ≠ "") : clamp_blob_str s ≠ "" := by
  by_cases hl : len s ≤ u16Max
  · rwa [clamp_of_len_le hl]
  · obtain ⟨c, cs, hc⟩ : ∃ c cs, s.toList = c :: cs := by
      cases hs : s.toList with
      | nil => exact absurd (String.toList_eq_nil_iff.mp hs) h
      | cons c cs => exact ⟨c, cs, rfl⟩
    have hv : (⟨c.utf8Size⟩ : String.Pos.Raw).IsValid s := by
      rw [String.Pos.Raw.isValid_iff_exists_append]
      refine ⟨String.singleton c, String.ofList cs, ?_, ?_⟩
      · apply String.toList_inj.mp; simp [hc]
      · simp [String.Pos.Raw.ext_iff]
    have h4 : c.utf8Size ≤ u16Max := le_trans c.utf8Size_le_four (by decide)
    have hpos := c.utf8Size_pos
    have hend := le_clampEnd hv h4
    rw [← len_pos_iff, len, as_bytes_clamp s hl, List.length_take]
    rw [len] at hl
    omega

/-- A long string is cut at its last boundary that fits. -/
theorem clamp_append {s t : String} (hs : len s ≤ u16Max) (hlong : ¬ len (s ++ t) ≤ u16Max)
    (hgap : ∀ e, len s < e → e ≤ u16Max → ¬ (⟨e⟩ : String.Pos.Raw).IsValid (s ++ t)) :
    clamp_blob_str (s ++ t) = s := by
  have hv : (⟨len s⟩ : String.Pos.Raw).IsValid (s ++ t) := by
    rw [String.Pos.Raw.isValid_iff_exists_append]
    refine ⟨s, t, rfl, ?_⟩
    simp [String.Pos.Raw.ext_iff, len_eq_utf8ByteSize]
  have hend : clampEnd (s ++ t) u16Max = len s := by
    refine le_antisymm ?_ (le_clampEnd hv hs)
    by_contra hlt
    exact hgap _ (not_le.mp hlt) (clampEnd_le _ _) (clampEnd_valid _ _)
  apply as_bytes_injective
  rw [as_bytes_clamp _ hlong, hend, as_bytes_append, len, List.take_left]

end Scry2
