import Scry2.Text
import Scry2.Lib.Sorted
import Mathlib.Order.OrderDual
import Mathlib.Data.Prod.Lex

/-!
# Which display name a symbol keeps

`prefers_name` of `writer.rs`. It compares two candidates by a rank (`nameRank`), so keeping the
better one is associative; it is commutative except on two different degenerate names.
-/

open Scry2.Lib

namespace Scry2

/-! ## Characters -/

/-- The Unicode tables of the Rust standard library. Only the ASCII part of
`char::is_alphanumeric` is fixed by its documentation across Unicode versions. -/
class Unicode where
  is_alphanumeric : Char → Bool
  ascii : ∀ c : Char, c.toNat < 128 → is_alphanumeric c = c.isAlphanum

/-- Tables that know ASCII only. -/
@[reducible] def asciiUnicode : Unicode := ⟨Char.isAlphanum, fun _ _ => rfl⟩

/-- `char::is_whitespace`: the `White_Space` property. -/
def is_whitespace (c : Char) : Bool :=
  let n := c.toNat
  (9 ≤ n && n ≤ 13) || n == 0x20 || n == 0x85 || n == 0xA0 || n == 0x1680 ||
    (0x2000 ≤ n && n ≤ 0x200A) || n == 0x2028 || n == 0x2029 || n == 0x202F || n == 0x205F ||
    n == 0x3000

/-- `str::trim`, as its characters. -/
def trim (s : String) : List Char :=
  ((s.toList.dropWhile is_whitespace).reverse.dropWhile is_whitespace).reverse

/-! ## The preference -/

def is_ticket_name (name : String) : Bool := (as_bytes "kythe:").isPrefixOf (as_bytes name)

/-- `(cand.len(), cand) < (cur.len(), cur)`: shorter first, then byte order. -/
def shorterLex (cand cur : String) : Bool :=
  len cand < len cur || (len cand == len cur && decide (as_bytes cand < as_bytes cur))

theorem shorterLex_iff (cand cur : String) :
    shorterLex cand cur = true ↔ toLex (len cand, as_bytes cand) < toLex (len cur, as_bytes cur) := by
  simp [shorterLex, Prod.Lex.toLex_lt_toLex]

section

variable [Unicode]

def is_degenerate_name (name : String) : Bool :=
  let t := trim name
  if t.isEmpty then true else !t.any Unicode.is_alphanumeric

def prefers_name (cur cand : String) : Bool :=
  if cand == "" then false
  else if cur == "" then true
  else match is_degenerate_name cur, is_degenerate_name cand with
    | false, true => false
    | true, false => true
    | true, true => false
    | false, false =>
      match is_ticket_name cur, is_ticket_name cand with
      | true, false => true
      | false, true => false
      | _, _ => shorterLex cand cur

/-- The name kept out of the current one and a candidate. -/
def pickName (cur cand : String) : String := if prefers_name cur cand then cand else cur

/-! ## The rank behind it -/

/-- Empty, degenerate, ticket, human name. -/
def nameClass (s : String) : Nat :=
  if s = "" then 0 else if is_degenerate_name s then 1 else if is_ticket_name s then 2 else 3

/-- Class first; within tickets and within human names, shorter and then smaller is better. -/
def nameRank (s : String) : ℕ ×ₗ (ℕ ×ₗ Bytes)ᵒᵈ :=
  toLex (nameClass s,
    OrderDual.toDual (if nameClass s < 2 then toLex (0, []) else toLex (len s, as_bytes s)))

theorem nameClass_eq_zero_iff (s : String) : nameClass s = 0 ↔ s = "" := by
  unfold nameClass; split_ifs with h <;> simp [h]

theorem prefers_name_iff (cur cand : String) :
    prefers_name cur cand = true ↔ nameRank cur < nameRank cand := by
  have hlt : nameRank cur < nameRank cand ↔ nameClass cur < nameClass cand ∨
      nameClass cur = nameClass cand ∧ 2 ≤ nameClass cand ∧
        toLex (len cand, as_bytes cand) < toLex (len cur, as_bytes cur) := by
    rw [nameRank, nameRank, Prod.Lex.toLex_lt_toLex, OrderDual.toDual_lt_toDual]
    by_cases hc : nameClass cand < 2
    · refine or_congr_right (and_congr_right fun he => ?_)
      have hc' : nameClass cur < 2 := lt_of_eq_of_lt he hc
      simp [hc, hc']
    · refine or_congr_right (and_congr_right fun he => ?_)
      have hc' : ¬ nameClass cur < 2 := fun h => hc (lt_of_eq_of_lt he.symm h)
      simp [hc, hc', not_lt.mp hc]
  rw [hlt, ← shorterLex_iff]
  unfold prefers_name nameClass
  by_cases h1 : cand = "" <;> by_cases h2 : cur = "" <;>
    cases h3 : is_degenerate_name cur <;> cases h4 : is_degenerate_name cand <;>
    cases h5 : is_ticket_name cur <;> cases h6 : is_ticket_name cand <;> simp [*]

/-- Two names of one rank are equal unless both are degenerate. -/
theorem nameRank_inj {a b : String} (h : nameRank a = nameRank b) :
    a = b ∨ nameClass a = 1 ∧ nameClass b = 1 := by
  have hc : nameClass a = nameClass b := by
    have := congrArg (fun x => (ofLex x).1) h
    simpa [nameRank] using this
  rcases Nat.lt_or_ge (nameClass a) 2 with hlt | hge
  · rcases Nat.eq_zero_or_pos (nameClass a) with h0 | hpos
    · left
      rw [(nameClass_eq_zero_iff a).mp h0, (nameClass_eq_zero_iff b).mp (hc ▸ h0)]
    · right; omega
  · left
    have := congrArg (fun x => (ofLex x).2) h
    simp only [nameRank, ← hc, if_neg (not_lt.mpr hge), ofLex_toLex,
      EmbeddingLike.apply_eq_iff_eq, Prod.mk.injEq] at this
    exact as_bytes_injective this.2

theorem pickName_eq (cur cand : String) : pickName cur cand = better nameRank cur cand := by
  unfold pickName better
  by_cases h : nameRank cur < nameRank cand
  · rw [if_pos h, if_pos ((prefers_name_iff _ _).mpr h)]
  · rw [if_neg h, if_neg fun hp => h ((prefers_name_iff _ _).mp hp)]

theorem pickName_assoc (a b c : String) :
    pickName (pickName a b) c = pickName a (pickName b c) := by
  simp only [pickName_eq, better_assoc]

theorem pickName_ne_empty (cur cand : String) : pickName cur cand ≠ "" ↔ cur ≠ "" ∨ cand ≠ "" := by
  by_cases hcand : cand = ""
  · simp [pickName, prefers_name, hcand]
  · by_cases hcur : cur = ""
    · simp [pickName, prefers_name, hcur, hcand]
    · unfold pickName
      split <;> simp [hcur, hcand]

end

end Scry2
