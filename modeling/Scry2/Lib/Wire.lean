import Scry2.Lib.Bytes

/-!
# The protobuf wire format

Varints and fields by their bytes. A varint need not be the shortest one of its value.
-/

namespace Scry2.Lib

/-- Seven bits a byte, the low ones first. Every byte but the last has its high bit set. -/
inductive Varint : Bytes → Nat → Prop
  | last (b : UInt8) (h : b.toNat < 0x80) : Varint [b] b.toNat
  | more (b : UInt8) {bs : Bytes} {n : Nat} (h : 0x80 ≤ b.toNat) (hs : Varint bs n) :
      Varint (b :: bs) (b.toNat % 0x80 + 0x80 * n)

theorem Varint.length_pos {bs : Bytes} {n : Nat} (h : Varint bs n) : 0 < bs.length := by
  cases h <;> exact Nat.succ_pos _

/-- In a varint that is cut, every byte says that more follow. -/
theorem Varint.high_of_cut {bs q : Bytes} {n : Nat} (h : Varint bs n) (hpre : q <+: bs) (hne : q ≠ bs) :
    ∀ b ∈ q, 0x80 ≤ b.toNat := by
  induction h generalizing q with
  | last b h =>
    rcases List.prefix_cons_iff.mp hpre with rfl | ⟨q, rfl, hq⟩
    · exact fun b hb => absurd hb List.not_mem_nil
    · rw [List.prefix_nil.mp hq] at hne
      exact absurd rfl hne
  | more b h hs ih =>
    rcases List.prefix_cons_iff.mp hpre with rfl | ⟨q, rfl, hq⟩
    · exact fun b hb => absurd hb List.not_mem_nil
    · refine List.forall_mem_cons.mpr ⟨h, ih hq ?_⟩
      rintro rfl
      exact hne rfl

inductive WireType where
  | varint
  | fixed64
  | len
  | fixed32
  deriving DecidableEq

def WireType.code : WireType → Nat
  | .varint => 0
  | .fixed64 => 1
  | .len => 2
  | .fixed32 => 5

theorem WireType.code_lt (t : WireType) : t.code < 8 := by
  cases t <;> decide

/-- What follows the tag of a field. -/
inductive Payload : WireType → Bytes → Prop
  | varint {bs : Bytes} {n : Nat} (h : Varint bs n) (hlen : bs.length ≤ 10) (hn : n < 2 ^ 64) : Payload .varint bs
  | fixed64 {bs : Bytes} (h : bs.length = 8) : Payload .fixed64 bs
  | len {size data : Bytes} (h : Varint size data.length) (hlen : size.length ≤ 10) : Payload .len (size ++ data)
  | fixed32 {bs : Bytes} (h : bs.length = 4) : Payload .fixed32 bs

/-- A field with any of the four wire types. -/
structure WireField where
  number : Nat
  type : WireType
  tag : Bytes
  payload : Bytes
  number_lt : number < 2 ^ 29
  tag_len : tag.length ≤ 10
  tag_ok : Varint tag (number * 8 + type.code)
  payload_ok : Payload type payload

def WireField.bytes (x : WireField) : Bytes := x.tag ++ x.payload

/-- A length-delimited field. -/
structure LenField where
  number : Nat
  tag : Bytes
  size : Bytes
  data : Bytes
  number_lt : number < 2 ^ 29
  tag_len : tag.length ≤ 10
  tag_ok : Varint tag (number * 8 + 2)
  size_len : size.length ≤ 10
  size_ok : Varint size data.length

def LenField.bytes (x : LenField) : Bytes := x.tag ++ (x.size ++ x.data)

theorem LenField.bytes_pos (x : LenField) : 0 < x.bytes.length := by
  have h := x.tag_ok.length_pos
  rw [LenField.bytes, List.length_append]
  omega

end Scry2.Lib
