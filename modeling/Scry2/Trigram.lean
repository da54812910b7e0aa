import Scry2.Builder

/-!
# The trigram index

`build_trigram_index` of `writer.rs` and the varints of `format.rs`. Every trigram of the
lowercased names has a posting region: a skip table with one entry for each block of 128 rows,
then the rows as gaps, each block starting afresh. The first pass sizes the regions, the second
fills them in place.
-/

open Scry2.Lib
open Std (ExtTreeMap)

namespace Scry2

/-! ## Varints -/

/-- Seven bits a byte, the low ones first; the high bit says that more follow. -/
def write_varint (v : Nat) : Bytes :=
  if 0x80 ≤ v then UInt8.ofNat (v % 0x80 + 0x80) :: write_varint (v / 0x80) else [UInt8.ofNat v]
decreasing_by omega

def varint_len (v : Nat) : Nat :=
  if 0x80 ≤ v then varint_len (v / 0x80) + 1 else 1
decreasing_by omega

/-! ## Trigrams of a name -/

def to_ascii_lowercase (b : UInt8) : UInt8 := if 0x41 ≤ b ∧ b ≤ 0x5a then b + 0x20 else b

/-- `s.iter().map(|b| b.to_ascii_lowercase()).collect()`. -/
def lowercase (bs : Bytes) : Bytes := bs.map to_ascii_lowercase

/-- A `[u8; 3]`. -/
@[ext] structure Tri where
  bytes : Bytes
  length_eq : bytes.length = 3

theorem Tri.bytes_injective : Function.Injective Tri.bytes := fun _ _ => Tri.ext

instance : LinearOrder Tri := LinearOrder.lift' Tri.bytes Tri.bytes_injective

instance : Std.TransOrd Tri := inferInstance

/-- `windows(3)`. -/
def windows3 : Bytes → List Tri
  | a :: b :: c :: rest => ⟨[a, b, c], rfl⟩ :: windows3 (b :: c :: rest)
  | _ => []

/-- The trigrams handed to the callback for one name: a window equal to the one before it is
skipped. -/
def rowTris (name : Bytes) : List Tri :=
  if name.length < 3 then [] else (windows3 (lowercase name)).destutter (· ≠ ·)

/-- `by_name.len().min(u32::MAX)`. -/
def rowCap (by_name : List NameRow) : Nat := min by_name.length 0xffffffff

/-- The name a row points at. -/
def NameRow.bytes (r : NameRow) (blob : Bytes) : Bytes := slice blob r.name_off r.name_len

/-- The calls `f(tri, row_id)` that `visit` makes, in order. -/
def visit (by_name : List NameRow) (blob : Bytes) : List (Tri × Nat) :=
  (by_name.take (rowCap by_name)).zipIdx.flatMap fun r =>
    (rowTris (r.1.bytes blob)).map fun tri => (tri, r.2)

/-! ## Pass 1: the size of each region -/

structure Acc where
  count : Nat
  block_bytes : Nat
  last : Nat

/-- The callback of the first pass, on the entry of its trigram. -/
def Acc.visit (row_id : Nat) (old : Option Acc) : Option Acc :=
  let a := old.getD ⟨0, 0, 0xffffffff⟩
  if a.count ≠ 0 ∧ a.last = row_id then some a
  else
    let delta := if a.count % TRIGRAM_BLOCK = 0 then row_id else row_id - a.last
    some ⟨a.count + 1, a.block_bytes + varint_len delta, row_id⟩

def pass1 (calls : List (Tri × Nat)) : ExtTreeMap Tri Acc :=
  calls.foldl (fun m c => m.alter c.1 (Acc.visit c.2)) ∅

/-! ## The dictionary -/

structure TrigramRow where
  trigram : Tri
  post_off : Nat
  post_len : Nat
  count : Nat

def TrigramRow.encode (r : TrigramRow) : Bytes :=
  r.trigram.bytes ++ ([0] ++ (beBytes 8 r.post_off ++ (beBytes 4 r.post_len ++ beBytes 4 r.count)))

def n_blocks (count : Nat) : Nat := (count + TRIGRAM_BLOCK - 1) / TRIGRAM_BLOCK

def Acc.region_len (a : Acc) : Nat := n_blocks a.count * SKIP_ENTRY + a.block_bytes

/-- One row a trigram in ascending order, each region starting where the one before ends. -/
def dictRows (total : Nat) : List (Tri × Acc) → List TrigramRow
  | [] => []
  | (tri, a) :: rest => ⟨tri, total, a.region_len, a.count⟩ :: dictRows (total + a.region_len) rest

/-! ## Pass 2: filling the regions -/

structure W where
  written : Nat
  block_cursor : Nat
  last : Nat

structure Fill where
  postings : Bytes
  wst : ExtTreeMap Tri W

/-- The callback of the second pass on a trigram whose region starts at `region_start` and holds
`count` rows. -/
def Fill.visit (s : Fill) (region_start count : Nat) (tri : Tri) (row_id : Nat) : Fill :=
  let w := s.wst[tri]?.getD ⟨0, region_start + n_blocks count * SKIP_ENTRY, 0xffffffff⟩
  if w.written ≠ 0 ∧ w.last = row_id then { s with wst := s.wst.insert tri w }
  else
    let at_block_start := w.written % TRIGRAM_BLOCK = 0
    let skip_entry := region_start + w.written / TRIGRAM_BLOCK * SKIP_ENTRY
    let block_rel := w.block_cursor - region_start
    let post := if at_block_start then writeAt s.postings (skip_entry + 4) (beBytes 4 block_rel)
      else s.postings
    let bytes := write_varint (if at_block_start then row_id else row_id - w.last)
    let post := writeAt post w.block_cursor bytes
    { postings := writeAt post skip_entry (beBytes 4 row_id)
      wst := s.wst.insert tri ⟨w.written + 1, w.block_cursor + bytes.length, row_id⟩ }

/-- The dictionary row of a trigram: `region_of[&tri]` and `counts[&tri]`. -/
def rowOf (rows : List TrigramRow) (tri : Tri) : Option TrigramRow := rows.find? (·.trigram = tri)

def pass2 (rows : List TrigramRow) (total : Nat) (calls : List (Tri × Nat)) : Fill :=
  calls.foldl (fun s c =>
    match rowOf rows c.1 with
    | some r => s.visit r.post_off r.count c.1 c.2
    -- Every visited trigram has its row.
    | none => s) ⟨List.replicate total 0, ∅⟩

/-- `(dict_bytes, postings_bytes)`. -/
def build_trigram_index (by_name : List NameRow) (blob : Bytes) : Bytes × Bytes :=
  let calls := visit by_name blob
  let acc := (pass1 calls).toList
  let rows := dictRows 0 acc
  let total := (acc.map fun e => e.2.region_len).sum
  (rows.flatMap TrigramRow.encode, (pass2 rows total calls).postings)

@[simp] theorem TrigramRow.encode_length (r : TrigramRow) : r.encode.length = TRIGRAM_LEN := by
  simp [TrigramRow.encode, TRIGRAM_LEN, r.trigram.length_eq]

/-! ## The index depends on the names only -/

theorem visit_congr {by_name : List NameRow} {blob blob' : Bytes}
    (h : ∀ r ∈ by_name, r.bytes blob = r.bytes blob') : visit by_name blob = visit by_name blob' := by
  unfold visit
  rw [List.flatMap_congr]
  intro r hr
  have hm : r.1 ∈ by_name := List.mem_of_mem_take (List.fst_mem_of_mem_zipIdx hr)
  rw [h r.1 hm]

theorem build_trigram_index_congr {by_name : List NameRow} {blob blob' : Bytes}
    (h : ∀ r ∈ by_name, r.bytes blob = r.bytes blob') :
    build_trigram_index by_name blob = build_trigram_index by_name blob' := by
  rw [build_trigram_index, visit_congr h, build_trigram_index]

end Scry2
