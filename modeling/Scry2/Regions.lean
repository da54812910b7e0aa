import Scry2.SubstringExact
import Mathlib.Algebra.Order.BigOperators.Group.List

/-!
# The regions of the trigram index

What a posting region is for, as a text of its list: the skip table, then the blocks. The second
pass of `build_trigram_index` writes exactly these texts, one after the other, and the reader
decodes each to the rows whose lowercased name has the trigram.
-/

open Scry2.Lib

namespace Scry2

/-! ## What a region is -/

/-- The rows of block `b` of a list. -/
def blockOf (ids : List Nat) (b : Nat) : List Nat := (ids.drop (b * TRIGRAM_BLOCK)).take TRIGRAM_BLOCK

/-- The steps from row to row, as varints. -/
def packFrom (last : Nat) : List Nat → Bytes
  | [] => []
  | r :: ids => write_varint (r - last) ++ packFrom r ids

/-- The first `n` blocks, each packed from zero. -/
def packed (ids : List Nat) (n : Nat) : Bytes := (List.range n).flatMap fun b => packFrom 0 (blockOf ids b)

/-- The largest row of a block, and where the block begins. -/
def skipEntry (ids : List Nat) (b : Nat) : Bytes :=
  beBytes 4 ((blockOf ids b).getLast?.getD 0) ++
    beBytes 4 (n_blocks ids.length * SKIP_ENTRY + (packed ids b).length)

/-- The skip table, then the blocks. -/
def regionBytes (ids : List Nat) : Bytes :=
  (List.range (n_blocks ids.length)).flatMap (skipEntry ids) ++ packed ids (n_blocks ids.length)

section

variable {ids : List Nat}

/-- Packing from the row before is writing the gaps, as long as the block does not end. -/
theorem packFrom_eq (k : Nat) {i : Nat} (hi : i + k ≤ ids.length)
    (hk : i % TRIGRAM_BLOCK + k ≤ TRIGRAM_BLOCK) :
    packFrom (if i % TRIGRAM_BLOCK = 0 then 0 else ids.getD (i - 1) 0) ((ids.drop i).take k) =
      (List.range' i k).flatMap fun j => write_varint (gap ids j) := by
  induction k generalizing i with
  | zero => rfl
  | succ k ih =>
    have hlt : i < ids.length := by omega
    have hget : ids[i] = ids.getD i 0 := by
      rw [List.getD_eq_getElem?_getD, List.getElem?_eq_getElem hlt, Option.getD_some]
    have hgap : ids[i] - (if i % TRIGRAM_BLOCK = 0 then 0 else ids.getD (i - 1) 0) = gap ids i := by
      unfold gap
      rw [hget]
      split_ifs
      · exact Nat.sub_zero _
      · rfl
    rw [List.drop_eq_getElem_cons hlt, List.take_succ_cons, packFrom, hgap, List.range'_succ,
      List.flatMap_cons]
    congr 1
    rcases Nat.eq_zero_or_pos k with rfl | hpos
    · rfl
    · have hmod : (i + 1) % TRIGRAM_BLOCK ≠ 0 ∧ (i + 1) % TRIGRAM_BLOCK + k ≤ TRIGRAM_BLOCK := by
        unfold TRIGRAM_BLOCK at *
        omega
      have := ih (i := i + 1) (by omega) hmod.2
      rw [if_neg hmod.1, Nat.add_sub_cancel, ← hget] at this
      exact this

theorem packed_succ (ids : List Nat) (b : Nat) :
    packed ids (b + 1) = packed ids b ++ packFrom 0 (blockOf ids b) := by
  unfold packed
  rw [List.range_succ, List.flatMap_append, List.flatMap_singleton]

/-- The blocks before `b` are the gaps of the rows before it. -/
theorem packed_eq {b : Nat} (hb : b ≤ n_blocks ids.length) :
    packed ids b = (List.range' 0 (min (b * TRIGRAM_BLOCK) ids.length)).flatMap fun j =>
      write_varint (gap ids j) := by
  induction b with
  | zero => simp [packed]
  | succ b ih =>
    have hlt : b * TRIGRAM_BLOCK < ids.length := (lt_n_blocks_iff _ _).mp hb
    have hmod : b * TRIGRAM_BLOCK % TRIGRAM_BLOCK = 0 := Nat.mul_mod_left _ _
    have htake : blockOf ids b =
        (ids.drop (b * TRIGRAM_BLOCK)).take (min TRIGRAM_BLOCK (ids.length - b * TRIGRAM_BLOCK)) := by
      unfold blockOf
      rw [List.take_eq_take_iff, List.length_drop]
      omega
    have hfit : b * TRIGRAM_BLOCK + min TRIGRAM_BLOCK (ids.length - b * TRIGRAM_BLOCK) ≤ ids.length := by omega
    have hblock := packFrom_eq _ hfit (by omega)
    rw [if_pos hmod, ← htake] at hblock
    have hsplit : min ((b + 1) * TRIGRAM_BLOCK) ids.length =
        b * TRIGRAM_BLOCK + min TRIGRAM_BLOCK (ids.length - b * TRIGRAM_BLOCK) := by
      unfold TRIGRAM_BLOCK at *
      omega
    rw [packed_succ, ih (by omega), hblock, hsplit,
      Nat.min_eq_left hlt.le, ← List.range'_append_1, Nat.zero_add, List.flatMap_append]

theorem length_gaps (i : Nat) :
    ((List.range' 0 i).flatMap fun j => write_varint (gap ids j)).length = cursor ids i := by
  induction i with
  | zero => rfl
  | succ i ih =>
    rw [List.range'_1_concat, List.flatMap_append, List.length_append, ih, cursor, Nat.zero_add,
      List.flatMap_singleton, write_varint_length]

theorem packed_length {b : Nat} (hb : b ≤ n_blocks ids.length) :
    (packed ids b).length = cursor ids (min (b * TRIGRAM_BLOCK) ids.length) := by
  rw [packed_eq hb, length_gaps]

theorem blockOf_getLast? {b : Nat} (hb : b < n_blocks ids.length) :
    (blockOf ids b).getLast? = some (maxId ids b) := by
  have hlt := (lt_n_blocks_iff _ _).mp hb
  have hlen : (blockOf ids b).length = min TRIGRAM_BLOCK (ids.length - b * TRIGRAM_BLOCK) := by
    unfold blockOf
    rw [List.length_take, List.length_drop]
  have hidx : b * TRIGRAM_BLOCK + ((blockOf ids b).length - 1) =
      min (b * TRIGRAM_BLOCK + (TRIGRAM_BLOCK - 1)) (ids.length - 1) := by
    rw [hlen]
    unfold TRIGRAM_BLOCK at *
    omega
  unfold maxId
  rw [List.getLast?_eq_getElem?, ← hidx, List.getD_eq_getElem?_getD]
  unfold blockOf at hlen ⊢
  rw [List.getElem?_take_of_lt (by unfold TRIGRAM_BLOCK at *; omega), List.getElem?_drop,
    List.getElem?_eq_getElem (by unfold TRIGRAM_BLOCK at *; omega), Option.getD_some]

theorem skipEntry_eq {b : Nat} (hb : b < n_blocks ids.length) :
    skipEntry ids b = beBytes 4 (maxId ids b) ++ beBytes 4 (skipLen ids + cursor ids (b * TRIGRAM_BLOCK)) := by
  have hlt := (lt_n_blocks_iff _ _).mp hb
  unfold skipEntry skipLen
  rw [blockOf_getLast? hb, packed_length hb.le, Nat.min_eq_left hlt.le, Option.getD_some]

@[simp] theorem skipEntry_length (b : Nat) : (skipEntry ids b).length = SKIP_ENTRY := by
  unfold skipEntry SKIP_ENTRY
  simp

theorem skipTable_length : ((List.range (n_blocks ids.length)).flatMap (skipEntry ids)).length = skipLen ids := by
  rw [flatMap_length_of _ skipEntry_length, List.length_range]
  rfl

theorem packed_all : packed ids (n_blocks ids.length) =
    (List.range' 0 ids.length).flatMap fun j => write_varint (gap ids j) := by
  rw [packed_eq le_rfl, Nat.min_eq_right]
  unfold n_blocks TRIGRAM_BLOCK
  omega

theorem regionBytes_length : (regionBytes ids).length = regionLen ids := by
  unfold regionBytes regionLen
  rw [List.length_append, skipTable_length, packed_all, length_gaps]

/-- A filled region is its text. -/
theorem Filled.eq_regionBytes {region : Bytes} (h : Filled region ids ids.length) :
    region = regionBytes ids := by
  have hlen := h.length
  have hskip : region.take (skipLen ids) = (List.range (n_blocks ids.length)).flatMap (skipEntry ids) := by
    have htake : (region.take (skipLen ids)).length = skipLen ids := by
      rw [List.length_take, hlen, regionLen]
      omega
    have hpieces : (region.take (skipLen ids)).length =
        0 + ((List.range (n_blocks ids.length)).map (skipEntry ids)).flatten.length := by
      rw [← List.flatMap_def, skipTable_length, htake, Nat.zero_add]
    rw [List.flatMap_def, ← drop_eq_flatten hpieces, List.drop_zero]
    intro b hb
    have hb : b < n_blocks ids.length := by simpa using hb
    have hlt := (lt_n_blocks_iff _ _).mp hb
    have hoff : ((((List.range (n_blocks ids.length)).map (skipEntry ids)).take b).flatten).length =
        b * SKIP_ENTRY := by
      rw [← List.map_take, ← List.flatMap_def, flatMap_length_of _ skipEntry_length, List.length_take,
        List.length_range, Nat.min_eq_left hb.le]
    have hbound : b * SKIP_ENTRY + 8 ≤ skipLen ids := by
      unfold skipLen SKIP_ENTRY
      omega
    rw [hoff, List.getElem_map, List.getElem_range, skipEntry_length, Nat.zero_add]
    have hcut : slice (slice region 0 (skipLen ids)) (b * SKIP_ENTRY) SKIP_ENTRY =
        slice region (0 + b * SKIP_ENTRY) SKIP_ENTRY := slice_slice hbound
    rw [Nat.zero_add] at hcut
    change slice (slice region 0 (skipLen ids)) (b * SKIP_ENTRY) SKIP_ENTRY = skipEntry ids b
    rw [hcut, show SKIP_ENTRY = 4 + 4 from rfl, slice_add, skipEntry_eq hb]
    exact congrArg₂ _ (h.max_ids b hlt) (h.block_offs b hlt)
  have hpack : region.drop (skipLen ids) = packed ids (n_blocks ids.length) := by
    rw [packed_all, List.flatMap_def]
    apply drop_eq_flatten
    · rw [← List.flatMap_def, length_gaps, hlen, regionLen]
    intro i hi
    have hi : i < ids.length := by simpa using hi
    rw [← List.map_take, ← List.flatMap_def, List.take_range'_of_length_ge hi.le, length_gaps]
    simp only [List.getElem_map, List.getElem_range', Nat.zero_add, Nat.one_mul, write_varint_length]
    exact h.varints i hi
  unfold regionBytes
  rw [← hskip, ← hpack, List.take_append_drop]

theorem slice_skipEntry {b : Nat} (hb : b < n_blocks ids.length) :
    slice (regionBytes ids) (b * SKIP_ENTRY) SKIP_ENTRY =
      beBytes 4 (maxId ids b) ++ beBytes 4 (skipLen ids + cursor ids (b * TRIGRAM_BLOCK)) := by
  have hbound : b * SKIP_ENTRY + SKIP_ENTRY ≤ skipLen ids := by
    unfold skipLen SKIP_ENTRY
    omega
  unfold regionBytes
  rw [slice_append_left (by rw [skipTable_length]; exact hbound),
    slice_flatMap _ skipEntry_length _ _ (by rwa [List.length_range]), List.getElem_range, skipEntry_eq hb]

/-- The text of a list is a filled region. -/
theorem filled_regionBytes (ids : List Nat) : Filled (regionBytes ids) ids ids.length where
  length := regionBytes_length
  varints i hi := by
    have := slice_flatten ((List.range' 0 ids.length).map fun j => write_varint (gap ids j)) (i := i)
      (by simpa using hi)
    rw [← List.map_take, ← List.flatMap_def, ← List.flatMap_def, List.take_range'_of_length_ge hi.le,
      length_gaps, ← packed_all] at this
    simp only [List.getElem_map, List.getElem_range', Nat.zero_add, Nat.one_mul, write_varint_length] at this
    unfold regionBytes
    rw [slice_append_right (by rw [skipTable_length]; omega), skipTable_length, Nat.add_sub_cancel_left]
    exact this
  max_ids b hb := by
    have := slice_skipEntry ((lt_n_blocks_iff _ _).mpr hb)
    rw [← Nat.add_zero (b * SKIP_ENTRY), ← slice_slice (show 0 + 4 ≤ SKIP_ENTRY by decide), this]
    exact slice_append_self _ _ (beBytes_length 4 _)
  block_offs b hb := by
    have := slice_skipEntry ((lt_n_blocks_iff _ _).mpr hb)
    rw [← slice_slice (show 4 + 4 ≤ SKIP_ENTRY by decide), this,
      slice_append_right (by rw [beBytes_length]), beBytes_length]
    exact slice_self _ (beBytes_length 4 _)

end

/-! ## The rows of a trigram -/

theorem mem_windows3_iff {tri : Tri} {l : Bytes} : tri ∈ windows3 l ↔ tri.bytes <:+: l := by
  constructor
  · intro h
    fun_induction windows3 l with
    | case1 a b c rest ih =>
      rcases List.mem_cons.mp h with rfl | h
      · exact ⟨[], rest, rfl⟩
      · exact (ih h).trans (List.suffix_cons a _).isInfix
    | case2 => cases h
  · intro h
    apply windows3_infix h
    obtain ⟨bytes, hb⟩ := tri
    obtain ⟨a, b, c, rfl⟩ := List.length_eq_three.mp hb
    exact List.mem_cons_self

/-- The rows whose lowercased name contains a trigram. -/
def rowsWith (by_name : List NameRow) (blob : Bytes) (tri : Tri) : List Nat :=
  (List.range by_name.length).filter fun i =>
    by_name[i]?.any fun row => decide (tri.bytes <:+: lowercase (row.bytes blob))

section

variable {by_name : List NameRow} {blob : Bytes}

theorem rowsWith_pairwise (tri : Tri) : (rowsWith by_name blob tri).Pairwise (· < ·) :=
  List.pairwise_lt_range.filter _

theorem mem_rowsWith {tri : Tri} {i : Nat} : i ∈ rowsWith by_name blob tri ↔
    ∃ row, by_name[i]? = some row ∧ tri.bytes <:+: lowercase (row.bytes blob) := by
  unfold rowsWith
  rw [List.mem_filter, List.mem_range, Option.any_eq_true]
  simp only [decide_eq_true_eq]
  constructor
  · rintro ⟨-, h⟩
    exact h
  · rintro ⟨row, hrow, h⟩
    exact ⟨(List.getElem?_eq_some_iff.mp hrow).1, row, hrow, h⟩

theorem idsOf_visit (hrows : by_name.length < 2 ^ 32) (tri : Tri) :
    idsOf (visit by_name blob) tri = rowsWith by_name blob tri := by
  have h : Enumerates (idsOf (visit by_name blob) tri) {i | i ∈ rowsWith by_name blob tri} := by
    refine ⟨idsOf_pairwise (visit_pairwise by_name blob) tri, fun i => ?_⟩
    rw [mem_idsOf, mem_visit hrows, Set.mem_ofPred_eq, mem_rowsWith]
    simp only [mem_windows3_iff]
  exact h.eq ⟨rowsWith_pairwise tri, fun _ => Iff.rfl⟩

end

/-! ## The regions fit the descriptors -/

theorem regionLen_le {ids : List Nat} (h : ∀ r ∈ ids, r < 2 ^ 32) : regionLen ids ≤ 13 * ids.length := by
  have hcur : ∀ i ≤ ids.length, cursor ids i ≤ 5 * i := by
    intro i hi
    induction i with
    | zero => rfl
    | succ i ih =>
      have hgap := gap_lt h hi
      have := varint_len_le (n := gap ids i) (k := 4) (by omega)
      have := ih (by omega)
      rw [cursor]
      omega
  have := hcur ids.length le_rfl
  unfold regionLen skipLen n_blocks TRIGRAM_BLOCK SKIP_ENTRY
  omega

section

variable {by_name : List NameRow} {blob : Bytes}

theorem rowsWith_length_le (by_name : List NameRow) (blob : Bytes) (tri : Tri) :
    (rowsWith by_name blob tri).length ≤ by_name.length := by
  unfold rowsWith
  exact (List.length_filter_le _ _).trans List.length_range.le

theorem rowsWith_lt (hrows : by_name.length < 2 ^ 32) (tri : Tri) :
    ∀ i ∈ rowsWith by_name blob tri, i < 2 ^ 32 := by
  intro i hi
  obtain ⟨row, hrow, -⟩ := mem_rowsWith.mp hi
  have := (List.getElem?_eq_some_iff.mp hrow).1
  omega

/-- There are no more trigrams than three bytes can spell. -/
theorem dictOf_length_le (calls : List (Tri × Nat)) : (dictOf calls).length ≤ 2 ^ 24 := by
  have hlt : (((dictOf calls).map fun r => ofBe r.trigram.bytes)).Pairwise (· < ·) := by
    rw [List.pairwise_map]
    refine dictOf_pairwise.imp fun {r s} h => ?_
    rw [ofBe_lt_iff (r.trigram.length_eq.trans s.trigram.length_eq.symm)]
    exact h
  have hsub : ((dictOf calls).map fun r => ofBe r.trigram.bytes) ⊆ List.range (2 ^ 24) := by
    intro n hn
    obtain ⟨r, -, rfl⟩ := List.mem_map.mp hn
    have := ofBe_lt r.trigram.bytes
    rw [r.trigram.length_eq] at this
    exact List.mem_range.mpr this
  have := (List.Nodup.subperm (hlt.imp ne_of_lt) hsub).length_le
  rwa [List.length_map, List.length_range] at this

theorem postingsLen_eq (calls : List (Tri × Nat)) :
    postingsLen calls = ((dictOf calls).map (·.post_len)).sum := by
  have h := congrArg (List.map fun e => e.2.1) (dictRows_entries 0 (pass1 calls).toList)
  rw [List.map_map, List.map_map] at h
  exact congrArg List.sum h.symm

theorem postingsLen_lt (hrows : by_name.length < 2 ^ 32) : postingsLen (visit by_name blob) < 2 ^ 64 := by
  have hlen : ∀ n ∈ (dictOf (visit by_name blob)).map (·.post_len), n ≤ 13 * 2 ^ 32 := by
    intro n hn
    obtain ⟨r, hr, rfl⟩ := List.mem_map.mp hn
    have h1 : regionLen (rowsWith by_name blob r.trigram) ≤ 13 * (rowsWith by_name blob r.trigram).length :=
      regionLen_le (rowsWith_lt hrows r.trigram)
    have h2 := rowsWith_length_le by_name blob r.trigram
    rw [(mem_dictOf hr).2.2, idsOf_visit hrows]
    omega
  have hsum := List.sum_le_card_nsmul _ _ hlen
  have hcount := dictOf_length_le (visit by_name blob)
  rw [List.length_map] at hsum
  rw [postingsLen_eq]
  calc _ ≤ _ := hsum
    _ ≤ 2 ^ 24 * (13 * 2 ^ 32) := Nat.mul_le_mul_right _ hcount
    _ < 2 ^ 64 := by decide

end

/-! ## The descriptor of a region -/

/-- The row of the dictionary that `trigram_lookup` decodes. -/
def dictPosting (dict : Bytes) (mid : Nat) : Posting :=
  let row := mid * TRIGRAM_LEN
  ⟨ofBe (slice dict (row + 4) 8), ofBe (slice dict (row + 12) 4), ofBe (slice dict (row + 16) 4)⟩

theorem trigram_lookup_eq (ix : Index) (tri : Tri) :
    ix.trigram_lookup tri = (bisectEq (fun mid =>
      cmp (slice ix.trigram_dict_slice (mid * TRIGRAM_LEN) 3) tri.bytes) 0 ix.hdr.trigram_dict_n).map
        (dictPosting ix.trigram_dict_slice) := rfl

section

variable {by_name : List NameRow} {blob : Bytes}

theorem dictPosting_eq (hrows : by_name.length < 2 ^ 32) {i : Nat} {r : TrigramRow}
    (hr : (dictOf (visit by_name blob))[i]? = some r) :
    dictPosting (build_trigram_index by_name blob).1 i = ⟨r.post_off, r.post_len % 2 ^ 32, r.count⟩ := by
  obtain ⟨hi, hget⟩ := List.getElem?_eq_some_iff.mp hr
  have hmem : r ∈ dictOf (visit by_name blob) := hget ▸ List.getElem_mem hi
  have hrow : ∀ x n, x + n ≤ TRIGRAM_LEN →
      slice (build_trigram_index by_name blob).1 (i * TRIGRAM_LEN + x) n = slice r.encode x n := by
    intro x n hx
    rw [build_trigram_index_dict, ← slice_slice hx, slice_flatMap _ TrigramRow.encode_length _ i hi, hget]
  obtain ⟨-, hoff, hlen, hcount⟩ := TrigramRow.slice_encode r
  have hstop := stop_le_postingsLen hmem
  have htotal : postingsLen (visit by_name blob) < 2 ^ 64 := postingsLen_lt hrows
  have hids := rowsWith_length_le by_name blob r.trigram
  have hc : r.count < 256 ^ 4 := by
    rw [(mem_dictOf hmem).2.1, idsOf_visit hrows]
    omega
  unfold dictPosting
  dsimp only
  rw [hrow 4 8 (by decide), hrow 12 4 (by decide), hrow 16 4 (by decide), hoff, hlen, hcount, ofBe_beBytes 4,
    ofBe_beBytes_of_lt (by omega), ofBe_beBytes_of_lt hc]
  rfl

end

/-! ## The skip table -/

theorem mem_blockOf_le {ids : List Nat} (h : ids.Pairwise (· < ·)) {b id : Nat}
    (hb : b < n_blocks ids.length) (hid : id ∈ blockOf ids b) : id ≤ maxId ids b := by
  have hlast := blockOf_getLast? hb
  have hp : (blockOf ids b).Pairwise (· < ·) := (h.drop).take
  obtain ⟨front, hfront⟩ := List.getLast?_eq_some_iff.mp hlast
  rw [hfront] at hid hp
  rcases List.mem_append.mp hid with hid | hid
  · exact ((List.pairwise_append.mp hp).2.2 id hid _ List.mem_cons_self).le
  · exact (List.mem_singleton.mp hid).le

theorem slice_block {ids : List Nat} {b : Nat} (hb : b < n_blocks ids.length) :
    slice (regionBytes ids) (n_blocks ids.length * SKIP_ENTRY + (packed ids b).length)
      (packFrom 0 (blockOf ids b)).length = packFrom 0 (blockOf ids b) := by
  have := slice_flatten ((List.range (n_blocks ids.length)).map fun c => packFrom 0 (blockOf ids c)) (i := b)
    (by simpa using hb)
  rw [← List.map_take, ← List.flatMap_def, ← List.flatMap_def, List.take_range, Nat.min_eq_left hb.le,
    List.getElem_map, List.getElem_range] at this
  have hskip : ((List.range (n_blocks ids.length)).flatMap (skipEntry ids)).length =
      n_blocks ids.length * SKIP_ENTRY := skipTable_length
  unfold regionBytes
  rw [slice_append_right (by rw [hskip]; omega), hskip, Nat.add_sub_cancel_left]
  exact this

/-- The skip table says of a block its largest row, and where in the region the block lies. -/
def SkipExact (post : Bytes) (p : Posting) (ids : List Nat) (b : Nat) : Prop :=
  ∃ m o, max_id_at post p b = .ok m ∧ (blockOf ids b).getLast? = some m.toNat ∧
    (∀ id ∈ blockOf ids b, id ≤ m.toNat) ∧ block_off_at post p b = .ok o ∧
    o = n_blocks ids.length * SKIP_ENTRY + (packed ids b).length ∧
    slice post (p.off + o) (packFrom 0 (blockOf ids b)).length = packFrom 0 (blockOf ids b)

theorem Posting.Lists.skip_exact {post : Bytes} {p : Posting} {ids : List Nat} (h : p.Lists post ids) {b : Nat}
    (hb : b < n_blocks ids.length) : SkipExact post p ids b := by
  have hlt := (lt_n_blocks_iff _ _).mp hb
  have hmax : (UInt32.ofNat (maxId ids b)).toNat = maxId ids b :=
    UInt32.toNat_ofNat_of_lt' (h.lt _ (getD_mem (by omega)))
  have hoff : n_blocks ids.length * SKIP_ENTRY + (packed ids b).length =
      skipLen ids + cursor ids (b * TRIGRAM_BLOCK) := by
    rw [packed_length hb.le, Nat.min_eq_left hlt.le]
    rfl
  have hend : n_blocks ids.length * SKIP_ENTRY + (packed ids b).length + (packFrom 0 (blockOf ids b)).length ≤
      p.len := by
    have hnext := packed_length (b := b + 1) hb
    have hcur := cursor_mono ids (Nat.min_le_right ((b + 1) * TRIGRAM_BLOCK) ids.length)
    rw [packed_succ, List.length_append] at hnext
    rw [h.len, regionLen, skipLen]
    omega
  have hbytes : slice post p.off p.len = regionBytes ids := h.filled.eq_regionBytes
  refine ⟨_, _, h.max_id_at hlt, ?_, ?_, h.block_off_at hlt, hoff.symm, ?_⟩
  · rw [hmax, blockOf_getLast? hb]
  · intro id hid
    rw [hmax]
    exact mem_blockOf_le h.ascending hb hid
  · rw [← hoff, ← slice_slice hend, hbytes, slice_block hb]

/-! ## The second pass -/

/-- Regions that follow one another make up the file. -/
theorem drop_eq_dictRows {file : Bytes} {f : TrigramRow → Bytes} {total : Nat} {acc : List (Tri × Acc)}
    (hlen : file.length = total + (acc.map fun e => e.2.region_len).sum)
    (h : ∀ r ∈ dictRows total acc, slice file r.post_off r.post_len = f r) :
    file.drop total = (dictRows total acc).flatMap f := by
  induction acc generalizing total with
  | nil => exact List.drop_eq_nil_of_le (by simpa using hlen.le)
  | cons e acc ih =>
    rw [List.map_cons, List.sum_cons] at hlen
    have hhead : (file.drop total).take e.2.region_len = f ⟨e.1, total, e.2.region_len, e.2.count⟩ :=
      h _ List.mem_cons_self
    have htail := ih (show file.length = total + e.2.region_len + _ by omega) fun r hr => h r (List.mem_cons_of_mem _ hr)
    rw [dictRows, List.flatMap_cons, ← htail, ← hhead, ← List.drop_drop, List.take_append_drop]

/-- Whatever was in the buffer, the second pass leaves the regions one after the other. -/
theorem fillFrom_postings {calls : List (Tri × Nat)} {init : Bytes}
    (hinit : init.length = postingsLen calls) :
    (fillFrom (dictOf calls) init calls).postings =
      (dictOf calls).flatMap fun r => regionBytes (idsOf calls r.trigram) := by
  have h := fillFrom_inv hinit (List.append_nil calls)
  rw [← List.drop_zero (l := (fillFrom (dictOf calls) init calls).postings)]
  apply drop_eq_dictRows
  · rw [h.length, Nat.zero_add]
    rfl
  · intro r hr
    rw [(mem_dictOf hr).2.2]
    exact (h.filled r hr).eq_regionBytes

theorem toNat_map_ofNat {ids : List Nat} (h : ∀ id ∈ ids, id < 2 ^ 32) :
    (ids.map UInt32.ofNat).map UInt32.toNat = ids := by
  have hid : ∀ id ∈ ids, (UInt32.toNat ∘ UInt32.ofNat) id = id := fun id hid => UInt32.toNat_ofNat_of_lt' (h id hid)
  rw [List.map_map, List.map_congr_left hid, List.map_id']

/-- A region with its list: what it says, what its skip table says, what the reader makes of it. -/
structure RegionExact (dict postings : Bytes) (i : Nat) (r : TrigramRow) (ids : List Nat) : Prop where
  ascending : ids.Pairwise (· < ·)
  count : r.count = ids.length
  bytes : slice postings r.post_off r.post_len = regionBytes ids
  skip : r.post_len < 2 ^ 32 → dictPosting dict i = ⟨r.post_off, r.post_len, r.count⟩ ∧
    ∀ b < n_blocks ids.length, SkipExact postings (dictPosting dict i) ids b
  decodes : ∃ out, trigram_postings postings (dictPosting dict i) = .ok out ∧ out.map UInt32.toNat = ids

/-- The index is exact. -/
structure CodecExact (by_name : List NameRow) (blob : Bytes) : Prop where
  dict : (build_trigram_index by_name blob).1 =
    (dictOf (visit by_name blob)).flatMap TrigramRow.encode
  listed : ∀ tri, (∃ r ∈ dictOf (visit by_name blob), r.trigram = tri) ↔ rowsWith by_name blob tri ≠ []
  tiles : (build_trigram_index by_name blob).2 =
    (dictOf (visit by_name blob)).flatMap fun r => regionBytes (rowsWith by_name blob r.trigram)
  -- Every byte is written: nothing is left of what the buffer held before.
  written : ∀ init : Bytes, init.length = postingsLen (visit by_name blob) →
    (fillFrom (dictOf (visit by_name blob)) init (visit by_name blob)).postings =
      (build_trigram_index by_name blob).2
  -- Every call stays in the region of its trigram.
  inside : ∀ seen c rest, seen ++ c :: rest = visit by_name blob →
    ∃ r ∈ dictOf (visit by_name blob), r.trigram = c.1 ∧ ∃ region, Replaces
      (pass2 (dictOf (visit by_name blob)) (postingsLen (visit by_name blob)) seen).postings
      (pass2 (dictOf (visit by_name blob)) (postingsLen (visit by_name blob)) (seen ++ [c])).postings
      r.post_off r.post_len region
  regions : ∀ i r, (dictOf (visit by_name blob))[i]? = some r →
    RegionExact (build_trigram_index by_name blob).1 (build_trigram_index by_name blob).2 i r
      (rowsWith by_name blob r.trigram)

section

variable {by_name : List NameRow} {blob : Bytes}

theorem region_exact (hrows : by_name.length < 2 ^ 32) {i : Nat} {r : TrigramRow}
    (hr : (dictOf (visit by_name blob))[i]? = some r) :
    RegionExact (build_trigram_index by_name blob).1 (build_trigram_index by_name blob).2 i r
      (rowsWith by_name blob r.trigram) := by
  have hmem : r ∈ dictOf (visit by_name blob) := List.mem_of_getElem? hr
  have hdict := dictPosting_eq hrows hr
  obtain ⟨-, hn, hlen⟩ := mem_dictOf hmem
  obtain ⟨hfits, hfilled⟩ := build_trigram_index_filled by_name blob hmem
  rw [idsOf_visit hrows] at hn hlen hfilled
  refine ⟨rowsWith_pairwise _, hn, hfilled.eq_regionBytes, fun hsmall => ?_, ?_⟩
  · rw [Nat.mod_eq_of_lt hsmall] at hdict
    have hlists : Posting.Lists (build_trigram_index by_name blob).2 ⟨r.post_off, r.post_len, r.count⟩
        (rowsWith by_name blob r.trigram) :=
      ⟨hfits, hn, hlen, hfilled, rowsWith_pairwise _, rowsWith_lt hrows _, hsmall⟩
    rw [hdict]
    exact ⟨rfl, fun b hb => hlists.skip_exact hb⟩
  · have hholds : (dictPosting (build_trigram_index by_name blob).1 i).Holds (build_trigram_index by_name blob).2
        (rowsWith by_name blob r.trigram) := by
      rw [hlen] at hfits hfilled
      rw [hdict]
      exact ⟨hfits, hn, hfilled, rowsWith_pairwise _, rowsWith_lt hrows _⟩
    exact ⟨_, hholds.trigram_postings, toNat_map_ofNat (rowsWith_lt hrows _)⟩

end

/-- The posting codec is exact, for lists of every length. -/
theorem posting_codec_exact {by_name : List NameRow} (blob : Bytes) (hrows : by_name.length < 2 ^ 32) :
    CodecExact by_name blob := by
  have htiles : ∀ init : Bytes, init.length = postingsLen (visit by_name blob) →
      (fillFrom (dictOf (visit by_name blob)) init (visit by_name blob)).postings =
        (dictOf (visit by_name blob)).flatMap fun r => regionBytes (rowsWith by_name blob r.trigram) := by
    intro init hinit
    rw [fillFrom_postings hinit]
    exact List.flatMap_congr fun r _ => by rw [idsOf_visit hrows]
  have hbuilt := htiles (List.replicate _ 0) List.length_replicate
  rw [← pass2_eq] at hbuilt
  refine ⟨build_trigram_index_dict by_name blob, fun tri => ?_, hbuilt, fun init hinit => ?_, ?_,
    fun i r hr => region_exact hrows hr⟩
  · rw [← idsOf_visit hrows]
    constructor
    · rintro ⟨r, hr, rfl⟩
      exact (mem_dictOf hr).1
    · exact exists_mem_dictOf
  · rw [htiles init hinit]
    exact hbuilt.symm
  · intro seen c rest h
    obtain ⟨r, hr, hrc, hpre, hstep⟩ :=
      fillFrom_concat (List.replicate (postingsLen (visit by_name blob)) 0) h
    have hinv := fillFrom_inv (List.length_replicate (n := postingsLen (visit by_name blob)) (a := 0)) h
    obtain ⟨region, hrep⟩ := hinv.visit_replaces hr hpre
    rw [← hstep] at hrep
    exact ⟨r, hr, hrc, region, hrep⟩

theorem posting_codec_exact_sample :
    CodecExact (List.replicate 400 ⟨1, 5, 7⟩) [0x2f, 0x4b, 0x59, 0x54, 0x48, 0x65] :=
  posting_codec_exact _ (by rw [List.length_replicate]; decide)

end Scry2
