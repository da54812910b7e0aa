import Scry2.Trigram

/-!
# What the trigram index holds

Both passes of `build_trigram_index` follow one abstract state: for each trigram, the ascending list
of the rows whose name has it. The first pass counts that list, the second writes it to its region.
-/

open Scry2.Lib
open Std (ExtTreeMap)

namespace Scry2

/-! ## The rows of a trigram -/

/-- A row that is last in the list already is not added again. -/
def pushId (ids : List Nat) (row_id : Nat) : List Nat :=
  if ids.getLast? = some row_id then ids else ids ++ [row_id]

/-- The rows that the calls of the visitor name for a trigram. -/
def idsOf (calls : List (Tri × Nat)) (tri : Tri) : List Nat :=
  calls.foldl (fun ids c => if c.1 = tri then pushId ids c.2 else ids) []

theorem idsOf_concat (calls : List (Tri × Nat)) (c : Tri × Nat) (tri : Tri) :
    idsOf (calls ++ [c]) tri = if c.1 = tri then pushId (idsOf calls tri) c.2 else idsOf calls tri := by
  unfold idsOf
  rw [List.foldl_append]
  rfl

theorem mem_pushId {ids : List Nat} {x r : Nat} : r ∈ pushId ids x ↔ r ∈ ids ∨ r = x := by
  unfold pushId
  split_ifs with h
  · have hx : x ∈ ids := List.mem_of_getLast? h
    constructor
    · exact Or.inl
    · rintro (hr | rfl)
      · exact hr
      · exact hx
  · simp

theorem mem_idsOf {calls : List (Tri × Nat)} {tri : Tri} {r : Nat} :
    r ∈ idsOf calls tri ↔ (tri, r) ∈ calls := by
  induction calls using List.reverseRecOn with
  | nil => simp [idsOf]
  | append_singleton calls c ih =>
    rw [idsOf_concat, List.mem_append, List.mem_singleton, ← ih]
    split_ifs with hc
    · rw [mem_pushId, ← hc, Prod.ext_iff]
      simp
    · simp [Prod.ext_iff, Ne.symm hc]

theorem pushId_pairwise {ids : List Nat} {x : Nat} (h : ids.Pairwise (· < ·)) (hle : ∀ r ∈ ids, r ≤ x) :
    (pushId ids x).Pairwise (· < ·) := by
  unfold pushId
  split_ifs with hx
  · exact h
  · refine List.pairwise_append.mpr ⟨h, List.pairwise_singleton _ _, fun r hr y hy => ?_⟩
    obtain rfl := List.mem_singleton.mp hy
    refine lt_of_le_of_ne (hle r hr) ?_
    rintro rfl
    -- A row equal to the new one is the largest, hence the last.
    obtain ⟨l, m, rfl⟩ := List.mem_iff_append.mp hr
    cases m with
    | nil => simp at hx
    | cons z m =>
      have hlt : r < z := by
        have := (List.pairwise_append.mp h).2.1
        exact List.rel_of_pairwise_cons this List.mem_cons_self
      have := hle z (by simp)
      omega

theorem idsOf_pairwise {calls : List (Tri × Nat)} (h : calls.Pairwise (·.2 ≤ ·.2)) (tri : Tri) :
    (idsOf calls tri).Pairwise (· < ·) := by
  induction calls using List.reverseRecOn with
  | nil => exact List.Pairwise.nil
  | append_singleton calls c ih =>
    have hp := List.pairwise_append.mp h
    rw [idsOf_concat]
    split_ifs
    · refine pushId_pairwise (ih hp.1) fun r hr => ?_
      exact hp.2.2 (tri, r) (mem_idsOf.mp hr) c List.mem_cons_self
    · exact ih hp.1

theorem prefix_pushId (ids : List Nat) (x : Nat) : ids <+: pushId ids x := by
  unfold pushId
  split_ifs
  · exact List.prefix_rfl
  · exact List.prefix_append _ _

theorem idsOf_prefix (calls more : List (Tri × Nat)) (tri : Tri) :
    idsOf calls tri <+: idsOf (calls ++ more) tri := by
  induction more using List.reverseRecOn with
  | nil => rw [List.append_nil]
  | append_singleton more c ih =>
    rw [← List.append_assoc, idsOf_concat]
    split_ifs
    · exact ih.trans (prefix_pushId _ _)
    · exact ih

/-! ## The calls of the visitor -/

theorem visit_pairwise (by_name : List NameRow) (blob : Bytes) :
    (visit by_name blob).Pairwise (·.2 ≤ ·.2) := by
  unfold visit
  rw [List.pairwise_flatMap]
  constructor
  · intro r _
    rw [List.pairwise_map]
    exact List.pairwise_of_forall fun _ _ => le_rfl
  · have hsnd : ((by_name.take (rowCap by_name)).zipIdx).Pairwise (·.2 < ·.2) := by
      rw [← List.pairwise_map (f := Prod.snd) (R := (· < ·)), List.zipIdx_map_snd]
      exact List.pairwise_lt_range'
    refine hsnd.imp fun {a b} hab x hx y hy => ?_
    obtain ⟨_, -, rfl⟩ := List.mem_map.mp hx
    obtain ⟨_, -, rfl⟩ := List.mem_map.mp hy
    exact hab.le

theorem windows3_of_length_lt {bs : Bytes} (h : bs.length < 3) : windows3 bs = [] := by
  match bs, h with
  | [], _ => rfl
  | [_], _ => rfl
  | [_, _], _ => rfl

theorem mem_destutter' {α : Type} [DecidableEq α] {a x : α} {l : List α} :
    x ∈ List.destutter' (· ≠ ·) a l ↔ x = a ∨ x ∈ l := by
  induction l generalizing a with
  | nil => simp
  | cons b l ih =>
    rw [List.destutter'_cons]
    split_ifs with h
    · simp [ih]
    · have hab : a = b := not_not.mp h
      rw [ih, hab]
      simp

theorem mem_destutter_ne {α : Type} [DecidableEq α] {x : α} {l : List α} :
    x ∈ l.destutter (· ≠ ·) ↔ x ∈ l := by
  cases l with
  | nil => rfl
  | cons a l =>
    unfold List.destutter
    rw [mem_destutter', List.mem_cons]

theorem mem_rowTris {name : Bytes} {tri : Tri} : tri ∈ rowTris name ↔ tri ∈ windows3 (lowercase name) := by
  unfold rowTris
  split_ifs with h
  · rw [windows3_of_length_lt (by simpa [lowercase] using h)]
  · exact mem_destutter_ne

/-- The visitor names the rows whose lowercased name has the trigram. -/
theorem mem_visit {by_name : List NameRow} {blob : Bytes} (hrows : by_name.length < 2 ^ 32) {tri : Tri}
    {r : Nat} : (tri, r) ∈ visit by_name blob ↔
      ∃ row, by_name[r]? = some row ∧ tri ∈ windows3 (lowercase (row.bytes blob)) := by
  have hcap : by_name.take (rowCap by_name) = by_name :=
    List.take_of_length_le (by unfold rowCap; omega)
  unfold visit
  rw [hcap, List.mem_flatMap]
  simp only [List.mem_map, Prod.mk.injEq, mem_rowTris, Prod.exists]
  constructor
  · rintro ⟨row, i, hrow, t, ht, rfl, rfl⟩
    exact ⟨row, List.mem_zipIdx_iff_getElem?.mp hrow, ht⟩
  · rintro ⟨row, hrow, ht⟩
    exact ⟨row, r, List.mem_zipIdx_iff_getElem?.mpr hrow, tri, ht, rfl, rfl⟩

/-! ## The layout of a region -/

theorem write_varint_length (v : Nat) : (write_varint v).length = varint_len v := by
  fun_induction write_varint v with
  | case1 v h ih =>
    rw [varint_len, if_pos h, List.length_cons, ih]
  | case2 v h =>
    rw [varint_len, if_neg h, List.length_singleton]

/-- Every seven bits of a number take a byte. -/
theorem varint_len_le {n k : Nat} (h : n < 2 ^ (7 * (k + 1))) : varint_len n ≤ k + 1 := by
  induction k generalizing n with
  | zero =>
    rw [varint_len, if_neg (by omega)]
  | succ k ih =>
    rw [varint_len]
    split
    · have hpow : 2 ^ (7 * (k + 1 + 1)) = 0x80 * 2 ^ (7 * (k + 1)) := by
        rw [Nat.mul_succ, Nat.pow_add, Nat.mul_comm]
      have := ih (n := n / 0x80) (by omega)
      omega
    · omega

/-- What is written for row `i` of a list: the row itself at the start of a block, else the step from
the row before it. -/
def gap (ids : List Nat) (i : Nat) : Nat :=
  if i % TRIGRAM_BLOCK = 0 then ids.getD i 0 else ids.getD i 0 - ids.getD (i - 1) 0

/-- Where it is written, counted from the end of the skip table. -/
def cursor (ids : List Nat) : Nat → Nat
  | 0 => 0
  | i + 1 => cursor ids i + varint_len (gap ids i)

def skipLen (ids : List Nat) : Nat := n_blocks ids.length * SKIP_ENTRY

def regionLen (ids : List Nat) : Nat := skipLen ids + cursor ids ids.length

theorem prefix_getD {ids full : List Nat} (h : ids <+: full) {i : Nat} (hi : i < ids.length) :
    full.getD i 0 = ids.getD i 0 := by
  obtain ⟨more, rfl⟩ := h
  rw [List.getD_eq_getElem?_getD, List.getElem?_append_left hi, ← List.getD_eq_getElem?_getD]

theorem gap_prefix {ids full : List Nat} (h : ids <+: full) {i : Nat} (hi : i < ids.length) :
    gap full i = gap ids i := by
  unfold gap
  rw [prefix_getD h hi, prefix_getD h (show i - 1 < ids.length by omega)]

theorem cursor_prefix {ids full : List Nat} (h : ids <+: full) {i : Nat} (hi : i ≤ ids.length) :
    cursor full i = cursor ids i := by
  induction i with
  | zero => rfl
  | succ i ih => rw [cursor, cursor, ih (by omega), gap_prefix h hi]

theorem cursor_mono (ids : List Nat) {i j : Nat} (h : i ≤ j) : cursor ids i ≤ cursor ids j := by
  induction h with
  | refl => rfl
  | step _ ih => exact ih.trans (Nat.le_add_right _ _)

/-! ## Pass 1 -/

/-- What the first pass knows of a list. -/
def accOf (ids : List Nat) : Option Acc :=
  ids.getLast?.map fun last => ⟨ids.length, cursor ids ids.length, last⟩

theorem accOf_concat (ids : List Nat) (r : Nat) :
    accOf (ids ++ [r]) = some ⟨ids.length + 1,
      cursor ids ids.length + varint_len (gap (ids ++ [r]) ids.length), r⟩ := by
  unfold accOf
  rw [List.getLast?_concat, Option.map_some, List.length_append, List.length_singleton, cursor,
    cursor_prefix (List.prefix_append _ _) le_rfl]

theorem gap_concat (ids : List Nat) (r : Nat) :
    gap (ids ++ [r]) ids.length =
      if ids.length % TRIGRAM_BLOCK = 0 then r else r - ids.getLast?.getD 0 := by
  unfold gap
  have h1 : (ids ++ [r]).getD ids.length 0 = r := by simp [List.getD_eq_getElem?_getD]
  have h2 : ids.length % TRIGRAM_BLOCK ≠ 0 → (ids ++ [r]).getD (ids.length - 1) 0 = ids.getLast?.getD 0 := by
    intro h
    have hpos : ids.length ≠ 0 := fun e => h (by rw [e]; rfl)
    rw [prefix_getD (List.prefix_append _ _) (by omega), List.getLast?_eq_getElem?,
      List.getD_eq_getElem?_getD]
  rw [h1]
  split_ifs with h
  · rfl
  · rw [h2 h]

theorem accVisit_accOf (ids : List Nat) (r : Nat) : Acc.visit r (accOf ids) = accOf (pushId ids r) := by
  unfold pushId
  cases hl : ids.getLast? with
  | none =>
    obtain rfl := List.getLast?_eq_none_iff.mp hl
    rw [if_neg (by simp), accOf_concat, gap_concat]
    simp [accOf, Acc.visit, cursor]
  | some last =>
    have hne : ids.length ≠ 0 := by
      rw [Ne, List.length_eq_zero_iff]
      rintro rfl
      cases hl
    have hacc : accOf ids = some ⟨ids.length, cursor ids ids.length, last⟩ := by
      unfold accOf
      rw [hl, Option.map_some]
    unfold Acc.visit
    rw [hacc, Option.getD_some]
    by_cases hlast : last = r
    · simp only [hlast, hne, ne_eq, not_false_eq_true, and_self, if_true]
      rw [hacc, hlast]
    · have hsome : ¬ some last = some r := fun e => hlast (Option.some.inj e)
      simp only [hlast, and_false, if_false, if_neg hsome]
      rw [accOf_concat, gap_concat, hl, Option.getD_some]

theorem pass1_getElem? (calls : List (Tri × Nat)) (tri : Tri) :
    (pass1 calls)[tri]? = accOf (idsOf calls tri) := by
  induction calls using List.reverseRecOn with
  | nil => simp [pass1, idsOf, accOf]
  | append_singleton calls c ih =>
    have hstep : pass1 (calls ++ [c]) = (pass1 calls).alter c.1 (Acc.visit c.2) := by
      unfold pass1
      rw [List.foldl_append]
      rfl
    rw [hstep, getElem?_alter_key, idsOf_concat]
    by_cases hc : c.1 = tri
    · subst hc
      rw [if_pos rfl, if_pos rfl, ih, accVisit_accOf]
    · rw [if_neg hc, if_neg hc, ih]

/-! ## The dictionary -/

theorem dictRows_bounds (total : Nat) (acc : List (Tri × Acc)) :
    ∀ r ∈ dictRows total acc, total ≤ r.post_off ∧
      r.post_off + r.post_len ≤ total + (acc.map fun e => e.2.region_len).sum := by
  induction acc generalizing total with
  | nil => simp [dictRows]
  | cons e acc ih =>
    intro r hr
    rw [List.map_cons, List.sum_cons]
    rcases List.mem_cons.mp hr with rfl | hr
    · exact ⟨le_rfl, by simp only; omega⟩
    · have := ih _ r hr
      omega

theorem dictRows_apart (total : Nat) (acc : List (Tri × Acc)) :
    (dictRows total acc).Pairwise fun r s => r.post_off + r.post_len ≤ s.post_off := by
  induction acc generalizing total with
  | nil => exact List.Pairwise.nil
  | cons e acc ih =>
    refine List.pairwise_cons.mpr ⟨fun s hs => ?_, ih _⟩
    exact (dictRows_bounds _ acc s hs).1

theorem dictRows_entries (total : Nat) (acc : List (Tri × Acc)) :
    (dictRows total acc).map (fun r => (r.trigram, r.post_len, r.count)) =
      acc.map fun e => (e.1, e.2.region_len, e.2.count) := by
  induction acc generalizing total with
  | nil => rfl
  | cons e acc ih =>
    rw [dictRows, List.map_cons, List.map_cons, ih]

/-- The rows of the dictionary. -/
def dictOf (calls : List (Tri × Nat)) : List TrigramRow := dictRows 0 (pass1 calls).toList

/-- The size of all regions. -/
def postingsLen (calls : List (Tri × Nat)) : Nat := ((pass1 calls).toList.map fun e => e.2.region_len).sum

section

variable {calls : List (Tri × Nat)}

theorem accOf_eq_some {ids : List Nat} {a : Acc} (h : accOf ids = some a) :
    ids ≠ [] ∧ a.count = ids.length ∧ a.region_len = regionLen ids := by
  obtain ⟨last, hlast, rfl⟩ := Option.map_eq_some_iff.mp h
  refine ⟨?_, rfl, rfl⟩
  rintro rfl
  cases hlast

theorem mem_dictOf {r : TrigramRow} (h : r ∈ dictOf calls) : idsOf calls r.trigram ≠ [] ∧
    r.count = (idsOf calls r.trigram).length ∧ r.post_len = regionLen (idsOf calls r.trigram) := by
  have hm : (r.trigram, r.post_len, r.count) ∈
      (dictOf calls).map fun r => (r.trigram, r.post_len, r.count) := List.mem_map.mpr ⟨r, h, rfl⟩
  unfold dictOf at hm
  rw [dictRows_entries] at hm
  obtain ⟨e, he, heq⟩ := List.mem_map.mp hm
  have hacc : (pass1 calls)[e.1]? = some e.2 := ((tabulates_toList (pass1 calls)).2 e.1 e.2).mp he
  rw [pass1_getElem?] at hacc
  obtain ⟨h1, h2, h3⟩ := Prod.ext_iff.mp heq |>.imp_right Prod.ext_iff.mp
  simp only at h1 h2 h3
  rw [← h1, ← h2, ← h3]
  obtain ⟨hne, hcount, hlen⟩ := accOf_eq_some hacc
  exact ⟨hne, hcount, hlen⟩

theorem exists_mem_dictOf {tri : Tri} (h : idsOf calls tri ≠ []) : ∃ r ∈ dictOf calls, r.trigram = tri := by
  obtain ⟨a, hacc⟩ : ∃ a, (pass1 calls)[tri]? = some a := by
    rw [pass1_getElem?]
    unfold accOf
    rw [List.getLast?_eq_some_getLast h]
    exact ⟨_, rfl⟩
  have he := ((tabulates_toList (pass1 calls)).2 tri _).mpr hacc
  have hm := List.mem_map_of_mem (f := fun e => (e.1, e.2.region_len, e.2.count)) he
  rw [← dictRows_entries 0] at hm
  obtain ⟨r, hr, heq⟩ := List.mem_map.mp hm
  exact ⟨r, hr, (Prod.ext_iff.mp heq).1⟩

theorem dictOf_pairwise : (dictOf calls).Pairwise (·.trigram < ·.trigram) := by
  have hfst : (dictOf calls).map TrigramRow.trigram = (pass1 calls).toList.map Prod.fst := by
    have := congrArg (List.map Prod.fst) (dictRows_entries 0 (pass1 calls).toList)
    rwa [List.map_map, List.map_map] at this
  rw [← List.pairwise_map (f := TrigramRow.trigram) (R := (· < ·)), hfst, List.pairwise_map]
  exact (tabulates_toList (pass1 calls)).1

theorem rowOf_dictOf {r : TrigramRow} (h : r ∈ dictOf calls) : rowOf (dictOf calls) r.trigram = some r := by
  unfold rowOf
  obtain ⟨l, m, hlm⟩ := List.mem_iff_append.mp h
  have hp : (dictOf calls).Pairwise (·.trigram < ·.trigram) := dictOf_pairwise
  rw [hlm] at hp ⊢
  have hlt := (List.pairwise_append.mp hp).2.2
  rw [List.find?_append, List.find?_eq_none.mpr fun s hs => by
    simpa using (hlt s hs r List.mem_cons_self).ne]
  simp

theorem dictOf_inj {r s : TrigramRow} (hr : r ∈ dictOf calls) (hs : s ∈ dictOf calls)
    (h : r.trigram = s.trigram) : r = s := by
  have e := rowOf_dictOf hr
  rw [h, rowOf_dictOf hs] at e
  exact (Option.some.inj e).symm

theorem stop_le_postingsLen {r : TrigramRow} (h : r ∈ dictOf calls) :
    r.post_off + r.post_len ≤ postingsLen calls := by
  have := (dictRows_bounds 0 (pass1 calls).toList r h).2
  unfold postingsLen
  omega

theorem dictOf_apart {r s : TrigramRow} (hr : r ∈ dictOf calls) (hs : s ∈ dictOf calls)
    (h : r.trigram ≠ s.trigram) :
    r.post_off + r.post_len ≤ s.post_off ∨ s.post_off + s.post_len ≤ r.post_off := by
  have hp : (dictOf calls).Pairwise fun r s =>
      r.post_off + r.post_len ≤ s.post_off ∨ s.post_off + s.post_len ≤ r.post_off :=
    (dictRows_apart 0 _).imp Or.inl
  have : Std.Symm fun r s : TrigramRow =>
      r.post_off + r.post_len ≤ s.post_off ∨ s.post_off + s.post_len ≤ r.post_off := ⟨fun _ _ => Or.symm⟩
  exact hp.forall hr hs fun e => h (congrArg _ e)

end

/-! ## Pass 2 -/

/-- The first `k` rows of a list are written to its region. -/
structure Filled (region : Bytes) (ids : List Nat) (k : Nat) : Prop where
  length : region.length = regionLen ids
  varints : ∀ i < k, slice region (skipLen ids + cursor ids i) (varint_len (gap ids i)) =
    write_varint (gap ids i)
  max_ids : ∀ b, b * TRIGRAM_BLOCK < k → slice region (b * SKIP_ENTRY) 4 =
    beBytes 4 (ids.getD (min (b * TRIGRAM_BLOCK + (TRIGRAM_BLOCK - 1)) (k - 1)) 0)
  block_offs : ∀ b, b * TRIGRAM_BLOCK < k → slice region (b * SKIP_ENTRY + 4) 4 =
    beBytes 4 (skipLen ids + cursor ids (b * TRIGRAM_BLOCK))

/-- The first write of a call: where its block begins, at the start of a block. -/
def openBlock (region : Bytes) (ids : List Nat) (k : Nat) : Bytes :=
  if k % TRIGRAM_BLOCK = 0 then
    writeAt region (k / TRIGRAM_BLOCK * SKIP_ENTRY + 4) (beBytes 4 (skipLen ids + cursor ids k))
  else region

/-- The writes of one call of the second pass, in the region. -/
def fillStep (region : Bytes) (ids : List Nat) (k : Nat) : Bytes :=
  writeAt (writeAt (openBlock region ids k) (skipLen ids + cursor ids k) (write_varint (gap ids k)))
    (k / TRIGRAM_BLOCK * SKIP_ENTRY) (beBytes 4 (ids.getD k 0))

section

variable {region : Bytes} {ids : List Nat} {k : Nat}

/-- The bounds that keep the writes of one call apart. -/
theorem skip_bounds (hk : k < ids.length) : k / TRIGRAM_BLOCK * SKIP_ENTRY + 8 ≤ skipLen ids := by
  unfold skipLen n_blocks TRIGRAM_BLOCK SKIP_ENTRY
  omega

theorem Filled.cursor_bounds (h : Filled region ids k) (hk : k < ids.length) :
    skipLen ids + cursor ids k + varint_len (gap ids k) ≤ region.length := by
  have hcur : cursor ids k + varint_len (gap ids k) ≤ cursor ids ids.length := cursor_mono ids hk
  rw [h.length, regionLen]
  omega

theorem openBlock_length (h : Filled region ids k) (hk : k < ids.length) :
    (openBlock region ids k).length = region.length := by
  have h1 := skip_bounds hk
  have h2 := h.cursor_bounds hk
  unfold openBlock
  split_ifs
  · exact length_writeAt (by rw [beBytes_length]; omega)
  · rfl

theorem writeVarint_length (h : Filled region ids k) (hk : k < ids.length) :
    (writeAt (openBlock region ids k) (skipLen ids + cursor ids k) (write_varint (gap ids k))).length =
      region.length := by
  rw [length_writeAt, openBlock_length h hk]
  rw [openBlock_length h hk, write_varint_length]
  exact h.cursor_bounds hk

theorem fillStep_length (h : Filled region ids k) (hk : k < ids.length) :
    (fillStep region ids k).length = region.length := by
  have h1 := skip_bounds hk
  have h2 := h.cursor_bounds hk
  have h3 := writeVarint_length h hk
  unfold fillStep
  rw [length_writeAt (by rw [beBytes_length]; omega), h3]

/-- What the last two writes leave alone. -/
theorem slice_fillStep_of_open (h : Filled region ids k) (hk : k < ids.length) {off n : Nat}
    (hoff : off + n ≤ region.length)
    (hskip : off + n ≤ k / TRIGRAM_BLOCK * SKIP_ENTRY ∨ k / TRIGRAM_BLOCK * SKIP_ENTRY + 4 ≤ off)
    (hcur : off + n ≤ skipLen ids + cursor ids k ∨
      skipLen ids + cursor ids k + varint_len (gap ids k) ≤ off) :
    slice (fillStep region ids k) off n = slice (openBlock region ids k) off n := by
  have h1 := skip_bounds hk
  have h2 := h.cursor_bounds hk
  have h3 := openBlock_length h hk
  have h4 := write_varint_length (gap ids k)
  have h5 := writeVarint_length h hk
  unfold fillStep
  rw [slice_writeAt_outside (by rw [beBytes_length]; omega) (by omega) (by rwa [beBytes_length]),
    slice_writeAt_outside (by omega) (by omega) (by rwa [h4])]

theorem slice_fillStep_varint (h : Filled region ids k) (hk : k < ids.length) :
    slice (fillStep region ids k) (skipLen ids + cursor ids k) (varint_len (gap ids k)) =
      write_varint (gap ids k) := by
  have h1 := skip_bounds hk
  have h2 := h.cursor_bounds hk
  have h3 := openBlock_length h hk
  have h5 := writeVarint_length h hk
  unfold fillStep
  rw [slice_writeAt_outside (by rw [beBytes_length]; omega) (by omega) (by rw [beBytes_length]; omega)]
  exact slice_writeAt_self (write_varint_length _) (by omega)

theorem slice_fillStep_max_id (h : Filled region ids k) (hk : k < ids.length) :
    slice (fillStep region ids k) (k / TRIGRAM_BLOCK * SKIP_ENTRY) 4 = beBytes 4 (ids.getD k 0) := by
  have h1 := skip_bounds hk
  have h2 := h.cursor_bounds hk
  have h3 := writeVarint_length h hk
  unfold fillStep
  exact slice_writeAt_self (beBytes_length 4 _) (by omega)

theorem slice_openBlock_outside (h : Filled region ids k) (hk : k < ids.length) {off n : Nat}
    (hoff : off + n ≤ region.length)
    (hrel : k % TRIGRAM_BLOCK = 0 → off + n ≤ k / TRIGRAM_BLOCK * SKIP_ENTRY + 4 ∨
      k / TRIGRAM_BLOCK * SKIP_ENTRY + 8 ≤ off) :
    slice (openBlock region ids k) off n = slice region off n := by
  have h1 := skip_bounds hk
  have h2 := h.cursor_bounds hk
  unfold openBlock
  split_ifs with hz
  · exact slice_writeAt_outside (by rw [beBytes_length]; omega) hoff (by rw [beBytes_length]; exact hrel hz)
  · rfl

theorem slice_openBlock_self (h : Filled region ids k) (hk : k < ids.length)
    (hz : k % TRIGRAM_BLOCK = 0) :
    slice (openBlock region ids k) (k / TRIGRAM_BLOCK * SKIP_ENTRY + 4) 4 =
      beBytes 4 (skipLen ids + cursor ids k) := by
  have h1 := skip_bounds hk
  have h2 := h.cursor_bounds hk
  unfold openBlock
  rw [if_pos hz]
  exact slice_writeAt_self (beBytes_length 4 _) (by omega)

theorem Filled.step (h : Filled region ids k) (hk : k < ids.length) :
    Filled (fillStep region ids k) ids (k + 1) := by
  have h1 := skip_bounds hk
  have h2 := h.cursor_bounds hk
  refine ⟨(fillStep_length h hk).trans h.length, fun i hi => ?_, fun b hb => ?_, fun b hb => ?_⟩
  · rcases Nat.lt_succ_iff_lt_or_eq.mp hi with hi | rfl
    · have hcur : cursor ids i + varint_len (gap ids i) ≤ cursor ids k := cursor_mono ids hi
      rw [slice_fillStep_of_open h hk (by omega) (by omega) (by omega),
        slice_openBlock_outside h hk (by omega) (by omega), h.varints i hi]
    · exact slice_fillStep_varint h hk
  · by_cases hbk : b = k / TRIGRAM_BLOCK
    · have e : min (b * TRIGRAM_BLOCK + (TRIGRAM_BLOCK - 1)) (k + 1 - 1) = k := by
        rw [hbk]
        unfold TRIGRAM_BLOCK
        omega
      rw [e, hbk, slice_fillStep_max_id h hk]
    · -- The block before the current one is complete.
      have hlt : b < k / TRIGRAM_BLOCK := by unfold TRIGRAM_BLOCK at *; omega
      have hfull : b * TRIGRAM_BLOCK + TRIGRAM_BLOCK ≤ k := by unfold TRIGRAM_BLOCK at *; omega
      have hoff : b * SKIP_ENTRY + 8 ≤ k / TRIGRAM_BLOCK * SKIP_ENTRY := by
        unfold SKIP_ENTRY TRIGRAM_BLOCK at *
        omega
      have e : min (b * TRIGRAM_BLOCK + (TRIGRAM_BLOCK - 1)) (k + 1 - 1) =
          min (b * TRIGRAM_BLOCK + (TRIGRAM_BLOCK - 1)) (k - 1) := by
        unfold TRIGRAM_BLOCK at *
        omega
      rw [slice_fillStep_of_open h hk (by omega) (by omega) (by omega),
        slice_openBlock_outside h hk (by omega) (by omega), e]
      exact h.max_ids b (by unfold TRIGRAM_BLOCK at *; omega)
  · by_cases hz : b * TRIGRAM_BLOCK = k
    · have hmod : k % TRIGRAM_BLOCK = 0 := by rw [← hz]; exact Nat.mul_mod_left _ _
      have hb : b = k / TRIGRAM_BLOCK := by rw [← hz]; exact (Nat.mul_div_cancel b (by decide)).symm
      rw [hz, hb, slice_fillStep_of_open h hk (by omega) (by omega) (by omega),
        slice_openBlock_self h hk hmod]
    · have hlt : b * TRIGRAM_BLOCK < k := by omega
      have hle : b ≤ k / TRIGRAM_BLOCK := by unfold TRIGRAM_BLOCK at *; omega
      have hoff : b * SKIP_ENTRY ≤ k / TRIGRAM_BLOCK * SKIP_ENTRY := Nat.mul_le_mul_right _ hle
      rw [slice_fillStep_of_open h hk (by omega) (by unfold SKIP_ENTRY TRIGRAM_BLOCK at *; omega)
        (by omega), slice_openBlock_outside h hk (by omega) (by unfold SKIP_ENTRY TRIGRAM_BLOCK at *; omega)]
      exact h.block_offs b hlt

end

/-! ## Every region is filled -/

/-- The same writes in the blob of all regions. -/
def openRow (post : Bytes) (off : Nat) (ids : List Nat) (k : Nat) : Bytes :=
  if k % TRIGRAM_BLOCK = 0 then
    writeAt post (off + (k / TRIGRAM_BLOCK * SKIP_ENTRY + 4)) (beBytes 4 (skipLen ids + cursor ids k))
  else post

def writeRow (post : Bytes) (off : Nat) (ids : List Nat) (k : Nat) : Bytes :=
  writeAt (writeAt (openRow post off ids k) (off + (skipLen ids + cursor ids k)) (write_varint (gap ids k)))
    (off + k / TRIGRAM_BLOCK * SKIP_ENTRY) (beBytes 4 (ids.getD k 0))

section

variable {post : Bytes} {off : Nat} {ids : List Nat} {k : Nat}

/-- `post'` is `post` with the region at `off` replaced by `region`. -/
structure Replaces (post post' : Bytes) (off n : Nat) (region : Bytes) : Prop where
  length : post'.length = post.length
  inside : slice post' off n = region
  outside : ∀ off' n', off' + n' ≤ post.length → off' + n' ≤ off ∨ off + n ≤ off' →
    slice post' off' n' = slice post off' n'

theorem Replaces.refl (post : Bytes) (off n : Nat) : Replaces post post off n (slice post off n) :=
  ⟨rfl, rfl, fun _ _ _ _ => rfl⟩

theorem Replaces.writeAt {post post' region : Bytes} {off n : Nat} (h : Replaces post post' off n region)
    (hoff : off + n ≤ post.length) {x : Nat} {bs : Bytes} (hx : x + bs.length ≤ n) :
    Replaces post (writeAt post' (off + x) bs) off n (writeAt region x bs) where
  length := by rw [length_writeAt (by rw [h.length]; omega), h.length]
  inside := by rw [slice_writeAt_inside (by rw [h.length]; exact hoff) hx, h.inside]
  outside off' n' h1 h2 := by
    rw [slice_writeAt_outside (by rw [h.length]; omega) (by rw [h.length]; exact h1) (by omega),
      h.outside off' n' h1 h2]

theorem replaces_openRow (hoff : off + regionLen ids ≤ post.length) (hk : k < ids.length) :
    Replaces post (openRow post off ids k) off (regionLen ids)
      (openBlock (slice post off (regionLen ids)) ids k) := by
  have h1 := skip_bounds hk
  have hlen : regionLen ids = skipLen ids + cursor ids ids.length := rfl
  unfold openRow openBlock
  split_ifs
  · exact (Replaces.refl post off (regionLen ids)).writeAt hoff (by rw [beBytes_length]; omega)
  · exact Replaces.refl post off (regionLen ids)

theorem replaces_writeRow (hoff : off + regionLen ids ≤ post.length) (hk : k < ids.length) :
    Replaces post (writeRow post off ids k) off (regionLen ids)
      (fillStep (slice post off (regionLen ids)) ids k) := by
  have h1 := skip_bounds hk
  have hcur : cursor ids k + varint_len (gap ids k) ≤ cursor ids ids.length := cursor_mono ids hk
  have hlen : regionLen ids = skipLen ids + cursor ids ids.length := rfl
  unfold writeRow fillStep
  apply Replaces.writeAt _ hoff
  · rw [beBytes_length]; omega
  · apply (replaces_openRow hoff hk).writeAt hoff
    rw [write_varint_length]; omega

end

/-- What the second pass knows of a list after `k` of its rows. -/
def wOf (off : Nat) (ids : List Nat) (k : Nat) : Option W :=
  if k = 0 then none else some ⟨k, off + (skipLen ids + cursor ids k), ids.getD (k - 1) 0⟩

/-- The state of the second pass after the calls `seen` of `calls`. -/
structure Fill.Inv (calls seen : List (Tri × Nat)) (s : Fill) : Prop where
  length : s.postings.length = postingsLen calls
  wst : ∀ r ∈ dictOf calls, s.wst[r.trigram]? =
    wOf r.post_off (idsOf calls r.trigram) (idsOf seen r.trigram).length
  filled : ∀ r ∈ dictOf calls, Filled (slice s.postings r.post_off (regionLen (idsOf calls r.trigram)))
    (idsOf calls r.trigram) (idsOf seen r.trigram).length

theorem Fill.inv_nil {calls : List (Tri × Nat)} {init : Bytes} (h : init.length = postingsLen calls) :
    Fill.Inv calls [] ⟨init, ∅⟩ where
  length := h
  wst r _ := by simp [idsOf, wOf]
  filled r hr := by
    have hstop := stop_le_postingsLen hr
    rw [(mem_dictOf hr).2.2, ← h] at hstop
    exact ⟨slice_length hstop, by simp [idsOf], by simp [idsOf], by simp [idsOf]⟩

section

variable {calls seen : List (Tri × Nat)} {s : Fill} {r : TrigramRow} {x : Nat}

/-- What one call does: nothing when its row was the last one written, else one more row. -/
theorem Fill.visit_cases (hw : s.wst[r.trigram]? = wOf r.post_off (idsOf calls r.trigram) (idsOf seen r.trigram).length)
    (hcount : r.count = (idsOf calls r.trigram).length)
    (hpre : pushId (idsOf seen r.trigram) x <+: idsOf calls r.trigram) :
    (pushId (idsOf seen r.trigram) x = idsOf seen r.trigram ∧
      ∃ w, s.wst[r.trigram]? = some w ∧
        s.visit r.post_off r.count r.trigram x = { s with wst := s.wst.insert r.trigram w }) ∨
    ∃ k, (idsOf seen r.trigram).length = k ∧ k < (idsOf calls r.trigram).length ∧
      (pushId (idsOf seen r.trigram) x).length = k + 1 ∧
      ∃ w, wOf r.post_off (idsOf calls r.trigram) (k + 1) = some w ∧
        s.visit r.post_off r.count r.trigram x =
          ⟨writeRow s.postings r.post_off (idsOf calls r.trigram) k, s.wst.insert r.trigram w⟩ := by
  generalize idsOf calls r.trigram = ids at *
  have hseen : idsOf seen r.trigram <+: ids := (prefix_pushId _ _).trans hpre
  generalize idsOf seen r.trigram = done at *
  have hlast : done.length ≠ 0 → done.getLast? = some (ids.getD (done.length - 1) 0) := by
    intro h
    rw [prefix_getD hseen (by omega), List.getLast?_eq_getElem?, List.getD_eq_getElem?_getD,
      List.getElem?_eq_getElem (by omega)]
    rfl
  unfold Fill.visit
  generalize hwd : s.wst[r.trigram]?.getD ⟨0, r.post_off + n_blocks r.count * SKIP_ENTRY, 0xffffffff⟩ = w
  have hw' : w.written = done.length ∧ w.block_cursor = r.post_off + (skipLen ids + cursor ids done.length) ∧
      (done.length ≠ 0 → w.last = ids.getD (done.length - 1) 0 ∧ s.wst[r.trigram]? = some w) := by
    unfold wOf at hw
    split_ifs at hw with h0
    · rw [hw, Option.getD_none, hcount] at hwd
      subst hwd
      exact ⟨h0.symm, by rw [h0]; rfl, fun h => absurd h0 h⟩
    · rw [hw, Option.getD_some] at hwd
      subst hwd
      exact ⟨rfl, rfl, fun _ => ⟨rfl, hw⟩⟩
  obtain ⟨hwritten, hcursor, hwlast⟩ := hw'
  by_cases hskip : w.written ≠ 0 ∧ w.last = x
  · left
    have h0 : done.length ≠ 0 := hwritten ▸ hskip.1
    obtain ⟨hl, hs⟩ := hwlast h0
    refine ⟨?_, w, hs, if_pos hskip⟩
    unfold pushId
    rw [if_pos (by rw [hlast h0, ← hl, hskip.2])]
  · right
    have hne : done.getLast? ≠ some x := by
      intro he
      have h0 : done.length ≠ 0 := by
        rintro h0
        rw [List.length_eq_zero_iff.mp h0] at he
        cases he
      rw [hlast h0, ← (hwlast h0).1] at he
      exact hskip ⟨hwritten ▸ h0, Option.some.inj he⟩
    have hpush : pushId done x = done ++ [x] := if_neg hne
    rw [hpush] at hpre ⊢
    have hlt : done.length < ids.length := by
      have := hpre.length_le
      rw [List.length_append, List.length_singleton] at this
      omega
    have hx : ids.getD done.length 0 = x := by
      rw [prefix_getD hpre (by simp)]
      simp [List.getD_eq_getElem?_getD]
    have hgap : (if w.written % TRIGRAM_BLOCK = 0 then x else x - w.last) = gap ids done.length := by
      unfold gap
      rw [hwritten, hx]
      split_ifs with hz
      · rfl
      · rw [(hwlast fun h0 => hz (by rw [h0]; rfl)).1]
    refine ⟨done.length, rfl, hlt, by simp, ⟨done.length + 1,
      r.post_off + (skipLen ids + cursor ids (done.length + 1)), ids.getD (done.length + 1 - 1) 0⟩,
      if_neg (by omega), ?_⟩
    rw [if_neg hskip]
    simp only
    rw [hgap, write_varint_length, hwritten, hcursor, Nat.add_sub_cancel_left, Nat.add_sub_cancel, hx]
    unfold writeRow openRow
    simp only [hx, cursor, Nat.add_assoc]

theorem Fill.Inv.visit (h : Fill.Inv calls seen s) (hr : r ∈ dictOf calls)
    (hpre : idsOf (seen ++ [(r.trigram, x)]) r.trigram <+: idsOf calls r.trigram) :
    Fill.Inv calls (seen ++ [(r.trigram, x)]) (s.visit r.post_off r.count r.trigram x) := by
  obtain ⟨-, hcount, hplen⟩ := mem_dictOf hr
  have hother : ∀ q ∈ dictOf calls, q.trigram ≠ r.trigram →
      idsOf (seen ++ [(r.trigram, x)]) q.trigram = idsOf seen q.trigram := by
    intro q _ hq
    rw [idsOf_concat, if_neg hq.symm]
  have hself : idsOf (seen ++ [(r.trigram, x)]) r.trigram = pushId (idsOf seen r.trigram) x := by
    rw [idsOf_concat, if_pos rfl]
  have hins : ∀ (w : W) (q : TrigramRow), (s.wst.insert r.trigram w)[q.trigram]? =
      if r.trigram = q.trigram then some w else s.wst[q.trigram]? := fun w q => getElem?_insert_key ..
  rw [hself] at hpre
  rcases Fill.visit_cases (h.wst r hr) hcount hpre with ⟨hsame, w, hw, heq⟩ |
    ⟨k, hk, hlt, hlen, w, hw, heq⟩
  · have hids : ∀ q ∈ dictOf calls, idsOf (seen ++ [(r.trigram, x)]) q.trigram = idsOf seen q.trigram := by
      intro q hq
      by_cases hqr : q.trigram = r.trigram
      · rw [hqr, hself, hsame]
      · exact hother q hq hqr
    rw [heq]
    refine ⟨h.length, fun q hq => ?_, fun q hq => ?_⟩
    · rw [hids q hq, ← h.wst q hq, hins]
      split_ifs with hqr
      · rw [← hqr, hw]
      · rfl
    · rw [hids q hq]
      exact h.filled q hq
  · have hstop := stop_le_postingsLen hr
    rw [hplen, ← h.length] at hstop
    have hrep := replaces_writeRow hstop hlt
    rw [heq]
    refine ⟨hrep.length.trans h.length, fun q hq => ?_, fun q hq => ?_⟩
    · rw [hins]
      split_ifs with hqr
      · obtain rfl := dictOf_inj hq hr hqr.symm
        rw [hself, hlen, hw]
      · rw [hother q hq (Ne.symm hqr), h.wst q hq]
    · by_cases hqr : q.trigram = r.trigram
      · obtain rfl := dictOf_inj hq hr hqr
        rw [hself, hlen, hrep.inside]
        have hf := h.filled q hq
        rw [hk] at hf
        exact hf.step hlt
      · have hap := dictOf_apart hq hr hqr
        have hqs := stop_le_postingsLen hq
        rw [(mem_dictOf hq).2.2, hplen] at hap
        rw [(mem_dictOf hq).2.2, ← h.length] at hqs
        rw [hother q hq hqr, hrep.outside _ _ hqs hap]
        exact h.filled q hq

/-- A call writes to the region of its trigram only. -/
theorem Fill.Inv.visit_replaces (h : Fill.Inv calls seen s) (hr : r ∈ dictOf calls)
    (hpre : idsOf (seen ++ [(r.trigram, x)]) r.trigram <+: idsOf calls r.trigram) :
    ∃ region, Replaces s.postings (s.visit r.post_off r.count r.trigram x).postings r.post_off r.post_len
      region := by
  obtain ⟨-, hcount, hplen⟩ := mem_dictOf hr
  have hstop := stop_le_postingsLen hr
  rw [hplen, ← h.length] at hstop
  rw [idsOf_concat, if_pos rfl] at hpre
  rw [hplen]
  rcases Fill.visit_cases (h.wst r hr) hcount hpre with ⟨-, w, -, heq⟩ | ⟨k, -, hlt, -, w, -, heq⟩
  · rw [heq]
    exact ⟨_, Replaces.refl _ _ _⟩
  · rw [heq]
    exact ⟨_, replaces_writeRow hstop hlt⟩

end

/-- A call of the second pass. -/
def Fill.call (rows : List TrigramRow) (s : Fill) (c : Tri × Nat) : Fill :=
  match rowOf rows c.1 with
  | some r => s.visit r.post_off r.count c.1 c.2
  | none => s

/-- The second pass over a buffer that holds any bytes. -/
def fillFrom (rows : List TrigramRow) (init : Bytes) (calls : List (Tri × Nat)) : Fill :=
  calls.foldl (Fill.call rows) ⟨init, ∅⟩

theorem pass2_eq (rows : List TrigramRow) (total : Nat) (calls : List (Tri × Nat)) :
    pass2 rows total calls = fillFrom rows (List.replicate total 0) calls := rfl

/-- What one more call is, and what it may rely on. -/
theorem fillFrom_concat {calls seen rest : List (Tri × Nat)} {c : Tri × Nat} (init : Bytes)
    (h : seen ++ c :: rest = calls) : ∃ r ∈ dictOf calls, r.trigram = c.1 ∧
      idsOf (seen ++ [(r.trigram, c.2)]) r.trigram <+: idsOf calls r.trigram ∧
      fillFrom (dictOf calls) init (seen ++ [c]) =
        (fillFrom (dictOf calls) init seen).visit r.post_off r.count r.trigram c.2 := by
  obtain ⟨tri, x⟩ := c
  have hmem : (tri, x) ∈ calls := by rw [← h]; simp
  have hne : idsOf calls tri ≠ [] := List.ne_nil_of_mem (mem_idsOf.mpr hmem)
  obtain ⟨r, hr, rfl⟩ := exists_mem_dictOf hne
  refine ⟨r, hr, rfl, ?_, ?_⟩
  · have := idsOf_prefix (seen ++ [(r.trigram, x)]) rest r.trigram
    rwa [List.append_assoc, List.singleton_append, h] at this
  · unfold fillFrom
    rw [List.foldl_append, List.foldl_cons, List.foldl_nil, Fill.call]
    simp only [rowOf_dictOf hr]

/-- The second pass, so far as it has gone. -/
theorem fillFrom_inv {calls : List (Tri × Nat)} {init : Bytes} (hinit : init.length = postingsLen calls)
    {seen rest : List (Tri × Nat)} (h : seen ++ rest = calls) :
    Fill.Inv calls seen (fillFrom (dictOf calls) init seen) := by
  induction seen using List.reverseRecOn generalizing rest with
  | nil => exact Fill.inv_nil hinit
  | append_singleton seen c ih =>
    rw [List.append_assoc] at h
    obtain ⟨r, hr, hrc, hpre, hstep⟩ := fillFrom_concat init h
    have hvisit := (ih h).visit hr hpre
    rw [hstep]
    rwa [hrc] at hvisit ⊢

theorem pass2_inv (calls : List (Tri × Nat)) :
    Fill.Inv calls calls (pass2 (dictOf calls) (postingsLen calls) calls) :=
  fillFrom_inv List.length_replicate (List.append_nil _)

/-- The region of every row of the dictionary holds the whole list of its trigram. -/
theorem build_trigram_index_filled (by_name : List NameRow) (blob : Bytes) {r : TrigramRow}
    (hr : r ∈ dictOf (visit by_name blob)) :
    r.post_off + r.post_len ≤ (build_trigram_index by_name blob).2.length ∧
    Filled (slice (build_trigram_index by_name blob).2 r.post_off r.post_len)
      (idsOf (visit by_name blob) r.trigram) (idsOf (visit by_name blob) r.trigram).length := by
  have h := pass2_inv (visit by_name blob)
  have hstop := stop_le_postingsLen hr
  rw [← h.length] at hstop
  refine ⟨hstop, ?_⟩
  rw [(mem_dictOf hr).2.2]
  exact h.filled r hr

end Scry2
