import Scry2.SubstringExact
import Scry2.Lib.Distinct

/-!
# The scan for short needles

A needle without a trigram is looked for in every row, the rows split over the threads. Each thread
stops at `limit` rows, but the answer is `limit` symbols: a symbol with many names can fill a
thread's share and push the next symbol out.
-/

open Scry2.Lib

namespace Scry2

/-! ## One thread -/

section

variable {ix : Index} {names : List NameRow} {blob : Bytes} {hit : Bytes → Bool}

/-- The symbol of a row that is hit. -/
def hitSym (names : List NameRow) (blob : Bytes) (hit : Bytes → Bool) (r : Nat) : Option UInt64 :=
  if hit (nameOf names blob r).1 then some (nameOf names blob r).2 else none

theorem scanRows_eq {limit : Nat} {rows : List Nat}
    (hrows : ∀ r ∈ rows, ix.name_row r = .ok (nameOf names blob r)) {found : List UInt64}
    (h : found.length < limit) :
    ix.scanRows hit limit rows found =
      .ok (found ++ (rows.filterMap (hitSym names blob hit)).take (limit - found.length)) := by
  induction rows generalizing found with
  | nil => simp [Index.scanRows, pure, Except.pure]
  | cons r rows ih =>
    have htail : ∀ q ∈ rows, ix.name_row q = .ok (nameOf names blob q) :=
      fun q hq => hrows q (List.mem_cons_of_mem _ hq)
    rw [Index.scanRows, hrows r List.mem_cons_self, Res.ok_bind]
    by_cases hr : hit (nameOf names blob r).1 = true
    · have hsym : hitSym names blob hit r = some (nameOf names blob r).2 := if_pos hr
      have hsub : limit - found.length = (limit - found.length - 1) + 1 := by omega
      simp only [hr, if_true]
      rw [List.filterMap_cons_some hsym, hsub, List.take_succ_cons]
      split_ifs with hlim
      · rw [List.length_append, List.length_singleton] at hlim
        rw [show limit - found.length - 1 = 0 by omega, List.take_zero]
        rfl
      · rw [List.length_append, List.length_singleton] at hlim
        rw [ih htail (by rw [List.length_append, List.length_singleton]; omega), List.append_assoc,
          List.singleton_append, List.length_append, List.length_singleton, Nat.sub_sub]
    · have hsym : hitSym names blob hit r = none := if_neg hr
      simp only [hr, Bool.false_eq_true, if_false]
      rw [List.filterMap_cons_none hsym, ih htail h]

end

/-! ## How the table is cut -/

/-- The rows of thread `t`. -/
def chunkRows (n chunk t : Nat) : List Nat := List.range' (t * chunk) (min ((t + 1) * chunk) n - t * chunk)

theorem flatten_chunkRows (n chunk threads : Nat) :
    ((List.range threads).map (chunkRows n chunk)).flatten = List.range (min (threads * chunk) n) := by
  induction threads with
  | zero => simp
  | succ t ih =>
    rw [List.range_succ, List.map_append, List.flatten_append, ih]
    simp only [List.map_cons, List.map_nil, List.flatten_cons, List.flatten_nil, List.append_nil, chunkRows]
    have hle : t * chunk ≤ (t + 1) * chunk := Nat.mul_le_mul_right _ (Nat.le_succ t)
    rcases Nat.le_total (t * chunk) n with hn | hn
    · have hmin : t * chunk ≤ min ((t + 1) * chunk) n := le_min hle hn
      rw [min_eq_left hn, List.range_eq_range', List.range_eq_range']
      have happ := List.range'_append_1 (s := 0) (m := t * chunk) (n := min ((t + 1) * chunk) n - t * chunk)
      rw [Nat.zero_add, Nat.add_sub_cancel' hmin] at happ
      exact happ
    · rw [min_eq_right hn, min_eq_right (hn.trans hle), Nat.sub_eq_zero_of_le hn]
      simp

/-- `div_ceil`: the shares cover the table. -/
theorem le_mul_div_ceil {n threads : Nat} (h : 0 < threads) : n ≤ threads * ((n + threads - 1) / threads) := by
  have hmod := Nat.mod_lt (n + threads - 1) h
  have hdiv := Nat.div_add_mod (n + threads - 1) threads
  omega

/-! ## All threads -/

section

variable {ix : Index} {names : List NameRow} {blob : Bytes} [Memmem]

theorem matching_eq_range (nb : Bytes) (ignore_case : Bool) :
    matching names blob nb ignore_case =
      (List.range names.length).filterMap (hitSym names blob (Index.verify nb ignore_case)) := by
  unfold matching
  rw [filterMap_eq_range]
  apply List.filterMap_congr
  intro r hr
  have hlt := List.mem_range.mp hr
  unfold hitSym
  rw [List.getElem?_eq_getElem hlt, Option.bind_some, nameOf_of_lt hlt]
  simp only [verify_iff]

/-- What the threads find: their shares of the matching rows, each cut at the limit. -/
def shares (names : List NameRow) (blob nb : Bytes) (ignore_case : Bool) (threads : Nat) : List (List UInt64) :=
  (List.range threads).map fun t =>
    (chunkRows names.length ((names.length + threads - 1) / threads) t).filterMap
      (hitSym names blob (Index.verify nb ignore_case))

theorem shares_flatten (nb : Bytes) (ignore_case : Bool) {threads : Nat} (h : 0 < threads) :
    (shares names blob nb ignore_case threads).flatten = matching names blob nb ignore_case := by
  unfold shares
  rw [matching_eq_range, ← min_eq_right (le_mul_div_ceil (n := names.length) h), ← flatten_chunkRows,
    min_eq_right (le_mul_div_ceil h), List.filterMap_flatten, List.map_map]
  rfl

theorem shares_one (nb : Bytes) (ignore_case : Bool) :
    shares names blob nb ignore_case 1 = [matching names blob nb ignore_case] := by
  rw [← shares_flatten nb ignore_case one_pos]
  simp [shares]

theorem linear_eq (hn : ix.hdr.names_n = names.length)
    (hrows : ∀ r < names.length, ix.name_row r = .ok (nameOf names blob r)) (parallelism : Nat)
    {nb : Bytes} (hnb : nb ≠ []) (hnames : names ≠ []) {limit : Nat} (hlimit : 0 < limit)
    (ignore_case : Bool) :
    ix.syms_matching_substring_linear parallelism nb limit ignore_case =
      .ok ((((shares names blob nb ignore_case (min (max parallelism 1) names.length)).map
        (List.take limit)).flatten).eraseDups.take limit) := by
  have hpos : 0 < names.length := List.length_pos_iff.mpr hnames
  unfold Index.syms_matching_substring_linear
  simp only [hn]
  rw [if_neg (by push Not; exact ⟨hnb, hpos.ne', hlimit.ne'⟩)]
  generalize min (max parallelism 1) names.length = threads
  have hchunk : ∀ t ∈ List.range threads,
      ix.scanChunk (Index.verify nb ignore_case) limit ((names.length + threads - 1) / threads) t =
        .ok (((chunkRows names.length ((names.length + threads - 1) / threads) t).filterMap
          (hitSym names blob (Index.verify nb ignore_case))).take limit) := by
    intro t _
    have hmem : ∀ r ∈ chunkRows names.length ((names.length + threads - 1) / threads) t,
        ix.name_row r = .ok (nameOf names blob r) := by
      intro r hr
      have := List.mem_range'_1.mp hr
      exact hrows r (by omega)
    unfold Index.scanChunk
    simp only [hn]
    rw [← chunkRows, scanRows_eq hmem (by simpa using hlimit)]
    simp
  rw [mapM_ok hchunk, Res.ok_bind, gather_eq _ _ _ _ (by simpa using hlimit)]
  simp [shares, Function.comp_def, pure, Except.pure]

end

/-! ## The answer -/

/-- Every row of the name index names bytes of the blob. -/
def Index.NamesInBlob (ix : Index) : Prop := ∀ row ∈ ix.nameRows, row.name_off + row.name_len ≤ ix.blob.length

theorem Index.nameRows_length (ix : Index) : ix.nameRows.length = ix.hdr.names_n := by
  simp [Index.nameRows, Index.tableRows]

theorem Index.NamesInBlob.name_row {ix : Index} (h : ix.NamesInBlob) {r : Nat} (hr : r < ix.nameRows.length) :
    ix.name_row r = .ok (nameOf ix.nameRows ix.blob r) := by
  have hrow : ix.nameRows[r] = NameRow.decode (Index.rowAt ix.names_slice NAME_LEN r) := by
    simp [Index.nameRows, Index.tableRows]
  have hin := h _ (List.getElem_mem hr)
  rw [nameOf_of_lt hr]
  rw [hrow] at hin ⊢
  unfold Index.name_row
  rw [if_pos (ix.nameRows_length ▸ hr)]
  simp only
  rw [Index.blobSlice, if_pos hin]
  rfl

theorem IndexBuilder.opens_names (b : IndexBuilder) (htot : b.finishRows.total < 2 ^ 63)
    (hin : ∀ row ∈ b.finishRows.names, row.name_off + row.name_len ≤ b.finishRows.blob.length) :
    ∃ ix, b.finish = .ok b.finishRows.bytes ∧ open_index b.finishRows.bytes = .ok ix ∧ ix.NamesInBlob ∧
      ix.nameRows = b.finishRows.names ∧ ix.blob = b.finishRows.blob := by
  obtain ⟨hf, ix, hopen, hix⟩ := b.opens htot
  have hblob : ix.blob = b.finishRows.blob := hix.blob
  have hnames : ix.nameRows = b.finishRows.names := by
    rw [b.finishRows_eq] at htot hix ⊢
    exact hix.nameRows htot
  refine ⟨ix, hf, hopen, ?_, hnames, hblob⟩
  unfold Index.NamesInBlob
  rw [hnames, hblob]
  exact hin

/-- The answer is that of a serial scan for every number of threads exactly when the first `limit`
matching rows belong to distinct symbols, or no later one brings a new symbol. -/
theorem linear_scan_serial_iff [Memmem] {ix : Index} (h : ix.NamesInBlob) {nb : Bytes} (hnb : nb ≠ [])
    (limit : Nat) (ignore_case : Bool) :
    (∀ threads, 1 ≤ threads → ix.syms_matching_substring_linear threads nb limit ignore_case =
        .ok ((matching ix.nameRows ix.blob nb ignore_case).eraseDups.take limit)) ↔
      FirstDecide limit (matching ix.nameRows ix.blob nb ignore_case) := by
  by_cases h0 : ix.nameRows = [] ∨ limit = 0
  · -- Nothing is scanned, and nothing was to be found.
    have hdecide : FirstDecide limit (matching ix.nameRows ix.blob nb ignore_case) := by
      rcases h0 with h0 | h0
      · simp [FirstDecide, matching, h0]
      · simp [FirstDecide, h0]
    refine iff_of_true (fun threads _ => ?_) hdecide
    unfold Index.syms_matching_substring_linear
    simp only
    rcases h0 with h0 | h0
    · have hn : ix.hdr.names_n = 0 := by rw [← ix.nameRows_length, h0]; rfl
      rw [if_pos (.inr (.inl hn))]
      simp [matching, h0, pure, Except.pure]
    · rw [if_pos (.inr (.inr h0))]
      simp [h0, pure, Except.pure]
  · push Not at h0
    have hlin := fun threads => linear_eq ix.nameRows_length.symm (fun r hr => h.name_row hr) threads hnb h0.1
      (Nat.pos_of_ne_zero h0.2) ignore_case
    have hpos : 0 < ix.nameRows.length := List.length_pos_iff.mpr h0.1
    constructor
    · intro hall
      -- One thread: its share is the whole table.
      have h1 := (hlin 1).symm.trans (hall 1 le_rfl)
      rw [max_self, min_eq_left hpos] at h1
      rw [shares_one] at h1
      simp only [List.map_cons, List.map_nil, List.flatten_cons, List.flatten_nil, List.append_nil,
        Except.ok.injEq] at h1
      exact firstDecide_iff.mpr h1
    · intro hd threads _
      have hpos' : 0 < min (max threads 1) ix.nameRows.length := lt_min (by omega) hpos
      rw [hlin threads]
      congr 1
      refine hd.eraseDups_take_eq ?_ ?_
      · rw [take_flatten_map_take, shares_flatten nb ignore_case hpos']
      · rw [← shares_flatten nb ignore_case hpos']
        exact flatten_map_take_subset limit _

section

attribute [local instance] asciiUnicode naiveMemmem

/-- One symbol with two names before another with one. -/
def crowdedNames : IndexBuilder :=
  ((IndexBuilder.new.upsert_sym 1 Kind.FUNCTION Lang.CXX "a").add_alias 1 "aa").upsert_sym 2 Kind.FUNCTION
    Lang.CXX "ab"

theorem crowdedNames_rows :
    crowdedNames.finishRows.total < 2 ^ 63 ∧
      (∀ row ∈ crowdedNames.finishRows.names,
        row.name_off + row.name_len ≤ crowdedNames.finishRows.blob.length) ∧
      matching crowdedNames.finishRows.names crowdedNames.finishRows.blob (as_bytes "a") false = [1, 1, 2] := by
  decide +kernel

theorem crowdedNames_opens :
    ∃ f ix, crowdedNames.finish = .ok f ∧ open_index f = .ok ix ∧ ix.NamesInBlob ∧
      matching ix.nameRows ix.blob (as_bytes "a") false = [1, 1, 2] := by
  obtain ⟨htot, hin, hmatch⟩ := crowdedNames_rows
  obtain ⟨ix, hf, hopen, hix, hnames, hblob⟩ := crowdedNames.opens_names htot hin
  exact ⟨_, ix, hf, hopen, hix, by rw [hnames, hblob, hmatch]⟩

/-- The two names of the first symbol fill the thread's share, and the second symbol is lost. -/
theorem crowded_scan_loses_symbol :
    ∃ f ix, crowdedNames.finish = .ok f ∧ open_index f = .ok ix ∧
      ix.syms_matching_substring_linear 1 (as_bytes "a") 2 false = .ok [1] ∧
      (matching ix.nameRows ix.blob (as_bytes "a") false).eraseDups.take 2 = [1, 2] := by
  obtain ⟨f, ix, hf, hopen, hin, hmatch⟩ := crowdedNames_opens
  have hnames : ix.nameRows ≠ [] := by
    intro h
    rw [h] at hmatch
    cases hmatch
  have hlin := linear_eq ix.nameRows_length.symm (fun r hr => hin.name_row hr) 1 (show as_bytes "a" ≠ [] by decide)
    hnames (show 0 < 2 by decide) false
  rw [max_self, min_eq_left (List.length_pos_iff.mpr hnames), shares_one, hmatch] at hlin
  refine ⟨f, ix, hf, hopen, hlin.trans (by decide), ?_⟩
  rw [hmatch]
  decide

/-- With room for one symbol the first row decides. -/
theorem linear_scan_serial_iff_crowdedNames :
    ∃ f ix, crowdedNames.finish = .ok f ∧ open_index f = .ok ix ∧ ix.NamesInBlob ∧
      ∀ threads, 1 ≤ threads → ix.syms_matching_substring_linear threads (as_bytes "a") 1 false = .ok [1] := by
  obtain ⟨f, ix, hf, hopen, hin, hmatch⟩ := crowdedNames_opens
  have h := (linear_scan_serial_iff hin (show as_bytes "a" ≠ [] by decide) 1 false).mpr (by
    rw [hmatch]
    exact .inl (by decide))
  rw [hmatch] at h
  exact ⟨f, ix, hf, hopen, hin, h⟩

end

end Scry2
