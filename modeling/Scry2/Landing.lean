import Scry2.LinearScan
import Scry2.Lookup

/-!
# Where a name lands

`sym_for_name` bisects the name index for a row of the name and takes the symbol of the first one it
meets. Which row of a run that is depends on the length of the table and the place of the run alone,
so an ambiguous name need not resolve to its smallest symbol.
-/

open Scry2.Lib

namespace Scry2

namespace Index

/-- `row_name.as_bytes().cmp(qb)` at row `mid`. -/
def nameCmp (ix : Index) (qb : Bytes) (mid : Nat) : Res Ordering := do
  let row_name ← ix.nameText (NameRow.decode (rowAt ix.names_slice NAME_LEN mid))
  return cmp (as_bytes row_name) qb

/-- The first midpoint at which the comparison is equal. -/
def nameLanding (cmpAt : Nat → Res Ordering) (lo hi : Nat) : Res (Option Nat) :=
  if lo < hi then do
    match ← cmpAt ((lo + hi) / 2) with
    | .lt => nameLanding cmpAt ((lo + hi) / 2 + 1) hi
    | .gt => nameLanding cmpAt lo ((lo + hi) / 2)
    | .eq => return some ((lo + hi) / 2)
  else return none
termination_by hi - lo

def sym_for_name (ix : Index) (query : String) : Res (Option UInt64) := do
  match ← nameLanding (ix.nameCmp (as_bytes query)) 0 ix.hdr.names_n with
  | some mid => return some (NameRow.decode (rowAt ix.names_slice NAME_LEN mid)).sym
  | none => return none

end Index

theorem nameLanding_eq {cmpAt : Nat → Res Ordering} {c : Nat → Ordering} {lo hi : Nat}
    (h : ∀ i < hi, cmpAt i = .ok (c i)) : Index.nameLanding cmpAt lo hi = .ok (bisectEq c lo hi) := by
  fun_induction bisectEq c lo hi with
  | case1 lo hi hlt mid hmid ih =>
    rw [Index.nameLanding, if_pos hlt, h _ (by omega), Res.ok_bind, hmid]
    exact ih h
  | case2 lo hi hlt mid hmid ih =>
    rw [Index.nameLanding, if_pos hlt, h _ (by omega), Res.ok_bind, hmid]
    exact ih fun i hi => h i (by omega)
  | case3 lo hi hlt mid hmid =>
    rw [Index.nameLanding, if_pos hlt, h _ (by omega), Res.ok_bind, hmid]
    rfl
  | case4 lo hi hlt =>
    rw [Index.nameLanding, if_neg hlt]
    rfl

/-! ## The landing of a run -/

/-- On which side of the rows `start..stop` a row lies. -/
def side (start stop mid : Nat) : Ordering :=
  if mid < start then .lt else if mid < stop then .eq else .gt

/-- The first midpoint of the bisection of `n` rows that is one of the rows `start..stop`. -/
def landing (n start stop : Nat) : Option Nat := bisectEq (side start stop) 0 n

/-- How many halvings of the rows `lo..hi` it takes until row `i` is the middle. -/
def level (lo hi i : Nat) : Nat :=
  if lo < hi then
    if i < (lo + hi) / 2 then level lo ((lo + hi) / 2) i + 1
    else if (lo + hi) / 2 < i then level ((lo + hi) / 2 + 1) hi i + 1
    else 0
  else 0
termination_by hi - lo

section

variable {start stop lo hi : Nat}

theorem side_eq_iff (mid : Nat) : side start stop mid = .eq ↔ start ≤ mid ∧ mid < stop := by
  unfold side
  split_ifs <;> simp <;> omega

theorem bisectEq_side_mem {i : Nat} (h : bisectEq (side start stop) lo hi = some i) : start ≤ i ∧ i < stop := by
  fun_induction bisectEq (side start stop) lo hi with
  | case1 lo hi hlt mid hmid ih => exact ih h
  | case2 lo hi hlt mid hmid ih => exact ih h
  | case3 lo hi hlt mid hmid =>
    obtain rfl : mid = i := Option.some.inj h
    exact (side_eq_iff mid).mp hmid
  | case4 lo hi hlt => cases h

theorem bisectEq_side_ne_none (hrun : start < stop) (hlo : lo ≤ start) (hhi : stop ≤ hi) :
    bisectEq (side start stop) lo hi ≠ none := by
  fun_induction bisectEq (side start stop) lo hi with
  | case1 lo hi hlt mid hmid ih =>
    unfold side at hmid
    split_ifs at hmid
    exact ih (by omega) hhi
  | case2 lo hi hlt mid hmid ih =>
    unfold side at hmid
    split_ifs at hmid
    exact ih hlo (by omega)
  | case3 lo hi hlt mid hmid => simp
  | case4 lo hi hlt => omega

/-- The row met is the one row of the run that takes the fewest halvings. -/
theorem level_landing_lt {i j : Nat} (h : bisectEq (side start stop) lo hi = some i) (hj : start ≤ j)
    (hj' : j < stop) (hne : j ≠ i) : level lo hi i < level lo hi j := by
  fun_induction bisectEq (side start stop) lo hi with
  | case1 lo hi hlt mid hmid ih =>
    obtain ⟨hi1, -⟩ := bisectEq_side_mem h
    unfold side at hmid
    split_ifs at hmid
    rw [level.eq_def lo hi i, level.eq_def lo hi j]
    simp only [hlt, if_true]
    rw [if_neg (by omega), if_pos (by omega), if_neg (by omega), if_pos (by omega)]
    exact Nat.succ_lt_succ (ih h)
  | case2 lo hi hlt mid hmid ih =>
    obtain ⟨-, hi2⟩ := bisectEq_side_mem h
    unfold side at hmid
    split_ifs at hmid
    rw [level.eq_def lo hi i, level.eq_def lo hi j]
    simp only [hlt, if_true]
    rw [if_pos (by omega), if_pos (by omega)]
    exact Nat.succ_lt_succ (ih h)
  | case3 lo hi hlt mid hmid =>
    obtain rfl : mid = i := Option.some.inj h
    have hzero : level lo hi mid = 0 := by
      rw [level.eq_def]
      simp only [hlt, if_true]
      rw [if_neg (by omega), if_neg (by omega)]
    rw [hzero, level.eq_def]
    simp only [hlt, if_true]
    split_ifs with h1 h2
    · exact Nat.succ_pos _
    · exact Nat.succ_pos _
    · omega
  | case4 lo hi hlt => cases h

end

theorem lt_countP_iff {α : Type} {l : List α} {P : α → Bool} (h : l.Pairwise fun a b => P b = true → P a = true)
    {i : Nat} (hi : i < l.length) : P l[i] = true ↔ i < l.countP P := by
  induction l generalizing i with
  | nil => simp at hi
  | cons a l ih =>
    obtain ⟨ha, hl⟩ := List.pairwise_cons.mp h
    by_cases hPa : P a = true
    · rw [List.countP_cons_of_pos hPa]
      cases i with
      | zero => simpa using hPa
      | succ i =>
        rw [List.getElem_cons_succ, ih hl (by simpa using hi)]
        omega
    · have hnone : ∀ b ∈ a :: l, ¬ P b = true := by
        intro b hb hPb
        rcases List.mem_cons.mp hb with rfl | hb
        · exact hPa hPb
        · exact hPa (ha b hb hPb)
      rw [List.countP_eq_zero.mpr hnone]
      simpa using hnone _ (List.getElem_mem hi)

/-! ## Which symbol it is -/

namespace Index

variable (ix : Index)

/-- The names below a text, and those up to it. -/
def namesBelow (q : Bytes) : Nat := ix.nameRows.countP fun r => decide (r.bytes ix.blob < q)

def namesUpTo (q : Bytes) : Nat := ix.nameRows.countP fun r => decide (r.bytes ix.blob ≤ q)

/-- Of the rows of the name the one that takes the fewest halvings of the table has the symbol of the
first. -/
def LandsOnSmallest (q : String) : Prop :=
  ∀ i, ix.namesBelow (as_bytes q) ≤ i → i < ix.namesUpTo (as_bytes q) →
    (∀ j, ix.namesBelow (as_bytes q) ≤ j → j < ix.namesUpTo (as_bytes q) →
      level 0 ix.nameRows.length i ≤ level 0 ix.nameRows.length j) →
    ix.nameRows[i]?.map NameRow.sym = ix.nameRows[ix.namesBelow (as_bytes q)]?.map NameRow.sym

/-- The name resolves to the smallest of its symbols, and to none only when it has none. -/
def ResolvesToSmallest (q : String) : Prop :=
  ∃ found syms, ix.sym_for_name q = .ok found ∧ ix.syms_for_name q = .ok syms ∧ (found = none ↔ syms = []) ∧
    ∀ s, found = some s → s ∈ syms ∧ ∀ s' ∈ syms, s ≤ s'

end Index

section

variable {F : Facts} {t : Tables F} {ix : Index}

/-- The rows of a name are those between the two counts. -/
theorem Tables.name_eq_iff (t : Tables F) (q : Bytes) {i : Nat} (hi : i < t.names.length) :
    (t.names[i].bytes t.blob < q ↔ i < t.names.countP fun r => decide (r.bytes t.blob < q)) ∧
      (t.names[i].bytes t.blob ≤ q ↔ i < t.names.countP fun r => decide (r.bytes t.blob ≤ q)) := by
  constructor
  · rw [← lt_countP_iff (P := fun r => decide (r.bytes t.blob < q)) _ hi, decide_eq_true_iff]
    refine t.names_bytes_sorted.imp fun hab hb => ?_
    exact decide_eq_true (lt_of_le_of_lt hab (of_decide_eq_true hb))
  · rw [← lt_countP_iff (P := fun r => decide (r.bytes t.blob ≤ q)) _ hi, decide_eq_true_iff]
    refine t.names_bytes_sorted.imp fun hab hb => ?_
    exact decide_eq_true (hab.trans (of_decide_eq_true hb))

theorem Index.Lays.nameCmp (hix : ix.Lays t.rows) (h : t.rows.total < 2 ^ 63) (q : Bytes) {i : Nat}
    (hi : i < t.names.length) :
    ix.nameCmp q i = .ok (side (ix.namesBelow q) (ix.namesUpTo q) i) := by
  have hmem := List.getElem_mem hi
  obtain ⟨hlt, hle⟩ := t.name_eq_iff q hi
  unfold Index.nameCmp
  rw [hix.nameRow_at h hi, Tables.nameText hmem (show ix.blob = t.blob from hix.blob), Res.ok_bind,
    Tables.as_bytes_text hmem]
  unfold Index.namesBelow Index.namesUpTo side
  rw [hix.nameRows h, show ix.blob = t.blob from hix.blob]
  rcases lt_trichotomy (t.names[i].bytes t.blob) q with hc | hc | hc
  · rw [if_pos (hlt.mp hc), (cmp_bytes _ q).eq_lt.mpr hc]
    rfl
  · rw [if_neg (mt hlt.mpr hc.not_lt), if_pos (hle.mp hc.le), (cmp_bytes _ q).eq_eq.mpr hc]
    rfl
  · rw [if_neg (mt hlt.mpr hc.not_gt), if_neg (mt hle.mpr hc.not_ge), (cmp_bytes _ q).eq_gt.mpr hc]
    rfl

/-- The lookup is the landing of the run in the table. -/
theorem Index.Lays.sym_for_name (hix : ix.Lays t.rows) (h : t.rows.total < 2 ^ 63) (q : String) :
    ix.sym_for_name q = .ok ((landing ix.nameRows.length (ix.namesBelow (as_bytes q))
      (ix.namesUpTo (as_bytes q))).bind fun i => ix.nameRows[i]?.map NameRow.sym) := by
  have hn : ix.hdr.names_n = t.names.length := by rw [hix.hdr]; rfl
  have hloop : Index.nameLanding (ix.nameCmp (as_bytes q)) 0 t.names.length =
      .ok (landing t.names.length (ix.namesBelow (as_bytes q)) (ix.namesUpTo (as_bytes q))) :=
    nameLanding_eq fun i hi => hix.nameCmp h (as_bytes q) hi
  unfold Index.sym_for_name
  rw [hn, hloop, Res.ok_bind, hix.nameRows h]
  cases hland : landing t.names.length (ix.namesBelow (as_bytes q)) (ix.namesUpTo (as_bytes q)) with
  | none => rfl
  | some i =>
    have hi : i < t.names.length := by
      have hle : ix.namesUpTo (as_bytes q) ≤ t.names.length := by
        unfold Index.namesUpTo
        rw [hix.nameRows h]
        exact List.countP_le_length
      exact (bisectEq_side_mem hland).2.trans_le hle
    simp only [Option.bind_some]
    rw [hix.nameRow_at h hi, List.getElem?_eq_getElem hi]
    rfl

theorem Index.Lays.mem_syms_of_run (hix : ix.Lays t.rows) (h : t.rows.total < 2 ^ 63) (q : String) :
    ∃ syms, ix.syms_for_name q = .ok syms ∧ ∀ s, s ∈ syms ↔
      ∃ i, ix.namesBelow (as_bytes q) ≤ i ∧ i < ix.namesUpTo (as_bytes q) ∧ ix.nameRows[i]?.map NameRow.sym = some s := by
  refine ⟨_, hix.syms_for_name h q, fun s => ?_⟩
  unfold Index.namesBelow Index.namesUpTo
  rw [hix.nameRows h, show ix.blob = t.blob from hix.blob]
  simp only [mem_sortDedup, List.mem_map, List.mem_filter, decide_eq_true_eq]
  constructor
  · rintro ⟨-, ⟨r, ⟨hr, hq⟩, rfl⟩, rfl⟩
    rw [Tables.as_bytes_text hr] at hq
    obtain ⟨i, hi, rfl⟩ := List.mem_iff_getElem.mp hr
    obtain ⟨hlt, hle⟩ := t.name_eq_iff (as_bytes q) hi
    exact ⟨i, not_lt.mp fun hc => hq.not_lt (hlt.mpr hc), hle.mp hq.le, by rw [List.getElem?_eq_getElem hi]; rfl⟩
  · rintro ⟨i, hge, hlt, hs⟩
    obtain ⟨r, hr, rfl⟩ := Option.map_eq_some_iff.mp hs
    obtain ⟨hi, rfl⟩ := List.getElem?_eq_some_iff.mp hr
    obtain ⟨hbelow, hupto⟩ := t.name_eq_iff (as_bytes q) hi
    have hq : t.names[i].bytes t.blob = as_bytes q :=
      le_antisymm (hupto.mpr hlt) (not_lt.mp fun hc => absurd (hbelow.mp hc) (not_lt.mpr hge))
    have hmem := List.getElem_mem hi
    exact ⟨_, ⟨t.names[i], ⟨hmem, by rw [Tables.as_bytes_text hmem, hq]⟩, rfl⟩, rfl⟩

theorem Index.Lays.run_ascends (hix : ix.Lays t.rows) (h : t.rows.total < 2 ^ 63) (q : Bytes) {i j : Nat}
    {a b : UInt64} (hi : ix.namesBelow q ≤ i) (hij : i ≤ j) (hj : j < ix.namesUpTo q)
    (ha : ix.nameRows[i]?.map NameRow.sym = some a) (hb : ix.nameRows[j]?.map NameRow.sym = some b) :
    a ≤ b := by
  obtain ⟨r, hr, rfl⟩ := Option.map_eq_some_iff.mp ha
  obtain ⟨s, hs, rfl⟩ := Option.map_eq_some_iff.mp hb
  unfold Index.namesBelow Index.namesUpTo at *
  rw [hix.nameRows h, show ix.blob = t.blob from hix.blob] at *
  obtain ⟨hil, rfl⟩ := List.getElem?_eq_some_iff.mp hr
  obtain ⟨hjl, rfl⟩ := List.getElem?_eq_some_iff.mp hs
  rcases hij.eq_or_lt with rfl | hlt
  · exact le_rfl
  · rcases List.pairwise_iff_getElem.mp t.names_sorted i j hil hjl hlt with hb | ⟨-, hle⟩
    · -- A larger name is not in the run.
      have hge := not_lt.mp fun hc => absurd ((t.name_eq_iff q hil).1.mp hc) (not_lt.mpr hi)
      exact absurd ((t.name_eq_iff q hjl).2.mpr hj) (not_le.mpr (hge.trans_lt hb))
    · exact hle

/-- A name resolves to its smallest symbol exactly when its run is first met there. -/
theorem Index.Lays.resolves_iff (hix : ix.Lays t.rows) (h : t.rows.total < 2 ^ 63) (q : String) :
    ix.ResolvesToSmallest q ↔ ix.LandsOnSmallest q := by
  obtain ⟨syms, hsyms, hmem⟩ := hix.mem_syms_of_run h q
  have hfound := hix.sym_for_name h q
  have hupto : ix.namesUpTo (as_bytes q) ≤ ix.nameRows.length := List.countP_le_length
  unfold Index.LandsOnSmallest Index.ResolvesToSmallest
  cases hland : landing ix.nameRows.length (ix.namesBelow (as_bytes q)) (ix.namesUpTo (as_bytes q)) with
  | none =>
    have hempty : ix.namesUpTo (as_bytes q) ≤ ix.namesBelow (as_bytes q) :=
      not_lt.mp fun hc => bisectEq_side_ne_none hc (Nat.zero_le _) hupto hland
    have hnil : syms = [] := by
      rw [List.eq_nil_iff_forall_not_mem]
      intro s hs
      obtain ⟨i, h1, h2, -⟩ := (hmem s).mp hs
      omega
    rw [hland] at hfound
    constructor
    · intro _ i hge hlt
      omega
    · intro _
      exact ⟨_, _, hfound, hsyms, by simp [hnil], fun s hs => by cases hs⟩
  | some i =>
    obtain ⟨hge, hlt⟩ := bisectEq_side_mem hland
    have hi : i < ix.nameRows.length := by omega
    have hs : ix.namesBelow (as_bytes q) < ix.nameRows.length := by omega
    have hrow : ∀ k (hk : k < ix.nameRows.length),
        ix.nameRows[k]?.map NameRow.sym = some ix.nameRows[k].sym := by
      intro k hk
      rw [List.getElem?_eq_getElem hk]
      rfl
    have hfirst : ix.nameRows[ix.namesBelow (as_bytes q)].sym ∈ syms :=
      (hmem _).mpr ⟨_, le_rfl, by omega, hrow _ hs⟩
    rw [hland, Option.bind_some, hrow i hi] at hfound
    constructor
    · rintro ⟨found, syms', hf, hs', -, hmin⟩ j hj hj' hleast
      cases hfound.symm.trans hf
      cases hsyms.symm.trans hs'
      have hij : j = i := by
        by_contra hne
        have := level_landing_lt hland hj hj' hne
        have := hleast i hge hlt
        omega
      have hle := (hmin _ rfl).2 _ hfirst
      have hge := hix.run_ascends h (as_bytes q) le_rfl hge hlt (hrow _ hs) (hrow i hi)
      rw [hij, hrow i hi, hrow _ hs, le_antisymm hle hge]
    · intro hsmallest
      have hsame := hsmallest i hge hlt fun j hj hj' => by
        by_cases hne : j = i
        · rw [hne]
        · exact (level_landing_lt hland hj hj' hne).le
      rw [hrow i hi, hrow _ hs] at hsame
      rw [hsame] at hfound
      refine ⟨_, _, hfound, hsyms, ?_, fun s hs' => ?_⟩
      · simp [List.ne_nil_of_mem hfirst]
      · obtain rfl := Option.some.inj hs'
        refine ⟨hfirst, fun s' hs' => ?_⟩
        obtain ⟨k, h1, h2, h3⟩ := (hmem s').mp hs'
        exact hix.run_ascends h (as_bytes q) le_rfl h1 h2 (hrow _ hs) h3

end

theorem Produced.sym_for_name [Unicode] {f : Bytes} {ix : Index} (hf : Produced f)
    (hopen : open_index f = .ok ix) (q : String) :
    ix.sym_for_name q = .ok ((landing ix.nameRows.length (ix.namesBelow (as_bytes q))
      (ix.namesUpTo (as_bytes q))).bind fun i => ix.nameRows[i]?.map NameRow.sym) ∧
    (ix.ResolvesToSmallest q ↔ ix.LandsOnSmallest q) := by
  obtain ⟨F, -, t, ht⟩ := hf.renders
  obtain ⟨htot, ix', hopen', hix⟩ := t.open_file ht
  cases hopen.symm.trans hopen'
  exact ⟨hix.sym_for_name htot q, hix.resolves_iff htot q⟩

/-- Over every file of the writers: a name resolves to its smallest symbol exactly when that symbol is
at the row of its run that the halvings of the table reach first. -/
theorem sym_for_name_smallest_iff [Unicode] {f : Bytes} {ix : Index} (hf : Produced f)
    (hopen : open_index f = .ok ix) (q : String) : ix.ResolvesToSmallest q ↔ ix.LandsOnSmallest q :=
  (hf.sym_for_name hopen q).2

theorem Index.landing_of_table {ix : Index} {table : List (Bytes × UInt64)}
    (h : ix.nameRows.map (fun r => (r.bytes ix.blob, r.sym)) = table) (q : Bytes) :
    ix.nameRows.length = table.length ∧ ix.namesBelow q = table.countP (fun e => decide (e.1 < q)) ∧
      ix.namesUpTo q = table.countP (fun e => decide (e.1 ≤ q)) ∧
      ∀ i : Nat, ix.nameRows[i]?.map NameRow.sym = table[i]?.map Prod.snd := by
  subst h
  refine ⟨(List.length_map _).symm, ?_, ?_, fun i => ?_⟩
  · unfold Index.namesBelow
    rw [List.countP_map]
    rfl
  · unfold Index.namesUpTo
    rw [List.countP_map]
    rfl
  · rw [List.getElem?_map, Option.map_map]
    rfl

section

attribute [local instance] asciiUnicode

/-- Two symbols of one name. -/
def namesakes : IndexBuilder :=
  (IndexBuilder.new.upsert_sym 1 Kind.FUNCTION Lang.CXX "f").upsert_sym 2 Kind.FUNCTION Lang.CXX "f"

/-- The same with a name before theirs. -/
def namesakesBehind : IndexBuilder := namesakes.upsert_sym 3 Kind.FUNCTION Lang.CXX "a"

theorem IndexBuilder.opens_table {b : IndexBuilder} {table : List (Bytes × UInt64)}
    (h : b.finishRows.total < 2 ^ 63 ∧
      (∀ row ∈ b.finishRows.names, row.name_off + row.name_len ≤ b.finishRows.blob.length) ∧
      b.finishRows.names.map (fun r => (r.bytes b.finishRows.blob, r.sym)) = table) :
    ∃ f ix, b.finish = .ok f ∧ open_index f = .ok ix ∧ Produced f ∧
      ix.nameRows.map (fun r => (r.bytes ix.blob, r.sym)) = table := by
  obtain ⟨htot, hin, htable⟩ := h
  obtain ⟨ix, hf, hopen, -, hrows, hblob⟩ := b.opens_names htot hin
  exact ⟨_, ix, hf, hopen, Produced.finish hf, by rw [hrows, hblob, htable]⟩

theorem namesakes_rows :
    namesakes.finishRows.total < 2 ^ 63 ∧
      (∀ row ∈ namesakes.finishRows.names, row.name_off + row.name_len ≤ namesakes.finishRows.blob.length) ∧
      namesakes.finishRows.names.map (fun r => (r.bytes namesakes.finishRows.blob, r.sym)) =
        [([0x66], 1), ([0x66], 2)] := by
  decide +kernel

theorem namesakesBehind_rows :
    namesakesBehind.finishRows.total < 2 ^ 63 ∧
      (∀ row ∈ namesakesBehind.finishRows.names,
        row.name_off + row.name_len ≤ namesakesBehind.finishRows.blob.length) ∧
      namesakesBehind.finishRows.names.map (fun r => (r.bytes namesakesBehind.finishRows.blob, r.sym)) =
        [([0x61], 3), ([0x66], 1), ([0x66], 2)] := by
  decide +kernel

/-- Of two namesakes the second is found, until another name goes before them. -/
theorem namesakes_resolve_to_second :
    (∃ f ix, namesakes.finish = .ok f ∧ open_index f = .ok ix ∧ ix.sym_for_name "f" = .ok (some 2) ∧
      ¬ ix.ResolvesToSmallest "f") ∧
    ∃ f ix, namesakesBehind.finish = .ok f ∧ open_index f = .ok ix ∧ ix.sym_for_name "f" = .ok (some 1) := by
  have hq : as_bytes "f" = [0x66] := by decide
  constructor
  · obtain ⟨f, ix, hf, hopen, hprod, htable⟩ := IndexBuilder.opens_table namesakes_rows
    obtain ⟨hsym, hiff⟩ := hprod.sym_for_name hopen "f"
    obtain ⟨hlen, hbelow, hupto, hrow⟩ := Index.landing_of_table htable (as_bytes "f")
    have hland : landing 2 0 2 = some 1 := by simp [landing, bisectEq, side]
    rw [hq] at hbelow hupto
    change ix.nameRows.length = 2 at hlen
    change ix.namesBelow _ = 0 at hbelow
    change ix.namesUpTo _ = 2 at hupto
    refine ⟨f, ix, hf, hopen, ?_, ?_⟩
    · rw [hsym, hq, hlen, hbelow, hupto, hland, Option.bind_some, hrow]
      rfl
    · rw [hiff]
      intro h
      unfold Index.LandsOnSmallest at h
      rw [hq, hlen, hbelow, hupto] at h
      have h1 := h 1 (by decide) (by decide) fun j _ _ => by simp [level]
      rw [hrow, hrow] at h1
      exact absurd h1 (by decide)
  · obtain ⟨f, ix, hf, hopen, hprod, htable⟩ := IndexBuilder.opens_table namesakesBehind_rows
    obtain ⟨hsym, -⟩ := hprod.sym_for_name hopen "f"
    obtain ⟨hlen, hbelow, hupto, hrow⟩ := Index.landing_of_table htable (as_bytes "f")
    have hland : landing 3 1 3 = some 1 := by simp [landing, bisectEq, side]
    rw [hq] at hbelow hupto
    change ix.nameRows.length = 3 at hlen
    change ix.namesBelow _ = 1 at hbelow
    change ix.namesUpTo _ = 3 at hupto
    refine ⟨f, ix, hf, hopen, ?_⟩
    rw [hsym, hq, hlen, hbelow, hupto, hland, Option.bind_some, hrow]
    rfl

/-- Behind the other name the first namesake is met first. -/
theorem sym_for_name_smallest_iff_sample :
    ∃ f ix, namesakesBehind.finish = .ok f ∧ open_index f = .ok ix ∧
      (ix.ResolvesToSmallest "f" ↔ ix.LandsOnSmallest "f") := by
  obtain ⟨f, ix, hf, hopen, hprod, -⟩ := IndexBuilder.opens_table namesakesBehind_rows
  exact ⟨f, ix, hf, hopen, sym_for_name_smallest_iff hprod hopen "f"⟩

end

end Scry2
