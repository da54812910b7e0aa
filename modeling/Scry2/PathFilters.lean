import Scry2.Archive
import Scry2.Names

/-!
# The plan of from-kzip

Which units of a kzip `cmd_from_kzip` of `main.rs` indexes: the path filters `--in` and `--not-in`,
the choice of the walker, the languages, and the filters once more. Empty filter strings are meant
to change nothing; an include list of empty strings only rejects every unit instead.
-/

open Scry2.Lib

namespace Scry2

/-! ## Languages -/

inductive IndexerKind where
  | Cxx
  | JavaSource
  | JvmBytecode
  | Go
  | Proto
  | TextProto
  deriving DecidableEq

def route_language (lang : String) : Option IndexerKind :=
  match lang with
  | "c++" => some .Cxx
  | "java" => some .JavaSource
  | "jvm" => some .JvmBytecode
  | "go" => some .Go
  | "protobuf" | "proto" => some .Proto
  | "textproto" => some .TextProto
  | _ => none

def lang_label : IndexerKind → String
  | .Cxx => "cxx"
  | .JavaSource => "java"
  | .JvmBytecode => "jvm"
  | .Go => "go"
  | .Proto => "proto"
  | .TextProto => "textproto"

/-- `v_name.language.to_ascii_lowercase()`. -/
def ArchiveUnit.language (u : ArchiveUnit) : String :=
  String.ofList (u.cu.unit.v_name.language.toList.map Char.toLower)

/-- `langs.split(',').map(|s| s.trim())`. -/
def wantedLangs (langs : String) : List String :=
  (langs.toList.splitOn ',').map fun s => String.ofList (trim (String.ofList s))

/-! ## The path filters -/

def accept_path (in_filters not_in_filters : List String) (p : String) : Bool :=
  if in_filters ≠ [] ∧ !in_filters.any (fun s => s ≠ "" && contains p s) then false
  else if not_in_filters.any (fun s => s ≠ "" && contains p s) then false
  else true

section
variable [Serde]

/-- Without filters everything is decoded, with filters the walker peeks. -/
def read_units (in_filters not_in_filters : List String) (zip : Archive) :
    Except ReadError (List ArchiveUnit) :=
  if in_filters = [] ∧ not_in_filters = [] then read_units_progress zip
  else read_units_filtered zip (accept_path in_filters not_in_filters)

end

/-- One turn of the plan's loop. -/
def planUnit (langs : String) (in_filters not_in_filters : List String) (u : ArchiveUnit) :
    Option (IndexerKind × ArchiveUnit) := do
  let kind ← route_language u.language
  if lang_label kind ∉ wantedLangs langs then none
  else if !accept_path in_filters not_in_filters u.path then none
  else some (kind, u)

def planUnits (langs : String) (in_filters not_in_filters : List String) (units : List ArchiveUnit) :
    List (IndexerKind × ArchiveUnit) :=
  units.filterMap (planUnit langs in_filters not_in_filters)

/-- The plan of `cmd_from_kzip`, before it is found empty or carried out. -/
def planKzip [Serde] (langs : String) (in_filters not_in_filters : List String) (zip : Archive) :
    Except ReadError (List (IndexerKind × ArchiveUnit)) := do
  let units ← read_units in_filters not_in_filters zip
  return planUnits langs in_filters not_in_filters units

/-! ## What the filters accept -/

section

variable {in_filters not_in_filters : List String}

theorem accept_path_iff (p : String) : accept_path in_filters not_in_filters p = true ↔
    (in_filters = [] ∨ ∃ s ∈ in_filters, s ≠ "" ∧ contains p s = true) ∧
      ∀ s ∈ not_in_filters, s ≠ "" → contains p s = false := by
  have hany : ∀ fs : List String, (fs.any fun s => s ≠ "" && contains p s) = true ↔
      ∃ s ∈ fs, s ≠ "" ∧ contains p s = true := by
    intro fs
    simp only [List.any_eq_true, Bool.and_eq_true, decide_eq_true_eq]
  have hnone : (∀ s ∈ not_in_filters, s ≠ "" → contains p s = false) ↔
      ¬ ∃ s ∈ not_in_filters, s ≠ "" ∧ contains p s = true := by
    simp only [not_exists, not_and, Bool.not_eq_true]
  rw [hnone, ← hany, ← hany]
  unfold accept_path
  generalize (in_filters.any fun s => s ≠ "" && contains p s) = inAny
  generalize (not_in_filters.any fun s => s ≠ "" && contains p s) = outAny
  by_cases hnil : in_filters = []
  · cases outAny <;> simp [hnil]
  · cases inAny <;> cases outAny <;> simp [hnil]

theorem accept_path_nil : accept_path [] [] = fun _ => true := by
  funext p
  exact (accept_path_iff p).mpr ⟨.inl rfl, by simp⟩

/-- The two walkers are one: what is read depends on the accepted paths only. -/
theorem read_units_eq [Serde] (zip : Archive) : read_units in_filters not_in_filters zip =
    read_units_filtered zip (accept_path in_filters not_in_filters) := by
  unfold read_units
  split_ifs with h
  · rw [h.1, h.2, accept_path_nil, read_units_progress_eq]
  · rfl

/-! ## Dropping the empty strings -/

/-- A list of filters without its empty strings. -/
def nonEmpty (fs : List String) : List String := fs.filter (· ≠ "")

/-- The include list is absent or has a string that is not empty. -/
def KeepsInclude (in_filters : List String) : Prop := in_filters = [] ∨ ∃ s ∈ in_filters, s ≠ ""

theorem mem_nonEmpty {fs : List String} {s : String} : s ∈ nonEmpty fs ↔ s ∈ fs ∧ s ≠ "" := by
  unfold nonEmpty
  rw [List.mem_filter, decide_eq_true_eq]

/-- Then the empty strings say nothing. -/
theorem accept_path_nonEmpty (h : KeepsInclude in_filters) :
    accept_path (nonEmpty in_filters) (nonEmpty not_in_filters) = accept_path in_filters not_in_filters := by
  have hnil : nonEmpty in_filters = [] ↔ in_filters = [] := by
    constructor
    · intro he
      rcases h with h | ⟨s, hs, hne⟩
      · exact h
      · have := mem_nonEmpty.mpr ⟨hs, hne⟩
        rw [he] at this
        cases this
    · intro he
      rw [he]
      rfl
  funext p
  rw [Bool.eq_iff_iff, accept_path_iff, accept_path_iff, hnil]
  simp only [mem_nonEmpty]
  constructor
  · rintro ⟨hin, hout⟩
    exact ⟨hin.imp_right fun ⟨s, ⟨hs, _⟩, hp⟩ => ⟨s, hs, hp⟩, fun s hs hne => hout s ⟨hs, hne⟩ hne⟩
  · rintro ⟨hin, hout⟩
    exact ⟨hin.imp_right fun ⟨s, hs, hp⟩ => ⟨s, ⟨hs, hp.1⟩, hp⟩, fun s hs hne => hout s hs.1 hne⟩

/-- Otherwise nothing is accepted. -/
theorem accept_path_of_not_keeps (h : ¬ KeepsInclude in_filters) (p : String) :
    accept_path in_filters not_in_filters p = false := by
  rw [Bool.eq_false_iff, Ne, accept_path_iff]
  rintro ⟨hnil | ⟨s, hs, hne, -⟩, -⟩
  · exact h (.inl hnil)
  · exact h (.inr ⟨s, hs, hne⟩)

/-- Once the empty strings are dropped there is no include list. -/
theorem accept_path_dropped (h : ¬ KeepsInclude in_filters) :
    accept_path (nonEmpty in_filters) (nonEmpty not_in_filters) = accept_path [] not_in_filters := by
  have hnil : nonEmpty in_filters = nonEmpty [] := by
    unfold nonEmpty
    rw [List.filter_nil, List.filter_eq_nil_iff]
    intro s hs
    by_contra hne
    exact h (.inr ⟨s, hs, by simpa using hne⟩)
  rw [hnil]
  exact accept_path_nonEmpty (.inl rfl)

end

/-! ## The plan -/

theorem mem_planUnits {langs : String} {in_filters not_in_filters : List String} {units : List ArchiveUnit}
    {x : IndexerKind × ArchiveUnit} : x ∈ planUnits langs in_filters not_in_filters units ↔
      x.2 ∈ units ∧ route_language x.2.language = some x.1 ∧ lang_label x.1 ∈ wantedLangs langs ∧
        accept_path in_filters not_in_filters x.2.path = true := by
  obtain ⟨kind, u⟩ := x
  unfold planUnits
  rw [List.mem_filterMap]
  constructor
  · rintro ⟨v, hv, hplan⟩
    unfold planUnit at hplan
    obtain ⟨k, hk, hplan⟩ := Option.bind_eq_some_iff.mp hplan
    split_ifs at hplan with h1 h2
    cases hplan
    exact ⟨hv, hk, h1, by simpa using h2⟩
  · rintro ⟨hu, hk, hl, ha⟩
    refine ⟨u, hu, ?_⟩
    unfold planUnit
    simp only at hk hl ha
    rw [hk]
    simp [hl, ha]

/-- What the plan holds, none of it when the kzip cannot be read. -/
def Planned [Serde] (langs : String) (in_filters not_in_filters : List String) (zip : Archive)
    (x : IndexerKind × ArchiveUnit) : Prop :=
  ∃ plan, planKzip langs in_filters not_in_filters zip = .ok plan ∧ x ∈ plan

theorem planned_iff [Serde] {langs : String} {in_filters not_in_filters : List String} {zip : Archive}
    {x : IndexerKind × ArchiveUnit} : Planned langs in_filters not_in_filters zip x ↔
      ∃ us, read_units_filtered zip (accept_path in_filters not_in_filters) = .ok us ∧
        x ∈ planUnits langs in_filters not_in_filters us := by
  unfold Planned planKzip
  rw [read_units_eq]
  cases read_units_filtered zip (accept_path in_filters not_in_filters) with
  | error e =>
    constructor
    · rintro ⟨plan, hplan, -⟩
      cases hplan
    · rintro ⟨us, hus, -⟩
      cases hus
  | ok us =>
    constructor
    · rintro ⟨plan, hplan, hx⟩
      cases hplan
      exact ⟨us, rfl, hx⟩
    · rintro ⟨us', hus, hx⟩
      cases hus
      exact ⟨_, rfl, hx⟩

theorem mem_planUnits_congr {langs : String} {ins nots ins' nots' : List String}
    (h : accept_path ins nots = accept_path ins' nots') {units : List ArchiveUnit}
    {x : IndexerKind × ArchiveUnit} : x ∈ planUnits langs ins nots units ↔ x ∈ planUnits langs ins' nots' units := by
  rw [mem_planUnits, mem_planUnits, h]

theorem planned_congr [Serde] {langs : String} {ins nots ins' nots' : List String}
    (h : accept_path ins nots = accept_path ins' nots') {zip : Archive} {x : IndexerKind × ArchiveUnit} :
    Planned langs ins nots zip x ↔ Planned langs ins' nots' zip x := by
  rw [planned_iff, planned_iff, h]
  simp only [mem_planUnits_congr h]

/-- Without the empty strings the plan is the same: read from a kzip on either path, and made from any
list of units. -/
structure EmptyFiltersNoOp [Serde] (langs : String) (in_filters not_in_filters : List String)
    (zip : Archive) (units : List ArchiveUnit) : Prop where
  read : ∀ x, Planned langs in_filters not_in_filters zip x ↔
    Planned langs (nonEmpty in_filters) (nonEmpty not_in_filters) zip x
  recheck : ∀ x, x ∈ planUnits langs in_filters not_in_filters units ↔
    x ∈ planUnits langs (nonEmpty in_filters) (nonEmpty not_in_filters) units

/-- A unit that would be indexed if there were no include list. -/
def Plannable (langs : String) (not_in_filters : List String) (u : ArchiveUnit) : Prop :=
  ∃ kind, route_language u.language = some kind ∧ lang_label kind ∈ wantedLangs langs ∧
    ∀ s ∈ not_in_filters, s ≠ "" → contains u.path s = false

section

variable {langs : String} {in_filters not_in_filters : List String}

theorem exists_mem_planUnits_iff {units : List ArchiveUnit} :
    (∃ x, x ∈ planUnits langs [] not_in_filters units) ↔ ∃ u ∈ units, Plannable langs not_in_filters u := by
  unfold Plannable
  simp only [mem_planUnits, accept_path_iff, true_or, true_and, Prod.exists]
  constructor
  · rintro ⟨kind, u, hu, hk, hl, ha⟩
    exact ⟨u, hu, kind, hk, hl, ha⟩
  · rintro ⟨u, hu, kind, hk, hl, ha⟩
    exact ⟨kind, u, hu, hk, hl, ha⟩

theorem exists_planned_iff [Serde] {zip : Archive} : (∃ x, Planned langs [] not_in_filters zip x) ↔
    ∃ us, read_units_filtered zip (accept_path [] not_in_filters) = .ok us ∧
      ∃ u ∈ us, Plannable langs not_in_filters u := by
  simp only [planned_iff, ← exists_mem_planUnits_iff]
  exact ⟨fun ⟨x, us, hus, hx⟩ => ⟨us, hus, x, hx⟩, fun ⟨us, hus, x, hx⟩ => ⟨x, us, hus, hx⟩⟩

theorem not_mem_planUnits (h : ¬ KeepsInclude in_filters) {units : List ArchiveUnit}
    (x : IndexerKind × ArchiveUnit) : x ∉ planUnits langs in_filters not_in_filters units := by
  intro hx
  have haccept := (mem_planUnits.mp hx).2.2.2
  rw [accept_path_of_not_keeps h] at haccept
  cases haccept

theorem recheck_iff (units : List ArchiveUnit) :
    (∀ x, x ∈ planUnits langs in_filters not_in_filters units ↔
      x ∈ planUnits langs (nonEmpty in_filters) (nonEmpty not_in_filters) units) ↔
    KeepsInclude in_filters ∨ ∀ u ∈ units, ¬ Plannable langs not_in_filters u := by
  by_cases hkeep : KeepsInclude in_filters
  · exact iff_of_true (fun x => mem_planUnits_congr (accept_path_nonEmpty hkeep).symm) (.inl hkeep)
  · simp only [not_mem_planUnits hkeep, mem_planUnits_congr (accept_path_dropped hkeep), false_iff, hkeep,
      false_or]
    rw [← not_exists, exists_mem_planUnits_iff]
    simp only [not_exists, not_and]

theorem read_iff [Serde] (zip : Archive) :
    (∀ x, Planned langs in_filters not_in_filters zip x ↔
      Planned langs (nonEmpty in_filters) (nonEmpty not_in_filters) zip x) ↔
    KeepsInclude in_filters ∨ ∀ us, read_units_filtered zip (accept_path [] not_in_filters) = .ok us →
      ∀ u ∈ us, ¬ Plannable langs not_in_filters u := by
  by_cases hkeep : KeepsInclude in_filters
  · exact iff_of_true (fun x => planned_congr (accept_path_nonEmpty hkeep).symm) (.inl hkeep)
  · have hnone : ∀ x, ¬ Planned langs in_filters not_in_filters zip x := by
      intro x hx
      obtain ⟨us, -, hmem⟩ := planned_iff.mp hx
      exact not_mem_planUnits hkeep x hmem
    simp only [hnone, planned_congr (accept_path_dropped hkeep), false_iff, hkeep, false_or]
    rw [← not_exists, exists_planned_iff]
    simp only [not_exists, not_and]

end

/-- Nothing would be planned without an include list either. -/
def NothingPlannable [Serde] (langs : String) (not_in_filters : List String) (zip : Archive)
    (units : List ArchiveUnit) : Prop :=
  (∀ us, read_units_filtered zip (accept_path [] not_in_filters) = .ok us →
    ∀ u ∈ us, ¬ Plannable langs not_in_filters u) ∧ ∀ u ∈ units, ¬ Plannable langs not_in_filters u

/-- Empty strings change nothing exactly when they are not all that `--in` has, or there is nothing to
plan. -/
theorem empty_filters_no_op_iff [Serde] (langs : String) (in_filters not_in_filters : List String)
    (zip : Archive) (units : List ArchiveUnit) :
    EmptyFiltersNoOp langs in_filters not_in_filters zip units ↔
      KeepsInclude in_filters ∨ NothingPlannable langs not_in_filters zip units := by
  unfold NothingPlannable
  rw [or_and_left, ← read_iff, ← recheck_iff]
  constructor
  · rintro ⟨hread, hrecheck⟩
    exact ⟨hread, hrecheck⟩
  · rintro ⟨hread, hrecheck⟩
    exact ⟨hread, hrecheck⟩

/-! ## An include list of one empty string -/

section

attribute [local instance] twinSerde

def cxxCompilation : IndexedCompilation := ⟨{ v_name := { language := "c++" }, source_file := ["x.cc"] }⟩

def cxxArchive : Archive := [⟨"root/pbunits/a", encode_indexed_compilation cxxCompilation⟩]

def cxxUnit : ArchiveUnit := ⟨"a", cxxCompilation, some (encode_indexed_compilation cxxCompilation)⟩

theorem read_cxxArchive : read_units_progress cxxArchive = .ok [cxxUnit] := by
  have hidx : pbunit_idx cxxArchive = [("a", encode_indexed_compilation cxxCompilation)] ∧
      json_idx cxxArchive = [] := by decide +kernel
  have hdecode : decodeProto ("a", encode_indexed_compilation cxxCompilation) = .ok cxxUnit := by
    rw [decodeProto, parse_encode (by decide +kernel)]
    rfl
  unfold read_units_progress
  rw [hidx.1, hidx.2, List.foldlM_cons, readProto, hdecode]
  rfl

/-- `--in ""` leaves nothing of a kzip whose one unit is planned without it. -/
theorem empty_include_rejects_all :
    Planned "cxx" [] [] cxxArchive (.Cxx, cxxUnit) ∧ planUnits "cxx" [] [] [cxxUnit] = [(.Cxx, cxxUnit)] ∧
      (∀ x, ¬ Planned "cxx" [""] [] cxxArchive x) ∧ planUnits "cxx" [""] [] [cxxUnit] = [] ∧
      ¬ EmptyFiltersNoOp "cxx" [""] [] cxxArchive [cxxUnit] := by
  have hroute : route_language cxxUnit.language = some .Cxx := by decide +kernel
  have hlabel : lang_label .Cxx ∈ wantedLangs "cxx" := by decide +kernel
  have hplan : planUnits "cxx" [] [] [cxxUnit] = [(.Cxx, cxxUnit)] := by
    simp [planUnits, planUnit, hroute, hlabel, accept_path_nil]
  have hread : Planned "cxx" [] [] cxxArchive (.Cxx, cxxUnit) := by
    rw [planned_iff, accept_path_nil, ← read_units_progress_eq]
    exact ⟨_, read_cxxArchive, by rw [hplan]; exact List.mem_cons_self⟩
  have hkeep : ¬ KeepsInclude [""] := by
    unfold KeepsInclude
    simp
  have hnone : ∀ x, ¬ Planned "cxx" [""] [] cxxArchive x := by
    intro x hx
    obtain ⟨us, -, hmem⟩ := planned_iff.mp hx
    exact not_mem_planUnits hkeep x hmem
  refine ⟨hread, hplan, hnone, ?_, fun h => ?_⟩
  · exact List.eq_nil_iff_forall_not_mem.mpr (not_mem_planUnits hkeep)
  · exact hnone _ ((h.read _).mpr hread)

end

end Scry2
