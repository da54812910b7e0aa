import Mathlib.Data.List.Dedup
import Scry2.Archive
import Scry2.Lib.Distinct

/-!
# Normalising a kzip

`normalize` of `kzip.rs` reads every unit and writes a fresh archive with protobuf units only, and
the file blobs that the units name.
-/

open Scry2.Lib

namespace Scry2

def ArchiveUnit.to_proto_bytes (u : ArchiveUnit) : Bytes :=
  match u.raw_proto with
  | some raw => raw
  | none => encode_indexed_compilation u.cu

/-- The digests that a unit names. -/
def ArchiveUnit.digests (u : ArchiveUnit) : List String :=
  (u.cu.unit.required_input.map (·.info.digest)).filter (· ≠ "")

/-- `ZipArchive::by_name`. -/
def by_name (zip : Archive) (name : String) : Option Bytes := (zip.find? (·.name = name)).map (·.data)

/-- The directory entries of the Kythe layout. -/
def directories : Archive := [⟨"root/", []⟩, ⟨"root/pbunits/", []⟩, ⟨"root/files/", []⟩]

def unitEntry (u : ArchiveUnit) : ZipEntry := ⟨"root/pbunits/" ++ u.sha, u.to_proto_bytes⟩

/-- The copy of a blob. One that is not in the source is left out. -/
def fileEntry (src : Archive) (digest : String) : Option ZipEntry :=
  (by_name src ("root/files/" ++ digest)).map fun data => ⟨"root/files/" ++ digest, data⟩

section

variable [SetOrder]

def write_normalized (src : Archive) (units : List ArchiveUnit) : Archive :=
  let needed_files := SetOrder.elems (units.flatMap ArchiveUnit.digests)
  directories ++ units.map unitEntry ++ needed_files.filterMap (fileEntry src)

/-- The archive that is written, the number of units and the number of digests. -/
def normalize [Serde] (src : Archive) : Except ReadError (Archive × Nat × Nat) := do
  let units ← read_units_progress src
  let files := SetOrder.elems (units.flatMap ArchiveUnit.digests)
  return (write_normalized src units, units.length, files.length)

end

/-! ## What a read gives -/

/-- The units of a read: distinct shas without slashes, and protobuf bytes that decode to the unit. -/
structure UnitsOk (units : List ArchiveUnit) : Prop where
  shas : (units.map (·.sha)).Nodup
  sha_ne : ∀ u ∈ units, u.sha ≠ "" ∧ '/' ∉ u.sha.toList
  raw : ∀ u ∈ units, ∀ raw, u.raw_proto = some raw → parse_indexed_compilation raw = .ok u.cu

theorem strip_prefix_spec {name pre sha : String} (h : strip_prefix name pre = some sha) :
    name = pre ++ sha ∧ sha ≠ "" ∧ '/' ∉ sha.toList := by
  simp only [ strip_prefix, Option.bind_eq_bind, Option.bind_eq_some_iff] at h
  obtain ⟨after, hdrop, h⟩ := h
  obtain ⟨p, hp, heq⟩ := List.dropPrefix?_eq_some_iff.mp hdrop
  split at h
  · cases h
  · rename_i hok
    cases h
    push Not at hok
    refine ⟨?_, ?_, by rw [String.toList_ofList]; exact hok.2⟩
    · rw [← String.toList_inj, String.toList_append, String.toList_ofList, hp, eq_of_beq heq]
    · intro hnil
      exact hok.1 (by rw [← String.toList_ofList (l := after), hnil]; rfl)

theorem strip_prefix_append {pre sha : String} (hne : sha ≠ "") (hslash : '/' ∉ sha.toList) :
    strip_prefix (pre ++ sha) pre = some sha := by
  have hdrop : (pre ++ sha).toList.dropPrefix? pre.toList = some sha.toList := by
    rw [String.toList_append]
    exact List.dropPrefix?_eq_some_iff.mpr ⟨pre.toList, rfl, beq_self_eq_true _⟩
  have hnil : sha.toList ≠ [] := by
    intro h
    exact hne (String.toList_inj.mp h)
  unfold strip_prefix
  rw [hdrop, Option.bind_eq_bind, Option.bind_some, if_neg (by push Not; exact ⟨hnil, hslash⟩), String.ofList_toList]

theorem readProto_loop {us : List (String × Bytes)} {s s' : ReadState} (h : us.foldlM readProto s = .ok s') :
    ∃ units, s' = ⟨s.proto_shas ++ us.map (·.1), s.out ++ units⟩ ∧
      List.Forall₂ (fun u unit => decodeProto u = .ok unit) us units := by
  induction us generalizing s with
  | nil =>
    cases h
    exact ⟨[], by simp, .nil⟩
  | cons u us ih =>
    rw [List.foldlM_cons] at h
    cases hu : decodeProto u with
    | error e =>
      rw [readProto, hu] at h
      cases h
    | ok unit =>
      rw [readProto, hu, read_ok_bind] at h
      obtain ⟨units, rfl, hunits⟩ := ih h
      exact ⟨unit :: units, by simp, .cons hu hunits⟩

theorem decodeProto_raw {u : String × Bytes} {unit : ArchiveUnit} (h : decodeProto u = .ok unit) :
    unit.raw_proto = some u.2 ∧ parse_indexed_compilation u.2 = .ok unit.cu := by
  unfold decodeProto at h
  split at h
  · rename_i cu hcu
    cases h
    exact ⟨rfl, hcu⟩
  · cases h

theorem json_sha_spec {zip : Archive} {u : String × Bytes} (hu : u ∈ json_idx zip) : u.1 ≠ "" ∧ '/' ∉ u.1.toList := by
  obtain ⟨e, -, he⟩ := List.mem_filterMap.mp hu
  split at he
  · cases he
  · obtain ⟨sha, hsha, rfl⟩ := Option.map_eq_some_iff.mp he
    exact ( strip_prefix_spec hsha).2

theorem pbunit_sha_spec {zip : Archive} {u : String × Bytes} (hu : u ∈ pbunit_idx zip) :
    u.1 ≠ "" ∧ '/' ∉ u.1.toList := by
  obtain ⟨e, -, he⟩ := List.mem_filterMap.mp hu
  obtain ⟨sha, hsha, rfl⟩ := Option.map_eq_some_iff.mp he
  exact ( strip_prefix_spec hsha).2

theorem json_shas_nodup {zip : Archive} (h : (zip.map (·.name)).Nodup) : ((json_idx zip).map (·.1)).Nodup := by
  have e : (json_idx zip).map (·.1) = (zip.map (·.name)).filterMap fun n =>
      if ( strip_prefix n "root/pbunits/").isSome then none else strip_prefix n "root/units/" := by
    rw [json_idx, List.map_filterMap, List.filterMap_map]
    congr 1
    funext e
    cases hp : strip_prefix e.name "root/pbunits/" <;> simp [hp, Function.comp_def]
  rw [e]
  refine h.filterMap fun m n sha hm hn => ?_
  split at hm
  · cases hm
  · split at hn
    · cases hn
    · exact strip_prefix_inj hm hn

section

variable [Serde]

theorem readJson_loop {us : List (String × Bytes)} {s s' : ReadState} (h : us.foldlM readJson s = .ok s') :
    ∃ units, s' = { s with out := s.out ++ units } ∧ (units.map (·.sha)).Sublist (us.map (·.1)) ∧
      ∀ unit ∈ units, unit.sha ∉ s.proto_shas ∧ unit.raw_proto = none := by
  induction us generalizing s with
  | nil =>
    cases h
    exact ⟨[], by simp, .slnil, fun _ hu => absurd hu List.not_mem_nil⟩
  | cons u us ih =>
    rw [List.foldlM_cons, readJson] at h
    by_cases hs : u.1 ∈ s.proto_shas
    · rw [if_pos hs, read_ok_bind] at h
      obtain ⟨units, rfl, hsub, hunits⟩ := ih h
      exact ⟨units, rfl, hsub.cons _, hunits⟩
    · rw [if_neg hs] at h
      cases hu : decodeJson u with
      | error e =>
        rw [hu] at h
        cases h
      | ok unit =>
        rw [hu, read_ok_bind] at h
        obtain ⟨units, rfl, hsub, hunits⟩ := ih h
        obtain ⟨hsha, hraw, -⟩ := decodeJson_eq_ok hu
        refine ⟨unit :: units, by simp, ?_, List.forall_mem_cons.mpr ⟨⟨hsha ▸ hs, hraw⟩, hunits⟩⟩
        rw [List.map_cons, List.map_cons, hsha]
        exact hsub.cons_cons _

theorem read_units_ok {zip : Archive} (hnames : (zip.map (·.name)).Nodup) {units : List ArchiveUnit}
    (h : read_units_progress zip = .ok units) : UnitsOk units := by
  unfold read_units_progress at h
  cases hp : (pbunit_idx zip).foldlM readProto {} with
  | error e =>
    rw [hp] at h
    cases h
  | ok s =>
    rw [hp, read_ok_bind] at h
    obtain ⟨ps, rfl, hps⟩ := readProto_loop hp
    cases hj : (json_idx zip).foldlM readJson ⟨[] ++ (pbunit_idx zip).map (·.1), [] ++ ps⟩ with
    | error e =>
      rw [hj] at h
      cases h
    | ok s =>
      rw [hj, read_ok_bind] at h
      obtain ⟨js, rfl, hsub, hjs⟩ := readJson_loop hj
      cases h
      simp only [List.nil_append] at hjs ⊢
      have hpshas := decoded_shas hps
      refine ⟨?_, fun u hu => ?_, fun u hu raw hraw => ?_⟩
      · rw [List.map_append, List.nodup_append, hpshas]
        refine ⟨pbunit_shas_nodup hnames, (json_shas_nodup hnames).sublist hsub, ?_⟩
        rintro a ha b hb rfl
        obtain ⟨u, hu, rfl⟩ := List.mem_map.mp hb
        exact (hjs u hu).1 ha
      · rcases List.mem_append.mp hu with hu | hu
        · obtain ⟨e, hmem, he⟩ := (mem_decoded hps u).mp hu
          rw [decodeProto_sha he]
          exact pbunit_sha_spec hmem
        · obtain ⟨e, hmem, he⟩ := List.mem_map.mp (hsub.subset (List.mem_map_of_mem hu))
          rw [← he]
          exact json_sha_spec hmem
      · rcases List.mem_append.mp hu with hu | hu
        · obtain ⟨e, -, he⟩ := (mem_decoded hps u).mp hu
          obtain ⟨hraw', hparse⟩ := decodeProto_raw he
          cases hraw.symm.trans hraw'
          exact hparse
        · rw [(hjs u hu).2] at hraw
          cases hraw

end

/-! ## Reading what was written -/

/-- The unit that a reader of the output finds. -/
def ArchiveUnit.rewritten (u : ArchiveUnit) : ArchiveUnit := ⟨u.sha, u.cu, some u.to_proto_bytes⟩

theorem UnitsOk.decodes {units : List ArchiveUnit} (h : UnitsOk units)
    (hfit : ∀ u ∈ units, u.raw_proto = none → (encode_indexed_compilation u.cu).length ≤ isizeMax)
    {u : ArchiveUnit} (hu : u ∈ units) : parse_indexed_compilation u.to_proto_bytes = .ok u.cu := by
  unfold ArchiveUnit.to_proto_bytes
  split
  · rename_i raw hraw
    exact h.raw u hu raw hraw
  · rename_i hraw
    exact parse_encode (lt_of_le_of_lt (hfit u hu hraw) (by decide))

theorem UnitsOk.rewritten {units : List ArchiveUnit} (h : UnitsOk units)
    (hdec : ∀ u ∈ units, parse_indexed_compilation u.to_proto_bytes = .ok u.cu) :
    UnitsOk (units.map ArchiveUnit.rewritten) := by
  refine ⟨?_, ?_, ?_⟩
  · rw [List.map_map]
    exact h.shas
  · rw [List.forall_mem_map]
    exact h.sha_ne
  · rw [List.forall_mem_map]
    rintro u hu raw hraw
    cases hraw
    exact hdec u hu

theorem strip_prefix_other {a pre : String} (ha : 6 ≤ a.toList.length) (hpre : 6 ≤ pre.toList.length)
    (hne : a.toList.take 6 ≠ pre.toList.take 6) (d : String) : strip_prefix (a ++ d) pre = none := by
  rw [Option.eq_none_iff_forall_not_mem]
  intro sha hsha
  have heq := congrArg (·.toList.take 6) ( strip_prefix_spec hsha).1
  simp only [String.toList_append, List.take_append_of_le_length ha, List.take_append_of_le_length hpre] at heq
  exact hne heq

theorem fileEntry_eq_some {src : Archive} {d : String} {e : ZipEntry} (h : fileEntry src d = some e) :
    e.name = "root/files/" ++ d := by
  obtain ⟨data, -, rfl⟩ := Option.map_eq_some_iff.mp h
  rfl

theorem readProto_units {us : List (String × Bytes)} {units : List ArchiveUnit}
    (h : List.Forall₂ (fun u unit => decodeProto u = .ok unit) us units) (s : ReadState) :
    us.foldlM readProto s = .ok ⟨s.proto_shas ++ us.map (·.1), s.out ++ units⟩ := by
  induction h generalizing s with
  | nil =>
    rw [List.foldlM_nil, List.map_nil, List.append_nil, List.append_nil]
    rfl
  | cons hu _ ih =>
    rw [List.foldlM_cons, readProto, hu, read_ok_bind]
    exact (ih _).trans (by simp)

theorem pbunit_idx_append (xs ys : Archive) : pbunit_idx (xs ++ ys) = pbunit_idx xs ++ pbunit_idx ys :=
  List.filterMap_append

theorem pbunit_idx_directories : pbunit_idx directories = [] := by decide

theorem pbunit_idx_files (src : Archive) (ds : List String) : pbunit_idx (ds.filterMap (fileEntry src)) = [] := by
  rw [pbunit_idx, List.filterMap_eq_nil_iff]
  intro e he
  obtain ⟨d, -, hd⟩ := List.mem_filterMap.mp he
  rw [fileEntry_eq_some hd, strip_prefix_other (by decide) (by decide) (by decide), Option.map_none]

theorem find_fileEntry (src : Archive) (ds : List String) (d : String) :
    (ds.filterMap (fileEntry src)).find? (·.name = "root/files/" ++ d) =
      if d ∈ ds then fileEntry src d else none := by
  induction ds with
  | nil => rfl
  | cons d' ds ih =>
    by_cases hd : d' = d
    · subst hd
      rw [if_pos List.mem_cons_self]
      cases hf : fileEntry src d' with
      | none =>
        rw [List.filterMap_cons_none hf, ih, hf, ite_self]
      | some e =>
        rw [List.filterMap_cons_some hf, List.find?_cons_of_pos]
        simpa using fileEntry_eq_some hf
    · have hmem : d ∈ d' :: ds ↔ d ∈ ds := by
        simp [Ne.symm hd]
      simp only [hmem]
      rw [← ih]
      cases hf : fileEntry src d' with
      | none => rw [List.filterMap_cons_none hf]
      | some e =>
        rw [List.filterMap_cons_some hf, List.find?_cons_of_neg]
        simpa [fileEntry_eq_some hf] using hd

theorem digest_ne {u : ArchiveUnit} {d : String} (hd : d ∈ u.digests) : d ≠ "" :=
  of_decide_eq_true (List.mem_filter.mp hd).2

theorem append_inj {pre d e : String} (h : pre ++ d = pre ++ e) : d = e := by
  rw [← String.toList_inj, String.toList_append, String.toList_append] at h
  exact String.toList_inj.mp (List.append_cancel_left h)

theorem append_eq_self {pre d : String} (h : pre ++ d = pre) : d = "" :=
  append_inj (h.trans String.append_empty.symm)

/-- The kinds of entries have names that differ within six letters. -/
theorem unit_ne_file (sha d : String) : "root/pbunits/" ++ sha ≠ "root/files/" ++ d := by
  intro heq
  have h6 : ("root/pbunits/" ++ sha).toList.take 6 = ("root/files/" ++ d).toList.take 6 := by rw [heq]
  rw [String.toList_append, String.toList_append, List.take_append_of_le_length (by decide),
    List.take_append_of_le_length (by decide)] at h6
  exact absurd h6 (by decide)

theorem root_ne {pre : String} (hlen : 5 < pre.toList.length) (d : String) : "root/" ≠ pre ++ d := by
  intro heq
  have h5 : "root/".toList.length = 5 := by decide
  rw [heq, String.toList_append, List.length_append] at h5
  omega

theorem dir_ne_unit {e : ZipEntry} (he : e ∈ directories) {sha : String} (hsha : sha ≠ "") :
    e.name ≠ "root/pbunits/" ++ sha := by
  simp only [directories, List.mem_cons, List.not_mem_nil, or_false] at he
  obtain rfl | rfl | rfl := he
  · exact root_ne (by decide) sha
  · exact fun heq => hsha (append_eq_self heq.symm)
  · exact fun heq => unit_ne_file sha "" (heq.symm.trans (String.append_empty).symm)

theorem dir_ne_file {e : ZipEntry} (he : e ∈ directories) {d : String} (hd : d ≠ "") :
    e.name ≠ "root/files/" ++ d := by
  simp only [directories, List.mem_cons, List.not_mem_nil, or_false] at he
  obtain rfl | rfl | rfl := he
  · exact root_ne (by decide) d
  · exact fun heq => unit_ne_file "" d ((String.append_empty).trans heq)
  · exact fun heq => hd (append_eq_self heq.symm)

section

variable [SetOrder] {src : Archive} {units : List ArchiveUnit}

theorem mem_write_normalized {e : ZipEntry} (he : e ∈ write_normalized src units) :
    e ∈ directories ∨ (∃ u ∈ units, unitEntry u = e) ∨ ∃ d, e.name = "root/files/" ++ d := by
  rcases List.mem_append.mp he with he | he
  · rcases List.mem_append.mp he with he | he
    · exact .inl he
    · exact .inr (.inl (List.mem_map.mp he))
  · obtain ⟨d, -, hd⟩ := List.mem_filterMap.mp he
    exact .inr (.inr ⟨d, fileEntry_eq_some hd⟩)

theorem pbunit_idx_written (h : UnitsOk units) :
    pbunit_idx (write_normalized src units) = units.map fun u => (u.sha, u.to_proto_bytes) := by
  have hunits : pbunit_idx (units.map unitEntry) = units.map fun u => (u.sha, u.to_proto_bytes) := by
    rw [pbunit_idx, List.filterMap_map, ← List.filterMap_eq_map]
    refine List.filterMap_congr fun u hu => ?_
    have hsha := h.sha_ne u hu
    simp [unitEntry, strip_prefix_append hsha.1 hsha.2]
  rw [write_normalized, pbunit_idx_append, pbunit_idx_append, pbunit_idx_directories, hunits, pbunit_idx_files,
    List.nil_append, List.append_nil]

theorem json_idx_written (h : UnitsOk units) : json_idx (write_normalized src units) = [] := by
  rw [json_idx, List.filterMap_eq_nil_iff]
  intro e he
  obtain he | ⟨u, hu, rfl⟩ | ⟨d, hd⟩ := mem_write_normalized he
  · have hdirs : json_idx directories = [] := by decide
    exact List.filterMap_eq_nil_iff.mp hdirs e he
  · have hsha := h.sha_ne u hu
    simp only [unitEntry, strip_prefix_append hsha.1 hsha.2]
  · rw [hd, strip_prefix_other (by decide) (by decide) (by decide)]
    simp only
    rw [ strip_prefix_other (by decide) (by decide) (by decide), Option.map_none]

theorem read_written [Serde] (h : UnitsOk units)
    (hdec : ∀ u ∈ units, parse_indexed_compilation u.to_proto_bytes = .ok u.cu) :
    read_units_progress (write_normalized src units) = .ok (units.map ArchiveUnit.rewritten) := by
  have hps : List.Forall₂ (fun u unit => decodeProto u = .ok unit) (units.map fun u => (u.sha, u.to_proto_bytes))
      (units.map ArchiveUnit.rewritten) := by
    rw [List.forall₂_map_left_iff, List.forall₂_map_right_iff, List.forall₂_same]
    intro u hu
    simp only [decodeProto, hdec u hu]
    rfl
  rw [read_units_progress, pbunit_idx_written h, json_idx_written h, readProto_units hps, read_ok_bind]
  rfl

/-! ## Names and blobs of the output -/

theorem needed_ne {d : String} (hd : d ∈ SetOrder.elems (units.flatMap ArchiveUnit.digests)) : d ≠ "" := by
  obtain ⟨u, -, hu⟩ := List.mem_flatMap.mp ((SetOrder.mem _ d).mp hd)
  exact digest_ne hu

theorem names_written_nodup (h : UnitsOk units) : ((write_normalized src units).map (·.name)).Nodup := by
  have hunits : (units.map unitEntry).map (·.name) = (units.map (·.sha)).map ("root/pbunits/" ++ ·) := by
    rw [List.map_map, List.map_map]
    rfl
  rw [write_normalized, List.map_append, List.map_append, List.nodup_append, List.nodup_append, hunits]
  refine ⟨⟨by decide, h.shas.map fun a b => append_inj, ?_⟩, ?_, ?_⟩
  · rintro a ha b hb rfl
    obtain ⟨e, he, rfl⟩ := List.mem_map.mp ha
    obtain ⟨sha, hsha, hb⟩ := List.mem_map.mp hb
    obtain ⟨u, hu, rfl⟩ := List.mem_map.mp hsha
    exact dir_ne_unit he (h.sha_ne u hu).1 hb.symm
  · rw [List.map_filterMap]
    refine (SetOrder.nodup _).filterMap fun d e n hd he => ?_
    obtain ⟨x, hx, rfl⟩ := Option.map_eq_some_iff.mp hd
    obtain ⟨y, hy, hn⟩ := Option.map_eq_some_iff.mp he
    rw [fileEntry_eq_some hx, fileEntry_eq_some hy] at hn
    exact append_inj hn.symm
  · rintro a ha b hb rfl
    obtain ⟨e, he, hb⟩ := List.mem_map.mp hb
    obtain ⟨d, hd, hf⟩ := List.mem_filterMap.mp he
    rw [fileEntry_eq_some hf] at hb
    rcases List.mem_append.mp ha with ha | ha
    · obtain ⟨e', he', rfl⟩ := List.mem_map.mp ha
      exact dir_ne_file he' (needed_ne hd) hb.symm
    · obtain ⟨sha, -, hsha⟩ := List.mem_map.mp ha
      exact unit_ne_file sha d (hsha.trans hb.symm)

theorem by_name_written {u : ArchiveUnit} (hu : u ∈ units) {d : String} (hd : d ∈ u.digests) :
    by_name (write_normalized src units) ("root/files/" ++ d) = by_name src ("root/files/" ++ d) := by
  have hmem : d ∈ SetOrder.elems (units.flatMap ArchiveUnit.digests) :=
    (SetOrder.mem _ d).mpr (List.mem_flatMap.mpr ⟨u, hu, hd⟩)
  have hdirs : directories.find? (·.name = "root/files/" ++ d) = none := by
    rw [List.find?_eq_none]
    intro e he
    rw [decide_eq_true_eq]
    exact dir_ne_file he (digest_ne hd)
  have hunits : (units.map unitEntry).find? (·.name = "root/files/" ++ d) = none := by
    rw [List.find?_eq_none]
    intro e he
    obtain ⟨u, -, rfl⟩ := List.mem_map.mp he
    rw [decide_eq_true_eq]
    exact unit_ne_file u.sha d
  rw [by_name, write_normalized, List.find?_append, List.find?_append, hdirs, hunits, find_fileEntry, if_pos hmem,
    Option.none_or, Option.none_or, fileEntry, Option.map_map]
  exact congrFun Option.map_id _

end

/-! ## Normalising keeps the units and their blobs -/

/-- The two archives have the same units, and the same blobs of these units. -/
structure SameMeaning [Serde] (k out : Archive) (units : List ArchiveUnit) : Prop where
  names : (out.map (·.name)).Nodup
  read : ∃ us, read_units_progress out = .ok us ∧ us.map (fun u => (u.sha, u.cu)) = units.map fun u => (u.sha, u.cu)
  blobs : ∀ u ∈ units, ∀ d ∈ u.digests, by_name out ("root/files/" ++ d) = by_name k ("root/files/" ++ d)

section

variable [Serde] [SetOrder]

theorem normalize_of_read {k : Archive} {units : List ArchiveUnit} (h : read_units_progress k = .ok units) :
    normalize k = .ok (write_normalized k units, units.length,
      (SetOrder.elems (units.flatMap ArchiveUnit.digests)).length) := by
  rw [normalize, h, read_ok_bind]
  rfl

theorem same_meaning_written {k : Archive} {units : List ArchiveUnit} (h : UnitsOk units)
    (hdec : ∀ u ∈ units, parse_indexed_compilation u.to_proto_bytes = .ok u.cu) :
    SameMeaning k (write_normalized k units) units where
  names := names_written_nodup h
  read := ⟨_, read_written h hdec, List.map_map.trans rfl⟩
  blobs := fun _ hu _ hd => by_name_written hu hd

/-- A kzip with distinct names that can be read is normalised to one with the same units and blobs, and
so is the result. A unit that is encoded anew fits in a vector. -/
theorem normalize_keeps_meaning (k : Archive) (hnames : (k.map (·.name)).Nodup) (units : List ArchiveUnit)
    (hread : read_units_progress k = .ok units)
    (hfit : ∀ u ∈ units, u.raw_proto = none → (encode_indexed_compilation u.cu).length ≤ isizeMax) :
    ∃ out n, normalize k = .ok (out, n) ∧ SameMeaning k out units ∧
      ∃ again m, normalize out = .ok (again, m) ∧ SameMeaning out again units ∧ SameMeaning k again units := by
  have hok := read_units_ok hnames hread
  have hdec : ∀ u ∈ units, parse_indexed_compilation u.to_proto_bytes = .ok u.cu := fun u hu => hok.decodes hfit hu
  have hok' := hok.rewritten hdec
  have hdec' : ∀ u ∈ units.map ArchiveUnit.rewritten, parse_indexed_compilation u.to_proto_bytes = .ok u.cu := by
    rw [List.forall_mem_map]
    exact hdec
  have hfirst := same_meaning_written (k := k) hok hdec
  have hsecond : SameMeaning (write_normalized k units)
      (write_normalized (write_normalized k units) (units.map ArchiveUnit.rewritten)) units := by
    refine ⟨names_written_nodup hok', ⟨_, read_written hok' hdec', by simp [ArchiveUnit.rewritten]⟩, ?_⟩
    intro u hu d hd
    exact by_name_written (List.mem_map_of_mem hu) hd
  refine ⟨_, _, normalize_of_read hread, hfirst, _, _, normalize_of_read (read_written hok hdec), hsecond, ?_⟩
  exact ⟨hsecond.names, hsecond.read, fun u hu d hd => (hsecond.blobs u hu d hd).trans (hfirst.blobs u hu d hd)⟩

end

/-! A protobuf unit and a JSON unit that share a blob. -/

namespace Mixed

def protoUnit : IndexedCompilation := ⟨{ required_input := [{ info := { digest := "d" } }], argument := ["-c"] }⟩

def jsonUnit : IndexedCompilation := ⟨{ required_input := [{ info := { digest := "d" } }], argument := ["-v"] }⟩

def jsonText : String :=
  "\x7b\"unit\":\x7b\"required_input\":[\x7b\"info\":\x7b\"digest\":\"d\"\x7d\x7d],\"argument\":[\"-v\"]\x7d\x7d"

/-- A decoder that is right about the one JSON text here. -/
@[reducible] def serde : Serde := ⟨fun s => if s = jsonText then .ok jsonUnit else .error "expected value"⟩

def kzip : Archive :=
  [⟨"root/pbunits/p", encode_indexed_compilation protoUnit⟩, ⟨"root/units/j", as_bytes jsonText⟩,
   ⟨"root/files/d", [1, 2]⟩]

def units : List ArchiveUnit :=
  [⟨"p", protoUnit, some (encode_indexed_compilation protoUnit)⟩, ⟨"j", jsonUnit, none⟩]

end Mixed

section

open Mixed

attribute [local instance] Mixed.serde dedupOrder

theorem normalize_keeps_meaning_mixed : (Mixed.kzip.map (·.name)).Nodup ∧
    read_units_progress Mixed.kzip = .ok Mixed.units ∧
      ∃ out n, normalize Mixed.kzip = .ok (out, n) ∧ SameMeaning Mixed.kzip out Mixed.units ∧
        ∃ again m, normalize out = .ok (again, m) ∧ SameMeaning out again Mixed.units ∧
          SameMeaning Mixed.kzip again Mixed.units := by
  have hnames : (Mixed.kzip.map (·.name)).Nodup := by decide
  have hp : pbunit_idx Mixed.kzip = [("p", encode_indexed_compilation protoUnit)] := by decide +kernel
  have hj : json_idx Mixed.kzip = [("j", as_bytes jsonText)] := by decide +kernel
  have hpd : decodeProto ("p", encode_indexed_compilation protoUnit) =
      .ok ⟨"p", protoUnit, some (encode_indexed_compilation protoUnit)⟩ := by
    rw [decodeProto, parse_encode (by decide +kernel)]
  have hjd : decodeJson ("j", as_bytes jsonText) = .ok ⟨"j", jsonUnit, none⟩ := by
    have hs : Serde.from_str jsonText = .ok jsonUnit := if_pos rfl
    rw [decodeJson, readText, from_utf8_as_bytes, read_ok_bind, hs]
  have hread : read_units_progress Mixed.kzip = .ok Mixed.units := by
    simp only [read_units_progress, hp, hj, List.foldlM_cons, List.foldlM_nil, readProto, readJson, hpd, hjd,
      read_ok_bind]
    rfl
  have hfit : ∀ u ∈ Mixed.units, u.raw_proto = none → (encode_indexed_compilation u.cu).length ≤ isizeMax := by
    decide +kernel
  exact ⟨hnames, hread, normalize_keeps_meaning Mixed.kzip hnames Mixed.units hread hfit⟩

end

end Scry2
