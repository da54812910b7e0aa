import Scry2.Lib.Pairs
import Scry2.Peek
import Scry2.JsonPeek

/-!
# Reading the units of a kzip

The two walkers of `kzip.rs`. Both read the protobuf units first and then the JSON units; one
decodes everything, the other skips what a path filter rejects.
-/

open Scry2.Lib

namespace Scry2

structure ZipEntry where
  name : String
  data : Bytes

/-- The entries in the order of the central directory. -/
abbrev Archive := List ZipEntry

/-- `Unit` of `kzip.rs`. -/
structure ArchiveUnit where
  sha : String
  cu : IndexedCompilation
  raw_proto : Option Bytes

inductive ReadError where
  | proto (sha : String) (e : DecodeError)
  | json (sha : String) (e : String)
  /-- `read_to_string` of an entry that is not UTF-8. -/
  | notUtf8

/-- `serde_json::from_str`. -/
class Serde where
  from_str : String → Except String IndexedCompilation

/-! ## The entries that are units -/

def strip_prefix (name pre : String) : Option String := do
  let after ← name.toList.dropPrefix? pre.toList
  if after = [] ∨ '/' ∈ after then none else some (String.ofList after)

/-- The sha and the bytes of each protobuf unit. -/
def pbunit_idx (zip : Archive) : List (String × Bytes) :=
  zip.filterMap fun e => ( strip_prefix e.name "root/pbunits/").map (·, e.data)

def json_idx (zip : Archive) : List (String × Bytes) :=
  zip.filterMap fun e =>
    match strip_prefix e.name "root/pbunits/" with
    | some _ => none
    | none => ( strip_prefix e.name "root/units/").map (·, e.data)

/-! ## Decoding -/

def decodeProto (u : String × Bytes) : Except ReadError ArchiveUnit :=
  match parse_indexed_compilation u.2 with
  | .ok cu => .ok ⟨u.1, cu, some u.2⟩
  | .error e => .error (.proto u.1 e)

def readText (u : String × Bytes) : Except ReadError String :=
  match from_utf8 u.2 with
  | some text => .ok text
  | none => .error .notUtf8

/-- `cu_primary_path(&cu.unit).unwrap_or("")`. -/
def ArchiveUnit.path (u : ArchiveUnit) : String := (cu_primary_path u.cu.unit).getD ""

section
variable [Serde]

def decodeJson (u : String × Bytes) : Except ReadError ArchiveUnit := do
  let text ← readText u
  match Serde.from_str text with
  | .ok cu => .ok ⟨u.1, cu, none⟩
  | .error e => .error (.json u.1 e)

end

/-! ## The walkers -/

structure ReadState where
  proto_shas : List String := []
  out : List ArchiveUnit := []

def readProto (s : ReadState) (u : String × Bytes) : Except ReadError ReadState := do
  let unit ← decodeProto u
  return { proto_shas := s.proto_shas ++ [u.1], out := s.out ++ [unit] }

def filterProto (accept : String → Bool) (s : ReadState) (u : String × Bytes) :
    Except ReadError ReadState :=
  if (peek_proto_primary_path u.2).any (!accept ·) then .ok s
  else do
    let unit ← decodeProto u
    if !accept unit.path then return s
    return { proto_shas := s.proto_shas ++ [u.1], out := s.out ++ [unit] }

section
variable [Serde]

def readJson (s : ReadState) (u : String × Bytes) : Except ReadError ReadState :=
  if u.1 ∈ s.proto_shas then .ok s
  else do
    let unit ← decodeJson u
    return { s with out := s.out ++ [unit] }

def read_units_progress (zip : Archive) : Except ReadError (List ArchiveUnit) := do
  let s ← (pbunit_idx zip).foldlM readProto {}
  let s ← (json_idx zip).foldlM readJson s
  return s.out

def filterJson (accept : String → Bool) (s : ReadState) (u : String × Bytes) :
    Except ReadError ReadState :=
  if u.1 ∈ s.proto_shas then .ok s
  else do
    let _ ← readText u
    if (peek_json_primary_path u.2).any (!accept ·) then return s
    let unit ← decodeJson u
    if !accept unit.path then return s
    return { s with out := s.out ++ [unit] }

def read_units_filtered (zip : Archive) (accept : String → Bool) :
    Except ReadError (List ArchiveUnit) := do
  let s ← (pbunit_idx zip).foldlM (filterProto accept) {}
  let s ← (json_idx zip).foldlM (filterJson accept) s
  return s.out

end

/-! ## What the walkers return when every unit decodes -/

theorem read_ok_bind {α β : Type} (a : α) (f : α → Except ReadError β) :
    (Except.ok a : Except ReadError α) >>= f = f a := rfl

/-- An answer of a peek is the path of the decoded unit. -/
def PeekFits (peek : Bytes → Option String) (decode : String × Bytes → Except ReadError ArchiveUnit)
    (us : List (String × Bytes)) : Prop :=
  ∀ u ∈ us, ∀ p unit, peek u.2 = some p → decode u = .ok unit → p = unit.path

theorem peek_accepts {peek : Bytes → Option String}
    {decode : String × Bytes → Except ReadError ArchiveUnit} {us : List (String × Bytes)}
    (h : PeekFits peek decode us) {u : String × Bytes} (hu : u ∈ us) {unit : ArchiveUnit}
    (hd : decode u = .ok unit) {accept : String → Bool} (ha : accept unit.path = true) :
    (peek u.2).any (!accept ·) = false := by
  cases hp : peek u.2 with
  | none => rfl
  | some p => simp [h u hu p unit hp hd, ha]

theorem decodeProto_sha {u : String × Bytes} {unit : ArchiveUnit} (h : decodeProto u = .ok unit) :
    unit.sha = u.1 := by
  unfold decodeProto at h
  split at h <;> cases h
  rfl

section Loops
variable {accept : String → Bool} {us : List (String × Bytes)} {units : List ArchiveUnit}

theorem filterProto_loop (hd : List.Forall₂ (fun u unit => decodeProto u = .ok unit) us units)
    (hp : PeekFits peek_proto_primary_path decodeProto us) (s : ReadState) :
    us.foldlM (filterProto accept) s =
      .ok ⟨s.proto_shas ++ (units.filter (accept ·.path)).map (·.sha),
        s.out ++ units.filter (accept ·.path)⟩ := by
  induction hd generalizing s with
  | nil => simp; rfl
  | @cons u unit us units hu _ ih =>
    have hp' : PeekFits peek_proto_primary_path decodeProto us :=
      fun v hv => hp v (List.mem_cons_of_mem _ hv)
    rw [List.foldlM_cons]
    cases ha : accept unit.path with
    | true =>
      have hpeek := peek_accepts hp List.mem_cons_self hu ha
      have hstep : filterProto accept s u = .ok ⟨s.proto_shas ++ [u.1], s.out ++ [unit]⟩ := by
        simp only [filterProto, hpeek, hu, read_ok_bind, ha]
        rfl
      rw [hstep, read_ok_bind, ih hp']
      simp [ha, decodeProto_sha hu]
    | false =>
      have hstep : filterProto accept s u = .ok s := by
        unfold filterProto
        split
        · rfl
        · simp only [hu, read_ok_bind, ha]
          rfl
      rw [hstep, read_ok_bind, ih hp']
      simp [ha]

end Loops

theorem mem_decoded {decode : String × Bytes → Except ReadError ArchiveUnit} {us : List (String × Bytes)}
    {units : List ArchiveUnit} (h : List.Forall₂ (fun u unit => decode u = .ok unit) us units)
    (unit : ArchiveUnit) : unit ∈ units ↔ ∃ u ∈ us, decode u = .ok unit := by
  induction h with
  | nil => simp
  | cons hu _ ih => simp [ih, hu, eq_comm]

theorem decoded_shas {us : List (String × Bytes)} {units : List ArchiveUnit}
    (h : List.Forall₂ (fun u unit => decodeProto u = .ok unit) us units) :
    units.map (·.sha) = us.map (·.1) := by
  induction h with
  | nil => rfl
  | cons hu _ ih => rw [List.map_cons, List.map_cons, decodeProto_sha hu, ih]

/-! ## Shas name the entries -/

theorem strip_prefix_inj {m n pre sha : String} (hm : strip_prefix m pre = some sha)
    (hn : strip_prefix n pre = some sha) : m = n := by
  have key : ∀ {x : String}, strip_prefix x pre = some sha → x.toList = pre.toList ++ sha.toList := by
    intro x hx
    simp only [ strip_prefix, Option.bind_eq_bind, Option.bind_eq_some_iff] at hx
    obtain ⟨after, hdrop, hx⟩ := hx
    obtain ⟨p, hp, heq⟩ := List.dropPrefix?_eq_some_iff.mp hdrop
    split at hx
    · cases hx
    · cases hx
      rw [hp, String.toList_ofList, eq_of_beq heq]
  exact String.toList_inj.mp ((key hm).trans (key hn).symm)

theorem pbunit_shas_nodup {zip : Archive} (h : (zip.map (·.name)).Nodup) :
    ((pbunit_idx zip).map (·.1)).Nodup := by
  have e : (pbunit_idx zip).map (·.1) =
      (zip.map (·.name)).filterMap fun n => strip_prefix n "root/pbunits/" := by
    rw [pbunit_idx, List.map_filterMap, List.filterMap_map]
    congr 1
    funext e
    simp [Function.comp_def]
  rw [e]
  exact h.filterMap fun m n sha hm hn => strip_prefix_inj hm hn

theorem filter_agrees_iff_twins {ps js : List ArchiveUnit} (hnodup : (ps.map (·.sha)).Nodup)
    (A : ArchiveUnit → Bool) :
    ps.filter A ++ js.filter (fun u => u.sha ∉ (ps.filter A).map (·.sha) ∧ A u) =
        (ps ++ js.filter fun u => u.sha ∉ ps.map (·.sha)).filter A ↔
      ∀ c ∈ ps, ∀ d ∈ js, c.sha = d.sha → A d = true → A c = true := by
  rw [List.filter_append, List.append_cancel_left_eq, List.filter_filter]
  constructor
  · intro heq c hc d hd hsha hA
    by_contra hrej
    -- The twin of a rejected unit is not among the shas of the filtered walker.
    have hnot : d.sha ∉ (ps.filter A).map (·.sha) := by
      intro hmem
      obtain ⟨c', hc', he⟩ := List.mem_map.mp hmem
      obtain ⟨hc', hA'⟩ := List.mem_filter.mp hc'
      obtain rfl := List.inj_on_of_nodup_map hnodup hc' hc (he.trans hsha.symm)
      exact hrej hA'
    have hmem : d ∈ js.filter fun u => u.sha ∉ (ps.filter A).map (·.sha) ∧ A u :=
      List.mem_filter.mpr ⟨hd, by simp only [decide_eq_true_eq]; exact ⟨hnot, hA⟩⟩
    rw [heq] at hmem
    have hout := (List.mem_filter.mp hmem).2
    simp only [Bool.and_eq_true, decide_eq_true_eq] at hout
    exact hout.2 (hsha ▸ List.mem_map_of_mem hc)
  · intro h
    apply List.filter_congr
    intro d hd
    by_cases hA : A d = true
    · have hiff : d.sha ∈ (ps.filter A).map (·.sha) ↔ d.sha ∈ ps.map (·.sha) := by
        simp only [List.mem_map, List.mem_filter]
        exact ⟨fun ⟨c, hc, he⟩ => ⟨c, hc.1, he⟩, fun ⟨c, hc, he⟩ => ⟨c, ⟨hc, h c hc d hd he hA⟩, he⟩⟩
      simp only [hiff, hA, and_true, Bool.true_and]
    · simp [hA]

section
variable [Serde]

theorem decodeJson_eq_ok {u : String × Bytes} {unit : ArchiveUnit} (h : decodeJson u = .ok unit) :
    unit.sha = u.1 ∧ unit.raw_proto = none ∧ ∃ text, readText u = .ok text := by
  unfold decodeJson at h
  cases ht : readText u with
  | error e => rw [ht] at h; cases h
  | ok text =>
    rw [ht, read_ok_bind] at h
    split at h <;> cases h
    exact ⟨rfl, rfl, text, rfl⟩

theorem filterJson_loop {accept : String → Bool} {us : List (String × Bytes)} {units : List ArchiveUnit}
    (hd : List.Forall₂ (fun u unit => decodeJson u = .ok unit) us units)
    (hp : PeekFits peek_json_primary_path decodeJson us) (s : ReadState) :
    us.foldlM (filterJson accept) s =
      .ok { s with out := s.out ++ units.filter fun u => u.sha ∉ s.proto_shas ∧ accept u.path } := by
  induction hd generalizing s with
  | nil => simp; rfl
  | @cons u unit us units hu _ ih =>
    have hp' : PeekFits peek_json_primary_path decodeJson us :=
      fun v hv => hp v (List.mem_cons_of_mem _ hv)
    obtain ⟨hsha, -, text, ht⟩ := decodeJson_eq_ok hu
    rw [List.foldlM_cons]
    by_cases hs : u.1 ∈ s.proto_shas
    · have hstep : filterJson accept s u = .ok s := if_pos hs
      rw [hstep, read_ok_bind, ih hp']
      simp [hsha, hs]
    · cases ha : accept unit.path with
      | true =>
        have hpeek := peek_accepts hp List.mem_cons_self hu ha
        have hstep : filterJson accept s u = .ok { s with out := s.out ++ [unit] } := by
          simp only [filterJson, hs, ht, hpeek, hu, read_ok_bind, ha]
          rfl
        rw [hstep, read_ok_bind, ih hp']
        simp [hsha, hs, ha]
      | false =>
        have hstep : filterJson accept s u = .ok s := by
          simp only [filterJson, hs, ht, read_ok_bind, if_false]
          split
          · rfl
          · simp only [hu, read_ok_bind, ha]
            rfl
        rw [hstep, read_ok_bind, ih hp']
        simp [hsha, hs, ha]

theorem read_units_progress_eq (zip : Archive) :
    read_units_progress zip = read_units_filtered zip fun _ => true := by
  have hproto : readProto = filterProto fun _ => true := by
    funext s u
    simp [readProto, filterProto]
  have hjson : readJson = filterJson fun _ => true := by
    funext s u
    unfold readJson filterJson
    split
    · rfl
    · cases ht : readText u with
      | error e => simp [decodeJson, ht]; rfl
      | ok text => simp [read_ok_bind]
  rw [read_units_progress, hproto, hjson]
  rfl

/-- The entry names are distinct, every unit decodes, and a peek that answers gives the path of the
decoded unit. -/
structure Readable (zip : Archive) : Prop where
  names : (zip.map (·.name)).Nodup
  protos : ∀ u ∈ pbunit_idx zip, ∃ unit, decodeProto u = .ok unit
  jsons : ∀ u ∈ json_idx zip, ∃ unit, decodeJson u = .ok unit
  protoPeek : PeekFits peek_proto_primary_path decodeProto (pbunit_idx zip)
  jsonPeek : PeekFits peek_json_primary_path decodeJson (json_idx zip)

theorem read_units_filtered_eq {zip : Archive} (h : Readable zip) {ps js : List ArchiveUnit}
    (hps : List.Forall₂ (fun u unit => decodeProto u = .ok unit) (pbunit_idx zip) ps)
    (hjs : List.Forall₂ (fun u unit => decodeJson u = .ok unit) (json_idx zip) js)
    (accept : String → Bool) :
    read_units_filtered zip accept = .ok (ps.filter (accept ·.path) ++
      js.filter fun u => u.sha ∉ (ps.filter (accept ·.path)).map (·.sha) ∧ accept u.path) := by
  rw [read_units_filtered, filterProto_loop hps h.protoPeek, read_ok_bind,
    filterJson_loop hjs h.jsonPeek, read_ok_bind]
  simp
  rfl

/-- A JSON unit that the filter accepts has no protobuf twin that the filter rejects. -/
def TwinsAccepted (zip : Archive) (accept : String → Bool) : Prop :=
  ∀ u ∈ pbunit_idx zip, ∀ v ∈ json_idx zip, u.1 = v.1 → ∀ c d, decodeProto u = .ok c →
    decodeJson v = .ok d → accept d.path = true → accept c.path = true

/-- The filtered walker returns the accepted units of the full one. -/
def FilterAgrees (zip : Archive) (accept : String → Bool) : Prop :=
  ∃ us, read_units_progress zip = .ok us ∧ read_units_filtered zip accept = .ok (us.filter (accept ·.path))

theorem filtered_walker_agrees_iff (zip : Archive) (accept : String → Bool) (h : Readable zip) :
    FilterAgrees zip accept ↔ TwinsAccepted zip accept := by
  obtain ⟨ps, hps⟩ := exists_forall₂ h.protos
  obtain ⟨js, hjs⟩ := exists_forall₂ h.jsons
  have hnodup : (ps.map (·.sha)).Nodup := by
    rw [decoded_shas hps]
    exact pbunit_shas_nodup h.names
  have hfull : read_units_progress zip = .ok (ps ++ js.filter fun u => u.sha ∉ ps.map (·.sha)) := by
    rw [read_units_progress_eq, read_units_filtered_eq h hps hjs]
    simp
  have hagree : FilterAgrees zip accept ↔
      ∀ c ∈ ps, ∀ d ∈ js, c.sha = d.sha → accept d.path = true → accept c.path = true := by
    rw [← filter_agrees_iff_twins hnodup]
    simp only [FilterAgrees, hfull, read_units_filtered_eq h hps hjs accept, Except.ok.injEq,
      exists_eq_left']
  rw [hagree]
  constructor
  · intro hall u hu v hv huv c d hc hd
    have hsha : c.sha = d.sha := by rw [decodeProto_sha hc, (decodeJson_eq_ok hd).1, huv]
    exact hall c ((mem_decoded hps c).mpr ⟨u, hu, hc⟩) d ((mem_decoded hjs d).mpr ⟨v, hv, hd⟩) hsha
  · intro htwins c hc d hd hsha
    obtain ⟨u, hu, hc⟩ := (mem_decoded hps c).mp hc
    obtain ⟨v, hv, hd⟩ := (mem_decoded hjs d).mp hd
    rw [decodeProto_sha hc, (decodeJson_eq_ok hd).1] at hsha
    exact htwins u hu v hv hsha c d hc hd

end

/-! ## A twin taken from the other encoding -/

def sourceUnit (path : String) : IndexedCompilation := ⟨{ source_file := [path] }⟩

def twinText : String := "\x7b\"unit\":\x7b\"source_file\":[\"y.java\"]\x7d\x7d"

/-- One sha in both encodings: `x.java` in the protobuf unit, `y.java` in the JSON unit. -/
def twinArchive : Archive :=
  [⟨"root/pbunits/a", encode_indexed_compilation (sourceUnit "x.java")⟩,
   ⟨"root/units/a", as_bytes twinText⟩]

/-- A decoder that is right about the one JSON text here. -/
@[reducible] def twinSerde : Serde := ⟨fun _ => .ok (sourceUnit "y.java")⟩

attribute [local instance] twinSerde

def twinProto : ArchiveUnit :=
  ⟨"a", sourceUnit "x.java", some (encode_indexed_compilation (sourceUnit "x.java"))⟩

def twinJson : ArchiveUnit := ⟨"a", sourceUnit "y.java", none⟩

theorem twinArchive_protos :
    pbunit_idx twinArchive = [("a", encode_indexed_compilation (sourceUnit "x.java"))] ∧
      decodeProto ("a", encode_indexed_compilation (sourceUnit "x.java")) = .ok twinProto := by
  refine ⟨by decide +kernel, ?_⟩
  rw [decodeProto, parse_encode (by decide +kernel)]
  rfl

theorem twinArchive_jsons :
    json_idx twinArchive = [("a", as_bytes twinText)] ∧
      decodeJson ("a", as_bytes twinText) = .ok twinJson := by
  refine ⟨by decide +kernel, ?_⟩
  rw [decodeJson, readText, from_utf8_as_bytes]
  rfl

theorem twinArchive_readable : Readable twinArchive := by
  obtain ⟨hp, hproto⟩ := twinArchive_protos
  obtain ⟨hj, hjson⟩ := twinArchive_jsons
  refine ⟨by decide +kernel, ?_, ?_, ?_, ?_⟩
  · rw [hp]
    exact List.forall_mem_singleton.mpr ⟨_, hproto⟩
  · rw [hj]
    exact List.forall_mem_singleton.mpr ⟨_, hjson⟩
  · rw [hp]
    refine List.forall_mem_singleton.mpr fun p unit hpeek hd => ?_
    rw [hproto] at hd
    rw [peek_proto_encode (by decide +kernel)] at hpeek
    cases hd
    cases hpeek
    decide +kernel
  · rw [hj]
    refine List.forall_mem_singleton.mpr fun p unit hpeek hd => ?_
    have htext : peek_json_primary_path (as_bytes twinText) = some "y.java" := by decide +kernel
    rw [hjson] at hd
    rw [htext] at hpeek
    cases hd
    cases hpeek
    decide +kernel

/-- The filter rejects `x.java` and then takes the JSON twin that the full walker drops. -/
theorem twin_taken_from_json :
    Readable twinArchive ∧ ¬ FilterAgrees twinArchive (· = "y.java") := by
  refine ⟨twinArchive_readable, ?_⟩
  have hps : List.Forall₂ (fun u unit => decodeProto u = .ok unit) (pbunit_idx twinArchive) [twinProto] :=
    twinArchive_protos.1 ▸ .cons twinArchive_protos.2 .nil
  have hjs : List.Forall₂ (fun u unit => decodeJson u = .ok unit) (json_idx twinArchive) [twinJson] :=
    twinArchive_jsons.1 ▸ .cons twinArchive_jsons.2 .nil
  rintro ⟨us, hfull, hfiltered⟩
  rw [read_units_progress_eq, read_units_filtered_eq twinArchive_readable hps hjs] at hfull
  rw [read_units_filtered_eq twinArchive_readable hps hjs] at hfiltered
  cases hfull
  have hlen := congrArg (fun r => r.toOption.map List.length) hfiltered
  revert hlen
  decide +kernel

theorem filtered_walker_agrees_iff_twinArchive :
    Readable twinArchive ∧
      (FilterAgrees twinArchive (· = "x.java") ↔ TwinsAccepted twinArchive (· = "x.java")) :=
  ⟨twinArchive_readable, filtered_walker_agrees_iff twinArchive (· = "x.java") twinArchive_readable⟩

end Scry2
