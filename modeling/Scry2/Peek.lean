import Scry2.Proto

/-!
# Peeking at an encoded unit

Before a unit is decoded, `peek_proto_primary_path` looks for its primary path in the raw fields.
It agrees with the decoder except on one kind of unit, whose own path it does not look at.
-/

open Scry2.Lib

namespace Scry2

/-! ## The scanner -/

/-- The value and the number of bytes it took. -/
def peek_varint (bytes : Bytes) : Option (UInt64 × Nat) := (varint_loop 10 0 0 0 bytes).toOption

/-- `checked_add` on a `usize`. -/
def checked_add (a b : Nat) : Option Nat := if a + b < 2 ^ 64 then some (a + b) else none

def skip_proto_field (bytes : Bytes) (cur : Nat) (wire : UInt8) : Option Nat :=
  match wire with
  | 0 => (peek_varint (bytes.drop cur)).map fun v => cur + v.2
  | 1 => if cur + 8 ≤ bytes.length then some (cur + 8) else none
  | 2 => do
    let (len, n) ← peek_varint (bytes.drop cur)
    let start ← checked_add cur n
    let stop ← checked_add start len.toNat
    if bytes.length < stop then none else some stop
  | 5 => if cur + 4 ≤ bytes.length then some (cur + 4) else none
  | _ => none

theorem peek_varint_pos {bytes : Bytes} {v : UInt64} {n : Nat} (h : peek_varint bytes = some (v, n)) :
    0 < n := by
  unfold peek_varint at h
  cases hv : varint_loop 10 0 0 0 bytes with
  | error e => rw [hv] at h; cases h
  | ok r =>
    rw [hv] at h
    cases h
    exact varint_loop_pos hv

theorem checked_add_eq_some {a b c : Nat} (h : checked_add a b = some c) : c = a + b := by
  unfold checked_add at h
  split at h
  · cases h; rfl
  · cases h

theorem checked_add_of_lt {a b : Nat} (h : a + b < 2 ^ 64) : checked_add a b = some (a + b) := if_pos h

theorem skip_proto_field_le {bytes : Bytes} {cur next : Nat} {wire : UInt8}
    (h : skip_proto_field bytes cur wire = some next) : cur ≤ next := by
  unfold skip_proto_field at h
  split at h
  · obtain ⟨v, -, rfl⟩ := Option.map_eq_some_iff.mp h
    exact Nat.le_add_right _ _
  · split at h
    · cases h; omega
    · cases h
  · simp only [Option.bind_eq_bind, Option.bind_eq_some_iff] at h
    obtain ⟨v, -, start, hs, stop, he, h⟩ := h
    split at h
    · cases h
    · cases h
      have h1 := checked_add_eq_some hs
      have h2 := checked_add_eq_some he
      omega
  · split at h
    · cases h; omega
    · cases h
  · cases h

/-- The payload of the first field `target` from `cur` on. A length that runs past the end is
clipped. -/
def find_field_from (bytes : Bytes) (target : UInt32) (cur : Nat) : Option Bytes :=
  if cur < bytes.length then
    match _ht : peek_varint (bytes.drop cur) with
    | none => none
    | some (tag, n) =>
      let field := (tag >>> 3).toUInt32
      let wire := (tag &&& 0x7).toUInt8
      if field = target ∧ wire = 2 then do
        let (len, ln) ← peek_varint (bytes.drop (cur + n))
        let stop ← checked_add (cur + n + ln) len.toNat
        some ((bytes.drop (cur + n + ln)).take (min stop bytes.length - (cur + n + ln)))
      else
        match _hs : skip_proto_field bytes (cur + n) wire with
        | none => none
        | some next => find_field_from bytes target next
  else none
termination_by bytes.length - cur
decreasing_by
  have h1 := peek_varint_pos _ht
  have h2 := skip_proto_field_le _hs
  omega

def find_field_ld_truncating (bytes : Bytes) (target : UInt32) : Option Bytes :=
  find_field_from bytes target 0

def find_first_field_string (bytes : Bytes) (target : UInt32) : Option String :=
  (find_field_ld_truncating bytes target).bind from_utf8

def peek_proto_primary_path (bytes : Bytes) : Option String := do
  let cu ← find_field_ld_truncating bytes 1
  match find_first_field_string cu 6 with
  | some s => return s
  | none =>
    let first_input ← find_field_ld_truncating cu 3
    let vname ← find_field_ld_truncating first_input 1
    match find_first_field_string vname 4 with
    | some p => return p
    | none =>
      let info ← find_field_ld_truncating first_input 2
      return (find_first_field_string info 1).getD ""

/-! ## Scanning an encoded message -/

theorem peek_varint_write {n : Nat} (hn : n < 2 ^ 64) (rest : Bytes) :
    peek_varint (write_varint n ++ rest) = some (UInt64.ofNat n, varint_len n) := by
  rw [peek_varint, varint_write hn, Nat.zero_add]
  rfl

section Cursor
variable {bytes data rest : Bytes} {cur f : Nat} (h : bytes.drop cur = write_tag_len f data ++ rest)
include h

/-- One turn of the scan, at a field the encoder wrote. -/
theorem find_field_from_cons (hf : f < 2 ^ 29) (hb : bytes.length < 2 ^ 64) (target : UInt32) :
    find_field_from bytes target cur =
      if UInt32.ofNat f = target then some data
      else find_field_from bytes target (cur + (write_tag_len f data).length) := by
  have hend := field_end_le h
  have hl := write_tag_len_length f data
  have htag := varint_len_pos (f * 8 + 2)
  rw [write_tag_len, tag_eq, List.append_assoc, List.append_assoc] at h
  have h2 := drop_varint h
  have h3 := drop_varint h2
  obtain ⟨hfield, hwire⟩ := tag_field hf
  have e1 : peek_varint (bytes.drop cur) = some (UInt64.ofNat (f * 8 + 2), varint_len (f * 8 + 2)) := by
    rw [h, peek_varint_write (by omega)]
  have e2 : peek_varint (bytes.drop (cur + varint_len (f * 8 + 2))) =
      some (UInt64.ofNat data.length, varint_len data.length) := by
    rw [h2, peek_varint_write (by omega)]
  have hlen : (UInt64.ofNat data.length).toNat = data.length :=
    UInt64.toNat_ofNat_of_lt' (by unfold UInt64.size; omega)
  have hskip : skip_proto_field bytes (cur + varint_len (f * 8 + 2)) 2 =
      some (cur + (write_tag_len f data).length) := by
    rw [skip_proto_field, e2]
    simp only [Option.bind_eq_bind, Option.bind_some, hlen]
    rw [checked_add_of_lt (by omega), Option.bind_some, checked_add_of_lt (by omega), Option.bind_some,
      if_neg (by omega), hl]
    congr 1
    omega
  rw [find_field_from, if_pos (by omega)]
  split
  · rename_i ht
    rw [e1] at ht
    cases ht
  · rename_i tag n ht
    rw [e1] at ht
    cases ht
    simp only [hfield, hwire, and_true]
    by_cases hfound : UInt32.ofNat f = target
    · rw [if_pos hfound, if_pos hfound, e2]
      simp only [Option.bind_eq_bind, Option.bind_some, hlen]
      rw [checked_add_of_lt (by omega), Option.bind_some, h3, Nat.min_eq_left (by omega),
        Nat.add_sub_cancel_left, List.take_left]
    · rw [if_neg hfound, if_neg hfound]
      split
      · rename_i hs
        rw [hwire, hskip] at hs
        cases hs
      · rename_i next hs
        rw [hwire, hskip] at hs
        cases hs
        rfl

end Cursor

/-- Scanning what the encoder wrote finds the first field with the number. -/
theorem find_field_from_bytes {fs : Fields} (hfs : ∀ f ∈ fs, f.1 < 2 ^ 29) {bytes : Bytes}
    (hb : bytes.length < 2 ^ 64) {cur : Nat} (h : bytes.drop cur = fs.bytes) {target : Nat}
    (ht : target < 2 ^ 29) :
    find_field_from bytes (UInt32.ofNat target) cur = (fs.find? (·.1 = target)).map (·.2) := by
  induction fs generalizing cur with
  | nil =>
    have hnil : bytes.drop cur = [] := h
    have hle := List.drop_eq_nil_iff.mp hnil
    rw [find_field_from, if_neg (by omega)]
    rfl
  | cons f fs ih =>
    have hcons : bytes.drop cur = write_tag_len f.1 f.2 ++ Fields.bytes fs := h
    have hf := hfs f List.mem_cons_self
    rw [find_field_from_cons hcons hf hb, List.find?_cons]
    have hiff : UInt32.ofNat f.1 = UInt32.ofNat target ↔ f.1 = target := by
      rw [← UInt32.toNat_inj, UInt32.toNat_ofNat_of_lt' (by unfold UInt32.size; omega),
        UInt32.toNat_ofNat_of_lt' (by unfold UInt32.size; omega)]
    by_cases heq : f.1 = target
    · simp [heq]
    · simp only [hiff, heq, if_false, decide_false]
      exact ih (fun g hg => hfs g (List.mem_cons_of_mem _ hg)) (drop_field hcons)

theorem find_field_message {fs : Fields} (hfs : ∀ f ∈ fs, f.1 < 2 ^ 29) {bytes : Bytes}
    (h : fs.bytes = bytes) (hb : bytes.length < 2 ^ 64) {target : Nat} (ht : target < 2 ^ 29) :
    find_field_ld_truncating bytes (UInt32.ofNat target) = (fs.find? (·.1 = target)).map (·.2) :=
  find_field_from_bytes hfs hb (by rw [List.drop_zero, h]) ht

theorem find_optField (f target : Nat) (data : Bytes) :
    (optField f data).find? (·.1 = target) =
      if f = target ∧ data ≠ [] then some (f, data) else none := by
  unfold optField
  by_cases h : data = []
  · simp [h]
  · by_cases hf : f = target <;> simp [h, hf]

theorem find_repeated {α : Type} (f target : Nat) (enc : α → Bytes) (xs : List α) :
    (xs.map fun x => (f, enc x)).find? (·.1 = target) =
      if f = target then xs.head?.map (fun x => (f, enc x)) else none := by
  rw [List.find?_map]
  by_cases hf : f = target
  · cases xs <;> simp [hf]
  · rw [if_neg hf, List.find?_eq_none.mpr (by simp [hf])]
    rfl

theorem encode_vname_eq_nil_iff (v : VName) : encode_vname v = [] ↔ v = {} :=
  ⟨VName.eq_of_encode_nil, fun h => h ▸ rfl⟩

theorem encode_file_info_eq_nil_iff (fi : FileInfo) : encode_file_info fi = [] ↔ fi = {} :=
  ⟨FileInfo.eq_of_encode_nil, fun h => h ▸ rfl⟩

/-- What the scan finds of an optional field. -/
def nonempty (data : Bytes) : Option Bytes := if data = [] then none else some data

theorem nonempty_text (s : String) :
    (nonempty (as_bytes s)).bind from_utf8 = if s = "" then none else some s := by
  unfold nonempty
  by_cases h : s = ""
  · simp [h]
  · simp [h, as_bytes_eq_nil_iff, from_utf8_as_bytes]

section Found
variable {v : VName} {fi : FileInfo} {ri : FileInput} {c : CompilationUnit}

theorem find_vname_path (h : (encode_vname v).length < 2 ^ 64) :
    find_first_field_string (encode_vname v) 4 = if v.path = "" then none else some v.path := by
  have hfind : find_field_ld_truncating (encode_vname v) 4 = nonempty (as_bytes v.path) := by
    refine (find_field_message v.fields_lt v.fields_bytes h (show 4 < 2 ^ 29 by decide)).trans ?_
    simp only [VName.fields, List.find?_append, find_optField, nonempty]
    by_cases hp : as_bytes v.path = [] <;> simp [hp]
  rw [find_first_field_string, hfind, nonempty_text]

theorem find_info_path (h : (encode_file_info fi).length < 2 ^ 64) :
    find_first_field_string (encode_file_info fi) 1 = if fi.path = "" then none else some fi.path := by
  have hfind : find_field_ld_truncating (encode_file_info fi) 1 = nonempty (as_bytes fi.path) := by
    refine (find_field_message fi.fields_lt fi.fields_bytes h (show 1 < 2 ^ 29 by decide)).trans ?_
    simp only [FileInfo.fields, List.find?_append, find_optField, nonempty]
    by_cases hp : as_bytes fi.path = [] <;> simp [hp]
  rw [find_first_field_string, hfind, nonempty_text]

theorem find_input_vname (h : (encode_file_input ri).length < 2 ^ 64) :
    find_field_ld_truncating (encode_file_input ri) 1 = nonempty (encode_vname ri.v_name) := by
  refine (find_field_message ri.fields_lt ri.fields_bytes h (show 1 < 2 ^ 29 by decide)).trans ?_
  simp only [FileInput.fields, List.find?_append, find_optField, nonempty]
  by_cases hp : encode_vname ri.v_name = [] <;> simp [hp]

theorem find_input_info (h : (encode_file_input ri).length < 2 ^ 64) :
    find_field_ld_truncating (encode_file_input ri) 2 = nonempty (encode_file_info ri.info) := by
  refine (find_field_message ri.fields_lt ri.fields_bytes h (show 2 < 2 ^ 29 by decide)).trans ?_
  simp only [FileInput.fields, List.find?_append, find_optField, nonempty]
  by_cases hp : encode_file_info ri.info = [] <;> simp [hp]

theorem find_source_file (h : (encode_compilation_unit c).length < 2 ^ 64) :
    find_first_field_string (encode_compilation_unit c) 6 = c.source_file.head? := by
  have hfind : find_field_ld_truncating (encode_compilation_unit c) 6 =
      c.source_file.head?.map as_bytes := by
    refine (find_field_message c.fields_lt c.fields_bytes h (show 6 < 2 ^ 29 by decide)).trans ?_
    simp only [CompilationUnit.fields, List.find?_append, find_optField, find_repeated]
    cases c.source_file <;> simp
  rw [find_first_field_string, hfind]
  cases c.source_file <;> simp [from_utf8_as_bytes]

theorem find_required_input (h : (encode_compilation_unit c).length < 2 ^ 64) :
    find_field_ld_truncating (encode_compilation_unit c) 3 =
      c.required_input.head?.map encode_file_input := by
  refine (find_field_message c.fields_lt c.fields_bytes h (show 3 < 2 ^ 29 by decide)).trans ?_
  simp only [CompilationUnit.fields, List.find?_append, find_optField, find_repeated]
  cases c.required_input <;> simp

end Found

theorem find_unit {c : IndexedCompilation} (h : (encode_indexed_compilation c).length < 2 ^ 64) :
    find_field_ld_truncating (encode_indexed_compilation c) 1 = some (encode_compilation_unit c.unit) := by
  have hbytes : Fields.bytes [(1, encode_compilation_unit c.unit)] = encode_indexed_compilation c := by
    simp [Fields.bytes, encode_indexed_compilation]
  refine (find_field_message (by simp) hbytes h (show 1 < 2 ^ 29 by decide)).trans ?_
  simp

/-! ## The peek and the decoder -/

/-- What the peek answers for a unit without source files, from its first input. -/
def peekInput (ri : FileInput) : Option String :=
  if ri.v_name = {} then none
  else if ri.v_name.path ≠ "" then some ri.v_name.path
  else if ri.info = {} then none
  else some ri.info.path

theorem peek_proto_encode {c : IndexedCompilation}
    (h : (encode_indexed_compilation c).length < 2 ^ 64) :
    peek_proto_primary_path (encode_indexed_compilation c) =
      c.unit.source_file.head?.or (c.unit.required_input.head?.bind peekInput) := by
  have hc : (encode_compilation_unit c.unit).length < 2 ^ 64 := lt_of_le_of_lt (unit_length_le c) h
  rw [peek_proto_primary_path, find_unit h]
  simp only [Option.bind_eq_bind, Option.bind_some, find_source_file hc]
  cases hs : c.unit.source_file.head? with
  | some s => rfl
  | none =>
    simp only [Option.none_or, find_required_input hc]
    cases hr : c.unit.required_input.head? with
    | none => rfl
    | some ri =>
      have hri : (encode_file_input ri).length < 2 ^ 64 := by
        refine lt_of_le_of_lt ?_ hc
        rw [← CompilationUnit.fields_bytes]
        refine Fields.length_le_bytes (f := (3, encode_file_input ri)) ?_
        exact List.mem_append_right _ (List.mem_append_left _ (List.mem_map_of_mem (List.mem_of_mem_head? hr)))
      have hv : (encode_vname ri.v_name).length < 2 ^ 64 := by
        refine lt_of_le_of_lt ?_ hri
        rw [← FileInput.fields_bytes]
        exact optField_length_le fun g hg => List.mem_append_left _ hg
      have hi : (encode_file_info ri.info).length < 2 ^ 64 := by
        refine lt_of_le_of_lt ?_ hri
        rw [← FileInput.fields_bytes]
        exact optField_length_le fun g hg => List.mem_append_right _ hg
      simp only [Option.map_some, Option.bind_some, find_input_vname hri, find_input_info hri, peekInput,
        nonempty, encode_vname_eq_nil_iff, encode_file_info_eq_nil_iff]
      by_cases hvn : ri.v_name = {}
      · rw [if_pos hvn, if_pos hvn]
        rfl
      · rw [if_neg hvn, if_neg hvn, Option.bind_some, find_vname_path hv]
        by_cases hp : ri.v_name.path = ""
        · rw [if_pos hp, if_neg (not_not.mpr hp)]
          by_cases hinfo : ri.info = {}
          · rw [if_pos hinfo, if_pos hinfo]
            rfl
          · rw [if_neg hinfo, if_neg hinfo, Option.bind_some, find_info_path hi]
            by_cases hip : ri.info.path = "" <;> simp [hip]
        · rw [if_neg hp, if_pos hp]
          rfl

/-- The peek answers the empty path of the first input and passes over the path of the unit. -/
def PassesUnitPath (c : CompilationUnit) : Prop :=
  c.source_file = [] ∧ c.v_name.path ≠ "" ∧ ∃ ri ∈ c.required_input.head?,
    ri.v_name ≠ {} ∧ ri.v_name.path = "" ∧ ri.info.path = "" ∧ ri.info.digest ≠ ""

/-- Whenever the peek answers, its answer is the primary path of the decoded unit. -/
def PeekAgrees (c : IndexedCompilation) : Prop :=
  ∃ d, parse_indexed_compilation (encode_indexed_compilation c) = .ok d ∧
    ∀ p, peek_proto_primary_path (encode_indexed_compilation c) = some p →
      p = (cu_primary_path d.unit).getD ""

theorem peekInput_agrees_iff {c : CompilationUnit} (hs : c.source_file = []) {ri : FileInput}
    (hr : c.required_input.head? = some ri) :
    (∀ p, peekInput ri = some p → p = (cu_primary_path c).getD "") ↔ ¬ PassesUnitPath c := by
  obtain ⟨rest, hrest⟩ : ∃ rest, c.required_input = ri :: rest := List.head?_eq_some_iff.mp hr
  by_cases hvn : ri.v_name = {}
  · simp [peekInput, PassesUnitPath, hr, hvn]
  · by_cases hp : ri.v_name.path = ""
    · by_cases hip : ri.info.path = ""
      · -- Only the digest of the input is left to tell its info from an absent one.
        have hinfo : ri.info = {} ↔ ri.info.digest = "" :=
          ⟨fun h => by rw [h], fun h => by cases hi : ri.info; simp_all⟩
        by_cases hd : ri.info.digest = ""
        · simp [peekInput, PassesUnitPath, hr, hvn, hp, hinfo.mpr hd]
        · by_cases hu : c.v_name.path = ""
          · simp [peekInput, PassesUnitPath, cu_primary_path, hs, hrest, hvn, hp, hip, hinfo, hd, hu]
          · simp [peekInput, PassesUnitPath, cu_primary_path, hs, hrest, hvn, hp, hip, hinfo, hd, hu,
              Ne.symm hu]
      · simp [peekInput, PassesUnitPath, cu_primary_path, hs, hrest, hvn, hp, hip]
    · simp [peekInput, PassesUnitPath, cu_primary_path, hs, hrest, hvn, hp]

theorem proto_peek_agrees_iff (c : IndexedCompilation)
    (h : (encode_indexed_compilation c).length ≤ isizeMax) :
    PeekAgrees c ↔ ¬ PassesUnitPath c.unit := by
  have hlt : (encode_indexed_compilation c).length < 2 ^ 64 := lt_of_le_of_lt h (by decide)
  have hdec : PeekAgrees c ↔ ∀ p, peek_proto_primary_path (encode_indexed_compilation c) = some p →
      p = (cu_primary_path c.unit).getD "" := by
    simp only [PeekAgrees, parse_encode hlt, Except.ok.injEq, exists_eq_left']
  rw [hdec, peek_proto_encode hlt]
  cases hs : c.unit.source_file with
  | cons s rest =>
    -- The first source file is the answer of both.
    simp [cu_primary_path, PassesUnitPath, hs]
  | nil =>
    cases hr : c.unit.required_input.head? with
    | none => simp [PassesUnitPath, hr]
    | some ri =>
      simp only [List.head?_nil, Option.none_or, Option.bind_some]
      exact peekInput_agrees_iff hs hr

/-- A unit whose first input has a corpus and a digest but no path. -/
def pathlessInput : IndexedCompilation :=
  ⟨{ v_name := { path := "a/A.java" }
     required_input := [{ v_name := { corpus := "c" }, info := { digest := "d" } }] }⟩

theorem pathlessInput_peek_empty :
    parse_indexed_compilation (encode_indexed_compilation pathlessInput) = .ok pathlessInput ∧
      cu_primary_path pathlessInput.unit = some "a/A.java" ∧
      peek_proto_primary_path (encode_indexed_compilation pathlessInput) = some "" ∧
      ¬ PeekAgrees pathlessInput := by
  have hlt : (encode_indexed_compilation pathlessInput).length < 2 ^ 64 := by decide +kernel
  have hpeek : peek_proto_primary_path (encode_indexed_compilation pathlessInput) = some "" :=
    (peek_proto_encode hlt).trans (by decide +kernel)
  refine ⟨parse_encode hlt, by decide +kernel, hpeek, ?_⟩
  rintro ⟨d, hd, hagree⟩
  rw [parse_encode hlt] at hd
  cases hd
  exact absurd (hagree "" hpeek) (by decide +kernel)

theorem proto_peek_agrees_iff_gappedUnit :
    (encode_indexed_compilation gappedUnit).length ≤ isizeMax ∧
      (PeekAgrees gappedUnit ↔ ¬ PassesUnitPath gappedUnit.unit) :=
  have h : (encode_indexed_compilation gappedUnit).length ≤ isizeMax := by decide +kernel
  ⟨h, proto_peek_agrees_iff gappedUnit h⟩

end Scry2
