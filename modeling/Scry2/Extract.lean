import Scry2.Lib.Distinct
import Scry2.Digest
import Scry2.Normalize
import Scry2.Wire

/-!
# Extracting one unit

`extract_with` of `kzip.rs` writes a kzip with one unit, after a change to it. A unit that the change
leaves alone is copied; any other is encoded anew, from what the decoder kept of it.
-/

open Scry2.Lib

namespace Scry2

/-! ## The extraction -/

/-- The pbunit that is written: the raw bytes if the transform changed nothing. -/
def pbunitFor (unit : ArchiveUnit) (transform : CompilationUnit → CompilationUnit) : Bytes :=
  let before := unit.cu.unit
  let cu := transform before
  match decide (cu = before), unit.raw_proto with
  | true, some raw => raw
  | _, _ => encode_indexed_compilation ⟨cu⟩

/-- The archive that is written and the number of blobs in it. -/
def extract_with (zin : Archive) (unit : ArchiveUnit) (transform : CompilationUnit → CompilationUnit) :
    Archive × Nat :=
  let blobs := (distinct unit.digests).filterMap (fileEntry zin)
  (directories ++ [⟨"root/pbunits/" ++ unit.sha, pbunitFor unit transform⟩] ++ blobs, blobs.length)

/-! ## The fields of a message -/

def collect (out : List (UInt32 × Bytes)) (tag : UInt32 × UInt8) (slice : Bytes) :
    Except DecodeError (List (UInt32 × Bytes)) := .ok (out ++ [(tag.1, slice)])

/-- The fields of a message in order, by the loop of its decoder. -/
def fieldsOf (buf : Bytes) : Except DecodeError (List (UInt32 × Bytes)) := parse_fields collect buf 0 []

/-- The payloads of the fields with one number. -/
def payloads (n : UInt32) (fs : List (UInt32 × Bytes)) : List Bytes := (fs.filter (·.1 = n)).map (·.2)

/-- The same bytes, or messages with the same fields: for each number of interest, payloads that agree
one by one. -/
def SameFields (R : UInt32 → Bytes → Bytes → Prop) (on : UInt32 → Prop) (a b : Bytes) : Prop :=
  a = b ∨ ∃ fa fb, fieldsOf a = .ok fa ∧ fieldsOf b = .ok fb ∧
    ∀ n, on n → List.Forall₂ (R n) (payloads n fa) (payloads n fb)

/-- For messages that hold no messages: a `VName` or a `FileInfo`. -/
def SameText : Bytes → Bytes → Prop := SameFields (fun _ => Eq) fun _ => True

/-- How the payloads of a field agree, in a `FileInput`. -/
def SameFileInputField (n : UInt32) : Bytes → Bytes → Prop := if n = 1 ∨ n = 2 then SameText else Eq

def SameFileInput : Bytes → Bytes → Prop := SameFields SameFileInputField fun _ => True

def SameUnitField (n : UInt32) : Bytes → Bytes → Prop :=
  if n = 1 then SameText else if n = 3 then SameFileInput else Eq

/-- Everything but the arguments. -/
def SameUnit : Bytes → Bytes → Prop := SameFields SameUnitField (· ≠ 5)

/-- An `IndexedCompilation` with the same fields, except for the arguments of the unit. -/
def SameExceptArgs : Bytes → Bytes → Prop := SameFields (fun n => if n = 1 then SameUnit else Eq) fun _ => True

/-! ## Messages that the model covers -/

def IsUtf8 (b : Bytes) : Prop := (from_utf8 b).isSome

/-- Only fields of `reads`, each of them at most once, and none empty. -/
def PlainText (reads : List UInt32) (b : Bytes) : Prop :=
  ∃ fs, fieldsOf b = .ok fs ∧ (∀ n, (payloads n fs).length ≤ 1) ∧ ∀ f ∈ fs, f.1 ∈ reads ∧ f.2 ≠ [] ∧ IsUtf8 f.2

def PlainVName : Bytes → Prop := PlainText [1, 2, 3, 4, 5]

def PlainInfo : Bytes → Prop := PlainText [1, 2]

def PlainInput (b : Bytes) : Prop :=
  ∃ fs, fieldsOf b = .ok fs ∧ (∀ n, (payloads n fs).length ≤ 1) ∧
    ∀ f ∈ fs, f.2 ≠ [] ∧ (f.1 = 1 ∧ PlainVName f.2 ∨ f.1 = 2 ∧ PlainInfo f.2)

/-- What a field of a unit holds when the model covers it. -/
def PlainUnitField (f : UInt32 × Bytes) : Prop :=
  f.1 = 1 ∧ f.2 ≠ [] ∧ PlainVName f.2 ∨ f.1 = 3 ∧ PlainInput f.2 ∨ f.1 = 5 ∨ f.1 = 6 ∧ IsUtf8 f.2 ∨
    f.1 ∈ [7, 8, 9] ∧ f.2 ≠ [] ∧ IsUtf8 f.2

/-- No other fields than the model's, and the singular ones at most once. -/
def PlainUnit (b : Bytes) : Prop :=
  ∃ fs, fieldsOf b = .ok fs ∧ (∀ n ∈ [1, 7, 8, 9], (payloads n fs).length ≤ 1) ∧ ∀ f ∈ fs, PlainUnitField f

def PlainRaw (raw : Bytes) : Prop := ∃ u, fieldsOf raw = .ok [(1, u)] ∧ PlainUnit u

/-! ## Parsing by the fields -/

/-- What a parser makes of the fields of a message. -/
def applyFields {M : Type} (set : M → UInt32 × UInt8 → Bytes → Except DecodeError M) (fs : List (UInt32 × Bytes))
    (out : M) : Except DecodeError M :=
  fs.foldlM (fun out f => set out (f.1, 2) f.2) out

theorem read_field_header_wire {buf : Bytes} {pos pos' len : Nat} {field : UInt32} {wire : UInt8}
    (h : read_field_header buf pos = .ok ((field, wire, len), pos')) : wire = 2 := by
  unfold read_field_header at h
  cases htag : read_varint_bytes buf pos with
  | error e => simp [htag, bind, Except.bind] at h
  | ok tag =>
    rw [htag] at h
    simp only [bind, Except.bind] at h
    split at h
    · cases h
    · rename_i hwire
      cases hlen : read_varint_bytes buf tag.2 with
      | error e => simp [hlen] at h
      | ok len =>
        rw [hlen] at h
        cases h
        exact not_not.mp hwire

/-- A parser goes through the fields that the loop finds. -/
theorem parse_fields_fields {M : Type} {set : M → UInt32 × UInt8 → Bytes → Except DecodeError M} {buf : Bytes}
    {pos : Nat} {out v : M} (h : parse_fields set buf pos out = .ok v) :
    ∃ fs, (∀ acc, parse_fields collect buf pos acc = .ok (acc ++ fs)) ∧ applyFields set fs out = .ok v := by
  fun_induction parse_fields set buf pos out with
  | case1 pos out hpos e he => cases h
  | case2 pos out hpos field wire len pos₁ hh e he => cases h
  | case3 pos out hpos field wire len pos₁ hh slice pos₂ ht e he => cases h
  | case4 pos out hpos field wire len pos₁ hh slice pos₂ ht out' hset ih =>
    obtain ⟨fs, hfs, hv⟩ := ih h
    obtain rfl := read_field_header_wire hh
    refine ⟨(field, slice) :: fs, fun acc => ?_, ?_⟩
    · rw [parse_fields_step hpos hh ht, collect, ok_bind, hfs]
      simp
    · rw [applyFields, List.foldlM_cons, hset, ok_bind]
      exact hv
  | case5 pos out hpos =>
    cases h
    refine ⟨[], fun acc => ?_, rfl⟩
    rw [parse_fields, if_neg hpos, List.append_nil]

theorem fieldsOf_of_parse {M : Type} {set : M → UInt32 × UInt8 → Bytes → Except DecodeError M} {buf : Bytes}
    {out v : M} (h : parse_fields set buf 0 out = .ok v) :
    ∃ fs, fieldsOf buf = .ok fs ∧ applyFields set fs out = .ok v := by
  obtain ⟨fs, hfs, hv⟩ := parse_fields_fields h
  exact ⟨fs, hfs [], hv⟩

theorem apply_collect (fs : Fields) (acc : List (UInt32 × Bytes)) :
    fs.apply collect acc = .ok (acc ++ fs.map fun f => (UInt32.ofNat f.1, f.2)) := by
  induction fs generalizing acc with
  | nil =>
    rw [List.map_nil, List.append_nil]
    rfl
  | cons f fs ih =>
    rw [Fields.apply, List.foldlM_cons, collect, ok_bind]
    exact (ih _).trans (by simp)

theorem fieldsOf_bytes {fs : Fields} (hfs : ∀ f ∈ fs, f.1 < 2 ^ 29) (hlen : fs.bytes.length < 2 ^ 64) :
    fieldsOf fs.bytes = .ok (fs.map fun f => (UInt32.ofNat f.1, f.2)) := by
  rw [fieldsOf, parse_message hfs hlen rfl, apply_collect, List.nil_append]

theorem collect_length {buf : Bytes} {pos : Nat} {acc fs : List (UInt32 × Bytes)}
    (h : parse_fields collect buf pos acc = .ok fs) :
    acc.length ≤ fs.length ∧ (pos < buf.length → acc.length < fs.length) := by
  fun_induction parse_fields collect buf pos acc with
  | case1 pos out hpos e he => cases h
  | case2 pos out hpos field wire len pos₁ hh e he => cases h
  | case3 pos out hpos field wire len pos₁ hh slice pos₂ ht e he => cases h
  | case4 pos out hpos field wire len pos₁ hh slice pos₂ ht out' hset ih =>
    have hle := (ih h).1
    cases hset
    rw [List.length_append, List.length_singleton] at hle
    omega
  | case5 pos out hpos =>
    cases h
    exact ⟨le_refl _, fun hlt => absurd hlt hpos⟩

theorem eq_nil_of_fieldsOf {buf : Bytes} (h : fieldsOf buf = .ok []) : buf = [] := by
  by_contra hne
  exact absurd ((collect_length h).2 (List.length_pos_of_ne_nil hne)) (Nat.lt_irrefl 0)

theorem fieldsOf_nil : fieldsOf [] = .ok [] := parse_nil

/-! ## Payloads by number -/

@[simp] theorem payloads_nil (n : UInt32) : payloads n [] = [] := rfl

@[simp] theorem payloads_append (n : UInt32) (fs gs : List (UInt32 × Bytes)) :
    payloads n (fs ++ gs) = payloads n fs ++ payloads n gs := by
  simp [payloads]

theorem payloads_cons (n : UInt32) (f : UInt32 × Bytes) (fs : List (UInt32 × Bytes)) :
    payloads n (f :: fs) = if f.1 = n then f.2 :: payloads n fs else payloads n fs := by
  unfold payloads
  by_cases h : f.1 = n <;> simp [h]

theorem mem_payloads {n : UInt32} {fs : List (UInt32 × Bytes)} {x : Bytes} : x ∈ payloads n fs ↔ (n, x) ∈ fs := by
  simp only [payloads, List.mem_map, List.mem_filter, decide_eq_true_eq]
  constructor
  · rintro ⟨⟨m, y⟩, ⟨hmem, rfl⟩, rfl⟩
    exact hmem
  · intro h
    exact ⟨(n, x), ⟨h, rfl⟩, rfl⟩

theorem eq_nil_of_payloads {fs : List (UInt32 × Bytes)} (h : ∀ n, payloads n fs = []) : fs = [] := by
  rw [List.eq_nil_iff_forall_not_mem]
  intro f hf
  have := mem_payloads.mpr (show (f.1, f.2) ∈ fs from hf)
  rw [h] at this
  cases this

/-- What a field with number `m` does to a singular part of a message, whose number is `n`. -/
def Sets {α : Type} (dec : Bytes → Except DecodeError α) (n m : UInt32) (slice : Bytes) (old new : α) : Prop :=
  if m = n then dec slice = .ok new else new = old

/-- What it does to a repeated part. -/
def Adds {α : Type} (dec : Bytes → Except DecodeError α) (n m : UInt32) (slice : Bytes) (old new : List α) : Prop :=
  if m = n then ∃ a, dec slice = .ok a ∧ new = old ++ [a] else new = old

def SetsText : UInt32 → UInt32 → Bytes → String → String → Prop := Sets fun s => .ok (from_utf8_lossy s)

section Fold
variable {M α : Type} {set : M → UInt32 × UInt8 → Bytes → Except DecodeError M} {n : UInt32}
  {dec : Bytes → Except DecodeError α}

theorem applyFields_cons {f : UInt32 × Bytes} {fs : List (UInt32 × Bytes)} {out v : M}
    (h : applyFields set (f :: fs) out = .ok v) :
    ∃ out', set out (f.1, 2) f.2 = .ok out' ∧ applyFields set fs out' = .ok v := by
  rw [applyFields, List.foldlM_cons] at h
  cases hset : set out (f.1, 2) f.2 with
  | error e =>
    rw [hset] at h
    cases h
  | ok out' =>
    rw [hset, ok_bind] at h
    exact ⟨out', rfl, h⟩

theorem applyFields_all (get : M → List α)
    (hset : ∀ out m s out', set out (m, 2) s = .ok out' → Adds dec n m s (get out) (get out'))
    {fs : List (UInt32 × Bytes)} {out v : M} (h : applyFields set fs out = .ok v) :
    ∃ as, get v = get out ++ as ∧ List.Forall₂ (fun x a => dec x = .ok a) (payloads n fs) as := by
  induction fs generalizing out with
  | nil =>
    cases h
    exact ⟨[], by simp, .nil⟩
  | cons f fs ih =>
    obtain ⟨out', hout, h⟩ := applyFields_cons h
    obtain ⟨as, hv, has⟩ := ih h
    have hone := hset out f.1 f.2 out' hout
    unfold Adds at hone
    rw [payloads_cons]
    split
    · rename_i hn
      rw [if_pos hn] at hone
      obtain ⟨a, ha, hget⟩ := hone
      exact ⟨a :: as, by rw [hv, hget]; simp, .cons ha has⟩
    · rename_i hn
      rw [if_neg hn] at hone
      exact ⟨as, by rw [hv, hone], has⟩

/-- A singular field that occurs at most once has its payload, or it stays as it was. -/
theorem applyFields_one (get : M → α)
    (hset : ∀ out m s out', set out (m, 2) s = .ok out' → Sets dec n m s (get out) (get out'))
    {fs : List (UInt32 × Bytes)} {out v : M} (h : applyFields set fs out = .ok v)
    (hone : (payloads n fs).length ≤ 1) :
    payloads n fs = [] ∧ get v = get out ∨ ∃ x, payloads n fs = [x] ∧ dec x = .ok (get v) := by
  induction fs generalizing out with
  | nil =>
    cases h
    exact .inl ⟨rfl, rfl⟩
  | cons f fs ih =>
    obtain ⟨out', hout, h⟩ := applyFields_cons h
    have hstep := hset out f.1 f.2 out' hout
    unfold Sets at hstep
    rw [payloads_cons] at hone ⊢
    split at hone
    · rename_i hn
      rw [if_pos hn] at hstep
      have hnil : payloads n fs = [] := List.length_eq_zero_iff.mp (by rw [List.length_cons] at hone; omega)
      right
      rcases ih h (by rw [hnil]; exact Nat.zero_le 1) with ⟨-, hget⟩ | ⟨x, hx, -⟩
      · exact ⟨f.2, by rw [if_pos hn, hnil], hget ▸ hstep⟩
      · rw [hnil] at hx
        cases hx
    · rename_i hn
      rw [if_neg hn] at hstep ⊢
      rw [← hstep]
      exact ih h hone

end Fold

/-! ## The fields of an encoded message -/

/-- The fields as the decoder's loop finds them. -/
def Fields.found (fs : Fields) : List (UInt32 × Bytes) := fs.map fun f => (UInt32.ofNat f.1, f.2)

/-- The payload of a field that is left out when it is empty. -/
def optPayload (data : Bytes) : List Bytes := if data = [] then [] else [data]

@[simp] theorem found_append (fs gs : Fields) : (fs ++ gs).found = fs.found ++ gs.found := List.map_append

@[simp] theorem payloads_optField (n : UInt32) (m : Nat) (data : Bytes) :
    payloads n (optField m data).found = if UInt32.ofNat m = n then optPayload data else [] := by
  unfold optField optPayload Fields.found
  split
  · rw [List.map_nil, payloads_nil, ite_self]
  · rw [List.map_singleton, payloads_cons, payloads_nil]

@[simp] theorem payloads_repeated {α : Type} (n : UInt32) (m : Nat) (enc : α → Bytes) (xs : List α) :
    payloads n (Fields.found (xs.map fun x => (m, enc x))) = if UInt32.ofNat m = n then xs.map enc else [] := by
  unfold Fields.found
  induction xs with
  | nil => rw [List.map_nil, List.map_nil, payloads_nil, List.map_nil, ite_self]
  | cons x xs ih =>
    rw [List.map_cons, List.map_cons, payloads_cons, ih]
    split <;> rfl

theorem optPayload_length (data : Bytes) : (optPayload data).length ≤ 1 := by
  unfold optPayload
  split
  · exact Nat.zero_le 1
  · exact le_refl 1

theorem isUtf8_as_bytes (s : String) : IsUtf8 (as_bytes s) := by
  rw [IsUtf8, from_utf8_as_bytes]
  rfl

theorem as_bytes_lossy {x : Bytes} (h : IsUtf8 x) : as_bytes (from_utf8_lossy x) = x := by
  obtain ⟨s, hs⟩ := Option.isSome_iff_exists.mp h
  rw [from_utf8_lossy, hs]
  exact as_bytes_of_from_utf8 hs

theorem VName.fieldsOf_encode {v : VName} (h : (encode_vname v).length < 2 ^ 64) :
    fieldsOf (encode_vname v) = .ok v.fields.found := by
  rw [← VName.fields_bytes] at h ⊢
  exact fieldsOf_bytes v.fields_lt h

theorem FileInfo.fieldsOf_encode {fi : FileInfo} (h : (encode_file_info fi).length < 2 ^ 64) :
    fieldsOf (encode_file_info fi) = .ok fi.fields.found := by
  rw [← FileInfo.fields_bytes] at h ⊢
  exact fieldsOf_bytes fi.fields_lt h

theorem FileInput.fieldsOf_encode {fi : FileInput} (h : (encode_file_input fi).length < 2 ^ 64) :
    fieldsOf (encode_file_input fi) = .ok fi.fields.found := by
  rw [← FileInput.fields_bytes] at h ⊢
  exact fieldsOf_bytes fi.fields_lt h

theorem CompilationUnit.fieldsOf_encode {c : CompilationUnit} (h : (encode_compilation_unit c).length < 2 ^ 64) :
    fieldsOf (encode_compilation_unit c) = .ok c.fields.found := by
  rw [← CompilationUnit.fields_bytes] at h ⊢
  exact fieldsOf_bytes c.fields_lt h

/-! ## What the encoder writes is plain -/

theorem found_optField_sublist (m : Nat) (data : Bytes) :
    ((optField m data).found.map (·.1)).Sublist [UInt32.ofNat m] := by
  unfold optField Fields.found
  split
  · exact List.nil_sublist _
  · exact List.Sublist.refl _

theorem payloads_length_of_nodup {fs : List (UInt32 × Bytes)} (h : (fs.map (·.1)).Nodup) (n : UInt32) :
    (payloads n fs).length ≤ 1 := by
  have hcount := List.nodup_iff_count_le_one.mp h n
  have heq : (payloads n fs).length = (fs.map (·.1)).count n := by
    rw [payloads, List.length_map, List.count, List.countP_map, List.countP_eq_length_filter]
    congr 1
  omega

theorem plain_encode_vname {v : VName} (h : (encode_vname v).length < 2 ^ 64) : PlainVName (encode_vname v) := by
  have hsub : (v.fields.found.map (·.1)).Sublist [1, 2, 3, 4, 5] := by
    simp only [VName.fields, found_append, List.map_append]
    exact (found_optField_sublist 1 _).append ((found_optField_sublist 2 _).append
      ((found_optField_sublist 3 _).append ((found_optField_sublist 4 _).append (found_optField_sublist 5 _))))
  refine ⟨_, VName.fieldsOf_encode h, payloads_length_of_nodup (List.Nodup.sublist hsub (by decide)), ?_⟩
  intro f hf
  refine ⟨hsub.subset (List.mem_map_of_mem hf), ?_⟩
  obtain ⟨g, hg, rfl⟩ := List.mem_map.mp hf
  simp only [VName.fields, List.mem_append, mem_optField] at hg
  rcases hg with ⟨hne, rfl⟩ | ⟨hne, rfl⟩ | ⟨hne, rfl⟩ | ⟨hne, rfl⟩ | ⟨hne, rfl⟩ <;>
    exact ⟨hne, isUtf8_as_bytes _⟩

theorem plain_encode_info {fi : FileInfo} (h : (encode_file_info fi).length < 2 ^ 64) :
    PlainInfo (encode_file_info fi) := by
  have hsub : (fi.fields.found.map (·.1)).Sublist [1, 2] := by
    simp only [FileInfo.fields, found_append, List.map_append]
    exact (found_optField_sublist 1 _).append (found_optField_sublist 2 _)
  refine ⟨_, FileInfo.fieldsOf_encode h, payloads_length_of_nodup (List.Nodup.sublist hsub (by decide)), ?_⟩
  intro f hf
  refine ⟨hsub.subset (List.mem_map_of_mem hf), ?_⟩
  obtain ⟨g, hg, rfl⟩ := List.mem_map.mp hf
  simp only [FileInfo.fields, List.mem_append, mem_optField] at hg
  rcases hg with ⟨hne, rfl⟩ | ⟨hne, rfl⟩ <;> exact ⟨hne, isUtf8_as_bytes _⟩

theorem plain_encode_input {fi : FileInput} (h : (encode_file_input fi).length < 2 ^ 64) :
    PlainInput (encode_file_input fi) := by
  have hbytes := FileInput.fields_bytes fi
  have hsub : (fi.fields.found.map (·.1)).Sublist [1, 2] := by
    simp only [FileInput.fields, found_append, List.map_append]
    exact (found_optField_sublist 1 _).append (found_optField_sublist 2 _)
  have hlen : ∀ g ∈ fi.fields, g.2.length < 2 ^ 64 := fun g hg =>
    lt_of_le_of_lt (Fields.length_le_bytes hg) (hbytes ▸ h)
  refine ⟨_, FileInput.fieldsOf_encode h, payloads_length_of_nodup (List.Nodup.sublist hsub (by decide)), ?_⟩
  intro f hf
  obtain ⟨g, hg, rfl⟩ := List.mem_map.mp hf
  have hg' := hlen g hg
  simp only [FileInput.fields, List.mem_append, mem_optField] at hg
  rcases hg with ⟨hne, rfl⟩ | ⟨hne, rfl⟩
  · exact ⟨hne, .inl ⟨rfl, plain_encode_vname hg'⟩⟩
  · exact ⟨hne, .inr ⟨rfl, plain_encode_info hg'⟩⟩

theorem plain_encode_unit {c : CompilationUnit} (h : (encode_compilation_unit c).length < 2 ^ 64) :
    PlainUnit (encode_compilation_unit c) := by
  have hlen : ∀ g ∈ c.fields, g.2.length < 2 ^ 64 := fun g hg =>
    lt_of_le_of_lt (Fields.length_le_bytes hg) (CompilationUnit.fields_bytes c ▸ h)
  refine ⟨_, CompilationUnit.fieldsOf_encode h, ?_, ?_⟩
  · simp [CompilationUnit.fields, optPayload_length]
  · intro f hf
    obtain ⟨g, hg, rfl⟩ := List.mem_map.mp hf
    have hg' := hlen g hg
    simp only [CompilationUnit.fields, List.mem_append, mem_optField, List.mem_map] at hg
    rcases hg with ⟨hne, rfl⟩ | ⟨fi, -, rfl⟩ | ⟨a, -, rfl⟩ | ⟨s, -, rfl⟩ | ⟨hne, rfl⟩ | ⟨hne, rfl⟩ | ⟨hne, rfl⟩
    · exact .inl ⟨rfl, hne, plain_encode_vname hg'⟩
    · exact .inr (.inl ⟨rfl, plain_encode_input hg'⟩)
    · exact .inr (.inr (.inl rfl))
    · exact .inr (.inr (.inr (.inl ⟨rfl, isUtf8_as_bytes _⟩)))
    all_goals exact .inr (.inr (.inr (.inr ⟨by simp, hne, isUtf8_as_bytes _⟩)))

/-! ## A message with the fields of a plain one is plain -/

section Same
variable {R : UInt32 → Bytes → Bytes → Prop} {on : UInt32 → Prop} {a b : Bytes} {fb : List (UInt32 × Bytes)}

theorem SameFields.fields (hrefl : ∀ n x, R n x x) (hb : fieldsOf b = .ok fb) (h : SameFields R on a b) :
    ∃ fa, fieldsOf a = .ok fa ∧ ∀ n, on n → List.Forall₂ (R n) (payloads n fa) (payloads n fb) := by
  rcases h with rfl | ⟨fa, fb', ha, hb', hR⟩
  · exact ⟨fb, hb, fun n _ => List.forall₂_same.mpr fun x _ => hrefl n x⟩
  · cases hb.symm.trans hb'
    exact ⟨fa, ha, hR⟩

theorem SameFields.nil_iff (h : SameFields R (fun _ => True) a b) : a = [] ↔ b = [] := by
  rcases h with rfl | ⟨fa, fb, ha, hb, hR⟩
  · rfl
  · have hnil : fa = [] ↔ fb = [] := by
      constructor
      · rintro rfl
        exact eq_nil_of_payloads fun n => List.forall₂_nil_left_iff.mp (hR n trivial)
      · rintro rfl
        exact eq_nil_of_payloads fun n => List.forall₂_nil_right_iff.mp (hR n trivial)
    constructor
    · rintro rfl
      cases fieldsOf_nil.symm.trans ha
      exact eq_nil_of_fieldsOf (hnil.mp rfl ▸ hb)
    · rintro rfl
      cases fieldsOf_nil.symm.trans hb
      exact eq_nil_of_fieldsOf (hnil.mpr rfl ▸ ha)

end Same

theorem SameText.refl (x : Bytes) : SameText x x := .inl rfl

theorem SameFileInputField.refl (n : UInt32) (x : Bytes) : SameFileInputField n x x := by
  unfold SameFileInputField
  split
  · exact .refl x
  · rfl

theorem SameFileInput.refl (x : Bytes) : SameFileInput x x := .inl rfl

theorem SameUnit.refl (x : Bytes) : SameUnit x x := .inl rfl

theorem PlainText.of_same {reads : List UInt32} {a b : Bytes} (h : SameText a b) (hb : PlainText reads b) :
    PlainText reads a := by
  obtain ⟨fb, hfb, hone, hplain⟩ := hb
  obtain ⟨fa, hfa, hsame⟩ := SameFields.fields (fun _ _ => rfl) hfb h
  have heq : ∀ n, payloads n fa = payloads n fb := fun n => List.forall₂_eq_eq_eq ▸ hsame n trivial
  refine ⟨fa, hfa, fun n => heq n ▸ hone n, fun f hf => ?_⟩
  have hmem : f.2 ∈ payloads f.1 fb := heq f.1 ▸ mem_payloads.mpr hf
  exact hplain f (mem_payloads.mp hmem)

theorem PlainInput.of_same {a b : Bytes} (h : SameFileInput a b) (hb : PlainInput b) : PlainInput a := by
  obtain ⟨fb, hfb, hone, hplain⟩ := hb
  obtain ⟨fa, hfa, hsame⟩ := SameFields.fields SameFileInputField.refl hfb h
  refine ⟨fa, hfa, fun n => (hsame n trivial).length_eq ▸ hone n, fun f hf => ?_⟩
  obtain ⟨y, hy, hR⟩ := forall₂_of_mem (hsame f.1 trivial) (mem_payloads.mpr hf)
  obtain ⟨hne, hcase⟩ := hplain (f.1, y) (mem_payloads.mp hy)
  have htext : SameText f.2 y := by
    rw [SameFileInputField, if_pos (hcase.imp And.left And.left)] at hR
    exact hR
  refine ⟨fun hnil => hne (htext.nil_iff.mp hnil), ?_⟩
  rcases hcase with ⟨h1, hv⟩ | ⟨h2, hi⟩
  · exact .inl ⟨h1, hv.of_same htext⟩
  · exact .inr ⟨h2, hi.of_same htext⟩

theorem SameUnitField.refl (n : UInt32) (x : Bytes) : SameUnitField n x x := by
  unfold SameUnitField
  split
  · exact .refl x
  · split
    · exact .refl x
    · rfl

theorem PlainUnitField.of_same {n : UInt32} {x y : Bytes} (h : SameUnitField n x y) (hy : PlainUnitField (n, y)) :
    PlainUnitField (n, x) := by
  rcases hy with ⟨rfl, hne, hv⟩ | ⟨rfl, hi⟩ | h5 | ⟨rfl, hu⟩ | ⟨hn, hne, hu⟩
  · have htext : SameText x y := h
    exact .inl ⟨rfl, fun hnil => hne (htext.nil_iff.mp hnil), hv.of_same htext⟩
  · have hinput : SameFileInput x y := h
    exact .inr (.inl ⟨rfl, hi.of_same hinput⟩)
  · exact .inr (.inr (.inl h5))
  · have heq : x = y := h
    exact heq ▸ .inr (.inr (.inr (.inl ⟨rfl, hu⟩)))
  · have heq : x = y := by
      simp only [List.mem_cons, List.not_mem_nil, or_false] at hn
      rcases hn with rfl | rfl | rfl <;> exact h
    exact heq ▸ .inr (.inr (.inr (.inr ⟨hn, hne, hu⟩)))

theorem PlainUnit.of_same {a b : Bytes} (h : SameUnit a b) (hb : PlainUnit b) : PlainUnit a := by
  obtain ⟨fb, hfb, hone, hplain⟩ := hb
  obtain ⟨fa, hfa, hsame⟩ := SameFields.fields SameUnitField.refl hfb h
  refine ⟨fa, hfa, fun n hn => ?_, fun f hf => ?_⟩
  · have h5 : n ≠ 5 := by
      rintro rfl
      exact absurd hn (by decide)
    exact (hsame n h5).length_eq ▸ hone n hn
  · by_cases h5 : f.1 = 5
    · exact .inr (.inr (.inl h5))
    · obtain ⟨y, hy, hR⟩ := forall₂_of_mem (hsame f.1 h5) (mem_payloads.mpr hf)
      exact PlainUnitField.of_same hR (hplain (f.1, y) (mem_payloads.mp hy))

/-! ## Encoding a plain message anew keeps its fields -/

theorem VName.set_texts {out out' : VName} {m : UInt32} {slice : Bytes} (h : VName.set out (m, 2) slice = .ok out') :
    SetsText 1 m slice out.signature out'.signature ∧ SetsText 2 m slice out.corpus out'.corpus ∧
      SetsText 3 m slice out.root out'.root ∧ SetsText 4 m slice out.path out'.path ∧
        SetsText 5 m slice out.language out'.language := by
  simp only [VName.set, Except.ok.injEq] at h
  split at h <;> subst h <;> simp_all [SetsText, Sets]

theorem FileInfo.set_texts {out out' : FileInfo} {m : UInt32} {slice : Bytes}
    (h : FileInfo.set out (m, 2) slice = .ok out') :
    SetsText 1 m slice out.path out'.path ∧ SetsText 2 m slice out.digest out'.digest := by
  simp only [FileInfo.set, Except.ok.injEq] at h
  split at h <;> subst h <;> simp_all [SetsText, Sets]

theorem payloads_text {M : Type} {set : M → UInt32 × UInt8 → Bytes → Except DecodeError M} {n : UInt32}
    (get : M → String)
    (hset : ∀ out m s out', set out (m, 2) s = .ok out' → SetsText n m s (get out) (get out'))
    {fs : List (UInt32 × Bytes)} {out v : M} (h : applyFields set fs out = .ok v) (hout : get out = "")
    (hone : (payloads n fs).length ≤ 1) (hplain : ∀ x ∈ payloads n fs, x ≠ [] ∧ IsUtf8 x) :
    payloads n fs = optPayload (as_bytes (get v)) := by
  rcases applyFields_one get hset h hone with ⟨hnil, hget⟩ | ⟨x, hx, hdec⟩
  · rw [hnil, hget, hout]
    rfl
  · obtain ⟨hne, hutf⟩ := hplain x (hx ▸ List.mem_singleton_self x)
    rw [hx, ← Except.ok.inj hdec, as_bytes_lossy hutf, optPayload, if_neg hne]

theorem payloads_eq_nil {n : UInt32} {fs : List (UInt32 × Bytes)} (h : ∀ f ∈ fs, f.1 ≠ n) : payloads n fs = [] := by
  rw [List.eq_nil_iff_forall_not_mem]
  intro x hx
  exact h _ (mem_payloads.mp hx) rfl

theorem same_encode_vname {a : Bytes} {v : VName} (hparse : parse_vname a = .ok v) (hplain : PlainVName a)
    (hlen : (encode_vname v).length < 2 ^ 64) : SameText a (encode_vname v) := by
  obtain ⟨fs, hfs, happ⟩ := fieldsOf_of_parse hparse
  obtain ⟨fs', hfs', hone, hall⟩ := hplain
  cases hfs.symm.trans hfs'
  have htext : ∀ n, ∀ x ∈ payloads n fs, x ≠ [] ∧ IsUtf8 x := fun n x hx => (hall _ (mem_payloads.mp hx)).2
  have h1 := payloads_text VName.signature (fun _ _ _ _ h => (VName.set_texts h).1) happ rfl (hone 1) (htext 1)
  have h2 := payloads_text VName.corpus (fun _ _ _ _ h => (VName.set_texts h).2.1) happ rfl (hone 2) (htext 2)
  have h3 := payloads_text VName.root (fun _ _ _ _ h => (VName.set_texts h).2.2.1) happ rfl (hone 3) (htext 3)
  have h4 := payloads_text VName.path (fun _ _ _ _ h => (VName.set_texts h).2.2.2.1) happ rfl (hone 4) (htext 4)
  have h5 := payloads_text VName.language (fun _ _ _ _ h => (VName.set_texts h).2.2.2.2) happ rfl (hone 5)
    (htext 5)
  refine .inr ⟨fs, v.fields.found, hfs, VName.fieldsOf_encode hlen, fun n _ => ?_⟩
  rw [List.forall₂_eq_eq_eq]
  by_cases hn : n ∈ ([1, 2, 3, 4, 5] : List UInt32)
  · simp only [List.mem_cons, List.not_mem_nil, or_false] at hn
    rcases hn with rfl | rfl | rfl | rfl | rfl <;> simp [VName.fields, *]
  · have hnil : payloads n fs = [] := payloads_eq_nil fun f hf heq => hn (heq ▸ (hall f hf).1)
    simp only [List.mem_cons, List.not_mem_nil, or_false, not_or] at hn
    simp [hnil, VName.fields, hn, eq_comm]

theorem same_encode_info {a : Bytes} {fi : FileInfo} (hparse : parse_file_info a = .ok fi) (hplain : PlainInfo a)
    (hlen : (encode_file_info fi).length < 2 ^ 64) : SameText a (encode_file_info fi) := by
  obtain ⟨fs, hfs, happ⟩ := fieldsOf_of_parse hparse
  obtain ⟨fs', hfs', hone, hall⟩ := hplain
  cases hfs.symm.trans hfs'
  have htext : ∀ n, ∀ x ∈ payloads n fs, x ≠ [] ∧ IsUtf8 x := fun n x hx => (hall _ (mem_payloads.mp hx)).2
  have h1 := payloads_text FileInfo.path (fun _ _ _ _ h => (FileInfo.set_texts h).1) happ rfl (hone 1) (htext 1)
  have h2 := payloads_text FileInfo.digest (fun _ _ _ _ h => (FileInfo.set_texts h).2) happ rfl (hone 2)
    (htext 2)
  refine .inr ⟨fs, fi.fields.found, hfs, FileInfo.fieldsOf_encode hlen, fun n _ => ?_⟩
  rw [List.forall₂_eq_eq_eq]
  by_cases hn : n ∈ ([1, 2] : List UInt32)
  · simp only [List.mem_cons, List.not_mem_nil, or_false] at hn
    rcases hn with rfl | rfl <;> simp [FileInfo.fields, *]
  · have hnil : payloads n fs = [] := payloads_eq_nil fun f hf heq => hn (heq ▸ (hall f hf).1)
    simp only [List.mem_cons, List.not_mem_nil, or_false, not_or] at hn
    simp [hnil, FileInfo.fields, hn, eq_comm]

theorem bind_eq_ok {α β : Type} {x : Except DecodeError α} {f : α → Except DecodeError β} {b : β}
    (h : x >>= f = .ok b) : ∃ a, x = .ok a ∧ f a = .ok b := by
  cases x with
  | error e => cases h
  | ok a => exact ⟨a, rfl, h⟩

theorem FileInput.set_parts {out out' : FileInput} {m : UInt32} {slice : Bytes}
    (h : FileInput.set out (m, 2) slice = .ok out') :
    Sets parse_vname 1 m slice out.v_name out'.v_name ∧ Sets parse_file_info 2 m slice out.info out'.info := by
  unfold FileInput.set at h
  split at h
  · obtain ⟨v, hv, h⟩ := bind_eq_ok h
    cases h
    simp_all [Sets]
  · obtain ⟨i, hi, h⟩ := bind_eq_ok h
    cases h
    simp_all [Sets]
  · cases h
    simp_all [Sets]

theorem payloads_message {M α : Type} {set : M → UInt32 × UInt8 → Bytes → Except DecodeError M} {n : UInt32}
    {dec : Bytes → Except DecodeError α} (get : M → α) (enc : α → Bytes)
    (hset : ∀ out m s out', set out (m, 2) s = .ok out' → Sets dec n m s (get out) (get out'))
    {fs : List (UInt32 × Bytes)} {out v : M} (h : applyFields set fs out = .ok v) (hout : enc (get out) = [])
    (hone : (payloads n fs).length ≤ 1)
    (hsame : ∀ x ∈ payloads n fs, x ≠ [] ∧ (dec x = .ok (get v) → SameText x (enc (get v)))) :
    List.Forall₂ SameText (payloads n fs) (optPayload (enc (get v))) := by
  rcases applyFields_one get hset h hone with ⟨hnil, hget⟩ | ⟨x, hx, hdec⟩
  · rw [hnil, hget, hout]
    exact .nil
  · obtain ⟨hne, htext⟩ := hsame x (hx ▸ List.mem_singleton_self x)
    have henc : enc (get v) ≠ [] := fun hnil => hne ((htext hdec).nil_iff.mpr hnil)
    rw [hx, optPayload, if_neg henc]
    exact .cons (htext hdec) .nil

theorem same_encode_input {a : Bytes} {fi : FileInput} (hparse : parse_file_input a = .ok fi) (hplain : PlainInput a)
    (hlen : (encode_file_input fi).length < 2 ^ 64) : SameFileInput a (encode_file_input fi) := by
  obtain ⟨fs, hfs, happ⟩ := fieldsOf_of_parse hparse
  obtain ⟨fs', hfs', hone, hall⟩ := hplain
  cases hfs.symm.trans hfs'
  have hv : (encode_vname fi.v_name).length < 2 ^ 64 :=
    lt_of_le_of_lt (optField_length_le fun g hg => List.mem_append_left _ hg) (FileInput.fields_bytes fi ▸ hlen)
  have hi : (encode_file_info fi.info).length < 2 ^ 64 :=
    lt_of_le_of_lt (optField_length_le fun g hg => List.mem_append_right _ hg) (FileInput.fields_bytes fi ▸ hlen)
  have h1 := payloads_message FileInput.v_name encode_vname (fun _ _ _ _ h => (FileInput.set_parts h).1)
    happ rfl (hone 1) fun x hx => by
      obtain ⟨hne, ⟨-, hplain⟩ | ⟨h2, -⟩⟩ := hall _ (mem_payloads.mp hx)
      · exact ⟨hne, fun hdec => same_encode_vname hdec hplain hv⟩
      · exact absurd h2 (show ¬(1 : UInt32) = 2 by decide)
  have h2 := payloads_message FileInput.info encode_file_info (fun _ _ _ _ h => (FileInput.set_parts h).2)
    happ rfl (hone 2) fun x hx => by
      obtain ⟨hne, ⟨h1, -⟩ | ⟨-, hplain⟩⟩ := hall _ (mem_payloads.mp hx)
      · exact absurd h1 (show ¬(2 : UInt32) = 1 by decide)
      · exact ⟨hne, fun hdec => same_encode_info hdec hplain hi⟩
  refine .inr ⟨fs, fi.fields.found, hfs, FileInput.fieldsOf_encode hlen, fun n _ => ?_⟩
  by_cases hn : n = 1 ∨ n = 2
  · rw [SameFileInputField, if_pos hn]
    rcases hn with rfl | rfl
    · simpa [FileInput.fields] using h1
    · simpa [FileInput.fields] using h2
  · have hnil : payloads n fs = [] :=
      payloads_eq_nil fun f hf heq => hn (heq ▸ (hall f hf).2.imp And.left And.left)
    rw [SameFileInputField, if_neg hn, List.forall₂_eq_eq_eq]
    simp only [not_or] at hn
    simp [hnil, FileInput.fields, hn, eq_comm]

theorem CompilationUnit.set_parts {out out' : CompilationUnit} {m : UInt32} {slice : Bytes}
    (h : CompilationUnit.set out (m, 2) slice = .ok out') :
    Sets parse_vname 1 m slice out.v_name out'.v_name ∧
      Adds parse_file_input 3 m slice out.required_input out'.required_input ∧
        Adds (fun s => .ok (from_utf8_lossy s)) 6 m slice out.source_file out'.source_file ∧
          SetsText 7 m slice out.output_key out'.output_key ∧
            SetsText 8 m slice out.working_directory out'.working_directory ∧
              SetsText 9 m slice out.entry_context out'.entry_context := by
  unfold CompilationUnit.set at h
  split at h
  · obtain ⟨v, hv, h⟩ := bind_eq_ok h
    cases h
    simp_all [Sets, SetsText, Adds]
  · obtain ⟨i, hi, h⟩ := bind_eq_ok h
    cases h
    simp_all [Sets, SetsText, Adds]
  all_goals
    cases h
    simp_all [Sets, SetsText, Adds]

/-- The payloads of a plain unit are those that its parts are encoded as. -/
structure PlainPayloads (fs : List (UInt32 × Bytes)) (c : CompilationUnit) : Prop where
  v_name : List.Forall₂ SameText (payloads 1 fs) (optPayload (encode_vname c.v_name))
  required_input : List.Forall₂ SameFileInput (payloads 3 fs) (c.required_input.map encode_file_input)
  source_file : payloads 6 fs = c.source_file.map as_bytes
  output_key : payloads 7 fs = optPayload (as_bytes c.output_key)
  working_directory : payloads 8 fs = optPayload (as_bytes c.working_directory)
  entry_context : payloads 9 fs = optPayload (as_bytes c.entry_context)
  rest : ∀ n, n ≠ 5 → n ∉ ([1, 3, 6, 7, 8, 9] : List UInt32) → payloads n fs = []

theorem plainPayloads {a : Bytes} {c : CompilationUnit} {fs : List (UInt32 × Bytes)}
    (hparse : parse_compilation_unit a = .ok c) (hfs : fieldsOf a = .ok fs) (hplain : PlainUnit a)
    (hv : (encode_vname c.v_name).length < 2 ^ 64)
    (hin : ∀ fi ∈ c.required_input, (encode_file_input fi).length < 2 ^ 64) : PlainPayloads fs c := by
  obtain ⟨fs', hfs', happ⟩ := fieldsOf_of_parse hparse
  cases hfs.symm.trans hfs'
  obtain ⟨fs', hfs', hone, hall⟩ := hplain
  cases hfs.symm.trans hfs'
  have hfield : ∀ {n x}, x ∈ payloads n fs → PlainUnitField (n, x) := fun hx => hall _ (mem_payloads.mp hx)
  have htext : ∀ n ∈ ([7, 8, 9] : List UInt32), ∀ x ∈ payloads n fs, x ≠ [] ∧ IsUtf8 x := by
    intro n hn x hx
    simp only [List.mem_cons, List.not_mem_nil, or_false] at hn
    rcases hn with rfl | rfl | rfl <;> simpa [PlainUnitField] using hfield hx
  constructor
  · exact payloads_message CompilationUnit.v_name encode_vname
      (fun _ _ _ _ h => (CompilationUnit.set_parts h).1) happ rfl (hone 1 (by decide)) fun x hx => by
        have hx : x ≠ [] ∧ PlainVName x := by simpa [PlainUnitField] using hfield hx
        exact ⟨hx.1, fun hdec => same_encode_vname hdec hx.2 hv⟩
  · obtain ⟨as, has, hdec⟩ := applyFields_all CompilationUnit.required_input
      (fun _ _ _ _ h => (CompilationUnit.set_parts h).2.1) happ
    rw [List.forall₂_map_right_iff, has]
    refine forall₂_imp_of_mem hdec fun x hx fi hfi hparse => ?_
    have hplain : PlainInput x := by simpa [PlainUnitField] using hfield hx
    exact same_encode_input hparse hplain (hin fi (has ▸ hfi))
  · obtain ⟨as, has, hdec⟩ := applyFields_all CompilationUnit.source_file
      (fun _ _ _ _ h => (CompilationUnit.set_parts h).2.2.1) happ
    rw [← List.forall₂_eq_eq_eq, List.forall₂_map_right_iff, has]
    refine forall₂_imp_of_mem hdec fun x hx s _ hs => ?_
    have hutf : IsUtf8 x := by simpa [PlainUnitField] using hfield hx
    rw [← Except.ok.inj hs, as_bytes_lossy hutf]
  · exact payloads_text CompilationUnit.output_key
      (fun _ _ _ _ h => (CompilationUnit.set_parts h).2.2.2.1) happ rfl (hone 7 (by decide)) (htext 7 (by decide))
  · exact payloads_text CompilationUnit.working_directory
      (fun _ _ _ _ h => (CompilationUnit.set_parts h).2.2.2.2.1) happ rfl (hone 8 (by decide)) (htext 8 (by decide))
  · exact payloads_text CompilationUnit.entry_context
      (fun _ _ _ _ h => (CompilationUnit.set_parts h).2.2.2.2.2) happ rfl (hone 9 (by decide)) (htext 9 (by decide))
  · intro n h5 hn
    simp only [List.mem_cons, List.not_mem_nil, or_false, not_or] at hn
    refine payloads_eq_nil fun f hf heq => ?_
    have := hall f hf
    simp only [PlainUnitField, heq] at this
    simp_all

theorem encode_parts_lt {c : CompilationUnit} (h : (encode_compilation_unit c).length < 2 ^ 64) :
    (encode_vname c.v_name).length < 2 ^ 64 ∧ ∀ fi ∈ c.required_input, (encode_file_input fi).length < 2 ^ 64 := by
  have hbytes := CompilationUnit.fields_bytes c
  refine ⟨lt_of_le_of_lt (optField_length_le fun g hg => List.mem_append_left _ hg) (hbytes ▸ h), fun fi hfi => ?_⟩
  refine lt_of_le_of_lt (Fields.length_le_bytes (f := (3, encode_file_input fi)) ?_) (hbytes ▸ h)
  exact List.mem_append_right _ (List.mem_append_left _ (List.mem_map_of_mem hfi))

/-- A unit that is encoded with the same parts has the same payloads. -/
theorem PlainPayloads.encoded {fs : List (UInt32 × Bytes)} {c : CompilationUnit} (h : PlainPayloads fs c)
    (n : UInt32) (h5 : n ≠ 5) (args : List String) :
    List.Forall₂ (SameUnitField n) (payloads n fs)
      (payloads n (CompilationUnit.fields { c with argument := args }).found) := by
  by_cases hn : n ∈ ([1, 3, 6, 7, 8, 9] : List UInt32)
  · simp only [List.mem_cons, List.not_mem_nil, or_false] at hn
    rcases hn with rfl | rfl | rfl | rfl | rfl | rfl
    · simpa [SameUnitField, CompilationUnit.fields] using h.v_name
    · simpa [SameUnitField, CompilationUnit.fields] using h.required_input
    · simp [SameUnitField, CompilationUnit.fields, h.source_file]
    · simp [SameUnitField, CompilationUnit.fields, h.output_key]
    · simp [SameUnitField, CompilationUnit.fields, h.working_directory]
    · simp [SameUnitField, CompilationUnit.fields, h.entry_context]
  · have hnil := h.rest n h5 hn
    simp only [List.mem_cons, List.not_mem_nil, or_false, not_or] at hn
    simp [hnil, CompilationUnit.fields, hn, h5, eq_comm]

theorem same_encode_unit {a : Bytes} {c : CompilationUnit} (hparse : parse_compilation_unit a = .ok c)
    (hplain : PlainUnit a) (args : List String)
    (hlen : (encode_compilation_unit { c with argument := args }).length < 2 ^ 64) :
    SameUnit a (encode_compilation_unit { c with argument := args }) := by
  obtain ⟨fs, hfs, -⟩ := fieldsOf_of_parse hparse
  obtain ⟨hv, hin⟩ := encode_parts_lt hlen
  have hparts := plainPayloads hparse hfs hplain hv hin
  exact .inr ⟨fs, _, hfs, CompilationUnit.fieldsOf_encode hlen, fun n h5 => hparts.encoded n h5 args⟩

theorem fieldsOf_encode_indexed {c : IndexedCompilation} (h : (encode_indexed_compilation c).length < 2 ^ 64) :
    fieldsOf (encode_indexed_compilation c) = .ok [(1, encode_compilation_unit c.unit)] := by
  have hbytes : Fields.bytes [(1, encode_compilation_unit c.unit)] = encode_indexed_compilation c :=
    List.flatMap_singleton ..
  rw [← hbytes] at h ⊢
  exact fieldsOf_bytes (by simp) h

theorem eq_singleton_of_payloads {fs : List (UInt32 × Bytes)} {u : Bytes} (h1 : payloads 1 fs = [u])
    (hnil : ∀ n, n ≠ 1 → payloads n fs = []) : fs = [(1, u)] := by
  have hall : ∀ f ∈ fs, f.1 = 1 := by
    intro f hf
    by_contra hne
    have hmem := mem_payloads.mpr (show (f.1, f.2) ∈ fs from hf)
    rw [hnil f.1 hne] at hmem
    cases hmem
  have hfilter : fs.filter (fun f => decide (f.1 = 1)) = fs :=
    List.filter_eq_self.mpr fun f hf => decide_eq_true (hall f hf)
  rw [payloads, hfilter] at h1
  obtain ⟨f, rfl, rfl⟩ := List.map_eq_singleton_iff.mp h1
  rw [← hall f (List.mem_singleton_self f)]

/-- A message with the fields of one that holds a single unit holds a single unit. -/
theorem single_unit_of_same {R : Bytes → Bytes → Prop} (hrefl : ∀ x, R x x) {p q u : Bytes}
    (hq : fieldsOf q = .ok [(1, u)]) (h : SameFields (fun n => if n = 1 then R else Eq) (fun _ => True) p q) :
    ∃ u', fieldsOf p = .ok [(1, u')] ∧ R u' u := by
  have hfields : ∀ (n : UInt32) x, (if n = 1 then R else Eq) x x := by
    intro n x
    split
    · exact hrefl x
    · rfl
  obtain ⟨fs, hfs, hsame⟩ := SameFields.fields hfields hq h
  obtain ⟨u', us, hu, hus, heq⟩ := List.forall₂_cons_right_iff.mp (hsame 1 trivial)
  obtain rfl := List.forall₂_nil_right_iff.mp hus
  have hnil : ∀ n, n ≠ 1 → payloads n fs = [] := by
    intro n hn
    have := hsame n trivial
    rw [payloads_cons, if_neg (Ne.symm hn)] at this
    exact List.forall₂_nil_right_iff.mp this
  exact ⟨u', eq_singleton_of_payloads heq hnil ▸ hfs, hu⟩

/-- Encoding a unit anew, with other arguments, keeps the fields of a plain one only. -/
theorem reencode_keeps_iff {raw : Bytes} {c : IndexedCompilation} (hparse : parse_indexed_compilation raw = .ok c)
    (args : List String)
    (hlen : (encode_indexed_compilation ⟨{ c.unit with argument := args }⟩).length < 2 ^ 64) :
    SameExceptArgs raw (encode_indexed_compilation ⟨{ c.unit with argument := args }⟩) ↔ PlainRaw raw := by
  have hfields := fieldsOf_encode_indexed hlen
  have hunit : (encode_compilation_unit { c.unit with argument := args }).length < 2 ^ 64 :=
    lt_of_le_of_lt (unit_length_le ⟨{ c.unit with argument := args }⟩) hlen
  constructor
  · intro h
    obtain ⟨u, hfs, hu⟩ := single_unit_of_same SameUnit.refl hfields h
    exact ⟨u, hfs, (plain_encode_unit hunit).of_same hu⟩
  · rintro ⟨u, hfs, hplain⟩
    obtain ⟨fs, hfs', happ⟩ := fieldsOf_of_parse hparse
    cases hfs.symm.trans hfs'
    obtain ⟨out, hset, happ⟩ := applyFields_cons happ
    cases happ
    obtain ⟨cu, hcu, hc⟩ := bind_eq_ok hset
    cases hc
    refine .inr ⟨_, _, hfs, hfields, fun n _ => ?_⟩
    by_cases hn : n = 1
    · subst hn
      exact .cons (same_encode_unit hcu hplain args hunit) .nil
    · rw [payloads_cons, payloads_cons, if_neg (Ne.symm hn), if_neg (Ne.symm hn)]
      exact .nil

/-! ## When the fields are kept -/

theorem pbunit_idx_extract {zin : Archive} {unit : ArchiveUnit} (hsha : unit.sha ≠ "" ∧ '/' ∉ unit.sha.toList)
    (transform : CompilationUnit → CompilationUnit) :
    pbunit_idx (extract_with zin unit transform).1 = [(unit.sha, pbunitFor unit transform)] := by
  rw [extract_with, pbunit_idx_append, pbunit_idx_append, pbunit_idx_directories, pbunit_idx_files, List.append_nil,
    List.nil_append, pbunit_idx]
  simp [strip_prefix_append hsha.1 hsha.2]

/-- A transform of the arguments leaves the other fields of a pbunit as they are exactly if it changes
nothing, or if the pbunit has no fields that the model does not have. -/
theorem extract_keeps_fields_iff (zin : Archive) (entry : String × Bytes) (hentry : entry ∈ pbunit_idx zin)
    (unit : ArchiveUnit) (hunit : decodeProto entry = .ok unit) (transform : CompilationUnit → CompilationUnit)
    (hargs : ∀ c, transform c = { c with argument := (transform c).argument })
    (hfit : (encode_indexed_compilation ⟨transform unit.cu.unit⟩).length ≤ isizeMax) :
    (∃ pb, pbunit_idx (extract_with zin unit transform).1 = [(entry.1, pb)] ∧ SameExceptArgs entry.2 pb) ↔
      transform unit.cu.unit = unit.cu.unit ∨ PlainRaw entry.2 := by
  have hmax : isizeMax < 2 ^ 64 := by decide
  have hsha := decodeProto_sha hunit
  obtain ⟨hraw, hparse⟩ := decodeProto_raw hunit
  have hidx : pbunit_idx (extract_with zin unit transform).1 = [(entry.1, pbunitFor unit transform)] := by
    rw [pbunit_idx_extract (hsha ▸ pbunit_sha_spec hentry), hsha]
  have hpb : (∃ pb, pbunit_idx (extract_with zin unit transform).1 = [(entry.1, pb)] ∧ SameExceptArgs entry.2 pb) ↔
      SameExceptArgs entry.2 (pbunitFor unit transform) := by
    rw [hidx]
    constructor
    · rintro ⟨pb, heq, hsame⟩
      cases heq
      exact hsame
    · intro hsame
      exact ⟨_, rfl, hsame⟩
  rw [hpb]
  by_cases hid : transform unit.cu.unit = unit.cu.unit
  · have hcopy : pbunitFor unit transform = entry.2 := by
      simp only [pbunitFor, hid, decide_true, hraw]
    simp only [hid, true_or, iff_true, hcopy]
    exact .inl rfl
  · have hanew : pbunitFor unit transform =
        encode_indexed_compilation ⟨{ unit.cu.unit with argument := (transform unit.cu.unit).argument }⟩ := by
      rw [← hargs]
      simp only [pbunitFor, hid, decide_false]
    rw [hargs] at hfit
    simp only [hid, false_or, hanew]
    exact reencode_keeps_iff hparse _ (lt_of_le_of_lt hfit hmax)

/-! The transform of `from-kzip`, with one flag to inject. -/

def injectFlag : CompilationUnit → CompilationUnit := transform [⟨"", "-v"⟩]

theorem injectFlag_args (c : CompilationUnit) : injectFlag c = { c with argument := (injectFlag c).argument } := rfl

def plainUnit : IndexedCompilation := ⟨{ argument := ["-c"] }⟩

def plainKzip : Archive := [⟨"root/pbunits/p", encode_indexed_compilation plainUnit⟩]

theorem extract_keeps_fields_iff_plainKzip :
    ∃ pb, pbunit_idx (extract_with plainKzip
        ⟨"p", plainUnit, some (encode_indexed_compilation plainUnit)⟩ injectFlag).1 = [("p", pb)] ∧
      SameExceptArgs (encode_indexed_compilation plainUnit) pb := by
  have hlen : (encode_indexed_compilation plainUnit).length < 2 ^ 64 := by decide +kernel
  have hentry : ("p", encode_indexed_compilation plainUnit) ∈ pbunit_idx plainKzip := by decide +kernel
  have hdec : decodeProto ("p", encode_indexed_compilation plainUnit) =
      .ok ⟨"p", plainUnit, some (encode_indexed_compilation plainUnit)⟩ := by
    rw [decodeProto, parse_encode hlen]
  have hplain : PlainRaw (encode_indexed_compilation plainUnit) :=
    ⟨_, fieldsOf_encode_indexed hlen, plain_encode_unit (lt_of_le_of_lt (unit_length_le plainUnit) hlen)⟩
  exact (extract_keeps_fields_iff plainKzip _ hentry _ hdec injectFlag injectFlag_args (by decide +kernel)).mpr
    (.inr hplain)

/-- The fields of a unit with an entry of `details`. -/
def detailFields : Fields := [(5, as_bytes "-c"), (11, write_tag_len 1 (as_bytes "t"))]

def detailRaw : Bytes := Fields.bytes [(1, detailFields.bytes)]

theorem parse_detailRaw : parse_indexed_compilation detailRaw = .ok plainUnit := by
  have hunit : parse_compilation_unit detailFields.bytes = .ok plainUnit.unit := by
    rw [parse_compilation_unit, parse_message (by decide) (by decide +kernel) rfl]
    simp [detailFields, Fields.apply, CompilationUnit.set, plainUnit, ok_bind]
  rw [parse_indexed_compilation, detailRaw, parse_message (by simp) (by decide +kernel) rfl]
  simp [Fields.apply, IndexedCompilation.set, hunit]

def detailKzip : Archive := [⟨"root/pbunits/p", detailRaw⟩]

/-- The details are lost when a flag is injected. -/
theorem extract_drops_details :
    ("p", detailRaw) ∈ pbunit_idx detailKzip ∧
      decodeProto ("p", detailRaw) = .ok ⟨"p", plainUnit, some detailRaw⟩ ∧
        (∀ c, injectFlag c = { c with argument := (injectFlag c).argument }) ∧
          ¬∃ pb, pbunit_idx (extract_with detailKzip ⟨"p", plainUnit, some detailRaw⟩ injectFlag).1 = [("p", pb)] ∧
            SameExceptArgs detailRaw pb := by
  refine ⟨by decide +kernel, by rw [decodeProto, parse_detailRaw], injectFlag_args, ?_⟩
  rintro ⟨pb, hpb, hsame⟩
  rw [pbunit_idx_extract (by decide)] at hpb
  cases hpb
  have hchanged : pbunitFor ⟨"p", plainUnit, some detailRaw⟩ injectFlag =
      encode_indexed_compilation ⟨{ plainUnit.unit with argument := (injectFlag plainUnit.unit).argument }⟩ := by
    decide +kernel
  rw [hchanged] at hsame
  obtain ⟨u, hu, fs, hfs, -, hfields⟩ := (reencode_keeps_iff parse_detailRaw _ (by decide +kernel)).mp hsame
  rw [detailRaw, fieldsOf_bytes (by simp) (by decide +kernel)] at hu
  cases hu
  rw [fieldsOf_bytes (by decide) (by decide +kernel)] at hfs
  cases hfs
  -- The number of `details` is none of the model's.
  have hfield := hfields (11, write_tag_len 1 (as_bytes "t")) (by simp [detailFields])
  simp [PlainUnitField] at hfield

end Scry2
