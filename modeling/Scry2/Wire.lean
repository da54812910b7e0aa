import Scry2.Proto

/-!
# Fields that the decoder does not know

A field with an unknown number is put between two fields of an encoded unit, in any of its
messages. The decoder skips it when it is length delimited, and rejects the unit otherwise.
-/

open Scry2.Lib

namespace Scry2

/-! ## The messages of a unit -/

inductive Message where
  | indexed
  | unit
  | input
  | info
  | vname

def Message.Out : Message → Type
  | .indexed => IndexedCompilation
  | .unit => CompilationUnit
  | .input => FileInput
  | .info => FileInfo
  | .vname => VName

def Message.init : (m : Message) → m.Out
  | .indexed => ({} : IndexedCompilation)
  | .unit => ({} : CompilationUnit)
  | .input => ({} : FileInput)
  | .info => ({} : FileInfo)
  | .vname => ({} : VName)

def Message.set : (m : Message) → m.Out → UInt32 × UInt8 → Bytes → Except DecodeError m.Out
  | .indexed => IndexedCompilation.set
  | .unit => CompilationUnit.set
  | .input => FileInput.set
  | .info => FileInfo.set
  | .vname => VName.set

def Message.parse (m : Message) (buf : Bytes) : Except DecodeError m.Out := parse_fields m.set buf 0 m.init

/-- The numbers that the decoder of a message reads. -/
def Message.reads : Message → List Nat
  | .indexed => [1]
  | .unit => [1, 3, 5, 6, 7, 8, 9]
  | .input => [1, 2]
  | .info => [1, 2]
  | .vname => [1, 2, 3, 4, 5]

/-- The fields that hold messages. -/
def Message.sub : Message → Nat → Option Message
  | .indexed, 1 => some .unit
  | .unit, 1 => some .vname
  | .unit, 3 => some .input
  | .input, 1 => some .vname
  | .input, 2 => some .info
  | _, _ => none

/-- The second text is the first with an unknown field between two fields of the message or of one
inside it, the lengths around it adjusted. -/
inductive Inserted (x : WireField) : Message → Bytes → Bytes → Prop
  | here {m : Message} (xs ys : Fields) (hfs : ∀ f ∈ xs ++ ys, f.1 < 2 ^ 29) (hx : x.number ∉ m.reads) :
      Inserted x m (xs ++ ys).bytes (xs.bytes ++ (x.bytes ++ ys.bytes))
  | inside {m inner : Message} (xs ys : Fields) {n : Nat} {data data' : Bytes}
      (hfs : ∀ f ∈ xs ++ ys, f.1 < 2 ^ 29) (hsub : m.sub n = some inner) (h : Inserted x inner data data') :
      Inserted x m (xs ++ (n, data) :: ys).bytes (xs ++ (n, data') :: ys).bytes

/-! ## One field -/

theorem ofNat_ne_of_lt {n k : Nat} (hn : n < 2 ^ 29) (hk : k < 2 ^ 29) (h : n ≠ k) :
    UInt32.ofNat n ≠ UInt32.ofNat k := by
  intro heq
  have htoNat := congrArg UInt32.toNat heq
  rw [UInt32.toNat_ofNat_of_lt' (by unfold UInt32.size; omega),
    UInt32.toNat_ofNat_of_lt' (by unfold UInt32.size; omega)] at htoNat
  exact h htoNat

theorem VName.set_other {tag : UInt32 × UInt8} (h : ∀ k ∈ Message.vname.reads, tag ≠ (UInt32.ofNat k, 2))
    (out : VName) (slice : Bytes) : VName.set out tag slice = .ok out := by
  unfold VName.set
  congr 1
  split <;> first | rfl | exact absurd rfl (h _ (by decide))

theorem FileInfo.set_other {tag : UInt32 × UInt8} (h : ∀ k ∈ Message.info.reads, tag ≠ (UInt32.ofNat k, 2))
    (out : FileInfo) (slice : Bytes) : FileInfo.set out tag slice = .ok out := by
  unfold FileInfo.set
  congr 1
  split <;> first | rfl | exact absurd rfl (h _ (by decide))

theorem FileInput.set_other {tag : UInt32 × UInt8} (h : ∀ k ∈ Message.input.reads, tag ≠ (UInt32.ofNat k, 2))
    (out : FileInput) (slice : Bytes) : FileInput.set out tag slice = .ok out := by
  unfold FileInput.set
  split <;> first | rfl | exact absurd rfl (h _ (by decide))

theorem CompilationUnit.set_other {tag : UInt32 × UInt8} (h : ∀ k ∈ Message.unit.reads, tag ≠ (UInt32.ofNat k, 2))
    (out : CompilationUnit) (slice : Bytes) : CompilationUnit.set out tag slice = .ok out := by
  unfold CompilationUnit.set
  split <;> first | rfl | exact absurd rfl (h _ (by decide))

theorem IndexedCompilation.set_other {tag : UInt32 × UInt8}
    (h : ∀ k ∈ Message.indexed.reads, tag ≠ (UInt32.ofNat k, 2)) (out : IndexedCompilation) (slice : Bytes) :
    IndexedCompilation.set out tag slice = .ok out := by
  unfold IndexedCompilation.set
  split <;> first | rfl | exact absurd rfl (h _ (by decide))

theorem Message.reads_lt {m : Message} {k : Nat} (h : k ∈ m.reads) : k < 2 ^ 29 := by
  cases m <;> simp [Message.reads] at h <;> omega

theorem Message.set_unknown {m : Message} {n : Nat} (hn : n < 2 ^ 29) (hx : n ∉ m.reads) (out : m.Out)
    (slice : Bytes) : m.set out (UInt32.ofNat n, 2) slice = .ok out := by
  have hne : ∀ k ∈ m.reads, ((UInt32.ofNat n, 2) : UInt32 × UInt8) ≠ (UInt32.ofNat k, 2) := by
    intro k hk heq
    exact ofNat_ne_of_lt hn (Message.reads_lt hk) (fun h => hx (h ▸ hk)) (congrArg Prod.fst heq)
  cases m with
  | indexed => exact IndexedCompilation.set_other hne out slice
  | unit => exact CompilationUnit.set_other hne out slice
  | input => exact FileInput.set_other hne out slice
  | info => exact FileInfo.set_other hne out slice
  | vname => exact VName.set_other hne out slice

theorem Message.set_sub {m inner : Message} {n : Nat} (h : m.sub n = some inner) (out : m.Out) :
    n < 2 ^ 29 ∧ ∃ put : inner.Out → m.Out, ∀ data,
      m.set out (UInt32.ofNat n, 2) data = inner.parse data >>= fun v => .ok (put v) := by
  unfold Message.sub at h
  split at h <;> cases h
  · exact ⟨by decide, fun v => { out with unit := v }, fun _ => rfl⟩
  · exact ⟨by decide, fun v => { out with v_name := v }, fun _ => rfl⟩
  · exact ⟨by decide, fun v : FileInput => { out with required_input := out.required_input ++ [v] }, fun _ => rfl⟩
  · exact ⟨by decide, fun v => { out with v_name := v }, fun _ => rfl⟩
  · exact ⟨by decide, fun v => { out with info := v }, fun _ => rfl⟩

theorem WireField.drop_bytes {x : WireField} {buf rest : Bytes} {pos : Nat} (h : buf.drop pos = x.bytes ++ rest) :
    buf.drop (pos + x.bytes.length) = rest := by
  rw [← List.drop_drop, h, List.drop_left]

theorem WireField.read_tag {x : WireField} {buf rest : Bytes} {pos : Nat} (h : buf.drop pos = x.bytes ++ rest) :
    read_varint_bytes buf pos = .ok (UInt64.ofNat (x.number * 8 + x.type.code), pos + x.tag.length) := by
  have hn := x.number_lt
  have ht := x.type.code_lt
  rw [read_varint_bytes, h, WireField.bytes, List.append_assoc, varint_read x.tag_ok x.tag_len (by omega)]

theorem WireField.pos_lt {x : WireField} {buf rest : Bytes} {pos : Nat} (h : buf.drop pos = x.bytes ++ rest) :
    pos < buf.length := by
  have hl := congrArg List.length h
  have htag := x.tag_ok.length_pos
  rw [WireField.bytes, List.length_drop, List.length_append, List.length_append] at hl
  omega

/-- Every field that is not length delimited is an error. -/
theorem read_field_header_other {x : WireField} {buf rest : Bytes} {pos : Nat} (h : buf.drop pos = x.bytes ++ rest)
    (hx : x.type ≠ .len) :
    read_field_header buf pos =
      .error (.wireType (UInt8.ofNat x.type.code) (UInt32.ofNat x.number) (pos + x.tag.length)) := by
  obtain ⟨hfield, hwire⟩ := tag_parts x.number_lt x.type.code_lt
  have hne : UInt8.ofNat x.type.code ≠ 2 := by
    cases ht : x.type <;> simp_all [WireType.code]
  unfold read_field_header
  rw [WireField.read_tag h]
  simp only [bind, Except.bind, hfield, hwire, if_pos hne]
  rfl

theorem WireField.len_payload {x : WireField} (hx : x.type = .len) :
    ∃ size data, x.payload = size ++ data ∧ Varint size data.length ∧ size.length ≤ 10 := by
  have hp := x.payload_ok
  rw [hx] at hp
  generalize x.payload = p at hp
  cases hp with
  | @len size data hsize hlen => exact ⟨size, data, rfl, hsize, hlen⟩

theorem parse_fields_len {M : Type} (set : M → UInt32 × UInt8 → Bytes → Except DecodeError M) {x : WireField}
    {buf rest : Bytes} {pos : Nat} (h : buf.drop pos = x.bytes ++ rest) (hx : x.type = .len)
    (hbuf : buf.length < 2 ^ 64) :
    ∃ data, ∀ out : M, parse_fields set buf pos out =
      set out (UInt32.ofNat x.number, 2) data >>= parse_fields set buf (pos + x.bytes.length) := by
  obtain ⟨size, data, hpay, hsize, hlen⟩ := WireField.len_payload hx
  obtain ⟨hfield, hwire⟩ := tag_field x.number_lt
  have hpos := WireField.pos_lt h
  have htag := WireField.read_tag h
  rw [hx, WireType.code] at htag
  have hend := congrArg List.length h
  have hbytes : x.bytes = x.tag ++ (size ++ data) := by rw [WireField.bytes, hpay]
  rw [hbytes, List.length_drop] at hend
  simp only [List.length_append] at hend
  rw [hbytes, List.append_assoc, List.append_assoc] at h
  have hsizeAt : buf.drop (pos + x.tag.length) = size ++ (data ++ rest) := by
    rw [← List.drop_drop, h, List.drop_left]
  have hdataAt : buf.drop (pos + x.tag.length + size.length) = data ++ rest := by
    rw [← List.drop_drop, hsizeAt, List.drop_left]
  have hdata : data.length < 2 ^ 64 := by omega
  have hheader : read_field_header buf pos = .ok ((UInt32.ofNat x.number, 2, data.length),
      pos + x.tag.length + size.length) := by
    have e2 : read_varint_bytes buf (pos + x.tag.length) =
        .ok (UInt64.ofNat data.length, pos + x.tag.length + size.length) := by
      rw [read_varint_bytes, hsizeAt, varint_read hsize hlen hdata]
    unfold read_field_header
    rw [htag]
    simp only [bind, Except.bind, hfield, hwire, e2, ne_eq, not_true_eq_false, if_false]
    rw [UInt64.toNat_ofNat_of_lt' hdata]
    rfl
  have htake : take buf (pos + x.tag.length + size.length) data.length = .ok (data, pos + x.bytes.length) := by
    unfold take
    rw [if_neg (by omega), if_neg (by omega), hdataAt, List.take_left, hbytes]
    simp only [List.length_append]
    congr 2
    omega
  exact ⟨data, parse_fields_step hpos hheader htake⟩

/-! ## The messages around it -/

theorem parse_fields_run {M : Type} {set : M → UInt32 × UInt8 → Bytes → Except DecodeError M} {fs : Fields}
    (hfs : ∀ f ∈ fs, f.1 < 2 ^ 29) {buf rest : Bytes} (hbuf : buf.length < 2 ^ 64) {pos : Nat}
    (h : buf.drop pos = fs.bytes ++ rest) (out : M) :
    parse_fields set buf pos out = fs.apply set out >>= parse_fields set buf (pos + fs.bytes.length) := by
  induction fs generalizing pos out with
  | nil => rfl
  | cons f fs ih =>
    have hcons : buf.drop pos = write_tag_len f.1 f.2 ++ (Fields.bytes fs ++ rest) := by
      rw [h, ← List.append_assoc]
      rfl
    have hlen : (Fields.bytes (f :: fs)).length = (write_tag_len f.1 f.2).length + (Fields.bytes fs).length :=
      List.length_append
    rw [parse_fields_cons hcons (hfs f List.mem_cons_self) hbuf, Fields.apply, List.foldlM_cons, bind_assoc, hlen,
      ← Nat.add_assoc]
    congr 1
    funext out
    exact ih (fun g hg => hfs g (List.mem_cons_of_mem _ hg)) (drop_field hcons) out

theorem parse_inside {m inner : Message} {n : Nat} (hsub : m.sub n = some inner) {xs ys : Fields}
    (hfs : ∀ f ∈ xs ++ ys, f.1 < 2 ^ 29) {data : Bytes} (hlen : (xs ++ (n, data) :: ys).bytes.length < 2 ^ 64) :
    m.parse (xs ++ (n, data) :: ys).bytes = xs.apply m.set m.init >>= fun out =>
      m.set out (UInt32.ofNat n, 2) data >>= ys.apply m.set := by
  have hall : ∀ f ∈ xs ++ (n, data) :: ys, f.1 < 2 ^ 29 := by
    intro f hf
    rcases List.mem_append.mp hf with hf | hf
    · exact hfs f (List.mem_append_left _ hf)
    · rcases List.mem_cons.mp hf with rfl | hf
      · exact (Message.set_sub hsub m.init).1
      · exact hfs f (List.mem_append_right _ hf)
  rw [Message.parse, parse_message hall hlen rfl, Fields.apply_append]
  rfl

theorem inner_length_lt {xs ys : Fields} {n : Nat} {data : Bytes}
    (hlen : (xs ++ (n, data) :: ys).bytes.length < 2 ^ 64) : data.length < 2 ^ 64 :=
  lt_of_le_of_lt (Fields.length_le_bytes (f := (n, data)) (List.mem_append_right _ List.mem_cons_self)) hlen

theorem parse_inserted_len {x : WireField} {m : Message} {b b' : Bytes} (h : Inserted x m b b') (hx : x.type = .len)
    (hb : b.length < 2 ^ 64) (hb' : b'.length < 2 ^ 64) : m.parse b' = m.parse b := by
  induction h with
  | @here m xs ys hfs hnum =>
    have hxs : ∀ f ∈ xs, f.1 < 2 ^ 29 := fun f hf => hfs f (List.mem_append_left _ hf)
    have hys : ∀ f ∈ ys, f.1 < 2 ^ 29 := fun f hf => hfs f (List.mem_append_right _ hf)
    rw [Message.parse, parse_fields_run hxs hb' List.drop_zero, Nat.zero_add, Message.parse,
      parse_message hfs hb rfl, Fields.apply_append]
    congr 1
    funext out
    have hat : (xs.bytes ++ (x.bytes ++ ys.bytes)).drop xs.bytes.length = x.bytes ++ ys.bytes := List.drop_left
    obtain ⟨data, hstep⟩ := parse_fields_len m.set hat hx hb'
    rw [hstep, Message.set_unknown x.number_lt hnum, ok_bind]
    exact parse_fields_bytes hys hb' (WireField.drop_bytes hat) out
  | @inside m inner xs ys n data data' hfs hsub _ ih =>
    rw [parse_inside hsub hfs hb', parse_inside hsub hfs hb]
    congr 1
    funext out
    obtain ⟨-, put, hput⟩ := Message.set_sub hsub out
    rw [hput, hput, ih (inner_length_lt hb) (inner_length_lt hb')]

theorem parse_inserted_other {x : WireField} {m : Message} {b b' : Bytes} (h : Inserted x m b b')
    (hx : x.type ≠ .len) (hb' : b'.length < 2 ^ 64) : ∃ e, m.parse b' = .error e := by
  induction h with
  | @here m xs ys hfs hnum =>
    have hxs : ∀ f ∈ xs, f.1 < 2 ^ 29 := fun f hf => hfs f (List.mem_append_left _ hf)
    have hat : (xs.bytes ++ (x.bytes ++ ys.bytes)).drop xs.bytes.length = x.bytes ++ ys.bytes := List.drop_left
    rw [Message.parse, parse_fields_run hxs hb' List.drop_zero, Nat.zero_add]
    cases xs.apply m.set m.init with
    | error e => exact ⟨e, rfl⟩
    | ok out => exact ⟨_, parse_fields_error (WireField.pos_lt hat) (read_field_header_other hat hx) out⟩
  | @inside m inner xs ys n data data' hfs hsub _ ih =>
    obtain ⟨e, he⟩ := ih (inner_length_lt hb')
    rw [parse_inside hsub hfs hb']
    cases xs.apply m.set m.init with
    | error e => exact ⟨e, rfl⟩
    | ok out =>
      obtain ⟨-, put, hput⟩ := Message.set_sub hsub out
      rw [ok_bind, hput, he]
      exact ⟨e, rfl⟩

theorem Inserted.length_le {x : WireField} {m : Message} {b b' : Bytes} (h : Inserted x m b b') :
    b.length ≤ b'.length := by
  induction h with
  | here xs ys =>
    rw [Fields.bytes_append]
    simp only [List.length_append]
    omega
  | @inside m inner xs ys n data data' _ _ _ ih =>
    have hcons : ∀ d : Bytes, Fields.bytes ((n, d) :: ys) = write_tag_len n d ++ ys.bytes := fun _ => rfl
    have hmono := varint_len_mono ih
    simp only [Fields.bytes_append, hcons, List.length_append, write_tag_len_length]
    omega

/-! ## Which unknown fields are skipped -/

/-- A unit with a field of an unknown number in one of its messages is decoded to the same unit exactly
if the field is length delimited. -/
theorem unknown_field_skipped_iff (c : IndexedCompilation) (x : WireField) (buf : Bytes)
    (h : Inserted x .indexed (encode_indexed_compilation c) buf) (hlen : buf.length ≤ isizeMax) :
    parse_indexed_compilation buf = .ok c ↔ x.type = .len := by
  have hmax : isizeMax < 2 ^ 64 := by decide
  have hle := h.length_le
  constructor
  · intro hok
    by_contra hx
    obtain ⟨e, he⟩ := parse_inserted_other h hx (by omega)
    cases hok.symm.trans he
  · intro hx
    exact (parse_inserted_len h hx (by omega) (by omega)).trans (parse_encode (by omega))

def twoArguments : IndexedCompilation := ⟨{ argument := ["-c", "-v"] }⟩

/-- The unit with a field between the two arguments. -/
def between (x : WireField) : Bytes :=
  write_tag_len 1 (write_tag_len 5 [45, 99] ++ (x.bytes ++ write_tag_len 5 [45, 118]))

theorem inserted_between {x : WireField} (hx : x.number ∉ Message.unit.reads) :
    Inserted x .indexed (encode_indexed_compilation twoArguments) (between x) := by
  have hdata : Fields.bytes ([(5, [45, 99])] ++ [(5, [45, 118])]) = encode_compilation_unit twoArguments.unit := by
    decide +kernel
  have hone : ∀ f (d : Bytes), Fields.bytes [(f, d)] = write_tag_len f d := fun _ _ => List.flatMap_singleton ..
  have h : Inserted x .indexed (Fields.bytes ([] ++ [(1, encode_compilation_unit twoArguments.unit)]))
      (Fields.bytes ([] ++ [(1, Fields.bytes [(5, [45, 99])] ++ (x.bytes ++ Fields.bytes [(5, [45, 118])]))])) :=
    .inside [] [] (by simp) rfl (hdata ▸ .here [(5, [45, 99])] [(5, [45, 118])] (by decide) hx)
  simp only [List.nil_append, hone] at h
  exact h

/-- An empty entry of `environment`. -/
def environmentEntry : WireField where
  number := 10
  type := .len
  tag := [0x52]
  payload := [0]
  number_lt := by decide
  tag_len := by decide
  tag_ok := .last 0x52 (by decide)
  payload_ok := @Payload.len [0] [] (.last 0 (by decide)) (by decide)

theorem unknown_field_skipped_iff_environment :
    Inserted environmentEntry .indexed (encode_indexed_compilation twoArguments) (between environmentEntry) ∧
      (between environmentEntry).length ≤ isizeMax ∧
        (parse_indexed_compilation (between environmentEntry) = .ok twoArguments ↔ environmentEntry.type = .len) :=
  have h := inserted_between (x := environmentEntry) (by decide)
  have hlen : (between environmentEntry).length ≤ isizeMax := by decide +kernel
  ⟨h, hlen, unknown_field_skipped_iff twoArguments environmentEntry _ h hlen⟩

theorem compileErrors_number : 4 < 2 ^ 29 := by decide

theorem compileErrors_tag : Varint [0x20] (4 * 8 + WireType.varint.code) := .last 0x20 (by decide)

theorem compileErrors_tag_len : [(0x20 : UInt8)].length ≤ 10 := by decide

theorem compileErrors_payload : Payload .varint [1] := .varint (.last 1 (by decide)) (by decide) (by decide)

/-- `has_compile_errors`, a varint. -/
def compileErrors : WireField where
  number := 4
  type := .varint
  tag := [0x20]
  payload := [1]
  number_lt := compileErrors_number
  tag_len := compileErrors_tag_len
  tag_ok := compileErrors_tag
  payload_ok := compileErrors_payload

theorem compile_errors_reject_unit :
    Inserted compileErrors .indexed (encode_indexed_compilation twoArguments) (between compileErrors) ∧
      parse_indexed_compilation (between compileErrors) ≠ .ok twoArguments := by
  have h := inserted_between (x := compileErrors) (by decide)
  refine ⟨h, ?_⟩
  obtain ⟨e, he⟩ := parse_inserted_other h (by decide) (by decide +kernel)
  intro hok
  cases hok.symm.trans he

end Scry2
