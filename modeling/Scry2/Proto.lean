import Scry2.Lib.Wire
import Scry2.Probe

/-!
# Compilation units and their protobuf codec

The messages of `kzip.rs`, the strict decoder that reads them and the encoder. Every field is
length delimited: a tag, the length of the payload, the payload.
-/

open Scry2.Lib

namespace Scry2

/-! ## The messages -/

structure VName where
  signature : String := ""
  corpus : String := ""
  root : String := ""
  path : String := ""
  language : String := ""
  deriving DecidableEq, Inhabited

structure FileInfo where
  path : String := ""
  digest : String := ""
  deriving DecidableEq, Inhabited

structure FileInput where
  v_name : VName := {}
  info : FileInfo := {}
  deriving DecidableEq, Inhabited

structure CompilationUnit where
  v_name : VName := {}
  required_input : List FileInput := []
  argument : List String := []
  source_file : List String := []
  output_key : String := ""
  working_directory : String := ""
  entry_context : String := ""
  deriving DecidableEq, Inhabited

structure IndexedCompilation where
  unit : CompilationUnit := {}
  deriving DecidableEq, Inhabited

/-- The source path a unit is filtered by. -/
def cu_primary_path (cu : CompilationUnit) : Option String :=
  match cu.source_file with
  | f :: _ => some f
  | [] =>
    let vp := if cu.v_name.path ≠ "" then some cu.v_name.path else none
    match cu.required_input with
    | ri :: _ =>
      if ri.v_name.path ≠ "" then some ri.v_name.path
      else if ri.info.path ≠ "" then some ri.info.path
      else vp
    | [] => vp

/-! ## Lossy text -/

/-- The range the byte after `b` must lie in, and how many bytes follow that one. -/
def utf8Lead (b : UInt8) : Option (UInt8 × UInt8 × Nat) :=
  if 0xc2 ≤ b ∧ b ≤ 0xdf then some (0x80, 0xbf, 0)
  else if b = 0xe0 then some (0xa0, 0xbf, 1)
  else if b = 0xed then some (0x80, 0x9f, 1)
  else if 0xe1 ≤ b ∧ b ≤ 0xef then some (0x80, 0xbf, 1)
  else if b = 0xf0 then some (0x90, 0xbf, 2)
  else if 0xf1 ≤ b ∧ b ≤ 0xf3 then some (0x80, 0xbf, 2)
  else if b = 0xf4 then some (0x80, 0x8f, 2)
  else none

/-- How many of the bytes after a lead byte continue it. -/
def utf8Run (lo hi : UInt8) : Nat → Bytes → Nat
  | n, c :: rest =>
    if lo ≤ c ∧ c ≤ hi then
      match n with
      | 0 => 1
      | n + 1 => utf8Run 0x80 0xbf n rest + 1
    else 0
  | _, [] => 0

/-- The bytes of the first character, or of the first maximal ill-formed part, and which it is. -/
def utf8Chunk (b : UInt8) (rest : Bytes) : Bool × Nat :=
  if b < 0x80 then (true, 1)
  else match utf8Lead b with
    | none => (false, 1)
    | some (lo, hi, n) => (utf8Run lo hi n rest = n + 1, utf8Run lo hi n rest + 1)

/-- Every maximal ill-formed part becomes one U+FFFD. -/
def lossyBytes : Nat → Bytes → Bytes
  | fuel + 1, b :: rest =>
    let chunk := utf8Chunk b rest
    (if chunk.1 then (b :: rest).take chunk.2 else [0xef, 0xbf, 0xbd]) ++
      lossyBytes fuel ((b :: rest).drop chunk.2)
  | _, _ => []

/-- `String::from_utf8_lossy`: valid bytes are taken as they are. -/
def from_utf8_lossy (bs : Bytes) : String :=
  match from_utf8 bs with
  | some s => s
  -- What is left is well formed, so the default is never taken.
  | none => (from_utf8 (lossyBytes bs.length bs)).getD ""

@[simp] theorem from_utf8_lossy_as_bytes (s : String) : from_utf8_lossy (as_bytes s) = s := by
  rw [from_utf8_lossy, from_utf8_as_bytes]

/-! ## The wire format -/

inductive DecodeError where
  | wireType (wire : UInt8) (field : UInt32) (pos : Nat)
  | truncatedVarint (pos : Nat)
  | varintTooLong
  | lenOverflow
  | truncatedField (pos : Nat)
  deriving DecidableEq

def DecodeError.text : DecodeError → String
  | .wireType wire field pos => s!"unexpected wire type {wire} for field {field} at byte {pos}"
  | .truncatedVarint pos => s!"truncated varint at byte {pos}"
  | .varintTooLong => "varint > 10 bytes"
  | .lenOverflow => "len overflow"
  | .truncatedField pos => s!"truncated field at byte {pos}"

/-- The loop of both varint readers: at most `fuel` more bytes, the next one at `pos`. -/
def varint_loop : Nat → UInt64 → UInt64 → Nat → Bytes → Except DecodeError (UInt64 × Nat)
  | 0, _, _, _, _ => .error .varintTooLong
  | _ + 1, _, _, pos, [] => .error (.truncatedVarint pos)
  | fuel + 1, val, shift, pos, b :: rest =>
    let val := val ||| ((b &&& 0x7f).toUInt64 <<< shift)
    if b &&& 0x80 = 0 then .ok (val, pos + 1)
    else varint_loop fuel val (shift + 7) (pos + 1) rest

def read_varint_bytes (buf : Bytes) (pos : Nat) : Except DecodeError (UInt64 × Nat) :=
  varint_loop 10 0 0 pos (buf.drop pos)

/-- `(field, wire, len)` and the position after them. -/
def read_field_header (buf : Bytes) (pos : Nat) :
    Except DecodeError ((UInt32 × UInt8 × Nat) × Nat) := do
  let (tag, pos) ← read_varint_bytes buf pos
  let field := (tag >>> 3).toUInt32
  let wire := (tag &&& 0x7).toUInt8
  if wire ≠ 2 then throw (.wireType wire field pos)
  let (len, pos) ← read_varint_bytes buf pos
  return ((field, wire, len.toNat), pos)

def take (buf : Bytes) (pos len : Nat) : Except DecodeError (Bytes × Nat) :=
  if 2 ^ 64 ≤ pos + len then .error .lenOverflow
  else if buf.length < pos + len then .error (.truncatedField pos)
  else .ok ((buf.drop pos).take len, pos + len)

theorem varint_loop_pos {fuel : Nat} {val shift v : UInt64} {pos pos' : Nat} {bs : Bytes}
    (h : varint_loop fuel val shift pos bs = .ok (v, pos')) : pos < pos' := by
  induction fuel generalizing val shift pos bs with
  | zero => cases h
  | succ fuel ih =>
    cases bs with
    | nil => cases h
    | cons b rest =>
      unfold varint_loop at h
      split at h
      · cases h
        exact Nat.lt_succ_self pos
      · exact Nat.lt_of_succ_lt (ih h)

theorem read_field_header_pos {buf : Bytes} {pos pos' : Nat} {header : UInt32 × UInt8 × Nat}
    (h : read_field_header buf pos = .ok (header, pos')) : pos < pos' := by
  unfold read_field_header at h
  cases htag : read_varint_bytes buf pos with
  | error e => simp [htag, bind, Except.bind] at h
  | ok tag =>
    have h1 := varint_loop_pos htag
    rw [htag] at h
    simp only [bind, Except.bind] at h
    split at h
    · cases h
    · cases hlen : read_varint_bytes buf tag.2 with
      | error e => simp [hlen] at h
      | ok len =>
        have h2 := varint_loop_pos hlen
        rw [hlen] at h
        cases h
        exact lt_trans h1 h2

theorem take_pos {buf slice : Bytes} {pos pos' len : Nat} (h : take buf pos len = .ok (slice, pos')) :
    pos ≤ pos' := by
  unfold take at h
  split at h
  · cases h
  · split at h
    · cases h
    · cases h
      exact Nat.le_add_right pos len

/-- The loop of every message parser, from `pos` on: `set` is its match on `(field, wire)`. -/
def parse_fields {M : Type} (set : M → UInt32 × UInt8 → Bytes → Except DecodeError M) (buf : Bytes)
    (pos : Nat) (out : M) : Except DecodeError M :=
  if pos < buf.length then
    match _hh : read_field_header buf pos with
    | .error e => .error e
    | .ok ((field, wire, len), pos₁) =>
      match _ht : take buf pos₁ len with
      | .error e => .error e
      | .ok (slice, pos₂) =>
        match set out (field, wire) slice with
        | .error e => .error e
        | .ok out => parse_fields set buf pos₂ out
  else .ok out
termination_by buf.length - pos
decreasing_by
  have h1 := read_field_header_pos _hh
  have h2 := take_pos _ht
  omega

/-! ## The decoder -/

def VName.set (out : VName) (tag : UInt32 × UInt8) (slice : Bytes) : Except DecodeError VName :=
  .ok (match tag with
    | (1, 2) => { out with signature := from_utf8_lossy slice }
    | (2, 2) => { out with corpus := from_utf8_lossy slice }
    | (3, 2) => { out with root := from_utf8_lossy slice }
    | (4, 2) => { out with path := from_utf8_lossy slice }
    | (5, 2) => { out with language := from_utf8_lossy slice }
    | _ => out)

def parse_vname (buf : Bytes) : Except DecodeError VName := parse_fields VName.set buf 0 {}

def FileInfo.set (out : FileInfo) (tag : UInt32 × UInt8) (slice : Bytes) :
    Except DecodeError FileInfo :=
  .ok (match tag with
    | (1, 2) => { out with path := from_utf8_lossy slice }
    | (2, 2) => { out with digest := from_utf8_lossy slice }
    | _ => out)

def parse_file_info (buf : Bytes) : Except DecodeError FileInfo := parse_fields FileInfo.set buf 0 {}

def FileInput.set (out : FileInput) (tag : UInt32 × UInt8) (slice : Bytes) :
    Except DecodeError FileInput :=
  match tag with
  | (1, 2) => do return { out with v_name := ← parse_vname slice }
  | (2, 2) => do return { out with info := ← parse_file_info slice }
  | _ => .ok out

def parse_file_input (buf : Bytes) : Except DecodeError FileInput := parse_fields FileInput.set buf 0 {}

def CompilationUnit.set (out : CompilationUnit) (tag : UInt32 × UInt8) (slice : Bytes) :
    Except DecodeError CompilationUnit :=
  match tag with
  | (1, 2) => do return { out with v_name := ← parse_vname slice }
  | (3, 2) => do return { out with required_input := out.required_input ++ [← parse_file_input slice] }
  | (5, 2) => .ok { out with argument := out.argument ++ [from_utf8_lossy slice] }
  | (6, 2) => .ok { out with source_file := out.source_file ++ [from_utf8_lossy slice] }
  | (7, 2) => .ok { out with output_key := from_utf8_lossy slice }
  | (8, 2) => .ok { out with working_directory := from_utf8_lossy slice }
  | (9, 2) => .ok { out with entry_context := from_utf8_lossy slice }
  -- `has_compile_errors`, `environment` and `details` are skipped.
  | _ => .ok out

def parse_compilation_unit (buf : Bytes) : Except DecodeError CompilationUnit :=
  parse_fields CompilationUnit.set buf 0 {}

def IndexedCompilation.set (out : IndexedCompilation) (tag : UInt32 × UInt8) (slice : Bytes) :
    Except DecodeError IndexedCompilation :=
  match tag with
  | (1, 2) => do return { out with unit := ← parse_compilation_unit slice }
  | _ => .ok out

def parse_indexed_compilation (buf : Bytes) : Except DecodeError IndexedCompilation :=
  parse_fields IndexedCompilation.set buf 0 {}

/-! ## The encoder -/

def write_tag_len (field : Nat) (data : Bytes) : Bytes :=
  write_varint ((field <<< 3) ||| 2) ++ (write_varint data.length ++ data)

/-- `if !data.is_empty() { write_tag_len(field, data, out) }`. -/
def write_nonempty (field : Nat) (data : Bytes) : Bytes :=
  if data = [] then [] else write_tag_len field data

def encode_vname (v : VName) : Bytes :=
  write_nonempty 1 (as_bytes v.signature) ++ write_nonempty 2 (as_bytes v.corpus) ++
    write_nonempty 3 (as_bytes v.root) ++ write_nonempty 4 (as_bytes v.path) ++
    write_nonempty 5 (as_bytes v.language)

def encode_file_info (fi : FileInfo) : Bytes :=
  write_nonempty 1 (as_bytes fi.path) ++ write_nonempty 2 (as_bytes fi.digest)

def encode_file_input (fi : FileInput) : Bytes :=
  write_nonempty 1 (encode_vname fi.v_name) ++ write_nonempty 2 (encode_file_info fi.info)

def encode_compilation_unit (c : CompilationUnit) : Bytes :=
  write_nonempty 1 (encode_vname c.v_name) ++
    c.required_input.flatMap (fun fi => write_tag_len 3 (encode_file_input fi)) ++
    c.argument.flatMap (fun a => write_tag_len 5 (as_bytes a)) ++
    c.source_file.flatMap (fun s => write_tag_len 6 (as_bytes s)) ++
    write_nonempty 7 (as_bytes c.output_key) ++
    write_nonempty 8 (as_bytes c.working_directory) ++
    write_nonempty 9 (as_bytes c.entry_context)

def encode_indexed_compilation (c : IndexedCompilation) : Bytes :=
  write_tag_len 1 (encode_compilation_unit c.unit)

/-! ## Varints read back -/

theorem toNat_or_shift64 {v : UInt64} {b : UInt8} {j : Nat} (hv : v.toNat < 2 ^ (7 * j))
    (hj : 7 * j < 64) (hb : b.toNat * 2 ^ (7 * j) < 2 ^ 64) :
    (v ||| (b.toUInt64 <<< UInt64.ofNat (7 * j))).toNat = v.toNat + b.toNat * 2 ^ (7 * j) := by
  have hshift : (UInt64.ofNat (7 * j)).toNat % 64 = 7 * j := by
    rw [UInt64.toNat_ofNat_of_lt' (by unfold UInt64.size; omega)]
    omega
  rw [UInt64.toNat_or, UInt64.toNat_shiftLeft, hshift, UInt8.toNat_toUInt64, Nat.shiftLeft_eq,
    Nat.mod_eq_of_lt hb, Nat.mul_comm, Nat.or_comm, ← Nat.two_pow_add_eq_or_of_lt hv, Nat.add_comm]

/-- `j` bytes are read, and the varint that follows ends within ten bytes. -/
theorem varint_loop_read {bs : Bytes} {n : Nat} (h : Varint bs n) (fuel : Nat) (v : UInt64) (j pos : Nat)
    (rest : Bytes) (hfuel : bs.length ≤ fuel) (hj : j + bs.length ≤ 10) (hv : v.toNat < 2 ^ (7 * j))
    (hn : v.toNat + n * 2 ^ (7 * j) < 2 ^ 64) :
    ∃ r, varint_loop fuel v (UInt64.ofNat (7 * j)) pos (bs ++ rest) = .ok (r, pos + bs.length) ∧
      r.toNat = v.toNat + n * 2 ^ (7 * j) := by
  induction h generalizing v j pos fuel with
  | last b hb =>
    obtain ⟨fuel, rfl⟩ : ∃ k, fuel = k + 1 := ⟨fuel - 1, by simp only [List.length_singleton] at hfuel; omega⟩
    simp only [List.length_singleton] at hj
    have hlow : (b &&& 0x7f).toNat = b.toNat := by
      rw [toNat_and_7f]
      omega
    have hor := toNat_or_shift64 (b := b &&& 0x7f) hv (by omega) (by rw [hlow]; omega)
    rw [hlow] at hor
    refine ⟨_, ?_, hor⟩
    rw [List.singleton_append, varint_loop]
    simp only [and_80_eq_zero_iff]
    rw [if_pos hb]
    rfl
  | @more b bs n hb hs ih =>
    obtain ⟨fuel, rfl⟩ : ∃ k, fuel = k + 1 := ⟨fuel - 1, by simp only [List.length_cons] at hfuel; omega⟩
    simp only [List.length_cons] at hj hfuel
    have hpos := hs.length_pos
    have hlow : (b &&& 0x7f).toNat = b.toNat % 0x80 := toNat_and_7f b
    have hpow : 2 ^ (7 * (j + 1)) = 0x80 * 2 ^ (7 * j) := by
      rw [Nat.mul_succ, Nat.pow_add, Nat.mul_comm]
    rw [Nat.add_mul, Nat.mul_assoc, Nat.mul_left_comm, ← hpow] at hn ⊢
    have hor := toNat_or_shift64 (b := b &&& 0x7f) hv (by omega) (by rw [hlow]; omega)
    rw [hlow] at hor
    have hv' : v.toNat + b.toNat % 0x80 * 2 ^ (7 * j) < 2 ^ (7 * (j + 1)) := by
      have : b.toNat % 0x80 * 2 ^ (7 * j) ≤ 0x7f * 2 ^ (7 * j) := Nat.mul_le_mul_right _ (by omega)
      omega
    obtain ⟨r, hr, hval⟩ := ih fuel _ (j + 1) (pos + 1) (by omega) (by omega) (hor.symm ▸ hv') (by omega)
    have hshift : UInt64.ofNat (7 * j) + 7 = UInt64.ofNat (7 * (j + 1)) := by
      rw [Nat.mul_succ, UInt64.ofNat_add]
      rfl
    refine ⟨r, ?_, by omega⟩
    rw [List.cons_append, varint_loop]
    simp only [and_80_eq_zero_iff, hshift]
    rw [if_neg (by omega), hr, List.length_cons]
    congr 2
    omega

theorem varint_read {bs : Bytes} {n : Nat} (h : Varint bs n) (hlen : bs.length ≤ 10) (hn : n < 2 ^ 64) (pos : Nat)
    (rest : Bytes) : varint_loop 10 0 0 pos (bs ++ rest) = .ok (UInt64.ofNat n, pos + bs.length) := by
  obtain ⟨r, hr, hval⟩ := varint_loop_read h 10 0 0 pos rest hlen (by omega) (by simp) (by simpa using hn)
  rw [show UInt64.ofNat (7 * 0) = 0 from rfl] at hr
  rw [hr]
  congr 2
  rw [← UInt64.toNat_inj, hval, UInt64.toNat_ofNat_of_lt' hn]
  simp

theorem write_varint_varint (n : Nat) : Varint (write_varint n) n := by
  fun_induction write_varint n with
  | case1 n h ih =>
    have hb : (UInt8.ofNat (n % 0x80 + 0x80)).toNat = n % 0x80 + 0x80 :=
      UInt8.toNat_ofNat_of_lt' (by unfold UInt8.size; omega)
    have hn : n = (UInt8.ofNat (n % 0x80 + 0x80)).toNat % 0x80 + 0x80 * (n / 0x80) := by
      rw [hb]
      omega
    conv => arg 2; rw [hn]
    exact .more _ (by omega) ih
  | case2 n h =>
    have hb : (UInt8.ofNat n).toNat = n := UInt8.toNat_ofNat_of_lt' (by unfold UInt8.size; omega)
    conv => arg 2; rw [← hb]
    exact .last _ (by omega)

theorem varint_len_mono {a b : Nat} (h : a ≤ b) : varint_len a ≤ varint_len b := by
  fun_induction varint_len b generalizing a with
  | case1 b hb ih =>
    rw [varint_len]
    split
    · exact Nat.succ_le_succ (ih (Nat.div_le_div_right h))
    · exact Nat.succ_le_succ (Nat.zero_le _)
  | case2 b hb => rw [varint_len, if_neg (by omega)]

/-- The shortest varint of a 64-bit number ends within ten bytes. -/
theorem varint_write {n : Nat} (hn : n < 2 ^ 64) (pos : Nat) (rest : Bytes) :
    varint_loop 10 0 0 pos (write_varint n ++ rest) = .ok (UInt64.ofNat n, pos + varint_len n) := by
  have hlen : (write_varint n).length ≤ 10 := by
    rw [write_varint_length]
    exact varint_len_le (lt_trans hn (by decide))
  rw [varint_read (write_varint_varint n) hlen hn, write_varint_length]

/-! ## Fields read back -/

/-- A message as its fields in order. -/
abbrev Fields := List (Nat × Bytes)

def Fields.bytes (fs : Fields) : Bytes := fs.flatMap fun f => write_tag_len f.1 f.2

/-- What a parser makes of the fields: `set` on one after the other. -/
def Fields.apply {M : Type} (fs : Fields) (set : M → UInt32 × UInt8 → Bytes → Except DecodeError M)
    (out : M) : Except DecodeError M :=
  fs.foldlM (fun out f => set out (UInt32.ofNat f.1, 2) f.2) out

theorem ok_bind {α β : Type} (a : α) (f : α → Except DecodeError β) :
    (Except.ok a : Except DecodeError α) >>= f = f a := rfl

theorem Fields.apply_append {M : Type} (fs gs : Fields)
    (set : M → UInt32 × UInt8 → Bytes → Except DecodeError M) (out : M) :
    (fs ++ gs).apply set out = fs.apply set out >>= gs.apply set :=
  List.foldlM_append

theorem tag_eq (f : Nat) : (f <<< 3) ||| 2 = f * 8 + 2 := by
  rw [Nat.shiftLeft_eq, Nat.mul_comm]
  exact (Nat.two_pow_add_eq_or_of_lt (by decide : 2 < 2 ^ 3) f).symm

theorem tag_parts {f w : Nat} (hf : f < 2 ^ 29) (hw : w < 8) :
    (UInt64.ofNat (f * 8 + w) >>> 3).toUInt32 = UInt32.ofNat f ∧
      (UInt64.ofNat (f * 8 + w) &&& 0x7).toUInt8 = UInt8.ofNat w := by
  have ht : (UInt64.ofNat (f * 8 + w)).toNat = f * 8 + w :=
    UInt64.toNat_ofNat_of_lt' (by unfold UInt64.size; omega)
  constructor
  · rw [← UInt32.toNat_inj, UInt64.toNat_toUInt32, UInt64.toNat_shiftRight, ht,
      UInt32.toNat_ofNat_of_lt' (by unfold UInt32.size; omega)]
    change (f * 8 + w) >>> 3 % 2 ^ 32 = f
    rw [Nat.shiftRight_eq_div_pow]
    omega
  · rw [← UInt8.toNat_inj, UInt64.toNat_toUInt8, UInt64.toNat_and, ht,
      UInt8.toNat_ofNat_of_lt' (by unfold UInt8.size; omega)]
    change ((f * 8 + w) &&& (2 ^ 3 - 1)) % 2 ^ 8 = w
    rw [Nat.and_two_pow_sub_one_eq_mod]
    omega

theorem tag_field {f : Nat} (hf : f < 2 ^ 29) :
    (UInt64.ofNat (f * 8 + 2) >>> 3).toUInt32 = UInt32.ofNat f ∧
      (UInt64.ofNat (f * 8 + 2) &&& 0x7).toUInt8 = 2 :=
  tag_parts hf (by decide)

theorem write_tag_len_length (f : Nat) (data : Bytes) :
    (write_tag_len f data).length = varint_len (f * 8 + 2) + varint_len data.length + data.length := by
  rw [write_tag_len, tag_eq, List.length_append, List.length_append, write_varint_length,
    write_varint_length]
  omega

theorem drop_varint {buf tail : Bytes} {pos n : Nat}
    (h : buf.drop pos = write_varint n ++ tail) :
    buf.drop (pos + varint_len n) = tail := by
  rw [← List.drop_drop, h, ← write_varint_length, List.drop_left]

section Turn
variable {M : Type} {set : M → UInt32 × UInt8 → Bytes → Except DecodeError M} {buf : Bytes} {pos : Nat}

theorem parse_fields_step {field : UInt32} {wire : UInt8} {len pos₁ pos₂ : Nat} {slice : Bytes}
    (hpos : pos < buf.length) (hh : read_field_header buf pos = .ok ((field, wire, len), pos₁))
    (ht : take buf pos₁ len = .ok (slice, pos₂)) (out : M) :
    parse_fields set buf pos out = set out (field, wire) slice >>= parse_fields set buf pos₂ := by
  rw [parse_fields, if_pos hpos]
  split
  · rename_i e he
    rw [hh] at he
    cases he
  · rename_i field wire len pos₁ he
    rw [hh] at he
    cases he
    split
    · rename_i e he
      rw [ht] at he
      cases he
    · rename_i slice pos₂ he
      rw [ht] at he
      cases he
      cases set out (field, wire) slice <;> rfl

theorem parse_fields_error {e : DecodeError} (hpos : pos < buf.length) (hh : read_field_header buf pos = .error e)
    (out : M) : parse_fields set buf pos out = .error e := by
  rw [parse_fields, if_pos hpos]
  split
  · rename_i e' he
    rw [hh] at he
    cases he
    rfl
  · rename_i field wire len pos₁ he
    rw [hh] at he
    cases he

end Turn

section Cursor
variable {buf data rest : Bytes} {pos f : Nat} (h : buf.drop pos = write_tag_len f data ++ rest)
include h

theorem read_field_header_write (hf : f < 2 ^ 29) (hlen : data.length < 2 ^ 64) :
    read_field_header buf pos = .ok ((UInt32.ofNat f, 2, data.length),
      pos + varint_len (f * 8 + 2) + varint_len data.length) := by
  rw [write_tag_len, tag_eq, List.append_assoc, List.append_assoc] at h
  have h2 := drop_varint h
  have e1 : read_varint_bytes buf pos = .ok (UInt64.ofNat (f * 8 + 2), pos + varint_len (f * 8 + 2)) := by
    rw [read_varint_bytes, h, varint_write (by omega)]
  have e2 : read_varint_bytes buf (pos + varint_len (f * 8 + 2)) =
      .ok (UInt64.ofNat data.length, pos + varint_len (f * 8 + 2) + varint_len data.length) := by
    rw [read_varint_bytes, h2, varint_write hlen]
  obtain ⟨hfield, hwire⟩ := tag_field hf
  unfold read_field_header
  rw [e1]
  simp only [bind, Except.bind, hfield, hwire, e2, ne_eq, not_true_eq_false, if_false]
  rw [UInt64.toNat_ofNat_of_lt' hlen]
  rfl

theorem drop_field : buf.drop (pos + (write_tag_len f data).length) = rest := by
  rw [← List.drop_drop, h, List.drop_left]

theorem field_end_le : pos + (write_tag_len f data).length ≤ buf.length := by
  have hl := congrArg List.length h
  have hpos := varint_len_pos data.length
  rw [List.length_drop, List.length_append, write_tag_len_length] at hl
  rw [write_tag_len_length]
  omega

theorem take_field (hbuf : buf.length < 2 ^ 64) :
    take buf (pos + varint_len (f * 8 + 2) + varint_len data.length) data.length =
      .ok (data, pos + (write_tag_len f data).length) := by
  have hend := field_end_le h
  rw [write_tag_len, tag_eq, List.append_assoc, List.append_assoc] at h
  have hdata := drop_varint (drop_varint h)
  rw [write_tag_len_length] at hend ⊢
  unfold take
  rw [if_neg (by omega), if_neg (by omega), hdata, List.take_left]
  congr 2
  omega

theorem parse_fields_cons {M : Type} {set : M → UInt32 × UInt8 → Bytes → Except DecodeError M}
    (hf : f < 2 ^ 29) (hbuf : buf.length < 2 ^ 64) (out : M) :
    parse_fields set buf pos out =
      set out (UInt32.ofNat f, 2) data >>= parse_fields set buf (pos + (write_tag_len f data).length) := by
  have hend := field_end_le h
  have hl := write_tag_len_length f data
  have htag := varint_len_pos (f * 8 + 2)
  have hh := read_field_header_write h hf (by omega)
  have ht := take_field h hbuf
  exact parse_fields_step (by omega) hh ht out

end Cursor

/-- Parsing what the encoder wrote handles the fields one by one. -/
theorem parse_fields_bytes {M : Type} {set : M → UInt32 × UInt8 → Bytes → Except DecodeError M}
    {fs : Fields} (hfs : ∀ f ∈ fs, f.1 < 2 ^ 29) {buf : Bytes} (hbuf : buf.length < 2 ^ 64) {pos : Nat}
    (h : buf.drop pos = fs.bytes) (out : M) :
    parse_fields set buf pos out = fs.apply set out := by
  induction fs generalizing pos out with
  | nil =>
    have hnil : buf.drop pos = [] := h
    have hle := List.drop_eq_nil_iff.mp hnil
    rw [parse_fields, if_neg (by omega)]
    rfl
  | cons f fs ih =>
    have hcons : buf.drop pos = write_tag_len f.1 f.2 ++ Fields.bytes fs := h
    rw [parse_fields_cons hcons (hfs f List.mem_cons_self) hbuf, Fields.apply, List.foldlM_cons]
    congr 1
    funext out
    exact ih (fun g hg => hfs g (List.mem_cons_of_mem _ hg)) (drop_field hcons) out

/-! ## Messages as fields -/

def optField (f : Nat) (data : Bytes) : Fields := if data = [] then [] else [(f, data)]

def VName.fields (v : VName) : Fields :=
  optField 1 (as_bytes v.signature) ++ (optField 2 (as_bytes v.corpus) ++
    (optField 3 (as_bytes v.root) ++ (optField 4 (as_bytes v.path) ++
      optField 5 (as_bytes v.language))))

def FileInfo.fields (fi : FileInfo) : Fields :=
  optField 1 (as_bytes fi.path) ++ optField 2 (as_bytes fi.digest)

def FileInput.fields (fi : FileInput) : Fields :=
  optField 1 (encode_vname fi.v_name) ++ optField 2 (encode_file_info fi.info)

def CompilationUnit.fields (c : CompilationUnit) : Fields :=
  optField 1 (encode_vname c.v_name) ++ (c.required_input.map (fun fi => (3, encode_file_input fi)) ++
    (c.argument.map (fun a => (5, as_bytes a)) ++ (c.source_file.map (fun s => (6, as_bytes s)) ++
      (optField 7 (as_bytes c.output_key) ++ (optField 8 (as_bytes c.working_directory) ++
        optField 9 (as_bytes c.entry_context))))))

theorem Fields.bytes_append (fs gs : Fields) : (fs ++ gs).bytes = fs.bytes ++ gs.bytes :=
  List.flatMap_append

theorem Fields.bytes_map {α : Type} (f : Nat) (enc : α → Bytes) (xs : List α) :
    Fields.bytes (xs.map fun x => (f, enc x)) = xs.flatMap fun x => write_tag_len f (enc x) :=
  List.flatMap_map ..

theorem optField_bytes (f : Nat) (data : Bytes) : (optField f data).bytes = write_nonempty f data := by
  unfold optField write_nonempty
  split
  · rfl
  · exact List.flatMap_singleton ..

theorem VName.fields_bytes (v : VName) : v.fields.bytes = encode_vname v := by
  simp only [VName.fields, encode_vname, Fields.bytes_append, optField_bytes, List.append_assoc]

theorem FileInfo.fields_bytes (fi : FileInfo) : fi.fields.bytes = encode_file_info fi := by
  simp only [FileInfo.fields, encode_file_info, Fields.bytes_append, optField_bytes]

theorem FileInput.fields_bytes (fi : FileInput) : fi.fields.bytes = encode_file_input fi := by
  simp only [FileInput.fields, encode_file_input, Fields.bytes_append, optField_bytes]

theorem CompilationUnit.fields_bytes (c : CompilationUnit) :
    c.fields.bytes = encode_compilation_unit c := by
  simp only [CompilationUnit.fields, encode_compilation_unit, Fields.bytes_append, Fields.bytes_map,
    optField_bytes, List.append_assoc]

theorem mem_optField {f : Nat} {data : Bytes} {g : Nat × Bytes} :
    g ∈ optField f data ↔ data ≠ [] ∧ g = (f, data) := by
  unfold optField
  split <;> simp_all

/-- The payload of a field is shorter than the message. -/
theorem Fields.length_le_bytes {fs : Fields} {f : Nat × Bytes} (hf : f ∈ fs) :
    f.2.length ≤ fs.bytes.length := by
  obtain ⟨xs, ys, rfl⟩ := List.append_of_mem hf
  have hl := write_tag_len_length f.1 f.2
  have hcons : Fields.bytes (f :: ys) = write_tag_len f.1 f.2 ++ Fields.bytes ys := rfl
  rw [Fields.bytes_append, hcons, List.length_append, List.length_append]
  omega

section Fold
variable {M : Type} {set : M → UInt32 × UInt8 → Bytes → Except DecodeError M} {f : Nat} {out out' : M}

theorem apply_optField {data : Bytes}
    (hset : data ≠ [] → set out (UInt32.ofNat f, 2) data = .ok out') (hnil : data = [] → out' = out) :
    (optField f data).apply set out = .ok out' := by
  unfold optField
  split
  · rename_i h
    rw [hnil h]
    rfl
  · rename_i h
    rw [Fields.apply, List.foldlM_cons, hset h]
    rfl

theorem apply_optText {s : String} (hset : set out (UInt32.ofNat f, 2) (as_bytes s) = .ok out')
    (hnil : s = "" → out' = out) :
    (optField f (as_bytes s)).apply set out = .ok out' :=
  apply_optField (fun _ => hset) fun h => hnil ((as_bytes_eq_nil_iff s).mp h)

/-- `put` is the message with the elements read so far. -/
theorem apply_repeated {α : Type} {enc : α → Bytes} (put : List α → M) {xs : List α}
    (hset : ∀ ys, ∀ x ∈ xs, set (put ys) (UInt32.ofNat f, 2) (enc x) = .ok (put (ys ++ [x])))
    (ys : List α) :
    Fields.apply (xs.map fun x => (f, enc x)) set (put ys) = .ok (put (ys ++ xs)) := by
  induction xs generalizing ys with
  | nil =>
    rw [List.append_nil]
    rfl
  | cons x xs ih =>
    have htail := ih (fun ys y hy => hset ys y (List.mem_cons_of_mem _ hy)) (ys ++ [x])
    rw [List.append_assoc, List.singleton_append] at htail
    rw [List.map_cons, Fields.apply, List.foldlM_cons, hset ys x List.mem_cons_self]
    exact htail

end Fold

/-! ## Round trips -/

theorem parse_message {M : Type} {set : M → UInt32 × UInt8 → Bytes → Except DecodeError M}
    {fs : Fields} (hfs : ∀ f ∈ fs, f.1 < 2 ^ 29) {buf : Bytes} (hbuf : buf.length < 2 ^ 64)
    (h : fs.bytes = buf) (out : M) :
    parse_fields set buf 0 out = fs.apply set out :=
  parse_fields_bytes hfs hbuf (by rw [List.drop_zero, h]) out

theorem VName.fields_lt (v : VName) : ∀ f ∈ v.fields, f.1 < 2 ^ 29 := by
  simp [VName.fields, mem_optField, or_imp, forall_and]

theorem FileInfo.fields_lt (fi : FileInfo) : ∀ f ∈ fi.fields, f.1 < 2 ^ 29 := by
  simp [FileInfo.fields, mem_optField, or_imp, forall_and]

theorem FileInput.fields_lt (fi : FileInput) : ∀ f ∈ fi.fields, f.1 < 2 ^ 29 := by
  simp [FileInput.fields, mem_optField, or_imp, forall_and]

theorem CompilationUnit.fields_lt (c : CompilationUnit) : ∀ f ∈ c.fields, f.1 < 2 ^ 29 := by
  simp [CompilationUnit.fields, mem_optField, or_imp, forall_and]

theorem parse_vname_encode {v : VName} (h : (encode_vname v).length < 2 ^ 64) :
    parse_vname (encode_vname v) = .ok v := by
  obtain ⟨signature, corpus, root, path, language⟩ := v
  rw [parse_vname, parse_message (VName.fields_lt _) h (VName.fields_bytes _), VName.fields]
  have h1 : (optField 1 (as_bytes signature)).apply VName.set {} = .ok { signature } :=
    apply_optText (by simp [VName.set]) (by rintro rfl; rfl)
  have h2 : (optField 2 (as_bytes corpus)).apply VName.set { signature } = .ok { signature, corpus } :=
    apply_optText (by simp [VName.set]) (by rintro rfl; rfl)
  have h3 : (optField 3 (as_bytes root)).apply VName.set { signature, corpus } =
        .ok { signature, corpus, root } :=
    apply_optText (by simp [VName.set]) (by rintro rfl; rfl)
  have h4 : (optField 4 (as_bytes path)).apply VName.set { signature, corpus, root } =
        .ok { signature, corpus, root, path } :=
    apply_optText (by simp [VName.set]) (by rintro rfl; rfl)
  have h5 : (optField 5 (as_bytes language)).apply VName.set { signature, corpus, root, path } =
        .ok { signature, corpus, root, path, language } :=
    apply_optText (by simp [VName.set]) (by rintro rfl; rfl)
  simp only [Fields.apply_append, h1, h2, h3, h4, h5, ok_bind]

theorem parse_file_info_encode {fi : FileInfo} (h : (encode_file_info fi).length < 2 ^ 64) :
    parse_file_info (encode_file_info fi) = .ok fi := by
  obtain ⟨path, digest⟩ := fi
  rw [parse_file_info, parse_message (FileInfo.fields_lt _) h (FileInfo.fields_bytes _), FileInfo.fields]
  have h1 : (optField 1 (as_bytes path)).apply FileInfo.set {} = .ok { path } :=
    apply_optText (by simp [FileInfo.set]) (by rintro rfl; rfl)
  have h2 : (optField 2 (as_bytes digest)).apply FileInfo.set { path } = .ok { path, digest } :=
    apply_optText (by simp [FileInfo.set]) (by rintro rfl; rfl)
  simp only [Fields.apply_append, h1, h2, ok_bind]

theorem parse_nil {M : Type} {set : M → UInt32 × UInt8 → Bytes → Except DecodeError M} {out : M} :
    parse_fields set [] 0 out = .ok out := by
  rw [parse_fields]
  rfl

theorem VName.eq_of_encode_nil {v : VName} (h : encode_vname v = []) : v = {} := by
  have hp := parse_vname_encode (v := v) (by simp [h])
  rw [h] at hp
  cases hp.symm.trans (show parse_vname [] = .ok {} from parse_nil)
  rfl

theorem FileInfo.eq_of_encode_nil {fi : FileInfo} (h : encode_file_info fi = []) : fi = {} := by
  have hp := parse_file_info_encode (show (encode_file_info fi).length < 2 ^ 64 by simp [h])
  rw [h] at hp
  cases hp.symm.trans (show parse_file_info [] = .ok {} from parse_nil)
  rfl

theorem optField_length_le {f : Nat} {data : Bytes} {fs : Fields} (h : ∀ g ∈ optField f data, g ∈ fs) :
    data.length ≤ fs.bytes.length := by
  by_cases hnil : data = []
  · simp [hnil]
  · exact Fields.length_le_bytes (h (f, data) (mem_optField.mpr ⟨hnil, rfl⟩))

theorem parse_file_input_encode {fi : FileInput} (h : (encode_file_input fi).length < 2 ^ 64) :
    parse_file_input (encode_file_input fi) = .ok fi := by
  rw [← FileInput.fields_bytes] at h
  have hv : (encode_vname fi.v_name).length < 2 ^ 64 :=
    lt_of_le_of_lt (optField_length_le fun g hg => List.mem_append_left _ hg) h
  have hi : (encode_file_info fi.info).length < 2 ^ 64 :=
    lt_of_le_of_lt (optField_length_le fun g hg => List.mem_append_right _ hg) h
  rw [FileInput.fields_bytes] at h
  rw [parse_file_input, parse_message (FileInput.fields_lt _) h (FileInput.fields_bytes _), FileInput.fields]
  have h1 : (optField 1 (encode_vname fi.v_name)).apply FileInput.set {} = .ok { v_name := fi.v_name } :=
    apply_optField (fun _ => by simp [FileInput.set, parse_vname_encode hv])
      fun hnil => by rw [VName.eq_of_encode_nil hnil]
  have h2 : (optField 2 (encode_file_info fi.info)).apply FileInput.set { v_name := fi.v_name } = .ok fi :=
    apply_optField (fun _ => by simp [FileInput.set, parse_file_info_encode hi])
      fun hnil => by rw [← FileInfo.eq_of_encode_nil hnil]
  rw [Fields.apply_append, h1, ok_bind, h2]

theorem parse_compilation_unit_encode {c : CompilationUnit}
    (h : (encode_compilation_unit c).length < 2 ^ 64) :
    parse_compilation_unit (encode_compilation_unit c) = .ok c := by
  rw [← CompilationUnit.fields_bytes] at h
  have hv : (encode_vname c.v_name).length < 2 ^ 64 :=
    lt_of_le_of_lt (optField_length_le fun g hg => List.mem_append_left _ hg) h
  have hin : ∀ fi ∈ c.required_input, (encode_file_input fi).length < 2 ^ 64 := by
    intro fi hfi
    refine lt_of_le_of_lt (Fields.length_le_bytes (f := (3, encode_file_input fi)) ?_) h
    exact List.mem_append_right _ (List.mem_append_left _ (List.mem_map_of_mem hfi))
  rw [CompilationUnit.fields_bytes] at h
  rw [parse_compilation_unit, parse_message (CompilationUnit.fields_lt _) h
    (CompilationUnit.fields_bytes _), CompilationUnit.fields]
  obtain ⟨v_name, required_input, argument, source_file, output_key, working_directory, entry_context⟩ := c
  simp only at hv hin ⊢
  have h1 : (optField 1 (encode_vname v_name)).apply CompilationUnit.set {} = .ok { v_name } :=
    apply_optField (fun _ => by simp [CompilationUnit.set, parse_vname_encode hv])
      fun hnil => by rw [VName.eq_of_encode_nil hnil]
  have h2 : Fields.apply (required_input.map fun fi => (3, encode_file_input fi)) CompilationUnit.set
      { v_name } = .ok { v_name, required_input } :=
    apply_repeated (fun xs => ({ v_name, required_input := xs } : CompilationUnit))
      (fun ys fi hfi => by simp [CompilationUnit.set, parse_file_input_encode (hin fi hfi)]) []
  have h3 : Fields.apply (argument.map fun a => (5, as_bytes a)) CompilationUnit.set
      { v_name, required_input } = .ok { v_name, required_input, argument } :=
    apply_repeated (fun xs => ({ v_name, required_input, argument := xs } : CompilationUnit))
      (fun ys a _ => by simp [CompilationUnit.set]) []
  have h4 : Fields.apply (source_file.map fun s => (6, as_bytes s)) CompilationUnit.set
      { v_name, required_input, argument } = .ok { v_name, required_input, argument, source_file } :=
    apply_repeated (fun xs => ({ v_name, required_input, argument, source_file := xs } : CompilationUnit))
      (fun ys s _ => by simp [CompilationUnit.set]) []
  have h5 : (optField 7 (as_bytes output_key)).apply CompilationUnit.set
      { v_name, required_input, argument, source_file } =
        .ok { v_name, required_input, argument, source_file, output_key } :=
    apply_optText (by simp [CompilationUnit.set]) (by rintro rfl; rfl)
  have h6 : (optField 8 (as_bytes working_directory)).apply CompilationUnit.set
      { v_name, required_input, argument, source_file, output_key } =
        .ok { v_name, required_input, argument, source_file, output_key, working_directory } :=
    apply_optText (by simp [CompilationUnit.set]) (by rintro rfl; rfl)
  have h7 : (optField 9 (as_bytes entry_context)).apply CompilationUnit.set
      { v_name, required_input, argument, source_file, output_key, working_directory } =
        .ok { v_name, required_input, argument, source_file, output_key, working_directory,
              entry_context } :=
    apply_optText (by simp [CompilationUnit.set]) (by rintro rfl; rfl)
  simp only [Fields.apply_append, h1, h2, h3, h4, h5, h6, h7, ok_bind]

theorem unit_length_le (c : IndexedCompilation) :
    (encode_compilation_unit c.unit).length ≤ (encode_indexed_compilation c).length := by
  have hl := write_tag_len_length 1 (encode_compilation_unit c.unit)
  rw [encode_indexed_compilation]
  omega

theorem parse_encode {c : IndexedCompilation} (h : (encode_indexed_compilation c).length < 2 ^ 64) :
    parse_indexed_compilation (encode_indexed_compilation c) = .ok c := by
  have hle := unit_length_le c
  have hbytes : Fields.bytes [(1, encode_compilation_unit c.unit)] = encode_indexed_compilation c := by
    simp [Fields.bytes, encode_indexed_compilation]
  have hunit : parse_compilation_unit (encode_compilation_unit c.unit) = .ok c.unit :=
    parse_compilation_unit_encode (by omega)
  rw [parse_indexed_compilation, parse_message (by simp) h hbytes, Fields.apply, List.foldlM_cons]
  simp [IndexedCompilation.set, hunit]

/-- `isize::MAX`. No vector holds more bytes: the encoder aborts before it returns one. -/
def isizeMax : Nat := 2 ^ 63 - 1

/-- Decoding the bytes of an encoded unit gives the unit back. -/
theorem indexed_compilation_round_trip (c : IndexedCompilation)
    (h : (encode_indexed_compilation c).length ≤ isizeMax) :
    parse_indexed_compilation (encode_indexed_compilation c) = .ok c :=
  parse_encode (lt_of_le_of_lt h (by decide))

/-- Empty arguments and an input with all fields empty keep their places. -/
def gappedUnit : IndexedCompilation :=
  ⟨{ required_input := [{}, { info := { digest := "d" } }], argument := ["", "-c", ""] }⟩

theorem indexed_compilation_round_trip_gappedUnit :
    (encode_indexed_compilation gappedUnit).length ≤ isizeMax ∧
      parse_indexed_compilation (encode_indexed_compilation gappedUnit) = .ok gappedUnit :=
  have h : (encode_indexed_compilation gappedUnit).length ≤ isizeMax := by decide +kernel
  ⟨h, indexed_compilation_round_trip gappedUnit h⟩

end Scry2
