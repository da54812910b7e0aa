import Scry2.Lib.SeekFile

/-!
# The `.s2db` wire format

`format.rs`: the header, the packed rows, and the page-aligned sections. Row keys are packed big
endian, so a byte comparison of two packed rows is the comparison of their fields.
-/

open Scry2.Lib

namespace Scry2

/-! ## Constants -/

/-- `b"S2DBv2\0\0"`. -/
def MAGIC : Bytes := [0x53, 0x32, 0x44, 0x42, 0x76, 0x32, 0, 0]
def VERSION : Nat := 6
def MIN_VERSION : Nat := 6
def TRIGRAM_BLOCK : Nat := 128
def PAGE : Nat := 4096
def XREF_LEN : Nat := 17
def SYM_LEN : Nat := 20
def NAME_LEN : Nat := 18
def FILE_LEN : Nat := 14
def INH_LEN : Nat := 16
def CALL_LEN : Nat := 17
def TYPE_LEN : Nat := 18
def TRIGRAM_LEN : Nat := 20
def SKIP_ENTRY : Nat := 8

namespace Role
def DECL : UInt8 := 0
def DEF : UInt8 := 1
def REF : UInt8 := 2
def CALL : UInt8 := 3
end Role

namespace Kind
def UNK : UInt8 := 0
def FUNCTION : UInt8 := 1
def TYPE : UInt8 := 2
def VARIABLE : UInt8 := 3
def FIELD : UInt8 := 4
def PACKAGE : UInt8 := 5
end Kind

namespace Lang
def UNK : UInt8 := 0
def CXX : UInt8 := 1
def JAVA : UInt8 := 2
def JVM : UInt8 := 3
def GO : UInt8 := 4
def PROTO : UInt8 := 5
def RUST : UInt8 := 6
def KOTLIN : UInt8 := 7
end Lang

/-- The next multiple of the page size. -/
def pad_up (n : Nat) : Nat := (n + PAGE - 1) / PAGE * PAGE

theorem le_pad_up (n : Nat) : n ≤ pad_up n := by
  unfold pad_up PAGE; omega

theorem pad_up_lt (n : Nat) : pad_up n < n + PAGE := by
  unfold pad_up PAGE; omega

/-! ## The header -/

/-- The header of 256 bytes. Its numbers are `u64`s in the byte order of the host, which is little
endian here. -/
structure Header where
  magic : Bytes := []
  version : Nat := 0
  xrefs_off : Nat := 0
  xrefs_n : Nat := 0
  syms_off : Nat := 0
  syms_n : Nat := 0
  names_off : Nat := 0
  names_n : Nat := 0
  files_off : Nat := 0
  files_n : Nat := 0
  inh_off : Nat := 0
  inh_n : Nat := 0
  calls_off : Nat := 0
  calls_n : Nat := 0
  crev_off : Nat := 0
  crev_n : Nat := 0
  blob_off : Nat := 0
  blob_len : Nat := 0
  typed_off : Nat := 0
  typed_n : Nat := 0
  childrev_off : Nat := 0
  childrev_n : Nat := 0
  inhrev_off : Nat := 0
  inhrev_n : Nat := 0
  sig_off : Nat := 0
  sig_n : Nat := 0
  trigram_dict_off : Nat := 0
  trigram_dict_n : Nat := 0
  trigram_post_off : Nat := 0
  trigram_post_len : Nat := 0

def size_of_header : Nat := 256

/-- The `u64` fields in memory order. -/
def Header.words (h : Header) : List Nat :=
  [h.xrefs_off, h.xrefs_n, h.syms_off, h.syms_n, h.names_off, h.names_n, h.files_off, h.files_n,
   h.inh_off, h.inh_n, h.calls_off, h.calls_n, h.crev_off, h.crev_n, h.blob_off, h.blob_len,
   h.typed_off, h.typed_n, h.childrev_off, h.childrev_n, h.inhrev_off, h.inhrev_n, h.sig_off,
   h.sig_n, h.trigram_dict_off, h.trigram_dict_n, h.trigram_post_off, h.trigram_post_len]

/-- The low `w` bytes of `n`, least significant first. -/
def leBytes (w n : Nat) : Bytes := (beBytes w n).reverse

def ofLe (bs : Bytes) : Nat := ofBe bs.reverse

/-- The header's memory, as `write_header` dumps it. -/
def Header.bytes (h : Header) : Bytes :=
  h.magic.take 8 ++ (leBytes 4 h.version ++ (leBytes 4 0 ++
    (h.words.flatMap (leBytes 8) ++ List.replicate 16 0)))

/-- The header read back from the first 256 bytes of a file. -/
def Header.read (bs : Bytes) : Header :=
  let word (i : Nat) : Nat := ofLe (slice bs (16 + 8 * i) 8)
  { magic := slice bs 0 8, version := ofLe (slice bs 8 4),
    xrefs_off := word 0, xrefs_n := word 1, syms_off := word 2, syms_n := word 3,
    names_off := word 4, names_n := word 5, files_off := word 6, files_n := word 7,
    inh_off := word 8, inh_n := word 9, calls_off := word 10, calls_n := word 11,
    crev_off := word 12, crev_n := word 13, blob_off := word 14, blob_len := word 15,
    typed_off := word 16, typed_n := word 17, childrev_off := word 18, childrev_n := word 19,
    inhrev_off := word 20, inhrev_n := word 21, sig_off := word 22, sig_n := word 23,
    trigram_dict_off := word 24, trigram_dict_n := word 25,
    trigram_post_off := word 26, trigram_post_len := word 27 }

@[simp] theorem leBytes_length (w n : Nat) : (leBytes w n).length = w := by simp [leBytes]

theorem ofLe_leBytes {w n : Nat} (h : n < 256 ^ w) : ofLe (leBytes w n) = n := by
  rw [ofLe, leBytes, List.reverse_reverse, ofBe_beBytes_of_lt h]

theorem flatMap_le_length (ws : List Nat) : (ws.flatMap (leBytes 8)).length = 8 * ws.length := by
  induction ws with
  | nil => rfl
  | cons w ws ih => simp [ih]; omega

theorem Header.bytes_length (h : Header) (hm : h.magic = MAGIC) : h.bytes.length = size_of_header := by
  simp only [Header.bytes, List.length_append, List.length_take, leBytes_length, flatMap_le_length,
    List.length_replicate, hm]
  simp [Header.words, MAGIC, size_of_header]

theorem slice_words (ws : List Nat) (i : Nat) (h : i < ws.length) :
    slice (ws.flatMap (leBytes 8)) (8 * i) 8 = leBytes 8 ws[i] := by
  induction ws generalizing i with
  | nil => simp at h
  | cons w ws ih =>
    rw [List.flatMap_cons]
    cases i with
    | zero => simp [slice]
    | succ i =>
      rw [slice_append_right (by simp), leBytes_length, show 8 * (i + 1) - 8 = 8 * i by omega,
        ih i (by simpa using h)]
      rfl

/-- The header comes back as it was written, whatever follows it in the file. -/
theorem Header.read_bytes (h : Header) (hm : h.magic = MAGIC) (hv : h.version < 256 ^ 4)
    (hw : ∀ w ∈ h.words, w < 256 ^ 8) (rest : Bytes) : Header.read (h.bytes ++ rest) = h := by
  have hm8 : (h.magic.take 8).length = 8 := by rw [hm]; rfl
  have hlen : h.words.length = 28 := rfl
  have hmagic : slice (h.bytes ++ rest) 0 8 = h.magic := by
    rw [Header.bytes, List.append_assoc, slice_append_left (by omega), hm]; rfl
  have hversion : ofLe (slice (h.bytes ++ rest) 8 4) = h.version := by
    rw [Header.bytes, List.append_assoc, slice_append_right (by omega), hm8, List.append_assoc,
      slice_append_left (by simp), show slice (leBytes 4 h.version) (8 - 8) 4 = leBytes 4 h.version by
        simp [slice], ofLe_leBytes hv]
  have word : ∀ i w, h.words[i]? = some w → ofLe (slice (h.bytes ++ rest) (16 + 8 * i) 8) = w := by
    intro i w hiw
    obtain ⟨hi, rfl⟩ := List.getElem?_eq_some_iff.mp hiw
    rw [Header.bytes, List.append_assoc, slice_append_right (by omega), hm8, List.append_assoc,
      slice_append_right (by simp; omega), leBytes_length, List.append_assoc,
      slice_append_right (by simp; omega), leBytes_length, List.append_assoc,
      show 16 + 8 * i - 8 - 4 - 4 = 8 * i by omega,
      slice_append_left (by rw [flatMap_le_length]; omega), slice_words _ _ hi,
      ofLe_leBytes (hw _ (List.getElem_mem hi))]
  cases h
  simp only [Header.read, Header.mk.injEq]
  exact ⟨hmagic, hversion, word 0 _ rfl, word 1 _ rfl, word 2 _ rfl, word 3 _ rfl, word 4 _ rfl,
    word 5 _ rfl, word 6 _ rfl, word 7 _ rfl, word 8 _ rfl, word 9 _ rfl, word 10 _ rfl,
    word 11 _ rfl, word 12 _ rfl, word 13 _ rfl, word 14 _ rfl, word 15 _ rfl, word 16 _ rfl,
    word 17 _ rfl, word 18 _ rfl, word 19 _ rfl, word 20 _ rfl, word 21 _ rfl, word 22 _ rfl,
    word 23 _ rfl, word 24 _ rfl, word 25 _ rfl, word 26 _ rfl, word 27 _ rfl⟩

/-! ## Packed fields -/

/-- `u64::to_be_bytes`. -/
def be64 (n : UInt64) : Bytes := beBytes 8 n.toNat

/-- `u32::to_be_bytes`. -/
def be32 (n : UInt32) : Bytes := beBytes 4 n.toNat

/-- `u64::from_be_bytes`. -/
def from_be64 (bs : Bytes) : UInt64 := UInt64.ofNat (ofBe bs)

/-- `u32::from_be_bytes`. -/
def from_be32 (bs : Bytes) : UInt32 := UInt32.ofNat (ofBe bs)

@[simp] theorem be64_length (n : UInt64) : (be64 n).length = 8 := beBytes_length _ _

@[simp] theorem be32_length (n : UInt32) : (be32 n).length = 4 := beBytes_length _ _

theorem toNat_lt_256_8 (n : UInt64) : n.toNat < 256 ^ 8 := n.toNat_lt

theorem toNat_lt_256_4 (n : UInt32) : n.toNat < 256 ^ 4 := n.toNat_lt

@[simp] theorem from_be64_be64 (n : UInt64) : from_be64 (be64 n) = n := by
  rw [from_be64, be64, ofBe_beBytes_of_lt (toNat_lt_256_8 n), UInt64.ofNat_toNat]

@[simp] theorem from_be32_be32 (n : UInt32) : from_be32 (be32 n) = n := by
  rw [from_be32, be32, ofBe_beBytes_of_lt (toNat_lt_256_4 n), UInt32.ofNat_toNat]

theorem be64_lt_iff (a b : UInt64) : be64 a < be64 b ↔ a < b := by
  rw [be64, be64, beBytes_lt_iff (toNat_lt_256_8 a) (toNat_lt_256_8 b), UInt64.lt_iff_toNat_lt]

theorem be32_lt_iff (a b : UInt32) : be32 a < be32 b ↔ a < b := by
  rw [be32, be32, beBytes_lt_iff (toNat_lt_256_4 a) (toNat_lt_256_4 b), UInt32.lt_iff_toNat_lt]

theorem be64_injective : Function.Injective be64 := fun a b h => by
  rw [← from_be64_be64 a, h, from_be64_be64]

theorem be32_injective : Function.Injective be32 := fun a b h => by
  rw [← from_be32_be32 a, h, from_be32_be32]

theorem singleton_lt_iff (a b : UInt8) : [a] < [b] ↔ a < b := by
  simp [List.cons_lt_cons_iff]

/-! ## Rows of numbers

A Rust tuple is ordered field by field, and so are these rows.
-/

/-- An xref row: `(sym, role, file, offset)`. -/
structure XrefRow where
  sym : UInt64
  role : UInt8
  file : UInt32
  offset : UInt32

/-- An edge between two symbols: `(child, parent)` or its reverse. -/
structure InhRow where
  fst : UInt64
  snd : UInt64

/-- A call edge: `(caller, callee, role)` or, in `crev`, `(callee, caller, role)`. -/
structure CallRow where
  fst : UInt64
  snd : UInt64
  role : UInt8

def XrefRow.key (r : XrefRow) : UInt64 ×ₗ UInt8 ×ₗ UInt32 ×ₗ UInt32 :=
  toLex (r.sym, toLex (r.role, toLex (r.file, r.offset)))

def InhRow.key (r : InhRow) : UInt64 ×ₗ UInt64 := toLex (r.fst, r.snd)

def CallRow.key (r : CallRow) : UInt64 ×ₗ UInt64 ×ₗ UInt8 := toLex (r.fst, toLex (r.snd, r.role))

theorem XrefRow.key_injective : Function.Injective XrefRow.key := by
  rintro ⟨_, _, _, _⟩ ⟨_, _, _, _⟩ h
  simpa [XrefRow.key] using h

theorem InhRow.key_injective : Function.Injective InhRow.key := by
  rintro ⟨_, _⟩ ⟨_, _⟩ h
  simpa [InhRow.key] using h

theorem CallRow.key_injective : Function.Injective CallRow.key := by
  rintro ⟨_, _, _⟩ ⟨_, _, _⟩ h
  simpa [CallRow.key] using h

instance : LinearOrder XrefRow := LinearOrder.lift' XrefRow.key XrefRow.key_injective
instance : LinearOrder InhRow := LinearOrder.lift' InhRow.key InhRow.key_injective
instance : LinearOrder CallRow := LinearOrder.lift' CallRow.key CallRow.key_injective

theorem XrefRow.lt_iff (a b : XrefRow) : a < b ↔ a.sym < b.sym ∨ a.sym = b.sym ∧
    (a.role < b.role ∨ a.role = b.role ∧ (a.file < b.file ∨ a.file = b.file ∧ a.offset < b.offset)) := by
  change a.key < b.key ↔ _
  simp only [XrefRow.key, Prod.Lex.toLex_lt_toLex]

theorem InhRow.lt_iff (a b : InhRow) : a < b ↔ a.fst < b.fst ∨ a.fst = b.fst ∧ a.snd < b.snd := by
  change a.key < b.key ↔ _
  simp only [InhRow.key, Prod.Lex.toLex_lt_toLex]

theorem CallRow.lt_iff (a b : CallRow) : a < b ↔ a.fst < b.fst ∨ a.fst = b.fst ∧
    (a.snd < b.snd ∨ a.snd = b.snd ∧ a.role < b.role) := by
  change a.key < b.key ↔ _
  simp only [CallRow.key, Prod.Lex.toLex_lt_toLex]

def XrefRow.encode (r : XrefRow) : Bytes := be64 r.sym ++ ([r.role] ++ (be32 r.file ++ be32 r.offset))

def InhRow.encode (r : InhRow) : Bytes := be64 r.fst ++ be64 r.snd

def CallRow.encode (r : CallRow) : Bytes := be64 r.fst ++ (be64 r.snd ++ [r.role])

def XrefRow.decode (row : Bytes) : XrefRow :=
  ⟨from_be64 (slice row 0 8), byteAt row 8, from_be32 (slice row 9 4), from_be32 (slice row 13 4)⟩

def InhRow.decode (row : Bytes) : InhRow := ⟨from_be64 (slice row 0 8), from_be64 (slice row 8 8)⟩

def CallRow.decode (row : Bytes) : CallRow :=
  ⟨from_be64 (slice row 0 8), from_be64 (slice row 8 8), byteAt row 16⟩

@[simp] theorem XrefRow.encode_length (r : XrefRow) : r.encode.length = XREF_LEN := by
  simp [XrefRow.encode, XREF_LEN]

@[simp] theorem InhRow.encode_length (r : InhRow) : r.encode.length = INH_LEN := by
  simp [InhRow.encode, INH_LEN]

@[simp] theorem CallRow.encode_length (r : CallRow) : r.encode.length = CALL_LEN := by
  simp [CallRow.encode, CALL_LEN]

/-- Comparing packed rows compares the rows. -/
theorem XrefRow.encode_lt_iff (a b : XrefRow) : a.encode < b.encode ↔ a < b := by
  rw [XrefRow.encode, XrefRow.encode, append_lt_append_iff (by simp), append_lt_append_iff (by simp),
    append_lt_append_iff (by simp), be64_lt_iff, singleton_lt_iff, be32_lt_iff, be32_lt_iff,
    be64_injective.eq_iff, be32_injective.eq_iff, XrefRow.lt_iff]
  simp

theorem InhRow.encode_lt_iff (a b : InhRow) : a.encode < b.encode ↔ a < b := by
  rw [InhRow.encode, InhRow.encode, append_lt_append_iff (by simp), be64_lt_iff, be64_lt_iff,
    be64_injective.eq_iff, InhRow.lt_iff]

theorem CallRow.encode_lt_iff (a b : CallRow) : a.encode < b.encode ↔ a < b := by
  rw [CallRow.encode, CallRow.encode, append_lt_append_iff (by simp), append_lt_append_iff (by simp),
    be64_lt_iff, be64_lt_iff, singleton_lt_iff, be64_injective.eq_iff, be64_injective.eq_iff,
    CallRow.lt_iff]

theorem slice_append_self (a b : Bytes) {n : Nat} (h : a.length = n) : slice (a ++ b) 0 n = a := by
  rw [slice_append_left (by omega), ← h]
  simp [slice]

theorem slice_append_at (a b : Bytes) {off : Nat} (n : Nat) (h : a.length = off) :
    slice (a ++ b) off n = slice b 0 n := by
  rw [slice_append_right (by omega), h, Nat.sub_self]

theorem slice_self (a : Bytes) {n : Nat} (h : a.length = n) : slice a 0 n = a := by
  rw [← h]; simp [slice]

theorem byteAt_append_at (a b : Bytes) {off : Nat} (h : a.length = off) :
    byteAt (a ++ b) off = byteAt b 0 := by
  rw [byteAt_append, if_neg (by omega), h, Nat.sub_self]

@[simp] theorem XrefRow.decode_encode (r : XrefRow) : XrefRow.decode r.encode = r := by
  have h1 : slice r.encode 0 8 = be64 r.sym := slice_append_self _ _ (by simp)
  have h2 : byteAt r.encode 8 = r.role := by
    rw [XrefRow.encode, byteAt_append_at _ _ (by simp)]; rfl
  have h3 : slice r.encode 9 4 = be32 r.file := by
    rw [XrefRow.encode, ← List.append_assoc, slice_append_at _ _ _ (by simp),
      slice_append_self _ _ (by simp)]
  have h4 : slice r.encode 13 4 = be32 r.offset := by
    rw [XrefRow.encode, ← List.append_assoc, ← List.append_assoc, slice_append_at _ _ _ (by simp),
      slice_self _ (by simp)]
  rw [XrefRow.decode, h1, h2, h3, h4, from_be64_be64, from_be32_be32, from_be32_be32]

@[simp] theorem InhRow.decode_encode (r : InhRow) : InhRow.decode r.encode = r := by
  have h1 : slice r.encode 0 8 = be64 r.fst := slice_append_self _ _ (by simp)
  have h2 : slice r.encode 8 8 = be64 r.snd := by
    rw [InhRow.encode, slice_append_at _ _ _ (by simp), slice_self _ (by simp)]
  rw [InhRow.decode, h1, h2, from_be64_be64, from_be64_be64]

@[simp] theorem CallRow.decode_encode (r : CallRow) : CallRow.decode r.encode = r := by
  have h1 : slice r.encode 0 8 = be64 r.fst := slice_append_self _ _ (by simp)
  have h2 : slice r.encode 8 8 = be64 r.snd := by
    rw [CallRow.encode, slice_append_at _ _ _ (by simp), slice_append_self _ _ (by simp)]
  have h3 : byteAt r.encode 16 = r.role := by
    rw [CallRow.encode, ← List.append_assoc, byteAt_append_at _ _ (by simp)]; rfl
  rw [CallRow.decode, h1, h2, h3, from_be64_be64, from_be64_be64]

/-! ## Rows that point into the string blob -/

/-- A sym row: kind, language and the blob slot of its name. -/
structure SymRow where
  sym : UInt64
  kind : UInt8
  lang : UInt8
  name_off : Nat
  name_len : Nat

/-- A row of the alphabetical name index. -/
structure NameRow where
  name_off : Nat
  name_len : Nat
  sym : UInt64

structure FileRow where
  file : UInt32
  path_off : Nat
  path_len : Nat

/-- A row of `typed` or `sig`. -/
structure TypeRow where
  sym : UInt64
  str_off : Nat
  str_len : Nat

/-- A blob slot as rows store it: `off as u64`, `len as u16`, big endian. -/
def slotBytes (off len : Nat) : Bytes := beBytes 8 off ++ beBytes 2 len

def SymRow.encode (r : SymRow) : Bytes :=
  be64 r.sym ++ ([r.kind, r.lang] ++ slotBytes r.name_off r.name_len)

def NameRow.encode (r : NameRow) : Bytes := slotBytes r.name_off r.name_len ++ be64 r.sym

def FileRow.encode (r : FileRow) : Bytes := be32 r.file ++ slotBytes r.path_off r.path_len

def TypeRow.encode (r : TypeRow) : Bytes := be64 r.sym ++ slotBytes r.str_off r.str_len

def SymRow.decode (row : Bytes) : SymRow :=
  ⟨from_be64 (slice row 0 8), byteAt row 8, byteAt row 9, ofBe (slice row 10 8), ofBe (slice row 18 2)⟩

def NameRow.decode (row : Bytes) : NameRow :=
  ⟨ofBe (slice row 0 8), ofBe (slice row 8 2), from_be64 (slice row 10 8)⟩

def FileRow.decode (row : Bytes) : FileRow :=
  ⟨from_be32 (slice row 0 4), ofBe (slice row 4 8), ofBe (slice row 12 2)⟩

def TypeRow.decode (row : Bytes) : TypeRow :=
  ⟨from_be64 (slice row 0 8), ofBe (slice row 8 8), ofBe (slice row 16 2)⟩

@[simp] theorem slotBytes_length (off len : Nat) : (slotBytes off len).length = 10 := by
  simp [slotBytes]

@[simp] theorem SymRow.encode_length (r : SymRow) : r.encode.length = SYM_LEN := by
  simp [SymRow.encode, SYM_LEN]

@[simp] theorem NameRow.encode_length (r : NameRow) : r.encode.length = NAME_LEN := by
  simp [NameRow.encode, NAME_LEN]

@[simp] theorem FileRow.encode_length (r : FileRow) : r.encode.length = FILE_LEN := by
  simp [FileRow.encode, FILE_LEN]

@[simp] theorem TypeRow.encode_length (r : TypeRow) : r.encode.length = TYPE_LEN := by
  simp [TypeRow.encode, TYPE_LEN]

/-- The slot of a string that lies in a blob below `2 ^ 64` bytes reads back. -/
structure SlotFits (off len : Nat) : Prop where
  off_lt : off < 256 ^ 8
  len_lt : len < 256 ^ 2

theorem SymRow.decode_encode (r : SymRow) (h : SlotFits r.name_off r.name_len) :
    SymRow.decode r.encode = r := by
  have h1 : slice r.encode 0 8 = be64 r.sym := slice_append_self _ _ (by simp)
  have h2 : byteAt r.encode 8 = r.kind := by
    rw [SymRow.encode, byteAt_append_at _ _ (by simp)]; rfl
  have h3 : byteAt r.encode 9 = r.lang := by
    rw [SymRow.encode, byteAt_append, if_neg (by simp)]; simp [byteAt]
  have h4 : slice r.encode 10 8 = beBytes 8 r.name_off := by
    rw [SymRow.encode, ← List.append_assoc, slice_append_at _ _ _ (by simp), slotBytes,
      slice_append_self _ _ (by simp)]
  have h5 : slice r.encode 18 2 = beBytes 2 r.name_len := by
    rw [SymRow.encode, slotBytes, ← List.append_assoc, ← List.append_assoc,
      slice_append_at _ _ _ (by simp), slice_self _ (by simp)]
  rw [SymRow.decode, h1, h2, h3, h4, h5, from_be64_be64, ofBe_beBytes_of_lt h.off_lt,
    ofBe_beBytes_of_lt h.len_lt]

theorem NameRow.decode_encode (r : NameRow) (h : SlotFits r.name_off r.name_len) :
    NameRow.decode r.encode = r := by
  have h1 : slice r.encode 0 8 = beBytes 8 r.name_off := by
    rw [NameRow.encode, slotBytes, List.append_assoc, slice_append_self _ _ (by simp)]
  have h2 : slice r.encode 8 2 = beBytes 2 r.name_len := by
    rw [NameRow.encode, slotBytes, List.append_assoc, slice_append_at _ _ _ (by simp),
      slice_append_self _ _ (by simp)]
  have h3 : slice r.encode 10 8 = be64 r.sym := by
    rw [NameRow.encode, slice_append_at _ _ _ (by simp), slice_self _ (by simp)]
  rw [NameRow.decode, h1, h2, h3, from_be64_be64, ofBe_beBytes_of_lt h.off_lt,
    ofBe_beBytes_of_lt h.len_lt]

theorem FileRow.decode_encode (r : FileRow) (h : SlotFits r.path_off r.path_len) :
    FileRow.decode r.encode = r := by
  have h1 : slice r.encode 0 4 = be32 r.file := slice_append_self _ _ (by simp)
  have h2 : slice r.encode 4 8 = beBytes 8 r.path_off := by
    rw [FileRow.encode, slice_append_at _ _ _ (by simp), slotBytes, slice_append_self _ _ (by simp)]
  have h3 : slice r.encode 12 2 = beBytes 2 r.path_len := by
    rw [FileRow.encode, slotBytes, ← List.append_assoc, slice_append_at _ _ _ (by simp),
      slice_self _ (by simp)]
  rw [FileRow.decode, h1, h2, h3, from_be32_be32, ofBe_beBytes_of_lt h.off_lt,
    ofBe_beBytes_of_lt h.len_lt]

theorem TypeRow.decode_encode (r : TypeRow) (h : SlotFits r.str_off r.str_len) :
    TypeRow.decode r.encode = r := by
  have h1 : slice r.encode 0 8 = be64 r.sym := slice_append_self _ _ (by simp)
  have h2 : slice r.encode 8 8 = beBytes 8 r.str_off := by
    rw [TypeRow.encode, slice_append_at _ _ _ (by simp), slotBytes, slice_append_self _ _ (by simp)]
  have h3 : slice r.encode 16 2 = beBytes 2 r.str_len := by
    rw [TypeRow.encode, slotBytes, ← List.append_assoc, slice_append_at _ _ _ (by simp),
      slice_self _ (by simp)]
  rw [TypeRow.decode, h1, h2, h3, from_be64_be64, ofBe_beBytes_of_lt h.off_lt,
    ofBe_beBytes_of_lt h.len_lt]

/-! ## Tables of equal rows -/

theorem flatMap_length_of {α : Type*} (enc : α → Bytes) {n : Nat} (h : ∀ a, (enc a).length = n)
    (l : List α) : (l.flatMap enc).length = l.length * n := by
  induction l with
  | nil => simp
  | cons a l ih => simp [h, ih, Nat.add_mul, Nat.add_comm]

/-- Row `i` of a packed table. -/
theorem slice_flatMap {α : Type*} (enc : α → Bytes) {n : Nat} (h : ∀ a, (enc a).length = n)
    (l : List α) (i : Nat) (hi : i < l.length) : slice (l.flatMap enc) (i * n) n = enc l[i] := by
  induction l generalizing i with
  | nil => simp at hi
  | cons a l ih =>
    rw [List.flatMap_cons]
    cases i with
    | zero => rw [Nat.zero_mul, slice_append_self _ _ (h a)]; rfl
    | succ i =>
      rw [slice_append_right (by rw [h, Nat.add_mul]; omega), h,
        show (i + 1) * n - n = i * n by rw [Nat.add_mul]; omega, ih i (by simpa using hi)]
      rfl

end Scry2
