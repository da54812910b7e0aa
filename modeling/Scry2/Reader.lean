import Scry2.Trigram
import Scry2.Lib.Search

/-!
# The reader

`Index` of `reader.rs` over the bytes of a mapped file. `open` checks that every section the header
declares lies inside the file; the index carries that as a field, so slicing a section cannot fail.
Slicing the string blob by an offset found in a row can, and then the code panics.
-/

open Scry2.Lib
open Std (ExtTreeMap)

namespace Scry2

/-- How an operation can end without a result. -/
inductive Fault where
  | panic
  | err (msg : String)
deriving DecidableEq

abbrev Res := Except Fault

theorem Res.ok_bind {α β : Type} (a : α) (f : α → Res β) : (Except.ok a : Res α) >>= f = f a := rfl

theorem Res.bind_eq_ok {α β : Type} {x : Res α} {f : α → Res β} {b : β} (h : x >>= f = .ok b) :
    ∃ a, x = .ok a ∧ f a = .ok b := by
  cases x with
  | error e => cases h
  | ok a => exact ⟨a, rfl, h⟩

/-! ## Opening a file -/

/-- A section as `open` checks it: its name, offset, number of rows and row size. -/
structure SectionDecl where
  name : String
  off : Nat
  n : Nat
  stride : Nat

def Header.sections (h : Header) : List SectionDecl :=
  [⟨"xrefs", h.xrefs_off, h.xrefs_n, XREF_LEN⟩, ⟨"syms", h.syms_off, h.syms_n, SYM_LEN⟩,
   ⟨"names", h.names_off, h.names_n, NAME_LEN⟩, ⟨"files", h.files_off, h.files_n, FILE_LEN⟩,
   ⟨"inh", h.inh_off, h.inh_n, INH_LEN⟩, ⟨"calls", h.calls_off, h.calls_n, CALL_LEN⟩,
   ⟨"crev", h.crev_off, h.crev_n, CALL_LEN⟩, ⟨"typed", h.typed_off, h.typed_n, TYPE_LEN⟩,
   ⟨"childrev", h.childrev_off, h.childrev_n, INH_LEN⟩,
   ⟨"inhrev", h.inhrev_off, h.inhrev_n, INH_LEN⟩, ⟨"sig", h.sig_off, h.sig_n, TYPE_LEN⟩,
   ⟨"trigram_dict", h.trigram_dict_off, h.trigram_dict_n, TRIGRAM_LEN⟩,
   ⟨"trigram_post", h.trigram_post_off, h.trigram_post_len, 1⟩, ⟨"blob", h.blob_off, h.blob_len, 1⟩]

/-- Where a section ends. -/
def SectionDecl.stop (s : SectionDecl) : Nat := s.off + s.n * s.stride

/-- Why `open` rejects a section, if it does. -/
def SectionDecl.fault (map_len : Nat) (s : SectionDecl) : Option Fault :=
  -- `checked_mul`, then `checked_add`.
  if 2 ^ 64 ≤ s.n * s.stride ∨ 2 ^ 64 ≤ s.stop then
    some (.err s!"{s.name} section size overflow in header")
  else if map_len < s.stop then
    some (.err s!"{s.name} section [{s.off}, {s.stop}) exceeds file ({map_len} bytes) — truncated or corrupt index")
  else none

structure Index where
  map : Bytes
  hdr : Header
  fits : ∀ s ∈ hdr.sections, s.stop ≤ map.length

theorem SectionDecl.stop_le_of_fault_eq_none {map_len : Nat} {s : SectionDecl}
    (h : s.fault map_len = none) : s.stop ≤ map_len := by
  unfold SectionDecl.fault at h
  split_ifs at h with h1 h2
  exact not_lt.mp h2

/-- `Index::open` on the bytes of a file. -/
def open_index (map : Bytes) : Res Index :=
  if map.length < size_of_header then
    .error (.err s!"file too small for header ({map.length} bytes)")
  else
    let hdr := Header.read map
    if hdr.magic ≠ MAGIC then .error (.err "bad magic: not a scry2 index")
    else if hdr.version < MIN_VERSION ∨ VERSION < hdr.version then
      .error (.err s!"unsupported version: file={hdr.version} reader supports {MIN_VERSION}..={VERSION}")
    else
      match h : hdr.sections.findSome? (SectionDecl.fault map.length) with
      | some f => .error f
      | none => .ok ⟨map, hdr, fun s hs =>
          SectionDecl.stop_le_of_fault_eq_none (List.findSome?_eq_none_iff.mp h s hs)⟩

/-- What is enough for a file to open. -/
theorem open_index_eq_ok {map : Bytes} {hdr : Header} (hread : Header.read map = hdr)
    (hlen : size_of_header ≤ map.length) (hmagic : hdr.magic = MAGIC) (hversion : hdr.version = VERSION)
    (hfault : ∀ s ∈ hdr.sections, s.fault map.length = none) :
    ∃ ix, open_index map = .ok ix ∧ ix.map = map ∧ ix.hdr = hdr := by
  subst hread
  refine ⟨⟨map, Header.read map, fun s hs =>
    SectionDecl.stop_le_of_fault_eq_none (hfault s hs)⟩, ?_, rfl, rfl⟩
  have hv : ¬ ((Header.read map).version < MIN_VERSION ∨ VERSION < (Header.read map).version) := by
    rw [hversion]
    decide
  unfold open_index
  rw [if_neg (not_lt.mpr hlen)]
  simp only [hmagic, ne_eq, not_true_eq_false, if_false, if_neg hv]
  split
  · rename_i f hf
    rw [List.findSome?_eq_none_iff.mpr hfault] at hf
    cases hf
  · rfl

namespace Index

/-! ## Section slices -/

def xrefs_slice (ix : Index) : Bytes := slice ix.map ix.hdr.xrefs_off (ix.hdr.xrefs_n * XREF_LEN)
def syms_slice (ix : Index) : Bytes := slice ix.map ix.hdr.syms_off (ix.hdr.syms_n * SYM_LEN)
def names_slice (ix : Index) : Bytes := slice ix.map ix.hdr.names_off (ix.hdr.names_n * NAME_LEN)
def files_slice (ix : Index) : Bytes := slice ix.map ix.hdr.files_off (ix.hdr.files_n * FILE_LEN)
def inh_slice (ix : Index) : Bytes := slice ix.map ix.hdr.inh_off (ix.hdr.inh_n * INH_LEN)
def calls_slice (ix : Index) : Bytes := slice ix.map ix.hdr.calls_off (ix.hdr.calls_n * CALL_LEN)
def crev_slice (ix : Index) : Bytes := slice ix.map ix.hdr.crev_off (ix.hdr.crev_n * CALL_LEN)
def typed_slice (ix : Index) : Bytes := slice ix.map ix.hdr.typed_off (ix.hdr.typed_n * TYPE_LEN)
def inhrev_slice (ix : Index) : Bytes := slice ix.map ix.hdr.inhrev_off (ix.hdr.inhrev_n * INH_LEN)
def childrev_slice (ix : Index) : Bytes :=
  slice ix.map ix.hdr.childrev_off (ix.hdr.childrev_n * INH_LEN)
def sig_slice (ix : Index) : Bytes := slice ix.map ix.hdr.sig_off (ix.hdr.sig_n * TYPE_LEN)
def blob (ix : Index) : Bytes := slice ix.map ix.hdr.blob_off ix.hdr.blob_len
def trigram_dict_slice (ix : Index) : Bytes :=
  slice ix.map ix.hdr.trigram_dict_off (ix.hdr.trigram_dict_n * TRIGRAM_LEN)
def trigram_post_slice (ix : Index) : Bytes :=
  slice ix.map ix.hdr.trigram_post_off ix.hdr.trigram_post_len

/-! ## Whole-table iterators -/

/-- Row `i` of a packed table. -/
def rowAt (table : Bytes) (stride i : Nat) : Bytes := slice table (i * stride) stride

/-- The `n` rows of a packed table. -/
def tableRows {α : Type} (table : Bytes) (n stride : Nat) (decode : Bytes → α) : List α :=
  (List.range n).map fun i => decode (rowAt table stride i)

/-- `&blob[off..off + len]`. -/
def blobSlice (blob : Bytes) (off len : Nat) : Res Bytes :=
  if off + len ≤ blob.length then .ok (slice blob off len) else .error .panic

/-- `from_utf8(&blob[off..off + len]).unwrap_or("")`. -/
def blobText (blob : Bytes) (off len : Nat) : Res String := do
  let bs ← blobSlice blob off len
  return (from_utf8 bs).getD "<bad utf8>"

def iter_xrefs (ix : Index) : List XrefRow :=
  tableRows ix.xrefs_slice ix.hdr.xrefs_n XREF_LEN XrefRow.decode

def iter_inherits (ix : Index) : List InhRow :=
  tableRows ix.inh_slice ix.hdr.inh_n INH_LEN InhRow.decode

def iter_calls (ix : Index) : List CallRow :=
  tableRows ix.calls_slice ix.hdr.calls_n CALL_LEN CallRow.decode

/-- Rows are `(parent, child)`. -/
def iter_childrev (ix : Index) : List InhRow :=
  tableRows ix.childrev_slice ix.hdr.childrev_n INH_LEN InhRow.decode

/-- The rows of `syms`, their names still slots of the blob. -/
def symRows (ix : Index) : List SymRow := tableRows ix.syms_slice ix.hdr.syms_n SYM_LEN SymRow.decode

def nameRows (ix : Index) : List NameRow :=
  tableRows ix.names_slice ix.hdr.names_n NAME_LEN NameRow.decode

def iter_syms (ix : Index) : Res (List (UInt64 × SymMeta)) :=
  ix.symRows.mapM fun r => do
    let name ← blobText ix.blob r.name_off r.name_len
    return (r.sym, ⟨r.kind, r.lang, name⟩)

def iter_files (ix : Index) : Res (List (UInt32 × String)) :=
  (tableRows ix.files_slice ix.hdr.files_n FILE_LEN FileRow.decode).mapM fun r => do
    let path ← blobText ix.blob r.path_off r.path_len
    return (r.file, path)

/-- The string of every row of `typed` or of `sig`. -/
def typeTexts (blob : Bytes) (rows : List TypeRow) : Res (List (UInt64 × String)) :=
  rows.mapM fun r => do
    let text ← blobText blob r.str_off r.str_len
    return (r.sym, text)

def iter_typed (ix : Index) : Res (List (UInt64 × String)) :=
  typeTexts ix.blob (tableRows ix.typed_slice ix.hdr.typed_n TYPE_LEN TypeRow.decode)

def iter_sig (ix : Index) : Res (List (UInt64 × String)) :=
  typeTexts ix.blob (tableRows ix.sig_slice ix.hdr.sig_n TYPE_LEN TypeRow.decode)

/-- The slot of every symbol's own name. -/
def canon (ix : Index) : ExtTreeMap UInt64 (Nat × Nat) :=
  ix.symRows.foldl (fun m r => m.insert r.sym (r.name_off, r.name_len)) ∅

/-- One name row of `iter_aliases`: nothing for a symbol's own name, which is known by its slot. -/
def aliasOf (canon : ExtTreeMap UInt64 (Nat × Nat)) (blob : Bytes) (r : NameRow) :
    Res (Option StrRow) :=
  if canon[r.sym]? = some (r.name_off, r.name_len) then .ok none
  else do
    let bs ← blobSlice blob r.name_off r.name_len
    return (from_utf8 bs).map (StrRow.mk r.sym)

def iter_aliases (ix : Index) : Res (List StrRow) := do
  let found ← ix.nameRows.mapM (aliasOf ix.canon ix.blob)
  return found.reduceOption

end Index

/-! ## Range queries -/

def lower_bound (table : Bytes) (n stride : Nat) (needle : Bytes) : Nat :=
  bisect (fun mid => decide (Index.rowAt table stride mid < needle)) 0 n

namespace Index

/-- Rows `lo..hi` of a packed table. -/
def rowsFrom {α : Type} (table : Bytes) (stride lo hi : Nat) (decode : Bytes → α) : List α :=
  (List.range' lo (hi - lo)).map fun i => decode (rowAt table stride i)

/-- The rows of the symbol `sym` and of roles `role_lo..=role_hi`. -/
def xrefs (ix : Index) (sym : UInt64) (role_lo role_hi : UInt8) : List XrefRow :=
  let start_key := be64 sym ++ ([role_lo] ++ List.replicate 8 0)
  -- `wrapping_add` on the symbol when every role is wanted.
  let end_key := if role_hi = 255 then be64 (sym + 1) ++ ([0] ++ List.replicate 8 0)
    else be64 sym ++ ([role_hi + 1] ++ List.replicate 8 0)
  let lo := lower_bound ix.xrefs_slice ix.hdr.xrefs_n XREF_LEN start_key
  let hi := lower_bound ix.xrefs_slice ix.hdr.xrefs_n XREF_LEN end_key
  rowsFrom ix.xrefs_slice XREF_LEN lo hi XrefRow.decode

/-- The rows of a table that start with the symbol `key`. `hi - lo` sizes the answer, so the code
panics when it is negative. -/
def rowsOfKey {α : Type} (table : Bytes) (n stride : Nat) (key : UInt64) (decode : Bytes → α) :
    Res (List α) :=
  let start := be64 key ++ List.replicate (stride - 8) 0
  let stop := be64 (key + 1) ++ List.replicate (stride - 8) 0
  let lo := lower_bound table n stride start
  let hi := lower_bound table n stride stop
  if hi < lo then .error .panic else .ok (rowsFrom table stride lo hi decode)

def inherits_of (ix : Index) (child : UInt64) : Res (List UInt64) :=
  rowsOfKey ix.inh_slice ix.hdr.inh_n INH_LEN child fun row => (InhRow.decode row).snd

def inherited_by (ix : Index) (parent : UInt64) : Res (List UInt64) :=
  rowsOfKey ix.inhrev_slice ix.hdr.inhrev_n INH_LEN parent fun row => (InhRow.decode row).snd

def members (ix : Index) (parent : UInt64) : Res (List UInt64) :=
  rowsOfKey ix.childrev_slice ix.hdr.childrev_n INH_LEN parent fun row => (InhRow.decode row).snd

def calls_from (ix : Index) (caller : UInt64) : Res (List (UInt64 × UInt8)) :=
  rowsOfKey ix.calls_slice ix.hdr.calls_n CALL_LEN caller fun row =>
    ((CallRow.decode row).snd, (CallRow.decode row).role)

def called_by (ix : Index) (callee : UInt64) : Res (List (UInt64 × UInt8)) :=
  rowsOfKey ix.crev_slice ix.hdr.crev_n CALL_LEN callee fun row =>
    ((CallRow.decode row).snd, (CallRow.decode row).role)

end Index

end Scry2
