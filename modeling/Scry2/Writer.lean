import Scry2.Reader
import Scry2.Facts

/-!
# The two writers

`finish` sorts the tables of one builder and writes them out. `write_merged_snapshot` folds the
sorted tables of any number of open indexes and of one builder, row by row. Both compute the rows
of every section first and then place them in the file; a file of `2 ^ 63` bytes or more cannot be
sized (`set_len`), so neither produces one.
-/

open Scry2.Lib
open Std (ExtTreeMap)

namespace Scry2

/-! ## The string blob -/

/-- Append the clamped string of every row to the blob, and make of each row one that holds the
slot of its string. -/
def pushStrs {α ρ : Type} (str : α → String) (mk : α → Nat → Nat → ρ) (blob : Bytes) :
    List α → List ρ × Bytes
  | [] => ([], blob)
  | a :: l =>
    let s := clamp_blob_str (str a)
    let rest := pushStrs str mk (blob ++ as_bytes s) l
    (mk a blob.length (len s) :: rest.1, rest.2)

/-- The order of the name index: the bytes of the name, then the symbol. -/
def nameLe (blob : Bytes) (a b : NameRow) : Prop :=
  a.bytes blob < b.bytes blob ∨ a.bytes blob = b.bytes blob ∧ a.sym ≤ b.sym

instance (blob : Bytes) (a b : NameRow) : Decidable (nameLe blob a b) := by
  unfold nameLe; exact inferInstance

/-- `by_name.sort_by(..)`, a stable sort. -/
def sortNames (blob : Bytes) (by_name : List NameRow) : List NameRow :=
  by_name.insertionSort (nameLe blob)

/-! ## The sections of a file -/

structure Rows where
  xrefs : List XrefRow
  syms : List SymRow
  names : List NameRow
  files : List FileRow
  inh : List InhRow
  inhrev : List InhRow
  calls : List CallRow
  crev : List CallRow
  typed : List TypeRow
  childrev : List InhRow
  sig : List TypeRow
  blob : Bytes
  trigram_dict : Bytes
  trigram_post : Bytes

/-- Every section with its place, in the order in which both writers seek to them. -/
def Rows.sections (r : Rows) (h : Header) : List (Nat × Bytes) :=
  [(h.xrefs_off, r.xrefs.flatMap XrefRow.encode), (h.syms_off, r.syms.flatMap SymRow.encode),
   (h.names_off, r.names.flatMap NameRow.encode), (h.files_off, r.files.flatMap FileRow.encode),
   (h.inh_off, r.inh.flatMap InhRow.encode), (h.inhrev_off, r.inhrev.flatMap InhRow.encode),
   (h.calls_off, r.calls.flatMap CallRow.encode), (h.crev_off, r.crev.flatMap CallRow.encode),
   (h.typed_off, r.typed.flatMap TypeRow.encode), (h.childrev_off, r.childrev.flatMap InhRow.encode),
   (h.sig_off, r.sig.flatMap TypeRow.encode), (h.blob_off, r.blob),
   (h.trigram_dict_off, r.trigram_dict), (h.trigram_post_off, r.trigram_post)]

/-! ## `finish` -/

/-- The header of `finish`, with its section offsets. -/
def Rows.finishHeader (r : Rows) : Header :=
  let xrefs_off := pad_up size_of_header
  let syms_off := pad_up (xrefs_off + r.xrefs.length * XREF_LEN)
  let names_off := pad_up (syms_off + r.syms.length * SYM_LEN)
  let files_off := pad_up (names_off + r.names.length * NAME_LEN)
  let inh_off := pad_up (files_off + r.files.length * FILE_LEN)
  let inhrev_off := pad_up (inh_off + r.inh.length * INH_LEN)
  let calls_off := pad_up (inhrev_off + r.inhrev.length * INH_LEN)
  let crev_off := pad_up (calls_off + r.calls.length * CALL_LEN)
  let typed_off := pad_up (crev_off + r.crev.length * CALL_LEN)
  let childrev_off := pad_up (typed_off + r.typed.length * TYPE_LEN)
  let sig_off := pad_up (childrev_off + r.childrev.length * INH_LEN)
  let blob_off := pad_up (sig_off + r.sig.length * TYPE_LEN)
  let trigram_dict_off := pad_up (blob_off + r.blob.length)
  let trigram_post_off := pad_up (trigram_dict_off + r.trigram_dict.length)
  { magic := MAGIC, version := VERSION, xrefs_off, xrefs_n := r.xrefs.length,
    syms_off, syms_n := r.syms.length, names_off, names_n := r.names.length,
    files_off, files_n := r.files.length, inh_off, inh_n := r.inh.length,
    inhrev_off, inhrev_n := r.inhrev.length, calls_off, calls_n := r.calls.length,
    crev_off, crev_n := r.crev.length, typed_off, typed_n := r.typed.length,
    childrev_off, childrev_n := r.childrev.length, sig_off, sig_n := r.sig.length,
    blob_off, blob_len := r.blob.length,
    trigram_dict_off, trigram_dict_n := r.trigram_dict.length / TRIGRAM_LEN,
    trigram_post_off, trigram_post_len := r.trigram_post.length }

/-- The header first, then every section at its place. -/
def Rows.finishFile (r : Rows) : Res Bytes :=
  let hdr := r.finishHeader
  let total := hdr.trigram_post_off + hdr.trigram_post_len
  if total < 2 ^ 63 then .ok (setLen (place (writeAt [] 0 hdr.bytes) (r.sections hdr)) total)
  else .error (.err "set_len")

/-- The symbols of variable kind in a sym table. -/
def varSyms (syms : List (UInt64 × SymMeta)) : List UInt64 :=
  (syms.filter fun e => e.2.kind = Kind.VARIABLE).map Prod.fst

namespace IndexBuilder

def finishRows (b : IndexBuilder) : Rows :=
  let xrefs := sortDedup b.xrefs
  let syms_vec := b.syms.toList
  let name_pos := pushStrs (fun e => e.2.name) (fun _ off len => (off, len)) [] syms_vec
  let var_syms := varSyms syms_vec
  let aliases := sortDedup (b.aliases.filter fun r => r.sym ∉ var_syms)
  let alias_pos := pushStrs StrRow.text (fun r off len => (r.sym, off, len)) name_pos.2 aliases
  let files_vec := b.files.toList
  let path_pos := pushStrs Prod.snd (fun _ off len => (off, len)) alias_pos.2 files_vec
  let by_name := syms_vec.zipWith (fun e p => NameRow.mk p.1 p.2 e.1) name_pos.1 ++
    alias_pos.1.map fun a => NameRow.mk a.2.1 a.2.2 a.1
  let by_name := sortNames path_pos.2 by_name
  let inherits := sortDedup b.inherits
  let inh_rev := (inherits.map fun r => InhRow.mk r.snd r.fst).insertionSort (· ≤ ·)
  let calls := sortDedup b.calls
  let calls_rev := (calls.map fun r => CallRow.mk r.snd r.fst r.role).insertionSort (· ≤ ·)
  let typed_pos := pushStrs StrRow.text (fun r off len => TypeRow.mk r.sym off len) path_pos.2
    (dedup_by_key StrRow.sym none (sortDedup b.typed))
  let childof := sortDedup b.childof
  let sig_pos := pushStrs StrRow.text (fun r off len => TypeRow.mk r.sym off len) typed_pos.2
    (dedup_by_key StrRow.sym none (sortDedup b.sig))
  let trigrams := build_trigram_index by_name sig_pos.2
  { xrefs
    syms := syms_vec.zipWith (fun e p => SymRow.mk e.1 e.2.kind e.2.lang p.1 p.2) name_pos.1
    names := by_name
    files := files_vec.zipWith (fun e p => FileRow.mk e.1 p.1 p.2) path_pos.1
    inh := inherits, inhrev := inh_rev, calls, crev := calls_rev
    typed := typed_pos.1, childrev := childof, sig := sig_pos.1, blob := sig_pos.2
    trigram_dict := trigrams.1, trigram_post := trigrams.2 }

/-- The file that `finish` writes. -/
def finish (b : IndexBuilder) : Res Bytes := b.finishRows.finishFile

end IndexBuilder

/-! ## The streaming merge -/

section

variable [Unicode]

def merge_sorted_dedup {α : Type} [LinearOrder α] (a b : List α) : List α := mergeFrom none a b

def merge_aliases_dedup (a b : List StrRow) : List StrRow := mergeFrom none a b

def merge_syms_refine (a b : List (UInt64 × SymMeta)) : List (UInt64 × SymMeta) :=
  mergeKeyed SymMeta.refine a b

def merge_files_first_wins (a b : List (UInt32 × String)) : List (UInt32 × String) :=
  mergeKeyed (fun p _ => p) a b

def merge_typed_by_sym (a b : List (UInt64 × String)) : List (UInt64 × String) :=
  mergeKeyed pickText a b

/-- The streams of all sources folded from the left. -/
def fold_sources {α : Type} (streams : List (List α)) (merge : List α → List α → List α) : List α :=
  streams.foldl merge []

/-- A delta's `typed` or `sig` table: one row per symbol, sorted by symbol. -/
def deltaTexts (rows : List StrRow) : List (UInt64 × String) :=
  ((dedup_by_key StrRow.sym none (sortDedup rows)).map fun r => (r.sym, r.text)).insertionSort
    fun a b => a.1 ≤ b.1

/-- The header of the merge. Offsets are chosen as the sections land; `crev` has as many rows as
`calls`. -/
def Rows.mergedHeader (r : Rows) : Header :=
  let n_calls := r.calls.length
  let xrefs_off := pad_up size_of_header
  let syms_off := pad_up (xrefs_off + r.xrefs.length * XREF_LEN)
  let names_off := pad_up (syms_off + r.syms.length * SYM_LEN)
  let files_off := pad_up (names_off + r.names.length * NAME_LEN)
  let inh_off := pad_up (files_off + r.files.length * FILE_LEN)
  let inhrev_off := pad_up (inh_off + r.inh.length * INH_LEN)
  let calls_off := pad_up (inhrev_off + r.inhrev.length * INH_LEN)
  let crev_off := pad_up (calls_off + n_calls * CALL_LEN)
  let typed_off := pad_up (crev_off + n_calls * CALL_LEN)
  let childrev_off := pad_up (typed_off + r.typed.length * TYPE_LEN)
  let sig_off := pad_up (childrev_off + r.childrev.length * INH_LEN)
  let blob_off := pad_up (sig_off + r.sig.length * TYPE_LEN)
  let trigram_dict_off := pad_up (blob_off + r.blob.length)
  let trigram_post_off := pad_up (trigram_dict_off + r.trigram_dict.length)
  { magic := MAGIC, version := VERSION, xrefs_off, xrefs_n := r.xrefs.length,
    syms_off, syms_n := r.syms.length, names_off, names_n := r.names.length,
    files_off, files_n := r.files.length, inh_off, inh_n := r.inh.length,
    inhrev_off, inhrev_n := r.inhrev.length, calls_off, calls_n := n_calls,
    crev_off, crev_n := n_calls, typed_off, typed_n := r.typed.length,
    childrev_off, childrev_n := r.childrev.length, sig_off, sig_n := r.sig.length,
    blob_off, blob_len := r.blob.length,
    trigram_dict_off, trigram_dict_n := r.trigram_dict.length / TRIGRAM_LEN,
    trigram_post_off, trigram_post_len := r.trigram_post.length }

/-- A placeholder header, every section, and then the real header over the placeholder. -/
def Rows.mergedFile (r : Rows) : Res Bytes :=
  let placeholder : Header := { magic := MAGIC, version := VERSION }
  let hdr := r.mergedHeader
  let total := hdr.trigram_post_off + hdr.trigram_post_len
  if total < 2 ^ 63 then
    .ok (setLen (writeAt (place (writeAt [] 0 placeholder.bytes) (r.sections hdr)) 0 hdr.bytes) total)
  else .error (.err "set_len")

namespace IndexBuilder

def mergedRows (b : IndexBuilder) (sources : List Index) : Res Rows := do
  let delta_typed := deltaTexts b.typed
  let delta_sig := deltaTexts b.sig
  let prior_aliases := sortDedup (← sources.mapM Index.iter_aliases).flatten
  let xrefs := merge_sorted_dedup (fold_sources (sources.map Index.iter_xrefs) merge_sorted_dedup)
    (sortDedup b.xrefs)
  let syms := merge_syms_refine (fold_sources (← sources.mapM Index.iter_syms) merge_syms_refine)
    b.syms.toList
  let var_syms := varSyms syms
  let sym_rows := pushStrs (fun e => e.2.name)
    (fun e off len => SymRow.mk e.1 e.2.kind e.2.lang off len) [] syms
  let aliases := (merge_aliases_dedup prior_aliases (sortDedup b.aliases)).filter
    fun r => r.sym ∉ var_syms
  let alias_rows := pushStrs StrRow.text (fun r off len => NameRow.mk off len r.sym) sym_rows.2 aliases
  let by_name := (sym_rows.1.map fun r => NameRow.mk r.name_off r.name_len r.sym) ++ alias_rows.1
  let by_name := sortNames alias_rows.2 by_name
  -- Built while the blob holds the names only; the slots stay valid as it grows.
  let trigrams := build_trigram_index by_name alias_rows.2
  let files := merge_files_first_wins
    (fold_sources (← sources.mapM Index.iter_files) merge_files_first_wins) b.files.toList
  let file_rows := pushStrs Prod.snd (fun e off len => FileRow.mk e.1 off len) alias_rows.2 files
  let inh := merge_sorted_dedup (fold_sources (sources.map Index.iter_inherits) merge_sorted_dedup)
    (sortDedup b.inherits)
  let inh_rev := (inh.map fun r => InhRow.mk r.snd r.fst).insertionSort (· ≤ ·)
  let calls := merge_sorted_dedup (fold_sources (sources.map Index.iter_calls) merge_sorted_dedup)
    (sortDedup b.calls)
  let calls_rev := (calls.map fun r => CallRow.mk r.snd r.fst r.role).insertionSort (· ≤ ·)
  let typed := (merge_typed_by_sym
    (fold_sources (← sources.mapM Index.iter_typed) merge_typed_by_sym) delta_typed).filter
    fun e => e.2 ≠ ""
  let typed_rows := pushStrs Prod.snd (fun e off len => TypeRow.mk e.1 off len) file_rows.2 typed
  let childrev := merge_sorted_dedup
    (fold_sources (sources.map Index.iter_childrev) merge_sorted_dedup) (sortDedup b.childof)
  let sig := (merge_typed_by_sym
    (fold_sources (← sources.mapM Index.iter_sig) merge_typed_by_sym) delta_sig).filter
    fun e => e.2 ≠ ""
  let sig_rows := pushStrs Prod.snd (fun e off len => TypeRow.mk e.1 off len) typed_rows.2 sig
  return {
    xrefs, syms := sym_rows.1, names := by_name, files := file_rows.1
    inh, inhrev := inh_rev, calls, crev := calls_rev
    typed := typed_rows.1, childrev, sig := sig_rows.1, blob := sig_rows.2
    trigram_dict := trigrams.1, trigram_post := trigrams.2 }

/-- The file that `write_merged_snapshot` writes. -/
def write_merged_snapshot (b : IndexBuilder) (sources : List Index) : Res Bytes := do
  (← b.mergedRows sources).mergedFile

end IndexBuilder

/-! ## Coalescing cached shards -/

namespace IndexBuilder

/-- The global id of every local one, by the path it names; a path without one is left out. -/
def l2gOf (global_of : String → Option UInt32) (files : List (UInt32 × String)) :
    ExtTreeMap UInt32 UInt32 :=
  files.foldl (fun m e =>
    match global_of e.2 with
    | some g => m.insert e.1 g
    | none => m) ∅

def addRemappedXref (l2g : ExtTreeMap UInt32 UInt32) (b : IndexBuilder) (r : XrefRow) : IndexBuilder :=
  match l2g[r.file]? with
  | some g => b.add_xref r.sym r.role g r.offset
  | none => b

def upsertRemappedFile (l2g : ExtTreeMap UInt32 UInt32) (b : IndexBuilder) (e : UInt32 × String) :
    IndexBuilder :=
  match l2g[e.1]? with
  | some g => b.upsert_file g e.2
  | none => b

/-- Replay a shard, its local file ids replaced by the global id of the path they name. Rows of a
path without one are skipped. -/
def populate_from_shard_remapped (b : IndexBuilder) (shard : Index) (global_of : String → Option UInt32) :
    Res IndexBuilder := do
  let files ← shard.iter_files
  let l2g := l2gOf global_of files
  let b := shard.iter_xrefs.foldl (addRemappedXref l2g) b
  let b := (← shard.iter_syms).foldl (fun b e => b.upsert_sym e.1 e.2.kind e.2.lang e.2.name) b
  let b := files.foldl (upsertRemappedFile l2g) b
  let b := shard.iter_inherits.foldl (fun b r => b.add_inherit r.fst r.snd) b
  let b := shard.iter_calls.foldl (fun b r => b.add_call r.fst r.snd r.role) b
  let b := (← shard.iter_aliases).foldl (fun b r => b.add_alias r.sym r.text) b
  let b := (← shard.iter_typed).foldl (fun b e => b.add_type e.1 e.2) b
  let b := shard.iter_childrev.foldl (fun b r => b.add_childof r.snd r.fst) b
  let b := (← shard.iter_sig).foldl (fun b e => b.add_sig e.1 e.2) b
  return b

end IndexBuilder

def coalesce_shards_remapped (shards : List Bytes) (global_of : String → Option UInt32) : Res Bytes := do
  let delta ← shards.foldlM (fun delta shard => do
    delta.populate_from_shard_remapped (← open_index shard) global_of) IndexBuilder.new
  delta.write_merged_snapshot []

def merge_group_global (sources : List Bytes) : Res Bytes := do
  IndexBuilder.new.write_merged_snapshot (← sources.mapM open_index)

end

end Scry2
