import Scry2.Names
import Scry2.Format
import Scry2.Lib.Maps

/-!
# The in-memory tables

`IndexBuilder` of `writer.rs`. The tables that only grow are lists in arrival order; `syms` and
`files` are keyed. Empty aliases, types and signatures are dropped when they arrive, which the
builder carries as fields.
-/

open Scry2.Lib
open Std (ExtTreeMap)

namespace Scry2

/-! ## Rows that hold a string -/

/-- What is known of a symbol: `(kind, lang, name)`. -/
@[ext] structure SymMeta where
  kind : UInt8
  lang : UInt8
  name : String
deriving DecidableEq

/-- A string attached to a symbol: an alias, a type or a signature. -/
@[ext] structure StrRow where
  sym : UInt64
  text : String
deriving DecidableEq

def StrRow.key (r : StrRow) : UInt64 ×ₗ Bytes := toLex (r.sym, as_bytes r.text)

theorem StrRow.key_injective : Function.Injective StrRow.key := by
  rintro ⟨_, _⟩ ⟨_, _⟩ h
  simp only [StrRow.key, EmbeddingLike.apply_eq_iff_eq, Prod.mk.injEq] at h
  exact StrRow.ext h.1 (as_bytes_injective h.2)

instance : LinearOrder StrRow := LinearOrder.lift' StrRow.key StrRow.key_injective

theorem StrRow.lt_iff (a b : StrRow) :
    a < b ↔ a.sym < b.sym ∨ a.sym = b.sym ∧ as_bytes a.text < as_bytes b.text := by
  change a.key < b.key ↔ _
  simp only [StrRow.key, Prod.Lex.toLex_lt_toLex]

theorem StrRow.sym_le_of_lt {a b : StrRow} (h : a < b) : a.sym ≤ b.sym := by
  rcases (StrRow.lt_iff a b).mp h with h | h
  · exact h.le
  · exact h.1.le

/-- What a later record adds to an earlier one: a known kind and language stay, the name is chosen
by `prefers_name`. -/
def SymMeta.refine [Unicode] (e new : SymMeta) : SymMeta where
  kind := if e.kind = Kind.UNK then new.kind else e.kind
  lang := if e.lang = Lang.UNK then new.lang else e.lang
  name := pickName e.name new.name

theorem SymMeta.refine_assoc [Unicode] (a b c : SymMeta) :
    (a.refine b).refine c = a.refine (b.refine c) := by
  ext1
  · simp only [SymMeta.refine]; split_ifs <;> simp_all
  · simp only [SymMeta.refine]; split_ifs <;> simp_all
  · exact pickName_assoc _ _ _

/-! ## The builder -/

structure IndexBuilder where
  xrefs : List XrefRow := []
  syms : ExtTreeMap UInt64 SymMeta := ∅
  files : ExtTreeMap UInt32 String := ∅
  inherits : List InhRow := []
  aliases : List StrRow := []
  calls : List CallRow := []
  typed : List StrRow := []
  /-- Stored reversed, as `(parent, child)`. -/
  childof : List InhRow := []
  sig : List StrRow := []
  aliases_ne : ∀ r ∈ aliases, r.text ≠ "" := by simp
  typed_ne : ∀ r ∈ typed, r.text ≠ "" := by simp
  sig_ne : ∀ r ∈ sig, r.text ≠ "" := by simp

namespace IndexBuilder

def new : IndexBuilder := {}

/-- Append a row unless its string is empty. -/
def pushText (rows : List StrRow) (sym : UInt64) (text : String) : List StrRow :=
  if text = "" then rows else rows ++ [⟨sym, text⟩]

theorem pushText_ne {rows : List StrRow} (h : ∀ r ∈ rows, r.text ≠ "") (sym : UInt64) (text : String) :
    ∀ r ∈ pushText rows sym text, r.text ≠ "" := by
  unfold pushText
  split_ifs with ht
  · exact h
  · simp only [List.mem_append, List.mem_singleton]
    rintro r (hr | rfl)
    · exact h r hr
    · exact ht

def add_xref (b : IndexBuilder) (sym : UInt64) (role : UInt8) (file offset : UInt32) : IndexBuilder :=
  { b with xrefs := b.xrefs ++ [⟨sym, role, file, offset⟩] }

def add_inherit (b : IndexBuilder) (child parent : UInt64) : IndexBuilder :=
  { b with inherits := b.inherits ++ [⟨child, parent⟩] }

def add_call (b : IndexBuilder) (caller callee : UInt64) (role : UInt8) : IndexBuilder :=
  { b with calls := b.calls ++ [⟨caller, callee, role⟩] }

def add_childof (b : IndexBuilder) (child parent : UInt64) : IndexBuilder :=
  { b with childof := b.childof ++ [⟨parent, child⟩] }

def add_alias (b : IndexBuilder) (sym : UInt64) (name : String) : IndexBuilder :=
  { b with aliases := pushText b.aliases sym name, aliases_ne := pushText_ne b.aliases_ne sym name }

def add_type (b : IndexBuilder) (sym : UInt64) (type_str : String) : IndexBuilder :=
  { b with typed := pushText b.typed sym type_str, typed_ne := pushText_ne b.typed_ne sym type_str }

def add_sig (b : IndexBuilder) (sym : UInt64) (sig : String) : IndexBuilder :=
  { b with sig := pushText b.sig sym sig, sig_ne := pushText_ne b.sig_ne sym sig }

/-- `or_insert`: the first path of an id stays. -/
def firstPath (path : String) (old : Option String) : Option String := some (old.getD path)

def upsert_file (b : IndexBuilder) (file : UInt32) (path : String) : IndexBuilder :=
  { b with files := b.files.alter file (firstPath path) }

/-- `and_modify(|e| e.0 = kind::FIELD).or_insert(..)`. -/
def markField : Option SymMeta → Option SymMeta
  | some e => some { e with kind := Kind.FIELD }
  | none => some ⟨Kind.FIELD, Lang.UNK, ""⟩

def mark_field (b : IndexBuilder) (sym : UInt64) : IndexBuilder :=
  { b with syms := b.syms.alter sym markField }

section

variable [Unicode]

/-- `and_modify(refine).or_insert(new)`. -/
def refineEntry (new : SymMeta) : Option SymMeta → Option SymMeta
  | some e => some (e.refine new)
  | none => some new

def upsert_sym (b : IndexBuilder) (sym : UInt64) (kind lang : UInt8) (name : String) : IndexBuilder :=
  { b with syms := b.syms.alter sym (refineEntry ⟨kind, lang, name⟩) }

def set_sym_name (b : IndexBuilder) (sym : UInt64) (name : String) : IndexBuilder :=
  if name = "" then b
  else
    { b with
      syms := b.syms.alter sym fun
        | some e => some { e with name := pickName e.name name }
        | none => some ⟨Kind.UNK, Lang.UNK, name⟩ }

def merge_from (b other : IndexBuilder) : IndexBuilder where
  xrefs := b.xrefs ++ other.xrefs
  syms := other.syms.foldl (fun m k e => m.alter k (refineEntry e)) b.syms
  files := other.files.foldl (fun m k p => m.alter k (firstPath p)) b.files
  inherits := b.inherits ++ other.inherits
  aliases := b.aliases ++ other.aliases
  calls := b.calls ++ other.calls
  typed := b.typed ++ other.typed
  childof := b.childof ++ other.childof
  sig := b.sig ++ other.sig
  aliases_ne := by simpa [or_imp, forall_and] using ⟨b.aliases_ne, other.aliases_ne⟩
  typed_ne := by simpa [or_imp, forall_and] using ⟨b.typed_ne, other.typed_ne⟩
  sig_ne := by simpa [or_imp, forall_and] using ⟨b.sig_ne, other.sig_ne⟩

end

def delta_row_count (b : IndexBuilder) : Nat :=
  b.xrefs.length + b.inherits.length + b.calls.length + b.aliases.length + b.typed.length +
    b.childof.length + b.sig.length

/-- Sort and deduplicate every table that only grows; the rows left are counted. -/
def dedup_tables (b : IndexBuilder) : IndexBuilder × Nat :=
  let b' : IndexBuilder :=
    { b with
      xrefs := sortDedup b.xrefs
      inherits := sortDedup b.inherits
      calls := sortDedup b.calls
      aliases := sortDedup b.aliases
      typed := sortDedup b.typed
      childof := sortDedup b.childof
      sig := sortDedup b.sig
      aliases_ne := fun r hr => b.aliases_ne r (mem_sortDedup.mp hr)
      typed_ne := fun r hr => b.typed_ne r (mem_sortDedup.mp hr)
      sig_ne := fun r hr => b.sig_ne r (mem_sortDedup.mp hr) }
  (b', b'.delta_row_count)

/-! ## Local file ids -/

/-- The sorted distinct paths of the builder. -/
def localPaths (b : IndexBuilder) : List Bytes := sortDedup (b.files.toList.map fun e => as_bytes e.2)

/-- The rank of a path among them. -/
def local_of (b : IndexBuilder) (path : String) : UInt32 :=
  UInt32.ofNat (b.localPaths.idxOf (as_bytes path))

/-- The local id of a global one, by the path it names. -/
def g2l (b : IndexBuilder) (g : UInt32) : Option UInt32 := b.files[g]?.map b.local_of

/-- Rewrite every file id to the rank of its path among the paths of this builder. An xref whose
id has no path keeps it. -/
def localize_file_ids (b : IndexBuilder) : IndexBuilder × List (UInt32 × String) :=
  let b' : IndexBuilder :=
    { b with
      xrefs := b.xrefs.map fun r => { r with file := (b.g2l r.file).getD r.file }
      files := b.files.foldl (fun m _ p => m.insert (b.local_of p) p) ∅ }
  (b', b'.files.toList)

/-! ## What the keyed tables hold after a merge -/

section

variable [Unicode]

theorem merge_from_syms (b other : IndexBuilder) (k : UInt64) :
    (b.merge_from other).syms[k]? = combine SymMeta.refine b.syms[k]? other.syms[k]? := by
  rw [merge_from, getElem?_foldl_map]
  cases other.syms[k]? <;> cases b.syms[k]? <;> rfl

theorem merge_from_files (b other : IndexBuilder) (k : UInt32) :
    (b.merge_from other).files[k]? = combine (fun p _ => p) b.files[k]? other.files[k]? := by
  rw [merge_from, getElem?_foldl_map]
  cases other.files[k]? <;> cases b.files[k]? <;> rfl

end

end IndexBuilder

end Scry2
