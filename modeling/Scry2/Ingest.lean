import Scry2.Alloc
import Scry2.Lib.Distinct
import Scry2.TypeRender

/-!
# Ingesting entries

`process_entry` of `kythe.rs` and what it leaves for the end of the stream. The rows of an anchor
wait until its kind and its start are known; everything keyed by a symbol waits for the `completes`
edges, which may be the last entries.
-/

open Scry2.Lib
open Std (ExtTreeMap)

namespace Scry2

/-! ## The state -/

/-- The body of `sym`. -/
structure BodyAnchor where
  file : UInt32
  start : UInt32
  stop : UInt32
  sym : UInt64
  deriving DecidableEq

def BodyAnchor.key (b : BodyAnchor) : UInt32 ×ₗ UInt32 := toLex (b.file, b.start)

/-- `sort_unstable_by_key`: ranges with one key come in any order. -/
class SortUnstable where
  sort : List BodyAnchor → List BodyAnchor
  perm : ∀ l, (sort l).Perm l
  sorted : ∀ l, (sort l).Pairwise fun a b => a.key ≤ b.key

/-- A stable sort is one. -/
@[reducible] def stableSort : SortUnstable where
  sort l := l.mergeSort fun a b => decide (a.key ≤ b.key)
  perm l := List.mergeSort_perm l _
  sorted l := (List.pairwise_mergeSort (fun a b c => by simpa using le_trans)
    (fun a b => by simpa using le_total a.key b.key) l).imp of_decide_eq_true

structure CallSite where
  file : UInt32
  start : UInt32
  sym : UInt64
  role : UInt8
  deriving DecidableEq

structure AnchorAccum where
  is_anchor : Bool := false
  path : String := ""
  start : Option UInt32 := none
  /-- `end` of the source. -/
  stop : Option UInt32 := none
  pending : List (VName × UInt8) := []
  body_def_sym : Option UInt64 := none

/-- Where the rows of the anchors go. -/
structure Sinks where
  body_anchors : List BodyAnchor := []
  call_sites : List CallSite := []
  xrefs : List XrefRow := []
  builder : IndexBuilder
  file_ids : FileIdAllocator

structure IngestState where
  anchors : ExtTreeMap String AnchorAccum := ∅
  completes_bridges : ExtTreeMap String String := ∅
  aliases : List StrRow := []
  /-- `(child, parent)`. -/
  inherits : List (UInt64 × UInt64) := []
  inherit_parent_keys : List String := []
  /-- `(child, parent)`. -/
  childof : List (UInt64 × UInt64) := []
  types : TypeSide := {}
  sinks : Sinks

/-! ## Entries -/

/-- What an entry is to the ingest: the branch that `process_entry` takes. -/
inductive Event where
  | completes (target : VName)
  | named (fqn : String)
  | inherit (target : VName)
  | typed (target : VName)
  | param (ord : UInt32) (target : VName)
  | childof (target : VName)
  | ref (target : VName) (role : UInt8)
  | code (value : Bytes)
  | anchor
  | node (value : String)
  | subkind (value : String)
  | start (v : UInt32)
  | stop (v : UInt32)
  | skip

def edgeEvent (kind : String) (target : VName) : Event :=
  if is_completes_edge kind && !target.is_empty then .completes target
  else if is_named_edge kind && target.signature ≠ "" then .named target.signature
  else if is_inherit_edge kind && !target.is_empty then .inherit target
  else if kind = "/kythe/edge/typed" && !target.is_empty then .typed target
  else match parse_param_ordinal kind with
    | some ord => if target.is_empty then .skip else .param ord target
    | none =>
      if is_childof_edge kind && !target.is_empty then .childof target
      else match edge_to_role kind with
        | some role => .ref target role
        | none => .skip

def factEvent (name : String) (value : Bytes) : Event :=
  if name = "/kythe/code" then .code value
  else if name = "/kythe/node/kind" then if utf8Text value = "anchor" then .anchor else .node (utf8Text value)
  else if name = "/kythe/subkind" then .subkind (utf8Text value)
  else if name = "/kythe/loc/start" then (parse_ascii_u32 value).elim .skip .start
  else if name = "/kythe/loc/end" then (parse_ascii_u32 value).elim .skip .stop
  else .skip

def Entry.event (e : Entry) : Event :=
  if e.source.is_empty then .skip
  else if e.edge_kind ≠ "" then edgeEvent e.edge_kind e.target
  else factEvent e.fact_name e.fact_value

section

variable [XxHash64] [Unicode]

/-! ## Anchors -/

/-- `file_ids.intern(path)` and `builder.upsert_file(file_id, path)`. -/
def Sinks.touch (s : Sinks) (path : String) : Option (UInt32 × Sinks) := do
  let (file, file_ids) ← s.file_ids.intern path
  return (file, { s with file_ids, builder := s.builder.upsert_file file path })

def emit_xref_resolved (target : VName) (role : UInt8) (file offset : UInt32) (s : Sinks) : Sinks :=
  if target.is_empty then s
  else
    { s with
      builder := s.builder.upsert_sym target.sym Kind.UNK target.lang_byte target.to_symbol_string
      xrefs := s.xrefs ++ [⟨target.sym, role, file, offset⟩] }

def pushSite (target : VName) (role : UInt8) (file start : UInt32) (s : Sinks) : Sinks :=
  if role = Role.REF ∨ role = Role.CALL then
    { s with call_sites := s.call_sites ++ [⟨file, start, target.sym, role⟩] }
  else s

def pushBody (target : VName) (role : UInt8) (file start : UInt32) (stop : Option UInt32) (s : Sinks) : Sinks :=
  match decide (role = Role.DEF), stop with
  | true, some stop => { s with body_anchors := s.body_anchors ++ [⟨file, start, stop, target.sym⟩] }
  | _, _ => s

/-- The rows of an edge whose anchor is known. -/
def emitRef (file start : UInt32) (stop : Option UInt32) (s : Sinks) (edge : VName × UInt8) : Sinks :=
  pushBody edge.1 edge.2 file start stop
    (pushSite edge.1 edge.2 file start (emit_xref_resolved edge.1 edge.2 file start s))

/-- The body that an anchor still has to report, after a pending edge. -/
def AnchorAccum.consume (a : AnchorAccum) (edge : VName × UInt8) : AnchorAccum :=
  if edge.2 = Role.DEF then { a with body_def_sym := if a.stop.isSome then none else some edge.1.sym } else a

def flush_ready (a : AnchorAccum) (s : Sinks) : Option (AnchorAccum × Sinks) :=
  match a.is_anchor, a.start with
  | true, some start => do
    let (file, s) ← s.touch a.path
    return (a.pending.foldl AnchorAccum.consume { a with pending := [] },
      a.pending.foldl (emitRef file start a.stop) s)
  | _, _ => some (a, s)

/-- `anchors.entry(source_key).or_default()`. -/
def IngestState.accum (st : IngestState) (source : VName) : AnchorAccum :=
  st.anchors[source.to_symbol_string]?.getD {}

/-- `if a.path.is_empty() { a.path = e.source.path.clone(); }`. -/
def AnchorAccum.withPath (a : AnchorAccum) (path : String) : AnchorAccum :=
  { a with path := if a.path = "" then path else a.path }

def IngestState.setAccum (st : IngestState) (source : VName) (a : AnchorAccum) (s : Sinks) : IngestState :=
  { st with anchors := st.anchors.insert source.to_symbol_string a, sinks := s }

/-- `if role_byte == role::DEF { a.body_def_sym = Some(target_sym); }`. -/
def AnchorAccum.define (a : AnchorAccum) (target : VName) (role : UInt8) : AnchorAccum :=
  if role = Role.DEF then { a with body_def_sym := some target.sym } else a

def processRef (source target : VName) (role : UInt8) (st : IngestState) : Option IngestState :=
  let a := ((st.accum source).withPath source.path).define target role
  match a.is_anchor, a.start with
  | true, some start => do
    let (file, s) ← st.sinks.touch a.path
    return st.setAccum source a (emitRef file start a.stop s (target, role))
  | _, _ => some (st.setAccum source { a with pending := a.pending ++ [(target, role)] } st.sinks)

def processAnchor (source : VName) (st : IngestState) : Option IngestState := do
  let (a, s) ← flush_ready ({ st.accum source with is_anchor := true }.withPath source.path) st.sinks
  return st.setAccum source a s

def processStart (source : VName) (v : UInt32) (st : IngestState) : Option IngestState := do
  let (a, s) ← flush_ready { (st.accum source).withPath source.path with start := some v } st.sinks
  return st.setAccum source a s

def processStop (source : VName) (v : UInt32) (st : IngestState) : Option IngestState :=
  let a := { st.accum source with stop := some v }
  match a.is_anchor, a.start, a.body_def_sym with
  | true, some start, some sym => do
    let (file, s) ← st.sinks.touch a.path
    return st.setAccum source a { s with body_anchors := s.body_anchors ++ [⟨file, start, v, sym⟩] }
  | _, _, _ => some (st.setAccum source a st.sinks)

/-! ## The other events -/

/-- The alias and what it is without a JVM descriptor. -/
def namedAliases (sym : UInt64) (raw : String) : List StrRow :=
  match strip_jvm_method_descriptor raw with
  | some stripped => if stripped ≠ raw then [⟨sym, raw⟩, ⟨sym, stripped⟩] else [⟨sym, raw⟩]
  | none => [⟨sym, raw⟩]

/-- The name that `/kythe/code` renders to, unless it has no letter or digit. -/
def codeAliases (sym : UInt64) (value : Bytes) : List StrRow :=
  match (parse_marked_source_fqn value).filter (!is_degenerate_render ·) with
  | some fqn => [⟨sym, fqn⟩]
  | none => []

def TypeSide.addCode (types : TypeSide) (key : String) (value : Bytes) : TypeSide :=
  { types with code := types.code.alter key fun old => some (old.getD value) }

def TypeSide.addParam (types : TypeSide) (key : String) (ord : UInt32) (target : String) : TypeSide :=
  { types with params := types.params.alter key fun old => some ((old.getD ∅).insert ord target) }

/-- What a `/kythe/node/kind` other than `anchor` tells the type renderer. -/
def TypeSide.addNode (types : TypeSide) (source : VName) (value : String) : TypeSide :=
  let key := source.to_symbol_string
  let types := if node_kind_byte value = Kind.FUNCTION then { types with functions := types.functions ++ [key] } else types
  if is_type_node_kind value then
    let types := { types with kind := types.kind.insert key value }
    match decide (value = "tbuiltin"), builtin_op_of source.signature with
    | true, some op => { types with builtin_op := types.builtin_op.insert key op }
    | _, _ => types
  else types

def IngestState.withBuilder (st : IngestState) (b : IndexBuilder) : IngestState :=
  { st with sinks := { st.sinks with builder := b } }

/-- `none` is the panic when the file ids run out. -/
def process_entry (e : Entry) (st : IngestState) : Option IngestState :=
  let key := e.source.to_symbol_string
  let sym := e.source.sym
  match e.event with
  | .completes target =>
    some { st with completes_bridges := st.completes_bridges.insert key target.to_symbol_string }
  | .named fqn => some { st with aliases := st.aliases ++ namedAliases sym fqn }
  | .inherit target =>
    some { st with
      inherits := st.inherits ++ [(sym, target.sym)]
      inherit_parent_keys := st.inherit_parent_keys ++ [target.to_symbol_string] }
  | .typed target =>
    some { st with types := { st.types with edges := st.types.edges ++ [(key, target.to_symbol_string)] } }
  | .param ord target => some { st with types := st.types.addParam key ord target.to_symbol_string }
  | .childof target => some { st with childof := st.childof ++ [(sym, target.sym)] }
  | .ref target role => processRef e.source target role st
  | .code value =>
    some { st with aliases := st.aliases ++ codeAliases sym value, types := st.types.addCode key value }
  | .anchor => processAnchor e.source st
  | .node value =>
    some { st.withBuilder (st.sinks.builder.upsert_sym sym (node_kind_byte value) e.source.lang_byte key) with
      types := st.types.addNode e.source value }
  | .subkind value =>
    if value = "field" ∨ value = "constant" then some (st.withBuilder (st.sinks.builder.mark_field sym)) else some st
  | .start v => processStart e.source v st
  | .stop v => processStop e.source v st
  | .skip => some st

/-! ## The end of the stream -/

/-- From the sym of a definition to that of its declaration. -/
def IngestState.bridge (st : IngestState) : ExtTreeMap UInt64 UInt64 :=
  st.completes_bridges.foldl (fun m defn decl => m.insert (sym_of defn) (sym_of decl)) ∅

def IngestState.remap (st : IngestState) (s : UInt64) : UInt64 := st.bridge[s]?.getD s

/-- `slice::partition_point`: the slice starts with all that satisfy `p`. -/
def partition_point {α : Type} (p : α → Bool) (l : List α) : Nat := (l.takeWhile p).length

def innermost_containing (body_anchors : List BodyAnchor) (file off : UInt32) : Option UInt64 :=
  let upper := partition_point (fun b => b.key ≤ toLex (file, off)) body_anchors
  let file_start := partition_point (fun b => b.file < file) body_anchors
  (((body_anchors.take upper).drop file_start).reverse.find? (off < ·.stop)).map (·.sym)

def emitXrefs (st : IngestState) (b : IndexBuilder) : IndexBuilder :=
  st.sinks.xrefs.foldl (fun b r => b.add_xref (st.remap r.sym) r.role r.file r.offset) b

def emitAliases (st : IngestState) (b : IndexBuilder) : IndexBuilder :=
  st.aliases.foldl (fun b r => b.add_alias (st.remap r.sym) r.text) b

/-- The cleanest alias of each sym. -/
def IngestState.best_name (st : IngestState) : ExtTreeMap UInt64 String :=
  st.aliases.foldl (fun m r => m.alter (st.remap r.sym) fun
    | some cur => some (pickName cur r.text)
    | none => some r.text) ∅

def nameSyms (st : IngestState) (b : IndexBuilder) : IndexBuilder :=
  st.best_name.foldl (fun b sym name => b.set_sym_name sym name) b

def emitInherits (st : IngestState) (b : IndexBuilder) : IndexBuilder :=
  st.inherits.foldl (fun b e => b.add_inherit (st.remap e.1) (st.remap e.2)) b

/-- A supertype takes the name that its type node renders to. -/
def nameParent (st : IngestState) (b : IndexBuilder) (key : String) : IndexBuilder :=
  match render_type (CuTypeGraph st.types) key with
  | some rendered => b.set_sym_name (st.remap (sym_of key)) rendered
  | none => b

def nameParents [SetOrder] (st : IngestState) (b : IndexBuilder) : IndexBuilder :=
  (SetOrder.elems st.inherit_parent_keys).foldl (nameParent st) b

def emitChildof (st : IngestState) (b : IndexBuilder) : IndexBuilder :=
  st.childof.foldl (fun b e => b.add_childof (st.remap e.1) (st.remap e.2)) b

def emitCall (st : IngestState) (bodies : List BodyAnchor) (b : IndexBuilder) (c : CallSite) : IndexBuilder :=
  match innermost_containing bodies c.file c.start with
  | some enc => b.add_call (st.remap enc) (st.remap c.sym) c.role
  | none => b

def emitCalls [SortUnstable] (st : IngestState) (b : IndexBuilder) : IndexBuilder :=
  st.sinks.call_sites.foldl (emitCall st (SortUnstable.sort st.sinks.body_anchors)) b

def emitType (st : IngestState) (b : IndexBuilder) (edge : String × String) : IndexBuilder :=
  match render_type (CuTypeGraph st.types) edge.2 with
  | some rendered => b.add_type (st.remap (sym_of edge.1)) rendered
  | none => b

def emitTypes (st : IngestState) (b : IndexBuilder) : IndexBuilder := st.types.edges.foldl (emitType st) b

def emitSig (st : IngestState) (b : IndexBuilder) (fn_key : String) : IndexBuilder :=
  match render_signature st.types fn_key with
  | some sig => b.add_sig (st.remap (sym_of fn_key)) sig
  | none => b

def emitSigs (st : IngestState) (b : IndexBuilder) : IndexBuilder := st.types.functions.foldl (emitSig st) b

/-- What happens to the buffered rows when the stream has ended. -/
def finalize [SetOrder] [SortUnstable] (st : IngestState) : IndexBuilder :=
  emitSigs st <| emitTypes st <| emitCalls st <| emitChildof st <| nameParents st <| emitInherits st <|
    nameSyms st <| emitAliases st <| emitXrefs st st.sinks.builder

/-- The builder and the file ids after all entries of a unit. -/
def ingestEntries [SetOrder] [SortUnstable] (es : List Entry) (builder : IndexBuilder)
    (file_ids : FileIdAllocator) : Option (IndexBuilder × FileIdAllocator) := do
  let st ← es.foldlM (fun st e => process_entry e st) { sinks := { builder, file_ids } }
  return (finalize st, st.sinks.file_ids)

end

/-! ## Room for file ids -/

theorem assign_of_room {a : FileIdAllocator} (h : a.next + 1 < 2 ^ 32) (path : String) (accessed : Bool) :
    a.assign path accessed = some ⟨a.map.insert path (UInt32.ofNat a.next, accessed), a.next + 1⟩ := by
  rw [FileIdAllocator.assign, FileIdAllocator.succ, if_pos h]
  rfl

theorem touch_of_room {s : Sinks} (h : s.file_ids.next + 1 < 2 ^ 32) (path : String) :
    ∃ file s', s.touch path = some (file, s') ∧ s'.file_ids.next ≤ s.file_ids.next + 1 := by
  unfold Sinks.touch FileIdAllocator.intern
  cases s.file_ids.map[path]? with
  | some e => exact ⟨_, _, rfl, Nat.le_succ _⟩
  | none =>
    simp only [assign_of_room h]
    exact ⟨_, _, rfl, le_refl _⟩

section

variable [XxHash64] [Unicode]

theorem emitRef_file_ids (file start : UInt32) (stop : Option UInt32) (s : Sinks) (edge : VName × UInt8) :
    (emitRef file start stop s edge).file_ids = s.file_ids := by
  unfold emitRef pushBody pushSite emit_xref_resolved
  split <;> split_ifs <;> rfl

theorem emitRefs_file_ids (file start : UInt32) (stop : Option UInt32) (edges : List (VName × UInt8)) (s : Sinks) :
    (edges.foldl (emitRef file start stop) s).file_ids = s.file_ids := by
  induction edges generalizing s with
  | nil => rfl
  | cons edge edges ih => rw [List.foldl_cons, ih, emitRef_file_ids]

theorem flush_of_room {s : Sinks} (h : s.file_ids.next + 1 < 2 ^ 32) (a : AnchorAccum) :
    ∃ a' s', flush_ready a s = some (a', s') ∧ s'.file_ids.next ≤ s.file_ids.next + 1 := by
  unfold flush_ready
  split
  · obtain ⟨file, s', htouch, hnext⟩ := touch_of_room h a.path
    rw [htouch]
    exact ⟨_, _, rfl, by rw [emitRefs_file_ids]; exact hnext⟩
  · exact ⟨a, s, rfl, Nat.le_succ _⟩

/-- An entry takes at most one new id. -/
theorem process_of_room {st : IngestState} (h : st.sinks.file_ids.next + 1 < 2 ^ 32) (e : Entry) :
    ∃ st', process_entry e st = some st' ∧ st'.sinks.file_ids.next ≤ st.sinks.file_ids.next + 1 := by
  unfold process_entry
  cases e.event with
  | ref target role =>
    simp only [processRef]
    split
    · obtain ⟨file, s', htouch, hnext⟩ :=
        touch_of_room h (((st.accum e.source).withPath e.source.path).define target role).path
      simp only [htouch]
      refine ⟨_, rfl, ?_⟩
      simpa only [IngestState.setAccum, emitRef_file_ids] using hnext
    · exact ⟨_, rfl, Nat.le_succ _⟩
  | anchor =>
    obtain ⟨a', s', hflush, hnext⟩ :=
      flush_of_room h ({ st.accum e.source with is_anchor := true }.withPath e.source.path)
    simp only [processAnchor, hflush]
    exact ⟨_, rfl, hnext⟩
  | start v =>
    obtain ⟨a', s', hflush, hnext⟩ :=
      flush_of_room h { (st.accum e.source).withPath e.source.path with start := some v }
    simp only [processStart, hflush]
    exact ⟨_, rfl, hnext⟩
  | stop v =>
    simp only [processStop]
    split
    · obtain ⟨file, s', htouch, hnext⟩ := touch_of_room h (st.accum e.source).path
      simp only [htouch]
      exact ⟨_, rfl, hnext⟩
    · exact ⟨_, rfl, Nat.le_succ _⟩
  | subkind value =>
    simp only
    split
    · exact ⟨_, rfl, Nat.le_succ _⟩
    · exact ⟨_, rfl, Nat.le_succ _⟩
  | _ => exact ⟨_, rfl, Nat.le_succ _⟩

theorem run_of_room {st : IngestState} (es : List Entry) (h : st.sinks.file_ids.next + es.length < 2 ^ 32) :
    ∃ st', es.foldlM (fun st e => process_entry e st) st = some st' ∧
      st'.sinks.file_ids.next ≤ st.sinks.file_ids.next + es.length := by
  induction es generalizing st with
  | nil => exact ⟨st, rfl, le_refl _⟩
  | cons e es ih =>
    rw [List.length_cons] at h ⊢
    have hroom : st.sinks.file_ids.next + 1 < 2 ^ 32 := by omega
    obtain ⟨st₁, hstep, hnext⟩ := process_of_room hroom e
    have hroom' : st₁.sinks.file_ids.next + es.length < 2 ^ 32 := by omega
    obtain ⟨st', hrun, hlast⟩ := ih hroom'
    refine ⟨st', ?_, by omega⟩
    rw [List.foldlM_cons, hstep]
    exact hrun

end

end Scry2
