import Scry2.Ingest
import Scry2.Lib.Folds

/-!
# What the other entries leave

An entry that says nothing of an anchor adds rows to the tables that wait for the end of the stream, or
sets what the key of a node stands for.
-/

open Scry2.Lib
open Std (ExtTreeMap)

namespace Scry2

/-- What an entry adds. The last five are keyed by its source. -/
structure Notes where
  aliases : List StrRow := []
  inherits : List (UInt64 × UInt64) := []
  parents : List String := []
  childof : List (UInt64 × UInt64) := []
  functions : List String := []
  edges : List (String × String) := []
  completes : List (String × String) := []
  kind : List (String × String) := []
  builtin_op : List (String × String) := []
  code : List (String × Bytes) := []
  params : List (String × UInt32 × String) := []

section

variable [XxHash64] [Unicode]

def nodeNotes (source : VName) (value : String) : Notes :=
  let key := source.to_symbol_string
  { functions := if node_kind_byte value = Kind.FUNCTION then [key] else []
    kind := if is_type_node_kind value then [(key, value)] else []
    builtin_op :=
      if is_type_node_kind value ∧ value = "tbuiltin" then (builtin_op_of source.signature).toList.map (key, ·) else [] }

def Entry.notes (e : Entry) : Notes :=
  let key := e.source.to_symbol_string
  let sym := e.source.sym
  match e.event with
  | .completes target => { completes := [(key, target.to_symbol_string)] }
  | .named fqn => { aliases := namedAliases sym fqn }
  | .inherit target => { inherits := [(sym, target.sym)], parents := [target.to_symbol_string] }
  | .typed target => { edges := [(key, target.to_symbol_string)] }
  | .param ord target => { params := [(key, ord, target.to_symbol_string)] }
  | .childof target => { childof := [(sym, target.sym)] }
  | .code value => { aliases := codeAliases sym value, code := [(key, value)] }
  | .node value => nodeNotes e.source value
  | _ => {}

end

/-! ## What a stream leaves -/

def setKey (m : ExtTreeMap String String) (x : String × String) : ExtTreeMap String String := m.insert x.1 x.2

/-- The first code of a node stays. -/
def keepCode (m : ExtTreeMap String Bytes) (x : String × Bytes) : ExtTreeMap String Bytes :=
  m.alter x.1 fun old => some (old.getD x.2)

def setParam (m : ExtTreeMap String (ExtTreeMap UInt32 String)) (x : String × UInt32 × String) :
    ExtTreeMap String (ExtTreeMap UInt32 String) :=
  m.alter x.1 fun old => some ((old.getD ∅).insert x.2.1 x.2.2)

/-- What `notes` make of `st`. -/
structure Noted (notes : List Notes) (st st' : IngestState) : Prop where
  aliases : st'.aliases = st.aliases ++ notes.flatMap (·.aliases)
  inherits : st'.inherits = st.inherits ++ notes.flatMap (·.inherits)
  parents : st'.inherit_parent_keys = st.inherit_parent_keys ++ notes.flatMap (·.parents)
  childof : st'.childof = st.childof ++ notes.flatMap (·.childof)
  functions : st'.types.functions = st.types.functions ++ notes.flatMap (·.functions)
  edges : st'.types.edges = st.types.edges ++ notes.flatMap (·.edges)
  completes : st'.completes_bridges = (notes.flatMap (·.completes)).foldl setKey st.completes_bridges
  kind : st'.types.kind = (notes.flatMap (·.kind)).foldl setKey st.types.kind
  builtin_op : st'.types.builtin_op = (notes.flatMap (·.builtin_op)).foldl setKey st.types.builtin_op
  code : st'.types.code = (notes.flatMap (·.code)).foldl keepCode st.types.code
  params : st'.types.params = (notes.flatMap (·.params)).foldl setParam st.types.params

theorem Noted.nil (st : IngestState) : Noted [] st st := by constructor <;> simp

theorem Noted.trans {n n' : List Notes} {st st₁ st₂ : IngestState} (h : Noted n st st₁) (h' : Noted n' st₁ st₂) :
    Noted (n ++ n') st st₂ where
  aliases := by rw [h'.aliases, h.aliases, List.flatMap_append, List.append_assoc]
  inherits := by rw [h'.inherits, h.inherits, List.flatMap_append, List.append_assoc]
  parents := by rw [h'.parents, h.parents, List.flatMap_append, List.append_assoc]
  childof := by rw [h'.childof, h.childof, List.flatMap_append, List.append_assoc]
  functions := by rw [h'.functions, h.functions, List.flatMap_append, List.append_assoc]
  edges := by rw [h'.edges, h.edges, List.flatMap_append, List.append_assoc]
  completes := by rw [h'.completes, h.completes, List.flatMap_append, List.foldl_append]
  kind := by rw [h'.kind, h.kind, List.flatMap_append, List.foldl_append]
  builtin_op := by rw [h'.builtin_op, h.builtin_op, List.flatMap_append, List.foldl_append]
  code := by rw [h'.code, h.code, List.flatMap_append, List.foldl_append]
  params := by rw [h'.params, h.params, List.flatMap_append, List.foldl_append]

theorem addNode_eq (types : TypeSide) (source : VName) (value : String) :
    types.addNode source value =
      { types with
        functions := types.functions ++ (nodeNotes source value).functions
        kind := (nodeNotes source value).kind.foldl setKey types.kind
        builtin_op := (nodeNotes source value).builtin_op.foldl setKey types.builtin_op } := by
  have hfun : (if node_kind_byte value = Kind.FUNCTION then
      { types with functions := types.functions ++ [source.to_symbol_string] } else types) =
      { types with functions := types.functions ++ (nodeNotes source value).functions } := by
    unfold nodeNotes
    split <;> simp
  unfold TypeSide.addNode
  simp only [hfun]
  by_cases hk : is_type_node_kind value = true
  · cases hb : decide (value = "tbuiltin") with
    | false => simp [nodeNotes, hk, of_decide_eq_false hb, setKey]
    | true =>
      obtain rfl := of_decide_eq_true hb
      cases hop : builtin_op_of source.signature with
      | none => simp [nodeNotes, hk, hop, setKey]
      | some op => simp [nodeNotes, hk, hop, setKey]
  · simp [nodeNotes, hk]

theorem Noted.setAccum [XxHash64] [Unicode] (st : IngestState) (v : VName) (a : AnchorAccum) (s : Sinks) :
    Noted [{}] st (st.setAccum v a s) := by constructor <;> simp [IngestState.setAccum]

theorem Noted.withBuilder [XxHash64] [Unicode] (st : IngestState) (b : IndexBuilder) : Noted [{}] st (st.withBuilder b) := by
  constructor <;> simp [IngestState.withBuilder]

theorem addNode_noted (st : IngestState) (source : VName) (value : String) (b : IndexBuilder) :
    Noted [nodeNotes source value] st { st.withBuilder b with types := st.types.addNode source value } := by
  rw [addNode_eq]
  constructor <;> simp [IngestState.withBuilder]
  all_goals simp [nodeNotes]

section

variable [XxHash64] [Unicode] {st st' : IngestState}

theorem processRef_noted {source t : VName} {role : UInt8} (h : processRef source t role st = some st') :
    Noted [{}] st st' := by
  simp only [processRef] at h
  split at h
  · simp only [Option.bind_eq_bind, Option.bind_eq_some_iff, Option.pure_def, Option.some.injEq] at h
    obtain ⟨_, -, rfl⟩ := h
    exact .setAccum ..
  · cases h
    exact .setAccum ..

theorem processAnchor_noted {source : VName} (h : processAnchor source st = some st') : Noted [{}] st st' := by
  simp only [processAnchor, Option.bind_eq_bind, Option.bind_eq_some_iff, Option.pure_def, Option.some.injEq] at h
  obtain ⟨_, -, rfl⟩ := h
  exact .setAccum ..

theorem processStart_noted {source : VName} {v : UInt32} (h : processStart source v st = some st') :
    Noted [{}] st st' := by
  simp only [processStart, Option.bind_eq_bind, Option.bind_eq_some_iff, Option.pure_def, Option.some.injEq] at h
  obtain ⟨_, -, rfl⟩ := h
  exact .setAccum ..

theorem processStop_noted {source : VName} {v : UInt32} (h : processStop source v st = some st') :
    Noted [{}] st st' := by
  simp only [processStop] at h
  split at h
  · simp only [Option.bind_eq_bind, Option.bind_eq_some_iff, Option.pure_def, Option.some.injEq] at h
    obtain ⟨_, -, rfl⟩ := h
    exact .setAccum ..
  · cases h
    exact .setAccum ..

theorem process_entry_noted {e : Entry} (h : process_entry e st = some st') : Noted [e.notes] st st' := by
  unfold process_entry at h
  unfold Entry.notes
  cases hev : e.event with
  | ref t role => exact processRef_noted (by simpa only [hev] using h)
  | anchor => exact processAnchor_noted (by simpa only [hev] using h)
  | start v => exact processStart_noted (by simpa only [hev] using h)
  | stop v => exact processStop_noted (by simpa only [hev] using h)
  | node value =>
    simp only [hev] at h
    cases h
    exact addNode_noted ..
  | subkind value =>
    simp only [hev] at h
    split at h
    · cases h
      exact .withBuilder ..
    · cases h
      exact .withBuilder st st.sinks.builder
  | _ =>
    simp only [hev] at h
    cases h
    constructor <;> simp [setKey, setParam, keepCode, TypeSide.addCode, TypeSide.addParam]

theorem noted_run {es : List Entry} (h : es.foldlM (fun st e => process_entry e st) st = some st') :
    Noted (es.map Entry.notes) st st' := by
  induction es generalizing st with
  | nil =>
    cases h
    exact .nil _
  | cons e es ih =>
    rw [List.foldlM_cons, Option.bind_eq_bind, Option.bind_eq_some_iff] at h
    obtain ⟨st₁, h₁, h₂⟩ := h
    exact (process_entry_noted h₁).trans (ih h₂)

end

end Scry2
