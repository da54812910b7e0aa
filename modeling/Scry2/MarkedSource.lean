import Scry2.Entry

/-!
# MarkedSource

How `kythe.rs` renders the `/kythe/code` of a node to a name. The decoder is not strict: it reads
fields as far as it can and takes what it has.
-/

open Scry2.Lib

namespace Scry2

def MS_BOX : UInt32 := 0
def MS_TYPE : UInt32 := 1
def MS_PARAMETER : UInt32 := 2
def MS_IDENTIFIER : UInt32 := 3
def MS_CONTEXT : UInt32 := 4
def MS_INITIALIZER : UInt32 := 5
def MS_LOOKUP_LO : UInt32 := 6
def MS_LOOKUP_HI : UInt32 := 11
def MS_MODIFIER : UInt32 := 12

/-! ## The wire format -/

def read_varint_at (buf : Bytes) (pos : Nat) : Option (UInt64 × Nat) := (read_varint_bytes buf pos).toOption

/-- `(field, wire, val_end, val_start)`. -/
def read_proto_field (buf : Bytes) (pos : Nat) : Option (UInt32 × UInt8 × Nat × Nat) := do
  let (tag, pos) ← read_varint_at buf pos
  let field := (tag >>> 3).toUInt32
  let wire := (tag &&& 0x7).toUInt8
  if wire = 0 then
    let (_, p2) ← read_varint_at buf pos
    return (field, wire, p2, pos)
  else if wire = 1 then
    let stop ← checked_add pos 8
    if stop ≤ buf.length then return (field, wire, stop, pos) else none
  else if wire = 2 then
    let (len, p2) ← read_varint_at buf pos
    let stop ← checked_add p2 len.toNat
    if buf.length < stop then none else return (field, wire, stop, p2)
  else if wire = 5 then
    let stop ← checked_add pos 4
    if stop ≤ buf.length then return (field, wire, stop, pos) else none
  else none

/-- The fields from `pos` on, with their payloads, up to the first that cannot be read. Every field
takes a byte, so the length of the buffer is enough fuel. -/
def protoFields (buf : Bytes) : Nat → Nat → List (UInt32 × UInt8 × Bytes)
  | 0, _ => []
  | fuel + 1, pos =>
    if pos < buf.length then
      match read_proto_field buf pos with
      | none => []
      | some (field, wire, val_end, val_start) =>
        (field, wire, (buf.drop val_start).take (val_end - val_start)) :: protoFields buf fuel val_end
    else []

/-! ## The tree -/

/-- A node as the renderers see it. -/
inductive MarkedSource where
  | node (kind : UInt32) (pre joiner post : String) (add_final : Bool) (kids : List MarkedSource)

/-- What `fields` reads of a node. -/
structure MsFields where
  pre : String := ""
  joiner : String := ""
  post : String := ""
  add_final : Bool := false
  kids : List Bytes := []

def MsFields.set (out : MsFields) : UInt32 × UInt8 × Bytes → MsFields
  | (2, 2, s) => { out with pre := from_utf8_lossy s }
  | (3, 2, s) => { out with kids := out.kids ++ [s] }
  | (4, 2, s) => { out with joiner := from_utf8_lossy s }
  | (5, 2, s) => { out with post := from_utf8_lossy s }
  | (10, 0, s) =>
    match read_varint_at s 0 with
    | some (v, _) => { out with add_final := v ≠ 0 }
    | none => out
  | _ => out

/-- The kind is the first one given. -/
def msKind (fields : List (UInt32 × UInt8 × Bytes)) : UInt32 :=
  match fields.find? fun f => f.1 = 1 && f.2.1 = 0 with
  | some f => (read_varint_at f.2.2 0).elim MS_BOX fun v => v.1.toUInt32
  | none => MS_BOX

namespace MarkedSource

/-- A child is shorter than its parent, so the length of the buffer is enough fuel. -/
def decode : Nat → Bytes → MarkedSource
  | 0, _ => .node MS_BOX "" "" "" false []
  | fuel + 1, buf =>
    let fields := protoFields buf buf.length 0
    let f := fields.foldl MsFields.set {}
    .node (msKind fields) f.pre f.joiner f.post f.add_final (f.kids.map (decode fuel))

def node_kind : MarkedSource → UInt32
  | .node kind .. => kind

def name_excluded (kind : UInt32) : Bool :=
  kind = MS_TYPE || kind = MS_PARAMETER || kind = MS_INITIALIZER || kind = MS_MODIFIER ||
    (MS_LOOKUP_LO ≤ kind && kind ≤ MS_LOOKUP_HI)

/-- What is left of a node's children between its texts. -/
def joined (joiner : String) (add_final : Bool) (kids : List String) : String :=
  joiner.intercalate kids ++ if kids ≠ [] && add_final then joiner else ""

mutual

def render_name : MarkedSource → String
  | .node kind pre joiner post add_final kids =>
    pre ++ joined joiner add_final (renderNames (kind = MS_IDENTIFIER) kids) ++
      if kind = MS_IDENTIFIER then "" else post

/-- An identifier keeps its identifiers only, any other node what is part of a name. -/
def renderNames (ident : Bool) : List MarkedSource → List String
  | [] => []
  | kid :: kids =>
    if (if ident then kid.node_kind = MS_IDENTIFIER else !name_excluded kid.node_kind) then
      render_name kid :: renderNames ident kids
    else renderNames ident kids

end

mutual

def render_faithful : MarkedSource → String
  | .node _ pre joiner post add_final kids => pre ++ joined joiner add_final (renderAll kids) ++ post

def renderAll : List MarkedSource → List String
  | [] => []
  | kid :: kids => render_faithful kid :: renderAll kids

end

mutual

/-- The contexts and identifiers in document order. -/
def collect (is_root : Bool) : MarkedSource → String
  | .node kind pre joiner post add_final kids =>
    if !is_root && name_excluded kind then ""
    else if kind = MS_CONTEXT || kind = MS_IDENTIFIER then
      render_name (.node kind pre joiner post add_final kids)
    else collectAll kids

def collectAll : List MarkedSource → String
  | [] => ""
  | kid :: kids => collect false kid ++ collectAll kids

end

end MarkedSource

/-! ## Names -/

/-- One line without statement punctuation. -/
def is_name (s : List Char) : Bool := s ≠ [] && s.all fun c => decide (c ∉ ['\n', '\r', '\x7b', '\x7d', ';'])

/-- `trim_end_matches(':').trim_end()`. -/
def trimColons (s : List Char) : List Char := trimEnd (s.reverse.dropWhile (· = ':')).reverse

def parse_marked_source_fqn (buf : Bytes) : Option String :=
  let ms := MarkedSource.decode buf.length buf
  let name := trimColons (trim (ms.collect true))
  if name ≠ [] then if is_name name then some (String.ofList name) else none
  else
    let full := trim ms.render_faithful
    if is_name full then some (String.ofList full) else none

/-- `trim_end_matches("<>")`, on the reversed text. -/
def dropAngles : List Char → List Char
  | '>' :: '<' :: cs => dropAngles cs
  | cs => cs

def typename_from_marked_source (code : Bytes) : Option String := do
  let name ← parse_marked_source_fqn code
  let trimmed := trimEnd (dropAngles name.toList.reverse).reverse
  if trimmed = [] then none else some (String.ofList trimmed)

def is_degenerate_render [Unicode] (s : String) : Bool :=
  let t := trim s
  t.isEmpty || !t.any Unicode.is_alphanumeric

/-- The last component, `::` split before `.`. -/
def short_name (fqn : String) : String :=
  String.ofList (rsplitAfter ['.'] (rsplitAfter [':', ':'] fqn.toList))

/-- Without the array declarator that a parameter's name can end with. -/
def bare_param_name (name : String) : String :=
  if '[' ∈ name.toList then String.ofList (trimEnd (name.toList.takeWhile (· ≠ '['))) else name

end Scry2
