import Scry2.Builder
import Scry2.Peek

/-!
# Kythe entries

The messages of `kythe.rs` and how it reads their texts: edge kinds, ordinals, node kinds, the
operator of a builtin and the descriptor of a JVM method.
-/

open Scry2.Lib

namespace Scry2

/-- `twox_hash::XxHash64` with seed 0. -/
class XxHash64 where
  hash : Bytes → UInt64

/-- A hash with the values of a table. -/
@[reducible] def hashTable (rows : List (String × UInt64)) : XxHash64 :=
  ⟨fun b => ((rows.find? fun r => as_bytes r.1 = b).map Prod.snd).getD 0⟩

def sym_of [XxHash64] (name : String) : UInt64 := XxHash64.hash (as_bytes name)

/-! ## VNames -/

namespace VName

def to_symbol_string (v : VName) : String :=
  "kythe:" ++ v.language ++ ":" ++ v.corpus ++ "#" ++ v.root ++ "#" ++ v.path ++ "#" ++ v.signature

def is_empty (v : VName) : Bool :=
  v.signature = "" && v.corpus = "" && v.root = "" && v.path = "" && v.language = ""

def lang_byte (v : VName) : UInt8 :=
  ([("c++", Lang.CXX), ("java", Lang.JAVA), ("jvm", Lang.JVM), ("go", Lang.GO), ("proto", Lang.PROTO),
    ("rust", Lang.RUST), ("kotlin", Lang.KOTLIN)].lookup v.language).getD Lang.UNK

/-- The sym of a node. -/
def sym [XxHash64] (v : VName) : UInt64 := sym_of v.to_symbol_string

end VName

structure Entry where
  source : VName := {}
  edge_kind : String := ""
  target : VName := {}
  fact_name : String := ""
  fact_value : Bytes := []
  deriving DecidableEq

/-! ## Parts of texts -/

/-- `str::trim_end`. -/
def trimEnd (cs : List Char) : List Char := (cs.reverse.dropWhile is_whitespace).reverse

/-- `split(pat).next()` where the pattern occurs: what is before its first occurrence. -/
def splitBefore (pat : List Char) : List Char → Option (List Char)
  | [] => none
  | c :: cs => if pat.isPrefixOf (c :: cs) then some [] else (splitBefore pat cs).map (c :: ·)

/-- `rsplit(pat).next()`: what is after the last occurrence, or everything. -/
def rsplitAfter (pat cs : List Char) : List Char :=
  ((splitBefore pat.reverse cs.reverse).getD cs.reverse).reverse

/-- `str::parse::<u32>`: digits, with a `+` in front of them or not. -/
def parse_u32 (cs : List Char) : Option UInt32 :=
  let digits := match cs with
    | '+' :: rest => rest
    | cs => cs
  if digits = [] || !digits.all Char.isDigit then none
  else
    let n := digits.foldl (fun n c => 10 * n + (c.toNat - '0'.toNat)) 0
    if n < 2 ^ 32 then some (UInt32.ofNat n) else none

def parse_ascii_u32 (b : Bytes) : Option UInt32 := (from_utf8 b).bind fun s => parse_u32 s.toList

/-- `std::str::from_utf8(..).unwrap_or("")`. -/
def utf8Text (b : Bytes) : String := (from_utf8 b).getD ""

/-! ## Edge kinds -/

/-- The kind without its ordinal. -/
def edgeBase (kind : String) : String := String.ofList (kind.toList.takeWhile (· ≠ '.'))

def edge_to_role (kind : String) : Option UInt8 :=
  [("/kythe/edge/defines/binding", Role.DECL), ("/kythe/edge/defines", Role.DEF),
    ("/kythe/edge/ref", Role.REF), ("/kythe/edge/ref/call", Role.CALL),
    ("/kythe/edge/ref/writes", Role.REF), ("/kythe/edge/ref/imports", Role.REF)].lookup (edgeBase kind)

def is_inherit_edge (kind : String) : Bool :=
  ["/kythe/edge/extends", "/kythe/edge/extends/private", "/kythe/edge/extends/protected",
    "/kythe/edge/extends/public", "/kythe/edge/overrides", "/kythe/edge/satisfies"].contains (edgeBase kind)

def is_completes_edge (kind : String) : Bool :=
  ["/kythe/edge/completes", "/kythe/edge/completes/uniquely"].contains (edgeBase kind)

def is_childof_edge (kind : String) : Bool := edgeBase kind == "/kythe/edge/childof"

def is_named_edge (kind : String) : Bool := edgeBase kind == "/kythe/edge/named"

def parse_param_ordinal (kind : String) : Option UInt32 :=
  let pat := "/kythe/edge/param.".toList
  if pat.isPrefixOf kind.toList then parse_u32 (kind.toList.drop pat.length) else none

/-! ## Node kinds -/

def node_kind_byte (s : String) : UInt8 :=
  ([("function", Kind.FUNCTION), ("record", Kind.TYPE), ("interface", Kind.TYPE), ("variable", Kind.VARIABLE),
    ("constant", Kind.FIELD), ("field", Kind.FIELD), ("package", Kind.PACKAGE)].lookup s).getD Kind.UNK

def is_type_node_kind (kind : String) : Bool :=
  ["tapp", "tbuiltin", "tvar", "record", "interface", "sum", "talias"].contains kind

/-- The part of the signature of a `tbuiltin` node before `#builtin`. -/
def builtin_op_of (signature : String) : Option String :=
  let cs := signature.toList
  let pat := "#builtin".toList
  let op := if pat.isSuffixOf cs then some (cs.take (cs.length - pat.length)) else splitBefore pat cs
  match op with
  | none => none
  | some op => if op = [] then none else some (String.ofList op)

/-! ## JVM descriptors -/

/-- The match is on bytes; all that it lists are ASCII. -/
def is_jvm_type_byte (c : Char) : Bool :=
  [';', '[', '/', '$', '_'].contains c || ('a' ≤ c && c ≤ 'z') || ('A' ≤ c && c ≤ 'Z') || ('0' ≤ c && c ≤ '9')

/-- The signature without `(params)ret` at its end. -/
def strip_jvm_method_descriptor (sig : String) : Option String :=
  let cs := sig.toList
  if '(' ∉ cs then none
  else
    let after := rsplitAfter ['('] cs
    if ')' ∉ after then none
    else
      let params := after.takeWhile (· ≠ ')')
      let ret := after.drop (params.length + 1)
      if !params.all is_jvm_type_byte || ret = [] || !ret.all is_jvm_type_byte then none
      else some (String.ofList (cs.take (cs.length - after.length - 1)))

end Scry2
