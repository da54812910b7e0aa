import Scry2.Lookup
import Scry2.Substring

/-!
# The verbs of the server

`server.rs`: a request is answered from an open index. What the verbs ask of the index is kept in
one record, so that a verb depends on nothing but the answers.
-/

open Scry2.Lib

namespace Scry2

/-! ## What is asked of an index -/

structure Queries where
  sym_meta : UInt64 → Res (Option (String × UInt8 × UInt8))
  syms_for_name : String → Res (List UInt64)
  syms_matching_substring : String → Nat → Res (List UInt64)
  syms_matching_substring_ci : String → Nat → Res (List UInt64)
  xrefs : UInt64 → UInt8 → UInt8 → List XrefRow
  file_path : UInt32 → Res (Option String)
  type_of : UInt64 → Res (Option String)
  sig_of : UInt64 → Res (Option String)
  members : UInt64 → Res (List UInt64)
  inherits_of : UInt64 → Res (List UInt64)
  inherited_by : UInt64 → Res (List UInt64)
  calls_from : UInt64 → Res (List (UInt64 × UInt8))
  called_by : UInt64 → Res (List (UInt64 × UInt8))

/-- The answers of an index, on a machine with `parallelism` threads. -/
def Index.queries [Memmem] (ix : Index) (parallelism : Nat) : Queries where
  sym_meta := ix.sym_meta
  syms_for_name := ix.syms_for_name
  syms_matching_substring := ix.syms_matching_substring parallelism
  syms_matching_substring_ci := ix.syms_matching_substring_ci parallelism
  xrefs := ix.xrefs
  file_path := ix.file_path
  type_of := ix.type_of
  sig_of := ix.sig_of
  members := ix.members
  inherits_of := ix.inherits_of
  inherited_by := ix.inherited_by
  calls_from := ix.calls_from
  called_by := ix.called_by

namespace Queries

variable (ix : Queries)

/-- The path of the first row that has one. -/
def firstPath : List XrefRow → Res (Option String)
  | [] => .ok none
  | r :: rows => do
    match ← ix.file_path r.file with
    | some p => return some p
    | none => firstPath rows

def sym_def_path (sym : UInt64) : Res (Option String) := ix.firstPath (ix.xrefs sym Role.DECL Role.DEF)

/-- A `DEF` row wins over a `DECL` row. -/
def sym_def_loc (sym : UInt64) : Option (UInt32 × UInt32) :=
  let rows := ix.xrefs sym Role.DECL Role.DEF
  ((rows.find? (·.role = Role.DEF)).or (rows.find? (·.role = Role.DECL))).map fun r => (r.file, r.offset)

end Queries

/-! ## Filters -/

structure PathFilter where
  in_ : Option String := none
  not_in : Option String := none
  def_in : Option String := none

namespace PathFilter

def passes (filt : PathFilter) (path : String) : Bool :=
  filt.in_.all (fun s => s = "" || contains path s) && filt.not_in.all fun s => s = "" || !contains path s

def has_in_out (filt : PathFilter) : Bool := filt.in_.any (· ≠ "") || filt.not_in.any (· ≠ "")

/-- Whether the definition of a symbol passes `--def-in`. -/
def def_ok (filt : PathFilter) (ix : Queries) (sym : UInt64) : Res Bool :=
  match filt.def_in with
  | none => .ok true
  | some needle =>
    if needle = "" then .ok true
    else do return (← ix.sym_def_path sym).any (contains · needle)

end PathFilter

/-! ## Replies -/

def role_str (r : UInt8) : String :=
  ([(Role.DECL, "decl"), (Role.DEF, "def"), (Role.REF, "ref"), (Role.CALL, "call")].lookup r).getD "?"

def kind_str (k : UInt8) : String :=
  ([(Kind.FUNCTION, "fn"), (Kind.TYPE, "type"), (Kind.VARIABLE, "var"), (Kind.FIELD, "field"),
    (Kind.PACKAGE, "pkg")].lookup k).getD "?"

def lang_str (l : UInt8) : String :=
  ([(Lang.CXX, "cxx"), (Lang.JAVA, "java"), (Lang.JVM, "jvm"), (Lang.GO, "go"), (Lang.PROTO, "proto"),
    (Lang.RUST, "rust"), (Lang.KOTLIN, "kt")].lookup l).getD "?"

structure XrefHit where
  role : String
  file : String
  off : UInt32
  deriving DecidableEq

structure SymbolGroup where
  name : String
  kind : String
  lang : String
  typed : Option String
  sig : Option String
  rows : List XrefHit
  deriving DecidableEq

/-- `TypeHit` and `SigHit`. -/
structure TextHit where
  name : String
  kind : String
  lang : String
  text : String
  deriving DecidableEq

structure MemberHit where
  name : String
  kind : String
  lang : String
  sig : Option String
  deriving DecidableEq

inductive WalkDir where
  | root
  | up
  | down
  deriving DecidableEq

structure CallNode where
  id : UInt32
  parent : Option UInt32
  hop : Nat
  dir : WalkDir
  name : String
  kind : String
  def_ : Option String
  deriving DecidableEq

inductive Reply where
  | Xrefs (groups : List SymbolGroup) (total : Nat) (truncated : Bool)
  | Type (hits : List TextHit) (total : Nat) (truncated : Bool)
  | Sig (hits : List TextHit) (total : Nat) (truncated : Bool)
  | Members (container : String) (members : List MemberHit) (total : Nat) (truncated : Bool)
  | Callgraph (nodes : List CallNode) (total : Nat) (truncated : Bool)
  | Inheritance (nodes : List CallNode) (total : Nat) (truncated : Bool)
  deriving DecidableEq

/-! ## Names -/

def SUBSTR_AGG_CAP : Nat := 64

/-- The signature of a ticket, or the whole of any other name. -/
def logical_key (name : String) : String :=
  if is_ticket_name name then String.ofList (name.toList.reverse.takeWhile (· ≠ '#')).reverse else name

/-- `{:016x}`. -/
def hex16 (s : UInt64) : String :=
  String.ofList ((List.range 16).reverse.map fun i => Nat.digitChar (s.toNat / 16 ^ i % 16))

namespace Queries

variable (ix : Queries)

/-- `sym_meta(..).unwrap_or(("?", 0, 0))`. -/
def metaOr (sym : UInt64) : Res (String × UInt8 × UInt8) := do return (← ix.sym_meta sym).getD ("?", 0, 0)

def name_of (s : UInt64) : Res String := do
  return ((← ix.sym_meta s).map (·.1)).getD ("<sym " ++ hex16 s ++ ">")

def kind_of (s : UInt64) : Res String := do return kind_str (((← ix.sym_meta s).map (·.2.1)).getD 0)

def def_loc_str (sym : UInt64) : Res (Option String) :=
  match ix.sym_def_loc sym with
  | none => .ok none
  | some (file, off) => do return (← ix.file_path file).map fun path => path ++ "@" ++ toString off

def display_name (sym : UInt64) (name : String) : Res String :=
  if !is_ticket_name name then .ok name
  else do
    let loc ← match ix.sym_def_loc sym with
      | none => pure none
      | some (file, off) =>
        pure ((← ix.file_path file).map fun path => "anon@" ++ path ++ "@" ++ toString off)
    match loc with
    | some s => return s
    | none =>
      let sig := logical_key name
      return if sig = "" then name else sig

/-! ## Xrefs -/

section

variable (filt : PathFilter) (max_hits : Nat)

/-- The rows of one symbol, and whether `max_hits` was reached. -/
def collectRows : List XrefRow → List XrefHit → Nat → Res (List XrefHit × Nat × Bool)
  | [], rows, total => .ok (rows, total, false)
  | r :: rest, rows, total => do
    let path := (← ix.file_path r.file).getD "?"
    if !filt.passes path then collectRows rest rows total
    else
      let rows := rows ++ [⟨role_str r.role, path, r.offset⟩]
      let total := total + 1
      if max_hits ≤ total then return (rows, total, true) else collectRows rest rows total

/-- `if with_type { .. } else { None }`. -/
def ifAsked (with_type : Bool) (text : Res (Option String)) : Res (Option String) :=
  if with_type then text else .ok none

/-- The loop over the symbols, which the cap leaves early. -/
def collectGroups (roles : UInt8 × UInt8) (with_type : Bool) :
    List UInt64 → List SymbolGroup → Nat → Bool → Res (List SymbolGroup × Nat × Bool)
  | [], groups, total, truncated => .ok (groups, total, truncated)
  | sym :: syms, groups, total, truncated => do
    if !(← filt.def_ok ix sym) then collectGroups roles with_type syms groups total truncated
    else
      let (sname, knd, lng) ← ix.metaOr sym
      let typed ← ifAsked with_type (ix.type_of sym)
      let sig ← ifAsked with_type (ix.sig_of sym)
      let (rows, total, stop) ← ix.collectRows filt max_hits (ix.xrefs sym roles.1 roles.2) [] total
      let group : SymbolGroup := ⟨sname, kind_str knd, lang_str lng, typed, sig, rows⟩
      if stop then return (groups ++ [group], total, true)
      else collectGroups roles with_type syms (if rows = [] then groups else groups ++ [group]) total truncated

end

def do_xrefs (name : String) (substr ignore_case : Bool) (sym_cap : Nat) (roles : UInt8 × UInt8)
    (max_hits : Nat) (filt : PathFilter) (with_type : Bool) : Res Reply := do
  let syms ← if substr then
      if ignore_case then ix.syms_matching_substring_ci name sym_cap
      else ix.syms_matching_substring name sym_cap
    else ix.syms_for_name name
  let truncated := substr && decide (sym_cap ≤ syms.length)
  let (groups, total, truncated) ← ix.collectGroups filt max_hits roles with_type syms [] 0 truncated
  return .Xrefs groups total truncated

/-! ## Types, signatures and members -/

/-- What `type`, `sig` and `members` start from. -/
def gather (name : String) (substr : Bool) (limit : Nat) : Res (List UInt64) :=
  if substr then ix.syms_matching_substring name (max limit SUBSTR_AGG_CAP) else ix.syms_for_name name

/-- One hit for each distinct pair of logical key and text. -/
def textHits (text_of : UInt64 → Res (Option String)) (limit : Nat) :
    List UInt64 → List (String × String) → List TextHit → Res (List TextHit)
  | [], _, hits => .ok hits
  | sym :: syms, seen, hits => do
    match ← text_of sym with
    | none => textHits text_of limit syms seen hits
    | some text =>
      let (sname, knd, lng) ← ix.metaOr sym
      let key := (logical_key sname, text)
      if key ∈ seen then textHits text_of limit syms seen hits
      else
        let hits := hits ++ [⟨sname, kind_str knd, lang_str lng, text⟩]
        if limit ≤ hits.length then return hits else textHits text_of limit syms (key :: seen) hits

def do_type (name : String) (substr : Bool) (limit : Nat) : Res Reply := do
  let syms ← ix.gather name substr limit
  let hits ← ix.textHits ix.type_of limit syms [] []
  return .Type hits hits.length (decide (limit ≤ hits.length))

def do_sig (name : String) (substr : Bool) (limit : Nat) : Res Reply := do
  let syms ← ix.gather name substr limit
  let hits ← ix.textHits ix.sig_of limit syms [] []
  return .Sig hits hits.length (decide (limit ≤ hits.length))

def is_container (k : UInt8) : Bool := k = Kind.TYPE || k = Kind.PACKAGE

/-- The tables of `do_members`. -/
structure MemberState where
  seen : List UInt64 := []
  rendered : List (String × String × Option String) := []
  members : List MemberHit := []

/-- The children of one container, and whether `limit` was reached. -/
def memberHits (limit : Nat) : List UInt64 → MemberState → Res (MemberState × Bool)
  | [], st => .ok (st, false)
  | child :: rest, st => do
    if child ∈ st.seen then memberHits limit rest st
    else
      let st := { st with seen := child :: st.seen }
      let (mname, mkind, mlang) ← ix.metaOr child
      let sig ← ix.sig_of child
      let key := (logical_key mname, kind_str mkind, sig)
      if key ∈ st.rendered then memberHits limit rest st
      else
        let st := { st with
          rendered := key :: st.rendered
          members := st.members ++ [⟨mname, kind_str mkind, lang_str mlang, sig⟩] }
        if limit ≤ st.members.length then return (st, true) else memberHits limit rest st

/-- The loop over the containers, with the name of the last one. -/
def memberGroups (limit : Nat) : List UInt64 → String → MemberState → Res (String × MemberState × Bool)
  | [], container, st => .ok (container, st, false)
  | sym :: syms, container, st => do
    let (cname, ckind, _) ← ix.metaOr sym
    if !is_container ckind then memberGroups limit syms container st
    else
      let (st, stop) ← ix.memberHits limit (← ix.members sym) st
      if stop then return (cname, st, true) else memberGroups limit syms cname st

def do_members (name : String) (substr : Bool) (limit : Nat) : Res Reply := do
  let syms ← ix.gather name substr limit
  let (container, st, truncated) ← ix.memberGroups limit syms name {}
  return .Members container st.members st.members.length truncated

end Queries

end Scry2
