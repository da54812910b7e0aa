import Scry2.Server

/-!
# Walks over calls and inheritance

`do_callgraph` and `do_inheritance` of `server.rs` share one breadth-first walk. The copies of a
function are one node, under the logical key of their names, and the edges of a node are those of
all its copies.
-/

open Scry2.Lib
open Std (ExtTreeMap)

namespace Scry2

/-- One walk: the edges of a symbol up and down, how a name is shown, and the request. -/
structure Walk where
  ix : Queries
  up : UInt64 → Res (List UInt64)
  down : UInt64 → Res (List UInt64)
  display : UInt64 → String → Res String
  filt : PathFilter
  direction : String
  depth : Nat
  max_syms : Nat

structure WalkState where
  seen : ExtTreeMap UInt64 UInt32 := ∅
  nodes : List CallNode := []
  rendered : ExtTreeMap String UInt32 := ∅

/-- The symbols to expand, with the ids of their nodes. -/
abbrev Frontier := List (UInt64 × UInt32)

namespace Walk

variable (w : Walk)

def pass (s : UInt64) : Res Bool :=
  if !w.filt.has_in_out then .ok true
  else do return w.filt.passes ((← w.ix.sym_def_path s).getD "")

/-- The copies of a symbol: those under its stored name that share its logical key. -/
def dup_syms (rep : UInt64) : Res (List UInt64) := do
  let name ← w.ix.name_of rep
  let key := logical_key name
  let group ← (← w.ix.syms_for_name name).filterM fun s => do return decide (logical_key (← w.ix.name_of s) = key)
  return if rep ∈ group then group else group ++ [rep]

def edges : WalkDir → UInt64 → Res (List UInt64)
  | .root, _ => .ok []
  | .up, s => w.up s
  | .down, s => w.down s

/-- The edges of all copies. -/
def union (dir : WalkDir) (rep : UInt64) : Res (List UInt64) := do
  let outs ← (← w.dup_syms rep).mapM (w.edges dir)
  return sortDedup outs.flatten

/-- The closure `admit`: a new node for a symbol, unless it has been seen or its logical key has a node. -/
def admitSym (sym : UInt64) (parent_id : Option UInt32) (dir : WalkDir) (hop : Nat) (st : WalkState) :
    Res (Option UInt32 × WalkState) :=
  if sym ∈ st.seen then .ok (none, st)
  else do
    let name ← w.ix.name_of sym
    let key := logical_key name
    match st.rendered[key]? with
    | some existing => return (none, { st with seen := st.seen.insert sym existing })
    | none =>
      let def_ ← w.ix.def_loc_str sym
      let id := UInt32.ofNat st.nodes.length
      let node : CallNode := ⟨id, parent_id, hop, dir, ← w.display sym name, ← w.ix.kind_of sym, def_⟩
      return (some id, ⟨st.seen.insert sym id, st.nodes ++ [node], st.rendered.insert key id⟩)

/-- Admit the neighbours of one node. The cap ends the walk. -/
def admitAll (cur_id : UInt32) (dir : WalkDir) (hop : Nat) :
    List UInt64 → WalkState → Frontier → Res (WalkState × Frontier × Bool)
  | [], st, next => .ok (st, next, false)
  | sym :: syms, st, next => do
    if !(← w.pass sym) then admitAll cur_id dir hop syms st next
    else
      match ← w.admitSym sym (some cur_id) dir hop st with
      | (none, st) => admitAll cur_id dir hop syms st next
      | (some id, st) =>
        let next := next ++ [(sym, id)]
        if w.max_syms ≤ st.nodes.length then return (st, next, true)
        else admitAll cur_id dir hop syms st next

def go_up : Bool := w.direction = "up" || w.direction = "both"

def go_down : Bool := w.direction = "down" || w.direction = "both"

def goes : WalkDir → Bool
  | .root => false
  | .up => w.go_up
  | .down => w.go_down

/-- One node in one direction. -/
def expandDir (cur : UInt64 × UInt32) (dir : WalkDir) (hop : Nat) (st : WalkState) (next : Frontier) :
    Res (WalkState × Frontier × Bool) :=
  if w.goes dir then do w.admitAll cur.2 dir hop (← w.union dir cur.1) st next
  else .ok (st, next, false)

/-- One hop: every node of the frontier, up and then down. -/
def expandAll (hop : Nat) : Frontier → WalkState → Frontier → Res (WalkState × Frontier × Bool)
  | [], st, next => .ok (st, next, false)
  | cur :: frontier, st, next => do
    let (st, next, stop) ← w.expandDir cur .up hop st next
    if stop then return (st, next, true)
    else
      let (st, next, stop) ← w.expandDir cur .down hop st next
      if stop then return (st, next, true)
      else expandAll hop frontier st next

/-- `left` more hops, the next of them `hop`; with whether the cap ended the walk. -/
def hops : (left hop : Nat) → Frontier → WalkState → Res (WalkState × Bool)
  | 0, _, _, st => .ok (st, false)
  | left + 1, hop, frontier, st => do
    let (st, next, stop) ← w.expandAll hop frontier st []
    if stop then return (st, true)
    else if next = [] then return (st, false)
    else hops left (hop + 1) next st

def admitRoots : List UInt64 → WalkState → Frontier → Res (WalkState × Frontier)
  | [], st, frontier => .ok (st, frontier)
  | root :: roots, st, frontier => do
    match ← w.admitSym root none .root 0 st with
    | (none, st) => admitRoots roots st frontier
    | (some id, st) => admitRoots roots st (frontier ++ [(root, id)])

/-- The roots that pass `--def-in`, `--in` and `--not-in`. -/
def filterRoots (roots : List UInt64) : Res (List UInt64) := do
  let roots ← roots.filterM (w.filt.def_ok w.ix)
  roots.filterM w.pass

/-- The nodes, the number of those that are not roots, and whether the cap ended the walk. -/
def run (roots : List UInt64) : Res (List CallNode × Nat × Bool) := do
  let roots ← w.filterRoots roots
  if roots = [] then return ([], 0, false)
  else
    let (st, frontier) ← w.admitRoots roots {} []
    let (st, truncated) ← w.hops w.depth 1 frontier st
    let root_nodes := (st.nodes.filter (·.hop = 0)).length
    return (st.nodes, st.nodes.length - root_nodes, truncated)

end Walk

/-! ## The verbs -/

namespace Queries

variable (ix : Queries) (name direction : String) (depth max_syms : Nat) (substr : Bool) (root_limit : Nat)
  (filt : PathFilter)

def callWalk : Walk where
  ix := ix
  up s := do return (← ix.called_by s).map (·.1)
  down s := do return (← ix.calls_from s).map (·.1)
  display _ name := .ok name
  filt := filt
  direction := direction
  depth := depth
  max_syms := max_syms

def inheritanceWalk : Walk where
  ix := ix
  up := ix.inherits_of
  down := ix.inherited_by
  display := ix.display_name
  filt := filt
  direction := direction
  depth := depth
  max_syms := max_syms

/-- The symbols a walk starts from, before the filters. -/
def walkRoots : Res (List UInt64) :=
  if substr then ix.syms_matching_substring name root_limit else ix.syms_for_name name

def do_callgraph : Res Reply := do
  let (nodes, total, truncated) ← (ix.callWalk direction depth max_syms filt).run (← ix.walkRoots name substr root_limit)
  return .Callgraph nodes total truncated

def do_inheritance : Res Reply := do
  let (nodes, total, truncated) ←
    (ix.inheritanceWalk direction depth max_syms filt).run (← ix.walkRoots name substr root_limit)
  return .Inheritance nodes total truncated

end Queries

/-! ## Requests -/

/-- The verbs that are modelled. -/
inductive Request where
  | Def (name : String) (substr ignore_case : Bool) (limit : Nat) (in_ not_in : Option String)
  | Type (name : String) (substr : Bool) (limit : Nat)
  | Sig (name : String) (substr : Bool) (limit : Nat)
  | Members (name : String) (substr : Bool) (limit : Nat)
  | Ref (name : String) (substr ignore_case : Bool) (limit max_hits : Nat) (in_ not_in def_in : Option String)
  | Callers (name : String) (substr ignore_case : Bool) (limit max_hits : Nat) (in_ not_in def_in : Option String)
  | Callgraph (name direction : String) (depth max_syms : Nat) (substr : Bool) (root_limit : Nat)
      (in_ not_in def_in : Option String)
  | Inheritance (name direction : String) (depth max_syms : Nat) (substr : Bool) (root_limit : Nat)
      (in_ not_in def_in : Option String)

/-- `usize::MAX`. -/
def usizeMax : Nat := 2 ^ 64 - 1

def dispatch (ix : Queries) : Request → Res Reply
  | .Def name substr ignore_case limit in_ not_in =>
    ix.do_xrefs name substr ignore_case limit (Role.DECL, Role.DEF) usizeMax ⟨in_, not_in, none⟩ true
  | .Type name substr limit => ix.do_type name substr limit
  | .Sig name substr limit => ix.do_sig name substr limit
  | .Members name substr limit => ix.do_members name substr limit
  -- With `--substr` the edges of all matches are wanted, not those of the first `limit`.
  | .Ref name substr ignore_case limit max_hits in_ not_in def_in =>
    ix.do_xrefs name substr ignore_case (max limit SUBSTR_AGG_CAP) (0, 255) max_hits ⟨in_, not_in, def_in⟩ false
  | .Callers name substr ignore_case limit max_hits in_ not_in def_in =>
    ix.do_xrefs name substr ignore_case (max limit SUBSTR_AGG_CAP) (Role.CALL, Role.CALL) max_hits
      ⟨in_, not_in, def_in⟩ false
  | .Callgraph name direction depth max_syms substr root_limit in_ not_in def_in =>
    ix.do_callgraph name direction depth max_syms substr root_limit ⟨in_, not_in, def_in⟩
  | .Inheritance name direction depth max_syms substr root_limit in_ not_in def_in =>
    ix.do_inheritance name direction depth max_syms substr root_limit ⟨in_, not_in, def_in⟩

end Scry2
