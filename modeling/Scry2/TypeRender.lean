import Scry2.MarkedSource

/-!
# Types and signatures

The renderer of `kythe.rs` for type nodes and functions, over the graph that a compilation unit's
stream has left.
-/

open Scry2.Lib
open Std (ExtTreeMap)

namespace Scry2

/-- The type nodes of a unit, by whatever the caller keys them. -/
structure TypeGraph (Tk : Type) where
  node_kind : Tk → String
  node_code : Tk → Option Bytes
  params : Tk → List Tk
  builtin_op : Tk → String

def TYPE_RENDER_MAX_DEPTH : Nat := 64

def is_array_op (op : String) : Bool := ["carr", "array"].contains op

def ptr_ref_decl_sym (op : String) : Option String := [("ptr", "*"), ("lvr", "&"), ("rvr", "&&")].lookup op

def render_builtin_app (op : String) (args : List String) : String :=
  let a0 := args.head?.getD "?"
  if op = "ptr" then a0 ++ " *"
  else if op = "lvr" then a0 ++ " &"
  else if op = "rvr" then a0 ++ " &&"
  else if op = "const" then "const " ++ a0
  else if op = "volatile" then "volatile " ++ a0
  else if op = "fn" then a0 ++ "(" ++ ", ".intercalate args.tail ++ ")"
  else if args = [] then op
  else op ++ "<" ++ ", ".intercalate args ++ ">"

section

variable {Tk : Type} (g : TypeGraph Tk)

/-- The element of an array type, by the renderer for what is one level down. -/
def array_element_render (render : Tk → Option String) (tk : Tk) : Option String :=
  if g.node_kind tk ≠ "tapp" then none
  else match g.params tk with
    | head :: elem :: _ =>
      if g.node_kind head ≠ "tbuiltin" || !is_array_op (g.builtin_op head) then none else render elem
    | _ => none

/-- The first argument counts down where the source counts `depth` up, so that it is 0 past the limit. -/
def render_type_rec : Nat → Tk → Option String
  | 0, _ => none
  | budget + 1, tk =>
    if g.node_kind tk = "tapp" then
      match g.params tk with
      | [] => (g.node_code tk).bind typename_from_marked_source
      | head :: rest =>
        let args := rest.map fun a => (render_type_rec budget a).getD "?"
        if g.node_kind head = "tbuiltin" then
          let op := g.builtin_op head
          if is_array_op op then some ((rest.head?.bind (render_type_rec budget)).getD "?" ++ "[]")
          else
            -- A pointer or reference to an array takes the declarator in parentheses.
            match ptr_ref_decl_sym op, rest.head?.bind (array_element_render g (render_type_rec budget)) with
            | some decl, some elem => some (elem ++ " (" ++ decl ++ ")[]")
            | _, _ => some (render_builtin_app op args)
        else do
          let head_name ← render_type_rec budget head
          return if args = [] then head_name else head_name ++ "<" ++ ", ".intercalate args ++ ">"
    else
      match (g.node_code tk).bind typename_from_marked_source with
      | some name => some (if g.node_kind tk = "tvar" then short_name name else name)
      | none => if g.builtin_op tk ≠ "" then some (g.builtin_op tk) else none

def render_type (tk : Tk) : Option String := render_type_rec g (TYPE_RENDER_MAX_DEPTH + 1) tk

end

/-! ## The graph of a unit -/

/-- What the stream of a unit says of its type nodes, by their symbol strings. -/
structure TypeSide where
  /-- The `typed` edges. -/
  edges : List (String × String) := []
  kind : ExtTreeMap String String := ∅
  code : ExtTreeMap String Bytes := ∅
  /-- The `param.N` targets by ordinal. -/
  params : ExtTreeMap String (ExtTreeMap UInt32 String) := ∅
  builtin_op : ExtTreeMap String String := ∅
  /-- The function nodes. -/
  functions : List String := []

def CuTypeGraph (side : TypeSide) : TypeGraph String where
  node_kind tk := side.kind[tk]?.getD ""
  node_code tk := side.code[tk]?
  params tk := side.params[tk]?.elim [] fun pm => pm.toList.map Prod.snd
  builtin_op tk := side.builtin_op[tk]?.getD ""

/-- A `typed` edge of each node, the last one that came. -/
def TypeSide.typed_of (side : TypeSide) : ExtTreeMap String String :=
  side.edges.foldl (fun m e => m.insert e.1 e.2) ∅

/-- What a parameter contributes, and whether it has a name. -/
def renderParam (side : TypeSide) (pkey : String) : String × Bool :=
  let pty := (side.typed_of[pkey]?.bind (render_type (CuTypeGraph side))).filter (· ≠ "")
  let pname := ((side.code[pkey]?.bind parse_marked_source_fqn).map fun fqn =>
    bare_param_name (short_name fqn)).filter (· ≠ "")
  let part := match pty, pname with
    | some t, some n => t ++ " " ++ n
    | some t, none => t
    | none, some n => n
    | none, none => "?"
  (part, pname.isSome)

def render_signature (side : TypeSide) (fn_key : String) : Option String :=
  let fn_name := (side.code[fn_key]?.bind parse_marked_source_fqn).map short_name
  let ret_type := ((side.typed_of[fn_key]?.bind (render_type (CuTypeGraph side))).map fun full =>
    String.ofList (trimEnd (full.toList.takeWhile (· ≠ '(')))).filter (· ≠ "")
  match (CuTypeGraph side).params fn_key with
  | [] =>
    match ret_type, fn_name with
    | some r, some n => if n ≠ "" then some (r ++ " " ++ n ++ "()") else none
    | _, _ => none
  | params =>
    let parts := params.map (renderParam side)
    if !parts.any Prod.snd then none
    else
      let name := fn_name.getD ""
      let head := match ret_type with
        | some r => if name = "" then r else r ++ " " ++ name
        | none => name
      some (head ++ "(" ++ ", ".intercalate (parts.map Prod.fst) ++ ")")

end Scry2
