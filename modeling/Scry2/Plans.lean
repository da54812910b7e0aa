import Scry2.MergeOrder
import Scry2.Lib.Folds

/-!
# The calls on a symbol, spread over builders

A plan says which builders get which calls, and how the builders and the symbol streams of their files are
combined.
-/

open Scry2.Lib

namespace Scry2

/-! ## Calls and builders -/

/-- A call that records something of a symbol. -/
inductive SymCall where
  | upsert (kind lang : UInt8) (name : String)
  | setName (name : String)
  | markField
  | addAlias (text : String)
deriving DecidableEq

/-- The display name that is offered. -/
def SymCall.name : SymCall → Option String
  | .upsert _ _ name => some name
  | .setName name => some name
  | _ => none

section

variable [Unicode]

def SymCall.run (sym : UInt64) (b : IndexBuilder) : SymCall → IndexBuilder
  | .upsert kind lang name => b.upsert_sym sym kind lang name
  | .setName name => b.set_sym_name sym name
  | .markField => b.mark_field sym
  | .addAlias text => b.add_alias sym text

end

/-- How a builder comes about. It starts with rows that are not about `sym`. -/
inductive BuildPlan (sym : UInt64) where
  | start (b : IndexBuilder) (hsyms : b.syms[sym]? = none) (haliases : ∀ r ∈ b.aliases, r.sym ≠ sym)
  | call (p : BuildPlan sym) (s : UInt64) (c : SymCall)
  | merge (p q : BuildPlan sym)

namespace BuildPlan

variable {sym : UInt64}

/-- A builder that is new. -/
def new (sym : UInt64) : BuildPlan sym := .start .new (by simp [IndexBuilder.new]) nofun

/-- The calls on `sym`. -/
def calls : BuildPlan sym → List SymCall
  | start _ _ _ => []
  | call p s c => if s = sym then p.calls ++ [c] else p.calls
  | merge p q => p.calls ++ q.calls

def names (p : BuildPlan sym) : List String := p.calls.filterMap SymCall.name

section

variable [Unicode]

def build : BuildPlan sym → IndexBuilder
  | start b _ _ => b
  | call p s c => c.run s p.build
  | merge p q => p.build.merge_from q.build

theorem run_syms_of_ne {s : UInt64} (hs : s ≠ sym) (b : IndexBuilder) (c : SymCall) :
    (c.run s b).syms[sym]? = b.syms[sym]? := by
  cases c with
  | upsert kind lang name => exact (getElem?_alter_key ..).trans (if_neg hs)
  | setName name =>
    change (b.set_sym_name s name).syms[sym]? = _
    unfold IndexBuilder.set_sym_name
    split
    · rfl
    · exact (getElem?_alter_key ..).trans (if_neg hs)
  | markField => exact (getElem?_alter_key ..).trans (if_neg hs)
  | addAlias text => rfl

end

end BuildPlan

/-! ## Names -/

/-- The display name of a record. -/
def nameIn (o : Option SymMeta) : String := (o.map (·.name)).getD ""

theorem nameIn_clamped (o : Option SymMeta) : nameIn (o.map SymMeta.clamped) = clamp_blob_str (nameIn o) := by
  cases o with
  | none => exact (clamp_of_len_le (Nat.zero_le _)).symm
  | some m => rfl

section

variable [Unicode]

/-- The name kept out of many. -/
def bestName (l : List String) : String := l.foldl pickName ""

theorem pickName_empty_left (s : String) : pickName "" s = s := by
  unfold pickName prefers_name
  by_cases hs : s = "" <;> simp [hs]

theorem pickName_empty_right (s : String) : pickName s "" = s := by
  unfold pickName prefers_name
  simp

theorem bestName_append (l m : List String) : bestName (l ++ m) = pickName (bestName l) (bestName m) := by
  induction m using List.reverseRecOn with
  | nil => rw [List.append_nil]; exact (pickName_empty_right _).symm
  | append_singleton m x ih =>
    have hlast : ∀ k : List String, bestName (k ++ [x]) = pickName (bestName k) x := fun k => by
      rw [bestName, List.foldl_append]
      rfl
    rw [← List.append_assoc, hlast, ih, hlast, pickName_assoc]

theorem bestName_single (s : String) : bestName [s] = pickName "" s := rfl

theorem nameIn_combine (a b : Option SymMeta) :
    nameIn (combine SymMeta.refine a b) = pickName (nameIn a) (nameIn b) := by
  cases a with
  | none => exact (pickName_empty_left _).symm
  | some a =>
    cases b with
    | none => exact (pickName_empty_right _).symm
    | some b => rfl

namespace BuildPlan

variable {sym : UInt64}

theorem nameIn_run (b : IndexBuilder) (c : SymCall) :
    nameIn (c.run sym b).syms[sym]? = pickName (nameIn b.syms[sym]?) (bestName c.name.toList) := by
  have hget : ∀ f : Option SymMeta → Option SymMeta, (b.syms.alter sym f)[sym]? = f b.syms[sym]? := fun f =>
    (getElem?_alter_key ..).trans (if_pos rfl)
  cases c with
  | upsert kind lang name =>
    have hname : bestName (SymCall.upsert kind lang name).name.toList = name := pickName_empty_left name
    rw [hname]
    change nameIn (b.syms.alter sym (IndexBuilder.refineEntry ⟨kind, lang, name⟩))[sym]? = _
    rw [hget]
    cases b.syms[sym]? with
    | none => exact (pickName_empty_left name).symm
    | some m => rfl
  | setName name =>
    have hname : bestName (SymCall.setName name).name.toList = name := pickName_empty_left name
    rw [hname]
    change nameIn (b.set_sym_name sym name).syms[sym]? = _
    unfold IndexBuilder.set_sym_name
    split
    · rename_i hempty
      rw [hempty, pickName_empty_right]
    · rw [hget]
      cases b.syms[sym]? with
      | none => exact (pickName_empty_left name).symm
      | some m => rfl
  | markField =>
    have hname : bestName SymCall.markField.name.toList = "" := rfl
    rw [hname, pickName_empty_right]
    change nameIn (b.syms.alter sym IndexBuilder.markField)[sym]? = _
    rw [hget]
    cases b.syms[sym]? <;> rfl
  | addAlias text => exact (pickName_empty_right _).symm

/-- A builder keeps the best of the names in the order of the calls. -/
theorem nameIn_build (p : BuildPlan sym) : nameIn p.build.syms[sym]? = bestName p.names := by
  induction p with
  | start b hsyms _ =>
    rw [build, hsyms]
    rfl
  | call p s c ih =>
    by_cases hs : s = sym
    · subst hs
      rw [build, nameIn_run, ih, names, names, calls, if_pos rfl, List.filterMap_append, bestName_append]
      congr 2
    · rw [build, run_syms_of_ne hs, ih, names, names, calls, if_neg hs]
  | merge p q ihp ihq =>
    rw [build, IndexBuilder.merge_from_syms, nameIn_combine, ihp, ihq, names, names, names, calls, List.filterMap_append,
      bestName_append]

end BuildPlan

end

end Scry2
