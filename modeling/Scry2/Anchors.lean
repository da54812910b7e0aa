import Scry2.FileIds
import Scry2.Ingest
import Scry2.Lib.Folds

/-!
# The history of an anchor

The kind, the range and the edges of an anchor come in any order, and what comes last writes the rows.
What is kept of an anchor, and what has been written for it, are functions of the events that have come.
-/

open Scry2.Lib
open Std (ExtTreeMap)

namespace Scry2

/-! ## The kinds of a builder -/

def IndexBuilder.kind? (b : IndexBuilder) (s : UInt64) : Option UInt8 := b.syms[s]?.map (·.kind)

/-- What happens to the kind of a symbol. -/
inductive KindOp where
  /-- `upsert_sym`. -/
  | see (kind : UInt8)
  /-- `mark_field`. -/
  | field

def KindOp.run : KindOp → Option UInt8 → Option UInt8
  | .see kind, none => some kind
  | .see kind, some old => some (if old = Kind.UNK then kind else old)
  | .field, _ => some Kind.FIELD

def noteKind (kinds : UInt64 → Option UInt8) (op : UInt64 × KindOp) : UInt64 → Option UInt8 :=
  Function.update kinds op.1 (op.2.run (kinds op.1))

/-- The upsert that comes with an xref row. -/
def mention (r : XrefRow) : UInt64 × KindOp := (r.sym, .see Kind.UNK)

/-- The tables that only grow. -/
def IndexBuilder.rows (b : IndexBuilder) :=
  (b.xrefs, b.calls, b.inherits, b.childof, b.aliases, b.typed, b.sig)

theorem kind?_alter (b b' : IndexBuilder) (s : UInt64) (op : KindOp) {f : Option SymMeta → Option SymMeta}
    (hsyms : b'.syms = b.syms.alter s f) (hf : ∀ o, (f o).map (·.kind) = op.run (o.map (·.kind))) :
    b'.kind? = noteKind b.kind? (s, op) := by
  funext x
  simp only [IndexBuilder.kind?, noteKind, hsyms, getElem?_alter_key, Function.update_apply]
  by_cases hx : s = x
  · subst hx
    rw [if_pos rfl, if_pos rfl, hf]
  · rw [if_neg hx, if_neg (Ne.symm hx)]

theorem kind?_mark_field (b : IndexBuilder) (s : UInt64) : (b.mark_field s).kind? = noteKind b.kind? (s, .field) := by
  refine kind?_alter b _ s .field rfl fun o => ?_
  cases o <;> rfl

section

variable [Unicode]

theorem kind?_upsert_sym (b : IndexBuilder) (s : UInt64) (kind lang : UInt8) (name : String) :
    (b.upsert_sym s kind lang name).kind? = noteKind b.kind? (s, .see kind) := by
  refine kind?_alter b _ s (.see kind) rfl fun o => ?_
  cases o <;> rfl

theorem kind?_set_sym_name (b : IndexBuilder) (s : UInt64) {name : String} (hname : name ≠ "") :
    (b.set_sym_name s name).kind? = noteKind b.kind? (s, .see Kind.UNK) := by
  unfold IndexBuilder.set_sym_name
  rw [if_neg hname]
  refine kind?_alter b _ s (.see Kind.UNK) rfl fun o => ?_
  cases o with
  | none => rfl
  | some e =>
    simp only [Option.map_some, KindOp.run, Option.some.injEq]
    split
    · assumption
    · rfl

end

/-! ## Writing the rows of edges -/

section

variable [XxHash64]

def xrefsOf (file start : UInt32) (edge : VName × UInt8) : List XrefRow :=
  if edge.1.is_empty then [] else [⟨edge.1.sym, edge.2, file, start⟩]

def sitesOf (file start : UInt32) (edge : VName × UInt8) : List CallSite :=
  if edge.2 = Role.REF ∨ edge.2 = Role.CALL then [⟨file, start, edge.1.sym, edge.2⟩] else []

def bodiesOf (file start : UInt32) (stop : Option UInt32) (edge : VName × UInt8) : List BodyAnchor :=
  if edge.2 = Role.DEF then stop.toList.map fun m => ⟨file, start, m, edge.1.sym⟩ else []

theorem mem_xrefsOf {file start : UInt32} {edge : VName × UInt8} {r : XrefRow} :
    r ∈ xrefsOf file start edge ↔ edge.1.is_empty = false ∧ r = ⟨edge.1.sym, edge.2, file, start⟩ := by
  unfold xrefsOf
  cases edge.1.is_empty <;> simp

theorem mem_sitesOf {file start : UInt32} {edge : VName × UInt8} {c : CallSite} :
    c ∈ sitesOf file start edge ↔
      (edge.2 = Role.REF ∨ edge.2 = Role.CALL) ∧ c = ⟨file, start, edge.1.sym, edge.2⟩ := by
  unfold sitesOf
  split <;> simp [*]

theorem mem_bodiesOf {file start : UInt32} {stop : Option UInt32} {edge : VName × UInt8} {b : BodyAnchor} :
    b ∈ bodiesOf file start stop edge ↔
      edge.2 = Role.DEF ∧ ∃ m, stop = some m ∧ b = ⟨file, start, m, edge.1.sym⟩ := by
  unfold bodiesOf
  split
  · simp [*, eq_comm]
  · simp [*]

/-- What writing the rows of `edges` does. -/
structure Emitted (file start : UInt32) (stop : Option UInt32) (edges : List (VName × UInt8)) (s s' : Sinks) : Prop where
  xrefs : s'.xrefs = s.xrefs ++ edges.flatMap (xrefsOf file start)
  sites : s'.call_sites = s.call_sites ++ edges.flatMap (sitesOf file start)
  bodies : s'.body_anchors = s.body_anchors ++ edges.flatMap (bodiesOf file start stop)
  kinds : s'.builder.kind? =
    ((edges.flatMap (xrefsOf file start)).map mention).foldl noteKind s.builder.kind?
  rows : s'.builder.rows = s.builder.rows
  files : s'.builder.files = s.builder.files
  file_ids : s'.file_ids = s.file_ids

variable {file start : UInt32} {stop : Option UInt32}

theorem Emitted.nil (s : Sinks) : Emitted file start stop [] s s :=
  ⟨by simp, by simp, by simp, rfl, rfl, rfl, rfl⟩

theorem Emitted.trans {e₁ e₂ : List (VName × UInt8)} {s s₁ s₂ : Sinks} (h₁ : Emitted file start stop e₁ s s₁)
    (h₂ : Emitted file start stop e₂ s₁ s₂) : Emitted file start stop (e₁ ++ e₂) s s₂ where
  xrefs := by rw [h₂.xrefs, h₁.xrefs, List.flatMap_append, List.append_assoc]
  sites := by rw [h₂.sites, h₁.sites, List.flatMap_append, List.append_assoc]
  bodies := by rw [h₂.bodies, h₁.bodies, List.flatMap_append, List.append_assoc]
  kinds := by rw [h₂.kinds, h₁.kinds, List.flatMap_append, List.map_append, List.foldl_append]
  rows := h₂.rows.trans h₁.rows
  files := h₂.files.trans h₁.files
  file_ids := h₂.file_ids.trans h₁.file_ids

theorem pushSite_eq (edge : VName × UInt8) (file start : UInt32) (s : Sinks) :
    pushSite edge.1 edge.2 file start s = { s with call_sites := s.call_sites ++ sitesOf file start edge } := by
  unfold pushSite sitesOf
  split
  · rfl
  · rw [List.append_nil]

theorem pushBody_eq (edge : VName × UInt8) (file start : UInt32) (stop : Option UInt32) (s : Sinks) :
    pushBody edge.1 edge.2 file start stop s =
      { s with body_anchors := s.body_anchors ++ bodiesOf file start stop edge } := by
  unfold pushBody bodiesOf
  by_cases hdef : edge.2 = Role.DEF
  · rw [decide_eq_true hdef, if_pos hdef]
    cases stop with
    | none => rw [Option.toList_none, List.map_nil, List.append_nil]
    | some m => rfl
  · rw [decide_eq_false hdef, if_neg hdef, List.append_nil]

variable [Unicode]

theorem emit_xref_resolved_emitted (edge : VName × UInt8) (file start : UInt32) (s : Sinks) :
    ∃ b, emit_xref_resolved edge.1 edge.2 file start s =
        { s with builder := b, xrefs := s.xrefs ++ xrefsOf file start edge } ∧
      b.kind? = ((xrefsOf file start edge).map mention).foldl noteKind s.builder.kind? ∧
      b.rows = s.builder.rows ∧ b.files = s.builder.files := by
  unfold emit_xref_resolved xrefsOf
  split
  · exact ⟨s.builder, by rw [List.append_nil], rfl, rfl, rfl⟩
  · exact ⟨_, rfl, kind?_upsert_sym .., rfl, rfl⟩

theorem emitRef_emitted (s : Sinks) (edge : VName × UInt8) :
    Emitted file start stop [edge] s (emitRef file start stop s edge) := by
  obtain ⟨b, hb, hkinds, hrows, hfiles⟩ := emit_xref_resolved_emitted edge file start s
  unfold emitRef
  rw [pushBody_eq, pushSite_eq, hb]
  constructor <;> simp [hkinds, hrows, hfiles]

theorem emitRefs_emitted (edges : List (VName × UInt8)) (s : Sinks) :
    Emitted file start stop edges s (edges.foldl (emitRef file start stop) s) := by
  induction edges generalizing s with
  | nil => exact .nil s
  | cons edge edges ih => exact (emitRef_emitted s edge).trans (ih _)

end

/-! ## Histories -/

/-- The events of a node, the last one first. -/
abbrev History := List Event

namespace History

def isAnchor : History → Bool
  | [] => false
  | .anchor :: _ => true
  | _ :: h => isAnchor h

def start? : History → Option UInt32
  | [] => none
  | .start n :: _ => some n
  | _ :: h => start? h

def stop? : History → Option UInt32
  | [] => none
  | .stop m :: _ => some m
  | _ :: h => stop? h

/-- The edges, the first one first. -/
def edges : History → List (VName × UInt8)
  | [] => []
  | .ref t role :: h => edges h ++ [(t, role)]
  | _ :: h => edges h

/-- An event of the node has set the path. -/
def hasPath : History → Bool
  | [] => false
  | .anchor :: _ => true
  | .start _ :: _ => true
  | .ref _ _ :: _ => true
  | _ :: h => hasPath h

/-- Where the anchor starts, once its rows can be written. -/
def place (h : History) : Option UInt32 := if h.isAnchor then h.start? else none

/-- The edges that wait for the place. -/
def pending (h : History) : List (VName × UInt8) := if h.place.isSome then [] else h.edges

/-- What the edges that waited leave of the symbol that waits for the end. -/
def consumeSlot [XxHash64] (stop : Option UInt32) (slot : Option UInt64) (edge : VName × UInt8) : Option UInt64 :=
  if edge.2 = Role.DEF then if stop.isSome then none else some edge.1.sym else slot

/-- The symbol that waits for the end. -/
def slot [XxHash64] : History → Option UInt64
  | [] => none
  | .ref t role :: h => if role = Role.DEF then some t.sym else slot h
  | .anchor :: h => if (place (.anchor :: h)).isSome then (pending h).foldl (consumeSlot (stop? h)) (slot h) else slot h
  | .start n :: h => if (place (.start n :: h)).isSome then (pending h).foldl (consumeSlot (stop? h)) (slot h) else slot h
  | _ :: h => slot h

/-- What is kept of an anchor at `path`. -/
def state [XxHash64] (path : String) (h : History) : AnchorAccum where
  is_anchor := h.isAnchor
  path := if h.hasPath then path else ""
  start := h.start?
  stop := h.stop?
  pending := h.pending
  body_def_sym := h.slot

/-- The edges whose rows `ev` writes if the place is known. -/
def arrivals (h : History) : Event → List (VName × UInt8)
  | .ref t role => [(t, role)]
  | .anchor => h.pending
  | .start _ => h.pending
  | _ => []

/-- What `ev` does to the rows. `none` is the panic when the file ids run out. -/
def emit [XxHash64] [Unicode] (path : String) (h : History) (ev : Event) (s : Sinks) : Option Sinks :=
  match place (ev :: h), ev, h.slot with
  | some n, .stop m, some sym => do
    let (file, s) ← s.touch path
    return { s with body_anchors := s.body_anchors ++ [⟨file, n, m, sym⟩] }
  | some _, .stop _, none => some s
  | some n, ev, _ => do
    let (file, s) ← s.touch path
    return (h.arrivals ev).foldl (emitRef file n h.stop?) s
  | none, _, _ => some s

/-! ### What an event changes -/

variable [XxHash64] {path : String} {h : History}

omit [XxHash64] in
theorem place_eq_some {n : UInt32} : h.place = some n ↔ h.isAnchor = true ∧ h.start? = some n := by
  unfold place
  cases h.isAnchor <;> simp

omit [XxHash64] in
theorem place_eq_none : h.place = none ↔ (h.isAnchor = true → ∀ n, h.start? ≠ some n) := by
  unfold place
  cases h.isAnchor with
  | false => simp
  | true => cases h.start? <;> simp

omit [XxHash64] in
theorem hasPath_of_isAnchor (ha : h.isAnchor = true) : h.hasPath = true := by
  induction h with
  | nil => cases ha
  | cons ev h ih =>
    cases ev <;> first | rfl | exact ih ha

theorem withPath_state (path : String) (h : History) :
    (h.state path).withPath path = { h.state path with path := path } := by
  unfold AnchorAccum.withPath state
  cases h.hasPath <;> simp

end History

theorem define_eq [XxHash64] (a : AnchorAccum) (t : VName) (role : UInt8) :
    a.define t role = { a with body_def_sym := if role = Role.DEF then some t.sym else a.body_def_sym } := by
  unfold AnchorAccum.define
  split <;> rfl

theorem consumes_eq [XxHash64] (edges : List (VName × UInt8)) (a : AnchorAccum) :
    edges.foldl AnchorAccum.consume a =
      { a with body_def_sym := edges.foldl (History.consumeSlot a.stop) a.body_def_sym } := by
  induction edges generalizing a with
  | nil => rfl
  | cons e edges ih =>
    have hstep : a.consume e = { a with body_def_sym := History.consumeSlot a.stop a.body_def_sym e } := by
      unfold AnchorAccum.consume History.consumeSlot
      split <;> rfl
    rw [List.foldl_cons, List.foldl_cons, ih, hstep]

/-! ## One event -/

namespace History

section

variable [XxHash64] [Unicode] {st : IngestState} {source : VName} {h : History}

theorem processRef_eq (hacc : st.accum source = h.state source.path) (t : VName) (role : UInt8) :
    processRef source t role st =
      (h.emit source.path (.ref t role) st.sinks).map
        (st.setAccum source (state source.path (.ref t role :: h))) := by
  have hnext : state source.path (.ref t role :: h) =
      { h.state source.path with
        path := source.path
        pending := pending (.ref t role :: h)
        body_def_sym := if role = Role.DEF then some t.sym else h.slot } := rfl
  have hplace : place (.ref t role :: h) = place h := rfl
  simp only [processRef, hacc, withPath_state, define_eq, emit, hplace, hnext]
  cases hp : h.place with
  | some n =>
    obtain ⟨ha, hs⟩ := place_eq_some.mp hp
    have hpending : pending (.ref t role :: h) = h.pending := by simp [pending, hplace, hp]
    simp only [state, ha, hs, hpending, arrivals, List.foldl_cons, List.foldl_nil]
    cases st.sinks.touch source.path <;> rfl
  | none =>
    have hpending : pending (.ref t role :: h) = h.pending ++ [(t, role)] := by simp [pending, hplace, hp, edges]
    have hnot := place_eq_none.mp hp
    simp only [hpending, Option.map_some]
    split
    · rename_i n ha hs
      exact absurd hs (hnot ha n)
    · rfl

/-- The kind or the start comes: with both of them known, the edges that waited are written. -/
theorem flush_ready_eq {ev : Event} (hev : ev = .anchor ∨ ∃ n, ev = .start n) (path : String) (h : History) (s : Sinks) :
    flush_ready { h.state path with is_anchor := isAnchor (ev :: h), start := start? (ev :: h), path := path } s =
      (h.emit path ev s).map fun s => (state path (ev :: h), s) := by
  have hnext : state path (ev :: h) =
      { h.state path with
        is_anchor := isAnchor (ev :: h)
        start := start? (ev :: h)
        path := path
        pending := pending (ev :: h)
        body_def_sym :=
          if (place (ev :: h)).isSome then h.pending.foldl (consumeSlot h.stop?) h.slot else h.slot } := by
    rcases hev with rfl | ⟨n, rfl⟩ <;> rfl
  cases hp : place (ev :: h) with
  | some n =>
    obtain ⟨ha, hs⟩ := place_eq_some.mp hp
    have hemit : h.emit path ev s = (s.touch path).bind fun r =>
        some (h.pending.foldl (emitRef r.1 n h.stop?) r.2) := by
      rcases hev with rfl | ⟨n, rfl⟩ <;> simp only [emit, hp] <;> rfl
    have hpending : pending (ev :: h) = [] := by simp [pending, hp]
    rw [hemit, hnext, hpending, hp]
    simp only [flush_ready, ha, hs, consumes_eq, Option.isSome_some, if_true]
    cases s.touch path <;> rfl
  | none =>
    have hemit : h.emit path ev s = some s := by
      rcases hev with rfl | ⟨n, rfl⟩ <;> simp only [emit, hp]
    have hnot := place_eq_none.mp hp
    have hold : h.place = none := by
      refine place_eq_none.mpr fun ha k hk => ?_
      rcases hev with rfl | ⟨n, rfl⟩
      · exact hnot rfl k hk
      · exact hnot ha n rfl
    have hpending : pending (ev :: h) = h.pending := by
      rcases hev with rfl | ⟨n, rfl⟩ <;> simp [pending, hp, hold, edges]
    rw [hemit, hnext, hpending, hp]
    unfold flush_ready
    split
    · rename_i n ha hs
      exact absurd hs (hnot ha n)
    · rfl

theorem processAnchor_eq (hacc : st.accum source = h.state source.path) :
    processAnchor source st =
      (h.emit source.path .anchor st.sinks).map (st.setAccum source (state source.path (.anchor :: h))) := by
  have hold : { h.state source.path with is_anchor := true }.withPath source.path =
      { h.state source.path with is_anchor := true, path := source.path } :=
    congrArg (fun a : AnchorAccum => { a with is_anchor := true }) (withPath_state source.path h)
  have hflush := flush_ready_eq (.inl rfl) source.path h st.sinks
  simp only [isAnchor, start?] at hflush
  rw [processAnchor, hacc, hold]
  change (flush_ready { h.state source.path with is_anchor := true, path := source.path } st.sinks).bind _ = _
  have hsame : { h.state source.path with is_anchor := true, path := source.path } =
      { h.state source.path with is_anchor := true, start := h.start?, path := source.path } := rfl
  rw [hsame, hflush]
  cases h.emit source.path .anchor st.sinks <;> rfl

theorem processStart_eq (hacc : st.accum source = h.state source.path) (v : UInt32) :
    processStart source v st =
      (h.emit source.path (.start v) st.sinks).map (st.setAccum source (state source.path (.start v :: h))) := by
  have hflush := flush_ready_eq (.inr ⟨v, rfl⟩) source.path h st.sinks
  simp only [isAnchor, start?] at hflush
  rw [processStart, hacc, withPath_state]
  have hsame : { h.state source.path with path := source.path, start := some v } =
      { h.state source.path with is_anchor := h.isAnchor, start := some v, path := source.path } := rfl
  change (flush_ready { h.state source.path with path := source.path, start := some v } st.sinks).bind _ = _
  rw [hsame, hflush]
  cases h.emit source.path (.start v) st.sinks <;> rfl

theorem processStop_eq (hacc : st.accum source = h.state source.path) (m : UInt32) :
    processStop source m st =
      (h.emit source.path (.stop m) st.sinks).map (st.setAccum source (state source.path (.stop m :: h))) := by
  have hnext : state source.path (.stop m :: h) = { h.state source.path with stop := some m } := rfl
  have hplace : place (.stop m :: h) = place h := rfl
  simp only [processStop, hacc, hnext, emit, hplace]
  cases hp : h.place with
  | none =>
    have hnot := place_eq_none.mp hp
    split
    · rename_i n sym ha hs hx
      exact absurd hs (hnot ha n)
    · rfl
  | some n =>
    obtain ⟨ha, hs⟩ := place_eq_some.mp hp
    have hpath : (h.state source.path).path = source.path := if_pos (hasPath_of_isAnchor ha)
    cases hx : h.slot with
    | none => simp only [state, ha, hs, hx, Option.map_some]
    | some sym =>
      rw [hpath]
      simp only [state, ha, hs, hx]
      cases st.sinks.touch source.path <;> rfl

end

/-! ### Rows -/

section

variable [XxHash64]

def newXrefs (file : UInt32) (h : History) (ev : Event) : List XrefRow :=
  (place (ev :: h)).toList.flatMap fun n => (h.arrivals ev).flatMap (xrefsOf file n)

def newSites (file : UInt32) (h : History) (ev : Event) : List CallSite :=
  (place (ev :: h)).toList.flatMap fun n => (h.arrivals ev).flatMap (sitesOf file n)

/-- The body that has waited for the end. -/
def lateBody (file n : UInt32) (h : History) : Event → List BodyAnchor
  | .stop m => h.slot.toList.map fun sym => ⟨file, n, m, sym⟩
  | _ => []

def newBodies (file : UInt32) (h : History) (ev : Event) : List BodyAnchor :=
  (place (ev :: h)).toList.flatMap fun n => (h.arrivals ev).flatMap (bodiesOf file n h.stop?) ++ h.lateBody file n ev

/-- What has been written, under the id of the path. -/
def xrefRows (file : UInt32) : History → List XrefRow
  | [] => []
  | ev :: h => xrefRows file h ++ newXrefs file h ev

def siteRows (file : UInt32) : History → List CallSite
  | [] => []
  | ev :: h => siteRows file h ++ newSites file h ev

def bodyRows (file : UInt32) : History → List BodyAnchor
  | [] => []
  | ev :: h => bodyRows file h ++ newBodies file h ev

end

end History

def nameFile (files : ExtTreeMap UInt32 String) (f : UInt32 × String) : ExtTreeMap UInt32 String :=
  files.alter f.1 (IndexBuilder.firstPath f.2)

theorem touch_some {s s' : Sinks} {path : String} {file : UInt32} (h : s.touch path = some (file, s')) :
    ∃ ids, s' = { s with file_ids := ids, builder := s.builder.upsert_file file path } ∧
      ids.id? path = some file ∧ (s.file_ids.Wf → ids.Wf) ∧ ∀ p i, s.file_ids.id? p = some i → ids.id? p = some i := by
  unfold Sinks.touch at h
  cases hi : s.file_ids.intern path with
  | none => rw [hi] at h; cases h
  | some r =>
    rw [hi] at h
    cases h
    refine ⟨r.2, rfl, ?_, fun hwf => hwf.intern hi, fun p i => FileIdAllocator.intern_keeps hi⟩
    rw [FileIdAllocator.intern_id? hi, if_pos rfl]

/-- What `ev` writes after `h`, and `ops` is done. -/
structure Emits [XxHash64] (path : String) (file : UInt32) (h : History) (ev : Event) (ops : List (UInt64 × KindOp))
    (s s' : Sinks) : Prop where
  xrefs : s'.xrefs = s.xrefs ++ h.newXrefs file ev
  sites : s'.call_sites = s.call_sites ++ h.newSites file ev
  bodies : s'.body_anchors = s.body_anchors ++ h.newBodies file ev
  kinds : s'.builder.kind? = ((h.newXrefs file ev).map mention ++ ops).foldl noteKind s.builder.kind?
  rows : s'.builder.rows = s.builder.rows
  files : ∃ new : List (UInt32 × String), s'.builder.files = new.foldl nameFile s.builder.files ∧
    (∀ f ∈ new, f = (file, path) ∧ (History.place (ev :: h)).isSome) ∧
    ((History.place (ev :: h)).isSome → h.place.isSome ∨ (file, path) ∈ new)
  ids : ∀ p i, s.file_ids.id? p = some i → s'.file_ids.id? p = some i
  wf : s.file_ids.Wf → s'.file_ids.Wf
  named : (History.place (ev :: h)).isSome → s'.file_ids.id? path = some file

section

variable [XxHash64] {path : String} {h : History} {ev : Event} {s s' : Sinks}

theorem Emits.nothing {file : UInt32} {ops : List (UInt64 × KindOp)} {b : IndexBuilder}
    (hx : h.newXrefs file ev = []) (hc : h.newSites file ev = []) (hb : h.newBodies file ev = [])
    (hp : (History.place (ev :: h)).isSome → h.place.isSome)
    (hid : (History.place (ev :: h)).isSome → s.file_ids.id? path = some file)
    (hkinds : b.kind? = ops.foldl noteKind s.builder.kind?) (hfiles : b.files = s.builder.files)
    (hrows : b.rows = s.builder.rows) : Emits path file h ev ops s { s with builder := b } :=
  ⟨by rw [hx, List.append_nil], by rw [hc, List.append_nil], by rw [hb, List.append_nil], by rw [hx]; exact hkinds, hrows,
    ⟨[], hfiles, nofun, fun h => .inl (hp h)⟩, fun _ _ => id, id, hid⟩

variable [Unicode]

theorem emit_of_not_stop (hev : ∀ m, ev ≠ .stop m) {n : UInt32} (hp : History.place (ev :: h) = some n) :
    h.emit path ev s = (s.touch path).bind fun r => some ((h.arrivals ev).foldl (emitRef r.1 n h.stop?) r.2) := by
  unfold History.emit
  rw [hp]
  cases ev with
  | stop m => exact absurd rfl (hev m)
  | _ => rfl

/-- An event that is not an end writes the rows of its arrivals. -/
theorem emit_arrivals (hev : ∀ m, ev ≠ .stop m) {n : UInt32} (hp : History.place (ev :: h) = some n)
    (hs : h.emit path ev s = some s') : ∃ file, Emits path file h ev [] s s' := by
  rw [emit_of_not_stop hev hp, Option.bind_eq_some_iff] at hs
  obtain ⟨⟨file, s₁⟩, htouch, hs⟩ := hs
  obtain ⟨ids, rfl, hid, hwf, hkeeps⟩ := touch_some htouch
  cases hs
  have he : Emitted file n h.stop? (h.arrivals ev) { s with file_ids := ids, builder := s.builder.upsert_file file path }
      ((h.arrivals ev).foldl (emitRef file n h.stop?)
        { s with file_ids := ids, builder := s.builder.upsert_file file path }) := emitRefs_emitted ..
  have hlate : h.lateBody file n ev = [] := by
    cases ev with
    | stop m => exact absurd rfl (hev m)
    | _ => rfl
  refine ⟨file, ?_, ?_, ?_, ?_, he.rows, ⟨[(file, path)], he.files, ?_, fun _ => .inr List.mem_cons_self⟩, ?_, ?_, ?_⟩
  · rw [he.xrefs, History.newXrefs, hp, Option.toList_some, List.flatMap_singleton]
  · rw [he.sites, History.newSites, hp, Option.toList_some, List.flatMap_singleton]
  · rw [he.bodies, History.newBodies, hp, Option.toList_some, List.flatMap_singleton, hlate, List.append_nil]
  · rw [he.kinds, History.newXrefs, hp, Option.toList_some, List.flatMap_singleton, List.append_nil]
    rfl
  · intro f hf
    rw [hp]
    exact ⟨List.mem_singleton.mp hf, rfl⟩
  · rw [he.file_ids]
    exact hkeeps
  · rw [he.file_ids]
    exact hwf
  · rw [he.file_ids]
    exact fun _ => hid

/-- An end writes the body that has waited for it. -/
theorem emit_stop {m : UInt32} (hid : h.place.isSome → ∃ file, s.file_ids.id? path = some file) {n : UInt32}
    (hp : h.place = some n) (hs : h.emit path (.stop m) s = some s') : ∃ file, Emits path file h (.stop m) [] s s' := by
  have hplace : History.place (.stop m :: h) = some n := hp
  unfold History.emit at hs
  rw [hplace] at hs
  cases hx : h.slot with
  | none =>
    rw [hx] at hs
    cases hs
    obtain ⟨file, hfile⟩ := hid (by rw [hp]; rfl)
    refine ⟨file, .nothing ?_ ?_ ?_ id (fun _ => hfile) rfl rfl rfl⟩
    · simp [History.newXrefs, History.arrivals]
    · simp [History.newSites, History.arrivals]
    · simp [History.newBodies, History.arrivals, History.lateBody, hx]
  | some sym =>
    rw [hx] at hs
    simp only [Option.bind_eq_bind, Option.bind_eq_some_iff, Option.pure_def, Option.some.injEq] at hs
    obtain ⟨⟨file, s₁⟩, htouch, rfl⟩ := hs
    obtain ⟨ids, rfl, hfile, hwf, hkeeps⟩ := touch_some htouch
    have hnone : h.newXrefs file (.stop m) = [] := by simp [History.newXrefs, History.arrivals]
    refine ⟨file, ?_, ?_, ?_, by rw [hnone]; rfl, rfl, ⟨[(file, path)], rfl, ?_, fun _ => .inr List.mem_cons_self⟩, hkeeps, hwf, fun _ => hfile⟩
    · rw [hnone, List.append_nil]
    · simp [History.newSites, History.arrivals]
    · simp [History.newBodies, History.arrivals, History.lateBody, hplace, hx]
    · intro f hf
      rw [hplace]
      exact ⟨List.mem_singleton.mp hf, rfl⟩

theorem emit_spec (hid : h.place.isSome → ∃ file, s.file_ids.id? path = some file) (hs : h.emit path ev s = some s') :
    ∃ file, Emits path file h ev [] s s' := by
  cases hp : History.place (ev :: h) with
  | none =>
    have hemit : h.emit path ev s = some s := by
      unfold History.emit
      rw [hp]
    obtain rfl : s = s' := Option.some.inj (hemit.symm.trans hs)
    exact ⟨0, .nothing (by simp [History.newXrefs, hp]) (by simp [History.newSites, hp])
      (by simp [History.newBodies, hp]) (by simp [hp]) (by simp [hp]) rfl rfl rfl⟩
  | some n =>
    by_cases hev : ∃ m, ev = .stop m
    · obtain ⟨m, rfl⟩ := hev
      exact emit_stop hid hp hs
    · exact emit_arrivals (fun m hm => hev ⟨m, hm⟩) hp hs

end

end Scry2
