import Scry2.Anchors
import Scry2.Innermost

/-!
# The end of the stream

What `finalize` adds to the builder, table by table, is a function of the buffered rows. Two states that
have buffered the same rows, in whatever order, have the same rows added.
-/

open Scry2.Lib
open Std (ExtTreeMap)

namespace Scry2

/-! ## What is added to a builder -/

/-- Rows for the tables, and the symbols that get a name. -/
structure Delta where
  xrefs : List XrefRow := []
  calls : List CallRow := []
  inherits : List InhRow := []
  childof : List InhRow := []
  aliases : List StrRow := []
  typed : List StrRow := []
  sig : List StrRow := []
  names : List UInt64 := []

namespace Delta

def append (d e : Delta) : Delta :=
  ⟨d.xrefs ++ e.xrefs, d.calls ++ e.calls, d.inherits ++ e.inherits, d.childof ++ e.childof, d.aliases ++ e.aliases,
    d.typed ++ e.typed, d.sig ++ e.sig, d.names ++ e.names⟩

/-- What the elements of a list add. -/
def ofList {α : Type} (l : List α) (d : α → Delta) : Delta :=
  ⟨l.flatMap fun x => (d x).xrefs, l.flatMap fun x => (d x).calls, l.flatMap fun x => (d x).inherits,
    l.flatMap fun x => (d x).childof, l.flatMap fun x => (d x).aliases, l.flatMap fun x => (d x).typed,
    l.flatMap fun x => (d x).sig, l.flatMap fun x => (d x).names⟩

/-- A name alone leaves the kind open. -/
def nameOps (d : Delta) : List (UInt64 × KindOp) := d.names.map (·, .see Kind.UNK)

/-- From `b` to `b'`. -/
structure Of (d : Delta) (b b' : IndexBuilder) : Prop where
  xrefs : b'.xrefs = b.xrefs ++ d.xrefs
  calls : b'.calls = b.calls ++ d.calls
  inherits : b'.inherits = b.inherits ++ d.inherits
  childof : b'.childof = b.childof ++ d.childof
  aliases : b'.aliases = b.aliases ++ d.aliases
  typed : b'.typed = b.typed ++ d.typed
  sig : b'.sig = b.sig ++ d.sig
  files : b'.files = b.files
  kinds : b'.kind? = d.nameOps.foldl noteKind b.kind?

/-- The same rows, in any order and any number. -/
structure Same (d e : Delta) : Prop where
  xrefs : ∀ r, r ∈ d.xrefs ↔ r ∈ e.xrefs
  calls : ∀ r, r ∈ d.calls ↔ r ∈ e.calls
  inherits : ∀ r, r ∈ d.inherits ↔ r ∈ e.inherits
  childof : ∀ r, r ∈ d.childof ↔ r ∈ e.childof
  aliases : ∀ r, r ∈ d.aliases ↔ r ∈ e.aliases
  typed : ∀ r, r ∈ d.typed ↔ r ∈ e.typed
  sig : ∀ r, r ∈ d.sig ↔ r ∈ e.sig
  names : ∀ s, s ∈ d.names ↔ s ∈ e.names

variable {d e d' e' : Delta} {b b₁ b₂ : IndexBuilder}

theorem Of.nothing (b : IndexBuilder) : Of {} b b := by constructor <;> simp [nameOps]

theorem Of.rows (h : d.names = [] ∧ b₁.syms = b.syms ∧ b₁.files = b.files ∧ b₁.xrefs = b.xrefs ++ d.xrefs ∧
    b₁.calls = b.calls ++ d.calls ∧ b₁.inherits = b.inherits ++ d.inherits ∧ b₁.childof = b.childof ++ d.childof ∧
    b₁.aliases = b.aliases ++ d.aliases ∧ b₁.typed = b.typed ++ d.typed ∧ b₁.sig = b.sig ++ d.sig) : d.Of b b₁ := by
  obtain ⟨hnames, hsyms, hfiles, hx, hc, hi, hch, ha, ht, hs⟩ := h
  refine ⟨hx, hc, hi, hch, ha, ht, hs, hfiles, ?_⟩
  rw [nameOps, hnames]
  funext s
  unfold IndexBuilder.kind?
  rw [hsyms]
  rfl

theorem Of.trans (h : d.Of b b₁) (h' : e.Of b₁ b₂) : (d.append e).Of b b₂ where
  xrefs := by rw [h'.xrefs, h.xrefs, List.append_assoc]; rfl
  calls := by rw [h'.calls, h.calls, List.append_assoc]; rfl
  inherits := by rw [h'.inherits, h.inherits, List.append_assoc]; rfl
  childof := by rw [h'.childof, h.childof, List.append_assoc]; rfl
  aliases := by rw [h'.aliases, h.aliases, List.append_assoc]; rfl
  typed := by rw [h'.typed, h.typed, List.append_assoc]; rfl
  sig := by rw [h'.sig, h.sig, List.append_assoc]; rfl
  files := h'.files.trans h.files
  kinds := by rw [h'.kinds, h.kinds, ← List.foldl_append, nameOps, nameOps, ← List.map_append]; rfl

theorem Of.foldl {α : Type} {f : IndexBuilder → α → IndexBuilder} {d : α → Delta} (h : ∀ b x, (d x).Of b (f b x))
    (l : List α) (b : IndexBuilder) : (ofList l d).Of b (l.foldl f b) := by
  induction l generalizing b with
  | nil => exact .nothing b
  | cons x l ih => exact (h b x).trans (ih (f b x))

theorem Same.append (h : d.Same e) (h' : d'.Same e') : (d.append d').Same (e.append e') := by
  refine ⟨fun r => ?_, fun r => ?_, fun r => ?_, fun r => ?_, fun r => ?_, fun r => ?_, fun r => ?_, fun r => ?_⟩ <;>
    simp only [Delta.append, List.mem_append]
  exacts [or_congr (h.xrefs r) (h'.xrefs r), or_congr (h.calls r) (h'.calls r), or_congr (h.inherits r) (h'.inherits r),
    or_congr (h.childof r) (h'.childof r), or_congr (h.aliases r) (h'.aliases r), or_congr (h.typed r) (h'.typed r),
    or_congr (h.sig r) (h'.sig r), or_congr (h.names r) (h'.names r)]

theorem mem_flatMap_congr {α β : Type} {l l' : List α} (hl : ∀ x, x ∈ l ↔ x ∈ l') (f : α → List β) (y : β) :
    y ∈ l.flatMap f ↔ y ∈ l'.flatMap f := by
  simp only [List.mem_flatMap, hl]

theorem Same.ofList {α : Type} {l l' : List α} (hl : ∀ x, x ∈ l ↔ x ∈ l') (d : α → Delta) :
    (Delta.ofList l d).Same (Delta.ofList l' d) :=
  ⟨mem_flatMap_congr hl _, mem_flatMap_congr hl _, mem_flatMap_congr hl _, mem_flatMap_congr hl _, mem_flatMap_congr hl _,
    mem_flatMap_congr hl _, mem_flatMap_congr hl _, mem_flatMap_congr hl _⟩

end Delta

/-! ## What each part of `finalize` adds -/

def textRows (sym : UInt64) (text : String) : List StrRow := if text = "" then [] else [⟨sym, text⟩]

theorem pushText_eq (rows : List StrRow) (sym : UInt64) (text : String) :
    IndexBuilder.pushText rows sym text = rows ++ textRows sym text := by
  unfold IndexBuilder.pushText textRows
  split <;> simp

def nameDelta (sym : UInt64) (name : String) : Delta := { names := if name = "" then [] else [sym] }

theorem set_sym_name_of [Unicode] (b : IndexBuilder) (sym : UInt64) (name : String) :
    (nameDelta sym name).Of b (b.set_sym_name sym name) := by
  by_cases hname : name = ""
  · have hb : b.set_sym_name sym name = b := if_pos hname
    have hd : nameDelta sym name = {} := by rw [nameDelta, if_pos hname]
    rw [hb, hd]
    exact .nothing b
  · have hkind := kind?_set_sym_name b sym hname
    rw [nameDelta, if_neg hname]
    unfold IndexBuilder.set_sym_name at hkind ⊢
    rw [if_neg hname] at hkind ⊢
    refine ⟨?_, ?_, ?_, ?_, ?_, ?_, ?_, rfl, hkind⟩ <;> simp

section

variable [XxHash64] (st : IngestState)

def xrefDelta (r : XrefRow) : Delta := { xrefs := [⟨st.remap r.sym, r.role, r.file, r.offset⟩] }

def aliasDelta (r : StrRow) : Delta := { aliases := textRows (st.remap r.sym) r.text }

def inheritDelta (e : UInt64 × UInt64) : Delta := { inherits := [⟨st.remap e.1, st.remap e.2⟩] }

def childofDelta (e : UInt64 × UInt64) : Delta := { childof := [⟨st.remap e.2, st.remap e.1⟩] }

def callDelta (bodies : List BodyAnchor) (c : CallSite) : Delta :=
  { calls := (innermost_containing bodies c.file c.start).toList.map fun enc => ⟨st.remap enc, st.remap c.sym, c.role⟩ }

def parentDelta (key : String) : Delta :=
  ((render_type (CuTypeGraph st.types) key).map (nameDelta (st.remap (sym_of key)))).getD {}

def typeDelta (edge : String × String) : Delta :=
  { typed := (render_type (CuTypeGraph st.types) edge.2).elim [] (textRows (st.remap (sym_of edge.1))) }

def sigDelta (key : String) : Delta :=
  { sig := (render_signature st.types key).elim [] (textRows (st.remap (sym_of key))) }

theorem emitXrefs_of (b : IndexBuilder) : (Delta.ofList st.sinks.xrefs (xrefDelta st)).Of b (emitXrefs st b) :=
  .foldl (fun b r => .rows (by simp [xrefDelta, IndexBuilder.add_xref])) _ b

theorem emitAliases_of (b : IndexBuilder) : (Delta.ofList st.aliases (aliasDelta st)).Of b (emitAliases st b) :=
  .foldl (fun b r => .rows (by simp [aliasDelta, IndexBuilder.add_alias, pushText_eq])) _ b

theorem emitInherits_of (b : IndexBuilder) : (Delta.ofList st.inherits (inheritDelta st)).Of b (emitInherits st b) :=
  .foldl (fun b e => .rows (by simp [inheritDelta, IndexBuilder.add_inherit])) _ b

theorem emitChildof_of (b : IndexBuilder) : (Delta.ofList st.childof (childofDelta st)).Of b (emitChildof st b) :=
  .foldl (fun b e => .rows (by simp [childofDelta, IndexBuilder.add_childof])) _ b

theorem emitCall_of (bodies : List BodyAnchor) (b : IndexBuilder) (c : CallSite) :
    (callDelta st bodies c).Of b (emitCall st bodies b c) := by
  unfold callDelta emitCall
  cases innermost_containing bodies c.file c.start with
  | none => exact .nothing b
  | some enc => exact .rows (by simp [IndexBuilder.add_call])

theorem emitCalls_of [SortUnstable] (b : IndexBuilder) :
    (Delta.ofList st.sinks.call_sites (callDelta st (SortUnstable.sort st.sinks.body_anchors))).Of b (emitCalls st b) :=
  .foldl (emitCall_of st _) _ b

theorem emitType_of (b : IndexBuilder) (edge : String × String) : (typeDelta st edge).Of b (emitType st b edge) := by
  unfold typeDelta emitType
  cases render_type (CuTypeGraph st.types) edge.2 with
  | none => exact .nothing b
  | some rendered => exact .rows (by simp [IndexBuilder.add_type, pushText_eq])

theorem emitTypes_of (b : IndexBuilder) : (Delta.ofList st.types.edges (typeDelta st)).Of b (emitTypes st b) :=
  .foldl (emitType_of st) _ b

theorem emitSig_of (b : IndexBuilder) (key : String) : (sigDelta st key).Of b (emitSig st b key) := by
  unfold sigDelta emitSig
  cases render_signature st.types key with
  | none => exact .nothing b
  | some sig => exact .rows (by simp [IndexBuilder.add_sig, pushText_eq])

theorem emitSigs_of (b : IndexBuilder) : (Delta.ofList st.types.functions (sigDelta st)).Of b (emitSigs st b) :=
  .foldl (emitSig_of st) _ b

variable [Unicode]

theorem nameSyms_of (b : IndexBuilder) :
    (Delta.ofList st.best_name.toList fun e => nameDelta e.1 e.2).Of b (nameSyms st b) := by
  rw [nameSyms, ExtTreeMap.foldl_eq_foldl_toList]
  exact .foldl (fun b e => set_sym_name_of b e.1 e.2) _ b

theorem nameParent_of (b : IndexBuilder) (key : String) : (parentDelta st key).Of b (nameParent st b key) := by
  unfold parentDelta nameParent
  cases render_type (CuTypeGraph st.types) key with
  | none => exact .nothing b
  | some rendered => exact set_sym_name_of b _ rendered

theorem nameParents_of [SetOrder] (b : IndexBuilder) :
    (Delta.ofList (SetOrder.elems st.inherit_parent_keys) (parentDelta st)).Of b (nameParents st b) :=
  .foldl (nameParent_of st) _ b

def IngestState.delta [SetOrder] [SortUnstable] : Delta :=
  (Delta.ofList st.sinks.xrefs (xrefDelta st)).append <|
  (Delta.ofList st.aliases (aliasDelta st)).append <|
  (Delta.ofList st.best_name.toList fun e => nameDelta e.1 e.2).append <|
  (Delta.ofList st.inherits (inheritDelta st)).append <|
  (Delta.ofList (SetOrder.elems st.inherit_parent_keys) (parentDelta st)).append <|
  (Delta.ofList st.childof (childofDelta st)).append <|
  (Delta.ofList st.sinks.call_sites (callDelta st (SortUnstable.sort st.sinks.body_anchors))).append <|
  (Delta.ofList st.types.edges (typeDelta st)).append <|
  Delta.ofList st.types.functions (sigDelta st)

theorem finalize_of [SetOrder] [SortUnstable] : st.delta.Of st.sinks.builder (finalize st) :=
  (emitXrefs_of st _).trans <| (emitAliases_of st _).trans <| (nameSyms_of st _).trans <|
  (emitInherits_of st _).trans <| (nameParents_of st _).trans <| (emitChildof_of st _).trans <|
  (emitCalls_of st _).trans <| (emitTypes_of st _).trans (emitSigs_of st _)

end

/-! ## The rows that are added -/

/-- What `b` holds after the rows of `b₀`. -/
def IndexBuilder.since (b₀ b : IndexBuilder) : Delta where
  xrefs := b.xrefs.drop b₀.xrefs.length
  calls := b.calls.drop b₀.calls.length
  inherits := b.inherits.drop b₀.inherits.length
  childof := b.childof.drop b₀.childof.length
  aliases := b.aliases.drop b₀.aliases.length
  typed := b.typed.drop b₀.typed.length
  sig := b.sig.drop b₀.sig.length

theorem Delta.Of.since {d : Delta} {b₀ b b' : IndexBuilder} (h : d.Of b b') (hrows : b.rows = b₀.rows) :
    b₀.since b' = { d with names := [] } := by
  simp only [IndexBuilder.rows, Prod.mk.injEq] at hrows
  obtain ⟨hx, hc, hi, hch, ha, ht, hs⟩ := hrows
  simp [IndexBuilder.since, h.xrefs, h.calls, h.inherits, h.childof, h.aliases, h.typed, h.sig, hx, hc, hi, hch, ha, ht, hs]

section

variable [XxHash64] {st : IngestState}

theorem parentDelta_rows (key : String) : ∃ names, parentDelta st key = { names := names } := by
  unfold parentDelta
  cases render_type (CuTypeGraph st.types) key with
  | none => exact ⟨[], rfl⟩
  | some name => exact ⟨_, rfl⟩

variable [Unicode] [SetOrder] [SortUnstable]

/-- The rows, table by table. -/
def IngestState.written (st : IngestState) : Delta where
  xrefs := st.sinks.xrefs.flatMap fun r => (xrefDelta st r).xrefs
  calls := st.sinks.call_sites.flatMap fun c => (callDelta st (SortUnstable.sort st.sinks.body_anchors) c).calls
  inherits := st.inherits.flatMap fun e => (inheritDelta st e).inherits
  childof := st.childof.flatMap fun e => (childofDelta st e).childof
  aliases := st.aliases.flatMap fun r => (aliasDelta st r).aliases
  typed := st.types.edges.flatMap fun e => (typeDelta st e).typed
  sig := st.types.functions.flatMap fun k => (sigDelta st k).sig

theorem delta_written : { st.delta with names := [] } = st.written := by
  have hparent : ∀ {α : Type} (f : Delta → List α), (∀ names, f { names := names } = []) →
      ∀ keys : List String, (keys.flatMap fun k => f (parentDelta st k)) = [] := by
    intro α f hf keys
    refine List.flatMap_eq_nil_iff.mpr fun k _ => ?_
    have hnames : ∃ names, parentDelta st k = { names := names } := parentDelta_rows k
    obtain ⟨names, hk⟩ := hnames
    rw [hk, hf]
  simp only [IngestState.delta, IngestState.written, Delta.append, Delta.ofList, Delta.mk.injEq, hparent (·.xrefs) (fun _ => rfl),
    hparent (·.calls) (fun _ => rfl), hparent (·.inherits) (fun _ => rfl), hparent (·.childof) (fun _ => rfl),
    hparent (·.aliases) (fun _ => rfl), hparent (·.typed) (fun _ => rfl), hparent (·.sig) (fun _ => rfl)]
  have hnil : ∀ {α β : Type} (l : List α), (l.flatMap fun _ => ([] : List β)) = [] := fun l =>
    List.flatMap_eq_nil_iff.mpr fun _ _ => rfl
  simp [xrefDelta, aliasDelta, nameDelta, inheritDelta, childofDelta, callDelta, typeDelta, sigDelta, hnil]

theorem finalize_since {b₀ : IndexBuilder} (hrows : st.sinks.builder.rows = b₀.rows) :
    b₀.since (finalize st) = st.written := by
  rw [(finalize_of st).since hrows, delta_written]

end

/-! Before the end no rows are added. -/

theorem touch_rows {s s' : Sinks} {path : String} {file : UInt32} (h : s.touch path = some (file, s')) :
    s'.builder.rows = s.builder.rows := by
  obtain ⟨ids, rfl, -⟩ := touch_some h
  rfl

section

variable [XxHash64] [Unicode] {st : IngestState}

theorem flush_ready_rows {a a' : AnchorAccum} {s s' : Sinks} (h : flush_ready a s = some (a', s')) :
    s'.builder.rows = s.builder.rows := by
  unfold flush_ready at h
  split at h
  · simp only [Option.bind_eq_bind, Option.bind_eq_some_iff, Option.pure_def, Option.some.injEq, Prod.mk.injEq] at h
    obtain ⟨⟨file, s₁⟩, htouch, -, rfl⟩ := h
    exact (emitRefs_emitted ..).rows.trans (touch_rows htouch)
  · cases h
    rfl

theorem process_entry_rows {e : Entry} {st' : IngestState} (h : process_entry e st = some st') :
    st'.sinks.builder.rows = st.sinks.builder.rows := by
  unfold process_entry at h
  cases hev : e.event with
  | ref t role =>
    simp only [hev, processRef] at h
    split at h
    · simp only [Option.bind_eq_bind, Option.bind_eq_some_iff, Option.pure_def, Option.some.injEq] at h
      obtain ⟨⟨file, s₁⟩, htouch, rfl⟩ := h
      exact (emitRef_emitted ..).rows.trans (touch_rows htouch)
    · cases h
      rfl
  | anchor =>
    simp only [hev, processAnchor, Option.bind_eq_bind, Option.bind_eq_some_iff, Option.pure_def, Option.some.injEq] at h
    obtain ⟨⟨a, s₁⟩, hflush, rfl⟩ := h
    exact flush_ready_rows hflush
  | start v =>
    simp only [hev, processStart, Option.bind_eq_bind, Option.bind_eq_some_iff, Option.pure_def, Option.some.injEq] at h
    obtain ⟨⟨a, s₁⟩, hflush, rfl⟩ := h
    exact flush_ready_rows hflush
  | stop m =>
    simp only [hev, processStop] at h
    split at h
    · simp only [Option.bind_eq_bind, Option.bind_eq_some_iff, Option.pure_def, Option.some.injEq] at h
      obtain ⟨⟨file, s₁⟩, htouch, rfl⟩ := h
      have hrows : s₁.builder.rows = st.sinks.builder.rows := touch_rows htouch
      exact hrows
    · cases h
      rfl
  | subkind value =>
    simp only [hev] at h
    split at h
    · cases h
      rfl
    · cases h
      rfl
  | _ =>
    simp only [hev] at h
    cases h
    rfl

theorem run_rows {es : List Entry} {st' : IngestState} (h : es.foldlM (fun st e => process_entry e st) st = some st') :
    st'.sinks.builder.rows = st.sinks.builder.rows := by
  induction es generalizing st with
  | nil =>
    cases h
    rfl
  | cons e es ih =>
    rw [List.foldlM_cons, Option.bind_eq_bind, Option.bind_eq_some_iff] at h
    obtain ⟨st₁, h₁, h₂⟩ := h
    exact (ih h₂).trans (process_entry_rows h₁)

end

/-! ## The same buffers add the same rows -/

/-- The same rows are buffered, in whatever order, and the nodes mean the same. -/
structure SameBuffers (st st' : IngestState) : Prop where
  xrefs : ∀ r, r ∈ st.sinks.xrefs ↔ r ∈ st'.sinks.xrefs
  sites : ∀ c, c ∈ st.sinks.call_sites ↔ c ∈ st'.sinks.call_sites
  bodies : ∀ b, b ∈ st.sinks.body_anchors ↔ b ∈ st'.sinks.body_anchors
  ties : ∀ a ∈ st.sinks.body_anchors, ∀ b ∈ st.sinks.body_anchors, a.file = b.file → a.start = b.start → a.sym = b.sym
  aliases : ∀ r, r ∈ st.aliases ↔ r ∈ st'.aliases
  inherits : ∀ e, e ∈ st.inherits ↔ e ∈ st'.inherits
  parents : ∀ k, k ∈ st.inherit_parent_keys ↔ k ∈ st'.inherit_parent_keys
  childof : ∀ e, e ∈ st.childof ↔ e ∈ st'.childof
  edges : ∀ e, e ∈ st.types.edges ↔ e ∈ st'.types.edges
  functions : ∀ k, k ∈ st.types.functions ↔ k ∈ st'.types.functions
  completes : st.completes_bridges = st'.completes_bridges
  kind : st.types.kind = st'.types.kind
  code : st.types.code = st'.types.code
  params : st.types.params = st'.types.params
  builtin_op : st.types.builtin_op = st'.types.builtin_op
  typed_of : st.types.typed_of = st'.types.typed_of

section

variable {st st' : IngestState}

theorem SameBuffers.graph (h : SameBuffers st st') : CuTypeGraph st.types = CuTypeGraph st'.types := by
  unfold CuTypeGraph
  rw [h.kind, h.code, h.params, h.builtin_op]

theorem SameBuffers.signature (h : SameBuffers st st') : render_signature st.types = render_signature st'.types := by
  have hparam : renderParam st.types = renderParam st'.types := by
    funext key
    unfold renderParam
    rw [h.typed_of, h.graph, h.code]
  funext key
  unfold render_signature
  rw [h.typed_of, h.graph, h.code, hparam]

variable [XxHash64]

theorem SameBuffers.remap (h : SameBuffers st st') : st.remap = st'.remap := by
  funext s
  unfold IngestState.remap IngestState.bridge
  rw [h.completes]

theorem SameBuffers.calls [SortUnstable] (h : SameBuffers st st') :
    callDelta st (SortUnstable.sort st.sinks.body_anchors) = callDelta st' (SortUnstable.sort st'.sinks.body_anchors) := by
  have hmem : ∀ l b, b ∈ SortUnstable.sort l ↔ b ∈ l := fun l b => (SortUnstable.perm l).mem_iff
  funext c
  unfold callDelta
  rw [h.remap, innermost_congr (SortUnstable.sorted _) (SortUnstable.sorted st'.sinks.body_anchors) (fun b => ?_)
    (fun a ha b hb => ?_) c.file c.start]
  · rw [hmem, hmem, h.bodies]
  · exact h.ties a ((hmem _ a).mp ha) b ((hmem _ b).mp hb)

variable [Unicode]

/-- A symbol gets a name if one of its aliases is not empty. -/
theorem best_name_named (st : IngestState) (s : UInt64) :
    (∃ name, st.best_name[s]? = some name ∧ name ≠ "") ↔ ∃ r ∈ st.aliases, st.remap r.sym = s ∧ r.text ≠ "" := by
  have hfold : ∀ (f : ExtTreeMap UInt64 String → StrRow → ExtTreeMap UInt64 String),
      (∀ m r, (∃ name, (f m r)[s]? = some name ∧ name ≠ "") ↔
        (∃ name, m[s]? = some name ∧ name ≠ "") ∨ st.remap r.sym = s ∧ r.text ≠ "") →
      ∀ (l : List StrRow) m, (∃ name, (l.foldl f m)[s]? = some name ∧ name ≠ "") ↔
        (∃ name, m[s]? = some name ∧ name ≠ "") ∨ ∃ r ∈ l, st.remap r.sym = s ∧ r.text ≠ "" := by
    intro f hf l
    induction l with
    | nil => simp
    | cons r l ih =>
      intro m
      rw [List.foldl_cons, ih, hf]
      simp [or_assoc]
  unfold IngestState.best_name
  rw [hfold]
  · simp
  · intro m r
    rw [getElem?_alter_key]
    by_cases hs : st.remap r.sym = s
    · subst hs
      cases m[st.remap r.sym]? with
      | none => simp
      | some cur => simp [pickName_ne_empty]
    · simp [hs]

theorem mem_best_names (st : IngestState) (s : UInt64) :
    s ∈ (Delta.ofList st.best_name.toList fun e => nameDelta e.1 e.2).names ↔
      ∃ r ∈ st.aliases, st.remap r.sym = s ∧ r.text ≠ "" := by
  rw [← best_name_named]
  simp only [Delta.ofList, nameDelta, List.mem_flatMap]
  constructor
  · rintro ⟨⟨k, name⟩, hmem, hs⟩
    split at hs
    · cases hs
    · rename_i hname
      rw [List.mem_singleton.mp hs]
      exact ⟨name, ExtTreeMap.mem_toList_iff_getElem?_eq_some.mp hmem, hname⟩
  · rintro ⟨name, hget, hname⟩
    exact ⟨(s, name), ExtTreeMap.mem_toList_iff_getElem?_eq_some.mpr hget, by simp [hname]⟩

variable [SetOrder] [SortUnstable]

theorem SameBuffers.delta (h : SameBuffers st st') : st.delta.Same st'.delta := by
  have hx : xrefDelta st = xrefDelta st' := by funext r; rw [xrefDelta, xrefDelta, h.remap]
  have ha : aliasDelta st = aliasDelta st' := by funext r; rw [aliasDelta, aliasDelta, h.remap]
  have hi : inheritDelta st = inheritDelta st' := by funext e; rw [inheritDelta, inheritDelta, h.remap]
  have hp : parentDelta st = parentDelta st' := by funext k; rw [parentDelta, parentDelta, h.remap, h.graph]
  have hc : childofDelta st = childofDelta st' := by funext e; rw [childofDelta, childofDelta, h.remap]
  have ht : typeDelta st = typeDelta st' := by funext e; rw [typeDelta, typeDelta, h.remap, h.graph]
  have hs : sigDelta st = sigDelta st' := by funext k; rw [sigDelta, sigDelta, h.remap, h.signature]
  have hnames : (Delta.ofList st.best_name.toList fun e => nameDelta e.1 e.2).Same
      (Delta.ofList st'.best_name.toList fun e => nameDelta e.1 e.2) := by
    constructor
    case names =>
      intro s
      rw [mem_best_names, mem_best_names, h.remap]
      simp only [h.aliases]
    all_goals simp [Delta.ofList, nameDelta]
  have hparents : ∀ k, k ∈ SetOrder.elems st.inherit_parent_keys ↔ k ∈ SetOrder.elems st'.inherit_parent_keys := by
    intro k
    rw [SetOrder.mem, SetOrder.mem, h.parents]
  unfold IngestState.delta
  rw [hx, ha, hi, hp, hc, ht, hs, h.calls]
  exact (Delta.Same.ofList h.xrefs _).append <| (Delta.Same.ofList h.aliases _).append <| hnames.append <|
    (Delta.Same.ofList h.inherits _).append <| (Delta.Same.ofList hparents _).append <|
    (Delta.Same.ofList h.childof _).append <| (Delta.Same.ofList h.sites _).append <|
    (Delta.Same.ofList h.edges _).append (Delta.Same.ofList h.functions _)

end

end Scry2
