import Scry2.Calls
import Scry2.Noted

/-!
# The bridge from definitions to declarations

Every buffered row has its symbols replaced through the `completes` edges of the stream, one step each. So
a symbol is left behind if its declaration completes another one.
-/

open Scry2.Lib
open Std (ExtTreeMap)

namespace Scry2

/-! ## The edges of the stream -/

/-- From a definition to its declaration. -/
def Entry.completes? (e : Entry) : Option (String × String) :=
  match e.event with
  | .completes target => some (e.source.to_symbol_string, target.to_symbol_string)
  | _ => none

def completesEdges (es : List Entry) : List (String × String) := es.filterMap Entry.completes?

/-- Of the edges from one definition the last one counts. -/
def declarationOf (es : List Entry) (key : String) : Option String := (completesEdges es).reverse.lookup key

theorem mem_of_declaration {es : List Entry} {key t : String} (h : declarationOf es key = some t) : (key, t) ∈ completesEdges es := by
  obtain ⟨before, after, hsplit, -⟩ := List.lookup_eq_some_iff.mp h
  rw [← List.mem_reverse, hsplit]
  exact List.mem_append_right _ List.mem_cons_self

theorem declaration_isSome {es : List Entry} {p : String × String} (h : p ∈ completesEdges es) : (declarationOf es p.1).isSome :=
  List.lookup_isSome_iff.mpr ⟨p, List.mem_reverse.mpr h, beq_self_eq_true _⟩

section

variable [XxHash64]

/-- `s` is the symbol of a definition. -/
def IsDefinition (es : List Entry) (s : UInt64) : Prop := ∃ p ∈ completesEdges es, sym_of p.1 = s

def Completes (es : List Entry) (s s' : UInt64) : Prop := ∃ p ∈ completesEdges es, sym_of p.1 = s ∧ sym_of p.2 = s'

/-- The edges lead from `s` to `d`, and no further. -/
def FinalDeclaration (es : List Entry) (s d : UInt64) : Prop :=
  Relation.ReflTransGen (Completes es) s d ∧ ¬ IsDefinition es d

/-- No two definitions share a hash. -/
def DefinitionsApart (es : List Entry) : Prop :=
  ∀ p ∈ completesEdges es, ∀ q ∈ completesEdges es, sym_of p.1 = sym_of q.1 → p.1 = q.1

end

/-! ## Symbols in rows -/

namespace Delta

/-- The symbols that the rows mention. -/
def syms (d : Delta) : List UInt64 :=
  d.xrefs.map (·.sym) ++ d.calls.flatMap (fun r => [r.fst, r.snd]) ++ d.inherits.flatMap (fun r => [r.fst, r.snd]) ++
    d.childof.flatMap (fun r => [r.fst, r.snd]) ++ d.aliases.map (·.sym) ++ d.typed.map (·.sym) ++ d.sig.map (·.sym)

/-- The rows with their symbols replaced. -/
def mapSyms (f : UInt64 → UInt64) (d : Delta) : Delta where
  xrefs := d.xrefs.map fun r => { r with sym := f r.sym }
  calls := d.calls.map fun r => { r with fst := f r.fst, snd := f r.snd }
  inherits := d.inherits.map fun r => ⟨f r.fst, f r.snd⟩
  childof := d.childof.map fun r => ⟨f r.fst, f r.snd⟩
  aliases := d.aliases.map fun r => { r with sym := f r.sym }
  typed := d.typed.map fun r => { r with sym := f r.sym }
  sig := d.sig.map fun r => { r with sym := f r.sym }

/-- Every row of `d` is one of `e`. -/
structure Sub (d e : Delta) : Prop where
  xrefs : ∀ r ∈ d.xrefs, r ∈ e.xrefs
  calls : ∀ r ∈ d.calls, r ∈ e.calls
  inherits : ∀ r ∈ d.inherits, r ∈ e.inherits
  childof : ∀ r ∈ d.childof, r ∈ e.childof
  aliases : ∀ r ∈ d.aliases, r ∈ e.aliases
  typed : ∀ r ∈ d.typed, r ∈ e.typed
  sig : ∀ r ∈ d.sig, r ∈ e.sig

theorem Sub.refl (d : Delta) : d.Sub d :=
  ⟨fun _ => id, fun _ => id, fun _ => id, fun _ => id, fun _ => id, fun _ => id, fun _ => id⟩

theorem syms_mapSyms (f : UInt64 → UInt64) (d : Delta) : (d.mapSyms f).syms = d.syms.map f := by
  simp [syms, mapSyms, List.flatMap_map, List.map_flatMap, Function.comp_def]

end Delta

/-! ## The bridge -/

section

variable [XxHash64] {es : List Entry} {st : IngestState}

theorem notes_completes [Unicode] (es : List Entry) :
    (es.map Entry.notes).flatMap (·.completes) = completesEdges es := by
  have hentry : ∀ e : Entry, e.notes.completes = e.completes?.toList := by
    intro e
    unfold Entry.notes Entry.completes?
    cases e.event <;> rfl
  induction es with
  | nil => rfl
  | cons e es ih =>
    rw [List.map_cons, List.flatMap_cons, ih, hentry]
    unfold completesEdges
    cases he : e.completes? <;> simp [he]

/-- The table of the ingest holds the declarations. -/
theorem completes_bridges_eq [Unicode] {s : Sinks}
    (hrun : es.foldlM (fun st e => process_entry e st) { sinks := s } = some st) (key : String) :
    st.completes_bridges[key]? = declarationOf es key := by
  rw [(noted_run hrun).completes, notes_completes]
  unfold declarationOf
  have hfold := getElem?_foldl_last (completesEdges es) (∅ : ExtTreeMap String String) key
  rw [ExtTreeMap.getElem?_empty, Option.or_none] at hfold
  exact hfold

theorem bridge_lookup (st : IngestState) (s : UInt64) : st.bridge[s]? =
    (st.completes_bridges.toList.map fun e => (sym_of e.1, sym_of e.2)).reverse.lookup s := by
  have hfold := getElem?_foldl_last (st.completes_bridges.toList.map fun e => (sym_of e.1, sym_of e.2))
    (∅ : ExtTreeMap UInt64 UInt64) s
  rw [ExtTreeMap.getElem?_empty, Option.or_none, List.foldl_map] at hfold
  rw [← hfold, IngestState.bridge, ExtTreeMap.foldl_eq_foldl_toList]

theorem of_bridge {s s' : UInt64} (h : st.bridge[s]? = some s') :
    ∃ key t, st.completes_bridges[key]? = some t ∧ sym_of key = s ∧ sym_of t = s' := by
  rw [bridge_lookup] at h
  obtain ⟨before, after, hsplit, -⟩ := List.lookup_eq_some_iff.mp h
  have hmem : (s, s') ∈ st.completes_bridges.toList.map fun e => (sym_of e.1, sym_of e.2) := by
    rw [← List.mem_reverse, hsplit]
    exact List.mem_append_right _ List.mem_cons_self
  obtain ⟨⟨key, t⟩, hin, heq⟩ := List.mem_map.mp hmem
  obtain ⟨rfl, rfl⟩ := Prod.mk.inj heq
  exact ⟨key, t, ExtTreeMap.mem_toList_iff_getElem?_eq_some.mp hin, rfl, rfl⟩

theorem bridge_isSome {key t : String} (h : st.completes_bridges[key]? = some t) : (st.bridge[sym_of key]?).isSome := by
  rw [bridge_lookup, List.lookup_isSome_iff]
  exact ⟨(sym_of key, sym_of t), List.mem_reverse.mpr (List.mem_map.mpr
    ⟨(key, t), ExtTreeMap.mem_toList_iff_getElem?_eq_some.mpr h, rfl⟩), beq_self_eq_true _⟩

/-- The state without its bridge. -/
def IngestState.unbridged (st : IngestState) : IngestState := { st with completes_bridges := ∅ }

theorem unbridged_remap (st : IngestState) (s : UInt64) : st.unbridged.remap s = s := by
  have hempty : st.unbridged.bridge[s]? = none := by
    rw [bridge_lookup]
    simp [IngestState.unbridged]
  rw [IngestState.remap, hempty, Option.getD_none]

theorem written_mapSyms [SetOrder] [SortUnstable] (st : IngestState) :
    st.written = st.unbridged.written.mapSyms st.remap := by
  have htext : ∀ s text, textRows (st.remap s) text = (textRows s text).map fun r => { r with sym := st.remap r.sym } := by
    intro s text
    unfold textRows
    split <;> rfl
  have helim : ∀ (o : Option String) s, o.elim [] (textRows (st.remap s)) =
      (o.elim [] (textRows s)).map fun r => { r with sym := st.remap r.sym } := by
    intro o s
    cases o with
    | none => rfl
    | some text => exact htext s text
  simp only [IngestState.written, Delta.mapSyms, Delta.mk.injEq, xrefDelta, callDelta, inheritDelta, childofDelta, aliasDelta,
    typeDelta, sigDelta, unbridged_remap, List.map_flatMap, htext, helim]
  simp [IngestState.unbridged, Function.comp_def]

variable [Unicode] {s₀ : Sinks}

theorem remap_of_not_definition (hrun : es.foldlM (fun st e => process_entry e st) { sinks := s₀ } = some st) {s : UInt64}
    (hs : ¬ IsDefinition es s) : st.remap s = s := by
  unfold IngestState.remap
  cases hb : st.bridge[s]? with
  | none => rfl
  | some s' =>
    obtain ⟨key, t, hget, hkey, -⟩ := of_bridge hb
    rw [completes_bridges_eq hrun] at hget
    exact absurd ⟨(key, t), mem_of_declaration hget, hkey⟩ hs

theorem remap_of_declaration (hrun : es.foldlM (fun st e => process_entry e st) { sinks := s₀ } = some st)
    (hapart : DefinitionsApart es) {key t : String} (h : declarationOf es key = some t) :
    st.remap (sym_of key) = sym_of t := by
  have hget := (completes_bridges_eq hrun key).trans h
  obtain ⟨s', hs'⟩ := Option.isSome_iff_exists.mp (bridge_isSome hget)
  obtain ⟨key', t', hget', hkey, rfl⟩ := of_bridge hs'
  rw [completes_bridges_eq hrun] at hget'
  obtain rfl : key' = key := hapart _ (mem_of_declaration hget') _ (mem_of_declaration h) hkey
  obtain rfl : t' = t := Option.some.inj (hget'.symm.trans h)
  rw [IngestState.remap, hs', Option.getD_some]

/-! ## What the bridge leaves behind -/

variable [SetOrder] [SortUnstable]

/-- No row mentions a definition, and every row is there with its symbols replaced. -/
structure Bridged (es : List Entry) (raw added : Delta) : Prop where
  gone : ∀ s ∈ added.syms, ¬ IsDefinition es s
  moved : ∃ final : UInt64 → UInt64, (∀ s ∈ raw.syms, FinalDeclaration es s (final s)) ∧ (raw.mapSyms final).Sub added

/-- The declaration of a definition in a row does not complete another one. -/
def BridgesEnd (es : List Entry) (raw : Delta) : Prop :=
  ∀ s ∈ raw.syms, ∀ key t, declarationOf es key = some t → sym_of key = s → ¬ IsDefinition es (sym_of t)

/-- The bridge leaves nothing behind exactly if its bridges do not go on. -/
theorem bridge_complete {b₀ : IndexBuilder} {a₀ : FileIdAllocator} (hapart : DefinitionsApart es)
    (hrun : es.foldlM (fun st e => process_entry e st) { sinks := { builder := b₀, file_ids := a₀ } } = some st) :
    Bridged es (b₀.since (finalize st.unbridged)) (b₀.since (finalize st)) ↔
      BridgesEnd es (b₀.since (finalize st.unbridged)) := by
  have hrows := run_rows hrun
  have hraw : b₀.since (finalize st.unbridged) = st.unbridged.written := finalize_since hrows
  have hwritten : b₀.since (finalize st) = st.written := finalize_since hrows
  rw [hwritten, hraw, written_mapSyms st]
  constructor
  · intro h s hs key t hdecl hkey
    have hgone := h.gone (st.remap s) (by rw [Delta.syms_mapSyms]; exact List.mem_map_of_mem hs)
    rwa [← hkey, remap_of_declaration hrun hapart hdecl] at hgone
  · intro h
    have hfinal : ∀ s ∈ st.unbridged.written.syms, FinalDeclaration es s (st.remap s) := by
      intro s hs
      by_cases hdef : IsDefinition es s
      · obtain ⟨p, hp, rfl⟩ := hdef
        obtain ⟨t, ht⟩ := Option.isSome_iff_exists.mp (declaration_isSome hp)
        rw [remap_of_declaration hrun hapart ht]
        exact ⟨.single ⟨(p.1, t), mem_of_declaration ht, rfl, rfl⟩, h _ hs p.1 t ht rfl⟩
      · rw [remap_of_not_definition hrun hdef]
        exact ⟨.refl, hdef⟩
    refine ⟨fun s hs => ?_, st.remap, hfinal, .refl _⟩
    rw [Delta.syms_mapSyms] at hs
    obtain ⟨x, hx, rfl⟩ := List.mem_map.mp hs
    exact (hfinal x hx).2

end

/-! A definition whose declaration completes another one. -/

def chainFirst : VName := { signature := "f", path := "a.cpp", language := "c++" }

def chainMiddle : VName := { signature := "f", path := "a.h", language := "c++" }

def chainLast : VName := { signature := "f", path := "b.h", language := "c++" }

def chainAnchor : VName := { signature := "@1", path := "a.cpp", language := "c++" }

def chainEntries : List Entry :=
  [{ source := chainFirst, edge_kind := "/kythe/edge/completes", target := chainMiddle },
    { source := chainMiddle, edge_kind := "/kythe/edge/completes", target := chainLast },
    { source := chainAnchor, fact_name := "/kythe/node/kind", fact_value := as_bytes "anchor" },
    { source := chainAnchor, fact_name := "/kythe/loc/start", fact_value := as_bytes "3" },
    { source := chainAnchor, edge_kind := "/kythe/edge/ref", target := chainFirst }]

@[reducible] def chainHash : XxHash64 :=
  hashTable [("kythe:c++:##a.cpp#f", 0x63136803cdc634f9), ("kythe:c++:##a.h#f", 0xa7420d555e043206),
    ("kythe:c++:##b.h#f", 0xa51884c4491b39a5), ("kythe:c++:##a.cpp#@1", 0x2a72b9b02a333b2c)]

theorem chainEntries_keys : DistinctKeys chainEntries := by
  have hkeys : ∀ e ∈ chainEntries, ∀ e' ∈ chainEntries,
      e.source.to_symbol_string = e'.source.to_symbol_string → e.source = e'.source := by decide
  exact hkeys

theorem chainEntries_starts : OneStarts chainEntries := by
  intro v n n' hn hn'
  obtain ⟨e, he, -, hev⟩ := mem_history.mp hn
  obtain ⟨e', he', -, hev'⟩ := mem_history.mp hn'
  have hstart : ∀ e ∈ chainEntries, ∀ n, e.event = .start n → n = 3 := by
    intro e he n hev
    simp only [chainEntries, List.mem_cons, List.not_mem_nil, or_false] at he
    rcases he with rfl | rfl | rfl | rfl | rfl <;> cases hev
    rfl
  rw [hstart e he n hev, hstart e' he' n' hev']

section

attribute [local instance] chainHash asciiUnicode dedupOrder stableSort

theorem completesEdges_chain : completesEdges chainEntries =
    [(chainFirst.to_symbol_string, chainMiddle.to_symbol_string),
      (chainMiddle.to_symbol_string, chainLast.to_symbol_string)] := rfl

theorem chainEntries_apart : DefinitionsApart chainEntries := by
  rw [DefinitionsApart, completesEdges_chain]
  decide

theorem chainEntries_run : ∃ st, chainEntries.foldlM (fun st e => process_entry e st)
    ({ sinks := { builder := IndexBuilder.new, file_ids := {} } } : IngestState) = some st :=
  (run_of_room chainEntries (by decide)).imp fun _ h => h.1

theorem bridge_complete_chainEntries : ∃ st, chainEntries.foldlM (fun st e => process_entry e st)
    ({ sinks := { builder := IndexBuilder.new, file_ids := {} } } : IngestState) = some st ∧
      (Bridged chainEntries (IndexBuilder.new.since (finalize st.unbridged)) (IndexBuilder.new.since (finalize st)) ↔
        BridgesEnd chainEntries (IndexBuilder.new.since (finalize st.unbridged))) := by
  obtain ⟨st, hrun⟩ := chainEntries_run
  exact ⟨st, hrun, bridge_complete chainEntries_apart hrun⟩

/-- The edges lead upwards in this order. -/
def chainRank (s : UInt64) : ℕ := if s = chainFirst.sym then 0 else if s = chainMiddle.sym then 1 else 2

theorem chainEntries_acyclic (s : UInt64) : ¬ Relation.TransGen (Completes chainEntries) s s := by
  have hstep : ∀ s s', Completes chainEntries s s' → chainRank s < chainRank s' := by
    rintro s s' ⟨p, hp, rfl, rfl⟩
    rw [completesEdges_chain] at hp
    revert p
    decide
  intro h
  have hlt : ∀ s', Relation.TransGen (Completes chainEntries) s s' → chainRank s < chainRank s' := by
    intro s' h
    induction h with
    | single h => exact hstep _ _ h
    | tail _ h ih => exact ih.trans (hstep _ _ h)
  exact absurd (hlt s h) (lt_irrefl _)

/-- The row goes to the declaration in the middle and stays there. -/
theorem bridge_stops : (∀ s, ¬ Relation.TransGen (Completes chainEntries) s s) ∧
    ∃ st, chainEntries.foldlM (fun st e => process_entry e st)
      ({ sinks := { builder := IndexBuilder.new, file_ids := {} } } : IngestState) = some st ∧
      ¬ Bridged chainEntries (IndexBuilder.new.since (finalize st.unbridged)) (IndexBuilder.new.since (finalize st)) := by
  refine ⟨chainEntries_acyclic, ?_⟩
  obtain ⟨st, hrun⟩ := chainEntries_run
  refine ⟨st, hrun, fun h => ?_⟩
  rw [finalize_since (run_rows hrun)] at h
  have hb := buffered_run chainEntries_keys hrun
  have hhas : ∀ i : Fin 5, Has chainEntries (chainEntries.get i).source (chainEntries.get i).event := fun i =>
    ⟨_, List.get_mem .., rfl, rfl⟩
  obtain ⟨file, hfile⟩ := hb.placed chainAnchor (by decide)
  have hxref : ⟨chainFirst.sym, Role.REF, file, 3⟩ ∈ st.sinks.xrefs :=
    (hb.mem_xrefs chainEntries_starts _).mpr ⟨chainAnchor, 3, chainFirst, Role.REF, hhas 2, hhas 3, hhas 4, hfile, rfl, rfl⟩
  have hrow : ⟨st.remap chainFirst.sym, Role.REF, file, 3⟩ ∈ st.written.xrefs :=
    List.mem_flatMap.mpr ⟨_, hxref, List.mem_singleton.mpr rfl⟩
  have hmoved : st.remap chainFirst.sym = chainMiddle.sym := remap_of_declaration hrun chainEntries_apart rfl
  have hsyms : chainMiddle.sym ∈ st.written.syms := by
    rw [← hmoved]
    simp only [Delta.syms, List.mem_append]
    repeat left
    exact List.mem_map.mpr ⟨_, hrow, rfl⟩
  exact h.gone _ hsyms ⟨_, List.mem_cons_of_mem _ List.mem_cons_self, rfl⟩

end

end Scry2
