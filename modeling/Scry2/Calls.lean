import Scry2.Bodies
import Scry2.Finalize

/-!
# Which calls are written

The documented call rows are those of `ref` and `ref/call` edges to targets inside a body, and name the
shortest body around the edge. A `ref/writes` or `ref/imports` edge has the role of a `ref` edge, so it
makes a call row too, and so does an edge without a target. The body that is named is one that starts
last, which need not be the shortest.
-/

open Scry2.Lib

namespace Scry2

/-! ## The edges of anchors -/

theorem edge_to_role_base {kind : String} {role : UInt8} (h : edge_to_role kind = some role) :
    (edgeBase kind, role) ∈ [("/kythe/edge/defines/binding", Role.DECL), ("/kythe/edge/defines", Role.DEF),
      ("/kythe/edge/ref", Role.REF), ("/kythe/edge/ref/call", Role.CALL),
      ("/kythe/edge/ref/writes", Role.REF), ("/kythe/edge/ref/imports", Role.REF)] := by
  obtain ⟨before, after, hsplit, -⟩ := List.lookup_eq_some_iff.mp h
  rw [hsplit]
  exact List.mem_append_right _ List.mem_cons_self

theorem edge_to_role_congr {k k' : String} (h : edgeBase k = edgeBase k') : edge_to_role k = edge_to_role k' := by
  rw [edge_to_role, edge_to_role, h]

theorem param_base {kind : String} {ord : UInt32} (h : parse_param_ordinal kind = some ord) :
    edgeBase kind = "/kythe/edge/param" := by
  unfold parse_param_ordinal at h
  simp only at h
  split at h
  · rename_i hpre
    obtain ⟨rest, hrest⟩ := List.isPrefixOf_iff_prefix.mp hpre
    unfold edgeBase
    rw [← hrest]
    have hpat : "/kythe/edge/param.".toList = "/kythe/edge/param".toList ++ ['.'] := by decide
    rw [hpat, List.append_assoc, List.takeWhile_append_of_pos (List.all_eq_true.mp (by decide))]
    simp
  · cases h

theorem edgeEvent_of_role {kind : String} {role : UInt8} (h : edge_to_role kind = some role) (t : VName) :
    edgeEvent kind t = .ref t role := by
  have hbase := edge_to_role_base h
  have hbad : ∀ k, edge_to_role k = none → edgeBase kind ≠ edgeBase k := fun k hk hb =>
    Option.some_ne_none role (h.symm.trans ((edge_to_role_congr hb).trans hk))
  have hparam : parse_param_ordinal kind = none := by
    cases hp : parse_param_ordinal kind with
    | none => rfl
    | some ord => exact absurd (param_base hp) (hbad "/kythe/edge/param" (by decide))
  have htyped : kind ≠ "/kythe/edge/typed" := by
    rintro rfl
    exact hbad "/kythe/edge/typed" (by decide) rfl
  have hother : is_completes_edge kind = false ∧ is_named_edge kind = false ∧ is_inherit_edge kind = false ∧
      is_childof_edge kind = false := by
    unfold is_completes_edge is_named_edge is_inherit_edge is_childof_edge
    simp only [List.mem_cons, Prod.mk.injEq, List.not_mem_nil, or_false] at hbase
    rcases hbase with ⟨hb, -⟩ | ⟨hb, -⟩ | ⟨hb, -⟩ | ⟨hb, -⟩ | ⟨hb, -⟩ | ⟨hb, -⟩ <;> rw [hb] <;> decide
  simp [edgeEvent, hother, htyped, hparam, h]

theorem ref_event {e : Entry} {t : VName} {role : UInt8} :
    e.event = .ref t role ↔ e.source.is_empty = false ∧ edge_to_role e.edge_kind = some role ∧ e.target = t := by
  constructor
  · intro h
    unfold Entry.event at h
    split at h
    · cases h
    · rename_i hsource
      refine ⟨Bool.eq_false_iff.mpr hsource, ?_⟩
      split at h
      · unfold edgeEvent at h
        repeat' first | cases h | split at h
        exact ⟨‹_›, rfl⟩
      · unfold factEvent at h
        repeat' first | cases h | split at h
        · cases hv : parse_ascii_u32 e.fact_value <;> rw [hv] at h <;> cases h
        · cases hv : parse_ascii_u32 e.fact_value <;> rw [hv] at h <;> cases h
  · rintro ⟨hsource, hrole, rfl⟩
    have hkind : e.edge_kind ≠ "" := by
      intro hkind
      have hnone : edge_to_role "" = none := by decide
      rw [hkind, hnone] at hrole
      cases hrole
    rw [Entry.event, if_neg (by simp [hsource]), if_pos hkind, edgeEvent_of_role hrole]

theorem has_ref {es : List Entry} {v t : VName} {role : UInt8} : Has es v (.ref t role) ↔
    ∃ e ∈ es, e.source = v ∧ e.source.is_empty = false ∧ edge_to_role e.edge_kind = some role ∧ e.target = t := by
  simp only [Has, ref_event]

/-! ## Rows of one place -/

/-- No node has two starts. -/
def OneStarts (es : List Entry) : Prop := ∀ v, (history es v).OneStart

theorem OneStarts.place_iff {es : List Entry} (h : OneStarts es) {v : VName} {n : UInt32} :
    (history es v).place = some n ↔ Has es v .anchor ∧ Has es v (.start n) := by
  rw [(h v).place_iff, mem_history, mem_history]

section

variable [XxHash64] {es : List Entry} {b₀ : IndexBuilder} {a₀ : FileIdAllocator} {st : IngestState}

theorem Buffered.mem_xrefs (hb : Buffered b₀ a₀ es es st) (h : OneStarts es) (r : XrefRow) : r ∈ st.sinks.xrefs ↔
    ∃ v n t role, Has es v .anchor ∧ Has es v (.start n) ∧ Has es v (.ref t role) ∧
      st.sinks.file_ids.id? v.path = some r.file ∧ t.is_empty = false ∧ r = ⟨t.sym, role, r.file, n⟩ := by
  have hmem : ∀ v file, r ∈ (history es v).xrefRows file ↔
      ∃ n, (history es v).place = some n ∧ ∃ e ∈ (history es v).edges, r ∈ xrefsOf file n e := fun v file =>
    History.OneStart.mem_written rfl (fun _ _ => rfl) (h v) r
  rw [hb.xrefs]
  simp only [hmem, h.place_iff, mem_xrefsOf]
  constructor
  · rintro ⟨v, file, hid, n, ⟨ha, hs⟩, ⟨t, role⟩, hedge, ht, rfl⟩
    exact ⟨v, n, t, role, ha, hs, mem_history.mp (History.mem_edges_iff.mp hedge), hid, ht, rfl⟩
  · rintro ⟨v, n, t, role, ha, hs, hedge, hid, ht, hr⟩
    exact ⟨v, r.file, hid, n, ⟨ha, hs⟩, (t, role), History.mem_edges_iff.mpr (mem_history.mpr hedge), ht, hr⟩

theorem Buffered.mem_sites (hb : Buffered b₀ a₀ es es st) (h : OneStarts es) (c : CallSite) : c ∈ st.sinks.call_sites ↔
    ∃ v t, Has es v .anchor ∧ Has es v (.start c.start) ∧ Has es v (.ref t c.role) ∧
      st.sinks.file_ids.id? v.path = some c.file ∧ (c.role = Role.REF ∨ c.role = Role.CALL) ∧ c.sym = t.sym := by
  have hmem : ∀ v file, c ∈ (history es v).siteRows file ↔
      ∃ n, (history es v).place = some n ∧ ∃ e ∈ (history es v).edges, c ∈ sitesOf file n e := fun v file =>
    History.OneStart.mem_written rfl (fun _ _ => rfl) (h v) c
  rw [hb.sites]
  simp only [hmem, h.place_iff, mem_sitesOf]
  constructor
  · rintro ⟨v, file, hid, n, ⟨ha, hs⟩, ⟨t, role⟩, hedge, hrole, rfl⟩
    exact ⟨v, t, ha, hs, mem_history.mp (History.mem_edges_iff.mp hedge), hid, hrole, rfl⟩
  · rintro ⟨v, t, ha, hs, hedge, hid, hrole, hsym⟩
    exact ⟨v, c.file, hid, c.start, ⟨ha, hs⟩, (t, c.role), History.mem_edges_iff.mpr (mem_history.mpr hedge), hrole,
      by rw [← hsym]⟩

end

/-! ## The documented rows -/

/-- The edges of the documentation's table that queue a call site. -/
def callEdge (kind : String) : Bool := ["/kythe/edge/ref", "/kythe/edge/ref/call"].contains (edgeBase kind)

/-- Those that make an xref row only. -/
def xrefOnlyEdge (kind : String) : Bool :=
  ["/kythe/edge/ref/writes", "/kythe/edge/ref/imports"].contains (edgeBase kind)

def Entry.Documented (e : Entry) : Prop := callEdge e.edge_kind = true ∧ e.target.is_empty = false

/-- The edge is one of an anchor that starts at `n` in `file`. -/
structure Refers (es : List Entry) (ids : FileIdAllocator) (e : Entry) (role : UInt8) (file n : UInt32) : Prop where
  mem : e ∈ es
  role : edge_to_role e.edge_kind = some role
  anchor : Has es e.source .anchor
  start : Has es e.source (.start n)
  file : ids.id? e.source.path = some file

theorem callEdge_role {kind : String} (hk : callEdge kind = true) {role : UInt8} (h : edge_to_role kind = some role) :
    role = Role.REF ∨ role = Role.CALL := by
  have hbase := edge_to_role_base h
  simp only [List.mem_cons, Prod.mk.injEq, List.not_mem_nil, or_false] at hbase
  unfold callEdge at hk
  rcases hbase with ⟨hb, rfl⟩ | ⟨hb, rfl⟩ | ⟨-, rfl⟩ | ⟨-, rfl⟩ | ⟨-, rfl⟩ | ⟨-, rfl⟩
  · rw [hb] at hk
    exact absurd hk (by decide)
  · rw [hb] at hk
    exact absurd hk (by decide)
  all_goals simp

theorem Has.source_ne {es : List Entry} {v : VName} (h : Has es v .anchor) : v.is_empty = false := by
  obtain ⟨e, -, rfl, hev⟩ := h
  unfold Entry.event at hev
  split at hev
  · cases hev
  · rename_i hsource
    exact Bool.eq_false_iff.mpr hsource

theorem Refers.has {es : List Entry} {ids : FileIdAllocator} {e : Entry} {role : UInt8} {file n : UInt32}
    (h : Refers es ids e role file n) : Has es e.source (.ref e.target role) :=
  has_ref.mpr ⟨e, h.mem, rfl, h.anchor.source_ne, h.role, rfl⟩

section

variable [XxHash64] [SortUnstable]

/-- The row of an edge in a body. -/
def callRow (st : IngestState) (b : BodyAnchor) (e : Entry) (role : UInt8) : CallRow :=
  ⟨st.remap b.sym, st.remap e.target.sym, role⟩

/-- A body around the offset that no other is shorter than. -/
def ShortestBody (st : IngestState) (file n : UInt32) (b : BodyAnchor) : Prop :=
  b.Shortest st.sinks.body_anchors file n

/-- Of the bodies around the offset that start last, the one that the sort puts last. -/
def LastBody (st : IngestState) (file n : UInt32) (b : BodyAnchor) : Prop :=
  ListedLast (SortUnstable.sort st.sinks.body_anchors) file n b

/-- The row is the documented one of an edge. -/
def DocumentedRow (es : List Entry) (st : IngestState) (r : CallRow) : Prop :=
  ∃ e role file n b, Refers es st.sinks.file_ids e role file n ∧ e.Documented ∧ ShortestBody st file n b ∧
    callRow st b e role = r

structure CallsDocumented (es : List Entry) (st : IngestState) (added : Delta) : Prop where
  sound : ∀ r ∈ added.calls, DocumentedRow es st r
  complete : ∀ e role file n, Refers es st.sinks.file_ids e role file n → e.Documented →
    (∃ b ∈ st.sinks.body_anchors, b.Around file n) → ∃ b, ShortestBody st file n b ∧ callRow st b e role ∈ added.calls
  xref_only : ∀ e role file n, Refers es st.sinks.file_ids e role file n → xrefOnlyEdge e.edge_kind = true →
    e.target.is_empty = false → ⟨st.remap e.target.sym, role, file, n⟩ ∈ added.xrefs
  has_xref : ∀ r ∈ added.calls, ∃ x ∈ added.xrefs, x.sym = r.snd ∧ x.role = r.role

/-- The row of the last body around the edge, which has the role of a call. -/
def MadeRow (es : List Entry) (st : IngestState) (r : CallRow) : Prop :=
  ∃ e role file n b, Refers es st.sinks.file_ids e role file n ∧ (role = Role.REF ∨ role = Role.CALL) ∧
    LastBody st file n b ∧ callRow st b e role = r

/-- The last body around the offset is not one of the shortest. -/
def Misplaced (st : IngestState) (file n : UInt32) (b : BodyAnchor) : Prop :=
  LastBody st file n b ∧ ∀ b', ShortestBody st file n b' → b'.sym ≠ b.sym

/-- What goes wrong at one edge is made good by another: the row of an edge that is not documented, or
of one that is misplaced, is the documented row of another, and the row that a misplaced edge should
have is made by another. -/
structure StraysCovered (es : List Entry) (st : IngestState) : Prop where
  made : ∀ e role file n b, Refers es st.sinks.file_ids e role file n → role = Role.REF ∨ role = Role.CALL →
    LastBody st file n b → ¬ e.Documented ∨ Misplaced st file n b → DocumentedRow es st (callRow st b e role)
  missed : ∀ e role file n b, Refers es st.sinks.file_ids e role file n → e.Documented → Misplaced st file n b →
    ∃ b', ShortestBody st file n b' ∧ MadeRow es st (callRow st b' e role)

variable {es : List Entry} {b₀ : IndexBuilder} {a₀ : FileIdAllocator} {st : IngestState}

/-- Every edge with the role of a call makes a row. -/
theorem Buffered.mem_calls (hb : Buffered b₀ a₀ es es st) (h : OneStarts es) (r : CallRow) :
    r ∈ st.written.calls ↔ MadeRow es st r := by
  have hrow : r ∈ st.written.calls ↔ ∃ c ∈ st.sinks.call_sites,
      ∃ b, LastBody st c.file c.start b ∧ ⟨st.remap b.sym, st.remap c.sym, c.role⟩ = r := by
    simp only [IngestState.written, callDelta, List.mem_flatMap, List.mem_map, Option.mem_toList,
      innermost_iff (SortUnstable.sorted _), LastBody]
    refine exists_congr fun c => and_congr_right fun _ => ⟨?_, ?_⟩
    · rintro ⟨-, ⟨b, hb, rfl⟩, hr⟩
      exact ⟨b, hb, hr⟩
    · rintro ⟨b, hb, hr⟩
      exact ⟨b.sym, ⟨b, hb, rfl⟩, hr⟩
  rw [hrow]
  constructor
  · rintro ⟨c, hc, b, hlast, rfl⟩
    obtain ⟨v, t, ha, hs, href, hid, hrole, hsym⟩ := (hb.mem_sites h c).mp hc
    obtain ⟨e, he, rfl, -, hkind, rfl⟩ := has_ref.mp href
    exact ⟨e, c.role, c.file, c.start, b, ⟨he, hkind, ha, hs, hid⟩, hrole, hlast, by rw [callRow, hsym]⟩
  · rintro ⟨e, role, file, n, b, hr, hrole, hlast, rfl⟩
    have hsite := (hb.mem_sites h ⟨file, n, e.target.sym, role⟩).mpr
      ⟨e.source, e.target, hr.anchor, hr.start, hr.has, hr.file, hrole, rfl⟩
    exact ⟨_, hsite, b, hlast, rfl⟩

omit [XxHash64] in
theorem exists_lastBody {file n : UInt32} (h : ∃ b ∈ st.sinks.body_anchors, b.Around file n) :
    ∃ b, LastBody st file n b := by
  obtain ⟨b, hb, har⟩ := h
  cases hfound : innermost_containing (SortUnstable.sort st.sinks.body_anchors) file n with
  | none =>
    exact absurd har ((innermost_none (SortUnstable.sorted _)).mp hfound b ((SortUnstable.perm _).mem_iff.mpr hb))
  | some s =>
    obtain ⟨b', hb', -⟩ := (innermost_iff (SortUnstable.sorted _)).mp hfound
    exact ⟨b', hb'⟩

omit [XxHash64] in
theorem LastBody.around {file n : UInt32} {b : BodyAnchor} (h : LastBody st file n b) :
    ∃ b ∈ st.sinks.body_anchors, b.Around file n :=
  ⟨b, (SortUnstable.perm _).mem_iff.mp (ListedLast.mem h), ListedLast.around h⟩

theorem Refers.xref (hb : Buffered b₀ a₀ es es st) (h : OneStarts es) {e : Entry} {role : UInt8} {file n : UInt32}
    (hr : Refers es st.sinks.file_ids e role file n) (ht : e.target.is_empty = false) :
    ⟨st.remap e.target.sym, role, file, n⟩ ∈ st.written.xrefs := by
  have hmem := (hb.mem_xrefs h ⟨e.target.sym, role, file, n⟩).mpr
    ⟨e.source, n, e.target, role, hr.anchor, hr.start, hr.has, hr.file, ht, rfl⟩
  exact List.mem_flatMap.mpr ⟨_, hmem, List.mem_singleton.mpr rfl⟩

variable [Unicode] [SetOrder]

/-- The rows are the documented ones exactly if other edges make good what goes wrong at one. -/
theorem calls_documented (hkeys : DistinctKeys es) (hstart : OneStarts es)
    (hrun : es.foldlM (fun st e => process_entry e st) { sinks := { builder := b₀, file_ids := a₀ } } = some st) :
    CallsDocumented es st (b₀.since (finalize st)) ↔ StraysCovered es st := by
  have hb := buffered_run hkeys hrun
  rw [finalize_since (run_rows hrun)]
  constructor
  · intro h
    constructor
    · intro e role file n b hr hrole hlast _
      exact h.sound _ ((hb.mem_calls hstart _).mpr ⟨e, role, file, n, b, hr, hrole, hlast, rfl⟩)
    · intro e role file n b hr hd hmis
      obtain ⟨b', hb', hmem⟩ := h.complete e role file n hr hd hmis.1.around
      exact ⟨b', hb', (hb.mem_calls hstart _).mp hmem⟩
  · intro h
    have hsound : ∀ r ∈ st.written.calls, DocumentedRow es st r := by
      intro r hmem
      obtain ⟨e, role, file, n, b, hr, hrole, hlast, rfl⟩ := (hb.mem_calls hstart r).mp hmem
      by_cases hstray : ¬ e.Documented ∨ Misplaced st file n b
      · exact h.made e role file n b hr hrole hlast hstray
      · simp only [not_or, not_not, Misplaced, not_and, not_forall, exists_prop] at hstray
        obtain ⟨hd, hplaced⟩ := hstray
        obtain ⟨b', hb', hsym⟩ := hplaced hlast
        exact ⟨e, role, file, n, b', hr, hd, hb', by rw [callRow, hsym, callRow]⟩
    refine ⟨hsound, fun e role file n hr hd har => ?_, fun e role file n hr _ ht => hr.xref hb hstart ht,
      fun r hmem => ?_⟩
    · obtain ⟨b, hlast⟩ := exists_lastBody har
      by_cases hmis : Misplaced st file n b
      · obtain ⟨b', hb', hmade⟩ := h.missed e role file n b hr hd hmis
        exact ⟨b', hb', (hb.mem_calls hstart _).mpr hmade⟩
      · simp only [Misplaced, not_and, not_forall, not_not, exists_prop] at hmis
        obtain ⟨b', hb', hsym⟩ := hmis hlast
        refine ⟨b', hb', (hb.mem_calls hstart _).mpr ⟨e, role, file, n, b, hr, callEdge_role hd.1 hr.role, hlast, ?_⟩⟩
        rw [callRow, callRow, hsym]
    · obtain ⟨e, role, file, n, b, hr, hd, -, rfl⟩ := hsound r hmem
      exact ⟨_, hr.xref hb hstart hd.2, rfl, rfl⟩

end

/-! A body with a `ref/writes` edge in it. -/

def writeAnchor : VName := { signature := "@1", path := "a.c", language := "c++" }

def writtenVariable : VName := { signature := "x", language := "c++" }

def writeEdge : Entry := { source := writeAnchor, edge_kind := "/kythe/edge/ref/writes", target := writtenVariable }

def writeEntries : List Entry :=
  [{ source := bodyAnchor, fact_name := "/kythe/node/kind", fact_value := as_bytes "anchor" },
    { source := bodyAnchor, fact_name := "/kythe/loc/start", fact_value := as_bytes "0" },
    { source := bodyAnchor, fact_name := "/kythe/loc/end", fact_value := as_bytes "9" },
    { source := bodyAnchor, edge_kind := "/kythe/edge/defines", target := firstBody },
    { source := writeAnchor, fact_name := "/kythe/node/kind", fact_value := as_bytes "anchor" },
    { source := writeAnchor, fact_name := "/kythe/loc/start", fact_value := as_bytes "3" },
    writeEdge]

theorem writeEntries_source {e : Entry} (he : e ∈ writeEntries) : e.source = bodyAnchor ∨ e.source = writeAnchor := by
  simp only [writeEntries, List.mem_cons, List.not_mem_nil, or_false] at he
  rcases he with rfl | rfl | rfl | rfl | rfl | rfl | rfl
  all_goals first | exact .inl rfl | exact .inr rfl

theorem writeEntries_keys : DistinctKeys writeEntries := by
  intro e he e' he' hkey
  have hne : bodyAnchor.to_symbol_string ≠ writeAnchor.to_symbol_string := by decide
  rcases writeEntries_source he with h | h <;> rcases writeEntries_source he' with h' | h' <;> rw [h, h'] at hkey ⊢
  · exact absurd hkey hne
  · exact absurd hkey.symm hne

theorem writeEntries_starts : OneStarts writeEntries := by
  intro v n n' hn hn'
  obtain ⟨e, he, rfl, hev⟩ := mem_history.mp hn
  obtain ⟨e', he', hsource, hev'⟩ := mem_history.mp hn'
  have hstart : ∀ e ∈ writeEntries, ∀ n, e.event = .start n → n = if e.source = bodyAnchor then 0 else 3 := by
    intro e he n hev
    simp only [writeEntries, List.mem_cons, List.not_mem_nil, or_false] at he
    rcases he with rfl | rfl | rfl | rfl | rfl | rfl | rfl <;> cases hev <;> rfl
  rw [hstart e he n hev, hstart e' he' n' hev', hsource]

@[reducible] def writeHash : XxHash64 :=
  hashTable [("kythe:c++:##a.c#@0", 0x4f532c2457e9ba06), ("kythe:c++:##a.c#@1", 0x95d5973fe6f4fa32),
    ("kythe:c++:###f", 0xfe2f89254e732c82), ("kythe:c++:###x", 0x3a8eb6db2e4ba3b1)]

section

attribute [local instance] writeHash asciiUnicode dedupOrder stableSort

theorem writeEntries_run : ∃ st, writeEntries.foldlM (fun st e => process_entry e st)
    ({ sinks := { builder := IndexBuilder.new, file_ids := {} } } : IngestState) = some st :=
  (run_of_room writeEntries (by decide)).imp fun _ h => h.1

theorem calls_documented_writeEntries : ∃ st, writeEntries.foldlM (fun st e => process_entry e st)
    ({ sinks := { builder := IndexBuilder.new, file_ids := {} } } : IngestState) = some st ∧
      (CallsDocumented writeEntries st (IndexBuilder.new.since (finalize st)) ↔ StraysCovered writeEntries st) := by
  obtain ⟨st, hrun⟩ := writeEntries_run
  exact ⟨st, hrun, calls_documented writeEntries_keys writeEntries_starts hrun⟩

theorem write_called : ∃ st, writeEntries.foldlM (fun st e => process_entry e st)
    ({ sinks := { builder := IndexBuilder.new, file_ids := {} } } : IngestState) = some st ∧
      ¬ CallsDocumented writeEntries st (IndexBuilder.new.since (finalize st)) := by
  obtain ⟨st, hrun⟩ := writeEntries_run
  refine ⟨st, hrun, fun h => ?_⟩
  rw [finalize_since (run_rows hrun)] at h
  have hb := buffered_run writeEntries_keys hrun
  have hbody : (history writeEntries bodyAnchor).Writes 0 9 firstBody := .edge (by decide) (by decide)
  obtain ⟨file, hfile⟩ := hb.placed bodyAnchor (by decide)
  have hmem : (⟨file, 0, 9, firstBody.sym⟩ : BodyAnchor) ∈ st.sinks.body_anchors :=
    (hb.mem_bodies _).mpr ⟨bodyAnchor, firstBody, hfile, hbody, rfl⟩
  -- The offset of the write is inside that body.
  obtain ⟨b, hlast⟩ := exists_lastBody ⟨_, hmem, ⟨rfl, (by decide : (0 : UInt32) ≤ 3), (by decide : (3 : UInt32) < 9)⟩⟩
  have hrefers : Refers writeEntries st.sinks.file_ids writeEdge Role.REF file 3 :=
    ⟨by simp [writeEntries], by decide, ⟨writeEntries.get ⟨4, by decide⟩, List.get_mem .., rfl, rfl⟩,
      ⟨writeEntries.get ⟨5, by decide⟩, List.get_mem .., rfl, rfl⟩, hfile⟩
  obtain ⟨e, role, file', n, b', hr, hd, -⟩ := h.sound _ ((hb.mem_calls writeEntries_starts _).mpr
    ⟨writeEdge, Role.REF, file, 3, b, hrefers, .inl rfl, hlast, rfl⟩)
  have hnone : ∀ e ∈ writeEntries, callEdge e.edge_kind = false := by decide
  exact absurd hd.1 (by simp [hnone e hr.mem])

end

end Scry2
