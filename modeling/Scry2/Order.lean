import Scry2.Calls
import Scry2.Noted

/-!
# The order of the entries

A stream whose nodes have consistent facts leaves the same rows whatever the order of its entries.
-/

open Scry2.Lib
open Std (ExtTreeMap)

namespace Scry2

/-! ## Consistent facts -/

/-- The nodes that `es` mentions. -/
def Mentions (es : List Entry) (v : VName) : Prop := ∃ e ∈ es, v = e.source ∨ e.edge_kind ≠ "" ∧ v = e.target

/-- The body from `n` to `m` in the anchor `v`. -/
structure Has.Range (es : List Entry) (v : VName) (n m : UInt32) (t : VName) : Prop where
  anchor : Has es v .anchor
  start : Has es v (.start n)
  stop : Has es v (.stop m)
  define : Has es v (.ref t Role.DEF)

/-- One value for each fact of a node, one target where a node has one, and one body for each start. -/
structure Coherent [XxHash64] (es : List Entry) : Prop where
  fact : ∀ e ∈ es, ∀ e' ∈ es, e.source = e'.source → e.edge_kind = "" → e'.edge_kind = "" →
    e.fact_name = e'.fact_name → e.fact_value = e'.fact_value
  define : ∀ v t t', Has es v (.ref t Role.DEF) → Has es v (.ref t' Role.DEF) → t = t'
  completes : ∀ v t t', Has es v (.completes t) → Has es v (.completes t') → t = t'
  param : ∀ v ord t t', Has es v (.param ord t) → Has es v (.param ord t') → t = t'
  typed : ∀ v t t', Has es v (.typed t) → Has es v (.typed t') → t = t'
  bodies : ∀ v w n m m' t t', v.path = w.path → Has.Range es v n m t → Has.Range es w n m' t' → t = t'
  keys : ∀ v w, Mentions es v → Mentions es w → v.to_symbol_string = w.to_symbol_string → v = w
  syms : ∀ v w, Mentions es v → Mentions es w → v.sym = w.sym → v = w

theorem Has.perm {es es' : List Entry} (h : es.Perm es') : Has es = Has es' := by
  funext v ev
  simp only [Has, h.mem_iff]

/-- The fact that an event is about. -/
def Event.factName : Event → Option String
  | .code _ => some "/kythe/code"
  | .anchor | .node _ => some "/kythe/node/kind"
  | .subkind _ => some "/kythe/subkind"
  | .start _ => some "/kythe/loc/start"
  | .stop _ => some "/kythe/loc/end"
  | _ => none

theorem edgeEvent_factName (kind : String) (target : VName) : (edgeEvent kind target).factName = none := by
  unfold edgeEvent
  repeat' first | rfl | split

theorem factEvent_factName {name fact : String} {value : Bytes} (h : (factEvent name value).factName = some fact) :
    name = fact := by
  unfold factEvent at h
  split at h
  · rename_i hname
    exact hname.trans (Option.some.inj h)
  split at h
  · rename_i hname
    split at h <;> exact hname.trans (Option.some.inj h)
  split at h
  · rename_i hname
    exact hname.trans (Option.some.inj h)
  split at h
  · rename_i hname
    cases hv : parse_ascii_u32 value with
    | none => rw [hv] at h; cases h
    | some v => rw [hv] at h; exact hname.trans (Option.some.inj h)
  split at h
  · rename_i hname
    cases hv : parse_ascii_u32 value with
    | none => rw [hv] at h; cases h
    | some v => rw [hv] at h; exact hname.trans (Option.some.inj h)
  · cases h

/-- An event about a fact comes from an entry of that fact. -/
theorem event_of_fact {e : Entry} {fact : String} (h : e.event.factName = some fact) :
    e.edge_kind = "" ∧ e.fact_name = fact ∧ e.event = factEvent e.fact_name e.fact_value := by
  unfold Entry.event at h ⊢
  split at h
  · cases h
  · rename_i hsource
    split at h
    · rw [edgeEvent_factName] at h
      cases h
    · rename_i hkind
      rw [if_neg hsource, if_neg hkind]
      exact ⟨not_not.mp hkind, factEvent_factName h, rfl⟩

/-! ## Kinds -/

/-- Known kinds of one symbol agree. -/
def OneKind (ops : List (UInt64 × KindOp)) : Prop :=
  ∀ s k k', (s, .see k) ∈ ops → (s, .see k') ∈ ops → k = k' ∨ k = Kind.UNK ∨ k' = Kind.UNK

theorem KindOp.run_swap {x y : KindOp}
    (h : ∀ k k', x = .see k → y = .see k' → k = k' ∨ k = Kind.UNK ∨ k' = Kind.UNK) (o : Option UInt8) :
    y.run (x.run o) = x.run (y.run o) := by
  have hfield : Kind.FIELD ≠ Kind.UNK := by decide
  cases x with
  | field =>
    cases y with
    | field => rfl
    | see k => cases o <;> simp [KindOp.run, hfield]
  | see k =>
    cases y with
    | field => cases o <;> simp [KindOp.run, hfield]
    | see k' =>
      rcases h k k' rfl rfl with rfl | rfl | rfl
      · rfl
      · cases o with
        | none => simp [KindOp.run]
        | some old => by_cases hold : old = Kind.UNK <;> simp [KindOp.run, hold]
      · have hk : (if k = Kind.UNK then Kind.UNK else k) = k := by
          split
          · rename_i hk
            exact hk.symm
          · rfl
        cases o with
        | none => simp [KindOp.run, hk]
        | some old => by_cases hold : old = Kind.UNK <;> simp [KindOp.run, hold, hk]

theorem KindOp.run_again (x : KindOp) (o : Option UInt8) : x.run (x.run o) = x.run o := by
  cases x with
  | field => rfl
  | see k =>
    cases o with
    | none => simp [KindOp.run]
    | some old => by_cases hold : old = Kind.UNK <;> simp [KindOp.run, hold]

theorem OneKind.idle {ops : List (UInt64 × KindOp)} (h : OneKind ops) : Idle noteKind ops := by
  constructor
  · rintro ⟨s, x⟩ hx ⟨s', y⟩ hy kinds
    simp only [noteKind]
    by_cases hs : s = s'
    · subst hs
      have hswap := KindOp.run_swap (x := x) (y := y) (fun k k' hk hk' => h s k k' (hk ▸ hx) (hk' ▸ hy)) (kinds s)
      simp only [Function.update_self, Function.update_idem, hswap]
    · rw [Function.update_of_ne (Ne.symm hs), Function.update_of_ne hs, Function.update_comm hs]
  · rintro ⟨s, x⟩ _ kinds
    simp only [noteKind, Function.update_self, Function.update_idem, KindOp.run_again]

/-! ## One stream in two orders -/

section

variable [XxHash64] {es es' : List Entry}

theorem Coherent.perm (h : Coherent es) (hperm : es.Perm es') : Coherent es' := by
  have hmem : ∀ e, e ∈ es' → e ∈ es := fun e => hperm.mem_iff.mpr
  have hhas : Has es' = Has es := (Has.perm hperm).symm
  have hmentions : ∀ v, Mentions es' v → Mentions es v := fun v ⟨e, he, hv⟩ => ⟨e, hmem e he, hv⟩
  have hrange : ∀ {v n m t}, Has.Range es' v n m t → Has.Range es v n m t := fun hr =>
    ⟨hhas ▸ hr.anchor, hhas ▸ hr.start, hhas ▸ hr.stop, hhas ▸ hr.define⟩
  refine ⟨fun e he e' he' => h.fact e (hmem e he) e' (hmem e' he'), ?_, ?_, ?_, ?_,
    fun v w n m m' t t' hp hr hr' => h.bodies v w n m m' t t' hp (hrange hr) (hrange hr'),
    fun v w hv hw => h.keys v w (hmentions v hv) (hmentions w hw), fun v w hv hw => h.syms v w (hmentions v hv) (hmentions w hw)⟩
  all_goals rw [hhas]
  exacts [h.define, h.completes, h.param, h.typed]

/-- The events of a node about one fact are the same. -/
theorem Coherent.fact_event (h : Coherent es) {v : VName} {ev ev' : Event} {fact : String} (hev : Has es v ev)
    (hev' : Has es v ev') (hf : ev.factName = some fact) (hf' : ev'.factName = some fact) : ev = ev' := by
  obtain ⟨e, he, rfl, rfl⟩ := hev
  obtain ⟨e', he', hsource, rfl⟩ := hev'
  obtain ⟨hk, hn, hfact⟩ := event_of_fact hf
  obtain ⟨hk', hn', hfact'⟩ := event_of_fact hf'
  have hvalue := h.fact e he e' he' hsource.symm hk hk' (hn.trans hn'.symm)
  rw [hfact, hfact', hn, hn', hvalue]

theorem Coherent.distinct (h : Coherent es) : DistinctKeys es := fun e he e' he' =>
  h.keys _ _ ⟨e, he, .inl rfl⟩ ⟨e', he', .inl rfl⟩

theorem Coherent.starts (h : Coherent es) : OneStarts es := fun v n n' hn hn' => by
  cases h.fact_event (mem_history.mp hn) (mem_history.mp hn') rfl rfl
  rfl

theorem Coherent.stops (h : Coherent es) (v : VName) : (history es v).OneStop := fun m m' hm hm' => by
  cases h.fact_event (mem_history.mp hm) (mem_history.mp hm') rfl rfl
  rfl

/-! ## Bodies -/

omit [XxHash64] in
/-- The only definition of an anchor is kept once its end has come. -/
theorem History.kept_of_single {h : History} {t : VName} (hone : ∀ t', .ref t' Role.DEF ∈ h → t' = t)
    (ht : .ref t Role.DEF ∈ h) (hs : (stop? h).isSome) : Kept h t := by
  induction h with
  | nil => cases ht
  | cons ev h ih =>
    rcases List.mem_cons.mp ht with rfl | hmem
    · exact .afterEnd hs
    · cases hold : stop? h with
      | some m => exact .later ev (ih (fun t' ht' => hone t' (.tail _ ht')) hmem (by rw [hold]; rfl))
      | none =>
        obtain ⟨m, hm⟩ := Option.isSome_iff_exists.mp hs
        cases ev with
        | stop k =>
          have hne : defines h ≠ [] := List.ne_nil_of_mem (mem_defines.mpr hmem)
          have hlast : lastDefine h = some ((defines h).getLast hne) := List.getLast?_eq_some_getLast hne
          rw [hone _ (.tail _ (lastDefine_mem hlast))] at hlast
          exact .last k hlast
        | _ => exact absurd (hold.symm.trans hm) nofun

/-- The bodies are those of the anchors that have one. -/
theorem Coherent.mem_bodies (h : Coherent es) {b₀ : IndexBuilder} {a₀ : FileIdAllocator} {st : IngestState}
    (hst : Buffered b₀ a₀ es es st) (b : BodyAnchor) : b ∈ st.sinks.body_anchors ↔
      ∃ v t, st.sinks.file_ids.id? v.path = some b.file ∧ Has.Range es v b.start b.stop t ∧ t.sym = b.sym := by
  rw [hst.mem_bodies]
  constructor
  · rintro ⟨v, t, hid, hw, hsym⟩
    obtain ⟨hanchor, hstart, hstop, hdef⟩ := hw.facts
    exact ⟨v, t, hid, ⟨mem_history.mp hanchor, mem_history.mp hstart, mem_history.mp hstop, mem_history.mp hdef⟩, hsym⟩
  · rintro ⟨v, t, hid, hr, hsym⟩
    have hplace := h.starts.place_iff.mpr ⟨hr.anchor, hr.start⟩
    have hstop := (h.stops v).stop_iff.mpr (mem_history.mpr hr.stop)
    have hk : (history es v).Kept t :=
      History.kept_of_single (fun t' ht' => h.define v t' t (mem_history.mp ht') hr.define) (mem_history.mpr hr.define)
        (by rw [hstop]; rfl)
    exact ⟨v, t, hid, hk.writes (h.starts v) (h.stops v) hplace hstop, hsym⟩

/-! ## Paths that are known -/

/-- The path of every entry has an id. -/
def PathsKnown (a₀ : FileIdAllocator) (es : List Entry) : Prop := ∀ e ∈ es, ∃ file, a₀.id? e.source.path = some file

omit [XxHash64] in
theorem touch_known {s : Sinks} {path : String} {file : UInt32} (h : s.file_ids.id? path = some file) :
    ∃ r, s.touch path = some r := by
  obtain ⟨e, he, -⟩ := Option.map_eq_some_iff.mp h
  unfold Sinks.touch FileIdAllocator.intern
  rw [he]
  exact ⟨_, rfl⟩

theorem emit_known [Unicode] {path : String} {s : Sinks} {file : UInt32} (hid : s.file_ids.id? path = some file)
    (h : History) (ev : Event) : ∃ s', h.emit path ev s = some s' := by
  obtain ⟨r, hr⟩ := touch_known hid
  unfold History.emit
  split
  · exact ⟨_, by rw [hr]; rfl⟩
  · exact ⟨s, rfl⟩
  · exact ⟨_, by rw [hr]; rfl⟩
  · exact ⟨s, rfl⟩

section

variable {b₀ : IndexBuilder} {a₀ : FileIdAllocator} {all : List Entry} {st : IngestState}

theorem Buffered.step_known [Unicode] (h : Buffered b₀ a₀ all es st) {e : Entry} (he : e ∈ all) {file : UInt32}
    (hid : a₀.id? e.source.path = some file) : ∃ st', process_entry e st = some st' := by
  cases hev : e.event.ofAnchor with
  | true =>
    obtain ⟨s, hs⟩ := emit_known (h.ids _ _ hid) (history es e.source) e.event
    exact ⟨_, by rw [process_entry_anchor hev (h.accum e he), hs]; rfl⟩
  | false =>
    obtain ⟨st', -, hst, -⟩ := process_entry_other hev st
    exact ⟨st', hst⟩

/-- A stream whose paths are known runs to its end. -/
theorem buffered_of_known [Unicode] (hkeys : DistinctKeys all) (hknown : PathsKnown a₀ all) (b₀ : IndexBuilder) :
    ∃ st, all.foldlM (fun st e => process_entry e st) { sinks := { builder := b₀, file_ids := a₀ } } = some st ∧
      Buffered b₀ a₀ all all st := by
  suffices hrest : ∀ rest es st, es ++ rest = all → Buffered b₀ a₀ all es st →
      ∃ st', rest.foldlM (fun st e => process_entry e st) st = some st' ∧ Buffered b₀ a₀ all all st' from
    hrest all [] _ rfl (.start b₀ a₀ all)
  intro rest
  induction rest with
  | nil =>
    intro es st hall hb
    rw [List.append_nil] at hall
    exact ⟨st, rfl, hall ▸ hb⟩
  | cons e rest ih =>
    intro es st hall hb
    have he : e ∈ all := hall ▸ List.mem_append_right es List.mem_cons_self
    obtain ⟨file, hid⟩ := hknown e he
    obtain ⟨st₁, hstep⟩ := hb.step_known he hid
    obtain ⟨st', hrun, hb'⟩ := ih (es ++ [e]) st₁ (by rw [List.append_assoc]; exact hall) (hb.step hkeys he hstep)
    exact ⟨st', by rw [List.foldlM_cons, hstep]; exact hrun, hb'⟩

/-- The paths of the entries keep the ids they had. -/
theorem Buffered.id_iff (h : Buffered b₀ a₀ es es st) (hknown : PathsKnown a₀ es) {v : VName} {ev : Event}
    (hv : Has es v ev) {file : UInt32} : st.sinks.file_ids.id? v.path = some file ↔ a₀.id? v.path = some file := by
  obtain ⟨e, he, rfl, -⟩ := hv
  obtain ⟨file', hid⟩ := hknown e he
  rw [h.ids _ _ hid, hid]

theorem Buffered.same_id {st' : IngestState} (h : Buffered b₀ a₀ es es st) (h' : Buffered b₀ a₀ es' es' st')
    (hknown : PathsKnown a₀ es) (hperm : es.Perm es') {v : VName} {ev : Event} (hv : Has es v ev) (file : UInt32) :
    st.sinks.file_ids.id? v.path = some file ↔ st'.sinks.file_ids.id? v.path = some file := by
  have hknown' : PathsKnown a₀ es' := fun e he => hknown e (hperm.mem_iff.mpr he)
  rw [h.id_iff hknown hv, h'.id_iff hknown' (Has.perm hperm ▸ hv)]

end

/-! ## Tables keyed by the nodes -/

theorem mem_notes_perm [Unicode] (hperm : es.Perm es') {α : Type} (f : Notes → List α) (x : α) :
    x ∈ (es.map Entry.notes).flatMap f ↔ x ∈ (es'.map Entry.notes).flatMap f := by
  simp only [List.mem_flatMap, List.mem_map, hperm.mem_iff]

section

variable [Unicode] {e : Entry}

theorem mem_completes {x : String × String} : x ∈ e.notes.completes ↔
    ∃ t, e.event = .completes t ∧ x = (e.source.to_symbol_string, t.to_symbol_string) := by
  unfold Entry.notes
  cases e.event <;> simp [nodeNotes]

theorem mem_edges {x : String × String} : x ∈ e.notes.edges ↔
    ∃ t, e.event = .typed t ∧ x = (e.source.to_symbol_string, t.to_symbol_string) := by
  unfold Entry.notes
  cases e.event <;> simp [nodeNotes]

theorem mem_code {x : String × Bytes} : x ∈ e.notes.code ↔
    ∃ value, e.event = .code value ∧ x = (e.source.to_symbol_string, value) := by
  unfold Entry.notes
  cases e.event <;> simp [nodeNotes]

theorem mem_params {x : String × UInt32 × String} : x ∈ e.notes.params ↔
    ∃ ord t, e.event = .param ord t ∧ x = (e.source.to_symbol_string, ord, t.to_symbol_string) := by
  unfold Entry.notes
  cases e.event <;> simp [nodeNotes]

theorem of_mem_kind {x : String × String} (h : x ∈ e.notes.kind) :
    ∃ value, e.event = .node value ∧ x = (e.source.to_symbol_string, value) := by
  unfold Entry.notes at h
  cases hev : e.event with
  | node value =>
    rw [hev] at h
    simp only [nodeNotes] at h
    split at h
    · exact ⟨value, rfl, List.mem_singleton.mp h⟩
    · cases h
  | _ => rw [hev] at h; cases h

theorem of_mem_builtin_op {x : String × String} (h : x ∈ e.notes.builtin_op) :
    x.1 = e.source.to_symbol_string ∧ builtin_op_of e.source.signature = some x.2 := by
  unfold Entry.notes at h
  cases hev : e.event with
  | node value =>
    rw [hev] at h
    simp only [nodeNotes] at h
    split at h
    · obtain ⟨op, hop, rfl⟩ := List.mem_map.mp h
      exact ⟨rfl, Option.mem_toList.mp hop⟩
    · cases h
  | _ => rw [hev] at h; cases h

/-- Rows keyed by their source are functional if the source determines the value. -/
theorem Coherent.functional (h : Coherent es) {β : Type} {f : Notes → List (String × β)} (val : VName → β → Prop)
    (hval : ∀ e ∈ es, ∀ x ∈ f e.notes, x.1 = e.source.to_symbol_string ∧ val e.source x.2)
    (hone : ∀ v b b', val v b → val v b' → b = b') : Functional ((es.map Entry.notes).flatMap f) := by
  intro x hx y hy hkey
  simp only [List.mem_flatMap, List.mem_map] at hx hy
  obtain ⟨_, ⟨e, he, rfl⟩, hx⟩ := hx
  obtain ⟨_, ⟨e', he', rfl⟩, hy⟩ := hy
  obtain ⟨hx1, hx2⟩ := hval e he x hx
  obtain ⟨hy1, hy2⟩ := hval e' he' y hy
  have hsource : e.source = e'.source := h.keys _ _ ⟨e, he, .inl rfl⟩ ⟨e', he', .inl rfl⟩ (hx1.symm.trans (hkey.trans hy1))
  exact hone _ _ _ hx2 (hsource ▸ hy2)

/-- A node has one value from its events of one kind, if these agree. -/
theorem Coherent.event_functional {β γ : Type} (h : Coherent es) (ev : β → Event) (g : β → γ)
    {f : Notes → List (String × γ)}
    (hval : ∀ (e : Entry) x, x ∈ f e.notes → ∃ b, e.event = ev b ∧ x = (e.source.to_symbol_string, g b))
    (hone : ∀ v b b', Has es v (ev b) → Has es v (ev b') → b = b') : Functional ((es.map Entry.notes).flatMap f) := by
  refine h.functional (fun v y => ∃ b, Has es v (ev b) ∧ y = g b) (fun e he x hx => ?_) ?_
  · obtain ⟨b, hev, rfl⟩ := hval e x hx
    exact ⟨rfl, b, ⟨e, he, rfl, hev⟩, rfl⟩
  · rintro v _ _ ⟨b, hb, rfl⟩ ⟨b', hb', rfl⟩
    rw [hone v b b' hb hb']

theorem Coherent.completes_functional (h : Coherent es) : Functional ((es.map Entry.notes).flatMap (·.completes)) :=
  h.event_functional .completes VName.to_symbol_string (fun _ _ hx => mem_completes.mp hx) h.completes

theorem Coherent.edges_functional (h : Coherent es) : Functional ((es.map Entry.notes).flatMap (·.edges)) :=
  h.event_functional .typed VName.to_symbol_string (fun _ _ hx => mem_edges.mp hx) h.typed

theorem Coherent.code_functional (h : Coherent es) : Functional ((es.map Entry.notes).flatMap (·.code)) :=
  h.event_functional .code id (fun _ _ hx => mem_code.mp hx) fun _ _ _ hb hb' =>
    Event.code.inj (h.fact_event hb hb' rfl rfl)

theorem Coherent.kind_functional (h : Coherent es) : Functional ((es.map Entry.notes).flatMap (·.kind)) :=
  h.event_functional .node id (fun _ _ hx => of_mem_kind hx) fun _ _ _ hb hb' =>
    Event.node.inj (h.fact_event hb hb' rfl rfl)

theorem Coherent.builtin_op_functional (h : Coherent es) :
    Functional ((es.map Entry.notes).flatMap (·.builtin_op)) :=
  h.functional (fun v b => builtin_op_of v.signature = some b) (fun _ _ _ hx => of_mem_builtin_op hx)
    fun _ _ _ hb hb' => Option.some.inj (hb.symm.trans hb')

/-- The parameters of a node may come in any order. -/
theorem Coherent.params_idle (h : Coherent es) : Idle setParam ((es.map Entry.notes).flatMap (·.params)) := by
  have hval : ∀ x ∈ (es.map Entry.notes).flatMap (·.params), ∃ e ∈ es, ∃ ord t,
      e.event = .param ord t ∧ x = (e.source.to_symbol_string, ord, t.to_symbol_string) := by
    intro x hx
    simp only [List.mem_flatMap, List.mem_map] at hx
    obtain ⟨_, ⟨e, he, rfl⟩, hx⟩ := hx
    exact ⟨e, he, mem_params.mp hx⟩
  refine ⟨fun x hx y hy m => alter_swap m fun hkey o => ?_, fun x _ m => alter_again m x.1 fun o => ?_⟩
  · obtain ⟨e, he, ord, t, hev, rfl⟩ := hval x hx
    obtain ⟨e', he', ord', t', hev', rfl⟩ := hval y hy
    have hsource : e.source = e'.source := h.keys _ _ ⟨e, he, .inl rfl⟩ ⟨e', he', .inl rfl⟩ hkey
    have hfun : Functional [(ord, t.to_symbol_string), (ord', t'.to_symbol_string)] := by
      have hsame : ord = ord' → t.to_symbol_string = t'.to_symbol_string := by
        rintro rfl
        rw [h.param e.source ord t t' ⟨e, he, rfl, hev⟩ ⟨e', he', hsource.symm, hev'⟩]
      rintro a ha b hb hab
      simp only [List.mem_cons, List.not_mem_nil, or_false] at ha hb
      rcases ha with rfl | rfl <;> rcases hb with rfl | rfl
      · rfl
      · exact hsame hab
      · exact (hsame hab.symm).symm
      · rfl
    exact congrArg some (hfun.idle.swap _ List.mem_cons_self _ (List.mem_cons_of_mem _ List.mem_cons_self) (o.getD ∅))
  · have hfun : Functional [x.2] := by
      intro a ha b hb _
      rw [List.mem_singleton.mp ha, List.mem_singleton.mp hb]
    exact congrArg some (hfun.idle.again _ List.mem_cons_self (o.getD ∅))

end

/-- The entries of a stream agree on the kinds, whatever the mentions add. -/
theorem Coherent.kinds_agree (h : Coherent es) {ops : List (UInt64 × KindOp)}
    (hops : ∀ op ∈ ops, (∃ s, op = (s, .see Kind.UNK)) ∨ ∃ e ∈ es, op ∈ e.kindOps) : OneKind ops := by
  have hsee : ∀ s k, (s, .see k) ∈ ops → k = Kind.UNK ∨ ∃ v value, Has es v (.node value) ∧ v.sym = s ∧ node_kind_byte value = k ∧
      Mentions es v := by
    intro s k hk
    rcases hops _ hk with ⟨_, hop⟩ | ⟨e, he, hop⟩
    · cases hop
      exact .inl rfl
    · unfold Entry.kindOps at hop
      cases hev : e.event with
      | node value =>
        rw [hev] at hop
        cases List.mem_singleton.mp hop
        exact .inr ⟨e.source, value, ⟨e, he, rfl, hev⟩, rfl, rfl, e, he, .inl rfl⟩
      | subkind value =>
        rw [hev] at hop
        simp only at hop
        split at hop
        · cases List.mem_singleton.mp hop
        · cases hop
      | _ => rw [hev] at hop; cases hop
  intro s k k' hk hk'
  rcases hsee s k hk with rfl | ⟨v, value, hv, hs, rfl, hm⟩
  · exact .inr (.inl rfl)
  · rcases hsee s k' hk' with rfl | ⟨w, value', hw, hs', rfl, hm'⟩
    · exact .inr (.inr rfl)
    · left
      obtain rfl : v = w := h.syms v w hm hm' (hs.trans hs'.symm)
      cases h.fact_event hv hw rfl rfl
      rfl

/-! ## The same buffers -/

variable {b₀ : IndexBuilder} {a₀ : FileIdAllocator} {st st' : IngestState}

/-- The rows of the edges, the sites and the bodies do not depend on what was interned. -/
structure SameSinks (st st' : IngestState) : Prop where
  xrefs : ∀ r, r ∈ st.sinks.xrefs ↔ r ∈ st'.sinks.xrefs
  sites : ∀ c, c ∈ st.sinks.call_sites ↔ c ∈ st'.sinks.call_sites
  bodies : ∀ b, b ∈ st.sinks.body_anchors ↔ b ∈ st'.sinks.body_anchors

theorem Coherent.same_sinks (h : Coherent es) (hknown : PathsKnown a₀ es) (hperm : es.Perm es')
    (hst : Buffered b₀ a₀ es es st) (hst' : Buffered b₀ a₀ es' es' st') : SameSinks st st' := by
  have hhas := Has.perm hperm
  have h' := h.perm hperm
  have hids : ∀ {v ev}, Has es v ev → ∀ file,
      st.sinks.file_ids.id? v.path = some file ↔ st'.sinks.file_ids.id? v.path = some file :=
    hst.same_id hst' hknown hperm
  constructor
  case xrefs =>
    intro r
    rw [hst.mem_xrefs h.starts, hst'.mem_xrefs h'.starts, ← hhas]
    refine exists_congr fun v => exists_congr fun n => exists_congr fun t => exists_congr fun role => ?_
    exact and_congr_right fun ha => and_congr_right fun _ => and_congr_right fun _ => and_congr_left fun _ => hids ha _
  case sites =>
    intro c
    rw [hst.mem_sites h.starts, hst'.mem_sites h'.starts, ← hhas]
    refine exists_congr fun v => exists_congr fun t => ?_
    exact and_congr_right fun ha => and_congr_right fun _ => and_congr_right fun _ => and_congr_left fun _ => hids ha _
  case bodies =>
    intro b
    rw [h.mem_bodies hst, h'.mem_bodies hst']
    refine exists_congr fun v => exists_congr fun t => ?_
    have hrange : Has.Range es' v b.start b.stop t ↔ Has.Range es v b.start b.stop t :=
      ⟨fun ⟨ha, hs, hm, hd⟩ => ⟨hhas ▸ ha, hhas ▸ hs, hhas ▸ hm, hhas ▸ hd⟩,
        fun ⟨ha, hs, hm, hd⟩ => ⟨hhas ▸ ha, hhas ▸ hs, hhas ▸ hm, hhas ▸ hd⟩⟩
    rw [hrange]
    constructor
    · rintro ⟨hid, hr, hsym⟩
      exact ⟨(hids hr.anchor _).mp hid, hr, hsym⟩
    · rintro ⟨hid, hr, hsym⟩
      exact ⟨(hids hr.anchor _).mpr hid, hr, hsym⟩

/-- The states after two orders of one stream. -/
theorem Coherent.same_buffers [Unicode] (h : Coherent es) (ha : a₀.Wf) (hknown : PathsKnown a₀ es) (hperm : es.Perm es')
    (hst : Buffered b₀ a₀ es es st) (hst' : Buffered b₀ a₀ es' es' st')
    (hn : Noted (es.map Entry.notes) { sinks := { builder := b₀, file_ids := a₀ } } st)
    (hn' : Noted (es'.map Entry.notes) { sinks := { builder := b₀, file_ids := a₀ } } st') : SameBuffers st st' := by
  have hmem : ∀ {α : Type} (f : Notes → List α) x, x ∈ [] ++ (es.map Entry.notes).flatMap f ↔
      x ∈ [] ++ (es'.map Entry.notes).flatMap f := mem_notes_perm hperm
  have hsinks := h.same_sinks hknown hperm hst hst'
  constructor
  case xrefs => exact hsinks.xrefs
  case sites => exact hsinks.sites
  case bodies => exact hsinks.bodies
  case ties =>
    intro x hx y hy hfile hstart
    obtain ⟨v, t, hid, hr, hsym⟩ := (h.mem_bodies hst x).mp hx
    obtain ⟨w, t', hid', hr', hsym'⟩ := (h.mem_bodies hst y).mp hy
    have hpath := (hst.wf ha).injective _ _ _ hid (hfile ▸ hid')
    rw [← hstart] at hr'
    rw [← hsym, ← hsym', h.bodies v w _ _ _ _ _ hpath hr hr']
  case aliases => rw [hn.aliases, hn'.aliases]; exact hmem _
  case inherits => rw [hn.inherits, hn'.inherits]; exact hmem _
  case parents => rw [hn.parents, hn'.parents]; exact hmem _
  case childof => rw [hn.childof, hn'.childof]; exact hmem _
  case edges => rw [hn.edges, hn'.edges]; exact hmem _
  case functions => rw [hn.functions, hn'.functions]; exact hmem _
  case completes => rw [hn.completes, hn'.completes]; exact h.completes_functional.idle.foldl_eq (hmem _) _
  case kind => rw [hn.kind, hn'.kind]; exact h.kind_functional.idle.foldl_eq (hmem _) _
  case builtin_op => rw [hn.builtin_op, hn'.builtin_op]; exact h.builtin_op_functional.idle.foldl_eq (hmem _) _
  case code => rw [hn.code, hn'.code]; exact h.code_functional.idle_first.foldl_eq (hmem _) _
  case params => rw [hn.params, hn'.params]; exact h.params_idle.foldl_eq (hmem _) _
  case typed_of =>
    unfold TypeSide.typed_of
    rw [hn.edges, hn'.edges]
    exact h.edges_functional.idle.foldl_eq (hmem _) _

theorem Coherent.same_files (h : Coherent es) (ha : a₀.Wf) (hknown : PathsKnown a₀ es) (hperm : es.Perm es')
    (hst : Buffered b₀ a₀ es es st) (hst' : Buffered b₀ a₀ es' es' st') :
    st.sinks.builder.files = st'.sinks.builder.files := by
  obtain ⟨named, hfiles, hmem⟩ := hst.files
  obtain ⟨named', hfiles', hmem'⟩ := hst'.files
  have hplace : ∀ v, (history es' v).place.isSome ↔ (history es v).place.isSome := by
    intro v
    simp only [Option.isSome_iff_exists, h.starts.place_iff, (h.perm hperm).starts.place_iff, Has.perm hperm]
  have hid : ∀ {v}, (history es v).place.isSome → ∀ file,
      st.sinks.file_ids.id? v.path = some file ↔ st'.sinks.file_ids.id? v.path = some file := by
    intro v hv file
    obtain ⟨n, hn⟩ := Option.isSome_iff_exists.mp hv
    exact hst.same_id hst' hknown hperm (h.starts.place_iff.mp hn).1 file
  have hfun : Functional named := by
    intro x hx y hy hfile
    obtain ⟨v, hid, -, hx⟩ := (hmem x).mp hx
    obtain ⟨w, hid', -, hy⟩ := (hmem y).mp hy
    rw [hx, hy]
    exact (hst.wf ha).injective _ _ _ hid (hfile ▸ hid')
  rw [hfiles, hfiles']
  refine hfun.idle_first.foldl_eq (fun f => ?_) _
  rw [hmem, hmem']
  refine exists_congr fun v => ?_
  rw [hplace]
  constructor
  · rintro ⟨hi, hp, hf⟩
    exact ⟨(hid hp _).mp hi, hp, hf⟩
  · rintro ⟨hi, hp, hf⟩
    exact ⟨(hid hp _).mpr hi, hp, hf⟩

/-! ## The order does not matter -/

/-- The same rows in every table, and the same kinds. -/
structure SameRows (b b' : IndexBuilder) : Prop where
  xrefs : ∀ r, r ∈ b.xrefs ↔ r ∈ b'.xrefs
  calls : ∀ r, r ∈ b.calls ↔ r ∈ b'.calls
  inherits : ∀ r, r ∈ b.inherits ↔ r ∈ b'.inherits
  childof : ∀ r, r ∈ b.childof ↔ r ∈ b'.childof
  aliases : ∀ r, r ∈ b.aliases ↔ r ∈ b'.aliases
  typed : ∀ r, r ∈ b.typed ↔ r ∈ b'.typed
  sig : ∀ r, r ∈ b.sig ↔ r ∈ b'.sig
  files : b.files = b'.files
  kinds : ∀ s, b.kind? s = b'.kind? s

variable [Unicode] [SetOrder] [SortUnstable]

/-- The kinds after the end of the stream, by what entries and names do to them. -/
theorem Buffered.final_kinds (h : Buffered b₀ a₀ es es st) :
    ∃ ops : List (UInt64 × KindOp), (finalize st).kind? = ops.foldl noteKind b₀.kind? ∧
      ∀ op, op ∈ ops ↔ ((∃ r ∈ st.sinks.xrefs, op = mention r) ∨ ∃ e ∈ es, op ∈ e.kindOps) ∨
        ∃ s ∈ st.delta.names, op = (s, .see Kind.UNK) := by
  obtain ⟨ops, hops, hmem⟩ := h.kinds
  refine ⟨ops ++ st.delta.nameOps, by rw [(finalize_of st).kinds, hops, List.foldl_append], fun op => ?_⟩
  rw [List.mem_append, hmem, Delta.nameOps, List.mem_map]
  simp only [eq_comm]

/-- Every order of a coherent stream leaves the same rows, if the ids of its paths are known before. -/
theorem ingest_order_independent (h : Coherent es) (hperm : es.Perm es') (ha : a₀.Wf)
    (hseed : ∀ e ∈ es, e.source.path ∈ a₀.map) :
    ∃ b a b' a', ingestEntries es b₀ a₀ = some (b, a) ∧ ingestEntries es' b₀ a₀ = some (b', a') ∧ SameRows b b' := by
  have hknown : PathsKnown a₀ es := fun e he => by
    obtain ⟨x, hx⟩ := Option.isSome_iff_exists.mp (ExtTreeMap.isSome_getElem?_iff_mem.mpr (hseed e he))
    exact ⟨x.1, by rw [FileIdAllocator.id?, hx]; rfl⟩
  have hknown' : PathsKnown a₀ es' := fun e he => hknown e (hperm.mem_iff.mpr he)
  obtain ⟨st, hrun, hst⟩ := buffered_of_known h.distinct hknown b₀
  obtain ⟨st', hrun', hst'⟩ := buffered_of_known (h.perm hperm).distinct hknown' b₀
  have hsame := h.same_buffers ha hknown hperm hst hst' (noted_run hrun) (noted_run hrun')
  have hdelta := hsame.delta
  have hf := finalize_of st
  have hf' := finalize_of st'
  have hrows : st.sinks.builder.rows = st'.sinks.builder.rows := hst.rows.trans hst'.rows.symm
  simp only [IndexBuilder.rows, Prod.mk.injEq] at hrows
  obtain ⟨hx, hc, hi, hch, hal, ht, hs⟩ := hrows
  refine ⟨finalize st, _, finalize st', _, by rw [ingestEntries, hrun]; rfl, by rw [ingestEntries, hrun']; rfl, ?_⟩
  constructor
  case xrefs => intro r; rw [hf.xrefs, hf'.xrefs, List.mem_append, List.mem_append, hdelta.xrefs, hx]
  case calls => intro r; rw [hf.calls, hf'.calls, List.mem_append, List.mem_append, hdelta.calls, hc]
  case inherits => intro r; rw [hf.inherits, hf'.inherits, List.mem_append, List.mem_append, hdelta.inherits, hi]
  case childof => intro r; rw [hf.childof, hf'.childof, List.mem_append, List.mem_append, hdelta.childof, hch]
  case aliases => intro r; rw [hf.aliases, hf'.aliases, List.mem_append, List.mem_append, hdelta.aliases, hal]
  case typed => intro r; rw [hf.typed, hf'.typed, List.mem_append, List.mem_append, hdelta.typed, ht]
  case sig => intro r; rw [hf.sig, hf'.sig, List.mem_append, List.mem_append, hdelta.sig, hs]
  case files => rw [hf.files, hf'.files]; exact h.same_files ha hknown hperm hst hst'
  case kinds =>
    obtain ⟨ops, hops, hmem⟩ := hst.final_kinds
    obtain ⟨ops', hops', hmem'⟩ := hst'.final_kinds
    have hone : OneKind ops := h.kinds_agree fun op hop => by
      rcases (hmem op).mp hop with (⟨r, -, rfl⟩ | he) | ⟨s, -, rfl⟩
      · exact .inl ⟨r.sym, rfl⟩
      · exact .inr he
      · exact .inl ⟨s, rfl⟩
    have hsame_ops : ∀ op, op ∈ ops ↔ op ∈ ops' := by
      intro op
      rw [hmem, hmem']
      simp only [hsame.xrefs, hperm.mem_iff, hdelta.names]
    rw [hops, hops', hone.idle.foldl_eq hsame_ops]
    exact fun _ => rfl

end

/-! An anchor that refers to a function, with its entries in both orders. -/

def refAnchor : VName := { signature := "@0", path := "a.c", language := "c++" }

def refTarget : VName := { signature := "f", language := "c++" }

def refEntries : List Entry :=
  [{ source := refAnchor, fact_name := "/kythe/node/kind", fact_value := as_bytes "anchor" },
    { source := refAnchor, fact_name := "/kythe/loc/start", fact_value := as_bytes "3" },
    { source := refAnchor, edge_kind := "/kythe/edge/ref", target := refTarget }]

@[reducible] def refHash : XxHash64 :=
  hashTable [("kythe:c++:##a.c#@0", 0x4f532c2457e9ba06), ("kythe:c++:###f", 0xfe2f89254e732c82)]

theorem refEntries_has {v : VName} {ev : Event} (h : Has refEntries v ev) :
    v = refAnchor ∧ (ev = .anchor ∨ ev = .start 3 ∨ ev = .ref refTarget Role.REF) := by
  obtain ⟨e, he, rfl, rfl⟩ := h
  simp only [refEntries, List.mem_cons, List.not_mem_nil, or_false] at he
  rcases he with rfl | rfl | rfl
  · exact ⟨rfl, .inl rfl⟩
  · exact ⟨rfl, .inr (.inl rfl)⟩
  · exact ⟨rfl, .inr (.inr rfl)⟩

theorem refEntries_mentions {v : VName} (h : Mentions refEntries v) : v = refAnchor ∨ v = refTarget := by
  obtain ⟨e, he, hv⟩ := h
  simp only [refEntries, List.mem_cons, List.not_mem_nil, or_false] at he
  rcases he with rfl | rfl | rfl <;> simp_all

section

attribute [local instance] refHash asciiUnicode dedupOrder stableSort

theorem refEntries_coherent : Coherent refEntries := by
  have hno : ∀ {v ev}, Has refEntries v ev → ev ≠ .anchor → ev ≠ .start 3 → ev ≠ .ref refTarget Role.REF → False := by
    intro v ev h h1 h2 h3
    rcases (refEntries_has h).2 with h | h | h
    exacts [h1 h, h2 h, h3 h]
  have hdef : ∀ t, Event.ref t Role.DEF ≠ .ref refTarget Role.REF := by
    intro t h
    injection h with _ h
    exact absurd h (by decide)
  have hkeys : refAnchor.to_symbol_string ≠ refTarget.to_symbol_string := by decide
  have hsyms : refAnchor.sym ≠ refTarget.sym := by decide
  refine ⟨?_, fun v t _ h => ?_, fun v t _ h => ?_, fun v o t _ h => ?_, fun v t _ h => ?_, fun v w n m m' t t' _ h => ?_,
    fun v w hv hw h => ?_, fun v w hv hw h => ?_⟩
  · decide
  · exact (hno h nofun nofun (hdef t)).elim
  · exact (hno h nofun nofun nofun).elim
  · exact (hno h nofun nofun nofun).elim
  · exact (hno h nofun nofun nofun).elim
  · exact (hno h.define nofun nofun (hdef t)).elim
  · rcases refEntries_mentions hv with rfl | rfl <;> rcases refEntries_mentions hw with rfl | rfl
    exacts [rfl, absurd h hkeys, absurd h.symm hkeys, rfl]
  · rcases refEntries_mentions hv with rfl | rfl <;> rcases refEntries_mentions hw with rfl | rfl
    exacts [rfl, absurd h hsyms, absurd h.symm hsyms, rfl]

theorem ingest_order_independent_refEntries :
    ∃ a₀ : FileIdAllocator, FileIdAllocator.seed_paths {} ["a.c"] = some a₀ ∧ ∃ b a b' a',
      ingestEntries refEntries IndexBuilder.new a₀ = some (b, a) ∧
      ingestEntries refEntries.reverse IndexBuilder.new a₀ = some (b', a') ∧ SameRows b b' := by
  have hseed : FileIdAllocator.seed_paths {} ["a.c"] = some ⟨(∅ : ExtTreeMap String (UInt32 × Bool)).insert "a.c" (0, false), 1⟩ := by
    simp [FileIdAllocator.seed_paths, FileIdAllocator.seedPath, FileIdAllocator.assign, FileIdAllocator.succ]
  refine ⟨_, hseed, ingest_order_independent refEntries_coherent (List.reverse_perm _).symm
    (FileIdAllocator.wf_new.seed_paths hseed) fun e he => ?_⟩
  have hpath : e.source.path = "a.c" := by
    simp only [refEntries, List.mem_cons, List.not_mem_nil, or_false] at he
    rcases he with rfl | rfl | rfl <;> rfl
  rw [hpath]
  exact ExtTreeMap.mem_insert_self

end

end Scry2
