import Scry2.Anchors

/-!
# What the ingest has buffered

After any part of a stream the buffers hold what the histories of the nodes have written, and nothing
else.
-/

open Scry2.Lib
open Std (ExtTreeMap)

namespace Scry2

/-! ## The history of a node in a stream -/

def history (es : List Entry) (v : VName) : History := ((es.filter fun e => e.source = v).map Entry.event).reverse

theorem history_append (es : List Entry) (e : Entry) (v : VName) :
    history (es ++ [e]) v = if e.source = v then e.event :: history es v else history es v := by
  unfold history
  by_cases h : e.source = v <;> simp [h]

/-- What `es` says of `v`. -/
def Has (es : List Entry) (v : VName) (ev : Event) : Prop := ∃ e ∈ es, e.source = v ∧ e.event = ev

theorem mem_history {es : List Entry} {v : VName} {ev : Event} : ev ∈ history es v ↔ Has es v ev := by
  simp [history, Has, and_assoc]

/-- No two sources share a symbol string. -/
def DistinctKeys (es : List Entry) : Prop :=
  ∀ e ∈ es, ∀ e' ∈ es, e.source.to_symbol_string = e'.source.to_symbol_string → e.source = e'.source

/-- An event that the state of an anchor depends on. -/
def Event.ofAnchor : Event → Bool
  | .ref _ _ | .anchor | .start _ | .stop _ => true
  | _ => false

namespace History

theorem place_cons {h : History} (ev : Event) (hp : h.place.isSome) : (place (ev :: h)).isSome := by
  obtain ⟨n, hn⟩ := Option.isSome_iff_exists.mp hp
  obtain ⟨ha, hs⟩ := place_eq_some.mp hn
  cases ev <;> simp [place, isAnchor, start?, ha, hs]

section

variable [XxHash64] {file : UInt32} {h : History}

theorem state_of_other {ev : Event} (hev : ev.ofAnchor = false) (path : String) (h : History) :
    state path (ev :: h) = state path h := by
  cases ev <;> first | rfl | cases hev

omit [XxHash64] in
theorem place_of_mem_rows {ρ : Type} {R : History → List ρ} {new : History → Event → UInt32 → List ρ} (hnil : R [] = [])
    (hcons : ∀ ev (h : History), R (ev :: h) = R h ++ (place (ev :: h)).toList.flatMap (new h ev)) {r : ρ}
    (hr : r ∈ R h) : h.place.isSome := by
  induction h with
  | nil =>
    rw [hnil] at hr
    cases hr
  | cons ev h ih =>
    rw [hcons] at hr
    rcases List.mem_append.mp hr with hr | hr
    · exact place_cons ev (ih hr)
    · obtain ⟨n, hn, -⟩ := List.mem_flatMap.mp hr
      exact Option.isSome_iff_exists.mpr ⟨n, Option.mem_toList.mp hn⟩

theorem place_of_mem_xrefRows {r : XrefRow} (hr : r ∈ h.xrefRows file) : h.place.isSome :=
  place_of_mem_rows rfl (fun _ _ => rfl) hr

theorem place_of_mem_siteRows {c : CallSite} (hc : c ∈ h.siteRows file) : h.place.isSome :=
  place_of_mem_rows rfl (fun _ _ => rfl) hc

theorem place_of_mem_bodyRows {b : BodyAnchor} (hb : b ∈ h.bodyRows file) : h.place.isSome :=
  place_of_mem_rows rfl (fun _ _ => rfl) hb

end

end History

/-- Rows that are those of the histories so far stay so when `e` has added its own. -/
theorem rows_next {ρ : Type} {R : UInt32 → History → List ρ} {new : UInt32 → History → Event → List ρ}
    (hcons : ∀ file ev h, R file (ev :: h) = R file h ++ new file h ev)
    (hplace : ∀ {file h r}, r ∈ R file h → h.place.isSome) {es : List Entry} {e : Entry}
    {ids ids' : FileIdAllocator} {l l' : List ρ} {file : UInt32}
    (h : ∀ r, r ∈ l ↔ ∃ v f, ids.id? v.path = some f ∧ r ∈ R f (history es v))
    (hl : l' = l ++ new file (history es e.source) e.event) (hids : ∀ p i, ids.id? p = some i → ids'.id? p = some i)
    (hplaced : ∀ v, (history es v).place.isSome → ∃ f, ids.id? v.path = some f)
    (hfile : (History.place (e.event :: history es e.source)).isSome → ids'.id? e.source.path = some file) (r : ρ) :
    r ∈ l' ↔ ∃ v f, ids'.id? v.path = some f ∧ r ∈ R f (history (es ++ [e]) v) := by
  rw [hl, List.mem_append]
  have hold : ∀ v f, ids'.id? v.path = some f → r ∈ R f (history es v) → r ∈ l := by
    intro v f hf hr
    obtain ⟨f', hf'⟩ := hplaced v (hplace hr)
    obtain rfl : f = f' := Option.some.inj (hf.symm.trans (hids _ _ hf'))
    exact (h r).mpr ⟨v, f, hf', hr⟩
  constructor
  · rintro (hr | hr)
    · obtain ⟨v, f, hf, hr⟩ := (h r).mp hr
      refine ⟨v, f, hids _ _ hf, ?_⟩
      rw [history_append]
      split
      · rw [hcons]
        exact List.mem_append_left _ hr
      · exact hr
    · have hmem : r ∈ R file (e.event :: history es e.source) := by
        rw [hcons]
        exact List.mem_append_right _ hr
      exact ⟨e.source, file, hfile (hplace hmem), by rwa [history_append, if_pos rfl]⟩
  · rintro ⟨v, f, hf, hr⟩
    rw [history_append] at hr
    split at hr
    · rename_i hv
      subst hv
      have hsome := hplace hr
      rw [hcons, List.mem_append] at hr
      obtain rfl : f = file := Option.some.inj (hf.symm.trans (hfile hsome))
      exact hr.imp (hold _ f hf) id
    · exact .inl (hold v f hf hr)

theorem accum_setAccum (st : IngestState) (v w : VName) (a : AnchorAccum) (s : Sinks) :
    (st.setAccum v a s).accum w = if v.to_symbol_string = w.to_symbol_string then a else st.accum w := by
  unfold IngestState.accum IngestState.setAccum
  rw [getElem?_insert_key]
  split <;> rfl

section

variable [XxHash64]

/-- What the entry does to the kinds, apart from the mentions that come with xrefs. -/
def Entry.kindOps (e : Entry) : List (UInt64 × KindOp) :=
  match e.event with
  | .node value => [(e.source.sym, .see (node_kind_byte value))]
  | .subkind value => if value = "field" ∨ value = "constant" then [(e.source.sym, .field)] else []
  | _ => []

theorem kindOps_of_anchor {e : Entry} (hev : e.event.ofAnchor = true) : e.kindOps = [] := by
  unfold Entry.kindOps
  cases heq : e.event with
  | node value => rw [heq] at hev; cases hev
  | subkind value => rw [heq] at hev; cases hev
  | _ => rfl

/-- The state after `es`, part of the stream `all`. -/
structure Buffered (b₀ : IndexBuilder) (a₀ : FileIdAllocator) (all es : List Entry) (st : IngestState) : Prop where
  accum : ∀ e ∈ all, st.accum e.source = (history es e.source).state e.source.path
  xrefs : ∀ r, r ∈ st.sinks.xrefs ↔
    ∃ v file, st.sinks.file_ids.id? v.path = some file ∧ r ∈ (history es v).xrefRows file
  sites : ∀ c, c ∈ st.sinks.call_sites ↔
    ∃ v file, st.sinks.file_ids.id? v.path = some file ∧ c ∈ (history es v).siteRows file
  bodies : ∀ b, b ∈ st.sinks.body_anchors ↔
    ∃ v file, st.sinks.file_ids.id? v.path = some file ∧ b ∈ (history es v).bodyRows file
  kinds : ∃ ops : List (UInt64 × KindOp), st.sinks.builder.kind? = ops.foldl noteKind b₀.kind? ∧
    ∀ op, op ∈ ops ↔ (∃ r ∈ st.sinks.xrefs, op = mention r) ∨ ∃ e ∈ es, op ∈ e.kindOps
  files : ∃ named : List (UInt32 × String), st.sinks.builder.files = named.foldl nameFile b₀.files ∧
    ∀ f, f ∈ named ↔
      ∃ v, st.sinks.file_ids.id? v.path = some f.1 ∧ (history es v).place.isSome ∧ f.2 = v.path
  rows : st.sinks.builder.rows = b₀.rows
  ids : ∀ p i, a₀.id? p = some i → st.sinks.file_ids.id? p = some i
  wf : a₀.Wf → st.sinks.file_ids.Wf
  placed : ∀ v, (history es v).place.isSome → ∃ file, st.sinks.file_ids.id? v.path = some file

theorem Buffered.start (b₀ : IndexBuilder) (a₀ : FileIdAllocator) (all : List Entry) :
    Buffered b₀ a₀ all [] { sinks := { builder := b₀, file_ids := a₀ } } := by
  refine ⟨fun e _ => ?_, fun r => ?_, fun c => ?_, fun b => ?_, ⟨[], rfl, fun op => ?_⟩, ⟨[], rfl, fun f => ?_⟩, rfl,
    fun _ _ => id, id, fun v hv => ?_⟩
  · simp [IngestState.accum, history, History.state, History.isAnchor, History.start?, History.stop?, History.pending,
      History.edges, History.slot, History.hasPath]
  · simp [history, History.xrefRows]
  · simp [history, History.siteRows]
  · simp [history, History.bodyRows]
  · simp
  · simp [history, History.place, History.isAnchor]
  · simp [history, History.place, History.isAnchor] at hv

variable {b₀ : IndexBuilder} {a₀ : FileIdAllocator} {all es : List Entry} {st st' : IngestState} {e : Entry}

theorem Buffered.next {file : UInt32} (h : Buffered b₀ a₀ all es st)
    (haccum : ∀ e' ∈ all, st'.accum e'.source = (history (es ++ [e]) e'.source).state e'.source.path)
    (he : Emits e.source.path file (history es e.source) e.event e.kindOps st.sinks st'.sinks) :
    Buffered b₀ a₀ all (es ++ [e]) st' where
  accum := haccum
  xrefs := rows_next (fun _ _ _ => rfl) History.place_of_mem_xrefRows h.xrefs he.xrefs he.ids h.placed he.named
  sites := rows_next (fun _ _ _ => rfl) History.place_of_mem_siteRows h.sites he.sites he.ids h.placed he.named
  bodies := rows_next (fun _ _ _ => rfl) History.place_of_mem_bodyRows h.bodies he.bodies he.ids h.placed he.named
  kinds := by
    obtain ⟨ops, hops, hmem⟩ := h.kinds
    refine ⟨ops ++ (((history es e.source).newXrefs file e.event).map mention ++ e.kindOps),
      by rw [List.foldl_append, ← hops, he.kinds], fun op => ?_⟩
    have hmention : op ∈ ((history es e.source).newXrefs file e.event).map mention ↔
        ∃ r ∈ (history es e.source).newXrefs file e.event, op = mention r := by simp [eq_comm]
    have hlast : (∃ e' ∈ es ++ [e], op ∈ e'.kindOps) ↔ (∃ e' ∈ es, op ∈ e'.kindOps) ∨ op ∈ e.kindOps := by
      simp [or_and_right, exists_or]
    have hxrefs : (∃ r ∈ st'.sinks.xrefs, op = mention r) ↔ (∃ r ∈ st.sinks.xrefs, op = mention r) ∨
        ∃ r ∈ (history es e.source).newXrefs file e.event, op = mention r := by
      simp [he.xrefs, or_and_right, exists_or]
    rw [List.mem_append, List.mem_append, hmem, hmention, hlast, hxrefs]
    exact or_or_or_comm
  files := by
    obtain ⟨named, hnamed, hmem⟩ := h.files
    obtain ⟨new, hnew, hsound, hcomplete⟩ := he.files
    refine ⟨named ++ new, by rw [List.foldl_append, ← hnamed, hnew], fun f => ?_⟩
    rw [List.mem_append]
    have hold : ∀ v, st'.sinks.file_ids.id? v.path = some f.1 → (history es v).place.isSome → f.2 = v.path → f ∈ named := by
      intro v hid hp hf
      obtain ⟨i, hi⟩ := h.placed v hp
      obtain rfl : f.1 = i := Option.some.inj (hid.symm.trans (he.ids _ _ hi))
      exact (hmem f).mpr ⟨v, hi, hp, hf⟩
    constructor
    · rintro (hf | hf)
      · obtain ⟨v, hid, hp, hf⟩ := (hmem f).mp hf
        refine ⟨v, he.ids _ _ hid, ?_, hf⟩
        rw [history_append]
        split
        · exact History.place_cons _ hp
        · exact hp
      · obtain ⟨rfl, hp⟩ := hsound f hf
        exact ⟨e.source, he.named hp, by rwa [history_append, if_pos rfl], rfl⟩
    · rintro ⟨v, hid, hp, hf⟩
      rw [history_append] at hp
      split at hp
      · rename_i hv
        subst hv
        rcases hcomplete hp with hp' | hin
        · exact .inl (hold _ hid hp' hf)
        · have hfile : f.1 = file := Option.some.inj (hid.symm.trans (he.named hp))
          exact .inr (by rwa [← hfile, ← hf] at hin)
      · exact .inl (hold v hid hp hf)
  rows := he.rows.trans h.rows
  ids p i hp := he.ids p i (h.ids p i hp)
  wf ha := he.wf (h.wf ha)
  placed v hv := by
    rw [history_append] at hv
    split at hv
    · rename_i hsource
      exact ⟨file, hsource ▸ he.named (hsource ▸ hv)⟩
    · obtain ⟨f, hf⟩ := h.placed v hv
      exact ⟨f, he.ids _ _ hf⟩

variable [Unicode]

theorem process_entry_anchor {h : History} (hev : e.event.ofAnchor = true) (hacc : st.accum e.source = h.state e.source.path) :
    process_entry e st =
      (h.emit e.source.path e.event st.sinks).map (st.setAccum e.source (History.state e.source.path (e.event :: h))) := by
  unfold process_entry
  cases heq : e.event with
  | ref t role => exact History.processRef_eq hacc t role
  | anchor => exact History.processAnchor_eq hacc
  | start v => exact History.processStart_eq hacc v
  | stop m => exact History.processStop_eq hacc m
  | _ => rw [heq] at hev; cases hev

theorem process_entry_other (hev : e.event.ofAnchor = false) (st : IngestState) :
    ∃ st' b, process_entry e st = some st' ∧ st'.anchors = st.anchors ∧ st'.sinks = { st.sinks with builder := b } ∧
      b.kind? = e.kindOps.foldl noteKind st.sinks.builder.kind? ∧ b.files = st.sinks.builder.files ∧
      b.rows = st.sinks.builder.rows := by
  unfold process_entry Entry.kindOps
  cases heq : e.event with
  | ref t role => rw [heq] at hev; cases hev
  | anchor => rw [heq] at hev; cases hev
  | start v => rw [heq] at hev; cases hev
  | stop v => rw [heq] at hev; cases hev
  | node value => exact ⟨_, _, rfl, rfl, rfl, kind?_upsert_sym .., rfl, rfl⟩
  | subkind value =>
    by_cases hfield : value = "field" ∨ value = "constant"
    · simp only [if_pos hfield]
      exact ⟨_, _, rfl, rfl, rfl, kind?_mark_field .., rfl, rfl⟩
    · simp only [if_neg hfield]
      exact ⟨_, st.sinks.builder, rfl, rfl, rfl, rfl, rfl, rfl⟩
  | _ => exact ⟨_, st.sinks.builder, rfl, rfl, rfl, rfl, rfl, rfl⟩

theorem Buffered.step (hkeys : DistinctKeys all) (h : Buffered b₀ a₀ all es st) (he : e ∈ all)
    (hstep : process_entry e st = some st') : Buffered b₀ a₀ all (es ++ [e]) st' := by
  have hacc := h.accum e he
  cases hev : e.event.ofAnchor with
  | true =>
    rw [process_entry_anchor hev hacc, Option.map_eq_some_iff] at hstep
    obtain ⟨s, hemit, rfl⟩ := hstep
    obtain ⟨file, hspec⟩ := emit_spec (h.placed e.source) hemit
    rw [← kindOps_of_anchor hev] at hspec
    refine h.next (fun e' he' => ?_) hspec
    rw [accum_setAccum, history_append]
    split
    · rename_i hsame
      rw [hkeys e he e' he' hsame, if_pos rfl]
    · rename_i hne
      rw [if_neg fun hsame => hne (congrArg _ hsame)]
      exact h.accum e' he'
  | false =>
    obtain ⟨st₁, b, hst, hanchors, hsinks, hkinds, hfiles, hrows⟩ := process_entry_other hev st
    obtain rfl : st₁ = st' := Option.some.inj (hst.symm.trans hstep)
    have hplace : History.place (e.event :: history es e.source) = (history es e.source).place := by
      cases heq : e.event <;> first | rfl | (rw [heq] at hev; cases hev)
    have harrivals : (history es e.source).arrivals e.event = [] := by
      cases heq : e.event <;> first | rfl | (rw [heq] at hev; cases hev)
    have hlate : ∀ file n, (history es e.source).lateBody file n e.event = [] := by
      intro file n
      cases heq : e.event <;> first | rfl | (rw [heq] at hev; cases hev)
    have hid : ∃ file, (History.place (e.event :: history es e.source)).isSome →
        st.sinks.file_ids.id? e.source.path = some file := by
      rw [hplace]
      cases hp : (history es e.source).place with
      | none => exact ⟨0, nofun⟩
      | some n =>
        obtain ⟨file, hfile⟩ := h.placed e.source (by rw [hp]; rfl)
        exact ⟨file, fun _ => hfile⟩
    obtain ⟨file, hid⟩ := hid
    have hspec : Emits e.source.path file (history es e.source) e.event e.kindOps st.sinks st₁.sinks := by
      rw [hsinks]
      exact .nothing (by simp [History.newXrefs, harrivals]) (by simp [History.newSites, harrivals])
        (by simp [History.newBodies, harrivals, hlate]) (by rw [hplace]; exact id) hid hkinds hfiles hrows
    refine h.next (fun e' he' => ?_) hspec
    have hacc' : st₁.accum e'.source = st.accum e'.source := by rw [IngestState.accum, hanchors]; rfl
    rw [hacc', h.accum e' he', history_append]
    split
    · rename_i hv
      rw [History.state_of_other hev]
    · rfl

theorem buffered_run (hkeys : DistinctKeys all)
    (h : all.foldlM (fun st e => process_entry e st) { sinks := { builder := b₀, file_ids := a₀ } } = some st') :
    Buffered b₀ a₀ all all st' := by
  suffices hrest : ∀ rest es st, es ++ rest = all → Buffered b₀ a₀ all es st →
      rest.foldlM (fun st e => process_entry e st) st = some st' → Buffered b₀ a₀ all all st' from
    hrest all [] _ rfl (.start b₀ a₀ all) h
  intro rest
  induction rest with
  | nil =>
    intro es st hall hb hrun
    cases hrun
    rw [List.append_nil] at hall
    exact hall ▸ hb
  | cons e rest ih =>
    intro es st hall hb hrun
    rw [List.foldlM_cons, Option.bind_eq_bind, Option.bind_eq_some_iff] at hrun
    obtain ⟨st₁, hstep, hrun⟩ := hrun
    have he : e ∈ all := hall ▸ List.mem_append_right es List.mem_cons_self
    exact ih (es ++ [e]) st₁ (by rw [List.append_assoc]; exact hall) (hb.step hkeys he hstep) hrun

end

end Scry2
