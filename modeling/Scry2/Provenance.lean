import Scry2.Alloc
import Scry2.Produced

/-!
# Units and the files that hold their rows

What ingesting a compilation unit gives, with paths in place of file ids, and what it means that
facts have all rows of a unit, or only rows of units.
-/

open Scry2.Lib
open Std (ExtTreeMap)

namespace Scry2

/-! ## Units -/

/-- An xref before its path has an id. -/
structure PathXref where
  sym : UInt64
  role : UInt8
  path : String
  offset : UInt32
deriving DecidableEq

/-- A unit of a kzip and what its indexer run amounts to: the paths that ingest interns, in order,
the rows it emits, and whether it `succeeded` (exit 0, no ingest error, some entries). -/
structure KzipUnit where
  sha : String
  digest : String
  paths : List String
  xrefs : List PathXref
  /-- The tables without file ids. -/
  tables : IndexBuilder
  succeeded : Bool
  xrefs_in : ∀ x ∈ xrefs, x.path ∈ paths

namespace KzipUnit

/-- `cu_builder` under the ids that its paths were given. -/
def builder (u : KzipUnit) (ids : String → UInt32) : IndexBuilder :=
  u.paths.foldl (fun b p => b.upsert_file (ids p) p)
    { u.tables with
      xrefs := u.xrefs.map fun x => ⟨x.sym, x.role, ids x.path, x.offset⟩
      files := ∅ }

end KzipUnit

theorem upsert_file_files (b : IndexBuilder) (id k : UInt32) (p : String) :
    (b.upsert_file id p).files[k]? = (b.files[k]?).or (if id = k then some p else none) := by
  unfold IndexBuilder.upsert_file
  rw [getElem?_alter_key]
  by_cases h : id = k
  · subst h
    simp only [if_true, IndexBuilder.firstPath]
    cases b.files[id]? <;> rfl
  · simp [h]

theorem foldl_upsert_file (ids : String → UInt32) (ps : List String) (b : IndexBuilder) :
    ∃ m : ExtTreeMap UInt32 String, ps.foldl (fun b p => b.upsert_file (ids p) p) b = { b with files := m } ∧
      ∀ k : UInt32, m[k]? = (b.files[k]?).or (ps.find? fun p => ids p = k) := by
  induction ps generalizing b with
  | nil => exact ⟨b.files, rfl, by simp⟩
  | cons p ps ih =>
    obtain ⟨m, hm, hget⟩ := ih (b.upsert_file (ids p) p)
    refine ⟨m, hm, fun k => ?_⟩
    rw [hget, upsert_file_files, Option.or_assoc, List.find?_cons]
    by_cases h : ids p = k <;> simp [h]

namespace KzipUnit

variable {u : KzipUnit} {ids : String → UInt32}

theorem builder_files (u : KzipUnit) (ids : String → UInt32) (k : UInt32) :
    (u.builder ids).files[k]? = u.paths.find? fun p => ids p = k := by
  obtain ⟨m, hm, hget⟩ := foldl_upsert_file ids u.paths
    { u.tables with
      xrefs := u.xrefs.map fun x => ⟨x.sym, x.role, ids x.path, x.offset⟩
      files := ∅ }
  unfold builder
  rw [hm]
  simpa using hget k

theorem builder_facts (u : KzipUnit) (ids : String → UInt32) :
    (u.builder ids).facts =
      { u.tables.facts with
        xrefs := {r | r ∈ u.xrefs.map fun x => XrefRow.mk x.sym x.role (ids x.path) x.offset}
        files := fun k => u.paths.find? fun p => ids p = k } := by
  obtain ⟨m, hm, -⟩ := foldl_upsert_file ids u.paths
    { u.tables with
      xrefs := u.xrefs.map fun x => ⟨x.sym, x.role, ids x.path, x.offset⟩
      files := ∅ }
  apply Facts.ext
  · unfold builder; rw [hm]; rfl
  · unfold builder; rw [hm]; rfl
  · exact funext fun k => u.builder_files ids k
  · unfold builder; rw [hm]; rfl
  · unfold builder; rw [hm]; rfl
  · unfold builder; rw [hm]; rfl
  · unfold builder; rw [hm]; rfl
  · unfold builder; rw [hm]; rfl
  · unfold builder; rw [hm]; rfl

end KzipUnit

theorem IndexBuilder.facts_dedup_tables (b : IndexBuilder) : b.dedup_tables.1.facts = b.facts := by
  have hset : ∀ {α : Type} [LinearOrder α] (l : List α), {r | r ∈ sortDedup l} = {r | r ∈ l} := by
    intro α _ l; ext r; exact mem_sortDedup
  apply Facts.ext
  · exact hset _
  · rfl
  · rfl
  · exact hset _
  · exact hset _
  · exact hset _
  · exact bestText_congr fun _ => mem_sortDedup
  · exact hset _
  · exact bestText_congr fun _ => mem_sortDedup

/-! ## Facts about units -/

/-- Every string the facts keep for a symbol is one of the units' rows, as it is or clamped. -/
def TextsFrom (us : List KzipUnit) (rows : IndexBuilder → List StrRow) (f : UInt64 → Option String) :
    Prop :=
  ∀ k t, f k = some t → ∃ u ∈ us, u.succeeded ∧ ∃ r ∈ rows u.tables,
    r.sym = k ∧ (t = r.text ∨ t = clamp_blob_str r.text)

/-- Every string that the units have for the symbol fits the blob. -/
def Fits (us : List KzipUnit) (rows : IndexBuilder → List StrRow) (s : UInt64) : Prop :=
  ∀ u ∈ us, u.succeeded = true → ∀ r ∈ rows u.tables, r.sym = s → len r.text ≤ u16Max

/-- For every row the facts keep a string, at least as good where the strings of its symbol fit. -/
def Keeps (fits : UInt64 → Prop) (rows : List StrRow) (f : UInt64 → Option String) : Prop :=
  ∀ r ∈ rows, ∃ t, f r.sym = some t ∧ (fits r.sym → textRank r.text ≤ textRank t)

/-- The entry knows a kind, a language and a name if the other one does. -/
structure SymMeta.Knows (m e : SymMeta) : Prop where
  kind : m.kind = Kind.UNK → e.kind = Kind.UNK
  lang : m.lang = Lang.UNK → e.lang = Lang.UNK
  name : m.name = "" → e.name = ""

/-- Kind, language and name of the symbol are each those of a unit's entry for it. -/
structure SymFrom (us : List KzipUnit) (k : UInt64) (m : SymMeta) : Prop where
  kind : ∃ u ∈ us, u.succeeded ∧ ∃ e, u.tables.syms[k]? = some e ∧ m.kind = e.kind
  lang : ∃ u ∈ us, u.succeeded ∧ ∃ e, u.tables.syms[k]? = some e ∧ m.lang = e.lang
  name : ∃ u ∈ us, u.succeeded ∧ ∃ e, u.tables.syms[k]? = some e ∧
    (m.name = e.name ∨ m.name = clamp_blob_str e.name)

namespace Facts

/-- The file ids of `F` stand for what `N` says, and every xref lies in a file of `F`. -/
structure Named (N : Naming) (F : Facts) : Prop where
  files : ∀ id p, F.files id = some p → N id = some (clamp_blob_str p)
  xrefs : ∀ x ∈ F.xrefs, ∃ p, F.files x.file = some p

/-- All rows of `F` are rows of units in `us` that succeeded. -/
structure From (us : List KzipUnit) (N : Naming) (F : Facts) : Prop where
  xrefs : ∀ x ∈ F.xrefs, ∃ u ∈ us, u.succeeded ∧ ∃ y ∈ u.xrefs, x.sym = y.sym ∧ x.role = y.role ∧
    x.offset = y.offset ∧ N x.file = some (clamp_blob_str y.path)
  syms : ∀ k m, F.syms k = some m → SymFrom us k m
  files : ∀ id p, F.files id = some p → ∃ u ∈ us, ∃ q ∈ u.paths, clamp_blob_str p = clamp_blob_str q
  inherits : ∀ r ∈ F.inherits, ∃ u ∈ us, u.succeeded ∧ r ∈ u.tables.inherits
  aliases : ∀ r ∈ F.aliases, ∃ u ∈ us, u.succeeded ∧ ∃ q ∈ u.tables.aliases,
    q.sym = r.sym ∧ (r.text = q.text ∨ r.text = clamp_blob_str q.text)
  calls : ∀ r ∈ F.calls, ∃ u ∈ us, u.succeeded ∧ r ∈ u.tables.calls
  typed : TextsFrom us IndexBuilder.typed F.typed
  childof : ∀ r ∈ F.childof, ∃ u ∈ us, u.succeeded ∧ r ∈ u.tables.childof
  sig : TextsFrom us IndexBuilder.sig F.sig

/-- The symbols of variable kind. -/
def vars (F : Facts) : Set UInt64 := {s | F.isVar s}

/-- `F` has the rows of `u`, but maybe not the aliases of `hidden` symbols. A symbol has one entry, and
one type and one signature, the best; a string that does not fit the blob may be cut below another, so of
those nothing is said but that there is one. -/
structure Covers (us : List KzipUnit) (hidden : Set UInt64) (u : KzipUnit) (N : Naming) (F : Facts) : Prop where
  xrefs : ∀ x ∈ u.xrefs, ∃ id, N id = some (clamp_blob_str x.path) ∧
    ⟨x.sym, x.role, id, x.offset⟩ ∈ F.xrefs
  syms : ∀ s e, u.tables.syms[s]? = some e → ∃ m, F.syms s = some m ∧ m.Knows e
  files : ∀ p ∈ u.paths, ∃ id q, N id = some (clamp_blob_str p) ∧ F.files id = some q
  inherits : ∀ r ∈ u.tables.inherits, r ∈ F.inherits
  aliases : ∀ r ∈ u.tables.aliases, r.sym ∉ hidden → ∃ q ∈ F.aliases, q.clamped = r.clamped
  calls : ∀ r ∈ u.tables.calls, r ∈ F.calls
  typed : Keeps (Fits us IndexBuilder.typed) u.tables.typed F.typed
  childof : ∀ r ∈ u.tables.childof, r ∈ F.childof
  sig : Keeps (Fits us IndexBuilder.sig) u.tables.sig F.sig

/-- A type or signature fits the blob where the units have only such strings for its symbol. -/
structure ShortTexts (us : List KzipUnit) (F : Facts) : Prop where
  typed : ∀ s, Fits us IndexBuilder.typed s → ∀ t, F.typed s = some t → len t ≤ u16Max
  sig : ∀ s, Fits us IndexBuilder.sig s → ∀ t, F.sig s = some t → len t ≤ u16Max

end Facts

/-- The symbols that some unit calls variables. -/
def unitVars (us : List KzipUnit) : Set UInt64 := {s | ∃ u ∈ us, u.succeeded = true ∧ u.tables.facts.isVar s}

/-- The symbols that facts with the property may call variables. -/
def varsOf (P : Naming → Facts → Prop) : Set UInt64 := {s | ∃ N F, P N F ∧ F.isVar s}

/-- The facts of one `upsert_file`. -/
def fileFacts (id : UInt32) (path : String) : Facts :=
  { (1 : Facts) with files := fun k => if id = k then some path else none }

/-! ## What merging and writing keep -/

/-- A property of the facts that a run passes around: it survives merging and writing and holds of
what units and the allocator add. -/
structure Closed [Unicode] (us : List KzipUnit) (P : Naming → Facts → Prop) : Prop where
  one : ∀ N, P N 1
  mul : ∀ N F G, P N F → P N G → P N (F * G)
  written : ∀ N F, P N F → P N F.written
  named : ∀ N F, P N F → F.Named N
  fit : ∀ N F, P N F → F.ShortTexts us
  agree : ∀ N M F, P N F → (∀ id p, F.files id = some p → M id = N id) → P M F
  unit : ∀ N, ∀ u ∈ us, u.succeeded → ∀ ids : String → UInt32,
    (∀ p ∈ u.paths, N (ids p) = some (clamp_blob_str p)) → P N (u.builder ids).facts
  file : ∀ N, ∀ u ∈ us, ∀ p ∈ u.paths, ∀ id, N id = some (clamp_blob_str p) → P N (fileFacts id p)

theorem clamp_clamp (s : String) : clamp_blob_str (clamp_blob_str s) = clamp_blob_str s :=
  clamp_of_len_le (len_clamp_le s)

theorem Facts.mul_files_apply [Unicode] (F G : Facts) (id : UInt32) :
    (F * G).files id = (F.files id).or (G.files id) := by
  rw [Facts.mul_files]
  cases hF : F.files id <;> cases hG : G.files id <;> simp [hF, hG]

section

variable {us : List KzipUnit} {N M : Naming} {F G : Facts}

theorem Facts.Named.mul [Unicode] (hF : F.Named N) (hG : G.Named N) : (F * G).Named N where
  files id := combine_ind (fun _ _ h _ => h) (hF.files id) (hG.files id)
  xrefs := by
    rintro x (hx | hx)
    · obtain ⟨p, hp⟩ := hF.xrefs x hx
      exact ⟨p, by rw [Facts.mul_files_apply, hp, Option.some_or]⟩
    · obtain ⟨p, hp⟩ := hG.xrefs x hx
      rw [Facts.mul_files_apply, hp]
      cases F.files x.file with
      | none => exact ⟨p, rfl⟩
      | some q => exact ⟨q, rfl⟩

theorem Facts.Named.written (h : F.Named N) : F.written.Named N where
  files id p hp := by
    obtain ⟨q, hq, rfl⟩ := Option.map_eq_some_iff.mp hp
    rw [clamp_clamp]
    exact h.files id q hq
  xrefs x hx := by
    obtain ⟨p, hp⟩ := h.xrefs x hx
    exact ⟨clamp_blob_str p, Option.map_eq_some_iff.mpr ⟨p, hp, rfl⟩⟩

theorem Facts.named_one : (1 : Facts).Named N := ⟨by simp, by simp⟩

theorem Facts.Named.agree (h : F.Named N) (hM : ∀ id p, F.files id = some p → M id = N id) :
    F.Named M :=
  ⟨fun id p hp => (hM id p hp).trans (h.files id p hp), h.xrefs⟩

theorem KzipUnit.builder_named {u : KzipUnit} {ids : String → UInt32}
    (hids : ∀ p ∈ u.paths, N (ids p) = some (clamp_blob_str p)) : (u.builder ids).facts.Named N := by
  rw [u.builder_facts]
  refine ⟨fun id p hp => ?_, ?_⟩
  · have hid : ids p = id := by simpa using List.find?_some hp
    rw [← hid]
    exact hids p (List.mem_of_find?_eq_some hp)
  · intro x hx
    obtain ⟨y, hy, rfl⟩ := List.mem_map.mp hx
    apply Option.isSome_iff_exists.mp
    rw [List.find?_isSome]
    exact ⟨y.path, u.xrefs_in y hy, by simp⟩

theorem fileFacts_named {id : UInt32} {p : String} (h : N id = some (clamp_blob_str p)) :
    (fileFacts id p).Named N where
  files k q hq := by
    obtain ⟨rfl, rfl⟩ : id = k ∧ p = q := by simpa [fileFacts] using hq
    exact h
  xrefs := by simp [fileFacts]

/-! ## Short texts and variables -/

theorem Facts.ShortTexts.mul [Unicode] (hF : F.ShortTexts us) (hG : G.ShortTexts us) :
    (F * G).ShortTexts us where
  typed s hs := combine_ind (fun _ _ => Facts.len_pickText_le) (hF.typed s hs) (hG.typed s hs)
  sig s hs := combine_ind (fun _ _ => Facts.len_pickText_le) (hF.sig s hs) (hG.sig s hs)

theorem Facts.shortTexts_of_short (h : F.Short) : F.ShortTexts us :=
  ⟨fun s _ => h.typed s, fun s _ => h.sig s⟩

theorem Facts.shortTexts_one : (1 : Facts).ShortTexts us := Facts.shortTexts_of_short Facts.short_one

theorem KzipUnit.builder_shortTexts {u : KzipUnit} (hu : u ∈ us) (hok : u.succeeded = true)
    (ids : String → UInt32) : (u.builder ids).facts.ShortTexts us := by
  rw [u.builder_facts]
  exact ⟨fun s hs t ht => hs u hu hok _ ((bestText_eq_some_iff u.tables.typed_ne).mp ht).1 rfl,
    fun s hs t ht => hs u hu hok _ ((bestText_eq_some_iff u.tables.sig_ne).mp ht).1 rfl⟩

theorem Facts.vars_mul [Unicode] : (F * G).vars ⊆ F.vars ∪ G.vars := by
  rintro s ⟨m, hm, hvar⟩
  rw [Facts.mul_syms] at hm
  cases hF : F.syms s with
  | none => exact .inr ⟨m, by simpa [hF] using hm, hvar⟩
  | some a =>
    cases hG : G.syms s with
    | none => exact .inl ⟨m, by simpa [hF, hG] using hm, hvar⟩
    | some b =>
      obtain rfl : a.refine b = m := by simpa [hF, hG] using hm
      change (if a.kind = Kind.UNK then b.kind else a.kind) = Kind.VARIABLE at hvar
      split_ifs at hvar
      · exact .inr ⟨b, hG, hvar⟩
      · exact .inl ⟨a, hF, hvar⟩

theorem Facts.vars_written (F : Facts) : F.written.vars = F.vars := by
  ext s
  constructor
  · rintro ⟨m, hm, hvar⟩
    obtain ⟨e, he, rfl⟩ := Option.map_eq_some_iff.mp hm
    exact ⟨e, he, hvar⟩
  · rintro ⟨m, hm, hvar⟩
    exact ⟨m.clamped, Option.map_eq_some_iff.mpr ⟨m, hm, rfl⟩, hvar⟩

theorem KzipUnit.builder_vars (u : KzipUnit) (ids : String → UInt32) :
    (u.builder ids).facts.vars = u.tables.facts.vars := by
  rw [u.builder_facts]
  rfl

/-- Named facts, with short texts where the units have no others, and with no other variables. -/
structure Facts.Tame (us : List KzipUnit) (vars : Set UInt64) (N : Naming) (F : Facts) : Prop where
  named : F.Named N
  short : F.ShortTexts us
  vars : F.vars ⊆ vars

theorem varsOf_tame {vars : Set UInt64} : varsOf (Facts.Tame us vars) ⊆ vars := by
  rintro s ⟨N, F, hF, hs⟩
  exact hF.vars hs

theorem closed_tame [Unicode] (us : List KzipUnit) {vars : Set UInt64} (hvars : unitVars us ⊆ vars) :
    Closed us (Facts.Tame us vars) where
  one _ := ⟨Facts.named_one, Facts.shortTexts_one, fun s hs => by simp [Facts.vars, Facts.isVar] at hs⟩
  mul _ _ _ hF hG := ⟨hF.named.mul hG.named, hF.short.mul hG.short,
    Facts.vars_mul.trans (Set.union_subset hF.vars hG.vars)⟩
  written _ F h := ⟨h.named.written, Facts.shortTexts_of_short F.visible.clamped_short,
    F.vars_written.trans_subset h.vars⟩
  named _ _ h := h.named
  fit _ _ h := h.short
  agree _ _ _ h hM := ⟨h.named.agree hM, h.short, h.vars⟩
  unit _ u hu hok ids hids := ⟨KzipUnit.builder_named hids, KzipUnit.builder_shortTexts hu hok ids,
    fun s hs => hvars ⟨u, hu, hok, (u.builder_vars ids).subset hs⟩⟩
  file _ _ _ _ _ _ hid := ⟨fileFacts_named hid, ⟨by simp [fileFacts], by simp [fileFacts]⟩,
    fun s hs => by simp [Facts.vars, Facts.isVar, fileFacts] at hs⟩

/-! ## Only rows of units -/

theorem TextsFrom.combine {rows : IndexBuilder → List StrRow} {f g : UInt64 → Option String}
    (hf : TextsFrom us rows f) (hg : TextsFrom us rows g) :
    TextsFrom us rows fun k => combine pickText (f k) (g k) := by
  intro k
  refine Facts.combine_ind (fun a b ha hb => ?_) (hf k) (hg k)
  rw [pickText_eq]
  rcases better_mem textRank a b with e | e <;> rw [e] <;> assumption

theorem TextsFrom.clamped {rows : IndexBuilder → List StrRow} {f : UInt64 → Option String}
    (hf : TextsFrom us rows f) : TextsFrom us rows fun k => (f k).map clamp_blob_str := by
  intro k t ht
  obtain ⟨s, hs, rfl⟩ := Option.map_eq_some_iff.mp ht
  obtain ⟨u, hu, hok, r, hr, hk, e⟩ := hf k s hs
  refine ⟨u, hu, hok, r, hr, hk, Or.inr ?_⟩
  rcases e with rfl | rfl
  · rfl
  · exact clamp_clamp _

theorem textsFrom_bestText {u : KzipUnit} (hu : u ∈ us) (hok : u.succeeded)
    {rows : IndexBuilder → List StrRow} (hne : ∀ r ∈ rows u.tables, r.text ≠ "") :
    TextsFrom us rows (bestText (rows u.tables)) := by
  intro k t ht
  exact ⟨u, hu, hok, _, ((bestText_eq_some_iff hne).mp ht).1, rfl, Or.inl rfl⟩

theorem SymFrom.refine [Unicode] {k : UInt64} {a b : SymMeta} (ha : SymFrom us k a)
    (hb : SymFrom us k b) : SymFrom us k (a.refine b) where
  kind := by
    change ∃ u ∈ us, u.succeeded ∧ ∃ e, _ ∧ (if a.kind = Kind.UNK then b.kind else a.kind) = _
    split_ifs
    · exact hb.kind
    · exact ha.kind
  lang := by
    change ∃ u ∈ us, u.succeeded ∧ ∃ e, _ ∧ (if a.lang = Lang.UNK then b.lang else a.lang) = _
    split_ifs
    · exact hb.lang
    · exact ha.lang
  name := by
    change ∃ u ∈ us, u.succeeded ∧ ∃ e, _ ∧ (pickName _ _ = _ ∨ pickName _ _ = _)
    unfold pickName
    split_ifs
    · exact hb.name
    · exact ha.name

theorem Facts.From.mul [Unicode] (hF : F.From us N) (hG : G.From us N) : (F * G).From us N where
  xrefs x hx := hx.elim (hF.xrefs x) (hG.xrefs x)
  syms k m hm := by
    exact combine_ind (fun _ _ => SymFrom.refine) (hF.syms k) (hG.syms k) m hm
  files id := combine_ind (fun _ _ h _ => h) (hF.files id) (hG.files id)
  inherits r hr := hr.elim (hF.inherits r) (hG.inherits r)
  aliases r hr := hr.elim (hF.aliases r) (hG.aliases r)
  calls r hr := hr.elim (hF.calls r) (hG.calls r)
  typed := hF.typed.combine hG.typed
  childof r hr := hr.elim (hF.childof r) (hG.childof r)
  sig := hF.sig.combine hG.sig

theorem Facts.From.written (h : F.From us N) : F.written.From us N where
  xrefs := h.xrefs
  syms k m hm := by
    obtain ⟨e, he, rfl⟩ := Option.map_eq_some_iff.mp hm
    obtain ⟨hkind, hlang, u, hu, hok, e', he', hname⟩ := h.syms k e he
    refine ⟨hkind, hlang, u, hu, hok, e', he', Or.inr ?_⟩
    rcases hname with hn | hn
    · exact congrArg clamp_blob_str hn
    · exact (congrArg clamp_blob_str hn).trans (clamp_clamp _)
  files id p hp := by
    obtain ⟨q, hq, rfl⟩ := Option.map_eq_some_iff.mp hp
    rw [clamp_clamp]
    exact h.files id q hq
  inherits := h.inherits
  aliases := by
    rintro r ⟨q, hq, rfl⟩
    obtain ⟨u, hu, hok, s, hs, hk, e⟩ := h.aliases q hq.1
    refine ⟨u, hu, hok, s, hs, hk, Or.inr ?_⟩
    change clamp_blob_str q.text = _
    rcases e with e | e
    · rw [e]
    · rw [e, clamp_clamp]
  calls := h.calls
  typed := h.typed.clamped
  childof := h.childof
  sig := h.sig.clamped

theorem Facts.From.agree (h : F.From us N) (hn : F.Named N)
    (hM : ∀ id p, F.files id = some p → M id = N id) : F.From us M :=
  { h with
    xrefs := fun x hx => by
      obtain ⟨u, hu, hok, y, hy, h1, h2, h3, h4⟩ := h.xrefs x hx
      obtain ⟨p, hp⟩ := hn.xrefs x hx
      exact ⟨u, hu, hok, y, hy, h1, h2, h3, (hM _ p hp).trans h4⟩ }

theorem KzipUnit.builder_from {u : KzipUnit} (hu : u ∈ us) (hok : u.succeeded)
    {ids : String → UInt32} (hids : ∀ p ∈ u.paths, N (ids p) = some (clamp_blob_str p)) :
    (u.builder ids).facts.From us N := by
  rw [u.builder_facts]
  refine ⟨?_, fun k m hm => ?_, fun id p hp => ?_, fun r hr => ⟨u, hu, hok, hr⟩,
    fun r hr => ⟨u, hu, hok, r, hr, rfl, Or.inl rfl⟩, fun r hr => ⟨u, hu, hok, hr⟩,
    textsFrom_bestText hu hok u.tables.typed_ne, fun r hr => ⟨u, hu, hok, hr⟩,
    textsFrom_bestText hu hok u.tables.sig_ne⟩
  · intro x hx
    obtain ⟨y, hy, rfl⟩ := List.mem_map.mp hx
    exact ⟨u, hu, hok, y, hy, rfl, rfl, rfl, hids _ (u.xrefs_in y hy)⟩
  · exact ⟨⟨u, hu, hok, m, hm, rfl⟩, ⟨u, hu, hok, m, hm, rfl⟩, u, hu, hok, m, hm, Or.inl rfl⟩
  · exact ⟨u, hu, p, List.mem_of_find?_eq_some hp, rfl⟩

theorem Facts.from_one : (1 : Facts).From us N := by constructor <;> simp [TextsFrom]

theorem fileFacts_from {u : KzipUnit} (hu : u ∈ us) {p : String} (hp : p ∈ u.paths) (id : UInt32) :
    (fileFacts id p).From us N := by
  constructor
  case files =>
    intro k q hq
    obtain ⟨-, rfl⟩ : id = k ∧ p = q := by simpa [fileFacts] using hq
    exact ⟨u, hu, p, hp, rfl⟩
  all_goals simp [fileFacts, TextsFrom]

/-- Such facts with rows of units only. -/
structure Facts.Known (us : List KzipUnit) (N : Naming) (F : Facts) : Prop extends
    F.Tame us (unitVars us) N where
  origin : F.From us N

theorem closed_known [Unicode] (us : List KzipUnit) : Closed us (Facts.Known us) where
  one N := ⟨(closed_tame us le_rfl).one N, Facts.from_one⟩
  mul N F G hF hG := ⟨(closed_tame us le_rfl).mul N F G hF.toTame hG.toTame, hF.origin.mul hG.origin⟩
  written N F h := ⟨(closed_tame us le_rfl).written N F h.toTame, h.origin.written⟩
  named _ _ h := h.named
  fit _ _ h := h.short
  agree N M F h hM := ⟨(closed_tame us le_rfl).agree N M F h.toTame hM, h.origin.agree h.named hM⟩
  unit N u hu hok ids hids :=
    ⟨(closed_tame us le_rfl).unit N u hu hok ids hids, KzipUnit.builder_from hu hok hids⟩
  file N u hu p hp id hid :=
    ⟨(closed_tame us le_rfl).file N u hu p hp id hid, fileFacts_from hu hp id⟩

theorem Closed.mono [Unicode] {P : Naming → Facts → Prop} (h : Closed us P) (hle : N.Le M) (hF : P N F) :
    P M F := by
  refine h.agree N M F hF fun id p hp => ?_
  have hN := (h.named N F hF).files id p hp
  rw [hN]
  exact hle id _ hN

theorem Closed.prod [Unicode] {P : Naming → Facts → Prop} (h : Closed us P) {Fs : List Facts}
    (hFs : ∀ F ∈ Fs, P N F) : P N Fs.prod := by
  induction Fs with
  | nil => exact h.one N
  | cons F Fs ih =>
    rw [List.prod_cons]
    exact h.mul N _ _ (hFs F List.mem_cons_self) (ih fun G hG => hFs G (List.mem_cons_of_mem _ hG))

/-! ## All rows of a unit -/

theorem Keeps.mul_left {fits : UInt64 → Prop} {rows : List StrRow} {f : UInt64 → Option String}
    (h : Keeps fits rows f) (g : UInt64 → Option String) :
    Keeps fits rows fun k => combine pickText (f k) (g k) := by
  intro r hr
  obtain ⟨t, ht, hle⟩ := h r hr
  cases hg : g r.sym with
  | none => exact ⟨t, by simp [ht, hg], hle⟩
  | some s =>
    refine ⟨pickText t s, by simp [ht, hg], fun hfit => (hle hfit).trans ?_⟩
    rw [pickText_eq]
    exact le_better_left _ _ _

theorem Keeps.mul_right {fits : UInt64 → Prop} {rows : List StrRow} {f : UInt64 → Option String}
    (h : Keeps fits rows f) (g : UInt64 → Option String) :
    Keeps fits rows fun k => combine pickText (g k) (f k) := by
  have := h.mul_left g
  simp only [combine_comm pickText_comm (g _)]
  exact this

theorem Keeps.clamped {fits : UInt64 → Prop} {rows : List StrRow} {f : UInt64 → Option String}
    (h : Keeps fits rows f) (hs : ∀ s, fits s → ∀ t, f s = some t → len t ≤ u16Max) :
    Keeps fits rows fun k => (f k).map clamp_blob_str := by
  intro r hr
  obtain ⟨t, ht, hle⟩ := h r hr
  refine ⟨clamp_blob_str t, Option.map_eq_some_iff.mpr ⟨t, ht, rfl⟩, fun hfit => ?_⟩
  rw [clamp_of_len_le (hs _ hfit t ht)]
  exact hle hfit

theorem keeps_bestText {fits : UInt64 → Prop} {rows : List StrRow} : Keeps fits rows (bestText rows) := by
  intro r hr
  have hm : r.text ∈ textsOf rows r.sym := mem_textsOf.mpr hr
  obtain ⟨t, ht⟩ := bestOf_isSome textRank hm
  exact ⟨t, ht, fun _ => (bestOf_spec textRank ht).2 _ hm⟩

theorem SymMeta.Knows.refine_left [Unicode] {m e : SymMeta} (h : m.Knows e) (b : SymMeta) :
    (m.refine b).Knows e where
  kind hk := h.kind (by
    change (if m.kind = Kind.UNK then b.kind else m.kind) = Kind.UNK at hk
    by_contra hne
    rw [if_neg hne] at hk
    exact hne hk)
  lang hl := h.lang (by
    change (if m.lang = Lang.UNK then b.lang else m.lang) = Lang.UNK at hl
    by_contra hne
    rw [if_neg hne] at hl
    exact hne hl)
  name hn := h.name (by
    by_contra hne
    exact (pickName_ne_empty m.name b.name).mpr (.inl hne) hn)

theorem SymMeta.Knows.refine_right [Unicode] {m e : SymMeta} (h : m.Knows e) (a : SymMeta) :
    (a.refine m).Knows e where
  kind hk := h.kind (by
    change (if a.kind = Kind.UNK then m.kind else a.kind) = Kind.UNK at hk
    split_ifs at hk with hunk
    · exact hk
    · exact absurd hk hunk)
  lang hl := h.lang (by
    change (if a.lang = Lang.UNK then m.lang else a.lang) = Lang.UNK at hl
    split_ifs at hl with hunk
    · exact hl
    · exact absurd hl hunk)
  name hn := h.name (by
    by_contra hne
    exact (pickName_ne_empty a.name m.name).mpr (.inr hne) hn)

theorem SymMeta.Knows.clamped {m e : SymMeta} (h : m.Knows e) : m.clamped.Knows e where
  kind := h.kind
  lang := h.lang
  name hn := h.name (by
    by_contra hne
    exact clamp_ne_empty hne hn)

variable {hidden vars : Set UInt64} {u : KzipUnit}

theorem Facts.Covers.mul_left [Unicode] (h : F.Covers us hidden u N) (G : Facts) :
    (F * G).Covers us hidden u N where
  xrefs x hx := by
    obtain ⟨id, hid, hr⟩ := h.xrefs x hx
    exact ⟨id, hid, Or.inl hr⟩
  syms s e he := by
    obtain ⟨m, hm, hknows⟩ := h.syms s e he
    cases hG : G.syms s with
    | none => exact ⟨m, by simp [hm, hG], hknows⟩
    | some b => exact ⟨m.refine b, by simp [hm, hG], hknows.refine_left b⟩
  files p hp := by
    obtain ⟨id, q, hid, hq⟩ := h.files p hp
    exact ⟨id, q, hid, by rw [Facts.mul_files_apply, hq, Option.some_or]⟩
  inherits r hr := Or.inl (h.inherits r hr)
  aliases r hr hnot := by
    obtain ⟨q, hq, he⟩ := h.aliases r hr hnot
    exact ⟨q, Or.inl hq, he⟩
  calls r hr := Or.inl (h.calls r hr)
  typed := h.typed.mul_left _
  childof r hr := Or.inl (h.childof r hr)
  sig := h.sig.mul_left _

theorem Facts.Covers.mul_right [Unicode] (h : F.Covers us hidden u N) (G : Facts) :
    (G * F).Covers us hidden u N where
  xrefs x hx := by
    obtain ⟨id, hid, hr⟩ := h.xrefs x hx
    exact ⟨id, hid, Or.inr hr⟩
  syms s e he := by
    obtain ⟨m, hm, hknows⟩ := h.syms s e he
    cases hG : G.syms s with
    | none => exact ⟨m, by simp [hm, hG], hknows⟩
    | some a => exact ⟨a.refine m, by simp [hm, hG], hknows.refine_right a⟩
  files p hp := by
    obtain ⟨id, q, hid, hq⟩ := h.files p hp
    cases hG : G.files id with
    | none => exact ⟨id, q, hid, by rw [Facts.mul_files_apply, hG, hq, Option.none_or]⟩
    | some q' => exact ⟨id, q', hid, by rw [Facts.mul_files_apply, hG, Option.some_or]⟩
  inherits r hr := Or.inr (h.inherits r hr)
  aliases r hr hnot := by
    obtain ⟨q, hq, he⟩ := h.aliases r hr hnot
    exact ⟨q, Or.inr hq, he⟩
  calls r hr := Or.inr (h.calls r hr)
  typed := h.typed.mul_right _
  childof r hr := Or.inr (h.childof r hr)
  sig := h.sig.mul_right _

theorem Facts.Covers.mono (h : F.Covers us hidden u N) (hle : N.Le M) : F.Covers us hidden u M :=
  { h with
    xrefs := fun x hx => by
      obtain ⟨id, hid, hr⟩ := h.xrefs x hx
      exact ⟨id, hle _ _ hid, hr⟩
    files := fun p hp => by
      obtain ⟨id, q, hid, hq⟩ := h.files p hp
      exact ⟨id, q, hle _ _ hid, hq⟩ }

theorem Facts.Covers.hide (h : F.Covers us hidden u N) (hsub : hidden ⊆ vars) : F.Covers us vars u N :=
  { h with aliases := fun r hr hnot => h.aliases r hr fun hmem => hnot (hsub hmem) }

theorem Facts.Covers.agree (h : F.Covers us hidden u N) (hn : F.Named N)
    (hM : ∀ id p, F.files id = some p → M id = N id) : F.Covers us hidden u M :=
  { h with
    xrefs := fun x hx => by
      obtain ⟨id, hid, hr⟩ := h.xrefs x hx
      obtain ⟨p, hp⟩ := hn.xrefs _ hr
      exact ⟨id, (hM id p hp).trans hid, hr⟩
    files := fun p hp => by
      obtain ⟨id, q, hid, hq⟩ := h.files p hp
      exact ⟨id, q, (hM id q hq).trans hid, hq⟩ }

/-- Writing keeps all but the aliases of variables. -/
theorem Facts.Covers.written (h : F.Covers us hidden u N) (hs : F.ShortTexts us) (hvars : F.vars ⊆ hidden) :
    F.written.Covers us hidden u N where
  xrefs := h.xrefs
  syms s e he := by
    obtain ⟨m, hm, hknows⟩ := h.syms s e he
    exact ⟨m.clamped, Option.map_eq_some_iff.mpr ⟨m, hm, rfl⟩, hknows.clamped⟩
  files p hp := by
    obtain ⟨id, q, hid, hq⟩ := h.files p hp
    exact ⟨id, clamp_blob_str q, hid, Option.map_eq_some_iff.mpr ⟨q, hq, rfl⟩⟩
  inherits := h.inherits
  aliases r hr hnot := by
    obtain ⟨q, hq, he⟩ := h.aliases r hr hnot
    have hsym : q.sym = r.sym := by
      change q.clamped.sym = r.clamped.sym
      rw [he]
    refine ⟨q.clamped, ⟨q, ⟨hq, fun hvar => hnot (hsym ▸ hvars hvar)⟩, rfl⟩, ?_⟩
    rw [← he, StrRow.clamped, StrRow.clamped, clamp_clamp]
  calls := h.calls
  typed := h.typed.clamped hs.typed
  childof := h.childof
  sig := h.sig.clamped hs.sig

theorem Facts.Covers.prod [Unicode] {Fs : List Facts} (hF : F ∈ Fs) (h : F.Covers us hidden u N) :
    Fs.prod.Covers us hidden u N := by
  induction Fs with
  | nil => cases hF
  | cons G Fs ih =>
    rw [List.prod_cons]
    rcases List.mem_cons.mp hF with rfl | hF
    · exact h.mul_left _
    · exact (ih hF).mul_right _

theorem KzipUnit.builder_covers (u : KzipUnit) {ids : String → UInt32}
    (hids : ∀ p ∈ u.paths, N (ids p) = some (clamp_blob_str p)) :
    (u.builder ids).facts.Covers us hidden u N := by
  rw [u.builder_facts]
  refine ⟨fun x hx => ?_, fun s e he => ⟨e, he, id, id, id⟩, fun p hp => ?_, fun r hr => hr,
    fun r hr _ => ⟨r, hr, rfl⟩, fun r hr => hr, keeps_bestText, fun r hr => hr, keeps_bestText⟩
  · exact ⟨ids x.path, hids _ (u.xrefs_in x hx), List.mem_map.mpr ⟨x, hx, rfl⟩⟩
  · have hsome : (u.paths.find? fun q => ids q = ids p).isSome := List.find?_isSome.mpr ⟨p, hp, by simp⟩
    obtain ⟨q, hq⟩ := Option.isSome_iff_exists.mp hsome
    exact ⟨ids p, q, hids p hp, hq⟩

end

/-! ## Files -/

/-- The file opens and its iterators yield `F`. -/
structure FileHolds (f : Bytes) (F : Facts) : Prop where
  ne : F.Ne
  short : F.Short
  reads : ∃ ix, open_index f = .ok ix ∧ ix.Holds F

theorem FileHolds.unique {f : Bytes} {F G : Facts} (hF : FileHolds f F) (hG : FileHolds f G) : F = G := by
  obtain ⟨ix, hopen, hix⟩ := hF.reads
  obtain ⟨ix', hopen', hix'⟩ := hG.reads
  cases hopen.symm.trans hopen'
  exact hix.unique hix'

theorem IndexBuilder.fileHolds_of_finish {b : IndexBuilder} {f : Bytes} (h : b.finish = .ok f) :
    FileHolds f b.facts.written :=
  ⟨b.facts_ne.visible.clamped, b.facts.visible.clamped_short,
    (rendersTo_of_finish h).open_holds b.facts_ne.visible⟩

theorem forall₂_fileHolds {files : List Bytes} (h : ∀ f ∈ files, ∃ F, FileHolds f F) :
    ∃ Fs, List.Forall₂ FileHolds files Fs ∧ (∀ F ∈ Fs, ∃ f ∈ files, FileHolds f F) ∧
      ∀ f ∈ files, ∃ F ∈ Fs, FileHolds f F := by
  induction files with
  | nil => exact ⟨[], .nil, by simp, by simp⟩
  | cons f files ih =>
    obtain ⟨F, hF⟩ := h f List.mem_cons_self
    obtain ⟨Fs, hFs, hof, hin⟩ := ih fun g hg => h g (List.mem_cons_of_mem _ hg)
    refine ⟨F :: Fs, .cons hF hFs, ?_, ?_⟩
    · rintro G (_ | ⟨_, hG⟩)
      · exact ⟨f, List.mem_cons_self, hF⟩
      · obtain ⟨g, hg, hgG⟩ := hof G hG
        exact ⟨g, List.mem_cons_of_mem _ hg, hgG⟩
    · rintro g (_ | ⟨_, hg⟩)
      · exact ⟨F, List.mem_cons_self, hF⟩
      · obtain ⟨G, hG, hgG⟩ := hin g hg
        exact ⟨G, List.mem_cons_of_mem _ hG, hgG⟩

theorem open_forall₂ {files : List Bytes} {Fs : List Facts} (h : List.Forall₂ FileHolds files Fs) :
    ∃ ixs, files.mapM open_index = .ok ixs ∧ List.Forall₂ Index.Holds ixs Fs ∧ ∀ F ∈ Fs, F.Ne := by
  induction h with
  | nil => exact ⟨[], rfl, .nil, by simp⟩
  | @cons f F files Fs hF _ ih =>
    obtain ⟨ix, hopen, hix⟩ := hF.reads
    obtain ⟨ixs, hopens, hixs, hnes⟩ := ih
    refine ⟨ix :: ixs, by rw [List.mapM_cons, hopen, hopens]; rfl, .cons hix hixs, ?_⟩
    rintro G (_ | ⟨_, hG⟩)
    · exact hF.ne
    · exact hnes G hG

/-- Merging files with a delta writes the facts of them all. -/
theorem fileHolds_of_write_merged [Unicode] {files : List Bytes} {Fs : List Facts} {ixs : List Index}
    {d : IndexBuilder} {f : Bytes} (hfiles : List.Forall₂ FileHolds files Fs)
    (hopen : files.mapM open_index = .ok ixs) (h : d.write_merged_snapshot ixs = .ok f) :
    FileHolds f (Fs.prod * d.facts).written := by
  obtain ⟨ixs', hopen', hix, hne⟩ := open_forall₂ hfiles
  cases hopen.symm.trans hopen'
  have hprod := ((Facts.ne_prod hne).mul d.facts_ne).visible
  exact ⟨hprod.clamped, Facts.clamped_short _, (rendersTo_of_write_merged hix hne h).open_holds hprod⟩

/-! ## The files of the allocator -/

theorem IndexBuilder.facts_upsert_file [Unicode] (b : IndexBuilder) (id : UInt32) (p : String) :
    (b.upsert_file id p).facts = b.facts * fileFacts id p := by
  apply Facts.ext
  · exact (Set.union_empty _).symm
  · exact funext fun k => (combine_none_right _ _).symm
  · funext k
    rw [Facts.mul_files_apply]
    exact upsert_file_files b id k p
  · exact (Set.union_empty _).symm
  · exact (Set.union_empty _).symm
  · exact (Set.union_empty _).symm
  · exact funext fun k => (combine_none_right _ _).symm
  · exact (Set.union_empty _).symm
  · exact funext fun k => (combine_none_right _ _).symm

theorem FileIdAllocator.facts_push_to [Unicode] (a : FileIdAllocator) (b : IndexBuilder) :
    ∃ Fs : List Facts, (a.push_to b).facts = b.facts * Fs.prod ∧
      ∀ F ∈ Fs, ∃ (p : String) (id : UInt32), a.map[p]? = some (id, true) ∧ F = fileFacts id p := by
  unfold push_to
  rw [ExtTreeMap.foldl_eq_foldl_toList]
  have hmem : ∀ e ∈ a.map.toList, a.map[e.1]? = some e.2 := fun e he => ((tabulates_toList _).2 _ _).mp he
  generalize a.map.toList = l at hmem
  induction l generalizing b with
  | nil => exact ⟨[], by simp, by simp⟩
  | cons e l ih =>
    rw [List.foldl_cons]
    have hl := fun x hx => hmem x (List.mem_cons_of_mem _ hx)
    cases hacc : e.2.2 with
    | false =>
      simpa only [Bool.false_eq_true, if_false] using ih b hl
    | true =>
      simp only [if_true]
      obtain ⟨Fs, hFs, hall⟩ := ih (b.upsert_file e.2.1 e.1) hl
      refine ⟨fileFacts e.2.1 e.1 :: Fs, ?_, ?_⟩
      · rw [hFs, IndexBuilder.facts_upsert_file, List.prod_cons, mul_assoc]
      · rintro F (_ | ⟨_, hF⟩)
        · refine ⟨e.1, e.2.1, ?_, rfl⟩
          rw [hmem e List.mem_cons_self, ← hacc]
        · exact hall F hF

end Scry2
