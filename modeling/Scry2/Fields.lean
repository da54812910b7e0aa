import Scry2.Plans
import Scry2.Lookup

/-!
# Fields that are variables first

A variable that is marked as a field stays a field, and keeps its aliases, as long as the mark comes
before any other kind in every merge and every file.
-/

open Scry2.Lib

namespace Scry2

/-! ## Plans of files -/

/-- Files that are written one after the other. A snapshot is written over files of its own. -/
inductive FilePlans (sym : UInt64) where
  | nil
  | finish (rest : FilePlans sym) (p : BuildPlan sym)
  | snapshot (rest inner : FilePlans sym) (d : BuildPlan sym)

namespace FilePlans

variable {sym : UInt64}

def calls : FilePlans sym → List SymCall
  | nil => []
  | finish rest p => rest.calls ++ p.calls
  | snapshot rest inner d => rest.calls ++ (inner.calls ++ d.calls)

end FilePlans

/-! ## Where the mark stands -/

/-- The call makes a kind known. -/
def SymCall.givesKind : SymCall → Bool
  | .upsert kind _ _ => kind ≠ Kind.UNK
  | .markField => true
  | _ => false

/-- A call on a field that its node says to be a variable. -/
def SymCall.ofVariable : SymCall → Bool
  | .upsert kind _ _ => kind = Kind.UNK ∨ kind = Kind.VARIABLE
  | _ => true

namespace BuildPlan

variable {sym : UInt64}

/-- A kind is known. -/
def Knows (p : BuildPlan sym) : Prop := ∃ c ∈ p.calls, c.givesKind

/-- Some mark is merged after no builder that knows a kind. -/
def MarkLeads : BuildPlan sym → Prop
  | start _ _ _ => False
  | call p s c => (s = sym ∧ c = .markField) ∨ p.MarkLeads
  | merge p q => p.MarkLeads ∨ (¬ p.Knows ∧ q.MarkLeads)

/-- The alias is given. -/
def Gives (p : BuildPlan sym) (text : String) : Prop := text ≠ "" ∧ SymCall.addAlias text ∈ p.calls

end BuildPlan

namespace FilePlans

variable {sym : UInt64}

def Knows (l : FilePlans sym) : Prop := ∃ c ∈ l.calls, c.givesKind

/-- Some mark is merged after no builder and no file that knows a kind. -/
def MarkLeads : FilePlans sym → Prop
  | nil => False
  | finish rest p => rest.MarkLeads ∨ (¬ rest.Knows ∧ p.MarkLeads)
  | snapshot rest inner d =>
    rest.MarkLeads ∨ (¬ rest.Knows ∧ (inner.MarkLeads ∨ (¬ inner.Knows ∧ d.MarkLeads)))

/-- Some file still has the alias: where it was written, and cut, either no kind was known or a mark led. -/
def Keeps : FilePlans sym → String → Prop
  | nil, _ => False
  | finish rest p, a =>
    rest.Keeps a ∨ ((p.Knows → p.MarkLeads) ∧ ∃ text, p.Gives text ∧ clamp_blob_str text = a)
  | snapshot rest inner d, a =>
    rest.Keeps a ∨ ((inner.Knows → inner.MarkLeads) ∧ (¬ inner.Knows → d.Knows → d.MarkLeads) ∧
      ∃ text, (inner.Keeps text ∨ d.Gives text) ∧ clamp_blob_str text = a)

end FilePlans

/-! ## Kinds -/

/-- The kind that is kept. -/
def firstKind (a b : UInt8) : UInt8 := if a = Kind.UNK then b else a

theorem firstKind_ne {a b : UInt8} : firstKind a b ≠ Kind.UNK ↔ a ≠ Kind.UNK ∨ b ≠ Kind.UNK := by
  unfold firstKind
  split_ifs with h
  · simp [h]
  · simp [h]

theorem firstKind_eq {a b k : UInt8} (hk : k ≠ Kind.UNK) : firstKind a b = k ↔ a = k ∨ (¬ a ≠ Kind.UNK ∧ b = k) := by
  unfold firstKind
  split_ifs with h
  · simp [h, hk.symm]
  · simp [h]

/-- The kind after a call. -/
def SymCall.kindAfter (k : UInt8) : SymCall → UInt8
  | .upsert kind _ _ => firstKind k kind
  | .markField => Kind.FIELD
  | _ => k

theorem SymCall.kindAfter_ne {k : UInt8} {c : SymCall} :
    c.kindAfter k ≠ Kind.UNK ↔ k ≠ Kind.UNK ∨ c.givesKind = true := by
  cases c with
  | upsert kind lang name => simp [kindAfter, firstKind_ne, givesKind]
  | markField => simp [kindAfter, givesKind, Kind.FIELD, Kind.UNK]
  | setName name => simp [kindAfter, givesKind]
  | addAlias text => simp [kindAfter, givesKind]

theorem SymCall.kindAfter_field {k : UInt8} {c : SymCall} (hc : c.ofVariable = true) :
    c.kindAfter k = Kind.FIELD ↔ c = .markField ∨ k = Kind.FIELD := by
  cases c with
  | upsert kind lang name =>
    have hne : kind ≠ Kind.FIELD := by
      intro h
      simp [ofVariable, h, Kind.FIELD, Kind.UNK, Kind.VARIABLE] at hc
    rw [kindAfter, firstKind_eq (by decide)]
    simp [hne]
  | markField => simp [kindAfter]
  | setName name => simp [kindAfter]
  | addAlias text => simp [kindAfter]

namespace BuildPlan

variable {sym : UInt64}

def kind : BuildPlan sym → UInt8
  | start _ _ _ => Kind.UNK
  | call p s c => if s = sym then c.kindAfter p.kind else p.kind
  | merge p q => firstKind p.kind q.kind

theorem knows_iff (p : BuildPlan sym) : p.Knows ↔ p.kind ≠ Kind.UNK := by
  induction p with
  | start b _ _ => simp [Knows, calls, kind]
  | call p s c ih =>
    unfold Knows at ih ⊢
    rw [calls, kind]
    split_ifs
    · rw [SymCall.kindAfter_ne, ← ih]
      simp [or_and_right, exists_or]
    · exact ih
  | merge p q ihp ihq =>
    unfold Knows at ihp ihq ⊢
    rw [calls, kind, firstKind_ne, ← ihp, ← ihq]
    simp [or_and_right, exists_or]

theorem markLeads_iff (p : BuildPlan sym) (h : ∀ c ∈ p.calls, c.ofVariable) : p.MarkLeads ↔ p.kind = Kind.FIELD := by
  induction p with
  | start b _ _ => simp [MarkLeads, kind, Kind.FIELD, Kind.UNK]
  | call p s c ih =>
    rw [calls] at h
    rw [MarkLeads, kind]
    split_ifs at h ⊢ with hs
    · rw [SymCall.kindAfter_field (h c (by simp)), ← ih fun x hx => h x (by simp [hx])]
      simp [hs]
    · simp [hs, ih h]
  | merge p q ihp ihq =>
    rw [calls] at h
    rw [MarkLeads, kind, firstKind_eq (by decide), ihp fun c hc => h c (List.mem_append_left _ hc),
      ihq fun c hc => h c (List.mem_append_right _ hc), knows_iff]

end BuildPlan

/-- The kinds that such a symbol can have. -/
def OfVariable (k : UInt8) : Prop := k = Kind.UNK ∨ k = Kind.VARIABLE ∨ k = Kind.FIELD

theorem OfVariable.first {a b : UInt8} (ha : OfVariable a) (hb : OfVariable b) : OfVariable (firstKind a b) := by
  unfold firstKind
  split_ifs
  · exact hb
  · exact ha

theorem SymCall.ofVariable_after {k : UInt8} (hk : OfVariable k) {c : SymCall} (hc : c.ofVariable = true) :
    OfVariable (c.kindAfter k) := by
  cases c with
  | upsert kind lang name =>
    refine hk.first ?_
    have := of_decide_eq_true hc
    exact this.imp_right .inl
  | markField => exact .inr (.inr rfl)
  | setName name => exact hk
  | addAlias text => exact hk

/-- It is not the variable where no kind is known or the field is. -/
theorem OfVariable.ne_variable {k : UInt8} (h : OfVariable k) :
    k ≠ Kind.VARIABLE ↔ (k ≠ Kind.UNK → k = Kind.FIELD) := by
  rcases h with rfl | rfl | rfl <;> decide

theorem BuildPlan.ofVariable {sym : UInt64} (p : BuildPlan sym) (h : ∀ c ∈ p.calls, c.ofVariable) :
    OfVariable p.kind := by
  induction p with
  | start b _ _ => exact .inl rfl
  | call p s c ih =>
    rw [calls] at h
    rw [kind]
    split_ifs at h ⊢
    · exact SymCall.ofVariable_after (ih fun x hx => h x (by simp [hx])) (h c (by simp))
    · exact ih h
  | merge p q ihp ihq =>
    rw [calls] at h
    exact (ihp fun c hc => h c (List.mem_append_left _ hc)).first (ihq fun c hc => h c (List.mem_append_right _ hc))

namespace FilePlans

variable {sym : UInt64}

def kind : FilePlans sym → UInt8
  | nil => Kind.UNK
  | finish rest p => firstKind rest.kind p.kind
  | snapshot rest inner d => firstKind rest.kind (firstKind inner.kind d.kind)

theorem givesKind_append (a b : List SymCall) : (∃ c ∈ a ++ b, c.givesKind = true) ↔
    (∃ c ∈ a, c.givesKind = true) ∨ ∃ c ∈ b, c.givesKind = true := by
  simp [or_and_right, exists_or]

theorem knows_iff (l : FilePlans sym) : l.Knows ↔ l.kind ≠ Kind.UNK := by
  induction l with
  | nil => simp [Knows, calls, kind]
  | finish rest p ih =>
    rw [kind, firstKind_ne, ← ih, ← p.knows_iff]
    exact givesKind_append _ _
  | snapshot rest inner d ihr ihi =>
    rw [kind, firstKind_ne, firstKind_ne, ← ihr, ← ihi, ← d.knows_iff]
    exact (givesKind_append _ _).trans (or_congr_right (givesKind_append _ _))

theorem markLeads_iff (l : FilePlans sym) (h : ∀ c ∈ l.calls, c.ofVariable) : l.MarkLeads ↔ l.kind = Kind.FIELD := by
  induction l with
  | nil => simp [MarkLeads, kind, Kind.FIELD, Kind.UNK]
  | finish rest p ih =>
    rw [calls] at h
    rw [MarkLeads, kind, firstKind_eq (by decide), ih fun c hc => h c (List.mem_append_left _ hc),
      p.markLeads_iff fun c hc => h c (List.mem_append_right _ hc), knows_iff]
  | snapshot rest inner d ihr ihi =>
    rw [calls] at h
    rw [MarkLeads, kind, firstKind_eq (by decide), firstKind_eq (by decide),
      ihr fun c hc => h c (List.mem_append_left _ hc),
      ihi fun c hc => h c (List.mem_append_right _ (List.mem_append_left _ hc)),
      d.markLeads_iff fun c hc => h c (List.mem_append_right _ (List.mem_append_right _ hc)), knows_iff, knows_iff]

theorem ofVariable (l : FilePlans sym) (h : ∀ c ∈ l.calls, c.ofVariable) : OfVariable l.kind := by
  induction l with
  | nil => exact .inl rfl
  | finish rest p ih =>
    rw [calls] at h
    exact (ih fun c hc => h c (List.mem_append_left _ hc)).first
      (p.ofVariable fun c hc => h c (List.mem_append_right _ hc))
  | snapshot rest inner d ihr ihi =>
    rw [calls] at h
    exact (ihr fun c hc => h c (List.mem_append_left _ hc)).first
      ((ihi fun c hc => h c (List.mem_append_right _ (List.mem_append_left _ hc))).first
        (d.ofVariable fun c hc => h c (List.mem_append_right _ (List.mem_append_right _ hc))))

end FilePlans

/-! ## What is written -/

theorem kindOf_clamped (o : Option SymMeta) : kindOf (o.map SymMeta.clamped) = kindOf o := by
  cases o <;> rfl

/-- The aliases of the symbol that a file keeps. -/
theorem Facts.mem_written_aliases {sym : UInt64} {F : Facts} {a : String} :
    ⟨sym, a⟩ ∈ F.written.aliases ↔
      kindOf (F.syms sym) ≠ Kind.VARIABLE ∧ ∃ text, ⟨sym, text⟩ ∈ F.aliases ∧ clamp_blob_str text = a := by
  constructor
  · rintro ⟨r, ⟨hr, hvar⟩, heq⟩
    obtain ⟨rfl, rfl⟩ := StrRow.mk.inj heq
    exact ⟨fun h => hvar ((F.isVar_iff r.sym).mpr h), r.text, hr, rfl⟩
  · rintro ⟨hkind, text, htext, rfl⟩
    exact ⟨⟨sym, text⟩, ⟨htext, fun h => hkind ((F.isVar_iff sym).mp h)⟩, rfl⟩

/-! ## What builders hold -/

section

variable [Unicode]

namespace BuildPlan

variable {sym : UInt64}

theorem kindOf_run (b : IndexBuilder) (c : SymCall) :
    kindOf (c.run sym b).syms[sym]? = c.kindAfter (kindOf b.syms[sym]?) := by
  have hget : ∀ f : Option SymMeta → Option SymMeta, (b.syms.alter sym f)[sym]? = f b.syms[sym]? := fun f =>
    (getElem?_alter_key ..).trans (if_pos rfl)
  cases c with
  | upsert kind lang name =>
    change kindOf (b.syms.alter sym (IndexBuilder.refineEntry ⟨kind, lang, name⟩))[sym]? = _
    rw [hget]
    cases b.syms[sym]? <;> rfl
  | setName name =>
    change kindOf (b.set_sym_name sym name).syms[sym]? = kindOf b.syms[sym]?
    unfold IndexBuilder.set_sym_name
    split
    · rfl
    · rw [hget]
      cases b.syms[sym]? <;> rfl
  | markField =>
    change kindOf (b.syms.alter sym IndexBuilder.markField)[sym]? = Kind.FIELD
    rw [hget]
    cases b.syms[sym]? <;> rfl
  | addAlias text => rfl

theorem kindOf_build (p : BuildPlan sym) : kindOf p.build.syms[sym]? = p.kind := by
  induction p with
  | start b hsyms _ =>
    rw [build, hsyms]
    rfl
  | call p s c ih =>
    rw [build, kind]
    split_ifs with hs
    · subst hs
      rw [kindOf_run, ih]
    · rw [run_syms_of_ne hs, ih]
  | merge p q ihp ihq =>
    rw [build, IndexBuilder.merge_from_syms, kindOf_combine, ihp, ihq]
    rfl

theorem mem_aliases_run (b : IndexBuilder) (s : UInt64) (c : SymCall) (text : String) :
    ⟨sym, text⟩ ∈ (c.run s b).aliases ↔ ⟨sym, text⟩ ∈ b.aliases ∨ (s = sym ∧ text ≠ "" ∧ c = .addAlias text) := by
  cases c with
  | upsert kind lang name => exact (or_iff_left (by simp)).symm
  | setName name =>
    change _ ∈ (b.set_sym_name s name).aliases ↔ _
    unfold IndexBuilder.set_sym_name
    split <;> exact (or_iff_left (by simp)).symm
  | markField => exact (or_iff_left (by simp)).symm
  | addAlias name =>
    change _ ∈ IndexBuilder.pushText b.aliases s name ↔ _
    unfold IndexBuilder.pushText
    split
    · rename_i hempty
      refine (or_iff_left ?_).symm
      rintro ⟨-, hne, heq⟩
      cases heq
      exact hne hempty
    · rename_i hne
      rw [List.mem_append, List.mem_singleton]
      refine or_congr_right ?_
      constructor
      · intro h
        cases h
        exact ⟨rfl, hne, rfl⟩
      · rintro ⟨rfl, -, heq⟩
        cases heq
        rfl

theorem mem_aliases (p : BuildPlan sym) (text : String) : ⟨sym, text⟩ ∈ p.build.aliases ↔ p.Gives text := by
  induction p with
  | start b _ haliases =>
    refine iff_of_false (fun h => haliases _ h rfl) ?_
    rintro ⟨-, h⟩
    cases h
  | call p s c ih =>
    rw [build, mem_aliases_run, ih, Gives, Gives, calls]
    split_ifs with hs
    · rw [List.mem_append, List.mem_singleton]
      tauto
    · simp [hs]
  | merge p q ihp ihq =>
    rw [Gives, calls, List.mem_append, and_or_left, ← Gives, ← Gives, ← ihp, ← ihq]
    exact List.mem_append

end BuildPlan

/-! ## What files hold -/

namespace FilePlans

variable {sym : UInt64}

/-- The files of the plans, in order. -/
def write : FilePlans sym → Res (List Bytes)
  | nil => .ok []
  | finish rest p => do return (← rest.write) ++ [← p.build.finish]
  | snapshot rest inner d => do
    let files ← rest.write
    let sources ← (← inner.write).mapM open_index
    return files ++ [← d.build.write_merged_snapshot sources]

/-- What the files hold together. -/
def held : FilePlans sym → Facts
  | nil => 1
  | finish rest p => rest.held * p.build.facts.written
  | snapshot rest inner d => rest.held * (inner.held * d.build.facts).written

theorem renders {l : FilePlans sym} {files : List Bytes} (h : l.write = .ok files) :
    ∃ Fs : List Facts, List.Forall₂ Facts.RendersTo Fs files ∧ (∀ F ∈ Fs, F.Ne) ∧
      (Fs.map Facts.clamped).prod = l.held := by
  have hlast : ∀ {Fs : List Facts} {F : Facts}, (∀ G ∈ Fs, G.Ne) → F.Ne → ∀ G ∈ Fs ++ [F], G.Ne := by
    intro Fs F hFs hF G hG
    rcases List.mem_append.mp hG with hG | hG
    · exact hFs G hG
    · exact List.mem_singleton.mp hG ▸ hF
  induction l generalizing files with
  | nil =>
    cases h
    exact ⟨[], .nil, nofun, rfl⟩
  | finish rest p ih =>
    obtain ⟨fs, hfs, h⟩ := Res.bind_eq_ok h
    obtain ⟨f, hf, h⟩ := Res.bind_eq_ok h
    cases h
    obtain ⟨Fs, hFs, hne, hprod⟩ := ih hfs
    refine ⟨Fs ++ [p.build.facts.visible], ?_, hlast hne p.build.facts_ne.visible, ?_⟩
    · exact List.rel_append hFs (.cons (IndexBuilder.rendersTo_of_finish hf) .nil)
    · rw [List.map_append, List.prod_append, hprod]
      exact congrArg (rest.held * ·) List.prod_singleton
  | snapshot rest inner d ihr ihi =>
    obtain ⟨fs, hfs, h⟩ := Res.bind_eq_ok h
    obtain ⟨gs, hgs, h⟩ := Res.bind_eq_ok h
    obtain ⟨ixs, hixs, h⟩ := Res.bind_eq_ok h
    obtain ⟨f, hf, h⟩ := Res.bind_eq_ok h
    cases h
    obtain ⟨Fs, hFs, hne, hprod⟩ := ihr hfs
    obtain ⟨Gs, hGs, hGne, hGprod⟩ := ihi hgs
    obtain ⟨ixs', hopen, hholds⟩ := open_all hGs hGne
    cases hixs.symm.trans hopen
    have hGne' : ∀ F ∈ Gs.map Facts.clamped, F.Ne := by
      intro F hF
      obtain ⟨G, hG, rfl⟩ := List.mem_map.mp hF
      exact (hGne G hG).clamped
    refine ⟨Fs ++ [(inner.held * d.build.facts).visible], ?_, hlast hne ?_, ?_⟩
    · exact List.rel_append hFs (.cons (hGprod ▸ rendersTo_of_write_merged hholds hGne' hf) .nil)
    · exact hGprod ▸ ((Facts.ne_prod hGne').mul d.build.facts_ne).visible
    · rw [List.map_append, List.prod_append, hprod]
      exact congrArg (rest.held * ·) List.prod_singleton

/-- The display name of the files together. -/
def name : FilePlans sym → String
  | nil => ""
  | finish rest p => pickName rest.name (clamp_blob_str (bestName p.names))
  | snapshot rest inner d => pickName rest.name (clamp_blob_str (pickName inner.name (bestName d.names)))

theorem held_name (l : FilePlans sym) : nameIn (l.held.syms sym) = l.name := by
  induction l with
  | nil => rfl
  | finish rest p ih =>
    change nameIn (combine _ (rest.held.syms sym) (p.build.syms[sym]?.map SymMeta.clamped)) = _
    rw [nameIn_combine, ih, nameIn_clamped, p.nameIn_build]
    rfl
  | snapshot rest inner d ihr ihi =>
    change nameIn (combine _ (rest.held.syms sym)
      ((combine _ (inner.held.syms sym) d.build.syms[sym]?).map SymMeta.clamped)) = _
    rw [nameIn_combine, ihr, nameIn_clamped, nameIn_combine, ihi, d.nameIn_build]
    rfl

theorem held_kind (l : FilePlans sym) : kindOf (l.held.syms sym) = l.kind := by
  induction l with
  | nil => rfl
  | finish rest p ih =>
    change kindOf (combine _ (rest.held.syms sym) (p.build.syms[sym]?.map SymMeta.clamped)) = _
    rw [kindOf_combine, ih, kindOf_clamped, p.kindOf_build]
    rfl
  | snapshot rest inner d ihr ihi =>
    change kindOf (combine _ (rest.held.syms sym)
      ((combine _ (inner.held.syms sym) d.build.syms[sym]?).map SymMeta.clamped)) = _
    rw [kindOf_combine, ihr, kindOf_clamped, kindOf_combine, ihi, d.kindOf_build]
    rfl

theorem held_aliases (l : FilePlans sym) (h : ∀ c ∈ l.calls, c.ofVariable) (a : String) :
    ⟨sym, a⟩ ∈ l.held.aliases ↔ l.Keeps a := by
  induction l generalizing a with
  | nil => exact Iff.rfl
  | finish rest p ih =>
    rw [calls] at h
    have hp : ∀ c ∈ p.calls, c.ofVariable := fun c hc => h c (List.mem_append_right _ hc)
    have hkind : kindOf (p.build.facts.syms sym) ≠ Kind.VARIABLE ↔ (p.Knows → p.MarkLeads) := by
      rw [p.knows_iff, p.markLeads_iff hp, ← (p.ofVariable hp).ne_variable, ← p.kindOf_build]
      exact Iff.rfl
    rw [held, Keeps, Facts.mul_aliases, Set.mem_union, ih fun c hc => h c (List.mem_append_left _ hc),
      Facts.mem_written_aliases, hkind]
    exact or_congr_right (and_congr_right' (exists_congr fun text => and_congr_left' (p.mem_aliases text)))
  | snapshot rest inner d ihr ihi =>
    rw [calls] at h
    have hi : ∀ c ∈ inner.calls, c.ofVariable := fun c hc => h c (List.mem_append_right _ (List.mem_append_left _ hc))
    have hd : ∀ c ∈ d.calls, c.ofVariable := fun c hc => h c (List.mem_append_right _ (List.mem_append_right _ hc))
    have hkind : kindOf ((inner.held * d.build.facts).syms sym) ≠ Kind.VARIABLE ↔
        (inner.Knows → inner.MarkLeads) ∧ (¬ inner.Knows → d.Knows → d.MarkLeads) := by
      change kindOf (combine _ (inner.held.syms sym) d.build.syms[sym]?) ≠ _ ↔ _
      rw [kindOf_combine, held_kind, d.kindOf_build, inner.knows_iff, inner.markLeads_iff hi, d.knows_iff,
        d.markLeads_iff hd, ← (inner.ofVariable hi).ne_variable, ← (d.ofVariable hd).ne_variable]
      by_cases hunk : inner.kind = Kind.UNK
      · simp [hunk, Kind.UNK, Kind.VARIABLE]
      · simp [hunk]
    rw [held, Keeps, Facts.mul_aliases, Set.mem_union, ihr fun c hc => h c (List.mem_append_left _ hc),
      Facts.mem_written_aliases, hkind, and_assoc]
    refine or_congr_right (and_congr_right' (and_congr_right' (exists_congr fun text => and_congr_left' ?_)))
    exact or_congr (ihi hi text) (d.mem_aliases text)

end FilePlans

/-! ## The last file -/

variable {sym : UInt64}

/-- The index says that the symbol is a field, and finds it by its aliases. -/
structure FieldFound (sym : UInt64) (calls : List SymCall) (ix : Index) : Prop where
  kind : ∃ name lang, ix.sym_meta sym = .ok (some (name, Kind.FIELD, lang))
  aliases : ∀ text, .addAlias text ∈ calls → ∃ l, ix.syms_for_name text = .ok l ∧ sym ∈ l

/-- What the last file answers about the symbol. -/
theorem FilePlans.answers (l : FilePlans sym) {out : Bytes} (h : l.write = .ok [out]) :
    ∃ ix, open_index out = .ok ix ∧
      ix.sym_meta sym = .ok ((l.held.syms sym).map fun m => (m.name, m.kind, m.lang)) ∧
      ∀ q, ∃ names, ix.syms_for_name q = .ok names ∧
        (sym ∈ names ↔ (∃ m, l.held.syms sym = some m ∧ m.name = q) ∨ ⟨sym, q⟩ ∈ l.held.aliases) := by
  obtain ⟨Fs, hFs, hne, hprod⟩ := FilePlans.renders h
  cases hFs with
  | cons hF hrest =>
    cases hrest
    obtain ⟨t, ht⟩ := hF
    obtain ⟨htot, ix, hopen, hlays⟩ := t.open_file ht
    rw [List.map_singleton, List.prod_singleton] at hprod
    refine ⟨ix, hopen, ?_, fun q => ?_⟩
    · rw [hlays.sym_meta htot, hprod]
    · obtain ⟨names, hnames, hmem⟩ := hlays.mem_syms_for_name htot q
      exact ⟨names, hnames, by rw [hmem, hprod]⟩

/-- A variable that is marked as a field is found as one in the last file exactly if a mark leads, and every
alias is its name there or is kept. -/
theorem field_promotion_survives (l : FilePlans sym) (hcalls : ∀ c ∈ l.calls, c.ofVariable) {out : Bytes}
    (h : l.write = .ok [out]) :
    ∃ ix, open_index out = .ok ix ∧
      (FieldFound sym l.calls ix ↔
        l.MarkLeads ∧ ∀ text, .addAlias text ∈ l.calls → text = l.name ∨ l.Keeps text) := by
  obtain ⟨ix, hopen, hmeta, hnames⟩ := l.answers h
  refine ⟨ix, hopen, ?_⟩
  have hkind : (∃ name lang, ix.sym_meta sym = .ok (some (name, Kind.FIELD, lang))) ↔ l.MarkLeads := by
    rw [l.markLeads_iff hcalls, ← l.held_kind, hmeta]
    cases l.held.syms sym with
    | none => simp [kindOf, Kind.FIELD, Kind.UNK]
    | some m => simp [kindOf]
  -- A field has a record, so its name is found.
  have hfound : l.MarkLeads → ∀ text, (∃ names, ix.syms_for_name text = .ok names ∧ sym ∈ names) ↔
      text = l.name ∨ l.Keeps text := by
    intro hlead text
    obtain ⟨names, hnames, hmem⟩ := hnames text
    rw [hnames]
    simp only [Except.ok.injEq, exists_eq_left']
    rw [hmem, l.held_aliases hcalls, ← l.held_name]
    rw [l.markLeads_iff hcalls, ← l.held_kind] at hlead
    cases hm : l.held.syms sym with
    | none => simp [hm, kindOf, Kind.FIELD, Kind.UNK] at hlead
    | some m => simp [nameIn, eq_comm]
  constructor
  · rintro ⟨hk, ha⟩
    have hlead := hkind.mp hk
    exact ⟨hlead, fun text htext => (hfound hlead text).mp (ha text htext)⟩
  · rintro ⟨hlead, ha⟩
    exact ⟨hkind.mpr hlead, fun text htext => (hfound hlead text).mpr (ha text htext)⟩

end

/-! A field of a class, from one builder and from two. -/

section

attribute [local instance] asciiUnicode

def variableCalls : BuildPlan 1 :=
  ((BuildPlan.new 1).call 1 (.upsert Kind.VARIABLE Lang.JAVA "p.C.f")).call 1 (.addAlias "C.f")

def markCalls : BuildPlan 1 := (BuildPlan.new 1).call 1 .markField

def aliasCall : BuildPlan 1 := (BuildPlan.new 1).call 1 (.addAlias "C.g")

/-- Two builders, of which the first one marks. -/
def markedPlan : BuildPlan 1 := markCalls.merge variableCalls

/-- A merge of their file with one more alias. -/
def mergedPlans : FilePlans 1 := .snapshot .nil (.finish .nil markedPlan) aliasCall

theorem mergedPlans_write : ∃ out, mergedPlans.write = .ok [out] := by
  have hfinish : markedPlan.build.finish = .ok markedPlan.build.finishRows.bytes :=
    (Rows.finishFile_eq _).trans (if_pos (by decide +kernel))
  have hmerged : (markedPlan.build.merge_from aliasCall.build).finish = .ok _ :=
    (Rows.finishFile_eq _).trans (if_pos (by decide +kernel))
  obtain ⟨ixs, hopen, hmerge⟩ := IndexBuilder.write_merged_of_file (d := aliasCall.build) hfinish
    (by decide +kernel) (by decide +kernel)
  have hinner : (FilePlans.finish .nil markedPlan).write = .ok [markedPlan.build.finishRows.bytes] := by
    rw [FilePlans.write, FilePlans.write, hfinish]
    rfl
  have hsnapshot := hmerge.trans hmerged
  refine ⟨(markedPlan.build.merge_from aliasCall.build).finishRows.bytes, ?_⟩
  rw [mergedPlans, FilePlans.write, FilePlans.write, hinner, Res.ok_bind, Res.ok_bind, hopen, Res.ok_bind, hsnapshot]
  rfl

theorem field_promotion_survives_mergedPlans :
    ∃ out ix, mergedPlans.write = .ok [out] ∧ open_index out = .ok ix ∧ FieldFound 1 mergedPlans.calls ix := by
  obtain ⟨out, hwrite⟩ := mergedPlans_write
  obtain ⟨ix, hopen, hiff⟩ := field_promotion_survives mergedPlans (by decide) hwrite
  have hmark : markedPlan.MarkLeads := .inl (.inl ⟨rfl, rfl⟩)
  have hnil : ¬ (FilePlans.nil : FilePlans 1).Knows := by
    rintro ⟨c, hc, -⟩
    cases hc
  have hinner : (FilePlans.finish .nil markedPlan).MarkLeads := .inr ⟨hnil, hmark⟩
  have hknows : (FilePlans.finish .nil markedPlan).Knows :=
    ⟨.markField, List.mem_append_right _ (by decide), rfl⟩
  refine ⟨out, ix, hwrite, hopen, hiff.mpr ⟨.inr ⟨hnil, .inl hinner⟩, fun text htext => .inr ?_⟩⟩
  have hcalls : mergedPlans.calls =
      [.markField, .upsert Kind.VARIABLE Lang.JAVA "p.C.f", .addAlias "C.f", .addAlias "C.g"] := rfl
  rw [hcalls] at htext
  simp only [List.mem_cons, reduceCtorEq, SymCall.addAlias.injEq, List.not_mem_nil, or_false, false_or] at htext
  refine .inr ⟨fun _ => hinner, fun hnot => absurd hknows hnot, text, ?_⟩
  rcases htext with rfl | rfl
  · refine ⟨.inl (.inr ⟨fun _ => hmark, "C.f", ⟨by decide, by decide⟩, clamp_of_len_le (by decide)⟩),
      clamp_of_len_le (by decide)⟩
  · exact ⟨.inr ⟨by decide, by decide⟩, clamp_of_len_le (by decide)⟩

/-- A mark in the second builder does not change the kind that the first knows. -/
theorem later_mark_lost : ¬ ∀ (sym : UInt64) (l : FilePlans sym), (∀ c ∈ l.calls, c.ofVariable) →
    .markField ∈ l.calls → ∀ out, l.write = .ok [out] →
      ∃ ix, open_index out = .ok ix ∧ FieldFound sym l.calls ix := by
  intro h
  have hfinish : (variableCalls.merge markCalls).build.finish = _ :=
    (Rows.finishFile_eq _).trans (if_pos (by decide +kernel))
  have hwrite : (FilePlans.finish .nil (variableCalls.merge markCalls)).write =
      .ok [(variableCalls.merge markCalls).build.finishRows.bytes] := by
    rw [FilePlans.write, FilePlans.write, hfinish]
    rfl
  obtain ⟨ix, hopen, ⟨name, lang, hfield⟩, -⟩ := h 1 _ (by decide) (by decide) _ hwrite
  obtain ⟨ix', hopen', hmeta, -⟩ := FilePlans.answers _ hwrite
  cases hopen.symm.trans hopen'
  have hkind := FilePlans.held_kind (FilePlans.finish .nil (variableCalls.merge markCalls))
  rw [hmeta, Except.ok.injEq, Option.map_eq_some_iff] at hfield
  obtain ⟨m, hm, heq⟩ := hfield
  have hfield : kindOf (some m) = Kind.FIELD := (Prod.mk.inj (Prod.mk.inj heq).2).1
  rw [hm, hfield] at hkind
  exact absurd hkind (by decide)

end

end Scry2
