import Scry2.Produced

/-!
# Kinds across indexes

Whether an alias survives depends on the kind of its symbol, and each index decides with the kind
it knows. When no symbol has two known kinds, dropping aliases early or late leaves the same facts.
-/

open Scry2.Lib

namespace Scry2

/-! ## The kind of a symbol -/

/-- The kind recorded for a symbol, `UNK` when there is none. -/
def kindOf (m : Option SymMeta) : UInt8 := (m.map SymMeta.kind).getD Kind.UNK

theorem Facts.isVar_iff (F : Facts) (k : UInt64) : F.isVar k ↔ kindOf (F.syms k) = Kind.VARIABLE := by
  unfold Facts.isVar kindOf
  cases F.syms k with
  | none => simp [Kind.UNK, Kind.VARIABLE]
  | some m => simp

/-- Every known kind in `F` is the one `K` gives. -/
def Facts.KindsIn (K : UInt64 → UInt8) (F : Facts) : Prop :=
  ∀ k, kindOf (F.syms k) = Kind.UNK ∨ kindOf (F.syms k) = K k

theorem Facts.kindsIn_one (K : UInt64 → UInt8) : (1 : Facts).KindsIn K := fun _ => Or.inl rfl

/-! ## Shedding aliases -/

/-- `H` is `F` without some aliases of its variables. -/
structure Facts.Sheds (F H : Facts) : Prop where
  xrefs : H.xrefs = F.xrefs
  syms : H.syms = F.syms
  files : H.files = F.files
  inherits : H.inherits = F.inherits
  calls : H.calls = F.calls
  typed : H.typed = F.typed
  childof : H.childof = F.childof
  sig : H.sig = F.sig
  sub : H.aliases ⊆ F.aliases
  lost : ∀ r ∈ F.aliases, r ∉ H.aliases → F.isVar r.sym

theorem Facts.sheds_refl (F : Facts) : F.Sheds F :=
  ⟨rfl, rfl, rfl, rfl, rfl, rfl, rfl, rfl, subset_rfl, fun _ h hn => absurd h hn⟩

theorem Facts.sheds_visible (F : Facts) : F.Sheds F.visible :=
  ⟨rfl, rfl, rfl, rfl, rfl, rfl, rfl, rfl, fun _ h => h.1,
    fun _ h hn => by_contra fun hv => hn ⟨h, hv⟩⟩

theorem Facts.Sheds.visible_eq {F H : Facts} (h : F.Sheds H) : H.visible = F.visible := by
  apply Facts.ext
  · exact h.xrefs
  · exact h.syms
  · exact h.files
  · exact h.inherits
  · ext r
    have hv : H.isVar r.sym ↔ F.isVar r.sym := by rw [Facts.isVar, Facts.isVar, h.syms]
    constructor
    · rintro ⟨hr, hn⟩
      exact ⟨h.sub hr, fun hF => hn (hv.mpr hF)⟩
    · rintro ⟨hr, hn⟩
      exact ⟨by_contra fun hH => hn (h.lost r hr hH), fun hH => hn (hv.mp hH)⟩
  · exact h.calls
  · exact h.typed
  · exact h.childof
  · exact h.sig

/-! ## Builders -/

/-- Every string of the builder fits the blob's length field. -/
structure IndexBuilder.Short (b : IndexBuilder) : Prop where
  names : ∀ (k : UInt64) (m : SymMeta), b.syms[k]? = some m → len m.name ≤ u16Max
  paths : ∀ (k : UInt32) (p : String), b.files[k]? = some p → len p ≤ u16Max
  aliases : ∀ r ∈ b.aliases, len r.text ≤ u16Max
  typed : ∀ r ∈ b.typed, len r.text ≤ u16Max
  sig : ∀ r ∈ b.sig, len r.text ≤ u16Max

theorem IndexBuilder.Short.facts {b : IndexBuilder} (h : b.Short) : b.facts.Short where
  syms := h.names
  files := h.paths
  aliases := h.aliases
  typed _ _ ht := h.typed _ ((bestText_eq_some_iff b.typed_ne).mp ht).1
  sig _ _ ht := h.sig _ ((bestText_eq_some_iff b.sig_ne).mp ht).1

instance (b : IndexBuilder) : Decidable b.Short :=
  decidable_of_iff ((∀ e ∈ b.syms.toList, len e.2.name ≤ u16Max) ∧
      (∀ e ∈ b.files.toList, len e.2 ≤ u16Max) ∧ (∀ r ∈ b.aliases, len r.text ≤ u16Max) ∧
      (∀ r ∈ b.typed, len r.text ≤ u16Max) ∧ ∀ r ∈ b.sig, len r.text ≤ u16Max) <| by
    constructor
    · rintro ⟨h1, h2, h3, h4, h5⟩
      exact ⟨fun k m hm => h1 (k, m) (((tabulates_toList _).2 k m).mpr hm),
        fun k p hp => h2 (k, p) (((tabulates_toList _).2 k p).mpr hp), h3, h4, h5⟩
    · intro h
      exact ⟨fun e he => h.names e.1 e.2 (((tabulates_toList _).2 _ _).mp he),
        fun e he => h.paths e.1 e.2 (((tabulates_toList _).2 _ _).mp he), h.aliases, h.typed, h.sig⟩

/-- No symbol is given two different known kinds. -/
def KindsAgree (bs : List IndexBuilder) : Prop :=
  ∀ b ∈ bs, ∀ c ∈ bs, ∀ (k : UInt64) (m n : SymMeta), b.syms[k]? = some m → c.syms[k]? = some n →
    m.kind ≠ Kind.UNK → n.kind ≠ Kind.UNK → m.kind = n.kind

instance (bs : List IndexBuilder) : Decidable (KindsAgree bs) :=
  decidable_of_iff (∀ b ∈ bs, ∀ c ∈ bs, ∀ e ∈ b.syms.toList, ∀ e' ∈ c.syms.toList, e.1 = e'.1 →
      e.2.kind ≠ Kind.UNK → e'.2.kind ≠ Kind.UNK → e.2.kind = e'.2.kind) <| by
    constructor
    · intro h b hb c hc k m n hm hn
      exact h b hb c hc (k, m) (((tabulates_toList _).2 k m).mpr hm) (k, n)
        (((tabulates_toList _).2 k n).mpr hn) rfl
    · rintro h b hb c hc ⟨k, m⟩ he ⟨k', n⟩ he' rfl
      exact h b hb c hc k m n (((tabulates_toList _).2 _ _).mp he) (((tabulates_toList _).2 _ _).mp he')

/-- Agreeing builders have one kind for every symbol. -/
theorem KindsAgree.exists_kinds {bs : List IndexBuilder} (h : KindsAgree bs) :
    ∃ K : UInt64 → UInt8, ∀ b ∈ bs, b.facts.KindsIn K := by
  classical
  refine ⟨fun k => if hk : ∃ b ∈ bs, kindOf b.syms[k]? ≠ Kind.UNK then kindOf hk.choose.syms[k]?
    else Kind.UNK, fun b hb k => ?_⟩
  by_cases hu : kindOf b.syms[k]? = Kind.UNK
  · exact Or.inl hu
  · right
    have hk : ∃ b ∈ bs, kindOf b.syms[k]? ≠ Kind.UNK := ⟨b, hb, hu⟩
    simp only [dif_pos hk]
    obtain ⟨hc, hcu⟩ := hk.choose_spec
    generalize hk.choose = c at hc hcu
    change kindOf b.syms[k]? = _
    cases hbk : b.syms[k]? with
    | none => simp [kindOf, hbk] at hu
    | some m =>
      cases hck : c.syms[k]? with
      | none => simp [kindOf, hck] at hcu
      | some n =>
        simp only [kindOf, hbk, hck, Option.map_some, Option.getD_some] at hu hcu ⊢
        exact h b hb c hc k m n hbk hck hu hcu

/-! ## Products -/

section

variable [Unicode]

theorem kindOf_combine (a b : Option SymMeta) :
    kindOf (combine SymMeta.refine a b) = if kindOf a = Kind.UNK then kindOf b else kindOf a := by
  cases a with
  | none => simp [kindOf]
  | some a =>
    cases b with
    | none => simp only [kindOf, combine_none_right, Option.map_some, Option.getD_some, Option.map_none,
        Option.getD_none]; split_ifs with h <;> simp [h]
    | some b =>
      by_cases h : a.kind = Kind.UNK <;> simp [kindOf, SymMeta.refine, h]

theorem Facts.KindsIn.mul {K : UInt64 → UInt8} {F G : Facts} (hF : F.KindsIn K) (hG : G.KindsIn K) :
    (F * G).KindsIn K := by
  intro k
  change kindOf (combine _ _ _) = _ ∨ kindOf (combine _ _ _) = _
  rw [kindOf_combine]
  split_ifs
  · exact hG k
  · exact hF k

theorem Facts.isVar_mul_left {F G : Facts} {k : UInt64} (h : F.isVar k) : (F * G).isVar k := by
  rw [Facts.isVar_iff] at h ⊢
  change kindOf (combine _ _ _) = _
  rw [kindOf_combine, h]
  rfl

theorem Facts.isVar_mul_right {K : UInt64 → UInt8} {F G : Facts} (hF : F.KindsIn K) (hG : G.KindsIn K)
    {k : UInt64} (h : G.isVar k) : (F * G).isVar k := by
  rw [Facts.isVar_iff] at h ⊢
  change kindOf (combine _ _ _) = _
  rw [kindOf_combine]
  split_ifs with hu
  · exact h
  · have hK : K k = Kind.VARIABLE := by
      rcases hG k with h' | h'
      · rw [h] at h'; exact absurd h' (by decide)
      · rw [← h', h]
    exact ((hF k).resolve_left hu).trans hK

theorem Facts.Sheds.mul {K : UInt64 → UInt8} {F G H J : Facts} (hF : F.KindsIn K) (hG : G.KindsIn K)
    (hFH : F.Sheds H) (hGJ : G.Sheds J) : (F * G).Sheds (H * J) where
  xrefs := congrArg₂ (· ∪ ·) hFH.xrefs hGJ.xrefs
  syms := funext fun k => congrArg₂ (combine _) (congrFun hFH.syms k) (congrFun hGJ.syms k)
  files := funext fun k => congrArg₂ (combine _) (congrFun hFH.files k) (congrFun hGJ.files k)
  inherits := congrArg₂ (· ∪ ·) hFH.inherits hGJ.inherits
  calls := congrArg₂ (· ∪ ·) hFH.calls hGJ.calls
  typed := funext fun k => congrArg₂ (combine _) (congrFun hFH.typed k) (congrFun hGJ.typed k)
  childof := congrArg₂ (· ∪ ·) hFH.childof hGJ.childof
  sig := funext fun k => congrArg₂ (combine _) (congrFun hFH.sig k) (congrFun hGJ.sig k)
  sub := Set.union_subset_union hFH.sub hGJ.sub
  lost := by
    rintro r (hr | hr) hn
    · exact Facts.isVar_mul_left (hFH.lost r hr fun h => hn (Or.inl h))
    · exact Facts.isVar_mul_right hF hG (hGJ.lost r hr fun h => hn (Or.inr h))

theorem Facts.kindsIn_prod {K : UInt64 → UInt8} {Fs : List Facts} (h : ∀ F ∈ Fs, F.KindsIn K) :
    Fs.prod.KindsIn K := by
  induction Fs with
  | nil => exact Facts.kindsIn_one K
  | cons F Fs ih =>
    rw [List.prod_cons]
    exact (h F List.mem_cons_self).mul (ih fun G hG => h G (List.mem_cons_of_mem _ hG))

theorem Facts.sheds_prod {K : UInt64 → UInt8} {Fs Hs : List Facts} (h : List.Forall₂ Facts.Sheds Fs Hs)
    (hK : ∀ F ∈ Fs, F.KindsIn K) : Fs.prod.Sheds Hs.prod := by
  induction h with
  | nil => exact Facts.sheds_refl 1
  | cons hFH _ ih =>
    rw [List.prod_cons, List.prod_cons]
    have hK' := fun G hG => hK G (List.mem_cons_of_mem _ hG)
    exact hFH.mul (hK _ List.mem_cons_self) (Facts.kindsIn_prod hK') (ih hK')

/-! ## The streaming merge refines the in-memory merge -/

/-- Merging the files of some builders with a delta is finishing any builder that holds the facts of
them all. -/
theorem IndexBuilder.write_merged_of_facts {bs : List IndexBuilder} {d c : IndexBuilder}
    {files : List Bytes} {K : UInt64 → UInt8}
    (hfiles : List.Forall₂ (fun b f => b.finish = .ok f) bs files) (hshort : ∀ b ∈ bs, b.facts.Short)
    (hK : ∀ b ∈ bs ++ [d], b.facts.KindsIn K) (hc : c.facts = ((bs ++ [d]).map facts).prod) :
    ∃ ixs, files.mapM open_index = .ok ixs ∧ d.write_merged_snapshot ixs = c.finish := by
  have hrender : List.Forall₂ Facts.RendersTo (bs.map fun b => b.facts.visible) files :=
    List.forall₂_map_left_iff.mpr (hfiles.imp fun _ _ h => rendersTo_of_finish h)
  have hne : ∀ F ∈ bs.map fun b => b.facts.visible, F.Ne := by
    simp only [List.mem_map]
    rintro F ⟨b, -, rfl⟩
    exact b.facts_ne.visible
  obtain ⟨ixs, hopen, hholds⟩ := open_all hrender hne
  have hclamp : (bs.map fun b => b.facts.visible).map Facts.clamped = bs.map fun b => b.facts.visible := by
    rw [List.map_map]
    apply List.map_congr_left
    intro b hb
    exact Facts.clamped_of_short (hshort b hb).visible
  rw [hclamp] at hholds
  refine ⟨ixs, hopen, ?_⟩
  obtain ⟨t, ht⟩ := d.mergedRows_eq hholds hne
  rw [write_merged_snapshot_eq d hholds hne t, finish_eq]
  apply finishFile_congr
  -- Both sides are the product of all facts, the left one with aliases of variables shed early.
  have hall : List.Forall₂ Facts.Sheds ((bs ++ [d]).map facts)
      ((bs.map fun b => b.facts.visible) ++ [d.facts]) := by
    rw [List.map_append]
    refine List.rel_append ?_ (List.Forall₂.cons d.facts.sheds_refl List.Forall₂.nil)
    rw [List.forall₂_map_left_iff, List.forall₂_map_right_iff]
    exact List.forall₂_same.mpr fun b _ => b.facts.sheds_visible
  have hsheds := Facts.sheds_prod hall (by
    simp only [List.mem_map]
    rintro F ⟨b, hb, rfl⟩
    exact hK b hb)
  have hprod : ((bs.map fun b => b.facts.visible) ++ [d.facts]).prod =
      (bs.map fun b => b.facts.visible).prod * d.facts := by simp
  rw [← hprod, hsheds.visible_eq, hc]

/-- The file of one builder, merged with a delta. -/
theorem IndexBuilder.write_merged_of_file {b d : IndexBuilder} {f : Bytes} (hf : b.finish = .ok f) (hshort : b.Short)
    (hkinds : KindsAgree [b, d]) :
    ∃ ixs, [f].mapM open_index = .ok ixs ∧ d.write_merged_snapshot ixs = (b.merge_from d).finish := by
  obtain ⟨K, hK⟩ := hkinds.exists_kinds
  refine IndexBuilder.write_merged_of_facts (.cons hf .nil) (fun b' hb => ?_) hK ?_
  · rw [List.mem_singleton.mp hb]
    exact hshort.facts
  · rw [IndexBuilder.facts_merge_from]
    exact List.prod_pair.symm

/-- For short strings and agreeing kinds, merging the files of some builders with a delta is
finishing the one builder that holds them all. -/
theorem write_merged_eq_finish {bs : List IndexBuilder} {d : IndexBuilder} {files : List Bytes}
    (hfiles : List.Forall₂ (fun b f => b.finish = .ok f) bs files)
    (hshort : ∀ b ∈ bs ++ [d], b.Short) (hkinds : KindsAgree (bs ++ [d])) :
    ∃ ixs, files.mapM open_index = .ok ixs ∧
      d.write_merged_snapshot ixs = ((bs ++ [d]).foldl IndexBuilder.merge_from .new).finish := by
  obtain ⟨K, hK⟩ := hkinds.exists_kinds
  apply IndexBuilder.write_merged_of_facts hfiles _ hK
  · rw [IndexBuilder.facts_foldl_merge_from, IndexBuilder.facts_new, one_mul]
  · intro b hb
    exact (hshort b (List.mem_append_left _ hb)).facts

end

/-! A shard and a delta that share a symbol, an alias and a type. -/

section

attribute [local instance] asciiUnicode

def sampleShard : IndexBuilder :=
  ((((IndexBuilder.new.add_xref 7 Role.REF 0 12).upsert_sym 7 Kind.UNK Lang.CXX "kythe:c").upsert_file 0
    "a.cc").add_alias 7 "ns::f").add_type 7 "int"

def sampleDelta : IndexBuilder :=
  (((IndexBuilder.new.add_xref 7 Role.DEF 0 4).upsert_sym 7 Kind.FUNCTION Lang.CXX "ns::f").add_alias 7
    "ns::f").add_type 7 "char"

theorem write_merged_eq_finish_sample :
    ∃ f ixs, sampleShard.finish = .ok f ∧ [f].mapM open_index = .ok ixs ∧
      sampleDelta.write_merged_snapshot ixs =
        ([sampleShard, sampleDelta].foldl IndexBuilder.merge_from .new).finish := by
  have hf : sampleShard.finish = .ok sampleShard.finishRows.bytes :=
    (Rows.finishFile_eq _).trans (if_pos (by decide +kernel))
  obtain ⟨ixs, h⟩ := write_merged_eq_finish (d := sampleDelta) (List.Forall₂.cons hf List.Forall₂.nil)
    (by decide +kernel) (by decide +kernel)
  exact ⟨_, ixs, hf, h⟩

end

end Scry2
