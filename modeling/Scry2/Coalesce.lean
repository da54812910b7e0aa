import Scry2.Remap

/-!
# A cached build is a clean build

Shards are cached under their own file ids, coalesced in chunks, and the chunks are merged in groups
until few files remain. Every file on the way is the file of the builders it stands for.
-/

open Scry2.Lib

namespace Scry2

/-! ## The seed -/

/-- `global_of` of a build: the rank of a path in the sorted seed. -/
def globalOf (seed : List String) (path : String) : Option UInt32 :=
  if path ∈ seed then some (UInt32.ofNat (seed.idxOf path)) else none

/-- File ids are ranks in the seed, and every xref lies in a file of the builder. -/
structure IndexBuilder.Ranked (seed : List String) (b : IndexBuilder) : Prop where
  files : ∀ (g : UInt32) (p : String), b.files[g]? = some p → seed[g.toNat]? = some p
  xrefs : ∀ r ∈ b.xrefs, ∃ p, b.files[r.file]? = some p

section

variable {seed : List String} {b : IndexBuilder}

theorem IndexBuilder.Ranked.globalOf_eq (h : b.Ranked seed) (hseed : seed.Nodup) {g : UInt32} {p : String}
    (hp : b.files[g]? = some p) : globalOf seed p = some g := by
  obtain ⟨hlt, rfl⟩ := List.getElem?_eq_some_iff.mp (h.files g p hp)
  unfold globalOf
  rw [if_pos (List.getElem_mem hlt), hseed.idxOf_getElem]
  simp

theorem IndexBuilder.Ranked.pathsDistinct (h : b.Ranked seed) (hseed : seed.Nodup) :
    b.PathsDistinct := by
  intro g g' p hp hp'
  exact Option.some.inj ((h.globalOf_eq hseed hp).symm.trans (h.globalOf_eq hseed hp'))

/-- The global ids of the files of a localized builder. -/
theorem IndexBuilder.Ranked.global_of_local (h : b.Ranked seed) (hseed : seed.Nodup) {i j : UInt32}
    {p : String} (hp : b.files[i]? = some p) (hj : b.g2l i = some j) :
    (b.localize_file_ids.1.files[j]?).bind (globalOf seed) = some i := by
  have := (b.localize_file_ids_files (h.pathsDistinct hseed) j p).mpr ⟨i, hj, hp⟩
  rw [this]
  exact h.globalOf_eq hseed hp

/-- The build's ids put back into a localized builder. -/
theorem IndexBuilder.Ranked.relabels_back (h : b.Ranked seed) (hseed : seed.Nodup) :
    b.localize_file_ids.1.facts.visible.Relabels
      (fun l => (b.localize_file_ids.1.files[l]?).bind (globalOf seed)) b.facts.visible := by
  apply Facts.Relabels.visible
  apply (b.relabels_localize_file_ids (h.pathsDistinct hseed) h.xrefs).symm
  · intro i j p hp hj
    exact h.global_of_local hseed hp hj
  · intro i p hp
    exact ⟨b.local_of p, Option.map_eq_some_iff.mpr ⟨p, hp, rfl⟩⟩
  · exact h.xrefs

theorem IndexBuilder.Short.localized (h : b.Short) (hinj : b.PathsDistinct) :
    b.localize_file_ids.1.Short where
  names := h.names
  paths l p hp := by
    obtain ⟨g, -, hg⟩ := (b.localize_file_ids_files hinj l p).mp hp
    exact h.paths g p hg
  aliases := h.aliases
  typed := h.typed
  sig := h.sig

end

/-! ## Runs of a list -/

theorem flatten_toChunks_go {α : Type} (n : Nat) (xs : List α) (acc : Array α) (out : Array (List α)) :
    (List.toChunks.go n xs acc out).flatten = out.toList.flatten ++ acc.toList ++ xs := by
  induction xs generalizing acc out with
  | nil => simp [List.toChunks.go]
  | cons x xs ih =>
    unfold List.toChunks.go
    split_ifs
    · rw [ih]
      simp
    · rw [ih]
      simp

theorem flatten_toChunks {α : Type} (n : Nat) (xs : List α) : (xs.toChunks n).flatten = xs := by
  unfold List.toChunks
  split
  · rfl
  · simp
  · rw [flatten_toChunks_go]
    simp

theorem forall₂_flatten {α β : Type} {R : α → β → Prop} {l : List α} {groups : List (List β)}
    (h : List.Forall₂ R l groups.flatten) :
    ∃ parts : List (List α), parts.flatten = l ∧ List.Forall₂ (List.Forall₂ R) parts groups := by
  induction groups generalizing l with
  | nil =>
    cases h
    exact ⟨[], rfl, List.Forall₂.nil⟩
  | cons g groups ih =>
    rw [List.flatten_cons] at h
    obtain ⟨parts, hflat, hparts⟩ := ih (List.forall₂_drop_append _ _ _ h)
    refine ⟨l.take g.length :: parts, ?_, .cons (List.forall₂_take_append _ _ _ h) hparts⟩
    rw [List.flatten_cons, hflat, List.take_append_drop]

theorem forall₂_trans {α β γ : Type} {R : α → β → Prop} {S : β → γ → Prop} {T : α → γ → Prop}
    {as : List α} {bs : List β} {cs : List γ} (hT : ∀ a ∈ as, ∀ b c, R a b → S b c → T a c)
    (h : List.Forall₂ R as bs) (h' : List.Forall₂ S bs cs) : List.Forall₂ T as cs := by
  induction h generalizing cs with
  | nil => cases h'; exact .nil
  | cons hab _ ih =>
    cases h' with
    | cons hbc hrest =>
      exact .cons (hT _ List.mem_cons_self _ _ hab hbc)
        (ih (fun a ha => hT a (List.mem_cons_of_mem _ ha)) hrest)

section

variable [Unicode]

/-- The one builder that holds all of them. -/
def mergedBuilder (bs : List IndexBuilder) : IndexBuilder := bs.foldl IndexBuilder.merge_from .new

theorem mergedBuilder_facts (bs : List IndexBuilder) :
    (mergedBuilder bs).facts = (bs.map IndexBuilder.facts).prod := by
  unfold mergedBuilder
  rw [IndexBuilder.facts_foldl_merge_from, IndexBuilder.facts_new, one_mul]

/-! ## Coalescing one chunk -/

theorem foldlM_populate {seed : List String} (hseed : seed.Nodup) {bs : List IndexBuilder}
    {shards : List Bytes}
    (hshards : List.Forall₂ (fun b f => b.localize_file_ids.1.finish = .ok f) bs shards)
    (hranked : ∀ b ∈ bs, b.Ranked seed) (hshort : ∀ b ∈ bs, b.Short) (d : IndexBuilder) :
    ∃ d', shards.foldlM (fun (delta : IndexBuilder) shard => do
        delta.populate_from_shard_remapped (← open_index shard) (globalOf seed)) d = .ok d' ∧
      d'.facts = d.facts * (bs.map fun b => b.facts.visible).prod := by
  induction hshards generalizing d with
  | nil => exact ⟨d, rfl, by simp⟩
  | @cons b f bs shards hb _ ih =>
    have hr := hranked b List.mem_cons_self
    have hlocal := ((hshort b List.mem_cons_self).localized (hr.pathsDistinct hseed)).facts.visible
    have hne := b.localize_file_ids.1.facts_ne.visible
    obtain ⟨ix, hopen, hix⟩ := (IndexBuilder.rendersTo_of_finish hb).open_holds hne
    rw [Facts.clamped_of_short hlocal] at hix
    obtain ⟨d₁, h₁, hf₁⟩ := d.populate_from_shard_remapped_facts hix hne (hr.relabels_back hseed)
    obtain ⟨d', h', hf'⟩ := ih (fun c hc => hranked c (List.mem_cons_of_mem _ hc))
      (fun c hc => hshort c (List.mem_cons_of_mem _ hc)) d₁
    refine ⟨d', ?_, ?_⟩
    · rw [List.foldlM_cons, hopen, Res.ok_bind, h₁, Res.ok_bind]
      exact h'
    · rw [hf', hf₁, List.map_cons, List.prod_cons, mul_assoc]

/-- The shards of some builders coalesce to the file of the builder that holds them all. -/
theorem coalesce_shards_remapped_eq {seed : List String} (hseed : seed.Nodup) {bs : List IndexBuilder}
    {shards : List Bytes} {K : UInt64 → UInt8}
    (hshards : List.Forall₂ (fun b f => b.localize_file_ids.1.finish = .ok f) bs shards)
    (hranked : ∀ b ∈ bs, b.Ranked seed) (hshort : ∀ b ∈ bs, b.Short)
    (hK : ∀ b ∈ bs, b.facts.KindsIn K) :
    coalesce_shards_remapped shards (globalOf seed) = (mergedBuilder bs).finish := by
  obtain ⟨d, hd, hfacts⟩ := foldlM_populate hseed hshards hranked hshort .new
  unfold coalesce_shards_remapped
  rw [hd, Res.ok_bind]
  obtain ⟨t, -⟩ := d.mergedRows_eq List.Forall₂.nil (by simp)
  rw [d.write_merged_snapshot_eq List.Forall₂.nil (by simp) t, IndexBuilder.finish_eq]
  apply finishFile_congr
  rw [List.prod_nil, one_mul, hfacts, IndexBuilder.facts_new, one_mul, mergedBuilder_facts]
  apply Facts.Sheds.visible_eq
  refine Facts.sheds_prod ?_ (K := K) ?_
  · rw [List.forall₂_map_left_iff, List.forall₂_map_right_iff]
    exact List.forall₂_same.mpr fun b _ => b.facts.sheds_visible
  · simp only [List.mem_map]
    rintro F ⟨b, hb, rfl⟩
    exact hK b hb

/-! ## Merging groups -/

/-- `f` is the file of the builder that holds all of `part`. -/
def Stands (part : List IndexBuilder) (f : Bytes) : Prop := (mergedBuilder part).finish = .ok f

theorem write_merged_of_stands {K : UInt64 → UInt8} {parts : List (List IndexBuilder)}
    {files : List Bytes} (h : List.Forall₂ Stands parts files)
    (hshort : ∀ b ∈ parts.flatten, b.Short) (hK : ∀ b ∈ parts.flatten, b.facts.KindsIn K) :
    ∃ ixs, files.mapM open_index = .ok ixs ∧
      IndexBuilder.new.write_merged_snapshot ixs = (mergedBuilder parts.flatten).finish := by
  have hof : ∀ part ∈ parts, ∀ b ∈ part, b ∈ parts.flatten := fun part hp b hb =>
    List.mem_flatten.mpr ⟨part, hp, hb⟩
  have hfiles : List.Forall₂ (fun b f => b.finish = .ok f) (parts.map mergedBuilder) files :=
    List.forall₂_map_left_iff.mpr h
  apply IndexBuilder.write_merged_of_facts hfiles (K := K)
  · simp only [List.mem_map]
    rintro b ⟨part, hp, rfl⟩
    rw [mergedBuilder_facts]
    apply Facts.short_prod
    simp only [List.mem_map]
    rintro F ⟨c, hc, rfl⟩
    exact (hshort c (hof part hp c hc)).facts
  · simp only [List.mem_append, List.mem_map, List.mem_singleton]
    rintro b (⟨part, hp, rfl⟩ | rfl)
    · rw [mergedBuilder_facts]
      apply Facts.kindsIn_prod
      simp only [List.mem_map]
      rintro F ⟨c, hc, rfl⟩
      exact hK c (hof part hp c hc)
    · rw [IndexBuilder.facts_new]
      exact Facts.kindsIn_one K
  · have hmap : (parts.map mergedBuilder).map IndexBuilder.facts =
        (parts.map (List.map IndexBuilder.facts)).map List.prod := by
      simp only [List.map_map]
      exact List.map_congr_left fun part _ => mergedBuilder_facts part
    rw [mergedBuilder_facts, List.map_append, List.prod_append, hmap, ← List.prod_flatten,
      ← List.map_flatten]
    simp [IndexBuilder.facts_new]

/-- Files regrouped by any number of `merge_group_global` levels of any fan-in. -/
inductive Regrouped : List Bytes → List Bytes → Prop
  | refl (files : List Bytes) : Regrouped files files
  | level {groups : List (List Bytes)} {next rest : List Bytes}
      (hmerge : List.Forall₂ (fun g f => merge_group_global g = .ok f) groups next)
      (hrest : Regrouped next rest) : Regrouped groups.flatten rest

theorem stands_level {K : UInt64 → UInt8} {parts : List (List IndexBuilder)}
    {groups : List (List Bytes)} {next : List Bytes}
    (hshort : ∀ b ∈ parts.flatten, b.Short) (hK : ∀ b ∈ parts.flatten, b.facts.KindsIn K)
    (h : List.Forall₂ Stands parts groups.flatten)
    (hmerge : List.Forall₂ (fun g f => merge_group_global g = .ok f) groups next) :
    ∃ parts' : List (List IndexBuilder), parts'.flatten = parts.flatten ∧
      List.Forall₂ Stands parts' next := by
  obtain ⟨pss, rfl, hpss⟩ := forall₂_flatten h
  refine ⟨pss.map List.flatten, List.flatten_flatten.symm, List.forall₂_map_left_iff.mpr ?_⟩
  have hmem : ∀ ps ∈ pss, ∀ b ∈ ps.flatten, b ∈ pss.flatten.flatten := by
    intro ps hps b hb
    obtain ⟨p, hp, hbp⟩ := List.mem_flatten.mp hb
    exact List.mem_flatten.mpr ⟨p, List.mem_flatten.mpr ⟨ps, hps, hp⟩, hbp⟩
  refine forall₂_trans ?_ hpss hmerge
  intro ps hps g f hg hf
  obtain ⟨ixs, hopen, heq⟩ := write_merged_of_stands hg (fun b hb => hshort b (hmem ps hps b hb))
    fun b hb => hK b (hmem ps hps b hb)
  unfold merge_group_global at hf
  rw [hopen, Res.ok_bind] at hf
  exact heq.symm.trans hf

theorem stands_regrouped {K : UInt64 → UInt8} {files rest : List Bytes} (h : Regrouped files rest)
    {parts : List (List IndexBuilder)} (hshort : ∀ b ∈ parts.flatten, b.Short)
    (hK : ∀ b ∈ parts.flatten, b.facts.KindsIn K) (hparts : List.Forall₂ Stands parts files) :
    ∃ parts' : List (List IndexBuilder), parts'.flatten = parts.flatten ∧
      List.Forall₂ Stands parts' rest := by
  induction h generalizing parts with
  | refl files => exact ⟨parts, rfl, hparts⟩
  | level hmerge _ ih =>
    obtain ⟨parts', hflat, hnext⟩ := stands_level hshort hK hparts hmerge
    obtain ⟨parts'', hflat', hrest⟩ := ih (hflat ▸ hshort) (hflat ▸ hK) hnext
    exact ⟨parts'', hflat'.trans hflat, hrest⟩

/-! ## The whole build -/

/-- However the cached shards are chunked and regrouped, the output is the file of a clean build. -/
theorem cached_build_eq_clean_build {seed : List String} {bs : List IndexBuilder}
    {shards level1 rest : List Bytes} {chunks : List (List Bytes)}
    (hseed : seed.Pairwise fun p q => as_bytes p < as_bytes q) (hranked : ∀ b ∈ bs, b.Ranked seed)
    (hshort : ∀ b ∈ bs, b.Short) (hkinds : KindsAgree bs)
    (hshards : List.Forall₂ (fun b f => b.localize_file_ids.1.finish = .ok f) bs shards)
    (hchunks : chunks.flatten = shards)
    (hlevel1 : List.Forall₂ (fun c f => coalesce_shards_remapped c (globalOf seed) = .ok f) chunks level1)
    (hrest : Regrouped level1 rest) :
    ∃ ixs, rest.mapM open_index = .ok ixs ∧
      IndexBuilder.new.write_merged_snapshot ixs = (bs.foldl IndexBuilder.merge_from .new).finish := by
  obtain ⟨K, hK⟩ := hkinds.exists_kinds
  have hnodup : seed.Nodup := hseed.imp fun h e => h.ne (congrArg as_bytes e)
  subst hchunks
  obtain ⟨parts, rfl, hparts⟩ := forall₂_flatten hshards
  have hof : ∀ part ∈ parts, ∀ b ∈ part, b ∈ parts.flatten := fun part hp b hb =>
    List.mem_flatten.mpr ⟨part, hp, hb⟩
  have hstand : List.Forall₂ Stands parts level1 := by
    refine forall₂_trans ?_ hparts hlevel1
    intro part hp c f hc hf
    rw [coalesce_shards_remapped_eq hnodup hc (fun b hb => hranked b (hof part hp b hb))
      (fun b hb => hshort b (hof part hp b hb)) fun b hb => hK b (hof part hp b hb)] at hf
    exact hf
  obtain ⟨parts', hflat, hrest'⟩ := stands_regrouped hrest hshort hK hstand
  have := write_merged_of_stands hrest' (hflat ▸ hshort) (hflat ▸ hK)
  rwa [hflat] at this

end

/-! Two units that share a symbol and a file, in a chunk each, then merged in one group. -/

section

attribute [local instance] asciiUnicode

def refUnit : IndexBuilder :=
  ((((IndexBuilder.new.add_xref 7 Role.REF 1 12).upsert_sym 7 Kind.UNK Lang.CXX "kythe:c").upsert_file 1
    "b.cc").add_alias 7 "ns::f").add_type 7 "int"

def defUnit : IndexBuilder :=
  (((((IndexBuilder.new.add_xref 7 Role.DEF 0 4).upsert_sym 7 Kind.FUNCTION Lang.CXX "ns::f").add_alias 7
    "ns::f").add_type 7 "char").upsert_file 0 "a.cc").upsert_file 1 "b.cc"

theorem units_ranked : ∀ b ∈ [refUnit, defUnit], b.Ranked ["a.cc", "b.cc"] := by
  have hfiles : ∀ b ∈ [refUnit, defUnit], ∀ e ∈ b.files.toList, ["a.cc", "b.cc"][e.1.toNat]? = some e.2 := by
    decide +kernel
  have hxrefs : ∀ b ∈ [refUnit, defUnit], ∀ r ∈ b.xrefs, b.files[r.file]?.isSome := by decide +kernel
  intro b hb
  refine ⟨fun g p hp => hfiles b hb (g, p) (((tabulates_toList _).2 g p).mpr hp), fun r hr => ?_⟩
  exact Option.isSome_iff_exists.mp (hxrefs b hb r hr)

theorem cached_build_eq_clean_build_units :
    ∃ f g f' g' out ixs, refUnit.localize_file_ids.1.finish = .ok f ∧
      defUnit.localize_file_ids.1.finish = .ok g ∧
      coalesce_shards_remapped [f] (globalOf ["a.cc", "b.cc"]) = .ok f' ∧
      coalesce_shards_remapped [g] (globalOf ["a.cc", "b.cc"]) = .ok g' ∧
      merge_group_global [f', g'] = .ok out ∧ [out].mapM open_index = .ok ixs ∧
      IndexBuilder.new.write_merged_snapshot ixs =
        ([refUnit, defUnit].foldl IndexBuilder.merge_from .new).finish := by
  have hr := units_ranked
  have hs : ∀ b ∈ [refUnit, defUnit], b.Short := by decide +kernel
  have hk : KindsAgree [refUnit, defUnit] := by decide +kernel
  have hseed : ["a.cc", "b.cc"].Pairwise fun p q => as_bytes p < as_bytes q := by decide +kernel
  have hnodup : ["a.cc", "b.cc"].Nodup := by decide
  obtain ⟨K, hK⟩ := hk.exists_kinds
  have hf : refUnit.localize_file_ids.1.finish = .ok refUnit.localize_file_ids.1.finishRows.bytes :=
    (Rows.finishFile_eq _).trans (if_pos (by decide +kernel))
  have hg : defUnit.localize_file_ids.1.finish = .ok defUnit.localize_file_ids.1.finishRows.bytes :=
    (Rows.finishFile_eq _).trans (if_pos (by decide +kernel))
  have one : ∀ b ∈ [refUnit, defUnit], ∀ c ∈ [b], c ∈ [refUnit, defUnit] := by simp
  have hf' := (coalesce_shards_remapped_eq hnodup (.cons hf .nil)
    (fun c hc => hr c (one _ (by simp) c hc)) (fun c hc => hs c (one _ (by simp) c hc))
    fun c hc => hK c (one _ (by simp) c hc)).trans
      ((Rows.finishFile_eq _).trans (if_pos (by decide +kernel)))
  have hg' := (coalesce_shards_remapped_eq hnodup (.cons hg .nil)
    (fun c hc => hr c (one _ (by simp) c hc)) (fun c hc => hs c (one _ (by simp) c hc))
    fun c hc => hK c (one _ (by simp) c hc)).trans
      ((Rows.finishFile_eq _).trans (if_pos (by decide +kernel)))
  have hstand : List.Forall₂ Stands [[refUnit], [defUnit]]
      [(mergedBuilder [refUnit]).finishRows.bytes, (mergedBuilder [defUnit]).finishRows.bytes] :=
    .cons ((Rows.finishFile_eq _).trans (if_pos (by decide +kernel)))
      (.cons ((Rows.finishFile_eq _).trans (if_pos (by decide +kernel))) .nil)
  obtain ⟨ixs₀, hopen₀, hmerge₀⟩ := write_merged_of_stands hstand hs hK
  have hout : merge_group_global
      [(mergedBuilder [refUnit]).finishRows.bytes, (mergedBuilder [defUnit]).finishRows.bytes] =
      .ok (mergedBuilder [refUnit, defUnit]).finishRows.bytes := by
    unfold merge_group_global
    rw [hopen₀, Res.ok_bind, hmerge₀]
    exact (Rows.finishFile_eq _).trans (if_pos (by decide +kernel))
  have hchunks : List.Forall₂ (fun c f => coalesce_shards_remapped c (globalOf ["a.cc", "b.cc"]) = .ok f)
      [[refUnit.localize_file_ids.1.finishRows.bytes], [defUnit.localize_file_ids.1.finishRows.bytes]]
      [(mergedBuilder [refUnit]).finishRows.bytes, (mergedBuilder [defUnit]).finishRows.bytes] :=
    .cons hf' (.cons hg' .nil)
  obtain ⟨ixs, hopen, heq⟩ := cached_build_eq_clean_build hseed hr hs hk (.cons hf (.cons hg .nil)) rfl
    hchunks (Regrouped.level (.cons hout .nil) (.refl _))
  exact ⟨_, _, _, _, _, ixs, hf, hg, hf', hg', hout, hopen, heq⟩

end

end Scry2
