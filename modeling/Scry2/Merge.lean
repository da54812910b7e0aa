import Scry2.ReadBack

/-!
# `write_merged_snapshot` writes the product of facts

The rows that the streaming merge computes are the tables of the product of the sources' facts, in
order, and of the delta's.
-/

open Scry2.Lib

namespace Scry2

/-! ## Folding the sources -/

theorem mapM_streams {α : Type} {iter : Index → Res (List α)} {P : List α → Facts → Prop}
    {sources : List Index} {Fs : List Facts}
    (h : List.Forall₂ (fun ix F => ∃ l, iter ix = .ok l ∧ P l F) sources Fs) :
    ∃ streams, sources.mapM iter = .ok streams ∧ List.Forall₂ P streams Fs := by
  induction h with
  | nil => exact ⟨[], rfl, List.Forall₂.nil⟩
  | cons hs _ ih =>
    obtain ⟨l, e, hl⟩ := hs
    obtain ⟨streams, es, hss⟩ := ih
    exact ⟨l :: streams, by rw [List.mapM_cons, e, es]; rfl, List.Forall₂.cons hl hss⟩

theorem deltaTexts_tabulates {rows : List StrRow} (hne : ∀ r ∈ rows, r.text ≠ "") :
    Tabulates (deltaTexts rows) (bestText rows) := by
  have h := onePerSym_tabulates hne
  have e : deltaTexts rows =
      (dedup_by_key StrRow.sym none (sortDedup rows)).map fun r => (r.sym, r.text) :=
    (h.1.imp fun hlt => le_of_lt hlt).insertionSort_eq
  rwa [e]

theorem filter_ne_empty {l : List (UInt64 × String)} {f : UInt64 → Option String} (h : Tabulates l f)
    (hne : ∀ k t, f k = some t → t ≠ "") : l.filter (fun e => e.2 ≠ "") = l := by
  rw [List.filter_eq_self]
  rintro ⟨k, t⟩ hm
  simpa using hne k t ((h.2 k t).mp hm)

variable [Unicode]

/-- A fold of streams represents the product of what the streams represent. -/
theorem fold_sources_spec {α : Type} (P : List α → Facts → Prop) (merge : List α → List α → List α)
    (hone : P [] 1) (hmerge : ∀ l m F G, P l F → P m G → P (merge l m) (F * G))
    {streams : List (List α)} {Fs : List Facts} (h : List.Forall₂ P streams Fs) :
    P (fold_sources streams merge) Fs.prod := by
  have key : ∀ acc G, P acc G → P (streams.foldl merge acc) (G * Fs.prod) := by
    induction h with
    | nil => intro acc G hacc; simpa using hacc
    | cons hs _ ih =>
      intro acc G hacc
      rw [List.foldl_cons, List.prod_cons, ← mul_assoc]
      exact ih _ _ (hmerge _ _ _ _ hacc hs)
  simpa [fold_sources] using key [] 1 hone

theorem mem_flatten_aliases {lists : List (List StrRow)} {Fs : List Facts}
    (h : List.Forall₂ (fun l F => ∀ r, r ∈ l ↔ r ∈ F.aliases) lists Fs) (r : StrRow) :
    r ∈ lists.flatten ↔ r ∈ Fs.prod.aliases := by
  induction h with
  | nil => simp only [List.flatten_nil, List.not_mem_nil, List.prod_nil, false_iff]; exact fun h => h
  | cons hl _ ih =>
    rw [List.flatten_cons, List.mem_append, hl, ih, List.prod_cons]
    rfl

/-! ## The facts of a merge -/

theorem Facts.Ne.mul {F G : Facts} (hF : F.Ne) (hG : G.Ne) : (F * G).Ne where
  aliases r hr := hr.elim (hF.aliases r) (hG.aliases r)
  typed k := Facts.combine_ind (fun a b ha hb => by
    rw [pickText_eq]; rcases better_mem textRank a b with e | e <;> rwa [e]) (hF.typed k) (hG.typed k)
  sig k := Facts.combine_ind (fun a b ha hb => by
    rw [pickText_eq]; rcases better_mem textRank a b with e | e <;> rwa [e]) (hF.sig k) (hG.sig k)

theorem Facts.ne_prod {Fs : List Facts} (h : ∀ F ∈ Fs, F.Ne) : Fs.prod.Ne := by
  induction Fs with
  | nil =>
    have h1 := IndexBuilder.new.facts_ne
    rwa [IndexBuilder.facts_new] at h1
  | cons F Fs ih =>
    rw [List.prod_cons]
    exact (h F List.mem_cons_self).mul (ih fun G hG => h G (List.mem_cons_of_mem _ hG))

section

variable {sources : List Index} {Fs : List Facts}

theorem IndexBuilder.mergedRows_eq (b : IndexBuilder) (h : List.Forall₂ Index.Holds sources Fs)
    (hne : ∀ F ∈ Fs, F.Ne) :
    ∃ t : Tables (Fs.prod * b.facts).visible, b.mergedRows sources = .ok t.rows := by
  obtain ⟨aliases, ea, ha⟩ := mapM_streams (h.imp fun _ _ hx => hx.aliases)
  obtain ⟨symss, es, hs⟩ := mapM_streams (h.imp fun _ _ hx => hx.syms)
  obtain ⟨filess, ef, hf⟩ := mapM_streams (h.imp fun _ _ hx => hx.files)
  obtain ⟨typeds, et, ht⟩ := mapM_streams (h.imp fun _ _ hx => hx.typed)
  obtain ⟨sigs, eg, hg⟩ := mapM_streams (h.imp fun _ _ hx => hx.sig)
  have hxrefs := fold_sources_spec (fun l F => Enumerates l F.xrefs) merge_sorted_dedup Enumerates.nil
    (fun _ _ _ _ h1 h2 => h1.merge h2) (List.forall₂_map_left_iff.mpr (h.imp fun _ _ hx => hx.xrefs))
  have hinh := fold_sources_spec (fun l F => Enumerates l F.inherits) merge_sorted_dedup Enumerates.nil
    (fun _ _ _ _ h1 h2 => h1.merge h2) (List.forall₂_map_left_iff.mpr (h.imp fun _ _ hx => hx.inherits))
  have hcalls := fold_sources_spec (fun l F => Enumerates l F.calls) merge_sorted_dedup Enumerates.nil
    (fun _ _ _ _ h1 h2 => h1.merge h2) (List.forall₂_map_left_iff.mpr (h.imp fun _ _ hx => hx.calls))
  have hchild := fold_sources_spec (fun l F => Enumerates l F.childof) merge_sorted_dedup Enumerates.nil
    (fun _ _ _ _ h1 h2 => h1.merge h2) (List.forall₂_map_left_iff.mpr (h.imp fun _ _ hx => hx.childof))
  have hsyms := fold_sources_spec (fun l F => Tabulates l F.syms) merge_syms_refine Tabulates.nil
    (fun _ _ _ _ h1 h2 => h1.merge SymMeta.refine h2) hs
  have hfiles := fold_sources_spec (fun l F => Tabulates l F.files) merge_files_first_wins Tabulates.nil
    (fun _ _ _ _ h1 h2 => h1.merge (fun p _ => p) h2) hf
  have htyped := fold_sources_spec (fun l F => Tabulates l F.typed) merge_typed_by_sym Tabulates.nil
    (fun _ _ _ _ h1 h2 => h1.merge pickText h2) ht
  have hsig := fold_sources_spec (fun l F => Tabulates l F.sig) merge_typed_by_sym Tabulates.nil
    (fun _ _ _ _ h1 h2 => h1.merge pickText h2) hg
  have hFne := (Facts.ne_prod hne).mul b.facts_ne
  have htyped' : Tabulates (merge_typed_by_sym (fold_sources typeds merge_typed_by_sym)
      (deltaTexts b.typed)) (Fs.prod * b.facts).typed :=
    htyped.merge pickText (deltaTexts_tabulates b.typed_ne)
  have hsig' : Tabulates (merge_typed_by_sym (fold_sources sigs merge_typed_by_sym)
      (deltaTexts b.sig)) (Fs.prod * b.facts).sig :=
    hsig.merge pickText (deltaTexts_tabulates b.sig_ne)
  have hsyms' : Tabulates (merge_syms_refine (fold_sources symss merge_syms_refine) b.syms.toList)
      (Fs.prod * b.facts).syms := hsyms.merge SymMeta.refine (tabulates_toList b.syms)
  have haliases : Enumerates (merge_aliases_dedup (sortDedup aliases.flatten) (sortDedup b.aliases))
      (Fs.prod * b.facts).aliases := by
    have e := (sortDedup_enumerates aliases.flatten).merge (sortDedup_enumerates b.aliases)
    refine ⟨e.1, fun r => (e.2 r).trans ?_⟩
    rw [Set.mem_union, Set.mem_ofPred_eq, mem_flatten_aliases ha]
    rfl
  let t : Tables (Fs.prod * b.facts).visible :=
    { xrefs := _, syms := _, aliases := _, files := _, inh := _, calls := _, typed := _, childrev := _
      sig := _
      xrefs_of := hxrefs.merge (sortDedup_enumerates b.xrefs)
      syms_of := hsyms'
      aliases_of := by
        refine ⟨haliases.1.filter fun r => decide (r.sym ∉ varSyms
          (merge_syms_refine (fold_sources symss merge_syms_refine) b.syms.toList)), fun r => ?_⟩
        rw [List.mem_filter, haliases.2, decide_eq_true_eq, mem_varSyms hsyms']
        rfl
      files_of := hfiles.merge (fun p _ => p) (tabulates_toList b.files)
      inh_of := hinh.merge (sortDedup_enumerates b.inherits)
      calls_of := hcalls.merge (sortDedup_enumerates b.calls)
      typed_of := htyped'
      childrev_of := hchild.merge (sortDedup_enumerates b.childof)
      sig_of := hsig' }
  refine ⟨t, ?_⟩
  have etyped := filter_ne_empty htyped' hFne.typed
  have esig := filter_ne_empty hsig' hFne.sig
  rw [IndexBuilder.mergedRows, ea, es, ef, et, eg]
  simp only [bind, Except.bind, pure, Except.pure, pushStrs_blob, List.nil_append, etyped, esig]
  rw [t.rows_streamed]
  rfl

/-- The merge renders the product of the sources' facts and the delta's. -/
theorem IndexBuilder.write_merged_snapshot_eq (b : IndexBuilder)
    (h : List.Forall₂ Index.Holds sources Fs) (hne : ∀ F ∈ Fs, F.Ne)
    (t : Tables (Fs.prod * b.facts).visible) :
    b.write_merged_snapshot sources = t.rows.finishFile := by
  obtain ⟨t', ht'⟩ := b.mergedRows_eq h hne
  rw [IndexBuilder.write_merged_snapshot, ht', Subsingleton.elim t t', Res.ok_bind]
  exact Rows.mergedFile_eq t'.rows_ok

end

end Scry2
