import Scry2.MergeOrder
import Scry2.Provenance
import Scry2.Lib.Band

/-!
# Merging what is already merged

A run that is started again merges files whose rows are in another file already: a base that an older
version left, or shards that the last run promoted but did not remove. Such a file changes nothing.
-/

open Scry2.Lib

namespace Scry2

/-! ## A file counts once -/

theorem pickText_self (x : String) : pickText x x = x := by
  rw [pickText_eq, better, ite_self]

theorem pickText_pickText_left (x y : String) : pickText (pickText x y) x = pickText x y := by
  simp only [pickText_eq, better_better_left]

section

variable [Unicode]

theorem pickName_self (x : String) : pickName x x = x := by
  rw [pickName_eq, better, ite_self]

theorem pickName_pickName_left (x y : String) : pickName (pickName x y) x = pickName x y := by
  simp only [pickName_eq, better_better_left]

theorem SymMeta.refine_self (a : SymMeta) : a.refine a = a := by
  apply SymMeta.ext
  · exact ite_self _
  · exact ite_self _
  · exact pickName_self a.name

theorem SymMeta.refine_refine_left (a b : SymMeta) : (a.refine b).refine a = a.refine b := by
  have hcode : ∀ x y : UInt8, (if (if x = 0 then y else x) = 0 then x else if x = 0 then y else x) =
      if x = 0 then y else x := by
    intro x y
    by_cases hx : x = 0
    · subst hx
      by_cases hy : y = 0
      · rw [hy, if_pos rfl, if_pos rfl]
      · rw [if_pos rfl, if_neg hy]
    · rw [if_neg hx, if_neg hx]
  apply SymMeta.ext
  · exact hcode a.kind b.kind
  · exact hcode a.lang b.lang
  · exact pickName_pickName_left a.name b.name

omit [Unicode] in
theorem union_union_left {α : Type} (s t : Set α) : s ∪ t ∪ s = s ∪ t :=
  Set.union_eq_self_of_subset_right Set.subset_union_left

instance : LeftRegularBand Facts where
  mul_mul_left F G := by
    apply Facts.ext
    · exact union_union_left _ _
    · exact funext fun _ => combine_combine_left SymMeta.refine_self SymMeta.refine_refine_left _ _
    · exact funext fun _ => combine_combine_left (fun _ => rfl) (fun _ _ => rfl) _ _
    · exact union_union_left _ _
    · exact union_union_left _ _
    · exact union_union_left _ _
    · exact funext fun _ => combine_combine_left pickText_self pickText_pickText_left _ _
    · exact union_union_left _ _
    · exact funext fun _ => combine_combine_left pickText_self pickText_pickText_left _ _

/-! ## Merging files -/

/-- The result of a merge, by the facts of its files and of the delta. -/
theorem write_merged_of_fileHolds {files : List Bytes} {Fs : List Facts} (d : IndexBuilder)
    (h : List.Forall₂ FileHolds files Fs) :
    ∃ t : Tables (Fs.prod * d.facts).visible,
      (files.mapM open_index >>= d.write_merged_snapshot) = t.rows.finishFile := by
  obtain ⟨ixs, hopen, hix, hne⟩ := open_forall₂ h
  obtain ⟨t, -⟩ := d.mergedRows_eq hix hne
  exact ⟨t, by rw [hopen, Res.ok_bind, d.write_merged_snapshot_eq hix hne t]⟩

/-- Files whose facts come to the same, with the same delta, merge to the same bytes. -/
theorem write_merged_congr {files files' : List Bytes} {Fs Gs : List Facts} (d : IndexBuilder)
    (h : List.Forall₂ FileHolds files Fs) (h' : List.Forall₂ FileHolds files' Gs)
    (e : (Fs.prod * d.facts).visible = (Gs.prod * d.facts).visible) :
    (files.mapM open_index >>= d.write_merged_snapshot) =
      (files'.mapM open_index >>= d.write_merged_snapshot) := by
  obtain ⟨s, hs⟩ := write_merged_of_fileHolds d h
  obtain ⟨t, ht⟩ := write_merged_of_fileHolds d h'
  rw [hs, ht]
  exact finishFile_congr e s t

theorem Produced.fileHolds {f : Bytes} (h : Produced f) : ∃ F, FileHolds f F := by
  obtain ⟨F, hne, hF⟩ := h.renders
  exact ⟨F.clamped, hne.clamped, F.clamped_short, hF.open_holds hne⟩

theorem forall₂_produced {files : List Bytes} (h : ∀ f ∈ files, Produced f) :
    ∃ φ : Bytes → Facts, List.Forall₂ FileHolds files (files.map φ) := by
  classical
  refine ⟨fun f => if hf : ∃ F, FileHolds f F then hf.choose else 1, ?_⟩
  rw [List.forall₂_map_right_iff]
  refine List.forall₂_same.mpr fun f hf => ?_
  have hex := (h f hf).fileHolds
  rw [dif_pos hex]
  exact hex.choose_spec

/-- What a product sheds when it is written does not come back with factors that it has already. -/
theorem Facts.visible_mul_of_absorbs {F G : Facts} (h : AbsorbsRight F G) : (F.visible * G).visible = F.visible := by
  obtain ⟨hxrefs, hsyms, hfiles, hinherits, haliases, hcalls, htyped, hchildof, hsig⟩ := Facts.ext_iff.mp h
  have hvar : ∀ k, (F.visible * G).isVar k ↔ F.isVar k := fun k => by
    have e : (F.visible * G).syms = F.syms := hsyms
    unfold Facts.isVar
    rw [e]
  apply Facts.ext
  · exact hxrefs
  · exact hsyms
  · exact hfiles
  · exact hinherits
  · ext r
    constructor
    · rintro ⟨hr | hr, hn⟩
      · exact hr
      · exact ⟨haliases.subset (Or.inr hr), fun hv => hn ((hvar r.sym).mpr hv)⟩
    · exact fun hr => ⟨Or.inl hr, fun hv => hr.2 ((hvar r.sym).mp hv)⟩
  · exact hcalls
  · exact htyped
  · exact hchildof
  · exact hsig

/-- A merge takes each file once, where it first comes, and takes nothing from a file that its own
output has been merged from. -/
theorem merge_again {files : List Bytes} {d : IndexBuilder} {o : Bytes} (hfiles : ∀ f ∈ files, Produced f)
    (hd : d.Short) (h : (files.mapM open_index >>= d.write_merged_snapshot) = .ok o) :
    ((distinct files).mapM open_index >>= d.write_merged_snapshot) = .ok o ∧
      ∀ again ⊆ files, merge_group_global (o :: again) = .ok o := by
  obtain ⟨φ, hφ⟩ := forall₂_produced hfiles
  have hsub : ∀ {l : List Bytes}, l ⊆ files → List.Forall₂ FileHolds l (l.map φ) := by
    intro l hl
    rw [List.forall₂_map_right_iff] at hφ ⊢
    exact List.forall₂_same.mpr fun f hf => List.forall₂_same.mp hφ f (hl hf)
  constructor
  · rw [← h]
    apply write_merged_congr d (hsub fun f hf => mem_distinct.mp hf) hφ
    rw [prod_map_distinct]
  · intro again hagain
    generalize hP : (files.map φ).prod * d.facts = P
    have hshort : P.Short := by
      rw [← hP]
      refine (Facts.short_prod fun F hF => ?_).mul hd.facts
      obtain ⟨f, hf, rfl⟩ := List.mem_map.mp hF
      exact (List.forall₂_same.mp (List.forall₂_map_right_iff.mp hφ) f hf).short
    have habsorb : AbsorbsRight P (again.map φ).prod := by
      rw [← hP]
      refine (absorbs_prod_prod fun F hF => ?_).mul_right d.facts
      obtain ⟨f, hf, rfl⟩ := List.mem_map.mp hF
      exact List.mem_map_of_mem (hagain hf)
    obtain ⟨t, ht⟩ := write_merged_of_fileHolds d hφ
    obtain ⟨ixs, hopen, -⟩ := open_forall₂ hφ
    have ho := fileHolds_of_write_merged hφ hopen (by rwa [hopen] at h)
    rw [hP, Facts.written_of_short hshort] at ho
    obtain ⟨s, hs⟩ := write_merged_of_fileHolds .new (List.Forall₂.cons ho (hsub hagain))
    have hfacts : ((P.visible :: again.map φ).prod * IndexBuilder.new.facts).visible =
        ((files.map φ).prod * d.facts).visible := by
      rw [List.prod_cons, IndexBuilder.facts_new, mul_one, Facts.visible_mul_of_absorbs habsorb, hP]
    unfold merge_group_global
    rw [← h, ht]
    exact hs.trans (finishFile_congr hfacts s t)

end

/-! A file, a second one that knows more, and the first once more. -/

section

attribute [local instance] asciiUnicode

theorem merge_again_fieldSeen :
    ∃ f g out, varSeen.finish = .ok f ∧ fieldSeen.finish = .ok g ∧
      ([f, g, f].mapM open_index >>= IndexBuilder.new.write_merged_snapshot) = .ok out ∧
      ((distinct [f, g, f]).mapM open_index >>= IndexBuilder.new.write_merged_snapshot) = .ok out ∧
        ∀ again ⊆ [f, g, f], merge_group_global (out :: again) = .ok out := by
  have hfiles : List.Forall₂ (fun b f => b.finish = .ok f) [varSeen, fieldSeen, varSeen]
      [varSeen.finishRows.bytes, fieldSeen.finishRows.bytes, varSeen.finishRows.bytes] :=
    .cons varSeen_finish (.cons fieldSeen_finish (.cons varSeen_finish .nil))
  have hout := (merge_eq_finish_of_no_aliases hfiles (by decide)).trans
    ((Rows.finishFile_eq _).trans (if_pos (by decide +kernel)))
  refine ⟨_, _, _, varSeen_finish, fieldSeen_finish, hout, merge_again ?_ (by decide) hout⟩
  intro f hf
  simp only [List.mem_cons, List.not_mem_nil, or_false] at hf
  rcases hf with rfl | rfl | rfl
  · exact .finish varSeen_finish
  · exact .finish fieldSeen_finish
  · exact .finish varSeen_finish

end

end Scry2
