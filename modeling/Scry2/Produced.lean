import Scry2.Merge

/-!
# The files the writers produce

Every file that comes out of `finish`, or of merging such files any number of times, is the file of
some facts.
-/

open Scry2.Lib

namespace Scry2

/-! ## Files of facts -/

/-- `f` is the file of the facts `F`. -/
def Facts.RendersTo (F : Facts) (f : Bytes) : Prop := ∃ t : Tables F, t.rows.finishFile = .ok f

theorem IndexBuilder.rendersTo_of_finish {b : IndexBuilder} {f : Bytes} (h : b.finish = .ok f) :
    b.facts.visible.RendersTo f := ⟨b.tables, b.finish_eq ▸ h⟩

/-- A builder that fits writes its rows, and the file opens on them. -/
theorem IndexBuilder.opens (b : IndexBuilder) (h : b.finishRows.total < 2 ^ 63) :
    b.finish = .ok b.finishRows.bytes ∧
      ∃ ix, open_index b.finishRows.bytes = .ok ix ∧ ix.Lays b.finishRows := by
  have hf : b.finish = .ok b.finishRows.bytes := (Rows.finishFile_eq _).trans (if_pos h)
  obtain ⟨-, ix, hopen, hix⟩ := b.tables.open_file (b.finish_eq ▸ hf)
  rw [← b.finishRows_eq] at hix
  exact ⟨hf, ix, hopen, hix⟩

/-- A file opens and holds its facts. -/
theorem Facts.RendersTo.open_holds {F : Facts} {f : Bytes} (h : F.RendersTo f) (hne : F.Ne) :
    ∃ ix, open_index f = .ok ix ∧ ix.Holds F.clamped := by
  obtain ⟨t, ht⟩ := h
  obtain ⟨htot, ix, hopen, hlays⟩ := t.open_file ht
  exact ⟨ix, hopen, hlays.holds htot hne⟩

theorem open_all {Fs : List Facts} {files : List Bytes} (h : List.Forall₂ Facts.RendersTo Fs files)
    (hne : ∀ F ∈ Fs, F.Ne) :
    ∃ ixs, files.mapM open_index = .ok ixs ∧ List.Forall₂ Index.Holds ixs (Fs.map Facts.clamped) := by
  induction h with
  | nil => exact ⟨[], rfl, List.Forall₂.nil⟩
  | cons hF _ ih =>
    obtain ⟨ix, e, hix⟩ := hF.open_holds (hne _ List.mem_cons_self)
    obtain ⟨ixs, es, hixs⟩ := ih fun G hG => hne G (List.mem_cons_of_mem _ hG)
    exact ⟨ix :: ixs, by rw [List.mapM_cons, e, es]; rfl, List.Forall₂.cons hix hixs⟩

/-- A file determines the facts it was rendered from, up to the length of strings. -/
theorem Facts.RendersTo.unique {F G : Facts} {f : Bytes} (hF : F.RendersTo f) (hG : G.RendersTo f)
    (hFne : F.Ne) (hGne : G.Ne) : F.clamped = G.clamped := by
  obtain ⟨ix, hopen, hix⟩ := hF.open_holds hFne
  obtain ⟨ix', hopen', hix'⟩ := hG.open_holds hGne
  cases hopen.symm.trans hopen'
  exact hix.unique hix'

/-- The same facts give the same result, whichever tables they come in. -/
theorem finishFile_congr {F G : Facts} (h : F = G) (s : Tables F) (t : Tables G) :
    s.rows.finishFile = t.rows.finishFile := by
  subst h
  rw [Subsingleton.elim s t]

theorem exists_facts_of_forall {files : List Bytes} (h : ∀ g ∈ files, ∃ F : Facts, F.Ne ∧ F.RendersTo g) :
    ∃ Fs : List Facts, (∀ F ∈ Fs, F.Ne) ∧ List.Forall₂ Facts.RendersTo Fs files := by
  induction files with
  | nil => exact ⟨[], by simp, List.Forall₂.nil⟩
  | cons g files ih =>
    obtain ⟨F, hne, hF⟩ := h g List.mem_cons_self
    obtain ⟨Fs, hnes, hFs⟩ := ih fun g' hg => h g' (List.mem_cons_of_mem _ hg)
    refine ⟨F :: Fs, ?_, List.Forall₂.cons hF hFs⟩
    rintro G (_ | ⟨_, hG⟩)
    · exact hne
    · exact hnes G hG

/-! ## Files merged from files -/

section

variable [Unicode]

/-- A file written by `finish`, or by a merge of such files. -/
inductive Produced : Bytes → Prop
  | finish {b : IndexBuilder} {f : Bytes} (h : b.finish = .ok f) : Produced f
  | merge {d : IndexBuilder} {files : List Bytes} {ixs : List Index} {f : Bytes}
      (hfiles : ∀ g ∈ files, Produced g) (hopen : files.mapM open_index = .ok ixs)
      (h : d.write_merged_snapshot ixs = .ok f) : Produced f

theorem rendersTo_of_write_merged {Fs : List Facts} {ixs : List Index} {d : IndexBuilder} {f : Bytes}
    (hix : List.Forall₂ Index.Holds ixs Fs) (hne : ∀ F ∈ Fs, F.Ne)
    (h : d.write_merged_snapshot ixs = .ok f) : (Fs.prod * d.facts).visible.RendersTo f := by
  obtain ⟨t, -⟩ := d.mergedRows_eq hix hne
  exact ⟨t, by rw [← d.write_merged_snapshot_eq hix hne t, h]⟩

theorem Produced.renders {f : Bytes} (h : Produced f) : ∃ F : Facts, F.Ne ∧ F.RendersTo f := by
  induction h with
  | @finish b f h => exact ⟨_, b.facts_ne.visible, IndexBuilder.rendersTo_of_finish h⟩
  | @merge d files ixs f _ hopen h ih =>
    obtain ⟨Fs, hne, hFs⟩ := exists_facts_of_forall ih
    obtain ⟨ixs', hopen', hholds⟩ := open_all hFs hne
    cases hopen.symm.trans hopen'
    have hne' : ∀ F ∈ Fs.map Facts.clamped, F.Ne := by
      simp only [List.mem_map]
      rintro G ⟨F, hF, rfl⟩
      exact (hne F hF).clamped
    exact ⟨_, ((Facts.ne_prod hne').mul d.facts_ne).visible, rendersTo_of_write_merged hholds hne' h⟩

end

end Scry2
