import Scry2.Remap

/-!
# Reading a snapshot back

`populate_from_index` replays the tables of a file into a builder. The file that this builder then
writes is the same file again.
-/

open Scry2.Lib

namespace Scry2

section

variable [Unicode]

namespace IndexBuilder

/-- Replay every row of a saved index. -/
def populate_from_index (b : IndexBuilder) (ix : Index) : Res IndexBuilder := do
  let b := ix.iter_xrefs.foldl (fun b r => b.add_xref r.sym r.role r.file r.offset) b
  let b := (← ix.iter_syms).foldl (fun b e => b.upsert_sym e.1 e.2.kind e.2.lang e.2.name) b
  let b := (← ix.iter_files).foldl (fun b e => b.upsert_file e.1 e.2) b
  let b := ix.iter_inherits.foldl (fun b r => b.add_inherit r.fst r.snd) b
  let b := ix.iter_calls.foldl (fun b r => b.add_call r.fst r.snd r.role) b
  let b := (← ix.iter_aliases).foldl (fun b r => b.add_alias r.sym r.text) b
  let b := (← ix.iter_typed).foldl (fun b e => b.add_type e.1 e.2) b
  let b := ix.iter_childrev.foldl (fun b r => b.add_childof r.snd r.fst) b
  let b := (← ix.iter_sig).foldl (fun b e => b.add_sig e.1 e.2) b
  return b

theorem populate_from_index_facts (b : IndexBuilder) {ix : Index} {F : Facts} (h : ix.Holds F)
    (hne : F.Ne) : ∃ b', b.populate_from_index ix = .ok b' ∧ b'.facts = b.facts * F := by
  obtain ⟨files, hfiles, tfiles⟩ := h.files
  obtain ⟨syms, hsyms, tsyms⟩ := h.syms
  obtain ⟨aliases, haliases, ealiases⟩ := h.aliases
  obtain ⟨typed, htyped, ttyped⟩ := h.typed
  obtain ⟨sig, hsig, tsig⟩ := h.sig
  unfold populate_from_index
  simp only [hfiles, hsyms, haliases, htyped, hsig, bind, Except.bind, pure, Except.pure]
  refine ⟨_, rfl, ?_⟩
  rw [facts_foldl_add_sig _ _ fun e he => hne.sig e.1 e.2 ((tsig.2 _ _).mp he), facts_foldl_add_childof,
    facts_foldl_add_type _ _ fun e he => hne.typed e.1 e.2 ((ttyped.2 _ _).mp he),
    facts_foldl_add_alias _ _ fun r hr => hne.aliases r ((ealiases r).mp hr),
    facts_foldl_add_call, facts_foldl_add_inherit, facts_foldl_upsert_file,
    facts_foldl_upsert_sym _ _ (tsyms.1.imp ne_of_lt), facts_foldl_add_xref]
  simp only [mul_assoc]
  congr 1
  apply Facts.ext
  · simp [h.xrefs.2]
  · simp [tsyms.lookup_eq]
  · simp [tfiles.lookup_eq]
  · simp [h.inherits.2]
  · simp [ealiases]
  · simp [h.calls.2]
  · simp [bestText_of_tabulates ttyped]
  · simp [h.childof.2]
  · simp [bestText_of_tabulates tsig]

end IndexBuilder

omit [Unicode] in
theorem Facts.visible_visible (F : Facts) : F.visible.visible = F.visible := F.sheds_visible.visible_eq

/-- A snapshot read into an empty builder and written again is the same file, and the builder has the
facts of the first one but for the aliases that were never written. -/
theorem snapshot_then_resume (b : IndexBuilder) (hshort : b.Short) (f : Bytes) (hf : b.finish = .ok f) :
    ∃ ix b', open_index f = .ok ix ∧ IndexBuilder.new.populate_from_index ix = .ok b' ∧
      b'.finish = .ok f ∧ b'.facts = b.facts.visible := by
  obtain ⟨ix, hopen, hix⟩ := (IndexBuilder.rendersTo_of_finish hf).open_holds b.facts_ne.visible
  rw [Facts.clamped_of_short hshort.facts.visible] at hix
  obtain ⟨b', hb', hfacts⟩ := IndexBuilder.new.populate_from_index_facts hix b.facts_ne.visible
  rw [IndexBuilder.facts_new, one_mul] at hfacts
  refine ⟨ix, b', hopen, hb', ?_, hfacts⟩
  rw [← hf, b'.finish_eq, b.finish_eq]
  apply finishFile_congr
  rw [hfacts, Facts.visible_visible]

end

section

attribute [local instance] asciiUnicode

/-- A variable whose alias is not written. -/
def varUnit : IndexBuilder :=
  ((((IndexBuilder.new.add_xref 7 Role.DEF 1 12).upsert_sym 7 Kind.VARIABLE Lang.CXX "v").upsert_file 1
    "b.cc").add_alias 7 "ns::v").add_type 7 "int"

theorem snapshot_then_resume_varUnit :
    ∃ f ix b', varUnit.finish = .ok f ∧ open_index f = .ok ix ∧
      IndexBuilder.new.populate_from_index ix = .ok b' ∧ b'.finish = .ok f ∧
      b'.facts = varUnit.facts.visible := by
  have hf : varUnit.finish = .ok varUnit.finishRows.bytes :=
    (Rows.finishFile_eq _).trans (if_pos (by decide +kernel))
  obtain ⟨ix, b', hopen, hb', hfin, hfacts⟩ := snapshot_then_resume varUnit (by decide +kernel) _ hf
  exact ⟨_, ix, b', hf, hopen, hb', hfin, hfacts⟩

end

end Scry2
