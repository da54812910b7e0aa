import Scry2.Tables

/-!
# `finish` writes the facts of its builder

The rows that `finish` computes are the tables of the builder's facts, less the aliases of
variables.
-/

open Scry2.Lib

namespace Scry2

theorem mem_varSyms {l : List (UInt64 × SymMeta)} {f : UInt64 → Option SymMeta} (h : Tabulates l f)
    (k : UInt64) : k ∈ varSyms l ↔ ∃ m, f k = some m ∧ m.kind = Kind.VARIABLE := by
  simp only [varSyms, List.mem_map, List.mem_filter, decide_eq_true_eq]
  constructor
  · rintro ⟨⟨k', m⟩, ⟨hm, hk⟩, rfl⟩
    exact ⟨m, (h.2 _ _).mp hm, hk⟩
  · rintro ⟨m, hm, hk⟩
    exact ⟨(k, m), ⟨(h.2 k m).mpr hm, hk⟩, rfl⟩

/-- The first row of every symbol in a sorted table is its smallest string. -/
theorem onePerSym_tabulates {rows : List StrRow} (hne : ∀ r ∈ rows, r.text ≠ "") :
    Tabulates ((dedup_by_key StrRow.sym none (sortDedup rows)).map fun r => (r.sym, r.text))
      (bestText rows) := by
  have hlt := sortDedup_pairwise rows
  have hle : (sortDedup rows).Pairwise (StrRow.sym · ≤ StrRow.sym ·) :=
    hlt.imp fun h => StrRow.sym_le_of_lt h
  have hnone : ∀ k, (none : Option UInt64) = some k → ∀ a ∈ sortDedup rows, k ≤ a.sym := by simp
  refine ⟨List.pairwise_map.mpr (dedup_by_key_pairwise _ _ _ hle hnone).1, fun k t => ?_⟩
  rw [bestText_eq_some_iff hne]
  have hmem : (k, t) ∈ (dedup_by_key StrRow.sym none (sortDedup rows)).map (fun r => (r.sym, r.text)) ↔
      ⟨k, t⟩ ∈ dedup_by_key StrRow.sym none (sortDedup rows) := by
    simp only [List.mem_map, Prod.mk.injEq]
    constructor
    · rintro ⟨r, hr, rfl, rfl⟩; exact hr
    · intro h; exact ⟨_, h, rfl, rfl⟩
  rw [hmem]
  constructor
  · intro h
    have hfirst := mem_dedup_by_key StrRow.sym none _ hle hlt hnone h
    refine ⟨mem_sortDedup.mp ((dedup_by_key_sublist _ _ _).subset h), fun r hr hk => ?_⟩
    rcases hfirst r (mem_sortDedup.mpr hr) hk with rfl | hr'
    · exact le_rfl
    · rcases (StrRow.lt_iff _ _).mp hr' with hlt' | ⟨-, hlt'⟩
      · exact absurd hk hlt'.ne'
      · exact hlt'.le
  · rintro ⟨hm, hmin⟩
    obtain ⟨a, ha, hak⟩ := exists_mem_dedup_by_key StrRow.sym none _ (mem_sortDedup.mpr hm) (by simp)
    have hfirst := mem_dedup_by_key StrRow.sym none _ hle hlt hnone ha
    rcases hfirst _ (mem_sortDedup.mpr hm) hak.symm with he | hlt'
    · rwa [he]
    · -- The kept row is the smallest, so it cannot come before `(k, t)`.
      have har := mem_sortDedup.mp ((dedup_by_key_sublist _ _ _).subset ha)
      rcases (StrRow.lt_iff _ _).mp hlt' with h1 | ⟨-, h1⟩
      · exact absurd hak h1.ne
      · exact absurd h1 (not_lt.mpr (hmin a har hak))

namespace IndexBuilder

/-- What `finish` writes of a builder. -/
def tables (b : IndexBuilder) : Tables b.facts.visible where
  xrefs := sortDedup b.xrefs
  syms := b.syms.toList
  aliases := sortDedup (b.aliases.filter fun r => r.sym ∉ varSyms b.syms.toList)
  files := b.files.toList
  inh := sortDedup b.inherits
  calls := sortDedup b.calls
  typed := (dedup_by_key StrRow.sym none (sortDedup b.typed)).map fun r => (r.sym, r.text)
  childrev := sortDedup b.childof
  sig := (dedup_by_key StrRow.sym none (sortDedup b.sig)).map fun r => (r.sym, r.text)
  xrefs_of := sortDedup_enumerates _
  syms_of := tabulates_toList _
  aliases_of := by
    refine ⟨sortDedup_pairwise _, fun r => ?_⟩
    rw [mem_sortDedup, List.mem_filter, decide_eq_true_eq, mem_varSyms (tabulates_toList _)]
    rfl
  files_of := tabulates_toList _
  inh_of := sortDedup_enumerates _
  calls_of := sortDedup_enumerates _
  typed_of := onePerSym_tabulates b.typed_ne
  childrev_of := sortDedup_enumerates _
  sig_of := onePerSym_tabulates b.sig_ne

theorem finishRows_eq (b : IndexBuilder) : b.finishRows = b.tables.rows := by
  have hown : b.syms.toList.zipWith (fun e p => NameRow.mk p.1 p.2 e.1)
      (pushStrs (fun e => e.2.name) (fun _ off len => (off, len)) [] b.syms.toList).1 =
      b.tables.ownNames := pushStrs_zipWith _ Tables.ownName _ _
  have hsyms : b.syms.toList.zipWith (fun e p => SymRow.mk e.1 e.2.kind e.2.lang p.1 p.2)
      (pushStrs (fun e => e.2.name) (fun _ off len => (off, len)) [] b.syms.toList).1 =
      b.tables.rows.syms := pushStrs_zipWith _ Tables.symRow _ _
  have hnb : strBytes (fun e => e.2.name) b.syms.toList = b.tables.nameBlob := rfl
  have hab : b.tables.nameBlob ++ strBytes StrRow.text
      (sortDedup (b.aliases.filter fun r => r.sym ∉ varSyms b.syms.toList)) = b.tables.aliasBlob := rfl
  have hpb : b.tables.aliasBlob ++ strBytes Prod.snd b.files.toList = b.tables.pathBlob := rfl
  have htext : ∀ (rows : List StrRow) (blob : Bytes),
      pushStrs StrRow.text (fun r off len => TypeRow.mk r.sym off len) blob rows =
        pushStrs Prod.snd Tables.typeRow blob (rows.map fun r => (r.sym, r.text)) :=
    fun rows blob => (pushStrs_comp Prod.snd Tables.typeRow (fun r => (r.sym, r.text)) blob rows).symm
  have hfiles : b.files.toList.zipWith (fun e p => FileRow.mk e.1 p.1 p.2)
      (pushStrs Prod.snd (fun _ off len => (off, len)) b.tables.aliasBlob b.files.toList).1 =
      b.tables.rows.files := pushStrs_zipWith _ Tables.fileRow _ _
  have halias : (pushStrs StrRow.text (fun r off len => (r.sym, off, len)) b.tables.nameBlob
      (sortDedup (b.aliases.filter fun r => r.sym ∉ varSyms b.syms.toList))).1.map
      (fun a => NameRow.mk a.2.1 a.2.2 a.1) = b.tables.aliasNames :=
    pushStrs_map StrRow.text (fun r off len => (r.sym, off, len))
      (fun a : UInt64 × Nat × Nat => NameRow.mk a.2.1 a.2.2 a.1) _ _
  have htb : b.tables.pathBlob ++ strBytes Prod.snd b.tables.typed = b.tables.typeBlob := rfl
  have hb : b.tables.typeBlob ++ strBytes Prod.snd b.tables.sig = b.tables.blob := rfl
  have hnames : sortNames b.tables.pathBlob (b.tables.ownNames ++ b.tables.aliasNames) =
      b.tables.names := b.tables.names_eq _
  simp only [finishRows, pushStrs_blob, List.nil_append, hown, hsyms, hnb, hab, hpb, htext, hfiles,
    halias, hnames]
  rfl

theorem finish_eq (b : IndexBuilder) : b.finish = b.tables.rows.finishFile := by
  rw [finish, finishRows_eq]

end IndexBuilder

end Scry2
