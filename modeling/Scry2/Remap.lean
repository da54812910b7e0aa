import Scry2.Agree

/-!
# The file ids of cached shards

A cached shard numbers its files by the ranks of its own paths, a whole build by the ranks in one
sorted list of all paths. Coalescing the shards puts the ids of the build back.
-/

open Scry2.Lib
open Std (ExtTreeMap)

namespace Scry2

/-! ## Relabelling -/

/-- `G` is `F` with every file id replaced by what `m` gives for it. What has no new id is gone. -/
structure Facts.Relabels (m : UInt32 → Option UInt32) (F G : Facts) : Prop where
  xrefs : ∀ r, r ∈ G.xrefs ↔ ∃ q ∈ F.xrefs, ∃ g, m q.file = some g ∧ r = { q with file := g }
  files : ∀ g p, G.files g = some p ↔ ∃ l, m l = some g ∧ F.files l = some p
  syms : G.syms = F.syms
  inherits : G.inherits = F.inherits
  aliases : G.aliases = F.aliases
  calls : G.calls = F.calls
  typed : G.typed = F.typed
  childof : G.childof = F.childof
  sig : G.sig = F.sig

theorem Facts.Relabels.visible {m : UInt32 → Option UInt32} {F G : Facts} (h : F.Relabels m G) :
    F.visible.Relabels m G.visible where
  xrefs := h.xrefs
  files := h.files
  syms := h.syms
  inherits := h.inherits
  aliases := by
    unfold Facts.visible Facts.isVar
    simp only [h.syms, h.aliases]
  calls := h.calls
  typed := h.typed
  childof := h.childof
  sig := h.sig

theorem Facts.Relabels.symm {m m' : UInt32 → Option UInt32} {F G : Facts} (h : F.Relabels m G)
    (hinv : ∀ i j p, F.files i = some p → m i = some j → m' j = some i)
    (hfiles : ∀ i p, F.files i = some p → ∃ j, m i = some j)
    (hxrefs : ∀ r ∈ F.xrefs, ∃ p, F.files r.file = some p) : G.Relabels m' F where
  xrefs r := by
    constructor
    · intro hr
      obtain ⟨p, hp⟩ := hxrefs r hr
      obtain ⟨j, hj⟩ := hfiles r.file p hp
      exact ⟨{ r with file := j }, (h.xrefs _).mpr ⟨r, hr, j, hj, rfl⟩, r.file, hinv _ _ p hp hj, rfl⟩
    · rintro ⟨q, hq, g, hg, rfl⟩
      obtain ⟨r, hr, j, hj, rfl⟩ := (h.xrefs q).mp hq
      obtain ⟨p, hp⟩ := hxrefs r hr
      obtain rfl : r.file = g := Option.some.inj ((hinv _ _ p hp hj).symm.trans hg)
      exact hr
  files g p := by
    constructor
    · intro hp
      obtain ⟨j, hj⟩ := hfiles g p hp
      exact ⟨j, hinv g j p hp hj, (h.files j p).mpr ⟨g, hj, hp⟩⟩
    · rintro ⟨j, hj, hp⟩
      obtain ⟨i, hi, hip⟩ := (h.files j p).mp hp
      obtain rfl : i = g := Option.some.inj ((hinv i j p hip hi).symm.trans hj)
      exact hip
  syms := h.syms.symm
  inherits := h.inherits.symm
  aliases := h.aliases.symm
  calls := h.calls.symm
  typed := h.typed.symm
  childof := h.childof.symm
  sig := h.sig.symm

/-! ## Local ids -/

namespace IndexBuilder

variable (b : IndexBuilder)

theorem localPaths_nodup : b.localPaths.Nodup := (sortDedup_pairwise _).imp ne_of_lt

theorem mem_localPaths {g : UInt32} {p : String} (h : b.files[g]? = some p) :
    as_bytes p ∈ b.localPaths :=
  mem_sortDedup.mpr (List.mem_map.mpr ⟨(g, p), ((tabulates_toList _).2 g p).mpr h, rfl⟩)

theorem localPaths_length_le : b.localPaths.length ≤ 2 ^ 32 := by
  have hkeys : (b.files.toList.map fun e => e.1.toNat).Nodup := by
    rw [List.Nodup, List.pairwise_map]
    exact (tabulates_toList b.files).1.imp fun h => (UInt32.lt_iff_toNat_lt.mp h).ne
  have hsub : b.files.toList.map (fun e => e.1.toNat) ⊆ List.range (2 ^ 32) := by
    intro n hn
    obtain ⟨e, -, rfl⟩ := List.mem_map.mp hn
    exact List.mem_range.mpr e.1.toNat_lt
  have hlen := (hkeys.subperm hsub).length_le
  have hle : b.localPaths.length ≤ (b.files.toList.map fun e => as_bytes e.2).length :=
    ((localPaths_nodup b).subperm fun x hx => mem_sortDedup.mp hx).length_le
  simp only [List.length_map, List.length_range] at hlen hle
  omega

theorem local_of_injOn {g g' : UInt32} {p p' : String} (h : b.files[g]? = some p)
    (h' : b.files[g']? = some p') (heq : b.local_of p = b.local_of p') : p = p' := by
  have hlt := List.idxOf_lt_length_of_mem (b.mem_localPaths h)
  have hlt' := List.idxOf_lt_length_of_mem (b.mem_localPaths h')
  have hle := b.localPaths_length_le
  have e := congrArg UInt32.toNat heq
  unfold local_of at e
  rw [UInt32.toNat_ofNat_of_lt' (hlt.trans_le hle), UInt32.toNat_ofNat_of_lt' (hlt'.trans_le hle)] at e
  exact as_bytes_injective ((List.idxOf_inj (b.mem_localPaths h)).mp e)

/-- No path has two file ids. -/
def PathsDistinct : Prop :=
  ∀ (g g' : UInt32) (p : String), b.files[g]? = some p → b.files[g']? = some p → g = g'

/-- What the files of the builder are called after `localize_file_ids`. -/
theorem localize_file_ids_files (hinj : b.PathsDistinct) (l : UInt32) (p : String) :
    b.localize_file_ids.1.files[l]? = some p ↔
      ∃ g, b.g2l g = some l ∧ b.files[g]? = some p := by
  have ht := tabulates_toList b.files
  have hpw : (b.files.toList.map fun e => (b.local_of e.2, e.2)).Pairwise (·.1 ≠ ·.1) := by
    rw [List.pairwise_map]
    refine ht.1.imp_of_mem fun {x y} hx hy hlt heq => ?_
    have hx' := (ht.2 x.1 x.2).mp hx
    have hy' := (ht.2 y.1 y.2).mp hy
    have e := b.local_of_injOn hx' hy' heq
    exact hlt.ne (hinj _ _ x.2 hx' (e ▸ hy'))
  have hfold : b.localize_file_ids.1.files =
      (b.files.toList.map fun e => (b.local_of e.2, e.2)).foldl (fun m e => m.insert e.1 e.2) ∅ := by
    unfold localize_file_ids
    simp only [ExtTreeMap.foldl_eq_foldl_toList, List.foldl_map]
  rw [hfold, getElem?_foldl_insert _ hpw, ExtTreeMap.getElem?_empty, Option.or_none,
    lookup_eq_some_iff hpw, List.mem_map]
  unfold g2l
  simp only [Prod.mk.injEq, Option.map_eq_some_iff]
  constructor
  · rintro ⟨e, he, rfl, rfl⟩
    have := (ht.2 e.1 e.2).mp he
    exact ⟨e.1, ⟨e.2, this, rfl⟩, this⟩
  · rintro ⟨g, ⟨q, hq, rfl⟩, hp⟩
    obtain rfl : q = p := Option.some.inj (hq.symm.trans hp)
    exact ⟨(g, q), (ht.2 g q).mpr hp, rfl, rfl⟩

theorem relabels_localize_file_ids (hinj : b.PathsDistinct)
    (hxrefs : ∀ r ∈ b.xrefs, ∃ p, b.files[r.file]? = some p) :
    b.facts.Relabels b.g2l b.localize_file_ids.1.facts where
  xrefs r := by
    change r ∈ b.xrefs.map _ ↔ ∃ q ∈ b.xrefs, _
    rw [List.mem_map]
    refine exists_congr fun q => and_congr_right fun hq => ?_
    obtain ⟨p, hp⟩ := hxrefs q hq
    simp [g2l, hp, eq_comm]
  files := b.localize_file_ids_files hinj
  syms := rfl
  inherits := rfl
  aliases := rfl
  calls := rfl
  typed := rfl
  childof := rfl
  sig := rfl

/-! ## Replaying a shard -/

theorem append_ne {l m : List StrRow} (hl : ∀ r ∈ l, r.text ≠ "") (hm : ∀ r ∈ m, r.text ≠ "") :
    ∀ r ∈ l ++ m, r.text ≠ "" := by
  simpa [or_imp, forall_and] using ⟨hl, hm⟩

theorem foldl_addRemappedXref (l2g : ExtTreeMap UInt32 UInt32) (l : List XrefRow) :
    l.foldl (addRemappedXref l2g) b =
      { b with
        xrefs := b.xrefs ++ l.filterMap fun r => l2g[r.file]?.map fun g => { r with file := g } } := by
  induction l generalizing b with
  | nil => simp
  | cons r l ih =>
    rw [List.foldl_cons, ih]
    unfold addRemappedXref
    cases hr : l2g[r.file]? <;> simp [hr, add_xref]

variable [Unicode]

/-- The strings of a table as rows. -/
def strRows (l : List (UInt64 × String)) : List StrRow := l.map fun e => ⟨e.1, e.2⟩

omit [Unicode] in
theorem strRows_ne {l : List (UInt64 × String)} (h : ∀ e ∈ l, e.2 ≠ "") : ∀ r ∈ strRows l, r.text ≠ "" := by
  unfold strRows
  simp only [List.mem_map]
  rintro r ⟨e, he, rfl⟩
  exact h e he

theorem facts_foldl_addRemappedXref (l2g : ExtTreeMap UInt32 UInt32) (l : List XrefRow) :
    (l.foldl (addRemappedXref l2g) b).facts = b.facts *
      { (1 : Facts) with
        xrefs := {r | r ∈ l.filterMap fun r => l2g[r.file]?.map fun g => { r with file := g }} } := by
  rw [foldl_addRemappedXref]
  apply Facts.ext <;> simp [facts, Set.ofPred_or]

theorem facts_foldl_upsert_sym (l : List (UInt64 × SymMeta)) (h : l.Pairwise (·.1 ≠ ·.1)) :
    (l.foldl (fun b e => b.upsert_sym e.1 e.2.kind e.2.lang e.2.name) b).facts =
      b.facts * { (1 : Facts) with syms := (l.lookup ·) } := by
  have e : l.foldl (fun b e => b.upsert_sym e.1 e.2.kind e.2.lang e.2.name) b =
      { b with syms := l.foldl (fun m e => m.alter e.1 (refineEntry e.2)) b.syms } := by
    clear h
    induction l generalizing b with
    | nil => rfl
    | cons e l ih => rw [List.foldl_cons, ih]; rfl
  rw [e]
  apply Facts.ext <;> simp only [facts, Facts.mul_xrefs, Facts.mul_files, Facts.mul_inherits,
    Facts.mul_aliases, Facts.mul_calls, Facts.mul_typed, Facts.mul_childof, Facts.mul_sig, Facts.mul_syms,
    Facts.one_xrefs, Facts.one_files, Facts.one_inherits, Facts.one_aliases, Facts.one_calls,
    Facts.one_typed, Facts.one_childof, Facts.one_sig, Set.union_empty, combine_none_right]
  funext k
  rw [getElem?_foldl_alter (fun e => refineEntry e) _ h]
  cases l.lookup k <;> cases b.syms[k]? <;> rfl

omit [Unicode] in
theorem getElem?_foldl_firstPath (l : List (UInt32 × String)) (m : ExtTreeMap UInt32 String) (k : UInt32) :
    (l.foldl (fun m e => m.alter e.1 (firstPath e.2)) m)[k]? = m[k]?.or (l.lookup k) := by
  induction l generalizing m with
  | nil => simp
  | cons e l ih =>
    rw [List.foldl_cons, ih, getElem?_alter_key, lookup_cons_eq]
    by_cases h : e.1 = k
    · subst h
      cases m[e.1]? <;> simp [firstPath]
    · simp [h]

theorem facts_foldl_upsert_file (l : List (UInt32 × String)) :
    (l.foldl (fun b e => b.upsert_file e.1 e.2) b).facts =
      b.facts * { (1 : Facts) with files := (l.lookup ·) } := by
  have e : l.foldl (fun b e => b.upsert_file e.1 e.2) b =
      { b with files := l.foldl (fun m e => m.alter e.1 (firstPath e.2)) b.files } := by
    induction l generalizing b with
    | nil => rfl
    | cons e l ih => rw [List.foldl_cons, ih]; rfl
  rw [e]
  apply Facts.ext <;> simp only [facts, Facts.mul_xrefs, Facts.mul_files, Facts.mul_inherits,
    Facts.mul_aliases, Facts.mul_calls, Facts.mul_typed, Facts.mul_childof, Facts.mul_sig, Facts.mul_syms,
    Facts.one_xrefs, Facts.one_syms, Facts.one_inherits, Facts.one_aliases, Facts.one_calls,
    Facts.one_typed, Facts.one_childof, Facts.one_sig, Set.union_empty, combine_none_right]
  funext k
  rw [getElem?_foldl_firstPath]
  cases l.lookup k <;> cases b.files[k]? <;> rfl

theorem facts_foldl_upsertRemappedFile (l2g : ExtTreeMap UInt32 UInt32) (l : List (UInt32 × String)) :
    (l.foldl (upsertRemappedFile l2g) b).facts = b.facts *
      { (1 : Facts) with
        files := ((l.filterMap fun e => l2g[e.1]?.map fun g => (g, e.2)).lookup ·) } := by
  rw [← facts_foldl_upsert_file, List.foldl_filterMap]
  congr 2
  funext b e
  unfold upsertRemappedFile
  cases l2g[e.1]? <;> rfl

/-- Rows that are appended to one of the tables add just themselves. -/
theorem facts_foldl_rows {α : Type} (mk : List α → IndexBuilder) (put : Set α → Facts)
    {add : IndexBuilder → α → IndexBuilder} (hadd : ∀ rows r, add (mk rows) r = mk (rows ++ [r]))
    (hfacts : ∀ rows l, (mk (rows ++ l)).facts = (mk rows).facts * put {r | r ∈ l}) (rows l : List α) :
    (l.foldl add (mk rows)).facts = (mk rows).facts * put {r | r ∈ l} := by
  have hfold : l.foldl add (mk rows) = mk (rows ++ l) := by
    induction l generalizing rows with
    | nil => rw [List.foldl_nil, List.append_nil]
    | cons r l ih => rw [List.foldl_cons, hadd, ih, List.append_assoc, List.singleton_append]
  rw [hfold, hfacts]

theorem facts_foldl_add_xref (l : List XrefRow) :
    (l.foldl (fun b r => b.add_xref r.sym r.role r.file r.offset) b).facts =
      b.facts * { (1 : Facts) with xrefs := {r | r ∈ l} } :=
  facts_foldl_rows (fun rows => { b with xrefs := rows }) (fun rows => { (1 : Facts) with xrefs := rows })
    (fun _ _ => rfl) (fun _ _ => by apply Facts.ext <;> simp [facts, Set.ofPred_or]) b.xrefs l

theorem facts_foldl_add_inherit (l : List InhRow) :
    (l.foldl (fun b r => b.add_inherit r.fst r.snd) b).facts =
      b.facts * { (1 : Facts) with inherits := {r | r ∈ l} } :=
  facts_foldl_rows (fun rows => { b with inherits := rows }) (fun rows => { (1 : Facts) with inherits := rows })
    (fun _ _ => rfl) (fun _ _ => by apply Facts.ext <;> simp [facts, Set.ofPred_or]) b.inherits l

theorem facts_foldl_add_call (l : List CallRow) :
    (l.foldl (fun b r => b.add_call r.fst r.snd r.role) b).facts =
      b.facts * { (1 : Facts) with calls := {r | r ∈ l} } :=
  facts_foldl_rows (fun rows => { b with calls := rows }) (fun rows => { (1 : Facts) with calls := rows })
    (fun _ _ => rfl) (fun _ _ => by apply Facts.ext <;> simp [facts, Set.ofPred_or]) b.calls l

theorem facts_foldl_add_childof (l : List InhRow) :
    (l.foldl (fun b r => b.add_childof r.snd r.fst) b).facts =
      b.facts * { (1 : Facts) with childof := {r | r ∈ l} } :=
  facts_foldl_rows (fun rows => { b with childof := rows }) (fun rows => { (1 : Facts) with childof := rows })
    (fun _ _ => rfl) (fun _ _ => by apply Facts.ext <;> simp [facts, Set.ofPred_or]) b.childof l

theorem facts_foldl_add_alias (l : List StrRow) (h : ∀ r ∈ l, r.text ≠ "") :
    (l.foldl (fun b r => b.add_alias r.sym r.text) b).facts =
      b.facts * { (1 : Facts) with aliases := {r | r ∈ l} } := by
  have e : l.foldl (fun b r => b.add_alias r.sym r.text) b =
      { b with aliases := b.aliases ++ l, aliases_ne := append_ne b.aliases_ne h } := by
    induction l generalizing b with
    | nil => simp
    | cons r l ih =>
      rw [List.foldl_cons, ih _ fun q hq => h q (List.mem_cons_of_mem _ hq)]
      simp [add_alias, pushText, h r List.mem_cons_self]
  rw [e]
  apply Facts.ext <;> simp [facts, Set.ofPred_or]

/-- Texts that are appended to one of the tables, none of them empty. -/
theorem facts_foldl_texts (mk : {rows : List StrRow // ∀ r ∈ rows, r.text ≠ ""} → IndexBuilder)
    (put : (UInt64 → Option String) → Facts) {add : IndexBuilder → UInt64 × String → IndexBuilder}
    (hadd : ∀ rows e, add (mk rows) e = mk ⟨pushText rows.1 e.1 e.2, pushText_ne rows.2 e.1 e.2⟩)
    (hfacts : ∀ rows l h, (mk ⟨rows.1 ++ l, append_ne rows.2 h⟩).facts = (mk rows).facts * put (bestText l))
    (rows : {rows : List StrRow // ∀ r ∈ rows, r.text ≠ ""}) {l : List (UInt64 × String)} (h : ∀ e ∈ l, e.2 ≠ "") :
    (l.foldl add (mk rows)).facts = (mk rows).facts * put (bestText (strRows l)) := by
  have hfold : l.foldl add (mk rows) = mk ⟨rows.1 ++ strRows l, append_ne rows.2 (strRows_ne h)⟩ := by
    induction l generalizing rows with
    | nil => simp [strRows]
    | cons e l ih =>
      rw [List.foldl_cons, hadd, ih _ fun q hq => h q (List.mem_cons_of_mem _ hq)]
      simp [pushText, strRows, h e List.mem_cons_self]
  rw [hfold, hfacts rows _ (strRows_ne h)]

theorem facts_foldl_add_type (l : List (UInt64 × String)) (h : ∀ e ∈ l, e.2 ≠ "") :
    (l.foldl (fun b e => b.add_type e.1 e.2) b).facts =
      b.facts * { (1 : Facts) with typed := bestText (strRows l) } :=
  facts_foldl_texts (fun rows => { b with typed := rows.1, typed_ne := rows.2 })
    (fun texts => { (1 : Facts) with typed := texts }) (fun _ _ => rfl)
    (fun _ _ _ => by apply Facts.ext <;> simp [facts, funext (bestText_append _ _)]) ⟨b.typed, b.typed_ne⟩ h

theorem facts_foldl_add_sig (l : List (UInt64 × String)) (h : ∀ e ∈ l, e.2 ≠ "") :
    (l.foldl (fun b e => b.add_sig e.1 e.2) b).facts =
      b.facts * { (1 : Facts) with sig := bestText (strRows l) } :=
  facts_foldl_texts (fun rows => { b with sig := rows.1, sig_ne := rows.2 })
    (fun texts => { (1 : Facts) with sig := texts }) (fun _ _ => rfl)
    (fun _ _ _ => by apply Facts.ext <;> simp [facts, funext (bestText_append _ _)]) ⟨b.sig, b.sig_ne⟩ h

omit [Unicode] in
theorem bestText_of_tabulates {l : List (UInt64 × String)} {f : UInt64 → Option String}
    (h : Tabulates l f) (k : UInt64) : bestText (strRows l) k = f k := by
  apply Option.ext
  intro t
  unfold bestText
  rw [bestOf_eq_some_iff _ textRank_injective]
  have hmem : ∀ u, u ∈ textsOf (strRows l) k ↔ f k = some u := by
    intro u
    unfold strRows
    rw [mem_textsOf, List.mem_map, ← h.2]
    simp only [StrRow.mk.injEq, Prod.exists, exists_eq_right_right, exists_eq_right]
  simp only [hmem]
  constructor
  · exact fun ht => ht.1
  · intro ht
    refine ⟨ht, fun u hu => ?_⟩
    rw [ht] at hu
    cases hu
    exact le_rfl

omit [Unicode] in
theorem getElem?_l2gOf {files : List (UInt32 × String)} {f : UInt32 → Option String}
    (h : Tabulates files f) (global_of : String → Option UInt32) (l : UInt32) :
    (l2gOf global_of files)[l]? = (f l).bind global_of := by
  have hfold : l2gOf global_of files =
      (files.filterMap fun e => (global_of e.2).map fun g => (e.1, g)).foldl
        (fun m e => m.insert e.1 e.2) ∅ := by
    unfold l2gOf
    rw [List.foldl_filterMap]
    congr 1
    funext m e
    cases global_of e.2 <;> rfl
  have hpw : (files.filterMap fun e => (global_of e.2).map fun g => (e.1, g)).Pairwise (·.1 ≠ ·.1) := by
    rw [List.pairwise_filterMap]
    refine h.1.imp fun {x y} hlt x' hx y' hy => ?_
    obtain ⟨g, -, rfl⟩ := Option.map_eq_some_iff.mp hx
    obtain ⟨g', -, rfl⟩ := Option.map_eq_some_iff.mp hy
    exact hlt.ne
  rw [hfold, getElem?_foldl_insert _ hpw, ExtTreeMap.getElem?_empty, Option.or_none]
  apply Option.ext
  intro g
  rw [lookup_eq_some_iff hpw, List.mem_filterMap, Option.bind_eq_some_iff]
  constructor
  · rintro ⟨e, he, hg⟩
    obtain ⟨g', hg', heq⟩ := Option.map_eq_some_iff.mp hg
    cases heq
    exact ⟨e.2, (h.2 _ _).mp he, hg'⟩
  · rintro ⟨p, hp, hg⟩
    exact ⟨(l, p), (h.2 l p).mpr hp, by simp [hg]⟩

omit [Unicode] in
/-- The rows a replayed shard adds to the file table. -/
theorem replayed_files {files : List (UInt32 × String)} {F G : Facts}
    {global_of : String → Option UInt32} (h : Tabulates files F.files)
    (hG : F.Relabels (fun l => (F.files l).bind global_of) G) (g : UInt32) :
    (files.filterMap fun e => (l2gOf global_of files)[e.1]?.map fun g => (g, e.2)).lookup g =
      G.files g := by
  have hmem : ∀ g p, (g, p) ∈ (files.filterMap fun e =>
      (l2gOf global_of files)[e.1]?.map fun g => (g, e.2)) ↔ G.files g = some p := by
    intro g p
    rw [hG.files, List.mem_filterMap]
    simp only [getElem?_l2gOf h, Option.map_eq_some_iff, Prod.mk.injEq]
    constructor
    · rintro ⟨e, he, g', hg', rfl, rfl⟩
      exact ⟨e.1, hg', (h.2 _ _).mp he⟩
    · rintro ⟨l, hl, hp⟩
      exact ⟨(l, p), (h.2 l p).mpr hp, g, hl, rfl, rfl⟩
  cases hg : G.files g with
  | none =>
    rw [List.lookup_eq_none_iff]
    intro e he
    by_contra hne
    obtain rfl : g = e.1 := by simpa using hne
    rw [(hmem e.1 e.2).mp he] at hg
    cases hg
  | some p =>
    cases hl : List.lookup g _ with
    | none => exact absurd (List.lookup_eq_none_iff.mp hl (g, p) ((hmem g p).mpr hg)) (by simp)
    | some q =>
      obtain ⟨l₁, l₂, e, -⟩ := List.lookup_eq_some_iff.mp hl
      have hq := (hmem g q).mp (e ▸ List.mem_append_right l₁ List.mem_cons_self)
      rw [hg] at hq
      rw [Option.some.inj hq]

/-- Replaying a shard under global ids adds its facts, relabelled. -/
theorem populate_from_shard_remapped_facts {ix : Index} {F G : Facts} {global_of : String → Option UInt32}
    (h : ix.Holds F) (hne : F.Ne) (hG : F.Relabels (fun l => (F.files l).bind global_of) G) :
    ∃ b', b.populate_from_shard_remapped ix global_of = .ok b' ∧ b'.facts = b.facts * G := by
  obtain ⟨files, hfiles, tfiles⟩ := h.files
  obtain ⟨syms, hsyms, tsyms⟩ := h.syms
  obtain ⟨aliases, haliases, ealiases⟩ := h.aliases
  obtain ⟨typed, htyped, ttyped⟩ := h.typed
  obtain ⟨sig, hsig, tsig⟩ := h.sig
  have hrows := replayed_files tfiles hG
  unfold populate_from_shard_remapped
  simp only [hfiles, hsyms, haliases, htyped, hsig, bind, Except.bind, pure, Except.pure]
  refine ⟨_, rfl, ?_⟩
  rw [facts_foldl_add_sig _ _ fun e he => hne.sig e.1 e.2 ((tsig.2 _ _).mp he), facts_foldl_add_childof,
    facts_foldl_add_type _ _ fun e he => hne.typed e.1 e.2 ((ttyped.2 _ _).mp he),
    facts_foldl_add_alias _ _ fun r hr => hne.aliases r ((ealiases r).mp hr),
    facts_foldl_add_call, facts_foldl_add_inherit, facts_foldl_upsertRemappedFile,
    facts_foldl_upsert_sym _ _ (tsyms.1.imp ne_of_lt), facts_foldl_addRemappedXref]
  simp only [mul_assoc]
  congr 1
  apply Facts.ext
  · ext r
    rw [hG.xrefs]
    simp only [Facts.mul_xrefs, Facts.one_xrefs, Set.union_empty, Set.mem_ofPred_eq, List.mem_filterMap,
      getElem?_l2gOf tfiles, Option.map_eq_some_iff, h.xrefs.2, @eq_comm _ r]
  · simp [tsyms.lookup_eq, hG.syms]
  · simp [hrows]
  · simp [hG.inherits, h.inherits.2]
  · simp [hG.aliases, ealiases]
  · simp [hG.calls, h.calls.2]
  · simp [hG.typed, bestText_of_tabulates ttyped]
  · simp [hG.childof, h.childof.2]
  · simp [hG.sig, bestText_of_tabulates tsig]

end IndexBuilder

end Scry2
