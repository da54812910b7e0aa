import Scry2.Walk

/-!
# What the index of a builder answers

Every exact query of an index is answered from the builder it was written from. A request that asks
for no substring is then evaluated on the builder.
-/

open Scry2.Lib

namespace Scry2

/-- The queries without those for substrings. -/
def Queries.named (q : Queries) : Queries :=
  { q with
    syms_matching_substring := fun _ _ => .ok []
    syms_matching_substring_ci := fun _ _ => .ok [] }

/-! ## Walks by name ask for no substring -/

theorem Queries.named_sym_def_path (q : Queries) (sym : UInt64) : q.named.sym_def_path sym = q.sym_def_path sym := by
  have hfirst : ∀ rows, q.named.firstPath rows = q.firstPath rows := by
    intro rows
    induction rows with
    | nil => rfl
    | cons r rows ih =>
      rw [Queries.firstPath, Queries.firstPath, ih]
      rfl
  exact hfirst _

theorem PathFilter.named_def_ok (filt : PathFilter) (q : Queries) (sym : UInt64) :
    filt.def_ok q.named sym = filt.def_ok q sym := by
  unfold PathFilter.def_ok
  simp only [q.named_sym_def_path]

namespace Walk

variable (w : Walk)

/-- The walk over the queries without substrings. -/
def named : Walk := { w with ix := w.ix.named }

theorem named_pass (s : UInt64) : w.named.pass s = w.pass s := by
  have hix : w.named.ix.sym_def_path s = w.ix.sym_def_path s := w.ix.named_sym_def_path s
  have hfilt : w.named.filt = w.filt := rfl
  unfold pass
  rw [hix, hfilt]

theorem named_filterRoots (roots : List UInt64) : w.named.filterRoots roots = w.filterRoots roots := by
  have hdef : w.named.filt.def_ok w.named.ix = w.filt.def_ok w.ix := funext (w.filt.named_def_ok w.ix)
  have hpass : w.named.pass = w.pass := funext w.named_pass
  unfold filterRoots
  rw [hdef, hpass]

theorem named_admitAll (cur_id : UInt32) (dir : WalkDir) (hop : Nat) (l : List UInt64) (st : WalkState)
    (next : Frontier) : w.named.admitAll cur_id dir hop l st next = w.admitAll cur_id dir hop l st next := by
  induction l generalizing st next with
  | nil => rfl
  | cons sym l ih =>
    rw [admitAll, admitAll]
    have hsame : w.named.admitSym sym (some cur_id) dir hop st = w.admitSym sym (some cur_id) dir hop st := rfl
    have hmax : w.named.max_syms = w.max_syms := rfl
    simp only [named_pass, hsame, hmax, ih]

theorem named_union (dir : WalkDir) (rep : UInt64) : w.named.union dir rep = w.union dir rep := by
  cases dir <;> rfl

theorem named_expandDir (cur : UInt64 × UInt32) (dir : WalkDir) (hop : Nat) (st : WalkState) (next : Frontier) :
    w.named.expandDir cur dir hop st next = w.expandDir cur dir hop st next := by
  have hgoes : w.named.goes dir = w.goes dir := by cases dir <;> rfl
  unfold expandDir
  simp only [hgoes, named_union, named_admitAll]

theorem named_expandAll (hop : Nat) (frontier : Frontier) (st : WalkState) (next : Frontier) :
    w.named.expandAll hop frontier st next = w.expandAll hop frontier st next := by
  induction frontier generalizing st next with
  | nil => rfl
  | cons cur frontier ih =>
    rw [expandAll, expandAll]
    simp only [named_expandDir, ih]

theorem named_hops (left hop : Nat) (frontier : Frontier) (st : WalkState) :
    w.named.hops left hop frontier st = w.hops left hop frontier st := by
  induction left generalizing hop frontier st with
  | zero => rfl
  | succ left ih =>
    rw [hops, hops]
    simp only [named_expandAll, ih]

theorem named_admitRoots (roots : List UInt64) (st : WalkState) (frontier : Frontier) :
    w.named.admitRoots roots st frontier = w.admitRoots roots st frontier := by
  induction roots generalizing st frontier with
  | nil => rfl
  | cons root roots ih =>
    rw [admitRoots, admitRoots]
    have hsame : w.named.admitSym root none .root 0 st = w.admitSym root none .root 0 st := rfl
    simp only [hsame, ih]

theorem named_run (roots : List UInt64) : w.named.run roots = w.run roots := by
  have hdepth : w.named.depth = w.depth := rfl
  unfold run
  simp only [named_filterRoots, hdepth, named_admitRoots, named_hops]

end Walk

namespace Queries

variable (q : Queries) (name direction : String) (depth max_syms root_limit : Nat) (filt : PathFilter)

theorem named_do_callgraph : q.named.do_callgraph name direction depth max_syms false root_limit filt =
    q.do_callgraph name direction depth max_syms false root_limit filt := by
  have hwalk : q.named.callWalk direction depth max_syms filt = (q.callWalk direction depth max_syms filt).named := rfl
  have hroots : q.named.walkRoots name false root_limit = q.walkRoots name false root_limit := rfl
  unfold do_callgraph
  simp only [hwalk, hroots, Walk.named_run]

end Queries

/-! ## From the builder -/

/-- What a lookup of the rows of a key answers. -/
def rowsAt {ρ α : Type} (l : List ρ) (key : ρ → UInt64) (read : ρ → α) (k : UInt64) : Res (List α) :=
  if k = u64Max then if ∃ r ∈ l, key r < u64Max then .error .panic else .ok []
  else .ok ((l.filter fun r => key r = k).map read)

/-- The answers of the index of a builder. -/
def IndexBuilder.answers (b : IndexBuilder) : Queries where
  sym_meta s := .ok (b.syms[s]?.map fun m => (m.name, m.kind, m.lang))
  syms_for_name q := .ok (sortDedup ((b.nameIndex.filter fun e => decide (as_bytes e.1 = as_bytes q)).map Prod.snd))
  syms_matching_substring _ _ := .ok []
  syms_matching_substring_ci _ _ := .ok []
  xrefs s lo hi := if s = u64Max ∧ hi = 255 then [] else rowsOfRole (sortDedup b.xrefs) s lo hi
  file_path file := .ok b.files[file]?
  type_of s := .ok (bestText b.typed s)
  sig_of s := .ok (bestText b.sig s)
  members := rowsAt (sortDedup b.childof) InhRow.fst InhRow.snd
  inherits_of := rowsAt (sortDedup b.inherits) InhRow.fst InhRow.snd
  inherited_by := rowsAt (sortDedup (b.inherits.map fun r => InhRow.mk r.snd r.fst)) InhRow.fst InhRow.snd
  calls_from := rowsAt (sortDedup b.calls) CallRow.fst fun r => (r.snd, r.role)
  called_by := rowsAt (sortDedup (b.calls.map fun r => CallRow.mk r.snd r.fst r.role)) CallRow.fst
    fun r => (r.snd, r.role)

theorem rowsOfKey_at {ρ α : Type} [LinearOrder ρ] {key : ρ → UInt64} {zero : UInt64 → ρ} {enc : ρ → Bytes} {n : Nat}
    {l : List ρ} (hk : Keyed key zero) (hz : ∀ k, key (zero k) = k) (henc : ∀ r, (enc r).length = n)
    (hzero : ∀ k, enc (zero k) = be64 k ++ List.replicate (n - 8) 0)
    (hlt : ∀ a b, enc a < enc b ↔ a < b) (hl : l.Pairwise (· < ·)) (dec : Bytes → α) :
    (fun k => Index.rowsOfKey (l.flatMap enc) l.length n k dec) = rowsAt l key fun r => dec (enc r) := by
  funext k
  unfold rowsAt
  split_ifs with hmax hex
  · rw [hmax, rowsOfKey_max hk henc hzero hlt hl dec, if_pos hex]
  · rw [hmax, rowsOfKey_max hk henc hzero hlt hl dec, if_neg hex]
  · exact rowsOfKey_eq hk hz henc hzero hlt hl dec hmax

theorem inhRows_at {l : List InhRow} (hl : l.Pairwise (· < ·)) :
    (fun k => Index.rowsOfKey (l.flatMap InhRow.encode) l.length INH_LEN k fun row => (InhRow.decode row).snd) =
      rowsAt l InhRow.fst InhRow.snd := by
  have h := rowsOfKey_at inhRow_keyed (fun _ => rfl) InhRow.encode_length inhRow_zero InhRow.encode_lt_iff hl
    fun row => (InhRow.decode row).snd
  simp only [InhRow.decode_encode] at h
  exact h

theorem callRows_at {l : List CallRow} (hl : l.Pairwise (· < ·)) :
    (fun k => Index.rowsOfKey (l.flatMap CallRow.encode) l.length CALL_LEN k fun row =>
      ((CallRow.decode row).snd, (CallRow.decode row).role)) = rowsAt l CallRow.fst fun r => (r.snd, r.role) := by
  have h := rowsOfKey_at callRow_keyed (fun _ => rfl) CallRow.encode_length callRow_zero CallRow.encode_lt_iff hl
    fun row => ((CallRow.decode row).snd, (CallRow.decode row).role)
  simp only [CallRow.decode_encode] at h
  exact h

theorem xrefs_at {ix : Index} {l : List XrefRow} (hslice : ix.xrefs_slice = l.flatMap XrefRow.encode)
    (hn : ix.hdr.xrefs_n = l.length) (hl : l.Pairwise (· < ·)) (sym : UInt64) (lo hi : UInt8) :
    ix.xrefs sym lo hi = if sym = u64Max ∧ hi = 255 then [] else rowsOfRole l sym lo hi := by
  split_ifs with hmax
  · rw [hmax.1, hmax.2]
    exact xrefs_max hslice hn hl lo
  · have hmax' : sym = u64Max → hi ≠ 255 := fun h h' => hmax ⟨h, h'⟩
    rcases le_or_gt lo hi with hlohi | hhilo
    · exact xrefs_exact hslice hn hl hlohi hmax'
    · have hstop : xrefStop sym hi ≤ ⟨sym, lo, 0, 0⟩ := by
        rw [← not_lt, lt_xrefStop_iff hmax']
        rintro (h | ⟨-, h⟩)
        · exact lt_irrefl _ h
        · exact absurd h (not_le.mpr hhilo)
      rw [xrefs_eq_rows hslice hn hl, Nat.sub_eq_zero_of_le (boundary_mono hstop), List.take_zero, eq_comm,
        rowsOfRole, List.filter_eq_nil_iff]
      intro r _ hr
      rw [decide_eq_true_eq] at hr
      exact absurd (hr.2.1.trans hr.2.2) (not_le.mpr hhilo)

namespace IndexBuilder

variable (b : IndexBuilder)

/-- The index that a builder writes answers from the builder. -/
theorem queries_named [Memmem] (hshort : b.Short) (htot : b.finishRows.total < 2 ^ 63) :
    ∃ ix, b.finish = .ok b.finishRows.bytes ∧ open_index b.finishRows.bytes = .ok ix ∧
      ix.Lays b.tables.rows ∧ ∀ parallelism, (ix.queries parallelism).named = b.answers := by
  obtain ⟨hf, ix, hopen, hix⟩ := b.opens htot
  rw [b.finishRows_eq] at htot hix
  refine ⟨ix, hf, hopen, hix, fun parallelism => ?_⟩
  have hclamp : b.facts.visible.clamped = b.facts.visible := Facts.clamped_of_short hshort.facts.visible
  have hmeta : ix.sym_meta = b.answers.sym_meta := by
    funext s
    rw [hix.sym_meta htot, hclamp]
    rfl
  have htype : ix.type_of = b.answers.type_of := by
    funext s
    rw [hix.type_of htot, hclamp]
    rfl
  have hsig : ix.sig_of = b.answers.sig_of := by
    funext s
    rw [hix.sig_of htot, hclamp]
    rfl
  have hpath : ix.file_path = b.answers.file_path := by
    funext file
    rw [hix.file_path htot, hclamp]
    rfl
  have hname : ix.syms_for_name = b.answers.syms_for_name := by
    funext q
    have hindex : b.nameIndex.filter (fun e => decide (as_bytes e.1 = as_bytes q)) =
        (b.tables.names.filter fun r => decide (as_bytes (r.text b.tables.blob) = as_bytes q)).map
          fun r => (r.text b.tables.blob, r.sym) := by
      rw [← b.tables_names hshort, List.filter_map]
      rfl
    rw [hix.syms_for_name htot, ← hindex]
    rfl
  have hxrefs : ix.xrefs = b.answers.xrefs := by
    funext s lo hi
    exact xrefs_at hix.xrefs (by rw [hix.hdr]; rfl) b.tables.xrefs_of.1 s lo hi
  have hmembers : ix.members = b.answers.members := by
    unfold Index.members
    rw [hix.childrev, hix.hdr]
    exact inhRows_at b.tables.childrev_of.1
  have hinh : ix.inherits_of = b.answers.inherits_of := by
    unfold Index.inherits_of
    rw [hix.inh, hix.hdr]
    exact inhRows_at b.tables.inh_of.1
  have hinhrev : ix.inherited_by = b.answers.inherited_by := by
    unfold Index.inherited_by answers
    rw [hix.inhrev, hix.hdr, ← b.tables_inhrev]
    exact inhRows_at b.tables.inhrev_enumerates.1
  have hcalls : ix.calls_from = b.answers.calls_from := by
    unfold Index.calls_from
    rw [hix.calls, hix.hdr]
    exact callRows_at b.tables.calls_of.1
  have hcrev : ix.called_by = b.answers.called_by := by
    unfold Index.called_by answers
    rw [hix.crev, hix.hdr, ← b.tables_crev]
    exact callRows_at b.tables.crev_enumerates.1
  unfold Queries.named Index.queries
  simp only [hmeta, htype, hsig, hpath, hname, hxrefs, hmembers, hinh, hinhrev, hcalls, hcrev]
  rfl

end IndexBuilder

end Scry2
