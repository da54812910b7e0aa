import Scry2.Walk

/-!
# Exact xref queries

`def`, `ref` and `callers` with an exact name list the rows of the name's symbols in the order of the
table, up to the cap, and say so when the cap was reached.
-/

open Scry2.Lib

namespace Scry2

/-! ## The rows of one symbol -/

namespace Queries

section

variable (ix : Queries) (filt : PathFilter)

/-- The path a hit shows. -/
def shownPath (file : UInt32) : String :=
  match ix.file_path file with
  | .ok p => p.getD "?"
  | .error _ => "?"

/-- Whether the site of a row passes `--in` and `--not-in`. -/
def rowPasses (r : XrefRow) : Bool := filt.passes (ix.shownPath r.file)

/-- Whether the definition of a symbol passes `--def-in`. -/
def defPasses (sym : UInt64) : Bool :=
  match filt.def_ok ix sym with
  | .ok ok => ok
  | .error _ => false

/-- The hit of a row. -/
def hitOf (r : XrefRow) : XrefHit := ⟨role_str r.role, ix.shownPath r.file, r.offset⟩

end

variable {ix : Queries} (hpath : ∀ file, ∃ p, ix.file_path file = .ok p) (filt : PathFilter)
include hpath

theorem shownPath_eq (file : UInt32) : ∃ p, ix.file_path file = .ok p ∧ ix.shownPath file = p.getD "?" := by
  obtain ⟨p, hp⟩ := hpath file
  exact ⟨p, hp, by unfold shownPath; rw [hp]⟩

theorem collectRows_eq {max_hits : Nat} (l : List XrefRow) (rows : List XrefHit) (total : Nat)
    (h : total < max_hits) :
    ∃ stop, ix.collectRows filt max_hits l rows total =
        .ok (rows ++ ((l.filter (ix.rowPasses filt)).take (max_hits - total)).map ix.hitOf,
          total + ((l.filter (ix.rowPasses filt)).take (max_hits - total)).length, stop) ∧
      (stop = true ↔ max_hits - total ≤ (l.filter (ix.rowPasses filt)).length) := by
  induction l generalizing rows total with
  | nil =>
    refine ⟨false, by simp [collectRows], ?_⟩
    simp only [Bool.false_eq_true, List.filter_nil, List.length_nil, false_iff]
    omega
  | cons r l ih =>
    obtain ⟨p, hp, hshown⟩ := shownPath_eq hpath r.file
    rw [collectRows, hp, Res.ok_bind]
    simp only [← hshown]
    cases hr : filt.passes (ix.shownPath r.file) with
    | false =>
      have hskip : ix.rowPasses filt r = false := hr
      rw [List.filter_cons_of_neg (by simp [hskip])]
      exact ih rows total h
    | true =>
      have hkeep : ix.rowPasses filt r = true := hr
      have hsub : max_hits - total = (max_hits - (total + 1)) + 1 := by omega
      rw [List.filter_cons_of_pos hkeep, hsub, List.take_succ_cons, List.map_cons, List.length_cons,
        List.length_cons]
      simp only [Bool.not_true, Bool.false_eq_true, if_false, Nat.add_le_add_iff_right]
      split_ifs with hlim
      · rw [show max_hits - (total + 1) = 0 by omega, List.take_zero]
        exact ⟨true, by simp [hitOf, pure, Except.pure], by simp⟩
      · obtain ⟨stop, hstop, hiff⟩ := ih (rows ++ [ix.hitOf r]) (total + 1) (by omega)
        refine ⟨stop, ?_, hiff⟩
        rw [List.append_assoc, List.singleton_append, Nat.add_assoc, Nat.add_comm 1] at hstop
        exact hstop

end Queries

/-! ## All symbols -/

namespace Queries

section

variable (ix : Queries) (filt : PathFilter) (roles : UInt8 × UInt8)

/-- The rows of one symbol that are wanted. -/
def rowsOf (sym : UInt64) : List XrefRow :=
  if ix.defPasses filt sym then (ix.xrefs sym roles.1 roles.2).filter (ix.rowPasses filt) else []

end

/-- Every lookup answers. -/
structure Answers (ix : Queries) : Prop where
  sym_meta : ∀ s, ∃ m, ix.sym_meta s = .ok m
  type_of : ∀ s, ∃ o, ix.type_of s = .ok o
  sig_of : ∀ s, ∃ o, ix.sig_of s = .ok o
  file_path : ∀ file, ∃ p, ix.file_path file = .ok p

section

variable {ix : Queries} (h : ix.Answers)
include h

theorem Answers.firstPath (rows : List XrefRow) : ∃ p, ix.firstPath rows = .ok p := by
  induction rows with
  | nil => exact ⟨none, rfl⟩
  | cons r rows ih =>
    obtain ⟨p, hp⟩ := h.file_path r.file
    rw [Queries.firstPath, hp, Res.ok_bind]
    cases p with
    | some p => exact ⟨some p, rfl⟩
    | none => exact ih

theorem Answers.def_ok (filt : PathFilter) (sym : UInt64) :
    filt.def_ok ix sym = .ok (ix.defPasses filt sym) := by
  have hok : ∃ ok, filt.def_ok ix sym = .ok ok := by
    unfold PathFilter.def_ok
    split
    · exact ⟨_, rfl⟩
    · split
      · exact ⟨_, rfl⟩
      · obtain ⟨p, hp⟩ := h.firstPath (ix.xrefs sym Role.DECL Role.DEF)
        rw [sym_def_path, hp]
        exact ⟨_, rfl⟩
  obtain ⟨ok, hok⟩ := hok
  unfold defPasses
  rw [hok]

theorem Answers.head (with_type : Bool) (sym : UInt64) :
    ∃ m typed sig, ix.metaOr sym = .ok m ∧ ifAsked with_type (ix.type_of sym) = .ok typed ∧
      ifAsked with_type (ix.sig_of sym) = .ok sig := by
  obtain ⟨m, hm⟩ := h.sym_meta sym
  have hmeta : ix.metaOr sym = .ok (m.getD ("?", 0, 0)) := by
    unfold metaOr
    rw [hm]
    rfl
  cases with_type with
  | false => exact ⟨_, none, none, hmeta, rfl, rfl⟩
  | true =>
    obtain ⟨typed, ht⟩ := h.type_of sym
    obtain ⟨sig, hs⟩ := h.sig_of sym
    exact ⟨_, typed, sig, hmeta, ht, hs⟩

end

/-- A group shows some rows of one symbol, and at least one. -/
structure Shows (ix : Queries) (with_type : Bool) (g : SymbolGroup) (part : UInt64 × List XrefRow) : Prop where
  name : ∃ knd lng, ix.metaOr part.1 = .ok (g.name, knd, lng) ∧ g.kind = kind_str knd ∧ g.lang = lang_str lng
  typed : ifAsked with_type (ix.type_of part.1) = .ok g.typed
  sig : ifAsked with_type (ix.sig_of part.1) = .ok g.sig
  rows : g.rows = part.2.map ix.hitOf
  ne : part.2 ≠ []

/-- The loop over the symbols keeps the wanted rows, cut at the cap. -/
theorem Answers.collectGroups {ix : Queries} (h : ix.Answers) (filt : PathFilter) (roles : UInt8 × UInt8)
    (with_type : Bool) {max_hits : Nat} (syms : List UInt64) (groups : List SymbolGroup) (total : Nat)
    (hmax : total < max_hits) :
    ∃ more parts truncated, ix.collectGroups filt max_hits roles with_type syms groups total false =
        .ok (groups ++ more, total + ((syms.flatMap (ix.rowsOf filt roles)).take (max_hits - total)).length,
          truncated) ∧
      (truncated = true ↔ max_hits - total ≤ (syms.flatMap (ix.rowsOf filt roles)).length) ∧
      List.Forall₂ (ix.Shows with_type) more parts ∧
      parts.flatMap (·.2) = (syms.flatMap (ix.rowsOf filt roles)).take (max_hits - total) ∧
      ∀ p ∈ parts, p.1 ∈ syms ∧ ∀ r ∈ p.2, r ∈ ix.rowsOf filt roles p.1 := by
  induction syms generalizing groups total with
  | nil =>
    refine ⟨[], [], false, by simp [Queries.collectGroups], ?_, .nil, by simp, by simp⟩
    simp only [Bool.false_eq_true, List.flatMap_nil, List.length_nil, false_iff]
    omega
  | cons sym syms ih =>
    rw [Queries.collectGroups, h.def_ok, Res.ok_bind]
    cases hd : ix.defPasses filt sym with
    | false =>
      have hnil : ix.rowsOf filt roles sym = [] := by
        unfold rowsOf
        rw [hd]
        rfl
      rw [List.flatMap_cons, hnil, List.nil_append]
      obtain ⟨more, parts, truncated, heq, hiff, hshow, hparts, hmem⟩ := ih groups total hmax
      exact ⟨more, parts, truncated, heq, hiff, hshow, hparts,
        fun p hp => ⟨List.mem_cons_of_mem _ (hmem p hp).1, (hmem p hp).2⟩⟩
    | true =>
      obtain ⟨⟨sname, knd, lng⟩, typed, sig, hm, ht, hs⟩ := h.head with_type sym
      have hrows : (ix.xrefs sym roles.1 roles.2).filter (ix.rowPasses filt) = ix.rowsOf filt roles sym := by
        unfold rowsOf
        rw [hd]
        rfl
      obtain ⟨stop, hcollect, hstop⟩ := collectRows_eq h.file_path filt (ix.xrefs sym roles.1 roles.2) [] total hmax
      rw [hrows, List.nil_append] at hcollect
      rw [hrows] at hstop
      simp only [Bool.not_true, Bool.false_eq_true, if_false]
      rw [hm, Res.ok_bind]
      simp only
      rw [ht, Res.ok_bind, hs, Res.ok_bind, hcollect, Res.ok_bind, List.flatMap_cons]
      simp only
      generalize hown : ix.rowsOf filt roles sym = own at *
      cases stop with
      | true =>
        -- The cap is reached among the rows of this symbol.
        have hle := hstop.mp rfl
        have htake : (own ++ syms.flatMap (ix.rowsOf filt roles)).take (max_hits - total) =
            own.take (max_hits - total) := List.take_append_of_le_length hle
        have hne : own.take (max_hits - total) ≠ [] := by
          rw [Ne, List.take_eq_nil_iff]
          rintro (h0 | h0)
          · omega
          · rw [h0, List.length_nil] at hle
            omega
        rw [if_pos rfl, htake]
        refine ⟨[⟨sname, kind_str knd, lang_str lng, typed, sig, (own.take (max_hits - total)).map ix.hitOf⟩],
          [(sym, own.take (max_hits - total))], true, rfl, ?_, .cons ⟨⟨knd, lng, hm, rfl, rfl⟩, ht, hs, rfl, hne⟩ .nil,
          by simp, ?_⟩
        · rw [List.length_append]
          simp only [true_iff]
          omega
        · refine List.forall_mem_singleton.mpr ⟨List.mem_cons_self, fun r hr => ?_⟩
          rw [hown]
          exact List.mem_of_mem_take hr
      | false =>
        -- All rows of this symbol fit, and the loop goes on.
        have hlt : ¬ max_hits - total ≤ own.length := fun hle => by simpa using hstop.mpr hle
        have hall : own.take (max_hits - total) = own := List.take_of_length_le (by omega)
        rw [if_neg (by simp), hall]
        obtain ⟨more, parts, truncated, heq, hiff, hshow, hparts, hmem⟩ :=
          ih (if own.map ix.hitOf = [] then groups
            else groups ++ [⟨sname, kind_str knd, lang_str lng, typed, sig, own.map ix.hitOf⟩])
            (total + own.length) (by omega)
        have hsub : max_hits - (total + own.length) = max_hits - total - own.length := by omega
        have htake : (own ++ syms.flatMap (ix.rowsOf filt roles)).take (max_hits - total) =
            own ++ (syms.flatMap (ix.rowsOf filt roles)).take (max_hits - (total + own.length)) := by
          rw [List.take_append, hall, hsub]
        have hmem' : ∀ p ∈ parts, p.1 ∈ sym :: syms ∧ ∀ r ∈ p.2, r ∈ ix.rowsOf filt roles p.1 :=
          fun p hp => ⟨List.mem_cons_of_mem _ (hmem p hp).1, (hmem p hp).2⟩
        have hlen : (own ++ syms.flatMap (ix.rowsOf filt roles)).length =
            own.length + (syms.flatMap (ix.rowsOf filt roles)).length := List.length_append
        rw [htake, List.length_append, ← Nat.add_assoc, heq, hlen]
        have hiff' : truncated = true ↔
            max_hits - total ≤ own.length + (syms.flatMap (ix.rowsOf filt roles)).length := by
          rw [hiff]
          omega
        by_cases hnil : own = []
        · refine ⟨more, parts, truncated, by simp [hnil], hiff', hshow, ?_, hmem'⟩
          rw [hparts, hnil]
          rfl
        · have hgroup : ix.Shows with_type ⟨sname, kind_str knd, lang_str lng, typed, sig, own.map ix.hitOf⟩
              (sym, own) := ⟨⟨knd, lng, hm, rfl, rfl⟩, ht, hs, rfl, hnil⟩
          refine ⟨_ :: more, (sym, own) :: parts, truncated, ?_, hiff', .cons hgroup hshow, ?_, ?_⟩
          · rw [if_neg (by simpa using hnil), List.append_assoc]
            rfl
          · rw [List.flatMap_cons, hparts]
          · refine List.forall_mem_cons.mpr ⟨⟨List.mem_cons_self, fun r hr => ?_⟩, hmem'⟩
            rw [hown]
            exact hr

end Queries

/-! ## Requests -/

/-- The requests for an exact name, with the roles, the cap and the filters they ask for. -/
inductive ExactXrefs : Request → String → UInt8 × UInt8 → Nat → PathFilter → Prop
  | Def (name : String) (ignore_case : Bool) (limit : Nat) (in_ not_in : Option String) :
      ExactXrefs (.Def name false ignore_case limit in_ not_in) name (Role.DECL, Role.DEF) usizeMax
        ⟨in_, not_in, none⟩
  | Ref (name : String) (ignore_case : Bool) (limit max_hits : Nat) (in_ not_in def_in : Option String) :
      ExactXrefs (.Ref name false ignore_case limit max_hits in_ not_in def_in) name (0, 255) max_hits
        ⟨in_, not_in, def_in⟩
  | Callers (name : String) (ignore_case : Bool) (limit max_hits : Nat) (in_ not_in def_in : Option String) :
      ExactXrefs (.Callers name false ignore_case limit max_hits in_ not_in def_in) name
        (Role.CALL, Role.CALL) max_hits ⟨in_, not_in, def_in⟩

theorem ExactXrefs.role_le {req : Request} {name : String} {roles : UInt8 × UInt8} {max_hits : Nat}
    {filt : PathFilter} (h : ExactXrefs req name roles max_hits filt) : roles.1 ≤ roles.2 := by
  cases h <;> decide

theorem ExactXrefs.dispatch_eq {req : Request} {name : String} {roles : UInt8 × UInt8} {max_hits : Nat}
    {filt : PathFilter} (h : ExactXrefs req name roles max_hits filt) (ix : Queries) :
    ∃ with_type, dispatch ix req = (do
      let (groups, total, truncated) ←
        ix.collectGroups filt max_hits roles with_type (← ix.syms_for_name name) [] 0 false
      return .Xrefs groups total truncated) := by
  cases h with
  | Def => exact ⟨true, rfl⟩
  | Ref => exact ⟨false, rfl⟩
  | Callers => exact ⟨false, rfl⟩

/-- The rows of the table that an exact request asks for. -/
def Index.wanted (ix : Index) (q : Queries) (filt : PathFilter) (roles : UInt8 × UInt8) (syms : List UInt64) :
    List XrefRow :=
  ix.iter_xrefs.filter fun r => decide (r.sym ∈ syms ∧ roles.1 ≤ r.role ∧ r.role ≤ roles.2) &&
    (q.defPasses filt r.sym && q.rowPasses filt r)

section

variable {F : Facts} {t : Tables F} {ix : Index} (hix : ix.Lays t.rows)
include hix

theorem Index.Lays.iter_xrefs : ix.iter_xrefs = t.xrefs := by
  rw [Index.iter_xrefs, hix.xrefs, hix.hdr]
  exact tableRows_flatMap (l := t.xrefs) XrefRow.encode_length fun _ _ => XrefRow.decode_encode _

theorem Index.Lays.xrefs_below (hmax : ∀ r ∈ ix.iter_xrefs, r.sym < u64Max) {roles : UInt8 × UInt8}
    (hroles : roles.1 ≤ roles.2) (sym : UInt64) :
    ix.xrefs sym roles.1 roles.2 = rowsOfRole t.xrefs sym roles.1 roles.2 := by
  rw [hix.iter_xrefs] at hmax
  exact (xrefs_exact_iff hix.xrefs (by rw [hix.hdr]; rfl) t.xrefs_of.1 sym hroles).mpr
    fun _ _ r hr e => absurd e (hmax r hr).ne

variable [Memmem] (parallelism : Nat)

theorem Index.Lays.answers (h : t.rows.total < 2 ^ 63) : (ix.queries parallelism).Answers where
  sym_meta s := ⟨_, hix.sym_meta h s⟩
  type_of s := ⟨_, hix.type_of h s⟩
  sig_of s := ⟨_, hix.sig_of h s⟩
  file_path file := ⟨_, hix.file_path h file⟩

variable (hmax : ∀ r ∈ ix.iter_xrefs, r.sym < u64Max) (filt : PathFilter) {roles : UInt8 × UInt8}
  (hroles : roles.1 ≤ roles.2)
include hmax hroles

/-- The wanted rows of one symbol, as rows of the table. -/
theorem Index.Lays.mem_rowsOf (sym : UInt64) (r : XrefRow) :
    r ∈ (ix.queries parallelism).rowsOf filt roles sym ↔
      r ∈ ix.wanted (ix.queries parallelism) filt roles [sym] := by
  have hq : (ix.queries parallelism).xrefs = ix.xrefs := rfl
  rw [Index.wanted, hix.iter_xrefs, Queries.rowsOf, hq, hix.xrefs_below hmax hroles, rowsOfRole]
  simp only [List.mem_filter, List.mem_singleton, Bool.and_eq_true, decide_eq_true_eq]
  constructor
  · intro h
    split_ifs at h with hd
    · simp only [List.mem_filter, decide_eq_true_eq] at h
      obtain ⟨⟨hr, rfl, hrole⟩, hp⟩ := h
      exact ⟨hr, ⟨rfl, hrole⟩, hd, hp⟩
    · exact absurd h List.not_mem_nil
  · rintro ⟨hr, ⟨rfl, hrole⟩, hd, hp⟩
    rw [if_pos hd]
    simp only [List.mem_filter, decide_eq_true_eq]
    exact ⟨⟨hr, trivial, hrole⟩, hp⟩

theorem Index.Lays.rowsOf_pairwise (sym : UInt64) :
    ((ix.queries parallelism).rowsOf filt roles sym).Pairwise (· < ·) := by
  have hq : (ix.queries parallelism).xrefs = ix.xrefs := rfl
  unfold Queries.rowsOf
  split_ifs with hd
  · rw [hq, hix.xrefs_below hmax hroles, rowsOfRole]
    exact (t.xrefs_of.1.filter _).filter _
  · exact .nil

/-- Symbol by symbol, the rows come in the order of the table. -/
theorem Index.Lays.flatMap_rowsOf {syms : List UInt64} (hsyms : syms.Pairwise (· < ·)) :
    syms.flatMap ((ix.queries parallelism).rowsOf filt roles) =
      ix.wanted (ix.queries parallelism) filt roles syms := by
  have hmem := hix.mem_rowsOf parallelism hmax filt hroles
  have hsym : ∀ s, ∀ r ∈ (ix.queries parallelism).rowsOf filt roles s, r.sym = s := by
    intro s r hr
    have hr := (hmem s r).mp hr
    simp only [Index.wanted, List.mem_filter, Bool.and_eq_true, decide_eq_true_eq, List.mem_singleton] at hr
    exact hr.2.1.1
  have hsorted : ix.iter_xrefs.Pairwise (· < ·) := hix.iter_xrefs ▸ t.xrefs_of.1
  refine Enumerates.eq ⟨?_, fun r => ?_⟩ (Enumerates.of_pairwise (hsorted.filter _))
  · rw [List.pairwise_flatMap]
    refine ⟨fun s _ => hix.rowsOf_pairwise parallelism hmax filt hroles s, hsyms.imp ?_⟩
    intro a b hab x hx y hy
    rw [XrefRow.lt_iff, hsym a x hx, hsym b y hy]
    exact .inl hab
  · simp only [List.mem_flatMap, hmem, Index.wanted, List.mem_filter, List.mem_singleton,
      Bool.and_eq_true, decide_eq_true_eq, Set.mem_ofPred_eq]
    constructor
    · rintro ⟨s, hs, hr, ⟨rfl, hrole⟩, hp⟩
      exact ⟨hr, ⟨hs, hrole⟩, hp⟩
    · rintro ⟨hr, ⟨hs, hrole⟩, hp⟩
      exact ⟨r.sym, hs, hr, ⟨rfl, hrole⟩, hp⟩

end

/-! ## On a written index -/

section

variable [Unicode] [Memmem]

/-- The answer of an exact request lists the wanted rows from the first one on. It says it was cut
whenever a row is missing. -/
theorem exact_xrefs_complete {f : Bytes} {ix : Index} (hf : Produced f) (hopen : open_index f = .ok ix)
    (hbelow : ∀ r ∈ ix.iter_xrefs, r.sym < u64Max) (parallelism : Nat) {req : Request} {name : String}
    {roles : UInt8 × UInt8} {max_hits : Nat} {filt : PathFilter}
    (hreq : ExactXrefs req name roles max_hits filt) (hmax : 1 ≤ max_hits) :
    ∃ syms groups total truncated parts with_type,
      ix.syms_for_name name = .ok syms ∧
      dispatch (ix.queries parallelism) req = .ok (.Xrefs groups total truncated) ∧
      total = (groups.map fun g => g.rows.length).sum ∧ total ≤ max_hits ∧
      List.Forall₂ ((ix.queries parallelism).Shows with_type) groups parts ∧
      (∀ p ∈ parts, ∀ r ∈ p.2, r.sym = p.1) ∧
      (ix.wanted (ix.queries parallelism) filt roles syms).Pairwise (· < ·) ∧
      parts.flatMap (·.2) <+: ix.wanted (ix.queries parallelism) filt roles syms ∧
      (truncated = false → parts.flatMap (·.2) = ix.wanted (ix.queries parallelism) filt roles syms) := by
  obtain ⟨F, -, t, ht⟩ := hf.renders
  obtain ⟨htot, ix', hopen', hix⟩ := t.open_file ht
  cases hopen.symm.trans hopen'
  obtain ⟨with_type, hdispatch⟩ := hreq.dispatch_eq (ix.queries parallelism)
  obtain ⟨syms, hsyms, hasc⟩ : ∃ syms, ix.syms_for_name name = .ok syms ∧ syms.Pairwise (· < ·) :=
    ⟨_, hix.syms_for_name htot name, sortDedup_pairwise _⟩
  have hwanted := hix.flatMap_rowsOf parallelism hbelow filt hreq.role_le hasc
  obtain ⟨groups, parts, truncated, hgroups, htrunc, hshow, hparts, hmem⟩ :=
    (hix.answers parallelism htot).collectGroups filt roles with_type syms [] 0 hmax
  rw [hwanted, Nat.sub_zero] at hparts hgroups htrunc
  have hq : (ix.queries parallelism).syms_for_name = ix.syms_for_name := rfl
  rw [hq, hsyms, Res.ok_bind, hgroups, Res.ok_bind, ← hparts] at hdispatch
  refine ⟨syms, _, _, truncated, parts, with_type, hsyms, hdispatch, ?_, ?_, hshow, fun p hp r hr => ?_, ?_, ?_, ?_⟩
  · rw [Nat.zero_add, List.nil_append, List.length_flatMap]
    congr 1
    refine IndexBuilder.map_eq_of_forall₂ hshow fun g _ p hgp => ?_
    rw [hgp.rows, List.length_map]
  · rw [hparts, List.length_take]
    omega
  · have hr := (hix.mem_rowsOf parallelism hbelow filt hreq.role_le p.1 r).mp ((hmem p hp).2 r hr)
    simp only [Index.wanted, List.mem_filter, Bool.and_eq_true, decide_eq_true_eq, List.mem_singleton] at hr
    exact hr.2.1.1
  · exact (hix.iter_xrefs ▸ t.xrefs_of.1).filter _
  · rw [hparts]
    exact List.take_prefix _ _
  · intro hfalse
    rw [hparts]
    refine List.take_of_length_le ?_
    have hnot : ¬ max_hits ≤ _ := fun hle => by simpa [hfalse] using htrunc.mpr hle
    omega

end

section

attribute [local instance] asciiUnicode naiveMemmem

/-- A function with two references. -/
def twoRefs : IndexBuilder :=
  (((IndexBuilder.new.upsert_file 1 "a.cc").upsert_sym 7 Kind.FUNCTION Lang.CXX "f").add_xref 7 Role.REF 1
    20).add_xref 7 Role.REF 1 10

theorem exact_xrefs_complete_twoRefs :
    ∃ f ix groups total truncated, twoRefs.finish = .ok f ∧ open_index f = .ok ix ∧
      dispatch (ix.queries 1) (.Ref "f" false false 1 1 none none none) = .ok (.Xrefs groups total truncated) ∧
      total = (groups.map fun g => g.rows.length).sum ∧ total ≤ 1 := by
  have htot : twoRefs.finishRows.total < 2 ^ 63 := by decide +kernel
  obtain ⟨hf, ix, hopen, hix⟩ := twoRefs.opens htot
  rw [twoRefs.finishRows_eq] at hix
  have hbelow : ∀ r ∈ ix.iter_xrefs, r.sym < u64Max := by
    rw [hix.iter_xrefs]
    intro r hr
    rw [show twoRefs.tables.xrefs = sortDedup twoRefs.xrefs from rfl, mem_sortDedup] at hr
    exact (show ∀ r ∈ twoRefs.xrefs, r.sym < u64Max by decide +kernel) r hr
  obtain ⟨-, groups, total, truncated, -, -, -, hdispatch, htotal, hle, -⟩ :=
    exact_xrefs_complete (.finish hf) hopen hbelow 1 (.Ref "f" false 1 1 none none none) le_rfl
  exact ⟨_, ix, groups, total, truncated, hf, hopen, hdispatch, htotal, hle⟩

end

end Scry2
