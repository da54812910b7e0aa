import Scry2.Lib.Groups
import Scry2.XrefQuery
import Scry2.Answers

/-!
# Supertypes and subtypes

`do_inh` of `server.rs` lists what the symbols of a name inherit from, or what inherits from them.
The copies of one element are one hit, which takes its place of definition and its name from
whichever copy has them.
-/

open Scry2.Lib

namespace Scry2

structure InhHit where
  name : String
  def_ : Option String
  deriving DecidableEq

/-- The tables of `do_inh`. The groups are the entries of `groups` in the order of `order`. -/
structure InhState where
  seen : List UInt64 := []
  groups : List (String × List UInt64) := []

namespace Queries

variable (ix : Queries) (filt : PathFilter) (sub : Bool)

def related (sym : UInt64) : Res (List UInt64) := if sub then ix.inherited_by sym else ix.inherits_of sym

/-- Whether a related symbol is kept. -/
def inhPass (r : UInt64) : Res Bool :=
  if !filt.has_in_out then .ok true
  else do return filt.passes ((← ix.sym_def_path r).getD "")

/-- One related symbol. -/
def noteRelated (st : InhState) (r : UInt64) : Res InhState :=
  if r ∈ st.seen then .ok st
  else do
    let st := { st with seen := r :: st.seen }
    if !(← ix.inhPass filt r) then return st
    else return { st with groups := insertGroup (logical_key (← ix.name_of r)) r st.groups }

/-- The loop over the symbols of the name. -/
def noteAll : List UInt64 → InhState → Res InhState
  | [], st => .ok st
  | sym :: syms, st => do noteAll syms (← (← ix.related sub sym).foldlM (ix.noteRelated filt) st)

/-- The definition of the first copy that has one. -/
def firstDef : List UInt64 → Res (Option String)
  | [] => .ok none
  | m :: members => do
    match ← ix.def_loc_str m with
    | some loc => return some loc
    | none => firstDef members

/-- The first copy whose name is not a ticket. -/
def firstReadable : List UInt64 → Res (Option UInt64)
  | [] => .ok none
  | m :: members => do
    if !is_ticket_name (← ix.name_of m) then return some m else firstReadable members

def inhHit (members : List UInt64) : Res InhHit := do
  let def_ ← ix.firstDef members
  match (← ix.firstReadable members).or members.head? with
  | none => .error .panic
  | some rep => return ⟨← ix.display_name rep (← ix.name_of rep), def_⟩

/-- The hits and their number. -/
def do_inh (name : String) (substr : Bool) (limit : Nat) (sub : Bool) (filt : PathFilter) :
    Res (List InhHit × Nat) := do
  let syms ← ix.walkRoots name substr limit
  let st ← ix.noteAll filt sub syms {}
  let hits ← st.groups.mapM fun g => ix.inhHit g.2
  return (hits, hits.length)

end Queries

/-! ## Lookups that answer -/

namespace Queries

section

variable (ix : Queries)

/-- The logical key of the name a symbol goes by. -/
def elementOf (s : UInt64) : String :=
  match ix.name_of s with
  | .ok name => logical_key name
  | .error _ => ""

def inhPasses (filt : PathFilter) (r : UInt64) : Bool :=
  match ix.inhPass filt r with
  | .ok ok => ok
  | .error _ => false

end

variable {ix : Queries} (h : ix.Answers)
include h

theorem Answers.name_of (s : UInt64) : ∃ name, ix.name_of s = .ok name ∧ ix.elementOf s = logical_key name := by
  obtain ⟨m, hm⟩ := h.sym_meta s
  have hname : ix.name_of s = .ok ((m.map (·.1)).getD ("<sym " ++ hex16 s ++ ">")) := by
    unfold Queries.name_of
    rw [hm]
    rfl
  refine ⟨_, hname, ?_⟩
  unfold elementOf
  rw [hname]

theorem Answers.inhPass (filt : PathFilter) (r : UInt64) : ix.inhPass filt r = .ok (ix.inhPasses filt r) := by
  have hok : ∃ ok, ix.inhPass filt r = .ok ok := by
    unfold Queries.inhPass
    split_ifs with hno
    · exact ⟨true, rfl⟩
    · obtain ⟨p, hp⟩ := h.firstPath (ix.xrefs r Role.DECL Role.DEF)
      rw [sym_def_path, hp]
      exact ⟨_, rfl⟩
  obtain ⟨ok, hok⟩ := hok
  unfold inhPasses
  rw [hok]

theorem Answers.def_loc_str (s : UInt64) : ∃ loc, ix.def_loc_str s = .ok loc := by
  unfold Queries.def_loc_str
  cases ix.sym_def_loc s with
  | none => exact ⟨none, rfl⟩
  | some loc =>
    obtain ⟨p, hp⟩ := h.file_path loc.1
    simp only [hp]
    exact ⟨_, rfl⟩

theorem Answers.display_name (s : UInt64) (name : String) : ∃ shown, ix.display_name s name = .ok shown := by
  unfold Queries.display_name
  split_ifs with hticket
  · exact ⟨name, rfl⟩
  · cases ix.sym_def_loc s with
    | none => exact ⟨_, rfl⟩
    | some loc =>
      obtain ⟨p, hp⟩ := h.file_path loc.1
      simp only [hp]
      cases p with
      | none => exact ⟨_, rfl⟩
      | some path => exact ⟨_, rfl⟩

/-! ## The groups -/

omit h in
/-- The symbols among `l` that are kept, each once. -/
def keptOf (ix : Queries) (filt : PathFilter) (l : List UInt64) : List UInt64 :=
  (distinct l).filter (ix.inhPasses filt)

omit h in
/-- The tables after the related symbols `l`. -/
structure Noted (ix : Queries) (filt : PathFilter) (l : List UInt64) (st : InhState) : Prop where
  seen : ∀ r, r ∈ st.seen ↔ r ∈ l
  groups : st.groups = groups ix.elementOf (ix.keptOf filt l)

theorem Noted.step {filt : PathFilter} {l : List UInt64} {st : InhState} (hst : ix.Noted filt l st) (r : UInt64) :
    ∃ st', ix.noteRelated filt st r = .ok st' ∧ ix.Noted filt (l ++ [r]) st' := by
  unfold noteRelated
  have hdistinct : distinct (l ++ [r]) = if r ∈ l then distinct l else distinct l ++ [r] := eraseDups_concat l r
  by_cases hr : r ∈ l
  · rw [if_pos ((hst.seen r).mpr hr)]
    rw [if_pos hr] at hdistinct
    refine ⟨st, rfl, fun x => ?_, by rw [keptOf, hdistinct]; exact hst.groups⟩
    rw [hst.seen, List.mem_append, List.mem_singleton]
    exact ⟨.inl, fun hx => hx.elim id fun e => e ▸ hr⟩
  · rw [if_neg fun hs => hr ((hst.seen r).mp hs), h.inhPass, Res.ok_bind]
    rw [if_neg hr] at hdistinct
    have hseen : ∀ x, x ∈ r :: st.seen ↔ x ∈ l ++ [r] := by
      intro x
      rw [List.mem_cons, hst.seen, List.mem_append, List.mem_singleton, or_comm]
    cases hpass : ix.inhPasses filt r with
    | false =>
      refine ⟨_, rfl, hseen, ?_⟩
      rw [keptOf, hdistinct, List.filter_append, List.filter_singleton, hpass]
      simpa [keptOf] using hst.groups
    | true =>
      obtain ⟨name, hname, hkey⟩ := h.name_of r
      simp only [Bool.not_true, Bool.false_eq_true, if_false, hname, Res.ok_bind]
      refine ⟨_, rfl, hseen, ?_⟩
      simp only [keptOf]
      rw [hdistinct, List.filter_append, List.filter_singleton, hpass, hst.groups, ← hkey, insertGroup_groups]
      rfl

theorem Noted.run {filt : PathFilter} {l : List UInt64} {st : InhState} (hst : ix.Noted filt l st) (rs : List UInt64) :
    ∃ st', rs.foldlM (ix.noteRelated filt) st = .ok st' ∧ ix.Noted filt (l ++ rs) st' := by
  induction rs generalizing l st with
  | nil => exact ⟨st, rfl, by rwa [List.append_nil]⟩
  | cons r rs ih =>
    obtain ⟨st₁, hstep, hst₁⟩ := Noted.step h hst r
    obtain ⟨st', hrun, hst'⟩ := ih hst₁
    refine ⟨st', ?_, by simpa using hst'⟩
    rw [List.foldlM_cons, hstep, Res.ok_bind, hrun]

theorem Noted.all {filt : PathFilter} {sub : Bool} {rel : UInt64 → List UInt64} {l syms : List UInt64} {st : InhState}
    (hst : ix.Noted filt l st) (hrel : ∀ s ∈ syms, ix.related sub s = .ok (rel s)) :
    ∃ st', ix.noteAll filt sub syms st = .ok st' ∧ ix.Noted filt (l ++ syms.flatMap rel) st' := by
  induction syms generalizing l st with
  | nil => exact ⟨st, rfl, by simpa using hst⟩
  | cons sym syms ih =>
    obtain ⟨hsym, hrel⟩ := List.forall_mem_cons.mp hrel
    obtain ⟨st₁, hrun, hst₁⟩ := Noted.run h hst (rel sym)
    obtain ⟨st', hall, hst'⟩ := ih hst₁ hrel
    refine ⟨st', ?_, by simpa [List.append_assoc] using hst'⟩
    rw [noteAll, hsym, Res.ok_bind, hrun, Res.ok_bind, hall]

/-! ## The hits -/

theorem Answers.firstDef (members : List UInt64) :
    ∃ loc, ix.firstDef members = .ok loc ∧ (loc = none → ∀ m ∈ members, ix.def_loc_str m = .ok none) ∧
      ∀ d, loc = some d → ∃ m ∈ members, ix.def_loc_str m = .ok (some d) := by
  induction members with
  | nil => exact ⟨none, rfl, fun _ m hm => absurd hm List.not_mem_nil, fun d hd => (nomatch hd)⟩
  | cons m members ih =>
    obtain ⟨loc, hloc⟩ := h.def_loc_str m
    rw [Queries.firstDef, hloc, Res.ok_bind]
    cases loc with
    | some d =>
      refine ⟨some d, rfl, fun hd => (nomatch hd), fun d' hd => ⟨m, List.mem_cons_self, ?_⟩⟩
      rw [hloc, hd]
    | none =>
      obtain ⟨rest, hrest, hnone, hsome⟩ := ih
      refine ⟨rest, hrest, fun hr => List.forall_mem_cons.mpr ⟨hloc, hnone hr⟩, fun d hd => ?_⟩
      obtain ⟨m', hm', hloc'⟩ := hsome d hd
      exact ⟨m', List.mem_cons_of_mem _ hm', hloc'⟩

theorem Answers.firstReadable (members : List UInt64) :
    ∃ rep, ix.firstReadable members = .ok rep ∧
      (rep = none → ∀ m ∈ members, ∃ n, ix.name_of m = .ok n ∧ is_ticket_name n = true) ∧
      ∀ r, rep = some r → r ∈ members ∧ ∃ n, ix.name_of r = .ok n ∧ is_ticket_name n = false := by
  induction members with
  | nil => exact ⟨none, rfl, fun _ m hm => absurd hm List.not_mem_nil, fun r hr => (nomatch hr)⟩
  | cons m members ih =>
    obtain ⟨n, hn, -⟩ := h.name_of m
    rw [Queries.firstReadable, hn, Res.ok_bind]
    cases hticket : is_ticket_name n with
    | false =>
      refine ⟨some m, rfl, fun hr => (nomatch hr), fun r hr => ?_⟩
      cases hr
      exact ⟨List.mem_cons_self, n, hn, hticket⟩
    | true =>
      obtain ⟨rest, hrest, hnone, hsome⟩ := ih
      refine ⟨rest, hrest, fun hr => List.forall_mem_cons.mpr ⟨⟨n, hn, hticket⟩, hnone hr⟩, fun r hr => ?_⟩
      obtain ⟨hmem, hread⟩ := hsome r hr
      exact ⟨List.mem_cons_of_mem _ hmem, hread⟩

omit h in
/-- A hit shows the copies of one element: a place of definition unless none has one, and a readable
name unless none has one. -/
structure ShowsCopies (ix : Queries) (copies : List UInt64) (hit : InhHit) : Prop where
  def_none : hit.def_ = none → ∀ m ∈ copies, ix.def_loc_str m = .ok none
  def_some : ∀ d, hit.def_ = some d → ∃ m ∈ copies, ix.def_loc_str m = .ok (some d)
  name : ∃ rep ∈ copies, ∃ n, ix.name_of rep = .ok n ∧ ix.display_name rep n = .ok hit.name ∧
    (is_ticket_name n = true → ∀ m ∈ copies, ∃ n', ix.name_of m = .ok n' ∧ is_ticket_name n' = true)

theorem Answers.inhHit {copies : List UInt64} (hne : copies ≠ []) :
    ∃ hit, ix.inhHit copies = .ok hit ∧ ix.ShowsCopies copies hit := by
  obtain ⟨loc, hloc, hnone, hsome⟩ := h.firstDef copies
  obtain ⟨r, hr, hticket, hread⟩ := h.firstReadable copies
  have hrep : ∃ rep ∈ copies, r.or copies.head? = some rep ∧
      ∃ n, ix.name_of rep = .ok n ∧
        (is_ticket_name n = true → ∀ m ∈ copies, ∃ n', ix.name_of m = .ok n' ∧ is_ticket_name n' = true) := by
    cases r with
    | some rep =>
      obtain ⟨hmem, n, hn, hplain⟩ := hread rep rfl
      exact ⟨rep, hmem, rfl, n, hn, fun e => absurd (hplain.symm.trans e) Bool.false_ne_true⟩
    | none =>
      obtain ⟨m, hm⟩ := Option.ne_none_iff_exists'.mp (mt List.head?_eq_none_iff.mp hne)
      obtain ⟨n, hn, -⟩ := h.name_of m
      exact ⟨m, List.mem_of_head? hm, hm, n, hn, fun _ => hticket rfl⟩
  obtain ⟨rep, hmem, hor, n, hn, hall⟩ := hrep
  obtain ⟨shown, hshown⟩ := h.display_name rep n
  refine ⟨⟨shown, loc⟩, ?_, hnone, hsome, rep, hmem, n, hn, hshown, hall⟩
  unfold Queries.inhHit
  simp only [hloc, hr, Res.ok_bind, hor, hn, hshown]
  rfl

omit h in
theorem mapM_forall₂ {α β : Type} {f : α → Res β} {P : α → β → Prop} {l : List α}
    (hf : ∀ a ∈ l, ∃ b, f a = .ok b ∧ P a b) : ∃ l', l.mapM f = .ok l' ∧ List.Forall₂ P l l' := by
  induction l with
  | nil => exact ⟨[], rfl, .nil⟩
  | cons a l ih =>
    obtain ⟨⟨b, hb, hP⟩, hl⟩ := List.forall_mem_cons.mp hf
    obtain ⟨l', hl', hP'⟩ := ih hl
    exact ⟨b :: l', by rw [List.mapM_cons, hb, hl']; rfl, .cons hP hP'⟩

theorem Answers.do_inh {name : String} {substr sub : Bool} {limit : Nat} {filt : PathFilter} {syms : List UInt64}
    (hsyms : ix.walkRoots name substr limit = .ok syms)
    {rel : UInt64 → List UInt64} (hrel : ∀ s ∈ syms, ix.related sub s = .ok (rel s)) :
    ∃ hits, ix.do_inh name substr limit sub filt = .ok (hits, hits.length) ∧
      List.Forall₂ (fun g hit => ix.ShowsCopies g.2 hit) (groups ix.elementOf (ix.keptOf filt (syms.flatMap rel))) hits := by
  have hempty : ix.Noted filt [] {} := ⟨fun r => Iff.rfl, rfl⟩
  obtain ⟨st, hall, hst⟩ := Noted.all h hempty hrel
  rw [List.nil_append] at hst
  obtain ⟨hits, hmap, hshows⟩ := mapM_forall₂ (f := fun g => ix.inhHit g.2)
    (P := fun g hit => ix.ShowsCopies g.2 hit) (l := st.groups)
    fun g hg => h.inhHit (groups_ne_nil (hst.groups ▸ hg))
  rw [hst.groups] at hshows
  refine ⟨hits, ?_, hshows⟩
  unfold Queries.do_inh
  rw [hsyms, Res.ok_bind, hall, Res.ok_bind, hmap]
  rfl

end Queries

/-! ## On a written index -/

/-- The row that relates `s` to `r`. -/
def inhRowOf (sub : Bool) (s r : UInt64) : InhRow := if sub then ⟨r, s⟩ else ⟨s, r⟩

theorem Index.Lays.iter_inherits {F : Facts} {t : Tables F} {ix : Index} (hix : ix.Lays t.rows) :
    ix.iter_inherits = t.inh := by
  rw [Index.iter_inherits, hix.inh, hix.hdr]
  exact tableRows_flatMap (l := t.inh) InhRow.encode_length fun _ _ => InhRow.decode_encode _

theorem Index.Lays.related [Memmem] {F : Facts} {t : Tables F} {ix : Index} (hix : ix.Lays t.rows) (parallelism : Nat)
    (sub : Bool) {s : UInt64} (hs : s < u64Max) :
    ∃ l, (ix.queries parallelism).related sub s = .ok l ∧ ∀ r, r ∈ l ↔ inhRowOf sub s r ∈ ix.iter_inherits := by
  cases sub with
  | false =>
    refine ⟨_, (hix.inherits_of_iff s).mpr fun e => absurd e hs.ne, fun r => ?_⟩
    rw [mem_targets, hix.iter_inherits]
    rfl
  | true =>
    refine ⟨_, (hix.inherited_by_iff s).mpr fun e => absurd e hs.ne, fun r => ?_⟩
    rw [mem_targets, hix.iter_inherits, t.inhrev_enumerates.2, t.inh_of.2]
    rfl

/-- On a written index `super` and `sub` answer with one hit for each element that a recorded row
relates to the name, and no copy of it hides what another copy knows. -/
theorem inh_shows_elements [Unicode] [Memmem] {f : Bytes} {ix : Index} (hf : Produced f) (hopen : open_index f = .ok ix)
    (parallelism : Nat) {name : String} {substr sub : Bool} {limit : Nat} {filt : PathFilter} {syms : List UInt64}
    (hsyms : (ix.queries parallelism).walkRoots name substr limit = .ok syms) (hbelow : ∀ s ∈ syms, s < u64Max) :
    ∃ kept hits, (ix.queries parallelism).do_inh name substr limit sub filt = .ok (hits, hits.length) ∧
      kept.Nodup ∧
      (∀ r, r ∈ kept ↔ (ix.queries parallelism).inhPass filt r = .ok true ∧
        ∃ s ∈ syms, inhRowOf sub s r ∈ ix.iter_inherits) ∧
      List.Forall₂ (fun g hit => (ix.queries parallelism).ShowsCopies g.2 hit)
        (groups (ix.queries parallelism).elementOf kept) hits := by
  obtain ⟨F, -, t, ht⟩ := hf.renders
  obtain ⟨htot, ix', hopen', hix⟩ := t.open_file ht
  cases hopen.symm.trans hopen'
  have hanswers := hix.answers parallelism htot
  have hrows : ∀ s : UInt64, ∃ l : List UInt64, s < u64Max →
      (ix.queries parallelism).related sub s = .ok l ∧ ∀ r, r ∈ l ↔ inhRowOf sub s r ∈ ix.iter_inherits := by
    intro s
    by_cases hs : s < u64Max
    · obtain ⟨l, hl⟩ := hix.related parallelism sub hs
      exact ⟨l, fun _ => hl⟩
    · exact ⟨[], fun h => absurd h hs⟩
  choose rel hrel using hrows
  obtain ⟨hits, hdo, hshows⟩ := hanswers.do_inh hsyms fun s hs => (hrel s (hbelow s hs)).1
  refine ⟨(ix.queries parallelism).keptOf filt (syms.flatMap rel), hits, hdo, (eraseDups_nodup _).filter _,
    fun r => ?_, hshows⟩
  rw [Queries.keptOf, List.mem_filter, mem_distinct, List.mem_flatMap, and_comm, hanswers.inhPass, Except.ok.injEq]
  refine and_congr_right fun _ => exists_congr fun s => and_congr_right fun hs => ?_
  exact (hrel s (hbelow s hs)).2 r

section

attribute [local instance] asciiUnicode naiveMemmem

/-- A type that inherits from two copies of another. Only the second copy has a definition. -/
def twoParents : IndexBuilder :=
  ((((((IndexBuilder.new.upsert_sym 1 Kind.TYPE Lang.JAVA "p.C").upsert_sym 2 Kind.TYPE Lang.JAVA
    "kythe:java:c#r#v1#SIG").upsert_sym 3 Kind.TYPE Lang.JAVA "kythe:java:c#r#v2#SIG").upsert_file 0 "A.java").add_inherit
    1 2).add_inherit 1 3).add_xref 3 Role.DEF 0 7

example : twoParents.answers.do_inh "p.C" false 1 false {} = .ok ([⟨"SIG", some "A.java@7"⟩], 1) := by
  decide +kernel

theorem inh_shows_elements_twoParents :
    ∃ f ix kept hits, twoParents.finish = .ok f ∧ open_index f = .ok ix ∧
      (ix.queries 1).do_inh "p.C" false 1 false {} = .ok (hits, hits.length) ∧ (2 : UInt64) ∈ kept ∧ 3 ∈ kept ∧
      List.Forall₂ (fun g hit => (ix.queries 1).ShowsCopies g.2 hit) (groups (ix.queries 1).elementOf kept) hits := by
  obtain ⟨ix, hf, hopen, hix, hnamed⟩ := twoParents.queries_named (by decide) (by decide +kernel)
  have hroots : twoParents.answers.walkRoots "p.C" false 1 = .ok [1] := by decide +kernel
  rw [← hnamed 1] at hroots
  have hone : ∀ s ∈ [(1 : UInt64)], s < u64Max := List.forall_mem_singleton.mpr (by decide)
  obtain ⟨kept, hits, hdo, -, hkept, hshows⟩ := @inh_shows_elements _ _ _ _ (.finish hf) hopen 1 "p.C" false false 1 {}
    [1] hroots hone
  have hrow : ∀ r : UInt64, (⟨1, r⟩ : InhRow) ∈ twoParents.inherits → r ∈ kept := by
    intro r hr
    refine (hkept r).mpr ⟨rfl, 1, List.mem_singleton.mpr rfl, ?_⟩
    rw [hix.iter_inherits]
    exact (twoParents.tables.inh_of.2 _).mpr hr
  exact ⟨_, ix, kept, hits, hf, hopen, hdo, hrow 2 (by decide), hrow 3 (by decide), hshows⟩

end

end Scry2
