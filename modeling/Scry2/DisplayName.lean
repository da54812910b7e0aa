import Scry2.Plans

/-!
# The display name of a symbol

The name that is kept does not depend on how the candidates come, if one of them is short and preferred
to all others, whole and cut.
-/

open Scry2.Lib

namespace Scry2

/-! ## The streams of files -/

/-- The sym stream of a file: its names are cut. -/
def clampSyms (l : List (UInt64 × SymMeta)) : List (UInt64 × SymMeta) := l.map fun e => (e.1, e.2.clamped)

/-- A file that `finish` has written streams the records of its builder. -/
theorem finish_streams {b : IndexBuilder} {f : Bytes} (h : b.finish = .ok f) :
    ∃ ix, open_index f = .ok ix ∧ ix.iter_syms = .ok (clampSyms b.syms.toList) := by
  obtain ⟨ix, hopen, hholds⟩ := (IndexBuilder.rendersTo_of_finish h).open_holds b.facts_ne.visible
  obtain ⟨l, hl, htab⟩ := hholds.syms
  exact ⟨ix, hopen, by rw [hl, htab.eq ((tabulates_toList b.syms).map SymMeta.clamped)]; rfl⟩

section

variable [Unicode]

/-- A merged file streams what `merge_syms_refine` makes of the sources and the delta. -/
theorem snapshot_streams {d : IndexBuilder} {sources : List Index} {Fs : List Facts} {f : Bytes}
    (hsources : List.Forall₂ Index.Holds sources Fs) (hne : ∀ F ∈ Fs, F.Ne)
    (h : d.write_merged_snapshot sources = .ok f) :
    ∃ streams ix, sources.mapM Index.iter_syms = .ok streams ∧ open_index f = .ok ix ∧
      ix.iter_syms = .ok (clampSyms (merge_syms_refine (fold_sources streams merge_syms_refine) d.syms.toList)) := by
  obtain ⟨streams, hstreams, htabs⟩ := mapM_streams (hsources.imp fun _ _ hx => hx.syms)
  have hfold := fold_sources_spec (fun l F => Tabulates l F.syms) merge_syms_refine Tabulates.nil
    (fun _ _ _ _ h1 h2 => h1.merge SymMeta.refine h2) htabs
  have hmerged := (hfold.merge SymMeta.refine (tabulates_toList d.syms)).map SymMeta.clamped
  obtain ⟨ix, hopen, hholds⟩ := (rendersTo_of_write_merged hsources hne h).open_holds
    ((Facts.ne_prod hne).mul d.facts_ne).visible
  obtain ⟨l, hl, htab⟩ := hholds.syms
  exact ⟨streams, ix, hstreams, hopen, by rw [hl, htab.eq hmerged]; rfl⟩

/-! ## Ways to the name -/

/-- How the streams of files are merged. -/
inductive StreamPlan (sym : UInt64) where
  | finish (p : BuildPlan sym)
  | merge (a b : StreamPlan sym)
  /-- The merged streams, and the delta after them, are written to a file. -/
  | snapshot (a : StreamPlan sym) (d : BuildPlan sym)

namespace StreamPlan

variable {sym : UInt64}

def stream : StreamPlan sym → List (UInt64 × SymMeta)
  | finish p => clampSyms p.build.syms.toList
  | merge a b => merge_syms_refine a.stream b.stream
  | snapshot a d => clampSyms (merge_syms_refine a.stream d.build.syms.toList)

omit [Unicode] in
def names : StreamPlan sym → List String
  | finish p => p.names
  | merge a b => a.names ++ b.names
  | snapshot a d => a.names ++ d.names

theorem tabulates (a : StreamPlan sym) : ∃ f, Tabulates a.stream f := by
  induction a with
  | finish p => exact ⟨_, (tabulates_toList _).map SymMeta.clamped⟩
  | merge a b iha ihb =>
    obtain ⟨f, hf⟩ := iha
    obtain ⟨g, hg⟩ := ihb
    exact ⟨_, hf.merge SymMeta.refine hg⟩
  | snapshot a d ih =>
    obtain ⟨f, hf⟩ := ih
    exact ⟨_, (hf.merge SymMeta.refine (tabulates_toList _)).map SymMeta.clamped⟩

/-- The name that the stream has for `sym`. -/
def nameOf (a : StreamPlan sym) : String := nameIn (a.stream.lookup sym)

theorem nameOf_finish (p : BuildPlan sym) : (finish p).nameOf = clamp_blob_str (bestName p.names) := by
  have htab : Tabulates (finish p).stream _ := (tabulates_toList p.build.syms).map SymMeta.clamped
  rw [nameOf, htab.lookup_eq, nameIn_clamped, p.nameIn_build]

theorem nameOf_merge (a b : StreamPlan sym) : (merge a b).nameOf = pickName a.nameOf b.nameOf := by
  obtain ⟨f, hf⟩ := a.tabulates
  obtain ⟨g, hg⟩ := b.tabulates
  have htab : Tabulates (merge a b).stream _ := hf.merge SymMeta.refine hg
  rw [nameOf, htab.lookup_eq, nameIn_combine, nameOf, nameOf, hf.lookup_eq, hg.lookup_eq]

theorem nameOf_snapshot (a : StreamPlan sym) (d : BuildPlan sym) :
    (snapshot a d).nameOf = clamp_blob_str (pickName a.nameOf (bestName d.names)) := by
  obtain ⟨f, hf⟩ := a.tabulates
  have htab : Tabulates (snapshot a d).stream _ :=
    (hf.merge SymMeta.refine (tabulates_toList d.build.syms)).map SymMeta.clamped
  rw [nameOf, htab.lookup_eq, nameIn_clamped, nameIn_combine, nameOf, hf.lookup_eq, d.nameIn_build]

end StreamPlan

/-- A name that the candidates can lead to. -/
inductive FinalName (sym : UInt64) (l : List String) : String → Prop
  | builder (p : BuildPlan sym) : p.names.Perm l → FinalName sym l (nameIn p.build.syms[sym]?)
  | stream (a : StreamPlan sym) : a.names.Perm l → FinalName sym l a.nameOf

/-! ## One name above all others -/

/-- The name `x` is `r`, or gives way to it. -/
def GivesWay (r x : String) : Prop := x = r ∨ prefers_name x r = true

theorem givesWay_iff {r x : String} : GivesWay r x ↔ x = r ∨ nameRank x < nameRank r :=
  or_congr_right (prefers_name_iff x r)

theorem GivesWay.rank_le {r x : String} (h : GivesWay r x) : nameRank x ≤ nameRank r := by
  rcases givesWay_iff.mp h with rfl | hlt
  · exact le_refl _
  · exact hlt.le

theorem GivesWay.pick {r a b : String} (ha : GivesWay r a) (hb : GivesWay r b) : GivesWay r (pickName a b) := by
  unfold pickName
  split
  · exact hb
  · exact ha

theorem GivesWay.pick_eq {r a b : String} (ha : GivesWay r a) (hb : GivesWay r b) (h : a = r ∨ b = r) :
    pickName a b = r := by
  rw [pickName_eq, better]
  rcases givesWay_iff.mp ha with rfl | hlt
  · exact if_neg (not_lt.mpr hb.rank_le)
  · rcases h with rfl | rfl
    · exact absurd hlt (lt_irrefl _)
    · exact if_pos hlt

theorem givesWay_empty {x : String} (h : GivesWay "" x) : x = "" := by
  rcases h with h | h
  · exact h
  · simp [prefers_name] at h

/-- One of the candidates, or no name, is short, and all others give way to it, whole and cut. -/
structure OneBest (r : String) (l : List String) : Prop where
  mem : r = "" ∨ r ∈ l
  short : len r ≤ u16Max
  whole : ∀ m ∈ l, GivesWay r m
  cut : ∀ m ∈ l, GivesWay r (clamp_blob_str m)

/-- A candidate, whole or cut. -/
def Candidate (l : List String) (x : String) : Prop := x = "" ∨ ∃ m ∈ l, x = m ∨ x = clamp_blob_str m

theorem Candidate.pick {l : List String} {a b : String} (ha : Candidate l a) (hb : Candidate l b) :
    Candidate l (pickName a b) := by
  unfold pickName
  split
  · exact hb
  · exact ha

omit [Unicode] in
theorem Candidate.clamp {l : List String} {x : String} (h : Candidate l x) : Candidate l (clamp_blob_str x) := by
  rcases h with rfl | ⟨m, hm, rfl | rfl⟩
  · exact .inl (clamp_of_len_le (Nat.zero_le _))
  · exact .inr ⟨x, hm, .inr rfl⟩
  · exact .inr ⟨m, hm, .inr (clamp_of_len_le (len_clamp_le m))⟩

/-- What some of the candidates lead to: `r` if it is among them. -/
structure Settles (r : String) (l names : List String) (x : String) : Prop where
  candidate : Candidate l x
  best : r ∈ names → x = r

variable {r : String} {l : List String}

theorem OneBest.candidate (h : OneBest r l) {x : String} (hx : Candidate l x) : GivesWay r x := by
  rcases hx with rfl | ⟨m, hm, rfl | rfl⟩
  · by_cases hr : r = ""
    · exact .inl hr.symm
    · exact .inr (by simp [prefers_name, hr])
  · exact h.whole x hm
  · exact h.cut m hm

theorem OneBest.settles_pick (h : OneBest r l) {n m : List String} {x y : String} (hx : Settles r l n x)
    (hy : Settles r l m y) : Settles r l (n ++ m) (pickName x y) := by
  refine ⟨hx.candidate.pick hy.candidate, fun hr => ?_⟩
  refine (h.candidate hx.candidate).pick_eq (h.candidate hy.candidate) ?_
  exact (List.mem_append.mp hr).imp hx.best hy.best

theorem OneBest.settles_clamp (h : OneBest r l) {n : List String} {x : String} (hx : Settles r l n x) :
    Settles r l n (clamp_blob_str x) :=
  ⟨hx.candidate.clamp, fun hr => by rw [hx.best hr]; exact clamp_of_len_le h.short⟩

theorem OneBest.settles_best (h : OneBest r l) {n : List String} (hn : ∀ m ∈ n, m ∈ l) :
    Settles r l n (bestName n) := by
  induction n using List.reverseRecOn with
  | nil => exact ⟨.inl rfl, nofun⟩
  | append_singleton n m ih =>
    rw [bestName_append]
    refine h.settles_pick (ih fun x hx => hn x (List.mem_append_left _ hx)) ?_
    rw [bestName_single, pickName_empty_left]
    exact ⟨.inr ⟨m, hn m (List.mem_append_right _ List.mem_cons_self), .inl rfl⟩, fun hr => (List.mem_singleton.mp hr).symm⟩

theorem OneBest.settles_stream (h : OneBest r l) {sym : UInt64} (a : StreamPlan sym) (ha : ∀ m ∈ a.names, m ∈ l) :
    Settles r l a.names a.nameOf := by
  induction a with
  | finish p =>
    rw [StreamPlan.nameOf_finish]
    exact h.settles_clamp (h.settles_best ha)
  | merge a b iha ihb =>
    rw [StreamPlan.nameOf_merge]
    exact h.settles_pick (iha fun m hm => ha m (List.mem_append_left _ hm)) (ihb fun m hm => ha m (List.mem_append_right _ hm))
  | snapshot a d ih =>
    rw [StreamPlan.nameOf_snapshot]
    exact h.settles_clamp (h.settles_pick (ih fun m hm => ha m (List.mem_append_left _ hm))
      (h.settles_best fun m hm => ha m (List.mem_append_right _ hm)))

theorem OneBest.final (h : OneBest r l) {sym : UInt64} {n : String} (hn : FinalName sym l n) : n = r := by
  have hend : ∀ {names : List String} {x : String}, names.Perm l → Settles r l names x → x = r := by
    intro names x hperm hx
    rcases h.mem with rfl | hr
    · exact givesWay_empty (h.candidate hx.candidate)
    · exact hx.best (hperm.mem_iff.mpr hr)
  cases hn with
  | builder p hperm =>
    rw [p.nameIn_build]
    exact hend hperm (h.settles_best fun m hm => hperm.mem_iff.mp hm)
  | stream a hperm => exact hend hperm (h.settles_stream a fun m hm => hperm.mem_iff.mp hm)

/-! ## Ways that end differently -/

/-- One builder that gets the names in order. -/
def upserts (sym : UInt64) (l : List String) : BuildPlan sym :=
  l.foldl (fun p name => p.call sym (.upsert Kind.UNK Lang.UNK name)) (.new sym)

omit [Unicode] in
theorem upserts_names (sym : UInt64) (l : List String) : (upserts sym l).names = l := by
  induction l using List.reverseRecOn with
  | nil => rfl
  | append_singleton l x ih =>
    have hstep : upserts sym (l ++ [x]) = (upserts sym l).call sym (.upsert Kind.UNK Lang.UNK x) := by
      rw [upserts, List.foldl_append]
      rfl
    rw [hstep, BuildPlan.names, BuildPlan.calls, if_pos rfl, List.filterMap_append]
    exact congrArg (· ++ [x]) ih

theorem final_best (sym : UInt64) {m : List String} (h : m.Perm l) : FinalName sym l (bestName m) := by
  have hfinal : FinalName sym l _ := .builder (upserts sym m) (by rw [upserts_names]; exact h)
  rwa [BuildPlan.nameIn_build, upserts_names] at hfinal

theorem final_finish (sym : UInt64) : FinalName sym l (clamp_blob_str (bestName l)) := by
  have hfinal : FinalName sym l _ := .stream (.finish (upserts sym l)) (by rw [StreamPlan.names, upserts_names])
  rwa [StreamPlan.nameOf_finish, upserts_names] at hfinal

/-- The first name in a file of its own, the others in the delta. -/
theorem final_snapshot (sym : UInt64) {m : String} {rest : List String} (h : (m :: rest).Perm l) :
    FinalName sym l (clamp_blob_str (pickName (clamp_blob_str m) (bestName rest))) := by
  have hfinal : FinalName sym l _ := .stream (.snapshot (.finish (upserts sym [m])) (upserts sym rest))
    (by rw [StreamPlan.names, StreamPlan.names, upserts_names, upserts_names]; exact h)
  rwa [StreamPlan.nameOf_snapshot, StreamPlan.nameOf_finish, upserts_names, upserts_names, bestName_single,
    pickName_empty_left] at hfinal

theorem bestName_cons (m : String) (rest : List String) : bestName (m :: rest) = pickName m (bestName rest) := by
  rw [← List.singleton_append, bestName_append, bestName_single, pickName_empty_left]

theorem bestName_mem (l : List String) : bestName l = "" ∨ bestName l ∈ l := by
  induction l with
  | nil => exact .inl rfl
  | cons m rest ih =>
    rw [bestName_cons, pickName]
    split
    · exact ih.imp id (List.mem_cons_of_mem m)
    · exact .inr List.mem_cons_self

/-- The ways to the name all end alike exactly if one short name is above all others. -/
theorem display_name_order_free (sym : UInt64) (l : List String) :
    (∀ n n', FinalName sym l n → FinalName sym l n' → n = n') ↔ ∃ r, OneBest r l := by
  constructor
  · intro h
    have hbest : ∀ {n}, FinalName sym l n → n = bestName l := fun hn => h _ _ hn (final_best sym (.refl l))
    have hshort : len (bestName l) ≤ u16Max := hbest (final_finish sym) ▸ len_clamp_le _
    -- A name that comes first stays unless a better one comes.
    have hwhole : ∀ m ∈ l, GivesWay (bestName l) m := by
      intro m hm
      have hperm := (List.perm_cons_erase hm).symm
      have hfirst := hbest (final_best sym hperm)
      rw [bestName_cons, pickName] at hfirst
      split at hfirst
      · rename_i hpref
        exact .inr (hfirst ▸ hpref)
      · exact .inl hfirst
    refine ⟨bestName l, bestName_mem l, hshort, hwhole, fun m hm => ?_⟩
    by_cases hlong : len m ≤ u16Max
    · rw [clamp_of_len_le hlong]
      exact hwhole m hm
    -- A long name that a file has cut stands against the best of the others.
    have hperm := (List.perm_cons_erase hm).symm
    have hrest : bestName (l.erase m) = bestName l := by
      have hcons := hbest (final_best sym hperm)
      rw [bestName_cons, pickName] at hcons
      split at hcons
      · exact hcons
      · exact absurd (hcons ▸ hshort) hlong
    have hlast := hbest (final_snapshot sym hperm)
    have hlen : len (pickName (clamp_blob_str m) (bestName l)) ≤ u16Max :=
      Facts.len_pickName_le (len_clamp_le m) hshort
    rw [hrest, clamp_of_len_le hlen, pickName] at hlast
    split at hlast
    · rename_i hpref
      exact .inr hpref
    · exact .inl hlast
  · rintro ⟨r, hr⟩ n n' hn hn'
    rw [hr.final hn, hr.final hn']

end

section

attribute [local instance] asciiUnicode

/-- Of two names without a letter or digit the one that comes first stays. -/
theorem first_junk_stays : ¬ ∀ (sym : UInt64) (l : List String) (n n' : String),
    FinalName sym l n → FinalName sym l n' → n = n' := by
  intro h
  have hfirst : bestName ["<>", "()"] = "<>" := by decide
  have hsecond : bestName ["()", "<>"] = "()" := by decide
  have heq := h 1 ["<>", "()"] _ _ (final_best 1 (.refl _)) (final_best 1 (.swap _ _ _))
  rw [hfirst, hsecond] at heq
  exact absurd heq (by decide)

end

end Scry2
