import Scry2.Absorb
import Scry2.Fresh
import Mathlib.Data.List.Find

/-!
# The facts of all units

One pass over a kzip: all units that succeed merged in the order of the plan, under file ids that are
the ranks of the paths. Facts that are put together from the same units, in any order and with any unit
any number of times, come to the same.
-/

open Scry2.Lib

namespace Scry2

/-! ## Any order and any number -/

section

variable [Unicode]

/-- Whether records agree is a matter of which there are. -/
theorem OrderFree.congr {ms ns : List SymMeta} (h : OrderFree ms) (hmem : ∀ m, m ∈ ns ↔ m ∈ ms) :
    OrderFree ns where
  kinds m hm n hn := h.kinds m ((hmem m).mp hm) n ((hmem n).mp hn)
  langs m hm n hn := h.langs m ((hmem m).mp hm) n ((hmem n).mp hn)
  names := by
    rcases h.names with ⟨m, hm, hok⟩ | hone
    · exact Or.inl ⟨m, (hmem m).mpr hm, hok⟩
    · exact Or.inr fun m hm n hn => hone m ((hmem m).mp hm) n ((hmem n).mp hn)

/-- The sources agree on every symbol and on every file. -/
structure SourcesAgree (S : List Facts) : Prop where
  syms : ∀ s, OrderFree (S.filterMap fun F => F.syms s)
  files : ∀ id, ∀ F ∈ S, ∀ G ∈ S, ∀ p q, F.files id = some p → G.files id = some q → p = q

/-- A product of some sources that has them all. -/
theorem SourcesAgree.visible_eq {S l : List Facts} (h : SourcesAgree S) (hl : l ⊆ S)
    (hall : ∀ G ∈ S, AbsorbsRight l.prod G) : l.prod.visible = S.prod.visible := by
  have hmem : ∀ F, F ∈ S ++ l ↔ F ∈ S := fun F => by
    rw [List.mem_append, or_iff_left_of_imp fun hF => hl hF]
  have hfront : (l ++ S).prod = l.prod := by
    rw [List.prod_append]
    exact absorbs_prod hall
  have hback : (S ++ l).prod = S.prod := by
    rw [List.prod_append]
    exact absorbs_prod_prod hl
  rw [← hfront, ← hback]
  refine visible_prod_perm List.perm_append_comm (fun s => ?_) fun id F hF G hG => ?_
  · refine (h.syms s).congr fun m => ?_
    simp only [List.mem_filterMap, hmem]
  · exact h.files id F ((hmem F).mp hF) G ((hmem G).mp hG)

/-! ## The aliases of variables -/

omit [Unicode] in
/-- The facts without the aliases of what `K` calls a variable. -/
def Facts.seen (K : UInt64 → UInt8) (F : Facts) : Facts :=
  { F with aliases := {r ∈ F.aliases | K r.sym ≠ Kind.VARIABLE} }

variable {K : UInt64 → UInt8} {F G : Facts}

omit [Unicode] in
theorem Facts.seen_one : (1 : Facts).seen K = 1 := by
  apply Facts.ext <;> try rfl
  ext r
  simp [Facts.seen]

theorem Facts.seen_mul (F G : Facts) : (F * G).seen K = F.seen K * G.seen K := by
  apply Facts.ext <;> try rfl
  ext r
  constructor
  · rintro ⟨hr | hr, hK⟩
    · exact Or.inl ⟨hr, hK⟩
    · exact Or.inr ⟨hr, hK⟩
  · rintro (hr | hr)
    · exact ⟨Or.inl hr.1, hr.2⟩
    · exact ⟨Or.inr hr.1, hr.2⟩

theorem Facts.seen_prod (Fs : List Facts) : Fs.prod.seen K = (Fs.map (Facts.seen K)).prod := by
  induction Fs with
  | nil => exact Facts.seen_one
  | cons F Fs ih => rw [List.prod_cons, Facts.seen_mul, ih, List.map_cons, List.prod_cons]

omit [Unicode] in
theorem Facts.seen_visible (h : F.KindsIn K) : F.visible.seen K = F.seen K := by
  apply Facts.ext <;> try rfl
  ext r
  constructor
  · exact fun hr => ⟨hr.1.1, hr.2⟩
  · refine fun hr => ⟨⟨hr.1, fun hv => ?_⟩, hr.2⟩
    rw [Facts.isVar_iff] at hv
    rcases h r.sym with hk | hk
    · rw [hv] at hk
      exact absurd hk (by decide)
    · exact hr.2 (hk.symm.trans hv)

omit [Unicode] in
theorem Facts.visible_eq_seen (h : ∀ k, kindOf (F.syms k) = K k) : F.visible = F.seen K := by
  apply Facts.ext <;> try rfl
  ext r
  have hvar : F.isVar r.sym ↔ K r.sym = Kind.VARIABLE := by rw [Facts.isVar_iff, h]
  exact and_congr_right fun _ => not_congr hvar

omit [Unicode] in
theorem Facts.visible_seen (h : ∀ k, kindOf (F.syms k) = K k) : (F.seen K).visible = F.seen K := by
  rw [← Facts.visible_eq_seen h]
  exact F.sheds_visible.visible_eq

/-- The kinds that the sources come to. -/
def kindsOf (S : List Facts) : UInt64 → UInt8 := fun s => kindOf (S.prod.syms s)

/-- `F` has all of `G`, but for aliases of variables. -/
def Facts.Has (S : List Facts) (F G : Facts) : Prop := AbsorbsRight (F.seen (kindsOf S)) (G.seen (kindsOf S))

variable {S : List Facts} {H : Facts}

theorem Facts.has_self (S : List Facts) (F : Facts) : F.Has S F := absorbs_self _

theorem Facts.has_of_absorbs (h : AbsorbsRight F G) : F.Has S G := by
  unfold Facts.Has AbsorbsRight
  rw [← Facts.seen_mul]
  exact congrArg (Facts.seen _) h

theorem Facts.Has.mul_right (h : F.Has S H) (G : Facts) : (F * G).Has S H := by
  unfold Facts.Has at h ⊢
  rw [Facts.seen_mul]
  exact AbsorbsRight.mul_right h _

theorem Facts.Has.mul_left (h : F.Has S H) (G : Facts) : (G * F).Has S H := by
  unfold Facts.Has at h ⊢
  rw [Facts.seen_mul]
  exact AbsorbsRight.mul_left h _

theorem Facts.Has.prod {Fs : List Facts} (h : F.Has S H) (hF : F ∈ Fs) : Fs.prod.Has S H := by
  obtain ⟨l₁, l₂, rfl⟩ := List.mem_iff_append.mp hF
  rw [List.prod_append, List.prod_cons]
  exact (h.mul_right _).mul_left _

/-- Facts put together from the sources, less some aliases of variables. -/
structure Facts.Made (S : List Facts) (F : Facts) : Prop where
  short : F.Short
  kinds : F.KindsIn (kindsOf S)
  made : ∃ l ⊆ S.map (Facts.seen (kindsOf S)), F.seen (kindsOf S) = l.prod

theorem Facts.made_one (S : List Facts) : (1 : Facts).Made S :=
  ⟨Facts.short_one, Facts.kindsIn_one _, [], List.nil_subset _, Facts.seen_one⟩

theorem Facts.made_of_seen (hshort : F.Short) (hkinds : F.KindsIn (kindsOf S)) (hG : G ∈ S)
    (h : F.seen (kindsOf S) = G.seen (kindsOf S)) : F.Made S := by
  refine ⟨hshort, hkinds, [G.seen (kindsOf S)], ?_, ?_⟩
  · rw [List.cons_subset]
    exact ⟨List.mem_map_of_mem hG, List.nil_subset _⟩
  · rw [List.prod_singleton, h]

theorem Facts.Made.mul (hF : F.Made S) (hG : G.Made S) : (F * G).Made S where
  short := hF.short.mul hG.short
  kinds := hF.kinds.mul hG.kinds
  made := by
    obtain ⟨l, hl, hFl⟩ := hF.made
    obtain ⟨m, hm, hGm⟩ := hG.made
    refine ⟨l ++ m, List.append_subset.mpr ⟨hl, hm⟩, ?_⟩
    rw [Facts.seen_mul, hFl, hGm, List.prod_append]

theorem Facts.made_prod {Fs : List Facts} (h : ∀ F ∈ Fs, F.Made S) : Fs.prod.Made S := by
  induction Fs with
  | nil => exact Facts.made_one S
  | cons F Fs ih =>
    rw [List.prod_cons]
    exact (h F List.mem_cons_self).mul (ih fun G hG => h G (List.mem_cons_of_mem _ hG))

omit [Unicode] in
theorem Facts.seen_written (hshort : F.Short) (hkinds : F.KindsIn K) : F.written.seen K = F.seen K := by
  rw [Facts.written_of_short hshort, Facts.seen_visible hkinds]

theorem Facts.Made.written (h : F.Made S) : F.written.Made S where
  short := by
    rw [Facts.written_of_short h.short]
    exact h.short.visible
  kinds := by
    rw [Facts.written_of_short h.short]
    exact h.kinds
  made := by
    rw [Facts.seen_written h.short h.kinds]
    exact h.made

theorem Facts.Has.written (h : F.Has S H) (hshort : F.Short) (hkinds : F.KindsIn (kindsOf S)) :
    F.written.Has S H := by
  unfold Facts.Has
  rwa [Facts.seen_written hshort hkinds]

/-- Facts put together from the sources in which they all are. -/
theorem SourcesAgree.visible_eq_of_made (h : SourcesAgree S) (hF : F.Made S) (hall : ∀ G ∈ S, F.Has S G) :
    F.visible = S.prod.visible := by
  have hagree : SourcesAgree (S.map (Facts.seen (kindsOf S))) := by
    refine ⟨fun s => ?_, fun id => ?_⟩
    · rw [List.filterMap_map]
      exact h.syms s
    · simp only [List.forall_mem_map]
      exact h.files id
  obtain ⟨l, hl, hFl⟩ := hF.made
  have heq := hagree.visible_eq hl (List.forall_mem_map.mpr fun G hG => hFl ▸ hall G hG)
  rw [← hFl, ← Facts.seen_prod] at heq
  have hsyms : F.syms = S.prod.syms := (Facts.ext_iff.mp heq).2.1
  have hkinds : ∀ k, kindOf (F.syms k) = kindsOf S k := fun k => by rw [hsyms]; rfl
  have hprod : ∀ k, kindOf (S.prod.syms k) = kindsOf S k := fun _ => rfl
  rw [Facts.visible_seen hkinds, Facts.visible_seen hprod] at heq
  rw [Facts.visible_eq_seen hkinds, heq, Facts.visible_eq_seen hprod]

omit [Unicode] in
theorem firstKnown_eq_of_mem {c : UInt8} {l : List UInt8} (hagree : ∀ d ∈ l, d ≠ 0 → d = c) (hc : c ∈ l)
    (h0 : c ≠ 0) : firstKnown l = c := by
  induction l with
  | nil => cases hc
  | cons d l ih =>
    rw [firstKnown_cons]
    split_ifs with hd
    · refine ih (fun e he => hagree e (List.mem_cons_of_mem d he)) ?_
      exact (List.mem_cons.mp hc).resolve_left fun e => h0 (e.trans hd)
    · exact hagree d List.mem_cons_self hd

/-- No source knows another kind than the one they come to. -/
theorem SourcesAgree.kindsIn {S : List Facts} (h : SourcesAgree S) (hF : F ∈ S) : F.KindsIn (kindsOf S) := by
  intro s
  by_cases hu : kindOf (F.syms s) = Kind.UNK
  · exact Or.inl hu
  · right
    unfold kindsOf
    rw [prod_syms, kindOf_mergeMetas]
    cases hm : F.syms s with
    | none =>
      rw [hm] at hu
      exact absurd rfl hu
    | some m =>
      rw [hm] at hu
      have hmem : m ∈ S.filterMap fun F => F.syms s := List.mem_filterMap.mpr ⟨F, hF, hm⟩
      refine (firstKnown_eq_of_mem (c := m.kind) ?_ (List.mem_map_of_mem hmem) hu).symm
      simp only [List.forall_mem_map]
      exact fun n hn hn0 => (h.syms s).kinds n hn m hmem hn0 hu

end

/-! ## One pass over the units -/

/-- The id of a path in a run that starts from the paths of the kzip. -/
def rankOf (seed : List String) (path : String) : UInt32 := (globalOf seed path).getD 0

theorem rankOf_eq {seed : List String} (hseed : seed.Nodup) (hlen : seed.length ≤ 2 ^ 32) {id : UInt32}
    {p : String} (h : seed[id.toNat]? = some p) : rankOf seed p = id := by
  unfold rankOf
  rw [(globalOf_eq_some_iff hseed hlen).mpr h, Option.getD_some]

theorem getElem?_rankOf {seed : List String} (hseed : seed.Nodup) (hlen : seed.length ≤ 2 ^ 32) {p : String}
    (hp : p ∈ seed) : seed[(rankOf seed p).toNat]? = some p := by
  apply (globalOf_eq_some_iff hseed hlen).mp
  unfold rankOf globalOf
  rw [if_pos hp, Option.getD_some]

theorem KzipUnit.builder_congr (u : KzipUnit) {ids ids' : String → UInt32} (h : ∀ p ∈ u.paths, ids p = ids' p) :
    (u.builder ids).facts = (u.builder ids').facts := by
  have hx : (u.xrefs.map fun x => XrefRow.mk x.sym x.role (ids x.path) x.offset) =
      u.xrefs.map fun x => ⟨x.sym, x.role, ids' x.path, x.offset⟩ := by
    refine List.map_congr_left fun x hx => ?_
    rw [h _ (u.xrefs_in x hx)]
  have hf : ∀ k : UInt32, (u.paths.find? fun p => ids p = k) = u.paths.find? fun p => ids' p = k := by
    intro k
    refine List.find?_congr fun p hp => ?_
    rw [h p hp]
  rw [u.builder_facts, u.builder_facts, hx]
  simp only [hf]

/-- Under ids that name its paths, a unit has its paths under their ids. -/
theorem KzipUnit.builder_file {u : KzipUnit} {N : Naming} {ids : String → UInt32}
    (hids : ∀ p ∈ u.paths, N (ids p) = some (clamp_blob_str p)) (hshort : ∀ p ∈ u.paths, len p ≤ u16Max)
    {p : String} (hp : p ∈ u.paths) : (u.builder ids).files[ids p]? = some p := by
  have hsome : (u.paths.find? fun q => ids q = ids p).isSome := List.find?_isSome.mpr ⟨p, hp, by simp⟩
  obtain ⟨q, hq⟩ := Option.isSome_iff_exists.mp hsome
  have hqp : ids q = ids p := by simpa using List.find?_some hq
  have hqmem := List.mem_of_find?_eq_some hq
  -- Another path of this id would have the same name.
  have e := (hids q hqmem).symm.trans (hqp ▸ hids p hp)
  rw [clamp_of_len_le (hshort q hqmem), clamp_of_len_le (hshort p hp)] at e
  rw [u.builder_files, hq, e]

theorem KzipUnit.builder_short (u : KzipUnit) (h : u.tables.Short) (hpaths : ∀ p ∈ u.paths, len p ≤ u16Max)
    (ids : String → UInt32) : (u.builder ids).facts.Short := by
  have ht := h.facts
  rw [u.builder_facts]
  exact ⟨ht.syms, fun id p hp => hpaths p (List.mem_of_find?_eq_some hp), ht.aliases, ht.typed, ht.sig⟩

namespace Kzip

/-- The units that count. -/
def succeeded (k : Kzip) : List KzipUnit := k.units.filter KzipUnit.succeeded

/-- All of them in one builder, under the ranks of their paths. -/
def whole [Unicode] (k : Kzip) : IndexBuilder :=
  mergedBuilder (k.succeeded.map fun u => u.builder (rankOf k.seed_paths))

/-- The same with the paths that any unit touched, also one that failed. -/
def wholeTouched [Unicode] (k : Kzip) : IndexBuilder :=
  (k.units.flatMap KzipUnit.paths).foldl (fun b p => b.upsert_file (rankOf k.seed_paths p) p) k.whole

/-- Every path is a candidate, every string fits the blob, and the units agree on every symbol. -/
structure Plain [Unicode] (k : Kzip) : Prop where
  paths : ∀ u ∈ k.units, ∀ p ∈ u.paths, p ∈ k.seed_paths
  short : ∀ u ∈ k.units, u.tables.Short
  short_paths : ∀ p ∈ k.seed_paths, len p ≤ u16Max
  agree : ∀ s : UInt64, OrderFree (k.succeeded.filterMap fun u => u.tables.syms[s]?)

theorem seed_nodup (k : Kzip) : k.seed_paths.Nodup :=
  k.seed_sorted.imp fun h e => h.ne (congrArg as_bytes e)

/-- The facts of the units that count. -/
def unitFacts (k : Kzip) : List Facts := k.succeeded.map fun u => (u.builder (rankOf k.seed_paths)).facts

/-- They and some paths. -/
def sources (k : Kzip) (ps : List String) : List Facts :=
  k.unitFacts ++ ps.map fun p => fileFacts (rankOf k.seed_paths p) p

section

variable [Unicode] (k : Kzip)

theorem whole_facts : k.whole.facts = (k.sources []).prod := by
  unfold whole sources unitFacts
  rw [mergedBuilder_facts, List.map_map, List.map_nil, List.append_nil]
  rfl

theorem wholeTouched_facts : k.wholeTouched.facts = (k.sources (k.units.flatMap KzipUnit.paths)).prod := by
  have hfold : ∀ (ps : List String) (b : IndexBuilder),
      (ps.foldl (fun b p => b.upsert_file (rankOf k.seed_paths p) p) b).facts =
        b.facts * (ps.map fun p => fileFacts (rankOf k.seed_paths p) p).prod := by
    intro ps
    induction ps with
    | nil => simp
    | cons p ps ih =>
      intro b
      rw [List.foldl_cons, ih, IndexBuilder.facts_upsert_file, List.map_cons, List.prod_cons, mul_assoc]
  unfold wholeTouched
  rw [hfold, whole_facts, ← List.prod_append, sources, sources, List.map_nil, List.append_nil]

variable {k} {ps : List String} {F : Facts}

omit [Unicode] in
theorem mem_sources : F ∈ k.sources ps ↔
    (∃ u ∈ k.units, u.succeeded = true ∧ F = (u.builder (rankOf k.seed_paths)).facts) ∨
      ∃ p ∈ ps, F = fileFacts (rankOf k.seed_paths p) p := by
  simp only [sources, unitFacts, succeeded, List.mem_append, List.mem_map, List.mem_filter, and_assoc,
    eq_comm (a := F)]

/-- The ids of facts are ranks of their paths. -/
def RanksIn (seed : List String) (F : Facts) : Prop := ∀ id p, F.files id = some p → seed[id.toNat]? = some p

theorem Plain.ranks (h : k.Plain) (hlen : k.seed_paths.length ≤ 2 ^ 32) (hps : ∀ p ∈ ps, p ∈ k.seed_paths)
    (hF : F ∈ k.sources ps) : RanksIn k.seed_paths F := by
  intro id p hp
  rcases mem_sources.mp hF with ⟨u, hu, -, rfl⟩ | ⟨q, hq, rfl⟩
  · have hfiles : (u.paths.find? fun p => rankOf k.seed_paths p = id) = some p := by
      rw [u.builder_facts] at hp
      exact hp
    have hid : rankOf k.seed_paths p = id := by simpa using List.find?_some hfiles
    rw [← hid]
    exact getElem?_rankOf k.seed_nodup hlen (h.paths u hu p (List.mem_of_find?_eq_some hfiles))
  · obtain ⟨rfl, rfl⟩ : rankOf k.seed_paths q = id ∧ q = p := by simpa [fileFacts] using hp
    exact getElem?_rankOf k.seed_nodup hlen (hps q hq)

theorem Plain.sourcesAgree (h : k.Plain) (hlen : k.seed_paths.length ≤ 2 ^ 32)
    (hps : ∀ p ∈ ps, p ∈ k.seed_paths) : SourcesAgree (k.sources ps) where
  syms s := by
    have hunit : (k.sources ps).filterMap (fun F => F.syms s) =
        k.succeeded.filterMap fun u => u.tables.syms[s]? := by
      have hsyms : ∀ u : KzipUnit, (u.builder (rankOf k.seed_paths)).facts.syms s = u.tables.syms[s]? := by
        intro u
        rw [u.builder_facts]
        rfl
      have hnone : (ps.map fun p => fileFacts (rankOf k.seed_paths p) p).filterMap (fun F => F.syms s) = [] := by
        rw [List.filterMap_eq_nil_iff, List.forall_mem_map]
        exact fun p _ => rfl
      unfold sources unitFacts
      rw [List.filterMap_append, hnone, List.append_nil, List.filterMap_map]
      exact List.filterMap_congr fun u _ => hsyms u
    rw [hunit]
    exact h.agree s
  files id F hF G hG p q hp hq := by
    have hFp := h.ranks hlen hps hF id p hp
    have hGq := h.ranks hlen hps hG id q hq
    exact Option.some.inj (hFp.symm.trans hGq)

/-- The kinds of a unit do not depend on its file ids. -/
theorem Plain.builder_kindsIn (h : k.Plain) (hlen : k.seed_paths.length ≤ 2 ^ 32)
    (hps : ∀ p ∈ ps, p ∈ k.seed_paths) {u : KzipUnit} (hu : u ∈ k.units) (hok : u.succeeded = true)
    (ids : String → UInt32) : (u.builder ids).facts.KindsIn (kindsOf (k.sources ps)) := by
  have hmem : (u.builder (rankOf k.seed_paths)).facts ∈ k.sources ps := mem_sources.mpr (Or.inl ⟨u, hu, hok, rfl⟩)
  have hK := (h.sourcesAgree hlen hps).kindsIn hmem
  rw [u.builder_facts] at hK ⊢
  exact hK

theorem Plain.builder_short (h : k.Plain) {u : KzipUnit} (hu : u ∈ k.units) (ids : String → UInt32) :
    (u.builder ids).facts.Short :=
  u.builder_short (h.short u hu) (fun p hp => h.short_paths p (h.paths u hu p hp)) ids

end

end Kzip

end Scry2
