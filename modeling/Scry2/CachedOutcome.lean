import Scry2.Outcome

/-!
# What a cached run comes to

A build with a cache copies the shards of units that an earlier build stored, under whatever ids that
build had, and writes the others afresh. Its output is still the file of one pass over its own units,
however many builds have filled and pruned the cache before it, over whatever kzips, and however far
each of them came.
-/

open Scry2.Lib
open Std (ExtTreeMap)

namespace Scry2

variable {k : Kzip} {N M : Naming} {F G H : Facts} {seed : List String}

/-! ## Ids do not matter -/

/-- Relabelled facts have the same ranks. -/
theorem Facts.Relabels.ranked_eq {m : UInt32 → Option UInt32} (h : F.Relabels m G)
    (hm : ∀ g, (m g).isSome ↔ (F.files g).isSome) : G.ranked seed = F.ranked seed := by
  have hname : ∀ g l, m g = some l → G.files l = F.files g := by
    intro g l hl
    obtain ⟨p, hp⟩ := Option.isSome_iff_exists.mp ((hm g).mp (by rw [hl, Option.isSome_some]))
    rw [hp]
    exact (h.files l p).mpr ⟨g, hl, hp⟩
  unfold ranked
  apply Facts.ext
  · ext r
    constructor
    · rintro ⟨q', hq', g, hg, rfl⟩
      obtain ⟨q, hq, l, hl, rfl⟩ := (h.xrefs q').mp hq'
      refine ⟨q, hq, g, ?_, rfl⟩
      rw [← hname _ _ hl]
      exact hg
    · rintro ⟨q, hq, g, hg, rfl⟩
      obtain ⟨p, hp, -⟩ := Option.bind_eq_some_iff.mp hg
      obtain ⟨l, hl⟩ := Option.isSome_iff_exists.mp ((hm q.file).mpr (by rw [hp, Option.isSome_some]))
      refine ⟨{ q with file := l }, (h.xrefs _).mpr ⟨q, hq, l, hl, rfl⟩, g, ?_, rfl⟩
      change (G.files l).bind _ = _
      rw [hname _ _ hl]
      exact hg
  · exact h.syms
  · funext g
    have hsame : ∀ p, (∃ l, G.files l = some p) ↔ ∃ l, F.files l = some p := by
      intro p
      constructor
      · rintro ⟨l, hl⟩
        obtain ⟨g, -, hg⟩ := (h.files l p).mp hl
        exact ⟨g, hg⟩
      · rintro ⟨g, hg⟩
        obtain ⟨l, hl⟩ := Option.isSome_iff_exists.mp ((hm g).mpr (by rw [hg, Option.isSome_some]))
        exact ⟨l, (hname _ _ hl).trans hg⟩
    ext p
    simp only [Option.filter_eq_some_iff, decide_eq_true_eq, hsame]
  · exact h.inherits
  · exact h.aliases
  · exact h.calls
  · exact h.typed
  · exact h.childof
  · exact h.sig

/-- Under any ids that name its paths, a unit has the ranked facts that it has under the ranks. -/
theorem KzipUnit.builder_ranked {u : KzipUnit} (hseed : seed.Nodup) (hlen : seed.length ≤ 2 ^ 32)
    (hpaths : ∀ p ∈ u.paths, p ∈ seed) (hshort : ∀ p ∈ u.paths, len p ≤ u16Max) {ids : String → UInt32}
    (hids : ∀ p ∈ u.paths, N (ids p) = some (clamp_blob_str p)) :
    (u.builder ids).facts.ranked seed = (u.builder (rankOf seed)).facts := by
  have hfile : ∀ p ∈ u.paths, (u.builder ids).facts.files (ids p) = some p := fun p hp =>
    KzipUnit.builder_file hids hshort hp
  have hglobal : ∀ p ∈ u.paths, globalOf seed p = some (rankOf seed p) := fun p hp =>
    (globalOf_eq_some_iff hseed hlen).mpr (getElem?_rankOf hseed hlen (hpaths p hp))
  have hx : ∀ x ∈ u.xrefs, ((u.builder ids).facts.files (ids x.path)).bind (globalOf seed) = some (rankOf seed x.path) := by
    intro x hx
    have hp := u.xrefs_in x hx
    rw [hfile _ hp, Option.bind_some, hglobal _ hp]
  rw [u.builder_facts (rankOf seed)]
  unfold Facts.ranked
  apply Facts.ext
  · ext r
    rw [Set.mem_ofPred_eq, Set.mem_ofPred_eq, List.mem_map]
    constructor
    · rintro ⟨q, hq, g, hg, rfl⟩
      rw [u.builder_facts] at hq
      obtain ⟨x, hmem, rfl⟩ := List.mem_map.mp hq
      refine ⟨x, hmem, ?_⟩
      rw [Option.some.inj (hg.symm.trans (hx x hmem))]
    · rintro ⟨x, hmem, rfl⟩
      refine ⟨⟨x.sym, x.role, ids x.path, x.offset⟩, ?_, rankOf seed x.path, hx x hmem, rfl⟩
      rw [u.builder_facts]
      exact List.mem_map.mpr ⟨x, hmem, rfl⟩
  · rw [u.builder_facts]
  · funext g
    ext p
    simp only [Option.filter_eq_some_iff, decide_eq_true_eq]
    constructor
    · rintro ⟨hg, l, hl⟩
      have hp : p ∈ u.paths := by
        rw [u.builder_facts] at hl
        exact List.mem_of_find?_eq_some hl
      have hrank := rankOf_eq hseed hlen hg
      have hsome : (u.paths.find? fun q => rankOf seed q = g).isSome := List.find?_isSome.mpr ⟨p, hp, by simp [hrank]⟩
      obtain ⟨q, hq⟩ := Option.isSome_iff_exists.mp hsome
      have hqg : rankOf seed q = g := by simpa using List.find?_some hq
      have hat := getElem?_rankOf hseed hlen (hpaths q (List.mem_of_find?_eq_some hq))
      rw [hqg, hg] at hat
      rw [hq, hat]
    · intro hp
      have hg : rankOf seed p = g := by simpa using List.find?_some hp
      have hmem := List.mem_of_find?_eq_some hp
      refine ⟨?_, ids p, hfile p hmem⟩
      rw [← hg]
      exact getElem?_rankOf hseed hlen (hpaths p hmem)
  · rw [u.builder_facts]
  · rw [u.builder_facts]
  · rw [u.builder_facts]
  · rw [u.builder_facts]
  · rw [u.builder_facts]
  · rw [u.builder_facts]

section

variable [Unicode]

/-- Whatever ids it was written under, a shard has the facts of its unit under the ranks. -/
theorem KzipUnit.Shard.ranked (hk : k.Plain) (hlen : k.seed_paths.length ≤ 2 ^ 32) {u : KzipUnit} (hu : u ∈ k.units)
    {f : Bytes} (h : u.Shard f) :
    ∃ F, FileHolds f F ∧ F.ranked k.seed_paths = (u.builder (rankOf k.seed_paths)).facts.visible := by
  obtain ⟨-, N, ids, hids, hf⟩ := h
  have hpaths := hk.paths u hu
  have hb := hk.builder_short hu ids
  have hranked := KzipUnit.builder_ranked k.seed_nodup hlen hpaths (fun p hp => hk.short_paths p (hpaths p hp)) hids
  have hnamed := KzipUnit.builder_named hids
  rw [← IndexBuilder.facts_dedup_tables] at hb hranked hnamed
  have hdistinct := u.builder_pathsDistinct ids
  generalize (u.builder ids).dedup_tables.1 = b at hf hb hranked hnamed hdistinct
  have hlabels := b.relabels_localize_file_ids hdistinct hnamed.xrefs
  have hshort : b.localize_file_ids.1.facts.Short := by
    refine ⟨hb.syms, fun l p hp => ?_, hb.aliases, hb.typed, hb.sig⟩
    obtain ⟨g, -, hg⟩ := (hlabels.files l p).mp hp
    exact hb.files g p hg
  refine ⟨_, IndexBuilder.fileHolds_of_finish hf, ?_⟩
  rw [Facts.written_of_short hshort]
  have heq : b.localize_file_ids.1.facts.ranked k.seed_paths = b.facts.ranked k.seed_paths := by
    refine hlabels.ranked_eq fun g => ?_
    unfold IndexBuilder.g2l
    rw [Option.isSome_map]
    exact Iff.rfl
  change (b.localize_file_ids.1.facts.ranked k.seed_paths).visible = _
  rw [heq, hranked]

/-! ## Coalescing -/

/-- The facts of all units that succeeded, and nothing else. -/
abbrev Kzip.counted (k : Kzip) : List Facts := k.sources []

def Kzip.MadeFile (k : Kzip) (f : Bytes) : Prop := ∃ F, FileHolds f F ∧ F.Made k.counted

def Kzip.HasFile (k : Kzip) (f : Bytes) (u : KzipUnit) : Prop :=
  ∃ F, FileHolds f F ∧ F.Has k.counted (u.builder (rankOf k.seed_paths)).facts

omit [Unicode] in
theorem nil_paths (k : Kzip) : ∀ p ∈ ([] : List String), p ∈ k.seed_paths := by simp

/-- The ranked facts of a shard are one of the sources. -/
theorem KzipUnit.Shard.counted (hk : k.Plain) (hlen : k.seed_paths.length ≤ 2 ^ 32) {u : KzipUnit} (hu : u ∈ k.units)
    {f : Bytes} (h : u.Shard f) (hF : FileHolds f F) : (F.ranked k.seed_paths).Made k.counted ∧
      (F.ranked k.seed_paths).Has k.counted (u.builder (rankOf k.seed_paths)).facts := by
  obtain ⟨G, hG, hranked⟩ := h.ranked hk hlen hu
  rw [hF.unique hG, hranked]
  have hkinds := hk.builder_kindsIn hlen (nil_paths k) hu h.1 (rankOf k.seed_paths)
  have hseen := Facts.seen_visible hkinds
  refine ⟨Facts.made_of_seen (hk.builder_short hu _).visible hkinds ?_ hseen, ?_⟩
  · exact Kzip.mem_sources.mpr (Or.inl ⟨u, hu, h.1, rfl⟩)
  · unfold Facts.Has
    rw [hseen]
    exact absorbs_self _

theorem populate_counted (hk : k.Plain) (hlen : k.seed_paths.length ≤ 2 ^ 32) {shards : List Bytes}
    (hshards : ∀ f ∈ shards, ShardOf k f) {b b' : IndexBuilder} (hb : b.facts.Made k.counted)
    (h : shards.foldlM (fun (delta : IndexBuilder) shard => do
      delta.populate_from_shard_remapped (← open_index shard) (globalOf k.seed_paths)) b = .ok b') :
    b'.facts.Made k.counted ∧ (∀ H, b.facts.Has k.counted H → b'.facts.Has k.counted H) ∧
      ∀ f ∈ shards, ∀ u ∈ k.units, u.Shard f →
        b'.facts.Has k.counted (u.builder (rankOf k.seed_paths)).facts := by
  induction shards generalizing b with
  | nil =>
    cases h
    exact ⟨hb, fun _ hH => hH, by simp⟩
  | cons f shards ih =>
    rw [List.foldlM_cons] at h
    cases hopen : open_index f with
    | error e => rw [hopen] at h; cases h
    | ok ix =>
      obtain ⟨v, hv, hf⟩ := hshards f List.mem_cons_self ix hopen
      obtain ⟨F, hF, -⟩ := hf.ranked hk hlen hv
      obtain ⟨ix', hopen', hix⟩ := hF.reads
      cases hopen.symm.trans hopen'
      obtain ⟨b₁, h₁, hfacts⟩ :=
        b.populate_from_shard_remapped_facts hix hF.ne (F.relabels_ranked k.seed_nodup hlen)
      rw [hopen, Res.ok_bind, h₁, Res.ok_bind] at h
      have hmade := hb.mul (hf.counted hk hlen hv hF).1
      rw [← hfacts] at hmade
      obtain ⟨hmade', hkeep, hall⟩ := ih (fun g hg => hshards g (List.mem_cons_of_mem _ hg)) hmade h
      refine ⟨hmade', fun H hH => hkeep H ?_, fun g hg u hu hgu => ?_⟩
      · rw [hfacts]
        exact hH.mul_right _
      · rcases List.mem_cons.mp hg with rfl | hg
        · refine hkeep _ ?_
          rw [hfacts]
          exact (hgu.counted hk hlen hu hF).2.mul_left _
        · exact hall g hg u hu hgu

/-- A group of shards comes to a file that has all of their units. -/
theorem coalesce_shards_remapped_counted (hk : k.Plain) (hlen : k.seed_paths.length ≤ 2 ^ 32) {shards : List Bytes}
    (hshards : ∀ f ∈ shards, ShardOf k f) {g : Bytes}
    (h : coalesce_shards_remapped shards (globalOf k.seed_paths) = .ok g) :
    k.MadeFile g ∧ ∀ f ∈ shards, ∀ u ∈ k.units, u.Shard f → k.HasFile g u := by
  unfold coalesce_shards_remapped at h
  obtain ⟨b, hb, h⟩ := Res.bind_eq_ok h
  have hone : IndexBuilder.new.facts.Made k.counted := by
    rw [IndexBuilder.facts_new]
    exact Facts.made_one _
  obtain ⟨hmade, -, hall⟩ := populate_counted hk hlen hshards hone hb
  have hfile := fileHolds_of_write_merged .nil rfl h
  rw [List.prod_nil, one_mul] at hfile
  exact ⟨⟨_, hfile, hmade.written⟩, fun f hf u hu hshard =>
    ⟨_, hfile, (hall f hf u hu hshard).written hmade.short hmade.kinds⟩⟩

theorem merge_group_global_counted {files : List Bytes} (hfiles : ∀ g ∈ files, k.MadeFile g) {f : Bytes}
    (h : merge_group_global files = .ok f) : k.MadeFile f ∧ ∀ g ∈ files, ∀ u, k.HasFile g u → k.HasFile f u := by
  unfold merge_group_global at h
  obtain ⟨ixs, hopen, h⟩ := Res.bind_eq_ok h
  obtain ⟨Fs, hFs, hof, hin⟩ := forall₂_fileHolds fun g hg => (hfiles g hg).imp fun _ hF => hF.1
  have hfile := fileHolds_of_write_merged hFs hopen h
  rw [IndexBuilder.facts_new, mul_one] at hfile
  have hmade : Fs.prod.Made k.counted := by
    refine Facts.made_prod fun F hF => ?_
    obtain ⟨g, hg, hgF⟩ := hof F hF
    obtain ⟨G, hG, hmade⟩ := hfiles g hg
    rwa [hgF.unique hG]
  refine ⟨⟨_, hfile, hmade.written⟩, fun g hg u => ?_⟩
  rintro ⟨G, hG, hhas⟩
  obtain ⟨F, hF, hgF⟩ := hin g hg
  rw [hG.unique hgF] at hhas
  exact ⟨_, hfile, (hhas.prod hF).written hmade.short hmade.kinds⟩

/-- Together the files hold facts of the units only, and each of `us` whole. -/
structure Kzip.Level (k : Kzip) (us : List KzipUnit) (level : List Bytes) : Prop where
  made : ∀ f ∈ level, k.MadeFile f
  has : ∀ u ∈ us, ∃ f ∈ level, k.HasFile f u

omit [Unicode] in
theorem exists_mem_of_mapM {α β : Type} {f : α → Res β} {l : List α} {l' : List β} (h : l.mapM f = .ok l')
    {a : α} (ha : a ∈ l) : ∃ b, f a = .ok b ∧ b ∈ l' := by
  induction l generalizing l' with
  | nil => cases ha
  | cons c l ih =>
    rw [List.mapM_cons] at h
    obtain ⟨b₁, h₁, h⟩ := Res.bind_eq_ok h
    obtain ⟨bs, hbs, h⟩ := Res.bind_eq_ok h
    cases h
    rcases List.mem_cons.mp ha with rfl | ha
    · exact ⟨b₁, h₁, List.mem_cons_self⟩
    · obtain ⟨b, hb, hmem⟩ := ih hbs ha
      exact ⟨b, hb, List.mem_cons_of_mem _ hmem⟩

/-- The groups of a level, each merged to a file of the next. -/
theorem Kzip.Level.chunks {us : List KzipUnit} {files next : List Bytes} {n : Nat} {merge : List Bytes → Res Bytes}
    {P : Bytes → KzipUnit → Prop}
    (hmerge : ∀ grp f, (∀ g ∈ grp, g ∈ files) → merge grp = .ok f → k.MadeFile f ∧ ∀ g ∈ grp, ∀ u ∈ us, P g u → k.HasFile f u)
    (hall : ∀ u ∈ us, ∃ g ∈ files, P g u) (h : (files.toChunks n).mapM merge = .ok next) : k.Level us next where
  made f hf := by
    obtain ⟨grp, hgrp, hf⟩ := exists_of_mem_mapM h hf
    exact (hmerge grp f (fun g hg => mem_of_mem_chunk hgrp hg) hf).1
  has u hu := by
    obtain ⟨g, hg, hgu⟩ := hall u hu
    rw [← flatten_toChunks n files] at hg
    obtain ⟨grp, hgrp, hg⟩ := List.mem_flatten.mp hg
    obtain ⟨f, hf, hmem⟩ := exists_mem_of_mapM h hgrp
    exact ⟨f, hmem, (hmerge grp f (fun g hg => mem_of_mem_chunk hgrp hg) hf).2 g hg u hu hgu⟩

theorem coalesceLevels_counted {us : List KzipUnit} {depth : Nat} {level last : List Bytes} (hlevel : k.Level us level)
    (h : Run.coalesceLevels depth level = .ok last) : k.Level us last := by
  induction depth generalizing level with
  | zero =>
    cases h
    exact hlevel
  | succ depth ih =>
    unfold Run.coalesceLevels at h
    split_ifs at h
    · obtain ⟨next, hnext, h⟩ := Res.bind_eq_ok h
      refine ih (Kzip.Level.chunks (fun grp f hgrp hf => ?_) hlevel.has hnext) h
      obtain ⟨hmade, hhas⟩ := merge_group_global_counted (fun g hg => hlevel.made g (hgrp g hg)) hf
      exact ⟨hmade, fun g hg u _ hgu => hhas g hg u hgu⟩
    · cases h
      exact hlevel

theorem Run.coalesce_counted {r : Run} (hk : k.Plain) (hlen : k.seed_paths.length ≤ 2 ^ 32) (hseed : r.seed_paths = k.seed_paths)
    (hshards : ∀ f ∈ r.dir.list_partial_shards, ShardOf k f)
    (hall : ∀ u ∈ k.succeeded, ∃ f ∈ r.dir.list_partial_shards, u.Shard f) {level : List Bytes}
    (h : r.coalesce = .ok level) : k.Level k.succeeded level := by
  unfold Run.coalesce at h
  rw [hseed] at h
  obtain ⟨l1, hl1, h⟩ := Res.bind_eq_ok h
  refine coalesceLevels_counted (Kzip.Level.chunks (P := fun f u => u.Shard f) (fun grp f hgrp hf => ?_) hall hl1) h
  obtain ⟨hmade, hhas⟩ := coalesce_shards_remapped_counted hk hlen (fun g hg => hshards g (hgrp g hg)) hf
  exact ⟨hmade, fun g hg u hu hgu => hhas g hg u (List.mem_of_mem_filter hu) hgu⟩

/-! ## The cache -/

/-- The two are one compilation: what a content digest stands for. -/
structure KzipUnit.Same (u v : KzipUnit) : Prop where
  paths : u.paths = v.paths
  xrefs : u.xrefs = v.xrefs
  tables : u.tables = v.tables
  succeeded : u.succeeded = v.succeeded

omit [Unicode] in
theorem KzipUnit.Same.shard {u v : KzipUnit} (h : u.Same v) {f : Bytes} (hf : v.Shard f) : u.Shard f := by
  obtain ⟨hok, N, ids, hids, hf⟩ := hf
  refine ⟨h.succeeded.trans hok, N, ids, fun p hp => hids p (h.paths ▸ hp), ?_⟩
  have hbuilder : u.builder ids = v.builder ids := by
    unfold KzipUnit.builder
    rw [h.paths, h.xrefs, h.tables]
  rw [hbuilder]
  exact hf

/-- Whatever the cache has under the digest of a unit does not open, or is a shard of it. -/
def CacheOf (W : KzipUnit → Prop) (cache : ShardCache) : Prop :=
  ∀ u, W u → ∀ f ix, cache[u.digest]? = some f → open_index f = .ok ix → u.Shard f

section

variable {W : KzipUnit → Prop} {cache : ShardCache} {u : KzipUnit} {f : Bytes}

omit [Unicode] in
theorem CacheOf.insert (hW : ∀ u v, W u → W v → u.digest = v.digest → u.Same v) (h : CacheOf W cache) (hu : W u)
    (hf : u.Shard f) : CacheOf W (cache.insert u.digest f) := by
  intro v hv g ix hg hopen
  rw [getElem?_insert_key] at hg
  split_ifs at hg with hd
  · cases hg
    exact (hW v u hv hu hd.symm).shard hf
  · exact h v hv g ix hg hopen

omit [Unicode] in
theorem CacheOf.valid (h : CacheOf W cache) (hunits : ∀ u ∈ k.units, W u) : ValidCache k cache :=
  fun u hu f hf ix hopen => ⟨u, hu, h u (hunits u hu) f ix hf hopen⟩

end

/-! ## The run -/

section

variable {W : KzipUnit → Prop} {r r' : Run} {x y : Worker} {w : Nat} {u : KzipUnit} {f : Bytes}

/-- The unit has a shard in the directory. -/
def Run.Sharded (r : Run) (u : KzipUnit) : Prop :=
  ∃ (i : Nat) (f : Bytes), r.dir.shards[i]? = some f ∧ u.Shard f

def Run.Caches (W : KzipUnit → Prop) (r : Run) : Prop := ∀ cache, r.cache = some cache → CacheOf W cache

omit [Unicode] in
theorem Run.Caches.of_eq (h : r.Caches W) (hcache : r'.cache = r.cache) : r'.Caches W :=
  fun cache hc => h cache (hcache ▸ hc)

/-- Only a shard that was just written goes into the cache. -/
theorem Step.caches (hunits : ∀ u ∈ k.units, W u) (hW : ∀ u v, W u → W v → u.digest = v.digest → u.Same v)
    (hst : Step r r') (hinv : r.CachedInv k N) (h : r.Caches W) : r'.Caches W := by
  cases hst with
  | begin => exact h
  | intern => exact h.of_eq rfl
  | skip => exact h
  | lock => exact h
  | fold => exact h
  | push => exact h
  | snapshot => exact h
  | drain => exact h.of_eq rfl
  | pass => exact h
  | stage => exact h
  | finish => exact h
  | finishFailed => exact h
  | record => exact h
  | recordFailed => exact h
  | hit => exact h.of_eq rfl
  | copyFailed => exact h.of_eq rfl
  | @shard w x u ids cache f hc hw hphase hu hok hf stored =>
    have hph := (hinv.workers x (List.mem_of_getElem? hw)).phase
    rw [hphase] at hph
    have hWu := hunits u (hinv.plan u (List.mem_of_getElem? hu))
    intro c' hc'
    cases hc'
    split_ifs
    · exact (h cache hc).insert hW hWu ⟨hok, N, _, hph.names hu, hf⟩
    · exact h cache hc
  | shardFailed => exact h.of_eq rfl
  | coalesce => exact h
  | promote => exact h

/-- Every unit is due, or it has a shard until all of them are coalesced. -/
structure Run.CachedSums (k : Kzip) (r : Run) : Prop where
  plan : r.plan = k.units
  numbers : ∀ (i : Nat) (f : Bytes), r.dir.shards[i]? = some f → i < r.next_shard
  held : r.failed = true ∨ r.level.isSome ∨ ∀ u ∈ k.succeeded, r.Due u ∨ r.Sharded u
  level : ∀ level, r.level = some level → k.Level k.succeeded level
  out : ∀ f, r.out = some f → k.whole.finish = .ok f

theorem Run.CachedSums.setWorker (h : r.CachedSums k) (hw : r.workers[w]? = some x) (hi : y.i = x.i) :
    (r.setWorker w y).CachedSums k :=
  { h with held := h.held.imp_right fun hl => hl.imp_right fun hall u hu => (hall u hu).imp_left fun hd => hd.setWorker hw hi }

/-- A worker leaves a unit that failed, or that has a shard. -/
theorem Run.CachedSums.done (h : r.CachedSums k) (hw : r.workers[w]? = some x) (hi : y.i = x.i)
    (hu : r.failed = true ∨ ∀ u, r.plan[x.i]? = some u → u.succeeded = true → r.Sharded u) :
    (r.done w y).CachedSums k := by
  refine { h with held := ?_ }
  rcases h.held with hf | hl | hall
  · exact Or.inl hf
  · exact Or.inr (Or.inl hl)
  rcases hu with hf | hhere
  · exact Or.inl hf
  refine Or.inr (Or.inr fun v hv => ?_)
  rcases hall v hv with hdue | hs
  · exact (hdue.done hw hi).imp_right fun hx => hhere v hx (List.mem_filter.mp hv).2
  · exact Or.inr hs

/-- A new shard takes a number that no other has. -/
theorem Run.CachedSums.addShard (h : r.CachedSums k) (f : Bytes) : { r with
    dir := { r.dir with shards := r.dir.shards.insert r.next_shard f }
    next_shard := r.next_shard + 1 }.CachedSums k :=
  { h with
    numbers := fun i g hg => by
      rw [getElem?_insert_key] at hg
      split_ifs at hg with hc
      · exact hc ▸ Nat.lt_succ_self _
      · exact (h.numbers i g hg).trans (Nat.lt_succ_self _)
    held := h.held.imp_right fun hl => hl.imp_right fun hall u hu => (hall u hu).imp_right fun ⟨i, g, hg, hs⟩ => by
      refine ⟨i, g, ?_, hs⟩
      rw [getElem?_insert_key, if_neg (h.numbers i g hg).ne']
      exact hg }

theorem Run.CachedInv.final_made (h : r.CachedInv k N) {level : List Bytes} (hlevel : r.level = some level)
    {Fs : List Facts} (hFs : List.Forall₂ FileHolds level Fs) :
    ∃ t : Tables Fs.prod.visible, r.final_merge = t.rows.finishFile := by
  obtain ⟨t, ht⟩ := write_merged_of_fileHolds r.final_delta hFs
  have hfacts : Fs.prod * r.final_delta.facts = Fs.prod := by rw [h.final_delta, mul_one]
  unfold Run.final_merge
  rw [hlevel]
  revert t
  rw [hfacts]
  exact fun t ht => ⟨t, ht⟩

/-- The files of the last level merge to the file of one pass. -/
theorem Run.CachedSums.final_merge (hk : k.Plain) (hlen : k.seed_paths.length ≤ 2 ^ 32) (hinv : r.CachedInv k N)
    (h : r.CachedSums k) {level : List Bytes} (hlevel : r.level = some level) :
    r.final_merge = k.whole.finish := by
  have hL := h.level level hlevel
  obtain ⟨Fs, hFs, hof, hin⟩ := forall₂_fileHolds fun g hg => (hL.made g hg).imp fun _ hF => hF.1
  obtain ⟨t, ht⟩ := hinv.final_made hlevel hFs
  have hmade : Fs.prod.Made k.counted := by
    refine Facts.made_prod fun F hF => ?_
    obtain ⟨g, hg, hgF⟩ := hof F hF
    obtain ⟨G, hG, hmade⟩ := hL.made g hg
    rwa [hgF.unique hG]
  have hvisible := (hk.sourcesAgree hlen (nil_paths k)).visible_eq_of_made hmade fun G hG => by
    rcases Kzip.mem_sources.mp hG with ⟨u, hu, hok, rfl⟩ | ⟨p, hp, -⟩
    · obtain ⟨g, hg, G, hG, hhas⟩ := hL.has u (List.mem_filter.mpr ⟨hu, hok⟩)
      obtain ⟨F, hF, hgF⟩ := hin g hg
      rw [hG.unique hgF] at hhas
      exact hhas.prod hF
    · simp at hp
  rw [← k.whole_facts] at hvisible
  rw [ht, IndexBuilder.finish_eq, finishFile_congr hvisible t]

/-- A step of a cached run drops no unit. -/
theorem Step.cachedSums (hk : k.Plain) (hlen : k.seed_paths.length ≤ 2 ^ 32) (hunits : ∀ u ∈ k.units, W u)
    (hst : Step r r') (hinv : r.CachedInv k N) (hcaches : r.Caches W) (h : r.CachedSums k) : r'.CachedSums k := by
  have hcache : r.cache ≠ none := by
    obtain ⟨cache, hc, -⟩ := hinv.cache
    rw [hc]
    exact Option.some_ne_none _
  have hfree : ∀ {w : Nat} {x : Worker}, r.workers[w]? = some x → x.busy = false :=
    fun hw => (hinv.workers _ (List.mem_of_getElem? hw)).free
  have hunit : ∀ {i : Nat} {u : KzipUnit}, r.plan[i]? = some u → W u :=
    fun hu => hunits _ (h.plan ▸ List.mem_of_getElem? hu)
  have hoff : ∀ {s : Snap}, r.snap = s → s = .off := fun hs => hs.symm.trans hinv.snap
  have hself : ∀ f : Bytes, (r.dir.shards.insert r.next_shard f)[r.next_shard]? = some f := by simp
  cases hst with
  | begin hw => exact h.setWorker hw rfl
  | @intern w x path todo ids id a hw hphase hid =>
    have hids : { r with file_ids := a }.CachedSums k := { h with }
    exact hids.setWorker (x := x) hw rfl
  | skip hw hphase hu hfailed =>
    refine h.done hw rfl (Or.inr fun v hv hok => ?_)
    cases hu.symm.trans hv
    rw [hfailed] at hok
    cases hok
  | lock hc => exact absurd hc hcache
  | fold hw hphase =>
    have hx := hfree hw
    rw [Worker.busy, hphase] at hx
    cases hx
  | push hw hphase hu =>
    have hx := hfree hw
    rw [Worker.busy, hphase] at hx
    cases hx
  | snapshot hc => exact absurd hc hcache
  | drain hsnap => cases hoff hsnap
  | pass hsnap => cases hoff hsnap
  | stage hsnap => cases hoff hsnap
  | finish hsnap => cases hoff hsnap
  | finishFailed hsnap => cases hoff hsnap
  | record hsnap => cases hoff hsnap
  | recordFailed hsnap => cases hoff hsnap
  | @hit w x u f hw hidle hu hhit =>
    obtain ⟨cache, ix, hc, hget, hopen⟩ := hhit
    refine (h.addShard f).done (x := x) hw rfl (Or.inr fun v hv _ => ?_)
    cases hu.symm.trans hv
    exact ⟨r.next_shard, f, hself f, hcaches cache hc u (hunit hu) f ix hget hopen⟩
  | @copyFailed w x u f hw hidle hu hhit left =>
    refine Run.CachedSums.setWorker (x := x) ?_ hw rfl
    cases left with
    | none => exact { h with numbers := fun i g hg => (h.numbers i g hg).trans (Nat.lt_succ_self _) }
    | some n => exact h.addShard _
  | @shard w x u ids cache f hc hw hphase hu hok hf stored =>
    have hph := (hinv.workers x (List.mem_of_getElem? hw)).phase
    rw [hphase] at hph
    have hshard : u.Shard f := ⟨hok, N, _, hph.names hu, hf⟩
    have hstored : { r with cache := some (if stored then cache.insert u.digest f else cache) }.CachedSums k := { h with }
    refine (hstored.addShard f).done (x := x) hw rfl (Or.inr fun v hv _ => ?_)
    cases hu.symm.trans hv
    exact ⟨r.next_shard, f, hself f, hshard⟩
  | @shardFailed w x ids hw hphase =>
    have hfail : { r with failed := true, next_shard := r.next_shard + 1 }.CachedSums k :=
      { h with
        numbers := fun i g hg => (h.numbers i g hg).trans (Nat.lt_succ_self _)
        held := Or.inl rfl }
    exact hfail.done (x := x) hw rfl (Or.inl rfl)
  | @coalesce cache level left hc hjoined hnone hlevel hleft =>
    obtain ⟨hidle, -, hfailed, -⟩ := hjoined
    have hshards : ∀ f ∈ r.dir.list_partial_shards, ShardOf k f := by
      intro f hf
      obtain ⟨i, hi⟩ := Dir.mem_list_partial_shards.mp hf
      exact hinv.shards i f hi
    have hall : ∀ u ∈ k.succeeded, ∃ f ∈ r.dir.list_partial_shards, u.Shard f := by
      intro u hu
      rcases h.held with hf | hl | hall
      · simp [hfailed] at hf
      · simp [hnone] at hl
      rcases hall u hu with ⟨w, x, hw, c, hc⟩ | ⟨i, f, hf, hs⟩
      · have hi := (hidle x (List.mem_of_getElem? hw)).2
        rw [List.getElem?_eq_none (by omega)] at hc
        cases hc
      · exact ⟨f, Dir.mem_list_partial_shards.mpr ⟨i, hf⟩, hs⟩
    have hL := Run.coalesce_counted hk hlen hinv.seed hshards hall hlevel
    refine { h with numbers := fun i f hi => h.numbers i f (hleft i f hi), held := Or.inr (Or.inl rfl), level := fun l hl => ?_ }
    cases hl
    exact hL
  | promote hjoined hlevel hf =>
    refine { h with out := fun g hg => ?_ }
    cases hg
    obtain ⟨cache, hc, -⟩ := hinv.cache
    rw [hc, Option.isSome_some] at hlevel
    obtain ⟨level, hl⟩ := Option.isSome_iff_exists.mp hlevel
    rw [← h.final_merge hk hlen hinv hl, hf]

theorem Reaches.caches {r₀ : Run} (hlen : k.seed_paths.length ≤ 2 ^ 32) (hunits : ∀ u ∈ k.units, W u)
    (hW : ∀ u v, W u → W v → u.digest = v.digest → u.Same v) (hreach : Reaches r₀ r) (hinv : ∃ N, r₀.CachedInv k N)
    (h : r₀.Caches W) : (∃ N, r.CachedInv k N) ∧ r.Caches W := by
  induction hreach with
  | refl => exact ⟨hinv, h⟩
  | step _ hst ih =>
    obtain ⟨⟨N, hN⟩, hc⟩ := ih
    exact ⟨hst.cachedInv hlen hN, hst.caches hunits hW hN hc⟩

theorem Reaches.cachedSums {r₀ : Run} (hk : k.Plain) (hlen : k.seed_paths.length ≤ 2 ^ 32) (hunits : ∀ u ∈ k.units, W u)
    (hW : ∀ u v, W u → W v → u.digest = v.digest → u.Same v) (hreach : Reaches r₀ r) (hinv : ∃ N, r₀.CachedInv k N)
    (hcaches : r₀.Caches W) (h : r₀.CachedSums k) : r.CachedSums k := by
  induction hreach with
  | refl => exact h
  | step hreach hst ih =>
    obtain ⟨⟨N, hN⟩, hc⟩ := hreach.caches hlen hunits hW hinv hcaches
    exact hst.cachedSums hk hlen hunits hN hc ih

/-! ## Build after build -/

variable {args : Args} {d : Dir} {r₀ : Run} {cache : ShardCache}

/-- A cache as builds over units of `W` leave it. Each starts from what is left of the cache of the build
before, in a directory without shards, and can be killed anywhere. -/
inductive CacheHistory (W : KzipUnit → Prop) : ShardCache → Prop
  | empty : CacheHistory W ∅
  | build {k : Kzip} {args : Args} {d : Dir} {r₀ r : Run} {cache cache' : ShardCache} (h : CacheHistory W cache)
      (hunits : ∀ u ∈ k.units, W u) (hresume : args.resume = false) (hcache : args.cache = some cache)
      (hshards : d.shards = ∅) (hlaunch : launch args k d = .ok r₀) (hreach : Reaches r₀ r)
      (hleft : r.cache = some cache') : CacheHistory W cache'
  /-- `finalize` and `clear`, which remove what they can. -/
  | prune {cache cache' : ShardCache} (h : CacheHistory W cache)
      (hsub : ∀ (digest : String) (f : Bytes), cache'[digest]? = some f → cache[digest]? = some f) :
      CacheHistory W cache'

omit [Unicode] in
theorem launch_cache (hresume : args.resume = false) (hcache : args.cache = some cache)
    (h : launch args k d = .ok r) : r.cache = some cache := by
  obtain ⟨done, ids, -, -, rfl⟩ := launch_eq_ok h
  unfold startRun
  rw [hresume, hcache]
  rfl

omit [Unicode] in
theorem launch_caches (hresume : args.resume = false) (hcache : args.cache = some cache) (hc : CacheOf W cache)
    (h : launch args k d = .ok r) : r.Caches W := by
  intro cache' hcache'
  cases (launch_cache hresume hcache h).symm.trans hcache'
  exact hc

theorem CacheHistory.cacheOf (hW : ∀ u v, W u → W v → u.digest = v.digest → u.Same v) (h : CacheHistory W cache) :
    CacheOf W cache := by
  induction h with
  | empty =>
    intro u _ f ix hf
    simp at hf
  | build _ hunits hresume hcache hshards hlaunch hreach hleft ih =>
    obtain ⟨hlen, hinv⟩ := launch_cachedInv hresume hcache (ih.valid hunits) hshards hlaunch
    exact (hreach.caches hlen hunits hW hinv (launch_caches hresume hcache ih hlaunch)).2 _ hleft
  | prune _ hsub ih => exact fun u hu f ix hf hopen => ih u hu f ix (hsub _ _ hf) hopen

theorem launch_cachedSums (hresume : args.resume = false) (hshards : d.shards = ∅)
    (h : launch args k d = .ok r) : r.CachedSums k := by
  obtain ⟨done, ids, hdone, -, rfl⟩ := launch_eq_ok h
  have hdone' : done = [] := by
    unfold Args.done_shas at hdone
    rw [hresume] at hdone
    simpa using hdone.symm
  subst hdone'
  have hplan : (startRun args k d [] ids).plan = k.units := by simp [startRun]
  refine ⟨hplan, fun i f hf => ?_, Or.inr (Or.inr fun u hu => Or.inl ?_), fun l hl => ?_,
    fun f hf => ?_⟩
  · change d.shards[i]? = some f at hf
    rw [hshards] at hf
    simp at hf
  · exact startRun_due ids (hplan ▸ List.mem_of_mem_filter hu)
  · cases hl
  · cases hf

/-- Whatever builds have filled the cache, over whatever kzips, and whichever units are hits: what a cached
run promotes is the file of one pass over its units. -/
theorem cached_run_output {f : Bytes} (hW : ∀ u v, W u → W v → u.digest = v.digest → u.Same v)
    (hhistory : CacheHistory W cache) (hk : k.Plain) (hunits : ∀ u ∈ k.units, W u) (hresume : args.resume = false)
    (hcache : args.cache = some cache) (hshards : d.shards = ∅) (hlaunch : launch args k d = .ok r₀)
    (hreach : Reaches r₀ r) (hout : r.out = some f) : k.whole.finish = .ok f := by
  have hc := hhistory.cacheOf hW
  obtain ⟨hlen, hinv⟩ := launch_cachedInv hresume hcache (hc.valid hunits) hshards hlaunch
  have hsums := hreach.cachedSums hk hlen hunits hW hinv (launch_caches hresume hcache hc hlaunch)
    (launch_cachedSums hresume hshards hlaunch)
  exact hsums.out f hout

/-- A single shard comes to the file of its unit under the ranks. -/
theorem coalesce_shards_remapped_one (hk : k.Plain) (hlen : k.seed_paths.length ≤ 2 ^ 32) (hu : u ∈ k.units)
    (hf : u.Shard f) : coalesce_shards_remapped [f] (globalOf k.seed_paths) = (u.builder (rankOf k.seed_paths)).finish := by
  obtain ⟨F, hF, hranked⟩ := hf.ranked hk hlen hu
  obtain ⟨ix, hopen, hix⟩ := hF.reads
  obtain ⟨b, hb, hfacts⟩ := IndexBuilder.new.populate_from_shard_remapped_facts hix hF.ne
    (F.relabels_ranked k.seed_nodup hlen)
  rw [IndexBuilder.facts_new, one_mul, hranked] at hfacts
  obtain ⟨t, ht⟩ := write_merged_of_fileHolds b .nil
  unfold coalesce_shards_remapped
  rw [List.foldlM_cons, hopen, Res.ok_bind, hb, Res.ok_bind, List.foldlM_nil]
  rw [List.mapM_nil] at ht
  refine ht.trans ?_
  rw [IndexBuilder.finish_eq]
  apply finishFile_congr
  rw [List.prod_nil, one_mul, hfacts, (Facts.sheds_visible _).visible_eq]

end

end

/-! A unit is stored by one build, and hit in a later one in which its path has another rank. -/

section

attribute [local instance] asciiUnicode

def definingKzip (seed_paths : List String) (h : seed_paths.Pairwise fun p q => as_bytes p < as_bytes q) : Kzip where
  units := [definingUnit]
  seed_paths := seed_paths
  shas_nodup := List.nodup_singleton _
  shas_word := List.forall_mem_singleton.mpr isWord_letters.1
  seed_sorted := h

theorem definingKzip_plain {seed_paths : List String} (h : seed_paths.Pairwise fun p q => as_bytes p < as_bytes q)
    (hpath : "a.cc" ∈ seed_paths) (hshort : ∀ p ∈ seed_paths, len p ≤ u16Max) : (definingKzip seed_paths h).Plain where
  paths := List.forall_mem_singleton.mpr (List.forall_mem_singleton.mpr hpath)
  short := List.forall_mem_singleton.mpr (twoUnits_plain.short _ List.mem_cons_self)
  short_paths := hshort
  agree := twoUnits_plain.agree

def cachedWorker (cache : ShardCache) : Args where
  out := "out.s2db"
  resume := false
  workers := 1
  cache := some cache
  workers_pos := Nat.one_pos

abbrev firstKzip : Kzip := definingKzip ["a.cc"] (List.pairwise_singleton _ _)

abbrev laterKzip : Kzip := definingKzip ["0.cc", "a.cc"] (by decide)

/-- The first build writes the shard and stores it. -/
theorem first_build : ∃ f, definingUnit.Shard f ∧
    CacheHistory (· = definingUnit) ((∅ : ShardCache).insert definingUnit.digest f) := by
  have hf : (definingUnit.builder (idOf [("a.cc", 0)])).dedup_tables.1.localize_file_ids.1.finish = .ok
      (definingUnit.builder (idOf [("a.cc", 0)])).dedup_tables.1.localize_file_ids.1.finishRows.bytes :=
    (Rows.finishFile_eq _).trans (if_pos (by decide +kernel))
  generalize (definingUnit.builder (idOf [("a.cc", 0)])).dedup_tables.1.localize_file_ids.1.finishRows.bytes = f at hf
  obtain ⟨r₀, hlaunch⟩ : ∃ r₀, launch (cachedWorker ∅) firstKzip {} = .ok r₀ :=
    exists_launch (List.cons_ne_nil _ _) rfl (by decide)
  obtain ⟨-, hsums⟩ := launch_sums rfl hlaunch
  obtain ⟨done, ids, hdone, -, rfl⟩ := launch_eq_ok hlaunch
  cases hdone
  obtain ⟨accessed, hrank⟩ := hsums.ranks "a.cc" List.mem_cons_self
  change ids.map["a.cc"]? = some (0, accessed) at hrank
  have hid : ids.intern "a.cc" = some (0, { ids with map := ids.map.insert "a.cc" (0, true) }) := by
    unfold FileIdAllocator.intern
    rw [hrank]
  have hmiss : ∀ f, ¬ (startRun (cachedWorker ∅) firstKzip {} [] ids).cached definingUnit f := by
    rintro f ⟨cache, ix, hc, hget, -⟩
    cases hc
    simp at hget
  have hreach := Reaches.refl.step (.begin (w := 0) rfl rfl rfl hmiss)
  have hreach := hreach.step (.intern (w := 0) rfl rfl hid)
  have hreach := hreach.step (.shard (w := 0) rfl rfl rfl rfl rfl hf true)
  have hnames : definingUnit.Shard f :=
    ⟨rfl, fun _ => some (clamp_blob_str "a.cc"), _, List.forall_mem_singleton.mpr rfl, hf⟩
  have hunits : ∀ u ∈ firstKzip.units, u = definingUnit := fun u hu => List.mem_singleton.mp hu
  exact ⟨f, hnames, .build .empty hunits rfl rfl rfl hlaunch hreach rfl⟩

theorem cached_run_output_hit : ∃ cache r₀ r f, CacheHistory (· = definingUnit) cache ∧
    launch (cachedWorker cache) laterKzip {} = .ok r₀ ∧ Reaches r₀ r ∧ r.out = some f ∧
      laterKzip.whole.finish = .ok f := by
  obtain ⟨f, hf, hhistory⟩ := first_build
  have hW : ∀ u v : KzipUnit, u = definingUnit → v = definingUnit → u.digest = v.digest → u.Same v := by
    rintro u v rfl rfl -
    exact ⟨rfl, rfl, rfl, rfl⟩
  have hk : laterKzip.Plain := definingKzip_plain _ (by decide) (by decide)
  have hunits : ∀ u ∈ laterKzip.units, u = definingUnit := fun u hu => List.mem_singleton.mp hu
  generalize hcache : (∅ : ShardCache).insert definingUnit.digest f = cache at hhistory
  obtain ⟨r₀, hlaunch⟩ : ∃ r₀, launch (cachedWorker cache) laterKzip {} = .ok r₀ :=
    exists_launch (List.cons_ne_nil _ _) rfl (by decide)
  have hc := hhistory.cacheOf hW
  obtain ⟨hlen, hinv⟩ := launch_cachedInv rfl rfl (hc.valid hunits) rfl hlaunch
  obtain ⟨done, ids, hdone, -, rfl⟩ := launch_eq_ok hlaunch
  cases hdone
  obtain ⟨F, hF, -⟩ := hf.ranked hk hlen List.mem_cons_self
  obtain ⟨ix, hopen, -⟩ := hF.reads
  have hhit : (startRun (cachedWorker cache) laterKzip {} [] ids).cached definingUnit f := by
    refine ⟨cache, ix, rfl, ?_, hopen⟩
    rw [← hcache]
    simp
  have hreach := Reaches.refl.step (.hit (w := 0) rfl rfl rfl hhit)
  generalize hr : Run.done _ 0 _ = r at hreach
  have hshards : r.dir.list_partial_shards = [f] := by
    rw [← hr]
    exact list_partial_shards_single rfl
  have hjoined : r.Joined := by
    rw [← hr]
    exact ⟨List.forall_mem_singleton.mpr ⟨rfl, le_rfl⟩, rfl, rfl, rfl⟩
  have hgroup : (definingUnit.builder (rankOf laterKzip.seed_paths)).finish =
      .ok (definingUnit.builder (rankOf laterKzip.seed_paths)).finishRows.bytes :=
    (Rows.finishFile_eq _).trans (if_pos (by decide +kernel))
  have hone := (coalesce_shards_remapped_one hk hlen List.mem_cons_self hf).trans hgroup
  have hlevel : r.coalesce = .ok [(definingUnit.builder (rankOf laterKzip.seed_paths)).finishRows.bytes] := by
    unfold Run.coalesce
    rw [hshards, ← hr]
    change ([[f]].mapM fun grp => coalesce_shards_remapped grp (globalOf laterKzip.seed_paths)) >>= _ = _
    rw [List.mapM_cons, hone, List.mapM_nil]
    rfl
  have hreach := hreach.step (.coalesce (c := cache) (by rw [← hr]; rfl) hjoined (by rw [← hr]; rfl) hlevel
    fun _ _ h => h)
  generalize hs : { r with dir := _, level := _ } = s at hreach
  have hsums := hreach.cachedSums hk hlen hunits hW hinv (launch_caches rfl rfl hc hlaunch)
    (launch_cachedSums rfl rfl hlaunch)
  obtain ⟨⟨N, hN⟩, -⟩ := hreach.caches hlen hunits hW hinv (launch_caches rfl rfl hc hlaunch)
  have hwhole : laterKzip.whole.finish = .ok laterKzip.whole.finishRows.bytes :=
    (Rows.finishFile_eq _).trans (if_pos (by decide +kernel))
  have hmerge := (hsums.final_merge hk hlen hN (by rw [← hs])).trans hwhole
  have hreach := hreach.step (.promote (by rw [← hs]; exact hjoined) (by rw [← hs, ← hr]; rfl) hmerge)
  exact ⟨cache, _, _, _, hhistory, hlaunch, hreach, rfl,
    cached_run_output hW hhistory hk hunits rfl rfl rfl hlaunch hreach rfl⟩

end

end Scry2
