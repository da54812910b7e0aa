import Scry2.Recovery
import Scry2.Sound

/-!
# Starting over

A run without `--resume` reads no shas, but it ends with a merge of all shards that are in the
directory, and without a cache of the base too. When it finds none of them at its start, its output
has rows of its own units only.
-/

open Scry2.Lib
open Std (ExtTreeMap)

namespace Scry2

variable {k : Kzip} {N M : Naming}

/-! ## Files under other ids -/

theorem Facts.Known.relabel {us : List KzipUnit} {F G : Facts} {m : UInt32 → Option UInt32}
    (h : F.Known us N) (hr : F.Relabels m G)
    (hm : ∀ l g, m l = some g → ∃ q, F.files l = some q ∧ M g = some (clamp_blob_str q)) :
    G.Known us M where
  named := by
    refine ⟨fun g p hp => ?_, fun x hx => ?_⟩
    · obtain ⟨l, hl, hq⟩ := (hr.files g p).mp hp
      obtain ⟨q, hq', hM⟩ := hm l g hl
      cases hq.symm.trans hq'
      exact hM
    · obtain ⟨y, hy, g, hg, rfl⟩ := (hr.xrefs x).mp hx
      obtain ⟨q, hq, -⟩ := hm _ g hg
      exact ⟨q, (hr.files g q).mpr ⟨_, hg, hq⟩⟩
  short := ⟨hr.typed ▸ h.short.typed, hr.sig ▸ h.short.sig⟩
  vars := by
    rintro s ⟨m, hm, hvar⟩
    rw [hr.syms] at hm
    exact h.vars ⟨m, hm, hvar⟩
  origin :=
    { xrefs := fun x hx => by
        obtain ⟨y, hy, g, hg, rfl⟩ := (hr.xrefs x).mp hx
        obtain ⟨q, hq, hM⟩ := hm _ g hg
        obtain ⟨u, hu, hok, z, hz, h1, h2, h3, h4⟩ := h.origin.xrefs y hy
        refine ⟨u, hu, hok, z, hz, h1, h2, h3, hM.trans ?_⟩
        rw [← h4, h.named.files _ q hq]
      syms := hr.syms ▸ h.origin.syms
      files := fun g p hp => by
        obtain ⟨l, -, hq⟩ := (hr.files g p).mp hp
        exact h.origin.files l p hq
      inherits := hr.inherits ▸ h.origin.inherits
      aliases := hr.aliases ▸ h.origin.aliases
      calls := hr.calls ▸ h.origin.calls
      typed := hr.typed ▸ h.origin.typed
      childof := hr.childof ▸ h.origin.childof
      sig := hr.sig ▸ h.origin.sig }

/-- The facts under the ranks of their paths in `seed`. -/
noncomputable def Facts.ranked (F : Facts) (seed : List String) : Facts :=
  { F with
    xrefs := {r | ∃ q ∈ F.xrefs, ∃ g, (F.files q.file).bind (globalOf seed) = some g ∧ r = { q with file := g }}
    files := fun g => (seed[g.toNat]?).filter fun p =>
      @decide (∃ l, F.files l = some p) (Classical.propDecidable _) }

theorem globalOf_eq_some_iff {seed : List String} (hseed : seed.Nodup) (hlen : seed.length ≤ 2 ^ 32)
    {p : String} {g : UInt32} : globalOf seed p = some g ↔ seed[g.toNat]? = some p := by
  unfold globalOf
  constructor
  · intro h
    split_ifs at h with hp
    cases h
    have hlt := List.idxOf_lt_length_of_mem hp
    rw [UInt32.toNat_ofNat_of_lt' (hlt.trans_le hlen), List.getElem?_eq_getElem hlt, List.getElem_idxOf]
  · intro h
    obtain ⟨hlt, rfl⟩ := List.getElem?_eq_some_iff.mp h
    rw [if_pos (List.getElem_mem hlt), hseed.idxOf_getElem, UInt32.ofNat_toNat]

theorem Facts.relabels_ranked (F : Facts) {seed : List String} (hseed : seed.Nodup)
    (hlen : seed.length ≤ 2 ^ 32) :
    F.Relabels (fun l => (F.files l).bind (globalOf seed)) (F.ranked seed) where
  xrefs r := Iff.rfl
  files g p := by
    unfold ranked
    simp only [Option.filter_eq_some_iff, decide_eq_true_eq]
    constructor
    · rintro ⟨hp, l, hl⟩
      refine ⟨l, ?_, hl⟩
      rw [hl, Option.bind_some]
      exact (globalOf_eq_some_iff hseed hlen).mpr hp
    · rintro ⟨l, hg, hl⟩
      rw [hl, Option.bind_some] at hg
      exact ⟨(globalOf_eq_some_iff hseed hlen).mp hg, l, hl⟩
  syms := rfl
  inherits := rfl
  aliases := rfl
  calls := rfl
  typed := rfl
  childof := rfl
  sig := rfl

/-- What the ids of a cached build stand for. -/
def seedNaming (seed : List String) : Naming := fun g => (seed[g.toNat]?).map clamp_blob_str

theorem Facts.Known.ranked {us : List KzipUnit} {F : Facts} {seed : List String} (hseed : seed.Nodup)
    (hlen : seed.length ≤ 2 ^ 32) (h : F.Known us N) : (F.ranked seed).Known us (seedNaming seed) := by
  refine h.relabel (F.relabels_ranked hseed hlen) fun l g hg => ?_
  obtain ⟨q, hq, hg⟩ := Option.bind_eq_some_iff.mp hg
  refine ⟨q, hq, ?_⟩
  unfold seedNaming
  rw [(globalOf_eq_some_iff hseed hlen).mp hg, Option.map_some]

/-! ## Shards of units -/

/-- A file that a cached run writes for the unit, whatever ids it had for the unit's paths. -/
def KzipUnit.Shard (u : KzipUnit) (f : Bytes) : Prop :=
  u.succeeded = true ∧ ∃ (N : Naming) (ids : String → UInt32),
    (∀ p ∈ u.paths, N (ids p) = some (clamp_blob_str p)) ∧
      (u.builder ids).dedup_tables.1.localize_file_ids.1.finish = .ok f

theorem KzipUnit.builder_pathsDistinct (u : KzipUnit) (ids : String → UInt32) :
    (u.builder ids).dedup_tables.1.PathsDistinct := by
  intro g g' p hp hp'
  have hfiles : ∀ i : UInt32, (u.builder ids).dedup_tables.1.files[i]? = u.paths.find? fun q => ids q = i :=
    u.builder_files ids
  rw [hfiles] at hp hp'
  have h := List.find?_some hp
  have h' := List.find?_some hp'
  simp only [decide_eq_true_eq] at h h'
  rw [← h, h']

theorem KzipUnit.Shard.holds [Unicode] {u : KzipUnit} {f : Bytes} (hu : u ∈ k.units) (h : u.Shard f) :
    ∃ N F, FileHolds f F ∧ F.Known k.units N := by
  obtain ⟨hok, N, ids, hids, hf⟩ := h
  have hclosed := closed_known k.units
  generalize hb : (u.builder ids).dedup_tables.1 = b at hf
  have hknown : b.facts.Known k.units N := by
    rw [← hb, IndexBuilder.facts_dedup_tables]
    exact hclosed.unit N u hu hok ids hids
  have hdistinct : b.PathsDistinct := hb ▸ u.builder_pathsDistinct ids
  have hlocal : b.localize_file_ids.1.facts.Known k.units
      fun l => (b.localize_file_ids.1.files[l]?).map clamp_blob_str := by
    refine hknown.relabel (b.relabels_localize_file_ids hdistinct hknown.named.xrefs) fun g l hl => ?_
    obtain ⟨q, hq, -⟩ := Option.map_eq_some_iff.mp hl
    refine ⟨q, hq, ?_⟩
    rw [(b.localize_file_ids_files hdistinct l q).mpr ⟨g, hl, hq⟩, Option.map_some]
  exact ⟨_, _, IndexBuilder.fileHolds_of_finish hf, hclosed.written _ _ hlocal⟩

/-- What is left of a copy that broke off does not open. -/
theorem KzipUnit.Shard.take {u : KzipUnit} {f : Bytes} (h : u.Shard f) {n : Nat} (hn : n < f.length) :
    ∃ e, open_index (f.take n) = .error e := by
  obtain ⟨-, N, ids, -, hf⟩ := h
  rw [IndexBuilder.finish_eq, Rows.finishFile_eq] at hf
  split_ifs at hf with htot
  have e := Except.ok.inj hf
  subst e
  exact Rows.open_take htot hn

/-- The file does not open, or it is a shard of one of the units. -/
def ShardOf (k : Kzip) (f : Bytes) : Prop := ∀ ix, open_index f = .ok ix → ∃ u ∈ k.units, u.Shard f

/-- Whatever the cache has for a unit is a shard of such a unit. -/
def ValidCache (k : Kzip) (cache : ShardCache) : Prop :=
  ∀ u ∈ k.units, ∀ f, cache[u.digest]? = some f → ShardOf k f

theorem ValidCache.insert {cache : ShardCache} {u : KzipUnit} {f : Bytes} (h : ValidCache k cache)
    (hf : ShardOf k f) : ValidCache k (cache.insert u.digest f) := by
  intro v hv g hg
  rw [getElem?_insert_key] at hg
  split_ifs at hg
  · cases hg
    exact hf
  · exact h v hv g hg

/-! ## Coalescing shards of units -/

section

variable [Unicode] {seed : List String}

theorem populate_known (hseed : seed.Nodup) (hlen : seed.length ≤ 2 ^ 32) {shards : List Bytes}
    (hshards : ∀ f ∈ shards, ShardOf k f) {b b' : IndexBuilder} (hb : b.facts.Known k.units (seedNaming seed))
    (h : shards.foldlM (fun (delta : IndexBuilder) shard => do
      delta.populate_from_shard_remapped (← open_index shard) (globalOf seed)) b = .ok b') :
    b'.facts.Known k.units (seedNaming seed) := by
  induction shards generalizing b with
  | nil =>
    cases h
    exact hb
  | cons f shards ih =>
    rw [List.foldlM_cons] at h
    cases hopen : open_index f with
    | error e => rw [hopen] at h; cases h
    | ok ix =>
      obtain ⟨u, hu, hf⟩ := hshards f List.mem_cons_self ix hopen
      obtain ⟨N, F, hF, hknown⟩ := hf.holds hu
      obtain ⟨ix', hopen', hix⟩ := hF.reads
      cases hopen.symm.trans hopen'
      obtain ⟨b₁, h₁, hfacts⟩ :=
        b.populate_from_shard_remapped_facts hix hF.ne (F.relabels_ranked hseed hlen)
      rw [hopen, Res.ok_bind, h₁, Res.ok_bind] at h
      refine ih (fun g hg => hshards g (List.mem_cons_of_mem _ hg)) ?_ h
      rw [hfacts]
      exact (closed_known k.units).mul _ _ _ hb (hknown.ranked hseed hlen)

/-- The file holds rows of units only. -/
def KnownFile (k : Kzip) (N : Naming) (f : Bytes) : Prop := ∃ F, FileHolds f F ∧ F.Known k.units N

theorem write_merged_known {files : List Bytes} {ixs : List Index} {b : IndexBuilder} {f : Bytes}
    (hfiles : ∀ g ∈ files, KnownFile k N g) (hb : b.facts.Known k.units N)
    (hopen : files.mapM open_index = .ok ixs) (h : b.write_merged_snapshot ixs = .ok f) : KnownFile k N f := by
  have hclosed := closed_known k.units
  obtain ⟨Fs, hFs, hof, -⟩ := forall₂_fileHolds fun g hg => (hfiles g hg).imp fun _ hF => hF.1
  refine ⟨_, fileHolds_of_write_merged hFs hopen h, hclosed.written _ _ (hclosed.mul _ _ _ ?_ hb)⟩
  refine hclosed.prod fun F hF => ?_
  obtain ⟨g, hg, hgF⟩ := hof F hF
  obtain ⟨G, hG, hknown⟩ := hfiles g hg
  rwa [hgF.unique hG]

theorem new_known : IndexBuilder.new.facts.Known k.units N := by
  rw [IndexBuilder.facts_new]
  exact (closed_known k.units).one N

theorem coalesce_shards_remapped_known (hseed : seed.Nodup) (hlen : seed.length ≤ 2 ^ 32) {shards : List Bytes}
    (hshards : ∀ f ∈ shards, ShardOf k f) {f : Bytes}
    (h : coalesce_shards_remapped shards (globalOf seed) = .ok f) : KnownFile k (seedNaming seed) f := by
  unfold coalesce_shards_remapped at h
  obtain ⟨b, hb, h⟩ := Res.bind_eq_ok h
  have hknown := populate_known hseed hlen hshards new_known hb
  have hnil : ∀ g ∈ ([] : List Bytes), KnownFile k (seedNaming seed) g := by simp
  exact write_merged_known hnil hknown rfl h

theorem merge_group_global_known {files : List Bytes} (hfiles : ∀ g ∈ files, KnownFile k N g) {f : Bytes}
    (h : merge_group_global files = .ok f) : KnownFile k N f := by
  unfold merge_group_global at h
  obtain ⟨ixs, hopen, h⟩ := Res.bind_eq_ok h
  exact write_merged_known hfiles new_known hopen h

omit [Unicode] in
theorem mem_of_mem_chunk {n : Nat} {files grp : List Bytes} {f : Bytes} (hgrp : grp ∈ files.toChunks n)
    (hf : f ∈ grp) : f ∈ files := by
  rw [← flatten_toChunks n files]
  exact List.mem_flatten.mpr ⟨grp, hgrp, hf⟩

theorem coalesceLevels_known {depth : Nat} {level last : List Bytes} (hlevel : ∀ g ∈ level, KnownFile k N g)
    (h : Run.coalesceLevels depth level = .ok last) : ∀ g ∈ last, KnownFile k N g := by
  induction depth generalizing level with
  | zero =>
    cases h
    exact hlevel
  | succ depth ih =>
    unfold Run.coalesceLevels at h
    split_ifs at h
    · obtain ⟨next, hnext, h⟩ := Res.bind_eq_ok h
      refine ih (fun g hg => ?_) h
      obtain ⟨grp, hgrp, hmerge⟩ := exists_of_mem_mapM hnext hg
      exact merge_group_global_known (fun g' hg' => hlevel g' (mem_of_mem_chunk hgrp hg')) hmerge
    · cases h
      exact hlevel

theorem Run.coalesce_known {r : Run} (hseed : r.seed_paths.Nodup) (hlen : r.seed_paths.length ≤ 2 ^ 32)
    (hshards : ∀ f ∈ r.dir.list_partial_shards, ShardOf k f) {level : List Bytes}
    (h : r.coalesce = .ok level) : ∀ g ∈ level, KnownFile k (seedNaming r.seed_paths) g := by
  unfold Run.coalesce at h
  obtain ⟨l1, hl1, h⟩ := Res.bind_eq_ok h
  refine coalesceLevels_known (fun g hg => ?_) h
  obtain ⟨grp, hgrp, hg⟩ := exists_of_mem_mapM hl1 hg
  exact coalesce_shards_remapped_known hseed hlen (fun f hf => hshards f (mem_of_mem_chunk hgrp hf)) hg

/-! ## A cached run -/

/-- A worker of a cached run keeps no rows. -/
structure Worker.Cached (k : Kzip) (N : Naming) (plan : List KzipUnit) (x : Worker) : Prop where
  sink : x.sink.builder = .new
  free : x.busy = false
  phase : x.phase.Inv k (Facts.Known k.units) N plan x

/-- A run with a cache: the rows are in the shards alone, and the shards are shards of units. -/
structure Run.CachedInv (k : Kzip) (N : Naming) (r : Run) : Prop where
  cache : ∃ cache, r.cache = some cache ∧ ValidCache k cache
  plan : ∀ u ∈ r.plan, u ∈ k.units
  seed : r.seed_paths = k.seed_paths
  ids : r.file_ids.Agrees N
  shards : ∀ (i : Nat) (f : Bytes), r.dir.shards[i]? = some f → ShardOf k f
  acc : r.acc.builder = .new
  workers : ∀ x ∈ r.workers, x.Cached k N r.plan
  snap : r.snap = .off
  level : ∀ level, r.level = some level → ∀ f ∈ level, KnownFile k (seedNaming k.seed_paths) f
  out : ∀ f, r.out = some f → KnownFile k (seedNaming k.seed_paths) f

variable {r r' : Run} {x y : Worker} {w : Nat} {u : KzipUnit} {plan : List KzipUnit}

omit [Unicode] in
theorem Worker.Cached.idle (h : x.Cached k N plan) (i : Nat) :
    Worker.Cached k N plan { x with i := i, phase := .idle } := ⟨h.sink, rfl, trivial⟩

omit [Unicode] in
theorem Worker.Cached.ingest (h : x.Cached k N plan) (hu : plan[x.i]? = some u) :
    Worker.Cached k N plan { x with phase := .ingest u.paths [] } :=
  ⟨h.sink, rfl, u, hu, fun _ hp => hp, fun _ hp => Or.inl hp⟩

omit [Unicode] in
theorem Worker.Cached.mono (h : x.Cached k N plan) (hle : N.Le M) : x.Cached k M plan where
  sink := h.sink
  free := h.free
  phase := by
    have hfree := h.free
    have hph := h.phase
    unfold Worker.busy at hfree
    cases hx : x.phase with
    | idle => trivial
    | ingest todo ids =>
      rw [hx] at hph
      obtain ⟨u, hu, htodo, hids⟩ := hph
      refine ⟨u, hu, htodo, fun p hp => (hids p hp).imp_right ?_⟩
      rintro ⟨id, hid, hN⟩
      exact ⟨id, hid, hle _ _ hN⟩
    | folding b => rw [hx] at hfree; cases hfree
    | merged => rw [hx] at hfree; cases hfree

omit [Unicode] in
theorem Run.CachedInv.setWorker (h : r.CachedInv k N) (hy : y.Cached k N r.plan) :
    (r.setWorker w y).CachedInv k N :=
  { h with
    workers := fun z hz => by
      rcases List.mem_or_eq_of_mem_set hz with hz | rfl
      · exact h.workers z hz
      · exact hy }

omit [Unicode] in
theorem Run.CachedInv.addShard (h : r.CachedInv k N) {f : Bytes} (hf : ShardOf k f) (idx next : Nat) :
    { r with
      dir := { r.dir with shards := r.dir.shards.insert idx f }
      next_shard := next }.CachedInv k N :=
  { h with
    shards := fun i g hg => by
      rw [getElem?_insert_key] at hg
      split_ifs at hg
      · cases hg
        exact hf
      · exact h.shards i g hg }

omit [Unicode] in
theorem Run.CachedInv.hit (h : r.CachedInv k N) (hu : u ∈ k.units) {f : Bytes} (hf : r.cached u f) :
    ∃ v ∈ k.units, v.Shard f := by
  obtain ⟨cache, ix, hc, hget, hopen⟩ := hf
  obtain ⟨cache', hc', hvalid⟩ := h.cache
  cases hc.symm.trans hc'
  exact hvalid u hu f hget ix hopen

/-- The workers of a cached run have nothing left to merge. -/
theorem Run.CachedInv.final_delta (h : r.CachedInv k N) : r.final_delta.facts = 1 := by
  have hsinks : ∀ xs : List Worker, (∀ x ∈ xs, x.sink.builder = .new) → ∀ b : IndexBuilder,
      (xs.foldl (fun b x => b.merge_from x.sink.builder) b).facts = b.facts := by
    intro xs
    induction xs with
    | nil => exact fun _ b => rfl
    | cons x xs ih =>
      intro hxs b
      rw [List.foldl_cons, ih fun y hy => hxs y (List.mem_cons_of_mem _ hy), IndexBuilder.facts_merge_from,
        hxs x List.mem_cons_self, IndexBuilder.facts_new, mul_one]
  unfold Run.final_delta
  rw [hsinks _ fun x hx => (h.workers x hx).sink, h.acc, IndexBuilder.facts_new]

theorem Run.CachedInv.final_merge (h : r.CachedInv k N) {level : List Bytes} (hlevel : r.level = some level)
    {f : Bytes} (hf : r.final_merge = .ok f) : KnownFile k (seedNaming k.seed_paths) f := by
  unfold Run.final_merge at hf
  rw [hlevel] at hf
  obtain ⟨ixs, hopen, hf⟩ := Res.bind_eq_ok hf
  refine write_merged_known (h.level level hlevel) ?_ hopen hf
  rw [h.final_delta]
  exact (closed_known k.units).one _

theorem Step.cachedInv (hlen : k.seed_paths.length ≤ 2 ^ 32) (hst : Step r r') (h : r.CachedInv k N) :
    ∃ M, r'.CachedInv k M := by
  have hcache : r.cache ≠ none := by
    obtain ⟨cache, hc, -⟩ := h.cache
    rw [hc]
    exact Option.some_ne_none _
  have hfree : ∀ {w : Nat} {x : Worker}, r.workers[w]? = some x → x.busy = false :=
    fun hw => (h.workers _ (List.mem_of_getElem? hw)).free
  have hunit : ∀ {i : Nat} {u : KzipUnit}, r.plan[i]? = some u → u ∈ k.units :=
    fun hu => h.plan _ (List.mem_of_getElem? hu)
  have hoff : ∀ {s : Snap}, r.snap = s → s = .off := fun hs => hs.symm.trans h.snap
  cases hst with
  | begin hw hidle hu hmiss =>
    have hx := h.workers _ (List.mem_of_getElem? hw)
    exact ⟨N, h.setWorker (hx.ingest hu)⟩
  | @intern w x path todo ids id a hw hphase hid =>
    obtain ⟨M, hle, ha, hM⟩ := FileIdAllocator.intern_spec h.ids hid
    have hx := h.workers _ (List.mem_of_getElem? hw)
    have hinv : { r with file_ids := a }.CachedInv k M :=
      { h with ids := ha, workers := fun z hz => (h.workers z hz).mono hle }
    have hph := hx.phase
    rw [hphase] at hph
    exact ⟨M, hinv.setWorker ⟨hx.sink, rfl, hph.intern hle hM⟩⟩
  | skip hw hphase hu hfailed =>
    have hx := h.workers _ (List.mem_of_getElem? hw)
    exact ⟨N, h.setWorker (hx.idle _)⟩
  | lock hc => exact absurd hc hcache
  | fold hw hphase =>
    have hx := hfree hw
    rw [Worker.busy, hphase] at hx
    cases hx
  | push hw hphase hu =>
    have hx := hfree hw
    rw [Worker.busy, hphase] at hx
    cases hx
  | snapshot hc => exact absurd hc hcache
  | drain hsnap => cases hoff hsnap
  | pass hsnap => cases hoff hsnap
  | stage hsnap => cases hoff hsnap
  | finish hsnap => cases hoff hsnap
  | finishFailed hsnap => cases hoff hsnap
  | record hsnap => cases hoff hsnap
  | recordFailed hsnap => cases hoff hsnap
  | hit hw hidle hu hhit =>
    have hx := h.workers _ (List.mem_of_getElem? hw)
    have hf := h.hit (hunit hu) hhit
    exact ⟨N, (h.addShard (fun _ _ => hf) _ _).setWorker (hx.idle _)⟩
  | @copyFailed w x u f hw hidle hu hhit left =>
    have hx := h.workers _ (List.mem_of_getElem? hw)
    obtain ⟨v, -, hf⟩ := h.hit (hunit hu) hhit
    refine ⟨N, Run.CachedInv.setWorker ?_ (hx.ingest hu)⟩
    cases left with
    | none => exact { h with }
    | some n =>
      refine h.addShard (fun ix hopen => ?_) _ _
      obtain ⟨e, he⟩ := hf.take n.isLt
      cases he.symm.trans hopen
  | @shard w x u ids cache f hc hw hphase hu hok hf stored =>
    have hx := h.workers _ (List.mem_of_getElem? hw)
    have hph := hx.phase
    rw [hphase] at hph
    have hshard : ShardOf k f := fun _ _ => ⟨u, hunit hu, hok, N, _, hph.names hu, hf⟩
    have hvalid : ValidCache k (if stored then cache.insert u.digest f else cache) := by
      obtain ⟨cache', hc', hvalid⟩ := h.cache
      cases hc.symm.trans hc'
      split_ifs
      · exact hvalid.insert hshard
      · exact hvalid
    refine ⟨N, Run.CachedInv.setWorker ?_ (hx.idle _)⟩
    exact { h.addShard hshard r.next_shard (r.next_shard + 1) with cache := ⟨_, rfl, hvalid⟩ }
  | shardFailed hw hphase =>
    have hx := h.workers _ (List.mem_of_getElem? hw)
    have hinv : { r with failed := true, next_shard := r.next_shard + 1 }.CachedInv k N := { h with }
    exact ⟨N, hinv.setWorker (hx.idle _)⟩
  | @coalesce cache level left hc hjoined hnone hlevel hleft =>
    have hnodup : r.seed_paths.Nodup := by
      rw [h.seed]
      exact k.seed_sorted.imp fun hlt e => hlt.ne (congrArg as_bytes e)
    have hshards : ∀ f ∈ r.dir.list_partial_shards, ShardOf k f := by
      intro f hf
      obtain ⟨i, hi⟩ := Dir.mem_list_partial_shards.mp hf
      exact h.shards i f hi
    have hknown := Run.coalesce_known hnodup (by rwa [h.seed]) hshards hlevel
    rw [h.seed] at hknown
    refine ⟨N, { h with shards := fun i f hi => h.shards i f (hleft i f hi), level := fun l hl => ?_ }⟩
    cases hl
    exact hknown
  | promote hjoined hlevel hf =>
    refine ⟨N, { h with out := fun g hg => ?_ }⟩
    cases hg
    obtain ⟨cache, hc, -⟩ := h.cache
    rw [hc, Option.isSome_some] at hlevel
    obtain ⟨level, hl⟩ := Option.isSome_iff_exists.mp hlevel
    exact h.final_merge hl hf

/-! ## A run that starts clean -/

omit [Unicode] in
theorem FileIdAllocator.seed_paths_next {paths : List String} {a b : FileIdAllocator} (hnodup : paths.Nodup)
    (hnew : ∀ p ∈ paths, a.map[p]? = none) (h : a.seed_paths paths = some b) :
    b.next = a.next + paths.length := by
  induction paths generalizing a with
  | nil =>
    cases h
    rfl
  | cons p paths ih =>
    obtain ⟨hp, hrest⟩ := List.nodup_cons.mp hnodup
    unfold seed_paths at h
    rw [List.foldlM_cons] at h
    simp only [Option.bind_eq_bind, Option.bind_eq_some_iff] at h
    obtain ⟨c, hc, h⟩ := h
    unfold seedPath at hc
    rw [hnew p List.mem_cons_self] at hc
    obtain ⟨rfl, -⟩ := assign_eq_some hc
    have hfresh : ∀ q ∈ paths, (a.map.insert p (UInt32.ofNat a.next, false))[q]? = none := by
      intro q hq
      rw [getElem?_insert_key, if_neg, hnew q (List.mem_cons_of_mem _ hq)]
      rintro rfl
      exact hp hq
    have hlen : b.next = a.next + 1 + paths.length := ih hrest hfresh h
    rw [hlen, List.length_cons]
    omega

variable {args : Args} {d : Dir} {r₀ : Run}

omit [Unicode] in
theorem launch_cachedInv {cache : ShardCache} (hresume : args.resume = false) (hcache : args.cache = some cache)
    (hvalid : ValidCache k cache) (hshards : d.shards = ∅) (h : launch args k d = .ok r) :
    k.seed_paths.length ≤ 2 ^ 32 ∧ ∃ N, r.CachedInv k N := by
  obtain ⟨done, ids, -, hids, rfl⟩ := launch_eq_ok h
  unfold Args.file_ids at hids
  rw [hresume] at hids
  simp only [Bool.false_eq_true, if_false] at hids
  split at hids
  · rename_i a ha
    cases hids
    have hnodup : k.seed_paths.Nodup := k.seed_sorted.imp fun hlt e => hlt.ne (congrArg as_bytes e)
    obtain ⟨⟨N, hN⟩, -⟩ := FileIdAllocator.seed_paths_spec agrees_new unmarked_new ha
    have hnext := FileIdAllocator.seed_paths_next hnodup (by simp) ha
    have hbound := hN.bound
    refine ⟨by omega, N, ?_⟩
    refine ⟨⟨cache, ?_, hvalid⟩, fun u hu => (List.mem_filter.mp hu).1, rfl, hN, fun i f hf => ?_, rfl,
      fun x hx => ?_, rfl, fun l hl => ?_, fun f hf => ?_⟩
    · unfold startRun
      rw [hresume, hcache]
      rfl
    · change d.shards[i]? = some f at hf
      rw [hshards] at hf
      simp at hf
    · obtain ⟨w, rfl⟩ := startRun_worker done _ hx
      exact ⟨rfl, rfl, trivial⟩
    · cases hl
    · cases hf
  · cases hids

theorem Reaches.cachedInv (hlen : k.seed_paths.length ≤ 2 ^ 32) (h : Reaches r₀ r)
    (hinv : ∃ N, r₀.CachedInv k N) : ∃ N, r.CachedInv k N := by
  induction h with
  | refl => exact hinv
  | step _ hst ih =>
    obtain ⟨N, hN⟩ := ih
    exact hst.cachedInv hlen hN

omit [Unicode] in
/-- The file itself says which paths its ids stand for. -/
theorem KnownFile.own_rows {f : Bytes} (h : KnownFile k N f) :
    ∃ F, FileHolds f F ∧ F.From k.units F.files := by
  obtain ⟨F, hF, hknown⟩ := h
  refine ⟨F, hF, hknown.origin.agree hknown.named fun id p hp => ?_⟩
  rw [hp, hknown.named.files id p hp, clamp_of_len_le (hF.short.files id p hp)]

/-- Whatever such a run leaves as its output has rows of its own units only. -/
theorem fresh_run_own_rows {f : Bytes} (hresume : args.resume = false) (hshards : d.shards = ∅)
    (hbase : args.cache = none → d.base = none)
    (hvalid : ∀ cache, args.cache = some cache → ValidCache k cache) (hlaunch : launch args k d = .ok r₀)
    (hreach : Reaches r₀ r) (hout : r.out = some f) : ∃ F, FileHolds f F ∧ F.From k.units F.files := by
  cases hcache : args.cache with
  | none =>
    have hP := closed_known k.units
    have hempty : d.sources = [] := by
      unfold Dir.sources Dir.list_partial_shards
      rw [hbase hcache, hshards]
      rfl
    obtain ⟨N, hN⟩ := launch_inv_fresh hP hresume hcache hempty hlaunch
    obtain ⟨M, -, hM, -⟩ := hreach.inv hP hN
    obtain ⟨F, hF, hknown, -⟩ := hM.out f hout
    exact KnownFile.own_rows ⟨F, hF, hknown⟩
  | some cache =>
    obtain ⟨hlen, hinv⟩ := launch_cachedInv hresume hcache (hvalid cache hcache) hshards hlaunch
    obtain ⟨N, hN⟩ := hreach.cachedInv hlen hinv
    exact (hN.out f hout).own_rows

end

/-! A run over one kzip is killed after a snapshot, and the next one is over another kzip. -/

section

attribute [local instance] asciiUnicode

def edgeUnit : KzipUnit := smallUnit "a" [⟨1, 2⟩] [] (List.forall_mem_nil _)

def emptyUnit : KzipUnit := smallUnit "b" [] [] (List.forall_mem_nil _)

def oneUnit (u : KzipUnit) (h : IsWord u.sha) : Kzip where
  units := [u]
  seed_paths := []
  shas_nodup := List.nodup_singleton _
  shas_word := List.forall_mem_singleton.mpr h
  seed_sorted := nil_sorted

theorem edgeUnit_sparse : edgeUnit.Sparse 1 := smallUnit_sparse "a" [⟨1, 2⟩] [] _

theorem emptyUnit_sparse : emptyUnit.Sparse 0 := smallUnit_sparse "b" [] [] _

abbrev edgeKzip : Kzip := oneUnit edgeUnit isWord_letters.1

abbrev emptyKzip : Kzip := oneUnit emptyUnit isWord_letters.2

theorem edge_launch : launch (oneWorker false) edgeKzip {} = .ok (startRun (oneWorker false) edgeKzip {} [] {}) :=
  launch_fresh (List.cons_ne_nil _ _) rfl rfl

theorem edge_calm : (startRun (oneWorker false) edgeKzip {} [] {}).Calm { i := 0 } :=
  startRun_calm rfl (Or.inr rfl) unmarked_new

theorem edge_sink : IndexBuilder.new.facts * (({ i := 0 } : Worker).after edgeUnit).sink.builder.facts =
    edgeUnit.tables.facts := by
  rw [Worker.after_facts edgeUnit_sparse, IndexBuilder.facts_new, one_mul, one_mul]

/-- The shas that a run has left which was killed as it tidied up. They name the unit. -/
def staleShas : Dir := { shas := some (shasText [edgeUnit.sha]) }

/-- A run without `--resume` indexes the unit again. -/
theorem fresh_run_own_rows_staleShas : ∃ r f F, Reaches (startRun (oneWorker false) edgeKzip staleShas [] {}) r ∧
    r.out = some f ∧ FileHolds f F ∧ ⟨1, 2⟩ ∈ F.inherits ∧ F.From edgeKzip.units F.files := by
  have hlaunch : launch (oneWorker false) edgeKzip staleShas =
      .ok (startRun (oneWorker false) edgeKzip staleShas [] {}) := launch_fresh (List.cons_ne_nil _ _) rfl rfl
  have hcalm : (startRun (oneWorker false) edgeKzip staleShas [] {}).Calm { i := 0 } :=
    startRun_calm rfl (Or.inr rfl) unmarked_new
  have hunit := hcalm.unit (u := edgeUnit) rfl edgeUnit_sparse
  have hrows : ([] : List Facts).prod * (IndexBuilder.new.facts *
      (({ i := 0 } : Worker).after edgeUnit).sink.builder.facts) = edgeUnit.tables.facts := by
    rw [List.prod_nil, one_mul, edge_sink]
  obtain ⟨f, hst, hf⟩ := hcalm.afterUnit.promote le_rfl .nil hrows edgeUnit_sparse.tables (by decide)
  have hreach := hunit.step hst
  obtain ⟨F, hF, hfrom⟩ := fresh_run_own_rows rfl rfl (fun _ => rfl) (fun _ h => by cases h) hlaunch hreach rfl
  refine ⟨_, f, F, hreach, rfl, hF, ?_, hfrom⟩
  rw [hF.unique hf]
  exact List.mem_cons_self

/-- The shard that the killed run left is merged into the output of a run that never heard of its unit. -/
theorem leftover_shard_reaches_output :
    ¬ ∀ (k₀ k : Kzip) (d : Dir) (args : Args) (r₀ r : Run) (f : Bytes), Reached k₀ (.down d) →
      args.resume = false → (∀ cache, args.cache = some cache → ValidCache k cache) →
      launch args k d = .ok r₀ → Reaches r₀ r → r.out = some f →
      ∃ F, FileHolds f F ∧ F.From k.units F.files := by
  intro hall
  have hunit := edge_calm.unit (u := edgeUnit) rfl edgeUnit_sparse
  obtain ⟨g, hsnap, hg⟩ := edge_calm.afterUnit.snapshot edge_sink edgeUnit_sparse.tables (by decide)
  have hclean : ({} : Dir).Clean := ⟨rfl, rfl, rfl⟩
  have hdown := Reached.crash
    ((hunit.trans hsnap).reached (.launch (.clean hclean) rfl (Or.inr hclean) edge_launch)) rfl
  generalize hd : (((startRun (oneWorker false) edgeKzip {} [] {}).afterUnit { i := 0 } edgeUnit).afterSnapshot
    (({ i := 0 } : Worker).after edgeUnit) g).dir = d at hdown
  have hsources : d.sources = [g] := by
    unfold Dir.sources
    rw [← hd, list_partial_shards_single rfl]
    rfl
  have hlaunch : launch (oneWorker false) emptyKzip d = .ok (startRun (oneWorker false) emptyKzip d [] {}) :=
    launch_fresh (List.cons_ne_nil _ _) rfl rfl
  have hcalm : (startRun (oneWorker false) emptyKzip d [] {}).Calm { i := 0 } :=
    startRun_calm rfl (Or.inr rfl) unmarked_new
  have hempty := hcalm.unit (u := emptyUnit) rfl emptyUnit_sparse
  have hrows : [edgeUnit.tables.facts.written].prod * (IndexBuilder.new.facts *
      (({ i := 0 } : Worker).after emptyUnit).sink.builder.facts) =
      edgeUnit.tables.facts.written * emptyUnit.tables.facts := by
    rw [Worker.after_facts emptyUnit_sparse, IndexBuilder.facts_new, one_mul, one_mul, List.prod_singleton]
  obtain ⟨f, hst, hf⟩ := hcalm.afterUnit.promote le_rfl (hsources.symm ▸ .cons hg .nil) hrows
    (edgeUnit_sparse.tables.written.mul emptyUnit_sparse.tables) (by decide)
  obtain ⟨F, hF, hfrom⟩ := hall edgeKzip emptyKzip d (oneWorker false) _ _ f hdown rfl (fun _ h => by cases h)
    hlaunch (hempty.step hst) rfl
  rw [hF.unique hf] at hfrom
  have hrow : ⟨1, 2⟩ ∈ (edgeUnit.tables.facts.written * emptyUnit.tables.facts).written.inherits :=
    Or.inl List.mem_cons_self
  obtain ⟨u, hu, -, hr⟩ := hfrom.inherits _ hrow
  obtain rfl := List.mem_singleton.mp hu
  cases hr

end

end Scry2
