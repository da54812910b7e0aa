import Scry2.Resume

/-!
# Runs that go through

A file of a few edges and types always fits, so a run over units with nothing else in them can come to
its end. What such runs do shows what the recovery logic does.
-/

open Scry2.Lib
open Std (ExtTreeMap)

namespace Scry2

/-! ## Files that fit -/

/-- A few inheritance edges and typed symbols, and nothing else. -/
structure Facts.Sparse (n : Nat) (F : Facts) : Prop where
  xrefs : F.xrefs = ∅
  syms : ∀ k, F.syms k = none
  files : ∀ id, F.files id = none
  aliases : F.aliases = ∅
  calls : F.calls = ∅
  childof : F.childof = ∅
  sig : ∀ k, F.sig k = none
  inherits : ∃ l : List InhRow, l.length ≤ n ∧ ∀ r ∈ F.inherits, r ∈ l
  typed : ∃ l : List UInt64, l.length ≤ n ∧ ∀ k t, F.typed k = some t → k ∈ l

theorem strBytes_length_le {α : Type} (str : α → String) (l : List α) :
    (strBytes str l).length ≤ l.length * u16Max := by
  induction l with
  | nil => simp [strBytes]
  | cons a l ih =>
    have ha := len_clamp_le (str a)
    have hcons : strBytes str (a :: l) = as_bytes (clamp_blob_str (str a)) ++ strBytes str l := rfl
    rw [hcons, List.length_append, List.length_cons, Nat.add_mul, Nat.one_mul]
    unfold len at ha
    omega

theorem pushStrs_length {α ρ : Type} (str : α → String) (mk : α → Nat → Nat → ρ) (blob : Bytes) (l : List α) :
    (pushStrs str mk blob l).1.length = l.length := by
  induction l generalizing blob with
  | nil => rfl
  | cons a l ih => simp [pushStrs, ih]

/-- Sections of moderate size make a file that `set_len` takes. -/
theorem Rows.total_le (r : Rows) :
    r.total ≤ size_of_header + r.xrefs.length * XREF_LEN + r.syms.length * SYM_LEN +
      r.names.length * NAME_LEN + r.files.length * FILE_LEN + r.inh.length * INH_LEN +
      r.inhrev.length * INH_LEN + r.calls.length * CALL_LEN + r.crev.length * CALL_LEN +
      r.typed.length * TYPE_LEN + r.childrev.length * INH_LEN + r.sig.length * TYPE_LEN +
      r.blob.length + r.trigram_dict.length + r.trigram_post.length + 14 * PAGE := by
  have pad : ∀ a b c : Nat, a ≤ c → pad_up (a + b) ≤ c + b + PAGE := by
    intro a b c hac
    have := pad_up_lt (a + b)
    omega
  have h0 : pad_up size_of_header ≤ size_of_header + PAGE := (pad_up_lt _).le
  have h1 := pad _ (r.xrefs.length * XREF_LEN) _ h0
  have h2 := pad _ (r.syms.length * SYM_LEN) _ h1
  have h3 := pad _ (r.names.length * NAME_LEN) _ h2
  have h4 := pad _ (r.files.length * FILE_LEN) _ h3
  have h5 := pad _ (r.inh.length * INH_LEN) _ h4
  have h6 := pad _ (r.inhrev.length * INH_LEN) _ h5
  have h7 := pad _ (r.calls.length * CALL_LEN) _ h6
  have h8 := pad _ (r.crev.length * CALL_LEN) _ h7
  have h9 := pad _ (r.typed.length * TYPE_LEN) _ h8
  have h10 := pad _ (r.childrev.length * INH_LEN) _ h9
  have h11 := pad _ (r.sig.length * TYPE_LEN) _ h10
  have h12 := pad _ r.blob.length _ h11
  have h13 := pad _ r.trigram_dict.length _ h12
  have htotal := Nat.add_le_add_right h13 r.trigram_post.length
  unfold Rows.total Rows.finishHeader
  dsimp only
  refine htotal.trans ?_
  omega

theorem Facts.Sparse.total_lt {n : Nat} {F : Facts} (h : F.Sparse n) (hn : n ≤ 2 ^ 32) (t : Tables F) :
    t.rows.total < 2 ^ 63 := by
  have hx : t.xrefs = [] := Enumerates.eq_nil (h.xrefs ▸ t.xrefs_of)
  have hs : t.syms = [] := t.syms_of.eq_nil h.syms
  have ha : t.aliases = [] := Enumerates.eq_nil (h.aliases ▸ t.aliases_of)
  have hf : t.files = [] := t.files_of.eq_nil h.files
  have hc : t.calls = [] := Enumerates.eq_nil (h.calls ▸ t.calls_of)
  have ho : t.childrev = [] := Enumerates.eq_nil (h.childof ▸ t.childrev_of)
  have hg : t.sig = [] := t.sig_of.eq_nil h.sig
  obtain ⟨l, hl, hinh⟩ := h.inherits
  obtain ⟨m, hm, htyped⟩ := h.typed
  have hi : t.inh.length ≤ n := (Enumerates.length_le t.inh_of hinh).trans hl
  have ht : t.typed.length ≤ n := (Tabulates.length_le t.typed_of htyped).trans hm
  have hnames : t.names = [] := by
    simp [Tables.names, Tables.ownNames, Tables.aliasNames, hs, ha, pushStrs, sortNames]
  have hblob : t.blob.length ≤ n * u16Max := by
    have hle := strBytes_length_le Prod.snd t.typed
    have hmul := Nat.mul_le_mul_right u16Max ht
    have e : t.blob = strBytes Prod.snd t.typed := by
      simp [Tables.blob, Tables.typeBlob, Tables.pathBlob, Tables.aliasBlob, Tables.nameBlob, hs, ha, hf, hg,
        strBytes]
    rw [e]
    omega
  have htri : build_trigram_index [] t.blob = ([], []) := rfl
  have hle := t.rows.total_le
  generalize t.rows.total = total at hle ⊢
  simp only [Tables.rows, Tables.inhrev, Tables.crev, hnames, htri, hx, hs, hf, hc, ho, hg, pushStrs_length,
    List.length_nil, List.length_map, List.length_insertionSort, List.map_nil, List.insertionSort_nil] at hle
  have hsizes : size_of_header = 256 ∧ INH_LEN = 16 ∧ TYPE_LEN = 18 ∧ PAGE = 4096 ∧ u16Max = 65535 := by
    decide
  obtain ⟨e1, e2, e3, e4, e5⟩ := hsizes
  rw [e1, e2, e3, e4] at hle
  rw [e5] at hblob
  omega

section

variable [Unicode] {n m : Nat} {F G : Facts}

theorem Facts.Sparse.mul (hF : F.Sparse n) (hG : G.Sparse m) : (F * G).Sparse (n + m) where
  xrefs := by rw [Facts.mul_xrefs, hF.xrefs, hG.xrefs, Set.union_empty]
  syms k := by simp [hF.syms k, hG.syms k]
  files id := by simp [hF.files id, hG.files id]
  aliases := by rw [Facts.mul_aliases, hF.aliases, hG.aliases, Set.union_empty]
  calls := by rw [Facts.mul_calls, hF.calls, hG.calls, Set.union_empty]
  childof := by rw [Facts.mul_childof, hF.childof, hG.childof, Set.union_empty]
  sig k := by simp [hF.sig k, hG.sig k]
  inherits := by
    obtain ⟨l, hl, hFl⟩ := hF.inherits
    obtain ⟨l', hl', hGl⟩ := hG.inherits
    refine ⟨l ++ l', by rw [List.length_append]; omega, ?_⟩
    rintro r (hr | hr)
    · exact List.mem_append_left _ (hFl r hr)
    · exact List.mem_append_right _ (hGl r hr)
  typed := by
    obtain ⟨l, hl, hFl⟩ := hF.typed
    obtain ⟨l', hl', hGl⟩ := hG.typed
    refine ⟨l ++ l', by rw [List.length_append]; omega, fun k t ht => ?_⟩
    cases hk : F.typed k with
    | some s => exact List.mem_append_left _ (hFl k s hk)
    | none =>
      change combine pickText (F.typed k) (G.typed k) = some t at ht
      rw [hk, combine_none_left] at ht
      exact List.mem_append_right _ (hGl k t ht)

omit [Unicode] in
theorem Facts.Sparse.written (h : F.Sparse n) : F.written.Sparse n where
  xrefs := h.xrefs
  syms k := by simp [Facts.written, Facts.clamped, Facts.visible, h.syms k]
  files id := by simp [Facts.written, Facts.clamped, Facts.visible, h.files id]
  aliases := by simp [Facts.written, Facts.clamped, Facts.visible, h.aliases]
  calls := h.calls
  childof := h.childof
  sig k := by simp [Facts.written, Facts.clamped, Facts.visible, h.sig k]
  inherits := h.inherits
  typed := by
    obtain ⟨l, hl, hF⟩ := h.typed
    refine ⟨l, hl, fun k t ht => ?_⟩
    obtain ⟨s, hs, -⟩ := Option.map_eq_some_iff.mp ht
    exact hF k s hs

omit [Unicode] in
theorem Facts.Sparse.visible (h : F.Sparse n) : F.visible.Sparse n :=
  { h with aliases := by simp [Facts.visible, h.aliases] }

omit [Unicode] in
theorem Rows.finishFile_of_lt {r : Rows} (h : r.total < 2 ^ 63) : r.finishFile = .ok r.bytes := by
  rw [Rows.finishFile_eq, if_pos h]

omit [Unicode] in
theorem IndexBuilder.finish_of_sparse {b : IndexBuilder} (h : b.facts.Sparse n) (hn : n ≤ 2 ^ 32) :
    ∃ f, b.finish = .ok f ∧ FileHolds f b.facts.written := by
  have hfit := h.visible.total_lt hn b.tables
  have hf : b.finish = .ok b.tables.rows.bytes := by rw [b.finish_eq, Rows.finishFile_of_lt hfit]
  exact ⟨_, hf, IndexBuilder.fileHolds_of_finish hf⟩

theorem IndexBuilder.write_merged_of_sparse {b : IndexBuilder} {files : List Bytes} {Fs : List Facts}
    (hfiles : List.Forall₂ FileHolds files Fs) (h : (Fs.prod * b.facts).Sparse n) (hn : n ≤ 2 ^ 32) :
    ∃ f, (files.mapM open_index >>= b.write_merged_snapshot) = .ok f ∧
      FileHolds f (Fs.prod * b.facts).written := by
  obtain ⟨ixs, hopen, hix, hne⟩ := open_forall₂ hfiles
  obtain ⟨t, -⟩ := b.mergedRows_eq hix hne
  have hf : b.write_merged_snapshot ixs = .ok t.rows.bytes := by
    rw [b.write_merged_snapshot_eq hix hne t, Rows.finishFile_of_lt (h.visible.total_lt hn t)]
  refine ⟨_, ?_, fileHolds_of_write_merged hfiles hopen hf⟩
  rw [hopen, Res.ok_bind, hf]

end

/-! ## Units without paths -/

/-- The unit has a few edges and types, and no paths. -/
structure KzipUnit.Sparse (n : Nat) (u : KzipUnit) : Prop where
  paths : u.paths = []
  succeeded : u.succeeded = true
  tables : u.tables.facts.Sparse n

section

variable [Unicode] {r r₀ : Run} {x : Worker} {u : KzipUnit} {n : Nat}

omit [Unicode] in
theorem KzipUnit.Sparse.builder_facts (h : u.Sparse n) (ids : String → UInt32) :
    (u.builder ids).facts = u.tables.facts := by
  have hx : u.xrefs = [] := by
    refine List.eq_nil_iff_forall_not_mem.mpr fun y hy => ?_
    have hmem := u.xrefs_in y hy
    rw [h.paths] at hmem
    cases hmem
  rw [u.builder_facts]
  apply Facts.ext
  · rw [hx, h.tables.xrefs]
    ext r
    simp
  · rfl
  · funext id
    rw [h.paths, h.tables.files id]
    rfl
  all_goals rfl

/-- A unit with these rows. -/
def smallUnit (sha : String) (inherits : List InhRow) (typed : List StrRow)
    (h : ∀ r ∈ typed, r.text ≠ "") : KzipUnit where
  sha := sha
  digest := sha
  paths := []
  xrefs := []
  tables := { IndexBuilder.new with inherits := inherits, typed := typed, typed_ne := h }
  succeeded := true
  xrefs_in _ hx := absurd hx List.not_mem_nil

omit [Unicode] in
theorem smallUnit_sparse (sha : String) (inherits : List InhRow) (typed : List StrRow)
    (h : ∀ r ∈ typed, r.text ≠ "") :
    (smallUnit sha inherits typed h).Sparse (inherits.length + typed.length) := by
  refine ⟨rfl, rfl, ?_⟩
  refine ⟨?_, fun k => ?_, fun id => ?_, ?_, ?_, ?_, fun k => rfl, ⟨inherits, ?_, fun r hr => hr⟩,
    ⟨typed.map StrRow.sym, ?_, fun k t ht => ?_⟩⟩
  · simp [IndexBuilder.facts, smallUnit, IndexBuilder.new]
  · simp [IndexBuilder.facts, smallUnit, IndexBuilder.new]
  · simp [IndexBuilder.facts, smallUnit, IndexBuilder.new]
  · simp [IndexBuilder.facts, smallUnit, IndexBuilder.new]
  · simp [IndexBuilder.facts, smallUnit, IndexBuilder.new]
  · simp [IndexBuilder.facts, smallUnit, IndexBuilder.new]
  · omega
  · simp
  · exact List.mem_map.mpr ⟨⟨k, t⟩, ((bestText_eq_some_iff h).mp ht).1, rfl⟩

omit [Unicode] in
theorem nil_sorted : ([] : List String).Pairwise fun p q => as_bytes p < as_bytes q := .nil

omit [Unicode] in
theorem isWord_letters : IsWord "a" ∧ IsWord "b" := by
  have ha : is_whitespace 'a' = false := by decide
  have hb : is_whitespace 'b' = false := by decide
  refine ⟨⟨by simp, ?_⟩, ⟨by simp, ?_⟩⟩
  · exact List.forall_mem_singleton.mpr ha
  · exact List.forall_mem_singleton.mpr hb

theorem FileIdAllocator.facts_push_to_unmarked {a : FileIdAllocator} (h : a.Unmarked) (b : IndexBuilder) :
    (a.push_to b).facts = b.facts := by
  obtain ⟨Fs, hFs, hmarked⟩ := a.facts_push_to b
  have hnil : Fs = [] := by
    refine List.eq_nil_iff_forall_not_mem.mpr fun F hF => ?_
    obtain ⟨p, id, hp, -⟩ := hmarked F hF
    exact h p id hp
  rw [hFs, hnil, List.prod_nil, mul_one]

theorem Reaches.trans {s t : Run} (h : Reaches r s) (h' : Reaches s t) : Reaches r t := by
  induction h' with
  | refl => exact h
  | step _ hst ih => exact ih.step hst

/-! ## A run of one worker -/

/-- One worker, between two units, and nothing else is going on. -/
structure Run.Calm (r : Run) (x : Worker) : Prop where
  workers : r.workers = [x]
  idle : x.phase = .idle
  cache : r.cache = none
  level : r.level = none
  snap : r.snap = .off
  failed : r.failed = false
  out : r.out = none
  ids : r.file_ids.Unmarked

/-- The worker after its unit. -/
def Worker.after (x : Worker) (u : KzipUnit) : Worker where
  i := x.i + 1
  sink :=
    { builder := x.sink.builder.merge_from (u.builder (idOf [])).dedup_tables.1
      pending_shas := x.sink.pending_shas ++ [u.sha] }

def Run.afterUnit (r : Run) (x : Worker) (u : KzipUnit) : Run := { r with workers := [x.after u] }

theorem Worker.after_facts (h : u.Sparse n) :
    (x.after u).sink.builder.facts = x.sink.builder.facts * u.tables.facts := by
  have hmerge := IndexBuilder.facts_merge_from x.sink.builder (u.builder (idOf [])).dedup_tables.1
  rw [IndexBuilder.facts_dedup_tables, h.builder_facts] at hmerge
  exact hmerge

theorem Run.Calm.afterUnit (h : r.Calm x) : (r.afterUnit x u).Calm (x.after u) :=
  { h with workers := rfl, idle := rfl }

omit [Unicode] in
theorem Run.setWorker_zero {s : Run} {y z : Worker} (h : s.workers = [y]) :
    s.setWorker 0 z = { s with workers := [z] } := by
  unfold Run.setWorker
  rw [h]
  rfl

theorem Run.Calm.unit (h : r.Calm x) (hu : r.plan[x.i]? = some u) (hs : u.Sparse n) :
    Reaches r (r.afterUnit x u) := by
  have hbegin : Step r { r with workers := [{ x with phase := .ingest [] [] }] } := by
    have hst := Step.begin (w := 0) (by rw [h.workers]; rfl) h.idle hu (by
      rintro f ⟨cache, ix, hc, -⟩
      rw [h.cache] at hc
      cases hc)
    rwa [Run.setWorker_zero h.workers, hs.paths] at hst
  have hlock := Step.lock (r := { r with workers := [{ x with phase := .ingest [] [] }] }) (w := 0) h.cache rfl
    rfl hu hs.succeeded
  rw [Run.setWorker_zero rfl] at hlock
  have hfold := Step.fold (r := { r with workers := [{ x with phase := .folding (u.builder (idOf [])).dedup_tables.1 }] })
    (w := 0) rfl rfl
  rw [Run.setWorker_zero rfl] at hfold
  have hpush := Step.push (r := { r with workers := [{ x with
      phase := .merged
      sink := { x.sink with builder := x.sink.builder.merge_from (u.builder (idOf [])).dedup_tables.1 } }] })
    (w := 0) rfl rfl hu
  rw [Run.done, Run.setWorker_zero rfl] at hpush
  exact .step (.step (.step (.step .refl hbegin) hlock) hfold) hpush

/-- A snapshot between two units: the rows of the sink are in shard `f`, and their shas are recorded. -/
def Run.afterSnapshot (r : Run) (x : Worker) (f : Bytes) : Run :=
  { r with
    workers := [{ x with sink := {} }]
    acc := { builder := .new, committed_shas := r.acc.committed_shas ++ x.sink.pending_shas }
    next_shard := r.next_shard + 1
    snap := .off
    dir :=
      { r.dir with
        shards := r.dir.shards.insert r.next_shard f
        shas := some (shasText ((r.acc.committed_shas ++ x.sink.pending_shas).mergeSort
          fun s t => as_bytes s ≤ as_bytes t)) } }

omit [Unicode] in
theorem Run.Calm.afterSnapshot (h : r.Calm x) (f : Bytes) :
    (r.afterSnapshot x f).Calm { x with sink := {} } :=
  { h with workers := rfl, idle := h.idle, snap := rfl }

theorem Run.Calm.snapshot (h : r.Calm x) {F : Facts} (hF : r.acc.builder.facts * x.sink.builder.facts = F)
    (hs : F.Sparse n) (hn : n ≤ 2 ^ 32) :
    ∃ f, Reaches r (r.afterSnapshot x f) ∧ FileHolds f F.written := by
  have hdelta : (r.file_ids.push_to (r.acc.builder.merge_from x.sink.builder)).facts = F := by
    rw [FileIdAllocator.facts_push_to_unmarked h.ids, IndexBuilder.facts_merge_from, hF]
  obtain ⟨f, hf, hholds⟩ := IndexBuilder.finish_of_sparse (hdelta.symm ▸ hs) hn
  rw [hdelta] at hholds
  refine ⟨f, ?_, hholds⟩
  have hfree : x.busy = false := by rw [Worker.busy, h.idle]
  have hdrained : Reaches r { r with
      acc := { r.acc with builder := r.acc.builder.merge_from x.sink.builder }
      snap := .drain 1 x.sink.pending_shas
      workers := [{ x with sink := {} }] } := by
    have hdrain := Step.drain (r := { r with snap := .drain 0 [] }) rfl (by rw [h.workers]; rfl) hfree
    have hset := Run.setWorker_zero (z := { x with sink := {} }) (s := { r with
      acc := { r.acc with builder := r.acc.builder.merge_from x.sink.builder }
      snap := .drain 1 x.sink.pending_shas }) h.workers
    exact hset ▸ (Reaches.refl.step (.snapshot h.cache h.snap h.out)).step hdrain
  have hwritten := (hdrained.step (.stage rfl)).step (.finish rfl hf)
  exact hwritten.step (.record rfl)

/-- All units are done: the output is the product of the files and what is still in memory. -/
theorem Run.Calm.promote (h : r.Calm x) (hdone : r.plan.length ≤ x.i) {Fs : List Facts}
    (hfiles : List.Forall₂ FileHolds r.dir.sources Fs) {F : Facts}
    (hF : Fs.prod * (r.acc.builder.facts * x.sink.builder.facts) = F) (hs : F.Sparse n) (hn : n ≤ 2 ^ 32) :
    ∃ f, Step r { r with out := some f } ∧ FileHolds f F.written := by
  have hdelta : Fs.prod * (r.file_ids.drain_into r.final_delta).facts = F := by
    rw [FileIdAllocator.drain_into, FileIdAllocator.facts_push_to_unmarked h.ids, Run.final_delta, h.workers,
      ← hF]
    exact congrArg (Fs.prod * ·) (IndexBuilder.facts_merge_from _ _)
  obtain ⟨f, hf, hholds⟩ := IndexBuilder.write_merged_of_sparse hfiles (hdelta.symm ▸ hs) hn
  rw [hdelta] at hholds
  refine ⟨f, .promote ⟨?_, h.snap, h.failed, h.out⟩ (by rw [h.level, h.cache]; rfl) ?_, hholds⟩
  · rw [h.workers]
    exact List.forall_mem_singleton.mpr ⟨h.idle, hdone⟩
  · rw [Run.final_merge, h.level]
    exact hf

omit [Unicode] in
theorem list_partial_shards_single {d : Dir} {i : Nat} {f : Bytes}
    (h : d.shards = (∅ : ExtTreeMap Nat Bytes).insert i f) : d.list_partial_shards = [f] := by
  have hone : Tabulates [(i, f)] fun j : Nat => ((∅ : ExtTreeMap Nat Bytes).insert i f)[j]? := by
    refine ⟨List.pairwise_singleton _ _, fun j g => ?_⟩
    beta_reduce
    rw [getElem?_insert_key]
    by_cases hij : i = j
    · subst hij
      simp [eq_comm]
    · simp [hij, Ne.symm hij]
  unfold Dir.list_partial_shards
  rw [h, (tabulates_toList _).eq hone]
  rfl

/-! ## Starting such a run -/

variable {k : Kzip} {d : Dir} {args : Args} {done : List String}

omit [Unicode] in
theorem startRun_calm {ids : FileIdAllocator} (hworkers : args.workers = 1)
    (hcache : args.resume = true ∨ args.cache = none) (hids : ids.Unmarked) :
    (startRun args k d done ids).Calm { i := 0 } where
  workers := by
    unfold startRun
    rw [hworkers]
    rfl
  idle := rfl
  cache := by
    unfold startRun
    rcases hcache with h | h <;> simp [h]
  level := rfl
  snap := rfl
  failed := rfl
  out := rfl
  ids := hids

omit [Unicode] in
theorem launch_fresh (hunits : k.units ≠ []) (hseed : k.seed_paths = []) (hresume : args.resume = false) :
    launch args k d = .ok (startRun args k d [] {}) := by
  unfold launch Args.done_shas Args.file_ids
  rw [if_neg hunits, hresume, hseed]
  rfl

omit [Unicode] in
theorem seedSource_of_no_files {a : FileIdAllocator} {f : Bytes} {F : Facts} (h : FileHolds f F)
    (hF : ∀ id, F.files id = none) : seedSource a f = .ok a := by
  obtain ⟨ix, hopen, hix⟩ := h.reads
  obtain ⟨l, hl, htab⟩ := hix.files
  have hnil : l = [] := htab.eq_nil hF
  unfold seedSource
  rw [hopen]
  simp only [hl, hnil, Res.ok_bind]
  rfl

omit [Unicode] in
theorem launch_resume (hunits : k.units ≠ []) (hresume : args.resume = true)
    (hdone : d.done_shas args.out = .ok done)
    (hsources : ∀ f ∈ d.sources, ∃ F, FileHolds f F ∧ ∀ id, F.files id = none) :
    launch args k d = .ok (startRun args k d done {}) := by
  have hseed : ∀ files : List Bytes, (∀ f ∈ files, ∃ F, FileHolds f F ∧ ∀ id, F.files id = none) →
      files.foldlM seedSource ({} : FileIdAllocator) = .ok {} := by
    intro files hfiles
    induction files with
    | nil => rfl
    | cons f files ih =>
      obtain ⟨F, hF, hnone⟩ := hfiles f List.mem_cons_self
      rw [List.foldlM_cons, seedSource_of_no_files hF hnone, Res.ok_bind]
      exact ih fun g hg => hfiles g (List.mem_cons_of_mem _ hg)
  unfold launch Args.done_shas Args.file_ids
  rw [if_neg hunits, hresume]
  simp only [if_true, hdone, hseed _ hsources, Res.ok_bind]
  rfl

end

end Scry2
