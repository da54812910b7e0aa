import Scry2.Snapshot

/-!
# Crash and resume

A run that starts from an empty directory, or resumes from what killed runs left, keeps the rows of
every unit.
-/

open Scry2.Lib
open Std (ExtTreeMap)

namespace Scry2

variable {k : Kzip} {P : Naming → Facts → Prop} {N M : Naming} {d : Dir} {args : Args}

/-! ## Starting a run -/

theorem startRun_worker (done : List String) (ids : FileIdAllocator) {x : Worker}
    (hx : x ∈ (startRun args k d done ids).workers) : ∃ w, x = { i := w } := by
  obtain ⟨w, -, rfl⟩ := List.mem_map.mp hx
  exact ⟨w, rfl⟩

/-- The plan is dealt out to the workers. -/
theorem startRun_has {done : List String} (ids : FileIdAllocator) {u : KzipUnit} (hu : u ∈ k.units)
    (hdone : u.sha ∉ done) :
    ∃ (w : Nat) (x : Worker), (startRun args k d done ids).workers[w]? = some x ∧
      x.Has k N (startRun args k d done ids).plan (startRun args k d done ids).workers.length u := by
  have hmem : u ∈ (startRun args k d done ids).plan := List.mem_filter.mpr ⟨hu, by simpa using hdone⟩
  obtain ⟨j, hj⟩ := List.getElem?_of_mem hmem
  have hlen : (startRun args k d done ids).workers.length = args.workers := by simp [startRun]
  refine ⟨j % args.workers, { i := j % args.workers }, ?_, Or.inl ⟨j / args.workers, ?_⟩⟩
  · simp [startRun, Nat.mod_lt _ args.workers_pos]
  · rw [hlen, Nat.mod_add_div']
    exact hj

theorem startRun_inv [Unicode] (hP : Closed k.units P) {done : List String} {ids : FileIdAllocator}
    (hcache : args.resume = true ∨ args.cache = none) (hids : ids.Agrees N) (hu : ids.Unmarked)
    (hgood : d.Good P N) (hdone : Listed k (d.Durable k N) done) :
    (startRun args k d done ids).Inv k P N where
  cache := by
    unfold startRun
    rcases hcache with h | h <;> simp [h]
  level := rfl
  plan u hu := (List.mem_filter.mp hu).1
  ids := hids
  marked p id hp := absurd hp (hu p id)
  dir := hgood
  numbers i f hi := Dir.lt_next_shard_index hi
  acc := by
    rw [show (startRun args k d done ids).acc.builder = .new from rfl, IndexBuilder.facts_new]
    exact hP.one N
  committed := hdone
  workers x hx := by
    obtain ⟨w, rfl⟩ := startRun_worker done ids hx
    refine ⟨?_, Listed.nil, trivial⟩
    rw [IndexBuilder.facts_new]
    exact hP.one N
  snap := trivial
  held := by
    refine Or.inr fun u hu _ => ?_
    by_cases hs : u.sha ∈ done
    · exact Run.Held.of_dir ((hdone _ hs).2 u hu rfl)
    · exact Or.inl (startRun_has ids hu hs)
  out f hf := by cases hf

theorem agrees_new : FileIdAllocator.Agrees (fun _ => none) {} :=
  ⟨fun path e h => by simp at h, by simp, by decide⟩

theorem unmarked_new : FileIdAllocator.Unmarked {} := fun path id h => by simp at h

/-- A run without `--resume` where no base and no shards are. -/
theorem launch_inv_fresh [Unicode] (hP : Closed k.units P) {r : Run} (hresume : args.resume = false)
    (hcache : args.cache = none) (hempty : d.sources = []) (h : launch args k d = .ok r) :
    ∃ N, r.Inv k P N := by
  obtain ⟨done, ids, hdone, hids, rfl⟩ := launch_eq_ok h
  have hdone' : done = [] := by
    unfold Args.done_shas at hdone
    rw [hresume] at hdone
    simpa using hdone.symm
  subst hdone'
  unfold Args.file_ids at hids
  rw [hresume] at hids
  simp only [Bool.false_eq_true, if_false] at hids
  split at hids
  · rename_i a ha
    cases hids
    obtain ⟨⟨N, hN⟩, hu⟩ := FileIdAllocator.seed_paths_spec agrees_new unmarked_new ha
    refine ⟨N, startRun_inv hP (Or.inr hcache) hN hu ?_ Listed.nil⟩
    intro f hf
    rw [hempty] at hf
    cases hf
  · cases hids

/-! ## Resuming -/

theorem seedSource_spec {a a' : FileIdAllocator} {f : Bytes} {F : Facts} (hF : FileHolds f F)
    {rows : List (UInt32 × String)} (ha : FileIdAllocator.SeededBy rows a)
    (hseed : seedSource a f = .ok a') :
    ∃ more, FileIdAllocator.SeededBy (rows ++ more) a' ∧ ∀ e, e ∈ more ↔ F.files e.1 = some e.2 := by
  obtain ⟨ix, hopen, hix⟩ := hF.reads
  obtain ⟨l, hl, htab⟩ := hix.files
  unfold seedSource at hseed
  simp only [hopen, hl, Res.ok_bind] at hseed
  split at hseed
  · rename_i b hb
    cases hseed
    exact ⟨l, FileIdAllocator.seededBy_seed_from ha hb, fun e => htab.2 e.1 e.2⟩
  · cases hseed

theorem seedSources_spec {files : List Bytes} {Fs : List Facts} (h : List.Forall₂ FileHolds files Fs)
    {a a' : FileIdAllocator} {rows : List (UInt32 × String)} (ha : FileIdAllocator.SeededBy rows a)
    (hseed : files.foldlM seedSource a = .ok a') :
    ∃ more, FileIdAllocator.SeededBy (rows ++ more) a' ∧
      ∀ e, e ∈ more ↔ ∃ F ∈ Fs, F.files e.1 = some e.2 := by
  induction h generalizing a rows with
  | nil =>
    cases hseed
    exact ⟨[], by rwa [List.append_nil], by simp⟩
  | @cons f F files Fs hF _ ih =>
    rw [List.foldlM_cons] at hseed
    cases hb : seedSource a f with
    | error e => rw [hb] at hseed; cases hseed
    | ok b =>
      rw [hb, Res.ok_bind] at hseed
      obtain ⟨m₁, h₁, e₁⟩ := seedSource_spec hF ha hb
      obtain ⟨m₂, h₂, e₂⟩ := ih h₁ hseed
      refine ⟨m₁ ++ m₂, by rwa [← List.append_assoc], fun e => ?_⟩
      rw [List.mem_append, e₁, e₂]
      simp

/-- The names that the files of the directory give. -/
noncomputable def Dir.naming (d : Dir) (N : Naming) : Naming :=
  open Classical in
  fun id => if ∃ f ∈ d.sources, ∃ F, FileHolds f F ∧ ∃ p, F.files id = some p then N id else none

theorem Dir.naming_eq {f : Bytes} {F : Facts} (hf : f ∈ d.sources) (hF : FileHolds f F) {id : UInt32}
    {p : String} (hp : F.files id = some p) : d.naming N id = N id :=
  if_pos ⟨f, hf, F, hF, p, hp⟩

theorem Dir.Good.naming [Unicode] (hP : Closed k.units P) (h : d.Good P N) : d.Good P (d.naming N) := by
  intro f hf
  obtain ⟨F, hF, hPF⟩ := h f hf
  exact ⟨F, hF, hP.agree N _ F hPF fun id p hp => d.naming_eq hf hF hp⟩

theorem Dir.Durable.naming [Unicode] (hP : Closed k.units P) (hgood : d.Good P N) {u : KzipUnit}
    (h : d.Durable k N u) : d.Durable k (d.naming N) u := by
  obtain ⟨f, hf, F, hF, hu⟩ := h
  obtain ⟨G, hG, hPG⟩ := hgood f hf
  rw [← hF.unique hG] at hPG
  exact ⟨f, hf, F, hF, hu.agree (hP.named N F hPG) fun id p hp => d.naming_eq hf hF hp⟩

theorem Dir.Records.naming [Unicode] (hP : Closed k.units P) (hgood : d.Good P N) (h : d.Records k N) :
    d.Records k (d.naming N) := by
  intro text htext
  obtain ⟨shas, rfl, hshas⟩ := h text htext
  exact ⟨shas, rfl, hshas.imp fun _ hu => hu.naming hP hgood⟩

/-- The allocator of a resumed run speaks of the files it resumes from. -/
theorem resume_agrees [Unicode] (hP : Closed k.units P) (hgood : d.Good P N) {ids : FileIdAllocator}
    (hseed : d.sources.foldlM seedSource {} = .ok ids) : ids.Agrees (d.naming N) ∧ ids.Unmarked := by
  obtain ⟨Fs, hFs, hof, hin⟩ := forall₂_fileHolds fun f hf => (hgood f hf).imp fun _ h => h.1
  obtain ⟨rows, hrows, hmem⟩ := seedSources_spec hFs FileIdAllocator.seededBy_new hseed
  rw [List.nil_append] at hrows
  refine ⟨⟨fun path e he => ?_, fun id p hp => ?_, hrows.bound⟩, hrows.unmarked⟩
  · obtain ⟨F, hF, hp⟩ := (hmem _).mp (hrows.names path e he)
    obtain ⟨f, hf, hfF⟩ := hof F hF
    obtain ⟨G, hG, hPG⟩ := hgood f hf
    rw [← hfF.unique hG] at hPG
    rw [d.naming_eq hf hfF hp]
    exact (hP.named N F hPG).files _ _ hp
  · unfold Dir.naming at hp
    split_ifs at hp with hex
    obtain ⟨f, hf, F, hF, q, hq⟩ := hex
    obtain ⟨G, hG, hfG⟩ := hin f hf
    rw [hF.unique hfG] at hq
    exact hrows.below (id, q) ((hmem (id, q)).mpr ⟨G, hG, hq⟩)

theorem Listed.words {C : KzipUnit → Prop} {shas : List String} (h : Listed k C shas) :
    ∀ s ∈ shas, IsWord s := fun s hs => (h s hs).1

/-- The shas that a resumed run trusts are recorded ones. -/
theorem done_shas_listed {out : String} {done : List String} (hrec : d.Records k N)
    (h : d.done_shas out = .ok done) : Listed k (d.Durable k N) done := by
  have hread : ∀ text, d.shas = some text → .ok (readShas text) = (Except.ok done : Res _) →
      Listed k (d.Durable k N) done := by
    intro text htext he
    obtain ⟨shas, rfl, hshas⟩ := hrec text htext
    cases he
    rwa [readShas_shasText hshas.words]
  unfold Dir.done_shas at h
  simp only at h
  split at h
  · rename_i htext
    exact hread _ htext h
  · split_ifs at h
    cases h
    exact Listed.nil
  · rename_i htext
    split_ifs at h
    exact hread _ htext h
  · cases h

theorem launch_inv_resume [Unicode] (hP : Closed k.units P) {r : Run} (hresume : args.resume = true)
    (hgood : d.Good P N) (hrec : d.Records k N) (h : launch args k d = .ok r) :
    ∃ M, r.Inv k P M ∧ r.dir.Records k M := by
  obtain ⟨done, ids, hdone, hids, rfl⟩ := launch_eq_ok h
  unfold Args.done_shas at hdone
  unfold Args.file_ids at hids
  rw [hresume] at hdone hids
  simp only [if_true] at hdone hids
  obtain ⟨hagrees, hu⟩ := resume_agrees hP hgood hids
  have hrec' := hrec.naming hP hgood
  exact ⟨d.naming N, startRun_inv hP (Or.inl hresume) hagrees hu (hgood.naming hP)
    (done_shas_listed hrec' hdone), hrec'⟩

theorem Reaches.inv [Unicode] (hP : Closed k.units P) {r₀ r : Run} (h : Reaches r₀ r) (hinv : r₀.Inv k P N) :
    ∃ M, N.Le M ∧ r.Inv k P M ∧ (r₀.dir.Records k N → r.dir.Records k M) := by
  induction h with
  | refl => exact ⟨N, N.le_refl, hinv, id⟩
  | step _ hst ih =>
    obtain ⟨M, hle, hM, hrec⟩ := ih
    obtain ⟨L, hle', hL, hrec'⟩ := hst.inv hP hM
    exact ⟨L, hle.trans hle', hL, fun h => hrec' (hrec h)⟩

/-! ## Crashes -/

/-- No partial file is there. -/
structure Dir.Clean (d : Dir) : Prop where
  base : d.base = none
  shas : d.shas = none
  shards : d.shards = ∅

theorem Dir.Clean.sources (h : d.Clean) : d.sources = [] := by
  unfold Dir.sources Dir.list_partial_shards
  rw [h.base, h.shards]
  rfl

/-- Between two runs, or in one. -/
inductive Machine where
  | down (d : Dir)
  | up (r : Run)

def Machine.dir : Machine → Dir
  | .down d => d
  | .up r => r.dir

section

variable [Unicode]

/-- What can come of a clean directory: runs without cache over one kzip, each killed before it
promoted its output, and every later one with `--resume`. -/
inductive Reached (k : Kzip) : Machine → Prop
  | clean {d : Dir} (h : d.Clean) : Reached k (.down d)
  | launch {args : Args} {d : Dir} {r : Run} (h : Reached k (.down d)) (hcache : args.cache = none)
      (hmode : args.resume = true ∨ d.Clean) (hr : launch args k d = .ok r) : Reached k (.up r)
  | step {r s : Run} (h : Reached k (.up r)) (hst : Step r s) : Reached k (.up s)
  | crash {r : Run} (h : Reached k (.up r)) (hout : r.out = none) : Reached k (.down r.dir)

def Machine.Inv (k : Kzip) (P : Naming → Facts → Prop) (N : Naming) : Machine → Prop
  | .down d => d.Good P N ∧ d.Records k N
  | .up r => r.Inv k P N ∧ r.dir.Records k N

omit [Unicode] in
theorem Dir.Clean.good (h : d.Clean) : d.Good P N := by
  intro f hf
  rw [h.sources] at hf
  cases hf

omit [Unicode] in
theorem Dir.Clean.records (h : d.Clean) : d.Records k N := by
  intro text htext
  rw [h.shas] at htext
  cases htext

theorem Reached.inv (hP : Closed k.units P) {m : Machine} (h : Reached k m) : ∃ N, m.Inv k P N := by
  induction h with
  | clean h => exact ⟨fun _ => none, h.good, h.records⟩
  | @launch args d r _ hcache hmode hr ih =>
    obtain ⟨N, hgood, hrec⟩ := ih
    cases hres : args.resume with
    | true => exact launch_inv_resume hP hres hgood hrec hr
    | false =>
      have hclean := hmode.resolve_left (by simp [hres])
      obtain ⟨M, hM⟩ := launch_inv_fresh hP hres hcache hclean.sources hr
      obtain ⟨done, ids, -, -, rfl⟩ := launch_eq_ok hr
      exact ⟨M, hM, hclean.records⟩
  | step _ hst ih =>
    obtain ⟨N, hinv, hrec⟩ := ih
    obtain ⟨M, -, hM, hkeep⟩ := hst.inv hP hinv
    exact ⟨M, hM, hkeep hrec⟩
  | crash _ _ ih =>
    obtain ⟨N, hinv, hrec⟩ := ih
    exact ⟨N, hinv.dir, hrec⟩

end

end Scry2
