import Scry2.Run

/-!
# No step of a run loses a unit

A unit's rows travel from its worker's sink through the accumulator into a shard, and its sha goes
the same way one step behind. Whatever the order of the steps, a recorded sha has its rows on disk,
and the rows of every unit are somewhere unless a write failed.
-/

open Scry2.Lib
open Std (ExtTreeMap)

namespace Scry2

/-! ## The directory -/

namespace Dir

variable {d : Dir} {f g : Bytes}

theorem mem_list_partial_shards : f ∈ d.list_partial_shards ↔ ∃ i : Nat, d.shards[i]? = some f := by
  unfold list_partial_shards
  rw [List.mem_map]
  constructor
  · rintro ⟨e, he, rfl⟩
    exact ⟨e.1, ((tabulates_toList _).2 _ _).mp he⟩
  · rintro ⟨i, hi⟩
    exact ⟨(i, f), ((tabulates_toList _).2 _ _).mpr hi, rfl⟩

theorem mem_sources : f ∈ d.sources ↔ d.base = some f ∨ ∃ i : Nat, d.shards[i]? = some f := by
  unfold sources
  rw [List.mem_append, Option.mem_toList, mem_list_partial_shards]

/-- The directory with one more shard. -/
def addShard (d : Dir) (idx : Nat) (f : Bytes) : Dir := { d with shards := d.shards.insert idx f }

theorem mem_sources_addShard {idx : Nat} (h : d.shards[idx]? = none) :
    g ∈ (d.addShard idx f).sources ↔ g = f ∨ g ∈ d.sources := by
  rw [mem_sources, mem_sources]
  have hget : ∀ i : Nat, (d.addShard idx f).shards[i]? = if idx = i then some f else d.shards[i]? :=
    fun i => getElem?_insert_key ..
  constructor
  · rintro (hb | ⟨i, hi⟩)
    · exact Or.inr (Or.inl hb)
    · rw [hget] at hi
      split_ifs at hi
      · exact Or.inl (Option.some.inj hi).symm
      · exact Or.inr (Or.inr ⟨i, hi⟩)
  · rintro (rfl | hb | ⟨i, hi⟩)
    · exact Or.inr ⟨idx, by rw [hget, if_pos rfl]⟩
    · exact Or.inl hb
    · refine Or.inr ⟨i, ?_⟩
      rw [hget, if_neg, hi]
      rintro rfl
      rw [h] at hi
      cases hi

theorem lt_next_shard_index {i : Nat} (h : d.shards[i]? = some f) : i < d.next_shard_index := by
  have hmem : i ∈ d.shards.toList.map Prod.fst :=
    List.mem_map.mpr ⟨(i, f), ((tabulates_toList _).2 _ _).mpr h, rfl⟩
  unfold next_shard_index
  cases hm : (d.shards.toList.map Prod.fst).max? with
  | none =>
    rw [List.max?_eq_none_iff.mp hm] at hmem
    cases hmem
  | some m => exact Nat.lt_succ_of_le ((List.max?_eq_some_iff.mp hm).2 i hmem)

/-- Every file of the directory opens and holds what `P` allows. -/
def Good (P : Naming → Facts → Prop) (N : Naming) (d : Dir) : Prop :=
  ∀ f ∈ d.sources, ∃ F, FileHolds f F ∧ P N F

/-- Some file of the directory has all rows of the unit. -/
def Durable (k : Kzip) (N : Naming) (d : Dir) (u : KzipUnit) : Prop :=
  ∃ f ∈ d.sources, ∃ F, FileHolds f F ∧ F.Covers k.units F.vars u N

theorem Durable.mono {k : Kzip} {N M : Naming} {d : Dir} {u : KzipUnit} (h : d.Durable k N u)
    (hle : N.Le M) : d.Durable k M u := by
  obtain ⟨f, hf, F, hF, hu⟩ := h
  exact ⟨f, hf, F, hF, hu.mono hle⟩

theorem Durable.addShard {k : Kzip} {N : Naming} {d : Dir} {u : KzipUnit} {idx : Nat}
    (h : d.Durable k N u) (hidx : d.shards[idx]? = none) (f : Bytes) :
    (d.addShard idx f).Durable k N u := by
  obtain ⟨g, hg, G, hG, hu⟩ := h
  exact ⟨g, (mem_sources_addShard hidx).mpr (Or.inr hg), G, hG, hu⟩

end Dir

/-- Whatever unit a listed sha belongs to is in `C`. -/
def Listed (k : Kzip) (C : KzipUnit → Prop) (shas : List String) : Prop :=
  ∀ s ∈ shas, IsWord s ∧ ∀ u ∈ k.units, u.sha = s → C u

theorem Listed.nil {k : Kzip} {C : KzipUnit → Prop} : Listed k C [] := by simp [Listed]

theorem Listed.imp {k : Kzip} {C D : KzipUnit → Prop} {shas : List String} (h : Listed k C shas)
    (hCD : ∀ u, C u → D u) : Listed k D shas :=
  fun s hs => ⟨(h s hs).1, fun u hu he => hCD u ((h s hs).2 u hu he)⟩

theorem Listed.append {k : Kzip} {C : KzipUnit → Prop} {shas more : List String} (h : Listed k C shas)
    (h' : Listed k C more) : Listed k C (shas ++ more) := by
  intro s hs
  rcases List.mem_append.mp hs with hs | hs
  · exact h s hs
  · exact h' s hs

theorem Kzip.eq_of_sha {k : Kzip} {u v : KzipUnit} (hu : u ∈ k.units) (hv : v ∈ k.units)
    (h : u.sha = v.sha) : u = v := List.inj_on_of_nodup_map k.shas_nodup hu hv h

/-- The recorded shas are those of durable units. -/
def Dir.Records (k : Kzip) (N : Naming) (d : Dir) : Prop :=
  ∀ text, d.shas = some text → ∃ shas, text = shasText shas ∧ Listed k (d.Durable k N) shas

/-! ## The invariant -/

section

variable (k : Kzip) (P : Naming → Facts → Prop) (N : Naming)

/-- The worker will come to the unit, or its sink has the rows. -/
def Worker.Has (plan : List KzipUnit) (n : Nat) (u : KzipUnit) (x : Worker) : Prop :=
  (∃ c, plan[x.i + c * n]? = some u) ∨ x.sink.builder.facts.Covers k.units ∅ u N

def Phase.Inv (plan : List KzipUnit) (x : Worker) : Phase → Prop
  | .idle => True
  | .ingest todo ids => ∃ u, plan[x.i]? = some u ∧ (∀ p ∈ todo, p ∈ u.paths) ∧
      ∀ p ∈ u.paths, p ∈ todo ∨ ∃ id, ids.lookup p = some id ∧ N id = some (clamp_blob_str p)
  | .folding b => ∃ u, plan[x.i]? = some u ∧ P N b.facts ∧ b.facts.Covers k.units ∅ u N
  | .merged => ∃ u, plan[x.i]? = some u ∧ x.sink.builder.facts.Covers k.units ∅ u N

structure Worker.Inv (plan : List KzipUnit) (x : Worker) : Prop where
  sink : P N x.sink.builder.facts
  shas : Listed k (fun u => x.sink.builder.facts.Covers k.units ∅ u N) x.sink.pending_shas
  phase : x.phase.Inv k P N plan x

/-- What the snapshotter carries at each point. -/
def Snap.Inv (acc : Accumulator) (dir : Dir) (next_shard : Nat) : Snap → Prop
  | .off => True
  | .drain _ shas => Listed k (fun u => acc.builder.facts.Covers k.units ∅ u N) shas
  | .write delta shas staged idx => P N delta.facts ∧
      Listed k (fun u => delta.facts.Covers k.units ∅ u N) staged ∧
      (∀ s ∈ shas, s ∈ acc.committed_shas ∨ s ∈ staged) ∧ idx < next_shard ∧ dir.shards[idx]? = none
  | .record shas staged => Listed k (dir.Durable k N) shas ∧ Listed k (dir.Durable k N) staged

def Snap.Has (u : KzipUnit) : Snap → Prop
  | .write delta _ _ _ => delta.facts.Covers k.units ∅ u N
  | _ => False

/-- Where the rows of a unit can be. -/
def Run.Held (r : Run) (u : KzipUnit) : Prop :=
  (∃ (w : Nat) (x : Worker), r.workers[w]? = some x ∧ x.Has k N r.plan r.workers.length u) ∨
    r.acc.builder.facts.Covers k.units ∅ u N ∨ r.snap.Has k N u ∨ r.dir.Durable k N u

/-- The file holds what `P` allows and the rows of all units. -/
def Complete (f : Bytes) : Prop :=
  ∃ O, FileHolds f O ∧ P N O ∧
    ∀ u ∈ k.units, u.succeeded = true → O.Covers k.units (varsOf P) u N

/-- A run without cache in which no unit is lost. -/
structure Run.Inv (r : Run) : Prop where
  cache : r.cache = none
  level : r.level = none
  plan : ∀ u ∈ r.plan, u ∈ k.units
  ids : r.file_ids.Agrees N
  marked : ∀ (p : String) (id : UInt32), r.file_ids.map[p]? = some (id, true) → ∃ u ∈ k.units, p ∈ u.paths
  dir : r.dir.Good P N
  numbers : ∀ (i : Nat) (f : Bytes), r.dir.shards[i]? = some f → i < r.next_shard
  acc : P N r.acc.builder.facts
  committed : Listed k (r.dir.Durable k N) r.acc.committed_shas
  workers : ∀ x ∈ r.workers, x.Inv k P N r.plan
  snap : r.snap.Inv k P N r.acc r.dir r.next_shard
  held : r.failed = true ∨ ∀ u ∈ k.units, u.succeeded = true → r.Held k N u
  out : ∀ f, r.out = some f → Complete k P N f

end

variable {k : Kzip} {P : Naming → Facts → Prop} {N M : Naming} {r : Run}

/-! ## Naming more ids -/

section

variable [Unicode] (hP : Closed k.units P) (hle : N.Le M)

include hP hle

theorem Worker.Inv.mono {plan : List KzipUnit} {x : Worker} (h : x.Inv k P N plan) :
    x.Inv k P M plan where
  sink := hP.mono hle h.sink
  shas := h.shas.imp fun _ hu => hu.mono hle
  phase := by
    have := h.phase
    cases hph : x.phase with
    | idle => trivial
    | ingest todo ids =>
      rw [hph] at this
      obtain ⟨u, hu, htodo, hids⟩ := this
      refine ⟨u, hu, htodo, fun p hp => (hids p hp).imp_right ?_⟩
      rintro ⟨id, hid, hN⟩
      exact ⟨id, hid, hle _ _ hN⟩
    | folding b =>
      rw [hph] at this
      obtain ⟨u, hu, hb, hcov⟩ := this
      exact ⟨u, hu, hP.mono hle hb, hcov.mono hle⟩
    | merged =>
      rw [hph] at this
      obtain ⟨u, hu, hcov⟩ := this
      exact ⟨u, hu, hcov.mono hle⟩

theorem Snap.Inv.mono {s : Snap} {acc : Accumulator} {dir : Dir} {next : Nat}
    (h : s.Inv k P N acc dir next) : s.Inv k P M acc dir next := by
  cases s with
  | off => trivial
  | drain j shas => exact Listed.imp h fun _ hu => hu.mono hle
  | write delta shas staged idx =>
    obtain ⟨h1, h2, h3⟩ := h
    exact ⟨hP.mono hle h1, h2.imp fun _ hu => hu.mono hle, h3⟩
  | record shas staged => exact ⟨h.1.imp fun _ hu => hu.mono hle, h.2.imp fun _ hu => hu.mono hle⟩

omit [Unicode] hP in
theorem Run.Held.mono {u : KzipUnit} (h : r.Held k N u) : r.Held k M u := by
  rcases h with ⟨w, x, hw, hx⟩ | h | h | h
  · exact Or.inl ⟨w, x, hw, hx.imp_right fun hc => hc.mono hle⟩
  · exact Or.inr (Or.inl (h.mono hle))
  · refine Or.inr (Or.inr (Or.inl ?_))
    cases hs : r.snap with
    | write delta shas staged idx => rw [hs] at h; exact Facts.Covers.mono h hle
    | off => rw [hs] at h; exact h.elim
    | drain j shas => rw [hs] at h; exact h.elim
    | record shas staged => rw [hs] at h; exact h.elim
  · exact Or.inr (Or.inr (Or.inr (h.mono hle)))

theorem Run.Inv.mono (h : r.Inv k P N) {a : FileIdAllocator} (ha : a.Agrees M)
    (hmarked : ∀ (p : String) (id : UInt32), a.map[p]? = some (id, true) → ∃ u ∈ k.units, p ∈ u.paths) :
    { r with file_ids := a }.Inv k P M where
  cache := h.cache
  level := h.level
  plan := h.plan
  ids := ha
  marked := hmarked
  dir f hf := by
    obtain ⟨F, hF, hPF⟩ := h.dir f hf
    exact ⟨F, hF, hP.mono hle hPF⟩
  numbers := h.numbers
  acc := hP.mono hle h.acc
  committed := h.committed.imp fun _ hu => hu.mono hle
  workers x hx := (h.workers x hx).mono hP hle
  snap := h.snap.mono hP hle
  held := h.held.imp_right fun hall u hu hok => (hall u hu hok).mono hle
  out f hf := by
    obtain ⟨O, hO, hPO, hall⟩ := h.out f hf
    exact ⟨O, hO, hP.mono hle hPO, fun u hu hok => (hall u hu hok).mono hle⟩

end

/-! ## One worker -/

theorem Run.Held.of_worker {u : KzipUnit} {w : Nat} {x y : Worker} (hw : r.workers[w]? = some x)
    (h : y.Has k N r.plan r.workers.length u) : (r.setWorker w y).Held k N u := by
  refine Or.inl ⟨w, y, ?_, ?_⟩
  · have hlt := (List.getElem?_eq_some_iff.mp hw).1
    exact List.getElem?_set_self hlt
  · unfold Run.setWorker
    rwa [List.length_set]

/-- Replacing one worker keeps the invariant when the unit it was at is not lost. -/
theorem Run.Inv.setWorker (h : r.Inv k P N) {w : Nat} {x y : Worker} (hw : r.workers[w]? = some x)
    (hy : y.Inv k P N r.plan)
    (hheld : r.failed = false → ∀ u ∈ k.units, u.succeeded = true →
      x.Has k N r.plan r.workers.length u → (r.setWorker w y).Held k N u) :
    (r.setWorker w y).Inv k P N :=
  { h with
    workers := fun z hz => by
      rcases List.mem_or_eq_of_mem_set hz with hz | rfl
      · exact h.workers z hz
      · exact hy
    held := by
      cases hf : r.failed with
      | true => exact Or.inl hf
      | false =>
        refine Or.inr fun u hu hok => ?_
        rcases (h.held.resolve_left (by simp [hf])) u hu hok with ⟨v, z, hv, hz⟩ | hrest
        · by_cases hvw : v = w
          · subst hvw
            cases hw.symm.trans hv
            exact hheld hf u hu hok hz
          · refine Or.inl ⟨v, z, ?_, ?_⟩
            · unfold Run.setWorker
              rw [List.getElem?_set_ne (Ne.symm hvw)]
              exact hv
            · unfold Run.setWorker
              rwa [List.length_set]
        · exact Or.inr hrest }

/-- Such a worker with its old sink or a larger one. -/
theorem Run.Inv.setWorker_has (h : r.Inv k P N) {w : Nat} {x y : Worker} (hw : r.workers[w]? = some x)
    (hy : y.Inv k P N r.plan)
    (hhas : ∀ u ∈ k.units, u.succeeded = true → x.Has k N r.plan r.workers.length u →
      y.Has k N r.plan r.workers.length u) : (r.setWorker w y).Inv k P N :=
  h.setWorker hw hy fun _ u hu hok hx => Run.Held.of_worker hw (hhas u hu hok hx)

/-! ## One step -/

theorem Dir.Records.mono {d : Dir} (h : d.Records k N) (hle : N.Le M) : d.Records k M := by
  intro text htext
  obtain ⟨shas, rfl, hshas⟩ := h text htext
  exact ⟨shas, rfl, hshas.imp fun _ hu => hu.mono hle⟩

/-- Rows that stay with the workers, or move where `hacc`, `hsnap` and `hdir` say. -/
theorem Run.Held.imp {r' : Run} {u : KzipUnit} (h : r.Held k N u) (hworkers : r'.workers = r.workers)
    (hplan : r'.plan = r.plan)
    (hacc : r.acc.builder.facts.Covers k.units ∅ u N → r'.Held k N u)
    (hsnap : r.snap.Has k N u → r'.Held k N u) (hdir : r.dir.Durable k N u → r'.Held k N u) :
    r'.Held k N u := by
  rcases h with ⟨w, x, hw, hx⟩ | h | h | h
  · exact Or.inl ⟨w, x, hworkers ▸ hw, by rw [hworkers, hplan]; exact hx⟩
  · exact hacc h
  · exact hsnap h
  · exact hdir h

theorem Run.Held.of_acc {u : KzipUnit} (h : r.acc.builder.facts.Covers k.units ∅ u N) :
    r.Held k N u := Or.inr (Or.inl h)

theorem Run.Held.of_snap {u : KzipUnit} (h : r.snap.Has k N u) : r.Held k N u :=
  Or.inr (Or.inr (Or.inl h))

theorem Run.Held.of_dir {u : KzipUnit} (h : r.dir.Durable k N u) : r.Held k N u :=
  Or.inr (Or.inr (Or.inr h))

/-- Rows that nothing moves, the snapshotter holding none. -/
theorem Run.Held.quiet {r' : Run} {u : KzipUnit} (h : r.Held k N u) (hworkers : r'.workers = r.workers)
    (hplan : r'.plan = r.plan) (hacc : r'.acc.builder = r.acc.builder)
    (hdir : r'.dir.sources = r.dir.sources) (hsnap : ¬ r.snap.Has k N u) : r'.Held k N u := by
  refine h.imp hworkers hplan (fun hc => Run.Held.of_acc ?_) (fun hc => absurd hc hsnap) fun hc =>
    Run.Held.of_dir ?_
  · rwa [hacc]
  · unfold Dir.Durable
    rwa [hdir]

/-- A worker that goes on to its next unit still has what it had, but for the unit it was at. -/
theorem Worker.Has.next {plan : List KzipUnit} {n : Nat} {u v : KzipUnit} {x : Worker}
    (h : x.Has k N plan n u) (hv : plan[x.i]? = some v)
    (hhere : u = v → x.sink.builder.facts.Covers k.units ∅ u N) :
    Worker.Has k N plan n u { x with i := x.i + n, phase := .idle } := by
  rcases h with ⟨c, hc⟩ | h
  · cases c with
    | zero =>
      rw [Nat.zero_mul, Nat.add_zero, hv] at hc
      exact Or.inr (hhere (Option.some.inj hc).symm)
    | succ c =>
      refine Or.inl ⟨c, ?_⟩
      rwa [Nat.add_assoc, Nat.add_comm n, ← Nat.succ_mul]
  · exact Or.inr h

theorem Worker.Inv.idle {plan : List KzipUnit} {x : Worker} (h : x.Inv k P N plan) (i : Nat) :
    Worker.Inv k P N plan { x with i := i, phase := .idle } :=
  ⟨h.sink, h.shas, trivial⟩

section

variable [Unicode] (hP : Closed k.units P) {r' : Run} {w : Nat} {x : Worker} {u : KzipUnit}

include hP

omit hP [Unicode] in
theorem Phase.Inv.names {ids : List (String × UInt32)} {plan : List KzipUnit} (hu : plan[x.i]? = some u)
    (h : (Phase.ingest [] ids).Inv k P N plan x) :
    ∀ p ∈ u.paths, N (idOf ids p) = some (clamp_blob_str p) := by
  obtain ⟨v, hv, -, hids⟩ := h
  cases hu.symm.trans hv
  intro p hp
  obtain ⟨id, hid, hN⟩ := (hids p hp).resolve_left (by simp)
  unfold idOf
  rwa [hid, Option.getD_some]

theorem Phase.Inv.builder {ids : List (String × UInt32)} {plan : List KzipUnit} (hu : plan[x.i]? = some u)
    (h : (Phase.ingest [] ids).Inv k P N plan x) (hmem : u ∈ k.units) (hok : u.succeeded = true) :
    P N (u.builder (idOf ids)).dedup_tables.1.facts ∧
      (u.builder (idOf ids)).dedup_tables.1.facts.Covers k.units ∅ u N := by
  have hnames := h.names hu
  rw [IndexBuilder.facts_dedup_tables]
  exact ⟨hP.unit N u hmem hok _ hnames, u.builder_covers hnames⟩

omit hP [Unicode] in
theorem Phase.Inv.intern {path : String} {todo : List String} {ids : List (String × UInt32)} {id : UInt32}
    {plan : List KzipUnit} (hle : N.Le M) (hM : M id = some (clamp_blob_str path))
    (h : (Phase.ingest (path :: todo) ids).Inv k P N plan x) :
    (Phase.ingest todo ((path, id) :: ids)).Inv k P M plan x := by
  obtain ⟨v, hv, htodo, hids⟩ := h
  refine ⟨v, hv, fun p hp => htodo p (List.mem_cons_of_mem _ hp), fun p hp => ?_⟩
  by_cases hpp : p = path
  · subst hpp
    exact Or.inr ⟨id, List.lookup_cons_self, hM⟩
  · rcases hids p hp with hp' | ⟨i, hi, hN⟩
    · exact Or.inl ((List.mem_cons.mp hp').resolve_left hpp)
    · refine Or.inr ⟨i, ?_, hle _ _ hN⟩
      rw [List.lookup_cons, beq_eq_false_iff_ne.mpr hpp]
      exact hi

theorem Run.Inv.intern {path : String} {todo : List String} {ids : List (String × UInt32)} {id : UInt32}
    {a : FileIdAllocator} (h : r.Inv k P N) (hw : r.workers[w]? = some x)
    (hphase : x.phase = .ingest (path :: todo) ids) (hid : r.file_ids.intern path = some (id, a)) :
    ∃ M, N.Le M ∧
      ({ r with file_ids := a }.setWorker w { x with phase := .ingest todo ((path, id) :: ids) }).Inv k P M := by
  obtain ⟨M, hle, ha, hM⟩ := FileIdAllocator.intern_spec h.ids hid
  have hx := h.workers x (List.mem_of_getElem? hw)
  have hph := hx.phase
  rw [hphase] at hph
  have hinv := h.mono hP hle ha fun p i hp => by
    rcases FileIdAllocator.intern_accessed hid hp with rfl | hp
    · obtain ⟨v, hv, htodo, -⟩ := hph
      exact ⟨v, h.plan v (List.mem_of_getElem? hv), htodo _ List.mem_cons_self⟩
    · exact h.marked p i hp
  refine ⟨M, hle, hinv.setWorker_has hw ?_ fun _ _ _ hu => hu⟩
  have hx' := hx.mono hP hle
  exact ⟨hx'.sink, hx'.shas, hph.intern hle hM⟩

theorem Run.Inv.fold {b : IndexBuilder} (h : r.Inv k P N) (hw : r.workers[w]? = some x)
    (hphase : x.phase = .folding b) :
    (r.setWorker w { x with
      phase := .merged, sink := { x.sink with builder := x.sink.builder.merge_from b } }).Inv k P N := by
  have hx := h.workers x (List.mem_of_getElem? hw)
  have hph := hx.phase
  rw [hphase] at hph
  obtain ⟨v, hv, hb, hcov⟩ := hph
  apply h.setWorker_has hw
  · refine ⟨?_, ?_, v, hv, ?_⟩
    · rw [IndexBuilder.facts_merge_from]
      exact hP.mul N _ _ hx.sink hb
    · rw [IndexBuilder.facts_merge_from]
      exact hx.shas.imp fun _ hc => hc.mul_left _
    · rw [IndexBuilder.facts_merge_from]
      exact hcov.mul_right _
  · intro _ _ _ hhas
    refine hhas.imp_right fun hc => ?_
    rw [IndexBuilder.facts_merge_from]
    exact hc.mul_left _

omit hP [Unicode] in
theorem Run.Inv.push (h : r.Inv k P N) (hw : r.workers[w]? = some x) (hphase : x.phase = .merged)
    (hu : r.plan[x.i]? = some u) :
    (r.done w { x with
      sink := { x.sink with pending_shas := x.sink.pending_shas ++ [u.sha] } }).Inv k P N := by
  have hx := h.workers x (List.mem_of_getElem? hw)
  have hph := hx.phase
  rw [hphase] at hph
  obtain ⟨v, hv, hcov⟩ := hph
  cases hu.symm.trans hv
  have hmem := h.plan u (List.mem_of_getElem? hu)
  have hlist : Listed k (fun v => x.sink.builder.facts.Covers k.units ∅ v N) [u.sha] := by
    intro s hs
    obtain rfl := List.mem_singleton.mp hs
    refine ⟨k.shas_word u hmem, fun v hv he => ?_⟩
    rw [Kzip.eq_of_sha hv hmem he]
    exact hcov
  refine h.setWorker_has hw ⟨hx.sink, hx.shas.append hlist, trivial⟩ fun v _ _ hhas => ?_
  exact Worker.Has.next hhas hu fun e => e ▸ hcov

theorem Run.Inv.drain {j : Nat} {shas : List String} (h : r.Inv k P N) (hsnap : r.snap = .drain j shas)
    (hw : r.workers[j]? = some x) (hfree : x.busy = false) :
    ({ r with
        acc := { r.acc with builder := r.acc.builder.merge_from x.sink.builder }
        snap := .drain (j + 1) (shas ++ x.sink.pending_shas) }.setWorker j { x with sink := {} }).Inv k P N := by
  have hx := h.workers x (List.mem_of_getElem? hw)
  have hshas := h.snap
  rw [hsnap] at hshas
  -- The rows are in the accumulator before they leave the sink.
  have hinv : { r with
      acc := { r.acc with builder := r.acc.builder.merge_from x.sink.builder }
      snap := .drain (j + 1) (shas ++ x.sink.pending_shas) }.Inv k P N :=
    { h with
      acc := by
        rw [IndexBuilder.facts_merge_from]
        exact hP.mul N _ _ h.acc hx.sink
      snap := by
        change Listed k _ _
        rw [IndexBuilder.facts_merge_from]
        exact (Listed.imp hshas fun _ hc => hc.mul_left _).append (hx.shas.imp fun _ hc => hc.mul_right _)
      held := h.held.imp_right fun hall u hu hok => by
        refine (hall u hu hok).imp rfl rfl (fun hc => Run.Held.of_acc ?_) (fun hc => ?_) fun hc =>
          Run.Held.of_dir hc
        · rw [IndexBuilder.facts_merge_from]
          exact hc.mul_left _
        · rw [hsnap] at hc
          exact hc.elim }
  apply hinv.setWorker hw
  · refine ⟨?_, Listed.nil, ?_⟩
    · rw [IndexBuilder.facts_new]
      exact hP.one N
    · have hph := hx.phase
      unfold Worker.busy at hfree
      cases hp : x.phase with
      | idle => trivial
      | ingest todo ids => rw [hp] at hph; exact hph
      | folding b => simp [hp] at hfree
      | merged => simp [hp] at hfree
  · intro _ u _ _ hhas
    rcases hhas with hc | hc
    · exact Run.Held.of_worker hw (Or.inl hc)
    · apply Run.Held.of_acc
      change ((r.acc.builder.merge_from x.sink.builder).facts).Covers _ _ u N
      rw [IndexBuilder.facts_merge_from]
      exact hc.mul_right _

theorem Run.Inv.stage {shas : List String} (h : r.Inv k P N)
    (hsnap : r.snap = .drain r.workers.length shas) :
    { r with
      acc := { r.acc with builder := .new }
      next_shard := r.next_shard + 1
      snap := .write (r.file_ids.push_to r.acc.builder)
        ((r.acc.committed_shas ++ shas).mergeSort fun s t => as_bytes s ≤ as_bytes t) shas
          r.next_shard }.Inv k P N := by
  obtain ⟨Fs, hFs, hfiles⟩ := r.file_ids.facts_push_to r.acc.builder
  have hshas := h.snap
  rw [hsnap] at hshas
  refine { h with numbers := ?_, acc := ?_, snap := ⟨?_, ?_, ?_, ?_, ?_⟩, held := ?_ }
  · exact fun i f hi => (h.numbers i f hi).trans (Nat.lt_succ_self _)
  · rw [IndexBuilder.facts_new]
    exact hP.one N
  · rw [hFs]
    refine hP.mul N _ _ h.acc (hP.prod fun F hF => ?_)
    obtain ⟨p, id, hid, rfl⟩ := hfiles F hF
    obtain ⟨u, hu, hp⟩ := h.marked p id hid
    exact hP.file N u hu p hp id (h.ids.names p _ hid)
  · rw [hFs]
    exact Listed.imp hshas fun _ hc => hc.mul_left _
  · intro s hs
    exact List.mem_append.mp (List.mem_mergeSort.mp hs)
  · exact Nat.lt_succ_self _
  · cases hi : r.dir.shards[r.next_shard]? with
    | none => rfl
    | some f => exact absurd (h.numbers _ f hi) (lt_irrefl _)
  · refine h.held.imp_right fun hall u hu hok => ?_
    refine (hall u hu hok).imp rfl rfl (fun hc => Run.Held.of_snap ?_) (fun hc => ?_) fun hc =>
      Run.Held.of_dir hc
    · change (r.file_ids.push_to r.acc.builder).facts.Covers _ _ u N
      rw [hFs]
      exact hc.mul_left _
    · rw [hsnap] at hc
      exact hc.elim

theorem Run.Inv.finish {delta : IndexBuilder} {shas staged : List String} {idx : Nat} {f : Bytes}
    (h : r.Inv k P N) (hsnap : r.snap = .write delta shas staged idx) (hf : delta.finish = .ok f) :
    { r with dir := r.dir.addShard idx f, snap := .record shas staged }.Inv k P N := by
  have hs := h.snap
  rw [hsnap] at hs
  obtain ⟨hdelta, hstaged, hshas, hidx, hnone⟩ := hs
  have hfile := IndexBuilder.fileHolds_of_finish hf
  have hnew : ∀ u, delta.facts.Covers k.units ∅ u N → (r.dir.addShard idx f).Durable k N u :=
    fun u hu => by
      have hcov := (hu.hide (Set.empty_subset _)).written (hP.fit N _ hdelta) le_rfl
      rw [← Facts.vars_written] at hcov
      exact ⟨f, (Dir.mem_sources_addShard hnone).mpr (Or.inl rfl), _, hfile, hcov⟩
  have hcommitted := h.committed.imp fun _ hu => hu.addShard hnone f
  refine { h with dir := ?_, numbers := ?_, committed := hcommitted, snap := ⟨?_, ?_⟩, held := ?_ }
  · intro g hg
    rcases (Dir.mem_sources_addShard hnone).mp hg with rfl | hg
    · exact ⟨_, hfile, hP.written N _ hdelta⟩
    · exact h.dir g hg
  · intro i g hi
    unfold Dir.addShard at hi
    rw [getElem?_insert_key] at hi
    split_ifs at hi with hc
    · exact hc ▸ hidx
    · exact h.numbers i g hi
  · intro s hs
    rcases hshas s hs with hs | hs
    · exact hcommitted s hs
    · exact hstaged.imp hnew s hs
  · exact hstaged.imp hnew
  · refine h.held.imp_right fun hall u hu hok => ?_
    refine (hall u hu hok).imp rfl rfl (fun hc => Run.Held.of_acc hc)
      (fun hc => Run.Held.of_dir ?_) fun hc => Run.Held.of_dir (hc.addShard hnone f)
    rw [hsnap] at hc
    exact hnew u hc

/-- What a joined run merges has the rows of all units. -/
theorem Run.Inv.final_merge {f : Bytes} (h : r.Inv k P N) (hjoined : r.Joined)
    (hf : r.final_merge = .ok f) : Complete k P N f := by
  obtain ⟨hidle, hoff, hfailed, -⟩ := hjoined
  unfold Run.final_merge at hf
  rw [h.level] at hf
  obtain ⟨Fs, hFs, hof, hin⟩ := forall₂_fileHolds fun g hg => (h.dir g hg).imp fun _ hG => hG.1
  obtain ⟨ixs, hopen, -, -⟩ := open_forall₂ hFs
  simp only [hopen, Res.ok_bind] at hf
  have hhold := fileHolds_of_write_merged hFs hopen hf
  -- The facts of the sources, of the memory and of the allocator.
  obtain ⟨Gs, hGs, hfiles⟩ := r.file_ids.facts_push_to r.final_delta
  have hdelta : r.final_delta.facts =
      r.acc.builder.facts * (r.workers.map fun x => x.sink.builder.facts).prod := by
    unfold Run.final_delta
    have := IndexBuilder.facts_foldl_merge_from (r.workers.map fun x => x.sink.builder) r.acc.builder
    rwa [List.foldl_map, List.map_map] at this
  have hPFs : ∀ F ∈ Fs, P N F := by
    intro F hF
    obtain ⟨g, hg, hgF⟩ := hof F hF
    obtain ⟨G, hG, hPG⟩ := h.dir g hg
    rwa [hgF.unique hG]
  have hPdelta : P N (r.file_ids.drain_into r.final_delta).facts := by
    change P N (r.file_ids.push_to r.final_delta).facts
    rw [hGs, hdelta]
    refine hP.mul N _ _ (hP.mul N _ _ h.acc (hP.prod ?_)) (hP.prod ?_)
    · intro F hF
      obtain ⟨x, hx, rfl⟩ := List.mem_map.mp hF
      exact (h.workers x hx).sink
    · intro F hF
      obtain ⟨p, id, hid, rfl⟩ := hfiles F hF
      obtain ⟨u, hu, hp⟩ := h.marked p id hid
      exact hP.file N u hu p hp id (h.ids.names p _ hid)
  have hPall := hP.mul N _ _ (hP.prod hPFs) hPdelta
  refine ⟨_, hhold, hP.written N _ hPall, fun u hu hok => ?_⟩
  refine Facts.Covers.written ?_ (hP.fit N _ hPall) fun s hs => ⟨N, _, hPall, hs⟩
  rcases (h.held.resolve_left (by simp [hfailed])) u hu hok with ⟨w, x, hw, hx⟩ | hc | hc | hc
  · have hmem := List.mem_of_getElem? hw
    rcases hx with ⟨c, hc⟩ | hc
    · -- Every worker is past the end of the plan.
      have := (hidle x hmem).2
      rw [List.getElem?_eq_none (by omega)] at hc
      cases hc
    · apply Facts.Covers.mul_right
      change (r.file_ids.push_to r.final_delta).facts.Covers _ _ u N
      rw [hGs, hdelta]
      refine (Facts.Covers.mul_right (Facts.Covers.prod ?_ (hc.hide (Set.empty_subset _))) _).mul_left _
      exact List.mem_map.mpr ⟨x, hmem, rfl⟩
  · apply Facts.Covers.mul_right
    change (r.file_ids.push_to r.final_delta).facts.Covers _ _ u N
    rw [hGs, hdelta]
    exact ((hc.hide (Set.empty_subset _)).mul_left _).mul_left _
  · rw [hoff] at hc
    exact hc.elim
  · obtain ⟨g, hg, G, hG, hcov⟩ := hc
    obtain ⟨F, hF, hgF⟩ := hin g hg
    rw [hG.unique hgF] at hcov
    have hvars : F.vars ⊆ varsOf P := fun s hs => ⟨N, F, hPFs F hF, hs⟩
    exact (Facts.Covers.prod hF (hcov.hide hvars)).mul_left _

/-- A step loses no unit and records only durable ones. -/
theorem Step.inv (hst : Step r r') (h : r.Inv k P N) :
    ∃ M, N.Le M ∧ r'.Inv k P M ∧ (r.dir.Records k N → r'.dir.Records k M) := by
  have hcache := h.cache
  have hsnap' := h.snap
  cases hst with
  | begin hw hidle hu hmiss =>
    have hx := h.workers _ (List.mem_of_getElem? hw)
    refine ⟨N, N.le_refl, h.setWorker_has hw ⟨hx.sink, hx.shas, ?_⟩ fun _ _ _ hc => hc, id⟩
    exact ⟨_, hu, fun _ hp => hp, fun _ hp => Or.inl hp⟩
  | intern hw hphase hid =>
    obtain ⟨M, hle, hM⟩ := h.intern hP hw hphase hid
    exact ⟨M, hle, hM, fun hr => hr.mono hle⟩
  | skip hw hphase hu hfailed =>
    have hx := h.workers _ (List.mem_of_getElem? hw)
    refine ⟨N, N.le_refl, h.setWorker_has hw (hx.idle _) fun v _ hok hc => ?_, id⟩
    refine hc.next hu fun e => ?_
    rw [e, hfailed] at hok
    cases hok
  | lock _ hw hphase hu hok =>
    have hx := h.workers _ (List.mem_of_getElem? hw)
    have hb := Phase.Inv.builder hP hu (hphase ▸ hx.phase) (h.plan _ (List.mem_of_getElem? hu)) hok
    refine ⟨N, N.le_refl, h.setWorker_has hw ⟨hx.sink, hx.shas, ?_⟩ fun _ _ _ hc => hc, id⟩
    exact ⟨_, hu, hb⟩
  | fold hw hphase => exact ⟨N, N.le_refl, h.fold hP hw hphase, id⟩
  | push hw hphase hu => exact ⟨N, N.le_refl, h.push hw hphase hu, id⟩
  | snapshot _ hsnap hout =>
    refine ⟨N, N.le_refl, { h with snap := Listed.nil, held := ?_ }, id⟩
    refine h.held.imp_right fun hall u hu hok => (hall u hu hok).quiet rfl rfl rfl rfl ?_
    simp [hsnap, Snap.Has]
  | drain hsnap hw hfree => exact ⟨N, N.le_refl, h.drain hP hsnap hw hfree, id⟩
  | pass hsnap hw hbusy =>
    rw [hsnap] at hsnap'
    refine ⟨N, N.le_refl, { h with snap := hsnap', held := ?_ }, id⟩
    refine h.held.imp_right fun hall u hu hok => (hall u hu hok).quiet rfl rfl rfl rfl ?_
    simp [hsnap, Snap.Has]
  | stage hsnap => exact ⟨N, N.le_refl, h.stage hP hsnap, id⟩
  | finish hsnap hf =>
    refine ⟨N, N.le_refl, h.finish hP hsnap hf, fun hr text htext => ?_⟩
    obtain ⟨l, rfl, hl⟩ := hr text htext
    rw [hsnap] at hsnap'
    exact ⟨l, rfl, hl.imp fun _ hu => hu.addShard hsnap'.2.2.2.2 _⟩
  | finishFailed hsnap => exact ⟨N, N.le_refl, { h with snap := trivial, held := Or.inl rfl }, id⟩
  | record hsnap =>
    rw [hsnap] at hsnap'
    refine ⟨N, N.le_refl, { h with
      committed := h.committed.append hsnap'.2, snap := trivial, held := ?_ }, fun _ text htext => ?_⟩
    · refine h.held.imp_right fun hall u hu hok => (hall u hu hok).quiet rfl rfl rfl rfl ?_
      simp [hsnap, Snap.Has]
    · exact ⟨_, (Option.some.inj htext).symm, hsnap'.1⟩
  | recordFailed hsnap =>
    rw [hsnap] at hsnap'
    refine ⟨N, N.le_refl, { h with
      committed := h.committed.append hsnap'.2, snap := trivial, held := ?_ }, id⟩
    refine h.held.imp_right fun hall u hu hok => (hall u hu hok).quiet rfl rfl rfl rfl ?_
    simp [hsnap, Snap.Has]
  | hit _ _ _ hhit =>
    obtain ⟨c, _, hc, -⟩ := hhit
    rw [hcache] at hc
    cases hc
  | copyFailed _ _ _ hhit =>
    obtain ⟨c, _, hc, -⟩ := hhit
    rw [hcache] at hc
    cases hc
  | shard hc => rw [hcache] at hc; cases hc
  | shardFailed hw hphase =>
    have hx := h.workers _ (List.mem_of_getElem? hw)
    have hinv : { r with failed := true, next_shard := r.next_shard + 1 }.Inv k P N :=
      { h with
        numbers := fun i f hi => (h.numbers i f hi).trans (Nat.lt_succ_self _)
        snap := by
          cases hs : r.snap with
          | write delta shas staged idx =>
            rw [hs] at hsnap'
            exact ⟨hsnap'.1, hsnap'.2.1, hsnap'.2.2.1, hsnap'.2.2.2.1.trans (Nat.lt_succ_self _),
              hsnap'.2.2.2.2⟩
          | off => trivial
          | drain j shas => rw [hs] at hsnap'; exact hsnap'
          | record shas staged => rw [hs] at hsnap'; exact hsnap'
        held := Or.inl rfl }
    refine ⟨N, N.le_refl, hinv.setWorker hw (hx.idle _) fun hf => ?_, id⟩
    cases hf
  | coalesce hc => rw [hcache] at hc; cases hc
  | promote hjoined hlevel hf =>
    refine ⟨N, N.le_refl, { h with out := fun g hg => ?_ }, id⟩
    cases hg
    exact h.final_merge hP hjoined hf

end

end Scry2
