import Scry2.Whole

/-!
# What a run comes to

A run without cache hands each unit to one of its workers, drains their sinks into shards whenever it
takes a snapshot, and merges what there is at its end. The output does not show any of it: not the number
of workers, not who came first, not the snapshots. It is the file of one pass over the units.
-/

open Scry2.Lib
open Std (ExtTreeMap)

namespace Scry2

variable {k : Kzip} {N M : Naming} {F G : Facts}

/-! ## Pieces -/

/-- The facts of all units and of the paths they touched. -/
abbrev Kzip.touched (k : Kzip) : List Facts := k.sources (k.units.flatMap KzipUnit.paths)

section

variable [Unicode]

/-- Facts that are put together from units and touched paths, provided that their file ids are ranks. -/
structure Facts.Piece (k : Kzip) (N : Naming) (F : Facts) : Prop where
  named : F.Named N
  short : F.Short
  kinds : F.KindsIn (kindsOf k.touched)
  made : Kzip.RanksIn k.seed_paths F → F.Made k.touched

theorem Facts.Piece.mul (hF : F.Piece k N) (hG : G.Piece k N) : (F * G).Piece k N where
  named := hF.named.mul hG.named
  short := hF.short.mul hG.short
  kinds := hF.kinds.mul hG.kinds
  made hranks := by
    have hFr : Kzip.RanksIn k.seed_paths F := by
      intro id p hp
      apply hranks id p
      rw [Facts.mul_files_apply, hp, Option.some_or]
    have hGr : Kzip.RanksIn k.seed_paths G := by
      intro id p hp
      cases hq : F.files id with
      | none =>
        apply hranks id p
        rw [Facts.mul_files_apply, hq, Option.none_or, hp]
      | some q =>
        have e := (hF.named.files id q hq).symm.trans (hG.named.files id p hp)
        rw [clamp_of_len_le (hF.short.files id q hq), clamp_of_len_le (hG.short.files id p hp)] at e
        exact hFr id p (hq.trans e)
    exact (hF.made hFr).mul (hG.made hGr)

omit [Unicode] in
theorem fileFacts_short {p : String} (h : len p ≤ u16Max) (id : UInt32) : (fileFacts id p).Short := by
  refine ⟨by simp [fileFacts], fun i q hq => ?_, by simp [fileFacts], by simp [fileFacts], by simp [fileFacts]⟩
  obtain ⟨-, rfl⟩ : id = i ∧ p = q := by simpa [fileFacts] using hq
  exact h

omit [Unicode] in
theorem fileFacts_kindsIn (K : UInt64 → UInt8) (id : UInt32) (p : String) : (fileFacts id p).KindsIn K :=
  fun _ => Or.inl rfl

theorem Kzip.Plain.touched_paths (h : k.Plain) : ∀ p ∈ k.units.flatMap KzipUnit.paths, p ∈ k.seed_paths := by
  intro p hp
  obtain ⟨u, hu, hp⟩ := List.mem_flatMap.mp hp
  exact h.paths u hu p hp

theorem closed_piece (h : k.Plain) (hlen : k.seed_paths.length ≤ 2 ^ 32) : Closed k.units (Facts.Piece k) where
  one N := ⟨Facts.named_one, Facts.short_one, Facts.kindsIn_one _, fun _ => Facts.made_one _⟩
  mul _ _ _ hF hG := hF.mul hG
  written N F hF := by
    have hw := Facts.written_of_short hF.short
    refine ⟨hF.named.written, ?_, ?_, fun hranks => ?_⟩
    · rw [hw]
      exact hF.short.visible
    · rw [hw]
      exact hF.kinds
    · rw [hw] at hranks
      exact (hF.made hranks).written
  named _ _ hF := hF.named
  fit _ _ hF := Facts.shortTexts_of_short hF.short
  agree _ _ _ hF hM := { hF with named := hF.named.agree hM }
  unit N u hu hok ids hids := by
    have hshort := h.builder_short hu ids
    have hkinds := h.builder_kindsIn hlen h.touched_paths hu hok ids
    refine ⟨KzipUnit.builder_named hids, hshort, hkinds, fun hranks => ?_⟩
    have hrank : ∀ p ∈ u.paths, ids p = rankOf k.seed_paths p := by
      intro p hp
      have hfile := KzipUnit.builder_file hids (fun q hq => h.short_paths q (h.paths u hu q hq)) hp
      exact (rankOf_eq k.seed_nodup hlen (hranks _ _ hfile)).symm
    refine Facts.made_of_seen hshort hkinds (Kzip.mem_sources.mpr (Or.inl ⟨u, hu, hok, rfl⟩)) ?_
    rw [u.builder_congr hrank]
  file N u hu p hp id hid := by
    have hshort := fileFacts_short (h.short_paths p (h.paths u hu p hp)) id
    refine ⟨fileFacts_named hid, hshort, fileFacts_kindsIn _ id p, fun hranks => ?_⟩
    have hrank : rankOf k.seed_paths p = id :=
      rankOf_eq k.seed_nodup hlen (hranks id p (by simp [fileFacts]))
    refine Facts.made_of_seen hshort (fileFacts_kindsIn _ id p) (G := fileFacts id p) ?_ rfl
    exact Kzip.mem_sources.mpr (Or.inr ⟨p, List.mem_flatMap.mpr ⟨u, hu, hp⟩, by rw [hrank]⟩)

/-! ## Where the facts of a unit are -/

section

variable (k : Kzip)

/-- The paths of the unit are in the file table that the run writes. -/
def Kzip.Marked (a : FileIdAllocator) (u : KzipUnit) : Prop :=
  ∀ p ∈ u.paths, a.map[p]? = some (rankOf k.seed_paths p, true)

/-- `F` has all of `u`. -/
def Kzip.Has (F : Facts) (u : KzipUnit) : Prop := F.Has k.touched (u.builder (rankOf k.seed_paths)).facts

/-- A worker will come to the unit. -/
def Run.Due (r : Run) (u : KzipUnit) : Prop :=
  ∃ (w : Nat) (x : Worker), r.workers[w]? = some x ∧ ∃ c, r.plan[x.i + c * r.workers.length]? = some u

def Snap.Carries (u : KzipUnit) : Snap → Prop
  | .write delta _ _ _ => k.Has delta.facts u
  | _ => False

/-- Something that the final merge reads has the unit. -/
def Run.Carries (r : Run) (u : KzipUnit) : Prop :=
  (∃ x ∈ r.workers, k.Has x.sink.builder.facts u) ∨ k.Has r.acc.builder.facts u ∨ r.snap.Carries k u ∨
    ∃ f ∈ r.dir.sources, ∃ F, FileHolds f F ∧ k.Has F u

/-- The unit is done. -/
def Run.Settled (r : Run) (u : KzipUnit) : Prop :=
  k.Marked r.file_ids u ∧ (u.succeeded = true → r.Carries k u)

def Phase.Holds (a : FileIdAllocator) (plan : List KzipUnit) (x : Worker) : Phase → Prop
  | .idle => True
  | .ingest todo ids => ∃ u, plan[x.i]? = some u ∧ (∀ p ∈ todo, p ∈ u.paths) ∧ ∀ p ∈ u.paths,
      p ∈ todo ∨ ids.lookup p = some (rankOf k.seed_paths p) ∧
        a.map[p]? = some (rankOf k.seed_paths p, true)
  | .folding b => ∃ u, plan[x.i]? = some u ∧ k.Marked a u ∧ b.facts = (u.builder (rankOf k.seed_paths)).facts
  | .merged => ∃ u, plan[x.i]? = some u ∧ k.Marked a u ∧ k.Has x.sink.builder.facts u

/-- The file ids are the ranks, and every unit is due or done. -/
structure Run.Sums (r : Run) : Prop where
  plan : r.plan = k.units
  next : r.file_ids.next = k.seed_paths.length
  ranks : ∀ p ∈ k.seed_paths, ∃ accessed, r.file_ids.map[p]? = some (rankOf k.seed_paths p, accessed)
  phases : ∀ x ∈ r.workers, x.phase.Holds k r.file_ids r.plan x
  held : r.failed = true ∨ ∀ u ∈ k.units, r.Due u ∨ r.Settled k u
  out : ∀ f, r.out = some f → k.wholeTouched.finish = .ok f

end

variable {r r' : Run} {w : Nat} {x y : Worker} {u : KzipUnit} {a : FileIdAllocator}

theorem Kzip.has_of_eq (h : F = (u.builder (rankOf k.seed_paths)).facts) : k.Has F u := h ▸ Facts.has_self _ F

/-- Nothing is forgotten of what an allocator marked. -/
def FileIdAllocator.Keeps (a b : FileIdAllocator) : Prop :=
  ∀ (p : String) (id : UInt32), a.map[p]? = some (id, true) → b.map[p]? = some (id, true)

theorem Phase.Holds.keeps {b : FileIdAllocator} (hab : a.Keeps b) {ph : Phase}
    (h : ph.Holds k a r.plan x) : ph.Holds k b r.plan x := by
  cases ph with
  | idle => trivial
  | ingest todo ids =>
    obtain ⟨u, hu, htodo, hids⟩ := h
    exact ⟨u, hu, htodo, fun p hp => (hids p hp).imp_right fun hp => ⟨hp.1, hab _ _ hp.2⟩⟩
  | folding b =>
    obtain ⟨u, hu, hmark, hb⟩ := h
    exact ⟨u, hu, fun p hp => hab _ _ (hmark p hp), hb⟩
  | merged =>
    obtain ⟨u, hu, hmark, hhas⟩ := h
    exact ⟨u, hu, fun p hp => hab _ _ (hmark p hp), hhas⟩

/-! ## One step -/

theorem Run.Settled.imp (h : r.Settled k u) (hids : r.file_ids.Keeps r'.file_ids)
    (hcarry : r.Carries k u → r'.Carries k u) : r'.Settled k u :=
  ⟨fun p hp => hids _ _ (h.1 p hp), fun hok => hcarry (h.2 hok)⟩

/-- A step that lets no worker pass a unit and loses no facts. -/
theorem Run.Sums.quiet (h : r.Sums k) (hplan : r'.plan = r.plan) (hids : r'.file_ids = r.file_ids) (hout : r'.out = r.out)
    (hphases : ∀ x ∈ r'.workers, x.phase.Holds k r.file_ids r.plan x) (hfailed : r.failed = true → r'.failed = true)
    (hdue : ∀ u, r.Due u → r'.Due u) (hcarry : ∀ u, r.Carries k u → r'.Carries k u) : r'.Sums k where
  plan := hplan.trans h.plan
  next := hids ▸ h.next
  ranks := hids ▸ h.ranks
  phases := by rwa [hplan, hids]
  held := by
    refine h.held.imp hfailed fun hall u hu => (hall u hu).imp (hdue u) fun hs => ?_
    exact hs.imp (fun _ _ he => hids ▸ he) (hcarry u)
  out := hout ▸ h.out

omit [Unicode] in
theorem Run.Due.setWorker (h : r.Due u) (hw : r.workers[w]? = some x) (hy : y.i = x.i) :
    (r.setWorker w y).Due u := by
  obtain ⟨v, z, hv, c, hc⟩ := h
  have hlen : (r.setWorker w y).workers.length = r.workers.length := List.length_set
  by_cases hvw : w = v
  · subst hvw
    cases hw.symm.trans hv
    refine ⟨w, y, List.getElem?_set_self (List.getElem?_eq_some_iff.mp hw).1, c, ?_⟩
    rw [hlen, hy]
    exact hc
  · exact ⟨v, z, (List.getElem?_set_ne hvw).trans hv, c, by rw [hlen]; exact hc⟩

omit [Unicode] in
/-- A worker that goes on leaves the unit it was at. -/
theorem Run.Due.done (h : r.Due u) (hw : r.workers[w]? = some x) (hy : y.i = x.i) :
    (r.done w y).Due u ∨ r.plan[x.i]? = some u := by
  obtain ⟨v, z, hv, c, hc⟩ := h
  have hlen : (r.done w y).workers.length = r.workers.length := List.length_set
  by_cases hvw : w = v
  · subst hvw
    cases hw.symm.trans hv
    cases c with
    | zero => exact Or.inr (by simpa using hc)
    | succ c =>
      refine Or.inl ⟨w, _, List.getElem?_set_self (List.getElem?_eq_some_iff.mp hw).1, c, ?_⟩
      rw [hlen]
      change r.plan[y.i + r.workers.length + c * r.workers.length]? = some u
      rwa [hy, Nat.add_assoc, Nat.add_comm r.workers.length, ← Nat.succ_mul]
  · exact Or.inl ⟨v, z, (List.getElem?_set_ne hvw).trans hv, c, by rw [hlen]; exact hc⟩

/-- Sinks only grow when a worker is replaced. -/
theorem Run.Carries.setWorker (h : r.Carries k u) (hw : r.workers[w]? = some x)
    (hy : k.Has x.sink.builder.facts u → k.Has y.sink.builder.facts u) : (r.setWorker w y).Carries k u := by
  refine h.imp_left ?_
  rintro ⟨z, hz, hhas⟩
  obtain ⟨v, hv⟩ := List.getElem?_of_mem hz
  by_cases hvw : w = v
  · subst hvw
    cases hw.symm.trans hv
    exact ⟨y, List.mem_of_getElem? (List.getElem?_set_self (List.getElem?_eq_some_iff.mp hw).1), hy hhas⟩
  · exact ⟨z, List.mem_of_getElem? ((List.getElem?_set_ne hvw).trans hv), hhas⟩

theorem Run.Sums.setWorker (h : r.Sums k) (hw : r.workers[w]? = some x) (hi : y.i = x.i)
    (hphase : y.phase.Holds k r.file_ids r.plan y)
    (hsink : ∀ u, k.Has x.sink.builder.facts u → k.Has y.sink.builder.facts u) : (r.setWorker w y).Sums k := by
  refine h.quiet rfl rfl rfl (fun z hz => ?_) id (fun u hu => hu.setWorker hw hi) fun u hu => hu.setWorker hw (hsink u)
  rcases List.mem_or_eq_of_mem_set hz with hz | rfl
  · exact h.phases z hz
  · exact hphase

/-- A worker that goes on to its next unit. -/
theorem Run.Sums.done (h : r.Sums k) (hw : r.workers[w]? = some x) (hi : y.i = x.i)
    (hsink : ∀ u, k.Has x.sink.builder.facts u → k.Has y.sink.builder.facts u)
    (hu : r.failed = true ∨ ∀ u, r.plan[x.i]? = some u →
      k.Marked r.file_ids u ∧ (u.succeeded = true → k.Has y.sink.builder.facts u)) : (r.done w y).Sums k where
  plan := h.plan
  next := h.next
  ranks := h.ranks
  phases z hz := by
    rcases List.mem_or_eq_of_mem_set hz with hz | rfl
    · exact h.phases z hz
    · trivial
  held := by
    rcases h.held with hf | hall
    · exact Or.inl hf
    rcases hu with hf | hhere
    · exact Or.inl hf
    refine Or.inr fun v hv => ?_
    rcases hall v hv with hdue | hs
    · refine (hdue.done hw hi).imp_right fun hx => ?_
      obtain ⟨hmark, hhas⟩ := hhere v hx
      refine ⟨hmark, fun hok => Or.inl ⟨_, List.mem_of_getElem? (List.getElem?_set_self ?_), hhas hok⟩⟩
      exact (List.getElem?_eq_some_iff.mp hw).1
    · exact Or.inr (hs.imp (fun _ _ he => he) fun hc => hc.setWorker hw (hsink v))
  out := h.out

omit [Unicode] in
/-- A candidate path keeps its rank, and is marked from then on. -/
theorem FileIdAllocator.intern_rank {path : String} {id rank : UInt32} {accessed : Bool}
    (hpath : a.map[path]? = some (rank, accessed)) {b : FileIdAllocator} (h : a.intern path = some (id, b)) :
    id = rank ∧ b.next = a.next ∧ a.Keeps b ∧
      ∀ p : String, b.map[p]? = if path = p then some (rank, true) else a.map[p]? := by
  unfold FileIdAllocator.intern at h
  rw [hpath] at h
  obtain ⟨rfl, rfl⟩ := Prod.mk.inj (Option.some.inj h)
  have hget : ∀ p : String, (a.map.insert path (rank, true))[p]? = if path = p then some (rank, true) else a.map[p]? :=
    fun p => getElem?_insert_key ..
  refine ⟨rfl, rfl, fun p id hp => ?_, hget⟩
  rw [hget]
  split_ifs with hc
  · subst hc
    rw [hpath] at hp
    exact congrArg (fun i => some (i, true)) (Prod.mk.inj (Option.some.inj hp)).1
  · exact hp

theorem Run.Sums.intern (hk : k.Plain) (h : r.Sums k) {path : String} {todo : List String}
    {ids : List (String × UInt32)} {id : UInt32} (hw : r.workers[w]? = some x)
    (hphase : x.phase = .ingest (path :: todo) ids) (hid : r.file_ids.intern path = some (id, a)) :
    ({ r with file_ids := a }.setWorker w { x with phase := .ingest todo ((path, id) :: ids) }).Sums k := by
  have hph := h.phases x (List.mem_of_getElem? hw)
  rw [hphase] at hph
  obtain ⟨u, hu, htodo, hids⟩ := hph
  have hmem : u ∈ k.units := h.plan ▸ List.mem_of_getElem? hu
  obtain ⟨accessed, hpath⟩ := h.ranks path (hk.paths u hmem path (htodo path List.mem_cons_self))
  obtain ⟨rfl, hnext, hkeep, hget⟩ := FileIdAllocator.intern_rank hpath hid
  have hsums : { r with file_ids := a }.Sums k :=
    { h with
      next := hnext.trans h.next
      ranks := fun p hp => by
        obtain ⟨acc, hp⟩ := h.ranks p hp
        rw [hget]
        split_ifs with hc
        · exact ⟨true, by rw [hc]⟩
        · exact ⟨acc, hp⟩
      phases := fun z hz => (h.phases z hz).keeps hkeep
      held := h.held.imp_right fun hall u hu => (hall u hu).imp_right fun hs => hs.imp hkeep id }
  refine hsums.setWorker (x := x) hw rfl ?_ fun _ hu => hu
  refine ⟨u, hu, fun p hp => htodo p (List.mem_cons_of_mem _ hp), fun p hp => ?_⟩
  by_cases hc : path = p
  · subst hc
    exact Or.inr ⟨List.lookup_cons_self, by rw [hget, if_pos rfl]⟩
  · rcases hids p hp with hp' | ⟨hl, hm⟩
    · exact Or.inl ((List.mem_cons.mp hp').resolve_left (Ne.symm hc))
    · refine Or.inr ⟨?_, hkeep _ _ hm⟩
      rw [List.lookup_cons, beq_eq_false_iff_ne.mpr (Ne.symm hc)]
      exact hl

/-- All paths of the unit are interned. -/
theorem Phase.Holds.ready {ids : List (String × UInt32)} (h : (Phase.ingest [] ids).Holds k a r.plan x)
    (hu : r.plan[x.i]? = some u) : k.Marked a u ∧ ∀ p ∈ u.paths, idOf ids p = rankOf k.seed_paths p := by
  obtain ⟨v, hv, -, hids⟩ := h
  cases hu.symm.trans hv
  refine ⟨fun p hp => ((hids p hp).resolve_left (by simp)).2, fun p hp => ?_⟩
  unfold idOf
  rw [((hids p hp).resolve_left (by simp)).1, Option.getD_some]

theorem Run.Sums.lock (h : r.Sums k) {ids : List (String × UInt32)} (hw : r.workers[w]? = some x)
    (hphase : x.phase = .ingest [] ids) (hu : r.plan[x.i]? = some u) :
    (r.setWorker w { x with phase := .folding (u.builder (idOf ids)).dedup_tables.1 }).Sums k := by
  have hph := h.phases x (List.mem_of_getElem? hw)
  rw [hphase] at hph
  obtain ⟨hmark, hrank⟩ := hph.ready hu
  refine h.setWorker hw rfl ⟨u, hu, hmark, ?_⟩ fun _ hu => hu
  rw [IndexBuilder.facts_dedup_tables, u.builder_congr hrank]

theorem Run.Sums.fold (h : r.Sums k) {b : IndexBuilder} (hw : r.workers[w]? = some x)
    (hphase : x.phase = .folding b) : (r.setWorker w { x with
      phase := .merged, sink := { x.sink with builder := x.sink.builder.merge_from b } }).Sums k := by
  have hph := h.phases x (List.mem_of_getElem? hw)
  rw [hphase] at hph
  obtain ⟨u, hu, hmark, hb⟩ := hph
  refine h.setWorker hw rfl ⟨u, hu, hmark, ?_⟩ fun v hv => ?_
  · rw [IndexBuilder.facts_merge_from]
    exact Facts.Has.mul_left (Kzip.has_of_eq hb) _
  · rw [IndexBuilder.facts_merge_from]
    exact hv.mul_right _

theorem Run.Sums.drain (h : r.Sums k) {j : Nat} {shas : List String} (hsnap : r.snap = .drain j shas)
    (hw : r.workers[j]? = some x) (hfree : x.busy = false) :
    ({ r with
        acc := { r.acc with builder := r.acc.builder.merge_from x.sink.builder }
        snap := .drain (j + 1) (shas ++ x.sink.pending_shas) }.setWorker j { x with sink := {} }).Sums k := by
  refine h.quiet rfl rfl rfl (fun z hz => ?_) id (fun u hu => hu.setWorker hw rfl) fun u hu => ?_
  · rcases List.mem_or_eq_of_mem_set hz with hz | rfl
    · exact h.phases z hz
    · have hph := h.phases x (List.mem_of_getElem? hw)
      unfold Worker.busy at hfree
      cases hp : x.phase with
      | idle => trivial
      | ingest todo ids => rw [hp] at hph; exact hph
      | folding b => simp [hp] at hfree
      | merged => simp [hp] at hfree
  · have hacc : ∀ G, k.Has r.acc.builder.facts u ∨ k.Has x.sink.builder.facts u →
        ({ r with
          acc := { r.acc with builder := r.acc.builder.merge_from x.sink.builder }
          snap := .drain (j + 1) (shas ++ x.sink.pending_shas) }.setWorker j G).Carries k u := by
      intro G hor
      refine Or.inr (Or.inl ?_)
      change k.Has (r.acc.builder.merge_from x.sink.builder).facts u
      rw [IndexBuilder.facts_merge_from]
      exact hor.elim (fun hc => hc.mul_right _) fun hc => hc.mul_left _
    rcases hu with ⟨z, hz, hhas⟩ | hc | hc | hc
    · obtain ⟨v, hv⟩ := List.getElem?_of_mem hz
      by_cases hvj : j = v
      · subst hvj
        cases hw.symm.trans hv
        exact hacc _ (Or.inr hhas)
      · exact Or.inl ⟨z, List.mem_of_getElem? ((List.getElem?_set_ne hvj).trans hv), hhas⟩
    · exact hacc _ (Or.inl hc)
    · rw [hsnap] at hc
      exact hc.elim
    · exact Or.inr (Or.inr (Or.inr hc))

theorem Run.Sums.stage (h : r.Sums k) {shas : List String} (hsnap : r.snap = .drain r.workers.length shas) :
    { r with
      acc := { r.acc with builder := .new }
      next_shard := r.next_shard + 1
      snap := .write (r.file_ids.push_to r.acc.builder)
        ((r.acc.committed_shas ++ shas).mergeSort fun s t => as_bytes s ≤ as_bytes t) shas
          r.next_shard }.Sums k := by
  refine h.quiet rfl rfl rfl h.phases id (fun _ hu => hu) fun u hu => ?_
  rcases hu with hc | hc | hc | hc
  · exact Or.inl hc
  · obtain ⟨Fs, hFs, -⟩ := r.file_ids.facts_push_to r.acc.builder
    refine Or.inr (Or.inr (Or.inl ?_))
    change k.Has (r.file_ids.push_to r.acc.builder).facts u
    rw [hFs]
    exact hc.mul_right _
  · rw [hsnap] at hc
    exact hc.elim
  · exact Or.inr (Or.inr (Or.inr hc))

theorem Run.Sums.finish (h : r.Sums k) (hinv : r.Inv k (Facts.Piece k) N) {delta : IndexBuilder}
    {shas staged : List String} {idx : Nat} {f : Bytes} (hsnap : r.snap = .write delta shas staged idx)
    (hf : delta.finish = .ok f) :
    { r with dir := r.dir.addShard idx f, snap := .record shas staged }.Sums k := by
  have hs := hinv.snap
  rw [hsnap] at hs
  obtain ⟨hdelta, -, -, -, hnone⟩ := hs
  refine h.quiet rfl rfl rfl h.phases id (fun _ hu => hu) fun u hu => ?_
  rcases hu with hc | hc | hc | ⟨g, hg, hc⟩
  · exact Or.inl hc
  · exact Or.inr (Or.inl hc)
  · rw [hsnap] at hc
    refine Or.inr (Or.inr (Or.inr ⟨f, (Dir.mem_sources_addShard hnone).mpr (Or.inl rfl), _,
      IndexBuilder.fileHolds_of_finish hf, ?_⟩))
    exact Facts.Has.written hc hdelta.short hdelta.kinds
  · exact Or.inr (Or.inr (Or.inr ⟨g, (Dir.mem_sources_addShard hnone).mpr (Or.inr hg), hc⟩))

/-- Facts that the snapshotter does not carry stay where they are. -/
theorem Run.Carries.snap {s : Snap} {acc : Accumulator} {dir : Dir} (h : r.Carries k u)
    (hsnap : ¬ r.snap.Carries k u) (hacc : acc.builder = r.acc.builder) (hdir : dir.sources = r.dir.sources) :
    { r with snap := s, acc := acc, dir := dir }.Carries k u := by
  rcases h with hc | hc | hc | hc
  · exact Or.inl hc
  · exact Or.inr (Or.inl (by rw [hacc]; exact hc))
  · exact absurd hc hsnap
  · exact Or.inr (Or.inr (Or.inr (by rw [hdir]; exact hc)))

/-! ## The output -/

/-- The table that a merge writes has every marked path. -/
theorem FileIdAllocator.push_to_absorbs (a : FileIdAllocator) (b : IndexBuilder) {p : String} {id : UInt32}
    (h : a.map[p]? = some (id, true)) : AbsorbsRight (a.push_to b).facts (fileFacts id p) := by
  have hmem : (p, id, true) ∈ a.map.toList := ((tabulates_toList _).2 _ _).mpr h
  have hkeep : ∀ (l : List (String × UInt32 × Bool)) (c : IndexBuilder), AbsorbsRight c.facts (fileFacts id p) →
      AbsorbsRight (l.foldl (fun b e => if e.2.2 then b.upsert_file e.2.1 e.1 else b) c).facts (fileFacts id p) := by
    intro l
    induction l with
    | nil => exact fun c hc => hc
    | cons e l ih =>
      intro c hc
      rw [List.foldl_cons]
      refine ih _ ?_
      split
      · rw [IndexBuilder.facts_upsert_file]
        exact hc.mul_right _
      · exact hc
  unfold FileIdAllocator.push_to
  rw [ExtTreeMap.foldl_eq_foldl_toList]
  obtain ⟨l₁, l₂, hl⟩ := List.mem_iff_append.mp hmem
  rw [hl, List.foldl_append, List.foldl_cons]
  refine hkeep l₂ _ ?_
  rw [if_pos rfl, IndexBuilder.facts_upsert_file]
  exact (absorbs_self _).mul_left _

/-- What the final merge reads of the memory. -/
theorem Run.final_delta_facts (r : Run) : r.final_delta.facts =
    r.acc.builder.facts * (r.workers.map fun x => x.sink.builder.facts).prod := by
  unfold Run.final_delta
  have := IndexBuilder.facts_foldl_merge_from (r.workers.map fun x => x.sink.builder) r.acc.builder
  rwa [List.foldl_map, List.map_map] at this

theorem Run.Inv.final_piece {P : Naming → Facts → Prop} (hP : Closed k.units P)
    (h : r.Inv k P N) {Fs : List Facts} (hFs : ∀ F ∈ Fs, ∃ f ∈ r.dir.sources, FileHolds f F) :
    P N (Fs.prod * (r.file_ids.drain_into r.final_delta).facts) := by
  obtain ⟨Gs, hGs, hfiles⟩ := r.file_ids.facts_push_to r.final_delta
  refine hP.mul N _ _ (hP.prod fun F hF => ?_) ?_
  · obtain ⟨g, hg, hgF⟩ := hFs F hF
    obtain ⟨G, hG, hPG⟩ := h.dir g hg
    rwa [hgF.unique hG]
  · change P N (r.file_ids.push_to r.final_delta).facts
    rw [hGs, r.final_delta_facts]
    refine hP.mul N _ _ (hP.mul N _ _ h.acc (hP.prod ?_)) (hP.prod fun F hF => ?_)
    · rw [List.forall_mem_map]
      exact fun x hx => (h.workers x hx).sink
    · obtain ⟨p, id, hid, rfl⟩ := hfiles F hF
      obtain ⟨u, hu, hp⟩ := h.marked p id hid
      exact hP.file N u hu p hp id (h.ids.names p _ hid)

/-- All ids of a run are the ranks of candidate paths. -/
theorem Run.Sums.ranksIn (hk : k.Plain) (hlen : k.seed_paths.length ≤ 2 ^ 32) (hinv : r.Inv k (Facts.Piece k) N)
    (h : r.Sums k) (hF : F.Piece k N) : Kzip.RanksIn k.seed_paths F := by
  intro id p hp
  have hN := hF.named.files id p hp
  have hlt := hinv.ids.below id _ hN
  rw [h.next] at hlt
  have hq : k.seed_paths[id.toNat]? = some k.seed_paths[id.toNat] := List.getElem?_eq_getElem hlt
  have hmem := List.getElem_mem hlt
  generalize k.seed_paths[id.toNat] = q at hq hmem
  obtain ⟨accessed, hmap⟩ := h.ranks q hmem
  have hM := hinv.ids.names q _ hmap
  rw [rankOf_eq k.seed_nodup hlen hq] at hM
  have e := Option.some.inj (hN.symm.trans hM)
  rw [clamp_of_len_le (hF.short.files id p hp), clamp_of_len_le (hk.short_paths q hmem)] at e
  rw [hq, e]

/-- What a joined run merges is the file of one pass. -/
theorem Run.Sums.final_merge (hk : k.Plain) (hlen : k.seed_paths.length ≤ 2 ^ 32)
    (hinv : r.Inv k (Facts.Piece k) N) (h : r.Sums k) (hjoined : r.Joined) :
    r.final_merge = k.wholeTouched.finish := by
  obtain ⟨hidle, hoff, hfailed, -⟩ := hjoined
  unfold Run.final_merge
  rw [hinv.level]
  obtain ⟨Fs, hFs, hof, hin⟩ := forall₂_fileHolds fun g hg => (hinv.dir g hg).imp fun _ hG => hG.1
  obtain ⟨t, ht⟩ := write_merged_of_fileHolds (r.file_ids.drain_into r.final_delta) hFs
  have hpiece := hinv.final_piece (closed_piece hk hlen) hof
  have hmade := hpiece.made (h.ranksIn hk hlen hinv hpiece)
  -- Every unit is in one of the factors.
  have hsettled : ∀ u ∈ k.units, r.Settled k u := by
    intro u hu
    refine ((h.held.resolve_left (by simp [hfailed])) u hu).resolve_left ?_
    rintro ⟨w, x, hw, c, hc⟩
    have hi := (hidle x (List.mem_of_getElem? hw)).2
    rw [List.getElem?_eq_none (by omega)] at hc
    cases hc
  have hdelta : ∀ u, k.Has r.final_delta.facts u →
      k.Has (Fs.prod * (r.file_ids.drain_into r.final_delta).facts) u := by
    intro u hu
    obtain ⟨Gs, hGs, -⟩ := r.file_ids.facts_push_to r.final_delta
    refine Facts.Has.mul_left (F := (r.file_ids.push_to r.final_delta).facts) ?_ _
    rw [hGs]
    exact hu.mul_right _
  have hunit : ∀ u ∈ k.units, u.succeeded = true →
      k.Has (Fs.prod * (r.file_ids.drain_into r.final_delta).facts) u := by
    intro u hu hok
    rcases (hsettled u hu).2 hok with ⟨x, hx, hc⟩ | hc | hc | ⟨g, hg, G, hG, hc⟩
    · refine hdelta u ?_
      rw [r.final_delta_facts]
      exact (hc.prod (List.mem_map_of_mem (f := fun x => x.sink.builder.facts) hx)).mul_left _
    · refine hdelta u ?_
      rw [r.final_delta_facts]
      exact hc.mul_right _
    · rw [hoff] at hc
      exact hc.elim
    · obtain ⟨F, hF, hgF⟩ := hin g hg
      rw [hG.unique hgF] at hc
      exact (hc.prod hF).mul_right _
  have hpath : ∀ p ∈ k.units.flatMap KzipUnit.paths,
      (Fs.prod * (r.file_ids.drain_into r.final_delta).facts).Has k.touched (fileFacts (rankOf k.seed_paths p) p) := by
    intro p hp
    obtain ⟨u, hu, hp⟩ := List.mem_flatMap.mp hp
    have habs := r.file_ids.push_to_absorbs r.final_delta ((hsettled u hu).1 p hp)
    exact (Facts.has_of_absorbs habs).mul_left Fs.prod
  have hvisible := (hk.sourcesAgree hlen hk.touched_paths).visible_eq_of_made hmade fun G hG => by
    rcases Kzip.mem_sources.mp hG with ⟨u, hu, hok, rfl⟩ | ⟨p, hp, rfl⟩
    · exact hunit u hu hok
    · exact hpath p hp
  rw [← k.wholeTouched_facts] at hvisible
  rw [IndexBuilder.finish_eq, finishFile_congr hvisible.symm _ t]
  exact ht

/-- A step passes no unit whose facts are not kept. -/
theorem Step.sums (hk : k.Plain) (hlen : k.seed_paths.length ≤ 2 ^ 32) (hst : Step r r') (hinv : r.Inv k (Facts.Piece k) N) (h : r.Sums k) : r'.Sums k := by
  have hcache := hinv.cache
  cases hst with
  | begin hw hidle hu hmiss =>
    exact h.setWorker hw rfl ⟨_, hu, fun _ hp => hp, fun _ hp => Or.inl hp⟩ fun _ hu => hu
  | intern hw hphase hid => exact h.intern hk hw hphase hid
  | skip hw hphase hu hfailed =>
    have hph := h.phases _ (List.mem_of_getElem? hw)
    rw [hphase] at hph
    refine h.done hw rfl (fun _ hu => hu) (Or.inr fun v hv => ?_)
    cases hu.symm.trans hv
    refine ⟨(hph.ready hu).1, fun hok => ?_⟩
    rw [hfailed] at hok
    cases hok
  | lock _ hw hphase hu hok => exact h.lock hw hphase hu
  | fold hw hphase => exact h.fold hw hphase
  | push hw hphase hu =>
    have hph := h.phases _ (List.mem_of_getElem? hw)
    rw [hphase] at hph
    obtain ⟨v, hv, hmark, hhas⟩ := hph
    refine h.done hw rfl (fun _ hu => hu) (Or.inr fun v' hv' => ?_)
    cases hv.symm.trans hv'
    exact ⟨hmark, fun _ => hhas⟩
  | snapshot _ hsnap hout =>
    refine h.quiet rfl rfl rfl h.phases id (fun _ hu => hu) fun u hu => hu.snap ?_ rfl rfl
    simp [hsnap, Snap.Carries]
  | drain hsnap hw hfree => exact h.drain hsnap hw hfree
  | pass hsnap hw hbusy =>
    refine h.quiet rfl rfl rfl h.phases id (fun _ hu => hu) fun u hu => hu.snap ?_ rfl rfl
    simp [hsnap, Snap.Carries]
  | stage hsnap => exact h.stage hsnap
  | finish hsnap hf => exact h.finish hinv hsnap hf
  | finishFailed hsnap => exact { h with held := Or.inl rfl }
  | record hsnap =>
    refine h.quiet rfl rfl rfl h.phases id (fun _ hu => hu) fun u hu => hu.snap ?_ rfl rfl
    simp [hsnap, Snap.Carries]
  | recordFailed hsnap =>
    refine h.quiet rfl rfl rfl h.phases id (fun _ hu => hu) fun u hu => hu.snap ?_ rfl rfl
    simp [hsnap, Snap.Carries]
  | hit _ _ _ hhit =>
    obtain ⟨c, _, hc, -⟩ := hhit
    rw [hcache] at hc
    cases hc
  | copyFailed _ _ _ hhit =>
    obtain ⟨c, _, hc, -⟩ := hhit
    rw [hcache] at hc
    cases hc
  | shard hc => rw [hcache] at hc; cases hc
  | @shardFailed w x ids hw hphase =>
    have hfail : { r with failed := true, next_shard := r.next_shard + 1 }.Sums k := { h with held := Or.inl rfl }
    exact hfail.done hw rfl (fun _ hu => hu) (Or.inl rfl)
  | coalesce hc => rw [hcache] at hc; cases hc
  | promote hjoined hlevel hf =>
    refine { h with out := fun g hg => ?_ }
    cases hg
    rw [← h.final_merge hk hlen hinv hjoined, hf]

/-! ## From start to end -/

omit [Unicode] in
/-- Seeding gives every path its rank. -/
theorem FileIdAllocator.seed_paths_rank (front : List String) {paths : List String} {b : FileIdAllocator}
    (hnodup : (front ++ paths).Nodup) (hnext : a.next = front.length)
    (hmap : ∀ p : String, a.map[p]? = if p ∈ front then some (UInt32.ofNat (front.idxOf p), false) else none)
    (h : a.seed_paths paths = some b) : b.next = (front ++ paths).length ∧ ∀ p : String, b.map[p]? =
      if p ∈ front ++ paths then some (UInt32.ofNat ((front ++ paths).idxOf p), false) else none := by
  induction paths generalizing a front with
  | nil =>
    cases h
    rw [List.append_nil]
    exact ⟨hnext, hmap⟩
  | cons q paths ih =>
    have hq : q ∉ front := fun hq => (List.nodup_append.mp hnodup).2.2 q hq q List.mem_cons_self rfl
    unfold seed_paths at h
    rw [List.foldlM_cons] at h
    simp only [Option.bind_eq_bind, Option.bind_eq_some_iff] at h
    obtain ⟨c, hc, h⟩ := h
    unfold seedPath at hc
    rw [hmap, if_neg hq] at hc
    obtain ⟨rfl, -⟩ := assign_eq_some hc
    rw [← List.singleton_append, ← List.append_assoc] at hnodup ⊢
    refine ih _ hnodup (by rw [List.length_append, List.length_singleton, hnext]) (fun p => ?_) h
    rw [getElem?_insert_key, hmap]
    by_cases hqp : q = p
    · subst hqp
      rw [if_pos rfl, if_pos (by simp), List.idxOf_append_of_notMem hq, hnext]
      simp
    · rw [if_neg hqp]
      by_cases hp : p ∈ front
      · rw [if_pos hp, if_pos (List.mem_append_left _ hp), List.idxOf_append_of_mem hp]
      · rw [if_neg hp, if_neg]
        simpa [hp] using Ne.symm hqp

omit [Unicode] in
/-- The plan is dealt out to the workers. -/
theorem startRun_due {args : Args} {d : Dir} {done : List String} (ids : FileIdAllocator)
    (hu : u ∈ (startRun args k d done ids).plan) : (startRun args k d done ids).Due u := by
  obtain ⟨j, hj⟩ := List.getElem?_of_mem hu
  have hlen : (startRun args k d done ids).workers.length = args.workers := by simp [startRun]
  refine ⟨j % args.workers, { i := j % args.workers }, ?_, j / args.workers, ?_⟩
  · simp [startRun, Nat.mod_lt _ args.workers_pos]
  · rw [hlen, Nat.mod_add_div']
    exact hj

theorem launch_sums {args : Args} {d : Dir} (hresume : args.resume = false) (h : launch args k d = .ok r) :
    k.seed_paths.length ≤ 2 ^ 32 ∧ r.Sums k := by
  obtain ⟨done, ids, hdone, hids, rfl⟩ := launch_eq_ok h
  have hdone' : done = [] := by
    unfold Args.done_shas at hdone
    rw [hresume] at hdone
    simpa using hdone.symm
  subst hdone'
  unfold Args.file_ids at hids
  rw [hresume] at hids
  simp only [Bool.false_eq_true, if_false] at hids
  split at hids
  · rename_i a ha
    cases hids
    obtain ⟨⟨N, hN⟩, -⟩ := FileIdAllocator.seed_paths_spec agrees_new unmarked_new ha
    obtain ⟨hnext, hmap⟩ := FileIdAllocator.seed_paths_rank [] k.seed_nodup rfl (by simp) ha
    have hbound := hN.bound
    rw [hnext, List.nil_append] at hbound
    have hplan : k.units.filter (fun u => u.sha ∉ ([] : List String)) = k.units := by simp
    refine ⟨hbound.le, hplan, hnext, fun p hp => ⟨false, ?_⟩, fun x hx => ?_, Or.inr fun u hu => Or.inl ?_,
      fun f hf => ?_⟩
    · change ids.map[p]? = _
      rw [hmap, List.nil_append, if_pos hp]
      unfold rankOf globalOf
      rw [if_pos hp, Option.getD_some]
    · obtain ⟨w, rfl⟩ := startRun_worker [] ids hx
      trivial
    · refine startRun_due ids ?_
      change u ∈ k.units.filter fun u => u.sha ∉ ([] : List String)
      rwa [hplan]
    · cases hf
  · cases hids

/-- A run over a plain kzip that starts from no shards. -/
theorem Reaches.sums {args : Args} {d : Dir} {r₀ : Run} (hk : k.Plain) (hresume : args.resume = false)
    (hcache : args.cache = none) (hempty : d.sources = []) (hlaunch : launch args k d = .ok r₀)
    (hreach : Reaches r₀ r) :
    k.seed_paths.length ≤ 2 ^ 32 ∧ (∃ N, r.Inv k (Facts.Piece k) N) ∧ r.Sums k := by
  obtain ⟨hlen, hsums⟩ := launch_sums hresume hlaunch
  have hP := closed_piece hk hlen
  obtain ⟨N, hN⟩ := launch_inv_fresh hP hresume hcache hempty hlaunch
  clear hlaunch
  induction hreach with
  | refl => exact ⟨hlen, ⟨N, hN⟩, hsums⟩
  | step _ hst ih =>
    obtain ⟨-, ⟨M, hM⟩, hs⟩ := ih
    obtain ⟨L, -, hL, -⟩ := hst.inv hP hM
    exact ⟨hlen, ⟨L, hL⟩, hst.sums hk hlen hM hs⟩

/-! ## A run that comes to its end -/

omit [Unicode] in
/-- All workers are between two units, and nothing else is going on. -/
structure Run.Resting (r : Run) : Prop where
  idle : ∀ x ∈ r.workers, x.phase = .idle
  cache : r.cache = none
  level : r.level = none
  snap : r.snap = .off
  failed : r.failed = false
  out : r.out = none

/-- A worker interns the paths that are left. -/
theorem Run.Sums.interns (hk : k.Plain) {todo : List String} {ids : List (String × UInt32)} (h : r.Sums k)
    (hw : r.workers[w]? = some x) (hphase : x.phase = .ingest todo ids) :
    ∃ a ids', Reaches r ({ r with file_ids := a }.setWorker w { x with phase := .ingest [] ids' }) ∧
      ({ r with file_ids := a }.setWorker w { x with phase := .ingest [] ids' }).Sums k := by
  induction todo generalizing r x ids with
  | nil =>
    have hself : { r with file_ids := r.file_ids }.setWorker w { x with phase := .ingest [] ids } = r := by
      obtain ⟨hlt, he⟩ := List.getElem?_eq_some_iff.mp hw
      rw [← hphase]
      unfold Run.setWorker
      rw [← he, List.set_getElem_self]
    exact ⟨r.file_ids, ids, hself.symm ▸ .refl, hself.symm ▸ h⟩
  | cons path todo ih =>
    have hph := h.phases x (List.mem_of_getElem? hw)
    rw [hphase] at hph
    obtain ⟨u, hu, htodo, -⟩ := hph
    have hmem : u ∈ k.units := h.plan ▸ List.mem_of_getElem? hu
    obtain ⟨accessed, hpath⟩ := h.ranks path (hk.paths u hmem path (htodo path List.mem_cons_self))
    obtain ⟨id, b, hid⟩ : ∃ id b, r.file_ids.intern path = some (id, b) := by
      unfold FileIdAllocator.intern
      rw [hpath]
      exact ⟨_, _, rfl⟩
    have hst := Step.intern hw hphase hid
    have hw' : ({ r with file_ids := b }.setWorker w { x with phase := .ingest todo ((path, id) :: ids) }).workers[w]? =
        some { x with phase := .ingest todo ((path, id) :: ids) } :=
      List.getElem?_set_self (List.getElem?_eq_some_iff.mp hw).1
    obtain ⟨a, ids', hreach, hsums⟩ := ih (h.intern hk hw hphase hid) hw' rfl
    have hset : ∀ y z : Worker, { { r with file_ids := b }.setWorker w y with file_ids := a }.setWorker w z =
        { r with file_ids := a }.setWorker w z := by
      intro y z
      unfold Run.setWorker
      rw [List.set_set]
    exact ⟨a, ids', hset _ _ ▸ (Reaches.refl.step hst).trans hreach, hset _ _ ▸ hsums⟩

omit [Unicode] in
theorem Run.Resting.set (h : r.Resting) (hworkers : r'.workers = r.workers.set w y) (hy : y.phase = .idle)
    (hrest : r'.cache = r.cache ∧ r'.level = r.level ∧ r'.snap = r.snap ∧ r'.failed = r.failed ∧ r'.out = r.out) :
    r'.Resting where
  idle z hz := by
    rw [hworkers] at hz
    rcases List.mem_or_eq_of_mem_set hz with hz | rfl
    · exact h.idle z hz
    · exact hy
  cache := hrest.1.trans h.cache
  level := hrest.2.1.trans h.level
  snap := hrest.2.2.1.trans h.snap
  failed := hrest.2.2.2.1.trans h.failed
  out := hrest.2.2.2.2.trans h.out

variable {r₀ : Run}

/-- One worker takes its next unit while the others rest. -/
theorem Reaches.unit (hk : k.Plain) (hsums : ∀ s, Reaches r₀ s → s.Sums k) (hreach : Reaches r₀ r)
    (hr : r.Resting) (hw : r.workers[w]? = some x) (hu : r.plan[x.i]? = some u) :
    ∃ s y, Reaches r₀ s ∧ s.Resting ∧ s.plan = r.plan ∧ s.workers = r.workers.set w y ∧
      y.i = x.i + r.workers.length := by
  have hbegin := hreach.step (Step.begin hw (hr.idle x (List.mem_of_getElem? hw)) hu (by
    rintro f ⟨cache, ix, hc, -⟩
    rw [hr.cache] at hc
    cases hc))
  have hlt := (List.getElem?_eq_some_iff.mp hw).1
  obtain ⟨a, ids, hinterns, -⟩ := (hsums _ hbegin).interns hk (List.getElem?_set_self hlt) rfl
  have hset : ∀ (q : Run) (y z : Worker), (q.setWorker w y).setWorker w z = q.setWorker w z := by
    intro q y z
    unfold Run.setWorker
    rw [List.set_set]
  have hready : Reaches r₀ ({ r with file_ids := a }.setWorker w { x with phase := .ingest [] ids }) :=
    hset { r with file_ids := a } _ _ ▸ hbegin.trans hinterns
  have hat : ∀ y, ({ r with file_ids := a }.setWorker w y).workers[w]? = some y := fun y => List.getElem?_set_self hlt
  have hdone : ∀ y z, ({ r with file_ids := a }.setWorker w y).done w z =
      { r with file_ids := a }.setWorker w { z with i := z.i + r.workers.length, phase := .idle } := by
    intro y z
    unfold Run.done
    rw [hset]
    unfold Run.setWorker
    simp only [List.length_set]
  -- Either way the worker is the only one that has changed.
  have hrest : ∀ y, Reaches r₀ ({ r with file_ids := a }.setWorker w y) → y.phase = .idle →
      y.i = x.i + r.workers.length → ∃ s y, Reaches r₀ s ∧ s.Resting ∧ s.plan = r.plan ∧
        s.workers = r.workers.set w y ∧ y.i = x.i + r.workers.length :=
    fun y hy hidle hi => ⟨_, y, hy, hr.set rfl hidle ⟨rfl, rfl, rfl, rfl, rfl⟩, rfl, rfl, hi⟩
  cases hok : u.succeeded with
  | false =>
    have hskip := hready.step (Step.skip (hat _) rfl hu hok)
    rw [hdone] at hskip
    exact hrest _ hskip rfl rfl
  | true =>
    have hlock := hready.step (Step.lock hr.cache (hat _) rfl hu hok)
    rw [hset] at hlock
    have hfold := hlock.step (Step.fold (hat _) rfl)
    rw [hset] at hfold
    have hpush := hfold.step (Step.push (hat _) rfl hu)
    rw [hdone] at hpush
    exact hrest _ hpush rfl rfl

omit [Unicode] in
theorem sum_set_lt {l : List Nat} {n i j : Nat} (hn : l[n]? = some i) (hj : j < i) : (l.set n j).sum < l.sum := by
  induction l generalizing n with
  | nil => cases hn
  | cons m l ih =>
    cases n with
    | zero =>
      cases hn
      rw [List.set_cons_zero, List.sum_cons, List.sum_cons]
      omega
    | succ n =>
      have := ih (n := n) (by simpa using hn)
      rw [List.set_cons_succ, List.sum_cons, List.sum_cons]
      omega

/-- The workers finish one after the other. -/
theorem Reaches.joined (hk : k.Plain) (hsums : ∀ s, Reaches r₀ s → s.Sums k) (hreach : Reaches r₀ r)
    (hr : r.Resting) : ∃ s, Reaches r₀ s ∧ s.Joined ∧ s.cache = none ∧ s.level = none := by
  induction hn : (r.workers.map fun x => r.plan.length - x.i).sum using Nat.strongRecOn generalizing r with
  | _ n ih =>
    by_cases hall : ∀ x ∈ r.workers, r.plan.length ≤ x.i
    · exact ⟨r, hreach, ⟨fun x hx => ⟨hr.idle x hx, hall x hx⟩, hr.snap, hr.failed, hr.out⟩, hr.cache, hr.level⟩
    · push Not at hall
      obtain ⟨x, hx, hi⟩ := hall
      obtain ⟨w, hw⟩ := List.getElem?_of_mem hx
      obtain ⟨s, y, hs, hrest, hplan, hworkers, hy⟩ :=
        hreach.unit hk hsums hr hw (List.getElem?_eq_getElem hi)
      refine ih _ ?_ hs hrest rfl
      rw [← hn, hplan, hworkers, List.map_set]
      refine sum_set_lt (i := r.plan.length - x.i) ?_ ?_
      · rw [List.getElem?_map, hw, Option.map_some]
      · have hpos := List.length_pos_of_mem hx
        omega

omit [Unicode] in
theorem FileIdAllocator.exists_seed_paths {paths : List String} (h : a.next + paths.length < 2 ^ 32) :
    ∃ b, a.seed_paths paths = some b := by
  induction paths generalizing a with
  | nil => exact ⟨a, rfl⟩
  | cons p paths ih =>
    rw [List.length_cons] at h
    unfold seed_paths
    rw [List.foldlM_cons]
    unfold seedPath
    split
    · obtain ⟨b, hb⟩ := ih (a := a) (by omega)
      exact ⟨b, hb⟩
    · unfold assign succ
      rw [if_pos (by omega)]
      exact ih (a := ⟨_, a.next + 1⟩) (by dsimp only; omega)

omit [Unicode] in
/-- A run starts when there are units and ids for all paths. -/
theorem exists_launch {args : Args} {d : Dir} (hunits : k.units ≠ []) (hresume : args.resume = false)
    (hlen : k.seed_paths.length < 2 ^ 32) : ∃ r, launch args k d = .ok r := by
  have hroom : ({} : FileIdAllocator).next + k.seed_paths.length < 2 ^ 32 := by simpa using hlen
  obtain ⟨b, hb⟩ := FileIdAllocator.exists_seed_paths hroom
  unfold launch Args.done_shas Args.file_ids
  rw [if_neg hunits, hresume]
  simp only [Bool.false_eq_true, if_false, hb, Res.ok_bind]
  exact ⟨_, rfl⟩

/-- Whatever the workers, the order of their steps and the snapshots are, a run without cache that
starts from no shards can come to its end with just one output, the file of one pass over the units. -/
theorem run_output_iff {args : Args} {d : Dir} {f : Bytes} (hk : k.Plain) (hresume : args.resume = false)
    (hcache : args.cache = none) (hempty : d.sources = []) (hlaunch : launch args k d = .ok r₀) :
    (∃ r, Reaches r₀ r ∧ r.out = some f) ↔ k.wholeTouched.finish = .ok f := by
  constructor
  · rintro ⟨r, hreach, hout⟩
    exact (hreach.sums hk hresume hcache hempty hlaunch).2.2.out f hout
  · intro hf
    have hall : ∀ s, Reaches r₀ s → k.seed_paths.length ≤ 2 ^ 32 ∧ (∃ N, s.Inv k (Facts.Piece k) N) ∧ s.Sums k :=
      fun s hs => hs.sums hk hresume hcache hempty hlaunch
    have hrest : r₀.Resting := by
      obtain ⟨done, ids, -, -, rfl⟩ := launch_eq_ok hlaunch
      refine ⟨fun x hx => ?_, ?_, rfl, rfl, rfl, rfl⟩
      · obtain ⟨w, rfl⟩ := startRun_worker done ids hx
        rfl
      · unfold startRun
        rw [hresume, hcache]
        rfl
    obtain ⟨s, hs, hjoined, hnone, hlevel⟩ := Reaches.joined hk (fun s hs => (hall s hs).2.2) .refl hrest
    obtain ⟨hlen, ⟨N, hN⟩, hsums⟩ := hall s hs
    have hmerge := hsums.final_merge hk hlen hN hjoined
    refine ⟨_, hs.step (.promote hjoined ?_ (hmerge.trans hf)), rfl⟩
    rw [hlevel, hnone]
    rfl

end

/-! Two workers, a unit that defines a function, and one that fails after it has named its file. -/

section

attribute [local instance] asciiUnicode

def definingUnit : KzipUnit where
  sha := "a"
  digest := "a"
  paths := ["a.cc"]
  xrefs := [⟨7, Role.DEF, "a.cc", 4⟩]
  tables := ((IndexBuilder.new.upsert_sym 7 Kind.FUNCTION Lang.CXX "ns::f").add_alias 7 "f").add_type 7 "int"
  succeeded := true
  xrefs_in := List.forall_mem_singleton.mpr List.mem_cons_self

def failingUnit : KzipUnit where
  sha := "b"
  digest := "b"
  paths := ["b.cc"]
  xrefs := []
  tables := .new
  succeeded := false
  xrefs_in := List.forall_mem_nil _

def twoUnits : Kzip where
  units := [definingUnit, failingUnit]
  seed_paths := ["a.cc", "b.cc"]
  shas_nodup := by
    change ["a", "b"].Nodup
    decide
  shas_word := by
    intro u hu
    rcases List.mem_pair.mp hu with rfl | rfl
    · exact isWord_letters.1
    · exact isWord_letters.2
  seed_sorted := by decide

def twoWorkers : Args where
  out := "out.s2db"
  resume := false
  workers := 2
  cache := none
  workers_pos := Nat.two_pos

theorem twoUnits_plain : twoUnits.Plain where
  paths := by decide
  short := by decide
  short_paths := by decide
  agree s := by
    have hone : twoUnits.succeeded.filterMap (fun u => u.tables.syms[s]?) = definingUnit.tables.syms[s]?.toList := by
      change [definingUnit].filterMap (fun u => u.tables.syms[s]?) = _
      rw [List.filterMap_cons]
      cases definingUnit.tables.syms[s]? <;> rfl
    rw [hone]
    refine ⟨?_, ?_, Or.inr ?_⟩
    all_goals
      intro m hm n hn _ _
      rw [Option.mem_toList] at hm hn
      cases hm.symm.trans hn
      rfl

theorem run_output_iff_twoUnits : ∃ r₀, launch twoWorkers twoUnits {} = .ok r₀ ∧
    (∃ r f, Reaches r₀ r ∧ r.out = some f) ∧
    ∀ f, (∃ r, Reaches r₀ r ∧ r.out = some f) ↔ twoUnits.wholeTouched.finish = .ok f := by
  obtain ⟨r₀, hlaunch⟩ : ∃ r₀, launch twoWorkers twoUnits {} = .ok r₀ :=
    exists_launch (List.cons_ne_nil _ _) rfl (by decide)
  have hiff : ∀ f, (∃ r, Reaches r₀ r ∧ r.out = some f) ↔ twoUnits.wholeTouched.finish = .ok f :=
    fun f => run_output_iff twoUnits_plain rfl rfl rfl hlaunch
  have hfits : twoUnits.wholeTouched.finish = .ok twoUnits.wholeTouched.finishRows.bytes :=
    (Rows.finishFile_eq _).trans (if_pos (by decide +kernel))
  obtain ⟨r, hr, hout⟩ := (hiff _).mpr hfits
  exact ⟨r₀, hlaunch, ⟨r, _, hr, hout⟩, hiff⟩

end

end Scry2
