import Scry2.Fresh

/-!
# Cleaning up

After a run has promoted its output it removes the base, the shas and the shards, one after the other
and whatever comes of each removal. A crash in between leaves some of them, and a later run with
`--resume` goes by which are there.
-/

open Scry2.Lib
open Std (ExtTreeMap)

namespace Scry2

/-! ## Removing files -/

/-- One `remove_file` of the cleanup. -/
inductive Removal where
  | base
  | shas
  | shard (i : Nat)
deriving DecidableEq

namespace Dir

def remove (d : Dir) : Removal → Dir
  | .base => { d with base := none }
  | .shas => { d with shas := none }
  | .shard i => { d with shards := d.shards.erase i }

/-- In the order in which they are tried. -/
def removals (d : Dir) : List Removal := .base :: .shas :: d.shards.toList.map fun e => .shard e.1

/-- A removal that went through, or whose error was ignored. -/
def attempt (d : Dir) (e : Removal × Bool) : Dir := if e.2 then d.remove e.1 else d

/-- The cleanup up to a crash: it came as far as there are `outcomes`. -/
def cleanup (d : Dir) (outcomes : List Bool) : Dir := (d.removals.zip outcomes).foldl attempt d

/-- The cleanup came to this file and removed it. -/
def Removed (d : Dir) (outcomes : List Bool) (x : Removal) : Prop := (x, true) ∈ d.removals.zip outcomes

instance (d : Dir) (outcomes : List Bool) (x : Removal) : Decidable (d.Removed outcomes x) :=
  inferInstanceAs (Decidable (_ ∈ _))

variable {d : Dir} {outcomes : List Bool}

theorem attempts_base (l : List (Removal × Bool)) (d : Dir) :
    (l.foldl attempt d).base = if (.base, true) ∈ l then none else d.base := by
  induction l generalizing d with
  | nil => simp
  | cons e l ih =>
    rw [List.foldl_cons, ih]
    obtain ⟨x, ok⟩ := e
    cases x <;> cases ok <;> simp [attempt, remove]

theorem attempts_shas (l : List (Removal × Bool)) (d : Dir) :
    (l.foldl attempt d).shas = if (.shas, true) ∈ l then none else d.shas := by
  induction l generalizing d with
  | nil => simp
  | cons e l ih =>
    rw [List.foldl_cons, ih]
    obtain ⟨x, ok⟩ := e
    cases x <;> cases ok <;> simp [attempt, remove]

theorem attempts_shards (l : List (Removal × Bool)) (d : Dir) (i : Nat) :
    (l.foldl attempt d).shards[i]? = if (.shard i, true) ∈ l then none else d.shards[i]? := by
  induction l generalizing d with
  | nil => simp
  | cons e l ih =>
    rw [List.foldl_cons, ih]
    obtain ⟨x, ok⟩ := e
    cases x with
    | base => cases ok <;> simp [attempt, remove]
    | shas => cases ok <;> simp [attempt, remove]
    | shard j =>
      cases ok with
      | false => simp [attempt]
      | true =>
        simp only [attempt, remove, if_true, ExtTreeMap.getElem?_erase, List.mem_cons, Prod.mk.injEq,
          Removal.shard.injEq, and_true, Std.compare_eq_iff_eq]
        by_cases hij : i = j
        · simp [hij]
        · simp [hij, Ne.symm hij]

theorem cleanup_base : (d.cleanup outcomes).base = if d.Removed outcomes .base then none else d.base :=
  attempts_base _ d

theorem cleanup_shas : (d.cleanup outcomes).shas = if d.Removed outcomes .shas then none else d.shas :=
  attempts_shas _ d

theorem cleanup_shards (i : Nat) :
    (d.cleanup outcomes).shards[i]? = if d.Removed outcomes (.shard i) then none else d.shards[i]? :=
  attempts_shards _ d i

theorem mem_sources_cleanup {f : Bytes} : f ∈ (d.cleanup outcomes).sources ↔
    (d.base = some f ∧ ¬ d.Removed outcomes .base) ∨
      ∃ i : Nat, d.shards[i]? = some f ∧ ¬ d.Removed outcomes (.shard i) := by
  rw [mem_sources, cleanup_base]
  simp only [cleanup_shards]
  refine or_congr ?_ (exists_congr fun i => ?_)
  · by_cases h : d.Removed outcomes .base <;> simp [h]
  · by_cases h : d.Removed outcomes (.shard i) <;> simp [h]

theorem sources_cleanup_subset {f : Bytes} (h : f ∈ (d.cleanup outcomes).sources) : f ∈ d.sources := by
  rw [mem_sources_cleanup] at h
  exact mem_sources.mpr (h.imp And.left fun ⟨i, hi⟩ => ⟨i, hi.1⟩)

end Dir

/-! ## What a later run may count on -/

/-- Some file of the directory has all rows of the unit. -/
def Dir.Keeps (k : Kzip) (d : Dir) (u : KzipUnit) : Prop :=
  ∃ f ∈ d.sources, ∃ F, FileHolds f F ∧ F.Shows k.units F.vars u

/-- The symbols that a unit or a file of the directory calls variables. -/
def Dir.vars (k : Kzip) (d : Dir) : Set UInt64 :=
  unitVars k.units ∪ {s | ∃ f ∈ d.sources, ∃ F, FileHolds f F ∧ F.isVar s}

/-- A run with `--resume` refuses to start, or it skips only units whose rows are on disk and its
output has the rows of every unit. -/
def SafeResume [Unicode] (k : Kzip) (d : Dir) : Prop :=
  ∀ args r₀, args.resume = true → launch args k d = .ok r₀ →
    (∀ u ∈ k.units, u ∉ r₀.plan → d.Keeps k u) ∧
    ∀ r f, Reaches r₀ r → r.out = some f →
      ∃ F, FileHolds f F ∧ ∀ u ∈ k.units, u.succeeded = true → F.Shows k.units (d.vars k) u

/-- The files hold rows of units under ids that agree, and each sha is that of a unit with all its rows
in one of them. -/
def Dir.Consistent (k : Kzip) (d : Dir) : Prop :=
  ∃ N, d.Good Facts.Named N ∧ d.Records k N

/-- A run over what was consistent has just promoted its output and left this directory. -/
def Promoted [Unicode] (k : Kzip) (d : Dir) : Prop :=
  ∃ args d₀ r₀ r f, d₀.Consistent k ∧ (args.resume = true ∨ d₀.Clean) ∧
    launch args k d₀ = .ok r₀ ∧ Reaches r₀ r ∧ r.out = some f ∧ r.dir = d

/-- The shas are gone, or all that they speak of is, or nothing that they speak of is. -/
def Dir.Spared (k : Kzip) (d : Dir) (outcomes : List Bool) : Prop :=
  (d.shas = none ∨ d.Removed outcomes .shas) ∨
  ((d.base = none ∨ d.Removed outcomes .base) ∧
    ∀ (i : Nat) (f : Bytes), d.shards[i]? = some f → d.Removed outcomes (.shard i)) ∨
  ∀ text, d.shas = some text → ∀ u ∈ k.units, u.sha ∈ readShas text → ∃ f F, FileHolds f F ∧
    F.Shows k.units F.vars u ∧
    ((d.base = some f ∧ ¬ d.Removed outcomes .base) ∨
      ∃ i : Nat, d.shards[i]? = some f ∧ ¬ d.Removed outcomes (.shard i))

variable {k : Kzip} {N : Naming} {d : Dir} {outcomes : List Bool}

theorem Facts.Shows.covers {us : List KzipUnit} {hidden : Set UInt64} {F : Facts} {u : KzipUnit}
    (h : F.Shows us hidden u) (hn : F.Named N) : F.Covers us hidden u N where
  xrefs x hx := by
    obtain ⟨id, hr, hp⟩ := h.xrefs x hx
    refine ⟨id, ?_, hr⟩
    rw [hn.files id _ hp, clamp_clamp]
  syms := h.syms
  files p hp := by
    obtain ⟨id, hid⟩ := h.files p hp
    refine ⟨id, _, ?_, hid⟩
    rw [hn.files id _ hid, clamp_clamp]
  inherits := h.inherits
  aliases r hr hnot := by
    refine ⟨r.clamped, h.aliases r hr hnot, ?_⟩
    rw [StrRow.clamped, StrRow.clamped, clamp_clamp]
  calls := h.calls
  childof := h.childof
  typed := h.typed
  sig := h.sig

/-- Whatever the files say of texts and variables, with `d.vars` it is allowed. -/
theorem Dir.Good.tame (hgood : d.Good Facts.Named N) : d.Good (Facts.Tame k.units (d.vars k)) N := by
  intro f hf
  obtain ⟨F, hF, hn⟩ := hgood f hf
  exact ⟨F, hF, hn, Facts.shortTexts_of_short hF.short, fun s hs => Or.inr ⟨f, hf, F, hF, hs⟩⟩

theorem Dir.Good.named {vars : Set UInt64} (hgood : d.Good (Facts.Tame k.units vars) N) :
    d.Good Facts.Named N := by
  intro f hf
  obtain ⟨F, hF, htame⟩ := hgood f hf
  exact ⟨F, hF, htame.named⟩

theorem closed_tame_dir [Unicode] (k : Kzip) (d : Dir) :
    Closed k.units (Facts.Tame k.units (d.vars k)) :=
  closed_tame k.units Set.subset_union_left

theorem Dir.keeps_iff_durable (hgood : d.Good Facts.Named N) {u : KzipUnit} :
    d.Keeps k u ↔ d.Durable k N u := by
  have hnamed : ∀ f ∈ d.sources, ∀ F, FileHolds f F → F.Named N := by
    intro f hf F hF
    obtain ⟨G, hG, hn⟩ := hgood f hf
    rwa [hF.unique hG]
  constructor
  · rintro ⟨f, hf, F, hF, hu⟩
    exact ⟨f, hf, F, hF, hu.covers (hnamed f hf F hF)⟩
  · rintro ⟨f, hf, F, hF, hu⟩
    exact ⟨f, hf, F, hF, hu.shows (hnamed f hf F hF) hF⟩

theorem Dir.sources_cleanup_eq_nil : (d.cleanup outcomes).sources = [] ↔
    (d.base = none ∨ d.Removed outcomes .base) ∧
      ∀ (i : Nat) (f : Bytes), d.shards[i]? = some f → d.Removed outcomes (.shard i) := by
  rw [List.eq_nil_iff_forall_not_mem]
  simp only [mem_sources_cleanup, not_or, not_and, not_not, not_exists]
  constructor
  · intro h
    refine ⟨?_, fun i f hf => (h f).2 i hf⟩
    cases hb : d.base with
    | none => exact Or.inl rfl
    | some f => exact Or.inr ((h f).1 hb)
  · rintro ⟨hbase, hshards⟩ f
    refine ⟨fun hb => hbase.resolve_left ?_, fun i hi => hshards i f hi⟩
    rw [hb]
    exact Option.some_ne_none _

theorem Dir.keeps_cleanup {u : KzipUnit} : (d.cleanup outcomes).Keeps k u ↔ ∃ f F, FileHolds f F ∧
    F.Shows k.units F.vars u ∧
    ((d.base = some f ∧ ¬ d.Removed outcomes .base) ∨
      ∃ i : Nat, d.shards[i]? = some f ∧ ¬ d.Removed outcomes (.shard i)) := by
  unfold Dir.Keeps
  simp only [mem_sources_cleanup]
  constructor
  · rintro ⟨f, hf, F, hF, hu⟩
    exact ⟨f, F, hF, hu, hf⟩
  · rintro ⟨f, F, hF, hu, hf⟩
    exact ⟨f, hf, F, hF, hu⟩

theorem Dir.spared_iff : d.Spared k outcomes ↔ (d.cleanup outcomes).shas = none ∨
    (d.cleanup outcomes).sources = [] ∨ ∀ text, (d.cleanup outcomes).shas = some text →
      ∀ u ∈ k.units, u.sha ∈ readShas text → (d.cleanup outcomes).Keeps k u := by
  unfold Dir.Spared
  rw [sources_cleanup_eq_nil, cleanup_shas]
  simp only [keeps_cleanup]
  by_cases h : d.Removed outcomes .shas
  · simp [h]
  · simp [h]

/-! ## Starting from what is left -/

/-- Seeding only fails at the last id. -/
theorem seed_from_of_small {rows : List (UInt32 × String)} (h : ∀ row ∈ rows, row.1.toNat + 1 < 2 ^ 32)
    (a : FileIdAllocator) : ∃ b, a.seed_from rows = some b := by
  induction rows generalizing a with
  | nil => exact ⟨a, rfl⟩
  | cons row rows ih =>
    have hrow : ∃ b, a.seedRow row = some b := by
      unfold FileIdAllocator.seedRow FileIdAllocator.raise FileIdAllocator.succ
      have hsmall := h row List.mem_cons_self
      by_cases hle : a.next ≤ row.1.toNat
      · rw [if_pos hle, if_pos hsmall]
        exact ⟨_, rfl⟩
      · rw [if_neg hle]
        exact ⟨_, rfl⟩
    obtain ⟨b, hb⟩ := hrow
    obtain ⟨c, hc⟩ := ih (fun q hq => h q (List.mem_cons_of_mem _ hq)) b
    refine ⟨c, ?_⟩
    unfold FileIdAllocator.seed_from
    rw [List.foldlM_cons, hb]
    exact hc

theorem seedSources_of_small {files : List Bytes}
    (h : ∀ f ∈ files, ∃ F, FileHolds f F ∧ ∀ id p, F.files id = some p → id.toNat + 1 < 2 ^ 32)
    (a : FileIdAllocator) : ∃ b, files.foldlM seedSource a = .ok b := by
  induction files generalizing a with
  | nil => exact ⟨a, rfl⟩
  | cons f files ih =>
    obtain ⟨F, hF, hsmall⟩ := h f List.mem_cons_self
    obtain ⟨ix, hopen, hix⟩ := hF.reads
    obtain ⟨rows, hrows, htab⟩ := hix.files
    obtain ⟨b, hb⟩ := seed_from_of_small (fun row hrow => hsmall _ _ ((htab.2 row.1 row.2).mp hrow)) a
    obtain ⟨c, hc⟩ := ih (fun g hg => h g (List.mem_cons_of_mem _ hg)) b
    refine ⟨c, ?_⟩
    have hseed : seedSource a f = .ok b := by
      unfold seedSource
      simp only [hopen, hrows, Res.ok_bind, hb]
    rw [List.foldlM_cons, hseed, Res.ok_bind]
    exact hc

/-- A run with `--resume` trusts the shas as long as some file is there. -/
theorem Dir.done_shas_of_sources {text : String} (hshas : d.shas = some text) (hsources : d.sources ≠ [])
    (out : String) : d.done_shas out = .ok (readShas text) := by
  unfold Dir.done_shas
  cases hbase : d.base with
  | some f => simp only [hshas]
  | none =>
    have hne : d.list_partial_shards.length ≠ 0 := by
      intro hzero
      apply hsources
      unfold Dir.sources
      rw [hbase, List.length_eq_zero_iff.mp hzero]
      rfl
    simp only [hshas, if_neg hne]

/-- Without shas or without files it starts only where it finds neither. -/
theorem Dir.clean_of_done_shas {out : String} {done : List String} (h : d.done_shas out = .ok done)
    (hnone : d.shas = none ∨ d.sources = []) : d.shas = none ∧ d.sources = [] := by
  unfold Dir.done_shas at h
  have hnil : d.sources = [] ↔ d.base = none ∧ d.list_partial_shards = [] := by
    unfold Dir.sources
    rw [List.append_eq_nil_iff, Option.toList_eq_nil_iff]
  rcases hnone with hshas | hsources
  · cases hbase : d.base with
    | some f =>
      simp only [hbase, hshas] at h
      cases h
    | none =>
      simp only [hbase, hshas] at h
      split_ifs at h with hzero
      exact ⟨hshas, hnil.mpr ⟨hbase, List.length_eq_zero_iff.mp (by omega)⟩⟩
  · obtain ⟨hbase, hshards⟩ := hnil.mp hsources
    cases hshas : d.shas with
    | none => exact ⟨rfl, hsources⟩
    | some text =>
      simp only [hbase, hshas, hshards, List.length_nil, if_true] at h
      cases h

section

variable [Unicode]

/-- Where the shas that a resumed run reads have their rows on disk, it is safe. -/
theorem safeResume_of_records (h : ∀ out done, d.done_shas out = .ok done →
    ∃ N, d.Good Facts.Named N ∧ d.Records k N) : SafeResume k d := by
  intro args r₀ hresume hlaunch
  obtain ⟨done, ids, hdone, hids, rfl⟩ := launch_eq_ok hlaunch
  unfold Args.done_shas at hdone
  rw [hresume, if_pos rfl] at hdone
  obtain ⟨N, hgood, hrec⟩ := h _ _ hdone
  have hP := closed_tame_dir k d
  obtain ⟨M, hinv, -⟩ := launch_inv_resume hP hresume hgood.tame hrec hlaunch
  refine ⟨fun u hu hskip => ?_, fun r f hreach hout => ?_⟩
  · have hsha : u.sha ∈ done := by
      by_contra hsha
      exact hskip (List.mem_filter.mpr ⟨hu, by simpa using hsha⟩)
    exact (Dir.keeps_iff_durable hgood).mpr ((done_shas_listed hrec hdone _ hsha).2 u hu rfl)
  · obtain ⟨L, -, hL, -⟩ := hreach.inv hP hinv
    obtain ⟨F, hF, htame, hcovers⟩ := hL.out f hout
    exact ⟨F, hF, fun u hu hok => ((hcovers u hu hok).hide varsOf_tame).shows htame.named hF⟩

theorem safeResume_of_none (hnone : d.shas = none ∨ d.sources = []) : SafeResume k d := by
  refine safeResume_of_records fun out done hdone => ?_
  obtain ⟨hshas, hsources⟩ := Dir.clean_of_done_shas hdone hnone
  refine ⟨fun _ => none, fun f hf => ?_, fun text htext => ?_⟩
  · rw [hsources] at hf
    cases hf
  · rw [hshas] at htext
    cases htext

/-- A resumed run is safe unless it finds a file and shas that speak of another. -/
theorem safeResume_iff (hgood : d.Good Facts.Named N)
    (hsmall : ∀ id p, N id = some p → id.toNat + 1 < 2 ^ 32)
    (hwords : ∀ text, d.shas = some text → ∃ shas, text = shasText shas ∧ ∀ s ∈ shas, IsWord s) :
    SafeResume k d ↔ d.shas = none ∨ d.sources = [] ∨
      ∀ text, d.shas = some text → ∀ u ∈ k.units, u.sha ∈ readShas text → d.Keeps k u := by
  constructor
  · intro hsafe
    by_contra hnot
    simp only [not_or, not_forall] at hnot
    obtain ⟨-, hsources, text, hshas, u, hu, hlisted, hgone⟩ := hnot
    have hunits : k.units ≠ [] := List.ne_nil_of_mem hu
    obtain ⟨ids, hids⟩ := seedSources_of_small (a := {}) fun f hf => by
      obtain ⟨F, hF, hnamed⟩ := hgood f hf
      exact ⟨F, hF, fun id p hp => hsmall id _ (hnamed.files id p hp)⟩
    have hlaunch : launch (oneWorker true) k d = .ok (startRun (oneWorker true) k d (readShas text) ids) := by
      unfold launch Args.done_shas Args.file_ids
      rw [if_neg hunits]
      have hresume : (oneWorker true).resume = true := rfl
      simp only [hresume, if_true, Dir.done_shas_of_sources hshas hsources, hids, Res.ok_bind]
      rfl
    refine hgone ((hsafe _ _ rfl hlaunch).1 u hu fun hmem => ?_)
    have hskip := (List.mem_filter.mp hmem).2
    simp [hlisted] at hskip
  · rintro (hshas | hsources | hkeeps)
    · exact safeResume_of_none (Or.inl hshas)
    · exact safeResume_of_none (Or.inr hsources)
    · refine safeResume_of_records fun _ _ _ => ⟨N, hgood, fun text htext => ?_⟩
      obtain ⟨shas, rfl, hword⟩ := hwords text htext
      have hlisted := hkeeps _ htext
      rw [readShas_shasText hword] at hlisted
      refine ⟨shas, rfl, fun s hs => ⟨hword s hs, fun u hu hsha => ?_⟩⟩
      exact (Dir.keeps_iff_durable hgood).mp (hlisted u hu (hsha ▸ hs))

/-! ## The directory after a promotion -/

variable {r r' r₀ : Run}

/-- A cached run records no shas. -/
structure Run.NoShas (r : Run) : Prop where
  cache : r.cache ≠ none
  snap : r.snap = .off
  shas : r.dir.shas = none

theorem Step.noShas (hst : Step r r') (h : r.NoShas) : r'.NoShas := by
  have hoff : ∀ {s : Snap}, r.snap = s → s = .off := fun hs => hs.symm.trans h.snap
  cases hst with
  | lock hc => exact absurd hc h.cache
  | snapshot hc => exact absurd hc h.cache
  | drain hsnap => cases hoff hsnap
  | pass hsnap => cases hoff hsnap
  | stage hsnap => cases hoff hsnap
  | finish hsnap => cases hoff hsnap
  | finishFailed hsnap => cases hoff hsnap
  | record hsnap => cases hoff hsnap
  | recordFailed hsnap => cases hoff hsnap
  | shard => exact ⟨Option.some_ne_none _, h.snap, h.shas⟩
  | begin | intern | skip | fold | push | hit | copyFailed | shardFailed | coalesce | promote =>
    exact ⟨h.cache, h.snap, h.shas⟩

theorem Reaches.noShas (hreach : Reaches r₀ r) (h : r₀.NoShas) : r.NoShas := by
  induction hreach with
  | refl => exact h
  | step _ hst ih => exact hst.noShas ih

theorem Promoted.dir (h : Promoted k d) : d.shas = none ∨ ∃ N, d.Good Facts.Named N ∧
    d.Records k N ∧ ∀ id p, N id = some p → id.toNat + 1 < 2 ^ 32 := by
  obtain ⟨args, d₀, r₀, r, f, ⟨N, hgood, hrec⟩, hmode, hlaunch, hreach, hout, rfl⟩ := h
  have hP := closed_tame_dir k d₀
  have finish : ∀ {N}, r₀.Inv k (Facts.Tame k.units (d₀.vars k)) N → r₀.dir.Records k N →
      ∃ N, r.dir.Good Facts.Named N ∧ r.dir.Records k N ∧
        ∀ id p, N id = some p → id.toNat + 1 < 2 ^ 32 := by
    intro N hN hrec
    obtain ⟨M, -, hM, hrec'⟩ := hreach.inv hP hN
    refine ⟨M, hM.dir.named, hrec' hrec, fun id p hp => ?_⟩
    have hbelow := hM.ids.below id p hp
    have hbound := hM.ids.bound
    omega
  cases hres : args.resume with
  | true =>
    obtain ⟨M, hM, hrec'⟩ := launch_inv_resume hP hres hgood.tame hrec hlaunch
    exact Or.inr (finish hM hrec')
  | false =>
    have hclean := hmode.resolve_left (by simp [hres])
    obtain ⟨done, ids, -, -, hstart⟩ := launch_eq_ok hlaunch
    have hdir : r₀.dir = d₀ := by rw [hstart]; rfl
    cases hcache : args.cache with
    | none =>
      obtain ⟨M, hM⟩ := launch_inv_fresh hP hres hcache hclean.sources hlaunch
      exact Or.inr (finish hM (hdir ▸ hclean.records))
    | some cache =>
      have hno : r₀.NoShas := by
        refine ⟨?_, ?_, hdir ▸ hclean.shas⟩
        · rw [hstart]
          unfold startRun
          rw [hres, hcache]
          exact Option.some_ne_none _
        · rw [hstart]
          rfl
      exact Or.inl (hreach.noShas hno).shas

/-- Wherever the cleanup is cut short, a later `--resume` is safe exactly when the shas went, or all
files did, or none that a sha needs. -/
theorem cleanup_crash_safe_iff (h : Promoted k d) (outcomes : List Bool) :
    SafeResume k (d.cleanup outcomes) ↔ d.Spared k outcomes := by
  rw [Dir.spared_iff]
  rcases h.dir with hshas | ⟨N, hgood, hrec, hsmall⟩
  · have hnone : (d.cleanup outcomes).shas = none := by
      rw [Dir.cleanup_shas, hshas, ite_self]
    exact iff_of_true (safeResume_of_none (Or.inl hnone)) (Or.inl hnone)
  · refine safeResume_iff (fun f hf => hgood f (Dir.sources_cleanup_subset hf)) hsmall fun text htext => ?_
    rw [Dir.cleanup_shas] at htext
    split_ifs at htext
    obtain ⟨shas, rfl, hlisted⟩ := hrec text htext
    exact ⟨shas, rfl, hlisted.words⟩

end

/-! An older version left a base with the first unit. The run over both units wrote a shard for the second
one and promoted its output. -/

section

attribute [local instance] asciiUnicode

def pairKzip : Kzip where
  units := [edgeUnit, emptyUnit]
  seed_paths := []
  shas_nodup := by
    change ["a", "b"].Nodup
    decide
  shas_word := by
    intro u hu
    rcases List.mem_pair.mp hu with rfl | rfl
    · exact isWord_letters.1
    · exact isWord_letters.2
  seed_sorted := nil_sorted

theorem based_consistent {f : Bytes} (hf : FileHolds f edgeUnit.tables.facts.written) :
    Dir.Consistent pairKzip { base := some f, shas := some (shasText ["a"]) } := by
  have hclosed := closed_known pairKzip.units
  have hmem : edgeUnit ∈ pairKzip.units := List.mem_cons_self
  have hnopaths : ∀ p ∈ edgeUnit.paths, (fun _ => none : Naming) ((fun _ => 0) p) = some (clamp_blob_str p) := by
    intro p hp
    cases hp
  have hknown := hclosed.unit (fun _ => none) edgeUnit hmem rfl (fun _ => 0) hnopaths
  have hcovers : (edgeUnit.builder fun _ => 0).facts.Covers pairKzip.units edgeUnit.tables.facts.vars edgeUnit
      fun _ => none := edgeUnit.builder_covers hnopaths
  rw [edgeUnit_sparse.builder_facts] at hknown hcovers
  refine ⟨fun _ => none, fun g hg => ?_, fun text htext => ?_⟩
  · obtain rfl := List.mem_singleton.mp hg
    exact ⟨_, hf, hknown.named.written⟩
  · cases htext
    refine ⟨["a"], rfl, List.forall_mem_singleton.mpr ⟨isWord_letters.1, fun u hu hsha => ?_⟩⟩
    obtain rfl := pairKzip.eq_of_sha hu hmem hsha
    have hwritten := hcovers.written hknown.short le_rfl
    rw [← Facts.vars_written] at hwritten
    exact ⟨f, List.mem_singleton.mpr rfl, _, hf, hwritten⟩

theorem pair_promoted : ∃ f g d, FileHolds f edgeUnit.tables.facts.written ∧
    FileHolds g emptyUnit.tables.facts.written ∧ Promoted pairKzip d ∧ d.base = some f ∧
    d.shards = (∅ : ExtTreeMap Nat Bytes).insert 0 g ∧
    ∃ text, d.shas = some text ∧ "a" ∈ readShas text := by
  obtain ⟨f, -, hf⟩ := IndexBuilder.finish_of_sparse edgeUnit_sparse.tables (by decide)
  generalize hd₀ : ({ base := some f, shas := some (shasText ["a"]) } : Dir) = d₀
  have hcons : d₀.Consistent pairKzip := hd₀ ▸ based_consistent hf
  have hsources : d₀.sources = [f] := by rw [← hd₀]; rfl
  have hdone : d₀.done_shas "out.s2db" = .ok ["a"] := by
    have hread : readShas (shasText ["a"]) = ["a"] :=
      readShas_shasText (List.forall_mem_singleton.mpr isWord_letters.1)
    have hshas : d₀.shas = some (shasText ["a"]) := by rw [← hd₀]
    rw [Dir.done_shas_of_sources hshas (by rw [hsources]; exact List.cons_ne_nil _ _), hread]
  have hresume : (oneWorker true).resume = true := rfl
  have hlaunch := launch_resume (k := pairKzip) (List.cons_ne_nil _ _) hresume hdone
    (by rw [hsources]; exact List.forall_mem_singleton.mpr ⟨_, hf, edgeUnit_sparse.tables.written.files⟩)
  have hcalm : (startRun (oneWorker true) pairKzip d₀ ["a"] {}).Calm { i := 0 } :=
    startRun_calm rfl (Or.inl rfl) unmarked_new
  have hplan : (startRun (oneWorker true) pairKzip d₀ ["a"] {}).plan = [emptyUnit] := by
    change [edgeUnit, emptyUnit].filter (fun u => u.sha ∉ ["a"]) = [emptyUnit]
    simp [edgeUnit, emptyUnit, smallUnit]
  have hunit := hcalm.unit (u := emptyUnit) (by rw [hplan]; rfl) emptyUnit_sparse
  have hsink : IndexBuilder.new.facts * (({ i := 0 } : Worker).after emptyUnit).sink.builder.facts =
      emptyUnit.tables.facts := by
    rw [Worker.after_facts emptyUnit_sparse, IndexBuilder.facts_new, one_mul, one_mul]
  obtain ⟨g, hsnap, hg⟩ := hcalm.afterUnit.snapshot hsink emptyUnit_sparse.tables (by decide)
  generalize hr : ((startRun (oneWorker true) pairKzip d₀ ["a"] {}).afterUnit { i := 0 } emptyUnit).afterSnapshot
    (({ i := 0 } : Worker).after emptyUnit) g = r at hsnap
  have hbase : r.dir.base = some f := by
    rw [← hr, ← hd₀]
    rfl
  have hshards : r.dir.shards = (∅ : ExtTreeMap Nat Bytes).insert 0 g := by
    rw [← hr, ← hd₀]
    rfl
  have hfiles : r.dir.sources = [f, g] := by
    unfold Dir.sources
    rw [hbase, list_partial_shards_single hshards]
    rfl
  have hrows : [edgeUnit.tables.facts.written, emptyUnit.tables.facts.written].prod *
      (r.acc.builder.facts * IndexBuilder.new.facts) =
      edgeUnit.tables.facts.written * emptyUnit.tables.facts.written := by
    have hacc : r.acc.builder = .new := by
      rw [← hr]
      rfl
    rw [hacc, IndexBuilder.facts_new, mul_one, mul_one, List.prod_cons, List.prod_singleton]
  have hcalm' : r.Calm { ({ i := 0 } : Worker).after emptyUnit with sink := {} } :=
    hr ▸ hcalm.afterUnit.afterSnapshot g
  have hlast : r.plan.length ≤ 1 := by
    rw [← hr]
    exact le_of_eq (congrArg List.length hplan)
  obtain ⟨out, hst, -⟩ := hcalm'.promote hlast (hfiles.symm ▸ .cons hf (.cons hg .nil)) hrows
    (edgeUnit_sparse.tables.written.mul emptyUnit_sparse.tables.written) (by decide)
  refine ⟨f, g, r.dir, hf, hg, ?_, hbase, hshards, shasText (["a", "b"].mergeSort
    fun s t => as_bytes s ≤ as_bytes t), ?_, ?_⟩
  · exact ⟨oneWorker true, d₀, _, _, out, hcons, Or.inl rfl, hlaunch, (hunit.trans hsnap).step hst, rfl, rfl⟩
  · rw [← hr]
    rfl
  · have hwords : ∀ s ∈ ["a", "b"].mergeSort fun s t => as_bytes s ≤ as_bytes t, IsWord s := by
      intro s hs
      rcases List.mem_pair.mp (List.mem_mergeSort.mp hs) with rfl | rfl
      · exact isWord_letters.1
      · exact isWord_letters.2
    rw [readShas_shasText hwords]
    exact List.mem_mergeSort.mpr List.mem_cons_self

/-- All of the cleanup goes through. -/
theorem cleanup_crash_safe_iff_pair :
    ∃ d, Promoted pairKzip d ∧
      (SafeResume pairKzip (d.cleanup [true, true, true]) ↔ d.Spared pairKzip [true, true, true]) := by
  obtain ⟨f, g, d, -, -, hd, -⟩ := pair_promoted
  exact ⟨d, hd, cleanup_crash_safe_iff hd _⟩

/-- The machine goes down after the base was removed: the next run takes the shard for a reason to trust
the shas, and skips the unit whose rows were in the base. -/
theorem cut_cleanup_loses_base :
    ¬ ∀ (k : Kzip) (d : Dir) (outcomes : List Bool), Promoted k d → SafeResume k (d.cleanup outcomes) := by
  intro hall
  obtain ⟨f, g, d, hf, hg, hd, hbase, hshards, text, hshas, hlisted⟩ := pair_promoted
  have hsafe := hall pairKzip d [true] hd
  have hzip : d.removals.zip [true] = [(.base, true)] := rfl
  have hsources : (d.cleanup [true]).sources = [g] := by
    have hdir : d.cleanup [true] = { d with base := none } := by
      unfold Dir.cleanup
      rw [hzip]
      rfl
    rw [hdir]
    unfold Dir.sources
    rw [list_partial_shards_single (d := { d with base := none }) hshards]
    rfl
  have hshas' : (d.cleanup [true]).shas = some text := by
    rw [Dir.cleanup_shas, if_neg, hshas]
    unfold Dir.Removed
    rw [hzip]
    decide
  have hne : (d.cleanup [true]).sources ≠ [] := by
    rw [hsources]
    exact List.cons_ne_nil _ _
  have hnofiles : ∀ f ∈ (d.cleanup [true]).sources, ∃ F, FileHolds f F ∧ ∀ id, F.files id = none := by
    rw [hsources]
    exact List.forall_mem_singleton.mpr ⟨_, hg, emptyUnit_sparse.tables.written.files⟩
  have hresume : (oneWorker true).resume = true := rfl
  have hlaunch := launch_resume (k := pairKzip) (List.cons_ne_nil _ _) hresume
    (Dir.done_shas_of_sources hshas' hne _) hnofiles
  have hskip : edgeUnit ∉ (startRun (oneWorker true) pairKzip (d.cleanup [true]) (readShas text) {}).plan := by
    intro hmem
    have hnot := (List.mem_filter.mp hmem).2
    have hsha : edgeUnit.sha ∈ readShas text := hlisted
    simp [hsha] at hnot
  obtain ⟨f', hf', F, hF, hshows⟩ := (hsafe _ _ rfl hlaunch).1 edgeUnit List.mem_cons_self hskip
  rw [hsources] at hf'
  obtain rfl := List.mem_singleton.mp hf'
  rw [hF.unique hg] at hshows
  cases hshows.inherits ⟨1, 2⟩ List.mem_cons_self

end

end Scry2
