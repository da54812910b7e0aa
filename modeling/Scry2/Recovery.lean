import Scry2.Sparse

/-!
# The output of a resumed run

The output does not depend on where the runs before it were cut, as far as the string blob keeps the
types and signatures whole.
-/

open Scry2.Lib
open Std (ExtTreeMap)

namespace Scry2

variable {k : Kzip} {N M : Naming}

/-! ## What the output says -/

/-- The xrefs with the paths that their file ids name. -/
def Facts.pathXrefs (F : Facts) : Set PathXref :=
  {x | ∃ id, ⟨x.sym, x.role, id, x.offset⟩ ∈ F.xrefs ∧ F.files id = some x.path}

/-- The rows of a unit as a file can show them: strings as the string blob keeps them, for each symbol
one entry, one type and one signature, the best, and maybe without the aliases of `hidden` symbols. -/
structure Facts.Shows (us : List KzipUnit) (hidden : Set UInt64) (u : KzipUnit) (F : Facts) : Prop where
  xrefs : ∀ x ∈ u.xrefs, { x with path := clamp_blob_str x.path } ∈ F.pathXrefs
  syms : ∀ s e, u.tables.syms[s]? = some e → ∃ m, F.syms s = some m ∧ m.Knows e
  files : ∀ p ∈ u.paths, ∃ id, F.files id = some (clamp_blob_str p)
  inherits : ∀ r ∈ u.tables.inherits, r ∈ F.inherits
  aliases : ∀ r ∈ u.tables.aliases, r.sym ∉ hidden → r.clamped ∈ F.aliases
  calls : ∀ r ∈ u.tables.calls, r ∈ F.calls
  typed : Keeps (Fits us IndexBuilder.typed) u.tables.typed F.typed
  childof : ∀ r ∈ u.tables.childof, r ∈ F.childof
  sig : Keeps (Fits us IndexBuilder.sig) u.tables.sig F.sig

theorem Facts.Covers.shows {us : List KzipUnit} {hidden : Set UInt64} {F : Facts} {u : KzipUnit} {f : Bytes}
    (h : F.Covers us hidden u N) (hn : F.Named N) (hf : FileHolds f F) : F.Shows us hidden u where
  xrefs x hx := by
    obtain ⟨id, hid, hr⟩ := h.xrefs x hx
    obtain ⟨p, hp⟩ := hn.xrefs _ hr
    refine ⟨id, hr, hp.trans ?_⟩
    rw [← hid, hn.files id p hp, clamp_of_len_le (hf.short.files id p hp)]
  syms := h.syms
  files p hp := by
    obtain ⟨id, q, hid, hq⟩ := h.files p hp
    refine ⟨id, hq.trans ?_⟩
    rw [← hid, hn.files id q hq, clamp_of_len_le (hf.short.files id q hq)]
  inherits := h.inherits
  aliases r hr hnot := by
    obtain ⟨q, hq, he⟩ := h.aliases r hr hnot
    rwa [← he, Facts.StrRow.clamped_of_short (hf.short.aliases q hq)]
  calls := h.calls
  typed := h.typed
  childof := h.childof
  sig := h.sig

/-- Both keep a string for the same symbols, each a string of the units as the blob keeps it, and the
same one where all strings of the symbol fit the blob. -/
structure SameTexts (us : List KzipUnit) (rows : IndexBuilder → List StrRow) (f g : UInt64 → Option String) :
    Prop where
  isSome : ∀ s, (f s).isSome = (g s).isSome
  cut : ∀ s t, f s = some t ∨ g s = some t → ∃ u ∈ us, u.succeeded ∧ ∃ r ∈ rows u.tables,
    r.sym = s ∧ t = clamp_blob_str r.text
  fit : ∀ s, Fits us rows s → f s = g s

section

variable {us : List KzipUnit} {rows : IndexBuilder → List StrRow} {f g : UInt64 → Option String}

theorem TextsFrom.cut (hf : TextsFrom us rows f) (hshort : ∀ s t, f s = some t → len t ≤ u16Max) {s : UInt64}
    {t : String} (ht : f s = some t) : ∃ u ∈ us, u.succeeded ∧ ∃ r ∈ rows u.tables,
      r.sym = s ∧ t = clamp_blob_str r.text := by
  obtain ⟨u, hu, hok, r, hr, hs, e⟩ := hf s t ht
  refine ⟨u, hu, hok, r, hr, hs, ?_⟩
  rcases e with rfl | e
  · exact (clamp_of_len_le (hshort s _ ht)).symm
  · exact e

theorem TextsFrom.isSome_of_keeps {fits : UInt64 → Prop} (hf : TextsFrom us rows f)
    (kg : ∀ u ∈ us, u.succeeded = true → Keeps fits (rows u.tables) g) {s : UInt64} (h : (f s).isSome) :
    (g s).isSome := by
  obtain ⟨t, ht⟩ := Option.isSome_iff_exists.mp h
  obtain ⟨u, hu, hok, r, hr, rfl, -⟩ := hf s t ht
  obtain ⟨t', ht', -⟩ := kg u hu hok r hr
  exact Option.isSome_iff_exists.mpr ⟨t', ht'⟩

/-- A string that fits is not worse than the one the other keeps. -/
theorem TextsFrom.rank_le (hf : TextsFrom us rows f)
    (kg : ∀ u ∈ us, u.succeeded = true → Keeps (Fits us rows) (rows u.tables) g) {s : UInt64}
    (hfit : Fits us rows s) {t t' : String} (ht : f s = some t) (ht' : g s = some t') :
    textRank t ≤ textRank t' := by
  obtain ⟨u, hu, hok, r, hr, rfl, e⟩ := hf s t ht
  rw [clamp_of_len_le (hfit u hu hok r hr rfl), or_self] at e
  obtain ⟨t'', ht'', hle⟩ := kg u hu hok r hr
  cases ht'.symm.trans ht''
  exact e ▸ hle hfit

theorem sameTexts (hf : TextsFrom us rows f) (hg : TextsFrom us rows g)
    (kf : ∀ u ∈ us, u.succeeded = true → Keeps (Fits us rows) (rows u.tables) f)
    (kg : ∀ u ∈ us, u.succeeded = true → Keeps (Fits us rows) (rows u.tables) g)
    (sf : ∀ s t, f s = some t → len t ≤ u16Max) (sg : ∀ s t, g s = some t → len t ≤ u16Max) :
    SameTexts us rows f g where
  isSome s := by
    rw [Bool.eq_iff_iff]
    exact ⟨hf.isSome_of_keeps kg, hg.isSome_of_keeps kf⟩
  cut s t h := h.elim (hf.cut sf) (hg.cut sg)
  fit s hfit := by
    cases hfs : f s with
    | none =>
      cases hgs : g s with
      | none => rfl
      | some t =>
        have hsome := hg.isSome_of_keeps kf (s := s) (by rw [hgs]; rfl)
        rw [hfs] at hsome
        cases hsome
    | some t =>
      have hsome := hf.isSome_of_keeps kg (s := s) (by rw [hfs]; rfl)
      obtain ⟨t', ht'⟩ := Option.isSome_iff_exists.mp hsome
      have he : t = t' := textRank_injective
        (le_antisymm (hf.rank_le kg hfit hfs ht') (hg.rank_le kf hfit ht' hfs))
      rw [ht', he]

end

/-- The tables of two files that the runs of a kzip leave say the same. -/
structure SameOutput (us : List KzipUnit) (F G : Facts) : Prop where
  xrefs : F.pathXrefs = G.pathXrefs
  inherits : F.inherits = G.inherits
  calls : F.calls = G.calls
  childof : F.childof = G.childof
  typed : SameTexts us IndexBuilder.typed F.typed G.typed
  sig : SameTexts us IndexBuilder.sig F.sig G.sig

/-- Two files with all rows of the units and no others say the same. -/
theorem Complete.same {f g : Bytes} (hf : Complete k (Facts.Known k.units) N f)
    (hg : Complete k (Facts.Known k.units) M g) :
    ∃ F G, FileHolds f F ∧ FileHolds g G ∧ SameOutput k.units F G := by
  obtain ⟨F, hF, kF, cF⟩ := hf
  obtain ⟨G, hG, kG, cG⟩ := hg
  have sub : ∀ {A B : Facts} {f g : Bytes} {N M : Naming}, FileHolds f A → FileHolds g B →
      A.Known k.units N → B.Known k.units M →
      (∀ u ∈ k.units, u.succeeded = true → B.Covers k.units (varsOf (Facts.Known k.units)) u M) →
      A.pathXrefs ⊆ B.pathXrefs ∧ A.inherits ⊆ B.inherits ∧ A.calls ⊆ B.calls ∧
        A.childof ⊆ B.childof := by
    intro A B f g N M hA hB kA kB cB
    refine ⟨?_, ?_, ?_, ?_⟩
    · rintro x ⟨id, hx, hp⟩
      obtain ⟨u, hu, hok, y, hy, h1, h2, h3, h4⟩ := kA.origin.xrefs _ hx
      have hN := kA.named.files id x.path hp
      rw [clamp_of_len_le (hA.short.files id x.path hp)] at hN
      have hpath : x.path = clamp_blob_str y.path := Option.some.inj (hN.symm.trans h4)
      have hxy : x = { y with path := clamp_blob_str y.path } := by
        cases x
        simp only at h1 h2 h3 hpath
        rw [h1, h2, h3, hpath]
      rw [hxy]
      exact ((cB u hu hok).shows kB.named hB).xrefs y hy
    · intro r hr
      obtain ⟨u, hu, hok, h⟩ := kA.origin.inherits r hr
      exact (cB u hu hok).inherits r h
    · intro r hr
      obtain ⟨u, hu, hok, h⟩ := kA.origin.calls r hr
      exact (cB u hu hok).calls r h
    · intro r hr
      obtain ⟨u, hu, hok, h⟩ := kA.origin.childof r hr
      exact (cB u hu hok).childof r h
  obtain ⟨x1, i1, c1, o1⟩ := sub hF hG kF kG cG
  obtain ⟨x2, i2, c2, o2⟩ := sub hG hF kG kF cF
  refine ⟨F, G, hF, hG, x1.antisymm x2, i1.antisymm i2, c1.antisymm c2, o1.antisymm o2, ?_, ?_⟩
  · exact sameTexts kF.origin.typed kG.origin.typed (fun u hu hok => (cF u hu hok).typed)
      (fun u hu hok => (cG u hu hok).typed) hF.short.typed hG.short.typed
  · exact sameTexts kF.origin.sig kG.origin.sig (fun u hu hok => (cF u hu hok).sig)
      (fun u hu hok => (cG u hu hok).sig) hF.short.sig hG.short.sig

/-- A run from a clean directory to its end. -/
def Uninterrupted [Unicode] (k : Kzip) (r : Run) : Prop :=
  ∃ args d r₀, d.Clean ∧ args.cache = none ∧ args.resume = false ∧ launch args k d = .ok r₀ ∧ Reaches r₀ r

theorem Uninterrupted.reached [Unicode] {r : Run} (h : Uninterrupted k r) : Reached k (.up r) := by
  obtain ⟨args, d, r₀, hclean, hcache, -, hr, hreach⟩ := h
  induction hreach with
  | refl => exact .launch (.clean hclean) hcache (Or.inr hclean) hr
  | step _ hst ih => exact .step ih hst

/-- Every sha in a durable `.partial.shas` has its rows in one of the files, and the output of the
last run is that of a run nobody killed. -/
theorem snapshot_resume_keeps_units [Unicode] (k : Kzip) :
    (∀ m, Reached k m → ∀ text, m.dir.shas = some text → ∀ u ∈ k.units, u.sha ∈ readShas text →
      ∃ f ∈ m.dir.sources, ∃ F, FileHolds f F ∧ F.Shows k.units F.vars u) ∧
    ∀ r s f g, Reached k (.up r) → r.out = some f → Uninterrupted k s → s.out = some g →
      ∃ F G, FileHolds f F ∧ FileHolds g G ∧ SameOutput k.units F G := by
  have hP := closed_known k.units
  constructor
  · intro m hm text htext u hu hmem
    obtain ⟨N, hinv⟩ := hm.inv hP
    have hgood : m.dir.Good (Facts.Known k.units) N ∧ m.dir.Records k N := by
      cases m with
      | down d => exact hinv
      | up r => exact ⟨hinv.1.dir, hinv.2⟩
    obtain ⟨shas, rfl, hshas⟩ := hgood.2 text htext
    rw [readShas_shasText hshas.words] at hmem
    obtain ⟨f, hf, F, hF, hcov⟩ := (hshas _ hmem).2 u hu rfl
    obtain ⟨G, hG, hPG⟩ := hgood.1 f hf
    rw [← hF.unique hG] at hPG
    exact ⟨f, hf, F, hF, hcov.shows hPG.named hF⟩
  · intro r s f g hr hf hs hg
    obtain ⟨N, hN, -⟩ := hr.inv hP
    obtain ⟨M, hM, -⟩ := hs.reached.inv hP
    exact (hN.out f hf).same (hM.out g hg)

/-! ## Two units with a type of one symbol -/

theorem Reaches.reached [Unicode] {r s : Run} (h : Reaches r s) (hr : Reached k (.up r)) :
    Reached k (.up s) := by
  induction h with
  | refl => exact hr
  | step _ hst ih => exact .step ih hst

/-- A run of one worker without cache. -/
def oneWorker (resume : Bool) : Args where
  out := "out.s2db"
  resume := resume
  workers := 1
  cache := none
  workers_pos := Nat.one_pos

section

attribute [local instance] asciiUnicode

variable {s t : String} (hs : s ≠ "") (ht : t ≠ "")

def unitA : KzipUnit := smallUnit "a" [⟨1, 2⟩] [⟨7, s⟩] (by simpa using hs)

def unitB : KzipUnit := smallUnit "b" [⟨3, 4⟩] [⟨7, t⟩] (by simpa using ht)

def typedKzip : Kzip where
  units := [unitA hs, unitB ht]
  seed_paths := []
  shas_nodup := by
    change ["a", "b"].Nodup
    decide
  shas_word := by
    intro u hu
    rcases List.mem_pair.mp hu with rfl | rfl
    · exact isWord_letters.1
    · exact isWord_letters.2
  seed_sorted := nil_sorted

theorem unitA_sparse : (unitA hs).Sparse 2 := smallUnit_sparse "a" [⟨1, 2⟩] [⟨7, s⟩] _

theorem unitB_sparse : (unitB ht).Sparse 2 := smallUnit_sparse "b" [⟨3, 4⟩] [⟨7, t⟩] _

/-- The state in which a run over both units starts. -/
abbrev typedStart : Run := startRun (oneWorker false) (typedKzip hs ht) {} [] {}

theorem typedStart_calm : (typedStart hs ht).Calm { i := 0 } := startRun_calm rfl (Or.inr rfl) unmarked_new

theorem typed_launch : launch (oneWorker false) (typedKzip hs ht) {} = .ok (typedStart hs ht) :=
  launch_fresh (List.cons_ne_nil _ _) rfl rfl

/-- Nobody kills the run: the two types meet whole. -/
theorem typed_uninterrupted : ∃ r f F, Uninterrupted (typedKzip hs ht) r ∧ r.out = some f ∧ FileHolds f F ∧
    F.typed 7 = some (clamp_blob_str (pickText s t)) := by
  have hA := (typedStart_calm hs ht).unit (u := unitA hs) rfl (unitA_sparse hs)
  have hcalmA := (typedStart_calm hs ht).afterUnit (u := unitA hs)
  have hB := hcalmA.unit (u := unitB ht) rfl (unitB_sparse ht)
  have hcalm := hcalmA.afterUnit (u := unitB ht)
  have hrows : ([] : List Facts).prod * (IndexBuilder.new.facts *
      ((({ i := 0 } : Worker).after (unitA hs)).after (unitB ht)).sink.builder.facts) =
      (unitA hs).tables.facts * (unitB ht).tables.facts := by
    rw [List.prod_nil, IndexBuilder.facts_new, one_mul, one_mul, Worker.after_facts (unitB_sparse ht),
      Worker.after_facts (unitA_sparse hs), IndexBuilder.facts_new, one_mul]
  obtain ⟨f, hst, hf⟩ := hcalm.promote le_rfl .nil hrows
    ((unitA_sparse hs).tables.mul (unitB_sparse ht).tables) (by decide)
  refine ⟨_, f, _, ⟨oneWorker false, {}, typedStart hs ht, ⟨rfl, rfl, rfl⟩, rfl, rfl, typed_launch hs ht,
    (hA.trans hB).step hst⟩, rfl, hf, ?_⟩
  change (combine pickText (some s) (some t)).map clamp_blob_str = _
  rw [combine_some, Option.map_some]

/-- A run is killed after a snapshot of the first unit. -/
theorem typed_killed : ∃ d g, Reached (typedKzip hs ht) (.down d) ∧ d.base = none ∧
    d.shas = some (shasText ["a"]) ∧ d.list_partial_shards = [g] ∧ FileHolds g (unitA hs).tables.facts.written := by
  have hA := (typedStart_calm hs ht).unit (u := unitA hs) rfl (unitA_sparse hs)
  have hcalmA := (typedStart_calm hs ht).afterUnit (u := unitA hs)
  have hrows : IndexBuilder.new.facts * (({ i := 0 } : Worker).after (unitA hs)).sink.builder.facts =
      (unitA hs).tables.facts := by
    rw [Worker.after_facts (unitA_sparse hs), IndexBuilder.facts_new, one_mul, one_mul]
  obtain ⟨g, hsnap, hg⟩ := hcalmA.snapshot hrows (unitA_sparse hs).tables (by decide)
  have hclean : ({} : Dir).Clean := ⟨rfl, rfl, rfl⟩
  have hstart := Reached.launch (.clean hclean) rfl (Or.inr hclean) (typed_launch hs ht)
  have hsort : (["a"] : List String).mergeSort (fun s t => as_bytes s ≤ as_bytes t) = ["a"] :=
    List.mergeSort_singleton "a"
  refine ⟨_, g, .crash ((hA.trans hsnap).reached hstart) rfl, rfl, ?_, list_partial_shards_single rfl, hg⟩
  rw [← hsort]
  rfl

/-- A run resumes it: the type was cut before it meets the other. -/
theorem typed_resumed : ∃ r f F, Reached (typedKzip hs ht) (.up r) ∧ r.out = some f ∧ FileHolds f F ∧
    F.typed 7 = some (clamp_blob_str (pickText (clamp_blob_str s) t)) := by
  obtain ⟨d, g, hdown, hbase, hshas, hshards, hg⟩ := typed_killed hs ht
  have hsources : d.sources = [g] := by
    unfold Dir.sources
    rw [hbase, hshards]
    rfl
  have hdone : d.done_shas "out.s2db" = .ok ["a"] := by
    have hread : readShas (shasText ["a"]) = ["a"] :=
      readShas_shasText (List.forall_mem_singleton.mpr isWord_letters.1)
    unfold Dir.done_shas
    simp only [hshas, hbase, hshards, hread]
    rfl
  have hnofiles : ∀ f ∈ d.sources, ∃ F, FileHolds f F ∧ ∀ id, F.files id = none := by
    rw [hsources]
    exact List.forall_mem_singleton.mpr ⟨_, hg, (unitA_sparse hs).tables.written.files⟩
  have hunits : (typedKzip hs ht).units ≠ [] := List.cons_ne_nil _ _
  have hresume : (oneWorker true).resume = true := rfl
  have hlaunch := launch_resume hunits hresume hdone hnofiles
  have hcalm : (startRun (oneWorker true) (typedKzip hs ht) d ["a"] {}).Calm { i := 0 } :=
    startRun_calm rfl (Or.inl rfl) unmarked_new
  have hplan : (startRun (oneWorker true) (typedKzip hs ht) d ["a"] {}).plan = [unitB ht] := by
    change [unitA hs, unitB ht].filter (fun u => u.sha ∉ ["a"]) = [unitB ht]
    simp [unitA, unitB, smallUnit]
  have hB := hcalm.unit (u := unitB ht) (by rw [hplan]; rfl) (unitB_sparse ht)
  have hrows : [(unitA hs).tables.facts.written].prod * (IndexBuilder.new.facts *
      (({ i := 0 } : Worker).after (unitB ht)).sink.builder.facts) =
      (unitA hs).tables.facts.written * (unitB ht).tables.facts := by
    rw [Worker.after_facts (unitB_sparse ht), IndexBuilder.facts_new, one_mul, one_mul, List.prod_singleton]
  obtain ⟨f, hst, hf⟩ := (hcalm.afterUnit (u := unitB ht)).promote (le_of_eq (congrArg List.length hplan))
    (hsources.symm ▸ .cons hg .nil) hrows ((unitA_sparse hs).tables.written.mul (unitB_sparse ht).tables) (by decide)
  refine ⟨_, f, _, .step (hB.reached (.launch hdown rfl (Or.inl rfl) hlaunch)) hst, rfl, hf, ?_⟩
  change (combine pickText (some (clamp_blob_str s)) (some t)).map clamp_blob_str = _
  rw [combine_some, Option.map_some]

/-- Types that fit: the killed run has the unit on disk, and in the end the kill does not show. -/
theorem snapshot_resume_keeps_units_shortTypes : ∃ (k : Kzip) (u : KzipUnit), u ∈ k.units ∧
    (∃ d, Reached k (.down d) ∧ ∃ text, d.shas = some text ∧ u.sha ∈ readShas text ∧
      ∃ f ∈ d.sources, ∃ F, FileHolds f F ∧ F.Shows k.units F.vars u) ∧
    ∃ r s f g, Reached k (.up r) ∧ r.out = some f ∧ Uninterrupted k s ∧ s.out = some g ∧
      ∃ F G, FileHolds f F ∧ FileHolds g G ∧ SameOutput k.units F G ∧ F.typed 7 = some "int" := by
  have hint : "int" ≠ "" := by decide
  have hlong : "long" ≠ "" := by decide
  have hkeeps := snapshot_resume_keeps_units (typedKzip hint hlong)
  obtain ⟨d, -, hdown, -, hshas, -⟩ := typed_killed hint hlong
  obtain ⟨r, f, F, hr, hf, hF, htyped⟩ := typed_resumed hint hlong
  obtain ⟨s, g, -, hs, hg, -⟩ := typed_uninterrupted hint hlong
  have hlisted : "a" ∈ readShas (shasText ["a"]) := by
    rw [readShas_shasText (List.forall_mem_singleton.mpr isWord_letters.1)]
    exact List.mem_singleton_self _
  refine ⟨_, unitA hint, List.mem_cons_self, ⟨d, hdown, _, hshas, hlisted, ?_⟩, r, s, f, g, hr, hf, hs, hg, ?_⟩
  · exact hkeeps.1 _ hdown _ hshas _ List.mem_cons_self hlisted
  · obtain ⟨F', G, hF', hG, hsame⟩ := hkeeps.2 r s f g hr hf hs hg
    refine ⟨F', G, hF', hG, hsame, ?_⟩
    rw [hF'.unique hF, htyped]
    decide +kernel

end

/-! ## Strings that the blob cuts -/

/-- One byte short of what the blob takes. -/
def wide : String := String.ofList (List.replicate 65534 'a')

/-- The last character does not fit, and is cut as a whole. -/
def wideE : String := wide ++ "é"

/-- The first of the two last characters still fits. -/
def wideZ : String := wide ++ "zz"

theorem len_wide : len wide = 65534 := by
  have ha : String.utf8EncodeChar 'a' = [0x61] := utf8EncodeChar_ascii (by decide)
  have hlen : ∀ n, ((List.replicate n 'a').flatMap String.utf8EncodeChar).length = n := by
    intro n
    induction n with
    | zero => rfl
    | succ n ih => rw [List.replicate_succ, List.flatMap_cons, List.length_append, ih, ha, List.length_singleton,
        Nat.add_comm]
  unfold len wide
  rw [as_bytes_ofList]
  exact hlen 65534

theorem clamp_wideZ : clamp_blob_str wideZ = wide ++ "z" := by
  have hz : len "z" = 1 := by decide +kernel
  have hs : len (wide ++ "z") = 65535 := by rw [len_append, len_wide, hz]
  have he : wideZ = wide ++ "z" ++ "z" := by
    rw [String.append_assoc]
    rfl
  rw [he]
  refine clamp_append (by rw [hs]; exact le_rfl) ?_ ?_
  · rw [len_append, hs, hz]
    unfold u16Max
    omega
  · intro e hlt hle
    rw [hs] at hlt
    unfold u16Max at hle
    omega

theorem clamp_wideE : clamp_blob_str wideE = wide := by
  have hacute : len "é" = 2 := by decide +kernel
  refine clamp_append (by rw [len_wide]; decide) ?_ ?_
  · rw [len_append, len_wide, hacute]
    decide
  · intro e hlt hle hv
    rw [len_wide] at hlt
    unfold u16Max at hle
    obtain ⟨s, t, hst, hs⟩ := String.Pos.Raw.isValid_iff_exists_append.mp hv
    have hlen : len s = e := by
      rw [len_eq_utf8ByteSize]
      simpa [String.Pos.Raw.ext_iff] using hs.symm
    have hlist := congrArg String.toList hst
    rw [String.toList_append, String.toList_append] at hlist
    -- A part of the string ends with `wide`, before its end or after the last character.
    rcases List.append_eq_append_iff.mp hlist with ⟨m, hm, hrest⟩ | ⟨m, hm, -⟩
    · have hsm : s = wide ++ String.ofList m := by
        apply String.toList_inj.mp
        rw [hm, String.toList_append, String.toList_ofList]
      have hone : m = [] ∨ m = ['é'] := by
        have hp : m <+: ['é'] := ⟨t.toList, hrest.symm⟩
        simpa [List.prefix_cons_iff] using hp
      rw [hsm, len_append, len_wide] at hlen
      rcases hone with rfl | rfl
      · have h0 : len (String.ofList []) = 0 := by decide +kernel
        omega
      · have h2 : len (String.ofList ['é']) = 2 := by decide +kernel
        omega
    · have hsm : wide = s ++ String.ofList m := by
        apply String.toList_inj.mp
        rw [hm, String.toList_append, String.toList_ofList]
      have hw := len_wide
      rw [hsm, len_append] at hw
      omega

theorem wide_ne : wide ≠ "" := by
  intro h
  have hl := len_wide
  rw [h] at hl
  cases hl

theorem wideE_ne : wideE ≠ "" := by
  intro h
  have hl := congrArg len h
  rw [wideE, len_append, len_wide] at hl
  have h0 : len "" = 0 := rfl
  omega

theorem wideZ_ne : wideZ ≠ "" := by
  intro h
  have hl := congrArg len h
  rw [wideZ, len_append, len_wide] at hl
  have h0 : len "" = 0 := rfl
  omega

/-- Whole, the type with `zz` is the smaller one; cut, the other is. -/
theorem pickText_wide : pickText wideE wideZ = wideZ ∧ pickText wide wideZ = wide := by
  have hE : ¬ as_bytes wideE ≤ as_bytes wideZ := by
    rw [not_le, wideE, wideZ, as_bytes_append, as_bytes_append, append_lt_append_iff rfl]
    exact Or.inr ⟨rfl, by decide +kernel⟩
  have hW : as_bytes wide ≤ as_bytes wideZ := by
    apply le_of_lt
    rw [← List.append_nil (as_bytes wide), wideZ, as_bytes_append, append_lt_append_iff rfl]
    exact Or.inr ⟨rfl, by decide +kernel⟩
  unfold pickText
  simp [wide_ne, wideE_ne, wideZ_ne, hE, hW]

section

attribute [local instance] asciiUnicode

/-- Whether a run was killed shows in the output when a type is too long for the blob. -/
theorem cut_types_depend_on_crash :
    ¬ ∀ (k : Kzip) (r s : Run) (f g : Bytes), Reached k (.up r) → r.out = some f → Uninterrupted k s →
      s.out = some g → ∃ F G, FileHolds f F ∧ FileHolds g G ∧ F.typed = G.typed := by
  intro hall
  obtain ⟨r, f, F, hr, hout, hF, hcut⟩ := typed_resumed wideE_ne wideZ_ne
  obtain ⟨s, g, G, hs, hout', hG, hwhole⟩ := typed_uninterrupted wideE_ne wideZ_ne
  obtain ⟨F', G', hF', hG', htyped⟩ := hall _ r s f g hr hout hs hout'
  rw [hF'.unique hF, hG'.unique hG] at htyped
  rw [clamp_wideE, pickText_wide.2, clamp_of_len_le (by rw [len_wide]; decide)] at hcut
  rw [pickText_wide.1, clamp_wideZ] at hwhole
  rw [htyped, hwhole] at hcut
  have hlen := congrArg (Option.map len) hcut
  have hone : len "z" = 1 := by decide +kernel
  simp only [Option.map_some, len_append, len_wide, hone, Option.some.injEq] at hlen
  omega

end

end Scry2
