import Scry2.Proto
import Scry2.Lib.Sorted

/-!
# The key of a cached shard

`cu_content_digest` of `cache.rs` hashes a length-prefixed encoding of some fields of a unit. The
unit that reaches the indexer is the one that `extract_with` writes, after the flags in
`STRIP_FLAG_PREFIXES` are dropped and the `--inject-cu-arg` rules have been applied.
-/

open Scry2.Lib

namespace Scry2

/-! ## The bytes that are hashed -/

def INGEST_SCHEMA_VERSION : Nat := 2

def add_u64 (v : Nat) : Bytes := leBytes 8 v

def add_str (s : Bytes) : Bytes := add_u64 s.length ++ s

/-- The pairs of path and digest of the required inputs, as the `BTreeSet` iterates over them. -/
def digestInputs (cu : CompilationUnit) : List (Bytes ×ₗ Bytes) :=
  sortDedup (cu.required_input.map fun ri => toLex (as_bytes ri.v_name.path, as_bytes ri.info.digest))

/-- What `cu_content_digest` feeds to the hash. -/
def digestPreimage (cu : CompilationUnit) (indexer_tag : String) : Bytes :=
  add_u64 INGEST_SCHEMA_VERSION ++ (add_str (as_bytes indexer_tag) ++ (add_str (as_bytes cu.v_name.language) ++
    (add_u64 cu.argument.length ++ ((cu.argument.map as_bytes).flatMap add_str ++
      (add_u64 (digestInputs cu).length ++
        (digestInputs cu).flatMap fun p => add_str (ofLex p).1 ++ add_str (ofLex p).2)))))

/-! ## The unit that is indexed -/

def STRIP_FLAG_PREFIXES : List String :=
  ["-fprofile-sample-use", "-fprofile-use", "-fprofile-instr-use", "-fprofile-list",
    "-fprofile-remapping-file", "-fsanitize-coverage-allowlist", "-fsanitize-coverage-ignorelist",
    "-fsanitize-ignorelist", "-fsanitize-blacklist", "-fxray-attr-list", "-fxray-always-instrument",
    "-fxray-never-instrument"]

structure InjectRule where
  path_prefix : String
  arg : String

def starts_with (s pre : String) : Bool := as_bytes pre <+: as_bytes s

/-- `argument.retain(..)`. -/
def keptArgs (cu : CompilationUnit) : List String :=
  cu.argument.filter fun a => !STRIP_FLAG_PREFIXES.any (starts_with a)

/-- The arguments of the rules whose prefix the primary path has. -/
def matchingArgs (rules : List InjectRule) (cu : CompilationUnit) : List String :=
  (rules.filter fun r => starts_with ((cu_primary_path cu).getD "") r.path_prefix).map (·.arg)

/-- `for &a in matching.iter().rev()`: an argument that is not there yet goes to the front. -/
def injectArgs (args : List String) (matching : List String) : List String :=
  matching.foldr (fun a args => if a ∈ args then args else a :: args) args

/-- The closure handed to `extract_with`. -/
def transform (rules : List InjectRule) (cu : CompilationUnit) : CompilationUnit :=
  { cu with argument := injectArgs (keptArgs cu) (matchingArgs rules cu) }

/-! ## Equal preimages -/

theorem append_add_u64_inj {m n : Nat} {x y : Bytes} (hm : m < 2 ^ 64) (hn : n < 2 ^ 64)
    (h : add_u64 m ++ x = add_u64 n ++ y) : m = n ∧ x = y := by
  obtain ⟨h8, hrest⟩ := List.append_inj h (by simp [add_u64])
  have hval := congrArg ofLe h8
  rw [add_u64, add_u64, ofLe_leBytes (by simpa using hm), ofLe_leBytes (by simpa using hn)] at hval
  exact ⟨hval, hrest⟩

theorem append_add_str_inj {s t x y : Bytes} (hlen : (add_str s ++ x).length < 2 ^ 64)
    (h : add_str s ++ x = add_str t ++ y) : s = t ∧ x = y := by
  have hlen' := h ▸ hlen
  simp only [add_str, List.append_assoc, List.length_append] at h hlen hlen'
  obtain ⟨hst, hrest⟩ := append_add_u64_inj (by omega) (by omega) h
  exact List.append_inj hrest hst

section Items
variable {α : Type} {enc : α → Bytes}

theorem length_le_flatMap (h : ∀ a, 0 < (enc a).length) (as : List α) :
    as.length ≤ (as.flatMap enc).length := by
  induction as with
  | nil => exact Nat.zero_le _
  | cons a as ih =>
    have ha := h a
    rw [List.flatMap_cons, List.length_append, List.length_cons]
    omega

/-- A counted list of self-delimiting items is self-delimiting. -/
theorem append_items_inj (hpos : ∀ a, 0 < (enc a).length)
    (henc : ∀ {a b : α} {x y : Bytes}, (enc a ++ x).length < 2 ^ 64 → enc a ++ x = enc b ++ y →
      a = b ∧ x = y) {as bs : List α} {x y : Bytes}
    (hlen : (add_u64 as.length ++ (as.flatMap enc ++ x)).length < 2 ^ 64)
    (h : add_u64 as.length ++ (as.flatMap enc ++ x) = add_u64 bs.length ++ (bs.flatMap enc ++ y)) :
    as = bs ∧ x = y := by
  have hcount : as.length = bs.length ∧ as.flatMap enc ++ x = bs.flatMap enc ++ y := by
    have ha := length_le_flatMap hpos as
    have hb := length_le_flatMap hpos bs
    have hlen' := h ▸ hlen
    simp only [List.length_append] at hlen hlen'
    exact append_add_u64_inj (by omega) (by omega) h
  obtain ⟨hn, hitems⟩ := hcount
  rw [List.length_append] at hlen
  have hbody : (as.flatMap enc ++ x).length < 2 ^ 64 := by omega
  clear h hlen
  induction as generalizing bs with
  | nil =>
    obtain rfl : bs = [] := List.eq_nil_of_length_eq_zero hn.symm
    exact ⟨rfl, hitems⟩
  | cons a as ih =>
    cases bs with
    | nil => simp at hn
    | cons b bs =>
      simp only [List.flatMap_cons, List.append_assoc] at hitems hbody
      obtain ⟨rfl, hrest⟩ := henc hbody hitems
      rw [List.length_append] at hbody
      obtain ⟨rfl, hxy⟩ := ih (by simpa using hn) hrest (by omega)
      exact ⟨rfl, hxy⟩

end Items

theorem add_str_length (s : Bytes) : (add_str s).length = s.length + 8 := by
  simp [add_str, add_u64, Nat.add_comm]

theorem append_pair_inj {p q : Bytes ×ₗ Bytes} {x y : Bytes}
    (hlen : (add_str (ofLex p).1 ++ add_str (ofLex p).2 ++ x).length < 2 ^ 64)
    (h : add_str (ofLex p).1 ++ add_str (ofLex p).2 ++ x = add_str (ofLex q).1 ++ add_str (ofLex q).2 ++ y) :
    p = q ∧ x = y := by
  rw [List.append_assoc, List.append_assoc] at h
  rw [List.append_assoc] at hlen
  obtain ⟨h1, hrest⟩ := append_add_str_inj hlen h
  rw [List.length_append] at hlen
  obtain ⟨h2, hxy⟩ := append_add_str_inj (by omega) hrest
  exact ⟨ofLex_inj.mp (Prod.ext h1 h2), hxy⟩

theorem digestPreimage_inj {c d : CompilationUnit} {t u : String}
    (hlen : (digestPreimage c t).length < 2 ^ 64) (h : digestPreimage c t = digestPreimage d u) :
    t = u ∧ c.v_name.language = d.v_name.language ∧ c.argument = d.argument ∧
      digestInputs c = digestInputs d := by
  have hdrop : ∀ {x y : Bytes}, (x ++ y).length < 2 ^ 64 → y.length < 2 ^ 64 := by
    intro x y hxy
    rw [List.length_append] at hxy
    omega
  unfold digestPreimage at h hlen
  obtain ⟨-, h⟩ := append_add_u64_inj (by decide) (by decide) h
  have hlen := hdrop hlen
  obtain ⟨htag, h⟩ := append_add_str_inj hlen h
  have hlen := hdrop hlen
  obtain ⟨hlang, h⟩ := append_add_str_inj hlen h
  have hlen := hdrop hlen
  rw [← List.length_map as_bytes, ← List.length_map as_bytes] at h
  rw [← List.length_map as_bytes] at hlen
  obtain ⟨hargs, h⟩ := append_items_inj (fun s => by rw [add_str_length]; omega) append_add_str_inj hlen h
  have hlen := hdrop (hdrop hlen)
  rw [← List.append_nil ((digestInputs c).flatMap _), ← List.append_nil ((digestInputs d).flatMap _)] at h
  rw [← List.append_nil ((digestInputs c).flatMap _)] at hlen
  obtain ⟨hinputs, -⟩ := append_items_inj
    (fun p => by rw [List.length_append, add_str_length]; omega) append_pair_inj hlen h
  exact ⟨as_bytes_injective htag, as_bytes_injective hlang,
    List.map_injective_iff.mpr as_bytes_injective hargs, hinputs⟩

/-! ## What the key covers -/

/-- The pairs of path and digest of the required inputs. -/
def digestPairs (cu : CompilationUnit) : List (String × String) :=
  cu.required_input.map fun ri => (ri.v_name.path, ri.info.digest)

/-- Two units with their indexer tags agree on all the key covers. -/
structure SameKeyed (c d : CompilationUnit) (t u : String) : Prop where
  indexer_tag : t = u
  language : c.v_name.language = d.v_name.language
  argument : c.argument = d.argument
  inputs : ∀ p, p ∈ digestPairs c ↔ p ∈ digestPairs d

theorem mem_digestInputs {cu : CompilationUnit} {q : Bytes ×ₗ Bytes} : q ∈ digestInputs cu ↔
    ∃ p ∈ digestPairs cu, toLex (as_bytes p.1, as_bytes p.2) = q := by
  unfold digestInputs digestPairs
  rw [mem_sortDedup, List.mem_map]
  simp only [List.mem_map]
  constructor
  · rintro ⟨ri, hri, rfl⟩
    exact ⟨_, ⟨ri, hri, rfl⟩, rfl⟩
  · rintro ⟨-, ⟨ri, hri, rfl⟩, rfl⟩
    exact ⟨ri, hri, rfl⟩

theorem mem_digestPairs {cu : CompilationUnit} (p : String × String) :
    p ∈ digestPairs cu ↔ toLex (as_bytes p.1, as_bytes p.2) ∈ digestInputs cu := by
  rw [mem_digestInputs]
  constructor
  · intro hp
    exact ⟨p, hp, rfl⟩
  · rintro ⟨p', hp', heq⟩
    have hpair := Prod.mk.inj (toLex_inj.mp heq)
    obtain rfl : p' = p := Prod.ext (as_bytes_injective hpair.1) (as_bytes_injective hpair.2)
    exact hp'

/-- The sorted pairs say which pairs there are, and no more. -/
theorem digestInputs_eq_iff {c d : CompilationUnit} :
    digestInputs c = digestInputs d ↔ ∀ p, p ∈ digestPairs c ↔ p ∈ digestPairs d := by
  constructor
  · intro h p
    rw [mem_digestPairs, mem_digestPairs, h]
  · intro h
    have hc : Enumerates (digestInputs c)
        {q | ∃ p ∈ digestPairs c, toLex (as_bytes p.1, as_bytes p.2) = q} :=
      ⟨sortDedup_pairwise _, fun _ => mem_digestInputs⟩
    refine hc.eq ⟨sortDedup_pairwise _, fun q => ?_⟩
    exact mem_digestInputs.trans (exists_congr fun p => and_congr_left' (h p).symm)

/-- The bytes that are hashed say exactly what the key covers, and so does every hash of them that
does not collide here. -/
theorem digestPreimage_eq_iff {c : CompilationUnit} {t : String} (d : CompilationUnit) (u : String)
    (hlen : (digestPreimage c t).length ≤ isizeMax) :
    (digestPreimage c t = digestPreimage d u ↔ SameKeyed c d t u) ∧
      ∀ {D : Type} (hash128 : Bytes → D),
        (hash128 (digestPreimage c t) = hash128 (digestPreimage d u) →
          digestPreimage c t = digestPreimage d u) →
        (hash128 (digestPreimage c t) = hash128 (digestPreimage d u) ↔ SameKeyed c d t u) := by
  have hiff : digestPreimage c t = digestPreimage d u ↔ SameKeyed c d t u := by
    constructor
    · intro h
      obtain ⟨htag, hlang, hargs, hinputs⟩ := digestPreimage_inj (lt_of_le_of_lt hlen (by decide)) h
      exact ⟨htag, hlang, hargs, digestInputs_eq_iff.mp hinputs⟩
    · rintro ⟨htag, hlang, hargs, hinputs⟩
      unfold digestPreimage
      rw [htag, hlang, hargs, digestInputs_eq_iff.mpr hinputs]
  refine ⟨hiff, fun hash128 hfree => ⟨fun h => hiff.mp (hfree h), fun h => ?_⟩⟩
  rw [hiff.mpr h]

def orderedInputs : CompilationUnit :=
  { required_input := [⟨{ path := "a.cpp" }, { digest := "d1" }⟩, ⟨{ path := "a.h" }, { digest := "d2" }⟩] }

/-- The same inputs in another order, one of them twice. -/
def shuffledInputs : CompilationUnit :=
  { required_input := orderedInputs.required_input.reverse ++ orderedInputs.required_input.take 1 }

theorem digestPreimage_eq_iff_shuffledInputs :
    (digestPreimage orderedInputs "tag").length ≤ isizeMax ∧
      (digestPreimage orderedInputs "tag" = digestPreimage shuffledInputs "tag" ↔
        SameKeyed orderedInputs shuffledInputs "tag" "tag") :=
  have hlen : (digestPreimage orderedInputs "tag").length ≤ isizeMax := by decide +kernel
  ⟨hlen, (digestPreimage_eq_iff shuffledInputs "tag" hlen).1⟩

end Scry2
