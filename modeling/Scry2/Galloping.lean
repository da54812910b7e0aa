import Scry2.Regions

/-!
# Probing with a cursor

A posting list is probed for one candidate after the other, each probe from the block where the one
before stopped. For ascending candidates this is as good as starting afresh every time: the cursor
is always the first block that is not below the candidate just probed.
-/

open Scry2.Lib

namespace Scry2

/-- A region in the block-skip format: the text of an ascending list of rows. -/
structure BlockSkip (region : Bytes) (ids : List Nat) : Prop where
  bytes : region = regionBytes ids
  ascending : ids.Pairwise (· < ·)
  lt : ∀ id ∈ ids, id < 2 ^ 32
  small : region.length < 2 ^ 32

/-- The probes of one list, as `syms_matching_substring_trigram` makes them: `cursors[k]` is what the
probe before returned. -/
def probeRun (post : Bytes) (p : Posting) : List UInt32 → Nat → Res (List (Bool × Nat))
  | [], _ => return []
  | cand :: cands, cursor => do
    let (found, block_idx) ← trigram_contains post p cand cursor
    let rest ← probeRun post p cands block_idx
    return (found, block_idx) :: rest

section

variable {region : Bytes} {ids : List Nat}

/-- The region of `build_trigram_index` for a trigram is well formed. -/
theorem blockSkip_of_dictOf {by_name : List NameRow} {blob : Bytes} (hrows : by_name.length < 2 ^ 32)
    {r : TrigramRow} (hr : r ∈ dictOf (visit by_name blob)) (hsmall : r.post_len < 2 ^ 32) :
    BlockSkip (slice (build_trigram_index by_name blob).2 r.post_off r.post_len)
      (rowsWith by_name blob r.trigram) := by
  obtain ⟨hfits, hfilled⟩ := build_trigram_index_filled by_name blob hr
  rw [idsOf_visit hrows] at hfilled
  exact ⟨hfilled.eq_regionBytes, rowsWith_pairwise _, rowsWith_lt hrows _, by rwa [slice_length hfits]⟩

theorem blockSkip_regionBytes (hasc : ids.Pairwise (· < ·)) (hlt : ∀ id ∈ ids, id < 2 ^ 32)
    (hlen : ids.length < 2 ^ 28) : BlockSkip (regionBytes ids) ids where
  bytes := rfl
  ascending := hasc
  lt := hlt
  small := by
    have := regionLen_le hlt
    rw [regionBytes_length]
    omega

/-- A well-formed region may stand anywhere in a buffer. -/
theorem BlockSkip.lists (h : BlockSkip region ids) (front back : Bytes) :
    Posting.Lists (front ++ region ++ back) ⟨front.length, region.length, ids.length⟩ ids := by
  have hslice : slice (front ++ region ++ back) front.length region.length = region := by
    unfold slice
    rw [List.append_assoc, List.drop_left, List.take_left]
  have hlen : region.length = regionLen ids := by rw [h.bytes, regionBytes_length]
  refine ⟨by simp, rfl, hlen, ?_, h.ascending, h.lt, h.small⟩
  simp only [hslice]
  rw [h.bytes]
  exact filled_regionBytes ids

/-! ## One cursor for all candidates -/

theorem IsFirstBlock.unique {cand b c : Nat} (hb : IsFirstBlock ids cand b) (hc : IsFirstBlock ids cand c) :
    b = c := by
  rcases lt_trichotomy b c with hlt | heq | hlt
  · have h1 := hb.at_block (lt_of_lt_of_le hlt hc.le)
    have h2 := hc.before b hlt
    omega
  · exact heq
  · have h1 := hc.at_block (lt_of_lt_of_le hlt hb.le)
    have h2 := hb.before c hlt
    omega

/-- A block that contains a candidate not below the one probed is not behind the cursor. -/
theorem IsFirstBlock.le_block (hasc : ids.Pairwise (· < ·)) {cand later b block : Nat}
    (hb : IsFirstBlock ids cand b) (hle : cand ≤ later) (hmem : later ∈ blockOf ids block) : b ≤ block := by
  have hlt : block < n_blocks ids.length := by
    rw [lt_n_blocks_iff]
    by_contra hge
    unfold blockOf at hmem
    rw [List.drop_eq_nil_of_le (not_lt.mp hge)] at hmem
    simp at hmem
  by_contra hc
  have h1 := hb.before block (not_le.mp hc)
  have h2 := mem_blockOf_le hasc hlt hmem
  omega

/-- What the probe of a candidate must answer. -/
def Answers (ids : List Nat) (cand : UInt32) (answer : Bool × Nat) : Prop :=
  (answer.1 = true ↔ cand.toNat ∈ ids) ∧ IsFirstBlock ids cand.toNat answer.2

theorem Answers.unique {cand : UInt32} {a b : Bool × Nat} (ha : Answers ids cand a) (hb : Answers ids cand b) :
    a = b := by
  apply Prod.ext
  · rw [Bool.eq_iff_iff, ha.1, hb.1]
  · exact ha.2.unique hb.2

/-- From a cursor with only smaller blocks behind it, every candidate gets its answer. -/
theorem probeRun_answers {post : Bytes} {p : Posting} (h : p.Lists post ids) {cands : List UInt32}
    (hasc : cands.Pairwise (· < ·)) {cursor : Nat}
    (hcursor : ∀ cand ∈ cands, ∀ c < cursor, c < n_blocks ids.length → maxId ids c < cand.toNat) :
    ∃ answers, probeRun post p cands cursor = .ok answers ∧ List.Forall₂ (Answers ids) cands answers := by
  induction cands generalizing cursor with
  | nil => exact ⟨[], rfl, .nil⟩
  | cons cand cands ih =>
    have hp := List.pairwise_cons.mp hasc
    obtain ⟨b, hprobe, hfirst⟩ := h.trigram_contains (hcursor cand List.mem_cons_self)
    -- What is behind the cursor is below this candidate, hence below all later ones.
    have hnext : ∀ later ∈ cands, ∀ c < b, c < n_blocks ids.length → maxId ids c < later.toNat := by
      intro later hlater c hc _
      have h1 := hfirst.before c hc
      have h2 := UInt32.lt_iff_toNat_lt.mp (hp.1 later hlater)
      omega
    obtain ⟨answers, hrun, hall⟩ := ih hp.2 hnext
    refine ⟨(decide (cand.toNat ∈ ids), b) :: answers, ?_, .cons ⟨decide_eq_true_iff, hfirst⟩ hall⟩
    rw [probeRun, hprobe, Res.ok_bind]
    simp only
    rw [hrun, Res.ok_bind]
    rfl

end

/-- The probes of a region answer like its decoded list. The buffer around the region plays no part,
and a read behind its end would be a panic where nothing follows. -/
structure ProbesExactly (region : Bytes) (cands decoded : List UInt32) (answers : List (Bool × Nat)) : Prop where
  decodes : ∀ front back : Bytes,
    trigram_postings (front ++ region ++ back) ⟨front.length, region.length, decoded.length⟩ = .ok decoded
  runs : ∀ front back : Bytes,
    probeRun (front ++ region ++ back) ⟨front.length, region.length, decoded.length⟩ cands 0 = .ok answers
  length : answers.length = cands.length
  found : ∀ (i : Nat) (cand : UInt32) (answer : Bool × Nat), cands[i]? = some cand → answers[i]? = some answer →
    (answer.1 = true ↔ cand ∈ decoded)
  cursor : ∀ (i j block : Nat) (later : UInt32) (answer : Bool × Nat), i ≤ j →
    answers[i]? = some answer → cands[j]? = some later →
    later.toNat ∈ blockOf (decoded.map UInt32.toNat) block → answer.2 ≤ block

/-- One cursor serves a whole ascending run of candidates. -/
theorem galloping_exact {region : Bytes} {ids : List Nat} (h : BlockSkip region ids) {cands : List UInt32}
    (hasc : cands.Pairwise (· < ·)) :
    ∃ decoded answers, decoded.map UInt32.toNat = ids ∧ ProbesExactly region cands decoded answers := by
  have hback := toNat_map_ofNat h.lt
  have hmem : ∀ cand : UInt32, cand ∈ ids.map UInt32.ofNat ↔ cand.toNat ∈ ids := by
    intro cand
    conv_rhs => rw [← hback]
    exact (List.mem_map_of_injective fun _ _ => UInt32.toNat_inj.mp).symm
  have hstart : ∀ cand ∈ cands, ∀ c < 0, c < n_blocks ids.length → maxId ids c < cand.toNat :=
    fun _ _ c hc => absurd hc (Nat.not_lt_zero c)
  obtain ⟨answers, -, hall⟩ := probeRun_answers (h.lists [] []) hasc hstart
  have hanswer : ∀ (i : Nat) (cand : UInt32) (answer : Bool × Nat), cands[i]? = some cand →
      answers[i]? = some answer → Answers ids cand answer := by
    intro i cand answer hc ha
    obtain ⟨hi, rfl⟩ := List.getElem?_eq_some_iff.mp hc
    obtain ⟨hi', rfl⟩ := List.getElem?_eq_some_iff.mp ha
    exact hall.get hi hi'
  refine ⟨ids.map UInt32.ofNat, answers, hback, ?_, ?_, hall.length_eq.symm, ?_, ?_⟩
  · intro front back
    rw [List.length_map]
    exact (h.lists front back).holds.trigram_postings
  · intro front back
    obtain ⟨answers', hrun, hall'⟩ := probeRun_answers (h.lists front back) hasc hstart
    have hsame : answers' = answers :=
      List.right_unique_forall₂' (R := Answers ids) (fun _ _ _ => Answers.unique) hall' hall
    rw [List.length_map, hrun, hsame]
  · intro i cand answer hc ha
    rw [hmem]
    exact (hanswer i cand answer hc ha).1
  · intro i j block later answer hij ha hl hb
    rw [hback] at hb
    obtain ⟨hi, -⟩ := List.getElem?_eq_some_iff.mp ha
    obtain ⟨hj, rfl⟩ := List.getElem?_eq_some_iff.mp hl
    have hi : i < cands.length := lt_of_lt_of_eq hi hall.length_eq.symm
    have hle : cands[i].toNat ≤ cands[j].toNat := by
      rcases hij.eq_or_lt with rfl | hlt
      · exact le_rfl
      · exact (UInt32.lt_iff_toNat_lt.mp (List.pairwise_iff_getElem.mp hasc i j hi hj hlt)).le
    exact (hanswer i _ answer (List.getElem?_eq_getElem hi) ha).2.le_block h.ascending hle hb

/-- Five blocks of even rows, probed with hits, misses and a jump over blocks. -/
theorem galloping_exact_sample :
    ∃ decoded answers, decoded.map UInt32.toNat = List.range' 4 600 2 ∧
      ProbesExactly (regionBytes (List.range' 4 600 2)) [4, 5, 6, 900, 1202, 5000] decoded answers := by
  apply galloping_exact (blockSkip_regionBytes _ _ _) (by decide)
  · exact List.pairwise_lt_range' 2 (by decide)
  · intro id hid
    obtain ⟨i, hi, rfl⟩ := List.mem_range'.mp hid
    omega
  · rw [List.length_range']
    decide

end Scry2
