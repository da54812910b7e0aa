import Scry2.WalkRun

/-!
# What a walk reaches

The walk keeps one node per logical key and expands the first copy it meets, with the copies under
the same stored name. It covers what can be reached as long as the other copies lead nowhere else.
-/

open Scry2.Lib

namespace Scry2

namespace Walk

section

variable (w : Walk)

/-- Reached in fewer than `n` steps from the kept roots. -/
def Before (kept : List UInt64) (step : UInt64 → UInt64 → Prop) (n : Nat) (s : UInt64) : Prop :=
  ∃ m < n, Within step (· ∈ kept) m s

/-- Reached from the kept roots over `slow`, a copy leads to no key that the walk does not find from
the copy it met. The last hop is not expanded, so nothing is asked of the copies there. -/
def CopiesAgree (kept : List UInt64) (slow : UInt64 → UInt64 → Prop) : Prop :=
  Follows w.keyOf (Before kept w.Steps w.depth) (Before kept slow w.depth) w.Steps slow

/-- The keys within `n` steps of the walk. -/
def keysWithin (kept : List UInt64) (n : Nat) : Set String := Set.image w.keyOf {s | Within w.Steps (· ∈ kept) n s}

end

variable {w : Walk} {syms kept first new : List UInt64} {nodes : List CallNode} {total : Nat} {truncated : Bool}

/-! ## Nodes are within reach -/

theorem Forest.hop_le (h : w.Forest syms nodes) {s : UInt64} {n : Nat} (hs : Held syms nodes s n) : n ≤ w.depth := by
  obtain ⟨i, node, hsym, hnode, rfl⟩ := hs
  rcases h.origin i node s hnode hsym with ⟨-, -, hzero⟩ | ⟨p, -, hcomes⟩
  · rw [hzero]
    exact Nat.zero_le _
  · exact hcomes.hop_le

theorem Answer.within (h : w.Answer kept first new nodes total truncated) {s : UInt64} {n : Nat}
    (hs : Held (first ++ new) nodes s n) : Within w.Steps (· ∈ kept) n s := by
  obtain ⟨i, node, hsym, hnode, rfl⟩ := hs
  -- By induction on the position: a parent comes before its children.
  induction i using Nat.strongRecOn generalizing node s with
  | _ i ih =>
    rcases h.forest.origin i node s hnode hsym with ⟨-, -, hzero⟩ |
      ⟨p, hp, -, ⟨from_, sym, hfrom, hsym', hhop, hedge⟩, -, hgoes⟩
    · have hheld : Held (first ++ new) nodes s 0 := ⟨i, node, hsym, hnode, hzero⟩
      exact .start (h.subset ((h.held s).mp hheld))
    · rw [hhop]
      exact .step (ih p hp from_ hsym' hfrom) ⟨node.dir, hgoes, hedge, h.forest.passes s (List.mem_of_getElem? hsym)⟩

theorem Forest.held_of_mem (h : w.Forest syms nodes) {s : UInt64} (hs : s ∈ syms) : ∃ n, Held syms nodes s n := by
  obtain ⟨i, hi, rfl⟩ := List.getElem_of_mem hs
  have hi' : i < nodes.length := h.length ▸ hi
  exact ⟨_, i, nodes[i], List.getElem?_eq_getElem hi, List.getElem?_eq_getElem hi', rfl⟩

theorem Answer.keys_subset (h : w.Answer kept first new nodes total truncated) :
    ∀ k ∈ (first ++ new).map w.keyOf, k ∈ w.keysWithin kept w.depth := by
  intro k hk
  obtain ⟨s, hs, rfl⟩ := List.mem_map.mp hk
  obtain ⟨n, hn⟩ := h.forest.held_of_mem hs
  exact ⟨s, (h.within hn).mono (h.forest.hop_le hn), rfl⟩

/-! ## What is within reach has a node -/

theorem Answer.covers {slow : UInt64 → UInt64 → Prop} (h : w.Answer kept first new nodes total false)
    (hcopies : w.CopiesAgree kept slow) {s : UInt64} {n : Nat} (hs : Within slow (· ∈ kept) n s) (hn : n ≤ w.depth) :
    w.keyOf s ∈ (first ++ new).map w.keyOf := by
  have hstart : ∀ a, a ∈ kept → ∃ z, Held (first ++ new) nodes z 0 ∧ w.keyOf z = w.keyOf a := by
    intro a ha
    obtain ⟨z, hz, hkey⟩ := List.mem_map.mp (h.roots a ha)
    exact ⟨z, (h.held z).mpr hz, hkey⟩
  have hfollows : Follows w.keyOf (fun a => ∃ n < w.depth, Held (first ++ new) nodes a n)
      (Before kept slow w.depth) w.Steps slow := by
    rintro a b ⟨n, hlt, hn⟩
    exact hcopies a b ⟨n, hlt, h.within hn⟩
  obtain ⟨z, g, ⟨i, node, hz, -⟩, -, hkey⟩ :=
    Follows.covers hstart (h.expanded rfl) hfollows hs hn
  exact hkey ▸ List.mem_map_of_mem (List.mem_of_getElem? hz)

/-! ## The budget -/

theorem copyEdge_finite (w : Walk) (dir : WalkDir) (a : UInt64) : {b | w.CopyEdge dir a b}.Finite := by
  cases hl : w.union dir a with
  | ok l =>
    refine l.finite_toSet.subset ?_
    rintro b ⟨l', hl', hb⟩
    cases hl.symm.trans hl'
    exact hb
  | error e =>
    refine Set.finite_empty.subset ?_
    rintro b ⟨l', hl', -⟩
    cases hl.symm.trans hl'

theorem steps_finite (w : Walk) (a : UInt64) : {b | w.Steps a b}.Finite := by
  refine ((copyEdge_finite w .up a).union (copyEdge_finite w .down a)).subset ?_
  rintro b ⟨dir, hgoes, hedge, -⟩
  cases dir with
  | root => exact absurd hgoes Bool.false_ne_true
  | up => exact .inl hedge
  | down => exact .inr hedge

theorem keysWithin_finite (w : Walk) (kept : List UInt64) (n : Nat) : (w.keysWithin kept n).Finite :=
  (within_finite kept.finite_toSet (steps_finite w) n).image _

theorem ncard_of_nodup {α : Type} [DecidableEq α] {l : List α} (h : l.Nodup) : {a | a ∈ l}.ncard = l.length := by
  rw [← List.coe_toFinset, Set.ncard_coe_finset, List.toFinset_card_of_nodup h]

theorem Answer.length_le (h : w.Answer kept first new nodes total truncated) :
    nodes.length ≤ (w.keysWithin kept w.depth).ncard := by
  have hsub := Set.ncard_le_ncard (s := {k | k ∈ (first ++ new).map w.keyOf}) h.keys_subset
    (keysWithin_finite w kept w.depth)
  rwa [ncard_of_nodup h.forest.keys, List.length_map, h.forest.length] at hsub

end Walk

section

variable {ix : Queries} {name direction : String} {depth max_syms : Nat} {substr : Bool} {root_limit : Nat}
  {filt : PathFilter} {w : Walk} {nodes : List CallNode} {total : Nat} {truncated : Bool} {roots kept : List UInt64}

end

section

attribute [local instance] asciiUnicode naiveMemmem

/-! ## Two copies under different tickets -/

theorem oneCall_walk :
    oneCall.answers.walkRoots "f" false 1 = .ok [1] ∧
      (oneCall.answers.callWalk "down" 1 9 {}).filterRoots [1] = .ok [1] ∧
      (oneCall.answers.callWalk "down" 1 9 {}).union .down 1 = .ok [2] ∧
      (oneCall.answers.callWalk "down" 1 9 {}).union .down 2 = .ok [] ∧
      (oneCall.answers.callWalk "down" 1 9 {}).edges .down 1 = .ok [2] ∧
      (oneCall.answers.callWalk "down" 1 9 {}).edges .down 2 = .ok [] ∧
      (oneCall.answers.callWalk "down" 1 9 {}).keyOf 1 ≠ (oneCall.answers.callWalk "down" 1 9 {}).keyOf 2 := by
  decide +kernel

section

variable {w : Walk} (hw : w.named = oneCall.answers.callWalk "down" 1 9 {})
include hw

theorem oneCall_steps (a b : UInt64) (ha : a = 1 ∨ a = 2) : w.Steps a b ↔ a = 1 ∧ b = 2 := by
  obtain ⟨-, -, hunion, hunion', -⟩ := oneCall_walk
  rw [← hw, w.named_union] at hunion hunion'
  have hdir : w.direction = "down" := congrArg Walk.direction hw
  constructor
  · rintro ⟨dir, hgoes, ⟨l, hl, hb⟩, -⟩
    cases dir with
    | root => exact absurd hgoes Bool.false_ne_true
    | up => simp [Walk.goes, Walk.go_up, hdir] at hgoes
    | down =>
      rcases ha with rfl | rfl
      · cases hunion.symm.trans hl
        exact ⟨rfl, List.mem_singleton.mp hb⟩
      · cases hunion'.symm.trans hl
        exact absurd hb List.not_mem_nil
  · rintro ⟨rfl, rfl⟩
    refine ⟨.down, by simp [Walk.goes, Walk.go_down, hdir], ⟨[2], hunion, List.mem_singleton.mpr rfl⟩, ?_⟩
    rw [Walk.Passes, ← w.named_pass, hw]
    rfl

omit hw in
theorem oneCall_within {R : UInt64 → UInt64 → Prop} (hR : ∀ a b, a = 1 ∨ a = 2 → R a b → a = 1 ∧ b = 2) {n : Nat}
    {a : UInt64} (ha : Within R (· ∈ [1]) n a) : a = 1 ∨ a = 2 := by
  induction ha with
  | start h => exact .inl (List.mem_singleton.mp h)
  | step _ hab ih => exact .inr (hR _ _ ih hab).2

theorem oneCall_copiesAgree {slow : UInt64 → UInt64 → Prop}
    (hslow : ∀ a b, a = 1 ∨ a = 2 → slow a b → a = 1 ∧ b = 2) : w.CopiesAgree [1] slow := by
  obtain ⟨-, -, -, -, -, -, hkey⟩ := oneCall_walk
  rw [← hw] at hkey
  rintro a b ⟨_, _, ha⟩ ⟨_, _, hb⟩ hab x hx
  obtain ⟨rfl, rfl⟩ := hslow b x (oneCall_within hslow hb) hx
  rcases oneCall_within (fun a b ha => (oneCall_steps hw a b ha).mp) ha with rfl | rfl
  · exact ⟨2, (oneCall_steps hw 1 2 (.inl rfl)).mpr ⟨rfl, rfl⟩, rfl⟩
  · exact absurd hab.symm hkey

end

theorem oneCall_request {ix : Index} (hnamed : ∀ parallelism, (ix.queries parallelism).named = oneCall.answers) :
    ((ix.queries 1).callWalk "down" 1 9 {}).named = oneCall.answers.callWalk "down" 1 9 {} ∧
      (ix.queries 1).Replies "f" "down" 1 9 false 1 {} ((ix.queries 1).callWalk "down" 1 9 {}) oneCallNodes 1 false ∧
      (ix.queries 1).walkRoots "f" false 1 = .ok [1] ∧
      ((ix.queries 1).callWalk "down" 1 9 {}).filterRoots [1] = .ok [1] := by
  obtain ⟨hroots, hkept, -⟩ := oneCall_walk
  have hreply := oneCall_callgraph
  rw [← hnamed 1] at hroots hkept hreply
  refine ⟨by rw [← hnamed 1]; rfl, .callgraph ?_, hroots, ?_⟩
  · rw [← Queries.named_do_callgraph, hreply]
  · rw [← Walk.named_filterRoots]
    exact hkept

end

end Scry2
