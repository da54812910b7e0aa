import Mathlib.Order.Bounds.Basic
import Scry2.Coverage

/-!
# Nearest first

The hop of a node is its distance from the roots, also when the cap ends the walk. A larger request
only adds nodes behind those of a smaller one.
-/

open Scry2.Lib
open Std (ExtTreeMap)

namespace Scry2

namespace Walk

/-! ## Distances -/

section

variable {w : Walk} {syms kept first new : List UInt64} {nodes : List CallNode} {total : Nat} {truncated : Bool}

/-- The numbers of steps in which some copy of `s` is reached. -/
def Distances (w : Walk) (kept : List UInt64) (s : UInt64) : Set Nat :=
  {n | ∃ x, w.keyOf x = w.keyOf s ∧ Within w.Steps (· ∈ kept) n x}

theorem Forest.held_unique (h : w.Forest syms nodes) {s z : UInt64} {n m : Nat} (hs : Held syms nodes s n)
    (hz : Held syms nodes z m) (hkey : w.keyOf z = w.keyOf s) : m = n := by
  obtain ⟨i, node, hi, hnode, rfl⟩ := hs
  obtain ⟨j, node', hj, hnode', rfl⟩ := hz
  have hij : i = j := by
    obtain ⟨hilt, higet⟩ := List.getElem?_eq_some_iff.mp hi
    obtain ⟨hjlt, hjget⟩ := List.getElem?_eq_some_iff.mp hj
    rw [← List.length_map w.keyOf] at hilt hjlt
    refine (@List.Nodup.getElem_inj_iff _ _ h.keys i hilt j hjlt).mp ?_
    rw [List.getElem_map, List.getElem_map, higet, hjget, hkey]
  rw [hij] at hnode
  cases hnode.symm.trans hnode'
  rfl

/-- No way to a copy of a node is shorter than its hop. -/
theorem Answer.hop_le_of_within (h : w.Answer kept first new nodes total truncated)
    (hbelow : w.DoneBelow (first ++ new) nodes) (hcopies : w.CopiesAgree kept w.Steps) {s x : UInt64} {n hop : Nat}
    (hs : Held (first ++ new) nodes s hop) (hx : Within w.Steps (· ∈ kept) n x) (hkey : w.keyOf x = w.keyOf s) :
    hop ≤ n := by
  by_contra hlt
  have hdepth := h.forest.hop_le hs
  have hstart : ∀ a, a ∈ kept → ∃ z, Held (first ++ new) nodes z 0 ∧ w.keyOf z = w.keyOf a := by
    intro a ha
    obtain ⟨z, hz, hkey⟩ := List.mem_map.mp (h.roots a ha)
    exact ⟨z, (h.held z).mpr hz, hkey⟩
  have hexpand : ∀ a g, Held (first ++ new) nodes a g → g < n → ∀ y, w.Steps a y →
      ∃ z g', Held (first ++ new) nodes z g' ∧ g' ≤ g + 1 ∧ w.keyOf z = w.keyOf y := by
    intro a g ha hg
    obtain ⟨i, node, -, hnode, rfl⟩ := hs
    exact hbelow a g ha ⟨node, List.mem_of_getElem? hnode, by omega⟩
  have hfollows : Follows w.keyOf (fun a => ∃ g < n, Held (first ++ new) nodes a g)
      (Before kept w.Steps n) w.Steps w.Steps := by
    rintro a b ⟨g, hg, ha⟩ ⟨m, hm, hb⟩
    exact hcopies a b ⟨g, by omega, h.within ha⟩ ⟨m, by omega, hb⟩
  obtain ⟨z, g, hz, hg, hzx⟩ := Follows.covers hstart hexpand hfollows hx le_rfl
  have := h.forest.held_unique hs hz (hzx.trans hkey)
  omega

theorem Answer.isLeast_hop (h : w.Answer kept first new nodes total truncated)
    (hbelow : w.DoneBelow (first ++ new) nodes) (hcopies : w.CopiesAgree kept w.Steps) {s : UInt64} {hop : Nat}
    (hs : Held (first ++ new) nodes s hop) : IsLeast (w.Distances kept s) hop := by
  constructor
  · exact ⟨s, rfl, h.within hs⟩
  · rintro n ⟨x, hkey, hx⟩
    exact h.hop_le_of_within hbelow hcopies hs hx hkey

end

/-! ## Larger requests -/

section

variable (w : Walk)

/-- The same walk with another depth and another budget. -/
def asks (depth max_syms : Nat) : Walk := { w with depth := depth, max_syms := max_syms }

/-- The stages of one hop: each node of the frontier in each direction. -/
def stages (frontier : Frontier) : List ((UInt64 × UInt32) × WalkDir) :=
  frontier.flatMap fun cur => [(cur, .up), (cur, .down)]

def runStages (hop : Nat) : List ((UInt64 × UInt32) × WalkDir) → WalkState → Frontier →
    Res (WalkState × Frontier × Bool)
  | [], st, next => .ok (st, next, false)
  | (cur, dir) :: rest, st, next => do
    let (st, next, stop) ← w.expandDir cur dir hop st next
    if stop then return (st, next, true) else runStages hop rest st next

theorem expandAll_eq (hop : Nat) (frontier : Frontier) (st : WalkState) (next : Frontier) :
    w.expandAll hop frontier st next = w.runStages hop (stages frontier) st next := by
  induction frontier generalizing st next with
  | nil => rfl
  | cons cur frontier ih =>
    simp only [expandAll, stages, List.flatMap_cons, List.cons_append, List.nil_append, runStages]
    simp only [ih, stages]

end

/-- Nodes of the hop `hop` or later were added. -/
def Extends (hop : Nat) (st st' : WalkState) : Prop :=
  ∃ added : List CallNode, st'.nodes = st.nodes ++ added ∧ ∀ n ∈ added, hop ≤ n.hop

/-- The same stage in a larger request: it came to the same end, or it went on from where the smaller
one was stopped. -/
def Ahead (hop : Nat) (r r' : WalkState × Frontier × Bool) : Prop :=
  r.2.2 = false ∧ r' = r ∨ r.2.2 = true ∧ Extends hop r.1 r'.1

section

variable {w : Walk} {hop depth' max_syms' : Nat} {st st' st'' : WalkState} {next : Frontier}
  {r r' : WalkState × Frontier × Bool}

theorem Extends.refl (hop : Nat) (st : WalkState) : Extends hop st st :=
  ⟨[], (List.append_nil _).symm, fun _ h => absurd h List.not_mem_nil⟩

theorem Extends.trans (h : Extends hop st st') (h' : Extends hop st' st'') : Extends hop st st'' := by
  obtain ⟨added, hnodes, hhop⟩ := h
  obtain ⟨added', hnodes', hhop'⟩ := h'
  refine ⟨added ++ added', by rw [hnodes', hnodes, List.append_assoc], fun n hn => ?_⟩
  exact (List.mem_append.mp hn).elim (hhop n) (hhop' n)

theorem Extends.later {hop' : Nat} (h : Extends hop' st st') (hle : hop ≤ hop') : Extends hop st st' := by
  obtain ⟨added, hnodes, hhop⟩ := h
  exact ⟨added, hnodes, fun n hn => hle.trans (hhop n hn)⟩

theorem admitSym_extends {sym : UInt64} {parent : Option UInt32} {dir : WalkDir} {id : Option UInt32}
    (h : w.admitSym sym parent dir hop st = .ok (id, st')) : Extends hop st st' := by
  rcases admitSym_cases h with ⟨-, hnodes, -⟩ | ⟨node, -, -, -, -, hhop, -, -, hnodes, -⟩
  · exact ⟨[], by rw [hnodes, List.append_nil], fun _ hn => absurd hn List.not_mem_nil⟩
  · exact ⟨[node], hnodes, List.forall_mem_singleton.mpr hhop.ge⟩

theorem admitAll_extends {cur_id : UInt32} {dir : WalkDir} {l : List UInt64}
    (h : w.admitAll cur_id dir hop l st next = .ok r) : Extends hop st r.1 := by
  induction l generalizing st next with
  | nil =>
    cases h
    exact .refl hop st
  | cons sym l ih =>
    rw [admitAll] at h
    obtain ⟨ok, -, h⟩ := Res.bind_eq_ok h
    split_ifs at h with hpass
    · exact ih h
    · obtain ⟨⟨id, st₁⟩, hsym, h⟩ := Res.bind_eq_ok h
      have hone := admitSym_extends hsym
      cases id with
      | none => exact hone.trans (ih h)
      | some id =>
        simp only at h
        split_ifs at h with hcap
        · cases h
          exact hone
        · exact hone.trans (ih h)

theorem expandDir_extends {cur : UInt64 × UInt32} {dir : WalkDir} (h : w.expandDir cur dir hop st next = .ok r) :
    Extends hop st r.1 := by
  unfold expandDir at h
  split_ifs at h with hgoes
  · obtain ⟨l, -, h⟩ := Res.bind_eq_ok h
    exact admitAll_extends h
  · cases h
    exact .refl hop st

theorem runStages_extends {l : List ((UInt64 × UInt32) × WalkDir)} (h : w.runStages hop l st next = .ok r) :
    Extends hop st r.1 := by
  induction l generalizing st next with
  | nil =>
    cases h
    exact .refl hop st
  | cons stage l ih =>
    rw [runStages] at h
    obtain ⟨⟨st₁, next₁, stop⟩, hdir, h⟩ := Res.bind_eq_ok h
    have hone := expandDir_extends hdir
    simp only at h
    split_ifs at h with hstop
    · cases h
      exact hone
    · exact hone.trans (ih h)

theorem hops_extends {left : Nat} {frontier : Frontier} {stop : Bool}
    (h : w.hops left hop frontier st = .ok (st', stop)) : Extends hop st st' := by
  induction left generalizing hop frontier st with
  | zero =>
    cases h
    exact .refl hop _
  | succ left ih =>
    rw [hops] at h
    obtain ⟨⟨st₁, next₁, stop₁⟩, hexpand, h⟩ := Res.bind_eq_ok h
    rw [expandAll_eq] at hexpand
    have hone := runStages_extends hexpand
    simp only at h
    split_ifs at h with hstop hnil
    · cases h
      exact hone
    · cases h
      exact hone
    · exact hone.trans ((ih h).later (Nat.le_succ hop))

/-! ## Two runs side by side -/

theorem admitAll_ahead (hmax : w.max_syms ≤ max_syms') {cur_id : UInt32} {dir : WalkDir} {l : List UInt64}
    (h : w.admitAll cur_id dir hop l st next = .ok r)
    (h' : (w.asks depth' max_syms').admitAll cur_id dir hop l st next = .ok r') : Ahead hop r r' := by
  induction l generalizing st next with
  | nil =>
    cases h
    cases h'
    exact .inl ⟨rfl, rfl⟩
  | cons sym l ih =>
    rw [admitAll] at h h'
    obtain ⟨ok, hok, h⟩ := Res.bind_eq_ok h
    obtain ⟨ok', hok', h'⟩ := Res.bind_eq_ok h'
    obtain rfl : ok = ok' := Except.ok.inj (hok.symm.trans hok')
    split_ifs at h h' with hpass
    · exact ih h h'
    · obtain ⟨⟨id, st₁⟩, hsym, h⟩ := Res.bind_eq_ok h
      obtain ⟨⟨id', st₁'⟩, hsym', h'⟩ := Res.bind_eq_ok h'
      obtain ⟨rfl, rfl⟩ := Prod.mk.inj (Except.ok.inj (hsym.symm.trans hsym'))
      cases id with
      | none => exact ih h h'
      | some id =>
        simp only at h h'
        by_cases hcap : w.max_syms ≤ st₁.nodes.length
        · rw [if_pos hcap] at h
          cases h
          refine .inr ⟨rfl, ?_⟩
          split_ifs at h' with hcap'
          · cases h'
            exact .refl hop st₁
          · exact admitAll_extends h'
        · have hcap' : ¬ (w.asks depth' max_syms').max_syms ≤ st₁.nodes.length := fun hle => hcap (hmax.trans hle)
          rw [if_neg hcap] at h
          rw [if_neg hcap'] at h'
          exact ih h h'

theorem expandDir_ahead (hmax : w.max_syms ≤ max_syms') {cur : UInt64 × UInt32} {dir : WalkDir}
    (h : w.expandDir cur dir hop st next = .ok r)
    (h' : (w.asks depth' max_syms').expandDir cur dir hop st next = .ok r') : Ahead hop r r' := by
  unfold expandDir at h h'
  by_cases hgoes : w.goes dir = true
  · have hgoes' : (w.asks depth' max_syms').goes dir = true := hgoes
    rw [if_pos hgoes] at h
    rw [if_pos hgoes'] at h'
    obtain ⟨l, hl, h⟩ := Res.bind_eq_ok h
    obtain ⟨l', hl', h'⟩ := Res.bind_eq_ok h'
    obtain rfl : l = l' := Except.ok.inj (hl.symm.trans hl')
    exact admitAll_ahead hmax h h'
  · have hgoes' : ¬ (w.asks depth' max_syms').goes dir = true := hgoes
    rw [if_neg hgoes] at h
    rw [if_neg hgoes'] at h'
    cases h
    cases h'
    exact .inl ⟨rfl, rfl⟩

theorem runStages_ahead (hmax : w.max_syms ≤ max_syms') {l : List ((UInt64 × UInt32) × WalkDir)}
    (h : w.runStages hop l st next = .ok r)
    (h' : (w.asks depth' max_syms').runStages hop l st next = .ok r') : Ahead hop r r' := by
  induction l generalizing st next with
  | nil =>
    cases h
    cases h'
    exact .inl ⟨rfl, rfl⟩
  | cons stage l ih =>
    rw [runStages] at h h'
    obtain ⟨⟨st₁, next₁, stop⟩, hdir, h⟩ := Res.bind_eq_ok h
    obtain ⟨⟨st₁', next₁', stop'⟩, hdir', h'⟩ := Res.bind_eq_ok h'
    rcases expandDir_ahead hmax hdir hdir' with ⟨hstop, hsame⟩ | ⟨hstop, hext⟩
    · obtain rfl : stop = false := hstop
      cases hsame
      exact ih h h'
    · obtain rfl : stop = true := hstop
      cases h
      refine .inr ⟨rfl, ?_⟩
      simp only at h'
      split_ifs at h' with hstop'
      · cases h'
        exact hext
      · exact hext.trans (runStages_extends h')

/-- With as many hops or more, the nodes come first that come with fewer. -/
theorem hops_ahead (hmax : w.max_syms ≤ max_syms') {left left' : Nat} (hleft : left ≤ left') {frontier : Frontier}
    {stop stop' : Bool} (h : w.hops left hop frontier st = .ok (st', stop))
    (h' : (w.asks depth' max_syms').hops left' hop frontier st = .ok (st'', stop')) :
    ∃ added, st''.nodes = st'.nodes ++ added ∧ (stop = false → ∀ n ∈ added, hop + left ≤ n.hop) := by
  induction left generalizing left' hop frontier st with
  | zero =>
    cases h
    obtain ⟨added, hnodes, hhop⟩ := hops_extends h'
    exact ⟨added, hnodes, fun _ => hhop⟩
  | succ left ih =>
    obtain ⟨left', rfl⟩ : ∃ k, left' = k + 1 := ⟨left' - 1, by omega⟩
    rw [hops] at h h'
    obtain ⟨⟨st₁, next₁, stop₁⟩, hexpand, h⟩ := Res.bind_eq_ok h
    obtain ⟨⟨st₁', next₁', stop₁'⟩, hexpand', h'⟩ := Res.bind_eq_ok h'
    rw [expandAll_eq] at hexpand hexpand'
    rcases runStages_ahead hmax hexpand hexpand' with ⟨hstop, hsame⟩ | ⟨hstop, hext⟩
    · obtain rfl : stop₁ = false := hstop
      cases hsame
      simp only [Bool.false_eq_true, if_false] at h h'
      by_cases hnil : next₁ = []
      · rw [if_pos hnil] at h h'
        cases h
        cases h'
        exact ⟨[], (List.append_nil _).symm, fun _ n hn => absurd hn List.not_mem_nil⟩
      · rw [if_neg hnil] at h h'
        obtain ⟨added, hnodes, hhop⟩ := ih (by omega) h h'
        refine ⟨added, hnodes, fun hstop n hn => ?_⟩
        have := hhop hstop n hn
        omega
    · obtain rfl : stop₁ = true := hstop
      cases h
      have hmore : Extends hop st₁' st'' := by
        simp only at h'
        split_ifs at h' with hstop' hnil
        · cases h'
          exact .refl hop _
        · cases h'
          exact .refl hop _
        · exact (hops_extends h').later (Nat.le_succ hop)
      obtain ⟨added, hnodes, -⟩ := hext.trans hmore
      exact ⟨added, hnodes, fun hstop => absurd hstop.symm Bool.false_ne_true⟩

theorem asks_admitRoots (w : Walk) (depth' max_syms' : Nat) (roots : List UInt64) (st : WalkState) (next : Frontier) :
    (w.asks depth' max_syms').admitRoots roots st next = w.admitRoots roots st next := by
  induction roots generalizing st next with
  | nil => rfl
  | cons root roots ih =>
    simp only [admitRoots, ih]
    rfl

theorem run_ahead (hmax : w.max_syms ≤ max_syms') (hdepth : w.depth ≤ depth') {roots : List UInt64}
    {nodes nodes' : List CallNode} {total total' : Nat} {truncated truncated' : Bool}
    (h : w.run roots = .ok (nodes, total, truncated))
    (h' : (w.asks depth' max_syms').run roots = .ok (nodes', total', truncated')) :
    ∃ added, nodes' = nodes ++ added ∧ (truncated = false → ∀ n ∈ added, w.depth < n.hop) := by
  unfold run at h h'
  obtain ⟨kept, hkept, h⟩ := Res.bind_eq_ok h
  obtain ⟨kept', hkept', h'⟩ := Res.bind_eq_ok h'
  obtain rfl : kept = kept' := Except.ok.inj (hkept.symm.trans hkept')
  split_ifs at h h' with hnil
  · cases h
    cases h'
    exact ⟨[], rfl, fun _ n hn => absurd hn List.not_mem_nil⟩
  · rw [asks_admitRoots] at h'
    obtain ⟨⟨st₀, frontier⟩, hroots, h⟩ := Res.bind_eq_ok h
    obtain ⟨⟨st₀', frontier'⟩, hroots', h'⟩ := Res.bind_eq_ok h'
    obtain ⟨rfl, rfl⟩ := Prod.mk.inj (Except.ok.inj (hroots.symm.trans hroots'))
    obtain ⟨⟨st, stop⟩, hhops, h⟩ := Res.bind_eq_ok h
    obtain ⟨⟨st', stop'⟩, hhops', h'⟩ := Res.bind_eq_ok h'
    cases h
    cases h'
    obtain ⟨added, hnodes, hhop⟩ := hops_ahead hmax hdepth hhops hhops'
    refine ⟨added, hnodes, fun hstop n hn => ?_⟩
    have := hhop hstop n hn
    omega

end

end Walk

section

variable {ix : Queries} {name direction : String} {depth max_syms : Nat} {substr : Bool} {root_limit : Nat}
  {filt : PathFilter} {w : Walk} {nodes : List CallNode} {total : Nat} {truncated : Bool} {roots kept : List UInt64}

/-- Where the copies agree, the hop of a node is the distance of its symbol from the roots. -/
theorem walk_hops_nearest (h : ix.Replies name direction depth max_syms substr root_limit filt w nodes total truncated)
    (hroots : ix.walkRoots name substr root_limit = .ok roots) (hkept : w.filterRoots roots = .ok kept)
    (hcopies : w.CopiesAgree kept w.Steps) :
    ∃ syms, w.ProperForest syms nodes total ∧
      ∀ (i : Nat) (node : CallNode) (s : UInt64), nodes[i]? = some node → syms[i]? = some s →
        IsLeast (w.Distances kept s) node.hop := by
  obtain ⟨-, -, roots', hroots', hrun⟩ := h.run
  obtain ⟨kept', first, new, hkept', hanswer, hbelow⟩ := Walk.run_answer hrun
  cases hroots.symm.trans hroots'
  cases hkept.symm.trans hkept'
  refine ⟨_, hanswer.forest.proper hanswer.total, fun i node s hnode hs => ?_⟩
  exact hanswer.isLeast_hop hbelow hcopies ⟨i, node, hs, hnode, rfl⟩

/-- With a larger depth or budget the answer goes on where the smaller one ends, with nodes that are
further away unless the cap had ended it. -/
theorem larger_request_extends {depth' max_syms' total' : Nat} {nodes' : List CallNode} {truncated' : Bool}
    (hdepth : depth ≤ depth') (hmax : max_syms ≤ max_syms')
    (h : ix.Replies name direction depth max_syms substr root_limit filt w nodes total truncated)
    (h' : ix.Replies name direction depth' max_syms' substr root_limit filt (w.asks depth' max_syms') nodes' total'
      truncated') :
    nodes <+: nodes' ∧ (truncated = false → nodes = nodes'.filter (·.hop ≤ depth)) := by
  obtain ⟨rfl, rfl, roots, hroots, hrun⟩ := h.run
  obtain ⟨-, -, roots', hroots', hrun'⟩ := h'.run
  obtain rfl : roots = roots' := Except.ok.inj (hroots.symm.trans hroots')
  obtain ⟨added, rfl, hhop⟩ := Walk.run_ahead hmax hdepth hrun hrun'
  refine ⟨List.prefix_append nodes added, fun hopen => ?_⟩
  obtain ⟨kept, first, new, -, hanswer, -⟩ := Walk.run_answer hrun
  have hnear : ∀ n ∈ nodes, n.hop ≤ w.depth := by
    intro n hn
    obtain ⟨i, hi, rfl⟩ := List.getElem_of_mem hn
    have hi' : i < (first ++ new).length := hanswer.forest.length ▸ hi
    exact hanswer.forest.hop_le ⟨i, _, List.getElem?_eq_getElem hi', List.getElem?_eq_getElem hi, rfl⟩
  have hfar : added.filter (fun n => decide (n.hop ≤ w.depth)) = [] := by
    refine List.filter_eq_nil_iff.mpr fun n hn => ?_
    rw [decide_eq_true_eq]
    exact not_le.mpr (hhop hopen n hn)
  rw [List.filter_append, hfar, List.append_nil, eq_comm]
  exact List.filter_eq_self.mpr fun n hn => decide_eq_true (hnear n hn)

end

section

attribute [local instance] asciiUnicode naiveMemmem

theorem walk_hops_nearest_oneCall :
    ∃ f ix w syms, oneCall.finish = .ok f ∧ open_index f = .ok ix ∧
      (ix.queries 1).Replies "f" "down" 1 9 false 1 {} w oneCallNodes 1 false ∧ w.ProperForest syms oneCallNodes 1 ∧
      ∀ s, syms[1]? = some s → IsLeast (w.Distances [1] s) 1 := by
  obtain ⟨f, ix, hf, hopen, hnamed⟩ := oneCall_opens
  obtain ⟨hw, hreply, hroots, hkept⟩ := oneCall_request hnamed
  obtain ⟨syms, hforest, hall⟩ := walk_hops_nearest hreply hroots hkept
    (oneCall_copiesAgree hw fun a b ha => (oneCall_steps hw a b ha).mp)
  exact ⟨f, ix, _, syms, hf, hopen, hreply, hforest, fun s hs => hall 1 _ s rfl hs⟩

theorem oneCall_depth_zero :
    oneCall.answers.do_callgraph "f" "down" 0 1 false 1 {} = .ok (.Callgraph (oneCallNodes.take 1) 0 false) := by
  decide +kernel

theorem larger_request_extends_oneCall :
    ∃ f ix, oneCall.finish = .ok f ∧ open_index f = .ok ix ∧
      (ix.queries 1).do_callgraph "f" "down" 0 1 false 1 {} = .ok (.Callgraph (oneCallNodes.take 1) 0 false) ∧
      (ix.queries 1).do_callgraph "f" "down" 1 9 false 1 {} = .ok (.Callgraph oneCallNodes 1 false) ∧
      oneCallNodes.take 1 = oneCallNodes.filter (·.hop ≤ 0) := by
  obtain ⟨f, ix, hf, hopen, hnamed⟩ := oneCall_opens
  have hsmall := oneCall_depth_zero
  have hlarge := oneCall_callgraph
  rw [← hnamed 1, Queries.named_do_callgraph] at hsmall hlarge
  exact ⟨f, ix, hf, hopen, hsmall, hlarge,
    (larger_request_extends (Nat.zero_le 1) (by decide) (.callgraph hsmall) (.callgraph hlarge)).2 rfl⟩

end

end Scry2
