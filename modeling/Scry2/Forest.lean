import Scry2.Walk
import Scry2.Lib.Reach

/-!
# The forest of a walk

The nodes of a walk are kept in step with the symbols they were made for. Each step of the loop adds
nodes at the end, under a node that is there.
-/

open Scry2.Lib
open Std (ExtTreeMap)

namespace Scry2

namespace Walk

section

variable (w : Walk)

/-- The logical key of the stored name of a symbol. -/
def keyOf (s : UInt64) : String :=
  match w.ix.name_of s with
  | .ok name => logical_key name
  | .error _ => ""

/-- A recorded edge in one direction. -/
def Edge (dir : WalkDir) (a b : UInt64) : Prop := ∃ l, w.edges dir a = .ok l ∧ b ∈ l

/-- An edge of one of the copies. -/
def CopyEdge (dir : WalkDir) (a b : UInt64) : Prop := ∃ l, w.union dir a = .ok l ∧ b ∈ l

def Passes (s : UInt64) : Prop := w.pass s = .ok true

/-- A step of the walk that the filters let through. -/
def Steps (a b : UInt64) : Prop := ∃ dir, w.goes dir = true ∧ w.CopyEdge dir a b ∧ w.Passes b

/-- A node for `s` comes from the node at position `p`. -/
structure Comes (syms : List UInt64) (nodes : List CallNode) (p : Nat) (parent : Option UInt32)
    (dir : WalkDir) (hop : Nat) (s : UInt64) : Prop where
  parent : parent = some (UInt32.ofNat p)
  from_ : ∃ node sym, nodes[p]? = some node ∧ syms[p]? = some sym ∧ hop = node.hop + 1 ∧ w.CopyEdge dir sym s
  hop_le : hop ≤ w.depth
  goes : w.goes dir = true

/-- Where a node comes from: nowhere, or from an earlier node. -/
def Origin (syms : List UInt64) (nodes : List CallNode) (i : Nat) (parent : Option UInt32)
    (dir : WalkDir) (hop : Nat) (s : UInt64) : Prop :=
  parent = none ∧ dir = .root ∧ hop = 0 ∨ ∃ p < i, w.Comes syms nodes p parent dir hop s

/-- A node shows its symbol. -/
def Shows (node : CallNode) (s : UInt64) : Prop :=
  ∃ name, w.ix.name_of s = .ok name ∧ w.display s name = .ok node.name ∧ w.ix.kind_of s = .ok node.kind ∧
    w.ix.def_loc_str s = .ok node.def_

/-- The nodes of a walk, each with the symbol it stands for. -/
structure Forest (syms : List UInt64) (nodes : List CallNode) : Prop where
  shows : List.Forall₂ w.Shows nodes syms
  id : ∀ i node, nodes[i]? = some node → node.id = UInt32.ofNat i
  keys : (syms.map w.keyOf).Nodup
  passes : ∀ s ∈ syms, w.Passes s
  hops : nodes.Pairwise (·.hop ≤ ·.hop)
  origin : ∀ i node s, nodes[i]? = some node → syms[i]? = some s →
    w.Origin syms nodes i node.parent node.dir node.hop s

/-- The tables of the walk are those of its nodes. -/
structure Inv (syms : List UInt64) (st : WalkState) : Prop where
  forest : w.Forest syms st.nodes
  rendered : ∀ k, k ∈ st.rendered ↔ k ∈ syms.map w.keyOf
  seen : ∀ s ∈ st.seen, w.keyOf s ∈ syms.map w.keyOf

end

variable {w : Walk} {syms : List UInt64} {nodes : List CallNode}

theorem keyOf_eq {s : UInt64} {name : String} (h : w.ix.name_of s = .ok name) : w.keyOf s = logical_key name := by
  unfold keyOf
  rw [h]

/-! ## One more node -/

theorem getElem?_concat_cases {α : Type} {l : List α} {a b : α} {i : Nat} (h : (l ++ [a])[i]? = some b) :
    l[i]? = some b ∨ i = l.length ∧ b = a := by
  rcases Nat.lt_or_ge i l.length with hi | hi
  · rw [List.getElem?_append_left hi] at h
    exact .inl h
  · rw [List.getElem?_append_right hi] at h
    obtain ⟨hlt, rfl⟩ := List.getElem?_eq_some_iff.mp h
    rw [List.length_singleton] at hlt
    exact .inr ⟨by omega, by simp⟩

theorem getElem?_append_of_some {α : Type} {l : List α} {a : α} {i : Nat} (h : l[i]? = some a) (m : List α) :
    (l ++ m)[i]? = some a := by
  rw [List.getElem?_append_left (List.getElem?_eq_some_iff.mp h).1, h]

theorem Comes.append {p hop : Nat} {parent : Option UInt32} {dir : WalkDir} {s : UInt64}
    (h : w.Comes syms nodes p parent dir hop s) (syms' : List UInt64) (nodes' : List CallNode) :
    w.Comes (syms ++ syms') (nodes ++ nodes') p parent dir hop s := by
  obtain ⟨hid, ⟨node, sym, hnode, hsym, hhop, hedge⟩, hle, hgoes⟩ := h
  exact ⟨hid, ⟨node, sym, getElem?_append_of_some hnode _, getElem?_append_of_some hsym _, hhop, hedge⟩, hle, hgoes⟩

theorem Origin.append {i hop : Nat} {parent : Option UInt32} {dir : WalkDir} {s : UInt64}
    (h : w.Origin syms nodes i parent dir hop s) (syms' : List UInt64) (nodes' : List CallNode) :
    w.Origin (syms ++ syms') (nodes ++ nodes') i parent dir hop s := by
  rcases h with h | ⟨p, hp, h⟩
  · exact .inl h
  · exact .inr ⟨p, hp, h.append _ _⟩

theorem Forest.length (h : w.Forest syms nodes) : syms.length = nodes.length := h.shows.length_eq.symm

theorem Forest.nil : w.Forest [] [] where
  shows := .nil
  id _ _ h := by simp at h
  keys := List.nodup_nil
  passes _ h := absurd h List.not_mem_nil
  hops := .nil
  origin _ _ _ h := by simp at h

theorem Forest.push (h : w.Forest syms nodes) {node : CallNode} {s : UInt64}
    (hid : node.id = UInt32.ofNat nodes.length) (hkey : w.keyOf s ∉ syms.map w.keyOf) (hpass : w.Passes s)
    (hhop : ∀ n ∈ nodes, n.hop ≤ node.hop) (hshows : w.Shows node s)
    (horigin : w.Origin syms nodes nodes.length node.parent node.dir node.hop s) :
    w.Forest (syms ++ [s]) (nodes ++ [node]) where
  shows := List.rel_append h.shows (.cons hshows .nil)
  id i n hn := by
    rcases getElem?_concat_cases hn with hn | ⟨rfl, rfl⟩
    · exact h.id i n hn
    · exact hid
  keys := by
    rw [List.map_append, List.map_singleton, List.nodup_append_comm]
    exact List.nodup_cons.mpr ⟨hkey, h.keys⟩
  passes := by
    intro x hx
    rcases List.mem_append.mp hx with hx | hx
    · exact h.passes x hx
    · rwa [List.mem_singleton.mp hx]
  hops := by
    rw [List.pairwise_append]
    refine ⟨h.hops, List.pairwise_singleton _ _, fun a ha b hb => ?_⟩
    rw [List.mem_singleton.mp hb]
    exact hhop a ha
  origin i n x hn hx := by
    rcases getElem?_concat_cases hn with hn | ⟨rfl, rfl⟩
    · have hi : i < syms.length := h.length ▸ (List.getElem?_eq_some_iff.mp hn).1
      rw [List.getElem?_append_left hi] at hx
      exact (h.origin i n x hn hx).append _ _
    · rw [← h.length, List.getElem?_concat_length, Option.some_inj] at hx
      rw [← hx]
      exact horigin.append _ _

/-! ## One admission -/

section

variable {sym : UInt64} {parent : Option UInt32} {dir : WalkDir} {hop : Nat} {st st' : WalkState}
  {r : Option UInt32}

theorem admitSym_cases (h : w.admitSym sym parent dir hop st = .ok (r, st')) :
    (r = none ∧ st'.nodes = st.nodes ∧ st'.rendered = st.rendered ∧
      (∀ s ∈ st'.seen, s = sym ∨ s ∈ st.seen) ∧ (sym ∈ st.seen ∨ w.keyOf sym ∈ st.rendered)) ∨
    ∃ node : CallNode, r = some node.id ∧ node.id = UInt32.ofNat st.nodes.length ∧ node.parent = parent ∧
      node.dir = dir ∧ node.hop = hop ∧ w.Shows node sym ∧ w.keyOf sym ∉ st.rendered ∧ st'.nodes = st.nodes ++ [node] ∧
      (∀ k, k ∈ st'.rendered ↔ k = w.keyOf sym ∨ k ∈ st.rendered) ∧ ∀ s ∈ st'.seen, s = sym ∨ s ∈ st.seen := by
  unfold admitSym at h
  split_ifs at h with hseen
  · cases h
    exact .inl ⟨rfl, rfl, rfl, fun s hs => .inr hs, .inl hseen⟩
  · obtain ⟨name, hname, h⟩ := Res.bind_eq_ok h
    simp only [← keyOf_eq hname] at h
    have hsub : ∀ (id : UInt32), ∀ s ∈ st.seen.insert sym id, s = sym ∨ s ∈ st.seen := by
      intro at_ s hs
      rw [ExtTreeMap.mem_insert, compare_eq_iff_eq] at hs
      exact hs.imp Eq.symm id
    cases hr : st.rendered[w.keyOf sym]? with
    | some existing =>
      rw [hr] at h
      cases h
      exact .inl ⟨rfl, rfl, rfl, hsub _, .inr (ExtTreeMap.mem_iff_isSome_getElem?.mpr (by rw [hr]; rfl))⟩
    | none =>
      rw [hr] at h
      obtain ⟨def_, hdef, h⟩ := Res.bind_eq_ok h
      obtain ⟨shown, hshown, h⟩ := Res.bind_eq_ok h
      obtain ⟨kind, hkind, h⟩ := Res.bind_eq_ok h
      cases h
      have hnot : w.keyOf sym ∉ st.rendered := by
        rw [ExtTreeMap.mem_iff_isSome_getElem?, hr]
        exact Bool.false_ne_true
      refine .inr ⟨_, rfl, rfl, rfl, rfl, rfl, ⟨name, hname, hshown, hkind, hdef⟩, hnot, rfl, fun k => ?_, hsub _⟩
      rw [ExtTreeMap.mem_insert, compare_eq_iff_eq, eq_comm]

theorem Inv.admitSym (hinv : w.Inv syms st) (h : w.admitSym sym parent dir hop st = .ok (r, st'))
    (hpass : w.Passes sym) (hhop : ∀ n ∈ st.nodes, n.hop ≤ hop)
    (horigin : w.Origin syms st.nodes st.nodes.length parent dir hop sym) :
    (r = none ∧ st'.nodes = st.nodes ∧ w.Inv syms st' ∧ w.keyOf sym ∈ syms.map w.keyOf) ∨
      ∃ node : CallNode, r = some (UInt32.ofNat syms.length) ∧ node.hop = hop ∧
        st'.nodes = st.nodes ++ [node] ∧ w.Inv (syms ++ [sym]) st' := by
  rcases admitSym_cases h with ⟨rfl, hnodes, hrend, hseen, hknown⟩ |
    ⟨node, rfl, hid, rfl, rfl, rfl, hshows, hnew, hnodes, hrend, hseen⟩
  · have hkey : w.keyOf sym ∈ syms.map w.keyOf :=
      hknown.elim (hinv.seen sym) fun hk => (hinv.rendered _).mp hk
    refine .inl ⟨rfl, hnodes, ⟨hnodes ▸ hinv.forest, hrend ▸ hinv.rendered, fun s hs => ?_⟩, hkey⟩
    rcases hseen s hs with rfl | hs
    · exact hkey
    · exact hinv.seen s hs
  · rw [hinv.rendered] at hnew
    refine .inr ⟨node, by rw [hid, hinv.forest.length], rfl, hnodes,
      ⟨hnodes ▸ hinv.forest.push hid hnew hpass hhop hshows horigin, fun k => ?_, fun s hs => ?_⟩⟩
    · rw [hrend, hinv.rendered, List.map_append, List.mem_append, List.map_singleton, List.mem_singleton,
        or_comm]
    · rw [List.map_append, List.mem_append]
      rcases hseen s hs with rfl | hs
      · exact .inr (List.mem_singleton.mpr rfl)
      · exact .inl (hinv.seen s hs)

end

/-! ## One node of the frontier -/

/-- The frontier entries of new nodes, the first of them at position `k`. -/
def entries (k : Nat) (new : List UInt64) : Frontier := (new.zipIdx k).map fun e => (e.1, UInt32.ofNat e.2)

theorem entries_append (k : Nat) (new more : List UInt64) :
    entries k (new ++ more) = entries k new ++ entries (k + new.length) more := by
  rw [entries, List.zipIdx_append, List.map_append]
  rfl

/-- What a stage of the walk does: nodes of one hop are added, and queued for the next. -/
structure Adds (w : Walk) (hop : Nat) (syms new : List UInt64) (st st' : WalkState) (next next' : Frontier) :
    Prop where
  inv : w.Inv (syms ++ new) st'
  nodes : ∃ added : List CallNode, st'.nodes = st.nodes ++ added ∧ added.length = new.length ∧
    ∀ n ∈ added, n.hop = hop
  next : next' = next ++ entries syms.length new

/-- A stage under the cap, and whether the cap ended it. -/
structure Grows (w : Walk) (hop : Nat) (syms new : List UInt64) (st st' : WalkState) (next next' : Frontier)
    (stop : Bool) : Prop extends w.Adds hop syms new st st' next next' where
  open_ : stop = false → new = [] ∨ st'.nodes.length < w.max_syms
  full : stop = true → st'.nodes.length = max w.max_syms (st.nodes.length + 1)

section

variable {hop : Nat} {st st' st'' : WalkState} {next next' next'' : Frontier} {new more : List UInt64} {stop : Bool}

theorem Adds.refl (hinv : w.Inv syms st) (hop : Nat) (next : Frontier) :
    w.Adds hop syms [] st st next next where
  inv := by rwa [List.append_nil]
  nodes := ⟨[], (List.append_nil _).symm, rfl, fun _ h => absurd h List.not_mem_nil⟩
  next := (List.append_nil _).symm

theorem Adds.one {sym : UInt64} {node : CallNode} (hinv : w.Inv (syms ++ [sym]) st')
    (hnodes : st'.nodes = st.nodes ++ [node]) (hhop : node.hop = hop) (next : Frontier) :
    w.Adds hop syms [sym] st st' next (next ++ [(sym, UInt32.ofNat syms.length)]) where
  inv := hinv
  nodes := ⟨[node], hnodes, rfl, List.forall_mem_singleton.mpr hhop⟩
  next := rfl

/-- A symbol that adds nothing leaves the stage as it was. -/
theorem Adds.of_nodes_eq (h : w.Adds hop syms new st' st'' next next') (hnodes : st'.nodes = st.nodes) :
    w.Adds hop syms new st st'' next next' :=
  ⟨h.inv, hnodes ▸ h.nodes, h.next⟩

theorem Adds.trans (h : w.Adds hop syms new st st' next next')
    (h' : w.Adds hop (syms ++ new) more st' st'' next' next'') :
    w.Adds hop syms (new ++ more) st st'' next next'' where
  inv := by
    rw [← List.append_assoc]
    exact h'.inv
  nodes := by
    obtain ⟨added, hnodes, hlen, hhop⟩ := h.nodes
    obtain ⟨added', hnodes', hlen', hhop'⟩ := h'.nodes
    refine ⟨added ++ added', by rw [hnodes', hnodes, List.append_assoc], by simp [hlen, hlen'], fun n hn => ?_⟩
    exact (List.mem_append.mp hn).elim (hhop n) (hhop' n)
  next := by rw [h'.next, h.next, entries_append, List.append_assoc, List.length_append]

theorem Adds.nodes_length (h : w.Adds hop syms new st st' next next') :
    st'.nodes.length = st.nodes.length + new.length := by
  obtain ⟨added, hnodes, hlen, -⟩ := h.nodes
  rw [hnodes, List.length_append, hlen]

theorem Adds.hop_le (h : w.Adds hop syms new st st' next next') (hst : ∀ n ∈ st.nodes, n.hop ≤ hop) :
    ∀ n ∈ st'.nodes, n.hop ≤ hop := by
  obtain ⟨added, hnodes, -, hhop⟩ := h.nodes
  intro n hn
  rw [hnodes, List.mem_append] at hn
  exact hn.elim (hst n) fun hn => (hhop n hn).le

theorem Grows.refl (hinv : w.Inv syms st) (hop : Nat) (next : Frontier) :
    w.Grows hop syms [] st st next next false where
  toAdds := .refl hinv hop next
  open_ _ := .inl rfl
  full h := absurd h Bool.false_ne_true

theorem Grows.trans (h : w.Grows hop syms new st st' next next' false)
    (h' : w.Grows hop (syms ++ new) more st' st'' next' next'' stop) :
    w.Grows hop syms (new ++ more) st st'' next next'' stop where
  toAdds := h.toAdds.trans h'.toAdds
  open_ := by
    intro hstop
    rcases h'.open_ hstop with rfl | hlt
    · have hlen := h'.nodes_length
      rw [List.append_nil, hlen]
      exact h.open_ rfl
    · exact .inr hlt
  full := by
    intro hstop
    have hlen := h.nodes_length
    have hfull := h'.full hstop
    rcases h.open_ rfl with rfl | hlt
    · rw [hfull, hlen]
      rfl
    · omega

theorem Grows.one (h : w.Adds hop syms new st st' next next') (hnew : new.length = 1)
    (hopen : stop = false → st'.nodes.length < w.max_syms) (hfull : stop = true → w.max_syms ≤ st'.nodes.length) :
    w.Grows hop syms new st st' next next' stop where
  toAdds := h
  open_ hstop := .inr (hopen hstop)
  full hstop := by
    have hlen := h.nodes_length
    have hle := hfull hstop
    omega

/-- A frontier entry is a node of the hop before. -/
def At (syms : List UInt64) (nodes : List CallNode) (hop : Nat) (cur : UInt64 × UInt32) : Prop :=
  ∃ p node, nodes[p]? = some node ∧ syms[p]? = some cur.1 ∧ cur.2 = UInt32.ofNat p ∧ hop = node.hop + 1

theorem At.append {cur : UInt64 × UInt32} (h : At syms nodes hop cur) (syms' : List UInt64)
    (nodes' : List CallNode) : At (syms ++ syms') (nodes ++ nodes') hop cur := by
  obtain ⟨p, node, hnode, hsym, hid, hhop⟩ := h
  exact ⟨p, node, getElem?_append_of_some hnode _, getElem?_append_of_some hsym _, hid, hhop⟩

theorem Adds.at_ {cur : UInt64 × UInt32} (h : w.Adds hop syms new st st' next next') {hop' : Nat}
    (hcur : At syms st.nodes hop' cur) : At (syms ++ new) st'.nodes hop' cur := by
  obtain ⟨added, hnodes, -⟩ := h.nodes
  rw [hnodes]
  exact hcur.append _ _

/-- The neighbours of one node are admitted, all of them unless the cap is reached. -/
theorem Inv.admitAll (hinv : w.Inv syms st) {cur : UInt64 × UInt32} (hcur : At syms st.nodes hop cur)
    (hst : ∀ n ∈ st.nodes, n.hop ≤ hop) (hdepth : hop ≤ w.depth) {dir : WalkDir} (hgoes : w.goes dir = true)
    {l : List UInt64} (hl : ∀ s ∈ l, w.CopyEdge dir cur.1 s)
    (h : w.admitAll cur.2 dir hop l st next = .ok (st', next', stop)) :
    ∃ new, w.Grows hop syms new st st' next next' stop ∧
      (stop = false → ∀ s ∈ l, w.Passes s → w.keyOf s ∈ (syms ++ new).map w.keyOf) := by
  induction l generalizing syms st next with
  | nil =>
    cases h
    exact ⟨[], .refl hinv hop _, fun _ s hs => absurd hs List.not_mem_nil⟩
  | cons sym l ih =>
    rw [Walk.admitAll] at h
    obtain ⟨ok, hok, h⟩ := Res.bind_eq_ok h
    cases ok with
    | false =>
      obtain ⟨new, hgrows, hall⟩ := ih hinv hcur hst (fun s hs => hl s (List.mem_cons_of_mem _ hs)) h
      refine ⟨new, hgrows, fun hstop s hs hpass => ?_⟩
      rcases List.mem_cons.mp hs with rfl | hs
      · cases hok.symm.trans hpass
      · exact hall hstop s hs hpass
    | true =>
      obtain ⟨⟨r, st₁⟩, hsym, h⟩ := Res.bind_eq_ok h
      have horigin : w.Origin syms st.nodes st.nodes.length (some cur.2) dir hop sym := by
        obtain ⟨p, node, hnode, hsym, hid, hhop⟩ := hcur
        exact .inr ⟨p, (List.getElem?_eq_some_iff.mp hnode).1, congrArg some hid,
          ⟨node, cur.1, hnode, hsym, hhop, hl sym List.mem_cons_self⟩, hdepth, hgoes⟩
      have hl' : ∀ s ∈ l, w.CopyEdge dir cur.1 s := fun s hs => hl s (List.mem_cons_of_mem _ hs)
      rcases hinv.admitSym hsym hok hst horigin with ⟨rfl, hnodes, hinv₁, hkey⟩ | ⟨node, rfl, hhop, hnodes, hinv₁⟩
      · rw [← hnodes] at hcur hst
        obtain ⟨new, hgrows, hall⟩ := ih hinv₁ hcur hst hl' h
        have hsame : w.Grows hop syms new st st' next next' stop :=
          ⟨hgrows.of_nodes_eq hnodes, hgrows.open_, hnodes ▸ hgrows.full⟩
        refine ⟨new, hsame, fun hstop s hs hpass => ?_⟩
        rcases List.mem_cons.mp hs with rfl | hs
        · rw [List.map_append, List.mem_append]
          exact .inl hkey
        · exact hall hstop s hs hpass
      · have hone := Adds.one hinv₁ hnodes hhop next
        simp only at h
        split_ifs at h with hcap
        · cases h
          exact ⟨[sym], .one hone rfl (fun hstop => absurd hstop.symm Bool.false_ne_true) fun _ => hcap,
            fun hstop => absurd hstop.symm Bool.false_ne_true⟩
        · have hgrows₁ : w.Grows hop syms [sym] st st₁ next _ false :=
            .one hone rfl (fun _ => not_le.mp hcap) fun hstop => absurd hstop Bool.false_ne_true
          have hcur₁ : At (syms ++ [sym]) st₁.nodes hop cur := hnodes ▸ hcur.append _ _
          obtain ⟨new, hgrows, hall⟩ := ih hinv₁ hcur₁ (hgrows₁.hop_le hst) hl' h
          refine ⟨sym :: new, hgrows₁.trans hgrows, fun hstop s hs hpass => ?_⟩
          rcases List.mem_cons.mp hs with rfl | hs
          · simp
          · have hmem := hall hstop s hs hpass
            rwa [List.append_assoc] at hmem

theorem Inv.expandDir (hinv : w.Inv syms st) {cur : UInt64 × UInt32} (hcur : At syms st.nodes hop cur)
    (hst : ∀ n ∈ st.nodes, n.hop ≤ hop) (hdepth : hop ≤ w.depth) {dir : WalkDir}
    (h : w.expandDir cur dir hop st next = .ok (st', next', stop)) :
    ∃ new, w.Grows hop syms new st st' next next' stop ∧
      (stop = false → w.goes dir = true → ∀ s, w.CopyEdge dir cur.1 s → w.Passes s →
        w.keyOf s ∈ (syms ++ new).map w.keyOf) := by
  unfold Walk.expandDir at h
  split_ifs at h with hgoes
  · obtain ⟨l, hl, h⟩ := Res.bind_eq_ok h
    obtain ⟨new, hgrows, hall⟩ := hinv.admitAll hcur hst hdepth hgoes (fun s hs => ⟨l, hl, hs⟩) h
    refine ⟨new, hgrows, fun hstop _ s hs hpass => ?_⟩
    obtain ⟨l', hl', hs⟩ := hs
    cases hl.symm.trans hl'
    exact hall hstop s hs hpass
  · cases h
    exact ⟨[], .refl hinv hop _, fun _ hg => absurd hg hgoes⟩

theorem keys_append {s : UInt64} (h : w.keyOf s ∈ syms.map w.keyOf) (new : List UInt64) :
    w.keyOf s ∈ (syms ++ new).map w.keyOf := by
  rw [List.map_append, List.mem_append]
  exact .inl h

theorem Inv.expandAll (hinv : w.Inv syms st) {frontier : Frontier}
    (hcur : ∀ cur ∈ frontier, At syms st.nodes hop cur) (hst : ∀ n ∈ st.nodes, n.hop ≤ hop)
    (hdepth : hop ≤ w.depth) (h : w.expandAll hop frontier st next = .ok (st', next', stop)) :
    ∃ new, w.Grows hop syms new st st' next next' stop ∧
      (stop = false → ∀ cur ∈ frontier, ∀ s, w.Steps cur.1 s → w.keyOf s ∈ (syms ++ new).map w.keyOf) := by
  induction frontier generalizing syms st next with
  | nil =>
    cases h
    exact ⟨[], .refl hinv hop _, fun _ cur hc => absurd hc List.not_mem_nil⟩
  | cons cur frontier ih =>
    rw [Walk.expandAll] at h
    have hhead := hcur cur List.mem_cons_self
    obtain ⟨⟨st₁, next₁, stop₁⟩, hup, h⟩ := Res.bind_eq_ok h
    obtain ⟨new₁, hgrows₁, hall₁⟩ := hinv.expandDir hhead hst hdepth hup
    cases stop₁ with
    | true =>
      cases h
      exact ⟨new₁, hgrows₁, fun hstop => absurd hstop.symm Bool.false_ne_true⟩
    | false =>
      obtain ⟨⟨st₂, next₂, stop₂⟩, hdown, h⟩ := Res.bind_eq_ok h
      have hst₁ := hgrows₁.hop_le hst
      obtain ⟨new₂, hgrows₂, hall₂⟩ := hgrows₁.inv.expandDir (hgrows₁.at_ hhead) hst₁ hdepth hdown
      cases stop₂ with
      | true =>
        cases h
        exact ⟨new₁ ++ new₂, hgrows₁.trans hgrows₂, fun hstop => absurd hstop.symm Bool.false_ne_true⟩
      | false =>
        have hgrows := hgrows₁.trans hgrows₂
        obtain ⟨new, hrest, hall⟩ := ih hgrows.inv
          (fun c hc => hgrows.at_ (hcur c (List.mem_cons_of_mem _ hc))) (hgrows.hop_le hst) h
        refine ⟨new₁ ++ new₂ ++ new, hgrows.trans hrest, fun hstop c hc s hs => ?_⟩
        rcases List.mem_cons.mp hc with rfl | hc
        · obtain ⟨dir, hgoes, hedge, hpass⟩ := hs
          rw [← List.append_assoc, ← List.append_assoc]
          refine keys_append ?_ _
          cases dir with
          | root => exact absurd hgoes Bool.false_ne_true
          | up => exact keys_append (hall₁ rfl hgoes s hedge hpass) _
          | down => exact hall₂ rfl hgoes s hedge hpass
        · rw [← List.append_assoc]
          exact hall hstop c hc s hs

end

end Walk

end Scry2
