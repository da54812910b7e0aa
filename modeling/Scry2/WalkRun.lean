import Scry2.Forest
import Scry2.Answers

/-!
# Whole walks

Hop by hop the walk expands every node of the hop before. Its answer is a forest in breadth-first
order.
-/

open Scry2.Lib
open Std (ExtTreeMap)

namespace Scry2

namespace Walk

variable {w : Walk} {syms : List UInt64} {nodes : List CallNode}

/-! ## All hops -/

/-- A node for `s` at hop `h`. -/
def Held (syms : List UInt64) (nodes : List CallNode) (s : UInt64) (h : Nat) : Prop :=
  ∃ (i : Nat) (node : CallNode), syms[i]? = some s ∧ nodes[i]? = some node ∧ node.hop = h

/-- Every step from `s` leads to a key that has a node one hop further, or nearer. -/
def Expanded (w : Walk) (syms : List UInt64) (nodes : List CallNode) (s : UInt64) (h : Nat) : Prop :=
  ∀ x, w.Steps s x → ∃ z g, Held syms nodes z g ∧ g ≤ h + 1 ∧ w.keyOf z = w.keyOf x

/-- All nodes before the hop before the last are expanded. -/
def DoneBelow (w : Walk) (syms : List UInt64) (nodes : List CallNode) : Prop :=
  ∀ s h, Held syms nodes s h → (∃ n ∈ nodes, h + 1 < n.hop) → w.Expanded syms nodes s h

theorem Held.append {s : UInt64} {h : Nat} (hs : Held syms nodes s h) (syms' : List UInt64)
    (nodes' : List CallNode) : Held (syms ++ syms') (nodes ++ nodes') s h := by
  obtain ⟨i, node, hsym, hnode, hhop⟩ := hs
  exact ⟨i, node, getElem?_append_of_some hsym _, getElem?_append_of_some hnode _, hhop⟩

theorem Expanded.append {s : UInt64} {h : Nat} (hs : w.Expanded syms nodes s h) (syms' : List UInt64)
    (nodes' : List CallNode) : w.Expanded (syms ++ syms') (nodes ++ nodes') s h := by
  intro x hx
  obtain ⟨z, g, hz, hg, hkey⟩ := hs x hx
  exact ⟨z, g, hz.append _ _, hg, hkey⟩

/-- A node is one of the old ones, or a new one with its frontier entry. -/
theorem Held.append_cases {new : List UInt64} {added : List CallNode} (hlen : syms.length = nodes.length)
    {s : UInt64} {h : Nat} (hs : Held (syms ++ new) (nodes ++ added) s h) :
    Held syms nodes s h ∨ (∃ id, (s, id) ∈ entries syms.length new) ∧ ∃ n ∈ added, n.hop = h := by
  obtain ⟨i, node, hsym, hnode, hhop⟩ := hs
  rcases Nat.lt_or_ge i nodes.length with hi | hi
  · rw [List.getElem?_append_left (by omega)] at hsym
    rw [List.getElem?_append_left hi] at hnode
    exact .inl ⟨i, node, hsym, hnode, hhop⟩
  · rw [List.getElem?_append_right (by omega)] at hsym
    rw [List.getElem?_append_right hi] at hnode
    refine .inr ⟨⟨UInt32.ofNat i, ?_⟩, node, List.mem_of_getElem? hnode, hhop⟩
    rw [entries, List.mem_map]
    refine ⟨(s, i), ?_, rfl⟩
    rw [List.mem_zipIdx_iff_le_and_getElem?_sub]
    exact ⟨by omega, hsym⟩

theorem Forest.held_of_key (h : w.Forest syms nodes) {s : UInt64} (hs : w.keyOf s ∈ syms.map w.keyOf) :
    ∃ z node, z ∈ syms ∧ node ∈ nodes ∧ Held syms nodes z node.hop ∧ w.keyOf z = w.keyOf s := by
  obtain ⟨z, hz, hkey⟩ := List.mem_map.mp hs
  obtain ⟨i, hi, rfl⟩ := List.getElem_of_mem hz
  have hi' : i < nodes.length := h.length ▸ hi
  exact ⟨_, nodes[i], hz, List.getElem_mem hi', ⟨i, _, List.getElem?_eq_getElem hi, List.getElem?_eq_getElem hi',
    rfl⟩, hkey⟩

/-- Before a hop: the nodes of the hop before are queued, those of earlier hops are done. -/
structure Level (w : Walk) (hop : Nat) (syms : List UInt64) (st : WalkState) (frontier : Frontier) : Prop where
  inv : w.Inv syms st
  at_ : ∀ cur ∈ frontier, At syms st.nodes hop cur
  hop_lt : ∀ n ∈ st.nodes, n.hop < hop
  done : ∀ s h, Held syms st.nodes s h → h + 1 < hop → w.Expanded syms st.nodes s h
  queued : ∀ s h, Held syms st.nodes s h → h + 1 = hop → ∃ id, (s, id) ∈ frontier

section

variable {hop : Nat} {st st' : WalkState} {frontier next : Frontier} {new : List UInt64} {stop : Bool}

/-- After a hop that was not cut, all nodes of the hops before it are done. -/
theorem Level.done_after (hlevel : w.Level hop syms st frontier)
    (hgrows : w.Adds hop syms new st st' [] next)
    (hall : ∀ cur ∈ frontier, ∀ s, w.Steps cur.1 s → w.keyOf s ∈ (syms ++ new).map w.keyOf) {s : UInt64} {h : Nat}
    (hs : Held (syms ++ new) st'.nodes s h) (hh : h < hop) : w.Expanded (syms ++ new) st'.nodes s h := by
  have hle := hgrows.hop_le fun n hn => (hlevel.hop_lt n hn).le
  obtain ⟨added, hnodes, -, hadded⟩ := hgrows.nodes
  have hold : Held syms st.nodes s h := by
    rw [hnodes] at hs
    rcases hs.append_cases hlevel.inv.forest.length with hs | ⟨-, n, hn, rfl⟩
    · exact hs
    · exact absurd (hadded n hn) hh.ne
  rcases Nat.lt_or_ge (h + 1) hop with hlt | hge
  · rw [hnodes]
    exact (hlevel.done s h hold hlt).append _ _
  · obtain ⟨id, hid⟩ := hlevel.queued s h hold (by omega)
    intro x hx
    obtain ⟨z, node, -, hnode, hz, hkey⟩ := hgrows.inv.forest.held_of_key (hall _ hid x hx)
    exact ⟨z, _, hz, by have := hle node hnode; omega, hkey⟩

theorem Level.after (hlevel : w.Level hop syms st frontier) (hgrows : w.Adds hop syms new st st' [] next)
    (hall : ∀ cur ∈ frontier, ∀ s, w.Steps cur.1 s → w.keyOf s ∈ (syms ++ new).map w.keyOf) :
    w.Level (hop + 1) (syms ++ new) st' next where
  inv := hgrows.inv
  at_ := by
    intro cur hcur
    obtain ⟨added, hnodes, hlen, hadded⟩ := hgrows.nodes
    rw [hgrows.next, List.nil_append, entries, List.mem_map] at hcur
    obtain ⟨⟨s, i⟩, hi, rfl⟩ := hcur
    rw [List.mem_zipIdx_iff_le_and_getElem?_sub] at hi
    obtain ⟨hle, hi⟩ := hi
    have hbound := (List.getElem?_eq_some_iff.mp hi).1
    have hlen' := hlevel.inv.forest.length
    have hnode : added[i - syms.length]? = some added[i - syms.length] :=
      List.getElem?_eq_getElem (by rw [hlen]; exact hbound)
    refine ⟨i, added[i - syms.length], ?_, ?_, rfl, ?_⟩
    · rw [hnodes, List.getElem?_append_right (by omega), ← hlen', hnode]
    · rw [List.getElem?_append_right hle, hi]
    · rw [hadded _ (List.mem_of_getElem? hnode)]
  hop_lt := by
    intro n hn
    have := hgrows.hop_le (fun n hn => (hlevel.hop_lt n hn).le) n hn
    omega
  done s h hs hh := hlevel.done_after hgrows hall hs (by omega)
  queued := by
    intro s h hs hh
    obtain ⟨added, hnodes, -, hadded⟩ := hgrows.nodes
    rw [hnodes] at hs
    rw [hgrows.next, List.nil_append]
    rcases hs.append_cases hlevel.inv.forest.length with ⟨i, node, -, hnode, rfl⟩ | ⟨hid, -⟩
    · have := hlevel.hop_lt node (List.mem_of_getElem? hnode)
      omega
    · exact hid

theorem Level.hops {left : Nat} (hlevel : w.Level hop syms st frontier) (hleft : left + hop = w.depth + 1)
    (h : w.hops left hop frontier st = .ok (st', stop)) :
    ∃ new added, w.Inv (syms ++ new) st' ∧ st'.nodes = st.nodes ++ added ∧ added.length = new.length ∧
      (∀ n ∈ added, hop ≤ n.hop) ∧
      (stop = false → (new = [] ∨ st'.nodes.length < w.max_syms) ∧
        ∀ s h, Held (syms ++ new) st'.nodes s h → h < w.depth → w.Expanded (syms ++ new) st'.nodes s h) ∧
      (stop = true → st'.nodes.length = max w.max_syms (st.nodes.length + 1)) ∧
      w.DoneBelow (syms ++ new) st'.nodes := by
  induction left generalizing hop syms st frontier with
  | zero =>
    cases h
    refine ⟨[], [], by rw [List.append_nil]; exact hlevel.inv, (List.append_nil _).symm, rfl,
      fun _ hn => absurd hn List.not_mem_nil, fun _ => ⟨.inl rfl, fun s h hs hh => ?_⟩,
      fun hstop => absurd hstop Bool.false_ne_true, fun s h hs hh => ?_⟩
    · rw [List.append_nil] at hs ⊢
      exact hlevel.done s h hs (by omega)
    · obtain ⟨n, hn, hh⟩ := hh
      have hlast := hlevel.hop_lt n hn
      rw [List.append_nil] at hs ⊢
      exact hlevel.done s h hs (by omega)
  | succ left ih =>
    rw [Walk.hops] at h
    obtain ⟨⟨st₁, next, stop₁⟩, hexpand, h⟩ := Res.bind_eq_ok h
    obtain ⟨new, hgrows, hall⟩ := hlevel.inv.expandAll hlevel.at_ (fun n hn => (hlevel.hop_lt n hn).le)
      (by omega) hexpand
    obtain ⟨added, hnodes, hadded, hhop⟩ := hgrows.nodes
    have hhop : ∀ n ∈ added, hop ≤ n.hop := fun n hn => (hhop n hn).ge
    cases stop₁ with
    | true =>
      cases h
      refine ⟨new, added, hgrows.inv, hnodes, hadded, hhop, fun hstop => absurd hstop.symm Bool.false_ne_true,
        hgrows.full, fun s h hs hh => ?_⟩
      obtain ⟨n, hn, hh⟩ := hh
      have hlast := hgrows.hop_le (fun n hn => (hlevel.hop_lt n hn).le) n hn
      rw [hnodes] at hs ⊢
      rcases hs.append_cases hlevel.inv.forest.length with hold | ⟨-, n', hn', rfl⟩
      · exact (hlevel.done s h hold (by omega)).append _ _
      · have := hhop n' hn'
        omega
    | false =>
      have hall := hall rfl
      simp only [Bool.false_eq_true, if_false] at h
      split_ifs at h with hnil
      · -- Nothing new: the walk ends on its own.
        cases h
        have hnew : new = [] := by
          have hnext := hgrows.next
          rw [hnil, List.nil_append, entries, eq_comm, List.map_eq_nil_iff, List.zipIdx_eq_nil_iff] at hnext
          exact hnext
        have hdone : ∀ s h, Held (syms ++ new) st'.nodes s h → w.Expanded (syms ++ new) st'.nodes s h := by
          intro s h hs
          refine hlevel.done_after hgrows.toAdds hall hs ?_
          obtain ⟨i, node, -, hnode, rfl⟩ := hs
          rw [hnew, List.length_nil, List.length_eq_zero_iff] at hadded
          rw [hnodes, hadded, List.append_nil] at hnode
          exact hlevel.hop_lt node (List.mem_of_getElem? hnode)
        exact ⟨new, added, hgrows.inv, hnodes, hadded, hhop, fun _ => ⟨hgrows.open_ rfl, fun s h hs _ => hdone s h hs⟩,
          fun hstop => absurd hstop Bool.false_ne_true, fun s h hs _ => hdone s h hs⟩
      · obtain ⟨more, added', hinv, hnodes', hadded', hhop', hopen, hfull, hbelow⟩ :=
          ih (hlevel.after hgrows.toAdds hall) (by omega) h
        have hlen := hgrows.nodes_length
        refine ⟨new ++ more, added ++ added', by rw [← List.append_assoc]; exact hinv,
          by rw [hnodes', hnodes, List.append_assoc], by simp [hadded, hadded'], fun n hn => ?_, fun hstop => ?_,
          fun hstop => ?_, by rw [← List.append_assoc]; exact hbelow⟩
        · rcases List.mem_append.mp hn with hn | hn
          · exact hhop n hn
          · exact (Nat.le_succ _).trans (hhop' n hn)
        · rw [← List.append_assoc]
          refine ⟨?_, (hopen hstop).2⟩
          rcases (hopen hstop).1 with rfl | hlt
          · rw [List.length_nil, List.length_eq_zero_iff] at hadded'
            rw [List.append_nil, hnodes', hadded', List.append_nil]
            exact hgrows.open_ rfl
          · exact .inr hlt
        · have hfull := hfull hstop
          rcases hgrows.open_ rfl with rfl | hlt
          · rw [hfull, hlen]
            rfl
          · omega

theorem Inv.admitRoots {roots : List UInt64} (hinv : w.Inv syms st) (hpass : ∀ r ∈ roots, w.Passes r)
    (hhop : ∀ n ∈ st.nodes, n.hop ≤ 0) (h : w.admitRoots roots st frontier = .ok (st', next)) :
    ∃ new, w.Adds 0 syms new st st' frontier next ∧ new ⊆ roots ∧
      ∀ r ∈ roots, w.keyOf r ∈ (syms ++ new).map w.keyOf := by
  induction roots generalizing syms st frontier with
  | nil =>
    cases h
    exact ⟨[], .refl hinv 0 _, List.nil_subset _, fun r hr => absurd hr List.not_mem_nil⟩
  | cons root roots ih =>
    rw [Walk.admitRoots] at h
    obtain ⟨⟨r, st₁⟩, hsym, h⟩ := Res.bind_eq_ok h
    have hpass' : ∀ r ∈ roots, w.Passes r := fun r hr => hpass r (List.mem_cons_of_mem _ hr)
    rcases hinv.admitSym hsym (hpass root List.mem_cons_self) hhop (.inl ⟨rfl, rfl, rfl⟩) with
      ⟨rfl, hnodes, hinv₁, hkey⟩ | ⟨node, rfl, hnode, hnodes, hinv₁⟩
    · obtain ⟨new, hadds, hsub, hall⟩ := ih hinv₁ hpass' (hnodes ▸ hhop) h
      refine ⟨new, hadds.of_nodes_eq hnodes, List.subset_cons_of_subset _ hsub, fun r hr => ?_⟩
      rcases List.mem_cons.mp hr with rfl | hr
      · exact keys_append hkey _
      · exact hall r hr
    · have hone := Adds.one hinv₁ hnodes hnode frontier
      obtain ⟨new, hadds, hsub, hall⟩ := ih hinv₁ hpass' (hone.hop_le hhop) h
      refine ⟨root :: new, hone.trans hadds, List.cons_subset_cons _ hsub, fun r hr => ?_⟩
      rcases List.mem_cons.mp hr with rfl | hr
      · simp
      · have hmem := hall r hr
        rwa [List.append_assoc] at hmem

end

/-! ## A whole walk -/

theorem Inv.empty : w.Inv [] {} where
  forest := .nil
  rendered k := by simp
  seen s hs := absurd hs ExtTreeMap.not_mem_empty

theorem Level.zero : w.Level 0 [] {} [] where
  inv := .empty
  at_ _ h := absurd h List.not_mem_nil
  hop_lt _ h := absurd h List.not_mem_nil
  done _ _ _ h := absurd h (Nat.not_lt_zero _)
  queued _ _ _ h := absurd h (Nat.succ_ne_zero _)

/-- What a walk from the roots `roots` answers. -/
structure Answer (w : Walk) (roots first new : List UInt64) (nodes : List CallNode) (total : Nat)
    (truncated : Bool) : Prop where
  forest : w.Forest (first ++ new) nodes
  subset : first ⊆ roots
  roots : ∀ r ∈ roots, w.keyOf r ∈ first.map w.keyOf
  held : ∀ s, Held (first ++ new) nodes s 0 ↔ s ∈ first
  total : total = (nodes.filter fun n => n.hop ≠ 0).length
  open_ : truncated = false → new = [] ∨ nodes.length < w.max_syms
  expanded : truncated = false → ∀ s h, Held (first ++ new) nodes s h → h < w.depth →
    w.Expanded (first ++ new) nodes s h
  full : truncated = true → nodes.length = max w.max_syms (first.length + 1)

theorem mem_filterM {α : Type} {f : α → Res Bool} {l m : List α} (h : l.filterM f = .ok m) :
    ∀ a, a ∈ m ↔ a ∈ l ∧ f a = .ok true := by
  have haux : ∀ (l acc : List α) (m : List α), List.filterAuxM f l acc = .ok m →
      ∀ a, a ∈ m ↔ a ∈ acc ∨ a ∈ l ∧ f a = .ok true := by
    intro l
    induction l with
    | nil =>
      intro acc m h a
      cases h
      simp
    | cons b l ih =>
      intro acc m h a
      obtain ⟨ok, hok, h⟩ := Res.bind_eq_ok h
      rw [ih _ m h a, List.mem_cons]
      cases ok with
      | false =>
        refine or_congr Iff.rfl ⟨fun ⟨ha, hf⟩ => ⟨.inr ha, hf⟩, fun ⟨ha, hf⟩ => ⟨ha.resolve_left ?_, hf⟩⟩
        rintro rfl
        cases hok.symm.trans hf
      | true =>
        rw [cond_true, List.mem_cons, or_and_right, ← or_assoc]
        refine or_congr ⟨?_, ?_⟩ Iff.rfl
        · rintro (rfl | ha)
          · exact .inr ⟨rfl, hok⟩
          · exact .inl ha
        · rintro (ha | ⟨rfl, -⟩)
          · exact .inr ha
          · exact .inl rfl
  obtain ⟨r, hr, h⟩ := Res.bind_eq_ok h
  cases h
  intro a
  rw [List.mem_reverse, haux l [] r hr a]
  simp

theorem run_answer {roots : List UInt64} {total : Nat} {truncated : Bool}
    (h : w.run roots = .ok (nodes, total, truncated)) :
    ∃ kept first new, w.filterRoots roots = .ok kept ∧ w.Answer kept first new nodes total truncated ∧
      w.DoneBelow (first ++ new) nodes := by
  unfold run at h
  obtain ⟨kept, hkept, h⟩ := Res.bind_eq_ok h
  have hpass : ∀ r ∈ kept, w.Passes r := by
    unfold filterRoots at hkept
    obtain ⟨some_, -, hkept⟩ := Res.bind_eq_ok hkept
    exact fun r hr => ((mem_filterM hkept r).mp hr).2
  refine ⟨kept, ?_⟩
  split_ifs at h with hnil
  · cases h
    have hno : ∀ s h, ¬ Held [] [] s h := by
      rintro s h ⟨i, node, -, hnode, -⟩
      simp at hnode
    refine ⟨[], [], hkept, ⟨.nil, List.nil_subset _, ?_, ?_, rfl, fun _ => .inl rfl, ?_, ?_⟩,
      fun s h hs => absurd hs (hno s h)⟩
    · rw [hnil]
      exact fun r hr => absurd hr List.not_mem_nil
    · exact fun s => ⟨fun hs => absurd hs (hno s 0), fun hs => absurd hs List.not_mem_nil⟩
    · exact fun _ s h hs => absurd hs (hno s h)
    · exact fun hstop => absurd hstop Bool.false_ne_true
  · obtain ⟨⟨st, frontier⟩, hroots, h⟩ := Res.bind_eq_ok h
    obtain ⟨⟨st', stop⟩, hhops, h⟩ := Res.bind_eq_ok h
    cases h
    obtain ⟨first, hadds, hsub, hall⟩ := Inv.empty.admitRoots hpass (fun n hn => absurd hn List.not_mem_nil) hroots
    have hlevel := Level.zero.after hadds fun cur hc => absurd hc List.not_mem_nil
    obtain ⟨new, added, hinv, hnodes, -, hhop, hopen, hfull, hbelow⟩ := hlevel.hops (by omega) hhops
    have hfirst : st.nodes.length = first.length := hadds.nodes_length.trans (Nat.zero_add _)
    refine ⟨first, new, hkept, ⟨hinv.forest, hsub, hall, fun s => ⟨fun hs => ?_, fun hs => ?_⟩, ?_,
      fun hstop => (hopen hstop).1, fun hstop => (hopen hstop).2, fun hstop => ?_⟩, hbelow⟩
    · rw [hnodes] at hs
      rcases hs.append_cases hfirst.symm with ⟨i, node, hsym, -⟩ | ⟨-, n, hn, hzero⟩
      · exact List.mem_of_getElem? hsym
      · have := hhop n hn
        omega
    · obtain ⟨i, hi, rfl⟩ := List.getElem_of_mem hs
      have hi' : i < st.nodes.length := hfirst ▸ hi
      have hzero := hadds.hop_le (fun n hn => absurd hn List.not_mem_nil) _ (List.getElem_mem hi')
      have hheld : Held first st.nodes first[i] 0 :=
        ⟨i, _, List.getElem?_eq_getElem hi, List.getElem?_eq_getElem hi', Nat.le_zero.mp hzero⟩
      rw [hnodes]
      exact hheld.append _ _
    · have hsplit := List.length_eq_length_filter_add (l := st'.nodes) fun n => decide (n.hop = 0)
      simp only [decide_not, ne_eq]
      omega
    · rw [hfull hstop, hfirst]

/-! ## What the nodes are -/

theorem mem_mapM {α β : Type} {f : α → Res (List β)} {l : List α} {outs : List (List β)} (h : l.mapM f = .ok outs)
    (b : β) : b ∈ outs.flatten ↔ ∃ a ∈ l, ∃ out, f a = .ok out ∧ b ∈ out := by
  induction l generalizing outs with
  | nil =>
    cases h
    simp
  | cons a l ih =>
    rw [List.mapM_cons] at h
    obtain ⟨out, hout, h⟩ := Res.bind_eq_ok h
    obtain ⟨rest, hrest, h⟩ := Res.bind_eq_ok h
    cases h
    rw [List.flatten_cons, List.mem_append, ih hrest]
    simp [hout]

theorem keyOf_of_mem_dup_syms {rep s : UInt64} {group : List UInt64} (h : w.dup_syms rep = .ok group)
    (hs : s ∈ group) : w.keyOf s = w.keyOf rep := by
  unfold dup_syms at h
  obtain ⟨name, hname, h⟩ := Res.bind_eq_ok h
  obtain ⟨listed, -, h⟩ := Res.bind_eq_ok h
  obtain ⟨kept, hkept, h⟩ := Res.bind_eq_ok h
  have hall : ∀ x ∈ kept, w.keyOf x = w.keyOf rep := by
    intro x hx
    obtain ⟨n, hn, hx⟩ := Res.bind_eq_ok ((mem_filterM hkept x).mp hx).2
    cases hdec : decide (logical_key n = logical_key name) with
    | false =>
      rw [hdec] at hx
      cases hx
    | true => rw [keyOf_eq hn, keyOf_eq hname, of_decide_eq_true hdec]
  cases h
  split_ifs at hs with hmem
  · exact hall s hs
  · rcases List.mem_append.mp hs with hs | hs
    · exact hall s hs
    · rw [List.mem_singleton.mp hs]

theorem copyEdge_iff {dir : WalkDir} {a b : UInt64} (h : w.CopyEdge dir a b) :
    ∃ copy, w.keyOf copy = w.keyOf a ∧ w.Edge dir copy b := by
  obtain ⟨l, hl, hb⟩ := h
  unfold union at hl
  obtain ⟨group, hgroup, hl⟩ := Res.bind_eq_ok hl
  obtain ⟨outs, houts, hl⟩ := Res.bind_eq_ok hl
  cases hl
  obtain ⟨copy, hcopy, out, hout, hb⟩ := (mem_mapM houts b).mp (mem_sortDedup.mp hb)
  exact ⟨copy, keyOf_of_mem_dup_syms hgroup hcopy, out, hout, hb⟩

/-- A list of nodes is a forest in breadth-first order, for the symbols `syms`. -/
structure ProperForest (w : Walk) (syms : List UInt64) (nodes : List CallNode) (total : Nat) : Prop where
  shows : List.Forall₂ w.Shows nodes syms
  id : ∀ (i : Nat) (node : CallNode), nodes[i]? = some node → node.id = UInt32.ofNat i
  root : ∀ node ∈ nodes, (node.parent = none ↔ node.hop = 0) ∧ (node.hop = 0 ↔ node.dir = .root)
  parent : ∀ (i : Nat) (node : CallNode) (s : UInt64), nodes[i]? = some node → syms[i]? = some s → node.hop ≠ 0 →
    ∃ p < i, ∃ (from_ : CallNode) (sym : UInt64), nodes[p]? = some from_ ∧ syms[p]? = some sym ∧ node.parent = some from_.id ∧
      node.hop = from_.hop + 1 ∧ node.hop ≤ w.depth ∧ ∃ copy, w.keyOf copy = w.keyOf sym ∧ w.Edge node.dir copy s
  hops : nodes.Pairwise (·.hop ≤ ·.hop)
  keys : (syms.map w.keyOf).Nodup
  passes : ∀ s ∈ syms, w.Passes s
  total : total = (nodes.filter fun n => n.hop ≠ 0).length
  id_lt : nodes.length ≤ 2 ^ 32 → ∀ (i : Nat) (node : CallNode), nodes[i]? = some node →
    node.id.toNat = i ∧ ∀ q, node.parent = some q → q < node.id

theorem Forest.proper (h : w.Forest syms nodes) {total : Nat}
    (htotal : total = (nodes.filter fun n => n.hop ≠ 0).length) : w.ProperForest syms nodes total where
  shows := h.shows
  id := h.id
  root := by
    intro node hnode
    obtain ⟨i, hi, rfl⟩ := List.getElem_of_mem hnode
    have hi' : i < syms.length := h.length ▸ hi
    rcases h.origin i _ _ (List.getElem?_eq_getElem hi) (List.getElem?_eq_getElem hi') with
      ⟨hp, hd, hh⟩ | ⟨p, -, hp, ⟨from_, sym, -, -, hh, -⟩, -, hg⟩
    · simp [hp, hd, hh]
    · have hdir : nodes[i].dir ≠ .root := by
        intro hd
        rw [hd] at hg
        exact absurd hg Bool.false_ne_true
      simp [hp, hh, hdir]
  parent := by
    intro i node s hnode hs hne
    rcases h.origin i node s hnode hs with ⟨-, -, hh⟩ | ⟨p, hpi, hp, ⟨from_, sym, hfrom, hsym, hh, hedge⟩, hle, -⟩
    · exact absurd hh hne
    · exact ⟨p, hpi, from_, sym, hfrom, hsym, by rw [hp, h.id p from_ hfrom], hh, hle, copyEdge_iff hedge⟩
  hops := h.hops
  keys := h.keys
  passes := h.passes
  total := htotal
  id_lt := by
    intro hlen i node hnode
    have hi := (List.getElem?_eq_some_iff.mp hnode).1
    have hid : node.id.toNat = i := by
      rw [h.id i node hnode, UInt32.toNat_ofNat']
      exact Nat.mod_eq_of_lt (by omega)
    refine ⟨hid, fun q hq => ?_⟩
    have hi' : i < syms.length := h.length ▸ hi
    rcases h.origin i node _ hnode (List.getElem?_eq_getElem hi') with ⟨hp, -⟩ | ⟨p, hpi, hp, -⟩
    · cases hp.symm.trans hq
    · cases hp.symm.trans hq
      rw [UInt32.lt_iff_toNat_lt, hid, UInt32.toNat_ofNat', Nat.mod_eq_of_lt (by omega)]
      exact hpi

end Walk

/-! ## Both verbs -/

/-- A walk that a request asks for, and what is answered. -/
inductive Queries.Replies (ix : Queries) (name direction : String) (depth max_syms : Nat) (substr : Bool)
    (root_limit : Nat) (filt : PathFilter) : Walk → List CallNode → Nat → Bool → Prop
  | callgraph {nodes : List CallNode} {total : Nat} {truncated : Bool}
      (h : ix.do_callgraph name direction depth max_syms substr root_limit filt =
        .ok (.Callgraph nodes total truncated)) :
      Replies ix name direction depth max_syms substr root_limit filt (ix.callWalk direction depth max_syms filt)
        nodes total truncated
  | inheritance {nodes : List CallNode} {total : Nat} {truncated : Bool}
      (h : ix.do_inheritance name direction depth max_syms substr root_limit filt =
        .ok (.Inheritance nodes total truncated)) :
      Replies ix name direction depth max_syms substr root_limit filt (ix.inheritanceWalk direction depth max_syms filt)
        nodes total truncated

section

variable {ix : Queries} {name direction : String} {depth max_syms : Nat} {substr : Bool} {root_limit : Nat}
  {filt : PathFilter} {w : Walk} {nodes : List CallNode} {total : Nat} {truncated : Bool}

theorem Queries.Replies.run (h : ix.Replies name direction depth max_syms substr root_limit filt w nodes total truncated) :
    w.depth = depth ∧ w.max_syms = max_syms ∧ ∃ roots, ix.walkRoots name substr root_limit = .ok roots ∧
      w.run roots = .ok (nodes, total, truncated) := by
  cases h with
  | callgraph h =>
    obtain ⟨roots, hroots, h⟩ := Res.bind_eq_ok h
    obtain ⟨⟨nodes', total', truncated'⟩, hrun, h⟩ := Res.bind_eq_ok h
    cases h
    exact ⟨rfl, rfl, roots, hroots, hrun⟩
  | inheritance h =>
    obtain ⟨roots, hroots, h⟩ := Res.bind_eq_ok h
    obtain ⟨⟨nodes', total', truncated'⟩, hrun, h⟩ := Res.bind_eq_ok h
    cases h
    exact ⟨rfl, rfl, roots, hroots, hrun⟩

theorem Queries.Replies.answer (h : ix.Replies name direction depth max_syms substr root_limit filt w nodes total truncated) :
    w.depth = depth ∧ w.max_syms = max_syms ∧ ∃ roots kept first new, ix.walkRoots name substr root_limit = .ok roots ∧
      w.filterRoots roots = .ok kept ∧ w.Answer kept first new nodes total truncated := by
  obtain ⟨hdepth, hmax, roots, hroots, hrun⟩ := h.run
  obtain ⟨kept, first, new, hkept, hanswer, -⟩ := Walk.run_answer hrun
  exact ⟨hdepth, hmax, roots, kept, first, new, hroots, hkept, hanswer⟩

/-- Both walks answer with a forest in breadth-first order. -/
theorem walks_are_forests (h : ix.Replies name direction depth max_syms substr root_limit filt w nodes total truncated) :
    ∃ syms, w.ProperForest syms nodes total ∧ ∀ node ∈ nodes, node.hop ≤ depth := by
  obtain ⟨rfl, -, roots, kept, first, new, -, -, hanswer⟩ := h.answer
  refine ⟨_, hanswer.forest.proper hanswer.total, fun node hnode => ?_⟩
  obtain ⟨i, hi, rfl⟩ := List.getElem_of_mem hnode
  have hi' : i < (first ++ new).length := hanswer.forest.length ▸ hi
  rcases hanswer.forest.origin i _ _ (List.getElem?_eq_getElem hi) (List.getElem?_eq_getElem hi') with
    ⟨-, -, hzero⟩ | ⟨p, -, hcomes⟩
  · rw [hzero]
    exact Nat.zero_le _
  · exact hcomes.hop_le

end

section

attribute [local instance] asciiUnicode naiveMemmem

/-- A function and its only callee. -/
def oneCall : IndexBuilder :=
  ((IndexBuilder.new.upsert_sym 1 Kind.FUNCTION Lang.CXX "f").upsert_sym 2 Kind.FUNCTION Lang.CXX "g").add_call 1 2
    Role.CALL

/-- The answer for the function and what it calls. -/
def oneCallNodes : List CallNode := [⟨0, none, 0, .root, "f", "fn", none⟩, ⟨1, some 0, 1, .down, "g", "fn", none⟩]

theorem oneCall_callgraph :
    oneCall.answers.do_callgraph "f" "down" 1 9 false 1 {} = .ok (.Callgraph oneCallNodes 1 false) := by
  decide +kernel

theorem oneCall_opens :
    ∃ f ix, oneCall.finish = .ok f ∧ open_index f = .ok ix ∧ ∀ parallelism, (ix.queries parallelism).named = oneCall.answers := by
  obtain ⟨ix, hf, hopen, -, hnamed⟩ := oneCall.queries_named (by decide +kernel) (by decide +kernel)
  exact ⟨_, ix, hf, hopen, hnamed⟩

theorem walks_are_forests_oneCall :
    ∃ f ix syms, oneCall.finish = .ok f ∧ open_index f = .ok ix ∧
      (ix.queries 1).do_callgraph "f" "down" 1 9 false 1 {} = .ok (.Callgraph oneCallNodes 1 false) ∧
      ((ix.queries 1).callWalk "down" 1 9 {}).ProperForest syms oneCallNodes 1 := by
  obtain ⟨f, ix, hf, hopen, hnamed⟩ := oneCall_opens
  have hreply : (ix.queries 1).do_callgraph "f" "down" 1 9 false 1 {} = .ok (.Callgraph oneCallNodes 1 false) := by
    rw [← Queries.named_do_callgraph, hnamed, oneCall_callgraph]
  obtain ⟨syms, hforest, -⟩ := walks_are_forests (.callgraph hreply)
  exact ⟨f, ix, syms, hf, hopen, hreply, hforest⟩

end

end Scry2
