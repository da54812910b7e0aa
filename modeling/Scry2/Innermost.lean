import Scry2.Ingest

/-!
# The body around an offset

`innermost_containing` looks through the ranges of the file that start at or before the offset, the last
start first. What it finds has the greatest start of all ranges around the offset. If ranges are nested,
that is the shortest one, unless ranges that start together come in the wrong order.
-/

open Scry2.Lib

namespace Scry2

section

variable {α : Type} {p q : α → Bool} {l : List α}

/-- The elements that satisfy `p` come first. -/
def Leads (p : α → Bool) (l : List α) : Prop := l.Pairwise fun a b => p b = true → p a = true

theorem Leads.take_eq_filter (h : Leads p l) : l.take (partition_point p l) = l.filter p := by
  unfold partition_point
  induction l with
  | nil => rfl
  | cons a l ih =>
    obtain ⟨ha, hl⟩ := List.pairwise_cons.mp h
    by_cases hp : p a = true
    · rw [List.takeWhile_cons_of_pos hp, List.length_cons, List.take_succ_cons, ih hl, List.filter_cons_of_pos hp]
    · rw [List.takeWhile_cons_of_neg hp, List.length_nil, List.take_zero, List.filter_cons_of_neg hp]
      exact (List.filter_eq_nil_iff.mpr fun b hb hpb => hp (ha b hb hpb)).symm

/-- Between the ends of two such parts are the elements of one that are not in the other. -/
theorem Leads.between (hp : Leads p l) (hq : Leads q l) (hqp : ∀ a, q a = true → p a = true) :
    (l.take (partition_point p l)).drop (partition_point q l) = l.filter fun a => p a && !q a := by
  induction l with
  | nil => rfl
  | cons a l ih =>
    obtain ⟨ha, hl⟩ := List.pairwise_cons.mp hq
    by_cases hqa : q a = true
    · have hpa := hqp a hqa
      have hdrop : (List.filter p (a :: l)).drop (partition_point q (a :: l)) =
          (l.take (partition_point p l)).drop (partition_point q l) := by
        rw [partition_point, List.takeWhile_cons_of_pos hqa, List.length_cons, List.filter_cons_of_pos hpa,
          List.drop_succ_cons, Leads.take_eq_filter (List.pairwise_cons.mp hp).2]
        rfl
      rw [hp.take_eq_filter, hdrop, ih (List.pairwise_cons.mp hp).2 hl, List.filter_cons_of_neg (by simp [hqa])]
    · have hnone : ∀ b ∈ a :: l, q b = false := by
        intro b hb
        rcases List.mem_cons.mp hb with rfl | hb
        · exact Bool.eq_false_iff.mpr hqa
        · exact Bool.eq_false_iff.mpr fun hqb => hqa (ha b hb hqb)
      have hzero : partition_point q (a :: l) = 0 := by rw [partition_point, List.takeWhile_cons_of_neg hqa]; rfl
      rw [hp.take_eq_filter, hzero, List.drop_zero]
      exact List.filter_congr fun b hb => by simp [hnone b hb]

end

/-! ## What is found -/

/-- The range is around the offset. -/
structure BodyAnchor.Around (b : BodyAnchor) (file off : UInt32) : Prop where
  file : b.file = file
  start : b.start ≤ off
  stop : off < b.stop

/-- The range around the offset that starts last, or one of them. -/
structure BodyAnchor.Innermost (b : BodyAnchor) (bodies : List BodyAnchor) (file off : UInt32) : Prop where
  mem : b ∈ bodies
  around : b.Around file off
  last : ∀ b' ∈ bodies, b'.Around file off → b'.start ≤ b.start

/-- Sorted by the file and the start. -/
def SortedBodies (bodies : List BodyAnchor) : Prop := bodies.Pairwise fun a b => a.key ≤ b.key

variable {bodies : List BodyAnchor}

theorem BodyAnchor.key_le_iff (b : BodyAnchor) (file off : UInt32) :
    b.key ≤ toLex (file, off) ↔ b.file < file ∨ b.file = file ∧ b.start ≤ off := Prod.Lex.toLex_le_toLex

/-- The ranges that are looked at are those of the file that start at or before the offset. -/
theorem SortedBodies.window (h : SortedBodies bodies) (file off : UInt32) :
    (bodies.take (partition_point (fun b => b.key ≤ toLex (file, off)) bodies)).drop
        (partition_point (fun b => b.file < file) bodies) =
      bodies.filter fun b => b.file = file ∧ b.start ≤ off := by
  have hupper : Leads (fun b => decide (b.key ≤ toLex (file, off))) bodies :=
    h.imp fun hab hb => decide_eq_true (hab.trans (of_decide_eq_true hb))
  have hfile : Leads (fun b => decide (b.file < file)) bodies := by
    refine h.imp fun {a b} hab hb => decide_eq_true ?_
    have hle : a.file ≤ b.file := (Prod.Lex.toLex_le_toLex.mp hab).elim le_of_lt fun h => h.1.le
    exact lt_of_le_of_lt hle (of_decide_eq_true hb)
  rw [hupper.between hfile fun b hb =>
    decide_eq_true ((b.key_le_iff file off).mpr (.inl (of_decide_eq_true hb)))]
  refine List.filter_congr fun b _ => ?_
  rw [Bool.eq_iff_iff]
  simp only [Bool.and_eq_true, decide_eq_true_eq, Bool.not_eq_true', decide_eq_false_iff_not, b.key_le_iff]
  constructor
  · rintro ⟨hlt | ⟨he, hle⟩, hnot⟩
    · exact absurd hlt hnot
    · exact ⟨he, hle⟩
  · rintro ⟨he, hle⟩
    exact ⟨.inr ⟨he, hle⟩, he ▸ lt_irrefl _⟩

/-- `b` is the last range of the list around the offset. -/
structure ListedLast (bodies : List BodyAnchor) (file off : UInt32) (b : BodyAnchor) : Prop where
  split : ∃ before after, bodies = before ++ b :: after ∧ ∀ x ∈ after, ¬ x.Around file off
  around : b.Around file off

theorem ListedLast.mem {file off : UInt32} {b : BodyAnchor} (h : ListedLast bodies file off b) : b ∈ bodies := by
  obtain ⟨before, after, rfl, -⟩ := h.split
  exact List.mem_append_right _ List.mem_cons_self

theorem innermost_iff (h : SortedBodies bodies) {file off : UInt32} {s : UInt64} :
    innermost_containing bodies file off = some s ↔ ∃ b, ListedLast bodies file off b ∧ b.sym = s := by
  have hfind : innermost_containing bodies file off =
      (bodies.reverse.find? fun b => b.file = file ∧ b.start ≤ off ∧ off < b.stop).map (·.sym) := by
    simp only [innermost_containing, h.window file off]
    rw [← List.filter_reverse, List.find?_filter]
    congr 2
    funext b
    simp [and_assoc]
  rw [hfind, Option.map_eq_some_iff]
  refine exists_congr fun b => and_congr_left fun _ => ?_
  rw [List.find?_eq_some_iff_append]
  simp only [decide_eq_true_eq, Bool.not_eq_true', decide_eq_false_iff_not]
  constructor
  · rintro ⟨⟨hf, hs, ho⟩, after, before, hsplit, hafter⟩
    refine ⟨⟨before.reverse, after.reverse, ?_, fun x hx hxa => ?_⟩, hf, hs, ho⟩
    · simpa using congrArg List.reverse hsplit
    · exact hafter x (List.mem_reverse.mp hx) ⟨hxa.file, hxa.start, hxa.stop⟩
  · rintro ⟨⟨before, after, rfl, hafter⟩, har⟩
    refine ⟨⟨har.file, har.start, har.stop⟩, after.reverse, before.reverse, by simp, fun x hx hxa => ?_⟩
    exact hafter x (List.mem_reverse.mp hx) ⟨hxa.1, hxa.2.1, hxa.2.2⟩

theorem ListedLast.last (h : SortedBodies bodies) {file off : UInt32} {b : BodyAnchor} (hb : ListedLast bodies file off b)
    {x : BodyAnchor} (hx : x ∈ bodies) (hxa : x.Around file off) : x.start ≤ b.start := by
  obtain ⟨⟨before, after, rfl, hafter⟩, har⟩ := hb
  rcases List.mem_append.mp hx with hx | hx
  · have hle := (List.pairwise_append.mp h).2.2 x hx b List.mem_cons_self
    rcases Prod.Lex.toLex_le_toLex.mp hle with hlt | ⟨-, hle⟩
    · exact absurd hlt (by rw [hxa.file, har.file]; exact lt_irrefl _)
    · exact hle
  · rcases List.mem_cons.mp hx with rfl | hx
    · exact le_refl _
    · exact absurd hxa (hafter x hx)

theorem innermost_some (h : SortedBodies bodies) {file off : UInt32} {s : UInt64}
    (hs : innermost_containing bodies file off = some s) : ∃ b : BodyAnchor, b.Innermost bodies file off ∧ b.sym = s := by
  obtain ⟨b, hb, hsym⟩ := (innermost_iff h).mp hs
  exact ⟨b, ⟨hb.mem, hb.around, fun x hx hxa => hb.last h hx hxa⟩, hsym⟩

theorem innermost_none (h : SortedBodies bodies) {file off : UInt32} :
    innermost_containing bodies file off = none ↔ ∀ b ∈ bodies, ¬ b.Around file off := by
  simp only [innermost_containing, h.window file off, Option.map_eq_none_iff, List.find?_eq_none, List.mem_reverse,
    List.mem_filter, decide_eq_true_eq]
  exact ⟨fun hno b hb har => hno b ⟨hb, har.file, har.start⟩ har.stop,
    fun hno b ⟨hb, hf, hs⟩ hstop => hno b hb ⟨hf, hs, hstop⟩⟩

/-- If ranges that start together have one symbol, the answer depends on what ranges there are. -/
theorem innermost_congr {bodies' : List BodyAnchor} (h : SortedBodies bodies) (h' : SortedBodies bodies')
    (hmem : ∀ b, b ∈ bodies ↔ b ∈ bodies')
    (hties : ∀ a ∈ bodies, ∀ b ∈ bodies, a.file = b.file → a.start = b.start → a.sym = b.sym) (file off : UInt32) :
    innermost_containing bodies file off = innermost_containing bodies' file off := by
  cases hs : innermost_containing bodies file off with
  | none =>
    exact ((innermost_none h').mpr fun b hb => (innermost_none h).mp hs b ((hmem b).mpr hb)).symm
  | some s =>
    obtain ⟨b, hb, rfl⟩ := innermost_some h hs
    cases hs' : innermost_containing bodies' file off with
    | none => exact absurd hb.around ((innermost_none h').mp hs' b ((hmem b).mp hb.mem))
    | some s' =>
      obtain ⟨b', hb', rfl⟩ := innermost_some h' hs'
      have hstart : b.start = b'.start :=
        le_antisymm (hb'.last b ((hmem b).mp hb.mem) hb.around) (hb.last b' ((hmem b').mpr hb'.mem) hb'.around)
      rw [hties b hb.mem b' ((hmem b').mpr hb'.mem) (hb.around.file.trans hb'.around.file.symm) hstart]

/-! ## The shortest range -/

def BodyAnchor.span (b : BodyAnchor) : ℕ := b.stop.toNat - b.start.toNat

/-- `a` lies in `b`. -/
def BodyAnchor.Inside (a b : BodyAnchor) : Prop := b.start ≤ a.start ∧ a.stop ≤ b.stop

def BodyAnchor.Apart (a b : BodyAnchor) : Prop := a.stop ≤ b.start ∨ b.stop ≤ a.start

def NestedOrDisjoint (bodies : List BodyAnchor) : Prop :=
  ∀ a ∈ bodies, ∀ b ∈ bodies, a.file = b.file → a.Inside b ∨ b.Inside a ∨ a.Apart b

/-- Of the ranges around the offset it has the least span. -/
structure BodyAnchor.Shortest (b : BodyAnchor) (bodies : List BodyAnchor) (file off : UInt32) : Prop where
  mem : b ∈ bodies
  around : b.Around file off
  least : ∀ b' ∈ bodies, b'.Around file off → b.span ≤ b'.span

/-- What `innermost_containing` is for. -/
structure FindsShortest (bodies : List BodyAnchor) (file off : UInt32) (found : Option UInt64) : Prop where
  some : ∀ s, found = some s → ∃ b : BodyAnchor, b.Shortest bodies file off ∧ b.sym = s
  none : found = none ↔ ∀ b ∈ bodies, ¬ b.Around file off

/-- The range around the offset that comes last in the list has the symbol of one with its start and the
least end. -/
def TiesInOrder (bodies : List BodyAnchor) (file off : UInt32) : Prop :=
  ∀ b, ListedLast bodies file off b → ∃ b' ∈ bodies, b'.Around file off ∧ b'.start = b.start ∧ b'.sym = b.sym ∧
    ∀ x ∈ bodies, x.Around file off → x.start = b.start → b'.stop ≤ x.stop

theorem BodyAnchor.Around.span_eq {b : BodyAnchor} {file off : UInt32} (h : b.Around file off) :
    b.start.toNat + b.span = b.stop.toNat := by
  have hlt : b.start.toNat < b.stop.toNat := lt_of_le_of_lt h.start h.stop
  unfold BodyAnchor.span
  omega

/-- Of two nested ranges around an offset the one that starts later is shorter. -/
theorem NestedOrDisjoint.shorter (h : NestedOrDisjoint bodies) {file off : UInt32} {a b : BodyAnchor} (ha : a ∈ bodies)
    (hb : b ∈ bodies) (haa : a.Around file off) (hba : b.Around file off) (hlt : a.start < b.start) : b.span < a.span := by
  have hin : b.Inside a := by
    rcases h a ha b hb (haa.file.trans hba.file.symm) with hin | hin | hap | hap
    · exact absurd hin.1 (not_le.mpr hlt)
    · exact hin
    · exact absurd (haa.stop.trans_le (hap.trans hba.start)) (lt_irrefl _)
    · exact absurd (hba.stop.trans_le (hap.trans haa.start)) (lt_irrefl _)
  have hstart : a.start.toNat < b.start.toNat := hlt
  have hstop : b.stop.toNat ≤ a.stop.toNat := hin.2
  have h1 := haa.span_eq
  have h2 := hba.span_eq
  omega

/-- Of two ranges around an offset that start together, the one that ends first is shorter. -/
theorem BodyAnchor.Around.span_le_iff {a b : BodyAnchor} {file off : UInt32} (ha : a.Around file off)
    (hb : b.Around file off) (hab : a.start = b.start) : a.span ≤ b.span ↔ a.stop ≤ b.stop := by
  have h1 := ha.span_eq
  have h2 := hb.span_eq
  rw [hab] at h1
  rw [UInt32.le_iff_toNat_le]
  omega

/-- What is found is shortest exactly if ranges that start together come in order. -/
theorem innermost_shortest (h : SortedBodies bodies) (hn : NestedOrDisjoint bodies) (file off : UInt32) :
    FindsShortest bodies file off (innermost_containing bodies file off) ↔ TiesInOrder bodies file off := by
  constructor
  · intro hfind b hb
    obtain ⟨b', hb', hsym⟩ := hfind.some b.sym ((innermost_iff h).mpr ⟨b, hb, rfl⟩)
    -- A range that starts before `b` is longer than `b`.
    have hstart : b'.start = b.start := by
      refine le_antisymm (hb.last h hb'.mem hb'.around) (not_lt.mp fun hlt => ?_)
      exact absurd (hb'.least b hb.mem hb.around) (not_le.mpr (hn.shorter hb'.mem hb.mem hb'.around hb.around hlt))
    exact ⟨b', hb'.mem, hb'.around, hstart, hsym, fun x hx hxa hxs =>
      (hb'.around.span_le_iff hxa (hstart.trans hxs.symm)).mp (hb'.least x hx hxa)⟩
  · refine fun hties => ⟨fun s hs => ?_, innermost_none h⟩
    obtain ⟨b, hb, hbs⟩ := (innermost_iff h).mp hs
    obtain ⟨b', hb', hba', hstart, hsym, hleast⟩ := hties b hb
    refine ⟨b', ⟨hb', hba', fun x hx hxa => ?_⟩, hsym.trans hbs⟩
    rcases lt_or_eq_of_le (hb.last h hx hxa) with hlt | heq
    · exact (hn.shorter hx hb' hxa hba' (hstart ▸ hlt)).le
    · exact (hba'.span_le_iff hxa (hstart.trans heq.symm)).mpr (hleast x hx hxa heq)

/-! Two bodies that start together, the shorter one first. -/

def twoRanges : List BodyAnchor := [⟨0, 0, 5, 1⟩, ⟨0, 0, 10, 2⟩]

theorem twoRanges_sorted : SortedBodies twoRanges :=
  .cons (fun b hb => by rw [List.mem_singleton.mp hb]; exact le_refl _) (List.pairwise_singleton _ _)

theorem twoRanges_nested : NestedOrDisjoint twoRanges := by
  unfold NestedOrDisjoint twoRanges BodyAnchor.Inside BodyAnchor.Apart
  decide

theorem innermost_shortest_twoRanges :
    FindsShortest twoRanges 0 3 (innermost_containing twoRanges 0 3) ↔ TiesInOrder twoRanges 0 3 :=
  innermost_shortest twoRanges_sorted twoRanges_nested 0 3

theorem innermost_longer : ∃ bodies, SortedBodies bodies ∧ NestedOrDisjoint bodies ∧
    ¬ FindsShortest bodies 0 3 (innermost_containing bodies 0 3) := by
  refine ⟨twoRanges, twoRanges_sorted, twoRanges_nested, fun h => ?_⟩
  obtain ⟨b, hb, hsym⟩ := h.some 2 (by decide)
  have hfirst : (⟨0, 0, 5, 1⟩ : BodyAnchor) ∈ twoRanges := List.mem_cons_self
  have hle := hb.least _ hfirst ⟨rfl, by decide, by decide⟩
  rcases List.mem_cons.mp hb.mem with rfl | hmem
  · exact absurd hsym (by decide)
  · rw [List.mem_singleton.mp hmem] at hle
    exact absurd hle (by decide)

end Scry2
