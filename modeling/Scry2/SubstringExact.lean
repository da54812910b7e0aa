import Scry2.Probe
import Scry2.Agree

/-!
# Substring search is exact

The trigram path returns the symbols of the names that contain the needle, each once and in the
order of the name index, up to the limit.
-/

open Scry2.Lib

namespace Scry2

/-! ## Collecting distinct symbols -/

theorem gather_eq (limit : Nat) (l : List UInt64) (seen : Finset UInt64) (out : List UInt64)
    (h : out.length < limit) :
    Index.gather limit l seen out =
      out ++ ((l.filter (· ∉ seen)).eraseDups).take (limit - out.length) := by
  induction l generalizing seen out with
  | nil => simp [Index.gather]
  | cons a l ih =>
    rw [Index.gather]
    by_cases ha : a ∈ seen
    · rw [if_pos ha, ih seen out h, List.filter_cons_of_neg (by simpa using ha)]
    · rw [if_neg ha, List.filter_cons_of_pos (by simpa using ha), List.eraseDups_cons]
      have hsub : limit - out.length = (limit - out.length - 1) + 1 := by omega
      rw [hsub, List.take_succ_cons]
      split_ifs with hlim
      · rw [List.length_append, List.length_singleton] at hlim
        rw [show limit - out.length - 1 = 0 by omega, List.take_zero]
      · rw [List.length_append, List.length_singleton] at hlim
        rw [ih _ _ (by rw [List.length_append, List.length_singleton]; omega), List.append_assoc,
          List.singleton_append, List.filter_filter, List.length_append, List.length_singleton]
        have hfilter : l.filter (fun b => decide (b ∉ insert a seen)) =
            l.filter fun b => (!b == a) && decide (b ∉ seen) := by
          apply List.filter_congr
          intro b _
          by_cases hb : b = a <;> simp [hb]
        rw [hfilter, Nat.sub_sub]

/-! ## Probing the other lists -/

/-- The other lists with their cursors: blocks before a cursor are below the candidate. -/
def Others (post : Bytes) (cand : Nat) (lists : List (List Nat)) (others : List (Posting × Nat)) : Prop :=
  List.Forall₂ (fun ids o => o.1.Lists post ids ∧
    ∀ c < o.2, c < n_blocks ids.length → maxId ids c < cand) lists others

theorem Others.mono {post : Bytes} {cand cand' : Nat} {lists : List (List Nat)}
    {others : List (Posting × Nat)} (h : Others post cand lists others) (hle : cand ≤ cand') :
    Others post cand' lists others :=
  h.imp fun _ _ ho => ⟨ho.1, fun c hc hn => lt_of_lt_of_le (ho.2 c hc hn) hle⟩

theorem probeOthers_eq {post : Bytes} {cand : UInt32} {lists : List (List Nat)}
    {others : List (Posting × Nat)} (h : Others post cand.toNat lists others) :
    ∃ others', probeOthers post cand others =
        .ok (decide (∀ ids ∈ lists, cand.toNat ∈ ids), others') ∧
      Others post cand.toNat lists others' := by
  induction h with
  | nil => exact ⟨[], rfl, List.Forall₂.nil⟩
  | @cons ids o lists others ho hrest ih =>
    obtain ⟨b, hb, hfirst⟩ := ho.1.trigram_contains ho.2
    have hcur : ∀ c < b, c < n_blocks ids.length → maxId ids c < cand.toNat := fun c hc _ => hfirst.before c hc
    obtain ⟨others', ho', hinv⟩ := ih
    obtain ⟨op, cur⟩ := o
    rw [probeOthers, hb, Res.ok_bind]
    by_cases hm : cand.toNat ∈ ids
    · refine ⟨(op, b) :: others', ?_, .cons ⟨ho.1, hcur⟩ hinv⟩
      simp only [hm, decide_true, if_true]
      rw [ho', Res.ok_bind]
      simp [hm, pure, Except.pure]
    · refine ⟨(op, b) :: others, ?_, .cons ⟨ho.1, hcur⟩ hrest⟩
      simp [hm, pure, Except.pure]

/-! ## The loop over the driver -/

section

variable (ix : Index)

/-- The symbol a candidate row contributes. -/
def candSym (lists : List (List Nat)) (hit : Bytes → Bool) (rows : Nat → Bytes × UInt64) (r : Nat) :
    Option UInt64 :=
  if (∀ ids ∈ lists, r ∈ ids) ∧ hit (rows r).1 then some (rows r).2 else none

theorem collect_eq (hit : Bytes → Bool) {limit : Nat} {rows : Nat → Bytes × UInt64}
    {lists : List (List Nat)} {ids : List Nat} (hasc : ids.Pairwise (· < ·)) (hlt : ∀ r ∈ ids, r < 2 ^ 32)
    (hrows : ∀ r ∈ ids, ix.name_row r = .ok (rows r)) {others : List (Posting × Nat)}
    (hothers : ∀ r ∈ ids, Others ix.trigram_post_slice r lists others) (seen : Finset UInt64)
    {out : List UInt64} (hout : out.length < limit) :
    ix.collect hit limit (ids.map UInt32.ofNat) others seen out =
      .ok (Index.gather limit (ids.filterMap (candSym lists hit rows)) seen out) := by
  induction ids generalizing others seen out with
  | nil => rfl
  | cons r ids ih =>
    have hr : (UInt32.ofNat r).toNat = r := UInt32.toNat_ofNat_of_lt' (hlt r List.mem_cons_self)
    have hpr := hothers r List.mem_cons_self
    rw [← hr] at hpr
    obtain ⟨others', hprobe, hinv⟩ := probeOthers_eq hpr
    rw [hr] at hprobe hinv
    have hpw := List.pairwise_cons.mp hasc
    have hnext : ∀ seen' out', out'.length < limit →
        ix.collect hit limit (ids.map UInt32.ofNat) others' seen' out' =
          .ok (Index.gather limit (ids.filterMap (candSym lists hit rows)) seen' out') := by
      intro seen' out' hout'
      exact ih hpw.2 (fun q hq => hlt q (List.mem_cons_of_mem _ hq))
        (fun q hq => hrows q (List.mem_cons_of_mem _ hq))
        (fun q hq => hinv.mono (hpw.1 q hq).le) seen' hout'
    rw [List.map_cons, Index.collect, hprobe, Res.ok_bind]
    by_cases hall : ∀ l ∈ lists, r ∈ l
    · rw [decide_eq_true hall]
      simp only [Bool.not_true, Bool.false_eq_true, if_false]
      rw [hr, hrows r List.mem_cons_self, Res.ok_bind]
      by_cases hhit : hit (rows r).1 = true
      · have hsym : candSym lists hit rows r = some (rows r).2 := if_pos ⟨hall, hhit⟩
        rw [List.filterMap_cons_some hsym, Index.gather]
        by_cases hseen : (rows r).2 ∈ seen
        · rw [if_neg (fun h => h.2 hseen), if_pos hseen]
          exact hnext seen out hout
        · rw [if_pos ⟨hhit, hseen⟩, if_neg hseen]
          split_ifs with hlim
          · rfl
          · exact hnext _ _ (not_le.mp hlim)
      · have hsym : candSym lists hit rows r = none := if_neg fun h => hhit h.2
        rw [List.filterMap_cons_none hsym, if_neg (fun h => hhit h.1)]
        exact hnext seen out hout
    · have hsym : candSym lists hit rows r = none := if_neg fun h => hall h.1
      rw [List.filterMap_cons_none hsym, decide_eq_false hall]
      exact hnext seen out hout

end

/-! ## The trigrams of a name -/

theorem windows3_cons_subset (a : UInt8) (l : Bytes) : windows3 l ⊆ windows3 (a :: l) := by
  match l with
  | [] => simp [windows3]
  | [b] => simp [windows3]
  | b :: c :: rest =>
    rw [windows3]
    exact List.subset_cons_self _ _

theorem windows3_append_subset (l m : Bytes) : windows3 l ⊆ windows3 (l ++ m) := by
  fun_induction windows3 l with
  | case1 a b c rest ih =>
    rw [List.cons_append, List.cons_append, List.cons_append, windows3]
    exact List.cons_subset_cons _ ih
  | case2 => exact List.nil_subset _

theorem windows3_infix {l m : Bytes} (h : l <:+: m) : windows3 l ⊆ windows3 m := by
  obtain ⟨front, back, rfl⟩ := h
  induction front with
  | nil => exact windows3_append_subset l back
  | cons a front ih => exact fun t ht => windows3_cons_subset a _ (ih ht)

theorem windows3_ne_nil {l : Bytes} (h : 3 ≤ l.length) : windows3 l ≠ [] := by
  match l, h with
  | a :: b :: c :: rest, _ => simp [windows3]

/-- Whether a name contains the needle, ignoring case when asked. -/
def Contains (needle : Bytes) (ignore_case : Bool) (name : Bytes) : Prop :=
  if ignore_case then lowercase needle <:+: lowercase name else needle <:+: name

instance (needle : Bytes) (ignore_case : Bool) (name : Bytes) :
    Decidable (Contains needle ignore_case name) := by
  unfold Contains
  exact inferInstance

theorem verify_iff [Memmem] (needle : Bytes) (ignore_case : Bool) (name : Bytes) :
    Index.verify needle ignore_case name = true ↔ Contains needle ignore_case name := by
  unfold Index.verify Contains
  split_ifs <;> exact Memmem.find_isSome _ _

theorem Contains.windows3 {needle name : Bytes} {ignore_case : Bool}
    (h : Contains needle ignore_case name) :
    windows3 (lowercase needle) ⊆ windows3 (lowercase name) := by
  apply windows3_infix
  unfold Contains at h
  split_ifs at h
  · exact h
  · exact h.map _

/-! ## The dictionary -/

theorem TrigramRow.slice_encode (r : TrigramRow) : slice r.encode 0 3 = r.trigram.bytes ∧
    slice r.encode 4 8 = beBytes 8 r.post_off ∧ slice r.encode 12 4 = beBytes 4 r.post_len ∧
    slice r.encode 16 4 = beBytes 4 r.count := by
  obtain ⟨⟨bytes, hb⟩, off, len, count⟩ := r
  match bytes, hb with
  | [a, b, c], _ =>
    have h8 := beBytes_length 8 off
    have h4 := beBytes_length 4 len
    have h4' := beBytes_length 4 count
    unfold TrigramRow.encode slice
    simp only
    generalize beBytes 8 off = x at *
    generalize beBytes 4 len = y at *
    generalize beBytes 4 count = z at *
    refine ⟨rfl, ?_, ?_, ?_⟩
    · change (x ++ (y ++ z)).take 8 = x
      rw [← h8, List.take_left]
    · change ((x ++ (y ++ z)).drop 8).take 4 = y
      rw [← h8, List.drop_left, ← h4, List.take_left]
    · change ((x ++ (y ++ z)).drop 12).take 4 = z
      rw [show 12 = x.length + y.length by omega, ← List.append_assoc, ← List.length_append,
        List.drop_left, ← h4', List.take_length]

/-- An open index whose trigram sections were built from its names. -/
structure Index.Trigrams (ix : Index) (names : List NameRow) (blob : Bytes) : Prop where
  names_lt : names.length < 2 ^ 32
  post_lt : (build_trigram_index names blob).2.length < 2 ^ 32
  dict_n : ix.hdr.trigram_dict_n = (dictOf (visit names blob)).length
  dict : ix.trigram_dict_slice = (dictOf (visit names blob)).flatMap TrigramRow.encode
  post : ix.trigram_post_slice = (build_trigram_index names blob).2

section

variable {ix : Index} {names : List NameRow} {blob : Bytes}

theorem idsOf_lt (h : names.length < 2 ^ 32) {tri : Tri} {r : Nat}
    (hr : r ∈ idsOf (visit names blob) tri) : r < names.length := by
  obtain ⟨row, hrow, -⟩ := (mem_visit h).mp (mem_idsOf.mp hr)
  exact (List.getElem?_eq_some_iff.mp hrow).1

theorem Index.Trigrams.lists (h : ix.Trigrams names blob) {r : TrigramRow}
    (hr : r ∈ dictOf (visit names blob)) :
    Posting.Lists ix.trigram_post_slice ⟨r.post_off, r.post_len, r.count⟩
      (idsOf (visit names blob) r.trigram) := by
  obtain ⟨-, hcount, hlen⟩ := mem_dictOf hr
  obtain ⟨hfits, hfilled⟩ := build_trigram_index_filled names blob hr
  have hpost := h.post_lt
  have hnames := h.names_lt
  refine ⟨?_, hcount, hlen, ?_, idsOf_pairwise (visit_pairwise names blob) _, ?_, ?_⟩
  · rw [h.post]; exact hfits
  · rw [h.post]; exact hfilled
  · intro q hq
    have := idsOf_lt h.names_lt hq
    omega
  · simp only; omega

theorem Index.Trigrams.trigram_lookup (h : ix.Trigrams names blob) (tri : Tri) :
    (idsOf (visit names blob) tri = [] ∧ ix.trigram_lookup tri = none) ∨
      ∃ p, ix.trigram_lookup tri = some p ∧
        p.Lists ix.trigram_post_slice (idsOf (visit names blob) tri) := by
  have hrow : ∀ i (hi : i < (dictOf (visit names blob)).length) x n, x + n ≤ TRIGRAM_LEN →
      slice ix.trigram_dict_slice (i * TRIGRAM_LEN + x) n =
        slice ((dictOf (visit names blob))[i]).encode x n := by
    intro i hi x n hx
    rw [← slice_flatMap TrigramRow.encode TrigramRow.encode_length _ i hi, slice_slice hx, h.dict]
  have hkey : ∀ i (hi : i < (dictOf (visit names blob)).length),
      slice ix.trigram_dict_slice (i * TRIGRAM_LEN) 3 = ((dictOf (visit names blob))[i]).trigram.bytes :=
    fun i hi => (hrow i hi 0 3 (by decide)).trans (TrigramRow.slice_encode _).1
  have hcmp : ∀ i (hi : i < (dictOf (visit names blob)).length),
      (cmp (slice ix.trigram_dict_slice (i * TRIGRAM_LEN) 3) tri.bytes).Compares
        ((dictOf (visit names blob))[i]).trigram.bytes tri.bytes := by
    intro i hi
    rw [hkey i hi]
    exact cmp_bytes _ _
  have hsorted : (dictOf (visit names blob)).Pairwise (·.trigram.bytes < ·.trigram.bytes) := dictOf_pairwise
  unfold Index.trigram_lookup
  dsimp only
  rw [h.dict_n]
  rcases bisectEq_rows hsorted hcmp with ⟨i, hi, hfind, hbytes⟩ | ⟨hfind, hnone⟩
  · right
    rw [hfind]
    have hr := List.getElem_mem hi
    have hlists := h.lists hr
    rw [Tri.bytes_injective hbytes] at hlists
    obtain ⟨-, hoff, hlen, hcount⟩ := TrigramRow.slice_encode ((dictOf (visit names blob))[i])
    have hfits := hlists.fits
    have hsmall := h.post_lt
    rw [h.post] at hfits
    have hc : ((dictOf (visit names blob))[i]).count < 256 ^ 4 := by
      have h1 := (mem_dictOf hr).2.1
      have h2 : (idsOf (visit names blob) ((dictOf (visit names blob))[i]).trigram).length ≤
          names.length := by
        have hnd := (idsOf_pairwise (visit_pairwise names blob)
          ((dictOf (visit names blob))[i]).trigram).imp ne_of_lt
        have := (List.Nodup.subperm hnd fun q hq =>
          List.mem_range.mpr (idsOf_lt h.names_lt hq)).length_le
        rwa [List.length_range] at this
      have := h.names_lt
      omega
    refine ⟨_, rfl, ?_⟩
    beta_reduce
    rw [hrow i hi 4 8 (by decide), hrow i hi 12 4 (by decide), hrow i hi 16 4 (by decide), hoff, hlen, hcount,
      ofBe_beBytes_of_lt (by simp only at hfits; omega), ofBe_beBytes_of_lt (by simp only at hfits; omega),
      ofBe_beBytes_of_lt hc]
    exact hlists
  · left
    rw [hfind]
    refine ⟨?_, rfl⟩
    by_contra hne
    obtain ⟨r, hr, hrt⟩ := exists_mem_dictOf hne
    exact hnone r hr (congrArg Tri.bytes hrt)

/-- The lists of several trigrams, unless one of them is in no name. -/
theorem Index.Trigrams.mapM_lookup (h : ix.Trigrams names blob) (tris : List Tri) :
    (∃ tri ∈ tris, idsOf (visit names blob) tri = [] ∧ tris.mapM ix.trigram_lookup = none) ∨
      ∃ posts, tris.mapM ix.trigram_lookup = some posts ∧
        List.Forall₂ (fun ids p => Posting.Lists ix.trigram_post_slice p ids)
          (tris.map (idsOf (visit names blob))) posts := by
  induction tris with
  | nil => exact Or.inr ⟨[], rfl, List.Forall₂.nil⟩
  | cons tri tris ih =>
    rcases h.trigram_lookup tri with ⟨hnil, hnone⟩ | ⟨p, hp, hlists⟩
    · left
      exact ⟨tri, List.mem_cons_self, hnil, by rw [List.mapM_cons, hnone]; rfl⟩
    · rcases ih with ⟨t, ht, hnil, hnone⟩ | ⟨posts, hposts, hall⟩
      · left
        exact ⟨t, List.mem_cons_of_mem _ ht, hnil, by rw [List.mapM_cons, hp, hnone]; rfl⟩
      · right
        exact ⟨p :: posts, by rw [List.mapM_cons, hp, hposts]; rfl, .cons hlists hall⟩

theorem driver_idx_lt {posts : List Posting} (h : posts ≠ []) : driver_idx posts < posts.length := by
  unfold driver_idx
  rw [List.findIdx_lt_length]
  have hmin : ∃ p ∈ posts, ∀ q ∈ posts, p.count ≤ q.count := by
    induction posts with
    | nil => exact absurd rfl h
    | cons a posts ih =>
      by_cases hnil : posts = []
      · subst hnil
        exact ⟨a, List.mem_cons_self, by simp⟩
      · obtain ⟨p, hp, hall⟩ := ih hnil
        by_cases hle : a.count ≤ p.count
        · refine ⟨a, List.mem_cons_self, ?_⟩
          rintro q (_ | ⟨_, hq⟩)
          · exact le_rfl
          · exact hle.trans (hall q hq)
        · refine ⟨p, List.mem_cons_of_mem _ hp, ?_⟩
          rintro q (_ | ⟨_, hq⟩)
          · exact (not_le.mp hle).le
          · exact hall q hq
  obtain ⟨p, hp, hall⟩ := hmin
  exact ⟨p, hp, by simpa using hall⟩

theorem forall₂_eraseIdx {α β : Type} {R : α → β → Prop} {l : List α} {m : List β}
    (h : List.Forall₂ R l m) (k : Nat) : List.Forall₂ R (l.eraseIdx k) (m.eraseIdx k) := by
  rw [List.eraseIdx_eq_take_drop_succ, List.eraseIdx_eq_take_drop_succ]
  exact List.rel_append (List.forall₂_take k h) (List.forall₂_drop (k + 1) h)

/-! ## The answer -/

/-- The symbols of the names that contain the needle, in row order. -/
def matching (names : List NameRow) (blob needle : Bytes) (ignore_case : Bool) : List UInt64 :=
  names.filterMap fun row => if Contains needle ignore_case (row.bytes blob) then some row.sym else none

theorem filterMap_eq_range {α β : Type} (f : α → Option β) (l : List α) :
    l.filterMap f = (List.range l.length).filterMap fun i => l[i]?.bind f := by
  have h : l.map some = (List.range l.length).map fun i => l[i]? := by
    apply List.ext_getElem
    · simp
    · intro i h1 h2
      simp only [List.length_map] at h1
      simp [List.getElem?_eq_getElem h1]
  have h1 : l.filterMap f = (l.map some).filterMap fun o => o.bind f := by
    rw [List.filterMap_map]
    rfl
  rw [h1, h, List.filterMap_map]
  rfl

/-- The row a candidate stands for. -/
def nameOf (names : List NameRow) (blob : Bytes) (r : Nat) : Bytes × UInt64 :=
  ((names[r]?.map fun row => row.bytes blob).getD [], (names[r]?.map NameRow.sym).getD 0)

theorem nameOf_of_lt {r : Nat} (h : r < names.length) :
    nameOf names blob r = ((names[r]).bytes blob, (names[r]).sym) := by
  unfold nameOf
  rw [List.getElem?_eq_getElem h]
  rfl

/-- Intersecting the lists of the needle's trigrams and verifying what is left finds every match. -/
theorem filterMap_candSym (hnames : names.length < 2 ^ 32) {needle : Bytes} {ignore_case : Bool}
    {hit : Bytes → Bool} (hhit : ∀ name, hit name = true ↔ Contains needle ignore_case name)
    {lists : List (List Nat)} {ids : List Nat} (hasc : ids.Pairwise (· < ·))
    (hall : ∀ r, (r ∈ ids ∧ ∀ l ∈ lists, r ∈ l) ↔
      ∀ tri ∈ windows3 (lowercase needle), r ∈ idsOf (visit names blob) tri)
    (hsub : ∀ r ∈ ids, r < names.length) :
    ids.filterMap (candSym lists hit (nameOf names blob)) = matching names blob needle ignore_case := by
  have hids : ids = (List.range names.length).filter (· ∈ ids) := by
    have h1 : Enumerates ids {r | r ∈ ids} := ⟨hasc, fun _ => Iff.rfl⟩
    refine h1.eq ⟨List.pairwise_lt_range.filter _, fun r => ?_⟩
    rw [List.mem_filter, List.mem_range, decide_eq_true_eq]
    exact ⟨fun h => h.2, fun h => ⟨hsub r h, h⟩⟩
  unfold matching
  rw [filterMap_eq_range _ names]
  conv_lhs => rw [hids, List.filterMap_filter]
  apply List.filterMap_congr
  intro r hr
  have hlt := List.mem_range.mp hr
  rw [List.getElem?_eq_getElem hlt, Option.bind_some]
  unfold candSym
  rw [nameOf_of_lt hlt]
  simp only [hhit, decide_eq_true_eq]
  by_cases hc : Contains needle ignore_case ((names[r]).bytes blob)
  · have hin := (hall r).mpr fun tri htri => mem_idsOf.mpr ((mem_visit hnames).mpr
      ⟨names[r], List.getElem?_eq_getElem hlt, hc.windows3 htri⟩)
    rw [if_pos hin.1, if_pos ⟨hin.2, hc⟩, if_pos hc]
  · rw [if_neg hc]
    split_ifs with h1 h2
    · exact absurd h2.2 hc
    · rfl
    · rfl

theorem matching_eq_nil (hnames : names.length < 2 ^ 32) {needle : Bytes} {ignore_case : Bool} {tri : Tri}
    (htri : tri ∈ windows3 (lowercase needle)) (hnil : idsOf (visit names blob) tri = []) :
    matching names blob needle ignore_case = [] := by
  unfold matching
  rw [List.filterMap_eq_nil_iff]
  intro row hrow
  obtain ⟨r, hr, rfl⟩ := List.mem_iff_getElem.mp hrow
  rw [if_neg]
  intro hc
  have : r ∈ idsOf (visit names blob) tri := mem_idsOf.mpr ((mem_visit hnames).mpr
    ⟨names[r], List.getElem?_eq_getElem hr, hc.windows3 htri⟩)
  rw [hnil] at this
  cases this

end

section

variable {ix : Index} {names : List NameRow} {blob : Bytes}

theorem scanRows_nil {hit : Bytes → Bool} {limit : Nat} {rows : List Nat}
    (hrows : ∀ r ∈ rows, ix.name_row r = .ok (nameOf names blob r))
    (hmiss : ∀ r ∈ rows, hit (nameOf names blob r).1 = false) (found : List UInt64) :
    ix.scanRows hit limit rows found = .ok found := by
  induction rows with
  | nil => rfl
  | cons r rows ih =>
    rw [Index.scanRows, hrows r List.mem_cons_self, Res.ok_bind]
    simp only [hmiss r List.mem_cons_self, Bool.false_eq_true, if_false]
    exact ih (fun q hq => hrows q (List.mem_cons_of_mem _ hq)) fun q hq => hmiss q (List.mem_cons_of_mem _ hq)

variable [Memmem]

theorem linear_eq_nil (hn : ix.hdr.names_n = names.length)
    (hrows : ∀ r < names.length, ix.name_row r = .ok (nameOf names blob r)) (parallelism : Nat)
    {nb : Bytes} {limit : Nat} {ignore_case : Bool} (hnil : matching names blob nb ignore_case = []) :
    ix.syms_matching_substring_linear parallelism nb limit ignore_case = .ok [] := by
  have hmiss : ∀ r < names.length, Index.verify nb ignore_case (nameOf names blob r).1 = false := by
    intro r hr
    unfold matching at hnil
    rw [List.filterMap_eq_nil_iff] at hnil
    have := hnil names[r] (List.getElem_mem hr)
    rw [Bool.eq_false_iff, Ne, verify_iff, nameOf_of_lt hr]
    intro hc
    rw [if_pos hc] at this
    cases this
  have hchunk : ∀ chunk t, ix.scanChunk (Index.verify nb ignore_case) limit chunk t = .ok [] := by
    intro chunk t
    have hmem : ∀ r ∈ List.range' (t * chunk) (min ((t + 1) * chunk) ix.hdr.names_n - t * chunk),
        r < names.length := by
      intro r hr
      have := List.mem_range'_1.mp hr
      omega
    exact scanRows_nil (fun r hr => hrows r (hmem r hr)) (fun r hr => hmiss r (hmem r hr)) []
  unfold Index.syms_matching_substring_linear
  simp only
  split_ifs
  · rfl
  · rw [mapM_ok fun t _ => hchunk _ t, Res.ok_bind]
    simp [Index.gather, pure, Except.pure]

theorem Index.Trigrams.search_trigram (h : ix.Trigrams names blob)
    (hrows : ∀ r < names.length, ix.name_row r = .ok (nameOf names blob r)) (parallelism : Nat)
    {needle : String} (hneedle : 3 ≤ len needle) {limit : Nat} (hlimit : 0 < limit) (ignore_case : Bool) :
    ix.syms_matching_substring_trigram parallelism needle limit ignore_case =
      .ok ((matching names blob (as_bytes needle) ignore_case).eraseDups.take limit) := by
  have hlow : 3 ≤ (lowercase (as_bytes needle)).length := by
    unfold lowercase
    rw [List.length_map]
    exact hneedle
  unfold Index.syms_matching_substring_trigram
  rcases h.mapM_lookup (sortDedup (windows3 (lowercase (as_bytes needle)))) with
    ⟨tri, htri, hnil, hnone⟩ | ⟨posts, hposts, hlists⟩
  · rw [matching_eq_nil h.names_lt (mem_sortDedup.mp htri) hnil]
    simp [hnone, pure, Except.pure]
  · have hlen : posts.length = (sortDedup (windows3 (lowercase (as_bytes needle)))).length := by
      rw [← hlists.length_eq, List.length_map]
    have hne : posts ≠ [] := by
      rintro rfl
      obtain ⟨tri, htri⟩ := List.exists_mem_of_ne_nil _ (windows3_ne_nil hlow)
      have := List.length_pos_of_mem (mem_sortDedup.mpr htri)
      rw [← hlen] at this
      exact absurd this (by simp)
    have hk := driver_idx_lt hne
    simp only [hposts]
    generalize driver_idx posts = k at hk
    rw [List.getElem?_eq_getElem hk]
    simp only
    -- The list of the driver, and the lists of the others.
    generalize hall : (sortDedup (windows3 (lowercase (as_bytes needle)))).map
      (idsOf (visit names blob)) = all at hlists
    have hka : k < all.length := by rw [hlists.length_eq]; exact hk
    have hdriver : Posting.Lists ix.trigram_post_slice posts[k] all[k] := List.forall₂_iff_get.mp hlists |>.2 k hka hk
    have hmem : ∀ l ∈ all, ∀ r ∈ l, r < names.length := by
      rw [← hall]
      simp only [List.mem_map]
      rintro l ⟨tri, -, rfl⟩ r hr
      exact idsOf_lt h.names_lt hr
    have hothers : ∀ r, Others ix.trigram_post_slice r (all.eraseIdx k)
        ((posts.eraseIdx k).map fun p => (p, 0)) := by
      intro r
      unfold Others
      rw [List.forall₂_map_right_iff]
      exact (forall₂_eraseIdx hlists k).imp fun _ _ hl => ⟨hl, fun c hc => absurd hc (Nat.not_lt_zero c)⟩
    rw [hdriver.holds.trigram_postings, Res.ok_bind, collect_eq ix _ hdriver.ascending hdriver.lt
      (fun r hr => hrows r (hmem _ (List.getElem_mem hka) r hr)) (fun r _ => hothers r) ∅ hlimit,
      gather_eq _ _ _ _ hlimit, filterMap_candSym h.names_lt (verify_iff _ _) hdriver.ascending _
        (hmem _ (List.getElem_mem hka))]
    · simp
    · intro r
      rw [← List.forall_mem_cons (p := fun l => r ∈ l)]
      simp only [(List.getElem_cons_eraseIdx_perm hka).mem_iff]
      rw [← hall]
      simp only [List.forall_mem_map, mem_sortDedup]

/-- The search, for a needle of three bytes or more. -/
theorem Index.Trigrams.search (h : ix.Trigrams names blob) (hn : ix.hdr.names_n = names.length)
    (hrows : ∀ r < names.length, ix.name_row r = .ok (nameOf names blob r)) (parallelism : Nat)
    {needle : String} (hneedle : 3 ≤ len needle) (limit : Nat) (ignore_case : Bool) :
    ix.syms_matching_substring_impl parallelism needle limit ignore_case =
      .ok ((matching names blob (as_bytes needle) ignore_case).eraseDups.take limit) := by
  have hlow : 3 ≤ (lowercase (as_bytes needle)).length := by
    unfold lowercase
    rw [List.length_map]
    exact hneedle
  obtain ⟨tri, htri⟩ := List.exists_mem_of_ne_nil _ (windows3_ne_nil hlow)
  unfold Index.syms_matching_substring_impl
  split_ifs with h0 h1
  · rcases h0 with rfl | h0 | rfl
    · exact absurd hneedle (by decide)
    · rw [hn, List.length_eq_zero_iff] at h0
      rw [h0]
      simp [matching, pure, Except.pure]
    · rw [List.take_zero]
      rfl
  · exact h.search_trigram hrows parallelism hneedle (by omega) ignore_case
  · have hnil : idsOf (visit names blob) tri = [] := by
      by_contra hne
      obtain ⟨r, hr, -⟩ := exists_mem_dictOf hne
      have := List.length_pos_of_mem hr
      rw [← h.dict_n] at this
      exact h1 ⟨hneedle, this⟩
    have hm : matching names blob (as_bytes needle) ignore_case = [] := matching_eq_nil h.names_lt htri hnil
    rw [linear_eq_nil hn hrows parallelism hm, hm]
    simp

end

/-! ## Written files -/

section

variable {F : Facts} {t : Tables F} {ix : Index}

theorem build_trigram_index_dict (names : List NameRow) (blob : Bytes) :
    (build_trigram_index names blob).1 = (dictOf (visit names blob)).flatMap TrigramRow.encode := rfl

theorem Index.Lays.trigrams (hix : ix.Lays t.rows) (hnames : ix.hdr.names_n < 2 ^ 32)
    (hpost : ix.hdr.trigram_post_len < 2 ^ 32) : ix.Trigrams t.names t.blob := by
  have hdict : t.rows.trigram_dict = (dictOf (visit t.names t.blob)).flatMap TrigramRow.encode := by
    rw [← build_trigram_index_dict]
    rfl
  have hdict_n : ix.hdr.trigram_dict_n = t.rows.trigram_dict.length / TRIGRAM_LEN := by rw [hix.hdr]; rfl
  have hnames_n : ix.hdr.names_n = t.names.length := by rw [hix.hdr]; rfl
  have hpost_len : ix.hdr.trigram_post_len = (build_trigram_index t.names t.blob).2.length := by rw [hix.hdr]; rfl
  refine ⟨hnames_n ▸ hnames, hpost_len ▸ hpost, ?_, hix.trigram_dict.trans hdict, hix.trigram_post⟩
  rw [hdict_n, hdict, flatMap_length_of _ TrigramRow.encode_length]
  exact Nat.mul_div_cancel _ (by decide)

theorem Index.Lays.name_row (hix : ix.Lays t.rows) (h : t.rows.total < 2 ^ 63) {r : Nat}
    (hr : r < t.names.length) : ix.name_row r = .ok (nameOf t.names t.blob r) := by
  have hn : ix.hdr.names_n = t.names.length := by rw [hix.hdr]; rfl
  obtain ⟨s, hlen, hin⟩ := Tables.mem_names_slot (List.getElem_mem hr)
  unfold Index.name_row
  rw [if_pos (by rw [hn]; exact hr)]
  simp only
  rw [hix.nameRow_at h hr, nameOf_of_lt hr]
  have hblob : ix.blob = t.blob := hix.blob
  unfold NameRow.bytes
  rw [hblob, hlen, Index.blobSlice, if_pos hin.le]
  rfl

end

/-- Both searches return the first distinct symbols whose names contain the needle. -/
theorem substring_search_exact [Unicode] [Memmem] {f : Bytes} {ix : Index} (hf : Produced f)
    (hopen : open_index f = .ok ix) (hnames : ix.hdr.names_n < 2 ^ 32)
    (hpost : ix.hdr.trigram_post_len < 2 ^ 32) (parallelism : Nat) {needle : String}
    (hneedle : 3 ≤ len needle) (limit : Nat) :
    ix.syms_matching_substring parallelism needle limit =
        .ok ((matching ix.nameRows ix.blob (as_bytes needle) false).eraseDups.take limit) ∧
      ix.syms_matching_substring_ci parallelism needle limit =
        .ok ((matching ix.nameRows ix.blob (as_bytes needle) true).eraseDups.take limit) := by
  obtain ⟨F, -, t, ht⟩ := hf.renders
  obtain ⟨htot, ix', hopen', hix⟩ := t.open_file ht
  cases hopen.symm.trans hopen'
  have htri := hix.trigrams hnames hpost
  have hn : ix.hdr.names_n = t.names.length := by rw [hix.hdr]; rfl
  have hrows : ∀ r < t.names.length, ix.name_row r = .ok (nameOf t.names t.blob r) :=
    fun r hr => hix.name_row htot hr
  have hblob : ix.blob = t.blob := hix.blob
  rw [hix.nameRows htot, hblob]
  exact ⟨htri.search hn hrows parallelism hneedle limit false,
    htri.search hn hrows parallelism hneedle limit true⟩

section

attribute [local instance] asciiUnicode naiveMemmem

theorem substring_search_exact_sample :
    ∃ f ix, sampleShard.finish = .ok f ∧ open_index f = .ok ix ∧
      ix.syms_matching_substring 4 "::f" 10 =
        .ok ((matching ix.nameRows ix.blob (as_bytes "::f") false).eraseDups.take 10) ∧
      ix.syms_matching_substring_ci 4 "::f" 10 =
        .ok ((matching ix.nameRows ix.blob (as_bytes "::f") true).eraseDups.take 10) := by
  obtain ⟨hf, ix, hopen, hix⟩ := sampleShard.opens (by decide +kernel)
  have hn : ix.hdr.names_n < 2 ^ 32 := by
    rw [hix.hdr]
    exact show sampleShard.finishRows.names.length < 2 ^ 32 by decide +kernel
  have hp : ix.hdr.trigram_post_len < 2 ^ 32 := by
    rw [hix.hdr]
    exact show sampleShard.finishRows.trigram_post.length < 2 ^ 32 by decide +kernel
  exact ⟨_, ix, hf, hopen, substring_search_exact (Produced.finish hf) hopen hn hp 4 (by decide) 10⟩

end

end Scry2
