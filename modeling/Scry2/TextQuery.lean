import Scry2.LinearScan
import Scry2.Answers

/-!
# Types, signatures and members of substring matches

`type`, `sig` and `members` gather the first matching symbols, and then keep the first distinct
things to show. They report the second cut only.
-/

open Scry2.Lib

namespace Scry2

/-- What distinguishes a hit from the others. -/
def TextHit.key (h : TextHit) : String × String := (logical_key h.name, h.text)

def MemberHit.key (h : MemberHit) : String × String × Option String := (logical_key h.name, h.kind, h.sig)

namespace Queries

section

variable (ix : Queries)

/-- The key of a symbol with a text. -/
def textKey (text_of : UInt64 → Res (Option String)) (sym : UInt64) : Option (String × String) :=
  match text_of sym, ix.metaOr sym with
  | .ok (some text), .ok (sname, _, _) => some (logical_key sname, text)
  | _, _ => none

/-- The key of a member. -/
def memberKey (child : UInt64) : Option (String × String × Option String) :=
  match ix.metaOr child, ix.sig_of child with
  | .ok (mname, mkind, _), .ok sig => some (logical_key mname, kind_str mkind, sig)
  | _, _ => none

/-- The members of a symbol that is a type or a package. -/
def membersOf (sym : UInt64) : List UInt64 :=
  match ix.metaOr sym, ix.members sym with
  | .ok (_, ckind, _), .ok children => if is_container ckind then children else []
  | _, _ => []

end

variable {ix : Queries} {limit : Nat}

/-! ## Types and signatures -/

theorem textHits_keys {text_of : UInt64 → Res (Option String)} {syms : List UInt64} (seen : List (String × String))
    (hits : List TextHit) {out : List TextHit} (hseen : ∀ k, k ∈ seen ↔ k ∈ hits.map TextHit.key)
    (h : ix.textHits text_of limit syms seen hits = .ok out) :
    out.map TextHit.key = (keepUpTo limit (hits.map TextHit.key) (syms.filterMap (ix.textKey text_of))).1 := by
  induction syms generalizing seen hits with
  | nil =>
    cases h
    rfl
  | cons sym syms ih =>
    rw [textHits] at h
    obtain ⟨text, htext, h⟩ := Res.bind_eq_ok h
    cases text with
    | none =>
      have hkey : ix.textKey text_of sym = none := by
        unfold textKey
        rw [htext]
      rw [List.filterMap_cons_none hkey]
      exact ih seen hits hseen h
    | some text =>
      obtain ⟨⟨sname, knd, lng⟩, hmeta, h⟩ := Res.bind_eq_ok h
      have hkey : ix.textKey text_of sym = some (logical_key sname, text) := by
        unfold textKey
        rw [htext, hmeta]
      rw [List.filterMap_cons_some hkey, keepUpTo]
      simp only [hseen] at h
      by_cases hmem : (logical_key sname, text) ∈ hits.map TextHit.key
      · rw [if_pos hmem] at h ⊢
        exact ih seen hits hseen h
      · rw [if_neg hmem] at h ⊢
        have hmap : (hits ++ [TextHit.mk sname (kind_str knd) (lang_str lng) text]).map TextHit.key =
            hits.map TextHit.key ++ [(logical_key sname, text)] := by rw [List.map_append]; rfl
        rw [List.length_append, List.length_singleton] at h
        rw [List.length_map]
        split_ifs at h ⊢ with hlim
        · cases h
          exact hmap
        · rw [← hmap]
          refine ih _ _ (fun k => ?_) h
          rw [hmap, List.mem_cons, hseen, List.mem_append, List.mem_singleton, or_comm]

/-- The hits of a whole request, and when it reports a cut. -/
theorem textHits_spec {text_of : UInt64 → Res (Option String)} {syms : List UInt64} {out : List TextHit}
    (h : ix.textHits text_of limit syms [] [] = .ok out) :
    out.map TextHit.key = (distinct (syms.filterMap (ix.textKey text_of))).take (max limit 1) ∧
      (limit ≤ out.length ↔ limit ≤ (distinct (syms.filterMap (ix.textKey text_of))).length) := by
  have hkeys := textHits_keys [] [] (fun _ => Iff.rfl) h
  rw [List.map_nil, (keepUpTo_spec List.nodup_nil (by simp) _).1, List.nil_append] at hkeys
  refine ⟨hkeys, ?_⟩
  have hlen := congrArg List.length hkeys
  rw [List.length_map, List.length_take] at hlen
  omega

/-! ## Members -/

/-- The tables agree with the hits so far. -/
structure MemberState.Ok (ix : Queries) (st : MemberState) : Prop where
  rendered : ∀ k, k ∈ st.rendered ↔ k ∈ st.members.map MemberHit.key
  seen : ∀ child ∈ st.seen, ∃ k, ix.memberKey child = some k ∧ k ∈ st.members.map MemberHit.key

theorem memberHits_keys {children : List UInt64} {st st' : MemberState} {stop : Bool} (hst : st.Ok ix)
    (h : ix.memberHits limit children st = .ok (st', stop)) :
    (st'.members.map MemberHit.key, stop) =
        keepUpTo limit (st.members.map MemberHit.key) (children.filterMap ix.memberKey) ∧ st'.Ok ix := by
  induction children generalizing st with
  | nil =>
    cases h
    exact ⟨rfl, hst⟩
  | cons child children ih =>
    rw [memberHits] at h
    by_cases hseen : child ∈ st.seen
    · rw [if_pos hseen] at h
      obtain ⟨k, hk, hmem⟩ := hst.seen child hseen
      rw [List.filterMap_cons_some hk, keepUpTo, if_pos hmem]
      exact ih hst h
    · rw [if_neg hseen] at h
      obtain ⟨⟨mname, mkind, mlang⟩, hmeta, h⟩ := Res.bind_eq_ok h
      obtain ⟨sig, hsig, h⟩ := Res.bind_eq_ok h
      have hkey : ix.memberKey child = some (logical_key mname, kind_str mkind, sig) := by
        unfold memberKey
        rw [hmeta, hsig]
      rw [List.filterMap_cons_some hkey, keepUpTo]
      simp only [hst.rendered] at h
      by_cases hmem : (logical_key mname, kind_str mkind, sig) ∈ st.members.map MemberHit.key
      · rw [if_pos hmem] at h ⊢
        have hok : MemberState.Ok ix { st with seen := child :: st.seen } :=
          ⟨hst.rendered, List.forall_mem_cons.mpr ⟨⟨_, hkey, hmem⟩, hst.seen⟩⟩
        have hih := ih hok h
        exact hih
      · rw [if_neg hmem] at h ⊢
        have hmap : (st.members ++ [MemberHit.mk mname (kind_str mkind) (lang_str mlang) sig]).map MemberHit.key =
            st.members.map MemberHit.key ++ [(logical_key mname, kind_str mkind, sig)] := by
          rw [List.map_append]
          rfl
        have hok : MemberState.Ok ix ⟨child :: st.seen, (logical_key mname, kind_str mkind, sig) :: st.rendered,
            st.members ++ [⟨mname, kind_str mkind, lang_str mlang, sig⟩]⟩ := by
          refine ⟨fun k => ?_, List.forall_mem_cons.mpr ⟨⟨_, hkey, ?_⟩, fun c hc => ?_⟩⟩
          · rw [hmap, List.mem_cons, hst.rendered, List.mem_append, List.mem_singleton, or_comm]
          · rw [hmap]
            exact List.mem_append_right _ (List.mem_singleton.mpr rfl)
          · obtain ⟨k, hk, hin⟩ := hst.seen c hc
            refine ⟨k, hk, ?_⟩
            rw [hmap]
            exact List.mem_append_left _ hin
        rw [List.length_append, List.length_singleton] at h
        rw [List.length_map]
        split_ifs at h ⊢ with hlim
        · cases h
          exact ⟨by rw [hmap], hok⟩
        · rw [← hmap]
          exact ih hok h

theorem memberGroups_keys {syms : List UInt64} {container container' : String} {st st' : MemberState} {stop : Bool}
    (hst : st.Ok ix) (h : ix.memberGroups limit syms container st = .ok (container', st', stop)) :
    (st'.members.map MemberHit.key, stop) = keepUpTo limit (st.members.map MemberHit.key)
      ((syms.flatMap ix.membersOf).filterMap ix.memberKey) := by
  induction syms generalizing container st with
  | nil =>
    cases h
    rfl
  | cons sym syms ih =>
    rw [memberGroups] at h
    obtain ⟨⟨cname, ckind, clang⟩, hmeta, h⟩ := Res.bind_eq_ok h
    rw [List.flatMap_cons, List.filterMap_append]
    by_cases hkind : is_container ckind = true
    · simp only [hkind, Bool.not_true, Bool.false_eq_true, if_false] at h
      obtain ⟨children, hchildren, h⟩ := Res.bind_eq_ok h
      obtain ⟨⟨st₁, stop₁⟩, hhits, h⟩ := Res.bind_eq_ok h
      have hof : ix.membersOf sym = children := by
        unfold membersOf
        rw [hmeta, hchildren]
        exact if_pos hkind
      obtain ⟨hkeys, hst₁⟩ := memberHits_keys hst hhits
      rw [hof, keepUpTo_append, ← hkeys]
      cases stop₁ with
      | true =>
        cases h
        rfl
      | false => exact ih hst₁ h
    · simp only [hkind, Bool.not_false, if_true] at h
      have hof : ix.membersOf sym = [] := by
        unfold membersOf
        rw [hmeta]
        cases ix.members sym with
        | ok l => exact if_neg hkind
        | error e => rfl
      rw [hof]
      exact ih hst h

/-- The members of a whole request, and when it reports a cut. -/
theorem memberGroups_spec {syms : List UInt64} {container container' : String} {st : MemberState} {stop : Bool}
    (h : ix.memberGroups limit syms container {} = .ok (container', st, stop)) :
    st.members.map MemberHit.key =
        (distinct ((syms.flatMap ix.membersOf).filterMap ix.memberKey)).take (max limit 1) ∧
      (stop = true ↔ max limit 1 ≤ (distinct ((syms.flatMap ix.membersOf).filterMap ix.memberKey)).length) := by
  have hempty : MemberState.Ok ix {} := ⟨fun _ => Iff.rfl, fun _ h => absurd h List.not_mem_nil⟩
  have hkeys := memberGroups_keys hempty h
  obtain ⟨hfst, hsnd⟩ := keepUpTo_spec (k := limit) List.nodup_nil (by simp)
    ((syms.flatMap ix.membersOf).filterMap ix.memberKey)
  rw [List.nil_append] at hfst hsnd
  rw [List.map_nil] at hkeys
  rw [← hkeys] at hfst hsnd
  exact ⟨hfst, hsnd⟩

theorem named_textHits (q : Queries) (text_of : UInt64 → Res (Option String)) (limit : Nat) (syms : List UInt64)
    (seen : List (String × String)) (hits : List TextHit) :
    q.named.textHits text_of limit syms seen hits = q.textHits text_of limit syms seen hits := by
  have hmeta : q.named.metaOr = q.metaOr := rfl
  induction syms generalizing seen hits with
  | nil => rfl
  | cons sym syms ih =>
    rw [textHits, textHits]
    simp only [hmeta, ih]

end Queries

/-! ## When the report is honest -/

/-- Nothing of `wanted` is missing among the first `n` distinct elements, unless there are more. -/
theorem reported_iff {α : Type} [DecidableEq α] {found shown : List α} {wanted : α → Prop} {n cut : Nat} {truncated : Bool}
    (hshown : shown = (distinct found).take n) (htrunc : truncated = true ↔ cut ≤ (distinct found).length) (hcut : cut ≤ n) :
    (truncated = false → ∀ k, wanted k → k ∈ shown) ↔
      cut ≤ (distinct found).length ∨ ∀ k, wanted k → k ∈ found := by
  rw [← htrunc]
  cases truncated with
  | true => simp
  | false =>
    have hlt : ¬ cut ≤ (distinct found).length := fun h => Bool.false_ne_true (htrunc.mpr h)
    rw [hshown, List.take_of_length_le (by omega)]
    simp

/-- Some name of the symbol contains the needle. -/
def Index.NameContains (ix : Index) (needle : String) (sym : UInt64) : Prop :=
  ∃ row ∈ ix.nameRows, row.sym = sym ∧ as_bytes needle <:+: row.bytes ix.blob

section

variable [Memmem] (ix : Index) (parallelism : Nat) (needle : String)

/-- The keys of all matching symbols with a text. -/
def Index.TextWanted (text_of : UInt64 → Res (Option String)) (k : String × String) : Prop :=
  ∃ sym, ix.NameContains needle sym ∧ (ix.queries parallelism).textKey text_of sym = some k

/-- The keys of all members of matching types and packages. -/
def Index.MemberWanted (k : String × String × Option String) : Prop :=
  ∃ sym, ix.NameContains needle sym ∧ ∃ child ∈ (ix.queries parallelism).membersOf sym,
    (ix.queries parallelism).memberKey child = some k

/-- A report that nothing was cut is right exactly when the gathered symbols fill the answer, or stand
for all matching ones. -/
theorem substring_report_iff {limit : Nat} {gathered : List UInt64}
    (hgathered : ix.syms_matching_substring parallelism needle (max limit SUBSTR_AGG_CAP) = .ok gathered) :
    (∀ hits total truncated,
      (ix.queries parallelism).do_type needle true limit = .ok (.Type hits total truncated) →
      ((truncated = false → ∀ k, ix.TextWanted parallelism needle ix.type_of k → k ∈ hits.map TextHit.key) ↔
        limit ≤ (distinct (gathered.filterMap ((ix.queries parallelism).textKey ix.type_of))).length ∨
          ∀ k, ix.TextWanted parallelism needle ix.type_of k →
            k ∈ gathered.filterMap ((ix.queries parallelism).textKey ix.type_of))) ∧
    (∀ hits total truncated,
      (ix.queries parallelism).do_sig needle true limit = .ok (.Sig hits total truncated) →
      ((truncated = false → ∀ k, ix.TextWanted parallelism needle ix.sig_of k → k ∈ hits.map TextHit.key) ↔
        limit ≤ (distinct (gathered.filterMap ((ix.queries parallelism).textKey ix.sig_of))).length ∨
          ∀ k, ix.TextWanted parallelism needle ix.sig_of k →
            k ∈ gathered.filterMap ((ix.queries parallelism).textKey ix.sig_of))) ∧
    ∀ container members total truncated,
      (ix.queries parallelism).do_members needle true limit = .ok (.Members container members total truncated) →
      ((truncated = false → ∀ k, ix.MemberWanted parallelism needle k → k ∈ members.map MemberHit.key) ↔
        max limit 1 ≤ (distinct ((gathered.flatMap (ix.queries parallelism).membersOf).filterMap
            (ix.queries parallelism).memberKey)).length ∨
          ∀ k, ix.MemberWanted parallelism needle k →
            k ∈ (gathered.flatMap (ix.queries parallelism).membersOf).filterMap (ix.queries parallelism).memberKey) := by
  have hgather : (ix.queries parallelism).gather needle true limit = .ok gathered := hgathered
  refine ⟨fun hits total truncated h => ?_, fun hits total truncated h => ?_,
    fun container members total truncated h => ?_⟩
  · unfold Queries.do_type at h
    rw [hgather, Res.ok_bind] at h
    obtain ⟨out, hout, h⟩ := Res.bind_eq_ok h
    cases h
    obtain ⟨hkeys, hlen⟩ := Queries.textHits_spec hout
    exact reported_iff hkeys (by rw [decide_eq_true_eq]; exact hlen) (le_max_left _ _)
  · unfold Queries.do_sig at h
    rw [hgather, Res.ok_bind] at h
    obtain ⟨out, hout, h⟩ := Res.bind_eq_ok h
    cases h
    obtain ⟨hkeys, hlen⟩ := Queries.textHits_spec hout
    exact reported_iff hkeys (by rw [decide_eq_true_eq]; exact hlen) (le_max_left _ _)
  · unfold Queries.do_members at h
    rw [hgather, Res.ok_bind] at h
    obtain ⟨⟨container', st, stop⟩, hout, h⟩ := Res.bind_eq_ok h
    cases h
    obtain ⟨hkeys, hstop⟩ := Queries.memberGroups_spec hout
    exact reported_iff hkeys hstop le_rfl

end

/-! ## Too many matches -/

section

attribute [local instance] asciiUnicode naiveMemmem

/-- Sixty-five symbols of one name, only the last of them with a type. -/
def manyNames : IndexBuilder :=
  ((List.range 65).foldl (fun b i => b.upsert_sym (UInt64.ofNat (i + 1)) Kind.FUNCTION Lang.CXX "a")
    IndexBuilder.new).add_type 65 "int"

theorem manyNames_rows :
    manyNames.finishRows.total < 2 ^ 63 ∧
      (∀ row ∈ manyNames.finishRows.names, row.name_off + row.name_len ≤ manyNames.finishRows.blob.length) ∧
      matching manyNames.finishRows.names manyNames.finishRows.blob (as_bytes "a") false =
        (List.range 65).map fun i => UInt64.ofNat (i + 1) := by
  decide +kernel

theorem manyNames_opens :
    ∃ f ix, manyNames.finish = .ok f ∧ open_index f = .ok ix ∧ ix.NameContains "a" 65 ∧
      (ix.queries 1).named = manyNames.answers ∧
      ix.syms_matching_substring 1 "a" 64 = .ok ((List.range 64).map fun i => UInt64.ofNat (i + 1)) := by
  obtain ⟨htot, hin, hmatch⟩ := manyNames_rows
  obtain ⟨ix, hf, hopen, hnames, hrows, hblob⟩ := manyNames.opens_names htot hin
  obtain ⟨ix', -, hopen', -, hnamed⟩ := manyNames.queries_named (by decide +kernel) htot
  cases hopen.symm.trans hopen'
  rw [← hrows, ← hblob] at hmatch
  refine ⟨_, ix, hf, hopen, ?_, hnamed 1, ?_⟩
  · have hmem : (65 : UInt64) ∈ matching ix.nameRows ix.blob (as_bytes "a") false := by
      rw [hmatch]
      decide
    obtain ⟨row, hrow, hif⟩ := List.mem_filterMap.mp hmem
    split_ifs at hif with hcontains
    exact ⟨row, hrow, Option.some.inj hif, hcontains⟩
  · have hne : ix.nameRows ≠ [] := by
      intro h
      rw [h] at hmatch
      cases hmatch
    have hlin := linear_eq ix.nameRows_length.symm (fun r hr => hnames.name_row hr) 1
      (show as_bytes "a" ≠ [] by decide) hne (show 0 < 64 by decide) false
    rw [max_self, min_eq_left (List.length_pos_iff.mpr hne), shares_one, hmatch] at hlin
    unfold Index.syms_matching_substring Index.syms_matching_substring_impl
    have hn : ix.hdr.names_n ≠ 0 := by
      rw [← ix.nameRows_length]
      exact (List.length_pos_iff.mpr hne).ne'
    rw [if_neg (by simp [hn]), if_neg (fun h => absurd h.1 (by decide))]
    exact hlin.trans (by decide +kernel)

/-- The gathered symbols have no type, and the one that has is past the cap. -/
theorem manyNames_type {ix : Index} (hnamed : (ix.queries 1).named = manyNames.answers)
    (hgathered : ix.syms_matching_substring 1 "a" 64 = .ok ((List.range 64).map fun i => UInt64.ofNat (i + 1))) :
    (ix.queries 1).do_type "a" true 1 = .ok (.Type [] 0 false) ∧
      (ix.queries 1).textKey ix.type_of 65 = some ("a", "int") := by
  have hhits : manyNames.answers.textHits manyNames.answers.type_of 1
      ((List.range 64).map fun i => UInt64.ofNat (i + 1)) [] [] = .ok [] ∧
      manyNames.answers.textKey manyNames.answers.type_of 65 = some ("a", "int") := by
    decide +kernel
  have hgather : (ix.queries 1).gather "a" true 1 = .ok ((List.range 64).map fun i => UInt64.ofNat (i + 1)) := hgathered
  rw [← hnamed, Queries.named_textHits] at hhits
  refine ⟨?_, hhits.2⟩
  unfold Queries.do_type
  rw [hgather, Res.ok_bind]
  have htext : (ix.queries 1).textHits (ix.queries 1).type_of 1 ((List.range 64).map fun i => UInt64.ofNat (i + 1)) [] [] =
    .ok [] := hhits.1
  rw [htext]
  rfl

theorem type_report_misleads :
    ∃ f ix, manyNames.finish = .ok f ∧ open_index f = .ok ix ∧
      (ix.queries 1).do_type "a" true 1 = .ok (.Type [] 0 false) ∧ ix.TextWanted 1 "a" ix.type_of ("a", "int") := by
  obtain ⟨f, ix, hf, hopen, hcontains, hnamed, hgathered⟩ := manyNames_opens
  obtain ⟨hreply, hkey⟩ := manyNames_type hnamed hgathered
  exact ⟨f, ix, hf, hopen, hreply, 65, hcontains, hkey⟩

/-- The condition fails on it. -/
theorem substring_report_iff_manyNames :
    ∃ f ix gathered, manyNames.finish = .ok f ∧ open_index f = .ok ix ∧
      ix.syms_matching_substring 1 "a" 64 = .ok gathered ∧
      ¬ (1 ≤ (distinct (gathered.filterMap ((ix.queries 1).textKey ix.type_of))).length ∨
        ∀ k, ix.TextWanted 1 "a" ix.type_of k → k ∈ gathered.filterMap ((ix.queries 1).textKey ix.type_of)) := by
  obtain ⟨f, ix, hf, hopen, hcontains, hnamed, hgathered⟩ := manyNames_opens
  obtain ⟨hreply, hkey⟩ := manyNames_type hnamed hgathered
  refine ⟨f, ix, _, hf, hopen, hgathered, fun hcond => ?_⟩
  have hall := ((substring_report_iff ix 1 "a" hgathered).1 [] 0 false hreply).mpr hcond
  exact absurd (hall rfl ("a", "int") ⟨65, hcontains, hkey⟩) List.not_mem_nil

end

end Scry2
