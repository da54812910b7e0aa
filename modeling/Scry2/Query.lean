import Scry2.Produced

/-!
# Range queries

A query bisects a packed table for the first row of its symbol and for the first row of the next
one. The next symbol of `u64::MAX` is `0`, which is where the queries go wrong.
-/

open Scry2.Lib

namespace Scry2

def u64Max : UInt64 := 0xffffffffffffffff

theorem succ_eq_zero : u64Max + 1 = 0 := rfl

theorem lt_succ_iff {k : UInt64} (h : k ≠ u64Max) (a : UInt64) : a < k + 1 ↔ a ≤ k := by
  have hk : k.toNat ≠ 2 ^ 64 - 1 := fun e => h (UInt64.toNat_inj.mp e)
  have hlt := k.toNat_lt
  rw [UInt64.lt_iff_toNat_lt, UInt64.le_iff_toNat_le, UInt64.toNat_add]
  have h1 : (1 : UInt64).toNat = 1 := rfl
  omega

theorem le_u64Max (a : UInt64) : a ≤ u64Max := by
  rw [UInt64.le_iff_toNat_le]
  have := a.toNat_lt
  have h1 : u64Max.toNat = 2 ^ 64 - 1 := rfl
  omega

/-! ## Packed tables -/

section Packed

theorem rowsFrom_eq {α ρ : Type} {enc : ρ → Bytes} {n : Nat} {l : List ρ}
    (henc : ∀ r, (enc r).length = n) (dec : Bytes → α) {lo hi : Nat} (h : hi ≤ l.length) :
    Index.rowsFrom (l.flatMap enc) n lo hi dec =
      ((l.drop lo).take (hi - lo)).map fun r => dec (enc r) := by
  unfold Index.rowsFrom
  apply List.ext_getElem
  · simp; omega
  · intro i h1 h2
    simp only [List.length_map, List.length_range'] at h1
    simp only [List.getElem_map, List.getElem_range', List.getElem_take, List.getElem_drop, one_mul]
    rw [rowAt_flatMap henc (by omega)]

variable {ρ : Type} [LinearOrder ρ] {enc : ρ → Bytes} {n : Nat} {l : List ρ}

theorem lower_bound_eq (henc : ∀ r, (enc r).length = n) (hlt : ∀ a b, enc a < enc b ↔ a < b)
    (hl : l.Pairwise (· < ·)) (key : ρ) :
    lower_bound (l.flatMap enc) l.length n (enc key) = boundary l key := by
  unfold lower_bound
  apply bisect_eq_boundary hl
  intro i hi
  rw [rowAt_flatMap henc hi, decide_eq_decide, hlt]

/-- How the rows of a table sit above and below the zero row of a symbol. -/
structure Keyed (key : ρ → UInt64) (zero : UInt64 → ρ) : Prop where
  zero_le : ∀ k r, zero k ≤ r ↔ k ≤ key r

theorem Keyed.lt_zero {key : ρ → UInt64} {zero : UInt64 → ρ} (h : Keyed key zero) (k : UInt64) (r : ρ) :
    r < zero k ↔ key r < k := by
  rw [← not_le, h.zero_le, not_le]

theorem Keyed.zero_le_zero {key : ρ → UInt64} {zero : UInt64 → ρ} (h : Keyed key zero)
    (hz : ∀ k, key (zero k) = k) {j k : UInt64} (hjk : j ≤ k) : zero j ≤ zero k := by
  rw [h.zero_le, hz]
  exact hjk

/-- Below `u64::MAX` the answer is the rows of the symbol, in table order. -/
theorem rowsOfKey_eq {α : Type} {key : ρ → UInt64} {zero : UInt64 → ρ} (hk : Keyed key zero)
    (hz : ∀ k, key (zero k) = k) (henc : ∀ r, (enc r).length = n)
    (hzero : ∀ k, enc (zero k) = be64 k ++ List.replicate (n - 8) 0)
    (hlt : ∀ a b, enc a < enc b ↔ a < b) (hl : l.Pairwise (· < ·)) (dec : Bytes → α) {k : UInt64}
    (hmax : k ≠ u64Max) :
    Index.rowsOfKey (l.flatMap enc) l.length n k dec =
      .ok ((l.filter fun r => key r = k).map fun r => dec (enc r)) := by
  have hle : zero k ≤ zero (k + 1) :=
    hk.zero_le_zero hz ((lt_succ_iff hmax k).mpr le_rfl).le
  unfold Index.rowsOfKey
  simp only [← hzero, lower_bound_eq henc hlt hl]
  rw [if_neg (not_lt.mpr (boundary_mono hle)), rowsFrom_eq henc dec (boundary_le_length _ _),
    between_boundaries hl hle]
  congr 2
  apply List.filter_congr
  intro r _
  rw [decide_eq_decide, hk.zero_le, hk.lt_zero, lt_succ_iff hmax]
  exact ⟨fun h => le_antisymm h.2 h.1, fun h => ⟨h.ge, h.le⟩⟩

/-- At `u64::MAX` the upper bound is the first row of the table. -/
theorem rowsOfKey_max {α : Type} {key : ρ → UInt64} {zero : UInt64 → ρ} (hk : Keyed key zero)
    (henc : ∀ r, (enc r).length = n)
    (hzero : ∀ k, enc (zero k) = be64 k ++ List.replicate (n - 8) 0)
    (hlt : ∀ a b, enc a < enc b ↔ a < b) (hl : l.Pairwise (· < ·)) (dec : Bytes → α) :
    Index.rowsOfKey (l.flatMap enc) l.length n u64Max dec =
      if ∃ r ∈ l, key r < u64Max then .error .panic else .ok [] := by
  have hstop : boundary l (zero (u64Max + 1)) = 0 := by
    unfold boundary
    rw [List.length_eq_zero_iff, List.filter_eq_nil_iff]
    intro r _ hr
    rw [decide_eq_true_eq, hk.lt_zero, succ_eq_zero] at hr
    exact absurd hr (not_lt.mpr UInt64.zero_le)
  have hstart : 0 < boundary l (zero u64Max) ↔ ∃ r ∈ l, key r < u64Max := by
    unfold boundary
    rw [List.length_pos_iff_exists_mem]
    simp only [List.mem_filter, decide_eq_true_eq, hk.lt_zero]
  unfold Index.rowsOfKey
  simp only [← hzero, lower_bound_eq henc hlt hl, hstop, hstart]
  split_ifs
  · rfl
  · simp [Index.rowsFrom]

/-- What a query answers and what it should: they agree exactly when the symbol is not `u64::MAX`
or the table is empty. -/
theorem rowsOfKey_exact_iff {α : Type} {key : ρ → UInt64} {zero : UInt64 → ρ} (hk : Keyed key zero)
    (hz : ∀ k, key (zero k) = k) (henc : ∀ r, (enc r).length = n)
    (hzero : ∀ k, enc (zero k) = be64 k ++ List.replicate (n - 8) 0)
    (hlt : ∀ a b, enc a < enc b ↔ a < b) (hl : l.Pairwise (· < ·)) (dec : Bytes → α) (k : UInt64) :
    Index.rowsOfKey (l.flatMap enc) l.length n k dec =
        .ok ((l.filter fun r => key r = k).map fun r => dec (enc r)) ↔
      (k = u64Max → l = []) := by
  by_cases hmax : k = u64Max
  · subst hmax
    rw [rowsOfKey_max hk henc hzero hlt hl dec]
    refine ⟨fun h _ => ?_, fun h => by simp [h rfl]⟩
    split_ifs at h with hex
    -- Every row is one of `u64::MAX`, and the answer leaves all of them out.
    push Not at hex
    have hall : l.filter (fun r => key r = u64Max) = l := by
      rw [List.filter_eq_self]
      intro r hr
      simpa using le_antisymm (le_u64Max _) (hex r hr)
    rw [hall] at h
    simpa using h
  · rw [rowsOfKey_eq hk hz henc hzero hlt hl dec hmax]
    exact ⟨fun _ h => absurd h hmax, fun _ => rfl⟩

end Packed

/-! ## The two kinds of rows -/

theorem inhRow_keyed : Keyed InhRow.fst fun k => ⟨k, 0⟩ := by
  refine ⟨fun k r => ?_⟩
  rw [← not_lt, InhRow.lt_iff, ← not_lt]
  have h0 : ¬ r.snd < 0 := not_lt.mpr UInt64.zero_le
  simp [h0]

theorem callRow_keyed : Keyed CallRow.fst fun k => ⟨k, 0, 0⟩ := by
  refine ⟨fun k r => ?_⟩
  rw [← not_lt, CallRow.lt_iff, ← not_lt]
  have h0 : ¬ r.snd < 0 := not_lt.mpr UInt64.zero_le
  have h1 : ¬ r.role < 0 := not_lt.mpr UInt8.zero_le
  simp [h0, h1]

theorem be64_zero : be64 0 = List.replicate 8 0 := by decide

theorem inhRow_zero (k : UInt64) :
    (InhRow.mk k 0).encode = be64 k ++ List.replicate (INH_LEN - 8) 0 := by
  unfold InhRow.encode
  rw [be64_zero]
  rfl

theorem callRow_zero (k : UInt64) :
    (CallRow.mk k 0 0).encode = be64 k ++ List.replicate (CALL_LEN - 8) 0 := by
  unfold CallRow.encode
  rw [be64_zero]
  rfl

theorem inhRows_exact_iff {l : List InhRow} (hl : l.Pairwise (· < ·)) (k : UInt64) :
    Index.rowsOfKey (l.flatMap InhRow.encode) l.length INH_LEN k (fun row => (InhRow.decode row).snd) =
        .ok ((l.filter fun r => r.fst = k).map InhRow.snd) ↔ (k = u64Max → l = []) := by
  have h := rowsOfKey_exact_iff inhRow_keyed (fun _ => rfl) InhRow.encode_length inhRow_zero
    InhRow.encode_lt_iff hl (fun row => (InhRow.decode row).snd) k
  simp only [InhRow.decode_encode] at h
  exact h

theorem callRows_exact_iff {l : List CallRow} (hl : l.Pairwise (· < ·)) (k : UInt64) :
    Index.rowsOfKey (l.flatMap CallRow.encode) l.length CALL_LEN k
        (fun row => ((CallRow.decode row).snd, (CallRow.decode row).role)) =
        .ok ((l.filter fun r => r.fst = k).map fun r => (r.snd, r.role)) ↔ (k = u64Max → l = []) := by
  have h := rowsOfKey_exact_iff callRow_keyed (fun _ => rfl) CallRow.encode_length callRow_zero
    CallRow.encode_lt_iff hl (fun row => ((CallRow.decode row).snd, (CallRow.decode row).role)) k
  simp only [CallRow.decode_encode] at h
  exact h

/-! ## Xrefs -/

theorem xrefRow_zero (sym : UInt64) (role : UInt8) :
    (XrefRow.mk sym role 0 0).encode = be64 sym ++ ([role] ++ List.replicate 8 0) := by
  have h0 : be32 0 = List.replicate 4 0 := by decide
  unfold XrefRow.encode
  rw [h0]
  rfl

theorem xrefRow_le_iff (sym : UInt64) (role : UInt8) (r : XrefRow) :
    ⟨sym, role, 0, 0⟩ ≤ r ↔ sym < r.sym ∨ sym = r.sym ∧ role ≤ r.role := by
  rw [← not_lt, XrefRow.lt_iff]
  have h0 : ¬ r.file < 0 := not_lt.mpr UInt32.zero_le
  have h1 : ¬ r.offset < 0 := not_lt.mpr UInt32.zero_le
  simp only [h0, h1, and_false, or_false]
  constructor
  · intro h
    rcases lt_trichotomy sym r.sym with hlt | heq | hgt
    · exact Or.inl hlt
    · exact Or.inr ⟨heq, not_lt.mp fun hr => h (Or.inr ⟨heq.symm, hr⟩)⟩
    · exact absurd (Or.inl hgt) h
  · rintro (h | ⟨rfl, h⟩) (h' | ⟨h', h''⟩)
    · exact lt_asymm h h'
    · exact h.ne h'.symm
    · exact lt_irrefl _ h'
    · exact absurd h'' (not_lt.mpr h)

theorem lt_role_succ_iff {hi : UInt8} (h : hi ≠ 255) (a : UInt8) : a < hi + 1 ↔ a ≤ hi := by
  have hk : hi.toNat ≠ 255 := fun e => h (UInt8.toNat_inj.mp e)
  have hlt := hi.toNat_lt
  rw [UInt8.lt_iff_toNat_lt, UInt8.le_iff_toNat_le, UInt8.toNat_add]
  have h1 : (1 : UInt8).toNat = 1 := rfl
  omega

theorem le_255 (a : UInt8) : a ≤ 255 := by
  rw [UInt8.le_iff_toNat_le]
  have := a.toNat_lt
  have h1 : (255 : UInt8).toNat = 255 := rfl
  omega

/-- The first row past the ones `xrefs` wants. -/
def xrefStop (sym : UInt64) (hi : UInt8) : XrefRow :=
  if hi = 255 then ⟨sym + 1, 0, 0, 0⟩ else ⟨sym, hi + 1, 0, 0⟩

theorem lt_xrefStop_iff {sym : UInt64} {hi : UInt8} (h : sym = u64Max → hi ≠ 255) (r : XrefRow) :
    r < xrefStop sym hi ↔ r.sym < sym ∨ r.sym = sym ∧ r.role ≤ hi := by
  unfold xrefStop
  rw [← not_le]
  split_ifs with h255
  · have hmax : sym ≠ u64Max := fun e => h e h255
    have hle : ∀ s, sym + 1 < s ∨ sym + 1 = s ∧ 0 ≤ r.role ↔ sym + 1 ≤ s := by
      intro s
      rw [and_iff_left UInt8.zero_le, le_iff_lt_or_eq]
    rw [xrefRow_le_iff, hle, not_le, lt_succ_iff hmax, h255, and_iff_left (le_255 _), le_iff_lt_or_eq]
  · rw [xrefRow_le_iff, not_or, not_and, not_lt, not_le, lt_role_succ_iff h255]
    constructor
    · rintro ⟨hle, himp⟩
      rcases lt_or_eq_of_le hle with hlt | heq
      · exact Or.inl hlt
      · exact Or.inr ⟨heq, himp heq.symm⟩
    · rintro (hlt | ⟨heq, hrole⟩)
      · exact ⟨hlt.le, fun e => absurd e hlt.ne'⟩
      · exact ⟨heq.le, fun _ => hrole⟩

section

variable {ix : Index} {l : List XrefRow}

theorem xrefs_eq_rows (hslice : ix.xrefs_slice = l.flatMap XrefRow.encode)
    (hn : ix.hdr.xrefs_n = l.length) (hl : l.Pairwise (· < ·)) (sym : UInt64) (lo hi : UInt8) :
    ix.xrefs sym lo hi =
      (l.drop (boundary l ⟨sym, lo, 0, 0⟩)).take
        (boundary l (xrefStop sym hi) - boundary l ⟨sym, lo, 0, 0⟩) := by
  have hstop : (xrefStop sym hi).encode = if hi = 255 then be64 (sym + 1) ++ ([0] ++ List.replicate 8 0)
      else be64 sym ++ ([hi + 1] ++ List.replicate 8 0) := by
    unfold xrefStop
    split_ifs
    · exact xrefRow_zero _ _
    · exact xrefRow_zero _ _
  unfold Index.xrefs
  simp only [hslice, hn, ← hstop]
  rw [← xrefRow_zero, lower_bound_eq XrefRow.encode_length XrefRow.encode_lt_iff hl,
    lower_bound_eq XrefRow.encode_length XrefRow.encode_lt_iff hl, rowsFrom_eq XrefRow.encode_length XrefRow.decode (boundary_le_length _ _)]
  simp

/-- The rows of a symbol and a range of roles. -/
def rowsOfRole (l : List XrefRow) (sym : UInt64) (lo hi : UInt8) : List XrefRow :=
  l.filter fun r => r.sym = sym ∧ lo ≤ r.role ∧ r.role ≤ hi

theorem xrefs_exact (hslice : ix.xrefs_slice = l.flatMap XrefRow.encode)
    (hn : ix.hdr.xrefs_n = l.length) (hl : l.Pairwise (· < ·)) {sym : UInt64} {lo hi : UInt8}
    (hlohi : lo ≤ hi) (h : sym = u64Max → hi ≠ 255) : ix.xrefs sym lo hi = rowsOfRole l sym lo hi := by
  have hle : (⟨sym, lo, 0, 0⟩ : XrefRow) ≤ xrefStop sym hi := by
    have hlt := (lt_xrefStop_iff h ⟨sym, lo, 0, 0⟩).mpr (Or.inr ⟨rfl, hlohi⟩)
    exact hlt.le
  rw [xrefs_eq_rows hslice hn hl, between_boundaries hl hle]
  unfold rowsOfRole
  apply List.filter_congr
  intro r _
  rw [decide_eq_decide, xrefRow_le_iff, lt_xrefStop_iff h]
  constructor
  · rintro ⟨h1 | ⟨h1, h1'⟩, h2 | ⟨h2, h2'⟩⟩
    · exact absurd h1 h2.asymm
    · exact absurd h2 h1.ne'
    · exact absurd h1 h2.ne'
    · exact ⟨h2, h1', h2'⟩
  · rintro ⟨h1, h2, h3⟩
    exact ⟨Or.inr ⟨h1.symm, h2⟩, Or.inr ⟨h1, h3⟩⟩

theorem xrefs_max (hslice : ix.xrefs_slice = l.flatMap XrefRow.encode)
    (hn : ix.hdr.xrefs_n = l.length) (hl : l.Pairwise (· < ·)) (lo : UInt8) :
    ix.xrefs u64Max lo 255 = [] := by
  have hstop : boundary l (xrefStop u64Max 255) = 0 := by
    unfold boundary
    rw [List.length_eq_zero_iff, List.filter_eq_nil_iff]
    intro r _ hr
    rw [decide_eq_true_eq, ← not_le] at hr
    refine hr ((xrefRow_le_iff _ _ r).mpr ?_)
    rw [succ_eq_zero, and_iff_left UInt8.zero_le]
    exact lt_or_eq_of_le UInt64.zero_le
  rw [xrefs_eq_rows hslice hn hl, hstop]
  simp

/-- `xrefs` misses rows exactly when it is asked for all roles of `u64::MAX` and there are some. -/
theorem xrefs_exact_iff (hslice : ix.xrefs_slice = l.flatMap XrefRow.encode)
    (hn : ix.hdr.xrefs_n = l.length) (hl : l.Pairwise (· < ·)) (sym : UInt64) {lo hi : UInt8}
    (hlohi : lo ≤ hi) :
    ix.xrefs sym lo hi = rowsOfRole l sym lo hi ↔
      (sym = u64Max → hi = 255 → ∀ r ∈ l, r.sym = u64Max → r.role < lo) := by
  by_cases hmax : sym = u64Max → hi ≠ 255
  · exact ⟨fun _ h1 h2 => absurd h2 (hmax h1), fun _ => xrefs_exact hslice hn hl hlohi hmax⟩
  · push Not at hmax
    obtain ⟨rfl, rfl⟩ := hmax
    rw [xrefs_max hslice hn hl, eq_comm, rowsOfRole, List.filter_eq_nil_iff]
    simp only [decide_eq_true_eq, forall_const, le_255, and_true, not_and, not_le]

end

/-! ## On a written index -/

section

variable {F : Facts}

theorem Tables.inhrev_enumerates (t : Tables F) :
    Enumerates t.inhrev {r | InhRow.mk r.snd r.fst ∈ F.inherits} := by
  have hn : (t.inh.map fun r => InhRow.mk r.snd r.fst).Nodup := by
    refine List.Nodup.map_on ?_ (t.inh_of.1.imp fun h => ne_of_lt h)
    rintro ⟨a, b⟩ _ ⟨c, d⟩ _ h
    simpa [and_comm] using h
  obtain ⟨h1, h2⟩ := insertionSort_enumerates hn
  refine ⟨h1, fun r => (h2 r).trans ?_⟩
  simp only [Set.mem_ofPred_eq, List.mem_map, ← t.inh_of.2]
  constructor
  · rintro ⟨q, hq, rfl⟩; exact hq
  · intro h; exact ⟨_, h, rfl⟩

theorem Tables.crev_enumerates (t : Tables F) :
    Enumerates t.crev {r | CallRow.mk r.snd r.fst r.role ∈ F.calls} := by
  have hn : (t.calls.map fun r => CallRow.mk r.snd r.fst r.role).Nodup := by
    refine List.Nodup.map_on ?_ (t.calls_of.1.imp fun h => ne_of_lt h)
    rintro ⟨a, b, c⟩ _ ⟨d, e, f⟩ _ h
    simp only [CallRow.mk.injEq] at h ⊢
    exact ⟨h.2.1, h.1, h.2.2⟩
  obtain ⟨h1, h2⟩ := insertionSort_enumerates hn
  refine ⟨h1, fun r => (h2 r).trans ?_⟩
  simp only [Set.mem_ofPred_eq, List.mem_map, ← t.calls_of.2]
  constructor
  · rintro ⟨q, hq, rfl⟩; exact hq
  · intro h; exact ⟨_, h, rfl⟩

variable {t : Tables F} {ix : Index}

theorem Index.Lays.inherits_of_iff (h : ix.Lays t.rows) (k : UInt64) :
    ix.inherits_of k = .ok ((t.inh.filter fun r => r.fst = k).map InhRow.snd) ↔
      (k = u64Max → t.inh = []) := by
  unfold Index.inherits_of
  rw [h.inh, h.hdr]
  exact inhRows_exact_iff t.inh_of.1 k

theorem Index.Lays.inherited_by_iff (h : ix.Lays t.rows) (k : UInt64) :
    ix.inherited_by k = .ok ((t.inhrev.filter fun r => r.fst = k).map InhRow.snd) ↔
      (k = u64Max → t.inhrev = []) := by
  unfold Index.inherited_by
  rw [h.inhrev, h.hdr]
  exact inhRows_exact_iff t.inhrev_enumerates.1 k

theorem Index.Lays.members_iff (h : ix.Lays t.rows) (k : UInt64) :
    ix.members k = .ok ((t.childrev.filter fun r => r.fst = k).map InhRow.snd) ↔
      (k = u64Max → t.childrev = []) := by
  unfold Index.members
  rw [h.childrev, h.hdr]
  exact inhRows_exact_iff t.childrev_of.1 k

theorem Index.Lays.calls_from_iff (h : ix.Lays t.rows) (k : UInt64) :
    ix.calls_from k = .ok ((t.calls.filter fun r => r.fst = k).map fun r => (r.snd, r.role)) ↔
      (k = u64Max → t.calls = []) := by
  unfold Index.calls_from
  rw [h.calls, h.hdr]
  exact callRows_exact_iff t.calls_of.1 k

theorem Index.Lays.called_by_iff (h : ix.Lays t.rows) (k : UInt64) :
    ix.called_by k = .ok ((t.crev.filter fun r => r.fst = k).map fun r => (r.snd, r.role)) ↔
      (k = u64Max → t.crev = []) := by
  unfold Index.called_by
  rw [h.crev, h.hdr]
  exact callRows_exact_iff t.crev_enumerates.1 k

end

theorem mem_targets {l : List InhRow} {a b : UInt64} :
    b ∈ (l.filter fun r => r.fst = a).map InhRow.snd ↔ ⟨a, b⟩ ∈ l := by
  simp only [List.mem_map, List.mem_filter, decide_eq_true_eq]
  constructor
  · rintro ⟨r, ⟨hr, rfl⟩, rfl⟩; exact hr
  · intro h; exact ⟨_, ⟨h, rfl⟩, rfl⟩

theorem mem_callTargets {l : List CallRow} {a b : UInt64} {role : UInt8} :
    (b, role) ∈ (l.filter fun r => r.fst = a).map (fun r => (r.snd, r.role)) ↔ ⟨a, b, role⟩ ∈ l := by
  simp only [List.mem_map, List.mem_filter, decide_eq_true_eq, Prod.mk.injEq]
  constructor
  · rintro ⟨r, ⟨hr, rfl⟩, rfl, rfl⟩; exact hr
  · intro h; exact ⟨_, ⟨h, rfl⟩, rfl, rfl⟩

theorem targets_nodup {l : List InhRow} (h : l.Pairwise (· < ·)) (a : UInt64) :
    ((l.filter fun r => r.fst = a).map InhRow.snd).Nodup := by
  refine List.Nodup.map_on ?_ ((h.imp fun h => ne_of_lt h).filter _)
  simp only [List.mem_filter, decide_eq_true_eq]
  rintro ⟨_, _⟩ ⟨-, rfl⟩ ⟨_, _⟩ ⟨-, h1⟩ h2
  simp only at h1 h2
  rw [h1, h2]

theorem callTargets_nodup {l : List CallRow} (h : l.Pairwise (· < ·)) (a : UInt64) :
    ((l.filter fun r => r.fst = a).map fun r => (r.snd, r.role)).Nodup := by
  refine List.Nodup.map_on ?_ ((h.imp fun h => ne_of_lt h).filter _)
  simp only [List.mem_filter, decide_eq_true_eq]
  rintro ⟨_, _, _⟩ ⟨-, rfl⟩ ⟨_, _, _⟩ ⟨-, h1⟩ h2
  simp only [Prod.mk.injEq] at h1 h2
  rw [h1, h2.1, h2.2]

theorem sortDedup_eq_nil_iff {α : Type} [LinearOrder α] (l : List α) : sortDedup l = [] ↔ l = [] := by
  simp only [List.eq_nil_iff_forall_not_mem, mem_sortDedup]

namespace IndexBuilder

variable (b : IndexBuilder)

theorem tables_inhrev : b.tables.inhrev = sortDedup (b.inherits.map fun r => InhRow.mk r.snd r.fst) := by
  refine b.tables.inhrev_enumerates.eq ⟨sortDedup_pairwise _, fun r => ?_⟩
  rw [mem_sortDedup, List.mem_map]
  constructor
  · rintro ⟨q, hq, rfl⟩; exact hq
  · intro h; exact ⟨_, h, rfl⟩

theorem tables_crev : b.tables.crev = sortDedup (b.calls.map fun r => CallRow.mk r.snd r.fst r.role) := by
  refine b.tables.crev_enumerates.eq ⟨sortDedup_pairwise _, fun r => ?_⟩
  rw [mem_sortDedup, List.mem_map]
  constructor
  · rintro ⟨q, hq, rfl⟩; exact hq
  · intro h; exact ⟨_, h, rfl⟩

end IndexBuilder

/-- What each query should answer on a builder, and when it does. -/
theorem range_queries_exact_iff {b : IndexBuilder} {f : Bytes} (hf : b.finish = .ok f) :
    ∃ ix, open_index f = .ok ix ∧ ∀ sym : UInt64,
      (∀ lo hi, lo ≤ hi → (ix.xrefs sym lo hi = rowsOfRole (sortDedup b.xrefs) sym lo hi ↔
        (sym = u64Max → hi = 255 → ∀ r ∈ b.xrefs, r.sym = u64Max → r.role < lo))) ∧
      (ix.inherits_of sym = .ok (((sortDedup b.inherits).filter fun r => r.fst = sym).map InhRow.snd) ↔
        (sym = u64Max → b.inherits = [])) ∧
      (ix.inherited_by sym = .ok (((sortDedup (b.inherits.map fun r => InhRow.mk r.snd r.fst)).filter
          fun r => r.fst = sym).map InhRow.snd) ↔ (sym = u64Max → b.inherits = [])) ∧
      (ix.members sym = .ok (((sortDedup b.childof).filter fun r => r.fst = sym).map InhRow.snd) ↔
        (sym = u64Max → b.childof = [])) ∧
      (ix.calls_from sym = .ok (((sortDedup b.calls).filter fun r => r.fst = sym).map
          fun r => (r.snd, r.role)) ↔ (sym = u64Max → b.calls = [])) ∧
      (ix.called_by sym = .ok (((sortDedup (b.calls.map fun r => CallRow.mk r.snd r.fst r.role)).filter
          fun r => r.fst = sym).map fun r => (r.snd, r.role)) ↔ (sym = u64Max → b.calls = [])) := by
  rw [b.finish_eq] at hf
  obtain ⟨-, ix, hopen, hix⟩ := b.tables.open_file hf
  refine ⟨ix, hopen, fun sym => ⟨fun lo hi hlohi => ?_, ?_, ?_, ?_, ?_, ?_⟩⟩
  · have h := xrefs_exact_iff (l := sortDedup b.xrefs) hix.xrefs (by rw [hix.hdr]; rfl)
      (sortDedup_pairwise b.xrefs) sym hlohi
    simp only [mem_sortDedup] at h
    exact h
  · exact (hix.inherits_of_iff sym).trans (by rw [← sortDedup_eq_nil_iff b.inherits]; rfl)
  · have h := hix.inherited_by_iff sym
    rw [b.tables_inhrev, sortDedup_eq_nil_iff, List.map_eq_nil_iff] at h
    exact h
  · exact (hix.members_iff sym).trans (by rw [← sortDedup_eq_nil_iff b.childof]; rfl)
  · exact (hix.calls_from_iff sym).trans (by rw [← sortDedup_eq_nil_iff b.calls]; rfl)
  · have h := hix.called_by_iff sym
    rw [b.tables_crev, sortDedup_eq_nil_iff, List.map_eq_nil_iff] at h
    exact h

/-! A query for a symbol that no row mentions, in a table with one row. -/

def oneEdge : IndexBuilder := IndexBuilder.new.add_inherit 5 1

theorem oneEdge_finish : oneEdge.finish = .ok oneEdge.finishRows.bytes :=
  (Rows.finishFile_eq _).trans (if_pos (by decide +kernel))

theorem range_queries_exact_iff_oneEdge :
    ∃ ix, open_index oneEdge.finishRows.bytes = .ok ix ∧
      (ix.inherits_of 5 = .ok (((sortDedup oneEdge.inherits).filter fun r => r.fst = 5).map InhRow.snd) ↔
        ((5 : UInt64) = u64Max → oneEdge.inherits = [])) := by
  obtain ⟨ix, hopen, h⟩ := range_queries_exact_iff oneEdge_finish
  exact ⟨ix, hopen, (h 5).2.1⟩

theorem inherits_of_max_panics :
    ∃ f ix, oneEdge.finish = .ok f ∧ open_index f = .ok ix ∧ ix.inherits_of u64Max = .error .panic ∧
      ((sortDedup oneEdge.inherits).filter fun r => r.fst = u64Max).map InhRow.snd = [] := by
  have hf := oneEdge_finish
  rw [oneEdge.finish_eq] at hf
  obtain ⟨-, ix, hopen, hix⟩ := oneEdge.tables.open_file hf
  refine ⟨_, ix, oneEdge_finish, hopen, ?_, by decide⟩
  have h := rowsOfKey_max inhRow_keyed InhRow.encode_length inhRow_zero InhRow.encode_lt_iff
    oneEdge.tables.inh_of.1 fun row => (InhRow.decode row).snd
  rw [if_pos ⟨⟨5, 1⟩, by decide, by decide⟩] at h
  unfold Index.inherits_of
  rw [hix.inh, hix.hdr]
  exact h

/-! ## Forward and reverse tables -/

/-- On every produced index the reverse tables hold the edges of the forward ones, each once. -/
theorem forward_reverse_dual [Unicode] {f : Bytes} (hf : Produced f) :
    ∃ ix, open_index f = .ok ix ∧ ∀ a b : UInt64, a < u64Max → b < u64Max →
      ∃ callees callers parents children,
        ix.calls_from a = .ok callees ∧ ix.called_by b = .ok callers ∧
        ix.inherits_of a = .ok parents ∧ ix.inherited_by b = .ok children ∧
        (∀ r, (b, r) ∈ callees ↔ (a, r) ∈ callers) ∧ (b ∈ parents ↔ a ∈ children) ∧
        callees.Nodup ∧ callers.Nodup ∧ parents.Nodup ∧ children.Nodup := by
  obtain ⟨F, -, t, ht⟩ := hf.renders
  obtain ⟨-, ix, hopen, hix⟩ := t.open_file ht
  refine ⟨ix, hopen, fun a b ha hb => ⟨_, _, _, _, (hix.calls_from_iff a).mpr fun e => absurd e ha.ne,
    (hix.called_by_iff b).mpr fun e => absurd e hb.ne,
    (hix.inherits_of_iff a).mpr fun e => absurd e ha.ne,
    (hix.inherited_by_iff b).mpr fun e => absurd e hb.ne, fun r => ?_, ?_, ?_, ?_, ?_, ?_⟩⟩
  · rw [mem_callTargets, mem_callTargets, t.calls_of.2, t.crev_enumerates.2]
    rfl
  · rw [mem_targets, mem_targets, t.inh_of.2, t.inhrev_enumerates.2]
    rfl
  · exact callTargets_nodup t.calls_of.1 a
  · exact callTargets_nodup t.crev_enumerates.1 b
  · exact targets_nodup t.inh_of.1 a
  · exact targets_nodup t.inhrev_enumerates.1 b

theorem forward_reverse_dual_oneEdge :
    ∃ ix, open_index oneEdge.finishRows.bytes = .ok ix ∧ ∃ parents children,
      ix.inherits_of 5 = .ok parents ∧ ix.inherited_by 1 = .ok children ∧
      ((1 : UInt64) ∈ parents ↔ (5 : UInt64) ∈ children) := by
  have : Unicode := asciiUnicode
  obtain ⟨ix, hopen, h⟩ := forward_reverse_dual (Produced.finish oneEdge_finish)
  obtain ⟨-, -, parents, children, -, -, hp, hc, -, hdual, -⟩ := h 5 1 (by decide) (by decide)
  exact ⟨ix, hopen, parents, children, hp, hc, hdual⟩

end Scry2
