import Scry2.FileIds
import Scry2.Lib.Groups
import Scry2.Lib.Pairs

/-!
# File ids are consistent

In the release build the counter of the ids wraps around. Whatever the allocator was seeded with, two
paths never share an id, a path keeps its id, and the rows handed to a builder are those of the
interned paths, exactly if the counter does not run into an id of the seed.
-/

open Scry2.Lib
open Std (ExtTreeMap)

namespace Scry2.FileIdAllocator

variable {a b : FileIdAllocator} {path : String} {id : UInt32}

/-! ## The two builds -/

theorem assign_eq_wrapping {accessed : Bool} (h : a.assign path accessed = some b) :
    a.wrapping_assign path accessed = b := by
  obtain ⟨rfl, hlt⟩ := assign_eq_some h
  rw [wrapping_assign, wrapping_succ, Nat.mod_eq_of_lt hlt]

/-- Where the build with overflow checks does not stop, the release build does the same. -/
theorem intern_eq_wrapping (h : a.intern path = some (id, b)) : a.wrapping_intern path = (id, b) := by
  unfold intern at h
  unfold wrapping_intern
  cases he : a.map[path]? with
  | some e =>
    simp only [he, Option.some.injEq] at h
    exact h
  | none =>
    simp only [he, Option.bind_eq_bind, Option.bind_eq_some_iff, Option.pure_def, Option.some.injEq,
      Prod.mk.injEq] at h
    obtain ⟨c, hc, rfl, rfl⟩ := h
    rw [assign_eq_wrapping hc]

theorem seed_paths_eq_wrapping {paths : List String} (h : a.seed_paths paths = some b) :
    a.wrapping_seed_paths paths = b := by
  induction paths generalizing a with
  | nil => exact Option.some.inj h
  | cons path paths ih =>
    unfold seed_paths at h
    rw [List.foldlM_cons] at h
    simp only [Option.bind_eq_bind, Option.bind_eq_some_iff] at h
    obtain ⟨c, hc, hrest⟩ := h
    have hstep : a.wrapping_seedPath path = c := by
      unfold seedPath at hc
      unfold wrapping_seedPath
      split at hc
      · exact Option.some.inj hc
      · exact assign_eq_wrapping hc
    rw [wrapping_seed_paths, List.foldl_cons, hstep]
    exact ih hrest

theorem seed_from_eq_wrapping {rows : List (UInt32 × String)} (h : a.seed_from rows = some b) :
    a.wrapping_seed_from rows = b := by
  induction rows generalizing a with
  | nil => exact Option.some.inj h
  | cons row rows ih =>
    unfold seed_from at h
    rw [List.foldlM_cons] at h
    simp only [Option.bind_eq_bind, Option.bind_eq_some_iff] at h
    obtain ⟨c, hc, hrest⟩ := h
    have hstep : a.wrapping_seedRow row = c := by
      simp only [seedRow, Option.bind_eq_bind, Option.bind_eq_some_iff, Option.pure_def, Option.some.injEq] at hc
      obtain ⟨next, hnext, rfl⟩ := hc
      unfold raise at hnext
      unfold wrapping_seedRow wrapping_raise
      split_ifs at hnext ⊢
      · obtain ⟨rfl, hlt⟩ := succ_eq_some hnext
        rw [wrapping_succ, Nat.mod_eq_of_lt hlt]
      · rw [Option.some.inj hnext]
    rw [wrapping_seed_from, List.foldl_cons, hstep]
    exact ih hrest

/-! ## One call -/

/-- The id that the counter `n` gives after `j` others. -/
def slot (n j : Nat) : UInt32 := UInt32.ofNat (n + j)

theorem slot_succ (n j : Nat) : slot (wrapping_succ n) j = slot n (j + 1) := by
  unfold slot wrapping_succ
  rw [← UInt32.toNat_inj, UInt32.toNat_ofNat', UInt32.toNat_ofNat']
  omega

theorem slot_inj {n i j : Nat} (hi : i < 2 ^ 32) (hj : j < 2 ^ 32) (h : slot n i = slot n j) : i = j := by
  unfold slot at h
  rw [← UInt32.toNat_inj, UInt32.toNat_ofNat', UInt32.toNat_ofNat'] at h
  omega

theorem wrapping_intern_cases (h : a.wrapping_intern path = (id, b)) :
    a.Interned path id b ∧ (a.id? path = some id ∧ b.next = a.next ∨
      a.id? path = none ∧ id = slot a.next 0 ∧ b.next = wrapping_succ a.next) := by
  unfold wrapping_intern at h
  cases he : a.map[path]? with
  | some e =>
    have hid : a.id? path = some e.1 := congrArg (Option.map _) he
    simp only [he, Prod.mk.injEq] at h
    obtain ⟨rfl, rfl⟩ := h
    exact ⟨⟨fun q => getElem?_insert_key _ _ _ _, .inl hid⟩, .inl ⟨hid, rfl⟩⟩
  | none =>
    have hid : a.id? path = none := congrArg (Option.map _) he
    simp only [he, Prod.mk.injEq] at h
    obtain ⟨rfl, rfl⟩ := h
    exact ⟨⟨fun q => getElem?_insert_key _ _ _ _, .inr ⟨hid, rfl⟩⟩, .inr ⟨hid, rfl, rfl⟩⟩

/-! ## A run of calls -/

/-- The calls of all workers in the order in which they take the lock, with what they return. -/
def internAll (a : FileIdAllocator) : List String → List UInt32 × FileIdAllocator
  | [] => ([], a)
  | path :: calls =>
    let (id, a) := a.wrapping_intern path
    let (ids, a) := a.internAll calls
    (id :: ids, a)

variable {calls : List String} {ids : List UInt32}

theorem internAll_cons (h : a.internAll (path :: calls) = (ids, b)) :
    ∃ id c rest, a.wrapping_intern path = (id, c) ∧ c.internAll calls = (rest, b) ∧ ids = id :: rest := by
  obtain ⟨rfl, rfl⟩ := Prod.mk.inj h
  exact ⟨_, _, _, rfl, rfl, rfl⟩

theorem internAll_keeps (hr : a.internAll calls = (ids, b)) {q : String} {i : UInt32}
    (hq : a.id? q = some i) : b.id? q = some i := by
  induction calls generalizing a ids with
  | nil =>
    cases hr
    exact hq
  | cons path calls ih =>
    obtain ⟨id, c, rest, hi, hrest, rfl⟩ := internAll_cons hr
    exact ih hrest ((wrapping_intern_cases hi).1.keeps hq)

theorem internAll_marked (hr : a.internAll calls = (ids, b)) (q : String) :
    b.Marked q ↔ q ∈ calls ∨ a.Marked q := by
  induction calls generalizing a ids with
  | nil =>
    cases hr
    simp
  | cons path calls ih =>
    obtain ⟨id, c, rest, hi, hrest, rfl⟩ := internAll_cons hr
    rw [ih hrest, (wrapping_intern_cases hi).1.marked, List.mem_cons]
    tauto

theorem internAll_answers (hr : a.internAll calls = (ids, b)) :
    List.Forall₂ (fun p i => b.id? p = some i) calls ids := by
  induction calls generalizing a ids with
  | nil =>
    cases hr
    exact .nil
  | cons path calls ih =>
    obtain ⟨id, c, rest, hi, hrest, rfl⟩ := internAll_cons hr
    have hid : c.id? path = some id := by rw [(wrapping_intern_cases hi).1.id?, if_pos rfl]
    exact .cons (internAll_keeps hrest hid) (ih hrest)

theorem internAll_other (hr : a.internAll calls = (ids, b)) {q : String} (hq : q ∉ calls) :
    b.id? q = a.id? q := by
  induction calls generalizing a ids with
  | nil =>
    cases hr
    rfl
  | cons path calls ih =>
    obtain ⟨id, c, rest, hi, hrest, rfl⟩ := internAll_cons hr
    rw [List.mem_cons, not_or] at hq
    rw [ih hrest hq.2, (wrapping_intern_cases hi).1.id?, if_neg (Ne.symm hq.1)]

theorem internAll_append {xs ys : List String} (hr : a.internAll (xs ++ ys) = (ids, b)) :
    ∃ before c after, a.internAll xs = (before, c) ∧ c.internAll ys = (after, b) ∧ ids = before ++ after := by
  induction xs generalizing a ids with
  | nil => exact ⟨[], a, ids, rfl, hr, rfl⟩
  | cons x xs ih =>
    obtain ⟨i, c, rest, hi, hrest, rfl⟩ := internAll_cons hr
    obtain ⟨before, d, after, hbefore, hafter, rfl⟩ := ih hrest
    refine ⟨i :: before, d, after, ?_, hafter, rfl⟩
    simp [internAll, hi, hbefore]

/-- The paths of a run that have no id yet. -/
def newPaths (a : FileIdAllocator) (calls : List String) : Finset String :=
  calls.toFinset.filter fun p => a.id? p = none

theorem newPaths_old (hold : a.id? path ≠ none) (hid : ∀ q, b.id? q = a.id? q) :
    a.newPaths (path :: calls) = b.newPaths calls := by
  ext q
  simp only [newPaths, Finset.mem_filter, List.mem_toFinset, List.mem_cons, hid]
  constructor
  · rintro ⟨rfl | hq, hnone⟩
    · exact absurd hnone hold
    · exact ⟨hq, hnone⟩
  · rintro ⟨hq, hnone⟩
    exact ⟨.inr hq, hnone⟩

theorem newPaths_new (calls : List String) (hnew : a.id? path = none)
    (hid : ∀ q, b.id? q = if path = q then some id else a.id? q) :
    a.newPaths (path :: calls) = insert path (b.newPaths calls) ∧ path ∉ b.newPaths calls := by
  constructor
  · ext q
    simp only [newPaths, Finset.mem_filter, List.mem_toFinset, List.mem_cons, Finset.mem_insert, hid]
    by_cases hq : path = q
    · subst hq
      simp [hnew]
    · simp [hq, Ne.symm hq]
  · simp [newPaths, hid]

theorem Interned.same (h : a.Interned path id b) (hold : a.id? path = some id) (q : String) :
    b.id? q = a.id? q := by
  rw [h.id?]
  split
  · rename_i hq
    rw [← hq, hold]
  · rfl

/-- The new paths of a run get the ids that follow from the counter on. -/
theorem internAll_slots (hr : a.internAll calls = (ids, b)) (j : Nat) (hj : j < (a.newPaths calls).card) :
    ∃ p ∈ calls, a.id? p = none ∧ b.id? p = some (slot a.next j) := by
  induction calls generalizing a ids j with
  | nil => simp [newPaths] at hj
  | cons path calls ih =>
    obtain ⟨id, c, rest, hi, hrest, rfl⟩ := internAll_cons hr
    obtain ⟨hint, ⟨hold, hnext⟩ | ⟨hnew, rfl, hnext⟩⟩ := wrapping_intern_cases hi
    · rw [newPaths_old (hold ▸ Option.some_ne_none id) (hint.same hold)] at hj
      obtain ⟨p, hp, hnone, hid⟩ := ih hrest j hj
      exact ⟨p, List.mem_cons_of_mem _ hp, hint.same hold p ▸ hnone, hnext ▸ hid⟩
    · cases j with
      | zero => exact ⟨path, List.mem_cons_self, hnew, internAll_keeps hrest (by rw [hint.id?, if_pos rfl])⟩
      | succ j =>
        obtain ⟨heq, hnot⟩ := newPaths_new calls hnew hint.id?
        rw [heq, Finset.card_insert_of_notMem hnot] at hj
        obtain ⟨p, hp, hnone, hid⟩ := ih hrest j (by omega)
        rw [hint.id?] at hnone
        split at hnone
        · cases hnone
        · exact ⟨p, List.mem_cons_of_mem _ hp, hnone, by rw [hid, hnext, slot_succ]⟩

/-- The next `m` ids of the counter are not in use. -/
def Ahead (a : FileIdAllocator) (m : Nat) : Prop := ∀ p i, a.id? p = some i → ∀ j < m, i ≠ slot a.next j

theorem internAll_injective (hinj : a.Injective) (hahead : a.Ahead (a.newPaths calls).card)
    (hfew : (a.newPaths calls).card < 2 ^ 32) (hr : a.internAll calls = (ids, b)) : b.Injective := by
  induction calls generalizing a ids with
  | nil =>
    cases hr
    exact hinj
  | cons path calls ih =>
    obtain ⟨id, c, rest, hi, hrest, rfl⟩ := internAll_cons hr
    obtain ⟨hint, ⟨hold, hnext⟩ | ⟨hnew, rfl, hnext⟩⟩ := wrapping_intern_cases hi
    · have hsame := hint.same hold
      rw [newPaths_old (hold ▸ Option.some_ne_none id) hsame] at hahead hfew
      refine ih (fun p q i hp hq => hinj p q i (hsame p ▸ hp) (hsame q ▸ hq)) (fun p i hp j hj => ?_) hfew hrest
      rw [hnext]
      exact hahead p i (hsame p ▸ hp) j hj
    · obtain ⟨heq, hnot⟩ := newPaths_new calls hnew hint.id?
      rw [heq, Finset.card_insert_of_notMem hnot] at hahead hfew
      have hfree : ∀ q, a.id? q ≠ some (slot a.next 0) := fun q hq => hahead q _ hq 0 (by omega) rfl
      refine ih (fun p q i hp hq => ?_) (fun p i hp j hj => ?_) (by omega) hrest
      · rw [hint.id?] at hp hq
        split at hp <;> split at hq
        · rename_i h1 h2
          exact h1.symm.trans h2
        · cases hp
          exact absurd hq (hfree q)
        · cases hq
          exact absurd hp (hfree p)
        · exact hinj p q i hp hq
      · rw [hnext, slot_succ]
        rw [hint.id?] at hp
        split at hp
        · rintro rfl
          have hzero := slot_inj (by omega) (by omega) (Option.some.inj hp)
          omega
        · exact hahead p i hp (j + 1) (by omega)

/-! ## The rows handed to a builder -/

/-- The rows that walking the table in some order emits: only interned paths. -/
def emitted (order : List (String × UInt32 × Bool)) : List (UInt32 × String) :=
  order.filterMap fun e => if e.2.2 then some (e.2.1, e.1) else none

/-- `push_to` over a hash map that is walked in the given order. -/
def pushOrder (order : List (String × UInt32 × Bool)) (builder : IndexBuilder) : IndexBuilder :=
  order.foldl (fun b e => if e.2.2 then b.upsert_file e.2.1 e.1 else b) builder

theorem push_to_eq (a : FileIdAllocator) (builder : IndexBuilder) :
    a.push_to builder = pushOrder a.map.toList builder :=
  ExtTreeMap.foldl_eq_foldl_toList

theorem pushOrder_eq (order : List (String × UInt32 × Bool)) (builder : IndexBuilder) :
    pushOrder order builder = { builder with files := (pushOrder order builder).files } := by
  induction order generalizing builder with
  | nil => rfl
  | cons e order ih =>
    rw [pushOrder, List.foldl_cons, ← pushOrder, ih]
    split <;> rfl

theorem pushOrder_files (order : List (String × UInt32 × Bool)) (builder : IndexBuilder) (k : UInt32) :
    (pushOrder order builder).files[k]? = builder.files[k]?.or ((emitted order).lookup k) := by
  induction order generalizing builder with
  | nil => simp [pushOrder, emitted]
  | cons e order ih =>
    rw [pushOrder, List.foldl_cons, ← pushOrder, ih]
    cases he : e.2.2 with
    | false => simp [emitted, he]
    | true =>
      have hcons : emitted (e :: order) = (e.2.1, e.1) :: emitted order := by simp [emitted, he]
      rw [hcons, lookup_cons_eq, if_pos rfl, upsert_file_files, Option.or_assoc]
      by_cases hk : e.2.1 = k <;> simp [hk]

theorem mem_emitted {order : List (String × UInt32 × Bool)} {id : UInt32} {p : String} :
    (id, p) ∈ emitted order ↔ (p, id, true) ∈ order := by
  simp only [emitted, List.mem_filterMap]
  constructor
  · rintro ⟨⟨q, i, marked⟩, he, h⟩
    cases marked with
    | false => simp at h
    | true =>
      obtain ⟨rfl, rfl⟩ := by simpa using h
      exact he
  · intro h
    exact ⟨_, h, rfl⟩

section Walk
variable {order : List (String × UInt32 × Bool)} (ho : order.Perm a.map.toList)
include ho

theorem mem_order (p : String) (e : UInt32 × Bool) : (p, e) ∈ order ↔ a.map[p]? = some e := by
  rw [ho.mem_iff, ExtTreeMap.mem_toList_iff_getElem?_eq_some]

theorem order_pairwise : order.Pairwise fun e f => e.1 ≠ f.1 := by
  have hlist : a.map.toList.Pairwise fun e f => e.1 ≠ f.1 :=
    (tabulates_toList a.map).1.imp fun h => ne_of_lt h
  exact (ho.pairwise_iff (fun h => h.symm)).mpr hlist

theorem mem_emitted_iff (id : UInt32) (p : String) :
    (id, p) ∈ emitted order ↔ a.Marked p ∧ a.id? p = some id := by
  rw [mem_emitted, mem_order ho]
  constructor
  · intro h
    exact ⟨⟨id, h⟩, by rw [id?, h]; rfl⟩
  · rintro ⟨⟨i, hi⟩, hid⟩
    rw [id?, hi] at hid
    cases hid
    exact hi

theorem emitted_paths_nodup : ((emitted order).map (·.2)).Nodup := by
  have hp := order_pairwise ho
  unfold List.Nodup
  rw [List.pairwise_map, emitted, List.pairwise_filterMap]
  refine hp.imp fun {e f} hne x hx y hy => ?_
  split at hx <;> split at hy
  · cases hx
    cases hy
    exact hne
  · cases hy
  · cases hx
  · cases hx

theorem emitted_ids_pairwise (h : a.Injective) : (emitted order).Pairwise fun r t => r.1 ≠ t.1 := by
  have hnodup := emitted_paths_nodup ho
  unfold List.Nodup at hnodup
  rw [List.pairwise_map] at hnodup
  refine hnodup.imp_of_mem fun {r t} hr ht hne hid => hne ?_
  have h1 := ((mem_emitted_iff ho r.1 r.2).mp hr).2
  have h2 := ((mem_emitted_iff ho t.1 t.2).mp ht).2
  exact h _ _ r.1 h1 (hid ▸ h2)

end Walk

/-! ## How an allocator starts -/

/-- What an allocator is seeded with before the first call. -/
inductive Seed where
  | fresh
  | paths (sorted_paths : List String)
  /-- The files tables of the indexes that a resumed run continues. -/
  | indexes (ixs : List (List (UInt32 × String)))

namespace Seed

def start : Seed → FileIdAllocator
  | fresh => {}
  | paths ps => wrapping_seed_paths {} ps
  | indexes ixs => ixs.foldl wrapping_seed_from {}

/-- The seed gives the path the id: its rank in the list, or that of its row. -/
def Gives : Seed → String → UInt32 → Prop
  | fresh, _, _ => False
  | paths ps, p, id => p ∈ ps ∧ id = UInt32.ofNat (ps.eraseDups.idxOf p)
  | indexes ixs, p, id => ∃ rows ∈ ixs, (id, p) ∈ rows

def known : Seed → List String
  | fresh => []
  | paths ps => ps
  | indexes ixs => ixs.flatten.map (·.2)

/-- The rows of the indexes agree on one injective table. -/
def Agree : Seed → Prop
  | indexes ixs => ∃ T : String → Option UInt32, (∀ p q id, T p = some id → T q = some id → p = q) ∧
      ∀ rows ∈ ixs, ∀ row ∈ rows, T row.2 = some row.1
  | _ => True

/-- One past the largest id since the last one at which the counter wraps around. -/
def past : List UInt32 → Nat
  | [] => 0
  | id :: earlier => if id.toNat + 1 = 2 ^ 32 then 0 else max (id.toNat + 1) (past earlier)

/-- The new paths of the calls. -/
def news (seed : Seed) (calls : List String) : Finset String := calls.toFinset \ seed.known.toFinset

/-- Counted from the rows of the indexes on, with wrap-around, the ids for the new paths are not among
those of the rows. -/
def Clear (seed : Seed) (calls : List String) : Prop :=
  match seed with
  | indexes ixs => ∀ row ∈ ixs.flatten, ∀ j < (seed.news calls).card,
      row.1 ≠ slot (past (ixs.flatten.map (·.1)).reverse) j
  | _ => True

instance (seed : Seed) (calls : List String) : Decidable (seed.Clear calls) :=
  match seed with
  | fresh => .isTrue trivial
  | paths _ => .isTrue trivial
  | indexes ixs => inferInstanceAs (Decidable (∀ row ∈ ixs.flatten, ∀ j < _, row.1 ≠ _))

/-! ## What the seed leaves -/

theorem mem_known (seed : Seed) (p : String) : p ∈ seed.known ↔ ∃ id, seed.Gives p id := by
  cases seed with
  | fresh => simp [known, Gives]
  | paths ps => simp [known, Gives]
  | indexes ixs =>
    simp only [known, Gives, List.mem_map, List.mem_flatten]
    constructor
    · rintro ⟨row, ⟨rows, hrows, hrow⟩, rfl⟩
      exact ⟨row.1, rows, hrows, hrow⟩
    · rintro ⟨id, rows, hrows, hrow⟩
      exact ⟨(id, p), ⟨rows, hrows, hrow⟩, rfl⟩

theorem start_paths (ps : List String) :
    (∀ p, (paths ps).start.map[p]? = if p ∈ ps then some (UInt32.ofNat (ps.eraseDups.idxOf p), false) else none) ∧
      (paths ps).start.next = ps.eraseDups.length % 2 ^ 32 := by
  induction ps using List.reverseRecOn with
  | nil => exact ⟨fun p => ExtTreeMap.getElem?_empty, rfl⟩
  | append_singleton ps q ih =>
    obtain ⟨hget, hnext⟩ := ih
    have hstart : (paths (ps ++ [q])).start = (paths ps).start.wrapping_seedPath q := by
      simp only [start, wrapping_seed_paths, List.foldl_append, List.foldl_cons, List.foldl_nil]
    rw [hstart, eraseDups_concat]
    unfold wrapping_seedPath
    by_cases hq : q ∈ ps
    · rw [if_pos hq, hget q, if_pos hq]
      refine ⟨fun p => ?_, hnext⟩
      simp only [hget p, List.mem_append, List.mem_singleton]
      by_cases hp : p ∈ ps
      · rw [if_pos hp, if_pos (.inl hp)]
      · rw [if_neg hp, if_neg]
        rintro (hp' | rfl)
        · exact hp hp'
        · exact hp hq
    · rw [if_neg hq, hget q, if_neg hq]
      have hnot : q ∉ ps.eraseDups := fun h => hq (List.mem_eraseDups.mp h)
      refine ⟨fun p => ?_, ?_⟩
      · simp only [wrapping_assign, getElem?_insert_key, hget p, hnext, List.mem_append, List.mem_singleton]
        by_cases hqp : q = p
        · subst hqp
          rw [if_pos rfl, if_pos (.inr rfl), List.idxOf_append_of_notMem hnot, List.idxOf_cons_self, Nat.add_zero]
          exact congrArg (fun i => some (i, false)) UInt32.ofNat_mod_size
        · rw [if_neg hqp]
          by_cases hp : p ∈ ps
          · rw [if_pos hp, if_pos (.inl hp), List.idxOf_append_of_mem (List.mem_eraseDups.mpr hp)]
          · rw [if_neg hp, if_neg]
            rintro (hp' | rfl)
            · exact hp hp'
            · exact hqp rfl
      · rw [wrapping_assign, wrapping_succ, hnext, List.length_append, List.length_singleton, Nat.mod_add_mod]

theorem past_lt (ids : List UInt32) : past ids < 2 ^ 32 := by
  induction ids with
  | nil => decide
  | cons id ids ih =>
    have hid := id.toNat_lt
    rw [past]
    split <;> omega

theorem wrapping_raise_past (ids : List UInt32) (id : UInt32) :
    wrapping_raise (past ids) id.toNat = past (id :: ids) := by
  have hid := id.toNat_lt
  have hlt := past_lt ids
  rw [wrapping_raise, wrapping_succ, past]
  split_ifs <;> omega

theorem start_rows (rows : List (UInt32 × String)) :
    (∀ p, (rows.foldl wrapping_seedRow {}).map[p]? =
      (rows.find? fun row => row.2 = p).map fun row => (row.1, false)) ∧
      (rows.foldl wrapping_seedRow {}).next = past (rows.map (·.1)).reverse := by
  induction rows using List.reverseRecOn with
  | nil => exact ⟨fun p => ExtTreeMap.getElem?_empty, rfl⟩
  | append_singleton rows row ih =>
    obtain ⟨hget, hnext⟩ := ih
    rw [List.foldl_append, List.foldl_cons, List.foldl_nil]
    refine ⟨fun p => ?_, ?_⟩
    · rw [wrapping_seedRow, getElem?_alter_key, hget, hget, List.find?_append]
      by_cases hp : row.2 = p
      · subst hp
        cases rows.find? (fun r => r.2 = row.2) <;> simp
      · cases rows.find? (fun r => r.2 = p) <;> simp [hp]
    · rw [wrapping_seedRow, hnext, wrapping_raise_past, List.map_append, List.reverse_append]
      rfl

theorem start_indexes (ixs : List (List (UInt32 × String))) :
    (indexes ixs).start = ixs.flatten.foldl wrapping_seedRow {} := by
  rw [List.foldl_flatten]
  rfl

/-- The ids are those that the seed gives, and none is marked. -/
theorem start_id? {seed : Seed} (hagree : seed.Agree) (p : String) (id : UInt32) :
    seed.start.id? p = some id ↔ seed.Gives p id := by
  cases seed with
  | fresh => simp [start, Gives, FileIdAllocator.id?]
  | paths ps =>
    rw [FileIdAllocator.id?, (start_paths ps).1]
    split_ifs with hp
    · simp [Gives, hp, eq_comm]
    · simp [Gives, hp]
  | indexes ixs =>
    obtain ⟨T, -, hT⟩ := hagree
    rw [FileIdAllocator.id?, start_indexes, (start_rows _).1]
    constructor
    · intro h
      obtain ⟨e, he, rfl⟩ := Option.map_eq_some_iff.mp h
      obtain ⟨row, hrow, rfl⟩ := Option.map_eq_some_iff.mp he
      obtain ⟨rows, hrows, hmem⟩ := List.mem_flatten.mp (List.mem_of_find?_eq_some hrow)
      have hpath : row.2 = p := by simpa using List.find?_some hrow
      exact ⟨rows, hrows, hpath ▸ hmem⟩
    · rintro ⟨rows, hrows, hmem⟩
      cases hfind : ixs.flatten.find? (fun row => row.2 = p) with
      | none =>
        have := List.find?_eq_none.mp hfind (id, p) (List.mem_flatten.mpr ⟨rows, hrows, hmem⟩)
        simp at this
      | some row =>
        obtain ⟨rows', hrows', hmem'⟩ := List.mem_flatten.mp (List.mem_of_find?_eq_some hfind)
        have hpath : row.2 = p := by simpa using List.find?_some hfind
        have h1 := hT rows hrows _ hmem
        have h2 := hT rows' hrows' _ hmem'
        rw [hpath] at h2
        exact h2.symm.trans h1

theorem start_unmarked (seed : Seed) (p : String) : ¬ seed.start.Marked p := by
  rintro ⟨id, h⟩
  cases seed with
  | fresh => simp [start] at h
  | paths ps =>
    rw [(start_paths ps).1] at h
    split_ifs at h
    cases h
  | indexes ixs =>
    rw [start_indexes, (start_rows _).1] at h
    obtain ⟨row, -, hrow⟩ := Option.map_eq_some_iff.mp h
    cases hrow

theorem start_newPaths {seed : Seed} (hagree : seed.Agree) (calls : List String) :
    seed.start.newPaths calls = seed.news calls := by
  ext p
  simp only [newPaths, news, Finset.mem_filter, Finset.mem_sdiff, List.mem_toFinset, mem_known]
  refine and_congr_right fun _ => ⟨?_, fun h => ?_⟩
  · rintro hnone ⟨id, hid⟩
    rw [(start_id? hagree p id).mpr hid] at hnone
    cases hnone
  · cases hid : seed.start.id? p with
    | none => rfl
    | some id => exact absurd ⟨id, (start_id? hagree p id).mp hid⟩ h

theorem card_known_add_news (seed : Seed) (calls : List String) :
    seed.known.toFinset.card + (seed.news calls).card = (seed.known ++ calls).toFinset.card := by
  rw [news, List.toFinset_append, Finset.union_comm, ← Finset.card_sdiff_add_card, Nat.add_comm]

theorem rank_lt {ps : List String} {p : String} (hp : p ∈ ps) : ps.eraseDups.idxOf p < ps.toFinset.card := by
  have hcard : ps.toFinset = ps.eraseDups.toFinset := by
    ext q
    simp only [List.mem_toFinset, List.mem_eraseDups]
  rw [hcard, List.toFinset_card_of_nodup (eraseDups_nodup ps)]
  exact List.idxOf_lt_length_iff.mpr (List.mem_eraseDups.mpr hp)

theorem start_injective {seed : Seed} (hagree : seed.Agree) (hfew : seed.known.toFinset.card < 2 ^ 32) :
    seed.start.Injective := by
  intro p q id hp hq
  rw [start_id? hagree] at hp hq
  cases seed with
  | fresh => exact hp.elim
  | paths ps =>
    obtain ⟨hp, rfl⟩ := hp
    obtain ⟨hq, hrank⟩ := hq
    have hplt := rank_lt hp
    have hqlt := rank_lt hq
    have hsame : ps.eraseDups.idxOf p = ps.eraseDups.idxOf q := by
      rwa [← UInt32.toNat_inj, UInt32.toNat_ofNat_of_lt' (hplt.trans hfew),
        UInt32.toNat_ofNat_of_lt' (hqlt.trans hfew)] at hrank
    exact List.idxOf_inj (List.mem_eraseDups.mpr hp) |>.mp hsame
  | indexes ixs =>
    obtain ⟨T, hinj, hT⟩ := hagree
    obtain ⟨rows, hrows, hp⟩ := hp
    obtain ⟨rows', hrows', hq⟩ := hq
    exact hinj p q id (hT rows hrows _ hp) (hT rows' hrows' _ hq)

/-- The counter runs into no id exactly if the seed is clear of the new paths. -/
theorem start_ahead_iff {seed : Seed} (hagree : seed.Agree) {calls : List String}
    (hfew : (seed.known ++ calls).toFinset.card < 2 ^ 32) :
    seed.start.Ahead (seed.news calls).card ↔ seed.Clear calls := by
  have hcard := seed.card_known_add_news calls
  cases seed with
  | fresh =>
    refine iff_of_true (fun p id hp => ?_) trivial
    exact ((start_id? hagree p id).mp hp).elim
  | paths ps =>
    refine iff_of_true (fun p id hp j hj => ?_) trivial
    obtain ⟨hmem, rfl⟩ := (start_id? hagree p id).mp hp
    have hlt := rank_lt hmem
    have hlen : ps.eraseDups.length = ps.toFinset.card := by
      rw [← List.toFinset_card_of_nodup (eraseDups_nodup ps)]
      congr 1
      ext q
      simp only [List.mem_toFinset, List.mem_eraseDups]
    simp only [known] at hcard hfew
    rw [(start_paths ps).2, hlen, Nat.mod_eq_of_lt (by omega), slot, ne_eq, ← UInt32.toNat_inj,
      UInt32.toNat_ofNat_of_lt' (show _ < 2 ^ 32 by omega), UInt32.toNat_ofNat_of_lt' (show _ < 2 ^ 32 by omega)]
    omega
  | indexes ixs =>
    have hnext : (indexes ixs).start.next = past (ixs.flatten.map (·.1)).reverse := by
      rw [start_indexes, (start_rows _).2]
    unfold Ahead Clear
    rw [hnext]
    constructor
    · intro h row hrow
      obtain ⟨rows, hrows, hmem⟩ := List.mem_flatten.mp hrow
      exact h row.2 row.1 ((start_id? hagree _ _).mpr ⟨rows, hrows, hmem⟩)
    · intro h p id hp
      obtain ⟨rows, hrows, hmem⟩ := (start_id? hagree p id).mp hp
      exact h (id, p) (List.mem_flatten.mpr ⟨rows, hrows, hmem⟩)

end Seed

/-! ## The whole run -/

/-- What holds when the calls have returned `ids` and left the allocator `b`. -/
structure ConsistentRun (seed : Seed) (calls : List String) (ids : List UInt32) (b : FileIdAllocator) : Prop where
  injective : b.Injective
  /-- Each answer is the id of its path for good. -/
  answers : List.Forall₂ (fun p id => b.id? p = some id) calls ids
  /-- A seeded path has the id of its rank or row, and no other path has an id without a call. -/
  seeded : ∀ p, p ∈ seed.known ∨ p ∉ calls → ∀ id, b.id? p = some id ↔ seed.Gives p id
  /-- An id that was given at some point of the run stays. -/
  stays : ∀ xs ys, calls = xs ++ ys → ∀ q id, (seed.start.internAll xs).2.id? q = some id → b.id? q = some id
  /-- The first call with a path that was not seeded returns an id that no seeded path and no earlier
  call has. -/
  fresh : ∀ xs path ys, calls = xs ++ path :: ys → path ∉ xs → path ∉ seed.known →
    ∃ before id after, ids = before ++ id :: after ∧ before.length = xs.length ∧
      (∀ p i, seed.Gives p i → i ≠ id) ∧ id ∉ before
  /-- In whatever order the table is walked, there is one row for each interned path. -/
  rows : ∀ order, order.Perm b.map.toList →
    (∀ p, ((emitted order).map (·.2)).count p = if p ∈ calls then 1 else 0) ∧
    (∀ row ∈ emitted order, b.id? row.2 = some row.1) ∧
    ∀ builder, pushOrder order builder = { builder with files := (pushOrder order builder).files } ∧
      ∀ id p, (pushOrder order builder).files[id]? = some p ↔
        builder.files[id]? = some p ∨ builder.files[id]? = none ∧ (id, p) ∈ emitted order
  pushed : ∀ builder, b.push_to builder = pushOrder b.map.toList builder ∧
    b.drain_into builder = pushOrder b.map.toList builder
  /-- With every path seeded the answers are the seeded ids, whatever the order of the calls. -/
  order_free : (∀ p ∈ calls, p ∈ seed.known) → List.Forall₂ seed.Gives calls ids

namespace Seed

variable {seed : Seed} {calls : List String} {ids : List UInt32} {b : FileIdAllocator}

theorem run_rows (hr : seed.start.internAll calls = (ids, b)) {order : List (String × UInt32 × Bool)}
    (ho : order.Perm b.map.toList) (p : String) :
    ((emitted order).map (·.2)).count p = if p ∈ calls then 1 else 0 := by
  have hmarked : b.Marked p ↔ p ∈ calls := by
    rw [internAll_marked hr, or_iff_left (seed.start_unmarked p)]
  have hmem : p ∈ (emitted order).map (·.2) ↔ p ∈ calls := by
    rw [← hmarked, List.mem_map]
    constructor
    · rintro ⟨row, hrow, rfl⟩
      exact ((mem_emitted_iff ho row.1 row.2).mp hrow).1
    · rintro ⟨i, hi⟩
      exact ⟨(i, p), mem_emitted.mpr ((mem_order ho p _).mpr hi), rfl⟩
  rw [(emitted_paths_nodup ho).count]
  simp only [hmem]

theorem run_seeded (hagree : seed.Agree) (hr : seed.start.internAll calls = (ids, b)) {p : String}
    (hp : p ∈ seed.known ∨ p ∉ calls) (id : UInt32) : b.id? p = some id ↔ seed.Gives p id := by
  rw [← start_id? hagree]
  by_cases hcall : p ∈ calls
  · obtain ⟨i, hi⟩ := (mem_known seed p).mp (hp.resolve_right (not_not_intro hcall))
    have hstart := (start_id? hagree p i).mpr hi
    rw [internAll_keeps hr hstart, hstart]
  · rw [internAll_other hr hcall]

theorem run_fresh (hagree : seed.Agree) (hinj : b.Injective) (hr : seed.start.internAll calls = (ids, b))
    (xs : List String) (path : String) (ys : List String) (hcalls : calls = xs ++ path :: ys) (hxs : path ∉ xs)
    (hknown : path ∉ seed.known) : ∃ before id after, ids = before ++ id :: after ∧ before.length = xs.length ∧
      (∀ p i, seed.Gives p i → i ≠ id) ∧ id ∉ before := by
  subst hcalls
  obtain ⟨before, c, after, hbefore, hafter, rfl⟩ := internAll_append hr
  obtain ⟨id, d, rest, hi, hrest, rfl⟩ := internAll_cons hafter
  have hid : b.id? path = some id :=
    internAll_keeps hrest (by rw [(wrapping_intern_cases hi).1.id?, if_pos rfl])
  have hanswers := internAll_answers hbefore
  refine ⟨before, id, rest, rfl, hanswers.length_eq.symm, ?_, fun hmem => ?_⟩
  · rintro p i hgives rfl
    have hp := (mem_known seed p).mpr ⟨i, hgives⟩
    rw [hinj p path i ((run_seeded hagree hr (.inl hp) i).mpr hgives) hid] at hp
    exact hknown hp
  · obtain ⟨hlen, hget⟩ := List.forall₂_iff_get.mp hanswers
    obtain ⟨n, hn, rfl⟩ := List.getElem_of_mem hmem
    have hn' : n < xs.length := hlen ▸ hn
    have hpath := hinj _ path _ (internAll_keeps hafter (hget n hn' hn)) hid
    exact hxs (hpath ▸ List.getElem_mem hn')

theorem consistentRun (hagree : seed.Agree) (hinj : b.Injective) (hr : seed.start.internAll calls = (ids, b)) :
    ConsistentRun seed calls ids b where
  injective := hinj
  answers := internAll_answers hr
  seeded _ hp id := run_seeded hagree hr hp id
  stays := by
    rintro xs ys rfl q id hq
    obtain ⟨before, c, after, hbefore, hafter, -⟩ := internAll_append hr
    rw [hbefore] at hq
    exact internAll_keeps hafter hq
  fresh := run_fresh hagree hinj hr
  rows order ho := by
    refine ⟨run_rows hr ho, fun row hrow => ((mem_emitted_iff ho row.1 row.2).mp hrow).2, fun builder => ?_⟩
    refine ⟨pushOrder_eq order builder, fun id p => ?_⟩
    have hlookup := lookup_eq_some_iff (emitted_ids_pairwise ho hinj) id p
    rw [pushOrder_files, ← hlookup]
    cases builder.files[id]? <;> simp
  pushed builder := ⟨b.push_to_eq builder, b.push_to_eq builder⟩
  order_free hall := by
    refine forall₂_imp_of_mem (internAll_answers hr) fun p hp id _ hid => ?_
    exact (run_seeded hagree hr (.inl (hall p hp)) id).mp hid

end Seed

/-- Fewer than `2^32` ids are consistent exactly if those of the new paths, counted on from the seed,
are clear of it. -/
theorem file_ids_consistent_iff (seed : Seed) (hagree : seed.Agree) (calls : List String)
    (hfew : (seed.known ++ calls).toFinset.card < 2 ^ 32) :
    ConsistentRun seed calls (seed.start.internAll calls).1 (seed.start.internAll calls).2 ↔ seed.Clear calls := by
  have hcard := seed.card_known_add_news calls
  have hnews := Seed.start_newPaths hagree calls
  rw [← Seed.start_ahead_iff hagree hfew]
  constructor
  · intro h p id hp j hj
    rintro rfl
    obtain ⟨q, -, hnone, hid⟩ := internAll_slots rfl j (hnews ▸ hj)
    obtain rfl := h.injective p q _ (internAll_keeps rfl hp) hid
    rw [hnone] at hp
    cases hp
  · intro hahead
    have hinj := Seed.start_injective hagree (by omega)
    rw [← hnews] at hahead hcard
    exact Seed.consistentRun hagree (internAll_injective hinj hahead (by omega) rfl) rfl

/-- Two indexes that both know `a`, with a gap below its id. -/
def gapSeed : Seed := .indexes [[(5, "a")], [(2, "b"), (5, "a")]]

theorem file_ids_consistent_iff_gapSeed :
    ConsistentRun gapSeed ["c", "a", "d", "c"] [6, 5, 7, 6] (gapSeed.start.internAll ["c", "a", "d", "c"]).2 := by
  have hagree : gapSeed.Agree := by
    refine ⟨fun p => if p = "a" then some 5 else if p = "b" then some 2 else none, fun p q i hp hq => ?_,
      by decide +kernel⟩
    simp only at hp hq
    split_ifs at hp hq <;> simp_all
    · cases hp.trans hq.symm
    · cases hp.trans hq.symm
  have hrun := (file_ids_consistent_iff gapSeed hagree ["c", "a", "d", "c"] (by decide +kernel)).mpr (by decide +kernel)
  have hids : (gapSeed.start.internAll ["c", "a", "d", "c"]).1 = [6, 5, 7, 6] := by decide +kernel
  rwa [hids] at hrun

/-- The rows of an index with the largest id. -/
def lastId : Seed := .indexes [[(0, "b"), (4294967295, "a")]]

theorem lastId_agree : lastId.Agree := by
  refine ⟨fun p => if p = "a" then some 4294967295 else if p = "b" then some 0 else none, fun p q i hp hq => ?_,
    by decide +kernel⟩
  simp only at hp hq
  split_ifs at hp hq <;> simp_all
  · cases hp.trans hq.symm
  · cases hp.trans hq.symm

/-- The counter is back at 0, the id of `b`. -/
theorem new_path_shares_id :
    lastId.Agree ∧ (lastId.known ++ ["c"]).toFinset.card < 2 ^ 32 ∧
      (lastId.start.internAll ["c"]).2.id? "b" = some 0 ∧ (lastId.start.internAll ["c"]).2.id? "c" = some 0 ∧
      ¬ ConsistentRun lastId ["c"] (lastId.start.internAll ["c"]).1 (lastId.start.internAll ["c"]).2 := by
  have hb : (lastId.start.internAll ["c"]).2.id? "b" = some 0 := by decide +kernel
  have hc : (lastId.start.internAll ["c"]).2.id? "c" = some 0 := by decide +kernel
  refine ⟨lastId_agree, by decide +kernel, hb, hc, fun h => ?_⟩
  exact absurd (h.injective _ _ _ hb hc) (by decide)

end Scry2.FileIdAllocator
