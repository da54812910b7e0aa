import Scry2.Reader

/-!
# File ids

`FileIdAllocator` of `kythe.rs`. A path keeps its id as long as the allocator lives; a resumed run
loads the ids of the files it resumes from and numbers new paths above them.

The counter is a `u32`. A build with overflow checks stops where it overflows, the release build goes
on with 0. The operations here stop, those of the release build follow them.
-/

open Scry2.Lib
open Std (ExtTreeMap)

namespace Scry2

/-- `path → (id, accessed)` and the next id to hand out. -/
structure FileIdAllocator where
  map : ExtTreeMap String (UInt32 × Bool) := ∅
  next : Nat := 0

namespace FileIdAllocator

/-- `n + 1` on a `u32` with overflow checks; `none` is the panic. -/
def succ (n : Nat) : Option Nat := if n + 1 < 2 ^ 32 then some (n + 1) else none

/-- Give `path` the next id. -/
def assign (a : FileIdAllocator) (path : String) (accessed : Bool) : Option FileIdAllocator := do
  let next ← succ a.next
  return ⟨a.map.insert path (UInt32.ofNat a.next, accessed), next⟩

def intern (a : FileIdAllocator) (path : String) : Option (UInt32 × FileIdAllocator) :=
  match a.map[path]? with
  | some e => some (e.1, { a with map := a.map.insert path (e.1, true) })
  | none => do return (UInt32.ofNat a.next, ← a.assign path true)

def seedPath (a : FileIdAllocator) (path : String) : Option FileIdAllocator :=
  match a.map[path]? with
  | some _ => some a
  | none => a.assign path false

def seed_paths (a : FileIdAllocator) (sorted_paths : List String) : Option FileIdAllocator :=
  sorted_paths.foldlM seedPath a

/-- `if id >= next { next = id + 1 }`. -/
def raise (next id : Nat) : Option Nat := if next ≤ id then succ id else some next

/-- The first id of a path stays, and the counter moves past every id. -/
def seedRow (a : FileIdAllocator) (row : UInt32 × String) : Option FileIdAllocator := do
  let next ← raise a.next row.1.toNat
  return ⟨a.map.alter row.2 fun e => some (e.getD (row.1, false)), next⟩

/-- `seed_from`, on the rows of `iter_files`. -/
def seed_from (a : FileIdAllocator) (rows : List (UInt32 × String)) : Option FileIdAllocator :=
  rows.foldlM seedRow a

def push_to (a : FileIdAllocator) (builder : IndexBuilder) : IndexBuilder :=
  a.map.foldl (fun b path e => if e.2 then b.upsert_file e.1 path else b) builder

/-- `push_to` that consumes the allocator. -/
def drain_into (a : FileIdAllocator) (builder : IndexBuilder) : IndexBuilder := a.push_to builder

/-! ## In the release build -/

/-- `n + 1` on a `u32` without overflow checks. -/
def wrapping_succ (n : Nat) : Nat := (n + 1) % 2 ^ 32

def wrapping_assign (a : FileIdAllocator) (path : String) (accessed : Bool) : FileIdAllocator :=
  ⟨a.map.insert path (UInt32.ofNat a.next, accessed), wrapping_succ a.next⟩

def wrapping_intern (a : FileIdAllocator) (path : String) : UInt32 × FileIdAllocator :=
  match a.map[path]? with
  | some e => (e.1, { a with map := a.map.insert path (e.1, true) })
  | none => (UInt32.ofNat a.next, a.wrapping_assign path true)

def wrapping_seedPath (a : FileIdAllocator) (path : String) : FileIdAllocator :=
  match a.map[path]? with
  | some _ => a
  | none => a.wrapping_assign path false

def wrapping_seed_paths (a : FileIdAllocator) (sorted_paths : List String) : FileIdAllocator :=
  sorted_paths.foldl wrapping_seedPath a

def wrapping_raise (next id : Nat) : Nat := if next ≤ id then wrapping_succ id else next

def wrapping_seedRow (a : FileIdAllocator) (row : UInt32 × String) : FileIdAllocator :=
  ⟨a.map.alter row.2 fun e => some (e.getD (row.1, false)), wrapping_raise a.next row.1.toNat⟩

def wrapping_seed_from (a : FileIdAllocator) (rows : List (UInt32 × String)) : FileIdAllocator :=
  rows.foldl wrapping_seedRow a

end FileIdAllocator

/-! ## What ids stand for -/

/-- The path an id names in the files of a run, as the string blob keeps it. -/
abbrev Naming := UInt32 → Option String

def Naming.Le (N M : Naming) : Prop := ∀ id p, N id = some p → M id = some p

theorem Naming.le_refl (N : Naming) : N.Le N := fun _ _ h => h

theorem Naming.Le.trans {N M L : Naming} (h : N.Le M) (h' : M.Le L) : N.Le L :=
  fun id p hp => h' id p (h id p hp)

/-- The naming that also calls `id` `path`. -/
def Naming.add (N : Naming) (id : UInt32) (path : String) : Naming :=
  fun k => if k = id then some (clamp_blob_str path) else N k

theorem Naming.add_self (N : Naming) (id : UInt32) (path : String) :
    N.add id path id = some (clamp_blob_str path) := if_pos rfl

theorem Naming.le_add {N : Naming} {id : UInt32} (path : String) (h : N id = none) :
    N.Le (N.add id path) := by
  intro k p hk
  have hne : k ≠ id := by
    rintro rfl
    rw [h] at hk
    cases hk
  exact (if_neg hne).trans hk

namespace FileIdAllocator

/-- The allocator's ids name its paths, and every id in use is below its counter. -/
structure Agrees (N : Naming) (a : FileIdAllocator) : Prop where
  names : ∀ path e, a.map[path]? = some e → N e.1 = some (clamp_blob_str path)
  below : ∀ id p, N id = some p → id.toNat < a.next
  bound : a.next < 2 ^ 32

theorem succ_eq_some {n m : Nat} (h : succ n = some m) : m = n + 1 ∧ n + 1 < 2 ^ 32 := by
  unfold succ at h
  split_ifs at h with hn
  cases h
  exact ⟨rfl, hn⟩

variable {N : Naming} {a a' : FileIdAllocator}

theorem assign_eq_some {path : String} {accessed : Bool} (h : a.assign path accessed = some a') :
    a' = ⟨a.map.insert path (UInt32.ofNat a.next, accessed), a.next + 1⟩ ∧ a.next + 1 < 2 ^ 32 := by
  unfold assign at h
  simp only [Option.bind_eq_bind, Option.bind_eq_some_iff, Option.pure_def, Option.some.injEq] at h
  obtain ⟨next, hnext, rfl⟩ := h
  obtain ⟨rfl, hlt⟩ := succ_eq_some hnext
  exact ⟨rfl, hlt⟩

theorem Agrees.fresh (h : a.Agrees N) : N (UInt32.ofNat a.next) = none := by
  cases hN : N (UInt32.ofNat a.next) with
  | none => rfl
  | some p =>
    have := h.below _ p hN
    rw [UInt32.toNat_ofNat_of_lt' h.bound] at this
    omega

theorem agrees_assign (h : a.Agrees N) {path : String} {accessed : Bool}
    (hassign : a.assign path accessed = some a') :
    a'.Agrees (N.add (UInt32.ofNat a.next) path) := by
  obtain ⟨rfl, hlt⟩ := assign_eq_some hassign
  refine ⟨fun q e hq => ?_, fun id p hp => ?_, hlt⟩
  · rw [getElem?_insert_key] at hq
    split_ifs at hq with hc
    · cases hq
      subst hc
      exact N.add_self _ _
    · exact Naming.le_add path h.fresh _ _ (h.names q e hq)
  · unfold Naming.add at hp
    split_ifs at hp with hid
    · subst hid
      rw [UInt32.toNat_ofNat_of_lt' h.bound]
      exact Nat.lt_succ_self _
    · exact (h.below id p hp).trans (Nat.lt_succ_self _)

/-- Interning gives the path an id that stands for it from then on. -/
theorem intern_spec (h : a.Agrees N) {path : String} {id : UInt32}
    (hintern : a.intern path = some (id, a')) :
    ∃ M : Naming, N.Le M ∧ a'.Agrees M ∧ M id = some (clamp_blob_str path) := by
  unfold intern at hintern
  cases he : a.map[path]? with
  | some e =>
    simp only [he, Option.some.injEq, Prod.mk.injEq] at hintern
    obtain ⟨rfl, rfl⟩ := hintern
    refine ⟨N, N.le_refl, ⟨fun q d hq => ?_, h.below, h.bound⟩, h.names path e he⟩
    rw [getElem?_insert_key] at hq
    split_ifs at hq with hc
    · cases hq
      subst hc
      exact h.names _ e he
    · exact h.names q d hq
  | none =>
    simp only [he, Option.bind_eq_bind, Option.bind_eq_some_iff, Option.pure_def, Option.some.injEq,
      Prod.mk.injEq] at hintern
    obtain ⟨b, hb, rfl, rfl⟩ := hintern
    exact ⟨_, Naming.le_add path h.fresh, agrees_assign h hb, N.add_self _ _⟩

theorem intern_accessed {path q : String} {id k : UInt32} (hintern : a.intern path = some (id, a'))
    (hq : a'.map[q]? = some (k, true)) : q = path ∨ a.map[q]? = some (k, true) := by
  have hins : ∀ e : UInt32 × Bool, (a.map.insert path e)[q]? = some (k, true) →
      q = path ∨ a.map[q]? = some (k, true) := by
    intro e h
    rw [getElem?_insert_key] at h
    split_ifs at h with hc
    · exact Or.inl hc.symm
    · exact Or.inr h
  unfold intern at hintern
  cases he : a.map[path]? with
  | some e =>
    simp only [he, Option.some.injEq, Prod.mk.injEq] at hintern
    obtain ⟨rfl, rfl⟩ := hintern
    exact hins _ hq
  | none =>
    simp only [he, assign, Option.bind_eq_bind, Option.bind_eq_some_iff, Option.pure_def,
      Option.some.injEq, Prod.mk.injEq] at hintern
    obtain ⟨b, ⟨next, -, rfl⟩, rfl, rfl⟩ := hintern
    exact hins _ hq

/-! ## Seeding -/

/-- Nothing that was only seeded is marked. -/
def Unmarked (a : FileIdAllocator) : Prop := ∀ (path : String) (id : UInt32), a.map[path]? ≠ some (id, true)

theorem unmarked_assign (h : a.Unmarked) {path : String} (hassign : a.assign path false = some a') :
    a'.Unmarked := by
  obtain ⟨rfl, -⟩ := assign_eq_some hassign
  intro q id hq
  rw [getElem?_insert_key] at hq
  split_ifs at hq
  · cases hq
  · exact h q id hq

theorem seed_paths_spec {paths : List String} (h : a.Agrees N) (hu : a.Unmarked)
    (hseed : a.seed_paths paths = some a') : (∃ M : Naming, a'.Agrees M) ∧ a'.Unmarked := by
  induction paths generalizing a N with
  | nil =>
    cases hseed
    exact ⟨⟨N, h⟩, hu⟩
  | cons path paths ih =>
    unfold seed_paths at hseed
    rw [List.foldlM_cons] at hseed
    simp only [Option.bind_eq_bind, Option.bind_eq_some_iff] at hseed
    obtain ⟨b, hb, hrest⟩ := hseed
    unfold seedPath at hb
    split at hb
    · cases hb
      exact ih h hu hrest
    · exact ih (agrees_assign h hb) (unmarked_assign hu hb) hrest

/-- The ids of an allocator are those of the rows it was seeded with, and it has them all below its
counter. -/
structure SeededBy (rows : List (UInt32 × String)) (a : FileIdAllocator) : Prop where
  names : ∀ path e, a.map[path]? = some e → (e.1, path) ∈ rows
  below : ∀ row ∈ rows, row.1.toNat < a.next
  bound : a.next < 2 ^ 32
  unmarked : a.Unmarked

theorem seededBy_new : SeededBy [] {} := by
  refine ⟨fun path e h => ?_, by simp, by decide, fun path id h => ?_⟩
  · simp at h
  · simp at h

theorem seededBy_seedRow {rows : List (UInt32 × String)} {row : UInt32 × String} (h : SeededBy rows a)
    (hrow : a.seedRow row = some a') : SeededBy (rows ++ [row]) a' := by
  unfold seedRow at hrow
  simp only [Option.bind_eq_bind, Option.bind_eq_some_iff, Option.pure_def, Option.some.injEq] at hrow
  obtain ⟨next, hnext, rfl⟩ := hrow
  have hle : a.next ≤ next ∧ row.1.toNat < next ∧ next < 2 ^ 32 := by
    unfold raise at hnext
    split_ifs at hnext with hc
    · obtain ⟨rfl, hlt⟩ := succ_eq_some hnext
      exact ⟨by omega, by omega, hlt⟩
    · cases hnext
      exact ⟨le_rfl, by omega, h.bound⟩
  have hget : ∀ path : String, (a.map.alter row.2 fun e => some (e.getD (row.1, false)))[path]? =
      if row.2 = path then some (a.map[row.2]?.getD (row.1, false)) else a.map[path]? :=
    fun path => getElem?_alter_key ..
  refine ⟨fun path e he => ?_, fun r hr => ?_, hle.2.2, fun path id he => ?_⟩
  · rw [hget] at he
    rw [List.mem_append, List.mem_singleton]
    split_ifs at he with hc
    · subst hc
      cases hold : a.map[row.2]? with
      | none =>
        rw [hold] at he
        cases he
        exact Or.inr rfl
      | some d =>
        rw [hold] at he
        cases he
        exact Or.inl (h.names _ _ hold)
    · exact Or.inl (h.names path e he)
  · rw [List.mem_append, List.mem_singleton] at hr
    rcases hr with hr | rfl
    · exact (h.below r hr).trans_le hle.1
    · exact hle.2.1
  · rw [hget] at he
    split_ifs at he with hc
    · cases hold : a.map[row.2]? with
      | none =>
        rw [hold] at he
        cases he
      | some d =>
        rw [hold] at he
        cases he
        exact h.unmarked _ _ hold
    · exact h.unmarked path id he

theorem seededBy_seed_from {rows more : List (UInt32 × String)} (h : SeededBy rows a)
    (hseed : a.seed_from more = some a') : SeededBy (rows ++ more) a' := by
  induction more generalizing a rows with
  | nil =>
    cases hseed
    rwa [List.append_nil]
  | cons row more ih =>
    unfold seed_from at hseed
    rw [List.foldlM_cons] at hseed
    simp only [Option.bind_eq_bind, Option.bind_eq_some_iff] at hseed
    obtain ⟨b, hb, hrest⟩ := hseed
    have := ih (seededBy_seedRow h hb) hrest
    rwa [List.append_assoc, List.singleton_append] at this

end FileIdAllocator

end Scry2
