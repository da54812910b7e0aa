import Scry2.Provenance

/-!
# File ids

Every call of `intern` holds the allocator's lock, so whatever the workers do is one sequence of
calls. A path keeps its id, and as long as the counter does not overflow it is ahead of every id.
-/

open Scry2.Lib
open Std (ExtTreeMap)

namespace Scry2.FileIdAllocator

/-! ## One call -/

/-- The id of a path, seeded or interned. -/
def id? (a : FileIdAllocator) (path : String) : Option UInt32 := a.map[path]?.map (·.1)

/-- A path that was interned and not only seeded. -/
def Marked (a : FileIdAllocator) (path : String) : Prop := ∃ id, a.map[path]? = some (id, true)

/-- No two paths share an id. -/
def Injective (a : FileIdAllocator) : Prop := ∀ p q id, a.id? p = some id → a.id? q = some id → p = q

/-- No two paths share an id, and the counter is ahead of every id. -/
structure Wf (a : FileIdAllocator) : Prop where
  injective : a.Injective
  below : ∀ p id, a.id? p = some id → id.toNat < a.next
  bound : a.next < 2 ^ 32

/-- What a call does in either build: it marks its path with the id it returns, which is the one the
path had, or that of the counter. -/
structure Interned (a : FileIdAllocator) (path : String) (id : UInt32) (b : FileIdAllocator) : Prop where
  get : ∀ q, b.map[q]? = if path = q then some (id, true) else a.map[q]?
  id : a.id? path = some id ∨ a.id? path = none ∧ id = UInt32.ofNat a.next

variable {a b : FileIdAllocator} {path : String} {id : UInt32}

theorem Interned.id? (h : a.Interned path id b) (q : String) : b.id? q = if path = q then some id else a.id? q := by
  unfold FileIdAllocator.id?
  rw [h.get q]
  split <;> rfl

theorem Interned.keeps (h : a.Interned path id b) {q : String} {i : UInt32} (hq : a.id? q = some i) :
    b.id? q = some i := by
  rw [h.id?]
  split
  · rename_i he
    subst he
    rcases h.id with hold | ⟨hnone, -⟩
    · rw [← hq, hold]
    · rw [hnone] at hq
      cases hq
  · exact hq

theorem Interned.marked (h : a.Interned path id b) (q : String) : b.Marked q ↔ path = q ∨ a.Marked q := by
  unfold Marked
  rw [h.get q]
  by_cases heq : path = q <;> simp [heq]

theorem intern_cases (h : a.intern path = some (id, b)) :
    a.Interned path id b ∧ (a.id? path = some id ∧ b.next = a.next ∨
      a.id? path = none ∧ id = UInt32.ofNat a.next ∧ b.next = a.next + 1 ∧ b.next < 2 ^ 32) := by
  unfold intern at h
  cases he : a.map[path]? with
  | some e =>
    have hid : a.id? path = some e.1 := congrArg (Option.map _) he
    simp only [he, Option.some.injEq, Prod.mk.injEq] at h
    obtain ⟨rfl, rfl⟩ := h
    exact ⟨⟨fun q => getElem?_insert_key _ _ _ _, .inl hid⟩, .inl ⟨hid, rfl⟩⟩
  | none =>
    have hid : a.id? path = none := congrArg (Option.map _) he
    simp only [he, Option.bind_eq_bind, Option.bind_eq_some_iff, Option.pure_def, Option.some.injEq,
      Prod.mk.injEq] at h
    obtain ⟨c, hc, rfl, rfl⟩ := h
    obtain ⟨rfl, hlt⟩ := assign_eq_some hc
    exact ⟨⟨fun q => getElem?_insert_key _ _ _ _, .inr ⟨hid, rfl⟩⟩, .inr ⟨hid, rfl, rfl, hlt⟩⟩

theorem intern_id? (h : a.intern path = some (id, b)) (q : String) :
    b.id? q = if path = q then some id else a.id? q :=
  (intern_cases h).1.id? q

theorem Wf.fresh (h : a.Wf) (q : String) : a.id? q ≠ some (UInt32.ofNat a.next) := by
  intro hq
  have hlt := h.below q _ hq
  rw [UInt32.toNat_ofNat_of_lt' h.bound] at hlt
  omega

theorem Wf.add (h : a.Wf)
    (hget : ∀ q, b.id? q = if path = q then some (UInt32.ofNat a.next) else a.id? q)
    (hnext : b.next = a.next + 1) (hlt : b.next < 2 ^ 32) : b.Wf := by
  refine ⟨fun p q i hp hq => ?_, fun p i hp => ?_, hlt⟩
  · rw [hget] at hp hq
    split at hp <;> split at hq
    · rename_i h1 h2
      exact h1.symm.trans h2
    · cases hp
      exact absurd hq (h.fresh q)
    · cases hq
      exact absurd hp (h.fresh p)
    · exact h.injective p q i hp hq
  · rw [hget] at hp
    split at hp
    · cases hp
      rw [UInt32.toNat_ofNat_of_lt' h.bound]
      omega
    · have hlt' := h.below p i hp
      omega

theorem Wf.intern (h : a.Wf) (hi : a.intern path = some (id, b)) : b.Wf := by
  have hget := intern_id? hi
  obtain ⟨-, ⟨hold, hnext⟩ | ⟨-, rfl, hnext, hlt⟩⟩ := intern_cases hi
  · -- The path had its id: no id changes.
    have hsame : ∀ q, b.id? q = a.id? q := by
      intro q
      rw [hget]
      split
      · rename_i hq
        rw [← hq, hold]
      · rfl
    refine ⟨fun p q i hp hq => ?_, fun p i hp => ?_, hnext ▸ h.bound⟩
    · exact h.injective p q i (hsame p ▸ hp) (hsame q ▸ hq)
    · rw [hnext]
      exact h.below p i (hsame p ▸ hp)
  · exact h.add hget hnext hlt

theorem intern_keeps (hi : a.intern path = some (id, b)) {q : String} {i : UInt32}
    (hq : a.id? q = some i) : b.id? q = some i :=
  (intern_cases hi).1.keeps hq

/-! ## How an allocator starts -/

theorem wf_new : Wf {} := by
  refine ⟨fun p q i hp => ?_, fun p i hp => ?_, by decide⟩
  · simp [id?] at hp
  · simp [id?] at hp

theorem Wf.seed_paths {paths : List String} (h : a.Wf) (hs : a.seed_paths paths = some b) : b.Wf := by
  induction paths generalizing a with
  | nil =>
    cases hs
    exact h
  | cons path paths ih =>
    unfold FileIdAllocator.seed_paths at hs
    rw [List.foldlM_cons] at hs
    simp only [Option.bind_eq_bind, Option.bind_eq_some_iff] at hs
    obtain ⟨c, hc, hrest⟩ := hs
    refine ih ?_ hrest
    unfold seedPath at hc
    split at hc
    · cases hc
      exact h
    · obtain ⟨rfl, hlt⟩ := assign_eq_some hc
      have hget : ∀ q, id? ⟨a.map.insert path (UInt32.ofNat a.next, false), a.next + 1⟩ q =
          if path = q then some (UInt32.ofNat a.next) else a.id? q := by
        intro q
        unfold id?
        rw [getElem?_insert_key]
        split <;> rfl
      exact h.add hget rfl hlt

end Scry2.FileIdAllocator
