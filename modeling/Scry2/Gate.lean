import Scry2.Lib.Threads
import Mathlib.Data.UInt
import Mathlib.Algebra.Order.BigOperators.Group.List

/-!
# The gate of a snapshot

The worker threads of `cmd_from_kzip` and what they share to keep out of a snapshot's way: a count of the
units that are being indexed, the flag that parks the workers, and the lock of the snapshotter. A guard
undoes each of them on every way out, by `continue`, by an error and by a panic.
-/

open Scry2.Lib

namespace Scry2

/-- How a worker ends when it does not return `Ok`. -/
inductive Failure where
  | error
  | panic
deriving DecidableEq

/-- Where a worker is in its loop: `ActiveGuard` is there from `working` on, `SnapActiveGuard` while it is
`quiescing` or `merging`. -/
inductive Pc where
  /-- Before `SubKzipWriter::open`. -/
  | opening
  /-- At `while i < plan_len`. -/
  | head
  | entering
  /-- After `fetch_add`, before it looks at the flag. -/
  | counted
  /-- The flag was up. -/
  | backing
  | parked
  | working
  | locked
  | quiescing
  /-- The wait is over because no other unit was left, or because it took too long. -/
  | merging (quiet : Bool)
  | unlocking (failure : Option Failure)
  | leaving (failure : Option Failure)
  | ended (failure : Option Failure)
deriving DecidableEq

structure Loop where
  i : Nat
  pc : Pc := .opening

inductive SnapWriter where
  | free
  | held (w : Nat)
  | poisoned
deriving DecidableEq

structure Gate where
  active_cus : UInt64 := 0
  snap_active : Bool := false
  snap_writer_mu : SnapWriter := .free

/-- What a guard of the lock leaves when it is dropped. -/
def SnapWriter.dropped (failure : Option Failure) : SnapWriter :=
  if failure = some .panic then .poisoned else .free

/-- The worker that holds the lock. -/
def SnapWriter.owner : SnapWriter → Option Nat
  | .held w => some w
  | _ => none

@[simp] theorem SnapWriter.owner_dropped (failure : Option Failure) : (dropped failure).owner = none := by
  unfold dropped
  split_ifs <;> rfl

/-- A step of worker `w` of `n_workers`. Whether a snapshot is due is left open, as is whatever can fail.
The steps interleave, that is, the atomics are sequentially consistent. The source asks for less: `raise` is a
`Release` store and the test of `quiet` an `Acquire` load, which a machine may order the other way round. -/
inductive Gate.Move (n_workers plan_len : Nat) : Moves Gate Loop
  | opened {w : Nat} {g : Gate} {i : Nat} : Move n_workers plan_len w g ⟨i, .opening⟩ g ⟨i, .head⟩
  | openFailed {w : Nat} {g : Gate} {i : Nat} :
      Move n_workers plan_len w g ⟨i, .opening⟩ g ⟨i, .ended (some .error)⟩
  | next {w : Nat} {g : Gate} {i : Nat} (h : i < plan_len) : Move n_workers plan_len w g ⟨i, .head⟩ g ⟨i, .entering⟩
  | over {w : Nat} {g : Gate} {i : Nat} (h : plan_len ≤ i) : Move n_workers plan_len w g ⟨i, .head⟩ g ⟨i, .ended none⟩
  | count {w : Nat} {g : Gate} {i : Nat} :
      Move n_workers plan_len w g ⟨i, .entering⟩ { g with active_cus := g.active_cus + 1 } ⟨i, .counted⟩
  | pass {w : Nat} {g : Gate} {i : Nat} (h : g.snap_active = false) :
      Move n_workers plan_len w g ⟨i, .counted⟩ g ⟨i, .working⟩
  | see {w : Nat} {g : Gate} {i : Nat} (h : g.snap_active = true) :
      Move n_workers plan_len w g ⟨i, .counted⟩ g ⟨i, .backing⟩
  | back {w : Nat} {g : Gate} {i : Nat} :
      Move n_workers plan_len w g ⟨i, .backing⟩ { g with active_cus := g.active_cus - 1 } ⟨i, .parked⟩
  | unpark {w : Nat} {g : Gate} {i : Nat} (h : g.snap_active = false) :
      Move n_workers plan_len w g ⟨i, .parked⟩ g ⟨i, .entering⟩
  /-- The unit is through, or failed; no snapshot is due, or the lock is not to be had. -/
  | leave {w : Nat} {g : Gate} {i : Nat} (failure : Option Failure) :
      Move n_workers plan_len w g ⟨i, .working⟩ g ⟨i, .leaving failure⟩
  | lock {w : Nat} {g : Gate} {i : Nat} (h : g.snap_writer_mu = .free) :
      Move n_workers plan_len w g ⟨i, .working⟩ { g with snap_writer_mu := .held w } ⟨i, .locked⟩
  /-- No snapshot is due any more. -/
  | unneeded {w : Nat} {g : Gate} {i : Nat} (failure : Option Failure) :
      Move n_workers plan_len w g ⟨i, .locked⟩ g ⟨i, .unlocking failure⟩
  | raise {w : Nat} {g : Gate} {i : Nat} :
      Move n_workers plan_len w g ⟨i, .locked⟩ { g with snap_active := true } ⟨i, .quiescing⟩
  | quiet {w : Nat} {g : Gate} {i : Nat} (h : g.active_cus ≤ 1) :
      Move n_workers plan_len w g ⟨i, .quiescing⟩ g ⟨i, .merging true⟩
  | timeout {w : Nat} {g : Gate} {i : Nat} : Move n_workers plan_len w g ⟨i, .quiescing⟩ g ⟨i, .merging false⟩
  | interrupted {w : Nat} {g : Gate} {i : Nat} :
      Move n_workers plan_len w g ⟨i, .quiescing⟩ { g with snap_active := false } ⟨i, .unlocking (some .panic)⟩
  /-- The shard is written, or it could not be. -/
  | lower {w : Nat} {g : Gate} {i : Nat} {quiet : Bool} (failure : Option Failure) :
      Move n_workers plan_len w g ⟨i, .merging quiet⟩ { g with snap_active := false } ⟨i, .unlocking failure⟩
  | unlock {w : Nat} {g : Gate} {i : Nat} {failure : Option Failure} :
      Move n_workers plan_len w g ⟨i, .unlocking failure⟩ { g with snap_writer_mu := .dropped failure } ⟨i, .leaving failure⟩
  | again {w : Nat} {g : Gate} {i : Nat} :
      Move n_workers plan_len w g ⟨i, .leaving none⟩ { g with active_cus := g.active_cus - 1 } ⟨i + n_workers, .head⟩
  | fail {w : Nat} {g : Gate} {i : Nat} {failure : Failure} :
      Move n_workers plan_len w g ⟨i, .leaving (some failure)⟩ { g with active_cus := g.active_cus - 1 }
        ⟨i, .ended (some failure)⟩

/-- The threads when they are spawned. -/
def Gate.spawned (n_workers : Nat) : Threads Gate Loop where
  shared := {}
  locals := (List.range n_workers).map fun w => { i := w }

namespace Pc

/-- It is counted in `active_cus`. -/
def isCounted : Pc → Bool
  | .counted | .backing | .working | .locked | .quiescing | .merging _ | .unlocking _ | .leaving _ => true
  | .opening | .head | .entering | .parked | .ended _ => false

/-- It holds `snap_writer_mu`. -/
def Holds : Pc → Prop
  | .locked | .quiescing | .merging _ | .unlocking _ => True
  | _ => False

/-- The flag is up on its account. -/
def Raised : Pc → Prop
  | .quiescing | .merging _ => True
  | _ => False

/-- It is not at a unit, and looks at the flag before it begins one. -/
def Calm : Pc → Prop
  | .opening | .head | .entering | .counted | .backing | .parked | .ended _ => True
  | _ => False

theorem Raised.holds {pc : Pc} (h : pc.Raised) : pc.Holds := by
  cases pc <;> trivial

end Pc

namespace Gate

def owner (g : Gate) : Option Nat := g.snap_writer_mu.owner

variable {n_workers plan_len w : Nat} {g g' : Gate} {x y : Loop} {t u : Threads Gate Loop} {n : Nat}

/-! ## One step -/

/-- The part of a worker in `active_cus`. -/
def share (x : Loop) : UInt64 := if x.pc.isCounted then 1 else 0

theorem Move.share (h : Move n_workers plan_len w g x g' y) : g'.active_cus + Gate.share x = g.active_cus + Gate.share y := by
  cases h <;> simp [Gate.share, Pc.isCounted]

theorem Move.owner (h : Move n_workers plan_len w g x g' y) (hx : x.pc.Holds ↔ g.owner = some w) :
    (y.pc.Holds ↔ g'.owner = some w) ∧ ∀ v, v ≠ w → (g'.owner = some v ↔ g.owner = some v) := by
  cases h with
  | lock h =>
    refine ⟨by simp [Pc.Holds, Gate.owner, SnapWriter.owner], fun v hv => ?_⟩
    unfold Gate.owner
    rw [h]
    simp [SnapWriter.owner, Ne.symm hv]
  | unlock =>
    refine ⟨by simp [Pc.Holds, Gate.owner], fun v hv => ?_⟩
    rw [hx.mp trivial]
    simp [Gate.owner, Ne.symm hv]
  | _ => exact ⟨hx, fun _ _ => Iff.rfl⟩

/-- The flag changes with the worker that raises it. -/
theorem Move.flag (h : Move n_workers plan_len w g x g' y) :
    g'.snap_active = g.snap_active ∧ (y.pc.Raised ↔ x.pc.Raised) ∨
      g'.snap_active = true ∧ y.pc.Raised ∨ g'.snap_active = false ∧ x.pc.Raised ∧ ¬ y.pc.Raised := by
  cases h with
  | raise => exact Or.inr (Or.inl ⟨rfl, trivial⟩)
  | interrupted => exact Or.inr (Or.inr ⟨rfl, trivial, id⟩)
  | lower => exact Or.inr (Or.inr ⟨rfl, trivial, id⟩)
  | _ => exact Or.inl ⟨rfl, Iff.rfl⟩

/-- While the flag is up a worker that is not at a unit begins none. -/
theorem Move.calm (h : Move n_workers plan_len w g x g' y) (hup : g.snap_active = true) (hx : x.pc.Calm) : y.pc.Calm := by
  cases h with
  | pass h => rw [hup] at h; cases h
  | leave => exact hx.elim
  | lock => exact hx.elim
  | unneeded => exact hx.elim
  | raise => exact hx.elim
  | quiet => exact hx.elim
  | timeout => exact hx.elim
  | interrupted => exact hx.elim
  | lower => exact hx.elim
  | unlock => exact hx.elim
  | again => exact hx.elim
  | fail => exact hx.elim
  | _ => trivial

/-- Only the count ends a wait in quiet. -/
theorem Move.quieted (h : Move n_workers plan_len w g x g' y) (hy : y.pc = .merging true) :
    x.pc.isCounted = true ∧ g.active_cus ≤ 1 := by
  cases h with
  | quiet h => exact ⟨rfl, h⟩
  | _ => cases hy

/-! ## All threads -/

/-- What holds in every state: the count and the lock are right, the flag is up just while a worker raised
it, and whoever merges in quiet is alone. -/
structure Sound (t : Threads Gate Loop) : Prop where
  count : t.shared.active_cus = t.total Gate.share
  owned : t.Owned owner fun x => x.pc.Holds
  flag : t.shared.snap_active = true ↔ ∃ (w : Nat) (x : Loop), t.locals[w]? = some x ∧ x.pc.Raised
  quiet : ∀ (w : Nat) (x : Loop), t.locals[w]? = some x → x.pc = .merging true →
    ∀ (v : Nat) (y : Loop), v ≠ w → t.locals[v]? = some y → y.pc.Calm

theorem total_share (t : Threads Gate Loop) :
    t.total Gate.share = UInt64.ofNat (t.locals.countP fun x => x.pc.isCounted) := by
  unfold Threads.total
  induction t.locals with
  | nil => rfl
  | cons x l ih =>
    rw [List.map_cons, List.sum_cons, ih, List.countP_cons, UInt64.ofNat_add, add_comm]
    unfold Gate.share
    split_ifs <;> rfl

/-- The count is the number of workers between its two updates. -/
theorem Sound.active_cus (h : Sound t) (hlen : t.locals.length < 2 ^ 64) :
    t.shared.active_cus.toNat = t.locals.countP fun x => x.pc.isCounted := by
  rw [h.count, total_share, UInt64.toNat_ofNat_of_lt' (List.countP_le_length.trans_lt hlen)]

/-- At most one worker is between `raise` and `lower`. -/
theorem Sound.raised_unique (h : Sound t) {v : Nat} (hw : t.locals[w]? = some x) (hx : x.pc.Raised)
    (hv : t.locals[v]? = some y) (hy : y.pc.Raised) : v = w :=
  h.owned.unique hw hx.holds hv hy.holds

theorem sound_spawned (n_workers : Nat) : Sound (spawned n_workers) := by
  have hpc : ∀ (w : Nat) (x : Loop), (spawned n_workers).locals[w]? = some x → x.pc = .opening := by
    intro w x hx
    obtain ⟨i, -, rfl⟩ := List.mem_map.mp (List.mem_of_getElem? hx)
    rfl
  refine ⟨?_, fun w => ⟨nofun, ?_⟩, ?_, fun w x hx hm => ?_⟩
  · rw [total_share, List.countP_eq_zero.mpr]
    · rfl
    · intro x hx
      obtain ⟨w, hw⟩ := List.getElem?_of_mem hx
      rw [hpc w x hw]
      decide
  · rintro ⟨x, hx, hh⟩
    rw [hpc w x hx] at hh
    exact hh.elim
  · refine ⟨nofun, ?_⟩
    rintro ⟨w, x, hx, hr⟩
    rw [hpc w x hx] at hr
    exact hr.elim
  · rw [hpc w x hx] at hm
    cases hm

/-- A worker that has waited until the count was one is alone. -/
theorem Sound.alone (h : Sound t) (hlen : t.locals.length < 2 ^ 64) (hw : t.locals[w]? = some x)
    (hx : x.pc.isCounted = true) (hone : t.shared.active_cus ≤ 1) {v : Nat} (hvw : v ≠ w)
    (hv : t.locals[v]? = some y) : y.pc.Calm := by
  have hcount := h.active_cus hlen
  have hle : (t.locals.countP fun x => x.pc.isCounted) ≤ 1 := hcount ▸ UInt64.le_iff_toNat_le.mp hone
  by_contra hy
  have hyc : y.pc.isCounted = true := by
    cases hp : y.pc with
    | working => rfl
    | locked => rfl
    | quiescing => rfl
    | merging => rfl
    | unlocking => rfl
    | leaving => rfl
    | _ =>
      rw [hp] at hy
      exact absurd trivial hy
  have := Threads.two_le_countP (p := fun x : Loop => x.pc.isCounted) hvw hv hw hyc hx
  omega

theorem Sound.step (hlen : t.locals.length < 2 ^ 64) (h : Sound t)
    (hst : Threads.Step (Move n_workers plan_len) t u) : Sound u where
  count := hst.counter (fun _ _ _ _ _ hm => hm.share) h.count
  owned := hst.owned (fun _ _ _ _ _ hm hx => hm.owner hx) h.owned
  flag := by
    cases hst with
    | @move w x y g hw hm =>
      have hown : (t.locals.set w y)[w]? = some y := Threads.getElem?_set_own hw
      rcases hm.flag with ⟨hg, hr⟩ | ⟨hg, hr⟩ | ⟨hg, hx, hy⟩
      · rw [hg, h.flag]
        constructor
        · rintro ⟨v, z, hv, hz⟩
          by_cases hvw : v = w
          · subst hvw
            cases hw.symm.trans hv
            exact ⟨v, y, hown, hr.mpr hz⟩
          · exact ⟨v, z, (List.getElem?_set_ne (Ne.symm hvw)).trans hv, hz⟩
        · rintro ⟨v, z, hv, hz⟩
          rcases Threads.getElem?_set_cases hv with ⟨rfl, rfl⟩ | ⟨-, hv⟩
          · exact ⟨v, x, hw, hr.mp hz⟩
          · exact ⟨v, z, hv, hz⟩
      · exact ⟨fun _ => ⟨w, y, hown, hr⟩, fun _ => hg⟩
      · refine ⟨fun hup => ?_, ?_⟩
        · cases hg.symm.trans hup
        · -- Whoever else had raised it would hold the lock too.
          rintro ⟨v, z, hv, hz⟩
          rcases Threads.getElem?_set_cases hv with ⟨rfl, rfl⟩ | ⟨hvw, hv⟩
          · exact absurd hz hy
          · exact absurd (h.raised_unique hw hx hv hz) hvw
  quiet := by
    cases hst with
    | @move w x y g hw hm =>
      intro v z hz hquiet v' z' hne hz'
      rcases Threads.getElem?_set_cases hz with ⟨rfl, rfl⟩ | ⟨-, hv⟩
      · obtain ⟨hx, hone⟩ := hm.quieted hquiet
        rcases Threads.getElem?_set_cases hz' with ⟨rfl, -⟩ | ⟨-, hv'⟩
        · exact absurd rfl hne
        · exact h.alone hlen hw hx hone hne hv'
      · rcases Threads.getElem?_set_cases hz' with ⟨rfl, rfl⟩ | ⟨-, hv'⟩
        · have hup := h.flag.mpr ⟨v, z, hv, by rw [hquiet]; trivial⟩
          exact hm.calm hup (h.quiet v z hv hquiet _ x hne hw)
        · exact h.quiet v z hv hquiet v' z' hne hv'

theorem Sound.runs (hlen : t.locals.length < 2 ^ 64) (h : Sound t)
    (hr : Threads.Runs (Move n_workers plan_len) t n u) : Sound u := by
  induction hr with
  | refl => exact h
  | step hr hst ih => exact ih.step (hr.length.trans_lt hlen) hst

theorem length_spawned (n_workers : Nat) : (spawned n_workers).locals.length = n_workers := by
  simp [spawned]

/-- In every state that any order of the workers' steps leads to, the count is exact, at most one worker has
raised the flag, the flag is up just as long, no unit begins while it is up, and when the wait before a merge
ended by the count no other worker is at a unit. -/
theorem gate_quiesces (hlen : n_workers < 2 ^ 64) (hr : Threads.Runs (Move n_workers plan_len) (spawned n_workers) n t) :
    (t.shared.active_cus.toNat = t.locals.countP fun x => x.pc.isCounted) ∧
    (t.shared.snap_active = true ↔ ∃! w : Nat, ∃ x : Loop, t.locals[w]? = some x ∧ x.pc.Raised) ∧
    (∀ (u : Threads Gate Loop) (v : Nat) (y : Loop), Threads.Step (Move n_workers plan_len) t u → t.shared.snap_active = true →
      u.locals[v]? = some y → y.pc = .working → t.locals[v]? = some y) ∧
    ∀ (w : Nat) (x : Loop), t.locals[w]? = some x → x.pc = .merging true →
      ∀ (v : Nat) (y : Loop), v ≠ w → t.locals[v]? = some y → y.pc.Calm := by
  have hlen₀ : (spawned n_workers).locals.length < 2 ^ 64 := by rwa [length_spawned]
  have h := (sound_spawned n_workers).runs hlen₀ hr
  refine ⟨h.active_cus (hr.length.trans_lt hlen₀), ?_, ?_, h.quiet⟩
  · rw [h.flag]
    constructor
    · rintro ⟨w, x, hx, hr⟩
      exact ⟨w, ⟨x, hx, hr⟩, fun v ⟨y, hy, hr'⟩ => h.raised_unique hx hr hy hr'⟩
    · rintro ⟨w, ⟨x, hx, hr⟩, -⟩
      exact ⟨w, x, hx, hr⟩
  · intro u v y hst hup hy hwork
    cases hst with
    | move hw hm =>
      rcases Threads.getElem?_set_cases hy with ⟨rfl, rfl⟩ | ⟨-, hv⟩
      · cases hm with
        | pass hdown =>
          rw [hup] at hdown
          cases hdown
        | _ => cases hwork
      · exact hv

/-- One of two workers takes a snapshot while the other is about to begin a unit. -/
theorem gate_quiesces_two : ∃ t, Threads.Runs (Move 2 2) (spawned 2) 9 t ∧
    t.locals = [⟨0, .merging true⟩, ⟨1, .entering⟩] ∧ t.shared.active_cus.toNat = 1 ∧
    ∀ (v : Nat) (y : Loop), v ≠ 0 → t.locals[v]? = some y → y.pc.Calm := by
  have hr : Threads.Runs (Move 2 2) (spawned 2) 0 (spawned 2) := .refl
  have hr := hr.step (.move (w := 0) rfl .opened)
  have hr := hr.step (.move (w := 0) rfl (.next (by decide)))
  have hr := hr.step (.move (w := 0) rfl .count)
  have hr := hr.step (.move (w := 0) rfl (.pass rfl))
  have hr := hr.step (.move (w := 0) rfl (.lock rfl))
  have hr := hr.step (.move (w := 0) rfl .raise)
  have hr := hr.step (.move (w := 0) rfl (.quiet (by decide)))
  have hr := hr.step (.move (w := 1) rfl .opened)
  have hr := hr.step (.move (w := 1) rfl (.next (by decide)))
  obtain ⟨hcount, -, -, hquiet⟩ := gate_quiesces (by decide) hr
  exact ⟨_, hr, rfl, hcount, hquiet 0 _ rfl rfl⟩

/-! ## An end -/

/-- The steps of one round, when the flag can go up in between. -/
def round (n_workers : Nat) : Nat := 4 * n_workers + 13

/-- The steps left in a round, by whether the flag is up. Raising it sends every other worker round the gate
once more. -/
def stage (n_workers : Nat) (up : Bool) : Pc → Nat
  | .opening | .head | .ended _ => 0
  | .leaving _ => 2
  | .unlocking _ => 3
  | .merging _ => 4
  | .quiescing => 5
  | .locked => 4 * n_workers + 6
  | .working => 4 * n_workers + 7
  | .counted => if up then 4 * n_workers + 12 else 4 * n_workers + 8
  | .entering => if up then 4 * n_workers + 13 else 4 * n_workers + 9
  | .parked => 4 * n_workers + 10
  | .backing => 4 * n_workers + 11

/-- The steps left in all rounds. -/
def fuel (n_workers plan_len : Nat) (g : Gate) (x : Loop) : Nat :=
  match x.pc with
  | .ended _ => 0
  | .opening => (plan_len - x.i) * round n_workers + 2
  | .head => (plan_len - x.i) * round n_workers + 1
  | pc => (plan_len - x.i - 1) * round n_workers + stage n_workers g.snap_active pc

theorem stage_le (pc : Pc) (up up' : Bool) : stage n_workers up pc ≤ stage n_workers up' pc + 4 := by
  cases pc <;> cases up <;> cases up' <;> simp [stage]

theorem stage_down_le (pc : Pc) (up : Bool) : stage n_workers false pc ≤ stage n_workers up pc := by
  cases pc <;> cases up <;> simp [stage]

theorem fuel_le {d : Nat} (h : ∀ pc, stage n_workers g'.snap_active pc ≤ stage n_workers g.snap_active pc + d) (z : Loop) :
    fuel n_workers plan_len g' z ≤ fuel n_workers plan_len g z + d := by
  have hz := h z.pc
  unfold fuel
  split <;> omega

theorem Move.fuel (hpos : 0 < n_workers) (h : Move n_workers plan_len w g x g' y) :
    ∃ rise, (∀ z, fuel n_workers plan_len g' z ≤ fuel n_workers plan_len g z + rise) ∧
      Gate.fuel n_workers plan_len g' y + n_workers * rise < Gate.fuel n_workers plan_len g x := by
  have hsame : ∀ {g' : Gate}, g'.snap_active = g.snap_active → ∀ z,
      Gate.fuel n_workers plan_len g' z ≤ Gate.fuel n_workers plan_len g z + 0 :=
    fun hg z => fuel_le (fun pc => by rw [hg, add_zero]) z
  have hdown : ∀ {g' : Gate}, g'.snap_active = false → ∀ z,
      Gate.fuel n_workers plan_len g' z ≤ Gate.fuel n_workers plan_len g z + 0 :=
    fun hg z => fuel_le (fun pc => by rw [hg, add_zero]; exact stage_down_le pc _) z
  cases h with
  | raise =>
    refine ⟨4, fun z => fuel_le (fun pc => stage_le pc _ _) z, ?_⟩
    simp only [Gate.fuel, stage]
    omega
  | interrupted => exact ⟨0, hdown rfl, by simp [Gate.fuel, stage]⟩
  | lower => exact ⟨0, hdown rfl, by simp [Gate.fuel, stage]⟩
  | next h =>
    rename_i i
    refine ⟨0, hsame rfl, ?_⟩
    have hrem : plan_len - i = plan_len - i - 1 + 1 := by omega
    have hstage : stage n_workers g.snap_active .entering ≤ 4 * n_workers + 13 := by
      simp only [stage]
      split <;> omega
    simp only [Gate.fuel]
    rw [hrem, Nat.succ_mul, Nat.add_sub_cancel, round]
    omega
  | again =>
    rename_i i
    refine ⟨0, hsame rfl, ?_⟩
    have hrem : plan_len - (i + n_workers) ≤ plan_len - i - 1 := by omega
    have hmul := Nat.mul_le_mul_right (round n_workers) hrem
    simp only [Gate.fuel, stage]
    omega
  | pass h => exact ⟨0, hsame rfl, by simp [Gate.fuel, stage, h]⟩
  | see h => exact ⟨0, hsame rfl, by simp [Gate.fuel, stage, h]⟩
  | unpark h => exact ⟨0, hsame rfl, by simp [Gate.fuel, stage, h]⟩
  | count =>
    refine ⟨0, hsame rfl, ?_⟩
    simp only [Gate.fuel, stage]
    split <;> omega
  | _ => exact ⟨0, hsame rfl, by simp [Gate.fuel, stage]⟩

/-- No run is longer. -/
def bound (n_workers plan_len : Nat) : Nat := n_workers * (plan_len * (4 * n_workers + 13) + 2)

theorem total_fuel_spawned (n_workers plan_len : Nat) :
    (spawned n_workers).total (fuel n_workers plan_len (spawned n_workers).shared) ≤ bound n_workers plan_len := by
  unfold Threads.total spawned bound
  rw [List.map_map]
  have hle := List.sum_le_card_nsmul ((List.range n_workers).map (fuel n_workers plan_len {} ∘ fun w => ({ i := w } : Loop)))
    (plan_len * (4 * n_workers + 13) + 2) ?_
  · rw [List.length_map, List.length_range] at hle
    exact hle
  · rw [List.forall_mem_map]
    intro i _
    have := Nat.mul_le_mul_right (round n_workers) (Nat.sub_le plan_len i)
    exact Nat.add_le_add_right this 2

/-- A step that is no time-out of the wait. -/
def Patient (n_workers plan_len : Nat) : Moves Gate Loop := fun w g x g' y =>
  Move n_workers plan_len w g x g' y ∧ y.pc ≠ .merging false

/-- A worker that does not wait for others has a step. -/
theorem exists_patient (hended : ∀ failure, x.pc ≠ .ended failure) (hparked : x.pc = .parked → g.snap_active = false)
    (hquiescing : x.pc = .quiescing → g.active_cus ≤ 1) : ∃ g' y, Patient n_workers plan_len w g x g' y := by
  obtain ⟨i, pc⟩ := x
  cases pc with
  | opening => exact ⟨_, _, .opened, nofun⟩
  | head =>
    by_cases h : i < plan_len
    · exact ⟨_, _, .next h, nofun⟩
    · exact ⟨_, _, .over (by omega), nofun⟩
  | entering => exact ⟨_, _, .count, nofun⟩
  | counted =>
    cases h : g.snap_active with
    | false => exact ⟨_, _, .pass h, nofun⟩
    | true => exact ⟨_, _, .see h, nofun⟩
  | backing => exact ⟨_, _, .back, nofun⟩
  | parked => exact ⟨_, _, .unpark (hparked rfl), nofun⟩
  | working => exact ⟨_, _, .leave none, nofun⟩
  | locked => exact ⟨_, _, .raise, nofun⟩
  | quiescing => exact ⟨_, _, .quiet (hquiescing rfl), nofun⟩
  | merging quiet => exact ⟨_, _, .lower none, nofun⟩
  | unlocking failure => exact ⟨_, _, .unlock, nofun⟩
  | leaving failure =>
    cases failure with
    | none => exact ⟨_, _, .again, nofun⟩
    | some failure => exact ⟨_, _, .fail, nofun⟩
  | ended failure => exact absurd rfl (hended failure)

/-- When all others have left, the one that waits for them sees a count of one. -/
theorem Sound.others (hlen : t.locals.length < 2 ^ 64) (h : Sound t) (w : Nat) (hmany : ¬ t.shared.active_cus ≤ 1) :
    ∃ (v : Nat) (y : Loop), v ≠ w ∧ t.locals[v]? = some y ∧ y.pc.isCounted = true := by
  by_contra hnone
  push Not at hnone
  apply hmany
  rw [UInt64.le_iff_toNat_le, h.active_cus hlen]
  refine Threads.countP_le_one (w := w) fun v y hv hy => ?_
  by_contra hvw
  exact hnone v y hvw hv hy

/-- No deadlock, even if no wait ever times out. -/
theorem Sound.stuck (hlen : t.locals.length < 2 ^ 64) (h : Sound t)
    (hstuck : ∀ u, ¬ Threads.Step (Patient n_workers plan_len) t u) :
    ∀ (w : Nat) (x : Loop), t.locals[w]? = some x → ∃ failure, x.pc = .ended failure := by
  have hno : ∀ {w : Nat} {x : Loop}, t.locals[w]? = some x → (∀ failure, x.pc ≠ .ended failure) →
      (x.pc = .parked → t.shared.snap_active = false) → (x.pc = .quiescing → t.shared.active_cus ≤ 1) → False := by
    intro w x hw h₁ h₂ h₃
    obtain ⟨g', y, hm⟩ : ∃ g' y, Patient n_workers plan_len w t.shared x g' y := exists_patient h₁ h₂ h₃
    exact hstuck _ (.move hw hm)
  -- Nobody waits for the count to fall: another worker that is counted could go on.
  have hquiescing : ∀ {w : Nat} {x : Loop}, t.locals[w]? = some x → x.pc ≠ .quiescing := by
    intro w x hw hq
    refine hno hw (fun _ hp => by rw [hq] at hp; cases hp) (fun hp => by rw [hq] at hp; cases hp) fun _ => ?_
    by_contra hmany
    obtain ⟨v, y, hvw, hv, hy⟩ := h.others hlen w hmany
    refine hno hv (fun _ hp => by rw [hp] at hy; cases hy) (fun hp => by rw [hp] at hy; cases hy) fun hp => ?_
    exact absurd (h.raised_unique hw (by rw [hq]; trivial) hv (by rw [hp]; trivial)) hvw
  intro w x hw
  by_contra hended
  push Not at hended
  refine hno hw hended (fun _ => ?_) fun hq => absurd hq (hquiescing hw)
  -- Nobody is parked for good: whoever raised the flag could lower it.
  by_contra hup
  obtain ⟨v, y, hv, hy⟩ := h.flag.mp (Bool.eq_true_of_not_eq_false hup)
  refine hno hv (fun _ hp => by rw [hp] at hy; exact hy) (fun hp => by rw [hp] at hy; exact hy.elim) fun hq => ?_
  exact absurd hq (hquiescing hv)

end Gate

/-! ## The scope of the threads -/

/-- The thread that spawned the workers: at its `join` of worker `j`, or out of the closure. -/
inductive Spawner where
  | joining (j : Nat)
  | returned (failure : Option Failure)
deriving DecidableEq

/-- The workers, the thread that joins them and the heartbeat. -/
structure Scope where
  workers : Threads Gate Loop
  spawner : Spawner := .joining 0
  heartbeat_stop : Bool := false
  /-- The heartbeat is still running. -/
  beats : Bool := true

/-- The first worker that failed ends the joins with `?`. -/
inductive Scope.Step (M : Moves Gate Loop) : Scope → Scope → Prop
  | work {s : Scope} {t : Threads Gate Loop} (h : Threads.Step M s.workers t) : Step M s { s with workers := t }
  | join {s : Scope} {j : Nat} {x : Loop} (hj : s.spawner = .joining j) (hx : s.workers.locals[j]? = some x)
      (hok : x.pc = .ended none) : Step M s { s with spawner := .joining (j + 1) }
  | joinFailed {s : Scope} {j : Nat} {x : Loop} {failure : Failure} (hj : s.spawner = .joining j)
      (hx : s.workers.locals[j]? = some x) (hfail : x.pc = .ended (some failure)) :
      Step M s { s with spawner := .returned (some failure) }
  | stop {s : Scope} (hj : s.spawner = .joining s.workers.locals.length) :
      Step M s { s with spawner := .returned none, heartbeat_stop := true }
  | beat {s : Scope} (hbeats : s.beats = true) (hstop : s.heartbeat_stop = true) : Step M s { s with beats := false }

namespace Scope

def start (n_workers : Nat) : Scope where
  workers := Gate.spawned n_workers

/-- `thread::scope` returns: the closure has, and every thread has ended. -/
def Closed (s : Scope) : Prop :=
  (∃ failure, s.spawner = .returned failure) ∧ (∀ x ∈ s.workers.locals, ∃ failure, x.pc = .ended failure) ∧
    s.beats = false

inductive Runs (M : Moves Gate Loop) (s : Scope) : Nat → Scope → Prop
  | refl : Runs M s 0 s
  | step {n : Nat} {s' s'' : Scope} (h : Runs M s n s') (hst : Step M s' s'') : Runs M s (n + 1) s''

variable {n_workers plan_len n : Nat} {s s' : Scope} {t u : Threads Gate Loop} {x : Loop}

/-- The joins before `j` found workers that returned `Ok`, and only after all of them the heartbeat stops. -/
structure Inv (n_workers plan_len : Nat) (s : Scope) : Prop where
  workers : ∃ n, Threads.Runs (Gate.Move n_workers plan_len) (Gate.spawned n_workers) n s.workers
  joined : ∀ j, s.spawner = .joining j → j ≤ n_workers ∧ ∀ (w : Nat) (x : Loop), w < j →
    s.workers.locals[w]? = some x → x.pc = .ended none
  returned : s.spawner = .returned none → ∀ x ∈ s.workers.locals, x.pc = .ended none
  failed : ∀ failure, s.spawner = .returned (some failure) → ∃ x ∈ s.workers.locals, x.pc = .ended (some failure)
  stopped : s.heartbeat_stop = true ↔ s.spawner = .returned none
  beats : s.beats = false → s.heartbeat_stop = true

theorem Inv.length (h : s.Inv n_workers plan_len) : s.workers.locals.length = n_workers := by
  obtain ⟨n, hn⟩ := h.workers
  rw [hn.length, Gate.length_spawned]

theorem inv_start (n_workers plan_len : Nat) : (start n_workers).Inv n_workers plan_len where
  workers := ⟨0, .refl⟩
  joined j hj := by
    cases hj
    exact ⟨Nat.zero_le _, fun w x hw => absurd hw (Nat.not_lt_zero w)⟩
  returned := nofun
  failed := nofun
  stopped := ⟨nofun, nofun⟩
  beats := nofun

/-- A worker that has ended takes no step. -/
theorem ended_of_step {failure : Option Failure} {w : Nat} (h : Threads.Step (Gate.Move n_workers plan_len) t u)
    (hw : t.locals[w]? = some x) (hx : x.pc = .ended failure) : u.locals[w]? = some x := by
  cases h with
  | @move v y z g hv hm =>
    by_cases hvw : v = w
    · subst hvw
      cases hv.symm.trans hw
      cases hm <;> cases hx
    · exact (List.getElem?_set_ne hvw).trans hw

theorem ended_before_step {failure : Option Failure} {w : Nat} (h : Threads.Step (Gate.Move n_workers plan_len) t u)
    (hx : u.locals[w]? = some x) (hended : ∀ y, t.locals[w]? = some y → y.pc = .ended failure) : x.pc = .ended failure := by
  have hw : w < t.locals.length := by
    rw [← h.length]
    exact (List.getElem?_eq_some_iff.mp hx).1
  have hy := hended _ (List.getElem?_eq_getElem hw)
  have := ended_of_step h (List.getElem?_eq_getElem hw) hy
  rw [Option.some.inj (hx.symm.trans this), hy]

theorem Step.inv (hst : Step (Gate.Move n_workers plan_len) s s') (h : s.Inv n_workers plan_len) :
    s'.Inv n_workers plan_len := by
  cases hst with
  | work hm =>
    obtain ⟨n, hn⟩ := h.workers
    refine { h with workers := ⟨n + 1, hn.step hm⟩, joined := fun j hj => ?_, returned := fun hr => ?_, failed := fun failure hf => ?_ }
    · obtain ⟨hle, hall⟩ := h.joined j hj
      exact ⟨hle, fun w x hw hx => ended_before_step hm hx fun y hy => hall w y hw hy⟩
    · intro x hx
      obtain ⟨w, hw⟩ := List.getElem?_of_mem hx
      exact ended_before_step hm hw fun y hy => h.returned hr y (List.mem_of_getElem? hy)
    · obtain ⟨x, hx, hfail⟩ := h.failed failure hf
      obtain ⟨w, hw⟩ := List.getElem?_of_mem hx
      exact ⟨x, List.mem_of_getElem? (ended_of_step hm hw hfail), hfail⟩
  | @join j x hj hx hok =>
    refine { h with joined := fun i hi => ?_, returned := nofun, failed := nofun, stopped := ?_ }
    · cases hi
      obtain ⟨-, hall⟩ := h.joined j hj
      refine ⟨?_, fun w y hw hy => ?_⟩
      · rw [← h.length]
        exact (List.getElem?_eq_some_iff.mp hx).1
      · rcases Nat.lt_succ_iff_lt_or_eq.mp hw with hlt | rfl
        · exact hall w y hlt hy
        · cases hx.symm.trans hy
          exact hok
    · refine ⟨fun hs => ?_, nofun⟩
      rw [h.stopped, hj] at hs
      cases hs
  | @joinFailed j x failure hj hx hfail =>
    refine { h with joined := nofun, returned := nofun, failed := fun e he => ?_, stopped := ?_ }
    · cases he
      exact ⟨x, List.mem_of_getElem? hx, hfail⟩
    · refine ⟨fun hs => ?_, nofun⟩
      rw [h.stopped, hj] at hs
      cases hs
  | stop hj =>
    refine { h with joined := nofun, returned := fun _ x hx => ?_, failed := nofun, stopped := ⟨fun _ => rfl, fun _ => rfl⟩, beats := fun _ => rfl }
    obtain ⟨w, hw⟩ := List.getElem?_of_mem hx
    exact (h.joined _ hj).2 w x (List.getElem?_eq_some_iff.mp hw).1 hw
  | beat hbeats hstop => exact { h with beats := fun _ => hstop }

theorem Runs.inv (hr : Runs (Gate.Move n_workers plan_len) s n s') (h : s.Inv n_workers plan_len) :
    s'.Inv n_workers plan_len := by
  induction hr with
  | refl => exact h
  | step _ hst ih => exact hst.inv ih

/-- The steps left to all threads. -/
def rest (n_workers plan_len : Nat) (s : Scope) : Nat :=
  s.workers.total (Gate.fuel n_workers plan_len s.workers.shared) + s.beats.toNat +
    match s.spawner with
    | .joining j => n_workers + 1 - j
    | .returned _ => 0

theorem Step.rest_lt (hpos : 0 < n_workers) (hst : Step (Gate.Move n_workers plan_len) s s')
    (h : s.Inv n_workers plan_len) : s'.rest n_workers plan_len < s.rest n_workers plan_len := by
  have hlt : ∀ {j : Nat}, s.spawner = .joining j → j ≤ n_workers := fun hj => (h.joined _ hj).1
  unfold rest
  cases hst with
  | work hm =>
    have := hm.fuel n_workers (fun _ _ _ _ _ hm => Gate.Move.fuel hpos hm) h.length.le
    dsimp only
    omega
  | join hj =>
    have := hlt hj
    rw [hj]
    dsimp only
    omega
  | joinFailed hj =>
    have := hlt hj
    rw [hj]
    dsimp only
    omega
  | stop hj =>
    have := hlt hj
    rw [hj]
    dsimp only
    omega
  | beat hbeats =>
    rw [hbeats]
    simp

theorem Runs.rest_le (hpos : 0 < n_workers) (hr : Runs (Gate.Move n_workers plan_len) s n s')
    (h : s.Inv n_workers plan_len) : n + s'.rest n_workers plan_len ≤ s.rest n_workers plan_len := by
  induction hr with
  | refl => rw [zero_add]
  | step hr hst ih =>
    have := hst.rest_lt hpos (hr.inv h)
    omega

theorem Inv.ok_of_closed (h : s.Inv n_workers plan_len) (hc : s.Closed) : ∀ x ∈ s.workers.locals, x.pc = .ended none :=
  h.returned (h.stopped.mp (h.beats hc.2.2))

/-- Whatever the order of the steps, all of them come to an end: no worker waits for another for good. Then
all workers have ended and the flag, the count and the lock are as at the start. The scope has returned just
when every worker returned `Ok`; once one of them fails it never does, for nobody stops the heartbeat. -/
theorem scope_ends (hpos : 0 < n_workers) (hlen : n_workers < 2 ^ 64)
    (hr : Runs (Gate.Move n_workers plan_len) (start n_workers) n s) :
    n ≤ Gate.bound n_workers plan_len + n_workers + 2 ∧
    (s.Closed → ∀ x ∈ s.workers.locals, x.pc = .ended none) ∧
    ((∀ s', ¬ Step (Gate.Patient n_workers plan_len) s s') →
      (∀ x ∈ s.workers.locals, ∃ failure, x.pc = .ended failure) ∧ s.workers.shared.active_cus = 0 ∧
      s.workers.shared.snap_active = false ∧ s.workers.shared.owner = none ∧
      (s.Closed ↔ ∀ x ∈ s.workers.locals, x.pc = .ended none)) := by
  have h := hr.inv (inv_start n_workers plan_len)
  have hbound := hr.rest_le hpos (inv_start n_workers plan_len)
  have hfuel := Gate.total_fuel_spawned n_workers plan_len
  refine ⟨?_, h.ok_of_closed, fun hstuck => ?_⟩
  · have hstart : (start n_workers).rest n_workers plan_len =
        (Gate.spawned n_workers).total (Gate.fuel n_workers plan_len (Gate.spawned n_workers).shared) + 1 + (n_workers + 1) := rfl
    omega
  · obtain ⟨m, hm⟩ := h.workers
    have hlen₀ : (Gate.spawned n_workers).locals.length < 2 ^ 64 := by rwa [Gate.length_spawned]
    have hsound := (Gate.sound_spawned n_workers).runs hlen₀ hm
    have hended := hsound.stuck (h.length.trans_lt hlen) fun u hu => hstuck _ (.work hu)
    have hall : ∀ x ∈ s.workers.locals, ∃ failure, x.pc = .ended failure := by
      intro x hx
      obtain ⟨w, hw⟩ := List.getElem?_of_mem hx
      exact hended w x hw
    refine ⟨hall, ?_, ?_, ?_, h.ok_of_closed, fun hok => ?_⟩
    · rw [hsound.count, Gate.total_share, List.countP_eq_zero.mpr]
      · rfl
      · intro x hx
        obtain ⟨failure, hf⟩ := hall x hx
        rw [hf]
        nofun
    · rw [← Bool.not_eq_true, hsound.flag]
      rintro ⟨w, x, hw, hx⟩
      obtain ⟨failure, hf⟩ := hended w x hw
      rw [hf] at hx
      exact hx
    · rw [Option.eq_none_iff_forall_ne_some]
      intro w hw
      obtain ⟨x, hx, hh⟩ := (hsound.owned w).mp hw
      obtain ⟨failure, hf⟩ := hended w x hx
      rw [hf] at hh
      exact hh
    · -- The joins go on until the last worker, and then the heartbeat is told to stop.
      have hreturned : ∃ failure, s.spawner = .returned failure := by
        cases hs : s.spawner with
        | returned failure => exact ⟨failure, rfl⟩
        | joining j =>
          have hle := (h.joined j hs).1
          rw [← h.length] at hle
          rcases hle.lt_or_eq with hlt | rfl
          · exact absurd (.join hs (List.getElem?_eq_getElem hlt) (hok _ (List.getElem_mem hlt))) (hstuck _)
          · exact absurd (.stop hs) (hstuck _)
      refine ⟨hreturned, hall, ?_⟩
      obtain ⟨failure, hf⟩ := hreturned
      have hstop : s.heartbeat_stop = true := by
        cases failure with
        | none => exact h.stopped.mpr hf
        | some failure =>
          obtain ⟨x, hx, hfail⟩ := h.failed failure hf
          rw [hok x hx] at hfail
          cases hfail
      by_contra hbeats
      exact hstuck _ (.beat (Bool.eq_true_of_not_eq_false hbeats) hstop)

/-- Two workers, the joins at the first of them. -/
abbrev pair (g : Gate) (x y : Loop) : Scope where
  workers := ⟨g, [x, y]⟩

theorem work_first {M : Moves Gate Loop} {g g' : Gate} {x x' y : Loop} (h : M 0 g x g' x') :
    Step M (pair g x y) (pair g' x' y) :=
  .work (.move (w := 0) (x := x) (y := x') rfl h)

theorem work_second {M : Moves Gate Loop} {g g' : Gate} {x y y' : Loop} (h : M 1 g y g' y') :
    Step M (pair g x y) (pair g' x y') :=
  .work (.move (w := 1) (x := y) (y := y') rfl h)

/-- The first worker has indexed its unit and raises the flag; the second one ends its own, sees the flag
and is parked, and the snapshot is taken. -/
theorem pair_snapshot : Runs (Gate.Move 2 4) (start 2) 17
    (pair ⟨1, true, .held 0⟩ ⟨0, .merging true⟩ ⟨3, .parked⟩) := by
  have hr : Runs (Gate.Move 2 4) (start 2) 0 (start 2) := .refl
  have hr := hr.step (work_first .opened)
  have hr := hr.step (work_second .opened)
  have hr := hr.step (work_first (.next (by decide)))
  have hr := hr.step (work_first .count)
  have hr := hr.step (work_first (.pass rfl))
  have hr := hr.step (work_second (.next (by decide)))
  have hr := hr.step (work_second .count)
  have hr := hr.step (work_second (.pass rfl))
  have hr := hr.step (work_first (.lock rfl))
  have hr := hr.step (work_first .raise)
  have hr := hr.step (work_second (.leave none))
  have hr := hr.step (work_second .again)
  have hr := hr.step (work_second (.next (by decide)))
  have hr := hr.step (work_second .count)
  have hr := hr.step (work_second (.see rfl))
  have hr := hr.step (work_second .back)
  exact hr.step (work_first (.quiet (by decide)))

/-- After the snapshot both workers go on to their last units, are joined, and the heartbeat stops. -/
theorem scope_ends_snapshot : ∃ n s, Runs (Gate.Move 2 4) (start 2) n s ∧ n ≤ Gate.bound 2 4 + 2 + 2 ∧ s.Closed ∧
    (∀ x ∈ s.workers.locals, x.pc = .ended none) ∧ s.workers.shared.active_cus = 0 ∧
    s.workers.shared.snap_active = false ∧ s.workers.shared.owner = none := by
  have hr := pair_snapshot.step (work_first (.lower none))
  have hr := hr.step (work_first .unlock)
  have hr := hr.step (work_second (.unpark rfl))
  have hr := hr.step (work_second .count)
  have hr := hr.step (work_second (.pass rfl))
  have hr := hr.step (work_second (.leave none))
  have hr := hr.step (work_second .again)
  have hr := hr.step (work_second (.over (by decide)))
  have hr := hr.step (work_first .again)
  have hr := hr.step (work_first (.next (by decide)))
  have hr := hr.step (work_first .count)
  have hr := hr.step (work_first (.pass rfl))
  have hr := hr.step (work_first (.leave none))
  have hr := hr.step (work_first .again)
  have hr := hr.step (work_first (.over (by decide)))
  have hr := hr.step (.join (j := 0) rfl rfl rfl)
  have hr := hr.step (.join (j := 1) rfl rfl rfl)
  have hr := hr.step (.stop rfl)
  have hr := hr.step (.beat rfl rfl)
  have hall : ∀ x ∈ [(⟨4, .ended none⟩ : Loop), ⟨5, .ended none⟩], ∃ failure, x.pc = .ended failure := by simp
  obtain ⟨hbound, hok, hstuck⟩ := scope_ends (by decide) (by decide) hr
  obtain ⟨-, hcus, hflag, howner, hclosed⟩ := hstuck fun s' hst => by
    cases hst with
    | work hm =>
      obtain ⟨hw, hm, -⟩ := hm
      obtain ⟨failure, hx⟩ := hall _ (List.mem_of_getElem? hw)
      cases hm <;> cases hx
    | join hj => cases hj
    | joinFailed hj => cases hj
    | stop hj => cases hj
    | beat hbeats => cases hbeats
  have hended := hok ⟨⟨none, rfl⟩, hall, rfl⟩
  exact ⟨_, _, hr, hbound, hclosed.mpr hended, hended, hcus, hflag, howner⟩

end Scope

end Scry2
