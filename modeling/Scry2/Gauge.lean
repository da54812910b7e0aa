import Scry2.Builder
import Mathlib.Algebra.Order.BigOperators.Group.List

/-!
# The gauge of rows in memory

`delta_rows` of `main.rs`: workers add the rows of a unit to it while they hold their sink's lock, a
snapshot subtracts the rows of the builders it took. The steps of all threads interleave freely.
-/

open Scry2.Lib

namespace Scry2.Gauge

/-! ## The threads -/

/-- Where the worker of a sink is. It holds the sink's lock except in `free`. -/
inductive Fold where
  | free
  /-- The lock is taken; `rows` is what `dedup_tables` returned. -/
  | locked (cu_builder : IndexBuilder) (rows : Nat)
  /-- After `merge_from`, before `fetch_add`. -/
  | merged (rows : Nat)
  | added

structure Sink where
  builder : IndexBuilder := .new
  fold : Fold := .free

/-- A snapshot at sink `j`, with the builders it took so far and the rows it counted in them. -/
structure Drain where
  j : Nat := 0
  taken : List IndexBuilder := []
  drained_rows : UInt64 := 0

structure State where
  sinks : List Sink
  delta_rows : UInt64 := 0
  drain : Option Drain := none

def rowsOf (bs : List IndexBuilder) : Nat := (bs.map IndexBuilder.delta_row_count).sum

/-- `delta_row_count` over all sinks. -/
def State.sinkRows (s : State) : Nat := rowsOf (s.sinks.map Sink.builder)

/-- The rows that were drained and are not subtracted yet. -/
def State.drainedRows (s : State) : Nat := rowsOf ((s.drain.map Drain.taken).getD [])

def State.setSink (s : State) (w : Nat) (x : Sink) : State := { s with sinks := s.sinks.set w x }

section
variable [Unicode]

inductive Step : State → State → Prop
  /-- A worker has a unit's builder, collapsed by `dedup_tables`, and takes its sink's lock. -/
  | lock {s : State} {w : Nat} {x : Sink} (cu : IndexBuilder) :
      s.sinks[w]? = some x → x.fold = .free →
      Step s (s.setSink w { x with fold := .locked cu.dedup_tables.1 cu.dedup_tables.2 })
  /-- All rows are in one address space: a merge that does not fit aborts the process. -/
  | merge {s : State} {w : Nat} {x : Sink} {b : IndexBuilder} {rows : Nat} :
      s.sinks[w]? = some x → x.fold = .locked b rows →
      s.sinkRows + s.drainedRows + b.delta_row_count < 2 ^ 64 →
      Step s (s.setSink w { builder := x.builder.merge_from b, fold := .merged rows })
  | add {s : State} {w : Nat} {x : Sink} {rows : Nat} :
      s.sinks[w]? = some x → x.fold = .merged rows →
      Step s { s.setSink w { x with fold := .added } with
        delta_rows := s.delta_rows + UInt64.ofNat rows }
  | unlock {s : State} {w : Nat} {x : Sink} :
      s.sinks[w]? = some x → x.fold = .added → Step s (s.setSink w { x with fold := .free })
  | drain {s : State} : s.drain = none → Step s { s with drain := some {} }
  /-- `try_lock` got the lock of sink `j`. -/
  | take {s : State} {d : Drain} {x : Sink} :
      s.drain = some d → s.sinks[d.j]? = some x → x.fold = .free →
      Step s { s.setSink d.j { x with builder := .new } with
        drain := some ⟨d.j + 1, d.taken ++ [x.builder],
          d.drained_rows + UInt64.ofNat x.builder.delta_row_count⟩ }
  | skip {s : State} {d : Drain} : s.drain = some d → d.j < s.sinks.length →
      Step s { s with drain := some { d with j := d.j + 1 } }
  | sub {s : State} {d : Drain} : s.drain = some d → d.j = s.sinks.length →
      Step s { s with delta_rows := s.delta_rows - d.drained_rows, drain := none }

/-- The states of a run with `n` workers. -/
inductive Reached (n : Nat) : State → Prop
  | start : Reached n ⟨List.replicate n {}, 0, none⟩
  | step {s s' : State} : Reached n s → Step s s' → Reached n s'

end

/-! ## Counting -/

theorem sum_map_set {α : Type} (f : α → Nat) {l : List α} {i : Nat} {x : α} (h : l[i]? = some x) (y : α) :
    ((l.set i y).map f).sum + f x = (l.map f).sum + f y := by
  induction l generalizing i with
  | nil => simp at h
  | cons z l ih =>
    cases i with
    | zero =>
      obtain rfl : z = x := by simpa using h
      simp only [List.set_cons_zero, List.map_cons, List.sum_cons]
      omega
    | succ i =>
      have hi := ih (show l[i]? = some x by simpa using h)
      simp only [List.set_cons_succ, List.map_cons, List.sum_cons]
      omega

/-- The rows a fold has merged and not added yet. -/
def Sink.pending (x : Sink) : Nat :=
  match x.fold with
  | .merged rows => rows
  | _ => 0

def State.pendingRows (s : State) : Nat := (s.sinks.map Sink.pending).sum

/-- The count a fold carries is that of its builder, and pending rows are in the sink. -/
def Sink.Ok (x : Sink) : Prop :=
  match x.fold with
  | .locked b rows => rows = b.delta_row_count
  | .merged rows => rows ≤ x.builder.delta_row_count
  | _ => True

structure Inv (s : State) : Prop where
  sinks : ∀ x ∈ s.sinks, x.Ok
  fits : s.sinkRows + s.drainedRows < 2 ^ 64
  exact : s.delta_rows.toNat + s.pendingRows = s.sinkRows + s.drainedRows
  drained : ∀ d, s.drain = some d → d.drained_rows.toNat = rowsOf d.taken

section Set
variable {s : State} {w : Nat} {x : Sink} (h : s.sinks[w]? = some x) (y : Sink)
include h

theorem sinkRows_setSink :
    (s.setSink w y).sinkRows + x.builder.delta_row_count = s.sinkRows + y.builder.delta_row_count := by
  simp only [State.sinkRows, rowsOf, List.map_map]
  exact sum_map_set _ h y

theorem pendingRows_setSink :
    (s.setSink w y).pendingRows + x.pending = s.pendingRows + y.pending :=
  sum_map_set _ h y

end Set

theorem Inv.setSink {s : State} {w : Nat} {y : Sink} (hs : ∀ x ∈ s.sinks, x.Ok) (hy : y.Ok) :
    ∀ x ∈ (s.setSink w y).sinks, x.Ok := by
  intro x hx
  rcases List.mem_or_eq_of_mem_set hx with hx | rfl
  · exact hs x hx
  · exact hy

theorem Inv.pending_le {s : State} (h : Inv s) : s.pendingRows ≤ s.sinkRows := by
  rw [State.sinkRows, rowsOf, List.map_map]
  refine List.sum_le_sum fun x hx => ?_
  have hok := h.sinks x hx
  unfold Sink.Ok at hok
  unfold Sink.pending
  split
  · rename_i rows hf
    rw [hf] at hok
    exact hok
  · exact Nat.zero_le _

/-- The gauge is never below the rows that the snapshot will subtract. -/
theorem Inv.drained_le {s : State} (h : Inv s) : s.drainedRows ≤ s.delta_rows.toNat := by
  have hle := h.pending_le
  have hexact := h.exact
  omega

/-- No fold is between its merge and its add. -/
def State.Settled (s : State) : Prop := ∀ x ∈ s.sinks, ∀ rows, x.fold ≠ .merged rows

theorem State.Settled.pendingRows {s : State} (h : s.Settled) : s.pendingRows = 0 := by
  refine List.sum_eq_zero fun k hk => ?_
  obtain ⟨x, hx, rfl⟩ := List.mem_map.mp hk
  unfold Sink.pending
  split
  · rename_i rows hf
    exact absurd hf (h x hx rows)
  · rfl

/-! ## Every state -/

section
variable [Unicode]

theorem delta_row_count_merge_from (a b : IndexBuilder) :
    (a.merge_from b).delta_row_count = a.delta_row_count + b.delta_row_count := by
  simp only [IndexBuilder.delta_row_count, IndexBuilder.merge_from, List.length_append]
  omega

theorem Inv.step {s s' : State} (h : Inv s) (hstep : Step s s') : Inv s' := by
  have hexact := h.exact
  have hfits := h.fits
  cases hstep with
  | @lock w x cu hw hf =>
    have hrows := sinkRows_setSink hw { x with fold := .locked cu.dedup_tables.1 cu.dedup_tables.2 }
    have hpend := pendingRows_setSink hw { x with fold := .locked cu.dedup_tables.1 cu.dedup_tables.2 }
    simp only [Sink.pending, hf] at hrows hpend
    refine ⟨Inv.setSink h.sinks rfl, ?_, ?_, h.drained⟩
    · change (s.setSink w _).sinkRows + s.drainedRows < 2 ^ 64
      omega
    · change s.delta_rows.toNat + (s.setSink w _).pendingRows = (s.setSink w _).sinkRows + s.drainedRows
      omega
  | @merge w x b rows hw hf hroom =>
    -- The rows enter the sink and become pending.
    have hok := h.sinks x (List.mem_of_getElem? hw)
    simp only [Sink.Ok, hf] at hok
    have hrows := sinkRows_setSink hw { builder := x.builder.merge_from b, fold := .merged rows }
    have hpend := pendingRows_setSink hw { builder := x.builder.merge_from b, fold := .merged rows }
    simp only [Sink.pending, hf, delta_row_count_merge_from] at hrows hpend
    refine ⟨Inv.setSink h.sinks ?_, ?_, ?_, h.drained⟩
    · change rows ≤ (x.builder.merge_from b).delta_row_count
      rw [delta_row_count_merge_from]
      omega
    · change (s.setSink w _).sinkRows + s.drainedRows < 2 ^ 64
      omega
    · change s.delta_rows.toNat + (s.setSink w _).pendingRows = (s.setSink w _).sinkRows + s.drainedRows
      omega
  | @add w x rows hw hf =>
    have hrows := sinkRows_setSink hw { x with fold := .added }
    have hpend := pendingRows_setSink hw { x with fold := .added }
    simp only [Sink.pending, hf] at hrows hpend
    have hle := h.pending_le
    have hadd : (s.delta_rows + UInt64.ofNat rows).toNat = s.delta_rows.toNat + rows := by
      rw [UInt64.toNat_add, UInt64.toNat_ofNat', Nat.mod_eq_of_lt (show rows < 2 ^ 64 by omega),
        Nat.mod_eq_of_lt (by omega)]
    refine ⟨Inv.setSink h.sinks trivial, ?_, ?_, h.drained⟩
    · change (s.setSink w _).sinkRows + s.drainedRows < 2 ^ 64
      omega
    · change (s.delta_rows + UInt64.ofNat rows).toNat + (s.setSink w _).pendingRows =
        (s.setSink w _).sinkRows + s.drainedRows
      omega
  | @unlock w x hw hf =>
    have hrows := sinkRows_setSink hw { x with fold := .free }
    have hpend := pendingRows_setSink hw { x with fold := .free }
    simp only [Sink.pending, hf] at hrows hpend
    refine ⟨Inv.setSink h.sinks trivial, ?_, ?_, h.drained⟩
    · change (s.setSink w _).sinkRows + s.drainedRows < 2 ^ 64
      omega
    · change s.delta_rows.toNat + (s.setSink w _).pendingRows = (s.setSink w _).sinkRows + s.drainedRows
      omega
  | drain hd =>
    have hzero : s.drainedRows = 0 := by rw [State.drainedRows, hd]; rfl
    refine ⟨h.sinks, ?_, ?_, ?_⟩
    · change s.sinkRows + 0 < 2 ^ 64
      omega
    · change s.delta_rows.toNat + s.pendingRows = s.sinkRows + 0
      omega
    · rintro d ⟨⟩
      rfl
  | @take d x hd hw hf =>
    -- The rows move from the sink to the snapshot.
    have hrows : (s.setSink d.j { x with builder := .new }).sinkRows + x.builder.delta_row_count =
        s.sinkRows + 0 := sinkRows_setSink hw { x with builder := .new }
    have hpend := pendingRows_setSink hw { x with builder := .new }
    have hx : ∀ b, Sink.pending ⟨b, x.fold⟩ = 0 := by
      intro b
      simp only [Sink.pending, hf]
    simp only [show x.pending = 0 from hx x.builder, hx] at hpend
    have hold : s.drainedRows = rowsOf d.taken := by rw [State.drainedRows, hd]; rfl
    have hmore : rowsOf (d.taken ++ [x.builder]) = rowsOf d.taken + x.builder.delta_row_count := by
      simp [rowsOf]
    have hcount := h.drained d hd
    have hadd : (d.drained_rows + UInt64.ofNat x.builder.delta_row_count).toNat =
        rowsOf (d.taken ++ [x.builder]) := by
      rw [UInt64.toNat_add, UInt64.toNat_ofNat', Nat.mod_eq_of_lt (show _ < 2 ^ 64 by omega),
        Nat.mod_eq_of_lt (by omega)]
      omega
    refine ⟨Inv.setSink h.sinks ?_, ?_, ?_, ?_⟩
    · simp only [Sink.Ok, hf]
    · change (s.setSink d.j _).sinkRows + rowsOf (d.taken ++ [x.builder]) < 2 ^ 64
      omega
    · change s.delta_rows.toNat + (s.setSink d.j _).pendingRows =
        (s.setSink d.j _).sinkRows + rowsOf (d.taken ++ [x.builder])
      omega
    · rintro d' ⟨⟩
      exact hadd
  | @skip d hd hj =>
    have hold : s.drainedRows = rowsOf d.taken := by rw [State.drainedRows, hd]; rfl
    refine ⟨h.sinks, ?_, ?_, ?_⟩
    · change s.sinkRows + rowsOf d.taken < 2 ^ 64
      omega
    · change s.delta_rows.toNat + s.pendingRows = s.sinkRows + rowsOf d.taken
      omega
    · rintro d' ⟨⟩
      exact h.drained d hd
  | @sub d hd hj =>
    have hold : s.drainedRows = rowsOf d.taken := by rw [State.drainedRows, hd]; rfl
    have hle := h.drained_le
    have hcount := h.drained d hd
    have hsub : (s.delta_rows - d.drained_rows).toNat = s.delta_rows.toNat - d.drained_rows.toNat :=
      UInt64.toNat_sub_of_le _ _ (UInt64.le_iff_toNat_le.mpr (by omega))
    refine ⟨h.sinks, ?_, ?_, ?_⟩
    · change s.sinkRows + 0 < 2 ^ 64
      omega
    · change (s.delta_rows - d.drained_rows).toNat + s.pendingRows = s.sinkRows + 0
      omega
    · rintro d' ⟨⟩

theorem Reached.inv {n : Nat} {s : State} (h : Reached n s) : Inv s := by
  induction h with
  | start =>
    have hrows : ∀ k, State.sinkRows ⟨List.replicate k {}, 0, none⟩ = 0 := by
      intro k
      simp [State.sinkRows, rowsOf, IndexBuilder.delta_row_count, IndexBuilder.new]
    have hpend : State.pendingRows ⟨List.replicate n {}, 0, none⟩ = 0 := by
      simp [State.pendingRows, Sink.pending]
    refine ⟨fun x hx => ?_, ?_, ?_, ?_⟩
    · rw [List.eq_of_mem_replicate hx]
      trivial
    · rw [hrows]
      exact Nat.two_pow_pos 64
    · rw [hrows, hpend]
      rfl
    · rintro d ⟨⟩
  | step _ hstep ih => exact ih.step hstep

theorem gauge_exact (n : Nat) (s : State) (h : Reached n s) :
    (s.Settled → s.delta_rows.toNat = s.sinkRows + s.drainedRows) ∧
      (∀ d, s.drain = some d → d.drained_rows.toNat = rowsOf d.taken ∧ d.drained_rows ≤ s.delta_rows) ∧
      (s.drain = none → s.Settled → s.delta_rows.toNat = s.sinkRows) := by
  have hinv := h.inv
  have hexact := hinv.exact
  refine ⟨fun hs => ?_, fun d hd => ⟨hinv.drained d hd, ?_⟩, fun hd hs => ?_⟩
  · rw [hs.pendingRows] at hexact
    omega
  · have hold : s.drainedRows = rowsOf d.taken := by rw [State.drainedRows, hd]; rfl
    rw [UInt64.le_iff_toNat_le, hinv.drained d hd, ← hold]
    exact hinv.drained_le
  · have hzero : s.drainedRows = 0 := by rw [State.drainedRows, hd]; rfl
    rw [hs.pendingRows, hzero] at hexact
    omega

end

/-! ## A run of two workers -/

attribute [local instance] asciiUnicode

/-- One row, seen twice. -/
def repeatedEdge : IndexBuilder := (IndexBuilder.new.add_inherit 5 1).add_inherit 5 1

/-- The sink of a worker after its first fold of the row. -/
def foldedEdge : IndexBuilder := IndexBuilder.new.merge_from repeatedEdge.dedup_tables.1

/-- Both workers have folded the row, and a snapshot has taken what the first one's sink held. -/
def halfDrained : State := ⟨[{}, { builder := foldedEdge, fold := .added }], 2, some ⟨1, [foldedEdge], 1⟩⟩

/-- The snapshot is done, and has left the second worker's sink. -/
def drainedOnce : State := ⟨[{}, { builder := foldedEdge }], 1, none⟩

theorem halfDrained_reached : Reached 2 halfDrained := by
  have hrows : repeatedEdge.dedup_tables.2 = 1 := by decide +kernel
  have hcount : foldedEdge.delta_row_count = 1 := by decide +kernel
  have h := (Reached.start (n := 2)).step (.lock (w := 0) (x := {}) repeatedEdge rfl rfl)
  have h := h.step (.merge (w := 0) rfl rfl (by decide +kernel))
  have h := h.step (.lock (w := 1) (x := {}) repeatedEdge rfl rfl)
  have h := h.step (.add (w := 0) rfl rfl)
  have h := h.step (.merge (w := 1) rfl rfl (by decide +kernel))
  have h := h.step (.unlock (w := 0) rfl rfl)
  have h := h.step (.drain rfl)
  have h := h.step (.take rfl rfl rfl)
  have h : Reached 2 ⟨[{}, { builder := foldedEdge, fold := .added }],
      0 + UInt64.ofNat repeatedEdge.dedup_tables.2 + UInt64.ofNat repeatedEdge.dedup_tables.2,
      some ⟨1, [foldedEdge], 0 + UInt64.ofNat foldedEdge.delta_row_count⟩⟩ := by
    have h := h.step (.add (w := 1) rfl rfl)
    exact h
  rwa [hrows, hcount] at h

theorem halfDrained_settled : halfDrained.Settled := by
  intro x hx rows
  rcases List.mem_pair.mp hx with rfl | rfl
  · exact nofun
  · exact nofun

theorem drainedOnce_reached : Reached 2 drainedOnce := by
  have h := halfDrained_reached.step (.skip rfl (by decide))
  have h := h.step (.sub rfl rfl)
  have h := h.step (.unlock (w := 1) rfl rfl)
  exact h

theorem drainedOnce_settled : drainedOnce.Settled := by
  intro x hx rows
  rcases List.mem_pair.mp hx with rfl | rfl
  · exact nofun
  · exact nofun

/-- In the middle of the snapshot, and after it. -/
theorem gauge_exact_twoWorkers :
    (Reached 2 halfDrained ∧ 2 = halfDrained.sinkRows + halfDrained.drainedRows ∧
      1 = rowsOf [foldedEdge]) ∧
    Reached 2 drainedOnce ∧ 1 = drainedOnce.sinkRows := by
  obtain ⟨hsum, hdrain, -⟩ := gauge_exact 2 _ halfDrained_reached
  obtain ⟨-, -, hidle⟩ := gauge_exact 2 _ drainedOnce_reached
  exact ⟨⟨halfDrained_reached, hsum halfDrained_settled, (hdrain _ rfl).1⟩, drainedOnce_reached,
    hidle rfl drainedOnce_settled⟩

end Scry2.Gauge
