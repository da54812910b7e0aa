import Scry2.Gate
import Scry2.Fresh

/-!
# Checkpoints behind the gate

The steps of a run happen behind the gate: a worker indexes a unit while it is counted, and a snapshot is
taken by the worker that has raised the flag. A snapshot whose wait ended by the count finds every sink
free, so the shas that it records are all that are there to be recorded.
-/

open Scry2.Lib
open Std (ExtTreeMap)

namespace Scry2

variable {k : Kzip} {r r' : Run} {w n : Nat} {x y : Worker} {u : KzipUnit}

/-! ## Units that are accounted for -/

/-- The shas that a snapshot has taken from the sinks. -/
def Snap.listed : Snap → List String
  | .off => []
  | .drain _ shas => shas
  | .write _ _ staged _ => staged
  | .record _ staged => staged

def Run.Lists (r : Run) (x : Worker) (sha : String) : Prop :=
  sha ∈ x.sink.pending_shas ∨ sha ∈ r.snap.listed ∨ sha ∈ r.acc.committed_shas

/-- What `write_partial_shas` is about to write. -/
def Snap.Writes (committed : List String) : Snap → Prop
  | .write _ shas staged _ => ∀ s, s ∈ committed ∨ s ∈ staged → s ∈ shas
  | .record shas staged => ∀ s, s ∈ committed ∨ s ∈ staged → s ∈ shas
  | _ => True

/-- Worker `w` of `n` has been at the units `w`, `w + n`, … of the plan before its own place, and the sha of
each that succeeded is listed somewhere. -/
structure Run.Accounted (n : Nat) (r : Run) : Prop where
  size : r.workers.length = n
  cache : r.cache = none
  stripe : ∀ (w : Nat) (x : Worker), r.workers[w]? = some x → ∃ c, x.i = w + c * n
  passed : r.failed = true ∨ ∀ (w : Nat) (x : Worker), r.workers[w]? = some x → ∀ (c : Nat) (u : KzipUnit),
    w + c * n < x.i → r.plan[w + c * n]? = some u → u.succeeded = true → r.Lists x u.sha
  writes : r.snap.Writes r.acc.committed_shas

section

variable [Unicode]

omit [Unicode] in
theorem Run.Accounted.imp (h : r.Accounted n) (hworkers : r'.workers = r.workers) (hplan : r'.plan = r.plan)
    (hcache : r'.cache = r.cache) (hfailed : r.failed = true → r'.failed = true)
    (hlists : ∀ x ∈ r.workers, ∀ sha, r.Lists x sha → r'.Lists x sha) (hwrites : r'.snap.Writes r'.acc.committed_shas) :
    r'.Accounted n where
  size := hworkers ▸ h.size
  cache := hcache.trans h.cache
  stripe := hworkers ▸ h.stripe
  passed := by
    rw [hworkers, hplan]
    refine h.passed.imp hfailed fun hall w x hw c u hc hu hok => ?_
    exact hlists x (List.mem_of_getElem? hw) _ (hall w x hw c u hc hu hok)
  writes := hwrites

omit [Unicode] in
/-- A worker that stays at its place. -/
theorem Run.Accounted.setWorker (h : r.Accounted n) (hw : r.workers[w]? = some x) (hi : y.i = x.i)
    (hsink : y.sink.pending_shas = x.sink.pending_shas) : (r.setWorker w y).Accounted n where
  size := List.length_set.trans h.size
  cache := h.cache
  stripe v z hz := by
    rcases Threads.getElem?_set_cases hz with ⟨rfl, rfl⟩ | ⟨-, hv⟩
    · rw [hi]
      exact h.stripe v x hw
    · exact h.stripe v z hv
  passed := by
    refine h.passed.imp_right fun hall v z hz c u hc hu hok => ?_
    rcases Threads.getElem?_set_cases hz with ⟨rfl, rfl⟩ | ⟨-, hv⟩
    · have := hall v x hw c u (hi ▸ hc) hu hok
      unfold Run.Lists at this ⊢
      rwa [hsink]
    · exact hall v z hv c u hc hu hok
  writes := h.writes

omit [Unicode] in
/-- A worker that leaves its unit, with its sha when the unit succeeded. -/
theorem Run.Accounted.done (h : r.Accounted n) (hw : r.workers[w]? = some x) (hi : y.i = x.i)
    (hsink : ∀ sha ∈ x.sink.pending_shas, sha ∈ y.sink.pending_shas)
    (hhere : r.failed = true ∨ ∀ u, r.plan[x.i]? = some u → u.succeeded = true → u.sha ∈ y.sink.pending_shas) :
    (r.done w y).Accounted n where
  size := List.length_set.trans h.size
  cache := h.cache
  stripe v z hz := by
    rcases Threads.getElem?_set_cases hz with ⟨rfl, rfl⟩ | ⟨-, hv⟩
    · obtain ⟨c, hc⟩ := h.stripe v x hw
      refine ⟨c + 1, ?_⟩
      change y.i + r.workers.length = _
      rw [hi, hc, h.size, Nat.succ_mul, Nat.add_assoc]
    · exact h.stripe v z hv
  passed := by
    rcases h.passed with hf | hall
    · exact Or.inl hf
    refine hhere.imp_right fun hhere v z hz c u hc hu hok => ?_
    rcases Threads.getElem?_set_cases hz with ⟨rfl, rfl⟩ | ⟨-, hv⟩
    · obtain ⟨c', hc'⟩ := h.stripe v x hw
      change v + c * n < y.i + r.workers.length at hc
      rw [hi, hc', h.size, Nat.add_assoc, ← Nat.succ_mul] at hc
      rcases lt_or_ge (v + c * n) x.i with hlt | hge
      · rcases hall v x hw c u hlt hu hok with hp | hp | hp
        · exact Or.inl (hsink _ hp)
        · exact Or.inr (Or.inl hp)
        · exact Or.inr (Or.inr hp)
      · -- The unit that it leaves.
        have hcc : c = c' := by
          rw [hc'] at hge
          have h₁ : c' * n ≤ c * n := by omega
          have h₂ : c * n < c'.succ * n := by omega
          have hn : 0 < n := Nat.pos_of_ne_zero fun e => by simp [e] at h₂
          exact Nat.le_antisymm (Nat.le_of_lt_succ (Nat.lt_of_mul_lt_mul_right h₂)) (Nat.le_of_mul_le_mul_right h₁ hn)
        subst hcc
        exact Or.inl (hhere u (hc' ▸ hu) hok)
    · exact hall v z hv c u hc hu hok
  writes := h.writes

theorem Step.accounted (hst : Step r r') (h : r.Accounted n) : r'.Accounted n := by
  have hcached : ∀ {c : ShardCache}, r.cache ≠ some c := fun hc => by rw [h.cache] at hc; cases hc
  cases hst with
  | begin hw => exact h.setWorker hw rfl rfl
  | @intern w x path todo ids id a hw =>
    have hids : { r with file_ids := a }.Accounted n := { h with }
    exact hids.setWorker (x := x) hw rfl rfl
  | skip hw _ hu hfailed =>
    refine h.done hw rfl (fun _ hs => hs) (Or.inr fun v hv hok => ?_)
    cases hu.symm.trans hv
    rw [hfailed] at hok
    cases hok
  | lock _ hw => exact h.setWorker hw rfl rfl
  | fold hw => exact h.setWorker hw rfl rfl
  | push hw _ hu =>
    refine h.done hw rfl (fun _ hs => List.mem_append_left _ hs) (Or.inr fun v hv _ => ?_)
    cases hu.symm.trans hv
    exact List.mem_append_right _ List.mem_cons_self
  | snapshot _ hsnap =>
    refine h.imp rfl rfl rfl id (fun x _ sha hl => ?_) trivial
    unfold Run.Lists at hl
    rw [hsnap] at hl
    exact hl
  | @drain j shas x hsnap hw hfree =>
    have hlen : r.workers.length = n := h.size
    refine ⟨List.length_set.trans hlen, h.cache, fun v z hz => ?_, ?_, trivial⟩
    · rcases Threads.getElem?_set_cases hz with ⟨rfl, rfl⟩ | ⟨-, hv⟩
      · exact h.stripe v x hw
      · exact h.stripe v z hv
    · refine h.passed.imp_right fun hall v z hz c u hc hu hok => ?_
      have hmove : ∀ {x' : Worker}, r.Lists x' u.sha → (u.sha ∈ x'.sink.pending_shas → u.sha ∈ z.sink.pending_shas ∨
          u.sha ∈ shas ++ x.sink.pending_shas) → Run.Lists ({ r with
            acc := { r.acc with builder := r.acc.builder.merge_from x.sink.builder }
            snap := .drain (j + 1) (shas ++ x.sink.pending_shas) }.setWorker j { x with sink := {} }) z u.sha := by
        rintro x' (hl | hl | hl) hp
        · exact (hp hl).imp_right Or.inl
        · rw [hsnap] at hl
          exact Or.inr (Or.inl (List.mem_append_left _ hl))
        · exact Or.inr (Or.inr hl)
      rcases Threads.getElem?_set_cases hz with ⟨rfl, rfl⟩ | ⟨-, hv⟩
      · exact hmove (hall v x hw c u hc hu hok) fun hp => Or.inr (List.mem_append_right _ hp)
      · exact hmove (hall v z hv c u hc hu hok) Or.inl
  | pass hsnap =>
    refine h.imp rfl rfl rfl id (fun x _ sha hl => ?_) trivial
    unfold Run.Lists at hl
    rw [hsnap] at hl
    exact hl
  | stage hsnap =>
    refine h.imp rfl rfl rfl id (fun x _ sha hl => ?_) fun s hs => ?_
    · unfold Run.Lists at hl
      rw [hsnap] at hl
      exact hl
    · rw [List.mem_mergeSort, List.mem_append]
      exact hs
  | finish hsnap =>
    have hwrites := h.writes
    rw [hsnap] at hwrites
    refine h.imp rfl rfl rfl id (fun x _ sha hl => ?_) hwrites
    unfold Run.Lists at hl
    rw [hsnap] at hl
    exact hl
  | finishFailed => exact { h with passed := Or.inl rfl, writes := trivial }
  | record hsnap =>
    refine h.imp rfl rfl rfl id (fun x _ sha hl => ?_) trivial
    unfold Run.Lists at hl
    rw [hsnap] at hl
    rcases hl with hl | hl | hl
    · exact Or.inl hl
    · exact Or.inr (Or.inr (List.mem_append_right _ hl))
    · exact Or.inr (Or.inr (List.mem_append_left _ hl))
  | recordFailed hsnap =>
    refine h.imp rfl rfl rfl id (fun x _ sha hl => ?_) trivial
    unfold Run.Lists at hl
    rw [hsnap] at hl
    rcases hl with hl | hl | hl
    · exact Or.inl hl
    · exact Or.inr (Or.inr (List.mem_append_right _ hl))
    · exact Or.inr (Or.inr (List.mem_append_left _ hl))
  | hit _ _ _ hhit =>
    obtain ⟨c, -, hc, -⟩ := hhit
    exact absurd hc hcached
  | copyFailed _ _ _ hhit =>
    obtain ⟨c, -, hc, -⟩ := hhit
    exact absurd hc hcached
  | shard hc => exact absurd hc hcached
  | @shardFailed w x ids hw hphase =>
    have hfail : { r with failed := true, next_shard := r.next_shard + 1 }.Accounted n := { h with passed := Or.inl rfl }
    exact hfail.done (x := x) hw rfl (fun _ hs => hs) (Or.inl rfl)
  | coalesce hc => exact absurd hc hcached
  | promote => exact { h with }

/-! ## What a step does to the workers -/

/-- A worker stays at its place, or leaves its unit for the next. -/
theorem Step.worker (hst : Step r r') (hw : r.workers[w]? = some x) : ∃ y, r'.workers[w]? = some y ∧
    (y.i = x.i ∨ y.i = x.i + r.workers.length ∧ y.phase = .idle) := by
  have hset : ∀ {v : Nat} {z z' : Worker}, r.workers[v]? = some z →
      (z'.i = z.i ∨ z'.i = z.i + r.workers.length ∧ z'.phase = .idle) →
      ∃ y, (r.workers.set v z')[w]? = some y ∧ (y.i = x.i ∨ y.i = x.i + r.workers.length ∧ y.phase = .idle) := by
    intro v z z' hv hz
    by_cases hvw : v = w
    · subst hvw
      cases hw.symm.trans hv
      exact ⟨z', Threads.getElem?_set_own hw, hz⟩
    · exact ⟨x, (List.getElem?_set_ne hvw).trans hw, Or.inl rfl⟩
  have hsame : ∃ y, r.workers[w]? = some y ∧ (y.i = x.i ∨ y.i = x.i + r.workers.length ∧ y.phase = .idle) :=
    ⟨x, hw, Or.inl rfl⟩
  cases hst with
  | begin hv => exact hset hv (Or.inl rfl)
  | intern hv => exact hset hv (Or.inl rfl)
  | skip hv => exact hset hv (Or.inr ⟨rfl, rfl⟩)
  | lock _ hv => exact hset hv (Or.inl rfl)
  | fold hv => exact hset hv (Or.inl rfl)
  | push hv => exact hset hv (Or.inr ⟨rfl, rfl⟩)
  | drain _ hv => exact hset hv (Or.inl rfl)
  | hit hv => exact hset hv (Or.inr ⟨rfl, rfl⟩)
  | copyFailed hv => exact hset hv (Or.inl rfl)
  | shard _ hv => exact hset hv (Or.inr ⟨rfl, rfl⟩)
  | shardFailed hv => exact hset hv (Or.inr ⟨rfl, rfl⟩)
  | _ => exact hsame

/-- A step of a snapshot touches sinks only. -/
theorem Step.snap_worker (hst : Step r r') (hsnap : r'.snap ≠ r.snap) (hw : r.workers[w]? = some x) :
    ∃ y, r'.workers[w]? = some y ∧ y.i = x.i ∧ y.phase = x.phase := by
  cases hst with
  | @drain j shas z _ hv =>
    by_cases hvw : j = w
    · subst hvw
      cases hw.symm.trans hv
      exact ⟨_, Threads.getElem?_set_own hw, rfl, rfl⟩
    · exact ⟨x, (List.getElem?_set_ne hvw).trans hw, rfl, rfl⟩
  | snapshot => exact ⟨x, hw, rfl, rfl⟩
  | pass => exact ⟨x, hw, rfl, rfl⟩
  | stage => exact ⟨x, hw, rfl, rfl⟩
  | finish => exact ⟨x, hw, rfl, rfl⟩
  | finishFailed => exact ⟨x, hw, rfl, rfl⟩
  | record => exact ⟨x, hw, rfl, rfl⟩
  | recordFailed => exact ⟨x, hw, rfl, rfl⟩
  | _ => exact absurd rfl hsnap

/-! ## A run behind the gate -/

structure Gated where
  gate : Threads Gate Loop
  run : Run

/-- A step of worker `w` at its unit. -/
structure OwnStep (w : Nat) (r r' : Run) : Prop where
  step : Step r r'
  others : ∀ v, v ≠ w → r'.workers[v]? = r.workers[v]?
  snap : r'.snap = r.snap
  level : r'.level = r.level
  out : r'.out = r.out

/-- The worker is through the unit at `i`. -/
def Worker.Through (n i : Nat) (x : Worker) : Prop := x.i = i + n ∧ x.phase = .idle

/-- A worker passes the gate, is at its unit, or takes a snapshot. -/
inductive Gated.Step (n plan_len : Nat) : Gated → Gated → Prop
  /-- Nobody leaves a unit in order before it is through, nor a snapshot before it is over. -/
  | gate {s : Gated} {w : Nat} {c c' : Loop} {g : Gate} (hw : s.gate.locals[w]? = some c)
      (hm : Gate.Move n plan_len w s.gate.shared c g c')
      (hthrough : c.pc = .working → (∃ failure, c'.pc = .leaving (some failure)) ∨
        ∃ x, s.run.workers[w]? = some x ∧ x.Through n c.i)
      (hover : (∃ quiet, c.pc = .merging quiet) → c'.pc = .unlocking (some .panic) ∨ s.run.snap = .off) :
      Step n plan_len s { s with gate := ⟨g, s.gate.locals.set w c'⟩ }
  | unit {s : Gated} {w : Nat} {c : Loop} {x : Worker} {r : Run} (hw : s.gate.locals[w]? = some c)
      (hc : c.pc = .working) (hx : s.run.workers[w]? = some x) (hi : x.i = c.i) (hown : OwnStep w s.run r) :
      Step n plan_len s { s with run := r }
  | snap {s : Gated} {w : Nat} {c : Loop} {quiet : Bool} {r : Run} (hw : s.gate.locals[w]? = some c)
      (hc : c.pc = .merging quiet) (hst : Scry2.Step s.run r) (hsnap : r.snap ≠ s.run.snap) :
      Step n plan_len s { s with run := r }

inductive Gated.Runs (n plan_len : Nat) (s : Gated) : Gated → Prop
  | refl : Runs n plan_len s s
  | step {s' s'' : Gated} (h : Runs n plan_len s s') (hst : Step n plan_len s' s'') : Runs n plan_len s s''

/-- A worker behind the gate is at the place that the gate knows. -/
def Linked (n : Nat) (c : Loop) (x : Worker) : Prop :=
  match c.pc with
  | .opening | .head | .entering | .counted | .backing | .parked | .ended none => x.i = c.i ∧ x.phase = .idle
  | .working => x.i = c.i ∨ x.Through n c.i
  | .locked | .quiescing | .merging _ | .unlocking _ | .leaving none => x.Through n c.i
  | .leaving (some _) | .ended (some _) => True

/-- The snapshot has been at sink `v`. -/
def Snap.Past (v : Nat) : Snap → Prop
  | .off => False
  | .drain j _ => v < j
  | .write .. | .record .. => True

/-- The worker did not fail. -/
def Loop.Alive (c : Loop) : Prop := ∀ failure, c.pc ≠ .ended (some failure)

/-- Snapshots are taken behind the flag, and one that waited in quiet passes by no sink. -/
structure Gated.Inv (n : Nat) (s : Gated) : Prop where
  gate : Gate.Sound s.gate
  size : s.gate.locals.length = n
  accounted : s.run.Accounted n
  linked : ∀ (w : Nat) (c : Loop) (x : Worker), s.gate.locals[w]? = some c → s.run.workers[w]? = some x → Linked n c x
  snapping : s.run.snap ≠ .off → s.gate.shared.snap_writer_mu = .poisoned ∨ ∃ (w : Nat) (c : Loop),
    s.gate.locals[w]? = some c ∧ ((∃ quiet, c.pc = .merging quiet) ∨ c.pc = .unlocking (some .panic))
  drained : ∀ (w : Nat) (c : Loop), s.gate.locals[w]? = some c → c.pc = .merging true →
    ∀ (v : Nat) (c' : Loop) (x : Worker), s.gate.locals[v]? = some c' → c'.Alive → s.run.workers[v]? = some x →
      s.run.snap.Past v → x.sink = {}

variable {s s' : Gated} {plan_len : Nat} {c c' : Loop}

omit [Unicode] in
theorem Linked.move {g g' : Gate} (hm : Gate.Move n plan_len w g c g' c') (h : Linked n c x)
    (hthrough : c.pc = .working → (∃ failure, c'.pc = .leaving (some failure)) ∨ x.Through n c.i) : Linked n c' x := by
  cases hm with
  | pass => exact Or.inl h.1
  | leave failure =>
    cases failure with
    | none => exact (hthrough rfl).resolve_left nofun
    | some failure => trivial
  | lock => exact (hthrough rfl).resolve_left nofun
  | unlock =>
    rename_i i failure
    cases failure with
    | none => exact h
    | some failure => trivial
  | fail => trivial
  | openFailed => trivial
  | _ => exact h

omit [Unicode] in
theorem Linked.congr (h : Linked n c x) (hi : y.i = x.i) (hphase : y.phase = x.phase) : Linked n c y := by
  unfold Linked Worker.Through at h ⊢
  rwa [hi, hphase]

omit [Unicode] in
theorem Linked.idle (h : Linked n c x) (halive : c.Alive) (hc : c.pc.Calm ∨ c.pc = .merging true) : x.phase = .idle := by
  obtain ⟨i, pc⟩ := c
  unfold Linked at h
  cases pc with
  | ended failure =>
    cases failure with
    | none => exact h.2
    | some failure => exact absurd rfl (halive failure)
  | leaving => exact (hc.resolve_right nofun).elim
  | working => exact (hc.resolve_right nofun).elim
  | _ => exact h.2

omit [Unicode] in
theorem Gate.Move.alive {g g' : Gate} (hm : Gate.Move n plan_len w g c g' c') : c.Alive := by
  intro failure hc
  cases hm <;> cases hc

omit [Unicode] in
/-- Once poisoned, always poisoned: nobody holds the lock any more. -/
theorem Gate.Move.poisoned {g g' : Gate} (hm : Gate.Move n plan_len w g c g' c') (hc : c.pc.Holds ↔ g.owner = some w)
    (hp : g.snap_writer_mu = .poisoned) : g'.snap_writer_mu = .poisoned := by
  cases hm with
  | lock h => rw [hp] at h; cases h
  | unlock =>
    have ho := hc.mp trivial
    rw [Gate.owner, hp] at ho
    cases ho
  | _ => exact hp

omit [Unicode] in
/-- Whoever has just raised the flag finds no snapshot on its way. -/
theorem Gated.Inv.idle_of_quiescing (h : s.Inv n) (hw : s.gate.locals[w]? = some c) (hc : c.pc = .quiescing) :
    s.run.snap = .off := by
  by_contra hne
  have hholds : c.pc.Holds := by rw [hc]; trivial
  rcases h.snapping hne with hp | ⟨v, d, hv, hd⟩
  · have ho := (h.gate.owned.holds_iff hw).mp hholds
    rw [Gate.owner, hp] at ho
    cases ho
  · have hdh : d.pc.Holds := by
      rcases hd with ⟨quiet, hd⟩ | hd
      · rw [hd]; trivial
      · rw [hd]; trivial
    have hvw := h.gate.owned.unique hw hholds hv hdh
    subst hvw
    cases hw.symm.trans hv
    rw [hc] at hd
    simp at hd

omit [Unicode] in
theorem Gated.Inv.gateStep (hlen : n < 2 ^ 64) (h : s.Inv n) {g : Gate} (hw : s.gate.locals[w]? = some c)
    (hm : Gate.Move n plan_len w s.gate.shared c g c')
    (hthrough : c.pc = .working → (∃ failure, c'.pc = .leaving (some failure)) ∨
      ∃ x, s.run.workers[w]? = some x ∧ x.Through n c.i)
    (hover : (∃ quiet, c.pc = .merging quiet) → c'.pc = .unlocking (some .panic) ∨ s.run.snap = .off) :
    Gated.Inv n { s with gate := ⟨g, s.gate.locals.set w c'⟩ } where
  gate := h.gate.step (h.size.trans_lt hlen) (.move hw hm)
  size := List.length_set.trans h.size
  accounted := h.accounted
  linked v d x hd hx := by
    rcases Threads.getElem?_set_cases hd with ⟨rfl, rfl⟩ | ⟨-, hv⟩
    · refine (h.linked v c x hw hx).move hm fun hc => (hthrough hc).imp_right ?_
      rintro ⟨y, hy, ht⟩
      cases hx.symm.trans hy
      exact ht
    · exact h.linked v d x hv hx
  snapping hne := by
    rcases h.snapping hne with hp | ⟨v, d, hv, hd⟩
    · exact Or.inl (hm.poisoned (h.gate.owned.holds_iff hw) hp)
    · by_cases hvw : v = w
      · subst hvw
        cases hw.symm.trans hv
        rcases hd with hmerge | hpanic
        · have hc' := (hover hmerge).resolve_right hne
          exact Or.inr ⟨v, c', Threads.getElem?_set_own hw, Or.inr hc'⟩
        · refine Or.inl ?_
          cases hm <;> cases hpanic
          rfl
      · exact Or.inr ⟨v, d, (List.getElem?_set_ne (Ne.symm hvw)).trans hv, hd⟩
  drained v d hd hquiet v' d' x hd' halive hx hpast := by
    have hoff : ∀ {v : Nat}, s.run.snap = .off → ¬ s.run.snap.Past v := fun hs hp => by
      rw [hs] at hp
      exact hp
    rcases Threads.getElem?_set_cases hd with ⟨rfl, rfl⟩ | ⟨-, hv⟩
    · have hq : c.pc = .quiescing := by
        cases hm with
        | quiet => rfl
        | _ => cases hquiet
      exact absurd hpast (hoff (h.idle_of_quiescing hw hq))
    · rcases Threads.getElem?_set_cases hd' with ⟨rfl, rfl⟩ | ⟨-, hv'⟩
      · exact h.drained v d hv hquiet v' c x hw hm.alive hx hpast
      · exact h.drained v d hv hquiet v' d' x hv' halive hx hpast

omit [Unicode] in
/-- Only the worker itself is at a unit while it merges in quiet. -/
theorem Gated.Inv.not_working (h : s.Inv n) {v : Nat} (hw : s.gate.locals[w]? = some c) (hc : c.pc = .working)
    (hv : s.gate.locals[v]? = some c') (hquiet : c'.pc = .merging true) : False := by
  have hvw : w ≠ v := by
    rintro rfl
    cases hw.symm.trans hv
    rw [hc] at hquiet
    cases hquiet
  have hcalm := h.gate.quiet v c' hv hquiet w c hvw hw
  rw [hc] at hcalm
  exact hcalm

theorem Gated.Inv.unitStep (h : s.Inv n) (hw : s.gate.locals[w]? = some c) (hc : c.pc = .working)
    (hx : s.run.workers[w]? = some x) (hi : x.i = c.i) (hown : OwnStep w s.run r) :
    Gated.Inv n { s with run := r } where
  gate := h.gate
  size := h.size
  accounted := hown.step.accounted h.accounted
  linked v d y hd hy := by
    by_cases hvw : v = w
    · subst hvw
      cases hw.symm.trans hd
      obtain ⟨z, hz, hplace⟩ := hown.step.worker hx
      cases hy.symm.trans hz
      rw [h.accounted.size, hi] at hplace
      unfold Linked
      rw [hc]
      exact hplace
    · exact h.linked v d y hd ((hown.others v hvw).symm.trans hy)
  snapping hne := h.snapping (hown.snap ▸ hne)
  drained v d hd hquiet := absurd hquiet fun hq => h.not_working hw hc hd hq

theorem Gated.Inv.snapStep (h : s.Inv n) {quiet : Bool} (hw : s.gate.locals[w]? = some c) (hc : c.pc = .merging quiet)
    (hst : Scry2.Step s.run r) (hsnap : r.snap ≠ s.run.snap) : Gated.Inv n { s with run := r } where
  gate := h.gate
  size := h.size
  accounted := hst.accounted h.accounted
  linked v d y hd hy := by
    have hlen : v < s.run.workers.length := by
      rw [h.accounted.size, ← (hst.accounted h.accounted).size]
      exact (List.getElem?_eq_some_iff.mp hy).1
    obtain ⟨z, hz, hi, hphase⟩ := hst.snap_worker hsnap (List.getElem?_eq_getElem hlen)
    cases hy.symm.trans hz
    exact (h.linked v d _ hd (List.getElem?_eq_getElem hlen)).congr hi hphase
  snapping _ := Or.inr ⟨w, c, hw, Or.inl ⟨quiet, hc⟩⟩
  drained v d hd hquiet v' d' x hd' halive hx hpast := by
    have hold := h.drained v d hd hquiet v' d'
    cases hst with
    | snapshot => exact absurd hpast (Nat.not_lt_zero v')
    | @drain j shas z hs hz =>
      rcases Threads.getElem?_set_cases hx with ⟨rfl, rfl⟩ | ⟨hne, hv⟩
      · rfl
      · have hlt : v' < j := lt_of_le_of_ne (Nat.le_of_lt_succ hpast) hne
        exact hold x hd' halive hv (by rw [hs]; exact hlt)
    | @pass j shas z hs hz hbusy =>
      rcases Nat.lt_succ_iff_lt_or_eq.mp hpast with hlt | rfl
      · exact hold x hd' halive hx (by rw [hs]; exact hlt)
      · -- A sink that could not be had belongs to a worker that is at a unit.
        cases hx.symm.trans hz
        have hplace : d'.pc.Calm ∨ d'.pc = .merging true := by
          by_cases hvv : v' = v
          · subst hvv
            cases hd.symm.trans hd'
            exact Or.inr hquiet
          · exact Or.inl (h.gate.quiet v d hd hquiet v' d' hvv hd')
        have hidle := (h.linked v' d' x hd' hx).idle halive hplace
        rw [Worker.busy, hidle] at hbusy
        cases hbusy
    | stage hs => exact hold x hd' halive hx (by rw [hs]; exact (List.getElem?_eq_some_iff.mp hx).1)
    | finish hs => exact hold x hd' halive hx (by rw [hs]; trivial)
    | finishFailed => exact hpast.elim
    | record => exact hpast.elim
    | recordFailed => exact hpast.elim
    | _ => exact absurd rfl hsnap

theorem Gated.Step.inv (hlen : n < 2 ^ 64) (hst : Gated.Step n plan_len s s') (h : s.Inv n) : s'.Inv n := by
  cases hst with
  | gate hw hm hthrough hover => exact h.gateStep hlen hw hm hthrough hover
  | unit hw hc hx hi hown => exact h.unitStep hw hc hx hi hown
  | snap hw hc hst hsnap => exact h.snapStep hw hc hst hsnap

theorem Gated.Runs.inv (hlen : n < 2 ^ 64) (hr : Gated.Runs n plan_len s s') (h : s.Inv n) : s'.Inv n := by
  induction hr with
  | refl => exact h
  | step _ hst ih => exact hst.inv hlen ih

/-- A run behind the gate is a run. -/
theorem Gated.Runs.reaches (hr : Gated.Runs n plan_len s s') : Reaches s.run s'.run := by
  induction hr with
  | refl => exact .refl
  | step _ hst ih =>
    cases hst with
    | gate => exact ih
    | unit _ _ _ _ hown => exact ih.step hown.step
    | snap _ _ hst => exact ih.step hst

/-! ## Quiet checkpoints -/

def Gated.start (n : Nat) (r : Run) : Gated where
  gate := Gate.spawned n
  run := r

variable {args args' : Args} {d : Dir} {r₀ r₁ : Run}

omit [Unicode] in
theorem Gated.inv_start (hcache : args.cache = none) (hlaunch : launch args k d = .ok r₀) :
    (Gated.start args.workers r₀).Inv args.workers := by
  obtain ⟨done, ids, -, -, rfl⟩ := launch_eq_ok hlaunch
  have hlen : (startRun args k d done ids).workers.length = args.workers := by simp [startRun]
  have hworker : ∀ (w : Nat) (x : Worker), (startRun args k d done ids).workers[w]? = some x → x = { i := w } := by
    intro w x hx
    have hw := (List.getElem?_eq_some_iff.mp hx).1
    rw [hlen] at hw
    unfold startRun at hx
    rw [List.getElem?_map, List.getElem?_range hw] at hx
    exact (Option.some.inj hx).symm
  have hloop : ∀ (w : Nat) (c : Loop), (Gate.spawned args.workers).locals[w]? = some c → c = { i := w } := by
    intro w c hc
    have hw := (List.getElem?_eq_some_iff.mp hc).1
    rw [Gate.length_spawned] at hw
    unfold Gate.spawned at hc
    rw [List.getElem?_map, List.getElem?_range hw] at hc
    exact (Option.some.inj hc).symm
  refine ⟨Gate.sound_spawned _, Gate.length_spawned _, ⟨hlen, ?_, fun w x hx => ⟨0, ?_⟩, Or.inr ?_, trivial⟩, ?_, fun hne => absurd rfl hne, ?_⟩
  · unfold Gated.start startRun
    rw [hcache]
    exact ite_self none
  · rw [hworker w x hx, Nat.zero_mul, Nat.add_zero]
  · intro w x hx c u hlt
    rw [hworker w x hx] at hlt
    exact absurd hlt (by dsimp only; omega)
  · intro w c x hc hx
    rw [hloop w c hc, hworker w x hx]
    exact ⟨rfl, rfl⟩
  · intro w c hc hquiet
    rw [hloop w c hc] at hquiet
    cases hquiet

omit [Unicode] in
/-- What a resume finds recorded it does not plan again. -/
theorem recorded_not_planned {shas : List String} (hshas : ∀ s ∈ shas, IsWord s) (hresume : args'.resume = true)
    (hlaunch : launch args' k { d with shas := some (shasText shas) } = .ok r₁) (hu : u.sha ∈ shas) : u ∉ r₁.plan := by
  obtain ⟨done, ids, hdone, -, rfl⟩ := launch_eq_ok hlaunch
  have hread : done = shas := by
    have hshas := readShas_shasText hshas
    unfold Args.done_shas Dir.done_shas at hdone
    rw [hresume, if_pos rfl] at hdone
    dsimp only at hdone
    cases hbase : d.base with
    | some b =>
      rw [hbase] at hdone
      exact (Except.ok.inj hdone).symm.trans hshas
    | none =>
      rw [hbase] at hdone
      dsimp only at hdone
      split_ifs at hdone
      exact (Except.ok.inj hdone).symm.trans hshas
  intro hmem
  obtain ⟨-, hnot⟩ := List.mem_filter.mp hmem
  rw [hread] at hnot
  simp [hu] at hnot

/-- When a snapshot that waited until the count was one is about to record its shas, every worker that did
not fail stands between two units, and a resume plans none of the units that succeeded before. -/
theorem quiet_checkpoint {shas staged : List String} (hlen : args.workers < 2 ^ 64) (hmachine : Reached k (.down d))
    (hcache : args.cache = none) (hmode : args.resume = true ∨ d.Clean) (hlaunch : launch args k d = .ok r₀)
    (hr : Gated.Runs args.workers r₀.plan.length (Gated.start args.workers r₀) s)
    (hw : s.gate.locals[w]? = some c) (hquiet : c.pc = .merging true) (hsnap : s.run.snap = .record shas staged)
    (hok : s.run.failed = false) (hresume : args'.resume = true)
    (hnext : launch args' k { s.run.dir with shas := some (shasText shas) } = .ok r₁) :
    ∀ (v : Nat) (c' : Loop) (x : Worker), s.gate.locals[v]? = some c' → c'.Alive → s.run.workers[v]? = some x →
      x.phase = .idle ∧ ∀ (i : Nat) (u : KzipUnit), v + i * args.workers < x.i →
        s.run.plan[v + i * args.workers]? = some u → u.succeeded = true → u ∉ r₁.plan := by
  have h := hr.inv hlen (Gated.inv_start hcache hlaunch)
  have hreached := hr.reaches.reached (.launch hmachine hcache hmode hlaunch)
  obtain ⟨N, hinv, -⟩ := hreached.inv (closed_known k.units)
  have hwords : ∀ s ∈ shas, IsWord s := by
    have hs := hinv.snap
    rw [hsnap] at hs
    exact hs.1.words
  have hwrites := h.accounted.writes
  rw [hsnap] at hwrites
  intro v c' x hv halive hx
  have hplace : c'.pc.Calm ∨ c'.pc = .merging true := by
    by_cases hvw : v = w
    · subst hvw
      cases hw.symm.trans hv
      exact Or.inr hquiet
    · exact Or.inl (h.gate.quiet w c hw hquiet v c' hvw hv)
  refine ⟨(h.linked v c' x hv hx).idle halive hplace, fun i u hlt hu hsucc => ?_⟩
  have hlisted := h.accounted.passed.resolve_left (by simp [hok]) v x hx i u hlt hu hsucc
  have hsink := h.drained w c hw hquiet v c' x hv halive hx (by rw [hsnap]; trivial)
  refine recorded_not_planned hwords hresume hnext (hwrites u.sha ?_)
  unfold Run.Lists at hlisted
  rw [hsink, hsnap] at hlisted
  rcases hlisted with hl | hl | hl
  · cases hl
  · exact Or.inr hl
  · exact Or.inl hl

theorem OwnStep.single (hst : Scry2.Step r r') (hx : r.workers = [x]) (hy : r'.workers = [y]) (hsnap : r'.snap = r.snap)
    (hlevel : r'.level = r.level) (hout : r'.out = r.out) : OwnStep 0 r r' := by
  refine ⟨hst, fun v hv => ?_, hsnap, hlevel, hout⟩
  obtain ⟨v, rfl⟩ := Nat.exists_eq_succ_of_ne_zero hv
  rw [hx, hy]
  rfl

end

/-! A single worker takes a snapshot after its only unit. -/

section

attribute [local instance] asciiUnicode

abbrev edgeStart : Run := startRun (oneWorker false) edgeKzip {} [] {}

theorem edge_passes_gate : Gated.Runs 1 1 (Gated.start 1 edgeStart)
    ⟨⟨{ active_cus := 1 }, [⟨0, .working⟩]⟩, edgeStart⟩ := by
  have hr : Gated.Runs 1 1 (Gated.start 1 edgeStart) (Gated.start 1 edgeStart) := .refl
  have hr := hr.step (.gate (w := 0) rfl .opened nofun nofun)
  have hr := hr.step (.gate (w := 0) rfl (.next Nat.one_pos) nofun nofun)
  have hr := hr.step (.gate (w := 0) rfl .count nofun nofun)
  exact hr.step (.gate (w := 0) rfl (.pass rfl) nofun nofun)

/-- The unit is through, and the worker holds the flag alone. -/
theorem edge_quiesces : Gated.Runs 1 1 (Gated.start 1 edgeStart)
    ⟨⟨⟨1, true, .held 0⟩, [⟨0, .merging true⟩]⟩, edgeStart.afterUnit { i := 0 } edgeUnit⟩ := by
  have hr := edge_passes_gate
  have hmiss : ∀ f, ¬ edgeStart.cached edgeUnit f := by
    rintro f ⟨cache, ix, hc, -⟩
    cases hc
  have hr := hr.step (.unit (w := 0) rfl rfl rfl rfl (.single (.begin (w := 0) rfl rfl rfl hmiss) rfl rfl rfl rfl rfl))
  have hr := hr.step (.unit (w := 0) rfl rfl rfl rfl (.single (.lock (w := 0) rfl rfl rfl rfl rfl) rfl rfl rfl rfl rfl))
  have hr := hr.step (.unit (w := 0) rfl rfl rfl rfl (.single (.fold (w := 0) rfl rfl) rfl rfl rfl rfl rfl))
  have hr := hr.step (.unit (w := 0) rfl rfl rfl rfl (.single (.push (w := 0) rfl rfl rfl) rfl rfl rfl rfl rfl))
  have hr := hr.step (.gate (w := 0) rfl (.lock rfl) (fun _ => Or.inr ⟨_, rfl, rfl, rfl⟩) nofun)
  have hr := hr.step (.gate (w := 0) rfl .raise nofun nofun)
  exact hr.step (.gate (w := 0) rfl (.quiet le_rfl) nofun nofun)

def edgeShas : List String := (([] : List String) ++ ["a"]).mergeSort fun s t => as_bytes s ≤ as_bytes t

/-- The shard is written, its shas are not. -/
def edgeRecords (f : Bytes) : Run :=
  { edgeStart with
    workers := [{ i := 1 }]
    next_shard := 1
    dir := { shards := (∅ : ExtTreeMap Nat Bytes).insert 0 f }
    snap := .record edgeShas ["a"] }

theorem edge_records : ∃ f, FileHolds f edgeUnit.tables.facts.written ∧ Gated.Runs 1 1 (Gated.start 1 edgeStart)
    ⟨⟨⟨1, true, .held 0⟩, [⟨0, .merging true⟩]⟩, edgeRecords f⟩ := by
  have hfacts : (({} : FileIdAllocator).push_to (IndexBuilder.new.merge_from
      (({ i := 0 } : Worker).after edgeUnit).sink.builder)).facts = edgeUnit.tables.facts := by
    rw [FileIdAllocator.facts_push_to_unmarked unmarked_new, IndexBuilder.facts_merge_from, edge_sink]
  obtain ⟨f, hf, hholds⟩ := IndexBuilder.finish_of_sparse (hfacts.symm ▸ edgeUnit_sparse.tables) (by decide)
  have hr := edge_quiesces
  have hr := hr.step (.snap (w := 0) rfl rfl (.snapshot rfl rfl rfl) nofun)
  have hr := hr.step (.snap (w := 0) rfl rfl (.drain rfl rfl rfl) nofun)
  have hr := hr.step (.snap (w := 0) rfl rfl (.stage rfl) nofun)
  exact ⟨f, hfacts ▸ hholds, hr.step (.snap (w := 0) rfl rfl (.finish rfl hf) nofun)⟩

/-- What is on disk when the run is killed right after the snapshot. -/
def edgeDir (f : Bytes) : Dir where
  shards := (∅ : ExtTreeMap Nat Bytes).insert 0 f
  shas := some (shasText edgeShas)

theorem edge_resume {f : Bytes} (h : FileHolds f edgeUnit.tables.facts.written) :
    ∃ r₁, launch (oneWorker true) edgeKzip (edgeDir f) = .ok r₁ := by
  have hshards : (edgeDir f).list_partial_shards = [f] := list_partial_shards_single rfl
  have hsingle : edgeShas = ["a"] := List.mergeSort_singleton "a"
  have hdone : (edgeDir f).done_shas "out.s2db" = .ok edgeShas := by
    have hread : readShas (shasText edgeShas) = edgeShas := by
      rw [hsingle]
      exact readShas_shasText (List.forall_mem_singleton.mpr isWord_letters.1)
    unfold Dir.done_shas
    simp only [hshards]
    change (if 1 = 0 then _ else Except.ok (readShas (shasText edgeShas))) = _
    rw [if_neg Nat.one_ne_zero, hread]
  refine ⟨_, launch_resume (List.cons_ne_nil _ _) rfl hdone ?_⟩
  unfold Dir.sources
  rw [hshards]
  exact List.forall_mem_singleton.mpr ⟨_, h, edgeUnit_sparse.tables.written.files⟩

theorem quiet_checkpoint_edge : ∃ f r₁, Gated.Runs 1 1 (Gated.start 1 edgeStart)
      ⟨⟨⟨1, true, .held 0⟩, [⟨0, .merging true⟩]⟩, edgeRecords f⟩ ∧
    launch (oneWorker true) edgeKzip (edgeDir f) = .ok r₁ ∧ edgeUnit ∉ r₁.plan := by
  obtain ⟨f, hholds, hr⟩ := edge_records
  obtain ⟨r₁, hlaunch⟩ := edge_resume hholds
  have hclean : ({} : Dir).Clean := ⟨rfl, rfl, rfl⟩
  have hall := quiet_checkpoint (by decide) (.clean hclean) rfl (Or.inr hclean) edge_launch hr (w := 0) rfl rfl rfl rfl
    rfl hlaunch
  exact ⟨f, r₁, hr, hlaunch, (hall 0 _ _ rfl nofun rfl).2 0 edgeUnit Nat.one_pos rfl rfl⟩

end

end Scry2
