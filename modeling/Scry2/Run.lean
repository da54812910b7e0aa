import Scry2.Coalesce
import Scry2.Provenance

/-!
# A `from-kzip` run

`cmd_from_kzip` of `main.rs` as a transition system: the workers, the snapshotter, the files that
both leave beside the output, and how a later run starts from them. Every file is written to a
temporary name and renamed, so a crash leaves it whole or not there.
-/

open Scry2.Lib
open Std (ExtTreeMap)

namespace Scry2

/-! ## The checkpoint of finished units -/

/-- `write_partial_shas`: one sha per line. -/
def shasText (shas : List String) : String := String.join (shas.map (· ++ "\n"))

/-- One line as `--resume` reads it: trimmed, and ignored when nothing is left. A `\r` that `lines`
would drop is white space too. -/
def shaOfLine (line : List Char) : Option String :=
  if trim (String.ofList line) = [] then none else some (String.ofList (trim (String.ofList line)))

def readShas (text : String) : List String := (text.toList.splitOn '\n').filterMap shaOfLine

/-- Not empty and without white space, as a hex digest is. -/
def IsWord (s : String) : Prop := s ≠ "" ∧ ∀ c ∈ s.toList, is_whitespace c = false

instance (s : String) : Decidable (IsWord s) := inferInstanceAs (Decidable (_ ∧ _))

theorem trim_of_isWord {s : String} (h : IsWord s) : trim s = s.toList := by
  have hdrop : ∀ l : List Char, (∀ c ∈ l, is_whitespace c = false) → l.dropWhile is_whitespace = l := by
    intro l hl
    cases l with
    | nil => rfl
    | cons c l => rw [List.dropWhile_cons_of_neg (by simp [hl c List.mem_cons_self])]
  unfold trim
  rw [hdrop _ h.2, hdrop _ fun c hc => h.2 c (List.mem_reverse.mp hc), List.reverse_reverse]

theorem shaOfLine_of_isWord {s : String} (h : IsWord s) : shaOfLine s.toList = some s := by
  unfold shaOfLine
  rw [String.ofList_toList, trim_of_isWord h, String.ofList_toList, if_neg]
  exact fun e => h.1 (String.toList_eq_nil_iff.mp e)

theorem readShas_shasText {shas : List String} (h : ∀ s ∈ shas, IsWord s) :
    readShas (shasText shas) = shas := by
  have hnl : is_whitespace '\n' = true := by decide
  have key : (shasText shas).toList = shas.flatMap fun s => s.toList ++ ['\n'] := by
    unfold shasText
    simp [List.flatMap_map]
  unfold readShas
  rw [key]
  clear key
  induction shas with
  | nil => decide
  | cons s shas ih =>
    have hs := h s List.mem_cons_self
    have hmem : '\n' ∉ s.toList := fun hm => by
      have := hs.2 _ hm
      rw [hnl] at this
      cases this
    rw [List.flatMap_cons, List.append_assoc, List.singleton_append, List.splitOn_append_cons_self,
      List.splitOn_eq_singleton hmem, List.singleton_append,
      List.filterMap_cons_some (shaOfLine_of_isWord hs), ih fun t ht => h t (List.mem_cons_of_mem _ ht)]

/-! ## The files beside the output -/

def partial_s2db_for (out : String) : String := out ++ ".partial.s2db"

def partial_shas_for (out : String) : String := out ++ ".partial.shas"

/-- The partial files of one `--out`. `base` is written by no run; older versions left it. -/
structure Dir where
  base : Option Bytes := none
  shas : Option String := none
  shards : ExtTreeMap Nat Bytes := ∅

namespace Dir

/-- In the order of their numbers. -/
def list_partial_shards (d : Dir) : List Bytes := d.shards.toList.map Prod.snd

def next_shard_index (d : Dir) : Nat := (d.shards.toList.map Prod.fst).max?.elim 0 (· + 1)

/-- The base and the shards. -/
def sources (d : Dir) : List Bytes := d.base.toList ++ d.list_partial_shards

/-- `done_shas` of a resumed run, by which of the files are there. -/
def done_shas (d : Dir) (out : String) : Res (List String) :=
  let n_shards := d.list_partial_shards.length
  match d.base, d.shas with
  | some _, some text => .ok (readShas text)
  | none, none =>
    if n_shards > 0 then
      .error (.err s!"--resume: found {n_shards} delta shard(s) but no {partial_shas_for out} — cannot determine durable CUs; discard shards and restart")
    else .ok []
  | none, some text =>
    if n_shards = 0 then
      .error (.err s!"--resume: {partial_shas_for out} present but no base partial and no delta shards — no durable CU data to resume from")
    else .ok (readShas text)
  | some _, none =>
    .error (.err s!"--resume: base partial {partial_s2db_for out} present but {partial_shas_for out} absent — aborted snapshot; discard the partial and restart")

end Dir

/-! ## The state of a run -/

/-- The planned units, their names distinct digests, and the candidate paths in order. -/
structure Kzip where
  units : List KzipUnit
  seed_paths : List String
  shas_nodup : (units.map KzipUnit.sha).Nodup
  shas_word : ∀ u ∈ units, IsWord u.sha
  seed_sorted : seed_paths.Pairwise fun p q => as_bytes p < as_bytes q

structure WorkerSink where
  builder : IndexBuilder := .new
  pending_shas : List String := []

/-- Where a worker is in the loop over its units. It holds its sink's lock from `folding` until the
sha is pushed. -/
inductive Phase where
  | idle
  | ingest (todo : List String) (ids : List (String × UInt32))
  | folding (cu_builder : IndexBuilder)
  | merged

structure Worker where
  i : Nat
  phase : Phase := .idle
  sink : WorkerSink := {}

/-- What `try_lock` on the sink sees. -/
def Worker.busy (x : Worker) : Bool :=
  match x.phase with
  | .folding _ | .merged => true
  | _ => false

structure Accumulator where
  builder : IndexBuilder := .new
  committed_shas : List String := []

/-- Where the snapshotter is: at sink `j`, before `finish`, before `write_partial_shas`. -/
inductive Snap where
  | off
  | drain (j : Nat) (drained_shas : List String)
  | write (delta : IndexBuilder) (shas staged_shas : List String) (shard_idx : Nat)
  | record (shas staged_shas : List String)

/-- Shards by content digest. -/
abbrev ShardCache := ExtTreeMap String Bytes

structure Run where
  plan : List KzipUnit
  seed_paths : List String
  workers : List Worker
  dir : Dir
  cache : Option ShardCache
  file_ids : FileIdAllocator
  acc : Accumulator
  next_shard : Nat
  snap : Snap := .off
  /-- A thread returned an error: the others go on, but nothing is promoted. -/
  failed : Bool := false
  /-- The coalesced shards of a cached run. -/
  level : Option (List Bytes) := none
  /-- The promoted output. -/
  out : Option Bytes := none

/-! ## Starting -/

structure Args where
  out : String
  resume : Bool
  workers : Nat
  cache : Option ShardCache
  workers_pos : 0 < workers

/-- `seed_from` on one file; a file that does not open is passed over. -/
def seedSource (a : FileIdAllocator) (f : Bytes) : Res FileIdAllocator :=
  match open_index f with
  | .error _ => .ok a
  | .ok ix => do
    let rows ← ix.iter_files
    match a.seed_from rows with
    | some a' => .ok a'
    | none => .error .panic

/-- A resumed run continues the ids of its files, any other takes the ranks of the paths. -/
def Args.file_ids (args : Args) (k : Kzip) (d : Dir) : Res FileIdAllocator :=
  if args.resume then d.sources.foldlM seedSource {}
  else match FileIdAllocator.seed_paths {} k.seed_paths with
    | some a => .ok a
    | none => .error .panic

def Args.done_shas (args : Args) (d : Dir) : Res (List String) :=
  if args.resume then d.done_shas args.out else .ok []

/-- The state when the workers start. The cache is never used on a resume. -/
def startRun (args : Args) (k : Kzip) (d : Dir) (done : List String) (ids : FileIdAllocator) : Run where
  plan := k.units.filter fun u => u.sha ∉ done
  seed_paths := k.seed_paths
  workers := (List.range args.workers).map fun w => { i := w }
  dir := d
  cache := if args.resume then none else args.cache
  file_ids := ids
  acc := { committed_shas := done }
  next_shard := d.next_shard_index

def launch (args : Args) (k : Kzip) (d : Dir) : Res Run :=
  if k.units = [] then .error (.err "from-kzip: nothing to index after filters")
  else do
    let done ← args.done_shas d
    let ids ← args.file_ids k d
    return startRun args k d done ids

theorem launch_eq_ok {args : Args} {k : Kzip} {d : Dir} {r : Run} (h : launch args k d = .ok r) :
    ∃ done ids, args.done_shas d = .ok done ∧ args.file_ids k d = .ok ids ∧
      r = startRun args k d done ids := by
  unfold launch at h
  split_ifs at h
  cases hdone : args.done_shas d with
  | error e => rw [hdone] at h; cases h
  | ok done =>
    rw [hdone, Res.ok_bind] at h
    cases hids : args.file_ids k d with
    | error e => rw [hids] at h; cases h
    | ok ids =>
      rw [hids, Res.ok_bind] at h
      cases h
      exact ⟨done, ids, rfl, rfl, rfl⟩

/-! ## The final merge -/

def COALESCE_GROUP : Nat := 64

section

variable [Unicode]

namespace Run

/-- What the workers and the snapshotter still hold in memory. -/
def final_delta (r : Run) : IndexBuilder :=
  r.workers.foldl (fun b x => b.merge_from x.sink.builder) r.acc.builder

/-- `while level.len() > COALESCE_GROUP`; a level is shorter than the one before, so its length
bounds the depth. -/
def coalesceLevels : Nat → List Bytes → Res (List Bytes)
  | 0, level => .ok level
  | depth + 1, level =>
    if COALESCE_GROUP < level.length then do
      coalesceLevels depth (← (level.toChunks COALESCE_GROUP).mapM merge_group_global)
    else .ok level

/-- The levels of a cached run, from the shards in the directory. -/
def coalesce (r : Run) : Res (List Bytes) := do
  let l1 ← (r.dir.list_partial_shards.toChunks COALESCE_GROUP).mapM fun grp =>
    coalesce_shards_remapped grp (globalOf r.seed_paths)
  coalesceLevels l1.length l1

/-- The merge that makes the output: of the levels when there is a cache, else of the base and the
shards, with the file table of the allocator. -/
def final_merge (r : Run) : Res Bytes :=
  match r.level with
  | some level => do r.final_delta.write_merged_snapshot (← level.mapM open_index)
  | none => do
    (r.file_ids.drain_into r.final_delta).write_merged_snapshot (← r.dir.sources.mapM open_index)

def setWorker (r : Run) (w : Nat) (x : Worker) : Run := { r with workers := r.workers.set w x }

/-- `i += n_workers`, and round the loop. -/
def done (r : Run) (w : Nat) (x : Worker) : Run :=
  r.setWorker w { x with i := x.i + r.workers.length, phase := .idle }

/-- `cache.contains(digest)`: there is a shard, and it opens. -/
def cached (r : Run) (u : KzipUnit) (f : Bytes) : Prop :=
  ∃ cache ix, r.cache = some cache ∧ cache[u.digest]? = some f ∧ open_index f = .ok ix

/-- All workers are through their units and no snapshot is on its way. -/
def Joined (r : Run) : Prop :=
  (∀ x ∈ r.workers, x.phase = .idle ∧ r.plan.length ≤ x.i) ∧ r.snap = .off ∧ r.failed = false ∧
    r.out = none

end Run

/-- The id a worker got for a path. -/
def idOf (ids : List (String × UInt32)) (path : String) : UInt32 := (ids.lookup path).getD 0

/-! ## The steps -/

open Run in
/-- One step of a run. The order of the steps of different threads is free, and each write can fail.
The wait before a snapshot only thins out the runs, and so does the count that triggers one. -/
inductive Step : Run → Run → Prop
  /-- A worker starts the indexer on its next unit. -/
  | begin {r : Run} {w : Nat} {x : Worker} {u : KzipUnit}
      (hw : r.workers[w]? = some x) (hidle : x.phase = .idle) (hu : r.plan[x.i]? = some u)
      (hmiss : ∀ f, ¬ r.cached u f) :
      Step r (r.setWorker w { x with phase := .ingest u.paths [] })
  /-- The stream names the next path. -/
  | intern {r : Run} {w : Nat} {x : Worker} {path : String} {todo : List String} {ids : List (String × UInt32)} {id : UInt32} {a : FileIdAllocator}
      (hw : r.workers[w]? = some x)
      (hphase : x.phase = .ingest (path :: todo) ids) (hid : r.file_ids.intern path = some (id, a)) :
      Step r ({ r with file_ids := a }.setWorker w { x with phase := .ingest todo ((path, id) :: ids) })
  /-- The unit failed or was empty: nothing is kept of it. -/
  | skip {r : Run} {w : Nat} {x : Worker} {u : KzipUnit} {ids : List (String × UInt32)}
      (hw : r.workers[w]? = some x) (hphase : x.phase = .ingest [] ids)
      (hu : r.plan[x.i]? = some u) (hfailed : u.succeeded = false) : Step r (r.done w x)
  /-- The sink is locked. -/
  | lock {r : Run} {w : Nat} {x : Worker} {u : KzipUnit} {ids : List (String × UInt32)}
      (hcache : r.cache = none) (hw : r.workers[w]? = some x)
      (hphase : x.phase = .ingest [] ids) (hu : r.plan[x.i]? = some u) (hok : u.succeeded = true) :
      Step r (r.setWorker w { x with phase := .folding (u.builder (idOf ids)).dedup_tables.1 })
  | fold {r : Run} {w : Nat} {x : Worker} {b : IndexBuilder}
      (hw : r.workers[w]? = some x) (hphase : x.phase = .folding b) :
      Step r (r.setWorker w
        { x with phase := .merged, sink := { x.sink with builder := x.sink.builder.merge_from b } })
  /-- The sha is pushed and the lock released. -/
  | push {r : Run} {w : Nat} {x : Worker} {u : KzipUnit}
      (hw : r.workers[w]? = some x) (hphase : x.phase = .merged)
      (hu : r.plan[x.i]? = some u) :
      Step r (r.done w { x with sink := { x.sink with pending_shas := x.sink.pending_shas ++ [u.sha] } })
  | snapshot {r : Run} (hcache : r.cache = none) (hsnap : r.snap = .off) (hout : r.out = none) :
      Step r { r with snap := .drain 0 [] }
  /-- `try_lock` got the sink: rows and shas are taken together. -/
  | drain {r : Run} {j : Nat} {shas : List String} {x : Worker}
      (hsnap : r.snap = .drain j shas) (hw : r.workers[j]? = some x)
      (hfree : x.busy = false) :
      Step r ({ r with
          acc := { r.acc with builder := r.acc.builder.merge_from x.sink.builder }
          snap := .drain (j + 1) (shas ++ x.sink.pending_shas) }.setWorker j { x with sink := {} })
  /-- `try_lock` did not. -/
  | pass {r : Run} {j : Nat} {shas : List String} {x : Worker}
      (hsnap : r.snap = .drain j shas) (hw : r.workers[j]? = some x)
      (hbusy : x.busy = true) : Step r { r with snap := .drain (j + 1) shas }
  | stage {r : Run} {shas : List String} (hsnap : r.snap = .drain r.workers.length shas) :
      Step r { r with
        acc := { r.acc with builder := .new }
        next_shard := r.next_shard + 1
        snap := .write (r.file_ids.push_to r.acc.builder)
          ((r.acc.committed_shas ++ shas).mergeSort fun s t => as_bytes s ≤ as_bytes t) shas r.next_shard }
  | finish {r : Run} {delta : IndexBuilder} {shas staged : List String} {idx : Nat} {f : Bytes}
      (hsnap : r.snap = .write delta shas staged idx)
      (hf : delta.finish = .ok f) :
      Step r { r with
        dir := { r.dir with shards := r.dir.shards.insert idx f }, snap := .record shas staged }
  /-- The delta is gone from memory and its shas are not recorded. -/
  | finishFailed {r : Run} {delta : IndexBuilder} {shas staged : List String} {idx : Nat}
      (hsnap : r.snap = .write delta shas staged idx) :
      Step r { r with failed := true, snap := .off }
  | record {r : Run} {shas staged : List String} (hsnap : r.snap = .record shas staged) :
      Step r { r with
        dir := { r.dir with shas := some (shasText shas) }
        acc := { r.acc with committed_shas := r.acc.committed_shas ++ staged }, snap := .off }
  /-- Only logged. -/
  | recordFailed {r : Run} {shas staged : List String} (hsnap : r.snap = .record shas staged) :
      Step r { r with
        acc := { r.acc with committed_shas := r.acc.committed_shas ++ staged }, snap := .off }
  /-- The cached shard of the unit is copied. -/
  | hit {r : Run} {w : Nat} {x : Worker} {u : KzipUnit} {f : Bytes}
      (hw : r.workers[w]? = some x) (hidle : x.phase = .idle) (hu : r.plan[x.i]? = some u)
      (hhit : r.cached u f) :
      Step r ({ r with
          dir := { r.dir with shards := r.dir.shards.insert r.next_shard f }
          next_shard := r.next_shard + 1 }.done w x)
  /-- The copy failed, with nothing or some bytes written; the unit is indexed afresh. -/
  | copyFailed {r : Run} {w : Nat} {x : Worker} {u : KzipUnit} {f : Bytes}
      (hw : r.workers[w]? = some x) (hidle : x.phase = .idle)
      (hu : r.plan[x.i]? = some u) (hhit : r.cached u f) (left : Option (Fin f.length)) :
      Step r ({ r with
          dir := { r.dir with
            shards := left.elim r.dir.shards fun n => r.dir.shards.insert r.next_shard (f.take n) }
          next_shard := r.next_shard + 1 }.setWorker w { x with phase := .ingest u.paths [] })
  /-- A cached run writes one shard per unit and stores it, unless `store` fails. -/
  | shard {r : Run} {w : Nat} {x : Worker} {u : KzipUnit} {ids : List (String × UInt32)} {c : ShardCache} {f : Bytes}
      (hcache : r.cache = some c) (hw : r.workers[w]? = some x)
      (hphase : x.phase = .ingest [] ids) (hu : r.plan[x.i]? = some u) (hok : u.succeeded = true)
      (hf : (u.builder (idOf ids)).dedup_tables.1.localize_file_ids.1.finish = .ok f) (stored : Bool) :
      Step r ({ r with
          dir := { r.dir with shards := r.dir.shards.insert r.next_shard f }
          cache := some (if stored then c.insert u.digest f else c)
          next_shard := r.next_shard + 1 }.done w x)
  | shardFailed {r : Run} {w : Nat} {x : Worker} {ids : List (String × UInt32)}
      (hw : r.workers[w]? = some x) (hphase : x.phase = .ingest [] ids) :
      Step r ({ r with failed := true, next_shard := r.next_shard + 1 }.done w x)
  /-- A cached run coalesces its shards and removes them; what cannot be removed stays. -/
  | coalesce {r : Run} {c : ShardCache} {level : List Bytes} {left : ExtTreeMap Nat Bytes}
      (hcache : r.cache = some c) (hjoined : r.Joined) (hlevel : r.level = none)
      (h : r.coalesce = .ok level)
      (hleft : ∀ (i : Nat) (f : Bytes), left[i]? = some f → r.dir.shards[i]? = some f) :
      Step r { r with dir := { r.dir with shards := left }, level := some level }
  | promote {r : Run} {f : Bytes} (hjoined : r.Joined) (hlevel : r.level.isSome = r.cache.isSome)
      (hf : r.final_merge = .ok f) : Step r { r with out := some f }

/-- The states of one run. -/
inductive Reaches (r : Run) : Run → Prop
  | refl : Reaches r r
  | step {s t : Run} (h : Reaches r s) (hst : Step s t) : Reaches r t

end

end Scry2
