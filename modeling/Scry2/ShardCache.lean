import Scry2.Run
import Scry2.Lib.Threads
import Mathlib.Data.List.TakeWhile
import Mathlib.Logic.Function.Basic

/-!
# The shard cache on disk

`ShardCache` of `cache.rs` keeps one file for each digest in `shards`. `store` copies to a temporary file
and renames it, `finalize` removes what the build has no use for. Any number of processes do so at once,
and any of them may die at any moment: what is on the disk then is the state that was reached. The runs of
`Scry2.Run` have the cache as a map, on which a store is one step; here the files are shown to refine that map.
-/

open Scry2.Lib

namespace Scry2.ShardCache

/-- The files of the directory `shards` by their names. -/
abbrev Shards := String → Option Bytes

def shard_path (digest : String) : String := digest ++ ".s2db"

def temp_path (digest : String) (pid : Nat) : String := "." ++ digest ++ "." ++ toString pid ++ ".tmp"

def contains (files : Shards) (digest : String) : Bool :=
  match files (shard_path digest) with
  | none => false
  | some f =>
    match open_index f with
    | .ok _ => true
    | .error _ => false

/-- A call of `store` by the process `pid`, with the bytes of the file `src`. -/
structure Store where
  digest : String
  pid : Nat
  src : Bytes

def Store.dst (job : Store) : String := shard_path job.digest

def Store.tmp (job : Store) : String := temp_path job.digest job.pid

inductive Pc where
  | begun
  | copying (written rest : Bytes)
  | stored
  | failed

inductive Actor where
  | store (job : Store) (pc : Pc)
  | finalize (kept : List String)

/-- `store` copies in pieces of any length and may fail before it has renamed. `finalize` may miss a file. -/
inductive Move : Moves Shards Actor
  | create {w : Nat} {files : Shards} {job : Store} :
      Move w files (.store job .begun) (Function.update files job.tmp (some [])) (.store job (.copying [] job.src))
  | copy {w : Nat} {files : Shards} {job : Store} {written chunk rest f : Bytes} (hf : files job.tmp = some f)
      (hne : chunk ≠ []) :
      Move w files (.store job (.copying written (chunk ++ rest))) (Function.update files job.tmp (some (f ++ chunk)))
        (.store job (.copying (written ++ chunk) rest))
  | rename {w : Nat} {files : Shards} {job : Store} {written f : Bytes} (hf : files job.tmp = some f) :
      Move w files (.store job (.copying written []))
        (Function.update (Function.update files job.tmp none) job.dst (some f)) (.store job .stored)
  | fail {w : Nat} {files : Shards} {job : Store} {pc : Pc} (hpc : pc ≠ .stored) :
      Move w files (.store job pc) files (.store job .failed)
  | prune {w : Nat} {files : Shards} {kept : List String} {digest : String} (hkept : digest ∉ kept) :
      Move w files (.finalize kept) (Function.update files (shard_path digest) none) (.finalize kept)

/-- Before it has done anything. -/
def Actor.Fresh : Actor → Prop
  | .store _ pc => pc = .begun
  | .finalize _ => True

/-- Digests are hexadecimal, and no process stores for one digest twice, so that no temporary file is shared. -/
structure Apart (actors : List Actor) : Prop where
  dotless : ∀ {job : Store} {pc : Pc}, .store job pc ∈ actors → '.' ∉ job.digest.toList
  apart : ∀ {w v : Nat} {job job' : Store}, actors[w]? = some (.store job .begun) →
    actors[v]? = some (.store job' .begun) → w ≠ v → job.digest ≠ job'.digest ∨ job.pid ≠ job'.pid

/-! ## Names -/

theorem shard_path_inj {d e : String} : shard_path d = shard_path e ↔ d = e := by
  refine ⟨fun h => ?_, fun h => h ▸ rfl⟩
  unfold shard_path at h
  have hlist := congrArg String.toList h
  rw [String.toList_append, String.toList_append, List.append_cancel_right_eq] at hlist
  exact String.toList_inj.mp hlist

theorem temp_path_ne (d e : String) (pid : Nat) : temp_path d pid ≠ shard_path e := by
  intro h
  have hlast := congrArg (fun s : String => s.toList.getLast?) h
  unfold temp_path shard_path at hlast
  simp only [String.toList_append] at hlast
  rw [List.getLast?_append_of_ne_nil _ (by decide), List.getLast?_append_of_ne_nil _ (by decide)] at hlast
  exact absurd hlast (by decide)

theorem toString_inj {m n : Nat} (h : toString m = toString n) : m = n := by
  have h : String.ofList (Nat.toDigits 10 m) = String.ofList (Nat.toDigits 10 n) := h
  rw [← Nat.ofDigitChars_ten_toDigits (n := m), String.ofList_inj.mp h, Nat.ofDigitChars_ten_toDigits]

theorem temp_path_inj {d e : String} {p q : Nat} (hd : '.' ∉ d.toList) (he : '.' ∉ e.toList)
    (h : temp_path d p = temp_path e q) : d = e ∧ p = q := by
  have hlist := congrArg String.toList h
  unfold temp_path at hlist
  simp only [String.toList_append, List.append_assoc, List.append_cancel_left_eq] at hlist
  -- The digest ends at the first dot behind the leading one.
  have htake : ∀ {l : List Char} (rest : List Char), '.' ∉ l → (l ++ (".".toList ++ rest)).takeWhile (· ≠ '.') = l := by
    intro l rest hl
    have hpos : ∀ c ∈ l, decide (c ≠ '.') = true := fun c hc => decide_eq_true fun (heq : c = '.') => hl (heq ▸ hc)
    rw [List.takeWhile_append_of_pos hpos]
    simp
  have hde : d.toList = e.toList := by
    have hboth := congrArg (List.takeWhile (· ≠ '.')) hlist
    rwa [htake _ hd, htake _ he] at hboth
  rw [hde] at hlist
  refine ⟨String.toList_inj.mp hde, toString_inj (String.toList_inj.mp ?_)⟩
  simpa using hlist

variable {actors : List Actor} {files files' : Shards} {w v n : Nat} {x y z : Actor} {job job' : Store}

theorem Apart.tmp_ne (h : Apart actors) (hw : actors[w]? = some (.store job .begun))
    (hv : actors[v]? = some (.store job' .begun)) (hne : w ≠ v) : job'.tmp ≠ job.tmp := by
  intro heq
  obtain ⟨hd, hp⟩ := temp_path_inj (h.dotless (List.mem_of_getElem? hv)) (h.dotless (List.mem_of_getElem? hw)) heq
  exact (h.apart hw hv hne).elim (fun hn => hn hd.symm) fun hn => hn hp.symm

/-! ## What each process has written -/

def Inv (actors : List Actor) (w : Nat) (files : Shards) : Actor → Prop
  | .store job pc => actors[w]? = some (.store job .begun) ∧
      ∀ written rest, pc = .copying written rest → files job.tmp = some written ∧ written ++ rest = job.src
  | .finalize kept => actors[w]? = some (.finalize kept)

theorem Inv.frame (hsame : ∀ job, actors[v]? = some (.store job .begun) → files' job.tmp = files job.tmp)
    (h : Inv actors v files z) : Inv actors v files' z := by
  cases z with
  | store job pc =>
    refine ⟨h.1, fun written rest hpc => ?_⟩
    rw [hsame job h.1]
    exact h.2 written rest hpc
  | finalize kept => exact h

theorem Move.inv (hapart : Apart actors) (hx : Inv actors w files x) (hm : Move w files x files' y) :
    Inv actors w files' y ∧ ∀ v z, v ≠ w → Inv actors v files z → Inv actors v files' z := by
  have hother : ∀ {job : Store} (f : Option Bytes), actors[w]? = some (.store job .begun) → ∀ v, v ≠ w → ∀ job',
      actors[v]? = some (.store job' .begun) → Function.update files job.tmp f job'.tmp = files job'.tmp :=
    fun f hw v hne job' hv => Function.update_of_ne (hapart.tmp_ne hw hv (Ne.symm hne)) _ _
  cases hm with
  | create =>
    refine ⟨⟨hx.1, fun written rest hpc => ?_⟩, fun v z hne hz => hz.frame (hother _ hx.1 v hne)⟩
    cases hpc
    exact ⟨Function.update_self _ _ _, List.nil_append _⟩
  | @copy _ _ job written chunk rest f hf hne =>
    obtain ⟨hfile, hsrc⟩ := hx.2 _ _ rfl
    cases hf.symm.trans hfile
    refine ⟨⟨hx.1, fun written' rest' hpc => ?_⟩, fun v z hne hz => hz.frame (hother _ hx.1 v hne)⟩
    cases hpc
    exact ⟨Function.update_self _ _ _, (List.append_assoc _ _ _).trans hsrc⟩
  | rename hf =>
    refine ⟨⟨hx.1, fun _ _ hpc => nomatch hpc⟩, fun v z hne hz => hz.frame fun job' hv => ?_⟩
    exact (Function.update_of_ne (temp_path_ne _ _ _) _ _).trans (hother none hx.1 v hne job' hv)
  | fail hpc => exact ⟨⟨hx.1, fun _ _ h => nomatch h⟩, fun v z _ hz => hz⟩
  | prune hkept =>
    exact ⟨hx, fun v z _ hz => hz.frame fun job' _ => Function.update_of_ne (temp_path_ne _ _ _) _ _⟩

/-! ## The cache as a map -/

/-- The files of a cache. -/
def Represents (files : Shards) (cache : ShardCache) : Prop := ∀ digest, files (shard_path digest) = cache[digest]?

inductive Op where
  | insert (digest : String) (f : Bytes)
  | remove (digest : String)

def Op.apply (cache : ShardCache) : Op → ShardCache
  | .insert digest f => cache.insert digest f
  | .remove digest => cache.erase digest

variable {cache : ShardCache}

theorem contains_iff (h : Represents files cache) (digest : String) :
    contains files digest = true ↔ ∃ f ix, cache[digest]? = some f ∧ open_index f = .ok ix := by
  unfold contains
  rw [h digest]
  cases cache[digest]? with
  | none => simp
  | some f =>
    cases hopen : open_index f with
    | ok ix => simp [hopen]
    | error e => simp [hopen]

theorem Represents.tmp (h : Represents files cache) (f : Option Bytes) :
    Represents (Function.update files job.tmp f) cache := by
  intro digest
  rw [← h digest]
  exact Function.update_of_ne (temp_path_ne _ _ _).symm _ _

theorem Represents.insert (h : Represents files cache) (digest : String) (f : Bytes) :
    Represents (Function.update files (shard_path digest) (some f)) (Op.apply cache (.insert digest f)) := by
  intro e
  rw [Op.apply, getElem?_insert_key, ← h e]
  split_ifs with he
  · rw [← he, Function.update_self]
  · exact Function.update_of_ne (mt shard_path_inj.mp (Ne.symm he)) _ _

theorem Represents.remove (h : Represents files cache) (digest : String) :
    Represents (Function.update files (shard_path digest) none) (Op.apply cache (.remove digest)) := by
  intro e
  rw [Op.apply, getElem?_erase_key, ← h e]
  split_ifs with he
  · rw [← he, Function.update_self]
  · exact Function.update_of_ne (mt shard_path_inj.mp (Ne.symm he)) _ _

/-- A log of atomic operations that explains what is cached. -/
structure Explains (actors : List Actor) (cache : ShardCache) (t : Threads Shards Actor) (ops : List Op) : Prop where
  represents : Represents t.shared (ops.foldl Op.apply cache)
  inserts : ∀ digest f, .insert digest f ∈ ops ↔
    ∃ job, Actor.store job .stored ∈ t.locals ∧ job.digest = digest ∧ job.src = f
  removes : ∀ digest, .remove digest ∈ ops → ∃ kept, Actor.finalize kept ∈ actors ∧ digest ∉ kept

/-- Each step is no operation, or just one. -/
theorem Explains.step {t : Threads Shards Actor} {ops : List Op} (h : Explains actors cache t ops) {s : Shards}
    (hw : t.locals[w]? = some x) (hx : Inv actors w t.shared x) (hm : Move w t.shared x s y) :
    ∃ ops', Explains actors cache ⟨s, t.locals.set w y⟩ ops' := by
  have hquiet : (∀ job, y ≠ .store job .stored) → (∀ job, x ≠ .store job .stored) → ∀ job,
      Actor.store job .stored ∈ t.locals.set w y ↔ Actor.store job .stored ∈ t.locals := by
    intro hy hx job
    rw [Threads.mem_set_iff hw (Ne.symm (hx job)), or_iff_right (Ne.symm (hy job))]
  cases hm with
  | create =>
    refine ⟨ops, h.represents.tmp _, fun digest f => ?_, h.removes⟩
    simp only [h.inserts, hquiet (fun _ => by simp) (fun _ => by simp)]
  | copy hf hne =>
    refine ⟨ops, h.represents.tmp _, fun digest f => ?_, h.removes⟩
    simp only [h.inserts, hquiet (fun _ => by simp) (fun _ => by simp)]
  | @rename _ _ job written _ hf =>
    obtain ⟨hfile, hsrc⟩ := hx.2 _ _ rfl
    cases hf.symm.trans hfile
    rw [List.append_nil] at hsrc
    refine ⟨ops ++ [.insert job.digest written], ?_, fun digest g => ?_,
      fun digest hd => h.removes digest (by simpa using hd)⟩
    · rw [List.foldl_append]
      exact (h.represents.tmp none).insert job.digest written
    · have hmem : ∀ job', Actor.store job' .stored ∈ t.locals.set w (.store job .stored) ↔
          job' = job ∨ Actor.store job' .stored ∈ t.locals := by
        intro job'
        rw [Threads.mem_set_iff hw (by simp)]
        simp
      simp only [List.mem_append, h.inserts, List.mem_singleton, hmem, Op.insert.injEq, or_and_right, exists_or,
        exists_eq_left, hsrc]
      rw [or_comm]
      simp only [eq_comm]
  | fail hpc =>
    refine ⟨ops, h.represents, fun digest f => ?_, h.removes⟩
    simp only [h.inserts, hquiet (fun _ => by simp) (fun _ => by simpa using fun _ => hpc)]
  | @prune _ _ kept digest hkept =>
    refine ⟨ops ++ [.remove digest], ?_, fun e f => ?_, fun e he => ?_⟩
    · rw [List.foldl_append]
      exact h.represents.remove digest
    · simp only [List.mem_append, List.mem_singleton, reduceCtorEq, or_false, h.inserts,
        hquiet (fun _ => by simp) (fun _ => by simp)]
    · rcases List.mem_append.mp he with he | he
      · exact h.removes e he
      · cases List.mem_singleton.mp he
        exact ⟨kept, List.mem_of_getElem? hx, hkept⟩

variable {t : Threads Shards Actor}

/-- Every run, up to any moment, has such a log. -/
theorem exists_explains (hfresh : ∀ a ∈ actors, a.Fresh) (hapart : Apart actors) (hcache : Represents files cache)
    (h : Threads.Runs Move ⟨files, actors⟩ n t) :
    (∀ (w : Nat) (x : Actor), t.locals[w]? = some x → Inv actors w t.shared x) ∧
      ∃ ops, Explains actors cache t ops := by
  have hstart : ∀ (w : Nat) (x : Actor), actors[w]? = some x → Inv actors w files x := by
    intro w x hw
    have hx := hfresh x (List.mem_of_getElem? hw)
    cases x with
    | store job pc =>
      cases (show pc = .begun from hx)
      exact ⟨hw, fun _ _ hpc => nomatch hpc⟩
    | finalize kept => exact hw
  have hinv : ∀ {n : Nat} {t : Threads Shards Actor}, Threads.Runs Move ⟨files, actors⟩ n t →
      ∀ (w : Nat) (x : Actor), t.locals[w]? = some x → Inv actors w t.shared x :=
    fun h => h.each (fun _ _ _ _ _ => Move.inv hapart) hstart
  refine ⟨hinv h, ?_⟩
  induction h with
  | refl =>
    refine ⟨[], hcache, fun digest f => ?_, fun digest hd => nomatch hd⟩
    refine ⟨fun hf => (nomatch hf), fun ⟨job, hjob, _⟩ => ?_⟩
    exact nomatch (show Pc.stored = .begun from hfresh _ hjob)
  | step h hst ih =>
    obtain ⟨ops, hops⟩ := ih
    cases hst with
    | move hw hm => exact hops.step hw (hinv h _ _ hw) hm

/-- What is cached in the end was there, or has been inserted. -/
theorem foldl_apply_cases {ops : List Op} {digest : String} {f : Bytes}
    (h : (ops.foldl Op.apply cache)[digest]? = some f) :
    cache[digest]? = some f ∨ .insert digest f ∈ ops := by
  induction ops using List.reverseRecOn with
  | nil => exact .inl h
  | append_singleton ops op ih =>
    have hkeep : (ops.foldl Op.apply cache)[digest]? = some f →
        cache[digest]? = some f ∨ .insert digest f ∈ ops ++ [op] :=
      fun h => (ih h).imp_right (List.mem_append_left _)
    rw [List.foldl_append] at h
    cases op with
    | insert e g =>
      rw [List.foldl_cons, List.foldl_nil, Op.apply, getElem?_insert_key] at h
      split_ifs at h with he
      · cases h
        exact .inr (by rw [he]; simp)
      · exact hkeep h
    | remove e =>
      rw [List.foldl_cons, List.foldl_nil, Op.apply, getElem?_erase_key] at h
      split_ifs at h
      exact hkeep h

theorem foldl_apply_insert {ops : List Op} {digest : String} {f : Bytes} (hin : .insert digest f ∈ ops)
    (hno : .remove digest ∉ ops) : ∃ g, .insert digest g ∈ ops ∧ (ops.foldl Op.apply cache)[digest]? = some g := by
  induction ops using List.reverseRecOn with
  | nil => exact nomatch hin
  | append_singleton ops op ih =>
    obtain ⟨hno, hlast⟩ := not_or.mp (mt List.mem_append.mpr hno)
    rw [List.foldl_append, List.foldl_cons, List.foldl_nil]
    by_cases hop : ∃ g, op = .insert digest g
    · obtain ⟨g, rfl⟩ := hop
      exact ⟨g, by simp, by rw [Op.apply, getElem?_insert_key, if_pos rfl]⟩
    · have hin : .insert digest f ∈ ops := by
        rcases List.mem_append.mp hin with hin | hin
        · exact hin
        · exact absurd ⟨f, (List.mem_singleton.mp hin).symm⟩ hop
      obtain ⟨g, hg, heq⟩ := ih hin hno
      refine ⟨g, List.mem_append_left _ hg, ?_⟩
      cases op with
      | insert e f' => rw [Op.apply, getElem?_insert_key, if_neg fun he => hop ⟨f', by rw [he]⟩, heq]
      | remove e =>
        rw [Op.apply, getElem?_erase_key, if_neg fun he => hlast (by rw [he]; exact List.mem_singleton.mpr rfl), heq]

/-! ## Two builds -/

/-- Two builds, each of which stores a shard, and the tidying up after them. -/
def twoBuilds (job job' : Store) (kept : List String) : List Actor :=
  [.store job .begun, .store job' .begun, .finalize kept]

theorem twoBuilds_fresh (job job' : Store) (kept : List String) : ∀ a ∈ twoBuilds job job' kept, a.Fresh := by
  simp [twoBuilds, Actor.Fresh]

theorem twoBuilds_apart {kept : List String} (hd : '.' ∉ job.digest.toList) (hd' : '.' ∉ job'.digest.toList)
    (hpid : job.pid ≠ job'.pid) : Apart (twoBuilds job job' kept) := by
  have hboth : ∀ {w : Nat} {job₁ : Store}, (twoBuilds job job' kept)[w]? = some (.store job₁ .begun) →
      w = 0 ∧ job₁ = job ∨ w = 1 ∧ job₁ = job' := by
    intro w job₁ hw
    match w with
    | 0 => exact .inl ⟨rfl, by cases hw; rfl⟩
    | 1 => exact .inr ⟨rfl, by cases hw; rfl⟩
    | 2 => exact nomatch hw
    | _ + 3 => exact nomatch hw
  constructor
  · intro job₁ pc hjob
    simp only [twoBuilds, List.mem_cons, Actor.store.injEq, reduceCtorEq, List.not_mem_nil, or_false] at hjob
    rcases hjob with ⟨rfl, -⟩ | ⟨rfl, -⟩
    · exact hd
    · exact hd'
  · intro w v job₁ job₂ hw hv hne
    rcases hboth hw with ⟨rfl, rfl⟩ | ⟨rfl, rfl⟩ <;> rcases hboth hv with ⟨rfl, rfl⟩ | ⟨rfl, rfl⟩
    · exact absurd rfl hne
    · exact .inr hpid
    · exact .inr (Ne.symm hpid)
    · exact absurd rfl hne

/-- The second build dies in the middle of its copy, after which the shard of `other` is removed and the first
build stores its own. -/
theorem twoBuilds_stores (files : Shards) {kept : List String} {other : String} {copied rest : Bytes}
    (htmp : job.tmp ≠ job'.tmp) (hother : other ∉ kept) (hne : other ≠ job.digest) (hsrc : job.src ≠ [])
    (hsrc' : job'.src = copied ++ rest) (hcopied : copied ≠ []) :
    ∃ t, Threads.Runs Move ⟨files, twoBuilds job job' kept⟩ 6 t ∧
      t.locals = [.store job .stored, .store job' (.copying copied rest), .finalize kept] ∧
      t.shared job.dst = some job.src ∧ t.shared (shard_path other) = none := by
  have hr : Threads.Runs Move ⟨files, twoBuilds job job' kept⟩ 0 _ := .refl
  have hr := hr.step (.move (w := 0) rfl .create)
  have hr := hr.step (.move (w := 1) rfl .create)
  rw [hsrc'] at hr
  have hr := hr.step (.move (w := 1) rfl (.copy (Function.update_self _ _ _) hcopied))
  have hr := hr.step (.move (w := 2) rfl (.prune hother))
  let begun := Function.update (Function.update files job.tmp (some [])) job'.tmp (some [])
  let pruned := Function.update (Function.update begun job'.tmp (some copied)) (shard_path other) none
  have hmine : pruned job.tmp = some [] := by
    have hpath : job.tmp ≠ shard_path other := temp_path_ne _ _ _
    have hbegun : begun job.tmp = some [] := (Function.update_of_ne htmp _ _).trans (Function.update_self _ _ _)
    exact (Function.update_of_ne hpath _ _).trans ((Function.update_of_ne htmp _ _).trans hbegun)
  have hcopy := @Move.copy 0 pruned job [] job.src [] [] hmine hsrc
  rw [List.append_nil] at hcopy
  have hr := hr.step (.move (w := 0) rfl hcopy)
  have hr := hr.step (.move (w := 0) rfl (.rename (Function.update_self _ _ _)))
  refine ⟨_, hr, rfl, Function.update_self _ _ _, ?_⟩
  have hpath : shard_path other ≠ shard_path job.digest := mt shard_path_inj.mp hne
  have hfree : ∀ d pid, shard_path other ≠ temp_path d pid := fun d pid => Ne.symm (temp_path_ne d other pid)
  exact (Function.update_of_ne hpath _ _).trans ((Function.update_of_ne (hfree _ _) _ _).trans
    ((Function.update_of_ne (hfree _ _) _ _).trans (Function.update_self _ _ _)))

/-- The shard of a unit without rows. -/
def emptyShard : Store := ⟨"00ff", 7, IndexBuilder.new.finishRows.bytes⟩

/-- The same shard, from another process. -/
def sameShard : Store := { emptyShard with pid := 8 }

theorem emptyShard_opens : ∃ ix, open_index emptyShard.src = .ok ix := by
  obtain ⟨-, ix, hopen, -⟩ := IndexBuilder.new.opens (by decide +kernel)
  exact ⟨ix, hopen⟩

theorem emptyShard_ne : emptyShard.src ≠ [] := by
  intro hnil
  obtain ⟨ix, hix⟩ := emptyShard_opens
  rw [hnil] at hix
  exact nomatch hix

theorem represents_empty : Represents (fun _ => none) ∅ := fun _ => rfl

/-- A directory with a shard that no unit has any more. -/
def staleShards : Shards := Function.update (fun _ => none) (shard_path "beef") (some emptyShard.src)

def staleCache : ShardCache := (∅ : ShardCache).insert "beef" emptyShard.src

theorem staleShards_represents : Represents staleShards staleCache :=
  represents_empty.insert "beef" emptyShard.src

theorem emptyShard_apart : Apart (twoBuilds emptyShard sameShard ["00ff"]) :=
  twoBuilds_apart (by decide) (by decide) (by decide)

theorem emptyShard_stores :
    ∃ t, Threads.Runs Move ⟨staleShards, twoBuilds emptyShard sameShard ["00ff"]⟩ 6 t ∧
      t.locals = [.store emptyShard .stored,
        .store sameShard (.copying (emptyShard.src.take 1) (emptyShard.src.drop 1)), .finalize ["00ff"]] ∧
      t.shared "00ff.s2db" = some emptyShard.src ∧ t.shared "beef.s2db" = none := by
  have htmp : emptyShard.tmp ≠ sameShard.tmp :=
    emptyShard_apart.tmp_ne (w := 1) (v := 0) rfl rfl Nat.one_ne_zero
  have hcopied : emptyShard.src.take 1 ≠ [] := by simp [List.take_eq_nil_iff, emptyShard_ne]
  exact twoBuilds_stores staleShards htmp (show "beef" ∉ ["00ff"] by decide) (by decide) emptyShard_ne
    (List.take_append_drop 1 _).symm hcopied

/-! ## What a process may rely on -/

/-- At every moment, whichever processes have died, the files are those of the cache after atomic insertions
and removals, with one insertion for each `store` that is through. So under the name of a digest there is
never a part of a file. -/
theorem store_atomic (hfresh : ∀ a ∈ actors, a.Fresh) (hapart : Apart actors) (hcache : Represents files cache)
    (h : Threads.Runs Move ⟨files, actors⟩ n t) :
    (∃ ops, Explains actors cache t ops) ∧
    ∀ digest f, t.shared (shard_path digest) = some f → cache[digest]? = some f ∨
      ∃ job, Actor.store job .stored ∈ t.locals ∧ job.digest = digest ∧ job.src = f := by
  obtain ⟨-, ops, hops⟩ := exists_explains hfresh hapart hcache h
  refine ⟨⟨ops, hops⟩, fun digest f hf => ?_⟩
  rw [hops.represents] at hf
  exact (foldl_apply_cases hf).imp_right (hops.inserts digest f).mp

theorem store_atomic_twoBuilds :
    ∃ t, Threads.Runs Move ⟨staleShards, twoBuilds emptyShard sameShard ["00ff"]⟩ 6 t ∧
      t.locals = [.store emptyShard .stored,
        .store sameShard (.copying (emptyShard.src.take 1) (emptyShard.src.drop 1)), .finalize ["00ff"]] ∧
      t.shared "00ff.s2db" = some emptyShard.src ∧ t.shared "beef.s2db" = none ∧
      ∃ ops, Explains (twoBuilds emptyShard sameShard ["00ff"]) staleCache t ops := by
  obtain ⟨t, hr, hlocals, hfile, hgone⟩ := emptyShard_stores
  exact ⟨t, hr, hlocals, hfile, hgone,
    (store_atomic (twoBuilds_fresh _ _ _) emptyShard_apart staleShards_represents hr).1⟩

/-- What has been stored is found again, as long as each `finalize` keeps it. -/
theorem stored_contains (hfresh : ∀ a ∈ actors, a.Fresh) (hapart : Apart actors) (hcache : Represents files cache)
    (h : Threads.Runs Move ⟨files, actors⟩ n t) (hjob : .store job .stored ∈ t.locals)
    (hkept : ∀ kept, .finalize kept ∈ actors → job.digest ∈ kept)
    (hopens : ∀ job', .store job' .begun ∈ actors → job'.digest = job.digest → ∃ ix, open_index job'.src = .ok ix) :
    contains t.shared job.digest = true := by
  obtain ⟨hinv, ops, hops⟩ := exists_explains hfresh hapart hcache h
  have hin : .insert job.digest job.src ∈ ops := (hops.inserts _ _).mpr ⟨job, hjob, rfl, rfl⟩
  have hno : .remove job.digest ∉ ops := by
    intro hr
    obtain ⟨kept, hfin, hnot⟩ := hops.removes _ hr
    exact hnot (hkept kept hfin)
  obtain ⟨g, hg, heq⟩ := foldl_apply_insert hin hno
  obtain ⟨job', hjob', hdigest, rfl⟩ := (hops.inserts _ _).mp hg
  obtain ⟨w, hw⟩ := List.getElem?_of_mem hjob'
  obtain ⟨ix, hix⟩ := hopens job' (List.mem_of_getElem? (hinv w _ hw).1) hdigest
  exact (contains_iff hops.represents job.digest).mpr ⟨job'.src, ix, heq, hix⟩

theorem stored_contains_twoBuilds :
    ∃ t, Threads.Runs Move ⟨staleShards, twoBuilds emptyShard sameShard ["00ff"]⟩ 6 t ∧
      t.shared "beef.s2db" = none ∧ contains t.shared "00ff" = true := by
  obtain ⟨t, hr, hlocals, -, hgone⟩ := emptyShard_stores
  have hjob : Actor.store emptyShard .stored ∈ t.locals := by
    rw [hlocals]
    exact List.mem_cons_self
  refine ⟨t, hr, hgone, stored_contains (twoBuilds_fresh _ _ _) emptyShard_apart staleShards_represents hr hjob ?_ ?_⟩
  · intro kept hk
    simp only [twoBuilds, List.mem_cons, reduceCtorEq, Actor.finalize.injEq, List.not_mem_nil, or_false,
      false_or] at hk
    rw [hk]
    exact List.mem_cons_self
  · intro job' hjob' _
    simp only [twoBuilds, List.mem_cons, Actor.store.injEq, reduceCtorEq, List.not_mem_nil, or_false,
      and_true] at hjob'
    rcases hjob' with rfl | rfl
    · exact emptyShard_opens
    · exact emptyShard_opens

end Scry2.ShardCache
