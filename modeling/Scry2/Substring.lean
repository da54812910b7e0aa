import Scry2.Reader

/-!
# Substring search

The name search of `reader.rs`. A needle of three bytes or more goes through the trigram index: the
shortest posting list of its trigrams is decoded, the other lists are probed block by block, and
every row that is left is verified. Shorter needles scan the whole table.
-/

open Scry2.Lib

namespace Scry2

/-- `memchr::memmem`: the search for a needle in a haystack. -/
class Memmem where
  find : (needle hay : Bytes) → Option Nat
  find_isSome : ∀ needle hay, (find needle hay).isSome = true ↔ needle <:+: hay

/-- The search that tries every position. -/
@[reducible] def naiveMemmem : Memmem where
  find needle hay := hay.tails.findIdx? fun t => decide (needle <+: t)
  find_isSome needle hay := by
    rw [List.findIdx?_isSome, List.any_eq_true]
    simp only [decide_eq_true_eq, List.mem_tails, List.infix_iff_prefix_suffix]
    exact exists_congr fun t => and_comm

/-! ## Reading a posting region -/

/-- The loop of `read_varint` over the bytes at its position. -/
def read_varint_loop (v shift : UInt32) (used : Nat) : Bytes → Res (UInt32 × Nat)
  | [] => .error .panic
  | b :: rest =>
    let v := v ||| ((b &&& 0x7f).toUInt32 <<< shift)
    if b &&& 0x80 = 0 then .ok (v, used + 1) else read_varint_loop v (shift + 7) (used + 1) rest

def read_varint (buf : Bytes) (pos : Nat) : Res (UInt32 × Nat) := read_varint_loop 0 0 0 (buf.drop pos)

theorem read_varint_loop_used {v shift v' : UInt32} {used used' : Nat} {bs : Bytes}
    (h : read_varint_loop v shift used bs = .ok (v', used')) : used < used' := by
  induction bs generalizing v shift used with
  | nil => cases h
  | cons b rest ih =>
    unfold read_varint_loop at h
    simp only at h
    split at h
    · cases h
      omega
    · have := ih h
      omega

/-- `u32::from_be_bytes(post[e..e + 4])`. -/
def be32At (post : Bytes) (e : Nat) : Res UInt32 :=
  if e + 4 ≤ post.length then .ok (UInt32.ofNat (ofBe (slice post e 4))) else .error .panic

/-- Where the postings of a trigram lie, and how many there are. -/
structure Posting where
  off : Nat
  len : Nat
  count : Nat

/-- The ids of one block; the first is stored as it is. -/
def readBlock (post : Bytes) : Nat → Nat → UInt32 → Bool → Res (List UInt32 × Nat)
  | 0, pos, _, _ => .ok ([], pos)
  | k + 1, pos, acc, first => do
    let (delta, used) ← read_varint post pos
    let acc := if first then delta else acc + delta
    let (ids, pos) ← readBlock post k (pos + used) acc false
    return (acc :: ids, pos)

def readBlocks (post : Bytes) (remaining pos : Nat) : Res (List UInt32) :=
  if remaining = 0 then return []
  else do
    let (ids, pos) ← readBlock post (min remaining TRIGRAM_BLOCK) pos 0 true
    let rest ← readBlocks post (remaining - min remaining TRIGRAM_BLOCK) pos
    return ids ++ rest
termination_by remaining
decreasing_by unfold TRIGRAM_BLOCK; omega

def trigram_postings (post : Bytes) (p : Posting) : Res (List UInt32) :=
  readBlocks post p.count (p.off + n_blocks p.count * SKIP_ENTRY)

/-! ## Probing a posting region -/

def max_id_at (post : Bytes) (p : Posting) (b : Nat) : Res UInt32 := be32At post (p.off + b * SKIP_ENTRY)

def block_off_at (post : Bytes) (p : Posting) (b : Nat) : Res Nat := do
  return (← be32At post (p.off + b * SKIP_ENTRY + 4)).toNat

/-- Where a block ends: where the next one begins, or the end of the region. -/
def block_end_at (post : Bytes) (p : Posting) (b : Nat) : Res Nat :=
  if b + 1 < n_blocks p.count then do return p.off + (← block_off_at post p (b + 1))
  else return p.off + p.len

/-- The doubling steps that bracket the first block not below the candidate. -/
def gallop (below : Nat → Res Bool) (n lo step hi : Nat) (hstep : 0 < step) : Res (Nat × Nat) :=
  if hi < n then do
    if ← below hi then gallop below n hi (step * 2) (hi + step * 2) (by omega) else return (lo, hi)
  else return (lo, hi)
termination_by n - hi

def bisectBlocks (below : Nat → Res Bool) (a b : Nat) : Res Nat :=
  if a < b then do
    if ← below ((a + b) / 2) then bisectBlocks below ((a + b) / 2 + 1) b
    else bisectBlocks below a ((a + b) / 2)
  else return a
termination_by b - a

/-- `max_id_at(b) < cand`. -/
def belowAt (post : Bytes) (p : Posting) (cand : UInt32) (b : Nat) : Res Bool := do
  return decide ((← max_id_at post p b) < cand)

/-- The first block, from `hint` on, whose `max_id` is not below the candidate. -/
def firstBlock (post : Bytes) (p : Posting) (cand : UInt32) (hint : Nat) : Res Nat := do
  let n := n_blocks p.count
  let lo := min hint n
  if lo < n then
    if ← belowAt post p cand lo then
      let (lo, hi) ← gallop (belowAt post p cand) n lo 1 (lo + 1) Nat.one_pos
      bisectBlocks (belowAt post p cand) (lo + 1) (min hi n)
    else return lo
  else return lo

/-- Walk a block until the candidate is met or passed. -/
def scanBlock (post : Bytes) (cand : UInt32) (block_end pos : Nat) (acc : UInt32) (first : Bool) :
    Res Bool :=
  if pos < block_end then
    match _h : read_varint post pos with
    | .error e => .error e
    | .ok (delta, used) =>
      let acc := if first then delta else acc + delta
      if acc = cand then .ok true
      else if cand < acc then .ok false
      else scanBlock post cand block_end (pos + used) acc false
  else .ok false
termination_by block_end - pos
decreasing_by
  have := read_varint_loop_used _h
  omega

def trigram_contains (post : Bytes) (p : Posting) (cand : UInt32) (hint : Nat) : Res (Bool × Nat) := do
  let n := n_blocks p.count
  if n = 0 then return (false, 0)
  let block_idx ← firstBlock post p cand hint
  if n ≤ block_idx then return (false, n)
  if (← max_id_at post p block_idx) < cand then return (false, n)
  let block_off ← block_off_at post p block_idx
  let block_end ← block_end_at post p block_idx
  return (← scanBlock post cand block_end (p.off + block_off) 0 true, block_idx)

/-! ## The search -/

namespace Index

variable (ix : Index)

def trigram_lookup (tri : Tri) : Option Posting :=
  let dict := ix.trigram_dict_slice
  (bisectEq (fun mid => cmp (slice dict (mid * TRIGRAM_LEN) 3) tri.bytes) 0 ix.hdr.trigram_dict_n).map
    fun mid =>
      let row := mid * TRIGRAM_LEN
      ⟨ofBe (slice dict (row + 4) 8), ofBe (slice dict (row + 12) 4), ofBe (slice dict (row + 16) 4)⟩

/-- The name and the symbol of a row of the name index. -/
def name_row (row_id : Nat) : Res (Bytes × UInt64) := do
  if row_id < ix.hdr.names_n then
    let r := NameRow.decode (rowAt ix.names_slice NAME_LEN row_id)
    return (← blobSlice ix.blob r.name_off r.name_len, r.sym)
  else .error .panic

variable [Memmem]

/-- The test every candidate must pass. -/
def verify (needle : Bytes) (ignore_case : Bool) (name : Bytes) : Bool :=
  if ignore_case then (Memmem.find (lowercase needle) (lowercase name)).isSome
  else (Memmem.find needle name).isSome

end Index

/-- Whether a candidate is in every other list. Each list comes with its cursor, which moves to the
block where the probe stopped; the first miss ends the probing. -/
def probeOthers (post : Bytes) (cand : UInt32) :
    List (Posting × Nat) → Res (Bool × List (Posting × Nat))
  | [] => return (true, [])
  | (op, cursor) :: rest => do
    let (found, block_idx) ← trigram_contains post op cand cursor
    if found then
      let (in_all, rest) ← probeOthers post cand rest
      return (in_all, (op, block_idx) :: rest)
    else return (false, (op, block_idx) :: rest)

/-- `posts.iter().enumerate().min_by_key(|(_, p)| p.count)`: the first list of least length. -/
def driver_idx (posts : List Posting) : Nat :=
  posts.findIdx fun p => posts.all fun q => decide (p.count ≤ q.count)

namespace Index

variable (ix : Index)

/-- The loop over the driver's candidates. -/
def collect (hit : Bytes → Bool) (limit : Nat) :
    List UInt32 → List (Posting × Nat) → Finset UInt64 → List UInt64 → Res (List UInt64)
  | [], _, _, out => return out
  | cand :: cands, others, seen, out => do
    let (in_all, others) ← probeOthers ix.trigram_post_slice cand others
    if !in_all then collect hit limit cands others seen out
    else
      let (name, sym) ← ix.name_row cand.toNat
      if hit name ∧ sym ∉ seen then
        let out := out ++ [sym]
        if limit ≤ out.length then return out
        else collect hit limit cands others (insert sym seen) out
      else collect hit limit cands others seen out

/-- The first `limit` hits among the rows. -/
def scanRows (hit : Bytes → Bool) (limit : Nat) : List Nat → List UInt64 → Res (List UInt64)
  | [], found => return found
  | i :: rows, found => do
    let (name, sym) ← ix.name_row i
    if hit name then
      let found := found ++ [sym]
      if limit ≤ found.length then return found else scanRows hit limit rows found
    else scanRows hit limit rows found

/-- Thread `t` of the linear scan. -/
def scanChunk (hit : Bytes → Bool) (limit chunk t : Nat) : Res (List UInt64) :=
  let lo := t * chunk
  let hi := min ((t + 1) * chunk) ix.hdr.names_n
  ix.scanRows hit limit (List.range' lo (hi - lo)) []

/-- The hits of all threads in row order, each symbol once. -/
def gather (limit : Nat) : List UInt64 → Finset UInt64 → List UInt64 → List UInt64
  | [], _, out => out
  | sym :: syms, seen, out =>
    if sym ∈ seen then gather limit syms seen out
    else if limit ≤ (out ++ [sym]).length then out ++ [sym]
    else gather limit syms (insert sym seen) (out ++ [sym])

variable [Memmem]

/-- The scan, split over `parallelism` threads. -/
def syms_matching_substring_linear (parallelism : Nat) (nb : Bytes) (limit : Nat) (ignore_case : Bool) :
    Res (List UInt64) := do
  let n := ix.hdr.names_n
  if nb = [] ∨ n = 0 ∨ limit = 0 then return []
  let threads := min (max parallelism 1) n
  let chunk := (n + threads - 1) / threads
  let parts ← (List.range threads).mapM (ix.scanChunk (verify nb ignore_case) limit chunk)
  return gather limit parts.flatten ∅ []

def syms_matching_substring_trigram (parallelism : Nat) (needle : String) (limit : Nat)
    (ignore_case : Bool) : Res (List UInt64) := do
  let post := ix.trigram_post_slice
  let tris := sortDedup (windows3 (lowercase (as_bytes needle)))
  match tris.mapM ix.trigram_lookup with
  | none => return []
  | some posts =>
    match posts[driver_idx posts]? with
    | none => ix.syms_matching_substring_linear parallelism (as_bytes needle) limit ignore_case
    | some driver =>
      let driver_ids ← trigram_postings post driver
      let others := (posts.eraseIdx (driver_idx posts)).map fun p => (p, 0)
      ix.collect (verify (as_bytes needle) ignore_case) limit driver_ids others ∅ []

def syms_matching_substring_impl (parallelism : Nat) (needle : String) (limit : Nat)
    (ignore_case : Bool) : Res (List UInt64) :=
  if needle = "" ∨ ix.hdr.names_n = 0 ∨ limit = 0 then return []
  else if 3 ≤ len needle ∧ 0 < ix.hdr.trigram_dict_n then
    ix.syms_matching_substring_trigram parallelism needle limit ignore_case
  else ix.syms_matching_substring_linear parallelism (as_bytes needle) limit ignore_case

def syms_matching_substring (parallelism : Nat) (needle : String) (limit : Nat) : Res (List UInt64) :=
  ix.syms_matching_substring_impl parallelism needle limit false

def syms_matching_substring_ci (parallelism : Nat) (needle : String) (limit : Nat) : Res (List UInt64) :=
  ix.syms_matching_substring_impl parallelism needle limit true

end Index

end Scry2
