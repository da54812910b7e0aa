import Scry2.Ingest
import Scry2.Lib.Pairs
import Scry2.Lib.Wire

/-!
# The entry stream

`ingest_tolerant` of `kythe.rs` reads entries that are each preceded by their length. A stream that
is cut is read up to the cut, and rejected unless the caller tolerates that.
-/

open Scry2.Lib

namespace Scry2.Kythe

/-! ## Decoding an entry -/

inductive EntryError where
  | varint (e : DecodeError)
  | wireType (message : String) (wire field : UInt64)
  | pastBuffer (message : String) (field len : UInt64) (pos buf : Nat)

def liftVarint {α : Type} : Except DecodeError α → Except EntryError α
  | .ok a => .ok a
  | .error e => .error (.varint e)

/-- The number and the payload of the field at `pos`, and where it ends. -/
def read_field (message : String) (buf : Bytes) (pos : Nat) : Except EntryError ((UInt64 × Bytes) × Nat) := do
  let (tag, pos) ← liftVarint (read_varint_bytes buf pos)
  let field := tag >>> 3
  let wire := tag &&& 0x7
  if wire ≠ 2 then throw (.wireType message wire field)
  let (len, pos) ← liftVarint (read_varint_bytes buf pos)
  if pos + len.toNat < 2 ^ 64 ∧ pos + len.toNat ≤ buf.length then
    return ((field, (buf.drop pos).take len.toNat), pos + len.toNat)
  else throw (.pastBuffer message field len pos buf.length)

theorem read_field_pos {message : String} {buf : Bytes} {pos pos' : Nat} {f : UInt64 × Bytes}
    (h : read_field message buf pos = .ok (f, pos')) : pos < pos' := by
  unfold read_field at h
  cases htag : read_varint_bytes buf pos with
  | error e => simp [htag, liftVarint, bind, Except.bind] at h
  | ok tag =>
    have h1 := varint_loop_pos htag
    rw [htag] at h
    simp only [liftVarint, bind, Except.bind] at h
    split at h
    · cases h
    · cases hlen : read_varint_bytes buf tag.2 with
      | error e => simp [hlen] at h
      | ok len =>
        have h2 := varint_loop_pos hlen
        rw [hlen] at h
        simp only at h
        split at h
        · cases h
          omega
        · cases h

/-- The loop of both message parsers. -/
def message_loop {M : Type} (message : String) (set : M → UInt64 → Bytes → Except EntryError M) (buf : Bytes)
    (pos : Nat) (out : M) : Except EntryError M :=
  if pos < buf.length then
    match _h : read_field message buf pos with
    | .error e => .error e
    | .ok ((field, slice), next) =>
      match set out field slice with
      | .error e => .error e
      | .ok out => message_loop message set buf next out
  else .ok out
termination_by buf.length - pos
decreasing_by
  have := read_field_pos _h
  omega

def setVName (v : VName) (field : UInt64) (slice : Bytes) : Except EntryError VName :=
  .ok (match field with
    | 1 => { v with signature := from_utf8_lossy slice }
    | 2 => { v with corpus := from_utf8_lossy slice }
    | 3 => { v with root := from_utf8_lossy slice }
    | 4 => { v with path := from_utf8_lossy slice }
    | 5 => { v with language := from_utf8_lossy slice }
    | _ => v)

def parse_vname (buf : Bytes) : Except EntryError VName := message_loop "VName" setVName buf 0 {}

def setEntry (e : Entry) (field : UInt64) (slice : Bytes) : Except EntryError Entry :=
  match field with
  | 1 => do return { e with source := ← parse_vname slice }
  | 2 => .ok { e with edge_kind := from_utf8_lossy slice }
  | 3 => do return { e with target := ← parse_vname slice }
  | 4 => .ok { e with fact_name := from_utf8_lossy slice }
  | 5 => .ok { e with fact_value := slice }
  | _ => .ok e

def parse_entry (buf : Bytes) : Except EntryError Entry := message_loop "Entry" setEntry buf 0 {}

/-! ## Reading the stream -/

inductive IngestError where
  | truncatedVarint (i : Nat)
  | varintTooLong
  | oversize (len : UInt64)
  | truncatedEntry
  /-- `decode Entry #n`. -/
  | decode (n : Nat) (e : EntryError)

/-- `i` bytes are read, at most `fuel` may follow. -/
def read_varint_from : Nat → Nat → UInt64 → UInt64 → Bytes → Except IngestError (Option UInt64 × Bytes)
  | 0, _, _, _, _ => .error .varintTooLong
  | _ + 1, 0, _, _, [] => .ok (none, [])
  | _ + 1, i + 1, _, _, [] => .error (.truncatedVarint (i + 1))
  | fuel + 1, i, val, shift, b :: rest =>
    let val := val ||| ((b &&& 0x7f).toUInt64 <<< shift)
    if b &&& 0x80 = 0 then .ok (some val, rest) else read_varint_from fuel (i + 1) val (shift + 7) rest

/-- `none` at the end of the stream. -/
def read_varint (r : Bytes) : Except IngestError (Option UInt64 × Bytes) := read_varint_from 10 0 0 0 r

def MAX_ENTRY_LEN : Nat := 1 <<< 28

/-- One turn of the loop: the entry and the rest of the stream, or `none` at its end. `n` entries have
been read. -/
def read_entry (n : Nat) (r : Bytes) : Except IngestError (Option (Entry × Bytes)) := do
  let (len, r) ← read_varint r
  match len with
  | none => return none
  | some len =>
    if MAX_ENTRY_LEN < len.toNat then throw (.oversize len)
    -- `read_exact`
    if r.length < len.toNat then throw .truncatedEntry
    match parse_entry (r.take len.toNat) with
    | .ok entry => return some (entry, r.drop len.toNat)
    | .error e => throw (.decode n e)

theorem read_varint_from_length {fuel i : Nat} {val shift : UInt64} {r rest : Bytes} {v : UInt64}
    (h : read_varint_from fuel i val shift r = .ok (some v, rest)) : rest.length < r.length := by
  induction fuel generalizing i val shift r with
  | zero => cases h
  | succ fuel ih =>
    cases r with
    | nil => cases i <;> cases h
    | cons b r =>
      rw [read_varint_from] at h
      split at h
      · cases h
        exact Nat.lt_succ_self _
      · exact Nat.lt_succ_of_lt (ih h)

theorem read_entry_length {n : Nat} {r rest : Bytes} {e : Entry} (h : read_entry n r = .ok (some (e, rest))) :
    rest.length < r.length := by
  unfold read_entry at h
  cases hv : read_varint r with
  | error e => simp [hv, bind, Except.bind] at h
  | ok v =>
    obtain ⟨len, r'⟩ := v
    rw [hv] at h
    cases len with
    | none => cases h
    | some len =>
      have hr := read_varint_from_length hv
      simp only [bind, Except.bind] at h
      split at h
      · cases h
      · split at h
        · cases h
        · split at h
          · cases h
            rw [List.length_drop]
            omega
          · cases h

section

variable [XxHash64] [Unicode]

/-- Every kind of error ends the loop when the caller tolerates a truncated stream. -/
def ingest_loop (tolerate_trunc : Bool) (n : Nat) (r : Bytes) (st : IngestState) :
    Option (Except IngestError IngestState) :=
  match _h : read_entry n r with
  | .error e => some (if tolerate_trunc then .ok st else .error e)
  | .ok none => some (.ok st)
  | .ok (some (entry, rest)) => do ingest_loop tolerate_trunc (n + 1) rest (← process_entry entry st)
termination_by r.length
decreasing_by exact read_entry_length _h

/-- The outer `none` is the panic when the file ids run out. -/
def ingest_tolerant [SetOrder] [SortUnstable] (reader : Bytes) (builder : IndexBuilder) (file_ids : FileIdAllocator)
    (tolerate_trunc : Bool) : Option (Except IngestError (IndexBuilder × FileIdAllocator)) := do
  match ← ingest_loop tolerate_trunc 0 reader { sinks := { builder, file_ids } } with
  | .ok st => return .ok (finalize st, st.sinks.file_ids)
  | .error e => return .error e

end

/-! ## Well-formed entries decode -/

/-- A message whose fields are all length delimited. -/
def LenMessage (fs : List LenField) : Bytes := fs.flatMap LenField.bytes

/-- Any fields, known or not, in any order; those of the source and the target hold a `VName`. -/
def WellFormedEntry (body : Bytes) : Prop :=
  ∃ fs, body = LenMessage fs ∧ ∀ f ∈ fs, f.number = 1 ∨ f.number = 3 → ∃ gs, f.data = LenMessage gs

theorem len_tag {n : Nat} (hn : n < 2 ^ 29) :
    UInt64.ofNat (n * 8 + 2) >>> 3 = UInt64.ofNat n ∧ UInt64.ofNat (n * 8 + 2) &&& 0x7 = 2 := by
  have ht : (UInt64.ofNat (n * 8 + 2)).toNat = n * 8 + 2 :=
    UInt64.toNat_ofNat_of_lt' (by unfold UInt64.size; omega)
  constructor
  · rw [← UInt64.toNat_inj, UInt64.toNat_shiftRight, ht, UInt64.toNat_ofNat_of_lt' (by unfold UInt64.size; omega)]
    change (n * 8 + 2) >>> 3 = n
    rw [Nat.shiftRight_eq_div_pow]
    omega
  · rw [← UInt64.toNat_inj, UInt64.toNat_and, ht]
    change (n * 8 + 2) &&& (2 ^ 3 - 1) = 2
    rw [Nat.and_two_pow_sub_one_eq_mod]
    omega

theorem read_field_len {message : String} {buf rest : Bytes} {pos : Nat} {f : LenField}
    (h : buf.drop pos = f.bytes ++ rest) (hbuf : buf.length < 2 ^ 64) :
    read_field message buf pos = .ok ((UInt64.ofNat f.number, f.data), pos + f.bytes.length) := by
  obtain ⟨hfield, hwire⟩ := len_tag f.number_lt
  have hn := f.number_lt
  have hend := congrArg List.length h
  rw [LenField.bytes, List.append_assoc, List.append_assoc] at h
  have hsize : buf.drop (pos + f.tag.length) = f.size ++ (f.data ++ rest) := by
    rw [← List.drop_drop, h, List.drop_left]
  have hdata : buf.drop (pos + f.tag.length + f.size.length) = f.data ++ rest := by
    rw [← List.drop_drop, hsize, List.drop_left]
  have hpos := f.tag_ok.length_pos
  simp only [LenField.bytes, List.length_drop, List.length_append] at hend ⊢
  have hlen : f.data.length < 2 ^ 64 := by omega
  have e1 : read_varint_bytes buf pos = .ok (UInt64.ofNat (f.number * 8 + 2), pos + f.tag.length) := by
    rw [read_varint_bytes, h, varint_read f.tag_ok f.tag_len (by omega)]
  have e2 : read_varint_bytes buf (pos + f.tag.length) =
      .ok (UInt64.ofNat f.data.length, pos + f.tag.length + f.size.length) := by
    rw [read_varint_bytes, hsize, varint_read f.size_ok f.size_len hlen]
  unfold read_field
  rw [e1]
  simp only [liftVarint, bind, Except.bind, hfield, hwire, e2, ne_eq, not_true_eq_false, if_false]
  rw [UInt64.toNat_ofNat_of_lt' hlen, hdata, List.take_left, if_pos (by omega)]
  simp only [pure, Except.pure, Except.ok.injEq, Prod.mk.injEq, true_and]
  omega

/-- The loop handles the fields one by one, and none of them is an error. -/
theorem message_loop_ok {M : Type} {message : String} {set : M → UInt64 → Bytes → Except EntryError M}
    {fs : List LenField} (hset : ∀ f ∈ fs, ∀ out, ∃ out', set out (UInt64.ofNat f.number) f.data = .ok out')
    {buf : Bytes} (hbuf : buf.length < 2 ^ 64) {pos : Nat} (h : buf.drop pos = LenMessage fs) (out : M) :
    ∃ v, message_loop message set buf pos out = .ok v := by
  induction fs generalizing pos out with
  | nil =>
    have hle := List.drop_eq_nil_iff.mp h
    rw [message_loop, if_neg (by omega)]
    exact ⟨out, rfl⟩
  | cons f fs ih =>
    have hcons : buf.drop pos = f.bytes ++ LenMessage fs := h
    have hlt : pos < buf.length := by
      have := congrArg List.length hcons
      have hpos := f.bytes_pos
      rw [List.length_drop, List.length_append] at this
      omega
    have hfield : read_field message buf pos = .ok ((UInt64.ofNat f.number, f.data), pos + f.bytes.length) :=
      read_field_len hcons hbuf
    obtain ⟨out', hout⟩ := hset f List.mem_cons_self out
    have htail : buf.drop (pos + f.bytes.length) = LenMessage fs := by rw [← List.drop_drop, hcons, List.drop_left]
    rw [message_loop, if_pos hlt]
    split
    · rename_i e he
      rw [hfield] at he
      cases he
    · rename_i field slice next he
      rw [hfield] at he
      cases he
      rw [hout]
      exact ih (fun g hg => hset g (List.mem_cons_of_mem _ hg)) htail out'

theorem parse_vname_ok {gs : List LenField} (hlen : (LenMessage gs).length < 2 ^ 64) :
    ∃ v, parse_vname (LenMessage gs) = .ok v :=
  message_loop_ok (fun _ _ _ => ⟨_, rfl⟩) hlen List.drop_zero _

theorem data_length_le {fs : List LenField} {f : LenField} (hf : f ∈ fs) :
    f.data.length ≤ (LenMessage fs).length := by
  obtain ⟨xs, ys, rfl⟩ := List.append_of_mem hf
  simp only [LenMessage, List.flatMap_append, List.flatMap_cons, List.length_append, LenField.bytes]
  omega

theorem parse_entry_ok {body : Bytes} (h : WellFormedEntry body) (hlen : body.length < 2 ^ 64) :
    ∃ e, parse_entry body = .ok e := by
  obtain ⟨fs, rfl, hsub⟩ := h
  refine message_loop_ok (fun f hf out => ?_) hlen List.drop_zero _
  have hdata := data_length_le hf
  have hn := f.number_lt
  have hnum : ∀ k : Nat, k < 2 ^ 29 → UInt64.ofNat f.number = UInt64.ofNat k → f.number = k := by
    intro k hk heq
    have := congrArg UInt64.toNat heq
    rwa [UInt64.toNat_ofNat_of_lt' (by unfold UInt64.size; omega),
      UInt64.toNat_ofNat_of_lt' (by unfold UInt64.size; omega)] at this
  have hvname : f.number = 1 ∨ f.number = 3 → ∃ v, parse_vname f.data = .ok v := by
    intro h
    obtain ⟨gs, hgs⟩ := hsub f hf h
    rw [hgs] at hdata ⊢
    exact parse_vname_ok (by omega)
  unfold setEntry
  split
  · rename_i heq
    obtain ⟨v, hv⟩ := hvname (.inl (hnum 1 (by decide) heq))
    rw [hv]
    exact ⟨_, rfl⟩
  · exact ⟨_, rfl⟩
  · rename_i heq
    obtain ⟨v, hv⟩ := hvname (.inr (hnum 3 (by decide) heq))
    rw [hv]
    exact ⟨_, rfl⟩
  all_goals exact ⟨_, rfl⟩

/-! ## Frames -/

/-- A length and that many bytes. -/
structure Frame where
  size : Bytes
  body : Bytes
  size_len : size.length ≤ 10
  size_ok : Varint size body.length
  body_le : body.length ≤ MAX_ENTRY_LEN
  body_ok : WellFormedEntry body

def Frame.bytes (f : Frame) : Bytes := f.size ++ f.body

def framed (fs : List Frame) : Bytes := fs.flatMap Frame.bytes

theorem MAX_ENTRY_LEN_lt : MAX_ENTRY_LEN < 2 ^ 64 := by decide

theorem Frame.body_lt (f : Frame) : f.body.length < 2 ^ 64 := lt_of_le_of_lt f.body_le MAX_ENTRY_LEN_lt

theorem Frame.decodes (f : Frame) : ∃ e, parse_entry f.body = .ok e := parse_entry_ok f.body_ok f.body_lt

/-- The stream's reader does what the reader of a buffer does. -/
theorem read_varint_from_eq {fuel : Nat} {val shift v : UInt64} {i pos : Nat} {r : Bytes}
    (h : varint_loop fuel val shift i r = .ok (v, pos)) :
    read_varint_from fuel i val shift r = .ok (some v, r.drop (pos - i)) := by
  induction fuel generalizing val shift i r with
  | zero => cases h
  | succ fuel ih =>
    cases r with
    | nil => cases h
    | cons b r =>
      rw [varint_loop] at h
      rw [read_varint_from]
      split at h
      · rename_i hlast
        cases h
        rw [if_pos hlast, Nat.add_sub_cancel_left]
        rfl
      · rename_i hmore
        have hpos := varint_loop_pos h
        rw [if_neg hmore, ih h, show pos - i = pos - (i + 1) + 1 by omega]
        rfl

theorem read_varint_frame (f : Frame) (rest : Bytes) :
    read_varint (f.size ++ rest) = .ok (some (UInt64.ofNat f.body.length), rest) := by
  have h := varint_read f.size_ok f.size_len f.body_lt 0 rest
  rw [read_varint, read_varint_from_eq h, Nat.zero_add, Nat.sub_zero, List.drop_left]

/-- Bytes that all say that more follow, and the end of the stream. -/
theorem read_varint_cut {fuel i : Nat} {val shift : UInt64} {r : Bytes} (hr : ∀ b ∈ r, 0x80 ≤ b.toNat)
    (hfuel : r.length < fuel) (hi : 0 < i + r.length) :
    read_varint_from fuel i val shift r = .error (.truncatedVarint (i + r.length)) := by
  induction r generalizing fuel i val shift with
  | nil =>
    obtain ⟨fuel, rfl⟩ : ∃ k, fuel = k + 1 := ⟨fuel - 1, by omega⟩
    obtain ⟨i, rfl⟩ : ∃ k, i = k + 1 := ⟨i - 1, by simp only [List.length_nil] at hi; omega⟩
    rfl
  | cons b r ih =>
    obtain ⟨fuel, rfl⟩ : ∃ k, fuel = k + 1 := ⟨fuel - 1, by omega⟩
    rw [List.length_cons] at hfuel
    have hb := hr b List.mem_cons_self
    rw [read_varint_from, if_neg (by rw [and_80_eq_zero_iff]; omega),
      ih (fun c hc => hr c (List.mem_cons_of_mem _ hc)) (by omega) (by omega), List.length_cons]
    congr 2
    omega

/-! ## One turn of the loop -/

theorem read_entry_frame (n : Nat) (f : Frame) {e : Entry} (he : parse_entry f.body = .ok e) (rest : Bytes) :
    read_entry n (f.bytes ++ rest) = .ok (some (e, rest)) := by
  have hlen : (UInt64.ofNat f.body.length).toNat = f.body.length := UInt64.toNat_ofNat_of_lt' f.body_lt
  have hle := f.body_le
  rw [Frame.bytes, List.append_assoc]
  unfold read_entry
  rw [read_varint_frame]
  simp only [bind, Except.bind, hlen, List.length_append, List.take_left, List.drop_left, he]
  rw [if_neg (by omega)]
  simp only [pure, Except.pure]
  rw [if_neg (by omega)]

theorem read_entry_short {n : Nat} {r q : Bytes} {len : Nat} (hread : read_varint r = .ok (some (UInt64.ofNat len), q))
    (hq : q.length < len) (hlen : len ≤ MAX_ENTRY_LEN) : read_entry n r = .error .truncatedEntry := by
  have htoNat : (UInt64.ofNat len).toNat = len :=
    UInt64.toNat_ofNat_of_lt' (lt_of_le_of_lt hlen MAX_ENTRY_LEN_lt)
  unfold read_entry
  rw [hread]
  simp only [bind, Except.bind, htoNat]
  rw [if_neg (by omega)]
  simp only [pure, Except.pure]
  rw [if_pos hq]
  rfl

/-- A frame that is cut inside, and not before its first byte. -/
theorem read_entry_cut (n : Nat) (f : Frame) {r : Bytes} (hpre : r <+: f.bytes) (hne : r ≠ []) (hcut : r ≠ f.bytes) :
    ∃ e, read_entry n r = .error e := by
  rcases List.prefix_or_prefix_of_prefix hpre (List.prefix_append f.size f.body) with hsize | ⟨q, rfl⟩
  · by_cases heq : r = f.size
    · -- The length is there and nothing else, so the body is not empty.
      subst heq
      have hbody : f.body.length ≠ 0 := by
        intro h0
        rw [Frame.bytes, List.length_eq_zero_iff.mp h0, List.append_nil] at hcut
        exact hcut rfl
      have hread := read_varint_frame f []
      rw [List.append_nil] at hread
      refine ⟨.truncatedEntry, ?_⟩
      exact read_entry_short hread (Nat.pos_of_ne_zero hbody) f.body_le
    · have hlen : r.length < f.size.length := by
        rcases Nat.lt_or_ge r.length f.size.length with h | h
        · exact h
        · exact absurd (hsize.eq_of_length_le h) heq
      have hsz := f.size_len
      have hpos := List.length_pos_of_ne_nil hne
      have hread : read_varint r = .error (.truncatedVarint (0 + r.length)) :=
        read_varint_cut (f.size_ok.high_of_cut hsize heq) (by omega) (by omega)
      refine ⟨.truncatedVarint (0 + r.length), ?_⟩
      unfold read_entry
      rw [hread]
      rfl
  · have hq : q.length < f.body.length := by
      have hle := hpre.length_le
      rw [Frame.bytes, List.length_append, List.length_append] at hle
      rcases Nat.lt_or_ge q.length f.body.length with h | h
      · exact h
      · refine absurd (hpre.eq_of_length_le ?_) hcut
        rw [Frame.bytes, List.length_append, List.length_append]
        omega
    exact ⟨.truncatedEntry, read_entry_short (read_varint_frame f q) hq f.body_le⟩

/-! ## Runs over a prefix of the stream -/

section

variable [XxHash64] [Unicode]

theorem ingest_loop_entry {tolerate : Bool} {n : Nat} {r rest : Bytes} {e : Entry}
    (h : read_entry n r = .ok (some (e, rest))) (st : IngestState) :
    ingest_loop tolerate n r st = process_entry e st >>= ingest_loop tolerate (n + 1) rest := by
  rw [ingest_loop]
  split
  · rename_i e' he
    rw [h] at he
    cases he
  · rename_i he
    rw [h] at he
    cases he
  · rename_i entry rest' he
    rw [h] at he
    cases he
    rfl

theorem ingest_loop_error {tolerate : Bool} {n : Nat} {r : Bytes} {e : IngestError} (h : read_entry n r = .error e)
    (st : IngestState) : ingest_loop tolerate n r st = some (if tolerate then .ok st else .error e) := by
  rw [ingest_loop]
  split
  · rename_i e' he
    rw [h] at he
    cases he
    rfl
  · rename_i he
    rw [h] at he
    cases he
  · rename_i entry rest' he
    rw [h] at he
    cases he

theorem ingest_loop_nil {tolerate : Bool} {n : Nat} (st : IngestState) :
    ingest_loop tolerate n [] st = some (.ok st) := by
  rw [ingest_loop]
  split
  · rename_i e' he
    cases he
  · rfl
  · rename_i entry rest' he
    cases he

end

/-- How a prefix of a stream ends, after how many frames: at a boundary, or inside a frame. -/
inductive Ends : List Frame → Bytes → Nat → Bool → Prop
  | boundary (fs : List Frame) : Ends fs [] 0 true
  | inside (f : Frame) (fs : List Frame) {r : Bytes} (hpre : r <+: f.bytes) (hne : r ≠ []) (hcut : r ≠ f.bytes) :
      Ends (f :: fs) r 0 false
  | frame (f : Frame) {fs : List Frame} {r : Bytes} {k : Nat} {clean : Bool} (h : Ends fs r k clean) :
      Ends (f :: fs) (f.bytes ++ r) (k + 1) clean

theorem Frame.bytes_ne_nil (f : Frame) : f.bytes ≠ [] := by
  have h := f.size_ok.length_pos
  intro hnil
  have := congrArg List.length hnil
  rw [Frame.bytes, List.length_append, List.length_nil] at this
  omega

theorem framed_cons (f : Frame) (fs : List Frame) : framed (f :: fs) = f.bytes ++ framed fs := List.flatMap_cons

theorem exists_ends {fs : List Frame} {p : Bytes} (hp : p <+: framed fs) : ∃ k clean, Ends fs p k clean := by
  induction fs generalizing p with
  | nil =>
    rw [List.prefix_nil.mp hp]
    exact ⟨0, true, .boundary []⟩
  | cons f fs ih =>
    rw [framed_cons] at hp
    rcases List.prefix_or_prefix_of_prefix hp (List.prefix_append f.bytes (framed fs)) with hshort | ⟨r, rfl⟩
    · by_cases hnil : p = []
      · exact ⟨0, true, hnil ▸ .boundary _⟩
      · by_cases heq : p = f.bytes
        · refine ⟨1, true, ?_⟩
          have h := Ends.frame f (.boundary fs)
          rwa [List.append_nil, ← heq] at h
        · exact ⟨0, false, .inside f fs hshort hnil heq⟩
    · obtain ⟨k, clean, h⟩ := ih ((List.prefix_append_right_inj f.bytes).mp hp)
      exact ⟨k + 1, clean, .frame f h⟩

theorem Ends.complete {fs : List Frame} {p : Bytes} {k : Nat} {clean : Bool} (h : Ends fs p k clean) :
    k ≤ fs.length ∧ framed (fs.take k) <+: p ∧ (clean = true ↔ p = framed (fs.take k)) := by
  induction h with
  | boundary fs => exact ⟨Nat.zero_le _, List.nil_prefix, by simp [framed]⟩
  | inside f fs hpre hne hcut =>
    refine ⟨Nat.zero_le _, List.nil_prefix, ?_⟩
    simp only [Bool.false_eq_true, false_iff]
    exact hne
  | frame f h ih =>
    obtain ⟨hk, hpre, hclean⟩ := ih
    rw [List.take_succ_cons, framed_cons]
    exact ⟨Nat.succ_le_succ hk, (List.prefix_append_right_inj f.bytes).mpr hpre,
      hclean.trans (List.append_cancel_left_eq ..).symm.to_iff⟩

/-- No more frames are complete. -/
theorem Ends.maximal {fs : List Frame} {p : Bytes} {k : Nat} {clean : Bool} (h : Ends fs p k clean) {j : Nat}
    (hj : j ≤ fs.length) (hpre : framed (fs.take j) <+: p) : j ≤ k := by
  induction h generalizing j with
  | boundary fs =>
    cases fs with
    | nil => exact hj
    | cons f fs =>
      cases j with
      | zero => exact Nat.zero_le _
      | succ j =>
        rw [List.take_succ_cons, framed_cons] at hpre
        exact absurd (List.append_eq_nil_iff.mp (List.prefix_nil.mp hpre)).1 f.bytes_ne_nil
  | inside f fs hpre' hne hcut =>
    cases j with
    | zero => exact Nat.zero_le _
    | succ j =>
      rw [List.take_succ_cons, framed_cons] at hpre
      have hf := (List.prefix_append f.bytes _).trans hpre
      exact absurd (hpre'.eq_of_length_le hf.length_le) hcut
  | frame f h ih =>
    cases j with
    | zero => exact Nat.zero_le _
    | succ j =>
      rw [List.take_succ_cons, framed_cons] at hpre
      exact Nat.succ_le_succ (ih (Nat.le_of_succ_le_succ hj) ((List.prefix_append_right_inj f.bytes).mp hpre))

section

variable [XxHash64] [Unicode]

/-- The loop processes the complete entries and ends well if the prefix does or the cut is tolerated. -/
theorem ingest_loop_ends {fs : List Frame} {p : Bytes} {k : Nat} {clean : Bool} (h : Ends fs p k clean)
    {es : List Entry} (hes : List.Forall₂ (fun f e => parse_entry f.body = .ok e) fs es) (n : Nat) :
    ∃ e, ∀ tolerate st, ingest_loop tolerate n p st =
      (es.take k).foldlM (fun st e => process_entry e st) st >>= fun st =>
        some (if clean || tolerate then .ok st else .error e) := by
  induction h generalizing es n with
  | boundary fs =>
    refine ⟨.truncatedEntry, fun tolerate st => ?_⟩
    rw [ingest_loop_nil]
    rfl
  | inside f fs hpre hne hcut =>
    obtain ⟨e, he⟩ := read_entry_cut n f hpre hne hcut
    refine ⟨e, fun tolerate st => ?_⟩
    rw [ingest_loop_error he]
    rfl
  | @frame f fs r k clean h ih =>
    cases hes with
    | @cons _ e _ es he hes =>
      obtain ⟨err, herr⟩ := ih hes (n + 1)
      refine ⟨err, fun tolerate st => ?_⟩
      rw [ingest_loop_entry (read_entry_frame n f he r), List.take_succ_cons, List.foldlM_cons, bind_assoc]
      congr 1
      funext st
      exact herr tolerate st

theorem process_all_of_room {es : List Entry} {st : IngestState}
    (h : st.sinks.file_ids.next + es.length < 2 ^ 32) :
    ∃ st', es.foldlM (fun st e => process_entry e st) st = some st' := by
  induction es generalizing st with
  | nil => exact ⟨st, rfl⟩
  | cons e es ih =>
    rw [List.length_cons] at h
    have hroom : st.sinks.file_ids.next + 1 < 2 ^ 32 := by omega
    obtain ⟨st', hst, hnext⟩ := process_of_room hroom e
    have hrest : st'.sinks.file_ids.next + es.length < 2 ^ 32 := by omega
    obtain ⟨last, hlast⟩ := ih hrest
    exact ⟨last, by rw [List.foldlM_cons, hst]; exact hlast⟩

variable [SetOrder] [SortUnstable]

theorem ingest_of_ends {fs : List Frame} {p : Bytes} {k : Nat} {clean : Bool} (h : Ends fs p k clean)
    {es : List Entry} (hes : List.Forall₂ (fun f e => parse_entry f.body = .ok e) fs es) :
    ∃ e, ∀ tolerate b a, ingest_tolerant p b a tolerate =
      (ingestEntries (es.take k) b a).map fun r => if clean || tolerate then .ok r else .error e := by
  obtain ⟨e, he⟩ := ingest_loop_ends h hes 0
  refine ⟨e, fun tolerate b a => ?_⟩
  rw [ingest_tolerant, he, ingestEntries, bind_assoc]
  cases (es.take k).foldlM (fun st e => process_entry e st) { sinks := { builder := b, file_ids := a } } with
  | none => rfl
  | some st => cases clean || tolerate <;> simp

/-- A prefix of a stream of well-formed entries. With `k` complete entries in it, a tolerant ingest gives
what these entries alone give, and a strict one does so exactly if the prefix ends after an entry; it is
an error otherwise. The calls return unless the file ids run out. -/
theorem truncated_stream_ingested (fs : List Frame) (p : Bytes) (hp : p <+: framed fs) (b : IndexBuilder)
    (a : FileIdAllocator) :
    ∃ es k, List.Forall₂ (fun f e => parse_entry f.body = .ok e) fs es ∧
      (k ≤ fs.length ∧ framed (fs.take k) <+: p ∧ ∀ j ≤ fs.length, framed (fs.take j) <+: p → j ≤ k) ∧
      ingest_tolerant p b a true = (ingestEntries (es.take k) b a).map .ok ∧
      (if p = framed (fs.take k) then ingest_tolerant p b a false = (ingestEntries (es.take k) b a).map .ok
        else ∃ e, ingest_tolerant p b a false = (ingestEntries (es.take k) b a).map fun _ => .error e) ∧
      (a.next + k < 2 ^ 32 → (ingestEntries (es.take k) b a).isSome) := by
  obtain ⟨es, hes⟩ : ∃ es, List.Forall₂ (fun f e => parse_entry f.body = .ok e) fs es :=
    exists_forall₂ fun f _ => f.decodes
  obtain ⟨k, clean, hends⟩ := exists_ends hp
  obtain ⟨hk, hpre, hclean⟩ := hends.complete
  obtain ⟨e, he⟩ := ingest_of_ends hends hes
  refine ⟨es, k, hes, ⟨hk, hpre, fun j hj => hends.maximal hj⟩, ?_, ?_, fun hroom => ?_⟩
  · rw [he]
    simp
  · split
    · rename_i hp
      rw [he, hclean.mpr hp]
      rfl
    · rename_i hp
      refine ⟨e, ?_⟩
      have hfalse : clean = false := by
        cases clean with
        | false => rfl
        | true => exact absurd (hclean.mp rfl) hp
      rw [he, hfalse]
      rfl
  · have hlen : (es.take k).length ≤ k := List.length_take_le ..
    have hnext : a.next + (es.take k).length < 2 ^ 32 := by omega
    let st₀ : IngestState := { sinks := { builder := b, file_ids := a } }
    obtain ⟨st, hst⟩ : ∃ st, (es.take k).foldlM (fun st e => process_entry e st) st₀ = some st :=
      process_all_of_room hnext
    rw [ingestEntries, hst]
    rfl

end

/-! Two entries without a source, which the ingest passes over, cut in the length of the second. -/

def nameField : LenField where
  number := 4
  tag := [0x22]
  size := [1]
  data := [0x78]
  number_lt := by decide
  tag_len := by decide
  tag_ok := .last 0x22 (by decide)
  size_len := by decide
  size_ok := .last 1 (by decide)

theorem nameField_entry : WellFormedEntry [0x22, 1, 0x78] := by
  refine ⟨[nameField], rfl, fun f hf h => ?_⟩
  rw [List.mem_singleton.mp hf] at h
  exact absurd h (by decide)

def nameFrame : Frame where
  size := [3]
  body := [0x22, 1, 0x78]
  size_len := by decide
  size_ok := .last 3 (by decide)
  body_le := by decide
  body_ok := nameField_entry

/-- Its length takes two bytes, though one would do. -/
def longFrame : Frame where
  size := [0x83, 0]
  body := [0x22, 1, 0x78]
  size_len := by decide
  size_ok := .more 0x83 (by decide) (.last 0 (by decide))
  body_le := by decide
  body_ok := nameField_entry

/-- The hash of no string is needed here. -/
@[reducible] def zeroHash : XxHash64 := ⟨fun _ => 0⟩

section

attribute [local instance] asciiUnicode dedupOrder stableSort zeroHash

theorem truncated_stream_ingested_twoFrames :
    [3, 0x22, 1, 0x78, 0x83] <+: framed [nameFrame, longFrame] ∧
      ∃ es k, List.Forall₂ (fun f e => parse_entry f.body = .ok e) [nameFrame, longFrame] es ∧
        (k ≤ 2 ∧ framed ([nameFrame, longFrame].take k) <+: [3, 0x22, 1, 0x78, 0x83] ∧
          ∀ j ≤ 2, framed ([nameFrame, longFrame].take j) <+: [3, 0x22, 1, 0x78, 0x83] → j ≤ k) ∧
        ingest_tolerant [3, 0x22, 1, 0x78, 0x83] IndexBuilder.new {} true = (ingestEntries (es.take k) IndexBuilder.new {}).map .ok ∧
        (if [3, 0x22, 1, 0x78, 0x83] = framed ([nameFrame, longFrame].take k) then
          ingest_tolerant [3, 0x22, 1, 0x78, 0x83] IndexBuilder.new {} false = (ingestEntries (es.take k) IndexBuilder.new {}).map .ok
        else ∃ e, ingest_tolerant [3, 0x22, 1, 0x78, 0x83] IndexBuilder.new {} false =
          (ingestEntries (es.take k) IndexBuilder.new {}).map fun _ => .error e) ∧
        (0 + k < 2 ^ 32 → (ingestEntries (es.take k) IndexBuilder.new {}).isSome) :=
  have hp : [3, 0x22, 1, 0x78, 0x83] <+: framed [nameFrame, longFrame] := ⟨[0, 0x22, 1, 0x78], rfl⟩
  ⟨hp, truncated_stream_ingested [nameFrame, longFrame] _ hp IndexBuilder.new {}⟩

end

end Scry2.Kythe
