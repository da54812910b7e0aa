import Scry2.Text
import Scry2.Lib.SeekFile

/-!
# Peeking at a unit in JSON

`peek_json_primary_path` of `kzip.rs` does not parse: it looks for the text of a key in the raw
bytes and reads the string after it as it stands.
-/

open Scry2.Lib

namespace Scry2

def memmem_from (needle : Bytes) : Bytes → Nat → Option Nat
  | [], _ => none
  | b :: rest, i => if needle.isPrefixOf (b :: rest) then some i else memmem_from needle rest (i + 1)

/-- The first window equal to the needle. -/
def memmem (haystack needle : Bytes) : Option Nat :=
  if needle = [] ∨ haystack.length < needle.length then none else memmem_from needle haystack 0

theorem memmem_from_eq_some {needle : Bytes} {bytes : Bytes} {i j : Nat}
    (h : memmem_from needle bytes i = some j) : i ≤ j ∧ needle <+: bytes.drop (j - i) := by
  induction bytes generalizing i with
  | nil => cases h
  | cons b rest ih =>
    rw [memmem_from] at h
    split at h
    · rename_i hp
      cases h
      rw [Nat.sub_self]
      exact ⟨le_rfl, List.isPrefixOf_iff_prefix.mp hp⟩
    · obtain ⟨hle, hpre⟩ := ih h
      have e : j - i = j - (i + 1) + 1 := by omega
      rw [e, List.drop_succ_cons]
      exact ⟨by omega, hpre⟩

theorem memmem_eq_some {haystack needle : Bytes} {rel : Nat} (h : memmem haystack needle = some rel) :
    needle ≠ [] ∧ rel + needle.length ≤ haystack.length := by
  unfold memmem at h
  split at h
  · cases h
  · rename_i hne
    have hpos : 0 < needle.length := List.length_pos_iff.mpr fun hn => hne (.inl hn)
    have hle := (memmem_from_eq_some h).2.length_le
    rw [List.length_drop] at hle
    exact ⟨fun hn => hne (.inl hn), by omega⟩

def is_ascii_whitespace (b : UInt8) : Bool := b = 0x20 || b = 0x09 || b = 0x0a || b = 0x0c || b = 0x0d

/-- `while p < bytes.len() && bytes[p].is_ascii_whitespace() { p += 1; }`. -/
def skip_whitespace (bytes : Bytes) (p : Nat) : Nat :=
  p + ((bytes.drop p).takeWhile is_ascii_whitespace).length

/-- How far the walk to the closing quote goes: a backslash takes the byte after it along. -/
def quote_walk : Bytes → Nat
  | [] => 0
  | 0x22 :: _ => 0
  | [0x5c] => 1
  | 0x5c :: _ :: rest => quote_walk rest + 2
  | _ :: rest => quote_walk rest + 1

/-- The string whose opening quote is before `start`, and the position after its closing quote. -/
def take_quoted (bytes : Bytes) (start : Nat) : Option (String × Nat) :=
  let p := start + quote_walk (bytes.drop start)
  if bytes.length ≤ p then none
  else (from_utf8 (slice bytes start (p - start))).map fun s => (s, p + 1)

/-- The position after `:` and the white space around it, when they are next. -/
def after_colon (bytes : Bytes) (p : Nat) : Option Nat :=
  let p := skip_whitespace bytes p
  if bytes[p]? = some 0x3a then some (skip_whitespace bytes (p + 1)) else none

def json_first_value_string_or_list (bytes key : Bytes) : Option String := do
  let rel ← memmem bytes key
  let p ← after_colon bytes (rel + key.length)
  let p := if bytes[p]? = some 0x5b then skip_whitespace bytes (p + 1) else p
  if bytes[p]? = some 0x22 then (take_quoted bytes (p + 1)).map (·.1) else none

def json_take_string_value (bytes : Bytes) (start : Nat) : Option (String × Nat) := do
  let p ← after_colon bytes start
  if bytes[p]? = some 0x22 then take_quoted bytes (p + 1) else none

/-- `str::ends_with`. -/
def ends_with (s suffix : String) : Bool := as_bytes suffix <:+ as_bytes s

def is_source_extension (path : String) : Bool :=
  [".cc", ".cpp", ".cxx", ".c++", ".c", ".m", ".mm", ".java", ".kt", ".go", ".rs", ".proto", ".textpb",
    ".textproto"].any (ends_with path)

theorem json_take_string_value_lt {bytes : Bytes} {start stop : Nat} {s : String}
    (h : json_take_string_value bytes start = some (s, stop)) : start < stop := by
  unfold json_take_string_value after_colon skip_whitespace take_quoted at h
  simp only [Option.bind_eq_bind, Option.bind_eq_some_iff] at h
  obtain ⟨p, hp, h⟩ := h
  split at hp
  · cases hp
    split at h
    · split at h
      · cases h
      · obtain ⟨t, -, ht⟩ := Option.map_eq_some_iff.mp h
        cases ht
        omega
    · cases h
  · cases hp

/-- `"path"`, with its quotes. -/
def pathKey : Bytes := as_bytes "\"path\""

theorem pathKey_end_le {bytes : Bytes} {cursor rel : Nat}
    (h : memmem (bytes.drop cursor) pathKey = some rel) :
    cursor < cursor + rel + pathKey.length ∧ cursor + rel + pathKey.length ≤ bytes.length := by
  obtain ⟨hne, hle⟩ := memmem_eq_some h
  have hpos : 0 < pathKey.length := List.length_pos_iff.mpr hne
  rw [List.length_drop] at hle
  omega

/-- The walk over the `path` keys from `cursor` on: the first value that looks like a source file. -/
def peek_path_from (bytes : Bytes) (cursor : Nat) : Option String :=
  match _hm : memmem (bytes.drop cursor) pathKey with
  | none => none
  | some rel =>
    let after := cursor + rel + pathKey.length
    match _hv : json_take_string_value bytes after with
    | some (val, stop) => if is_source_extension val then some val else peek_path_from bytes stop
    | none => peek_path_from bytes after
termination_by bytes.length - cursor
decreasing_by
  · have hend := pathKey_end_le _hm
    have hlt := json_take_string_value_lt _hv
    omega
  · have hend := pathKey_end_le _hm
    omega

def peek_json_primary_path (bytes : Bytes) : Option String :=
  (json_first_value_string_or_list bytes (as_bytes "\"source_file\"")).or
    ((json_first_value_string_or_list bytes (as_bytes "\"sourceFile\"")).or (peek_path_from bytes 0))

end Scry2
