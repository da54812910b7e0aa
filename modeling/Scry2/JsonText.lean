import Scry2.JsonPeek

/-!
# JSON texts

A text as its tokens with any white space between them. Between the quotes of a string a character
stands for itself or is escaped, so one string has many spellings.
-/

open Scry2.Lib

namespace Scry2

/-! ## Spellings -/

/-- A character that may stand for itself. -/
def Plain (c : Char) : Prop := c ≠ '"' ∧ c ≠ '\\' ∧ 0x20 ≤ c.toNat

instance : DecidablePred Plain := fun c => inferInstanceAs (Decidable (c ≠ '"' ∧ c ≠ '\\' ∧ 0x20 ≤ c.toNat))

def hexDigit (c : Char) : Option Nat :=
  if '0' ≤ c ∧ c ≤ '9' then some (c.toNat - 48)
  else if 'a' ≤ c ∧ c ≤ 'f' then some (c.toNat - 87)
  else if 'A' ≤ c ∧ c ≤ 'F' then some (c.toNat - 55)
  else none

/-- The number that four hexadecimal digits name. -/
def hexValue (ds : List Char) : Option Nat :=
  if ds.length = 4 then ds.foldlM (fun n d => (hexDigit d).map (16 * n + ·)) 0 else none

def shortEscapes : List (Char × Char) :=
  [('"', '"'), ('\\', '\\'), ('/', '/'), ('\x08', 'b'), ('\x0c', 'f'), ('\n', 'n'), ('\r', 'r'), ('\t', 't')]

/-- The escapes of a character: a letter, its UTF-16 unit, or its two units. -/
inductive Escape : Char → List Char → Prop
  | short {c e : Char} : (c, e) ∈ shortEscapes → Escape c ['\\', e]
  | unit {c : Char} {ds : List Char} : hexValue ds = some c.toNat → Escape c ('\\' :: 'u' :: ds)
  | pair {c : Char} {hi lo : List Char} : 0x10000 ≤ c.toNat →
      hexValue hi = some (0xd800 + (c.toNat - 0x10000) / 0x400) →
      hexValue lo = some (0xdc00 + (c.toNat - 0x10000) % 0x400) →
      Escape c ('\\' :: 'u' :: (hi ++ '\\' :: 'u' :: lo))

/-- A character and how it is spelled. -/
structure Spelled where
  char : Char
  text : List Char
  legal : (text = [char] ∧ Plain char) ∨ Escape char text

/-- A string with its spelling. -/
abbrev Text := List Spelled

namespace Text

def value (t : Text) : String := String.ofList (t.map Spelled.char)

/-- What stands between the quotes. -/
def raw (t : Text) : String := String.ofList (t.flatMap Spelled.text)

def Unescaped (t : Text) : Prop := ∀ s ∈ t, s.text = [s.char]

theorem escape_length {c : Char} {text : List Char} (h : Escape c text) : 2 ≤ text.length := by
  cases h <;> simp

theorem text_length_pos (s : Spelled) : 1 ≤ s.text.length := by
  rcases s.legal with ⟨h, -⟩ | h
  · rw [h]
    exact le_rfl
  · exact le_of_lt (escape_length h)

theorem length_le_flatMap_text (t : Text) : t.length ≤ (t.flatMap Spelled.text).length := by
  induction t with
  | nil => exact le_rfl
  | cons s t ih =>
    have hs := text_length_pos s
    rw [List.flatMap_cons, List.length_append, List.length_cons]
    omega

/-- The raw text of a string is the string when nothing in it is escaped, and only then. -/
theorem raw_eq_value_iff (t : Text) : t.raw = t.value ↔ t.Unescaped := by
  rw [raw, value, String.ofList_inj]
  induction t with
  | nil => simp [Unescaped]
  | cons s t ih =>
    have hlen := length_le_flatMap_text t
    have hcons : Unescaped (s :: t) ↔ s.text = [s.char] ∧ Unescaped t := by simp [Unescaped]
    rw [hcons, ← ih, List.flatMap_cons, List.map_cons]
    constructor
    · intro h
      rcases s.legal with ⟨hs, -⟩ | hs
      · rw [hs, List.singleton_append, List.cons.injEq] at h
        exact ⟨hs, h.2⟩
      · -- An escape makes the raw text longer than the string.
        have he := escape_length hs
        have hl := congrArg List.length h
        rw [List.length_append, List.length_cons, List.length_map] at hl
        omega
    · rintro ⟨hs, ht⟩
      rw [hs, ht]
      rfl

end Text

/-! ## What stands between quotes -/

/-- No quote but escaped ones, and every backslash takes a character along. -/
inductive Raw : List Char → Prop
  | nil : Raw []
  | plain {c : Char} {r : List Char} : c ≠ '"' → c ≠ '\\' → Raw r → Raw (c :: r)
  | esc {e : Char} {r : List Char} : e.toNat < 0x80 → Raw r → Raw ('\\' :: e :: r)

theorem Raw.append {r r' : List Char} (h : Raw r) (h' : Raw r') : Raw (r ++ r') := by
  induction h with
  | nil => exact h'
  | plain hq hb _ ih => exact .plain hq hb ih
  | esc he _ ih => exact .esc he ih

theorem hexDigits_plain {n m : Nat} {ds : List Char}
    (h : ds.foldlM (fun n d => (hexDigit d).map (16 * n + ·)) m = some n) :
    ∀ d ∈ ds, d ≠ '"' ∧ d ≠ '\\' := by
  induction ds generalizing m with
  | nil => simp
  | cons d ds ih =>
    rw [List.foldlM_cons] at h
    simp only [Option.bind_eq_bind, Option.bind_eq_some_iff, Option.map_eq_some_iff] at h
    obtain ⟨k, ⟨v, hv, -⟩, hrest⟩ := h
    have hq : d ≠ '"' := by rintro rfl; simp [hexDigit] at hv
    have hb : d ≠ '\\' := by rintro rfl; simp [hexDigit] at hv
    exact List.forall_mem_cons.mpr ⟨⟨hq, hb⟩, ih hrest⟩

theorem hexValue_plain {n : Nat} {ds : List Char} (h : hexValue ds = some n) :
    ∀ d ∈ ds, d ≠ '"' ∧ d ≠ '\\' := by
  unfold hexValue at h
  split at h
  · exact hexDigits_plain h
  · cases h

theorem raw_of_plain {r : List Char} (h : ∀ c ∈ r, c ≠ '"' ∧ c ≠ '\\') : Raw r := by
  induction r with
  | nil => exact .nil
  | cons c r ih =>
    obtain ⟨⟨hq, hb⟩, hr⟩ := List.forall_mem_cons.mp h
    exact .plain hq hb (ih hr)

theorem raw_hexValue {n : Nat} {ds : List Char} (h : hexValue ds = some n) : Raw ds :=
  raw_of_plain (hexValue_plain h)

theorem Spelled.raw (s : Spelled) : Raw s.text := by
  obtain ⟨c, text, h⟩ := s
  rcases h with ⟨rfl, hq, hb, -⟩ | h
  · exact .plain hq hb .nil
  · cases h with
    | @short e hmem =>
      have he : e.toNat < 0x80 := by
        have hall : ∀ p ∈ shortEscapes, p.2.toNat < 0x80 := by decide
        exact hall _ hmem
      exact .esc he .nil
    | unit hu => exact .esc (by decide) (raw_hexValue hu)
    | pair _ hhi hlo =>
      exact .esc (by decide) ((raw_hexValue hhi).append (.esc (by decide) (raw_hexValue hlo)))

theorem Text.isRaw (t : Text) : Raw (t.flatMap Spelled.text) := by
  induction t with
  | nil => exact .nil
  | cons s t ih => exact s.raw.append ih

/-! ## Tokens -/

inductive Punct where
  | lbrace
  | rbrace
  | lbrack
  | rbrack
  | colon
  | comma
  deriving DecidableEq

def Punct.byte : Punct → UInt8
  | .lbrace => 0x7b
  | .rbrace => 0x7d
  | .lbrack => 0x5b
  | .rbrack => 0x5d
  | .colon => 0x3a
  | .comma => 0x2c

/-- The texts here are made of strings, arrays and objects only. -/
inductive Tok where
  | str (t : Text)
  | punct (p : Punct)

def Tok.bytes : Tok → Bytes
  | .str t => 0x22 :: (as_bytes t.raw ++ [0x22])
  | .punct p => [p.byte]

def IsJsonSpace (b : UInt8) : Prop := b = 0x20 ∨ b = 0x09 ∨ b = 0x0a ∨ b = 0x0d

/-- The tokens with any white space before, between and after them. -/
inductive Spaced : List Tok → Bytes → Prop
  | nil {ws : Bytes} : (∀ b ∈ ws, IsJsonSpace b) → Spaced [] ws
  | cons {ws bs : Bytes} {tok : Tok} {toks : List Tok} : (∀ b ∈ ws, IsJsonSpace b) → Spaced toks bs →
      Spaced (tok :: toks) (ws ++ (tok.bytes ++ bs))

/-! ## Bytes of a raw text -/

/-- A byte of a character beyond ASCII is at least `0x80`. -/
theorem le_of_mem_utf8EncodeChar {c : Char} (hc : ¬ c.toNat < 0x80) {b : UInt8}
    (hb : b ∈ String.utf8EncodeChar c) : 0x80 ≤ b.toNat := by
  have hv : ¬ c.val.toNat ≤ 0x7f := fun hle => hc (Nat.lt_succ_of_le hle)
  have hbyte : ∀ n, 0x80 ≤ n → n < 0x100 → 0x80 ≤ (UInt8.ofNat n).toNat := by
    intro n hn hlt
    rwa [UInt8.toNat_ofNat_of_lt' hlt]
  unfold String.utf8EncodeChar at hb
  simp only [if_neg hv] at hb
  split at hb
  · simp only [List.mem_cons, List.not_mem_nil, or_false] at hb
    rcases hb with rfl | rfl <;> exact hbyte _ (by omega) (by omega)
  · split at hb
    · simp only [List.mem_cons, List.not_mem_nil, or_false] at hb
      rcases hb with rfl | rfl | rfl <;> exact hbyte _ (by omega) (by omega)
    · simp only [List.mem_cons, List.not_mem_nil, or_false] at hb
      rcases hb with rfl | rfl | rfl | rfl <;> exact hbyte _ (by omega) (by omega)

/-- A character other than a quote or a backslash has no byte that is one. -/
theorem plain_bytes {c : Char} (hq : c ≠ '"') (hb : c ≠ '\\') :
    ∀ b ∈ String.utf8EncodeChar c, b ≠ 0x22 ∧ b ≠ 0x5c := by
  intro b hmem
  by_cases hc : c.toNat < 0x80
  · rw [utf8EncodeChar_ascii hc, List.mem_singleton] at hmem
    have hval : b.toNat = c.toNat := by
      rw [hmem, UInt8.toNat_ofNat_of_lt' (by unfold UInt8.size; omega)]
    constructor
    · rintro rfl
      exact hq (Char.toNat_inj.mp hval.symm)
    · rintro rfl
      exact hb (Char.toNat_inj.mp hval.symm)
  · have hle := le_of_mem_utf8EncodeChar hc hmem
    constructor <;>
    · rintro rfl
      revert hle
      decide

/-- The bytes of a raw text. -/
def rawBytes (r : List Char) : Bytes := r.flatMap String.utf8EncodeChar

theorem Text.as_bytes_raw (t : Text) : as_bytes t.raw = rawBytes (t.flatMap Spelled.text) :=
  as_bytes_ofList _

theorem rawBytes_esc {e : Char} (he : e.toNat < 0x80) (r : List Char) :
    rawBytes ('\\' :: e :: r) = 0x5c :: UInt8.ofNat e.toNat :: rawBytes r := by
  rw [rawBytes, List.flatMap_cons, List.flatMap_cons, utf8EncodeChar_ascii he]
  rfl

end Scry2
