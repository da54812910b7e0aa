import Scry2.JsonText

/-!
# Scanning a JSON text for a key

The byte scan of `peek_json_primary_path` on the bytes of a token list: where the text of a key can
occur, and what is read after it.
-/

open Scry2.Lib

namespace Scry2

/-! ## The first occurrence -/

/-- What follows the first occurrence of the needle. -/
def afterFirst (needle : Bytes) : Bytes → Option Bytes
  | [] => none
  | b :: rest =>
    if needle.isPrefixOf (b :: rest) then some ((b :: rest).drop needle.length)
    else afterFirst needle rest

theorem memmem_from_eq (needle bs : Bytes) (i : Nat) :
    (memmem_from needle bs i).map (fun j => bs.drop (j - i + needle.length)) = afterFirst needle bs := by
  induction bs generalizing i with
  | nil => rfl
  | cons b rest ih =>
    rw [memmem_from, afterFirst]
    split
    · simp
    · rw [← ih (i + 1)]
      cases h : memmem_from needle rest (i + 1) with
      | none => rfl
      | some j =>
        have hle := (memmem_from_eq_some h).1
        have e : j - i + needle.length = j - (i + 1) + needle.length + 1 := by omega
        simp only [Option.map_some, e, List.drop_succ_cons]

theorem afterFirst_of_length_lt {needle bs : Bytes} (h : bs.length < needle.length) :
    afterFirst needle bs = none := by
  induction bs with
  | nil => rfl
  | cons b rest ih =>
    rw [afterFirst, if_neg, ih]
    · rw [List.length_cons] at h
      omega
    · intro hp
      have := (List.isPrefixOf_iff_prefix.mp hp).length_le
      omega

theorem memmem_eq (bs needle : Bytes) (h : needle ≠ []) :
    (memmem bs needle).map (fun rel => bs.drop (rel + needle.length)) = afterFirst needle bs := by
  unfold memmem
  split
  · rename_i hor
    rw [afterFirst_of_length_lt (hor.resolve_left h)]
    rfl
  · exact memmem_from_eq needle bs 0

/-! ## Keys between quotes -/

/-- The text of a key: neither quotes nor backslashes in it, and a first byte that starts no token. -/
structure KeyText (body : Bytes) : Prop where
  plain : ∀ b ∈ body, b ≠ 0x22 ∧ b ≠ 0x5c
  head : ∃ b rest, body = b :: rest ∧ ¬ IsJsonSpace b ∧ b ≠ 0x22 ∧ ∀ p : Punct, b ≠ p.byte

/-- The key with its quotes. -/
def quoted (body : Bytes) : Bytes := 0x22 :: (body ++ [0x22])

variable {body : Bytes}

theorem afterFirst_skip {b : UInt8} (hb : b ≠ 0x22) (rest : Bytes) :
    afterFirst (quoted body) (b :: rest) = afterFirst (quoted body) rest := by
  rw [afterFirst, if_neg]
  intro hp
  have hpre := List.isPrefixOf_iff_prefix.mp hp
  rw [quoted, List.cons_prefix_cons] at hpre
  exact hb hpre.1.symm

theorem afterFirst_skips {xs : Bytes} (h : ∀ b ∈ xs, b ≠ 0x22) (rest : Bytes) :
    afterFirst (quoted body) (xs ++ rest) = afterFirst (quoted body) rest := by
  induction xs with
  | nil => rfl
  | cons b xs ih =>
    rw [List.cons_append, afterFirst_skip (h b List.mem_cons_self),
      ih fun c hc => h c (List.mem_cons_of_mem _ hc)]

theorem afterFirst_quote (rest : Bytes) :
    afterFirst (quoted body) (0x22 :: rest) =
      if body ++ [0x22] <+: rest then some (rest.drop (body.length + 1))
      else afterFirst (quoted body) rest := by
  have hiff : (quoted body).isPrefixOf (0x22 :: rest) = true ↔ body ++ [0x22] <+: rest := by
    rw [List.isPrefixOf_iff_prefix, quoted, List.cons_prefix_cons]
    simp
  rw [afterFirst]
  simp only [hiff]
  have hl : (quoted body).length = body.length + 1 + 1 := by simp [quoted]
  rw [hl, List.drop_succ_cons]

/-- Bytes that are no quotes take part of the key with them. -/
theorem prefix_plain_append {xs body rest : Bytes} (hx : ∀ b ∈ xs, b ≠ 0x22) :
    body ++ [0x22] <+: xs ++ rest ↔ ∃ body', body = xs ++ body' ∧ body' ++ [0x22] <+: rest := by
  induction xs generalizing body with
  | nil => simp
  | cons x xs ih =>
    have hxs : ∀ b ∈ xs, b ≠ 0x22 := fun b hb => hx b (List.mem_cons_of_mem _ hb)
    cases body with
    | nil =>
      have hne : ¬ (0x22 : UInt8) = x := fun h => hx x List.mem_cons_self h.symm
      simp [List.cons_prefix_cons, hne]
    | cons b body =>
      rw [List.cons_append, List.cons_append, List.cons_prefix_cons, ih hxs]
      constructor
      · rintro ⟨rfl, body', rfl, h⟩
        exact ⟨body', rfl, h⟩
      · rintro ⟨body', h, hp⟩
        rw [List.cons_append, List.cons.injEq] at h
        exact ⟨h.1, body', h.2, hp⟩

/-- Up to the closing quote of a string the key matches only the whole string. -/
theorem key_prefix_iff (hk : ∀ b ∈ body, b ≠ 0x22 ∧ b ≠ 0x5c) {r : List Char} (hr : Raw r) (rest : Bytes) :
    body ++ [0x22] <+: rawBytes r ++ 0x22 :: rest ↔ rawBytes r = body := by
  induction hr generalizing body with
  | nil =>
    cases body with
    | nil => simp [rawBytes]
    | cons b body =>
      have hb := (hk b List.mem_cons_self).1
      simp [rawBytes, List.cons_prefix_cons, hb]
  | @plain c r hq hb _ ih =>
    have hplain := plain_bytes hq hb
    have hcons : rawBytes (c :: r) = String.utf8EncodeChar c ++ rawBytes r := rfl
    rw [hcons, List.append_assoc, prefix_plain_append fun b hb => (hplain b hb).1]
    constructor
    · rintro ⟨body', rfl, hp⟩
      rw [(ih fun b hb => hk b (List.mem_append_right _ hb)).mp hp]
    · intro he
      refine ⟨rawBytes r, he.symm, ?_⟩
      exact (ih fun b hb => hk b (he ▸ List.mem_append_right _ hb)).mpr rfl
  | @esc e r he _ ih =>
    rw [rawBytes_esc he]
    cases body with
    | nil => simp [List.cons_prefix_cons]
    | cons b body =>
      have hb := (hk b List.mem_cons_self).2
      simp [List.cons_prefix_cons, hb, Ne.symm hb]

/-- An escaped quote in the raw text is followed by the key and nothing else. -/
def escapedTail (body : Bytes) : List Char → Bool
  | '\\' :: e :: r => (e = '"' && rawBytes r = body) || escapedTail body r
  | _ :: r => escapedTail body r
  | [] => false

theorem escapedTail_plain {c : Char} (hb : c ≠ '\\') (r : List Char) :
    escapedTail body (c :: r) = escapedTail body r := by
  rw [escapedTail]
  rintro e r' rfl
  exact absurd rfl hb

/-- The scan from behind the opening quote of a string. -/
theorem afterFirst_raw (hk : ∀ b ∈ body, b ≠ 0x22 ∧ b ≠ 0x5c) {r : List Char} (hr : Raw r) (rest : Bytes) :
    afterFirst (quoted body) (rawBytes r ++ 0x22 :: rest) =
      if escapedTail body r then some rest else afterFirst (quoted body) (0x22 :: rest) := by
  induction hr with
  | nil => rfl
  | @plain c r hq hb _ ih =>
    have hcons : rawBytes (c :: r) = String.utf8EncodeChar c ++ rawBytes r := rfl
    rw [hcons, List.append_assoc, afterFirst_skips fun b hmem => (plain_bytes hq hb b hmem).1, ih,
      escapedTail_plain hb]
  | @esc e r he hr ih =>
    rw [rawBytes_esc he, List.cons_append, List.cons_append, afterFirst_skip (by decide), escapedTail]
    by_cases hquote : e = '"'
    · subst hquote
      change afterFirst (quoted body) (0x22 :: (rawBytes r ++ 0x22 :: rest)) = _
      rw [afterFirst_quote]
      simp only [key_prefix_iff hk hr]
      by_cases heq : rawBytes r = body
      · subst heq
        have hdrop : (rawBytes r ++ 0x22 :: rest).drop ((rawBytes r).length + 1) = rest := by
          rw [← List.drop_drop, List.drop_left]
          rfl
        simp [hdrop]
      · simp [heq, ih]
    · have hbyte : UInt8.ofNat e.toNat ≠ 0x22 := by
        intro h
        have hval := congrArg UInt8.toNat h
        rw [UInt8.toNat_ofNat_of_lt' (by unfold UInt8.size; omega)] at hval
        exact hquote (Char.toNat_inj.mp hval)
      rw [afterFirst_skip hbyte, ih]
      simp [hquote]

/-- The scan stops at the end of a string that is spelled as the key, or that ends in an escaped
quote and the key. -/
def Tok.hits (body : Bytes) : Tok → Bool
  | .str t => as_bytes t.raw = body || escapedTail body (t.flatMap Spelled.text)
  | .punct _ => false

/-! ## Token by token -/

theorem Spaced.not_prefix (hk : KeyText body) {toks : List Tok} {bs : Bytes} (h : Spaced toks bs) :
    ¬ body ++ [0x22] <+: bs := by
  obtain ⟨b, rest, rfl, hspace, hquote, hpunct⟩ := hk.head
  have key : ∀ ws xs : Bytes, (∀ c ∈ ws, IsJsonSpace c) → (∀ x ∈ xs.head?, x ≠ b) →
      ¬ (b :: rest) ++ [0x22] <+: ws ++ xs := by
    intro ws xs hws hxs hp
    cases ws with
    | nil =>
      cases xs with
      | nil => simp at hp
      | cons x xs =>
        rw [List.nil_append, List.cons_append, List.cons_prefix_cons] at hp
        exact hxs x rfl hp.1.symm
    | cons w ws =>
      rw [List.cons_append, List.cons_append, List.cons_prefix_cons] at hp
      exact hspace (hp.1 ▸ hws w List.mem_cons_self)
  cases h with
  | nil hws =>
    have hnil := key _ [] hws (by simp)
    rwa [List.append_nil] at hnil
  | @cons ws bs tok toks hws _ =>
    refine key _ _ hws ?_
    cases tok with
    | str t =>
      rintro x ⟨⟩
      exact Ne.symm hquote
    | punct p =>
      rintro x ⟨⟩
      exact Ne.symm (hpunct p)

theorem IsJsonSpace.ne_quote {b : UInt8} (h : IsJsonSpace b) : b ≠ 0x22 := by
  rintro rfl
  revert h
  unfold IsJsonSpace
  decide

theorem afterFirst_tok (hk : KeyText body) {ws bs : Bytes} {tok : Tok} {toks : List Tok}
    (hws : ∀ b ∈ ws, IsJsonSpace b) (h : Spaced toks bs) :
    afterFirst (quoted body) (ws ++ (tok.bytes ++ bs)) =
      if tok.hits body then some bs else afterFirst (quoted body) bs := by
  rw [afterFirst_skips fun b hb => (hws b hb).ne_quote]
  cases tok with
  | punct p =>
    have hp : p.byte ≠ 0x22 := by cases p <;> decide
    exact afterFirst_skip hp bs
  | str t =>
    have hbytes : Tok.bytes (.str t) ++ bs = 0x22 :: (rawBytes (t.flatMap Spelled.text) ++ 0x22 :: bs) := by
      simp [Tok.bytes, t.as_bytes_raw]
    have hclose : afterFirst (quoted body) (0x22 :: bs) = afterFirst (quoted body) bs := by
      rw [afterFirst_quote, if_neg (h.not_prefix hk)]
    rw [hbytes, afterFirst_quote]
    simp only [key_prefix_iff hk.plain t.isRaw, Tok.hits, t.as_bytes_raw]
    by_cases heq : rawBytes (t.flatMap Spelled.text) = body
    · subst heq
      rw [← List.drop_drop, List.drop_left]
      simp
    · rw [if_neg heq, afterFirst_raw hk.plain t.isRaw, hclose]
      simp [heq]

/-- The first hit and the tokens after it. -/
def fromHit (body : Bytes) (toks : List Tok) : List Tok := toks.dropWhile (!Tok.hits body ·)

theorem fromHit_cons_hit {tok : Tok} (h : tok.hits body = true) (toks : List Tok) :
    fromHit body (tok :: toks) = tok :: toks :=
  List.dropWhile_cons_of_neg (by simp [h])

theorem fromHit_cons_miss {tok : Tok} (h : tok.hits body = false) (toks : List Tok) :
    fromHit body (tok :: toks) = fromHit body toks :=
  List.dropWhile_cons_of_pos (by simp [h])

theorem afterFirst_none (hk : KeyText body) {toks : List Tok} {bs : Bytes} (h : Spaced toks bs)
    (hd : fromHit body toks = []) : afterFirst (quoted body) bs = none := by
  induction h with
  | @nil ws hws =>
    have hskip : afterFirst (quoted body) (ws ++ []) = none :=
      afterFirst_skips (fun b hb => (hws b hb).ne_quote) []
    rwa [List.append_nil] at hskip
  | @cons ws bs tok toks hws h ih =>
    rw [afterFirst_tok hk hws h]
    cases hhit : tok.hits body with
    | true =>
      rw [fromHit_cons_hit hhit] at hd
      cases hd
    | false =>
      rw [fromHit_cons_miss hhit] at hd
      exact ih hd

theorem afterFirst_some (hk : KeyText body) {toks post : List Tok} {tok : Tok} {bs : Bytes}
    (h : Spaced toks bs) (hd : fromHit body toks = tok :: post) :
    ∃ rest, afterFirst (quoted body) bs = some rest ∧ Spaced post rest := by
  induction h with
  | nil _ => cases hd
  | @cons ws bs x toks hws h ih =>
    rw [afterFirst_tok hk hws h]
    cases hhit : x.hits body with
    | true =>
      rw [fromHit_cons_hit hhit] at hd
      cases hd
      exact ⟨bs, rfl, h⟩
    | false =>
      rw [fromHit_cons_miss hhit] at hd
      exact ih hd

/-! ## Reading after a hit -/

/-- Position `q` of the bytes is at the first of the tokens, or at the end. -/
def At (bs : Bytes) (q : Nat) : List Tok → Prop
  | [] => bs.length ≤ q
  | tok :: toks => ∃ rest, bs.drop q = tok.bytes ++ rest ∧ Spaced toks rest

theorem IsJsonSpace.is_ascii_whitespace {b : UInt8} (h : IsJsonSpace b) : is_ascii_whitespace b = true := by
  rcases h with rfl | rfl | rfl | rfl <;> decide

theorem Spaced.skip {toks : List Tok} {bs : Bytes} {p : Nat} (h : Spaced toks (bs.drop p)) :
    At bs (skip_whitespace bs p) toks := by
  generalize hd : bs.drop p = rest at h
  unfold skip_whitespace
  cases h with
  | nil hws =>
    have hall : rest.takeWhile is_ascii_whitespace = rest := by
      rw [← List.append_nil rest, List.takeWhile_append_of_pos fun b hb => (hws b hb).is_ascii_whitespace]
      rfl
    have hl := congrArg List.length hd
    rw [List.length_drop] at hl
    rw [hd, hall, At]
    omega
  | @cons ws bs' tok toks hws h =>
    have hhead : ∀ b ∈ (tok.bytes ++ bs').head?, is_ascii_whitespace b = false := by
      cases tok with
      | str t =>
        rintro b ⟨⟩
        decide
      | punct p =>
        rintro b ⟨⟩
        cases p <;> decide
    have hws' : (ws ++ (tok.bytes ++ bs')).takeWhile is_ascii_whitespace = ws := by
      rw [List.takeWhile_append_of_pos fun b hb => (hws b hb).is_ascii_whitespace]
      cases hx : tok.bytes ++ bs' with
      | nil => simp
      | cons b xs =>
        rw [hx] at hhead
        simp [hhead b rfl]
    rw [hd, hws', At, ← List.drop_drop, hd, List.drop_left]
    exact ⟨bs', rfl, h⟩

theorem getElem?_of_drop {bs rest : Bytes} {q : Nat} {b : UInt8} (h : bs.drop q = b :: rest) :
    bs[q]? = some b := by
  rw [← Nat.add_zero q, ← List.getElem?_drop, h]
  rfl

section Reading
variable {bs : Bytes} {q : Nat} {toks : List Tok} {t : Text} {p : Punct}

theorem At.byte_nil (h : At bs q []) : bs[q]? = none := List.getElem?_eq_none h

theorem At.byte_str (h : At bs q (.str t :: toks)) : bs[q]? = some 0x22 := by
  obtain ⟨rest, hd, -⟩ := h
  exact getElem?_of_drop hd

theorem At.byte_punct (h : At bs q (.punct p :: toks)) : bs[q]? = some p.byte := by
  obtain ⟨rest, hd, -⟩ := h
  exact getElem?_of_drop hd

theorem At.next_punct (h : At bs q (.punct p :: toks)) : Spaced toks (bs.drop (q + 1)) := by
  obtain ⟨rest, hd, hs⟩ := h
  rw [← List.drop_drop, hd]
  exact hs

theorem quote_walk_plain {xs : Bytes} (h : ∀ b ∈ xs, b ≠ 0x22 ∧ b ≠ 0x5c) (rest : Bytes) :
    quote_walk (xs ++ rest) = xs.length + quote_walk rest := by
  induction xs with
  | nil => simp
  | cons b xs ih =>
    obtain ⟨hq, hb⟩ := h b List.mem_cons_self
    rw [List.cons_append, quote_walk, ih fun c hc => h c (List.mem_cons_of_mem _ hc), List.length_cons]
    · omega
    · exact hq
    · rintro rfl
      exact absurd rfl hb
    · rintro c r rfl
      exact absurd rfl hb

theorem quote_walk_raw {r : List Char} (hr : Raw r) (rest : Bytes) :
    quote_walk (rawBytes r ++ 0x22 :: rest) = (rawBytes r).length := by
  induction hr with
  | nil => rfl
  | @plain c r hq hb _ ih =>
    have hcons : rawBytes (c :: r) = String.utf8EncodeChar c ++ rawBytes r := rfl
    rw [hcons, List.append_assoc, quote_walk_plain (plain_bytes hq hb), ih, List.length_append]
  | @esc e r he _ ih =>
    rw [rawBytes_esc he, List.cons_append, List.cons_append, quote_walk, ih]
    rfl

theorem At.read_str (h : At bs q (.str t :: toks)) :
    ∃ stop, take_quoted bs (q + 1) = some (t.raw, stop) ∧ Spaced toks (bs.drop stop) := by
  obtain ⟨rest, hd, hs⟩ := h
  have hbody : bs.drop (q + 1) = as_bytes t.raw ++ 0x22 :: rest := by
    rw [← List.drop_drop, hd]
    simp [Tok.bytes]
  have hwalk : quote_walk (bs.drop (q + 1)) = (as_bytes t.raw).length := by
    rw [hbody, t.as_bytes_raw, quote_walk_raw t.isRaw]
  have hlen := congrArg List.length hbody
  rw [List.length_drop, List.length_append, List.length_cons] at hlen
  refine ⟨q + 1 + (as_bytes t.raw).length + 1, ?_, ?_⟩
  · unfold take_quoted
    rw [hwalk, if_neg (by omega), Nat.add_sub_cancel_left, slice, hbody, List.take_left,
      from_utf8_as_bytes]
    rfl
  · rw [← List.drop_drop, ← List.drop_drop, hbody, List.drop_left]
    exact hs

end Reading

/-! ## The scan on tokens -/

/-- The first string after a key: its value, or the first element of its list. -/
def firstString : List Tok → Option Text
  | .punct .colon :: .punct .lbrack :: .str u :: _ => some u
  | .punct .colon :: .str u :: _ => some u
  | _ => none

/-- The first string after the first hit. -/
def seen (body : Bytes) (toks : List Tok) : Option Text :=
  match fromHit body toks with
  | [] => none
  | _ :: post => firstString post

theorem after_colon_some {bs : Bytes} {p : Nat} {post : List Tok}
    (h : Spaced (.punct .colon :: post) (bs.drop p)) : ∃ q, after_colon bs p = some q ∧ At bs q post := by
  have hat := h.skip
  exact ⟨_, if_pos hat.byte_punct, hat.next_punct.skip⟩

theorem after_colon_none {bs : Bytes} {p : Nat} {toks : List Tok} (h : Spaced toks (bs.drop p))
    (hne : ∀ post, toks ≠ .punct .colon :: post) : after_colon bs p = none := by
  have hat := h.skip
  refine if_neg ?_
  cases toks with
  | nil =>
    rw [hat.byte_nil]
    simp
  | cons tok post =>
    cases tok with
    | str t =>
      rw [hat.byte_str]
      decide
    | punct p =>
      rw [hat.byte_punct]
      cases p with
      | colon => exact absurd rfl (hne post)
      | _ => decide

theorem quoted_ne_nil (body : Bytes) : quoted body ≠ [] := List.cons_ne_nil _ _

theorem memmem_none (hk : KeyText body) {toks : List Tok} {bs : Bytes} (h : Spaced toks bs)
    (hd : fromHit body toks = []) : memmem bs (quoted body) = none := by
  have hmem := memmem_eq bs (quoted body) (quoted_ne_nil body)
  rw [afterFirst_none hk h hd] at hmem
  exact Option.map_eq_none_iff.mp hmem

theorem memmem_some (hk : KeyText body) {toks post : List Tok} {tok : Tok} {bs : Bytes}
    (h : Spaced toks bs) (hd : fromHit body toks = tok :: post) :
    ∃ rel, memmem bs (quoted body) = some rel ∧ Spaced post (bs.drop (rel + (quoted body).length)) := by
  have hmem := memmem_eq bs (quoted body) (quoted_ne_nil body)
  obtain ⟨rest, hr, hs⟩ := afterFirst_some hk h hd
  rw [hr] at hmem
  obtain ⟨rel, hrel, rfl⟩ := Option.map_eq_some_iff.mp hmem
  exact ⟨rel, hrel, hs⟩

/-- The string at a position, as far as the scan looks. -/
def headString : List Tok → Option Text
  | .str u :: _ => some u
  | _ => none

theorem At.head_string {bs : Bytes} {q : Nat} {toks : List Tok} (h : At bs q toks) :
    (if bs[q]? = some 0x22 then (take_quoted bs (q + 1)).map (·.1) else none) =
      (headString toks).map Text.raw := by
  cases toks with
  | nil =>
    rw [h.byte_nil]
    rfl
  | cons tok rest =>
    cases tok with
    | str u =>
      obtain ⟨stop, htake, -⟩ := h.read_str
      rw [if_pos h.byte_str, htake]
      rfl
    | punct p =>
      rw [h.byte_punct, if_neg]
      · rfl
      · cases p <;> decide

theorem json_first_value_eq (hk : KeyText body) {toks : List Tok} {bs : Bytes} (h : Spaced toks bs) :
    json_first_value_string_or_list bs (quoted body) = (seen body toks).map Text.raw := by
  unfold json_first_value_string_or_list seen
  cases hd : fromHit body toks with
  | nil =>
    rw [memmem_none hk h hd]
    rfl
  | cons tok post =>
    obtain ⟨rel, hrel, hs⟩ := memmem_some hk h hd
    rw [hrel]
    simp only [Option.bind_eq_bind, Option.bind_some]
    by_cases hcolon : ∃ rest, post = .punct .colon :: rest
    · obtain ⟨rest, rfl⟩ := hcolon
      obtain ⟨q, hq, hat⟩ := after_colon_some hs
      rw [hq, Option.bind_some]
      by_cases hlist : ∃ items, rest = .punct .lbrack :: items
      · obtain ⟨items, rfl⟩ := hlist
        have hbyte : bs[q]? = some 0x5b := hat.byte_punct
        rw [if_pos hbyte, hat.next_punct.skip.head_string]
        cases items with
        | nil => rfl
        | cons x items => cases x <;> rfl
      · have hbyte : bs[q]? ≠ some 0x5b := by
          cases rest with
          | nil =>
            rw [hat.byte_nil]
            simp
          | cons x rest =>
            cases x with
            | str u =>
              rw [hat.byte_str]
              decide
            | punct p =>
              rw [hat.byte_punct]
              cases p with
              | lbrack => exact absurd ⟨rest, rfl⟩ hlist
              | _ => decide
        rw [if_neg hbyte, hat.head_string]
        cases rest with
        | nil => rfl
        | cons x rest =>
          cases x with
          | str u => rfl
          | punct p =>
            cases p with
            | lbrack => exact absurd ⟨rest, rfl⟩ hlist
            | _ => rfl
    · rw [after_colon_none hs fun rest hr => hcolon ⟨rest, hr⟩, Option.bind_none]
      cases post with
      | nil => rfl
      | cons x post =>
        cases x with
        | str u => rfl
        | punct p =>
          cases p with
          | colon => exact absurd ⟨post, rfl⟩ hcolon
          | _ => rfl

/-! ## The walk over the paths -/

/-- The string values of the keys, in order; a value that was read is not searched. -/
def keyValues (body : Bytes) : List Tok → List Text
  | tok :: tail@(.punct .colon :: .str u :: rest) =>
    if tok.hits body then u :: keyValues body rest else keyValues body tail
  | _ :: tail => keyValues body tail
  | [] => []

theorem keyValues_cons_value {hit : Tok} (h : hit.hits body = true) (u : Text) (rest : List Tok) :
    keyValues body (hit :: .punct .colon :: .str u :: rest) = u :: keyValues body rest := by
  rw [keyValues, if_pos h]

theorem keyValues_cons {tok : Tok} {tail : List Tok}
    (h : tok.hits body = false ∨ ∀ u rest, tail ≠ .punct .colon :: .str u :: rest) :
    keyValues body (tok :: tail) = keyValues body tail := by
  rw [keyValues.eq_def]
  split
  · rename_i u rest heq
    cases heq
    rcases h with h | h
    · rw [h]
      rfl
    · exact absurd rfl (h u rest)
  · rename_i heq
    cases heq
    rfl
  · rename_i heq
    cases heq

theorem keyValues_fromHit (toks : List Tok) : keyValues body (fromHit body toks) = keyValues body toks := by
  induction toks with
  | nil => rfl
  | cons tok toks ih =>
    cases h : tok.hits body with
    | true => rw [fromHit_cons_hit h]
    | false => rw [fromHit_cons_miss h, ih, keyValues_cons (.inl h)]

theorem fromHit_eq_cons {toks post : List Tok} {tok : Tok} (h : fromHit body toks = tok :: post) :
    tok.hits body = true ∧ ∃ pre, toks = pre ++ tok :: post := by
  induction toks with
  | nil => cases h
  | cons x toks ih =>
    cases hx : x.hits body with
    | true =>
      rw [fromHit_cons_hit hx] at h
      cases h
      exact ⟨hx, [], rfl⟩
    | false =>
      rw [fromHit_cons_miss hx] at h
      obtain ⟨hhit, pre, rfl⟩ := ih h
      exact ⟨hhit, x :: pre, rfl⟩

section Walk
variable {bs : Bytes} {p : Nat} {post : List Tok}

theorem json_take_string_value_some {u : Text} (h : Spaced (.punct .colon :: .str u :: post) (bs.drop p)) :
    ∃ stop, json_take_string_value bs p = some (u.raw, stop) ∧ Spaced post (bs.drop stop) := by
  obtain ⟨q, hq, hat⟩ := after_colon_some h
  obtain ⟨stop, htake, hs⟩ := hat.read_str
  refine ⟨stop, ?_, hs⟩
  unfold json_take_string_value
  rw [hq]
  simp only [Option.bind_eq_bind, Option.bind_some]
  rw [if_pos hat.byte_str, htake]

theorem json_take_string_value_none (h : Spaced post (bs.drop p))
    (hne : ∀ u rest, post ≠ .punct .colon :: .str u :: rest) : json_take_string_value bs p = none := by
  unfold json_take_string_value
  simp only [Option.bind_eq_bind]
  by_cases hcolon : ∃ rest, post = .punct .colon :: rest
  · obtain ⟨rest, rfl⟩ := hcolon
    obtain ⟨q, hq, hat⟩ := after_colon_some h
    rw [hq, Option.bind_some, if_neg]
    cases rest with
    | nil =>
      rw [hat.byte_nil]
      simp
    | cons x rest =>
      cases x with
      | str u => exact absurd rfl (hne u rest)
      | punct x =>
        rw [hat.byte_punct]
        cases x <;> decide
  · rw [after_colon_none h fun rest hr => hcolon ⟨rest, hr⟩, Option.bind_none]

/-- `path`, without quotes. -/
def pathBody : Bytes := as_bytes "path"

theorem pathBody_keyText : KeyText pathBody := by
  refine ⟨by decide +kernel, 0x70, as_bytes "ath", by decide +kernel, ?_, by decide, ?_⟩
  · unfold IsJsonSpace
    decide
  · intro p
    cases p <;> decide

theorem pathKey_eq : pathKey = quoted pathBody := by decide +kernel

/-- The first of the values that is spelled like a source file. -/
def sourceLike (us : List Text) : Option Text := us.find? fun u => is_source_extension u.raw

theorem peek_path_from_step (bs : Bytes) (cursor : Nat) :
    peek_path_from bs cursor =
      (memmem (bs.drop cursor) pathKey).bind fun rel =>
        match json_take_string_value bs (cursor + rel + pathKey.length) with
        | some (val, stop) => if is_source_extension val then some val else peek_path_from bs stop
        | none => peek_path_from bs (cursor + rel + pathKey.length) := by
  rw [peek_path_from]
  cases hm : memmem (bs.drop cursor) pathKey with
  | none => rfl
  | some rel =>
    simp only [Option.bind_some]
    cases hv : json_take_string_value bs (cursor + rel + pathKey.length) with
    | none => rfl
    | some v => rfl

/-- The walk reads the values of the `path` keys, one after the other. -/
theorem peek_path_from_eq (n : Nat) {toks : List Tok} {cursor : Nat} (hn : toks.length ≤ n)
    (h : Spaced toks (bs.drop cursor)) :
    peek_path_from bs cursor = (sourceLike (keyValues pathBody toks)).map Text.raw := by
  induction n using Nat.strongRecOn generalizing toks cursor with
  | ind n ih =>
    rw [peek_path_from_step, ← keyValues_fromHit]
    cases hd : fromHit pathBody toks with
    | nil =>
      rw [pathKey_eq, memmem_none pathBody_keyText h hd, keyValues]
      rfl
    | cons hit post =>
      obtain ⟨hhit, pre, rfl⟩ := fromHit_eq_cons hd
      rw [List.length_append, List.length_cons] at hn
      obtain ⟨rel, hrel, hs⟩ := memmem_some pathBody_keyText h hd
      rw [← pathKey_eq] at hrel hs
      rw [List.drop_drop, ← Nat.add_assoc] at hs
      rw [hrel, Option.bind_some]
      by_cases hval : ∃ u rest, post = .punct .colon :: .str u :: rest
      · obtain ⟨u, rest, rfl⟩ := hval
        obtain ⟨stop, htake, hrest⟩ := json_take_string_value_some hs
        rw [keyValues_cons_value hhit, htake, sourceLike, List.find?_cons]
        cases hext : is_source_extension u.raw with
        | true => simp [hext]
        | false =>
          simp only [List.length_cons] at hn
          simp only [hext, Bool.false_eq_true, if_false]
          exact ih rest.length (by omega) le_rfl hrest
      · rw [json_take_string_value_none hs fun u rest hp => hval ⟨u, rest, hp⟩,
          keyValues_cons (.inr fun u rest hp => hval ⟨u, rest, hp⟩)]
        exact ih post.length (by omega) le_rfl hs

end Walk

end Scry2
