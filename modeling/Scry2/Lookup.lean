import Scry2.Probe
import Scry2.Query
import Scry2.Sound
import Scry2.Agree

/-!
# Lookups

One symbol, one file or one name of an open index. A table is bisected by the leading bytes of its
rows, the name index by the strings its rows point at.
-/

open Scry2.Lib

namespace Scry2

/-! ## The lookups of `reader.rs` -/

/-- The row of a packed table that starts with `key`. -/
def find_row (table : Bytes) (n stride : Nat) (key : Bytes) : Option Bytes :=
  (bisectEq (fun mid => cmp (slice table (mid * stride) key.length) key) 0 n).map
    (Index.rowAt table stride)

namespace Index

/-- What a lookup answers for the row it found. -/
def answer {α : Type} (read : Bytes → Res α) : Option Bytes → Res (Option α)
  | none => .ok none
  | some row => do return some (← read row)

/-- `(name, kind, lang)`. -/
def sym_meta (ix : Index) (sym : UInt64) : Res (Option (String × UInt8 × UInt8)) :=
  answer (fun row => do
    let r := SymRow.decode row
    return (← blobText ix.blob r.name_off r.name_len, r.kind, r.lang))
    (find_row ix.syms_slice ix.hdr.syms_n SYM_LEN (be64 sym))

/-- The string of a symbol in `typed` or in `sig`. -/
def textOf (ix : Index) (table : Bytes) (n : Nat) (sym : UInt64) : Res (Option String) :=
  answer (fun row => do
    let r := TypeRow.decode row
    blobText ix.blob r.str_off r.str_len)
    (find_row table n TYPE_LEN (be64 sym))

def type_of (ix : Index) (sym : UInt64) : Res (Option String) :=
  ix.textOf ix.typed_slice ix.hdr.typed_n sym

def sig_of (ix : Index) (sym : UInt64) : Res (Option String) := ix.textOf ix.sig_slice ix.hdr.sig_n sym

def file_path (ix : Index) (file : UInt32) : Res (Option String) :=
  answer (fun row => do
    let r := FileRow.decode row
    blobText ix.blob r.path_off r.path_len)
    (find_row ix.files_slice ix.hdr.files_n FILE_LEN (be32 file))

/-- `blob_str` of a row of the name index. -/
def nameText (ix : Index) (r : NameRow) : Res String := blobText ix.blob r.name_off r.name_len

/-- Is the name of row `mid` below `q`? -/
def nameBelow (ix : Index) (q : Bytes) (mid : Nat) : Res Bool := do
  let name ← ix.nameText (NameRow.decode (rowAt ix.names_slice NAME_LEN mid))
  return decide (as_bytes name < q)

/-- The first row whose name is not below `q`. -/
def firstName (ix : Index) (q : Bytes) : Res Nat := bisectBlocks (ix.nameBelow q) 0 ix.hdr.names_n

/-- Rows with their names, up to the first that does not match and at most `limit`. -/
def nameRun (ix : Index) (ok : String → Bool) : Nat → List NameRow → Res (List (String × UInt64))
  | 0, _ => .ok []
  | _ + 1, [] => .ok []
  | limit + 1, r :: rows => do
    let name ← ix.nameText r
    if ok name then return (name, r.sym) :: (← ix.nameRun ok limit rows) else return []

def syms_for_name (ix : Index) (query : String) : Res (List UInt64) := do
  let lo ← ix.firstName (as_bytes query)
  let rows := rowsFrom ix.names_slice NAME_LEN lo ix.hdr.names_n NameRow.decode
  let out ← ix.nameRun (fun name => as_bytes name = as_bytes query) rows.length rows
  return sortDedup (out.map Prod.snd)

/-- At most `limit` name rows that start with `pre`. -/
def names_with_prefix (ix : Index) (pre : String) (limit : Nat) : Res (List (String × UInt64)) := do
  let lo ← ix.firstName (as_bytes pre)
  ix.nameRun (fun name => (as_bytes pre).isPrefixOf (as_bytes name)) limit
    (rowsFrom ix.names_slice NAME_LEN lo ix.hdr.names_n NameRow.decode)

end Index

/-! ## Rows found by their key -/

theorem slice_encode_key {key rest : Bytes} {n : Nat} (h : key.length = n) : slice (key ++ rest) 0 n = key := by
  rw [slice_append_left (by omega)]
  exact slice_self _ h

theorem takeWhile_congr {α : Type} {p q : α → Bool} {l : List α} (h : ∀ a ∈ l, p a = q a) :
    l.takeWhile p = l.takeWhile q := by
  induction l with
  | nil => rfl
  | cons a l ih =>
    rw [List.takeWhile_cons, List.takeWhile_cons, h a List.mem_cons_self,
      ih fun b hb => h b (List.mem_cons_of_mem _ hb)]

theorem find_row_eq {α : Type} {enc keyOf : α → Bytes} {n k : Nat} {l : List α}
    (henc : ∀ a, (enc a).length = n) (hkn : k ≤ n) (hkey : ∀ a, slice (enc a) 0 k = keyOf a)
    (hl : l.Pairwise (keyOf · < keyOf ·)) {key : Bytes} (hk : key.length = k) :
    (∃ a ∈ l, keyOf a = key ∧ find_row (l.flatMap enc) l.length n key = some (enc a)) ∨
      find_row (l.flatMap enc) l.length n key = none ∧ ∀ a ∈ l, keyOf a ≠ key := by
  have hcmp : ∀ i (hi : i < l.length),
      (cmp (slice (l.flatMap enc) (i * n) key.length) key).Compares (keyOf l[i]) key := by
    intro i hi
    rw [hk, ← hkey l[i], ← rowAt_flatMap henc hi, Index.rowAt, slice_slice (by omega), Nat.add_zero]
    exact cmp_bytes _ _
  unfold find_row
  rcases bisectEq_rows hl hcmp with ⟨i, hi, he, hki⟩ | ⟨he, hnone⟩
  · refine Or.inl ⟨l[i], List.getElem_mem hi, hki, ?_⟩
    rw [he, Option.map_some, rowAt_flatMap henc hi]
  · exact Or.inr ⟨by rw [he]; rfl, hnone⟩

section

variable {F : Facts} {t : Tables F} {ix : Index}

/-- A section of strings keyed by symbol or file: the row of a key is found and its string read. -/
theorem lookup_section {κ β γ ρ : Type} [LinearOrder κ] {l : List (κ × β)} {f : κ → Option β}
    (hl : Tabulates l f) (str : κ × β → String) (mk : κ × β → Nat → Nat → ρ) (front more : Bytes)
    {enc : ρ → Bytes} {dec : Bytes → ρ} {n k : Nat} {blob : Bytes} {keyBytes : κ → Bytes}
    (henc : ∀ r, (enc r).length = n) (hkn : k ≤ n) (hklen : ∀ key, (keyBytes key).length = k)
    (hlt : ∀ a b, keyBytes a < keyBytes b ↔ a < b) (hinj : Function.Injective keyBytes)
    (hkey : ∀ e off m, slice (enc (mk e off m)) 0 k = keyBytes e.1)
    (hdec : ∀ e off m, SlotFits off m → dec (enc (mk e off m)) = mk e off m)
    (hblob : blob = front ++ strBytes str l ++ more) (hlen : blob.length < 2 ^ 63)
    (read : ρ → Res γ) (g : κ × β → γ)
    (hread : ∀ e off, InBlob blob off (clamp_blob_str (str e)) →
      read (mk e off (len (clamp_blob_str (str e)))) = .ok (g e)) (key : κ) :
    Index.answer (fun row => read (dec row)) (find_row ((pushStrs str mk front l).1.flatMap enc)
      (pushStrs str mk front l).1.length n (keyBytes key)) = .ok ((f key).map fun v => g (key, v)) := by
  have hslots := pushStrs_slots str mk front l
  let keyOf : ρ → Bytes := fun r => slice (enc r) 0 k
  have hpw : (pushStrs str mk front l).1.Pairwise (keyOf · < keyOf ·) := by
    refine pairwise_of_forall₂ hslots.flip ?_ hl.1
    rintro r r' e e' ⟨off, rfl, -⟩ ⟨off', rfl, -⟩ hee
    simp only [keyOf, hkey]
    exact (hlt _ _).mpr hee
  rcases find_row_eq henc hkn (fun _ => rfl) hpw (hklen key) with ⟨r, hr, hkr, hfind⟩ | ⟨hfind, hnone⟩
  · obtain ⟨⟨key', v⟩, he, off, rfl, -, hin⟩ := Tables.exists_of_forall₂_right hslots hr
    have hin' := hin.append more
    rw [← hblob] at hin'
    obtain rfl : key' = key := hinj ((hkey _ _ _).symm.trans hkr)
    rw [hfind, (hl.2 _ _).mp he, Index.answer, hdec _ _ _ (hin'.slotFits hlen), hread _ _ hin']
    rfl
  · rw [hfind]
    cases hf : f key with
    | none => rfl
    | some v =>
      obtain ⟨r, hr, off, rfl, -⟩ := Tables.exists_of_forall₂_left hslots ((hl.2 key v).mpr hf)
      exact absurd (hkey (key, v) _ _) (hnone _ hr)

theorem Index.Lays.sym_meta (hix : ix.Lays t.rows) (h : t.rows.total < 2 ^ 63) (sym : UInt64) :
    ix.sym_meta sym = .ok ((F.clamped.syms sym).map fun m => (m.name, m.kind, m.lang)) := by
  obtain ⟨more, hmore⟩ := t.nameBlob_append
  have hblob : ix.blob = t.blob := hix.blob
  unfold Index.sym_meta
  rw [hix.syms, hix.hdr]
  refine (lookup_section t.syms_of (fun e => e.2.name) Tables.symRow [] more SymRow.encode_length
    (by decide) be64_length be64_lt_iff be64_injective (fun e off m => slice_encode_key (be64_length _))
    (fun _ _ _ hs => SymRow.decode_encode _ hs) (by simpa [Tables.nameBlob] using hmore) (t.blob_lt h)
    (fun r => do return (← Index.blobText ix.blob r.name_off r.name_len, r.kind, r.lang))
    (fun e => (clamp_blob_str e.2.name, e.2.kind, e.2.lang)) ?_ sym).trans ?_
  · intro e off hin
    rw [← hblob] at hin
    simp only [Tables.symRow, hin.blobText]
    rfl
  · rw [Facts.clamped, Option.map_map]
    rfl

theorem textOf_section {table : Bytes} {n : Nat} {l : List (UInt64 × String)} {f : UInt64 → Option String}
    (hl : Tabulates l f) {front : Bytes} (more : Bytes)
    (htable : table = (pushStrs Prod.snd Tables.typeRow front l).1.flatMap TypeRow.encode)
    (hn : n = (pushStrs Prod.snd Tables.typeRow front l).1.length)
    (hblob : ix.blob = front ++ strBytes Prod.snd l ++ more) (hlen : ix.blob.length < 2 ^ 63) (sym : UInt64) :
    ix.textOf table n sym = .ok ((f sym).map clamp_blob_str) := by
  unfold Index.textOf
  rw [htable, hn]
  refine lookup_section hl Prod.snd Tables.typeRow front more TypeRow.encode_length
    (by decide) be64_length be64_lt_iff be64_injective (fun e off m => slice_encode_key (be64_length _))
    (fun _ _ _ hs => TypeRow.decode_encode _ hs) hblob hlen
    (fun r => Index.blobText ix.blob r.str_off r.str_len) (fun e => clamp_blob_str e.2) ?_ sym
  intro e off hin
  exact hin.blobText

theorem Index.Lays.type_of (hix : ix.Lays t.rows) (h : t.rows.total < 2 ^ 63) (sym : UInt64) :
    ix.type_of sym = .ok (F.clamped.typed sym) := by
  have hblob : ix.blob = t.blob := hix.blob
  exact textOf_section t.typed_of (strBytes Prod.snd t.sig) hix.typed (by rw [hix.hdr]; rfl) hblob
    (hblob ▸ t.blob_lt h) sym

theorem Index.Lays.sig_of (hix : ix.Lays t.rows) (h : t.rows.total < 2 ^ 63) (sym : UInt64) :
    ix.sig_of sym = .ok (F.clamped.sig sym) := by
  have hblob : ix.blob = t.blob := hix.blob
  exact textOf_section t.sig_of [] hix.sig (by rw [hix.hdr]; rfl) (by rw [hblob, List.append_nil]; rfl)
    (hblob ▸ t.blob_lt h) sym

theorem Index.Lays.file_path (hix : ix.Lays t.rows) (h : t.rows.total < 2 ^ 63) (file : UInt32) :
    ix.file_path file = .ok (F.clamped.files file) := by
  obtain ⟨more, hmore⟩ := t.pathBlob_append
  have hblob : ix.blob = t.blob := hix.blob
  unfold Index.file_path
  rw [hix.files, hix.hdr]
  refine lookup_section t.files_of Prod.snd Tables.fileRow t.aliasBlob more FileRow.encode_length
    (by decide) be32_length be32_lt_iff be32_injective (fun e off m => slice_encode_key (be32_length _))
    (fun _ _ _ hs => FileRow.decode_encode _ hs) hmore (t.blob_lt h)
    (fun r => Index.blobText ix.blob r.path_off r.path_len) (fun e => clamp_blob_str e.2) ?_ file
  intro e off hin
  rw [← hblob] at hin
  exact hin.blobText

/-! ## The name index -/

/-- The string a name row points at. -/
def NameRow.text (r : NameRow) (blob : Bytes) : String := (from_utf8 (r.bytes blob)).getD ""

theorem InBlob.text {blob : Bytes} {r : NameRow} {s : String} (hlen : r.name_len = len s)
    (hin : InBlob blob r.name_off s) : r.text blob = s ∧ r.bytes blob = as_bytes s := by
  have hbytes : r.bytes blob = as_bytes s := by
    unfold NameRow.bytes
    rw [hlen, hin.eq]
  refine ⟨?_, hbytes⟩
  unfold NameRow.text
  rw [hbytes, from_utf8_as_bytes]
  rfl

theorem Tables.as_bytes_text {r : NameRow} (hr : r ∈ t.names) :
    as_bytes (r.text t.blob) = r.bytes t.blob := by
  obtain ⟨s, hlen, hin⟩ := Tables.mem_names_slot hr
  obtain ⟨htext, hbytes⟩ := InBlob.text hlen hin
  rw [htext, hbytes]

theorem Tables.nameText {r : NameRow} (hr : r ∈ t.names) (hblob : ix.blob = t.blob) :
    ix.nameText r = .ok (r.text t.blob) := by
  obtain ⟨s, hlen, hin⟩ := Tables.mem_names_slot hr
  rw [Index.nameText, hblob, hlen, hin.blobText, (InBlob.text hlen hin).1]

theorem nameLe_iff {blob : Bytes} {a b : NameRow} :
    nameLe blob a b ↔ toLex (a.bytes blob, a.sym) ≤ toLex (b.bytes blob, b.sym) := by
  rw [nameLe, Prod.Lex.toLex_le_toLex]

instance (blob : Bytes) : IsTrans NameRow (nameLe blob) where
  trans _ _ _ hab hbc := nameLe_iff.mpr ((nameLe_iff.mp hab).trans (nameLe_iff.mp hbc))

instance (blob : Bytes) : Std.Total (nameLe blob) where
  total a b := by
    rw [nameLe_iff, nameLe_iff]
    exact le_total _ _

theorem Tables.names_sorted (t : Tables F) : t.names.Pairwise (nameLe t.blob) :=
  List.pairwise_insertionSort _ _

theorem Tables.names_bytes_sorted (t : Tables F) :
    t.names.Pairwise fun a b => a.bytes t.blob ≤ b.bytes t.blob :=
  t.names_sorted.imp fun h => h.elim le_of_lt fun h => h.1.le

theorem Index.Lays.nameBelow (hix : ix.Lays t.rows) (h : t.rows.total < 2 ^ 63) (q : Bytes) {i : Nat}
    (hi : i < t.names.length) : ix.nameBelow q i = .ok (decide (t.names[i].bytes t.blob < q)) := by
  have hmem := List.getElem_mem hi
  unfold Index.nameBelow
  rw [hix.nameRow_at h hi, Tables.nameText hmem (show ix.blob = t.blob from hix.blob), Res.ok_bind, Tables.as_bytes_text hmem]
  rfl

/-- The rows from the first one on whose name is not below `q`. -/
theorem Index.Lays.firstName (hix : ix.Lays t.rows) (h : t.rows.total < 2 ^ 63) (q : Bytes) :
    ∃ lo, ix.firstName q = .ok lo ∧
      rowsFrom ix.names_slice NAME_LEN lo ix.hdr.names_n NameRow.decode = t.names.drop lo ∧
      ∀ i (hi : i < t.names.length), t.names[i].bytes t.blob < q ↔ i < lo := by
  have hn : ix.hdr.names_n = t.names.length := by rw [hix.hdr]; rfl
  let p : Nat → Bool := fun i => if hi : i < t.names.length then decide (t.names[i].bytes t.blob < q) else false
  have hp : ∀ i (hi : i < t.names.length), p i = decide (t.names[i].bytes t.blob < q) := fun i hi => dif_pos hi
  have hmono : ∀ i j, i ≤ j → j < t.names.length → p j = true → p i = true := by
    intro i j hij hj hpj
    have hi : i < t.names.length := by omega
    rw [hp j hj, decide_eq_true_eq] at hpj
    rw [hp i hi, decide_eq_true_eq]
    rcases Nat.eq_or_lt_of_le hij with rfl | hlt
    · exact hpj
    · exact (List.pairwise_iff_getElem.mp t.names_bytes_sorted i j hi hj hlt).trans_lt hpj
  obtain ⟨hle, hiff⟩ := bisect_iff hmono
  refine ⟨bisect p 0 t.names.length, ?_, ?_, fun i hi => ?_⟩
  · unfold Index.firstName
    rw [hn]
    exact bisectBlocks_eq fun i hi => by rw [hix.nameBelow h q hi, hp i hi]
  · rw [hn, show ix.names_slice = t.names.flatMap NameRow.encode from hix.names,
      rowsFrom_eq NameRow.encode_length _ le_rfl, List.take_of_length_le (by simp)]
    have hdec : ∀ r ∈ t.names, NameRow.decode r.encode = r := by
      intro r hr
      obtain ⟨s, hlen, hin⟩ := Tables.mem_names_slot hr
      exact NameRow.decode_encode r (hlen ▸ hin.slotFits (t.blob_lt h))
    rw [List.map_congr_left fun r hr => hdec r (List.mem_of_mem_drop hr), List.map_id']
  · rw [← hiff i hi, hp i hi, decide_eq_true_eq]

theorem Index.Lays.nameRun (hix : ix.Lays t.rows) (ok : String → Bool) {rows : List NameRow}
    (hrows : ∀ r ∈ rows, r ∈ t.names) (limit : Nat) :
    ix.nameRun ok limit rows =
      .ok (((rows.takeWhile fun r => ok (r.text t.blob)).take limit).map fun r => (r.text t.blob, r.sym)) := by
  induction rows generalizing limit with
  | nil => cases limit <;> rfl
  | cons r rows ih =>
    cases limit with
    | zero => rfl
    | succ limit =>
      have hih := ih (fun q hq => hrows q (List.mem_cons_of_mem _ hq)) limit
      have htext := Tables.nameText (hrows r List.mem_cons_self) (show ix.blob = t.blob from hix.blob)
      rw [Index.nameRun, htext, Res.ok_bind, List.takeWhile_cons]
      split_ifs with hr
      · rw [hih]
        rfl
      · rfl

/-- The rows of a class of names, by a lookup from the first name that is not below `q`. -/
theorem Index.Lays.nameClass (hix : ix.Lays t.rows) (h : t.rows.total < 2 ^ 63) {q : Bytes}
    {P : Bytes → Bool} (hq : ∀ x, P x = true → q ≤ x)
    (hP : ∀ x y, q ≤ x → x ≤ y → P y = true → P x = true) {ok : String → Bool}
    (hok : ∀ s, ok s = P (as_bytes s)) :
    ∃ lo rows, ix.firstName q = .ok lo ∧
      rowsFrom ix.names_slice NAME_LEN lo ix.hdr.names_n NameRow.decode = rows ∧
      (t.names.filter fun r => ok (r.text t.blob)).length ≤ rows.length ∧
      ∀ limit, ix.nameRun ok limit rows =
        .ok (((t.names.filter fun r => ok (r.text t.blob)).take limit).map fun r => (r.text t.blob, r.sym)) := by
  obtain ⟨lo, hlo, hrows, hiff⟩ := hix.firstName h q
  have hbytes : ∀ r ∈ t.names, ok (r.text t.blob) = P (r.bytes t.blob) := by
    intro r hr
    rw [hok, Tables.as_bytes_text hr]
  have hmem : ∀ r ∈ t.names.drop lo, r ∈ t.names := fun r hr => List.mem_of_mem_drop hr
  have hrun : (t.names.drop lo).takeWhile (fun r => ok (r.text t.blob)) =
      t.names.filter fun r => ok (r.text t.blob) := by
    rw [List.filter_congr hbytes, ← takeWhile_drop_eq_filter t.names_bytes_sorted hiff hq hP]
    exact takeWhile_congr fun r hr => hbytes r (hmem r hr)
  refine ⟨lo, _, hlo, hrows, ?_, fun limit => ?_⟩
  · rw [← hrun]
    exact (List.takeWhile_sublist _).length_le
  · rw [hix.nameRun ok hmem, hrun]

theorem Index.Lays.syms_for_name (hix : ix.Lays t.rows) (h : t.rows.total < 2 ^ 63) (q : String) :
    ix.syms_for_name q = .ok (sortDedup (((t.names.filter fun r =>
      decide (as_bytes (r.text t.blob) = as_bytes q)).map fun r => (r.text t.blob, r.sym)).map Prod.snd)) := by
  obtain ⟨lo, rows, hlo, hrows, hlen, hrun⟩ := hix.nameClass h
    (P := fun x => decide (x = as_bytes q)) (q := as_bytes q) (fun x hx => (of_decide_eq_true hx).ge)
    (fun x y hx hxy hy => decide_eq_true (le_antisymm (hxy.trans (of_decide_eq_true hy).le) hx))
    fun _ => rfl
  unfold Index.syms_for_name
  simp only [hlo, Res.ok_bind, hrows, hrun rows.length, List.take_of_length_le hlen]
  rfl

/-- A symbol is found by its own name and by its aliases, as the blob has them. -/
theorem Index.Lays.mem_syms_for_name (hix : ix.Lays t.rows) (h : t.rows.total < 2 ^ 63) (q : String) :
    ∃ l, ix.syms_for_name q = .ok l ∧
      ∀ s, s ∈ l ↔ (∃ m, F.clamped.syms s = some m ∧ m.name = q) ∨ ⟨s, q⟩ ∈ F.clamped.aliases := by
  have hown : ∀ e r, (∃ off, r = Tables.ownName e off (len (clamp_blob_str e.2.name)) ∧
      InBlob t.nameBlob off (clamp_blob_str e.2.name)) → r.text t.blob = clamp_blob_str e.2.name := by
    rintro e r ⟨off, rfl, hin⟩
    obtain ⟨more, hmore⟩ := t.nameBlob_append
    exact (InBlob.text rfl (hmore ▸ hin.append more)).1
  have halias : ∀ a r, (∃ off, r = Tables.aliasName a off (len (clamp_blob_str a.text)) ∧
      t.nameBlob.length ≤ off ∧ InBlob t.aliasBlob off (clamp_blob_str a.text)) →
        r.text t.blob = clamp_blob_str a.text := by
    rintro a r ⟨off, rfl, -, hin⟩
    obtain ⟨more, hmore⟩ := t.aliasBlob_append
    exact (InBlob.text rfl (hmore ▸ hin.append more)).1
  refine ⟨_, hix.syms_for_name h q, fun s => ?_⟩
  simp only [mem_sortDedup, List.mem_map, List.mem_filter, decide_eq_true_eq]
  constructor
  · rintro ⟨-, ⟨r, ⟨hr, hq⟩, rfl⟩, rfl⟩
    have hq := as_bytes_injective hq
    rcases List.mem_append.mp (Tables.mem_names.mp hr) with hr | hr
    · obtain ⟨e, he, hslot⟩ := Tables.exists_of_forall₂_right t.ownNames_slots hr
      have htext := hown e r hslot
      obtain ⟨off, rfl, -⟩ := hslot
      refine .inl ⟨e.2.clamped, ?_, htext.symm.trans hq⟩
      exact congrArg (Option.map SymMeta.clamped) ((t.syms_of.2 _ _).mp he)
    · obtain ⟨a, ha, hslot⟩ := Tables.exists_of_forall₂_right t.aliasNames_slots hr
      have htext := halias a r hslot
      obtain ⟨off, rfl, -⟩ := hslot
      refine .inr ⟨a, (t.aliases_of.2 a).mp ha, ?_⟩
      exact StrRow.ext rfl (htext.symm.trans hq)
  · rintro (⟨m, hm, rfl⟩ | ⟨a, ha, heq⟩)
    · obtain ⟨m, hsym, rfl⟩ := Option.map_eq_some_iff.mp hm
      obtain ⟨r, hr, hslot⟩ := Tables.exists_of_forall₂_left t.ownNames_slots ((t.syms_of.2 s m).mpr hsym)
      have htext := hown _ r hslot
      obtain ⟨off, rfl, -⟩ := hslot
      exact ⟨_, ⟨_, ⟨Tables.mem_names.mpr (List.mem_append_left _ hr), congrArg as_bytes htext⟩, rfl⟩, rfl⟩
    · obtain ⟨r, hr, hslot⟩ := Tables.exists_of_forall₂_left t.aliasNames_slots ((t.aliases_of.2 a).mpr ha)
      have htext := halias a r hslot
      obtain ⟨off, rfl, -⟩ := hslot
      obtain ⟨rfl, rfl⟩ := StrRow.mk.inj heq
      exact ⟨_, ⟨_, ⟨Tables.mem_names.mpr (List.mem_append_right _ hr), congrArg as_bytes htext⟩, rfl⟩, rfl⟩

end

/-! ## Prefixes -/

theorem cons_le_cons_iff {a b : UInt8} {x y : Bytes} : a :: x ≤ b :: y ↔ a < b ∨ a = b ∧ x ≤ y := by
  rw [← not_lt, List.cons_lt_cons_iff, ← not_lt]
  rcases lt_trichotomy a b with h | h | h
  · simp [h, h.le, h.ne']
  · simp [h]
  · simp [h, h.le, h.ne']

theorem le_of_prefix {p x : Bytes} (h : p <+: x) : p ≤ x := by
  induction p generalizing x with
  | nil => exact not_lt.mp (List.not_lt_nil x)
  | cons a p ih =>
    obtain ⟨s, rfl⟩ := h
    exact cons_le_cons_iff.mpr (Or.inr ⟨rfl, ih (List.prefix_append p s)⟩)

/-- Between a string and its extensions there are only extensions. -/
theorem prefix_of_le {p x y : Bytes} (hpx : p ≤ x) (hxy : x ≤ y) (h : p <+: y) : p <+: x := by
  induction p generalizing x y with
  | nil => exact List.nil_prefix
  | cons a p ih =>
    obtain ⟨s, rfl⟩ := h
    cases x with
    | nil => exact absurd (List.nil_lt_cons a p) (not_lt.mpr hpx)
    | cons b x =>
      rcases cons_le_cons_iff.mp hpx with hab | ⟨rfl, hpx'⟩
      · rcases cons_le_cons_iff.mp hxy with hba | ⟨hba, -⟩
        · exact absurd (hab.trans hba) (lt_irrefl a)
        · exact absurd hab (hba ▸ lt_irrefl _)
      · rcases cons_le_cons_iff.mp hxy with hba | ⟨-, hxy⟩
        · exact absurd hba (lt_irrefl a)
        · exact List.cons_prefix_cons.mpr ⟨rfl, ih hpx' hxy (List.prefix_append p s)⟩

/-! ## Lookups in the file of a builder -/

/-- The order of the name index: by the bytes of the name, then by symbol. -/
def pairLe (a b : String × UInt64) : Prop :=
  as_bytes a.1 < as_bytes b.1 ∨ as_bytes a.1 = as_bytes b.1 ∧ a.2 ≤ b.2

instance (a b : String × UInt64) : Decidable (pairLe a b) := inferInstanceAs (Decidable (_ ∨ _))

namespace IndexBuilder

/-- Is the symbol a variable? -/
def isVariable (b : IndexBuilder) (sym : UInt64) : Bool := (b.syms[sym]?.map SymMeta.kind) = some Kind.VARIABLE

/-- The names a lookup can find: every symbol's own, and the aliases of all but variables. -/
def nameIndex (b : IndexBuilder) : List (String × UInt64) :=
  ((b.syms.toList.map fun e => (e.2.name, e.1)) ++
    (sortDedup (b.aliases.filter fun r => !b.isVariable r.sym)).map fun r => (r.text, r.sym)).insertionSort pairLe

theorem mem_nameIndex {b : IndexBuilder} {name : String} {sym : UInt64} :
    (name, sym) ∈ b.nameIndex ↔ (∃ m, b.syms[sym]? = some m ∧ m.name = name) ∨
      ⟨sym, name⟩ ∈ b.aliases ∧ b.isVariable sym = false := by
  unfold nameIndex
  rw [List.mem_insertionSort, List.mem_append, List.mem_map, List.mem_map]
  refine or_congr ⟨?_, ?_⟩ ⟨?_, ?_⟩
  · rintro ⟨e, he, heq⟩
    cases heq
    exact ⟨e.2, ((tabulates_toList _).2 _ _).mp he, rfl⟩
  · rintro ⟨m, hm, rfl⟩
    exact ⟨(sym, m), ((tabulates_toList _).2 _ _).mpr hm, rfl⟩
  · rintro ⟨r, hr, heq⟩
    cases heq
    simpa using mem_sortDedup.mp hr
  · rintro ⟨hr, hv⟩
    exact ⟨⟨sym, name⟩, mem_sortDedup.mpr (List.mem_filter.mpr ⟨hr, by simpa using hv⟩), rfl⟩

theorem pairLe_iff {a b : String × UInt64} : pairLe a b ↔ toLex (as_bytes a.1, a.2) ≤ toLex (as_bytes b.1, b.2) := by
  rw [pairLe, Prod.Lex.toLex_le_toLex]

theorem pairLe_antisymm {a b : String × UInt64} (hab : pairLe a b) (hba : pairLe b a) : a = b := by
  have heq : (as_bytes a.1, a.2) = (as_bytes b.1, b.2) :=
    toLex.injective ((pairLe_iff.mp hab).antisymm (pairLe_iff.mp hba))
  obtain ⟨hbytes, hsym⟩ := Prod.mk.inj heq
  exact Prod.ext (as_bytes_injective hbytes) hsym

instance : IsTrans (String × UInt64) pairLe where
  trans _ _ _ hab hbc := pairLe_iff.mpr ((pairLe_iff.mp hab).trans (pairLe_iff.mp hbc))

instance : Std.Total pairLe where
  total a b := by
    rw [pairLe_iff, pairLe_iff]
    exact le_total _ _

theorem map_eq_of_forall₂ {α β γ : Type} {R : α → β → Prop} {f : α → γ} {g : β → γ} {l : List α}
    {m : List β} (h : List.Forall₂ R l m) (hfg : ∀ a ∈ l, ∀ b, R a b → g b = f a) : m.map g = l.map f := by
  induction h with
  | nil => rfl
  | cons hab _ ih =>
    rw [List.map_cons, List.map_cons, hfg _ List.mem_cons_self _ hab,
      ih fun a ha => hfg a (List.mem_cons_of_mem _ ha)]

theorem tables_names (b : IndexBuilder) (hshort : b.Short) :
    b.tables.names.map (fun r => (r.text b.tables.blob, r.sym)) = b.nameIndex := by
  have hvisible : b.aliases.filter (fun r => !b.isVariable r.sym) =
      b.aliases.filter fun r => r.sym ∉ varSyms b.syms.toList := by
    apply List.filter_congr
    intro r _
    have hv := mem_varSyms (tabulates_toList b.syms) r.sym
    rw [Bool.eq_iff_iff, decide_eq_true_eq, hv]
    unfold isVariable
    cases b.syms[r.sym]? <;> simp
  have htext : ∀ (r : NameRow) (s : String), len s ≤ u16Max → r.name_len = len (clamp_blob_str s) →
      InBlob b.tables.blob r.name_off (clamp_blob_str s) → r.text b.tables.blob = s := by
    intro r s hs hlen hin
    rw [clamp_of_len_le hs] at hlen hin
    exact (InBlob.text hlen hin).1
  have hown : b.tables.ownNames.map (fun r => (r.text b.tables.blob, r.sym)) =
      b.syms.toList.map fun e => (e.2.name, e.1) := by
    obtain ⟨more, hmore⟩ := b.tables.nameBlob_append
    refine map_eq_of_forall₂ b.tables.ownNames_slots fun e he r hr => ?_
    obtain ⟨off, rfl, hin⟩ := hr
    have hs := hshort.names e.1 e.2 (((tabulates_toList _).2 _ _).mp he)
    rw [htext _ _ hs rfl (hmore ▸ hin.append more)]
    rfl
  have halias : b.tables.aliasNames.map (fun r => (r.text b.tables.blob, r.sym)) =
      (sortDedup (b.aliases.filter fun r => !b.isVariable r.sym)).map fun r => (r.text, r.sym) := by
    rw [hvisible]
    obtain ⟨more, hmore⟩ := b.tables.aliasBlob_append
    refine map_eq_of_forall₂ b.tables.aliasNames_slots fun a ha r hr => ?_
    obtain ⟨off, rfl, -, hin⟩ := hr
    have hs := hshort.aliases a (List.mem_filter.mp (mem_sortDedup.mp ha)).1
    rw [htext _ _ hs rfl (hmore ▸ hin.append more)]
    rfl
  refine List.Perm.eq_of_pairwise (fun _ _ _ _ => pairLe_antisymm) ?_ (List.pairwise_insertionSort _ _) ?_
  · rw [List.pairwise_map]
    refine b.tables.names_sorted.imp_of_mem fun {r q} hr hq h => ?_
    unfold pairLe
    rwa [Tables.as_bytes_text hr, Tables.as_bytes_text hq]
  · unfold nameIndex
    rw [← hown, ← halias, ← List.map_append]
    exact ((List.perm_insertionSort _ _).map _).trans (List.perm_insertionSort _ _).symm

end IndexBuilder

/-- The lexicographically smallest of the strings recorded for a symbol, empty ones apart. -/
def Smallest (rows : List StrRow) (sym : UInt64) (o : Option String) : Prop :=
  ∀ t, o = some t ↔ ⟨sym, t⟩ ∈ rows ∧ t ≠ "" ∧
    ∀ r ∈ rows, r.sym = sym → r.text ≠ "" → as_bytes t ≤ as_bytes r.text

theorem smallest_bestText {rows : List StrRow} (hne : ∀ r ∈ rows, r.text ≠ "") (sym : UInt64) :
    Smallest rows sym (bestText rows sym) := by
  intro t
  rw [bestText_eq_some_iff hne]
  constructor
  · rintro ⟨hm, hmin⟩
    exact ⟨hm, hne _ hm, fun r hr hk _ => hmin r hr hk⟩
  · rintro ⟨hm, -, hmin⟩
    exact ⟨hm, fun r hr hk => hmin r hr hk (hne r hr)⟩

/-- Every lookup answers with what was recorded, and with nothing where nothing was. -/
theorem lookups_exact (b : IndexBuilder) (hshort : b.Short) (f : Bytes) (hf : b.finish = .ok f) :
    ∃ ix, open_index f = .ok ix ∧
      (∀ s, ix.sym_meta s = .ok (b.syms[s]?.map fun m => (m.name, m.kind, m.lang))) ∧
      (∀ s, ∃ o, ix.type_of s = .ok o ∧ Smallest b.typed s o) ∧
      (∀ s, ∃ o, ix.sig_of s = .ok o ∧ Smallest b.sig s o) ∧
      (∀ id, ix.file_path id = .ok b.files[id]?) ∧
      (∀ q, ∃ l, ix.syms_for_name q = .ok l ∧ l.Pairwise (· < ·) ∧
        ∀ s, s ∈ l ↔ (∃ m, b.syms[s]? = some m ∧ m.name = q) ∨
          ⟨s, q⟩ ∈ b.aliases ∧ b.isVariable s = false) ∧
      ∀ p limit, ix.names_with_prefix p limit =
        .ok ((b.nameIndex.filter fun e => (as_bytes p).isPrefixOf (as_bytes e.1)).take limit) := by
  obtain ⟨htot, ix, hopen, hix⟩ := b.tables.open_file (b.finish_eq ▸ hf)
  have hclamp : b.facts.visible.clamped = b.facts.visible := Facts.clamped_of_short hshort.facts.visible
  have hnames := b.tables_names hshort
  refine ⟨ix, hopen, fun s => ?_, fun s => ⟨_, hix.type_of htot s, ?_⟩, fun s => ⟨_, hix.sig_of htot s, ?_⟩,
    fun id => ?_, fun q => ?_, fun p limit => ?_⟩
  · rw [hix.sym_meta htot, hclamp]
    rfl
  · rw [hclamp]
    exact smallest_bestText b.typed_ne s
  · rw [hclamp]
    exact smallest_bestText b.sig_ne s
  · rw [hix.file_path htot, hclamp]
    rfl
  · refine ⟨_, hix.syms_for_name htot q, sortDedup_pairwise _, fun s => ?_⟩
    · rw [mem_sortDedup, List.mem_map, ← IndexBuilder.mem_nameIndex, ← hnames]
      simp only [List.mem_map, List.mem_filter, decide_eq_true_eq, Prod.mk.injEq]
      constructor
      · rintro ⟨e, ⟨r, ⟨hr, hq⟩, rfl⟩, rfl⟩
        exact ⟨r, hr, as_bytes_injective hq, rfl⟩
      · rintro ⟨r, hr, hq, rfl⟩
        exact ⟨_, ⟨r, ⟨hr, congrArg as_bytes hq⟩, rfl⟩, rfl⟩
  · obtain ⟨lo, rows, hlo, hrows, -, hrun⟩ := hix.nameClass htot
      (P := fun x => (as_bytes p).isPrefixOf x) (q := as_bytes p)
      (fun x hx => le_of_prefix (List.isPrefixOf_iff_prefix.mp hx))
      (fun x y hx hxy hy => List.isPrefixOf_iff_prefix.mpr
        (prefix_of_le hx hxy (List.isPrefixOf_iff_prefix.mp hy)))
      fun _ => rfl
    unfold Index.names_with_prefix
    rw [hlo, Res.ok_bind, hrows, hrun limit, ← hnames, List.filter_map, List.map_take]
    rfl

section

attribute [local instance] asciiUnicode

/-- A variable and a function with the same alias. -/
def sameAlias : IndexBuilder :=
  ((((IndexBuilder.new.upsert_file 1 "b.cc").upsert_sym 9 Kind.VARIABLE Lang.CXX "v").add_alias 7
    "f").add_alias 9 "f").add_type 9 "int"

theorem lookups_exact_sameAlias :
    ∃ f ix, sameAlias.finish = .ok f ∧ open_index f = .ok ix ∧
      ix.sym_meta 9 = .ok (some ("v", Kind.VARIABLE, Lang.CXX)) ∧ ix.file_path 1 = .ok (some "b.cc") ∧
      ix.names_with_prefix "f" 5 = .ok [("f", 7)] := by
  have hf : sameAlias.finish = .ok sameAlias.finishRows.bytes :=
    (Rows.finishFile_eq _).trans (if_pos (by decide +kernel))
  obtain ⟨ix, hopen, hmeta, -, -, hpath, -, hstarts⟩ := lookups_exact sameAlias (by decide +kernel) _ hf
  have h1 : sameAlias.syms[(9 : UInt64)]?.map (fun m => (m.name, m.kind, m.lang)) =
      some ("v", Kind.VARIABLE, Lang.CXX) := by decide +kernel
  have h2 : sameAlias.files[(1 : UInt32)]? = some "b.cc" := by decide +kernel
  have h3 : (sameAlias.nameIndex.filter fun e => (as_bytes "f").isPrefixOf (as_bytes e.1)).take 5 =
      [("f", 7)] := by decide +kernel
  exact ⟨_, ix, hf, hopen, h1 ▸ hmeta 9, h2 ▸ hpath 1, h3 ▸ hstarts "f" 5⟩

end

end Scry2
