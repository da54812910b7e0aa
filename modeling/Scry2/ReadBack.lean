import Scry2.Finish
import Mathlib.Data.List.ReduceOption

/-!
# The iterators of a written file

Every whole-table iterator of an opened file yields the facts the file was written from.
-/

open Scry2.Lib

namespace Scry2

/-! ## Iterating a packed table -/

theorem rowAt_flatMap {α : Type} {enc : α → Bytes} {n : Nat} (henc : ∀ a, (enc a).length = n)
    {l : List α} {i : Nat} (hi : i < l.length) : Index.rowAt (l.flatMap enc) n i = enc l[i] :=
  slice_flatMap enc henc l i hi

theorem tableRows_flatMap {α : Type} {enc : α → Bytes} {dec : Bytes → α} {n : Nat}
    (henc : ∀ a, (enc a).length = n) {l : List α} (hdec : ∀ a ∈ l, dec (enc a) = a) :
    Index.tableRows (l.flatMap enc) l.length n dec = l := by
  apply List.ext_getElem
  · simp [Index.tableRows]
  · intro i h1 h2
    simp only [Index.tableRows, List.getElem_map, List.getElem_range]
    rw [rowAt_flatMap henc h2, hdec _ (List.getElem_mem h2)]

theorem exists_of_mem_mapM {α β : Type} {f : α → Res β} {l : List α} {l' : List β} (h : l.mapM f = .ok l')
    {b : β} (hb : b ∈ l') : ∃ a ∈ l, f a = .ok b := by
  induction l generalizing l' with
  | nil =>
    cases h
    cases hb
  | cons a l ih =>
    rw [List.mapM_cons] at h
    obtain ⟨b₁, h₁, h⟩ := Res.bind_eq_ok h
    obtain ⟨bs, hbs, h⟩ := Res.bind_eq_ok h
    cases h
    rcases List.mem_cons.mp hb with rfl | hb
    · exact ⟨a, List.mem_cons_self, h₁⟩
    · obtain ⟨a', ha', hf⟩ := ih hbs hb
      exact ⟨a', List.mem_cons_of_mem _ ha', hf⟩

theorem mapM_ok {α β : Type} {f : α → Res β} {g : α → β} {l : List α} (h : ∀ a ∈ l, f a = .ok (g a)) :
    l.mapM f = .ok (l.map g) := by
  induction l with
  | nil => rfl
  | cons a l ih =>
    rw [List.mapM_cons, h a List.mem_cons_self, ih fun b hb => h b (List.mem_cons_of_mem _ hb)]
    rfl

theorem mapM_of_forall₂ {α β ρ : Type} {f : ρ → Res β} {g : α → β} {l : List α} {rows : List ρ}
    (h : List.Forall₂ (fun a r => f r = .ok (g a)) l rows) : rows.mapM f = .ok (l.map g) := by
  induction h with
  | nil => rfl
  | cons hab _ ih => rw [List.mapM_cons, hab, ih]; rfl

/-! ## Strings of the blob -/

theorem InBlob.blobSlice {blob : Bytes} {off : Nat} {s : String} (h : InBlob blob off s) :
    Index.blobSlice blob off (len s) = .ok (as_bytes s) := by
  rw [Index.blobSlice, if_pos h.le, h.eq]

theorem InBlob.blobText {blob : Bytes} {off : Nat} {s : String} (h : InBlob blob off s) :
    Index.blobText blob off (len s) = .ok s := by
  rw [Index.blobText, h.blobSlice]
  simp [from_utf8_as_bytes]

theorem InBlob.slotFits {blob : Bytes} {off : Nat} {s : String} (h : InBlob blob off (clamp_blob_str s))
    (hb : blob.length < 2 ^ 63) : SlotFits off (len (clamp_blob_str s)) := by
  have h1 := h.le
  have h2 := len_clamp_le s
  unfold u16Max at h2
  exact ⟨by omega, by omega⟩

/-! ## What an index holds -/

/-- No alias, type or signature is empty. -/
structure Facts.Ne (F : Facts) : Prop where
  aliases : ∀ r ∈ F.aliases, r.text ≠ ""
  typed : ∀ k t, F.typed k = some t → t ≠ ""
  sig : ∀ k t, F.sig k = some t → t ≠ ""

theorem Facts.Ne.visible {F : Facts} (h : F.Ne) : F.visible.Ne :=
  ⟨fun r hr => h.aliases r hr.1, h.typed, h.sig⟩

theorem Facts.Ne.clamped {F : Facts} (h : F.Ne) : F.clamped.Ne where
  aliases := by
    rintro r ⟨q, hq, rfl⟩
    exact clamp_ne_empty (h.aliases q hq)
  typed k t ht := by
    obtain ⟨a, ha, rfl⟩ := Option.map_eq_some_iff.mp ht
    exact clamp_ne_empty (h.typed k a ha)
  sig k t ht := by
    obtain ⟨a, ha, rfl⟩ := Option.map_eq_some_iff.mp ht
    exact clamp_ne_empty (h.sig k a ha)

theorem IndexBuilder.facts_ne (b : IndexBuilder) : b.facts.Ne where
  aliases := b.aliases_ne
  typed _ _ ht := b.typed_ne _ ((bestText_eq_some_iff b.typed_ne).mp ht).1
  sig _ _ ht := b.sig_ne _ ((bestText_eq_some_iff b.sig_ne).mp ht).1

/-- The iterators of an index yield the facts `F`. Aliases come in the order of the name index. -/
structure Index.Holds (ix : Index) (F : Facts) : Prop where
  xrefs : Enumerates ix.iter_xrefs F.xrefs
  syms : ∃ l, ix.iter_syms = .ok l ∧ Tabulates l F.syms
  files : ∃ l, ix.iter_files = .ok l ∧ Tabulates l F.files
  inherits : Enumerates ix.iter_inherits F.inherits
  aliases : ∃ l, ix.iter_aliases = .ok l ∧ ∀ r, r ∈ l ↔ r ∈ F.aliases
  calls : Enumerates ix.iter_calls F.calls
  typed : ∃ l, ix.iter_typed = .ok l ∧ Tabulates l F.typed
  childof : Enumerates ix.iter_childrev F.childof
  sig : ∃ l, ix.iter_sig = .ok l ∧ Tabulates l F.sig

section

variable {F : Facts} {t : Tables F} {ix : Index}

theorem Tables.blob_lt (t : Tables F) (h : t.rows.total < 2 ^ 63) : t.blob.length < 2 ^ 63 := by
  have hm : (t.rows.finishHeader.blob_off, t.blob) ∈
      (0, t.rows.finishHeader.bytes) :: t.rows.sections t.rows.finishHeader := by
    simp [Rows.sections, Tables.rows]
  have := t.rows.stop_le_total hm
  simp only at this
  omega

/-- The strings of one section: the rows decode, and the iterator reads the strings back. -/
theorem section_texts {α ρ β : Type} (str : α → String) (mk : α → Nat → Nat → ρ) (l : List α)
    (front more : Bytes) (read : ρ → Res β) (g : α → β) {enc : ρ → Bytes} {dec : Bytes → ρ} {n : Nat}
    {blob : Bytes} (henc : ∀ r, (enc r).length = n)
    (hdec : ∀ a off m, SlotFits off m → dec (enc (mk a off m)) = mk a off m)
    (hblob : blob = front ++ strBytes str l ++ more) (hlt : blob.length < 2 ^ 63)
    (hread : ∀ a off, InBlob blob off (clamp_blob_str (str a)) →
      read (mk a off (len (clamp_blob_str (str a)))) = .ok (g a)) :
    Index.tableRows ((pushStrs str mk front l).1.flatMap enc) (pushStrs str mk front l).1.length n dec =
        (pushStrs str mk front l).1 ∧
      (pushStrs str mk front l).1.mapM read = .ok (l.map g) := by
  have hslots := pushStrs_slots str mk front l
  refine ⟨tableRows_flatMap henc fun r hr => ?_, mapM_of_forall₂ (hslots.imp ?_)⟩
  · obtain ⟨a, -, off, rfl, -, hin⟩ := Tables.exists_of_forall₂_right hslots hr
    have hin' := hin.append more
    rw [← hblob] at hin'
    exact hdec _ _ _ (hin'.slotFits hlt)
  · rintro a r ⟨off, rfl, -, hin⟩
    have hin' := hin.append more
    rw [← hblob] at hin'
    exact hread a off hin'

/-! ## Sections that hold strings -/

theorem Index.Lays.symRows (hix : ix.Lays t.rows) (h : t.rows.total < 2 ^ 63) :
    ix.symRows = t.rows.syms ∧
      ix.iter_syms = .ok (t.syms.map fun e => (e.1, e.2.clamped)) := by
  obtain ⟨more, hmore⟩ := t.nameBlob_append
  have key := section_texts (fun e => e.2.name) Tables.symRow t.syms [] more
    (fun r => do
      let name ← blobText ix.blob r.name_off r.name_len
      return (r.sym, SymMeta.mk r.kind r.lang name))
    (fun e => (e.1, e.2.clamped))
    SymRow.encode_length (fun _ _ _ hs => SymRow.decode_encode _ hs)
    (by simpa [Tables.nameBlob] using hmore) (t.blob_lt h) (by
      intro e off hin
      rw [← show ix.blob = t.blob from hix.blob] at hin
      simp only [Tables.symRow, hin.blobText]
      rfl)
  have e : ix.symRows = t.rows.syms := by
    rw [Index.symRows, hix.syms, hix.hdr]; exact key.1
  refine ⟨e, ?_⟩
  rw [Index.iter_syms, e]
  exact key.2

theorem Index.Lays.iter_files (hix : ix.Lays t.rows) (h : t.rows.total < 2 ^ 63) :
    ix.iter_files = .ok (t.files.map fun e => (e.1, clamp_blob_str e.2)) := by
  obtain ⟨more, hmore⟩ := t.pathBlob_append
  have key := section_texts Prod.snd Tables.fileRow t.files t.aliasBlob more
    (fun r => do
      let path ← blobText ix.blob r.path_off r.path_len
      return (r.file, path))
    (fun e => (e.1, clamp_blob_str e.2))
    FileRow.encode_length (fun _ _ _ hs => FileRow.decode_encode _ hs) hmore (t.blob_lt h) (by
      intro e off hin
      rw [← show ix.blob = t.blob from hix.blob] at hin
      simp only [Tables.fileRow, hin.blobText]
      rfl)
  rw [Index.iter_files, hix.files, hix.hdr]
  exact (congrArg _ key.1).trans key.2

theorem typeTexts_section {front : Bytes} (more : Bytes) {l : List (UInt64 × String)} {blob : Bytes}
    (hblob : blob = front ++ strBytes Prod.snd l ++ more) (hlt : blob.length < 2 ^ 63) :
    Index.typeTexts blob (Index.tableRows ((pushStrs Prod.snd Tables.typeRow front l).1.flatMap
        TypeRow.encode) (pushStrs Prod.snd Tables.typeRow front l).1.length TYPE_LEN TypeRow.decode) =
      .ok (l.map fun e => (e.1, clamp_blob_str e.2)) := by
  have key := section_texts Prod.snd Tables.typeRow l front more
    (fun r => do
      let text ← Index.blobText blob r.str_off r.str_len
      return (r.sym, text))
    (fun e => (e.1, clamp_blob_str e.2))
    TypeRow.encode_length (fun _ _ _ hs => TypeRow.decode_encode _ hs) hblob hlt (by
      intro e off hin
      simp only [Tables.typeRow, hin.blobText]
      rfl)
  exact (congrArg _ key.1).trans key.2

theorem Index.Lays.iter_typed (hix : ix.Lays t.rows) (h : t.rows.total < 2 ^ 63) :
    ix.iter_typed = .ok (t.typed.map fun e => (e.1, clamp_blob_str e.2)) := by
  rw [Index.iter_typed, hix.typed, hix.hdr, hix.blob]
  exact typeTexts_section (strBytes Prod.snd t.sig) rfl (t.blob_lt h)

theorem Index.Lays.iter_sig (hix : ix.Lays t.rows) (h : t.rows.total < 2 ^ 63) :
    ix.iter_sig = .ok (t.sig.map fun e => (e.1, clamp_blob_str e.2)) := by
  rw [Index.iter_sig, hix.sig, hix.hdr, hix.blob]
  exact typeTexts_section [] (by rw [List.append_nil]; rfl) (t.blob_lt h)

/-! ## Aliases -/

theorem Tables.mem_names_slot {t : Tables F} {r : NameRow} (hr : r ∈ t.names) :
    ∃ s, r.name_len = len (clamp_blob_str s) ∧ InBlob t.blob r.name_off (clamp_blob_str s) := by
  rcases List.mem_append.mp (Tables.mem_names.mp hr) with hr | hr
  · obtain ⟨e, -, off, rfl, hin⟩ := Tables.exists_of_forall₂_right t.ownNames_slots hr
    obtain ⟨more, hmore⟩ := t.nameBlob_append
    exact ⟨e.2.name, rfl, hmore ▸ hin.append more⟩
  · obtain ⟨a, -, off, rfl, -, hin⟩ := Tables.exists_of_forall₂_right t.aliasNames_slots hr
    obtain ⟨more, hmore⟩ := t.aliasBlob_append
    exact ⟨a.text, rfl, hmore ▸ hin.append more⟩

theorem Index.Lays.nameRows (hix : ix.Lays t.rows) (h : t.rows.total < 2 ^ 63) :
    ix.nameRows = t.names := by
  rw [Index.nameRows, hix.names, hix.hdr]
  refine tableRows_flatMap (l := t.names) NameRow.encode_length fun r hr => ?_
  obtain ⟨s, hlen, hin⟩ := Tables.mem_names_slot hr
  have hfits := hin.slotFits (t.blob_lt h)
  exact NameRow.decode_encode r (hlen ▸ hfits)

theorem Index.Lays.nameRow_at (hix : ix.Lays t.rows) (h : t.rows.total < 2 ^ 63) {i : Nat}
    (hi : i < t.names.length) : NameRow.decode (rowAt ix.names_slice NAME_LEN i) = t.names[i] := by
  have e := hix.nameRows h
  have hn : ix.hdr.names_n = t.names.length := by rw [hix.hdr]; rfl
  have := congrArg (·[i]?) e
  simp only [Index.nameRows, Index.tableRows, hn, List.getElem?_map, List.getElem?_eq_getElem hi,
    List.getElem?_range hi, Option.map_some, Option.some.injEq] at this
  exact this

theorem Index.Lays.canon (hix : ix.Lays t.rows) (h : t.rows.total < 2 ^ 63) (k : UInt64)
    (slot : Nat × Nat) :
    ix.canon[k]? = some slot ↔ NameRow.mk slot.1 slot.2 k ∈ t.ownNames := by
  have hkeys : ∀ (front : Bytes) (l : List (UInt64 × SymMeta)),
      (pushStrs (fun e => e.2.name) (fun e off n => (e.1, (off, n))) front l).1.map Prod.fst =
        l.map Prod.fst := by
    intro front l
    induction l generalizing front with
    | nil => rfl
    | cons e l ih => simp [pushStrs, ih]
  have hslots : t.rows.syms.map (fun r => (r.sym, (r.name_off, r.name_len))) =
      (pushStrs (fun e => e.2.name) (fun e off n => (e.1, (off, n))) [] t.syms).1 :=
    pushStrs_map _ Tables.symRow _ _ _
  have hnames : t.ownNames = (pushStrs (fun e => e.2.name) (fun e off n => (e.1, (off, n))) []
      t.syms).1.map fun p => NameRow.mk p.2.1 p.2.2 p.1 := by
    rw [pushStrs_map]; rfl
  have hpw : ((pushStrs (fun e => e.2.name) (fun e off n => (e.1, (off, n))) []
      t.syms).1).Pairwise (·.1 < ·.1) := by
    rw [← List.pairwise_map (f := Prod.fst) (R := (· < ·)), hkeys, List.pairwise_map]
    exact t.syms_of.1
  have hfold : ix.canon = (t.rows.syms.map fun r => (r.sym, (r.name_off, r.name_len))).foldl
      (fun m e => m.insert e.1 e.2) ∅ := by
    rw [Index.canon, (hix.symRows h).1, List.foldl_map]
  rw [hfold, hslots, getElem?_foldl_insert _ (hpw.imp ne_of_lt)]
  simp only [Std.ExtTreeMap.getElem?_empty, Option.or_none]
  rw [lookup_eq_some_iff (hpw.imp ne_of_lt), hnames]
  simp only [List.mem_map, NameRow.mk.injEq]
  constructor
  · intro hm
    exact ⟨_, hm, rfl, rfl, rfl⟩
  · rintro ⟨⟨k', o, n⟩, hm, rfl, rfl, rfl⟩
    exact hm

/-- A name row is a symbol's own name exactly when it comes from the sym table: aliases lie behind
all own names and are not empty. -/
theorem Tables.not_mem_ownNames (hne : F.Ne) {r : NameRow} (hr : r ∈ t.aliasNames) :
    r ∉ t.ownNames := by
  intro hown
  obtain ⟨e, -, off, rfl, hin⟩ := Tables.exists_of_forall₂_right t.ownNames_slots hown
  obtain ⟨a, ha, off', heq, hle, -⟩ := Tables.exists_of_forall₂_right t.aliasNames_slots hr
  have hpos : 0 < len (clamp_blob_str a.text) :=
    (len_pos_iff _).mpr (clamp_ne_empty (hne.aliases a ((t.aliases_of.2 a).mp ha)))
  simp only [Tables.ownName, Tables.aliasName, NameRow.mk.injEq] at heq
  have := hin.le
  omega

theorem Index.Lays.iter_aliases (hix : ix.Lays t.rows) (h : t.rows.total < 2 ^ 63) (hne : F.Ne) :
    ∃ l, ix.iter_aliases = .ok l ∧ ∀ r, r ∈ l ↔ r ∈ F.clamped.aliases := by
  have hblob : ix.blob = t.blob := hix.blob
  let g : NameRow → Option StrRow := fun r =>
    if ix.canon[r.sym]? = some (r.name_off, r.name_len) then none
    else (from_utf8 (r.bytes t.blob)).map (StrRow.mk r.sym)
  have hg : ∀ r ∈ t.names, Index.aliasOf ix.canon ix.blob r = .ok (g r) := by
    intro r hr
    obtain ⟨s, hlen, hin⟩ := Tables.mem_names_slot hr
    have hsl : Index.blobSlice t.blob r.name_off r.name_len = .ok (r.bytes t.blob) := by
      rw [Index.blobSlice, if_pos (hlen ▸ hin.le)]; rfl
    simp only [Index.aliasOf, g]
    split_ifs
    · rfl
    · rw [hblob, hsl]; rfl
  refine ⟨(t.names.map g).reduceOption, ?_, fun a => ?_⟩
  · rw [Index.iter_aliases, hix.nameRows h, mapM_ok hg]; rfl
  · rw [List.reduceOption_mem_iff, List.mem_map]
    have hown : ∀ r ∈ t.names, ix.canon[r.sym]? = some (r.name_off, r.name_len) ↔ r ∈ t.ownNames :=
      fun r _ => hix.canon h r.sym (r.name_off, r.name_len)
    have htext : ∀ {b : StrRow} {r : NameRow} {off : Nat},
        r = Tables.aliasName b off (len (clamp_blob_str b.text)) →
        InBlob t.aliasBlob off (clamp_blob_str b.text) → r ∈ t.aliasNames → g r = some b.clamped := by
      rintro b r off rfl hin hr
      obtain ⟨more, hmore⟩ := t.aliasBlob_append
      have hmem := Tables.mem_names.mpr (List.mem_append.mpr (Or.inr hr))
      have hbytes : (Tables.aliasName b off (len (clamp_blob_str b.text))).bytes t.blob =
          as_bytes (clamp_blob_str b.text) := (hmore ▸ hin.append more).eq
      simp only [g]
      rw [if_neg fun hc => Tables.not_mem_ownNames hne hr ((hown _ hmem).mp hc), hbytes,
        from_utf8_as_bytes]
      rfl
    constructor
    · rintro ⟨r, hr, hgr⟩
      rcases List.mem_append.mp (Tables.mem_names.mp hr) with hr' | hr'
      · simp only [g, if_pos ((hown r hr).mpr hr')] at hgr
        cases hgr
      · obtain ⟨b, hb, off, heq, -, hin⟩ := Tables.exists_of_forall₂_right t.aliasNames_slots hr'
        rw [htext heq hin hr', Option.some.injEq] at hgr
        exact ⟨b, (t.aliases_of.2 b).mp hb, hgr⟩
    · rintro ⟨b, hb, rfl⟩
      obtain ⟨r, hr, off, heq, -, hin⟩ :=
        Tables.exists_of_forall₂_left t.aliasNames_slots ((t.aliases_of.2 b).mpr hb)
      exact ⟨r, Tables.mem_names.mpr (List.mem_append.mpr (Or.inr hr)), htext heq hin hr⟩

/-! ## The whole index -/

/-- The iterators of a file yield the facts it was rendered from, clamped. -/
theorem Index.Lays.holds (hix : ix.Lays t.rows) (h : t.rows.total < 2 ^ 63) (hne : F.Ne) :
    ix.Holds F.clamped where
  xrefs := by
    rw [Index.iter_xrefs, hix.xrefs, hix.hdr]
    exact (tableRows_flatMap (l := t.xrefs) XrefRow.encode_length fun _ _ => XrefRow.decode_encode _) ▸
      t.xrefs_of
  syms := ⟨_, (hix.symRows h).2, t.syms_of.map _⟩
  files := ⟨_, hix.iter_files h, t.files_of.map _⟩
  inherits := by
    rw [Index.iter_inherits, hix.inh, hix.hdr]
    exact (tableRows_flatMap (l := t.inh) InhRow.encode_length fun _ _ => InhRow.decode_encode _) ▸
      t.inh_of
  aliases := hix.iter_aliases h hne
  calls := by
    rw [Index.iter_calls, hix.calls, hix.hdr]
    exact (tableRows_flatMap (l := t.calls) CallRow.encode_length fun _ _ => CallRow.decode_encode _) ▸
      t.calls_of
  typed := ⟨_, hix.iter_typed h, t.typed_of.map _⟩
  childof := by
    rw [Index.iter_childrev, hix.childrev, hix.hdr]
    exact (tableRows_flatMap (l := t.childrev) InhRow.encode_length fun _ _ => InhRow.decode_encode _) ▸
      t.childrev_of
  sig := ⟨_, hix.iter_sig h, t.sig_of.map _⟩

/-- A file that was rendered opens, section by section as it was written, and holds its facts. -/
theorem Tables.open_file {f : Bytes} (t : Tables F) (hf : t.rows.finishFile = .ok f) :
    t.rows.total < 2 ^ 63 ∧ ∃ ix, open_index f = .ok ix ∧ ix.Lays t.rows := by
  rw [Rows.finishFile_eq] at hf
  split_ifs at hf with h
  cases hf
  exact ⟨h, Rows.open_bytes t.rows_ok h⟩

end

/-- An index holds one set of facts. -/
theorem Index.Holds.unique {ix : Index} {F G : Facts} (hF : ix.Holds F) (hG : ix.Holds G) : F = G := by
  obtain ⟨l2, e2, f2⟩ := hF.syms
  obtain ⟨m2, e2', g2⟩ := hG.syms
  obtain ⟨l3, e3, f3⟩ := hF.files
  obtain ⟨m3, e3', g3⟩ := hG.files
  obtain ⟨l4, e4, f4⟩ := hF.aliases
  obtain ⟨m4, e4', g4⟩ := hG.aliases
  obtain ⟨l5, e5, f5⟩ := hF.typed
  obtain ⟨m5, e5', g5⟩ := hG.typed
  obtain ⟨l6, e6, f6⟩ := hF.sig
  obtain ⟨m6, e6', g6⟩ := hG.sig
  cases e2.symm.trans e2'
  cases e3.symm.trans e3'
  cases e4.symm.trans e4'
  cases e5.symm.trans e5'
  cases e6.symm.trans e6'
  apply Facts.ext
  · exact Set.ext fun x => (hF.xrefs.2 x).symm.trans (hG.xrefs.2 x)
  · exact f2.unique_map g2
  · exact f3.unique_map g3
  · exact Set.ext fun x => (hF.inherits.2 x).symm.trans (hG.inherits.2 x)
  · exact Set.ext fun x => (f4 x).symm.trans (g4 x)
  · exact Set.ext fun x => (hF.calls.2 x).symm.trans (hG.calls.2 x)
  · exact f5.unique_map g5
  · exact Set.ext fun x => (hF.childof.2 x).symm.trans (hG.childof.2 x)
  · exact f6.unique_map g6

end Scry2
