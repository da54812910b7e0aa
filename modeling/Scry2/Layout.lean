import Scry2.Writer

/-!
# Reading a file back

The two writers leave the same file for the same rows. What `open` maps of such a file is, section
by section, what was written.
-/

open Scry2.Lib

namespace Scry2

/-! ## The file of some rows -/

/-- Facts about the rows of a section that the file format relies on. -/
structure Rows.Ok (r : Rows) : Prop where
  crev_length : r.crev.length = r.calls.length
  dict_length : TRIGRAM_LEN ∣ r.trigram_dict.length

theorem Rows.mergedHeader_eq {r : Rows} (h : r.Ok) : r.mergedHeader = r.finishHeader := by
  simp only [Rows.mergedHeader, Rows.finishHeader, h.crev_length]

/-- Where the file ends. -/
def Rows.total (r : Rows) : Nat := r.finishHeader.trigram_post_off + r.trigram_post.length

/-- The bytes of the file. -/
def Rows.bytes (r : Rows) : Bytes :=
  setLen (place (writeAt [] 0 r.finishHeader.bytes) (r.sections r.finishHeader)) r.total

theorem Rows.finishFile_eq (r : Rows) :
    r.finishFile = if r.total < 2 ^ 63 then .ok r.bytes else .error (.err "set_len") := rfl

/-! ## The lengths of the sections -/

theorem xrefRows_length (l : List XrefRow) : (l.flatMap XrefRow.encode).length = l.length * XREF_LEN :=
  flatMap_length_of _ XrefRow.encode_length l

theorem symRows_length (l : List SymRow) : (l.flatMap SymRow.encode).length = l.length * SYM_LEN :=
  flatMap_length_of _ SymRow.encode_length l

theorem nameRows_length (l : List NameRow) : (l.flatMap NameRow.encode).length = l.length * NAME_LEN :=
  flatMap_length_of _ NameRow.encode_length l

theorem fileRows_length (l : List FileRow) : (l.flatMap FileRow.encode).length = l.length * FILE_LEN :=
  flatMap_length_of _ FileRow.encode_length l

theorem inhRows_length (l : List InhRow) : (l.flatMap InhRow.encode).length = l.length * INH_LEN :=
  flatMap_length_of _ InhRow.encode_length l

theorem callRows_length (l : List CallRow) : (l.flatMap CallRow.encode).length = l.length * CALL_LEN :=
  flatMap_length_of _ CallRow.encode_length l

theorem typeRows_length (l : List TypeRow) : (l.flatMap TypeRow.encode).length = l.length * TYPE_LEN :=
  flatMap_length_of _ TypeRow.encode_length l

/-! ## The sections are in file order -/

theorem Rows.finishHeader_bytes_length (r : Rows) : r.finishHeader.bytes.length = size_of_header :=
  Header.bytes_length _ rfl

theorem Rows.apart (r : Rows) : Apart ((0, r.finishHeader.bytes) :: r.sections r.finishHeader) := by
  apply apart_of_isChain
  simp only [Rows.sections, List.isChain_cons_cons, List.isChain_singleton, and_true, xrefRows_length,
    symRows_length, nameRows_length, fileRows_length, inhRows_length, callRows_length, typeRows_length,
    r.finishHeader_bytes_length, Nat.zero_add]
  exact ⟨le_pad_up _, le_pad_up _, le_pad_up _, le_pad_up _, le_pad_up _, le_pad_up _, le_pad_up _,
    le_pad_up _, le_pad_up _, le_pad_up _, le_pad_up _, le_pad_up _, le_pad_up _, le_pad_up _⟩

theorem Rows.stop_le_total (r : Rows) {s : Nat × Bytes}
    (hs : s ∈ (0, r.finishHeader.bytes) :: r.sections r.finishHeader) : s.1 + s.2.length ≤ r.total := by
  have h := r.apart
  have e : (0, r.finishHeader.bytes) :: r.sections r.finishHeader =
      ((0, r.finishHeader.bytes) :: (r.sections r.finishHeader).dropLast) ++
        [(r.finishHeader.trigram_post_off, r.trigram_post)] := rfl
  rw [e] at h hs
  exact h.stop_le_last hs

theorem Rows.bytes_length (r : Rows) : r.bytes.length = r.total := setLen_length _ _

theorem Rows.slice_bytes (r : Rows) {off : Nat} (bs : Bytes)
    (hs : (off, bs) ∈ (0, r.finishHeader.bytes) :: r.sections r.finishHeader) :
    slice r.bytes off bs.length = bs := by
  have e : r.bytes =
      setLen (place [] ((0, r.finishHeader.bytes) :: r.sections r.finishHeader)) r.total := rfl
  rw [e]
  exact slice_place r.apart [] r.total hs (r.stop_le_total hs)

/-- Writing the header last instead of first makes no difference. -/
theorem Rows.mergedFile_eq {r : Rows} (h : r.Ok) : r.mergedFile = r.finishFile := by
  have hlen : ({ magic := MAGIC, version := VERSION } : Header).bytes.length =
      r.finishHeader.bytes.length := by
    rw [Header.bytes_length _ rfl, r.finishHeader_bytes_length]
  have hfirst : ∀ s ∈ r.sections r.finishHeader, r.finishHeader.bytes.length ≤ s.1 := by
    intro s hs
    have := (List.pairwise_cons.mp r.apart).1 s hs
    simpa using this
  rw [Rows.mergedFile, Rows.mergedHeader_eq h, Rows.finishFile, place_header _ _ hlen hfirst]

/-! ## The header reads back -/

theorem Rows.finishHeader_words_lt {r : Rows} (h : r.total < 2 ^ 63) :
    ∀ w ∈ r.finishHeader.words, w < 256 ^ 8 := by
  have hstop := fun s hs => lt_of_le_of_lt (r.stop_le_total (s := s) hs) h
  simp only [Rows.sections, List.mem_cons, List.not_mem_nil, or_false, forall_eq_or_imp, forall_eq,
    xrefRows_length, symRows_length, nameRows_length, fileRows_length, inhRows_length, callRows_length, typeRows_length,
    XREF_LEN, SYM_LEN, NAME_LEN, FILE_LEN, INH_LEN, CALL_LEN,
    TYPE_LEN] at hstop
  obtain ⟨-, h1, h2, h3, h4, h5, h6, h7, h8, h9, h10, h11, h12, h13, h14⟩ := hstop
  have e1 : r.finishHeader.xrefs_n = r.xrefs.length := rfl
  have e2 : r.finishHeader.syms_n = r.syms.length := rfl
  have e3 : r.finishHeader.names_n = r.names.length := rfl
  have e4 : r.finishHeader.files_n = r.files.length := rfl
  have e5 : r.finishHeader.inh_n = r.inh.length := rfl
  have e6 : r.finishHeader.inhrev_n = r.inhrev.length := rfl
  have e7 : r.finishHeader.calls_n = r.calls.length := rfl
  have e8 : r.finishHeader.crev_n = r.crev.length := rfl
  have e9 : r.finishHeader.typed_n = r.typed.length := rfl
  have e10 : r.finishHeader.childrev_n = r.childrev.length := rfl
  have e11 : r.finishHeader.sig_n = r.sig.length := rfl
  have e12 : r.finishHeader.blob_len = r.blob.length := rfl
  have e13 : r.finishHeader.trigram_dict_n = r.trigram_dict.length / 20 := rfl
  have e14 : r.finishHeader.trigram_post_len = r.trigram_post.length := rfl
  generalize r.finishHeader = hd at *
  simp only [Header.words, List.mem_cons, List.not_mem_nil, or_false, forall_eq_or_imp, forall_eq]
  omega

theorem Rows.header_read {r : Rows} (h : r.total < 2 ^ 63) : Header.read r.bytes = r.finishHeader := by
  have hs := r.slice_bytes r.finishHeader.bytes List.mem_cons_self
  have e : r.bytes = r.finishHeader.bytes ++ r.bytes.drop r.finishHeader.bytes.length := by
    conv_lhs => rw [← List.take_append_drop r.finishHeader.bytes.length r.bytes]
    rw [show r.bytes.take r.finishHeader.bytes.length = r.finishHeader.bytes from hs]
  rw [e]
  exact Header.read_bytes _ rfl (show VERSION < 256 ^ 4 by decide) (Rows.finishHeader_words_lt h) _

/-! ## Opening the file -/

/-- The sections of an open index are these rows. -/
structure Index.Lays (ix : Index) (r : Rows) : Prop where
  hdr : ix.hdr = r.finishHeader
  xrefs : ix.xrefs_slice = r.xrefs.flatMap XrefRow.encode
  syms : ix.syms_slice = r.syms.flatMap SymRow.encode
  names : ix.names_slice = r.names.flatMap NameRow.encode
  files : ix.files_slice = r.files.flatMap FileRow.encode
  inh : ix.inh_slice = r.inh.flatMap InhRow.encode
  inhrev : ix.inhrev_slice = r.inhrev.flatMap InhRow.encode
  calls : ix.calls_slice = r.calls.flatMap CallRow.encode
  crev : ix.crev_slice = r.crev.flatMap CallRow.encode
  typed : ix.typed_slice = r.typed.flatMap TypeRow.encode
  childrev : ix.childrev_slice = r.childrev.flatMap InhRow.encode
  sig : ix.sig_slice = r.sig.flatMap TypeRow.encode
  blob : ix.blob = r.blob
  trigram_dict : ix.trigram_dict_slice = r.trigram_dict
  trigram_post : ix.trigram_post_slice = r.trigram_post

theorem Rows.sections_fault {r : Rows} (hr : r.Ok) (h : r.total < 2 ^ 63) :
    ∀ s ∈ r.finishHeader.sections, s.fault r.bytes.length = none := by
  have hstop := fun s hs => r.stop_le_total (s := s) hs
  have hd : r.trigram_dict.length / TRIGRAM_LEN * TRIGRAM_LEN = r.trigram_dict.length :=
    Nat.div_mul_cancel hr.dict_length
  simp only [Rows.sections, List.mem_cons, List.not_mem_nil, or_false, forall_eq_or_imp, forall_eq,
    xrefRows_length, symRows_length, nameRows_length, fileRows_length, inhRows_length, callRows_length,
    typeRows_length] at hstop
  obtain ⟨-, h1, h2, h3, h4, h5, h6, h7, h8, h9, h10, h11, h12, h13, h14⟩ := hstop
  have key : ∀ s : SectionDecl, s.stop ≤ r.total → s.fault r.bytes.length = none := by
    intro s hs
    have hmul : s.n * s.stride ≤ s.stop := Nat.le_add_left _ _
    rw [SectionDecl.fault, if_neg (by omega), if_neg (by rw [r.bytes_length]; omega)]
  intro s hs
  apply key
  simp only [Header.sections, List.mem_cons, List.not_mem_nil, or_false] at hs
  rcases hs with rfl | rfl | rfl | rfl | rfl | rfl | rfl | rfl | rfl | rfl | rfl | rfl | rfl | rfl
  · exact h1
  · exact h2
  · exact h3
  · exact h4
  · exact h5
  · exact h7
  · exact h8
  · exact h9
  · exact h10
  · exact h6
  · exact h11
  · exact (Nat.add_le_add_left hd.le _).trans h13
  · exact (Nat.add_le_add_left (Nat.mul_one _).le _).trans h14
  · exact (Nat.add_le_add_left (Nat.mul_one _).le _).trans h12

/-- A written file opens, and its sections are the rows that were written. -/
theorem Rows.open_bytes {r : Rows} (hr : r.Ok) (h : r.total < 2 ^ 63) :
    ∃ ix, open_index r.bytes = .ok ix ∧ ix.Lays r := by
  have hlen : size_of_header ≤ r.bytes.length := by
    have := r.stop_le_total (s := (0, r.finishHeader.bytes)) List.mem_cons_self
    simp only [r.finishHeader_bytes_length] at this
    rw [r.bytes_length]; omega
  obtain ⟨ix, hopen, hmap, hhdr⟩ := open_index_eq_ok (Rows.header_read h) hlen rfl rfl
    (Rows.sections_fault hr h)
  refine ⟨ix, hopen, ?_⟩
  obtain ⟨map, hdr, hfits⟩ := ix
  subst hmap hhdr
  have sec : ∀ {α : Type} (enc : α → Bytes) {n : Nat} (henc : ∀ a, (enc a).length = n) (l : List α)
      {off : Nat}, (off, l.flatMap enc) ∈ (0, r.finishHeader.bytes) :: r.sections r.finishHeader →
      slice r.bytes off (l.length * n) = l.flatMap enc := by
    intro α enc n henc l off hm
    rw [← flatMap_length_of enc henc l]
    exact r.slice_bytes _ hm
  refine ⟨rfl, ?_, ?_, ?_, ?_, ?_, ?_, ?_, ?_, ?_, ?_, ?_, ?_, ?_, ?_⟩
  · exact sec _ XrefRow.encode_length _ (by simp [Rows.sections])
  · exact sec _ SymRow.encode_length _ (by simp [Rows.sections])
  · exact sec _ NameRow.encode_length _ (by simp [Rows.sections])
  · exact sec _ FileRow.encode_length _ (by simp [Rows.sections])
  · exact sec _ InhRow.encode_length _ (by simp [Rows.sections])
  · exact sec _ InhRow.encode_length _ (by simp [Rows.sections])
  · exact sec _ CallRow.encode_length _ (by simp [Rows.sections])
  · exact sec _ CallRow.encode_length _ (by simp [Rows.sections])
  · exact sec _ TypeRow.encode_length _ (by simp [Rows.sections])
  · exact sec _ InhRow.encode_length _ (by simp [Rows.sections])
  · exact sec _ TypeRow.encode_length _ (by simp [Rows.sections])
  · exact r.slice_bytes r.blob (by simp [Rows.sections])
  · have e : r.finishHeader.trigram_dict_n * TRIGRAM_LEN = r.trigram_dict.length :=
      Nat.div_mul_cancel hr.dict_length
    rw [Index.trigram_dict_slice, e]
    exact r.slice_bytes r.trigram_dict (by simp [Rows.sections])
  · exact r.slice_bytes r.trigram_post (by simp [Rows.sections])

end Scry2
