import Scry2.Agree

/-!
# The layout of a file

Whatever the writers put into a file, its header describes pages of it that do not overlap, and a
file that was cut short does not open.
-/

open Scry2.Lib

namespace Scry2

/-- The sections in the order in which they lie in the file. -/
def Header.fileOrder (h : Header) : List SectionDecl :=
  [⟨"xrefs", h.xrefs_off, h.xrefs_n, XREF_LEN⟩, ⟨"syms", h.syms_off, h.syms_n, SYM_LEN⟩,
   ⟨"names", h.names_off, h.names_n, NAME_LEN⟩, ⟨"files", h.files_off, h.files_n, FILE_LEN⟩,
   ⟨"inh", h.inh_off, h.inh_n, INH_LEN⟩, ⟨"inhrev", h.inhrev_off, h.inhrev_n, INH_LEN⟩,
   ⟨"calls", h.calls_off, h.calls_n, CALL_LEN⟩, ⟨"crev", h.crev_off, h.crev_n, CALL_LEN⟩,
   ⟨"typed", h.typed_off, h.typed_n, TYPE_LEN⟩, ⟨"childrev", h.childrev_off, h.childrev_n, INH_LEN⟩,
   ⟨"sig", h.sig_off, h.sig_n, TYPE_LEN⟩, ⟨"blob", h.blob_off, h.blob_len, 1⟩,
   ⟨"trigram_dict", h.trigram_dict_off, h.trigram_dict_n, TRIGRAM_LEN⟩,
   ⟨"trigram_post", h.trigram_post_off, h.trigram_post_len, 1⟩]

theorem Header.mem_sections (h : Header) (s : SectionDecl) : s ∈ h.sections ↔ s ∈ h.fileOrder := by
  simp only [Header.fileOrder, Header.sections, List.mem_cons, List.not_mem_nil, or_false]
  grind

/-- The header of `f` describes the sections of `r`, on pages of their own, one after the other. -/
structure LaidOut (f : Bytes) (r : Rows) : Prop where
  checked : ∀ s, s ∈ (Header.read f).sections ↔ s ∈ (Header.read f).fileOrder
  aligned : ∀ s ∈ (Header.read f).fileOrder, PAGE ∣ s.off
  after_header : ∀ s ∈ (Header.read f).fileOrder, size_of_header ≤ s.off
  inside : ∀ s ∈ (Header.read f).fileOrder, s.stop ≤ f.length
  ordered : (Header.read f).fileOrder.Pairwise fun s t => s.stop ≤ t.off
  filled : List.Forall₂ (fun s p => s.off = p.1 ∧ s.n * s.stride = p.2.length ∧
    slice f s.off (s.n * s.stride) = p.2) (Header.read f).fileOrder (r.sections (Header.read f))

theorem pairwise_of_forall₂ {α β : Type} {R : α → β → Prop} {S : β → β → Prop} {T : α → α → Prop}
    {l : List α} {m : List β} (h : List.Forall₂ R l m)
    (hST : ∀ a a' b b', R a b → R a' b' → S b b' → T a a') (hm : m.Pairwise S) : l.Pairwise T := by
  induction h with
  | nil => exact .nil
  | @cons a b l m hab hrest ih =>
    obtain ⟨hb, hm⟩ := List.pairwise_cons.mp hm
    refine List.pairwise_cons.mpr ⟨fun a' ha' => ?_, ih hm⟩
    obtain ⟨b', hb', hab'⟩ := Tables.exists_of_forall₂_left hrest ha'
    exact hST a a' b b' hab hab' (hb b' hb')

theorem pad_up_dvd (n : Nat) : PAGE ∣ pad_up n := Nat.dvd_mul_left _ _

/-- The rows of a section take what its count and row size say. -/
theorem Rows.sections_sized {r : Rows} (hr : r.Ok) :
    List.Forall₂ (fun (s : SectionDecl) (p : Nat × Bytes) => s.off = p.1 ∧ s.n * s.stride = p.2.length)
      r.finishHeader.fileOrder (r.sections r.finishHeader) := by
  have rows : ∀ {α : Type} (enc : α → Bytes) {n : Nat} (_ : ∀ a, (enc a).length = n) (l : List α),
      l.length * n = (l.flatMap enc).length := fun enc _ henc l => (flatMap_length_of enc henc l).symm
  have hdict : r.finishHeader.trigram_dict_n * TRIGRAM_LEN = r.trigram_dict.length :=
    Nat.div_mul_cancel hr.dict_length
  refine .cons ⟨rfl, rows _ XrefRow.encode_length _⟩ (.cons ⟨rfl, rows _ SymRow.encode_length _⟩
    (.cons ⟨rfl, rows _ NameRow.encode_length _⟩ (.cons ⟨rfl, rows _ FileRow.encode_length _⟩
    (.cons ⟨rfl, rows _ InhRow.encode_length _⟩ (.cons ⟨rfl, rows _ InhRow.encode_length _⟩
    (.cons ⟨rfl, rows _ CallRow.encode_length _⟩ (.cons ⟨rfl, rows _ CallRow.encode_length _⟩
    (.cons ⟨rfl, rows _ TypeRow.encode_length _⟩ (.cons ⟨rfl, rows _ InhRow.encode_length _⟩
    (.cons ⟨rfl, rows _ TypeRow.encode_length _⟩ (.cons ⟨rfl, Nat.mul_one _⟩
    (.cons ⟨rfl, hdict⟩ (.cons ⟨rfl, Nat.mul_one _⟩ .nil)))))))))))))

theorem Rows.fileOrder_aligned (r : Rows) : ∀ s ∈ r.finishHeader.fileOrder, PAGE ∣ s.off := by
  simp only [Header.fileOrder, List.mem_cons, List.not_mem_nil, or_false, forall_eq_or_imp, forall_eq]
  exact ⟨pad_up_dvd _, pad_up_dvd _, pad_up_dvd _, pad_up_dvd _, pad_up_dvd _, pad_up_dvd _, pad_up_dvd _,
    pad_up_dvd _, pad_up_dvd _, pad_up_dvd _, pad_up_dvd _, pad_up_dvd _, pad_up_dvd _, pad_up_dvd _⟩

/-- The header of a file stands in every part of it that is long enough. -/
theorem Rows.header_read_take {r : Rows} (h : r.total < 2 ^ 63) {n : Nat} (hn : size_of_header ≤ n) :
    Header.read (r.bytes.take n) = r.finishHeader := by
  have hs : r.bytes.take r.finishHeader.bytes.length = r.finishHeader.bytes :=
    r.slice_bytes r.finishHeader.bytes List.mem_cons_self
  have e : r.bytes.take n = r.finishHeader.bytes ++
      (r.bytes.drop r.finishHeader.bytes.length).take (n - r.finishHeader.bytes.length) := by
    conv_lhs => rw [← List.take_append_drop r.finishHeader.bytes.length r.bytes, hs]
    rw [List.take_append, List.take_of_length_le (by rw [r.finishHeader_bytes_length]; exact hn)]
  rw [e]
  exact Header.read_bytes _ rfl (show VERSION < 256 ^ 4 by decide) (Rows.finishHeader_words_lt h) _

theorem Rows.laidOut {r : Rows} (hr : r.Ok) (h : r.total < 2 ^ 63) : LaidOut r.bytes r := by
  have hsized := Rows.sections_sized hr
  have hof : ∀ s ∈ r.finishHeader.fileOrder, ∃ p ∈ r.sections r.finishHeader,
      s.off = p.1 ∧ s.n * s.stride = p.2.length :=
    fun s hs => Tables.exists_of_forall₂_left hsized hs
  have hapart := List.pairwise_cons.mp r.apart
  have hread := Rows.header_read h
  constructor <;> rw [hread]
  · exact r.finishHeader.mem_sections
  · exact r.fileOrder_aligned
  · intro s hs
    obtain ⟨p, hp, hoff, -⟩ := hof s hs
    have := hapart.1 p hp
    rw [hoff]
    simpa [r.finishHeader_bytes_length] using this
  · intro s hs
    obtain ⟨p, hp, hoff, hlen⟩ := hof s hs
    rw [SectionDecl.stop, hoff, hlen, r.bytes_length]
    exact r.stop_le_total (List.mem_cons_of_mem _ hp)
  · refine pairwise_of_forall₂ hsized ?_ hapart.2
    rintro s t p q ⟨hs, hn⟩ ⟨ht, -⟩ hpq
    rw [SectionDecl.stop, hs, hn, ht]
    exact hpq
  · rw [List.forall₂_iff_zip] at hsized ⊢
    refine ⟨hsized.1, fun {s p} hsp => ?_⟩
    obtain ⟨hoff, hlen⟩ := hsized.2 hsp
    refine ⟨hoff, hlen, ?_⟩
    rw [hlen, hoff]
    exact r.slice_bytes p.2 (List.mem_cons_of_mem _ (List.of_mem_zip hsp).2)

/-! ## Truncation -/

theorem open_index_error_of_fault {map : Bytes} {s : SectionDecl} (hs : s ∈ (Header.read map).sections)
    (h : map.length < s.stop) : ∃ e, open_index map = .error e := by
  cases ho : open_index map with
  | error e => exact ⟨e, rfl⟩
  | ok ix =>
    unfold open_index at ho
    split_ifs at ho
    simp only at ho
    split at ho
    · cases ho
    · split at ho
      · cases ho
      · split at ho
        · cases ho
        · rename_i hnone
          exact absurd (SectionDecl.stop_le_of_fault_eq_none (List.findSome?_eq_none_iff.mp hnone s hs))
            (not_le.mpr h)

/-- The postings end where the file ends, so every shorter file misses some. -/
theorem Rows.open_take {r : Rows} (h : r.total < 2 ^ 63) {n : Nat} (hn : n < r.bytes.length) :
    ∃ e, open_index (r.bytes.take n) = .error e := by
  have hlen : (r.bytes.take n).length = n := List.length_take_of_le hn.le
  by_cases hsmall : n < size_of_header
  · exact ⟨_, if_pos (hlen.symm ▸ hsmall)⟩
  · have hread := Rows.header_read_take h (not_lt.mp hsmall)
    apply open_index_error_of_fault
      (s := ⟨"trigram_post", r.finishHeader.trigram_post_off, r.finishHeader.trigram_post_len, 1⟩)
    · rw [hread]
      simp [Header.sections]
    · rw [hlen, SectionDecl.stop, Nat.mul_one]
      rw [r.bytes_length] at hn
      exact hn

/-! ## Both writers -/

/-- What the two writers promise about a file with the rows `r`. -/
structure SoundFile (f : Bytes) (r : Rows) : Prop where
  laid_out : LaidOut f r
  opens : ∃ ix, open_index f = .ok ix
  truncated : ∀ n < f.length, ∃ e, open_index (f.take n) = .error e

theorem Rows.soundFile {r : Rows} (hr : r.Ok) {f : Bytes} (h : r.finishFile = .ok f) : SoundFile f r := by
  rw [Rows.finishFile_eq] at h
  split_ifs at h with htot
  cases h
  obtain ⟨ix, hix, -⟩ := Rows.open_bytes hr htot
  exact ⟨Rows.laidOut hr htot, ⟨ix, hix⟩, fun n hn => Rows.open_take htot hn⟩

theorem build_trigram_index_dict_length (by_name : List NameRow) (blob : Bytes) :
    TRIGRAM_LEN ∣ (build_trigram_index by_name blob).1.length := by
  refine ⟨(dictRows 0 (pass1 (visit by_name blob)).toList).length, ?_⟩
  rw [Nat.mul_comm]
  exact flatMap_length_of _ TrigramRow.encode_length _

/-- The merge makes as many reverse call rows as call rows, whatever its sources hold. -/
theorem IndexBuilder.mergedRows_ok [Unicode] {b : IndexBuilder} {sources : List Index} {r : Rows}
    (h : b.mergedRows sources = .ok r) : r.Ok := by
  unfold mergedRows at h
  cases h1 : sources.mapM Index.iter_aliases with
  | error e => rw [h1] at h; cases h
  | ok l1 =>
  cases h2 : sources.mapM Index.iter_syms with
  | error e => rw [h1, h2] at h; cases h
  | ok l2 =>
  cases h3 : sources.mapM Index.iter_files with
  | error e => rw [h1, h2, h3] at h; cases h
  | ok l3 =>
  cases h4 : sources.mapM Index.iter_typed with
  | error e => rw [h1, h2, h3, h4] at h; cases h
  | ok l4 =>
  cases h5 : sources.mapM Index.iter_sig with
  | error e => rw [h1, h2, h3, h4, h5] at h; cases h
  | ok l5 =>
    rw [h1, h2, h3, h4, h5] at h
    cases h
    exact ⟨by simp, build_trigram_index_dict_length _ _⟩

/-- Files written by `finish` and by the merge of any sources. -/
theorem written_files_sound [Unicode] (b : IndexBuilder) (f : Bytes) :
    (b.finish = .ok f → SoundFile f b.finishRows) ∧
      ∀ sources : List Index, b.write_merged_snapshot sources = .ok f →
        ∃ r, b.mergedRows sources = .ok r ∧ SoundFile f r := by
  constructor
  · intro h
    have hr : b.finishRows.Ok := b.finishRows_eq ▸ b.tables.rows_ok
    exact Rows.soundFile hr h
  · intro sources h
    unfold IndexBuilder.write_merged_snapshot at h
    cases hrows : b.mergedRows sources with
    | error e => rw [hrows] at h; cases h
    | ok r =>
      rw [hrows, Res.ok_bind, Rows.mergedFile_eq (IndexBuilder.mergedRows_ok hrows)] at h
      exact ⟨r, rfl, Rows.soundFile (IndexBuilder.mergedRows_ok hrows) h⟩

section

attribute [local instance] asciiUnicode

/-- One edge, and another one that is merged with the file of the first. -/
theorem written_files_sound_edges :
    ∃ f ixs g r, (IndexBuilder.new.add_inherit 5 1).finish = .ok f ∧
      SoundFile f (IndexBuilder.new.add_inherit 5 1).finishRows ∧ [f].mapM open_index = .ok ixs ∧
      (IndexBuilder.new.add_inherit 6 1).write_merged_snapshot ixs = .ok g ∧ SoundFile g r := by
  have hf : (IndexBuilder.new.add_inherit 5 1).finish =
      .ok (IndexBuilder.new.add_inherit 5 1).finishRows.bytes :=
    (Rows.finishFile_eq _).trans (if_pos (by decide +kernel))
  have hg : ((IndexBuilder.new.add_inherit 5 1).merge_from (IndexBuilder.new.add_inherit 6 1)).finish = .ok _ :=
    (Rows.finishFile_eq _).trans (if_pos (by decide +kernel))
  obtain ⟨ixs, hopen, hmerge⟩ := IndexBuilder.write_merged_of_file (d := IndexBuilder.new.add_inherit 6 1) hf
    (by decide +kernel) (by decide +kernel)
  obtain ⟨r, -, hr⟩ := (written_files_sound (IndexBuilder.new.add_inherit 6 1) _).2 ixs (hmerge.trans hg)
  exact ⟨_, ixs, _, r, hf, (written_files_sound _ _).1 hf, hopen, hmerge.trans hg, hr⟩

end

end Scry2
