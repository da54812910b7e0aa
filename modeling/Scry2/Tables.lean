import Scry2.Layout

/-!
# The tables of some facts

Given facts have one list of rows for every section (`Tables`), and so one file. Every iterator of
the opened file yields these rows again, with the strings cut to what the blob can hold.
-/

open Scry2.Lib

namespace Scry2

/-! ## Slots of the blob -/

/-- The blob holds `s` at `off`. -/
structure InBlob (blob : Bytes) (off : Nat) (s : String) : Prop where
  le : off + len s ≤ blob.length
  eq : slice blob off (len s) = as_bytes s

theorem InBlob.append {blob : Bytes} {off : Nat} {s : String} (h : InBlob blob off s) (more : Bytes) :
    InBlob (blob ++ more) off s := by
  refine ⟨?_, ?_⟩
  · have := h.le
    rw [List.length_append]; omega
  · rw [slice_append_left h.le, h.eq]

theorem inBlob_end (blob : Bytes) (s : String) : InBlob (blob ++ as_bytes s) blob.length s := by
  refine ⟨by simp [len], ?_⟩
  rw [slice_append_right le_rfl, Nat.sub_self]
  exact slice_self _ rfl

section

variable {α ρ σ : Type} (str : α → String) (mk : α → Nat → Nat → ρ)

/-- The bytes that the strings of some rows add to the blob. -/
def strBytes (l : List α) : Bytes := l.flatMap fun a => as_bytes (clamp_blob_str (str a))

theorem pushStrs_blob (blob : Bytes) (l : List α) :
    (pushStrs str mk blob l).2 = blob ++ strBytes str l := by
  induction l generalizing blob with
  | nil => simp [pushStrs, strBytes]
  | cons a l ih => simp [pushStrs, ih, strBytes]

theorem pushStrs_map (f : ρ → σ) (blob : Bytes) (l : List α) :
    (pushStrs str mk blob l).1.map f = (pushStrs str (fun a off n => f (mk a off n)) blob l).1 := by
  induction l generalizing blob with
  | nil => rfl
  | cons a l ih => simp [pushStrs, ih]

theorem pushStrs_zipWith (blob : Bytes) (l : List α) :
    l.zipWith (fun a p => mk a p.1 p.2) (pushStrs str (fun _ off n => (off, n)) blob l).1 =
      (pushStrs str mk blob l).1 := by
  induction l generalizing blob with
  | nil => rfl
  | cons a l ih => simp [pushStrs, ih]

/-- The same strings under other rows. -/
theorem pushStrs_comp {β : Type} (f : β → α) (blob : Bytes) (l : List β) :
    pushStrs str mk blob (l.map f) = pushStrs (fun b => str (f b)) (fun b => mk (f b)) blob l := by
  induction l generalizing blob with
  | nil => rfl
  | cons b l ih => simp [pushStrs, ih]

/-- Row by row: its slot holds its string, in what was added to the blob. -/
theorem pushStrs_slots (blob : Bytes) (l : List α) :
    List.Forall₂ (fun a r => ∃ off, r = mk a off (len (clamp_blob_str (str a))) ∧ blob.length ≤ off ∧
      InBlob (blob ++ strBytes str l) off (clamp_blob_str (str a))) l (pushStrs str mk blob l).1 := by
  induction l generalizing blob with
  | nil => exact List.Forall₂.nil
  | cons a l ih =>
    have e : blob ++ strBytes str (a :: l) =
        blob ++ as_bytes (clamp_blob_str (str a)) ++ strBytes str l := by simp [strBytes]
    rw [e]
    refine List.Forall₂.cons ⟨blob.length, rfl, le_rfl, (inBlob_end _ _).append _⟩ ?_
    refine (ih (blob ++ as_bytes (clamp_blob_str (str a)))).imp ?_
    rintro b r ⟨off, hr, hle, hin⟩
    exact ⟨off, hr, by rw [List.length_append] at hle; omega, hin⟩

end

theorem NameRow.bytes_append {r : NameRow} {blob : Bytes} (h : r.name_off + r.name_len ≤ blob.length)
    (more : Bytes) : r.bytes (blob ++ more) = r.bytes blob := slice_append_left h

theorem sortNames_congr {blob blob' : Bytes} {l : List NameRow}
    (h : ∀ r ∈ l, r.bytes blob = r.bytes blob') : sortNames blob l = sortNames blob' l := by
  apply insertionSort_congr
  intro a ha b hb
  rw [nameLe, nameLe, h a ha, h b hb]

/-! ## Tables -/

/-- The rows of every section for the facts `F`. -/
structure Tables (F : Facts) where
  xrefs : List XrefRow
  syms : List (UInt64 × SymMeta)
  aliases : List StrRow
  files : List (UInt32 × String)
  inh : List InhRow
  calls : List CallRow
  typed : List (UInt64 × String)
  childrev : List InhRow
  sig : List (UInt64 × String)
  xrefs_of : Enumerates xrefs F.xrefs
  syms_of : Tabulates syms F.syms
  aliases_of : Enumerates aliases F.aliases
  files_of : Tabulates files F.files
  inh_of : Enumerates inh F.inherits
  calls_of : Enumerates calls F.calls
  typed_of : Tabulates typed F.typed
  childrev_of : Enumerates childrev F.childof
  sig_of : Tabulates sig F.sig

namespace Tables

variable {F : Facts}

instance : Subsingleton (Tables F) := by
  refine ⟨fun s t => ?_⟩
  have h1 := s.xrefs_of.eq t.xrefs_of
  have h2 := s.syms_of.eq t.syms_of
  have h3 := s.aliases_of.eq t.aliases_of
  have h4 := s.files_of.eq t.files_of
  have h5 := s.inh_of.eq t.inh_of
  have h6 := s.calls_of.eq t.calls_of
  have h7 := s.typed_of.eq t.typed_of
  have h8 := s.childrev_of.eq t.childrev_of
  have h9 := s.sig_of.eq t.sig_of
  cases s
  cases t
  simp only at h1 h2 h3 h4 h5 h6 h7 h8 h9
  subst h1 h2 h3 h4 h5 h6 h7 h8 h9
  rfl

def symRow (e : UInt64 × SymMeta) (off n : Nat) : SymRow := ⟨e.1, e.2.kind, e.2.lang, off, n⟩
def ownName (e : UInt64 × SymMeta) (off n : Nat) : NameRow := ⟨off, n, e.1⟩
def aliasName (r : StrRow) (off n : Nat) : NameRow := ⟨off, n, r.sym⟩
def fileRow (e : UInt32 × String) (off n : Nat) : FileRow := ⟨e.1, off, n⟩
def typeRow (e : UInt64 × String) (off n : Nat) : TypeRow := ⟨e.1, off, n⟩

/-- The blob: names, aliases, paths, types, signatures. -/
def nameBlob (t : Tables F) : Bytes := strBytes (fun e => e.2.name) t.syms
def aliasBlob (t : Tables F) : Bytes := t.nameBlob ++ strBytes StrRow.text t.aliases
def pathBlob (t : Tables F) : Bytes := t.aliasBlob ++ strBytes Prod.snd t.files
def typeBlob (t : Tables F) : Bytes := t.pathBlob ++ strBytes Prod.snd t.typed
def blob (t : Tables F) : Bytes := t.typeBlob ++ strBytes Prod.snd t.sig

def ownNames (t : Tables F) : List NameRow := (pushStrs (fun e => e.2.name) ownName [] t.syms).1
def aliasNames (t : Tables F) : List NameRow := (pushStrs StrRow.text aliasName t.nameBlob t.aliases).1

/-- The name index: every symbol's own name and every alias, sorted. -/
def names (t : Tables F) : List NameRow := sortNames t.blob (t.ownNames ++ t.aliasNames)

def inhrev (t : Tables F) : List InhRow :=
  (t.inh.map fun r => InhRow.mk r.snd r.fst).insertionSort (· ≤ ·)

def crev (t : Tables F) : List CallRow :=
  (t.calls.map fun r => CallRow.mk r.snd r.fst r.role).insertionSort (· ≤ ·)

/-- The sections of the file. -/
def rows (t : Tables F) : Rows where
  xrefs := t.xrefs
  syms := (pushStrs (fun e => e.2.name) symRow [] t.syms).1
  names := t.names
  files := (pushStrs Prod.snd fileRow t.aliasBlob t.files).1
  inh := t.inh
  inhrev := t.inhrev
  calls := t.calls
  crev := t.crev
  typed := (pushStrs Prod.snd typeRow t.pathBlob t.typed).1
  childrev := t.childrev
  sig := (pushStrs Prod.snd typeRow t.typeBlob t.sig).1
  blob := t.blob
  trigram_dict := (build_trigram_index t.names t.blob).1
  trigram_post := (build_trigram_index t.names t.blob).2

theorem rows_ok (t : Tables F) : t.rows.Ok where
  crev_length := by simp [rows, crev]
  dict_length := by
    refine ⟨(dictRows 0 (pass1 (visit t.names t.blob)).toList).length, ?_⟩
    rw [Nat.mul_comm]
    exact flatMap_length_of _ TrigramRow.encode_length _

/-! ## The names lie in the front of the blob -/

theorem aliasBlob_append (t : Tables F) : ∃ more, t.blob = t.aliasBlob ++ more :=
  ⟨_, by rw [blob, typeBlob, pathBlob, List.append_assoc, List.append_assoc]⟩

theorem pathBlob_append (t : Tables F) : ∃ more, t.blob = t.pathBlob ++ more :=
  ⟨_, by rw [blob, typeBlob, List.append_assoc]⟩

theorem nameBlob_append (t : Tables F) : ∃ more, t.blob = t.nameBlob ++ more := by
  obtain ⟨more, h⟩ := t.aliasBlob_append
  exact ⟨_, by rw [h, aliasBlob, List.append_assoc]⟩

theorem ownNames_slots (t : Tables F) :
    List.Forall₂ (fun e r => ∃ off, r = ownName e off (len (clamp_blob_str e.2.name)) ∧
      InBlob t.nameBlob off (clamp_blob_str e.2.name)) t.syms t.ownNames := by
  refine (pushStrs_slots (fun e => e.2.name) ownName [] t.syms).imp ?_
  rintro e r ⟨off, hr, -, hin⟩
  exact ⟨off, hr, hin⟩

theorem aliasNames_slots (t : Tables F) :
    List.Forall₂ (fun a r => ∃ off, r = aliasName a off (len (clamp_blob_str a.text)) ∧
      t.nameBlob.length ≤ off ∧ InBlob t.aliasBlob off (clamp_blob_str a.text)) t.aliases t.aliasNames :=
  pushStrs_slots StrRow.text aliasName t.nameBlob t.aliases

theorem exists_of_forall₂_right {α β : Type*} {R : α → β → Prop} {l : List α} {m : List β}
    (h : List.Forall₂ R l m) {b : β} (hb : b ∈ m) : ∃ a ∈ l, R a b := by
  induction h with
  | nil => simp at hb
  | cons hab _ ih =>
    rcases List.mem_cons.mp hb with rfl | hb
    · exact ⟨_, List.mem_cons_self, hab⟩
    · obtain ⟨a, ha, hr⟩ := ih hb
      exact ⟨a, List.mem_cons_of_mem _ ha, hr⟩

theorem exists_of_forall₂_left {α β : Type*} {R : α → β → Prop} {l : List α} {m : List β}
    (h : List.Forall₂ R l m) {a : α} (ha : a ∈ l) : ∃ b ∈ m, R a b :=
  exists_of_forall₂_right h.flip ha

theorem name_in_aliasBlob (t : Tables F) {r : NameRow} (hr : r ∈ t.ownNames ++ t.aliasNames) :
    r.name_off + r.name_len ≤ t.aliasBlob.length := by
  rcases List.mem_append.mp hr with hr | hr
  · obtain ⟨e, -, off, rfl, hin⟩ := exists_of_forall₂_right t.ownNames_slots hr
    exact (hin.append _).le
  · obtain ⟨a, -, off, rfl, -, hin⟩ := exists_of_forall₂_right t.aliasNames_slots hr
    exact hin.le

/-- Any blob that starts with the names sorts them the same way. -/
theorem names_eq (t : Tables F) (more : Bytes) :
    sortNames (t.aliasBlob ++ more) (t.ownNames ++ t.aliasNames) = t.names := by
  obtain ⟨more', h⟩ := t.aliasBlob_append
  apply sortNames_congr
  intro r hr
  rw [h, NameRow.bytes_append (t.name_in_aliasBlob hr), NameRow.bytes_append (t.name_in_aliasBlob hr)]

theorem mem_names {t : Tables F} {r : NameRow} : r ∈ t.names ↔ r ∈ t.ownNames ++ t.aliasNames :=
  List.mem_insertionSort _

theorem trigrams_eq (t : Tables F) (more : Bytes) :
    build_trigram_index t.names (t.aliasBlob ++ more) = build_trigram_index t.names t.blob := by
  obtain ⟨more', h⟩ := t.aliasBlob_append
  apply build_trigram_index_congr
  intro r hr
  have hle := t.name_in_aliasBlob (mem_names.mp hr)
  rw [h, NameRow.bytes_append hle, NameRow.bytes_append hle]

/-- The rows as the streaming merge makes them: own names from the sym rows, and the name index
built while the blob holds the names only. -/
theorem rows_streamed (t : Tables F) :
    t.rows =
      let own := (pushStrs (fun e => e.2.name) symRow [] t.syms).1.map fun r =>
        NameRow.mk r.name_off r.name_len r.sym
      let by_name := sortNames t.aliasBlob (own ++ t.aliasNames)
      { t.rows with
        names := by_name
        trigram_dict := (build_trigram_index by_name t.aliasBlob).1
        trigram_post := (build_trigram_index by_name t.aliasBlob).2 } := by
  have hown : (pushStrs (fun e => e.2.name) symRow [] t.syms).1.map
      (fun r => NameRow.mk r.name_off r.name_len r.sym) = t.ownNames := pushStrs_map _ symRow _ _ _
  have hnames : sortNames t.aliasBlob (t.ownNames ++ t.aliasNames) = t.names := by
    simpa using t.names_eq []
  have htri : build_trigram_index t.names t.aliasBlob = build_trigram_index t.names t.blob := by
    simpa using t.trigrams_eq []
  simp only [hown, hnames, htri]
  rfl

end Tables

end Scry2
