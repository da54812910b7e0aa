import Scry2.Archive
import Scry2.JsonScan

/-!
# Units in JSON

What a text of a unit looks like, and what the peek finds in one. The keys of a unit come in any
order, under either of their names, and a field that has its default may be left out.
-/

open Scry2.Lib

namespace Scry2

/-! ## Values and their tokens -/

def joined : List (List Tok) → List Tok
  | [] => []
  | [x] => x
  | x :: xs => x ++ .punct .comma :: joined xs

def arrToks (items : List (List Tok)) : List Tok := .punct .lbrack :: (joined items ++ [.punct .rbrack])

def memberToks (m : Text × List Tok) : List Tok := .str m.1 :: .punct .colon :: m.2

def objToks (ms : List (Text × List Tok)) : List Tok :=
  .punct .lbrace :: (joined (ms.map memberToks) ++ [.punct .rbrace])

def TextOf (s : String) (toks : List Tok) : Prop := ∃ t : Text, toks = [.str t] ∧ t.value = s

def ListOf {α : Type} (renders : α → List Tok → Prop) (xs : List α) (toks : List Tok) : Prop :=
  ∃ items, toks = arrToks items ∧ List.Forall₂ renders xs items

/-- A field of a record: the names it goes by, its value, and whether it may be left out. -/
structure Field where
  names : List String
  renders : List Tok → Prop
  optional : Prop

structure Members (fields : List Field) (ms : List (Text × List Tok)) : Prop where
  known : ∀ m ∈ ms, ∃ f ∈ fields, m.1.value ∈ f.names ∧ f.renders m.2
  complete : ∀ f ∈ fields, (∀ m ∈ ms, m.1.value ∉ f.names) → f.optional
  once : ms.Pairwise fun m m' => ∀ f ∈ fields, m.1.value ∈ f.names → m'.1.value ∉ f.names

def ObjectOf (fields : List Field) (toks : List Tok) : Prop := ∃ ms, toks = objToks ms ∧ Members fields ms

def textField (names : List String) (s : String) : Field := ⟨names, TextOf s, s = ""⟩

def textsField (names : List String) (xs : List String) : Field := ⟨names, ListOf TextOf xs, xs = []⟩

def VName.json (v : VName) : List Field :=
  [textField ["signature"] v.signature, textField ["corpus"] v.corpus, textField ["root"] v.root,
    textField ["path"] v.path, textField ["language"] v.language]

def FileInfo.json (fi : FileInfo) : List Field :=
  [textField ["path"] fi.path, textField ["digest"] fi.digest]

def FileInput.json (ri : FileInput) : List Field :=
  [⟨["v_name", "vName"], ObjectOf ri.v_name.json, ri.v_name = {}⟩,
    ⟨["info"], ObjectOf ri.info.json, ri.info = {}⟩]

def CompilationUnit.json (c : CompilationUnit) : List Field :=
  [⟨["v_name", "vName"], ObjectOf c.v_name.json, c.v_name = {}⟩,
    ⟨["required_input", "requiredInput"], ListOf (fun ri => ObjectOf ri.json) c.required_input,
      c.required_input = []⟩,
    textsField ["argument"] c.argument,
    textsField ["source_file", "sourceFile"] c.source_file,
    textField ["output_key", "outputKey"] c.output_key,
    textField ["working_directory", "workingDirectory"] c.working_directory,
    textField ["entry_context", "entryContext"] c.entry_context]

def IndexedCompilation.json (c : IndexedCompilation) : List Field :=
  [⟨["unit"], ObjectOf c.unit.json, c.unit = {}⟩]

/-- A text of the unit: its tokens, with any white space. -/
def IndexedCompilation.Renders (c : IndexedCompilation) (toks : List Tok) (text : String) : Prop :=
  ObjectOf c.json toks ∧ Spaced toks (as_bytes text)

/-! ## Keys and what follows them -/

/-- Every key of the tokens is as `P` says, with what follows its colon. -/
structure KeysMeet (P : Text → List Tok → Prop) (toks : List Tok) : Prop where
  keys : ∀ pre t post, toks = pre ++ .str t :: .punct .colon :: post → P t post
  start : ∀ post, toks ≠ .punct .colon :: post

section KeysMeet
variable {P : Text → List Tok → Prop} (hmono : ∀ t post tail, P t post → P t (post ++ tail))

theorem KeysMeet.nil : KeysMeet P [] := ⟨fun pre t post h => by simp at h, fun post h => by cases h⟩

theorem KeysMeet.str (t : Text) : KeysMeet P [.str t] := by
  refine ⟨fun pre t' post h => ?_, fun post h => by cases h⟩
  have hl := congrArg List.length h
  simp only [List.length_append, List.length_cons, List.length_nil] at hl
  omega

theorem KeysMeet.punct {p : Punct} (hp : p ≠ .colon) : KeysMeet P [.punct p] := by
  refine ⟨fun pre t' post h => ?_, fun post h => ?_⟩
  · have hl := congrArg List.length h
    simp only [List.length_append, List.length_cons, List.length_nil] at hl
    omega
  · cases h
    exact hp rfl

include hmono in
theorem KeysMeet.append {a b : List Tok} (ha : KeysMeet P a) (hb : KeysMeet P b) : KeysMeet P (a ++ b) := by
  refine ⟨fun pre t post h => ?_, fun post h => ?_⟩
  · rcases List.append_eq_append_iff.mp h with ⟨m, rfl, hm⟩ | ⟨m, rfl, hm⟩
    · exact hb.keys m t post hm
    · -- The key begins in `a`; its colon does too, since `b` does not start with one.
      match m, hm with
      | [], hm => exact hb.keys [] t post hm.symm
      | [_], hm => exact absurd (List.cons.inj hm).2.symm (hb.start post)
      | _ :: _ :: m, hm =>
        rw [List.cons_append, List.cons_append, List.cons.injEq, List.cons.injEq] at hm
        obtain ⟨rfl, rfl, rfl⟩ := hm
        exact hmono t m b (ha.keys pre t m rfl)
  · cases a with
    | nil => exact hb.start post h
    | cons x a =>
      rw [List.cons_append, List.cons.injEq] at h
      exact ha.start a (by rw [h.1])

theorem KeysMeet.member {t : Text} {v : List Tok} (ht : P t v) (hv : KeysMeet P v) :
    KeysMeet P (memberToks (t, v)) := by
  refine ⟨fun pre t' post h => ?_, fun post h => by cases h⟩
  match pre, h with
  | [], h =>
    cases h
    exact ht
  | [_], h => cases h
  | _ :: _ :: pre, h =>
    rw [memberToks, List.cons_append, List.cons_append, List.cons.injEq, List.cons.injEq] at h
    exact hv.keys pre t' post h.2.2

include hmono in
theorem KeysMeet.joined {xs : List (List Tok)} (h : ∀ x ∈ xs, KeysMeet P x) : KeysMeet P (joined xs) := by
  induction xs with
  | nil => exact .nil
  | cons x xs ih =>
    have hx := h x List.mem_cons_self
    cases xs with
    | nil => exact hx
    | cons y xs =>
      have hrest := ih fun z hz => h z (List.mem_cons_of_mem _ hz)
      exact hx.append hmono ((KeysMeet.punct (p := .comma) (by decide)).append hmono hrest)

include hmono in
theorem KeysMeet.arrToks {xs : List (List Tok)} (h : ∀ x ∈ xs, KeysMeet P x) : KeysMeet P (arrToks xs) :=
  (KeysMeet.punct (p := .lbrack) (by decide)).append hmono
    ((KeysMeet.joined hmono h).append hmono (.punct (by decide)))

include hmono in
theorem KeysMeet.objToks {ms : List (Text × List Tok)} (h : ∀ m ∈ ms, P m.1 m.2 ∧ KeysMeet P m.2) :
    KeysMeet P (objToks ms) := by
  have hms : ∀ x ∈ ms.map memberToks, KeysMeet P x := by
    intro x hx
    obtain ⟨m, hm, rfl⟩ := List.mem_map.mp hx
    exact (h m hm).2.member (h m hm).1
  exact (KeysMeet.punct (p := .lbrace) (by decide)).append hmono
    ((KeysMeet.joined hmono hms).append hmono (.punct (by decide)))

theorem KeysMeet.textOf {s : String} {v : List Tok} (h : TextOf s v) : KeysMeet P v := by
  obtain ⟨t, rfl, -⟩ := h
  exact .str t

include hmono in
theorem KeysMeet.listOf {α : Type} {renders : α → List Tok → Prop} {xs : List α} {v : List Tok}
    (hr : ∀ x v, renders x v → KeysMeet P v) (h : ListOf renders xs v) : KeysMeet P v := by
  obtain ⟨items, rfl, hitems⟩ := h
  refine KeysMeet.arrToks hmono ?_
  induction hitems with
  | nil => simp
  | @cons x item _ _ hx _ ih => simpa using ⟨hr x item hx, ih⟩

/-- The keys of a field are as `P` says, and so are those inside its value. -/
def Field.Meets (P : Text → List Tok → Prop) (f : Field) : Prop :=
  ∀ v, f.renders v → KeysMeet P v ∧ ∀ t : Text, t.value ∈ f.names → P t v

include hmono in
theorem KeysMeet.objectOf {fields : List Field} {v : List Tok} (hf : ∀ f ∈ fields, f.Meets P)
    (h : ObjectOf fields v) : KeysMeet P v := by
  obtain ⟨ms, rfl, hms⟩ := h
  refine KeysMeet.objToks hmono fun m hm => ?_
  obtain ⟨f, hfmem, hname, hr⟩ := hms.known m hm
  obtain ⟨hv, hkey⟩ := hf f hfmem m.2 hr
  exact ⟨hkey m.1 hname, hv⟩

end KeysMeet

/-! ## The source files of a unit -/

def sourceNames : List String := ["source_file", "sourceFile"]

/-- No key has a quote in it, and only the source files of the unit go by their names. -/
def UnitKey (c : CompilationUnit) (t : Text) (post : List Tok) : Prop :=
  '"' ∉ t.value.toList ∧
    (t.value ∈ sourceNames → ∃ v tail, post = v ++ tail ∧ ListOf TextOf c.source_file v)

section UnitKey
variable {c : CompilationUnit}

theorem UnitKey.mono (t : Text) (post tail : List Tok) (h : UnitKey c t post) : UnitKey c t (post ++ tail) := by
  refine ⟨h.1, fun hmem => ?_⟩
  obtain ⟨v, rest, rfl, hv⟩ := h.2 hmem
  exact ⟨v, rest ++ tail, List.append_assoc .., hv⟩

/-- The names of the other fields. -/
def otherNames : List String :=
  ["signature", "corpus", "root", "path", "language", "digest", "v_name", "vName", "info", "unit",
    "required_input", "requiredInput", "argument", "output_key", "outputKey", "working_directory",
    "workingDirectory", "entry_context", "entryContext"]

theorem otherNames_plain : ∀ n ∈ otherNames, '"' ∉ n.toList ∧ n ∉ sourceNames := by decide

/-- A field that is not the source files, under names of its own. -/
theorem Field.meets_other {names : List String} {renders : List Tok → Prop} {optional : Prop}
    (hv : ∀ v, renders v → KeysMeet (UnitKey c) v) (hnames : names ⊆ otherNames) :
    Field.Meets (UnitKey c) ⟨names, renders, optional⟩ := by
  intro v hr
  refine ⟨hv v hr, fun t ht => ?_⟩
  obtain ⟨hquote, hother⟩ := otherNames_plain _ (hnames ht)
  exact ⟨hquote, fun hmem => absurd hmem hother⟩

theorem textField_meets {names : List String} (s : String) (hnames : names ⊆ otherNames) :
    (textField names s).Meets (UnitKey c) :=
  Field.meets_other (fun _ => KeysMeet.textOf) hnames

theorem listOf_text_keyed {xs : List String} {v : List Tok} (h : ListOf TextOf xs v) :
    KeysMeet (UnitKey c) v :=
  KeysMeet.listOf UnitKey.mono (fun _ _ => KeysMeet.textOf) h

theorem vname_keyed {v : VName} {toks : List Tok} (h : ObjectOf v.json toks) : KeysMeet (UnitKey c) toks := by
  refine KeysMeet.objectOf UnitKey.mono ?_ h
  simp only [VName.json, List.forall_mem_cons, List.not_mem_nil, false_implies, implies_true, and_true]
  refine ⟨?_, ?_, ?_, ?_, ?_⟩ <;> exact textField_meets _ (by simp [otherNames])

theorem info_keyed {fi : FileInfo} {toks : List Tok} (h : ObjectOf fi.json toks) :
    KeysMeet (UnitKey c) toks := by
  refine KeysMeet.objectOf UnitKey.mono ?_ h
  simp only [FileInfo.json, List.forall_mem_cons, List.not_mem_nil, false_implies, implies_true, and_true]
  refine ⟨?_, ?_⟩ <;> exact textField_meets _ (by simp [otherNames])

theorem input_keyed {ri : FileInput} {toks : List Tok} (h : ObjectOf ri.json toks) :
    KeysMeet (UnitKey c) toks := by
  refine KeysMeet.objectOf UnitKey.mono ?_ h
  simp only [FileInput.json, List.forall_mem_cons, List.not_mem_nil, false_implies, implies_true, and_true]
  exact ⟨Field.meets_other (fun _ => vname_keyed) (by simp [otherNames]),
    Field.meets_other (fun _ => info_keyed) (by simp [otherNames])⟩

theorem sourceField_meets : (textsField sourceNames c.source_file).Meets (UnitKey c) := by
  have hquote : ∀ n ∈ sourceNames, '"' ∉ n.toList := by decide
  exact fun v hr => ⟨listOf_text_keyed hr, fun _ ht =>
    ⟨hquote _ ht, fun _ => ⟨v, [], (List.append_nil v).symm, hr⟩⟩⟩

theorem unit_keyed {toks : List Tok} (h : ObjectOf c.json toks) : KeysMeet (UnitKey c) toks := by
  refine KeysMeet.objectOf UnitKey.mono ?_ h
  simp only [CompilationUnit.json, List.forall_mem_cons, List.not_mem_nil, false_implies, implies_true,
    and_true]
  refine ⟨Field.meets_other (fun _ => vname_keyed) (by simp [otherNames]),
    Field.meets_other (fun _ => KeysMeet.listOf UnitKey.mono fun _ _ => input_keyed) (by simp [otherNames]),
    Field.meets_other (fun _ => listOf_text_keyed) (by simp [otherNames]),
    sourceField_meets, ?_, ?_, ?_⟩ <;>
  exact textField_meets _ (by simp [otherNames])

theorem indexed_keyed {d : IndexedCompilation} {toks : List Tok} (h : ObjectOf d.json toks) :
    KeysMeet (UnitKey d.unit) toks := by
  refine KeysMeet.objectOf UnitKey.mono ?_ h
  simp only [IndexedCompilation.json, List.forall_mem_cons, List.not_mem_nil, false_implies, implies_true,
    and_true]
  exact Field.meets_other (fun _ => unit_keyed) (by simp [otherNames])

end UnitKey

/-! ## Which strings the scan takes for a key -/

theorem escapedTail_plains {body : Bytes} {ds r : List Char} (h : ∀ d ∈ ds, d ≠ '"' ∧ d ≠ '\\') :
    escapedTail body (ds ++ r) = escapedTail body r := by
  induction ds with
  | nil => rfl
  | cons d ds ih =>
    obtain ⟨⟨-, hd⟩, hds⟩ := List.forall_mem_cons.mp h
    rw [List.cons_append, escapedTail_plain hd, ih hds]

theorem escapedTail_unit {body : Bytes} {ds r : List Char} {n : Nat} (h : hexValue ds = some n) :
    escapedTail body ('\\' :: 'u' :: (ds ++ r)) = escapedTail body r := by
  have hskip : escapedTail body (ds ++ r) = escapedTail body r := escapedTail_plains (hexValue_plain h)
  simpa [escapedTail] using hskip

/-- One character of a string: only an escaped quote is a place where a key may begin. -/
theorem escapedTail_spelled {body : Bytes} (s : Spelled) (r : List Char)
    (h : escapedTail body (s.text ++ r) = true) : s.char = '"' ∨ escapedTail body r = true := by
  obtain ⟨c, text, hlegal⟩ := s
  change escapedTail body (text ++ r) = true at h
  rcases hlegal with ⟨rfl, -, hb, -⟩ | hesc
  · rw [List.singleton_append, escapedTail_plain hb] at h
    exact .inr h
  · cases hesc with
    | @short e hmem =>
      have hquote : ∀ p ∈ shortEscapes, p.2 = '"' → p.1 = '"' := by decide
      by_cases he : e = '"'
      · exact .inl (hquote _ hmem he)
      · simp only [List.cons_append, List.nil_append, escapedTail, he, decide_false, Bool.false_and,
          Bool.false_or] at h
        exact .inr h
    | unit hu =>
      rw [List.cons_append, List.cons_append, escapedTail_unit hu] at h
      exact .inr h
    | @pair hi lo _ hhi hlo =>
      simp only [List.cons_append, List.append_assoc] at h
      rw [escapedTail_unit hhi, escapedTail_unit hlo] at h
      exact .inr h

/-- A string that ends in an escaped quote and the key has a quote in its value. -/
theorem quote_mem_of_escapedTail {body : Bytes} {t : Text}
    (h : escapedTail body (t.flatMap Spelled.text) = true) : '"' ∈ t.value.toList := by
  rw [Text.value, String.toList_ofList]
  induction t with
  | nil => cases h
  | cons s t ih =>
    rw [List.flatMap_cons] at h
    rcases escapedTail_spelled s _ h with hs | ht
    · rw [List.map_cons, hs]
      exact List.mem_cons_self
    · exact List.mem_cons_of_mem _ (ih ht)

theorem Text.unescaped_of_no_backslash {t : Text} (h : '\\' ∉ t.raw.toList) : t.Unescaped := by
  have hmem : ∀ {c : Char} {text : List Char}, Escape c text → '\\' ∈ text := by
    intro c text hesc
    cases hesc <;> exact List.mem_cons_self
  intro s hs
  rcases s.legal with ⟨htext, -⟩ | hesc
  · exact htext
  · refine absurd ?_ h
    rw [Text.raw, String.toList_ofList, List.mem_flatMap]
    exact ⟨s, hs, hmem hesc⟩

/-- A key of the unit is taken for `name` only when it is that name. -/
theorem hit_value {name : String} (hname : '\\' ∉ name.toList) {t : Text} (hquote : '"' ∉ t.value.toList)
    (h : Tok.hits (as_bytes name) (.str t) = true) : t.value = name := by
  rw [Tok.hits, Bool.or_eq_true, decide_eq_true_iff] at h
  rcases h with h | h
  · have hraw : t.raw = name := as_bytes_injective h
    rw [← (t.raw_eq_value_iff).mpr (Text.unescaped_of_no_backslash (hraw ▸ hname)), hraw]
  · exact absurd (quote_mem_of_escapedTail h) hquote

/-! ## What the peek finds -/

theorem firstString_eq_some {post : List Tok} {u : Text} (h : firstString post = some u) :
    ∃ rest, post = .punct .colon :: .punct .lbrack :: .str u :: rest ∨
      post = .punct .colon :: .str u :: rest := by
  unfold firstString at h
  split at h
  · cases h
    exact ⟨_, .inl rfl⟩
  · cases h
    exact ⟨_, .inr rfl⟩
  · cases h

/-- The first string of a list of strings is its first element. -/
theorem listOf_head {xs : List String} {v tail rest : List Tok} {u : Text} (h : ListOf TextOf xs v)
    (hv : v ++ tail = .punct .lbrack :: .str u :: rest) : xs.head? = some u.value := by
  obtain ⟨items, rfl, hitems⟩ := h
  cases hitems with
  | nil => simp [arrToks, joined] at hv
  | @cons x item xs items hx _ =>
    obtain ⟨t, rfl, rfl⟩ := hx
    have ht : t = u := by
      cases items <;> simp [arrToks, joined] at hv <;> exact hv.1
    rw [ht]
    rfl

/-- A string seen after the name of the source files is the first of them. -/
theorem seen_source {c : CompilationUnit} {toks : List Tok} (hk : KeysMeet (UnitKey c) toks) {name : String}
    (hname : name ∈ sourceNames) {u : Text} (h : seen (as_bytes name) toks = some u) :
    c.source_file.head? = some u.value := by
  have hplain : ∀ n ∈ sourceNames, '\\' ∉ n.toList := by decide
  unfold seen at h
  cases hd : fromHit (as_bytes name) toks with
  | nil =>
    rw [hd] at h
    cases h
  | cons hit post =>
    rw [hd] at h
    obtain ⟨hhit, pre, rfl⟩ := fromHit_eq_cons hd
    cases hit with
    | punct p => cases hhit
    | str t =>
      obtain ⟨rest, hpost⟩ := firstString_eq_some h
      obtain ⟨after, rfl⟩ : ∃ after, post = .punct .colon :: after := by
        rcases hpost with rfl | rfl <;> exact ⟨_, rfl⟩
      obtain ⟨hquote, hsource⟩ := hk.keys pre t after rfl
      have hval : t.value = name := hit_value (hplain name hname) hquote hhit
      obtain ⟨v, tail, rfl, hv⟩ := hsource (hval ▸ hname)
      rcases hpost with hpost | hpost
      · exact listOf_head hv (List.cons.inj hpost).2
      · obtain ⟨items, rfl, -⟩ := hv
        simp [arrToks] at hpost

/-- The first source file, where the scan gets to see it. -/
def shownSource (toks : List Tok) : Option Text :=
  (seen (as_bytes "source_file") toks).or (seen (as_bytes "sourceFile") toks)

theorem source_keyText {name : String} (h : name ∈ sourceNames) : KeyText (as_bytes name) := by
  have hplain : ∀ n ∈ sourceNames, ∀ b ∈ as_bytes n, b ≠ 0x22 ∧ b ≠ 0x5c := by decide +kernel
  have hhead : ∀ n ∈ sourceNames, as_bytes n = 0x73 :: (as_bytes n).tail := by decide +kernel
  refine ⟨hplain name h, 0x73, (as_bytes name).tail, hhead name h, ?_, by decide, ?_⟩
  · unfold IsJsonSpace
    decide
  · intro p
    cases p <;> decide

theorem peek_json_eq {toks : List Tok} {bs : Bytes} (h : Spaced toks bs) :
    peek_json_primary_path bs =
      ((shownSource toks).or (sourceLike (keyValues pathBody toks))).map Text.raw := by
  have hsnake : as_bytes "\"source_file\"" = quoted (as_bytes "source_file") := by decide
  have hcamel : as_bytes "\"sourceFile\"" = quoted (as_bytes "sourceFile") := by decide
  have h1 := json_first_value_eq (source_keyText (by decide : "source_file" ∈ sourceNames)) h
  have h2 := json_first_value_eq (source_keyText (by decide : "sourceFile" ∈ sourceNames)) h
  have h3 := peek_path_from_eq toks.length le_rfl (show Spaced toks (bs.drop 0) from h)
  rw [peek_json_primary_path, hsnake, hcamel, h1, h2, h3, shownSource, Option.map_or, Option.map_or,
    Option.or_assoc]

/-- The peek's answer on the text, if any, is the primary path of the decoded unit. -/
def JsonPeekAgrees [Serde] (text : String) : Prop :=
  ∃ d, Serde.from_str text = .ok d ∧
    ∀ p, peek_json_primary_path (as_bytes text) = some p → p = (cu_primary_path d.unit).getD ""

/-- The source file that the scan sees has no escapes. Where it sees none, the first path that is
spelled like a source file is spelled as the primary path is. -/
def PlainlyPeeked (c : CompilationUnit) (toks : List Tok) : Prop :=
  match shownSource toks with
  | some u => u.Unescaped
  | none => ∀ u ∈ sourceLike (keyValues pathBody toks), cu_primary_path c = some u.raw

theorem shownSource_head {c : IndexedCompilation} {toks : List Tok} (h : ObjectOf c.json toks) {u : Text}
    (hu : shownSource toks = some u) : c.unit.source_file.head? = some u.value := by
  rcases Option.or_eq_some_iff.mp hu with hs | ⟨-, hs⟩
  · exact seen_source (indexed_keyed h) (by decide) hs
  · exact seen_source (indexed_keyed h) (by decide) hs

theorem json_peek_agrees_iff [Serde] {c : IndexedCompilation} {toks : List Tok} {text : String}
    (hr : c.Renders toks text) (hserde : Serde.from_str text = .ok c) :
    JsonPeekAgrees text ↔ PlainlyPeeked c.unit toks := by
  have hagree : JsonPeekAgrees text ↔ ∀ u ∈ (shownSource toks).or (sourceLike (keyValues pathBody toks)),
      u.raw = (cu_primary_path c.unit).getD "" := by
    simp only [JsonPeekAgrees, hserde, Except.ok.injEq, exists_eq_left', peek_json_eq hr.2,
      Option.map_eq_some_iff, Option.mem_def]
    exact ⟨fun h u hu => h u.raw ⟨u, hu, rfl⟩, fun h p ⟨u, hu, hp⟩ => hp ▸ h u hu⟩
  rw [hagree, PlainlyPeeked]
  cases hsh : shownSource toks with
  | some u =>
    obtain ⟨rest, hrest⟩ := List.head?_eq_some_iff.mp (shownSource_head hr.1 hsh)
    have hprim : cu_primary_path c.unit = some u.value := by
      unfold cu_primary_path
      rw [hrest]
    simp [hprim, u.raw_eq_value_iff]
  | none =>
    simp only [Option.none_or]
    refine forall₂_congr fun u hu => ?_
    -- A path that looks like a source file is not empty.
    have hext : is_source_extension u.raw = true :=
      List.find?_some (p := fun u => is_source_extension (Text.raw u)) hu
    have hne : u.raw ≠ "" := by
      intro he
      rw [he] at hext
      exact absurd hext (by decide +kernel)
    cases cu_primary_path c.unit with
    | none => simpa using hne
    | some p => simp [eq_comm]

/-! ## A path with an escaped slash -/

theorem spaced_compact (toks : List Tok) : Spaced toks (toks.flatMap Tok.bytes) := by
  induction toks with
  | nil => exact .nil (by simp)
  | cons tok toks ih =>
    have hcons : Spaced (tok :: toks) ([] ++ (tok.bytes ++ toks.flatMap Tok.bytes)) := .cons (by simp) ih
    exact hcons

/-- The string with every character standing for itself. -/
def spell (s : String) : Text :=
  s.toList.filterMap fun c => if h : Plain c then some ⟨c, [c], .inl ⟨rfl, h⟩⟩ else none

def escapedPath : Text := spell "a" ++ ⟨'/', ['\\', '/'], .inr (.short (by decide))⟩ :: spell "b.cc"

def escapedUnit : IndexedCompilation := ⟨{ source_file := ["a/b.cc"] }⟩

def escapedToks : List Tok :=
  objToks [(spell "unit", objToks [(spell "source_file", arrToks [[.str escapedPath]])])]

def escapedText : String := "\x7b\"unit\":\x7b\"source_file\":[\"a\\/b.cc\"]\x7d\x7d"

/-- A decoder that is right about the text here. -/
@[reducible] def escapedSerde : Serde :=
  ⟨fun text => if text = escapedText then .ok escapedUnit else .error "not this text"⟩

attribute [local instance] escapedSerde

theorem escapedUnit_unit : ObjectOf escapedUnit.unit.json
    (objToks [(spell "source_file", arrToks [[.str escapedPath]])]) := by
  have hvalue : (spell "source_file").value ∈ sourceNames := by decide
  refine ⟨_, rfl, ?_, ?_, List.pairwise_singleton _ _⟩
  · refine List.forall_mem_singleton.mpr ⟨textsField sourceNames ["a/b.cc"], ?_, hvalue, ?_⟩
    · simp [CompilationUnit.json, escapedUnit, sourceNames]
    · exact ⟨_, rfl, .cons ⟨escapedPath, rfl, by decide⟩ .nil⟩
  · simp only [CompilationUnit.json, escapedUnit, List.forall_mem_cons, List.not_mem_nil, false_implies,
      implies_true, and_true]
    refine ⟨trivial, trivial, fun _ => rfl, fun h => ?_, fun _ => rfl, fun _ => rfl, fun _ => rfl⟩
    exact absurd hvalue h

theorem escapedUnit_renders : escapedUnit.Renders escapedToks escapedText := by
  have hvalue : (spell "unit").value ∈ ["unit"] := by decide
  constructor
  · refine ⟨_, rfl, ?_, ?_, List.pairwise_singleton _ _⟩
    · exact List.forall_mem_singleton.mpr ⟨_, List.mem_cons_self, hvalue, escapedUnit_unit⟩
    · exact List.forall_mem_singleton.mpr fun h => absurd hvalue (h _ List.mem_cons_self)
  · have hbytes : as_bytes escapedText = escapedToks.flatMap Tok.bytes := by decide
    rw [hbytes]
    exact spaced_compact escapedToks

theorem escapedText_decodes : Serde.from_str escapedText = .ok escapedUnit := if_pos rfl

/-- The peek keeps the backslash of the escape. -/
theorem escaped_source_file_peeked_raw :
    escapedUnit.Renders escapedToks escapedText ∧ Serde.from_str escapedText = .ok escapedUnit ∧
      cu_primary_path escapedUnit.unit = some "a/b.cc" ∧
      peek_json_primary_path (as_bytes escapedText) = some "a\\/b.cc" ∧ ¬ JsonPeekAgrees escapedText := by
  have hpeek : peek_json_primary_path (as_bytes escapedText) = some "a\\/b.cc" := by decide +kernel
  refine ⟨escapedUnit_renders, escapedText_decodes, by decide +kernel, hpeek, ?_⟩
  rintro ⟨d, hd, hagree⟩
  rw [escapedText_decodes] at hd
  cases hd
  exact absurd (hagree _ hpeek) (by decide +kernel)

theorem json_peek_agrees_iff_escapedUnit :
    escapedUnit.Renders escapedToks escapedText ∧ Serde.from_str escapedText = .ok escapedUnit ∧
      (JsonPeekAgrees escapedText ↔ PlainlyPeeked escapedUnit.unit escapedToks) :=
  ⟨escapedUnit_renders, escapedText_decodes, json_peek_agrees_iff escapedUnit_renders escapedText_decodes⟩

end Scry2
