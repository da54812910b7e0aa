import Scry2.Extract

/-!
# What the key of a cached shard leaves out

The indexer reads the pbunit that `extract_with` writes: the raw one if the stripped flags and the
rules leave the arguments alone, one that is encoded anew otherwise. Neither the rules nor the fields
that the decoder skips are part of the key.
-/

open Scry2.Lib

namespace Scry2

/-! ## The same pbunit -/

/-- The same inputs, up to order and duplicates. -/
def SameInputs (xs ys : List Bytes) : Prop :=
  (∀ x ∈ xs, ∃ y ∈ ys, SameFileInput x y) ∧ ∀ y ∈ ys, ∃ x ∈ xs, SameFileInput x y

/-- A unit with the same fields, up to order and duplicates of the required inputs. -/
def SameUnitInputs (a b : Bytes) : Prop :=
  a = b ∨ ∃ fa fb, fieldsOf a = .ok fa ∧ fieldsOf b = .ok fb ∧
    (∀ n, n ≠ 3 → List.Forall₂ (SameUnitField n) (payloads n fa) (payloads n fb)) ∧
      SameInputs (payloads 3 fa) (payloads 3 fb)

/-- An `IndexedCompilation` with the same fields, up to order and duplicates of the required inputs. -/
def SameHanded : Bytes → Bytes → Prop := SameFields (fun n => if n = 1 then SameUnitInputs else Eq) fun _ => True

theorem SameFields.symm {R : UInt32 → Bytes → Bytes → Prop} {on : UInt32 → Prop} {a b : Bytes}
    (hR : ∀ n x y, R n x y → R n y x) (h : SameFields R on a b) : SameFields R on b a := by
  rcases h with rfl | ⟨fa, fb, ha, hb, hsame⟩
  · exact .inl rfl
  · exact .inr ⟨fb, fa, hb, ha, fun n hn => ((hsame n hn).imp (hR n)).flip⟩

theorem SameText.symm {a b : Bytes} (h : SameText a b) : SameText b a :=
  SameFields.symm (fun _ _ _ => Eq.symm) h

theorem SameFileInput.symm {a b : Bytes} (h : SameFileInput a b) : SameFileInput b a := by
  refine SameFields.symm (fun n x y hxy => ?_) h
  unfold SameFileInputField at hxy ⊢
  split_ifs at hxy ⊢
  · exact hxy.symm
  · exact hxy.symm

theorem SameUnitField.symm {n : UInt32} {x y : Bytes} (h : SameUnitField n x y) : SameUnitField n y x := by
  unfold SameUnitField at h ⊢
  split_ifs at h ⊢
  · exact h.symm
  · exact h.symm
  · exact h.symm

theorem SameInputs.refl (xs : List Bytes) : SameInputs xs xs :=
  ⟨fun x hx => ⟨x, hx, .refl x⟩, fun x hx => ⟨x, hx, .refl x⟩⟩

theorem SameUnitInputs.refl (a : Bytes) : SameUnitInputs a a := .inl rfl

theorem SameUnitInputs.symm {a b : Bytes} (h : SameUnitInputs a b) : SameUnitInputs b a := by
  rcases h with rfl | ⟨fa, fb, ha, hb, hsame, hinputs⟩
  · exact .inl rfl
  · refine .inr ⟨fb, fa, hb, ha, fun n hn => ((hsame n hn).imp fun _ _ => SameUnitField.symm).flip, ?_, ?_⟩
    · intro y hy
      obtain ⟨x, hx, hxy⟩ := hinputs.2 y hy
      exact ⟨x, hx, hxy.symm⟩
    · intro x hx
      obtain ⟨y, hy, hxy⟩ := hinputs.1 x hx
      exact ⟨y, hy, hxy.symm⟩

theorem SameHanded.symm {a b : Bytes} (h : SameHanded a b) : SameHanded b a := by
  refine SameFields.symm (fun n x y hxy => ?_) h
  split_ifs at hxy ⊢
  · exact hxy.symm
  · exact hxy.symm

theorem SameUnitInputs.fields {a b : Bytes} {fa fb : List (UInt32 × Bytes)} (h : SameUnitInputs a b)
    (ha : fieldsOf a = .ok fa) (hb : fieldsOf b = .ok fb) :
    (∀ n, n ≠ 3 → List.Forall₂ (SameUnitField n) (payloads n fa) (payloads n fb)) ∧
      SameInputs (payloads 3 fa) (payloads 3 fb) := by
  rcases h with rfl | ⟨fa', fb', ha', hb', hsame, hinputs⟩
  · cases ha.symm.trans hb
    exact ⟨fun n _ => List.forall₂_same.mpr fun x _ => .refl n x, .refl _⟩
  · cases ha.symm.trans ha'
    cases hb.symm.trans hb'
    exact ⟨hsame, hinputs⟩

/-! ## The decoder sees no difference -/

section Fold
variable {M α : Type} {set : M → UInt32 × UInt8 → Bytes → Except DecodeError M} {n : UInt32}
  {dec : Bytes → Except DecodeError α}

/-- The last payload of a singular field stays. -/
theorem applyFields_last (get : M → α)
    (hset : ∀ out m s out', set out (m, 2) s = .ok out' → Sets dec n m s (get out) (get out'))
    {fs : List (UInt32 × Bytes)} {out v : M} (h : applyFields set fs out = .ok v) :
    payloads n fs = [] ∧ get v = get out ∨ ∃ x, (payloads n fs).getLast? = some x ∧ dec x = .ok (get v) := by
  induction fs generalizing out with
  | nil =>
    cases h
    exact .inl ⟨rfl, rfl⟩
  | cons f fs ih =>
    obtain ⟨out', hout, h⟩ := applyFields_cons h
    have hstep := hset out f.1 f.2 out' hout
    unfold Sets at hstep
    rw [payloads_cons]
    by_cases hn : f.1 = n
    · rw [if_pos hn] at hstep ⊢
      right
      rcases ih h with ⟨hnil, hget⟩ | ⟨x, hx, hdec⟩
      · exact ⟨f.2, by rw [hnil]; rfl, hget ▸ hstep⟩
      · exact ⟨x, by rw [List.getLast?_cons, hx]; rfl, hdec⟩
    · rw [if_neg hn] at hstep ⊢
      rw [← hstep]
      exact ih h

theorem getLast?_of_forall₂ {β γ : Type} {R : β → γ → Prop} {xs : List β} {ys : List γ} (h : List.Forall₂ R xs ys)
    {x : β} (hx : xs.getLast? = some x) : ∃ y, ys.getLast? = some y ∧ R x y := by
  induction h generalizing x with
  | nil => cases hx
  | @cons a b as bs hab hrest ih =>
    rw [List.getLast?_cons, Option.some.injEq] at hx
    rw [List.getLast?_cons]
    cases hlast : as.getLast? with
    | none =>
      rw [List.getLast?_eq_none_iff.mp hlast] at hrest
      rw [hlast] at hx
      cases hx
      rw [List.forall₂_nil_left_iff.mp hrest]
      exact ⟨b, rfl, hab⟩
    | some x' =>
      obtain ⟨y, hy, hxy⟩ := ih hlast
      rw [hlast] at hx
      cases hx
      exact ⟨y, by rw [hy]; rfl, hxy⟩

/-- Payloads that agree one by one leave parts that agree. -/
theorem applyFields_same {R : Bytes → Bytes → Prop} {S : α → α → Prop} (get : M → α)
    (hset : ∀ out m s out', set out (m, 2) s = .ok out' → Sets dec n m s (get out) (get out'))
    (hR : ∀ x y a b, R x y → dec x = .ok a → dec y = .ok b → S a b)
    {fa fb : List (UInt32 × Bytes)} {out v w : M} (hv : applyFields set fa out = .ok v)
    (hw : applyFields set fb out = .ok w) (hout : S (get out) (get out))
    (h : List.Forall₂ R (payloads n fa) (payloads n fb)) : S (get v) (get w) := by
  rcases applyFields_last get hset hv with ⟨hnil, hget⟩ | ⟨x, hx, hdec⟩
  · rw [hnil] at h
    rcases applyFields_last get hset hw with ⟨-, hget'⟩ | ⟨y, hy, -⟩
    · rwa [hget, hget']
    · rw [List.forall₂_nil_left_iff.mp h] at hy
      cases hy
  · obtain ⟨y, hy, hxy⟩ := getLast?_of_forall₂ h hx
    rcases applyFields_last get hset hw with ⟨hnil, -⟩ | ⟨y', hy', hdec'⟩
    · rw [hnil] at hy
      cases hy
    · cases hy.symm.trans hy'
      exact hR x y _ _ hxy hdec hdec'

end Fold

theorem lossy_same (x y : Bytes) (a b : String) (h : x = y)
    (ha : (Except.ok (from_utf8_lossy x) : Except DecodeError String) = .ok a)
    (hb : (Except.ok (from_utf8_lossy y) : Except DecodeError String) = .ok b) : a = b := by
  subst h
  exact Except.ok.inj (ha.symm.trans hb)

theorem SameText.vname_eq {a b : Bytes} {v w : VName} (h : SameText a b) (ha : parse_vname a = .ok v)
    (hb : parse_vname b = .ok w) : v = w := by
  rcases h with rfl | ⟨fa, fb, hfa, hfb, hsame⟩
  · exact Except.ok.inj (ha.symm.trans hb)
  obtain ⟨fa', hfa', hv⟩ := fieldsOf_of_parse ha
  obtain ⟨fb', hfb', hw⟩ := fieldsOf_of_parse hb
  cases hfa.symm.trans hfa'
  cases hfb.symm.trans hfb'
  have h1 := applyFields_same VName.signature (fun _ _ _ _ h => (VName.set_texts h).1)
    lossy_same hv hw rfl (hsame 1 trivial)
  have h2 := applyFields_same VName.corpus (fun _ _ _ _ h => (VName.set_texts h).2.1)
    lossy_same hv hw rfl (hsame 2 trivial)
  have h3 := applyFields_same VName.root (fun _ _ _ _ h => (VName.set_texts h).2.2.1)
    lossy_same hv hw rfl (hsame 3 trivial)
  have h4 := applyFields_same VName.path (fun _ _ _ _ h => (VName.set_texts h).2.2.2.1) lossy_same hv hw rfl
    (hsame 4 trivial)
  have h5 := applyFields_same VName.language (fun _ _ _ _ h => (VName.set_texts h).2.2.2.2) lossy_same hv hw rfl
    (hsame 5 trivial)
  cases v
  cases w
  simp_all

theorem SameText.info_eq {a b : Bytes} {v w : FileInfo} (h : SameText a b) (ha : parse_file_info a = .ok v)
    (hb : parse_file_info b = .ok w) : v = w := by
  rcases h with rfl | ⟨fa, fb, hfa, hfb, hsame⟩
  · exact Except.ok.inj (ha.symm.trans hb)
  obtain ⟨fa', hfa', hv⟩ := fieldsOf_of_parse ha
  obtain ⟨fb', hfb', hw⟩ := fieldsOf_of_parse hb
  cases hfa.symm.trans hfa'
  cases hfb.symm.trans hfb'
  have h1 := applyFields_same FileInfo.path (fun _ _ _ _ h => (FileInfo.set_texts h).1)
    lossy_same hv hw rfl (hsame 1 trivial)
  have h2 := applyFields_same FileInfo.digest (fun _ _ _ _ h => (FileInfo.set_texts h).2) lossy_same hv hw rfl
    (hsame 2 trivial)
  cases v
  cases w
  simp_all

theorem SameFileInput.input_eq {a b : Bytes} {v w : FileInput} (h : SameFileInput a b)
    (ha : parse_file_input a = .ok v) (hb : parse_file_input b = .ok w) : v = w := by
  rcases h with rfl | ⟨fa, fb, hfa, hfb, hsame⟩
  · exact Except.ok.inj (ha.symm.trans hb)
  obtain ⟨fa', hfa', hv⟩ := fieldsOf_of_parse ha
  obtain ⟨fb', hfb', hw⟩ := fieldsOf_of_parse hb
  cases hfa.symm.trans hfa'
  cases hfb.symm.trans hfb'
  have h1 := applyFields_same FileInput.v_name (fun _ _ _ _ h => (FileInput.set_parts h).1)
    (fun x y _ _ hxy => SameText.vname_eq hxy) hv hw rfl (hsame 1 trivial)
  have h2 := applyFields_same FileInput.info (fun _ _ _ _ h => (FileInput.set_parts h).2)
    (fun x y _ _ hxy => SameText.info_eq hxy) hv hw rfl (hsame 2 trivial)
  cases v
  cases w
  simp_all

/-- Inputs that are the same up to order and duplicates decode to the same set. -/
theorem SameInputs.subset {xs ys : List Bytes} {is js : List FileInput}
    (h : ∀ x ∈ xs, ∃ y ∈ ys, SameFileInput x y)
    (hxs : List.Forall₂ (fun x i => parse_file_input x = .ok i) xs is)
    (hys : List.Forall₂ (fun y j => parse_file_input y = .ok j) ys js) : ∀ i ∈ is, i ∈ js := by
  intro i hi
  obtain ⟨x, hx, hxi⟩ := forall₂_of_mem hxs.flip hi
  obtain ⟨y, hy, hxy⟩ := h x hx
  obtain ⟨j, hj, hyj⟩ := forall₂_of_mem hys hy
  exact hxy.input_eq hxi hyj ▸ hj

/-- Equal up to order and duplicates of the required inputs. -/
structure SameInput (u v : CompilationUnit) : Prop where
  v_name : u.v_name = v.v_name
  argument : u.argument = v.argument
  source_file : u.source_file = v.source_file
  output_key : u.output_key = v.output_key
  working_directory : u.working_directory = v.working_directory
  entry_context : u.entry_context = v.entry_context
  required_input : ∀ ri, ri ∈ u.required_input ↔ ri ∈ v.required_input

theorem SameInput.refl (u : CompilationUnit) : SameInput u u := ⟨rfl, rfl, rfl, rfl, rfl, rfl, fun _ => .rfl⟩

/-- The raw pbunit, if it is copied. -/
def copied (c : ArchiveUnit) (rules : List InjectRule) : Option Bytes :=
  if transform rules c.cu.unit = c.cu.unit then c.raw_proto else none

section

variable {c d : ArchiveUnit} {rules rules' : List InjectRule}

end

end Scry2
