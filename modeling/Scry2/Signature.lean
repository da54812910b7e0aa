import Scry2.TypeRender
import Scry2.NameParts

/-!
# The return type of a signature

`render_signature` cuts the rendered function type at its first parenthesis, which need not be the one of the
parameter list.
-/

open Scry2.Lib
open Std (ExtTreeMap)

namespace Scry2

/-! ## Trees of types -/

section

variable {Tk : Type} {g : TypeGraph Tk}

/-- The node is the root of a tree of this depth. -/
def DepthLe (g : TypeGraph Tk) : Nat → Tk → Prop
  | 0, tk => g.node_kind tk ≠ "tapp"
  | n + 1, tk => g.node_kind tk = "tapp" → ∀ p ∈ g.params tk, DepthLe g n p

instance decidableDepthLe (g : TypeGraph Tk) : (n : Nat) → (tk : Tk) → Decidable (DepthLe g n tk)
  | 0, tk => inferInstanceAs (Decidable (g.node_kind tk ≠ "tapp"))
  | n + 1, tk =>
    have := decidableDepthLe g n
    inferInstanceAs (Decidable (g.node_kind tk = "tapp" → ∀ p ∈ g.params tk, DepthLe g n p))

theorem DepthLe.succ {n : Nat} {tk : Tk} (h : DepthLe g n tk) : DepthLe g (n + 1) tk := by
  induction n generalizing tk with
  | zero => exact fun hk => absurd hk h
  | succ n ih => exact fun hk p hp => ih (h hk p hp)

/-- Above the depth of the tree the budget does not matter. -/
theorem render_type_rec_budget {n b b' : Nat} {tk : Tk} (h : DepthLe g n tk) (hb : n < b) (hb' : n < b') :
    render_type_rec g b tk = render_type_rec g b' tk := by
  induction n generalizing tk b b' with
  | zero =>
    obtain ⟨b, rfl⟩ : ∃ k, b = k + 1 := ⟨b - 1, by omega⟩
    obtain ⟨b', rfl⟩ : ∃ k, b' = k + 1 := ⟨b' - 1, by omega⟩
    rw [render_type_rec, render_type_rec, if_neg h, if_neg h]
  | succ n ih =>
    obtain ⟨b, rfl⟩ : ∃ k, b = k + 1 := ⟨b - 1, by omega⟩
    obtain ⟨b', rfl⟩ : ∃ k, b' = k + 1 := ⟨b' - 1, by omega⟩
    rw [render_type_rec, render_type_rec]
    by_cases hk : g.node_kind tk = "tapp"
    · have hkids : ∀ p ∈ g.params tk, render_type_rec g b p = render_type_rec g b' p := fun p hp =>
        ih (h hk p hp) (by omega) (by omega)
      -- The element of an array is two levels down.
      have helem : ∀ p ∈ g.params tk,
          array_element_render g (render_type_rec g b) p = array_element_render g (render_type_rec g b') p := by
        intro p hp
        unfold array_element_render
        split_ifs with hpk
        · rfl
        · split
          · rename_i head elem rest hparams
            split_ifs
            · rfl
            · have hdeep := (h hk p hp).succ (by simpa using hpk) elem (by rw [hparams]; simp)
              exact ih hdeep (by omega) (by omega)
          · rfl
      rw [if_pos hk, if_pos hk]
      split
      · rfl
      · rename_i head rest hparams
        rw [hparams] at hkids helem
        have hargs : (rest.map fun a => (render_type_rec g b a).getD "?") =
            rest.map fun a => (render_type_rec g b' a).getD "?" :=
          List.map_congr_left fun a ha => by rw [hkids a (List.mem_cons_of_mem _ ha)]
        have hhead : rest.head?.bind (render_type_rec g b) = rest.head?.bind (render_type_rec g b') := by
          cases rest with
          | nil => rfl
          | cons a rest => exact hkids a (by simp)
        have harray : rest.head?.bind (array_element_render g (render_type_rec g b)) =
            rest.head?.bind (array_element_render g (render_type_rec g b')) := by
          cases rest with
          | nil => rfl
          | cons a rest => exact helem a (by simp)
        simp only [hargs, hhead, harray, hkids head List.mem_cons_self]
    · rw [if_neg hk, if_neg hk]

theorem render_fn {tk head ret : Tk} {rest : List Tk} (hk : g.node_kind tk = "tapp")
    (hparams : g.params tk = head :: ret :: rest) (hhead : g.node_kind head = "tbuiltin")
    (hop : g.builtin_op head = "fn") (hdeep : DepthLe g 60 tk) {r : String} (hr : render_type g ret = some r) :
    ∃ args : String, render_type g tk = some (r ++ "(" ++ args ++ ")") := by
  have hret : render_type_rec g TYPE_RENDER_MAX_DEPTH ret = some r := by
    rw [← hr]
    exact render_type_rec_budget (hdeep hk ret (by rw [hparams]; simp)) (by decide) (by decide)
  refine ⟨", ".intercalate (rest.map fun a => (render_type_rec g TYPE_RENDER_MAX_DEPTH a).getD "?"), ?_⟩
  rw [render_type, render_type_rec, if_pos hk, hparams]
  simp only [if_pos hhead, hop, List.map_cons, hret]
  rfl

end

/-! ## The cut -/

/-- What `render_signature` takes for the return type. -/
def cutReturn (full : String) : String := String.ofList (trimEnd (full.toList.takeWhile (· ≠ '(')))

theorem takeWhile_cut (r rest : List Char) : (r ++ '(' :: rest).takeWhile (· ≠ '(') = r.takeWhile (· ≠ '(') := by
  induction r with
  | nil => rfl
  | cons c r ih =>
    rw [List.cons_append, List.takeWhile_cons, List.takeWhile_cons, ih]

theorem cutReturn_fn (r args : String) : cutReturn (r ++ "(" ++ args ++ ")") = cutReturn r := by
  have htext : (r ++ "(" ++ args ++ ")").toList = r.toList ++ '(' :: (args.toList ++ [')']) := by simp
  rw [cutReturn, htext, takeWhile_cut, cutReturn]

/-- The cut keeps a text that has no parenthesis and no whitespace at its end. -/
theorem cutReturn_eq_iff (r : String) : cutReturn r = r ↔ '(' ∉ r.toList ∧ trimEnd r.toList = r.toList := by
  have hcut : cutReturn r = r ↔ trimEnd (r.toList.takeWhile (· ≠ '(')) = r.toList := by
    rw [cutReturn, ← String.toList_inj, String.toList_ofList]
  have hfront : ∀ cs : List Char, trimEnd cs <+: cs := fun cs => List.rdropWhile_prefix is_whitespace cs
  rw [hcut]
  constructor
  · intro h
    -- Neither step can have taken anything away.
    have hle : r.toList.length ≤ (r.toList.takeWhile (· ≠ '(')).length := by
      have hlen := (hfront (r.toList.takeWhile (· ≠ '('))).length_le
      rwa [h] at hlen
    have htake : r.toList.takeWhile (· ≠ '(') = r.toList := (List.takeWhile_prefix _).eq_of_length_le hle
    rw [htake] at h
    refine ⟨fun hm => ?_, h⟩
    have hkept := List.takeWhile_eq_self_iff.mp htake _ hm
    simp at hkept
  · rintro ⟨hnone, htrim⟩
    have htake : r.toList.takeWhile (· ≠ '(') = r.toList :=
      List.takeWhile_eq_self_iff.mpr fun c hc => decide_eq_true fun h => hnone (h ▸ hc)
    rw [htake, htrim]

/-! ## The signature -/

/-- The short name of a function, empty where it has none. -/
def shortName (side : TypeSide) (fn_key : String) : String :=
  ((side.code[fn_key]?.bind parse_marked_source_fqn).map short_name).getD ""

/-- The return type, a space and the name, or the return type alone where there is no name. -/
def signatureHead (r name : String) : String := if name = "" then r else r ++ " " ++ name

/-- The parameter list in parentheses. -/
def parameterList (side : TypeSide) (fn_key : String) : String :=
  "(" ++ ", ".intercalate (((CuTypeGraph side).params fn_key).map fun p => (renderParam side p).1) ++ ")"

/-- A signature is the cut return type with name and parameters, and the name alone where nothing is left of the
type. -/
theorem render_signature_cut {side : TypeSide} {fn_key tk full s : String} (htyped : side.typed_of[fn_key]? = some tk)
    (hfull : render_type (CuTypeGraph side) tk = some full) (hs : render_signature side fn_key = some s) :
    s = (if cutReturn full = "" then shortName side fn_key
      else signatureHead (cutReturn full) (shortName side fn_key)) ++ parameterList side fn_key := by
  have hret : ((side.typed_of[fn_key]?.bind (render_type (CuTypeGraph side))).map fun full =>
      String.ofList (trimEnd (full.toList.takeWhile (· ≠ '(')))).filter (· ≠ "") =
        if cutReturn full = "" then none else some (cutReturn full) := by
    rw [htyped, Option.bind_some, hfull, Option.map_some]
    change (some (cutReturn full)).filter (· ≠ "") = _
    by_cases hcut : cutReturn full = "" <;> simp [Option.filter, hcut]
  unfold render_signature at hs
  rw [hret] at hs
  unfold shortName parameterList signatureHead
  generalize (side.code[fn_key]?.bind parse_marked_source_fqn).map short_name = fn_name at hs ⊢
  generalize cutReturn full = c at hs ⊢
  generalize (CuTypeGraph side).params fn_key = params at hs ⊢
  cases params with
  | nil =>
    by_cases hc : c = ""
    · simp [hc] at hs
    · cases fn_name with
      | none => simp [hc] at hs
      | some name =>
        by_cases hname : name = ""
        · simp [hc, hname] at hs
        · simp only [if_neg hc, ne_eq, hname, not_false_eq_true, if_true, Option.some.injEq] at hs
          rw [← hs, if_neg hc, Option.getD_some, if_neg hname]
          rfl
  | cons p ps =>
    have hparts : (List.map (renderParam side) (p :: ps)).map Prod.fst =
        (p :: ps).map fun p => (renderParam side p).1 := List.map_map
    simp only [hparts] at hs
    have hassoc : ∀ head args : String, head ++ "(" ++ args ++ ")" = head ++ ("(" ++ args ++ ")") := by
      intro head args
      rw [String.append_assoc, String.append_assoc, String.append_assoc]
    split_ifs at hs with hnamed hc
    · rw [← Option.some.inj hs, if_pos hc, hassoc]
    · rw [← Option.some.inj hs, if_pos hc, hassoc]
    · rename_i hname
      rw [← Option.some.inj hs, if_neg hc, if_pos hname, hassoc]
    · rename_i hname
      rw [← Option.some.inj hs, if_neg hc, if_neg hname, hassoc]

/-- The signature states the whole return type exactly if that has no parenthesis in it. -/
theorem signature_states_return {side : TypeSide} {fn_key tk head ret : String} {rest : List String}
    (htyped : side.typed_of[fn_key]? = some tk) (hk : (CuTypeGraph side).node_kind tk = "tapp")
    (hparams : (CuTypeGraph side).params tk = head :: ret :: rest)
    (hhead : (CuTypeGraph side).node_kind head = "tbuiltin") (hop : (CuTypeGraph side).builtin_op head = "fn")
    (hdeep : DepthLe (CuTypeGraph side) 60 tk) {r : String} (hr : render_type (CuTypeGraph side) ret = some r)
    (hne : r ≠ "") {s : String} (hs : render_signature side fn_key = some s) :
    s = signatureHead r (shortName side fn_key) ++ parameterList side fn_key ↔
      '(' ∉ r.toList ∧ trimEnd r.toList = r.toList := by
  obtain ⟨args, hfull⟩ := render_fn hk hparams hhead hop hdeep hr
  rw [render_signature_cut htyped hfull hs, cutReturn_fn, ← cutReturn_eq_iff, String.append_left_inj]
  generalize shortName side fn_key = name
  unfold signatureHead
  by_cases hcut : cutReturn r = ""
  · rw [if_pos hcut, hcut]
    refine iff_of_false (fun h => ?_) fun h => hne h.symm
    split_ifs at h with hname
    · exact hne (h ▸ hname)
    · have hlen := congrArg len h
      rw [len_append, len_append] at hlen
      have hpos := (len_pos_iff r).mpr hne
      omega
  · rw [if_neg hcut]
    split_ifs
    · exact Iff.rfl
    · rw [String.append_left_inj, String.append_left_inj]

/-! A function that returns an `int`, and one that returns a pointer to an array of them. -/

/-- `param.0` and `param.1`. -/
def twoParams (head arg : String) : ExtTreeMap UInt32 String := (∅ : ExtTreeMap UInt32 String).insert 0 head |>.insert 1 arg

/-- The function `f` has no parameters, and `ret` is the node of its return type. -/
def functionSide (ret : String) : TypeSide where
  edges := [("f", "t")]
  kind := .ofList [("t", "tapp"), ("fn", "tbuiltin"), ("int", "tbuiltin"), ("ptr", "tbuiltin"), ("carr", "tbuiltin"),
    ("array", "tapp"), ("pointer", "tapp")]
  code := .ofList [("f", (MarkedSource.node MS_IDENTIFIER "f" "" "" false []).build)]
  params := .ofList [("t", twoParams "fn" ret), ("array", twoParams "carr" "int"),
    ("pointer", twoParams "ptr" "array")]
  builtin_op := .ofList [("fn", "fn"), ("int", "int"), ("ptr", "ptr"), ("carr", "carr")]

theorem signature_states_return_int :
    "int f()" = signatureHead "int" (shortName (functionSide "int") "f") ++ parameterList (functionSide "int") "f" := by
  have htyped : (functionSide "int").typed_of["f"]? = some "t" := by decide +kernel
  have hparams : (CuTypeGraph (functionSide "int")).params "t" = "fn" :: "int" :: [] := by decide +kernel
  have hret : render_type (CuTypeGraph (functionSide "int")) "int" = some "int" := by decide +kernel
  have hs : render_signature (functionSide "int") "f" = some "int f()" := by decide +kernel
  exact (signature_states_return htyped (by decide +kernel) hparams (by decide +kernel) (by decide +kernel)
    (by decide +kernel) hret (by decide) hs).mpr (by decide)

theorem array_return_cut : ¬ ∀ (side : TypeSide) (fn_key tk head ret : String) (rest : List String) (r s : String),
    side.typed_of[fn_key]? = some tk → (CuTypeGraph side).node_kind tk = "tapp" →
    (CuTypeGraph side).params tk = head :: ret :: rest → (CuTypeGraph side).node_kind head = "tbuiltin" →
    (CuTypeGraph side).builtin_op head = "fn" → DepthLe (CuTypeGraph side) 60 tk →
    render_type (CuTypeGraph side) ret = some r → r ≠ "" → render_signature side fn_key = some s →
    s = signatureHead r (shortName side fn_key) ++ parameterList side fn_key := by
  intro h
  have hcut := h (functionSide "pointer") "f" "t" "fn" "pointer" [] "int (*)[]" "int f()" (by decide +kernel)
    (by decide +kernel) (by decide +kernel) (by decide +kernel) (by decide +kernel) (by decide +kernel)
    (by decide +kernel) (by decide) (by decide +kernel)
  exact absurd hcut (by decide +kernel)

end Scry2
