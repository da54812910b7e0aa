import Scry2.Signature

/-!
# Types that render alike

A type of C++ is rendered to its name with the qualifiers in front and the other operators behind. Where a
qualifier stood among the operators cannot be seen in the text, and nothing else is lost.
-/

open Scry2.Lib

namespace Scry2

/-! ## Trees -/

inductive DeclOp where
  | ptr
  | lvr
  | rvr
  deriving DecidableEq

def DeclOp.op : DeclOp → String
  | .ptr => "ptr"
  | .lvr => "lvr"
  | .rvr => "rvr"

def DeclOp.sign : DeclOp → List Char
  | .ptr => ['*']
  | .lvr => ['&']
  | .rvr => ['&', '&']

inductive Qual where
  | const
  | volatile
  deriving DecidableEq

def Qual.op : Qual → String
  | .const => "const"
  | .volatile => "volatile"

inductive TypeTree where
  | leaf (name : String)
  | decl (d : DeclOp) (t : TypeTree)
  | qual (q : Qual) (t : TypeTree)
  | carr (t : TypeTree)
  | fn (ret : TypeTree) (params : List TypeTree)

def isIdentChar (c : Char) : Bool := c.isAlphanum || c = '_'

/-- A plain identifier, or a number. -/
def IsIdent (name : String) : Prop := name ≠ "" ∧ ∀ c ∈ name.toList, isIdentChar c

namespace TypeTree

mutual

def depth : TypeTree → Nat
  | leaf _ => 0
  | decl _ t => t.depth + 1
  | qual _ t => t.depth + 1
  | carr t => t.depth + 1
  | fn ret params => max ret.depth (depthAll params) + 1

def depthAll : List TypeTree → Nat
  | [] => 0
  | p :: ps => max p.depth (depthAll ps)

end

end TypeTree

/-! ## Trees in a graph -/

section

variable {Tk : Type} (g : TypeGraph Tk)

/-- The node applies a builtin. -/
def Applies (tk : Tk) (op : String) (args : List Tk) : Prop :=
  g.node_kind tk = "tapp" ∧ ∃ head, g.params tk = head :: args ∧ g.node_kind head = "tbuiltin" ∧ g.builtin_op head = op

/-- The node has a name of its own: no application, or one that nothing is applied in. -/
def Names (tk : Tk) (name : String) : Prop :=
  if g.node_kind tk = "tapp" then g.params tk = [] ∧ (g.node_code tk).bind typename_from_marked_source = some name
  else (g.node_code tk).bind typename_from_marked_source = some name ∨
    (g.node_code tk).bind typename_from_marked_source = none ∧ g.builtin_op tk = name

mutual

/-- The graph has the tree below the node. -/
def Spells : TypeTree → Tk → Prop
  | .leaf name, tk => IsIdent name ∧ Names g tk name
  | .decl d t, tk => ∃ arg, Applies g tk d.op [arg] ∧ Spells t arg
  | .qual q t, tk => ∃ arg, Applies g tk q.op [arg] ∧ Spells t arg
  | .carr t, tk => ∃ arg, Applies g tk "carr" [arg] ∧ Spells t arg
  | .fn ret params, tk => ∃ arg args, Applies g tk "fn" (arg :: args) ∧ Spells ret arg ∧ SpellsAll params args

def SpellsAll : List TypeTree → List Tk → Prop
  | [], args => args = []
  | p :: ps, args => ∃ a as, args = a :: as ∧ Spells p a ∧ SpellsAll ps as

end

end

/-! ## The text of a tree -/

namespace TypeTree

mutual

def text : TypeTree → List Char
  | leaf name => name.toList
  | decl d (carr t) => t.text ++ (' ' :: '(' :: d.sign ++ [')', '[', ']'])
  | decl d t => t.text ++ ' ' :: d.sign
  | qual q t => q.op.toList ++ ' ' :: t.text
  | carr t => t.text ++ ['[', ']']
  | fn ret params => ret.text ++ '(' :: (argsText params ++ [')'])

/-- The parameters, with a comma and a space between them. -/
def argsText : List TypeTree → List Char
  | [] => []
  | p :: ps => p.text ++ moreText ps

def moreText : List TypeTree → List Char
  | [] => []
  | p :: ps => ',' :: ' ' :: (p.text ++ moreText ps)

end

theorem argsText_eq (ps : List TypeTree) :
    ", ".intercalate (ps.map fun p => String.ofList p.text) = String.ofList (argsText ps) := by
  cases ps with
  | nil => rfl
  | cons p ps =>
    rw [argsText]
    induction ps generalizing p with
    | nil => rw [List.map_singleton, String.intercalate_singleton, moreText, List.append_nil]
    | cons q ps ih =>
      have hrest := ih q
      rw [List.map_cons] at hrest
      rw [List.map_cons, List.map_cons, String.intercalate_cons_cons, hrest, moreText, ← String.toList_inj]
      simp

end TypeTree

/-! ## What the renderer makes of a tree -/

theorem rsplitAfter_eq {pat cs : List Char} (h : splitBefore pat.reverse cs.reverse = none) : rsplitAfter pat cs = cs := by
  rw [rsplitAfter, h, Option.getD_none, List.reverse_reverse]

theorem splitBefore_none {c : Char} {pat cs : List Char} (h : c ∉ cs) : splitBefore (c :: pat) cs = none := by
  induction cs with
  | nil => rfl
  | cons d cs ih =>
    have hne : c ≠ d := fun he => h (he ▸ List.mem_cons_self)
    rw [splitBefore, ih fun hm => h (List.mem_cons_of_mem _ hm)]
    simp [List.isPrefixOf, hne]

theorem short_name_ident {name : String} (h : IsIdent name) : short_name name = name := by
  have hnot : ∀ c, isIdentChar c = false → c ∉ name.toList.reverse := by
    intro c hc hm
    rw [List.mem_reverse] at hm
    exact absurd (h.2 c hm) (by rw [hc]; decide)
  have hcolon : rsplitAfter [':', ':'] name.toList = name.toList :=
    rsplitAfter_eq (splitBefore_none (hnot ':' (by decide)))
  have hdot : rsplitAfter ['.'] name.toList = name.toList := rsplitAfter_eq (splitBefore_none (hnot '.' (by decide)))
  rw [short_name, hcolon, hdot, String.ofList_toList]

section

variable {Tk : Type} {g : TypeGraph Tk}

theorem render_leaf {name : String} {tk : Tk} (h : Spells g (.leaf name) tk) (b : Nat) :
    render_type_rec g (b + 1) tk = some name := by
  obtain ⟨hname, hnode⟩ := h
  rw [render_type_rec]
  unfold Names at hnode
  by_cases hk : g.node_kind tk = "tapp"
  · rw [if_pos hk] at hnode ⊢
    rw [hnode.1]
    exact hnode.2
  · rw [if_neg hk] at hnode ⊢
    rcases hnode with hcode | ⟨hcode, hop⟩
    · rw [hcode]
      simp only
      split_ifs
      · rw [short_name_ident hname]
      · rfl
    · rw [hcode, hop]
      simp [hname.1]

/-- What a builtin makes of its rendered arguments, arrays and what leads to them apart. -/
theorem render_applies {tk : Tk} {op : String} {args : List Tk} (h : Applies g tk op args) (b : Nat)
    (hop : is_array_op op = false)
    (harray : ptr_ref_decl_sym op = none ∨ args.head?.bind (array_element_render g (render_type_rec g b)) = none) :
    render_type_rec g (b + 1) tk =
      some (render_builtin_app op (args.map fun a => (render_type_rec g b a).getD "?")) := by
  obtain ⟨hk, head, hparams, hhead, rfl⟩ := h
  rw [render_type_rec, if_pos hk, hparams]
  simp only [if_pos hhead, hop]
  rcases harray with harray | harray
  · rw [harray]
    rfl
  · rw [harray]
    cases ptr_ref_decl_sym (g.builtin_op head) <;> rfl

/-- The element of an array, and nothing for any other tree. -/
theorem array_element_carr {tk arg : Tk} (h : Applies g tk "carr" [arg]) (render : Tk → Option String) :
    array_element_render g render tk = render arg := by
  obtain ⟨hk, head, hparams, hhead, hop⟩ := h
  have harray : is_array_op "carr" = true := by decide
  unfold array_element_render
  rw [if_neg (not_not.mpr hk), hparams]
  simp [hhead, hop, harray]

theorem array_element_applies {tk : Tk} {op : String} {args : List Tk} (h : Applies g tk op args)
    (hop : is_array_op op = false) (render : Tk → Option String) : array_element_render g render tk = none := by
  obtain ⟨hk, head, hparams, hhead, rfl⟩ := h
  unfold array_element_render
  rw [if_neg (not_not.mpr hk), hparams]
  cases args with
  | nil => rfl
  | cons arg args => simp [hhead, hop]

def TypeTree.isArray : TypeTree → Bool
  | .carr _ => true
  | _ => false

theorem TypeTree.eq_carr {t : TypeTree} (ht : t.isArray = true) : ∃ e, t = .carr e := by
  cases t <;> first | exact ⟨_, rfl⟩ | cases ht

theorem array_element_other {t : TypeTree} (ht : t.isArray = false) {tk : Tk} (h : Spells g t tk)
    (render : Tk → Option String) : array_element_render g render tk = none := by
  cases t with
  | leaf name =>
    obtain ⟨-, hnode⟩ := h
    unfold array_element_render
    unfold Names at hnode
    by_cases hk : g.node_kind tk = "tapp"
    · rw [if_pos hk] at hnode
      rw [if_neg (not_not.mpr hk), hnode.1]
    · rw [if_pos hk]
  | decl d t =>
    obtain ⟨arg, happ, -⟩ := h
    exact array_element_applies happ (by cases d <;> decide) render
  | qual q t =>
    obtain ⟨arg, happ, -⟩ := h
    exact array_element_applies happ (by cases q <;> decide) render
  | carr t => cases ht
  | fn ret params =>
    obtain ⟨arg, args, happ, -, -⟩ := h
    exact array_element_applies happ (by decide) render

theorem TypeTree.text_decl {d : DeclOp} {t : TypeTree} (ht : t.isArray = false) :
    (TypeTree.decl d t).text = t.text ++ ' ' :: d.sign := by
  cases t <;> first | rfl | cases ht

theorem render_builtin_decl (d : DeclOp) (a0 : List Char) :
    render_builtin_app d.op [String.ofList a0] = String.ofList (a0 ++ ' ' :: d.sign) := by
  rw [← String.toList_inj]
  cases d <;> simp [render_builtin_app, DeclOp.op, DeclOp.sign]

theorem render_builtin_qual (q : Qual) (a0 : List Char) :
    render_builtin_app q.op [String.ofList a0] = String.ofList (q.op.toList ++ ' ' :: a0) := by
  rw [← String.toList_inj]
  cases q <;> simp [render_builtin_app, Qual.op]

theorem ptr_ref_decl_sym_op (d : DeclOp) : ptr_ref_decl_sym d.op = some (String.ofList d.sign) := by
  cases d <;> decide

theorem render_decl_array {tk arg elem : Tk} {d : DeclOp} (h : Applies g tk d.op [arg]) (ha : Applies g arg "carr" [elem])
    {b : Nat} {cs : List Char} (he : render_type_rec g b elem = some (String.ofList cs)) :
    render_type_rec g (b + 1) tk = some (String.ofList (cs ++ (' ' :: '(' :: d.sign ++ [')', '[', ']']))) := by
  have helem : array_element_render g (render_type_rec g b) arg = some (String.ofList cs) := by
    rw [array_element_carr ha, he]
  obtain ⟨hk, head, hparams, hhead, hop⟩ := h
  have harray : is_array_op d.op = false := by cases d <;> decide
  rw [render_type_rec, if_pos hk, hparams]
  simp only [if_pos hhead, hop, harray, List.head?_cons, Option.bind_some, helem, ptr_ref_decl_sym_op]
  simp [← String.toList_inj]

theorem render_carr {tk elem : Tk} (h : Applies g tk "carr" [elem]) {b : Nat} {cs : List Char}
    (he : render_type_rec g b elem = some (String.ofList cs)) :
    render_type_rec g (b + 1) tk = some (String.ofList (cs ++ ['[', ']'])) := by
  obtain ⟨hk, head, hparams, hhead, hop⟩ := h
  have harray : is_array_op "carr" = true := by decide
  rw [render_type_rec, if_pos hk, hparams]
  simp only [if_pos hhead, hop, harray, List.head?_cons, Option.bind_some, he]
  simp

theorem render_params {b : Nat} {ps : List TypeTree} {args : List Tk}
    (ih : ∀ t tk, Spells g t tk → t.depth < b → render_type_rec g b tk = some (String.ofList t.text))
    (h : SpellsAll g ps args) (hd : TypeTree.depthAll ps < b) :
    (args.map fun a => (render_type_rec g b a).getD "?") = ps.map fun p => String.ofList p.text := by
  induction ps generalizing args with
  | nil =>
    rw [SpellsAll] at h
    rw [h]
    rfl
  | cons p ps ihps =>
    obtain ⟨a, as, rfl, hp, hps⟩ := h
    rw [TypeTree.depthAll] at hd
    rw [List.map_cons, List.map_cons, ih p a hp (by omega), ihps hps (by omega)]
    rfl

/-- The renderer makes the text of the tree, within its depth. -/
theorem render_text {b : Nat} {t : TypeTree} {tk : Tk} (h : Spells g t tk) (hd : t.depth < b) :
    render_type_rec g b tk = some (String.ofList t.text) := by
  induction b generalizing t tk with
  | zero => exact absurd hd (Nat.not_lt_zero _)
  | succ b ih =>
    cases t with
    | leaf name => rw [render_leaf h, TypeTree.text, String.ofList_toList]
    | decl d t =>
      obtain ⟨arg, happ, ht⟩ := h
      rw [TypeTree.depth] at hd
      cases harr : t.isArray with
      | true =>
        obtain ⟨e, rfl⟩ := TypeTree.eq_carr harr
        obtain ⟨elem, hcarr, he⟩ := ht
        rw [TypeTree.depth] at hd
        rw [render_decl_array happ hcarr (ih he (by omega)), TypeTree.text]
      | false =>
        rw [render_applies happ b (by cases d <;> decide) (Or.inr (array_element_other harr ht _)), List.map_singleton,
          ih ht (by omega), TypeTree.text_decl harr, Option.getD_some, render_builtin_decl]
    | qual q t =>
      obtain ⟨arg, happ, ht⟩ := h
      rw [TypeTree.depth] at hd
      rw [render_applies happ b (by cases q <;> decide) (Or.inl (by cases q <;> decide)), List.map_singleton,
        ih ht (by omega), Option.getD_some, render_builtin_qual, TypeTree.text]
    | carr t =>
      obtain ⟨elem, happ, ht⟩ := h
      rw [TypeTree.depth] at hd
      rw [render_carr happ (ih ht (by omega)), TypeTree.text]
    | fn ret params =>
      obtain ⟨arg, args, happ, hret, hparams⟩ := h
      rw [TypeTree.depth] at hd
      rw [render_applies happ b (by decide) (Or.inl (by decide)), List.map_cons, ih hret (by omega),
        render_params (fun _ _ => ih) hparams (by omega), TypeTree.text]
      simp [render_builtin_app, TypeTree.argsText_eq, ← String.toList_inj]

/-- Within the limit on the depth the renderer makes the text of the tree. -/
theorem render_type_text {t : TypeTree} {tk : Tk} (h : Spells g t tk) (hd : t.depth ≤ 64) :
    render_type g tk = some (String.ofList t.text) :=
  render_text h (Nat.lt_succ_of_le hd)

end

/-! ## Spines

What can be read off a text: the qualifiers in front of each name in their order, the name, and what
follows it. An array directly under a pointer or a reference is one step with it.
-/

mutual

inductive Spine where
  | mk (quals : List Qual) (name : String) (steps : Steps)

inductive Steps where
  | done
  | decl (d : DeclOp) (rest : Steps)
  | declArr (d : DeclOp) (rest : Steps)
  | arr (rest : Steps)
  | call (params : Params) (rest : Steps)

inductive Params where
  | none
  | more (p : Spine) (rest : Params)

end

def qualText (quals : List Qual) : List Char := quals.flatMap fun q => q.op.toList ++ [' ']

mutual

def Spine.text : Spine → List Char
  | .mk quals name steps => qualText quals ++ (name.toList ++ steps.text)

def Steps.text : Steps → List Char
  | .done => []
  | .decl d rest => ' ' :: (d.sign ++ rest.text)
  | .declArr d rest => ' ' :: '(' :: (d.sign ++ ')' :: '[' :: ']' :: rest.text)
  | .arr rest => '[' :: ']' :: rest.text
  | .call params rest => '(' :: (params.text ++ ')' :: rest.text)

def Params.text : Params → List Char
  | .none => []
  | .more p rest => p.text ++ rest.moreText

def Params.moreText : Params → List Char
  | .none => []
  | .more p rest => ',' :: ' ' :: (p.text ++ rest.moreText)

end

mutual

/-- Every name is an identifier. -/
def Spine.Named : Spine → Prop
  | .mk _ name steps => IsIdent name ∧ steps.Named

def Steps.Named : Steps → Prop
  | .done => True
  | .decl _ rest => rest.Named
  | .declArr _ rest => rest.Named
  | .arr rest => rest.Named
  | .call params rest => params.Named ∧ rest.Named

def Params.Named : Params → Prop
  | .none => True
  | .more p rest => p.Named ∧ rest.Named

end

namespace TypeTree

mutual

/-- The spine of a tree below the qualifiers and before the steps. -/
def drawOut : TypeTree → List Qual → Steps → Spine
  | leaf name, quals, steps => .mk quals name steps
  | decl d (carr t), quals, steps => t.drawOut quals (.declArr d steps)
  | decl d t, quals, steps => t.drawOut quals (.decl d steps)
  | qual q t, quals, steps => t.drawOut (quals ++ [q]) steps
  | carr t, quals, steps => t.drawOut quals (.arr steps)
  | fn ret params, quals, steps => ret.drawOut quals (.call (drawAll params) steps)

def drawAll : List TypeTree → Params
  | [] => .none
  | p :: ps => .more (p.drawOut [] .done) (drawAll ps)

end

/-- The tree with the qualifiers of each spine drawn together. -/
def spine (t : TypeTree) : Spine := t.drawOut [] .done

theorem drawOut_decl {d : DeclOp} {t : TypeTree} (ht : t.isArray = false) (quals : List Qual) (steps : Steps) :
    (decl d t).drawOut quals steps = t.drawOut quals (.decl d steps) := by
  cases t <;> first | rfl | cases ht

theorem qualText_append (qs : List Qual) (q : Qual) : qualText (qs ++ [q]) = qualText qs ++ (q.op.toList ++ [' ']) := by
  simp [qualText]

mutual

/-- The text of a tree is that of its spine. -/
theorem drawOut_text (t : TypeTree) (quals : List Qual) (steps : Steps) :
    (t.drawOut quals steps).text = qualText quals ++ (t.text ++ steps.text) := by
  cases t with
  | leaf name => rw [drawOut, Spine.text, text]
  | decl d t =>
    cases harr : t.isArray with
    | true =>
      obtain ⟨e, rfl⟩ := TypeTree.eq_carr harr
      rw [drawOut, drawOut_text e, text, Steps.text]
      simp
    | false =>
      rw [drawOut_decl harr, drawOut_text t, text_decl harr, Steps.text]
      simp
  | qual q t =>
    rw [drawOut, drawOut_text t, text, qualText_append]
    simp
  | carr t =>
    rw [drawOut, drawOut_text t, text, Steps.text]
    simp
  | fn ret params =>
    rw [drawOut, drawOut_text ret, text, Steps.text, drawAll_text params]
    simp

theorem drawAll_text (ps : List TypeTree) : (drawAll ps).text = argsText ps := by
  cases ps with
  | nil => rfl
  | cons p ps =>
    rw [drawAll, Params.text, drawOut_text p, drawAll_moreText ps, argsText]
    simp [qualText, Steps.text]

theorem drawAll_moreText (ps : List TypeTree) : (drawAll ps).moreText = moreText ps := by
  cases ps with
  | nil => rfl
  | cons p ps =>
    rw [drawAll, Params.moreText, drawOut_text p, drawAll_moreText ps, moreText]
    simp [qualText, Steps.text]

end

theorem spine_text (t : TypeTree) : t.spine.text = t.text := by
  rw [spine, drawOut_text]
  simp [qualText, Steps.text]

end TypeTree

/-! ## Spines are read off their texts -/

/-- What stands behind a whole type: nothing, or the comma or the parenthesis that closes a parameter. -/
def Stop (r : List Char) : Prop := ∀ c ∈ r.head?, c = ',' ∨ c = ')'

/-- What stands behind a name: no further character of it, and no blank with a name behind it. -/
def AfterName (r : List Char) : Prop :=
  (∀ c ∈ r.head?, isIdentChar c = false) ∧ ∀ c rest, r = ' ' :: c :: rest → isIdentChar c = false

theorem ident_cut {cs cs' r r' : List Char} (hcs : ∀ c ∈ cs, isIdentChar c) (hcs' : ∀ c ∈ cs', isIdentChar c)
    (hr : ∀ c ∈ r.head?, isIdentChar c = false) (hr' : ∀ c ∈ r'.head?, isIdentChar c = false)
    (h : cs ++ r = cs' ++ r') : cs = cs' ∧ r = r' := by
  have hspan : ∀ (xs ys : List Char), (∀ c ∈ xs, isIdentChar c) → (∀ c ∈ ys.head?, isIdentChar c = false) →
      (xs ++ ys).takeWhile isIdentChar = xs := by
    intro xs ys hxs hys
    rw [List.takeWhile_append_of_pos hxs]
    cases ys with
    | nil => simp
    | cons y ys => simp [hys y rfl]
  have hcut : cs = cs' := by rw [← hspan cs r hcs hr, h, hspan cs' r' hcs' hr']
  subst hcut
  exact ⟨rfl, List.append_cancel_left h⟩

theorem Qual.op_ident (q : Qual) : ∀ c ∈ q.op.toList, isIdentChar c := by
  rw [← List.all_eq_true]
  cases q <;> decide

theorem Qual.op_inj {q q' : Qual} (h : q.op.toList = q'.op.toList) : q = q' := by
  cases q <;> cases q' <;> first | rfl | exact absurd h (by decide)

/-- The qualifiers and the name begin with a character of a name. -/
theorem front_head (qs : List Qual) {name : String} (hname : IsIdent name) (r : List Char) :
    ∃ c rest, qualText qs ++ (name.toList ++ r) = c :: rest ∧ isIdentChar c = true := by
  cases qs with
  | nil =>
    obtain ⟨c, rest, hcs⟩ := List.exists_cons_of_ne_nil (mt String.toList_eq_nil_iff.mp hname.1)
    exact ⟨c, rest ++ r, by simp [qualText, hcs], hname.2 c (by simp [hcs])⟩
  | cons q qs => cases q <;> exact ⟨_, _, rfl, by decide⟩

theorem blank_not_ident {r : List Char} : ∀ c ∈ (' ' :: r).head?, isIdentChar c = false := by
  simp only [List.head?_cons, Option.mem_def, Option.some.injEq, forall_eq']
  decide

theorem name_not_qual {name : String} {q : Qual} {r X : List Char} (hname : IsIdent name) (hr : AfterName r)
    (hX : ∃ c rest, X = c :: rest ∧ isIdentChar c = true) : name.toList ++ r ≠ q.op.toList ++ ' ' :: X := by
  intro h
  obtain ⟨-, rfl⟩ := ident_cut hname.2 q.op_ident hr.1 blank_not_ident h
  obtain ⟨c, rest, rfl, hc⟩ := hX
  rw [hr.2 c rest rfl] at hc
  cases hc

theorem qualText_cons (q : Qual) (qs : List Qual) (r : List Char) :
    qualText (q :: qs) ++ r = q.op.toList ++ ' ' :: (qualText qs ++ r) := by
  simp [qualText]

/-- The qualifiers, the name and what follows are read off. -/
theorem front_inj {qs qs' : List Qual} {name name' : String} {r r' : List Char} (hname : IsIdent name)
    (hname' : IsIdent name') (hr : AfterName r) (hr' : AfterName r')
    (h : qualText qs ++ (name.toList ++ r) = qualText qs' ++ (name'.toList ++ r')) :
    qs = qs' ∧ name = name' ∧ r = r' := by
  induction qs generalizing qs' with
  | nil =>
    cases qs' with
    | nil =>
      obtain ⟨hn, hrest⟩ := ident_cut hname.2 hname'.2 hr.1 hr'.1 h
      exact ⟨rfl, String.toList_inj.mp hn, hrest⟩
    | cons q' qs' =>
      rw [qualText_cons] at h
      exact absurd h (name_not_qual hname hr (front_head qs' hname' r'))
  | cons q qs ih =>
    cases qs' with
    | nil =>
      rw [qualText_cons] at h
      exact absurd h.symm (name_not_qual hname' hr' (front_head qs hname r))
    | cons q' qs' =>
      rw [qualText_cons, qualText_cons] at h
      obtain ⟨hop, hrest⟩ := ident_cut q.op_ident q'.op_ident blank_not_ident blank_not_ident h
      obtain ⟨rfl, hn, hr⟩ := ih (List.cons_inj_right ' ' |>.mp hrest)
      exact ⟨by rw [Qual.op_inj hop], hn, hr⟩

theorem DeclOp.sign_inj {d d' : DeclOp} {r r' : List Char} (hr : r.head? ≠ some '&') (hr' : r'.head? ≠ some '&')
    (h : d.sign ++ r = d'.sign ++ r') : d = d' ∧ r = r' := by
  cases d <;> cases d' <;> simp only [DeclOp.sign, List.cons_append, List.nil_append, List.cons.injEq, true_and] at h
  case ptr.ptr => exact ⟨rfl, h⟩
  case lvr.lvr => exact ⟨rfl, h⟩
  case rvr.rvr => exact ⟨rfl, h⟩
  case lvr.rvr => exact absurd (by rw [h]; rfl) hr
  case rvr.lvr => exact absurd (by rw [← h]; rfl) hr'
  all_goals exact absurd h.1 (by decide)

theorem Steps.head_ne_amp {r : List Char} (hr : Stop r) (steps : Steps) : (steps.text ++ r).head? ≠ some '&' := by
  cases steps with
  | done =>
    intro h
    rcases hr _ h with h | h <;> exact absurd h (by decide)
  | decl d rest => simp [Steps.text]
  | declArr d rest => simp [Steps.text]
  | arr rest => simp [Steps.text]
  | call params rest => simp [Steps.text]

theorem Steps.afterName {r : List Char} (hr : Stop r) (steps : Steps) : AfterName (steps.text ++ r) := by
  cases steps with
  | done =>
    constructor
    · intro c hc
      rcases hr c hc with rfl | rfl <;> decide
    · rintro c rest hcr
      rcases hr ' ' (by rw [show r = _ from hcr]; rfl) with h | h <;> exact absurd h (by decide)
  | decl d rest => cases d <;> constructor <;> simp [Steps.text, DeclOp.sign] <;> decide
  | declArr d rest => constructor <;> simp [Steps.text] <;> decide
  | arr rest => constructor <;> simp [Steps.text]; decide
  | call params rest => constructor <;> simp [Steps.text]; decide

/-- A closing parenthesis, a comma or nothing: what may stand behind a list of parameters' spines. -/
theorem stop_close (r : List Char) : Stop (')' :: r) := by
  intro c hc
  exact Or.inr (by simpa using hc.symm)

theorem stop_moreText (params : Params) (r : List Char) : Stop (params.moreText ++ ')' :: r) := by
  cases params with
  | none => exact stop_close r
  | more p rest =>
    intro c hc
    rw [Params.moreText] at hc
    exact Or.inl (by simpa using hc.symm)

theorem Spine.text_ne_close {s : Spine} (hs : s.Named) {r r' : List Char} : ')' :: r ≠ s.text ++ r' := by
  cases s with
  | mk quals name steps =>
    intro h
    obtain ⟨c, rest, hcs, hc⟩ := front_head quals hs.1 (steps.text ++ r')
    rw [Spine.text, List.append_assoc, List.append_assoc, hcs] at h
    rw [← (List.cons.inj h).1] at hc
    exact absurd hc (by decide)

/-- The kind of step that a text begins with. -/
def leadOf : List Char → Nat
  | ' ' :: '(' :: _ => 1
  | ' ' :: _ => 2
  | '[' :: _ => 3
  | '(' :: _ => 4
  | _ => 0

def Steps.lead : Steps → Nat
  | .done => 0
  | .declArr _ _ => 1
  | .decl _ _ => 2
  | .arr _ => 3
  | .call _ _ => 4

theorem leadOf_stop {r : List Char} (hr : Stop r) : leadOf r = 0 := by
  cases r with
  | nil => rfl
  | cons c r => rcases hr c rfl with rfl | rfl <;> rfl

theorem Steps.leadOf_text {r : List Char} (hr : Stop r) (steps : Steps) : leadOf (steps.text ++ r) = steps.lead := by
  cases steps with
  | done => exact leadOf_stop hr
  | decl d rest => cases d <;> rfl
  | declArr d rest => rfl
  | arr rest => rfl
  | call params rest => rfl

theorem Steps.lead_eq {s s' : Steps} {r r' : List Char} (hr : Stop r) (hr' : Stop r')
    (h : s.text ++ r = s'.text ++ r') : s.lead = s'.lead := by
  rw [← s.leadOf_text hr, h, s'.leadOf_text hr']

mutual

theorem Spine.text_inj {s s' : Spine} (hs : s.Named) (hs' : s'.Named) {r r' : List Char} (hr : Stop r) (hr' : Stop r')
    (h : s.text ++ r = s'.text ++ r') : s = s' ∧ r = r' := by
  cases s with
  | mk quals name steps =>
    cases s' with
    | mk quals' name' steps' =>
      rw [Spine.text, Spine.text, List.append_assoc, List.append_assoc, List.append_assoc, List.append_assoc] at h
      obtain ⟨rfl, rfl, hrest⟩ := front_inj hs.1 hs'.1 (steps.afterName hr) (steps'.afterName hr') h
      obtain ⟨rfl, hrr⟩ := Steps.text_inj hs.2 hs'.2 hr hr' hrest
      exact ⟨rfl, hrr⟩

theorem Steps.text_inj {s s' : Steps} (hs : s.Named) (hs' : s'.Named) {r r' : List Char} (hr : Stop r) (hr' : Stop r')
    (h : s.text ++ r = s'.text ++ r') : s = s' ∧ r = r' := by
  have hlead := Steps.lead_eq hr hr' h
  cases s with
  | done =>
    cases s' with
    | done => exact ⟨rfl, h⟩
    | _ => simp [Steps.lead] at hlead
  | decl d rest =>
    cases s' with
    | decl d' rest' =>
      simp only [Steps.text, List.cons_append, List.append_assoc, List.cons.injEq, true_and] at h
      obtain ⟨rfl, hrest⟩ := DeclOp.sign_inj (rest.head_ne_amp hr) (rest'.head_ne_amp hr') h
      rw [Steps.Named] at hs hs'
      obtain ⟨rfl, hrr⟩ := Steps.text_inj hs hs' hr hr' hrest
      exact ⟨rfl, hrr⟩
    | _ => simp [Steps.lead] at hlead
  | declArr d rest =>
    cases s' with
    | declArr d' rest' =>
      simp only [Steps.text, List.cons_append, List.append_assoc, List.cons.injEq, true_and] at h
      obtain ⟨rfl, hrest⟩ := DeclOp.sign_inj (by simp) (by simp) h
      simp only [List.cons.injEq, true_and] at hrest
      rw [Steps.Named] at hs hs'
      obtain ⟨rfl, hrr⟩ := Steps.text_inj hs hs' hr hr' hrest
      exact ⟨rfl, hrr⟩
    | _ => simp [Steps.lead] at hlead
  | arr rest =>
    cases s' with
    | arr rest' =>
      simp only [Steps.text, List.cons_append, List.cons.injEq, true_and] at h
      rw [Steps.Named] at hs hs'
      obtain ⟨rfl, hrr⟩ := Steps.text_inj hs hs' hr hr' h
      exact ⟨rfl, hrr⟩
    | _ => simp [Steps.lead] at hlead
  | call params rest =>
    cases s' with
    | call params' rest' =>
      simp only [Steps.text, List.cons_append, List.append_assoc, List.cons.injEq, true_and] at h
      obtain ⟨rfl, hrest⟩ := Params.text_inj hs.1 hs'.1 h
      obtain ⟨rfl, hrr⟩ := Steps.text_inj hs.2 hs'.2 hr hr' hrest
      exact ⟨rfl, hrr⟩
    | _ => simp [Steps.lead] at hlead

theorem Params.text_inj {s s' : Params} (hs : s.Named) (hs' : s'.Named) {r r' : List Char}
    (h : s.text ++ ')' :: r = s'.text ++ ')' :: r') : s = s' ∧ r = r' := by
  cases s with
  | none =>
    cases s' with
    | none => exact ⟨rfl, by simpa [Params.text] using h⟩
    | more p' rest' =>
      rw [Params.text, Params.text, List.append_assoc] at h
      exact absurd h (Spine.text_ne_close hs'.1)
  | more p rest =>
    cases s' with
    | none =>
      rw [Params.text, Params.text, List.append_assoc] at h
      exact absurd h.symm (Spine.text_ne_close hs.1)
    | more p' rest' =>
      rw [Params.text, Params.text, List.append_assoc, List.append_assoc] at h
      obtain ⟨rfl, hrest⟩ := Spine.text_inj hs.1 hs'.1 (stop_moreText rest r) (stop_moreText rest' r') h
      obtain ⟨rfl, hrr⟩ := Params.moreText_inj hs.2 hs'.2 hrest
      exact ⟨rfl, hrr⟩

theorem Params.moreText_inj {s s' : Params} (hs : s.Named) (hs' : s'.Named) {r r' : List Char}
    (h : s.moreText ++ ')' :: r = s'.moreText ++ ')' :: r') : s = s' ∧ r = r' := by
  cases s with
  | none =>
    cases s' with
    | none => exact ⟨rfl, by simpa [Params.moreText] using h⟩
    | more p' rest' => simp [Params.moreText] at h
  | more p rest =>
    cases s' with
    | none => simp [Params.moreText] at h
    | more p' rest' =>
      simp only [Params.moreText, List.cons_append, List.append_assoc, List.cons.injEq, true_and] at h
      obtain ⟨rfl, hrest⟩ := Spine.text_inj hs.1 hs'.1 (stop_moreText rest r) (stop_moreText rest' r') h
      obtain ⟨rfl, hrr⟩ := Params.moreText_inj hs.2 hs'.2 hrest
      exact ⟨rfl, hrr⟩

end

/-! ## What the texts tell apart -/

mutual

theorem TypeTree.drawOut_named {Tk : Type} {g : TypeGraph Tk} (t : TypeTree) {tk : Tk} (h : Spells g t tk)
    (quals : List Qual) {steps : Steps} (hs : steps.Named) : (t.drawOut quals steps).Named := by
  cases t with
  | leaf name => exact ⟨h.1, hs⟩
  | decl d t =>
    obtain ⟨arg, -, ht⟩ := h
    cases harr : t.isArray with
    | true =>
      obtain ⟨e, rfl⟩ := TypeTree.eq_carr harr
      obtain ⟨elem, -, he⟩ := ht
      exact drawOut_named e he quals hs
    | false =>
      rw [drawOut_decl harr]
      exact drawOut_named t ht quals hs
  | qual q t =>
    obtain ⟨arg, -, ht⟩ := h
    exact drawOut_named t ht _ hs
  | carr t =>
    obtain ⟨arg, -, ht⟩ := h
    exact drawOut_named t ht quals hs
  | fn ret params =>
    obtain ⟨arg, args, -, hret, hparams⟩ := h
    exact drawOut_named ret hret quals ⟨drawAll_named params hparams, hs⟩

theorem TypeTree.drawAll_named {Tk : Type} {g : TypeGraph Tk} (ps : List TypeTree) {args : List Tk}
    (h : SpellsAll g ps args) : (drawAll ps).Named := by
  cases ps with
  | nil => trivial
  | cons p ps =>
    obtain ⟨a, as, -, hp, hps⟩ := h
    exact ⟨drawOut_named p hp [] trivial, drawAll_named ps hps⟩

end

theorem text_eq_iff {Tk Tk' : Type} {g : TypeGraph Tk} {g' : TypeGraph Tk'} {t u : TypeTree} {tk : Tk} {tk' : Tk'}
    (ht : Spells g t tk) (hu : Spells g' u tk') : t.text = u.text ↔ t.spine = u.spine := by
  constructor
  · intro h
    rw [← t.spine_text, ← u.spine_text] at h
    have hnil : Stop [] := fun c hc => by cases hc
    have hdone : Steps.done.Named := trivial
    exact (Spine.text_inj (t.drawOut_named ht [] hdone) (u.drawOut_named hu [] hdone) hnil hnil
      (by rw [List.append_nil, List.append_nil]; exact h)).1
  · intro h
    rw [← t.spine_text, ← u.spine_text, h]

/-! ## Qualifiers at the names -/

mutual

def Spine.tree : Spine → TypeTree
  | .mk quals name steps => steps.wrap (quals.foldr .qual (.leaf name))

def Steps.wrap : Steps → TypeTree → TypeTree
  | .done, t => t
  | .decl d rest, t => rest.wrap (.decl d t)
  | .declArr d rest, t => rest.wrap (.decl d (.carr t))
  | .arr rest, t => rest.wrap (.carr t)
  | .call params rest, t => rest.wrap (.fn t params.trees)

def Params.trees : Params → List TypeTree
  | .none => []
  | .more p rest => p.tree :: rest.trees

end

namespace TypeTree

/-- A name behind its qualifiers. -/
def IsQualified : TypeTree → Prop
  | leaf _ => True
  | qual _ t => t.IsQualified
  | _ => False

mutual

/-- Every qualifier stands at a name. -/
def QualsAtNames : TypeTree → Prop
  | leaf _ => True
  | decl _ t => t.QualsAtNames
  | qual _ t => t.IsQualified
  | carr t => t.QualsAtNames
  | fn ret params => ret.QualsAtNames ∧ AllQualsAtNames params

def AllQualsAtNames : List TypeTree → Prop
  | [] => True
  | p :: ps => p.QualsAtNames ∧ AllQualsAtNames ps

end

theorem tree_isQualified {t : TypeTree} (h : t.IsQualified) (quals : List Qual) (steps : Steps) :
    (t.drawOut quals steps).tree = steps.wrap (quals.foldr .qual t) := by
  cases t with
  | leaf name => rw [drawOut, Spine.tree]
  | qual q t =>
    rw [IsQualified] at h
    rw [drawOut, tree_isQualified h, List.foldr_append, List.foldr_cons, List.foldr_nil]
  | decl d t => exact h.elim
  | carr t => exact h.elim
  | fn ret params => exact h.elim

mutual

theorem tree_drawOut {t : TypeTree} (h : t.QualsAtNames) (steps : Steps) : (t.drawOut [] steps).tree = steps.wrap t := by
  cases t with
  | leaf name => rw [drawOut, Spine.tree, List.foldr_nil]
  | decl d t =>
    rw [QualsAtNames] at h
    cases harr : t.isArray with
    | true =>
      obtain ⟨e, rfl⟩ := TypeTree.eq_carr harr
      rw [QualsAtNames] at h
      rw [drawOut, tree_drawOut h, Steps.wrap]
    | false => rw [drawOut_decl harr, tree_drawOut h, Steps.wrap]
  | qual q t =>
    have hq : (qual q t).IsQualified := h
    rw [tree_isQualified hq, List.foldr_nil]
  | carr t =>
    rw [QualsAtNames] at h
    rw [drawOut, tree_drawOut h, Steps.wrap]
  | fn ret params =>
    rw [QualsAtNames] at h
    rw [drawOut, tree_drawOut h.1, Steps.wrap, trees_drawAll h.2]

theorem trees_drawAll {ps : List TypeTree} (h : AllQualsAtNames ps) : (drawAll ps).trees = ps := by
  cases ps with
  | nil => rfl
  | cons p ps =>
    rw [AllQualsAtNames] at h
    rw [drawAll, Params.trees, tree_drawOut h.1, Steps.wrap, trees_drawAll h.2]

end

/-- Trees with every qualifier at a name are told apart by their spines, so by their texts. -/
theorem spine_inj {t u : TypeTree} (ht : t.QualsAtNames) (hu : u.QualsAtNames) (h : t.spine = u.spine) : t = u := by
  have htree := congrArg Spine.tree h
  rw [spine, spine, tree_drawOut ht, tree_drawOut hu, Steps.wrap, Steps.wrap] at htree
  exact htree

end TypeTree

/-! ## Which types render apart -/

/-- Two types render alike exactly if their spines agree: the order of a qualifier and the other operators is
all that is lost. -/
theorem types_render_apart {Tk Tk' : Type} {g : TypeGraph Tk} {g' : TypeGraph Tk'} {t u : TypeTree} {tk : Tk}
    {tk' : Tk'} (ht : Spells g t tk) (hu : Spells g' u tk') (hdt : t.depth ≤ 64) (hdu : u.depth ≤ 64) :
    (render_type g tk = render_type g' tk' → t = u) ↔ (t.spine = u.spine → t = u) := by
  rw [render_type_text ht hdt, render_type_text hu hdu, Option.some_inj, String.ofList_inj, text_eq_iff ht hu]

/-! A graph with `int`, `const int`, a pointer to it, and a `const` pointer to an `int`. -/

def constSide : TypeSide where
  kind := .ofList [("int", "tbuiltin"), ("const", "tbuiltin"), ("ptr", "tbuiltin"), ("const int", "tapp"),
    ("pointer to const", "tapp"), ("pointer", "tapp"), ("const pointer", "tapp")]
  params := .ofList [("const int", twoParams "const" "int"), ("pointer to const", twoParams "ptr" "const int"),
    ("pointer", twoParams "ptr" "int"), ("const pointer", twoParams "const" "pointer")]
  builtin_op := .ofList [("int", "int"), ("const", "const"), ("ptr", "ptr")]

theorem constSide_int : Spells (CuTypeGraph constSide) (.leaf "int") "int" :=
  ⟨⟨by decide, by rw [← List.all_eq_true]; decide⟩, by
    unfold Names
    rw [if_neg (by decide +kernel)]
    exact Or.inr ⟨by decide +kernel, by decide +kernel⟩⟩

theorem constSide_pointer_to_const :
    Spells (CuTypeGraph constSide) (.decl .ptr (.qual .const (.leaf "int"))) "pointer to const" :=
  ⟨"const int", ⟨by decide +kernel, "ptr", by decide +kernel, by decide +kernel, by decide +kernel⟩,
    "int", ⟨by decide +kernel, "const", by decide +kernel, by decide +kernel, by decide +kernel⟩, constSide_int⟩

theorem constSide_const_pointer :
    Spells (CuTypeGraph constSide) (.qual .const (.decl .ptr (.leaf "int"))) "const pointer" :=
  ⟨"pointer", ⟨by decide +kernel, "const", by decide +kernel, by decide +kernel, by decide +kernel⟩,
    "int", ⟨by decide +kernel, "ptr", by decide +kernel, by decide +kernel, by decide +kernel⟩, constSide_int⟩

theorem types_render_apart_int_pointer :
    ∃ s, render_type (CuTypeGraph constSide) "pointer to const" = some s ∧
      render_type (CuTypeGraph constSide) "int" ≠ some s := by
  have happart := (types_render_apart constSide_pointer_to_const constSide_int (by decide) (by decide)).mpr
    (fun h => by simp [TypeTree.spine, TypeTree.drawOut] at h)
  refine ⟨"const int *", by decide +kernel, fun h => ?_⟩
  have heq : render_type (CuTypeGraph constSide) "pointer to const" = some "const int *" := by decide +kernel
  cases happart (heq.trans h.symm)

theorem const_pointer_collides : ¬ ∀ (Tk : Type) (g : TypeGraph Tk) (t u : TypeTree) (tk tk' : Tk),
    Spells g t tk → Spells g u tk' → t.depth ≤ 64 → u.depth ≤ 64 → render_type g tk = render_type g tk' → t = u := by
  intro h
  have heq := h String (CuTypeGraph constSide) _ _ _ _ constSide_pointer_to_const constSide_const_pointer (by decide)
    (by decide) (by decide +kernel)
  cases heq

end Scry2
