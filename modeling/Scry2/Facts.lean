import Scry2.Builder
import Mathlib.Algebra.Group.Defs
import Mathlib.Algebra.BigOperators.Group.List.Basic

/-!
# What an index says

`Facts` is the content of an index without its layout: sets of edges and maps from keys to what is
known about them. Merging two indexes is the product of a monoid. It is not commutative: the kind,
the language and the path seen first stay.
-/

open Scry2.Lib

namespace Scry2

/-! ## One string per symbol -/

/-- `pick` of `merge_typed_by_sym`: empty loses, then the smaller one wins. -/
def pickText (x y : String) : String :=
  if y = "" ∧ x ≠ "" then x
  else if x = "" ∧ y ≠ "" then y
  else if as_bytes x ≤ as_bytes y then x else y

/-- Non-empty first, then byte order reversed. -/
def textRank (s : String) : Bool ×ₗ Bytesᵒᵈ := toLex (decide (s ≠ ""), OrderDual.toDual (as_bytes s))

theorem textRank_injective : Function.Injective textRank := by
  intro s t h
  simp only [textRank, EmbeddingLike.apply_eq_iff_eq, Prod.mk.injEq] at h
  exact as_bytes_injective h.2

theorem pickText_eq (x y : String) : pickText x y = better textRank x y := by
  unfold pickText better
  simp only [textRank, Prod.Lex.toLex_lt_toLex, OrderDual.toDual_lt_toDual]
  by_cases hx : x = "" <;> by_cases hy : y = ""
  · simp [hx, hy]
  · simp [hx, hy]
  · simp [hx, hy]
  · by_cases h : as_bytes x ≤ as_bytes y
    · simp [hx, hy, h]
    · simp [hx, hy, h, not_le.mp h]

theorem pickText_assoc (x y z : String) : pickText (pickText x y) z = pickText x (pickText y z) := by
  simp only [pickText_eq, better_assoc]

theorem pickText_comm (x y : String) : pickText x y = pickText y x := by
  simp only [pickText_eq]
  exact better_comm _ fun h => textRank_injective h

/-- The strings a table holds for one symbol. -/
def textsOf (rows : List StrRow) (k : UInt64) : List String :=
  rows.filterMap fun r => if r.sym = k then some r.text else none

theorem mem_textsOf {rows : List StrRow} {k : UInt64} {t : String} :
    t ∈ textsOf rows k ↔ ⟨k, t⟩ ∈ rows := by
  simp only [textsOf, List.mem_filterMap, Option.ite_none_right_eq_some, Option.some.injEq]
  constructor
  · rintro ⟨r, hr, rfl, rfl⟩; exact hr
  · intro h; exact ⟨_, h, rfl, rfl⟩

/-- The string an index keeps for each symbol. -/
def bestText (rows : List StrRow) (k : UInt64) : Option String := bestOf textRank (textsOf rows k)

theorem bestText_append (l m : List StrRow) (k : UInt64) :
    bestText (l ++ m) k = combine pickText (bestText l k) (bestText m k) := by
  rw [bestText, textsOf, List.filterMap_append, bestOf_append]
  congr 1
  funext x y
  rw [pickText_eq]

theorem bestText_congr {l m : List StrRow} (h : ∀ r, r ∈ l ↔ r ∈ m) : bestText l = bestText m := by
  funext k
  apply Option.ext
  intro t
  simp only [bestText, bestOf_eq_some_iff _ textRank_injective, mem_textsOf, h]

theorem bestText_eq_some_iff {rows : List StrRow} (hne : ∀ r ∈ rows, r.text ≠ "") {k : UInt64} {t : String} :
    bestText rows k = some t ↔ ⟨k, t⟩ ∈ rows ∧ ∀ r ∈ rows, r.sym = k → as_bytes t ≤ as_bytes r.text := by
  rw [bestText, bestOf_eq_some_iff _ textRank_injective, mem_textsOf]
  refine and_congr_right fun ht => ⟨fun h r hr hk => ?_, fun h u hu => ?_⟩
  · subst hk
    have := h r.text (mem_textsOf.mpr hr)
    rw [textRank, textRank, Prod.Lex.toLex_le_toLex] at this
    have hr' := hne r hr
    have ht' := hne _ ht
    simp only at ht'
    rcases this with hlt | ⟨-, hle⟩
    · simp [hr', ht'] at hlt
    · simpa using hle
  · rw [mem_textsOf] at hu
    have hle := h _ hu rfl
    have hu' := hne _ hu
    have ht' := hne _ ht
    simp only at hu' ht' hle
    rw [textRank, textRank, Prod.Lex.toLex_le_toLex]
    right
    exact ⟨by simp [hu', ht'], by simpa using hle⟩

/-! ## Facts -/

def SymMeta.clamped (m : SymMeta) : SymMeta := { m with name := clamp_blob_str m.name }

def StrRow.clamped (r : StrRow) : StrRow := { r with text := clamp_blob_str r.text }

@[ext] structure Facts where
  xrefs : Set XrefRow
  syms : UInt64 → Option SymMeta
  files : UInt32 → Option String
  inherits : Set InhRow
  aliases : Set StrRow
  calls : Set CallRow
  typed : UInt64 → Option String
  childof : Set InhRow
  sig : UInt64 → Option String

namespace Facts

instance : One Facts := ⟨⟨∅, fun _ => none, fun _ => none, ∅, ∅, ∅, fun _ => none, ∅, fun _ => none⟩⟩

section

variable [Unicode]

instance : Mul Facts where
  mul F G :=
    { xrefs := F.xrefs ∪ G.xrefs
      syms := fun k => combine SymMeta.refine (F.syms k) (G.syms k)
      files := fun k => combine (fun p _ => p) (F.files k) (G.files k)
      inherits := F.inherits ∪ G.inherits
      aliases := F.aliases ∪ G.aliases
      calls := F.calls ∪ G.calls
      typed := fun k => combine pickText (F.typed k) (G.typed k)
      childof := F.childof ∪ G.childof
      sig := fun k => combine pickText (F.sig k) (G.sig k) }

instance : Monoid Facts where
  mul_assoc F G H := by
    apply Facts.ext
    · exact Set.union_assoc _ _ _
    · exact funext fun _ => combine_assoc SymMeta.refine_assoc _ _ _
    · exact funext fun _ => combine_assoc (fun _ _ _ => rfl) _ _ _
    · exact Set.union_assoc _ _ _
    · exact Set.union_assoc _ _ _
    · exact Set.union_assoc _ _ _
    · exact funext fun _ => combine_assoc pickText_assoc _ _ _
    · exact Set.union_assoc _ _ _
    · exact funext fun _ => combine_assoc pickText_assoc _ _ _
  one_mul F := by
    apply Facts.ext
    · exact Set.empty_union _
    · rfl
    · rfl
    · exact Set.empty_union _
    · exact Set.empty_union _
    · exact Set.empty_union _
    · rfl
    · exact Set.empty_union _
    · rfl
  mul_one F := by
    apply Facts.ext
    · exact Set.union_empty _
    · exact funext fun _ => combine_none_right _ _
    · exact funext fun _ => combine_none_right _ _
    · exact Set.union_empty _
    · exact Set.union_empty _
    · exact Set.union_empty _
    · exact funext fun _ => combine_none_right _ _
    · exact Set.union_empty _
    · exact funext fun _ => combine_none_right _ _

variable (F G : Facts)

@[simp] theorem mul_xrefs : (F * G).xrefs = F.xrefs ∪ G.xrefs := rfl
@[simp] theorem mul_syms : (F * G).syms = fun k => combine SymMeta.refine (F.syms k) (G.syms k) := rfl
@[simp] theorem mul_files : (F * G).files = fun k => combine (fun p _ => p) (F.files k) (G.files k) := rfl
@[simp] theorem mul_inherits : (F * G).inherits = F.inherits ∪ G.inherits := rfl
@[simp] theorem mul_aliases : (F * G).aliases = F.aliases ∪ G.aliases := rfl
@[simp] theorem mul_calls : (F * G).calls = F.calls ∪ G.calls := rfl
@[simp] theorem mul_typed : (F * G).typed = fun k => combine pickText (F.typed k) (G.typed k) := rfl
@[simp] theorem mul_childof : (F * G).childof = F.childof ∪ G.childof := rfl
@[simp] theorem mul_sig : (F * G).sig = fun k => combine pickText (F.sig k) (G.sig k) := rfl

end

@[simp] theorem one_xrefs : (1 : Facts).xrefs = ∅ := rfl
@[simp] theorem one_syms : (1 : Facts).syms = fun _ => none := rfl
@[simp] theorem one_files : (1 : Facts).files = fun _ => none := rfl
@[simp] theorem one_inherits : (1 : Facts).inherits = ∅ := rfl
@[simp] theorem one_aliases : (1 : Facts).aliases = ∅ := rfl
@[simp] theorem one_calls : (1 : Facts).calls = ∅ := rfl
@[simp] theorem one_typed : (1 : Facts).typed = fun _ => none := rfl
@[simp] theorem one_childof : (1 : Facts).childof = ∅ := rfl
@[simp] theorem one_sig : (1 : Facts).sig = fun _ => none := rfl

/-- The symbols of variable kind, whose aliases no index keeps. -/
def isVar (F : Facts) (k : UInt64) : Prop := ∃ m, F.syms k = some m ∧ m.kind = Kind.VARIABLE

/-- The facts without the aliases of variables. -/
def visible (F : Facts) : Facts := { F with aliases := {r ∈ F.aliases | ¬ F.isVar r.sym} }

/-- The facts with every string cut as the string blob cuts it. -/
def clamped (F : Facts) : Facts :=
  { F with
    syms := fun k => (F.syms k).map SymMeta.clamped
    files := fun k => (F.files k).map clamp_blob_str
    aliases := Set.image StrRow.clamped F.aliases
    typed := fun k => (F.typed k).map clamp_blob_str
    sig := fun k => (F.sig k).map clamp_blob_str }

/-- What of the facts a written index holds. -/
def written (F : Facts) : Facts := F.visible.clamped

/-- Every string fits the blob's length field. -/
structure Short (F : Facts) : Prop where
  syms : ∀ k m, F.syms k = some m → len m.name ≤ u16Max
  files : ∀ k p, F.files k = some p → len p ≤ u16Max
  aliases : ∀ r ∈ F.aliases, len r.text ≤ u16Max
  typed : ∀ k t, F.typed k = some t → len t ≤ u16Max
  sig : ∀ k t, F.sig k = some t → len t ≤ u16Max

theorem SymMeta.clamped_of_short {m : SymMeta} (h : len m.name ≤ u16Max) : m.clamped = m := by
  simp [SymMeta.clamped, clamp_of_len_le h]

theorem StrRow.clamped_of_short {r : StrRow} (h : len r.text ≤ u16Max) : r.clamped = r := by
  simp [StrRow.clamped, clamp_of_len_le h]

theorem option_map_of_fix {α : Type*} {f : α → α} {o : Option α} (h : ∀ a, o = some a → f a = a) :
    o.map f = o := by
  cases o with
  | none => rfl
  | some a => rw [Option.map_some, h a rfl]

theorem clamped_of_short {F : Facts} (h : F.Short) : F.clamped = F := by
  apply Facts.ext
  · rfl
  · exact funext fun k => option_map_of_fix fun m hm => SymMeta.clamped_of_short (h.syms k m hm)
  · exact funext fun k => option_map_of_fix fun p hp => clamp_of_len_le (h.files k p hp)
  · rfl
  · ext r
    constructor
    · rintro ⟨q, hq, rfl⟩
      rwa [StrRow.clamped_of_short (h.aliases q hq)]
    · exact fun hr => ⟨r, hr, StrRow.clamped_of_short (h.aliases r hr)⟩
  · rfl
  · exact funext fun k => option_map_of_fix fun t ht => clamp_of_len_le (h.typed k t ht)
  · rfl
  · exact funext fun k => option_map_of_fix fun t ht => clamp_of_len_le (h.sig k t ht)

theorem Short.visible {F : Facts} (h : F.Short) : F.visible.Short :=
  ⟨h.syms, h.files, fun r hr => h.aliases r hr.1, h.typed, h.sig⟩

theorem written_of_short {F : Facts} (h : F.Short) : F.written = F.visible :=
  clamped_of_short h.visible

theorem clamped_short (F : Facts) : F.clamped.Short where
  syms k m hm := by
    obtain ⟨a, -, rfl⟩ := Option.map_eq_some_iff.mp hm
    exact len_clamp_le _
  files k p hp := by
    obtain ⟨a, -, rfl⟩ := Option.map_eq_some_iff.mp hp
    exact len_clamp_le _
  aliases := by
    rintro r ⟨q, -, rfl⟩
    exact len_clamp_le _
  typed k t ht := by
    obtain ⟨a, -, rfl⟩ := Option.map_eq_some_iff.mp ht
    exact len_clamp_le _
  sig k t ht := by
    obtain ⟨a, -, rfl⟩ := Option.map_eq_some_iff.mp ht
    exact len_clamp_le _

theorem combine_ind {α : Type*} {P : α → Prop} {op : α → α → α} (hop : ∀ a b, P a → P b → P (op a b))
    {a b : Option α} (ha : ∀ x, a = some x → P x) (hb : ∀ x, b = some x → P x) :
    ∀ x, combine op a b = some x → P x := by
  intro x hx
  cases a with
  | none => exact hb x hx
  | some a =>
    cases b with
    | none => exact ha x hx
    | some b =>
      obtain rfl : op a b = x := by simpa using hx
      exact hop a b (ha a rfl) (hb b rfl)

theorem len_pickText_le {n : Nat} {x y : String} (hx : len x ≤ n) (hy : len y ≤ n) :
    len (pickText x y) ≤ n := by
  rw [pickText_eq]
  rcases better_mem textRank x y with e | e <;> rwa [e]

theorem short_one : (1 : Facts).Short := by
  refine ⟨?_, ?_, ?_, ?_, ?_⟩
  · rintro k m ⟨⟩
  · rintro k p ⟨⟩
  · rintro r ⟨⟩
  · rintro k t ⟨⟩
  · rintro k t ⟨⟩

section

variable [Unicode]

theorem len_pickName_le {n : Nat} {x y : String} (hx : len x ≤ n) (hy : len y ≤ n) :
    len (pickName x y) ≤ n := by
  unfold pickName
  split_ifs <;> assumption

theorem Short.mul {F G : Facts} (hF : F.Short) (hG : G.Short) : (F * G).Short where
  syms k := combine_ind (fun _ _ => len_pickName_le) (hF.syms k) (hG.syms k)
  files k := combine_ind (fun _ _ h _ => h) (hF.files k) (hG.files k)
  aliases r hr := hr.elim (hF.aliases r) (hG.aliases r)
  typed k := combine_ind (fun _ _ => len_pickText_le) (hF.typed k) (hG.typed k)
  sig k := combine_ind (fun _ _ => len_pickText_le) (hF.sig k) (hG.sig k)

theorem short_prod {Fs : List Facts} (h : ∀ F ∈ Fs, F.Short) : Fs.prod.Short := by
  induction Fs with
  | nil => exact short_one
  | cons F Fs ih =>
    rw [List.prod_cons]
    exact (h F List.mem_cons_self).mul (ih fun G hG => h G (List.mem_cons_of_mem _ hG))

end

end Facts

/-! ## The facts of a builder -/

namespace IndexBuilder

def facts (b : IndexBuilder) : Facts where
  xrefs := {r | r ∈ b.xrefs}
  syms k := b.syms[k]?
  files k := b.files[k]?
  inherits := {r | r ∈ b.inherits}
  aliases := {r | r ∈ b.aliases}
  calls := {r | r ∈ b.calls}
  typed := bestText b.typed
  childof := {r | r ∈ b.childof}
  sig := bestText b.sig

theorem facts_new : new.facts = 1 := by
  have h : ∀ k : UInt64, bestText [] k = none := fun _ => rfl
  apply Facts.ext <;> simp [facts, new, One.one, OfNat.ofNat] <;> rfl

variable [Unicode]

theorem facts_merge_from (a b : IndexBuilder) : (a.merge_from b).facts = a.facts * b.facts := by
  have hset : ∀ {α : Type} (l m : List α), {r | r ∈ l ++ m} = {r | r ∈ l} ∪ {r | r ∈ m} := by
    intro α l m; ext r; simp
  apply Facts.ext
  · exact hset _ _
  · exact funext fun k => merge_from_syms a b k
  · exact funext fun k => merge_from_files a b k
  · exact hset _ _
  · exact hset _ _
  · exact hset _ _
  · exact funext fun k => bestText_append _ _ k
  · exact hset _ _
  · exact funext fun k => bestText_append _ _ k

theorem facts_foldl_merge_from (bs : List IndexBuilder) (b : IndexBuilder) :
    (bs.foldl merge_from b).facts = b.facts * (bs.map facts).prod := by
  induction bs generalizing b with
  | nil => simp
  | cons c bs ih => rw [List.foldl_cons, ih, facts_merge_from, List.map_cons, List.prod_cons, mul_assoc]

end IndexBuilder

end Scry2
