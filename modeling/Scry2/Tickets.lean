import Scry2.Entry
import Mathlib.Data.List.Basic

/-!
# Tickets

The symbol string of a VName joins five texts with `:` and `#`. It can be read in one way only if the texts
have none of them where another reading could cut.
-/

open Scry2.Lib

namespace Scry2

namespace VName

/-- The texts after the language can be cut in one way. -/
structure Unambiguous (v : VName) : Prop where
  language : ':' ∉ v.language.toList
  corpus : ':' ∉ v.corpus.toList ∧ '#' ∉ v.corpus.toList
  root : '#' ∉ v.root.toList
  path : '#' ∉ v.path.toList
  signature : '#' ∉ v.signature.toList

/-- The symbol string after `kythe:`. -/
def ticketChars (v : VName) : List Char :=
  v.language.toList ++ ':' :: (v.corpus.toList ++ '#' :: (v.root.toList ++ '#' ::
    (v.path.toList ++ '#' :: v.signature.toList)))

theorem symbol_string_eq_iff {v w : VName} :
    v.to_symbol_string = w.to_symbol_string ↔ v.ticketChars = w.ticketChars := by
  have hchars : ∀ x : VName, x.to_symbol_string.toList = "kythe:".toList ++ x.ticketChars := by
    intro x
    simp [to_symbol_string, ticketChars, String.toList_append]
  rw [← String.toList_inj, hchars, hchars, List.append_cancel_left_eq]

theorem ext_chars {v w : VName} (hl : v.language.toList = w.language.toList) (hc : v.corpus.toList = w.corpus.toList)
    (hr : v.root.toList = w.root.toList) (hp : v.path.toList = w.path.toList)
    (hs : v.signature.toList = w.signature.toList) : v = w := by
  obtain ⟨s, c, r, p, l⟩ := v
  obtain ⟨s', c', r', p', l'⟩ := w
  rw [String.toList_inj] at hl hc hr hp hs
  subst hl hc hr hp hs
  rfl

/-! ## One reading -/

/-- Texts without the separator end at the first one. -/
theorem cut_unique {sep : Char} {a a' b b' : List Char} (ha : sep ∉ a) (ha' : sep ∉ a')
    (h : a ++ sep :: b = a' ++ sep :: b') : a = a' ∧ b = b' := by
  induction a generalizing a' with
  | nil =>
    cases a' with
    | nil => exact ⟨rfl, (List.cons.inj h).2⟩
    | cons c a' => exact absurd ((List.cons.inj h).1 ▸ List.mem_cons_self) ha'
  | cons c a ih =>
    cases a' with
    | nil => exact absurd ((List.cons.inj h).1 ▸ List.mem_cons_self) ha
    | cons c' a' =>
      obtain ⟨hc, h⟩ := List.cons.inj h
      obtain ⟨h1, h2⟩ := ih (fun hm => ha (List.mem_cons_of_mem _ hm)) (fun hm => ha' (List.mem_cons_of_mem _ hm)) h
      exact ⟨by rw [hc, h1], h2⟩

/-- Three separators cut four texts. -/
theorem cuts_unique {c r p s c' r' p' s' : List Char} (hc : '#' ∉ c) (hr : '#' ∉ r) (hp : '#' ∉ p) (hs : '#' ∉ s)
    (h : c ++ '#' :: (r ++ '#' :: (p ++ '#' :: s)) = c' ++ '#' :: (r' ++ '#' :: (p' ++ '#' :: s'))) :
    c = c' ∧ r = r' ∧ p = p' ∧ s = s' := by
  -- All the separators are there already.
  have hcount := congrArg (List.count '#') h
  simp only [List.count_append, List.count_cons_self, List.count_eq_zero.mpr hc, List.count_eq_zero.mpr hr,
    List.count_eq_zero.mpr hp, List.count_eq_zero.mpr hs] at hcount
  obtain ⟨hc', h1⟩ := cut_unique hc (List.count_eq_zero.mp (by omega)) h
  obtain ⟨hr', h2⟩ := cut_unique hr (List.count_eq_zero.mp (by omega)) h1
  obtain ⟨hp', h3⟩ := cut_unique hp (List.count_eq_zero.mp (by omega)) h2
  exact ⟨hc', hr', hp', h3⟩

theorem Unambiguous.eq {v w : VName} (hv : v.Unambiguous) (h : v.ticketChars = w.ticketChars) : v = w := by
  unfold ticketChars at h
  by_cases hl : ':' ∈ w.language.toList
  · -- The first colon of `w` is in its language, so the corpus of `v` would have one.
    exfalso
    obtain ⟨a, b, hab, ha⟩ := List.eq_append_cons_of_mem hl
    rw [hab, List.append_assoc] at h
    obtain ⟨-, hrest⟩ := cut_unique hv.language ha h
    have hshift : v.corpus.toList ++ '#' :: (v.root.toList ++ '#' :: (v.path.toList ++ '#' :: v.signature.toList)) =
        (b ++ ':' :: w.corpus.toList) ++ '#' :: (w.root.toList ++ '#' ::
          (w.path.toList ++ '#' :: w.signature.toList)) := hrest.trans (by simp)
    obtain ⟨hc, -⟩ := cuts_unique hv.corpus.2 hv.root hv.path hv.signature hshift
    exact hv.corpus.1 (hc ▸ List.mem_append_right _ List.mem_cons_self)
  · obtain ⟨hlang, h⟩ := cut_unique hv.language hl h
    obtain ⟨hc, hr, hp, hs⟩ := cuts_unique hv.corpus.2 hv.root hv.path hv.signature h
    exact ext_chars hlang hc hr hp hs

/-! ## Two readings -/

/-- The text is cut at the separator in it, the first part joined to what is before or the second to what
follows. -/
theorem cut_at {sep : Char} {s : String} (h : sep ∈ s.toList) :
    ∃ a b : String, s.toList = a.toList ++ sep :: b.toList := by
  obtain ⟨a, b, hab⟩ := List.append_of_mem h
  exact ⟨String.ofList a, String.ofList b, by rw [String.toList_ofList, String.toList_ofList, hab]⟩

theorem ne_of_cut {sep : Char} {s a b : String} (h : s.toList = a.toList ++ sep :: b.toList) : s ≠ a ∧ s ≠ b := by
  have hlen := congrArg List.length h
  rw [List.length_append, List.length_cons] at hlen
  constructor
  · rintro rfl
    omega
  · rintro rfl
    omega

theorem Unambiguous.of_unique {v : VName} (h : ∀ w : VName, v.ticketChars = w.ticketChars → v = w) :
    v.Unambiguous := by
  refine ⟨fun hm => ?_, ⟨fun hm => ?_, fun hm => ?_⟩, fun hm => ?_, fun hm => ?_, fun hm => ?_⟩
  · obtain ⟨a, b, hab⟩ := cut_at hm
    have heq := h { v with language := a, corpus := b ++ ":" ++ v.corpus } (by simp [ticketChars, hab])
    exact (ne_of_cut hab).1 (congrArg VName.language heq)
  · obtain ⟨a, b, hab⟩ := cut_at hm
    have heq := h { v with language := v.language ++ ":" ++ a, corpus := b } (by simp [ticketChars, hab])
    exact (ne_of_cut hab).2 (congrArg VName.corpus heq)
  · obtain ⟨a, b, hab⟩ := cut_at hm
    have heq := h { v with corpus := a, root := b ++ "#" ++ v.root } (by simp [ticketChars, hab])
    exact (ne_of_cut hab).1 (congrArg VName.corpus heq)
  · obtain ⟨a, b, hab⟩ := cut_at hm
    have heq := h { v with corpus := v.corpus ++ "#" ++ a, root := b } (by simp [ticketChars, hab])
    exact (ne_of_cut hab).2 (congrArg VName.root heq)
  · obtain ⟨a, b, hab⟩ := cut_at hm
    have heq := h { v with root := v.root ++ "#" ++ a, path := b } (by simp [ticketChars, hab])
    exact (ne_of_cut hab).2 (congrArg VName.path heq)
  · obtain ⟨a, b, hab⟩ := cut_at hm
    have heq := h { v with path := v.path ++ "#" ++ a, signature := b } (by simp [ticketChars, hab])
    exact (ne_of_cut hab).2 (congrArg VName.signature heq)

/-- A VName shares its symbol string with no other one exactly if its texts can be cut in one way, and then,
where the hash does not collide, it shares its sym with no other one. -/
theorem symbol_string_unique (v : VName) :
    ((∀ w : VName, v.to_symbol_string = w.to_symbol_string → v = w) ↔ v.Unambiguous) ∧
      ∀ [XxHash64], ∀ w : VName, (v.sym = w.sym → v.to_symbol_string = w.to_symbol_string) → v.Unambiguous →
        v ≠ w → v.sym ≠ w.sym := by
  refine ⟨⟨fun h => .of_unique fun w hw => h w (symbol_string_eq_iff.mpr hw), fun hv w hw => ?_⟩, ?_⟩
  · exact hv.eq (symbol_string_eq_iff.mp hw)
  · intro _ w hfree hv hne hsym
    exact hne (hv.eq (symbol_string_eq_iff.mp (hfree hsym)))

def functionF : VName := { language := "c++", path := "a.cc", signature := "f" }
def functionG : VName := { language := "c++", path := "a.cc", signature := "g" }

@[reducible] def functionHash : XxHash64 :=
  hashTable [("kythe:c++:##a.cc#f", 0xfbac6346c2593124), ("kythe:c++:##a.cc#g", 0x83269fd188014718)]

section

attribute [local instance] functionHash

theorem symbol_string_unique_functionF : functionF.sym ≠ functionG.sym := by
  have hsyms : functionF.sym ≠ functionG.sym := by decide
  exact (symbol_string_unique functionF).2 functionG (fun h => absurd h hsyms)
    ⟨by decide, by decide, by decide, by decide, by decide⟩ (by decide)

end

/-- The separator between path and signature can stand in either text. -/
theorem symbol_strings_collide : ¬ ∀ v w : VName, v.to_symbol_string = w.to_symbol_string → v = w := by
  intro h
  exact absurd (h { path := "a.cc", signature := "x#y" } { path := "a.cc#x", signature := "y" } (by decide)) (by decide)

end VName

end Scry2
