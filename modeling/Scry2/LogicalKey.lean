import Scry2.Tickets
import Scry2.TextQuery
import Scry2.WalkRun
import Mathlib.Data.List.TakeWhile

/-!
# What the logical key keeps apart

The key of a ticket is what is behind its last `#`. A signature with a `#` of its own is cut there, so
the key is the last piece of the signature, and the answers of five verbs keep one hit for each key.
-/

open Scry2.Lib

namespace Scry2

/-! ## The last piece of a text -/

/-- The text ends in a piece without a separator, which is all of it or has a separator in front. -/
def EndsIn (s tail : List Char) : Prop := '#' ∉ tail ∧ (s = tail ∨ ∃ front, s = front ++ '#' :: tail)

/-- `rsplit('#').next()`. -/
def lastPiece (s : List Char) : List Char := (s.reverse.takeWhile (· ≠ '#')).reverse

theorem lastPiece_of_not_mem {tail : List Char} (h : '#' ∉ tail) : lastPiece tail = tail := by
  have hall : tail.reverse.takeWhile (· ≠ '#') = tail.reverse :=
    List.takeWhile_eq_self_iff.mpr fun c hc => decide_eq_true fun heq => h (heq ▸ List.mem_reverse.mp hc)
  rw [lastPiece, hall, List.reverse_reverse]

/-- What is in front of a separator does not matter. -/
theorem lastPiece_append (front s : List Char) : lastPiece (front ++ '#' :: s) = lastPiece s := by
  have hrev : (front ++ '#' :: s).reverse = s.reverse ++ '#' :: front.reverse := by simp
  rw [lastPiece, hrev, lastPiece]
  induction s.reverse with
  | nil => simp
  | cons c cs ih =>
    rw [List.cons_append, List.takeWhile_cons, List.takeWhile_cons]
    split
    · rw [List.reverse_cons, List.reverse_cons, ih]
    · rfl

theorem EndsIn.lastPiece_eq {s tail : List Char} (h : EndsIn s tail) : lastPiece s = tail := by
  obtain ⟨hno, rfl | ⟨front, rfl⟩⟩ := h
  · exact lastPiece_of_not_mem hno
  · rw [lastPiece_append, lastPiece_of_not_mem hno]

theorem endsIn_lastPiece (s : List Char) : EndsIn s (lastPiece s) := by
  have hno : '#' ∉ lastPiece s := by
    intro hmem
    have hkept := List.mem_takeWhile_imp (List.mem_reverse.mp hmem)
    exact of_decide_eq_true hkept rfl
  refine ⟨hno, ?_⟩
  by_cases hs : '#' ∈ s
  · -- The separator that stops the scan is the last one.
    obtain ⟨tail, front, hcut, htail⟩ := List.eq_append_cons_of_mem (List.mem_reverse.mpr hs)
    have hs : s = front.reverse ++ '#' :: tail.reverse := by
      rw [← List.reverse_reverse s, hcut]
      simp
    have hlast : lastPiece s = tail.reverse := by
      rw [hs, lastPiece_append, lastPiece_of_not_mem (mt List.mem_reverse.mp htail)]
    exact .inr ⟨front.reverse, hlast ▸ hs⟩
  · exact .inl (lastPiece_of_not_mem hs).symm

theorem lastPiece_eq_iff (s t : List Char) : lastPiece s = lastPiece t ↔ ∃ tail, EndsIn s tail ∧ EndsIn t tail := by
  constructor
  · intro h
    exact ⟨lastPiece s, endsIn_lastPiece s, h ▸ endsIn_lastPiece t⟩
  · rintro ⟨tail, hs, ht⟩
    rw [hs.lastPiece_eq, ht.lastPiece_eq]

/-! ## The key of a node -/

theorem VName.is_ticket_name_symbol_string (v : VName) : is_ticket_name v.to_symbol_string = true := by
  unfold is_ticket_name VName.to_symbol_string
  rw [List.isPrefixOf_iff_prefix]
  simp only [String.append_assoc, as_bytes_append "kythe:"]
  exact List.prefix_append _ _

theorem VName.logical_key_symbol_string (v : VName) :
    logical_key v.to_symbol_string = String.ofList (lastPiece v.signature.toList) := by
  have hchars : v.to_symbol_string.toList =
      ("kythe:" ++ v.language ++ ":" ++ v.corpus ++ "#" ++ v.root ++ "#" ++ v.path).toList ++
        '#' :: v.signature.toList := by
    rw [VName.to_symbol_string, String.toList_append, String.toList_append, List.append_assoc]
    rfl
  rw [logical_key, if_pos v.is_ticket_name_symbol_string, hchars]
  exact congrArg String.ofList (lastPiece_append _ _)

/-- The signatures of two nodes end in the same piece. -/
def VName.SharesTail (v w : VName) : Prop := ∃ tail, EndsIn v.signature.toList tail ∧ EndsIn w.signature.toList tail

theorem VName.logical_key_eq_iff (v w : VName) :
    logical_key v.to_symbol_string = logical_key w.to_symbol_string ↔ v.SharesTail w := by
  rw [VName.logical_key_symbol_string, VName.logical_key_symbol_string, VName.SharesTail, ← lastPiece_eq_iff]
  exact ⟨String.ofList_injective, congrArg String.ofList⟩

theorem VName.SharesTail.of_signature {v w : VName} (h : v.signature = w.signature) : v.SharesTail w :=
  ⟨lastPiece v.signature.toList, endsIn_lastPiece _, h ▸ endsIn_lastPiece _⟩

/-! ## Answers -/

/-- One hit is shown for both symbols. -/
def ShownAsOne {κ η : Type} (keyOf : UInt64 → Option κ) (key : η → κ) (hits : List η) (a b : UInt64) : Prop :=
  ∃ hit ∈ hits, keyOf a = some (key hit) ∧ keyOf b = some (key hit)

/-- Hits that show all distinct keys merge the symbols with equal keys. -/
theorem shownAsOne_iff {κ η : Type} [DecidableEq κ] {keyOf : UInt64 → Option κ} {key : η → κ} {hits : List η}
    {syms : List UInt64} {n : Nat} (hshown : hits.map key = (distinct (syms.filterMap keyOf)).take n)
    (hall : (distinct (syms.filterMap keyOf)).length ≤ n) {a b : UInt64} {k l : κ} (ha : a ∈ syms)
    (hka : keyOf a = some k) (hkb : keyOf b = some l) : ShownAsOne keyOf key hits a b ↔ k = l := by
  constructor
  · rintro ⟨hit, -, hka', hkb'⟩
    rw [Option.some.inj (hka.symm.trans hka'), Option.some.inj (hkb.symm.trans hkb')]
  · rintro rfl
    have hmem : k ∈ hits.map key := by
      rw [hshown, List.take_of_length_le hall, mem_distinct]
      exact List.mem_filterMap.mpr ⟨a, ha, hka⟩
    obtain ⟨hit, hhit, rfl⟩ := List.mem_map.mp hmem
    exact ⟨hit, hhit, hka, hkb⟩

namespace Queries

/-- The stored name of the symbol is the ticket of the node. -/
def Stores (ix : Queries) (sym : UInt64) (v : VName) (kind : UInt8) : Prop :=
  ∃ lang, ix.sym_meta sym = .ok (some (v.to_symbol_string, kind, lang))

/-- An answer of `type` or `sig`, and where its texts are from. -/
inductive TextReplies (ix : Queries) (name : String) (substr : Bool) (limit : Nat) :
    (UInt64 → Res (Option String)) → List TextHit → Bool → Prop
  | type {hits : List TextHit} {total : Nat} {truncated : Bool}
      (h : ix.do_type name substr limit = .ok (.Type hits total truncated)) :
      TextReplies ix name substr limit ix.type_of hits truncated
  | sig {hits : List TextHit} {total : Nat} {truncated : Bool}
      (h : ix.do_sig name substr limit = .ok (.Sig hits total truncated)) :
      TextReplies ix name substr limit ix.sig_of hits truncated

variable {ix : Queries} {name : String} {substr : Bool} {limit : Nat} {syms : List UInt64}

theorem Stores.metaOr {sym : UInt64} {v : VName} {kind : UInt8} (h : ix.Stores sym v kind) :
    ∃ lang, ix.metaOr sym = .ok (v.to_symbol_string, kind, lang) := by
  obtain ⟨lang, h⟩ := h
  exact ⟨lang, by rw [Queries.metaOr, h]; rfl⟩

theorem Stores.keyOf {w : Walk} {sym : UInt64} {v : VName} {kind : UInt8} (h : w.ix.Stores sym v kind) :
    w.keyOf sym = logical_key v.to_symbol_string := by
  obtain ⟨lang, h⟩ := h
  refine Walk.keyOf_eq ?_
  rw [name_of, h]
  rfl

theorem TextReplies.hits {text_of : UInt64 → Res (Option String)} {hits : List TextHit} {truncated : Bool}
    (hsyms : ix.gather name substr limit = .ok syms) (h : ix.TextReplies name substr limit text_of hits truncated) :
    ix.textHits text_of limit syms [] [] = .ok hits ∧ truncated = decide (limit ≤ hits.length) := by
  cases h with
  | type h =>
    rw [do_type, hsyms, Res.ok_bind] at h
    obtain ⟨hits', hhits, h⟩ := Res.bind_eq_ok h
    cases h
    exact ⟨hhits, rfl⟩
  | sig h =>
    rw [do_sig, hsyms, Res.ok_bind] at h
    obtain ⟨hits', hhits, h⟩ := Res.bind_eq_ok h
    cases h
    exact ⟨hhits, rfl⟩

section

variable {v w : VName} {a b : UInt64} {ka kb : UInt8} (ha : ix.Stores a v ka) (hb : ix.Stores b w kb)
include ha hb

/-- Two symbols with texts are one hit if their keys and their texts are equal. -/
theorem TextReplies.shownAsOne_iff {text_of : UInt64 → Res (Option String)} {hits : List TextHit} {x y : String}
    (hsyms : ix.gather name substr limit = .ok syms) (h : ix.TextReplies name substr limit text_of hits false)
    (hmem : a ∈ syms) (hx : text_of a = .ok (some x)) (hy : text_of b = .ok (some y)) :
    ShownAsOne (ix.textKey text_of) TextHit.key hits a b ↔
      logical_key v.to_symbol_string = logical_key w.to_symbol_string ∧ x = y := by
  obtain ⟨la, ha⟩ := ha.metaOr
  obtain ⟨lb, hb⟩ := hb.metaOr
  obtain ⟨hhits, htrunc⟩ := h.hits hsyms
  obtain ⟨hkeys, hcut⟩ := textHits_spec hhits
  have hlt : ¬ limit ≤ hits.length := of_decide_eq_false htrunc.symm
  rw [hcut] at hlt
  have hka : ix.textKey text_of a = some (logical_key v.to_symbol_string, x) := by
    rw [textKey, hx, ha]
  have hkb : ix.textKey text_of b = some (logical_key w.to_symbol_string, y) := by
    rw [textKey, hy, hb]
  rw [Scry2.shownAsOne_iff hkeys (by omega) hmem hka hkb, Prod.mk.injEq]

theorem do_members_shownAsOne_iff {container : String} {hits : List MemberHit} {total : Nat} {x y : Option String}
    (hsyms : ix.gather name substr limit = .ok syms)
    (h : ix.do_members name substr limit = .ok (.Members container hits total false))
    (hmem : a ∈ syms.flatMap ix.membersOf) (hx : ix.sig_of a = .ok x) (hy : ix.sig_of b = .ok y) :
    ShownAsOne ix.memberKey MemberHit.key hits a b ↔
      logical_key v.to_symbol_string = logical_key w.to_symbol_string ∧ kind_str ka = kind_str kb ∧ x = y := by
  obtain ⟨la, ha⟩ := ha.metaOr
  obtain ⟨lb, hb⟩ := hb.metaOr
  rw [do_members, hsyms, Res.ok_bind] at h
  obtain ⟨⟨container', st, stop⟩, hgroups, h⟩ := Res.bind_eq_ok h
  cases h
  obtain ⟨hkeys, hcut⟩ := memberGroups_spec hgroups
  have hlt := mt hcut.mpr Bool.false_ne_true
  have hka : ix.memberKey a = some (logical_key v.to_symbol_string, kind_str ka, x) := by
    rw [memberKey, ha, hx]
  have hkb : ix.memberKey b = some (logical_key w.to_symbol_string, kind_str kb, y) := by
    rw [memberKey, hb, hy]
  rw [Scry2.shownAsOne_iff hkeys (by omega) hmem hka hkb, Prod.mk.injEq, Prod.mk.injEq]

end

end Queries

theorem Walk.shownAsOne_iff {walk : Walk} {syms : List UInt64} {a b : UInt64} {v w : VName} {ka kb : UInt8}
    (ha : walk.ix.Stores a v ka) (hb : walk.ix.Stores b w kb) (hmem : walk.keyOf a ∈ syms.map walk.keyOf) :
    ShownAsOne (fun s => some (walk.keyOf s)) walk.keyOf syms a b ↔
      logical_key v.to_symbol_string = logical_key w.to_symbol_string := by
  rw [← ha.keyOf, ← hb.keyOf]
  constructor
  · rintro ⟨s, -, has, hbs⟩
    rw [Option.some.inj has, Option.some.inj hbs]
  · intro heq
    obtain ⟨s, hs, hkey⟩ := List.mem_map.mp hmem
    exact ⟨s, hs, by rw [hkey], by rw [hkey, heq]⟩

/-! ## Copies -/

/-- The key of two nodes, and every answer that is not cut, tell them apart by their signatures. -/
structure MergesCopies (v w : VName) : Prop where
  key : logical_key v.to_symbol_string = logical_key w.to_symbol_string ↔ v.signature = w.signature
  text : ∀ (ix : Queries) (name : String) (substr : Bool) (limit : Nat) (text_of : UInt64 → Res (Option String))
    (syms : List UInt64) (hits : List TextHit) (a b : UInt64) (ka kb : UInt8) (x y : String),
    ix.gather name substr limit = .ok syms → ix.TextReplies name substr limit text_of hits false → a ∈ syms →
    ix.Stores a v ka → ix.Stores b w kb → text_of a = .ok (some x) → text_of b = .ok (some y) →
    (ShownAsOne (ix.textKey text_of) TextHit.key hits a b ↔ v.signature = w.signature ∧ x = y)
  members : ∀ (ix : Queries) (name : String) (substr : Bool) (limit : Nat) (syms : List UInt64) (container : String)
    (hits : List MemberHit) (total : Nat) (a b : UInt64) (ka kb : UInt8) (x y : Option String),
    ix.gather name substr limit = .ok syms →
    ix.do_members name substr limit = .ok (.Members container hits total false) → a ∈ syms.flatMap ix.membersOf →
    ix.Stores a v ka → ix.Stores b w kb → ix.sig_of a = .ok x → ix.sig_of b = .ok y →
    (ShownAsOne ix.memberKey MemberHit.key hits a b ↔
      v.signature = w.signature ∧ kind_str ka = kind_str kb ∧ x = y)
  walk : ∀ (ix : Queries) (name direction : String) (depth max_syms : Nat) (substr : Bool) (root_limit : Nat)
    (filt : PathFilter) (walk : Walk) (nodes : List CallNode) (total : Nat) (truncated : Bool) (syms : List UInt64)
    (a b : UInt64) (ka kb : UInt8),
    ix.Replies name direction depth max_syms substr root_limit filt walk nodes total truncated →
    walk.ProperForest syms nodes total → walk.keyOf a ∈ syms.map walk.keyOf →
    ix.Stores a v ka → ix.Stores b w kb →
    (ShownAsOne (fun s => some (walk.keyOf s)) walk.keyOf syms a b ↔ v.signature = w.signature)

/-- A key that follows the signatures is enough for every answer. -/
theorem MergesCopies.of_key {v w : VName}
    (hkey : logical_key v.to_symbol_string = logical_key w.to_symbol_string ↔ v.signature = w.signature) :
    MergesCopies v w where
  key := hkey
  text ix name substr limit text_of syms hits a b ka kb x y hsyms hreply hmem ha hb hx hy := by
    rw [hreply.shownAsOne_iff ha hb hsyms hmem hx hy, hkey]
  members ix name substr limit syms container hits total a b ka kb x y hsyms hreply hmem ha hb hx hy := by
    rw [Queries.do_members_shownAsOne_iff ha hb hsyms hreply hmem hx hy, hkey]
  walk ix name direction depth max_syms substr root_limit filt walk nodes total truncated syms a b ka kb hreply _
      hmem ha hb := by
    have hix : walk.ix = ix := by
      cases hreply with
      | callgraph => rfl
      | inheritance => rfl
    subst hix
    rw [Walk.shownAsOne_iff ha hb hmem, hkey]

/-- The logical key is the signature only up to what the last `#` cuts off. -/
theorem merges_copies_iff (v w : VName) : MergesCopies v w ↔ v.signature = w.signature ∨ ¬ v.SharesTail w := by
  constructor
  · intro h
    by_cases htail : v.SharesTail w
    · exact .inl (h.key.mp ((v.logical_key_eq_iff w).mpr htail))
    · exact .inr htail
  · intro h
    refine .of_key ?_
    rw [v.logical_key_eq_iff w]
    refine ⟨fun htail => ?_, .of_signature⟩
    exact h.resolve_right fun hno => hno htail

/-- The node of a builtin type of C++. -/
def builtinNode (op : String) : VName := { signature := op ++ "#builtin", language := "c++" }

/-- All builtin types have one key. -/
theorem builtins_share_key :
    logical_key (builtinNode "int").to_symbol_string = logical_key (builtinNode "char").to_symbol_string ∧
      ¬ MergesCopies (builtinNode "int") (builtinNode "char") := by
  have hkey : logical_key (builtinNode "int").to_symbol_string = logical_key (builtinNode "char").to_symbol_string := by
    decide +kernel
  exact ⟨hkey, fun h => absurd (h.key.mp hkey) (by decide)⟩

end Scry2
