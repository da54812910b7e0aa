import Scry2.MarkedSource
import Scry2.Proto
import Mathlib.Data.List.DropRight
import Mathlib.Logic.Relation

/-!
# The name in a MarkedSource

What `parse_marked_source_fqn` makes of an encoded tree. Types, parameters, initializers, modifiers and
lookups below the root do not matter.
-/

open Scry2.Lib

namespace Scry2

/-! ## Fields on the wire -/

/-- A varint or a length-delimited field. -/
inductive MsField where
  | varint (number value : Nat)
  | text (number : Nat) (data : Bytes)

namespace MsField

def bytes : MsField → Bytes
  | varint number value => write_varint (number * 8) ++ write_varint value
  | text number data => write_tag_len number data

/-- As `protoFields` reads it. -/
def read : MsField → UInt32 × UInt8 × Bytes
  | varint number value => (UInt32.ofNat number, 0, write_varint value)
  | text number data => (UInt32.ofNat number, 2, data)

def Fits : MsField → Prop
  | varint number value => number < 2 ^ 29 ∧ value < 2 ^ 64
  | text number _ => number < 2 ^ 29

theorem bytes_pos (x : MsField) : 0 < x.bytes.length := by
  cases x with
  | varint number value =>
    rw [bytes, List.length_append, write_varint_length]
    have := varint_len_pos (number * 8)
    omega
  | text number data =>
    rw [bytes, write_tag_len_length]
    have := varint_len_pos (number * 8 + 2)
    omega

end MsField

theorem read_varint_at_write {buf rest : Bytes} {pos n : Nat} (hn : n < 2 ^ 64)
    (h : buf.drop pos = write_varint n ++ rest) :
    read_varint_at buf pos = some (UInt64.ofNat n, pos + varint_len n) := by
  rw [read_varint_at, read_varint_bytes, h, varint_write hn]
  rfl

/-- A field is read where it starts. -/
theorem read_proto_field_bytes {x : MsField} (hx : x.Fits) {buf rest : Bytes} {pos : Nat}
    (hbuf : buf.length < 2 ^ 64) (h : buf.drop pos = x.bytes ++ rest) :
    ∃ start, read_proto_field buf pos = some (x.read.1, x.read.2.1, pos + x.bytes.length, start) ∧
      (buf.drop start).take (pos + x.bytes.length - start) = x.read.2.2 := by
  have hend : pos + x.bytes.length ≤ buf.length := by
    have hl := congrArg List.length h
    have hpos := x.bytes_pos
    rw [List.length_drop, List.length_append] at hl
    omega
  cases x with
  | varint number value =>
    obtain ⟨hnumber, hvalue⟩ := hx
    obtain ⟨hfield, hwire⟩ := tag_parts (w := 0) hnumber (by decide)
    rw [MsField.bytes, List.append_assoc] at h
    have htag := read_varint_at_write (by omega) h
    have h2 := drop_varint h
    have hval := read_varint_at_write hvalue h2
    rw [Nat.add_zero] at hfield hwire
    have hwire : (UInt64.ofNat (number * 8) &&& 0x7).toUInt8 = 0 := hwire
    refine ⟨pos + varint_len (number * 8), ?_, ?_⟩
    · rw [read_proto_field, htag]
      simp only [Option.bind_eq_bind, Option.bind_some, hfield, hwire, MsField.read]
      rw [if_pos trivial, hval]
      simp [MsField.bytes, write_varint_length, Nat.add_assoc]
    · rw [h2, MsField.bytes, List.length_append, write_varint_length]
      have hsub : pos + (varint_len (number * 8) + (write_varint value).length) - (pos + varint_len (number * 8)) =
          (write_varint value).length := by omega
      rw [hsub, List.take_left]
      rfl
  | text number data =>
    obtain ⟨hfield, hwire⟩ := tag_field hx
    have hlen := write_tag_len_length number data
    rw [MsField.bytes] at hend h
    rw [write_tag_len, tag_eq, List.append_assoc, List.append_assoc] at h
    have hx : number < 2 ^ 29 := hx
    have htag := read_varint_at_write (by omega) h
    have h2 := drop_varint h
    have hsize := read_varint_at_write (n := data.length) (by omega) h2
    have h3 := drop_varint h2
    refine ⟨pos + varint_len (number * 8 + 2) + varint_len data.length, ?_, ?_⟩
    · rw [read_proto_field, htag]
      simp only [Option.bind_eq_bind, Option.bind_some, hfield, hwire, MsField.read]
      rw [if_neg (by decide), if_neg (by decide), if_pos trivial, hsize]
      simp only [Option.bind_some, UInt64.toNat_ofNat_of_lt' (show data.length < UInt64.size by unfold UInt64.size; omega)]
      rw [checked_add, if_pos (by omega)]
      simp only [Option.bind_some]
      rw [if_neg (by omega), MsField.bytes, hlen]
      simp only [pure, Option.some.injEq, Prod.mk.injEq, and_true, true_and]
      omega
    · rw [h3, MsField.bytes, hlen]
      have hsub : pos + (varint_len (number * 8 + 2) + varint_len data.length + data.length) -
          (pos + varint_len (number * 8 + 2) + varint_len data.length) = data.length := by omega
      rw [hsub, List.take_left]
      rfl

theorem protoFields_bytes {xs : List MsField} (hxs : ∀ x ∈ xs, x.Fits) {buf : Bytes} {pos fuel : Nat}
    (hbuf : buf.length < 2 ^ 64) (h : buf.drop pos = xs.flatMap MsField.bytes)
    (hfuel : (xs.flatMap MsField.bytes).length ≤ fuel) : protoFields buf fuel pos = xs.map MsField.read := by
  induction xs generalizing pos fuel with
  | nil =>
    have hle : buf.length ≤ pos := List.drop_eq_nil_iff.mp h
    cases fuel with
    | zero => rfl
    | succ fuel =>
      rw [protoFields, if_neg (by omega)]
      rfl
  | cons x xs ih =>
    rw [List.flatMap_cons] at h hfuel
    rw [List.length_append] at hfuel
    have hpos := x.bytes_pos
    obtain ⟨fuel, rfl⟩ : ∃ k, fuel = k + 1 := ⟨fuel - 1, by omega⟩
    obtain ⟨start, hread, hdata⟩ := read_proto_field_bytes (hxs x List.mem_cons_self) hbuf h
    have hlt : pos < buf.length := by
      have hl := congrArg List.length h
      rw [List.length_drop, List.length_append] at hl
      omega
    have hnext : buf.drop (pos + x.bytes.length) = xs.flatMap MsField.bytes := by
      rw [← List.drop_drop, h, List.drop_left]
    have hrest : protoFields buf fuel (pos + x.bytes.length) = xs.map MsField.read :=
      ih (fun y hy => hxs y (List.mem_cons_of_mem _ hy)) hnext (by omega)
    rw [protoFields, if_pos hlt, hread, List.map_cons, ← hrest]
    simp only [hdata]

theorem write_varint_small {n : Nat} (h : n < 0x80) : write_varint n = [UInt8.ofNat n] := by
  rw [write_varint, if_neg (by omega)]

/-! ## Trees on the wire -/

namespace MarkedSource

mutual

/-- `Ms::build`, which encodes a tree. The varint of a kind below 128 is one byte. -/
def build : MarkedSource → Bytes
  | .node kind pre joiner post add_final kids =>
    (if kind = MS_BOX then [] else 0x08 :: write_varint kind.toNat) ++ (write_nonempty 2 (as_bytes pre) ++
      (buildAll kids ++ (write_nonempty 4 (as_bytes joiner) ++ (write_nonempty 5 (as_bytes post) ++
        if add_final then [0x50, 1] else []))))

def buildAll : List MarkedSource → Bytes
  | [] => []
  | kid :: kids => write_tag_len 3 kid.build ++ buildAll kids

end

def textField (number : Nat) (s : String) : List MsField := if s = "" then [] else [.text number (as_bytes s)]

def fields : MarkedSource → List MsField
  | .node kind pre joiner post add_final kids =>
    (if kind = MS_BOX then [] else [.varint 1 kind.toNat]) ++ (textField 2 pre ++
      (kids.map (fun kid => .text 3 kid.build) ++ (textField 4 joiner ++ (textField 5 post ++
        if add_final then [.varint 10 1] else []))))

theorem textField_bytes (number : Nat) (s : String) :
    (textField number s).flatMap MsField.bytes = write_nonempty number (as_bytes s) := by
  unfold textField write_nonempty
  by_cases hs : s = ""
  · simp [hs]
  · simp [hs, as_bytes_eq_nil_iff, MsField.bytes]

theorem mem_textField {number : Nat} {s : String} {x : MsField} (h : x ∈ textField number s) :
    x = .text number (as_bytes s) := by
  unfold textField at h
  split_ifs at h
  · cases h
  · exact List.mem_singleton.mp h

/-- Reading the field puts the text where there was none. -/
theorem set_textField {number : Nat} {s : String} (put : String → MsFields)
    (hset : (put "").set (UInt32.ofNat number, 2, as_bytes s) = put (from_utf8_lossy (as_bytes s))) :
    ((textField number s).map MsField.read).foldl MsFields.set (put "") = put s := by
  unfold textField
  split_ifs with h
  · rw [h]
    rfl
  · rw [List.map_singleton, List.foldl_cons, List.foldl_nil, MsField.read, hset, from_utf8_lossy_as_bytes]

theorem buildAll_eq (kids : List MarkedSource) :
    buildAll kids = (kids.map fun kid => MsField.text 3 kid.build).flatMap MsField.bytes := by
  induction kids with
  | nil => rfl
  | cons kid kids ih =>
    rw [buildAll, ih]
    rfl

theorem build_eq (t : MarkedSource) : t.build = t.fields.flatMap MsField.bytes := by
  obtain ⟨kind, pre, joiner, post, add_final, kids⟩ := t
  have htag : write_varint (1 * 8) = [0x08] := write_varint_small (by decide)
  have hfinal : write_varint (10 * 8) ++ write_varint 1 = [0x50, 1] := by
    rw [write_varint_small (by decide), write_varint_small (by decide)]
    rfl
  rw [build, fields, List.flatMap_append, List.flatMap_append, List.flatMap_append, List.flatMap_append,
    List.flatMap_append, textField_bytes, textField_bytes, textField_bytes, buildAll_eq]
  congr 1
  · split_ifs
    · rfl
    · simp [MsField.bytes, htag]
  · cases add_final
    · rfl
    · simp [MsField.bytes, hfinal]

theorem fits_fields (t : MarkedSource) : ∀ x ∈ t.fields, x.Fits := by
  obtain ⟨kind, pre, joiner, post, add_final, kids⟩ := t
  have hkind := kind.toNat_lt
  have htext : ∀ {number : Nat} {s : String} {x : MsField}, number < 2 ^ 29 → x ∈ textField number s → x.Fits := by
    intro number s x hn hx
    rw [mem_textField hx]
    exact hn
  intro x hx
  rw [fields] at hx
  simp only [List.mem_append] at hx
  rcases hx with hx | hx | hx | hx | hx | hx
  · split_ifs at hx
    · cases hx
    · rw [List.mem_singleton] at hx
      subst hx
      exact ⟨by decide, by omega⟩
  · exact htext (by decide) hx
  · obtain ⟨kid, -, rfl⟩ := List.mem_map.mp hx
    exact (by decide : 3 < 2 ^ 29)
  · exact htext (by decide) hx
  · exact htext (by decide) hx
  · split_ifs at hx
    · rw [List.mem_singleton] at hx
      subst hx
      exact ⟨by decide, by decide⟩
    · cases hx

/-! ## Trees read back -/

theorem set_kids (kids : List MarkedSource) (out : MsFields) :
    ((kids.map fun kid => MsField.text 3 kid.build).map MsField.read).foldl MsFields.set out =
      { out with kids := out.kids ++ kids.map build } := by
  induction kids generalizing out with
  | nil => simp
  | cons kid kids ih =>
    rw [List.map_cons, List.map_cons, List.foldl_cons, ih]
    simp [MsFields.set, MsField.read]

theorem set_fields (kind : UInt32) (pre joiner post : String) (add_final : Bool) (kids : List MarkedSource) :
    ((fields (.node kind pre joiner post add_final kids)).map MsField.read).foldl MsFields.set {} =
      ⟨pre, joiner, post, add_final, kids.map build⟩ := by
  have hkind : ((if kind = MS_BOX then [] else [MsField.varint 1 kind.toNat]).map MsField.read).foldl
      MsFields.set {} = ({} : MsFields) := by
    split_ifs <;> rfl
  have hpre : ∀ out : MsFields, out.pre = "" →
      ((textField 2 pre).map MsField.read).foldl MsFields.set out = { out with pre := pre } := by
    rintro ⟨_, j, p, a, k⟩ ⟨⟩
    exact set_textField (fun s => ⟨s, j, p, a, k⟩) rfl
  have hjoiner : ∀ out : MsFields, out.joiner = "" →
      ((textField 4 joiner).map MsField.read).foldl MsFields.set out = { out with joiner := joiner } := by
    rintro ⟨q, _, p, a, k⟩ ⟨⟩
    exact set_textField (fun s => ⟨q, s, p, a, k⟩) rfl
  have hpost : ∀ out : MsFields, out.post = "" →
      ((textField 5 post).map MsField.read).foldl MsFields.set out = { out with post := post } := by
    rintro ⟨q, j, _, a, k⟩ ⟨⟩
    exact set_textField (fun s => ⟨q, j, s, a, k⟩) rfl
  have hfinal : ∀ out : MsFields, out.add_final = false →
      ((if add_final then [MsField.varint 10 1] else []).map MsField.read).foldl MsFields.set out =
        { out with add_final := add_final } := by
    rintro ⟨_, _, _, _, _⟩ ⟨⟩
    have hone : read_varint_at (write_varint 1) 0 = some (1, 1) := by
      rw [write_varint_small (by decide)]
      decide
    cases add_final
    · rfl
    · simp [MsFields.set, MsField.read, hone]
  rw [fields]
  simp only [List.map_append, List.foldl_append]
  rw [hkind, hpre _ rfl, set_kids, hjoiner _ rfl, hpost _ rfl, hfinal _ rfl]
  simp

theorem msKind_fields (kind : UInt32) (pre joiner post : String) (add_final : Bool) (kids : List MarkedSource) :
    msKind ((fields (.node kind pre joiner post add_final kids)).map MsField.read) = kind := by
  have hread : read_varint_at (write_varint kind.toNat) 0 =
      some (UInt64.ofNat kind.toNat, 0 + varint_len kind.toNat) :=
    read_varint_at_write (lt_trans kind.toNat_lt (by decide)) (List.append_nil _).symm
  have htext : ∀ {number : Nat} {s : String} {x : MsField}, UInt32.ofNat number ≠ 1 → x ∈ textField number s →
      x.read.1 ≠ 1 := by
    intro number s x hn hx
    rw [mem_textField hx]
    exact hn
  rw [msKind, fields]
  by_cases hkind : kind = MS_BOX
  · rw [if_pos hkind, List.nil_append]
    split
    · rename_i f hf
      exfalso
      have hone := List.find?_some hf
      obtain ⟨x, hx, rfl⟩ := List.mem_map.mp (List.mem_of_find?_eq_some hf)
      simp only [Bool.and_eq_true, decide_eq_true_eq] at hone
      refine absurd hone.1 ?_
      simp only [List.mem_append] at hx
      rcases hx with hx | hx | hx | hx | hx
      · exact htext (by decide) hx
      · obtain ⟨kid, -, rfl⟩ := List.mem_map.mp hx
        exact (by decide : UInt32.ofNat 3 ≠ 1)
      · exact htext (by decide) hx
      · exact htext (by decide) hx
      · split_ifs at hx
        · rw [List.mem_singleton] at hx
          subst hx
          exact (by decide : UInt32.ofNat 10 ≠ 1)
        · cases hx
    · exact hkind.symm
  · rw [if_neg hkind, List.singleton_append, List.map_cons, List.find?_cons_of_pos rfl]
    simp only [MsField.read, hread, Option.elim]
    rw [← UInt32.toNat_inj, UInt64.toNat_toUInt32, UInt64.toNat_ofNat_of_lt' (lt_trans kind.toNat_lt (by decide))]
    exact Nat.mod_eq_of_lt kind.toNat_lt

theorem kid_length_lt {kid : MarkedSource} {kids : List MarkedSource} (h : kid ∈ kids) :
    kid.build.length < (buildAll kids).length := by
  induction kids with
  | nil => cases h
  | cons k kids ih =>
    rw [buildAll, List.length_append, write_tag_len_length]
    have hpos := varint_len_pos (3 * 8 + 2)
    rcases List.mem_cons.mp h with rfl | h
    · omega
    · have := ih h
      omega

theorem decode_build {fuel : Nat} {t : MarkedSource} (hlen : t.build.length < 2 ^ 64) (hfuel : t.build.length ≤ fuel) :
    decode fuel t.build = t := by
  induction fuel generalizing t with
  | zero =>
    have hnil : t.build = [] := List.length_eq_zero_iff.mp (Nat.le_zero.mp hfuel)
    have hfields : t.fields = [] := by
      rw [build_eq] at hnil
      cases hf : t.fields with
      | nil => rfl
      | cons x xs =>
        have hpos := x.bytes_pos
        have := congrArg List.length hnil
        rw [hf, List.flatMap_cons, List.length_append, List.length_nil] at this
        omega
    obtain ⟨kind, pre, joiner, post, add_final, kids⟩ := t
    have hset := set_fields kind pre joiner post add_final kids
    have hkind := msKind_fields kind pre joiner post add_final kids
    rw [hfields] at hset hkind
    cases kids with
    | nil =>
      cases hset
      cases hkind
      rfl
    | cons kid kids => cases hset
  | succ fuel ih =>
    have hall : protoFields t.build t.build.length 0 = t.fields.map MsField.read :=
      protoFields_bytes t.fits_fields hlen t.build_eq (by rw [← t.build_eq])
    rw [decode, hall]
    obtain ⟨kind, pre, joiner, post, add_final, kids⟩ := t
    have hkids : (kids.map build).map (decode fuel) = kids := by
      rw [List.map_map]
      refine (List.map_congr_left fun kid hkid => ?_).trans (List.map_id kids)
      have hlt := kid_length_lt hkid
      have hle : (buildAll kids).length ≤ (build (.node kind pre joiner post add_final kids)).length := by
        rw [build]
        simp only [List.length_append]
        omega
      exact ih (by omega) (by omega)
    simp only [set_fields, msKind_fields, hkids]

/-! ## What belongs to the name -/

mutual

/-- Of an identifier only its identifiers, without the text after them. Of any other node what can be part of a
name. -/
def pruned : MarkedSource → MarkedSource
  | .node kind pre joiner post add_final kids =>
    .node kind pre joiner (if kind = MS_IDENTIFIER then "" else post) add_final
      (prunedAll (kind = MS_IDENTIFIER) kids)

def prunedAll (ident : Bool) : List MarkedSource → List MarkedSource
  | [] => []
  | kid :: kids =>
    if (if ident then kid.node_kind = MS_IDENTIFIER else !name_excluded kid.node_kind) then
      kid.pruned :: prunedAll ident kids
    else prunedAll ident kids

end

mutual

/-- The outermost contexts and identifiers, in document order. -/
def parts : MarkedSource → List MarkedSource
  | .node kind pre joiner post add_final kids =>
    if kind = MS_CONTEXT ∨ kind = MS_IDENTIFIER then [.node kind pre joiner post add_final kids] else partsAll kids

def partsAll : List MarkedSource → List MarkedSource
  | [] => []
  | kid :: kids => (if name_excluded kid.node_kind then [] else kid.parts) ++ partsAll kids

end

/-- The texts of the parts, one after the other. -/
def partsText (t : MarkedSource) : String := String.join (t.parts.map fun p => p.pruned.render_faithful)

/-- The name, without the colons at its end. -/
def nameOf (t : MarkedSource) : List Char := trimColons (trim t.partsText)

mutual

theorem render_name_eq : (t : MarkedSource) → t.render_name = t.pruned.render_faithful
  | .node kind pre joiner post add_final kids => by
    rw [render_name, pruned, render_faithful, renderNames_eq]

theorem renderNames_eq (ident : Bool) :
    (kids : List MarkedSource) → renderNames ident kids = renderAll (prunedAll ident kids)
  | [] => rfl
  | kid :: kids => by
    rw [renderNames, prunedAll]
    split_ifs
    · rw [renderAll, render_name_eq kid, renderNames_eq ident kids]
    · exact renderNames_eq ident kids
    · rw [renderAll, render_name_eq kid, renderNames_eq ident kids]
    · exact renderNames_eq ident kids

end

mutual

theorem collect_eq : (t : MarkedSource) → (is_root : Bool) →
    t.collect is_root = if !is_root && name_excluded t.node_kind then "" else t.partsText
  | .node kind pre joiner post add_final kids, is_root => by
    rw [collect, node_kind]
    split_ifs with hroot hkind
    · rfl
    · rw [partsText, parts, if_pos (by simpa using hkind), List.map_singleton, String.join_cons, String.join_nil,
        String.append_empty, render_name_eq]
    · rw [partsText, parts, if_neg (by simpa using hkind), collectAll_eq]

theorem collectAll_eq : (kids : List MarkedSource) →
    collectAll kids = String.join ((partsAll kids).map fun p => p.pruned.render_faithful)
  | [] => rfl
  | kid :: kids => by
    rw [collectAll, partsAll, List.map_append, String.join_append, collectAll_eq kids, collect_eq kid false]
    congr 1
    split_ifs with h1 h2 h2
    · rfl
    · simp [h2] at h1
    · simp [h2] at h1
    · rfl

end

/-! ## Edits -/

/-- A subtree below the root that is no part of a name is put in, taken out or exchanged for another. -/
inductive Edit : MarkedSource → MarkedSource → Prop
  | insert {kind pre joiner post add_final} (l : List MarkedSource) {x : MarkedSource} (r : List MarkedSource)
      (hx : name_excluded x.node_kind) :
      Edit (.node kind pre joiner post add_final (l ++ r)) (.node kind pre joiner post add_final (l ++ x :: r))
  | delete {kind pre joiner post add_final} (l : List MarkedSource) {x : MarkedSource} (r : List MarkedSource)
      (hx : name_excluded x.node_kind) :
      Edit (.node kind pre joiner post add_final (l ++ x :: r)) (.node kind pre joiner post add_final (l ++ r))
  | replace {kind pre joiner post add_final} (l : List MarkedSource) {x y : MarkedSource} (r : List MarkedSource)
      (hx : name_excluded x.node_kind) (hy : name_excluded y.node_kind) :
      Edit (.node kind pre joiner post add_final (l ++ x :: r)) (.node kind pre joiner post add_final (l ++ y :: r))
  | inside {kind pre joiner post add_final} (l : List MarkedSource) {x y : MarkedSource} (r : List MarkedSource)
      (h : Edit x y) :
      Edit (.node kind pre joiner post add_final (l ++ x :: r)) (.node kind pre joiner post add_final (l ++ y :: r))

theorem prunedAll_append (ident : Bool) (l r : List MarkedSource) :
    prunedAll ident (l ++ r) = prunedAll ident l ++ prunedAll ident r := by
  induction l with
  | nil => rfl
  | cons kid kids ih =>
    rw [List.cons_append, prunedAll, prunedAll, ih]
    split_ifs <;> rfl

theorem prunedAll_excluded (ident : Bool) {x : MarkedSource} (hx : name_excluded x.node_kind) (r : List MarkedSource) :
    prunedAll ident (x :: r) = prunedAll ident r := by
  have hne : x.node_kind ≠ MS_IDENTIFIER := by
    intro h
    rw [h] at hx
    exact absurd hx (by decide)
  rw [prunedAll, hx]
  cases ident <;> simp [hne]

theorem partsAll_append (l r : List MarkedSource) : partsAll (l ++ r) = partsAll l ++ partsAll r := by
  induction l with
  | nil => rfl
  | cons kid kids ih => rw [List.cons_append, partsAll, partsAll, ih, List.append_assoc]

theorem partsAll_excluded {x : MarkedSource} (hx : name_excluded x.node_kind) (r : List MarkedSource) :
    partsAll (x :: r) = partsAll r := by
  rw [partsAll, if_pos hx, List.nil_append]

/-- Two nodes that differ in their children only have the same parts, pruned, if their children have. -/
theorem same_parts {kind : UInt32} {pre joiner post : String} {add_final : Bool} {kids kids' : List MarkedSource}
    (hpruned : ∀ ident, prunedAll ident kids = prunedAll ident kids')
    (hparts : (partsAll kids).map pruned = (partsAll kids').map pruned) :
    pruned (.node kind pre joiner post add_final kids) = pruned (.node kind pre joiner post add_final kids') ∧
      (parts (.node kind pre joiner post add_final kids)).map pruned =
        (parts (.node kind pre joiner post add_final kids')).map pruned := by
  have hnode : pruned (.node kind pre joiner post add_final kids) =
      pruned (.node kind pre joiner post add_final kids') := by
    rw [pruned, pruned, hpruned]
  refine ⟨hnode, ?_⟩
  rw [parts, parts]
  split_ifs
  · rw [List.map_singleton, List.map_singleton, hnode]
  · exact hparts

theorem Edit.same {t t' : MarkedSource} (h : Edit t t') :
    t.node_kind = t'.node_kind ∧ t.pruned = t'.pruned ∧ t.parts.map pruned = t'.parts.map pruned := by
  induction h with
  | insert l r hx =>
    refine ⟨rfl, same_parts (fun ident => ?_) ?_⟩
    · rw [prunedAll_append, prunedAll_append, prunedAll_excluded ident hx]
    · rw [partsAll_append, partsAll_append, partsAll_excluded hx]
  | delete l r hx =>
    refine ⟨rfl, same_parts (fun ident => ?_) ?_⟩
    · rw [prunedAll_append, prunedAll_append, prunedAll_excluded ident hx]
    · rw [partsAll_append, partsAll_append, partsAll_excluded hx]
  | replace l r hx hy =>
    refine ⟨rfl, same_parts (fun ident => ?_) ?_⟩
    · rw [prunedAll_append, prunedAll_append, prunedAll_excluded ident hx, prunedAll_excluded ident hy]
    · rw [partsAll_append, partsAll_append, partsAll_excluded hx, partsAll_excluded hy]
  | inside l r _ ih =>
    obtain ⟨hkind, hpruned, hparts⟩ := ih
    refine ⟨rfl, same_parts (fun ident => ?_) ?_⟩
    · rw [prunedAll_append, prunedAll_append, prunedAll, prunedAll, hkind, hpruned]
    · rw [partsAll_append, partsAll_append, partsAll, partsAll, hkind, List.map_append, List.map_append, List.map_append,
        List.map_append]
      split_ifs
      · rfl
      · rw [hparts]

theorem Edit.nameOf_eq {t t' : MarkedSource} (h : Edit t t') : t'.nameOf = t.nameOf := by
  have htext : ∀ s : MarkedSource, s.partsText = String.join ((s.parts.map pruned).map render_faithful) := by
    intro s
    rw [partsText, List.map_map]
    rfl
  rw [nameOf, nameOf, htext, htext, h.same.2.2]

end MarkedSource

/-! ## The name that is returned -/

/-- Neither end is a whitespace. -/
def Trimmed (cs : List Char) : Prop := cs.dropWhile is_whitespace = cs ∧ cs.rdropWhile is_whitespace = cs

theorem dropWhile_eq_of_front {p : Char → Bool} {cs cs' : List Char} (h : cs.dropWhile p = cs) (hpre : cs' <+: cs) :
    cs'.dropWhile p = cs' := by
  cases cs' with
  | nil => rfl
  | cons c rest =>
    obtain ⟨tail, rfl⟩ := hpre
    rw [List.dropWhile_eq_self_iff] at h ⊢
    intro _
    exact h (Nat.succ_pos _)

theorem trimmed_trim (s : String) : Trimmed (trim s) := by
  have htrim : trim s = (s.toList.dropWhile is_whitespace).rdropWhile is_whitespace := rfl
  rw [htrim]
  exact ⟨dropWhile_eq_of_front (List.dropWhile_idempotent _ _) (List.rdropWhile_prefix _ _), List.rdropWhile_idempotent _ _⟩

theorem Trimmed.trimColons {cs : List Char} (h : Trimmed cs) : Trimmed (trimColons cs) := by
  have hcolons : Scry2.trimColons cs = (cs.rdropWhile (· = ':')).rdropWhile is_whitespace := rfl
  rw [hcolons]
  refine ⟨dropWhile_eq_of_front h.1 ?_, List.rdropWhile_idempotent _ _⟩
  exact (List.rdropWhile_prefix _ _).trans (List.rdropWhile_prefix _ _)

theorem Trimmed.trim_eq {cs : List Char} (h : Trimmed cs) : trim (String.ofList cs) = cs := by
  have htrim : trim (String.ofList cs) = ((String.ofList cs).toList.dropWhile is_whitespace).rdropWhile is_whitespace := rfl
  rw [htrim, String.toList_ofList, h.1, h.2]

/-- A returned name is one line, trimmed and without statement punctuation. -/
def NameText (s : String) : Prop :=
  s ≠ "" ∧ trim s = s.toList ∧ ∀ c ∈ s.toList, c ∉ ['\n', '\r', '\x7b', '\x7d', ';']

theorem nameText_of_trimmed {cs : List Char} (h : Trimmed cs) (hname : is_name cs = true) :
    NameText (String.ofList cs) := by
  rw [is_name, Bool.and_eq_true, decide_eq_true_eq, List.all_eq_true] at hname
  refine ⟨fun he => hname.1 ?_, ?_, fun c hc => ?_⟩
  · rw [← String.toList_ofList (l := cs), he]
    rfl
  · rw [h.trim_eq, String.toList_ofList]
  · rw [String.toList_ofList] at hc
    exact of_decide_eq_true (hname.2 c hc)

theorem parse_eq {buf : Bytes} {ms : MarkedSource} (h : MarkedSource.decode buf.length buf = ms) :
    parse_marked_source_fqn buf =
      if ms.nameOf ≠ [] then if is_name ms.nameOf then some (String.ofList ms.nameOf) else none
      else if is_name (trim ms.render_faithful) then some (String.ofList (trim ms.render_faithful)) else none := by
  have hcollect : ms.collect true = ms.partsText := by
    rw [MarkedSource.collect_eq]
    rfl
  rw [MarkedSource.nameOf, ← hcollect, ← h]
  rfl

theorem nameText_of_parse {buf : Bytes} {s : String} (h : parse_marked_source_fqn buf = some s) : NameText s := by
  rw [parse_eq rfl] at h
  generalize MarkedSource.decode buf.length buf = ms at h
  split at h
  · split at h
    · rename_i hname
      obtain rfl := Option.some.inj h
      exact nameText_of_trimmed (trimmed_trim _).trimColons hname
    · cases h
  · split at h
    · rename_i hname
      obtain rfl := Option.some.inj h
      exact nameText_of_trimmed (trimmed_trim _) hname
    · cases h

theorem parse_build {t : MarkedSource} (hlen : t.build.length < 2 ^ 64) (hname : t.nameOf ≠ []) :
    parse_marked_source_fqn t.build =
      if t.nameOf.all fun c => c ∉ ['\n', '\r', '\x7b', '\x7d', ';'] then some (String.ofList t.nameOf) else none := by
  rw [parse_eq (MarkedSource.decode_build hlen le_rfl), if_pos hname]
  simp [is_name, hname]

/-- The name of an encoded tree is that of its parts, whatever else the tree has, and every name that is returned
is one line without statement punctuation. -/
theorem marked_source_name :
    (∀ t : MarkedSource, t.build.length < 2 ^ 64 → t.nameOf ≠ [] →
      (parse_marked_source_fqn t.build =
        if t.nameOf.all fun c => c ∉ ['\n', '\r', '\x7b', '\x7d', ';'] then some (String.ofList t.nameOf) else none) ∧
      ∀ t', Relation.ReflTransGen MarkedSource.Edit t t' → t'.build.length < 2 ^ 64 →
        parse_marked_source_fqn t'.build = parse_marked_source_fqn t.build) ∧
    ∀ buf s, parse_marked_source_fqn buf = some s → NameText s := by
  refine ⟨fun t hlen hname => ⟨parse_build hlen hname, fun t' hedits hlen' => ?_⟩, fun buf s => nameText_of_parse⟩
  have hsame : t'.nameOf = t.nameOf := by
    clear hlen'
    induction hedits with
    | refl => rfl
    | tail _ hedit ih => exact hedit.nameOf_eq.trans ih
  have hname' : t'.nameOf ≠ [] := by
    rw [hsame]
    exact hname
  rw [parse_build hlen' hname', parse_build hlen hname, hsame]

/-- A function with its return type and its parameters, and the function without them. -/
def asWritten : MarkedSource :=
  .node MS_BOX "" "" "" false
    [.node MS_TYPE "jlong" "" "" false [], .node MS_BOX " " "" "" false [],
      .node MS_IDENTIFIER "nativeInit" "" "" false [], .node MS_PARAMETER "(" "" ")" false []]

def nameAlone : MarkedSource :=
  .node MS_BOX "" "" "" false
    [.node MS_BOX " " "" "" false [], .node MS_IDENTIFIER "nativeInit" "" "" false [],
      .node MS_PARAMETER "(" "" ")" false []]

theorem marked_source_name_nativeInit :
    parse_marked_source_fqn asWritten.build = some "nativeInit" ∧
      parse_marked_source_fqn nameAlone.build = some "nativeInit" := by
  have hname : asWritten.nameOf = "nativeInit".toList := by decide
  obtain ⟨hparse, hedits⟩ := marked_source_name.1 asWritten (by decide +kernel) (by rw [hname]; decide)
  have hedit : MarkedSource.Edit asWritten nameAlone := .delete [] _ (by decide)
  have hfirst : parse_marked_source_fqn asWritten.build = some "nativeInit" := by
    rw [hparse, hname]
    decide
  exact ⟨hfirst, (hedits _ (.single hedit) (by decide +kernel)).trans hfirst⟩

end Scry2
