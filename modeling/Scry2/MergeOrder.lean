import Scry2.Agree

/-!
# When the order of a merge does not matter

Edges, aliases, types and signatures merge the same in any order, and so do paths that agree. What
a symbol ends up with depends on the order exactly when two inputs know different kinds or
languages, or when all its names are degenerate and differ.
-/

open Scry2.Lib

namespace Scry2

/-! ## The first known code -/

/-- The first value that is not `UNK`. -/
def firstKnown (l : List UInt8) : UInt8 := (l.find? (· ≠ 0)).getD 0

theorem firstKnown_cons (c : UInt8) (l : List UInt8) :
    firstKnown (c :: l) = if c = 0 then firstKnown l else c := by
  unfold firstKnown
  by_cases h : c = 0 <;> simp [h]

theorem firstKnown_congr {l m : List UInt8} (hm : ∀ c, c ∈ l ↔ c ∈ m)
    (hagree : ∀ c ∈ l, ∀ d ∈ l, c ≠ 0 → d ≠ 0 → c = d) : firstKnown l = firstKnown m := by
  have key : ∀ l' : List UInt8, (∀ c, c ∈ l' ↔ c ∈ l) → ∀ c ∈ l, c ≠ 0 → firstKnown l' = c := by
    intro l' hl' c hc hc0
    unfold firstKnown
    cases hfind : l'.find? (· ≠ 0) with
    | none =>
      have := List.find?_eq_none.mp hfind c ((hl' c).mpr hc)
      simp [hc0] at this
    | some d =>
      have hd0 : d ≠ 0 := by simpa using List.find?_some hfind
      exact hagree d ((hl' d).mp (List.mem_of_find?_eq_some hfind)) c hc hd0 hc0
  by_cases hex : ∃ c ∈ l, c ≠ 0
  · obtain ⟨c, hc, hc0⟩ := hex
    rw [key l (fun _ => Iff.rfl) c hc hc0, key m (fun d => (hm d).symm) c hc hc0]
  · push Not at hex
    have hnone : ∀ l' : List UInt8, (∀ c ∈ l', c = 0) → firstKnown l' = 0 := by
      intro l' h
      unfold firstKnown
      rw [List.find?_eq_none.mpr (by simpa using h)]
      rfl
    rw [hnone l hex, hnone m fun c hc => hex c ((hm c).mpr hc)]

/-! ## What files record -/

/-- The files of the builders name one path for every id. -/
def PathsAgree (bs : List IndexBuilder) : Prop :=
  ∀ b ∈ bs, ∀ c ∈ bs, ∀ (k : UInt32) (p q : String), b.files[k]? = some p → c.files[k]? = some q → p = q

/-- What the files of the builders record of a symbol. -/
def recorded (bs : List IndexBuilder) (k : UInt64) : List SymMeta :=
  bs.filterMap fun b => b.syms[k]?.map SymMeta.clamped

/-- What the files of the builders hold. -/
def writtenFacts (bs : List IndexBuilder) : List Facts := bs.map fun b => b.facts.written

theorem writtenFacts_syms (bs : List IndexBuilder) (k : UInt64) :
    (writtenFacts bs).filterMap (fun F => F.syms k) = recorded bs k := by
  unfold writtenFacts recorded
  rw [List.filterMap_map]
  rfl

/-! ## What is recorded of one symbol -/

def langOf (m : Option SymMeta) : UInt8 := (m.map SymMeta.lang).getD Lang.UNK

theorem meta_ext {a b : Option SymMeta} (hname : a.map SymMeta.name = b.map SymMeta.name)
    (hkind : kindOf a = kindOf b) (hlang : langOf a = langOf b) : a = b := by
  cases a with
  | none =>
    cases b with
    | none => rfl
    | some b => simp at hname
  | some a =>
    cases b with
    | none => simp at hname
    | some b =>
      simp only [kindOf, langOf, Option.map_some, Option.getD_some, Option.some.injEq] at hname hkind hlang
      rw [Option.some.injEq]
      exact SymMeta.ext hkind hlang hname

section

variable [Unicode]

/-- The records of one symbol, merged from the left. -/
def mergeMetas (ms : List SymMeta) : Option SymMeta :=
  ms.foldl (fun acc m => combine SymMeta.refine acc (some m)) none

theorem mergeMetas_cons (m : SymMeta) (ms : List SymMeta) :
    mergeMetas (m :: ms) = combine SymMeta.refine (some m) (mergeMetas ms) :=
  foldl_combine SymMeta.refine_assoc ms (some m)

theorem kindOf_mergeMetas (ms : List SymMeta) :
    kindOf (mergeMetas ms) = firstKnown (ms.map SymMeta.kind) := by
  induction ms with
  | nil => rfl
  | cons m ms ih =>
    rw [mergeMetas_cons, kindOf_combine, ih, List.map_cons, firstKnown_cons]
    by_cases h : m.kind = 0 <;> simp [kindOf, Kind.UNK, h]

theorem langOf_mergeMetas (ms : List SymMeta) :
    langOf (mergeMetas ms) = firstKnown (ms.map SymMeta.lang) := by
  induction ms with
  | nil => rfl
  | cons m ms ih =>
    rw [mergeMetas_cons, List.map_cons, firstKnown_cons, ← ih]
    cases mergeMetas ms with
    | none => by_cases h : m.lang = 0 <;> simp [langOf, Lang.UNK, h]
    | some n => by_cases h : m.lang = 0 <;> simp [langOf, Lang.UNK, SymMeta.refine, h]

theorem name_mergeMetas (ms : List SymMeta) :
    (mergeMetas ms).map SymMeta.name = bestOf nameRank (ms.map SymMeta.name) := by
  induction ms with
  | nil => rfl
  | cons m ms ih =>
    rw [mergeMetas_cons, List.map_cons, bestOf_cons, ← ih]
    cases mergeMetas ms with
    | none => rfl
    | some n => simp [SymMeta.refine, pickName_eq]

/-- The records agree: at most one known kind and one known language, and a usable name or at most
one name. -/
structure OrderFree (ms : List SymMeta) : Prop where
  kinds : ∀ m ∈ ms, ∀ n ∈ ms, m.kind ≠ Kind.UNK → n.kind ≠ Kind.UNK → m.kind = n.kind
  langs : ∀ m ∈ ms, ∀ n ∈ ms, m.lang ≠ Lang.UNK → n.lang ≠ Lang.UNK → m.lang = n.lang
  names : (∃ m ∈ ms, is_degenerate_name m.name = false) ∨
    ∀ m ∈ ms, ∀ n ∈ ms, m.name ≠ "" → n.name ≠ "" → m.name = n.name

theorem usable_iff (s : String) : is_degenerate_name s = false ↔ 2 ≤ nameClass s := by
  unfold nameClass
  by_cases h : s = ""
  · subst h
    simp [is_degenerate_name, trim]
  · cases hd : is_degenerate_name s with
    | true => simp [h]
    | false => rw [if_neg h, if_neg (by simp)]; split_ifs <;> simp

theorem nameRank_le_of_class {a b : String} (ha : nameClass a = 1) (hb : nameClass b < 2) :
    nameRank b ≤ nameRank a := by
  unfold nameRank
  rw [Prod.Lex.toLex_le_toLex, ha, if_pos hb, if_pos (by omega)]
  rcases Nat.lt_or_ge (nameClass b) 1 with h | h
  · exact Or.inl h
  · exact Or.inr ⟨by omega, le_rfl⟩

theorem OrderFree.mergeMetas_eq {ms ns : List SymMeta} (h : OrderFree ms) (hp : ns.Perm ms) :
    mergeMetas ns = mergeMetas ms := by
  apply meta_ext
  · rw [name_mergeMetas, name_mergeMetas]
    have hmem : ∀ s, s ∈ ns.map SymMeta.name ↔ s ∈ ms.map SymMeta.name := fun s =>
      (hp.map SymMeta.name).mem_iff
    cases hn : bestOf nameRank (ns.map SymMeta.name) with
    | none =>
      cases hm : bestOf nameRank (ms.map SymMeta.name) with
      | none => rfl
      | some s =>
        obtain ⟨t, ht⟩ := bestOf_isSome nameRank ((hmem s).mpr (bestOf_spec _ hm).1)
        rw [hn] at ht
        cases ht
    | some s =>
      obtain ⟨hs, hsmax⟩ := bestOf_spec _ hn
      obtain ⟨t, ht⟩ := bestOf_isSome nameRank ((hmem s).mp hs)
      obtain ⟨htm, htmax⟩ := bestOf_spec _ ht
      rw [ht]
      have hrank : nameRank s = nameRank t :=
        le_antisymm (htmax s ((hmem s).mp hs)) (hsmax t ((hmem t).mpr htm))
      rcases nameRank_inj hrank with rfl | ⟨hs1, ht1⟩
      · rfl
      · -- Both degenerate: then no name is usable, so there is only one.
        obtain ⟨m, hm, rfl⟩ := List.mem_map.mp ((hmem s).mp hs)
        obtain ⟨n, hn', rfl⟩ := List.mem_map.mp htm
        have hne : ∀ {u : String}, nameClass u = 1 → u ≠ "" := fun hu h0 => by
          rw [(nameClass_eq_zero_iff _).mpr h0] at hu; omega
        rcases h.names with ⟨u, hu, hus⟩ | hone
        · have hle := htmax u.name (List.mem_map_of_mem hu)
          have hcl : nameClass u.name ≤ nameClass n.name := by
            rw [nameRank, nameRank, Prod.Lex.toLex_le_toLex] at hle
            rcases hle with hle | hle
            · exact hle.le
            · exact hle.1.le
          have := (usable_iff _).mp hus
          omega
        · rw [hone m hm n hn' (hne hs1) (hne ht1)]
  · rw [kindOf_mergeMetas, kindOf_mergeMetas]
    symm
    apply firstKnown_congr fun c => (hp.map SymMeta.kind).mem_iff.symm
    simp only [List.mem_map]
    rintro c ⟨m, hm, rfl⟩ d ⟨n, hn, rfl⟩ hc hd
    exact h.kinds m hm n hn hc hd
  · rw [langOf_mergeMetas, langOf_mergeMetas]
    symm
    apply firstKnown_congr fun c => (hp.map SymMeta.lang).mem_iff.symm
    simp only [List.mem_map]
    rintro c ⟨m, hm, rfl⟩ d ⟨n, hn, rfl⟩ hc hd
    exact h.langs m hm n hn hc hd

/-- A merge that can start with any record and always ends with the same one. -/
theorem orderFree_of_first {ms : List SymMeta} {M : Option SymMeta}
    (h : ∀ m ∈ ms, ∃ rest, (∀ n ∈ rest, n ∈ ms) ∧ mergeMetas (m :: rest) = M) : OrderFree ms := by
  have hkind : ∀ m ∈ ms, m.kind ≠ Kind.UNK → kindOf M = m.kind := by
    intro m hm hk
    obtain ⟨rest, -, rfl⟩ := h m hm
    rw [kindOf_mergeMetas, List.map_cons, firstKnown_cons]
    exact if_neg hk
  have hlang : ∀ m ∈ ms, m.lang ≠ Lang.UNK → langOf M = m.lang := by
    intro m hm hk
    obtain ⟨rest, -, rfl⟩ := h m hm
    rw [langOf_mergeMetas, List.map_cons, firstKnown_cons]
    exact if_neg hk
  refine ⟨fun m hm n hn h1 h2 => (hkind m hm h1).symm.trans (hkind n hn h2),
    fun m hm n hn h1 h2 => (hlang m hm h1).symm.trans (hlang n hn h2), ?_⟩
  by_cases hu : ∃ m ∈ ms, is_degenerate_name m.name = false
  · exact Or.inl hu
  · right
    push Not at hu
    have hclass : ∀ m ∈ ms, nameClass m.name < 2 := by
      intro m hm
      by_contra hge
      exact hu m hm ((usable_iff _).mpr (not_lt.mp hge))
    have hname : ∀ m ∈ ms, m.name ≠ "" → M.map SymMeta.name = some m.name := by
      intro m hm hne
      obtain ⟨rest, hrest, rfl⟩ := h m hm
      have h1 : nameClass m.name = 1 := by
        have hpos := mt (nameClass_eq_zero_iff m.name).mp hne
        have := hclass m hm
        omega
      rw [name_mergeMetas, List.map_cons, bestOf_cons_of_le]
      simp only [List.mem_map]
      rintro s ⟨n, hn, rfl⟩
      exact nameRank_le_of_class h1 (hclass n (hrest n hn))
    intro m hm n hn h1 h2
    exact Option.some.inj ((hname m hm h1).symm.trans (hname n hn h2))

/-! ## Products by components -/

theorem prod_option {β : Type} (π : Facts → Option β) {op : β → β → β} (hone : π 1 = none)
    (hmul : ∀ F G, π (F * G) = combine op (π F) (π G))
    (hassoc : ∀ a b c, op (op a b) c = op a (op b c)) (Fs : List Facts) :
    π Fs.prod = (Fs.filterMap π).foldl (fun acc a => combine op acc (some a)) none := by
  induction Fs with
  | nil => exact hone
  | cons F Fs ih =>
    rw [List.prod_cons, hmul, ih, List.filterMap_cons]
    cases π F with
    | none => rfl
    | some a => exact (foldl_combine hassoc _ _).symm

theorem mem_prod {α : Type} (π : Facts → Set α) (hone : π 1 = ∅)
    (hmul : ∀ F G, π (F * G) = π F ∪ π G) {Fs : List Facts} {x : α} :
    x ∈ π Fs.prod ↔ ∃ F ∈ Fs, x ∈ π F := by
  induction Fs with
  | nil => simp [hone]
  | cons F Fs ih => simp [hmul, ih]

theorem prod_set_perm {α : Type} (π : Facts → Set α) (hone : π 1 = ∅)
    (hmul : ∀ F G, π (F * G) = π F ∪ π G) {Fs Gs : List Facts} (h : Gs.Perm Fs) :
    π Gs.prod = π Fs.prod := by
  ext x
  rw [mem_prod π hone hmul, mem_prod π hone hmul]
  simp only [h.mem_iff]

theorem prod_syms (Fs : List Facts) (k : UInt64) :
    Fs.prod.syms k = mergeMetas (Fs.filterMap fun F => F.syms k) :=
  prod_option (fun F => F.syms k) rfl (fun _ _ => rfl) SymMeta.refine_assoc Fs

theorem prod_text_perm (π : Facts → Option String) (hone : π 1 = none)
    (hmul : ∀ F G, π (F * G) = combine pickText (π F) (π G)) {Fs Gs : List Facts} (h : Gs.Perm Fs) :
    π Gs.prod = π Fs.prod := by
  have hbest : ∀ Hs : List Facts, π Hs.prod = bestOf textRank (Hs.filterMap π) := by
    intro Hs
    rw [prod_option π hone hmul pickText_assoc]
    unfold bestOf
    congr 1
    funext acc a
    congr 1
    funext x y
    exact pickText_eq x y
  rw [hbest, hbest]
  apply Option.ext
  intro t
  rw [bestOf_eq_some_iff _ textRank_injective, bestOf_eq_some_iff _ textRank_injective]
  simp only [(h.filterMap π).mem_iff]

theorem prod_files_perm {Fs Gs : List Facts} (h : Gs.Perm Fs) (k : UInt32)
    (hagree : ∀ F ∈ Fs, ∀ G ∈ Fs, ∀ p q, F.files k = some p → G.files k = some q → p = q) :
    Gs.prod.files k = Fs.prod.files k := by
  have hfirst : ∀ Hs : List Facts, Hs.prod.files k = (Hs.filterMap fun F => F.files k).head? := by
    intro Hs
    rw [prod_option (fun F => F.files k) rfl (fun _ _ => rfl) (fun _ _ _ => rfl)]
    cases Hs.filterMap fun F => F.files k with
    | nil => rfl
    | cons p ps => rw [List.foldl_cons, foldl_combine (fun _ _ _ => rfl)]; cases ps.foldl _ none <;> rfl
  have hmem : ∀ p, p ∈ Gs.filterMap (fun F => F.files k) ↔ p ∈ Fs.filterMap fun F => F.files k :=
    fun p => (h.filterMap _).mem_iff
  rw [hfirst, hfirst]
  cases hG : Gs.filterMap fun F => F.files k with
  | nil =>
    cases hF : Fs.filterMap fun F => F.files k with
    | nil => rfl
    | cons q qs =>
      have := (hmem q).mpr (by rw [hF]; exact List.mem_cons_self)
      rw [hG] at this
      cases this
  | cons p ps =>
    have hp := (hmem p).mp (by rw [hG]; exact List.mem_cons_self)
    cases hF : Fs.filterMap fun F => F.files k with
    | nil => rw [hF] at hp; cases hp
    | cons q qs =>
      have hq : q ∈ Fs.filterMap fun F => F.files k := by rw [hF]; exact List.mem_cons_self
      obtain ⟨F, hF', hFp⟩ := List.mem_filterMap.mp hp
      obtain ⟨G, hG', hGq⟩ := List.mem_filterMap.mp hq
      simp only [List.head?_cons, Option.some.injEq]
      exact hagree F hF' G hG' p q hFp hGq

/-- The visible facts of a product, in any order of its factors. -/
theorem visible_prod_perm {Fs Gs : List Facts} (h : Gs.Perm Fs)
    (hsyms : ∀ k, OrderFree (Fs.filterMap fun F => F.syms k))
    (hfiles : ∀ k, ∀ F ∈ Fs, ∀ G ∈ Fs, ∀ p q, F.files k = some p → G.files k = some q → p = q) :
    Gs.prod.visible = Fs.prod.visible := by
  have hs : Gs.prod.syms = Fs.prod.syms := by
    funext k
    rw [prod_syms, prod_syms]
    exact (hsyms k).mergeMetas_eq (h.filterMap _)
  apply Facts.ext
  · exact prod_set_perm Facts.xrefs rfl (fun _ _ => rfl) h
  · exact hs
  · exact funext fun k => prod_files_perm h k (hfiles k)
  · exact prod_set_perm Facts.inherits rfl (fun _ _ => rfl) h
  · have ha := prod_set_perm Facts.aliases rfl (fun _ _ => rfl) h
    unfold Facts.visible Facts.isVar
    simp only [hs, ha]
  · exact prod_set_perm Facts.calls rfl (fun _ _ => rfl) h
  · exact funext fun k => prod_text_perm (fun F => F.typed k) rfl (fun _ _ => rfl) h
  · exact prod_set_perm Facts.childof rfl (fun _ _ => rfl) h
  · exact funext fun k => prod_text_perm (fun F => F.sig k) rfl (fun _ _ => rfl) h

/-! ## Files -/

theorem merge_group_global_eq {bs : List IndexBuilder} {files : List Bytes}
    (hfiles : List.Forall₂ (fun b f => b.finish = .ok f) bs files) :
    ∃ t : Tables (writtenFacts bs).prod.visible, merge_group_global files = t.rows.finishFile := by
  have hrender : List.Forall₂ Facts.RendersTo (bs.map fun b => b.facts.visible) files :=
    List.forall₂_map_left_iff.mpr (hfiles.imp fun _ _ h => IndexBuilder.rendersTo_of_finish h)
  have hne : ∀ F ∈ bs.map fun b => b.facts.visible, F.Ne := by
    simp only [List.mem_map]
    rintro F ⟨b, -, rfl⟩
    exact b.facts_ne.visible
  obtain ⟨ixs, hopen, hholds⟩ := open_all hrender hne
  rw [List.map_map] at hholds
  have hne' : ∀ F ∈ writtenFacts bs, F.Ne := by
    simp only [writtenFacts, List.mem_map]
    rintro F ⟨b, -, rfl⟩
    exact b.facts_ne.visible.clamped
  obtain ⟨t, -⟩ := IndexBuilder.new.mergedRows_eq hholds hne'
  have heq := IndexBuilder.new.write_merged_snapshot_eq hholds hne' t
  have hone : (writtenFacts bs).prod * IndexBuilder.new.facts = (writtenFacts bs).prod := by
    rw [IndexBuilder.facts_new, mul_one]
  refine ⟨hone ▸ t, ?_⟩
  unfold merge_group_global
  rw [hopen]
  exact heq.trans (finishFile_congr (congrArg Facts.visible hone) _ _)

theorem writtenFacts_short (bs : List IndexBuilder) : (writtenFacts bs).prod.Short := by
  apply Facts.short_prod
  simp only [writtenFacts, List.mem_map]
  rintro F ⟨b, -, rfl⟩
  exact Facts.clamped_short _

theorem writtenFacts_ne (bs : List IndexBuilder) : (writtenFacts bs).prod.Ne := by
  apply Facts.ne_prod
  simp only [writtenFacts, List.mem_map]
  rintro F ⟨b, -, rfl⟩
  exact b.facts_ne.visible.clamped

theorem mergeMetas_eq_of_merge_eq {bs cs : List IndexBuilder} {files files' : List Bytes} {out : Bytes}
    (hb : List.Forall₂ (fun b f => b.finish = .ok f) bs files)
    (hc : List.Forall₂ (fun b f => b.finish = .ok f) cs files') (h : merge_group_global files = .ok out)
    (h' : merge_group_global files' = .ok out) (k : UInt64) :
    mergeMetas (recorded cs k) = mergeMetas (recorded bs k) := by
  obtain ⟨t, ht⟩ := merge_group_global_eq hb
  obtain ⟨u, hu⟩ := merge_group_global_eq hc
  have hF : (writtenFacts bs).prod.visible.RendersTo out := ⟨t, ht.symm.trans h⟩
  have hG : (writtenFacts cs).prod.visible.RendersTo out := ⟨u, hu.symm.trans h'⟩
  have e := hF.unique hG (writtenFacts_ne bs).visible (writtenFacts_ne cs).visible
  rw [Facts.clamped_of_short (writtenFacts_short bs).visible,
    Facts.clamped_of_short (writtenFacts_short cs).visible] at e
  have := congrFun (congrArg Facts.syms e) k
  rw [← writtenFacts_syms, ← writtenFacts_syms, ← prod_syms, ← prod_syms]
  exact this.symm

/-- For files that agree on paths, every order of merging them gives the same bytes exactly when
their records of every symbol agree. -/
theorem merge_order_free_iff {bs : List IndexBuilder} {files : List Bytes} {out : Bytes}
    (hfiles : List.Forall₂ (fun b f => b.finish = .ok f) bs files) (hpaths : PathsAgree bs)
    (hout : merge_group_global files = .ok out) :
    (∀ files', files'.Perm files → merge_group_global files' = .ok out) ↔
      ∀ k, OrderFree (recorded bs k) := by
  constructor
  · intro h k
    apply orderFree_of_first (M := mergeMetas (recorded bs k))
    intro m hm
    -- Merge the file that records `m` first.
    obtain ⟨b, hb, hbm⟩ := List.mem_filterMap.mp hm
    obtain ⟨l₁, l₂, rfl⟩ := List.mem_iff_append.mp hb
    have hperm : (b :: (l₁ ++ l₂)).Perm (l₁ ++ b :: l₂) := List.perm_middle.symm
    obtain ⟨files', hc, hp⟩ := List.perm_comp_forall₂ hperm hfiles
    refine ⟨recorded (l₁ ++ l₂) k, ?_, ?_⟩
    · intro n hn
      obtain ⟨c, hc', hcn⟩ := List.mem_filterMap.mp hn
      exact List.mem_filterMap.mpr ⟨c, hperm.mem_iff.mp (List.mem_cons_of_mem _ hc'), hcn⟩
    · have e : recorded (b :: (l₁ ++ l₂)) k = m :: recorded (l₁ ++ l₂) k := by
        unfold recorded
        rw [List.filterMap_cons, hbm]
      rw [← e]
      exact mergeMetas_eq_of_merge_eq hfiles hc hout (h files' hp) k
  · intro h files' hp
    obtain ⟨cs, hcs, hperm⟩ := List.perm_comp_forall₂ hp hfiles.flip
    obtain ⟨t, ht⟩ := merge_group_global_eq hfiles
    obtain ⟨u, hu⟩ := merge_group_global_eq hcs.flip
    rw [hu, ← hout, ht]
    apply finishFile_congr
    apply visible_prod_perm (hperm.map _)
    · intro k
      have := h k
      rwa [← writtenFacts_syms] at this
    · intro k F hF G hG p q hp' hq
      obtain ⟨b, hb, rfl⟩ := List.mem_map.mp hF
      obtain ⟨c, hc, rfl⟩ := List.mem_map.mp hG
      obtain ⟨p', hp'', rfl⟩ := Option.map_eq_some_iff.mp hp'
      obtain ⟨q', hq', rfl⟩ := Option.map_eq_some_iff.mp hq
      rw [hpaths b hb c hc k p' q' hp'' hq']

theorem merge_eq_finish_of_no_aliases {bs : List IndexBuilder} {files : List Bytes}
    (hfiles : List.Forall₂ (fun b f => b.finish = .ok f) bs files)
    (h : ∀ b ∈ bs, b.Short ∧ b.aliases = []) :
    merge_group_global files = (bs.foldl IndexBuilder.merge_from .new).finish := by
  obtain ⟨t, ht⟩ := merge_group_global_eq hfiles
  rw [ht, IndexBuilder.finish_eq]
  apply finishFile_congr
  rw [IndexBuilder.facts_foldl_merge_from, IndexBuilder.facts_new, one_mul]
  have e : writtenFacts bs = bs.map IndexBuilder.facts := by
    apply List.map_congr_left
    intro b hb
    rw [Facts.written_of_short (h b hb).1.facts]
    apply Facts.ext <;> try rfl
    simp [Facts.visible, IndexBuilder.facts, (h b hb).2]
  rw [e]

end

/-! A Java field whose kind one unit learned from its subkind and another did not. -/

section

attribute [local instance] asciiUnicode

def varSeen : IndexBuilder := IndexBuilder.new.upsert_sym 1 Kind.VARIABLE Lang.JAVA "p.C.f"

def fieldSeen : IndexBuilder := varSeen.mark_field 1

theorem varSeen_finish : varSeen.finish = .ok varSeen.finishRows.bytes :=
  (Rows.finishFile_eq _).trans (if_pos (by decide +kernel))

theorem fieldSeen_finish : fieldSeen.finish = .ok fieldSeen.finishRows.bytes :=
  (Rows.finishFile_eq _).trans (if_pos (by decide +kernel))

/-- The unit that declares the field. -/
def fieldDecl : IndexBuilder := (fieldSeen.upsert_file 1 "p/C.java").add_xref 1 Role.DEF 1 4

/-- A unit that knows the same file and reads the field, without its kind. -/
def fieldUse : IndexBuilder :=
  ((((IndexBuilder.new.upsert_file 1 "p/C.java").upsert_file 2 "p/D.java").upsert_sym 1 Kind.UNK Lang.JAVA
    "p.C.f").upsert_sym 3 Kind.FUNCTION Lang.JAVA "p.D.m").add_xref 1 Role.REF 2 17

theorem fieldDecl_finish : fieldDecl.finish = .ok fieldDecl.finishRows.bytes :=
  (Rows.finishFile_eq _).trans (if_pos (by decide +kernel))

theorem fieldUse_finish : fieldUse.finish = .ok fieldUse.finishRows.bytes :=
  (Rows.finishFile_eq _).trans (if_pos (by decide +kernel))

theorem fieldDecl_pathsAgree : PathsAgree [fieldDecl, fieldUse] := by
  have h : ∀ b ∈ [fieldDecl, fieldUse], ∀ c ∈ [fieldDecl, fieldUse], ∀ e ∈ b.files.toList, ∀ f ∈ c.files.toList,
      e.1 = f.1 → e.2 = f.2 := by decide +kernel
  intro b hb c hc k p q hp hq
  exact h b hb c hc (k, p) (((tabulates_toList b.files).2 k p).mpr hp) (k, q)
    (((tabulates_toList c.files).2 k q).mpr hq) rfl

theorem fieldDecl_orderFree (k : UInt64) : OrderFree (recorded [fieldDecl, fieldUse] k) := by
  have h : ∀ b ∈ [fieldDecl, fieldUse], ∀ c ∈ [fieldDecl, fieldUse], ∀ e ∈ b.syms.toList, ∀ f ∈ c.syms.toList,
      e.1 = f.1 → (e.2.kind ≠ Kind.UNK → f.2.kind ≠ Kind.UNK → e.2.kind = f.2.kind) ∧ e.2.lang = f.2.lang ∧
        e.2.name = f.2.name := by decide +kernel
  have hrecord : ∀ m ∈ recorded [fieldDecl, fieldUse] k, ∃ b ∈ [fieldDecl, fieldUse], ∃ e ∈ b.syms.toList,
      e.1 = k ∧ e.2.clamped = m := by
    intro m hm
    obtain ⟨b, hb, hbm⟩ := List.mem_filterMap.mp hm
    obtain ⟨e, he, rfl⟩ := Option.map_eq_some_iff.mp hbm
    exact ⟨b, hb, (k, e), ((tabulates_toList b.syms).2 k e).mpr he, rfl, rfl⟩
  have hpair : ∀ m ∈ recorded [fieldDecl, fieldUse] k, ∀ n ∈ recorded [fieldDecl, fieldUse] k,
      (m.kind ≠ Kind.UNK → n.kind ≠ Kind.UNK → m.kind = n.kind) ∧ m.lang = n.lang ∧ m.name = n.name := by
    intro m hm n hn
    obtain ⟨b, hb, e, he, rfl, rfl⟩ := hrecord m hm
    obtain ⟨c, hc, f, hf, hkey, rfl⟩ := hrecord n hn
    obtain ⟨hkind, hlang, hname⟩ := h b hb c hc e he f hf hkey.symm
    exact ⟨hkind, hlang, congrArg clamp_blob_str hname⟩
  exact ⟨fun m hm n hn => (hpair m hm n hn).1, fun m hm n hn _ _ => (hpair m hm n hn).2.1,
    .inr fun m hm n hn _ _ => (hpair m hm n hn).2.2⟩

/-- Two files that share a path and a symbol, in both orders. -/
theorem merge_order_free_iff_fieldUse :
    ∃ f g out, fieldDecl.finish = .ok f ∧ fieldUse.finish = .ok g ∧ f ≠ g ∧ PathsAgree [fieldDecl, fieldUse] ∧
      merge_group_global [f, g] = .ok out ∧ merge_group_global [g, f] = .ok out := by
  have hfiles : List.Forall₂ (fun b f => b.finish = .ok f) [fieldDecl, fieldUse]
      [fieldDecl.finishRows.bytes, fieldUse.finishRows.bytes] :=
    .cons fieldDecl_finish (.cons fieldUse_finish .nil)
  have hout := (merge_eq_finish_of_no_aliases hfiles (by decide +kernel)).trans
    ((Rows.finishFile_eq _).trans (if_pos (by decide +kernel)))
  have hfree := (merge_order_free_iff hfiles fieldDecl_pathsAgree hout).mpr fieldDecl_orderFree
  exact ⟨_, _, _, fieldDecl_finish, fieldUse_finish, by decide +kernel, fieldDecl_pathsAgree, hout,
    hfree _ (.swap _ _ _)⟩

theorem merge_order_matters :
    ∃ f g out out', varSeen.finish = .ok f ∧ fieldSeen.finish = .ok g ∧
      PathsAgree [varSeen, fieldSeen] ∧ merge_group_global [f, g] = .ok out ∧
      merge_group_global [g, f] = .ok out' ∧ out ≠ out' := by
  have h1 : List.Forall₂ (fun b f => b.finish = .ok f) [varSeen, fieldSeen]
      [varSeen.finishRows.bytes, fieldSeen.finishRows.bytes] :=
    .cons varSeen_finish (.cons fieldSeen_finish .nil)
  have h2 : List.Forall₂ (fun b f => b.finish = .ok f) [fieldSeen, varSeen]
      [fieldSeen.finishRows.bytes, varSeen.finishRows.bytes] :=
    .cons fieldSeen_finish (.cons varSeen_finish .nil)
  have o1 := (merge_eq_finish_of_no_aliases h1 (by decide +kernel)).trans
    ((Rows.finishFile_eq _).trans (if_pos (by decide +kernel)))
  have o2 := (merge_eq_finish_of_no_aliases h2 (by decide +kernel)).trans
    ((Rows.finishFile_eq _).trans (if_pos (by decide +kernel)))
  refine ⟨_, _, _, _, varSeen_finish, fieldSeen_finish, ?_, o1, o2, fun e => ?_⟩
  · have hnone : ∀ b ∈ [varSeen, fieldSeen], ∀ k : UInt32, b.files[k]? = none := by
      rintro b hb k
      have hempty : b.files.toList = [] := by
        revert b
        decide +kernel
      cases hk : b.files[k]? with
      | none => rfl
      | some p =>
        have := ((tabulates_toList b.files).2 k p).mpr hk
        rw [hempty] at this
        cases this
    intro b hb c _ k p q hp
    rw [hnone b hb k] at hp
    cases hp
  · -- The kind of symbol 1 is the one merged first.
    have hk := mergeMetas_eq_of_merge_eq h1 h2 o1 (o2.trans (congrArg Except.ok e.symm)) 1
    have hne : ((mergeMetas (recorded [fieldSeen, varSeen] 1)).map SymMeta.kind) ≠
        (mergeMetas (recorded [varSeen, fieldSeen] 1)).map SymMeta.kind := by decide +kernel
    exact hne (congrArg _ hk)

end

end Scry2
