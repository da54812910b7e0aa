import Scry2.Buffers

/-!
# Which bodies are recorded

An anchor keeps one symbol for the body whose end has not come. A `defines` edge that comes before the
end is recorded if it is the last one, or if the anchor still lacked its kind or its start when the end
came.
-/

open Scry2.Lib

namespace Scry2

namespace History

/-! ## Histories with one start -/

def OneStart (h : History) : Prop := ∀ n n', .start n ∈ h → .start n' ∈ h → n = n'

def OneStop (h : History) : Prop := ∀ m m', .stop m ∈ h → .stop m' ∈ h → m = m'

section

variable {h : History}

theorem isAnchor_iff : h.isAnchor = true ↔ .anchor ∈ h := by
  induction h with
  | nil => simp [isAnchor]
  | cons ev h ih => cases ev <;> simp [isAnchor, ih]

theorem start_mem {n : UInt32} (hn : h.start? = some n) : .start n ∈ h := by
  induction h with
  | nil => cases hn
  | cons ev h ih =>
    cases ev with
    | start k => cases hn; exact List.mem_cons_self
    | _ => exact List.mem_cons_of_mem _ (ih hn)

theorem stop_mem {m : UInt32} (hm : h.stop? = some m) : .stop m ∈ h := by
  induction h with
  | nil => cases hm
  | cons ev h ih =>
    cases ev with
    | stop k => cases hm; exact List.mem_cons_self
    | _ => exact List.mem_cons_of_mem _ (ih hm)

theorem start_isSome {n : UInt32} (hn : .start n ∈ h) : h.start?.isSome := by
  induction h with
  | nil => cases hn
  | cons ev h ih =>
    cases ev with
    | start k => rfl
    | _ => exact ih ((List.mem_cons.mp hn).resolve_left nofun)

theorem stop_isSome {m : UInt32} (hm : .stop m ∈ h) : h.stop?.isSome := by
  induction h with
  | nil => cases hm
  | cons ev h ih =>
    cases ev with
    | stop k => rfl
    | _ => exact ih ((List.mem_cons.mp hm).resolve_left nofun)

theorem mem_edges_iff {t : VName} {role : UInt8} : (t, role) ∈ h.edges ↔ .ref t role ∈ h := by
  induction h with
  | nil => simp [edges]
  | cons ev h ih => cases ev <;> simp [edges, ih, or_comm]

theorem OneStart.tail {ev : Event} (h1 : OneStart (ev :: h)) : OneStart h :=
  fun n n' hn hn' => h1 n n' (List.mem_cons_of_mem _ hn) (List.mem_cons_of_mem _ hn')

theorem OneStop.tail {ev : Event} (h1 : OneStop (ev :: h)) : OneStop h :=
  fun n n' hn hn' => h1 n n' (List.mem_cons_of_mem _ hn) (List.mem_cons_of_mem _ hn')

theorem OneStart.place_iff (h1 : OneStart h) {n : UInt32} : h.place = some n ↔ .anchor ∈ h ∧ .start n ∈ h := by
  rw [place_eq_some, isAnchor_iff]
  refine and_congr_right fun _ => ⟨start_mem, fun hn => ?_⟩
  obtain ⟨k, hk⟩ := Option.isSome_iff_exists.mp (start_isSome hn)
  rw [hk, h1 k n (start_mem hk) hn]

theorem OneStop.stop_iff (h1 : OneStop h) {m : UInt32} : h.stop? = some m ↔ .stop m ∈ h := by
  refine ⟨stop_mem, fun hm => ?_⟩
  obtain ⟨k, hk⟩ := Option.isSome_iff_exists.mp (stop_isSome hm)
  rw [hk, h1 k m (stop_mem hk) hm]

theorem OneStart.place_cons {ev : Event} (h1 : OneStart (ev :: h)) {n : UInt32} (hn : h.place = some n) :
    place (ev :: h) = some n := by
  obtain ⟨ha, hs⟩ := h1.tail.place_iff.mp hn
  exact h1.place_iff.mpr ⟨List.mem_cons_of_mem _ ha, List.mem_cons_of_mem _ hs⟩

/-- Rows of edges: all edges have their rows once the place is known. -/
theorem OneStart.mem_written {ρ : Type} {R : History → List ρ} {f : UInt32 → VName × UInt8 → List ρ} (hnil : R [] = [])
    (hcons : ∀ ev (h : History), R (ev :: h) = R h ++
      (place (ev :: h)).toList.flatMap fun n => (h.arrivals ev).flatMap (f n))
    (h1 : OneStart h) (r : ρ) : r ∈ R h ↔ ∃ n, h.place = some n ∧ ∃ e ∈ h.edges, r ∈ f n e := by
  induction h with
  | nil => simp [hnil, place, isAnchor]
  | cons ev h ih =>
    rw [hcons, List.mem_append, ih h1.tail]
    cases hp : place h with
    | some n =>
      -- Nothing waits, and only an edge brings rows.
      have hpending : pending h = [] := by simp [pending, hp]
      rw [h1.place_cons hp]
      cases ev <;> simp [arrivals, hpending, edges, or_and_right, exists_or]
    | none =>
      cases hq : place (ev :: h) with
      | none => simp
      | some n =>
        have hpending : pending h = edges h := by simp [pending, hp]
        have hnot := place_eq_none.mp hp
        obtain ⟨ha, hs⟩ := place_eq_some.mp hq
        cases ev with
        | anchor => simp [arrivals, hpending, edges]
        | start k => simp [arrivals, hpending, edges]
        | _ => exact absurd hs (hnot ha n)


end

/-! ## The definition that waits for the end -/

end History

/-- What the event defines. -/
def Event.defined : Event → Option VName
  | .ref t role => if role = Role.DEF then some t else none
  | _ => none

namespace History

/-- The targets that edges define. -/
def definedBy (edges : List (VName × UInt8)) : List VName := (edges.filter fun e => e.2 = Role.DEF).map Prod.fst

/-- The targets that are defined, the first one first. -/
def defines (h : History) : List VName := definedBy h.edges

def lastDefine (h : History) : Option VName := h.defines.getLast?

/-- With `ev` the kind and the start are known, and the end was known before. -/
def Overdue (h : History) (ev : Event) : Prop := place h = none ∧ (place (ev :: h)).isSome ∧ (stop? h).isSome

instance (h : History) (ev : Event) : Decidable (Overdue h ev) := inferInstanceAs (Decidable (_ ∧ _))

/-- The definition whose end is waited for. -/
def awaits : History → Option VName
  | [] => none
  | ev :: h => if Overdue h ev then none else ev.defined.or (awaits h)

section

variable {h : History} {t : VName}

theorem defined_eq_some {ev : Event} : ev.defined = some t ↔ ev = .ref t Role.DEF := by
  cases ev <;> simp [Event.defined]
  rename_i t' role
  by_cases hrole : role = Role.DEF <;> simp [hrole]

theorem definedBy_append (e₁ e₂ : List (VName × UInt8)) : definedBy (e₁ ++ e₂) = definedBy e₁ ++ definedBy e₂ := by
  rw [definedBy, List.filter_append, List.map_append]
  rfl

theorem defines_cons (ev : Event) (h : History) : defines (ev :: h) = h.defines ++ ev.defined.toList := by
  cases ev with
  | ref t role =>
    rw [defines, edges, definedBy_append]
    by_cases hrole : role = Role.DEF <;> simp [defines, definedBy, Event.defined, hrole]
  | _ => simp [defines, edges, Event.defined]

theorem mem_defines : t ∈ h.defines ↔ .ref t Role.DEF ∈ h := by
  induction h with
  | nil => simp [defines, definedBy, edges]
  | cons ev h ih =>
    rw [defines_cons, List.mem_append, ih, Option.mem_toList, defined_eq_some, or_comm]
    exact (List.mem_cons.trans (or_congr_left eq_comm)).symm

theorem lastDefine_cons (ev : Event) (h : History) : lastDefine (ev :: h) = ev.defined.or h.lastDefine := by
  rw [lastDefine, defines_cons]
  cases ev.defined with
  | none => rw [Option.toList_none, List.append_nil]; rfl
  | some t => simp

theorem lastDefine_mem (ht : h.lastDefine = some t) : .ref t Role.DEF ∈ h :=
  mem_defines.mp (List.mem_of_getLast? ht)

theorem opens {ev : Event} (hp : h.place = none) (hq : (place (ev :: h)).isSome) : ev = .anchor ∨ ∃ n, ev = .start n := by
  have hnone : place h = none → (place h).isSome → False := by
    intro hp hq
    rw [hp] at hq
    cases hq
  cases ev with
  | anchor => exact .inl rfl
  | start n => exact .inr ⟨n, rfl⟩
  | _ => exact (hnone hp hq).elim

theorem place_before {ev : Event} (hp : place (ev :: h) = none) : place h = none := by
  by_contra hne
  have hsome := place_cons ev (Option.isSome_iff_ne_none.mpr hne)
  rw [hp] at hsome
  cases hsome

theorem awaits_of_unplaced (hp : h.place = none) : h.awaits = h.lastDefine := by
  induction h with
  | nil => rfl
  | cons ev h ih =>
    have hold := place_before hp
    have hnot : ¬ Overdue h ev := fun ho => by simp [Overdue, hp] at ho
    rw [awaits, if_neg hnot, lastDefine_cons, ih hold]

theorem awaits_last (ht : h.awaits = some t) : h.lastDefine = some t := by
  induction h with
  | nil => cases ht
  | cons ev h ih =>
    rw [awaits] at ht
    split at ht
    · cases ht
    · rw [lastDefine_cons]
      cases hev : ev.defined with
      | some t' => rwa [hev] at ht
      | none =>
        rw [hev] at ht
        exact ih ht

variable [XxHash64]

theorem consumeSlots (edges : List (VName × UInt8)) (stop : Option UInt32) (slot : Option UInt64) :
    edges.foldl (consumeSlot stop) slot =
      if definedBy edges = [] then slot else if stop.isSome then none else (definedBy edges).getLast?.map (·.sym) := by
  induction edges using List.reverseRecOn with
  | nil => rfl
  | append_singleton edges e ih =>
    rw [List.foldl_append, List.foldl_cons, List.foldl_nil, definedBy_append, ih]
    by_cases hrole : e.2 = Role.DEF
    · have hone : definedBy [e] = [e.1] := by simp [definedBy, hrole]
      simp [consumeSlot, hrole, hone]
    · have hnone : definedBy [e] = [] := by simp [definedBy, hrole]
      simp [consumeSlot, hrole, hnone]

theorem slot_eq (h : History) : h.slot = h.awaits.map (·.sym) := by
  induction h with
  | nil => rfl
  | cons ev h ih =>
    -- Only the kind or the start can complete the place.
    have hflush : ∀ ev, (ev = .anchor ∨ ∃ n, ev = .start n) →
        (if (place (ev :: h)).isSome then (pending h).foldl (consumeSlot (stop? h)) (slot h) else slot h) =
          (awaits (ev :: h)).map (·.sym) := by
      intro ev hev
      have hdefined : ev.defined = none := by rcases hev with rfl | ⟨n, rfl⟩ <;> rfl
      rw [awaits, hdefined, Option.none_or, ih]
      cases hp : place h with
      | some n =>
        have hpending : pending h = [] := by simp [pending, hp]
        simp [hpending, Overdue, hp]
      | none =>
        have hpending : pending h = edges h := by simp [pending, hp]
        rw [hpending, consumeSlots, awaits_of_unplaced hp]
        by_cases hd : definedBy (edges h) = []
        · have hlast : lastDefine h = none := by rw [lastDefine, defines, hd]; rfl
          simp [hd, hlast]
        · cases hq : place (ev :: h) <;> cases hs : stop? h <;> simp [Overdue, hp, hq, hs, hd, lastDefine, defines]
    have hother : (∀ n, ev ≠ .start n) → ev ≠ .anchor → awaits (ev :: h) = ev.defined.or (awaits h) := by
      intro hstart hanchor
      refine if_neg fun ho => ?_
      rcases opens ho.1 ho.2.1 with hev | ⟨n, hn⟩
      · exact hanchor hev
      · exact hstart n hn
    cases ev with
    | anchor => exact hflush .anchor (.inl rfl)
    | start n => exact hflush (.start n) (.inr ⟨n, rfl⟩)
    | ref t role =>
      rw [hother (by simp) (by simp), slot, ih]
      by_cases hrole : role = Role.DEF <;> simp [Event.defined, hrole]
    | _ =>
      rw [hother (by simp) (by simp)]
      exact ih

end

/-! ## The bodies that are written -/

/-- The body of `t` from `n` to `m` is written. -/
inductive Writes : History → UInt32 → UInt32 → VName → Prop
  | later {h n m t} (ev : Event) : Writes h n m t → Writes (ev :: h) n m t
  /-- The edge comes when all three facts are known. -/
  | edge {h n m t} : place h = some n → stop? h = some m → Writes (.ref t Role.DEF :: h) n m t
  /-- The kind or the start comes last. -/
  | placed {h n m t} (ev : Event) : place h = none → place (ev :: h) = some n → stop? h = some m → .ref t Role.DEF ∈ h →
      Writes (ev :: h) n m t
  /-- The end comes last. -/
  | ended {h n t} (m : UInt32) : place h = some n → awaits h = some t → Writes (.stop m :: h) n m t

section

variable {h : History} {t : VName} {n m : UInt32}

theorem place_mem (hp : place h = some n) : .anchor ∈ h ∧ .start n ∈ h :=
  ⟨isAnchor_iff.mp (place_eq_some.mp hp).1, start_mem (place_eq_some.mp hp).2⟩

theorem Writes.facts (hw : Writes h n m t) : .anchor ∈ h ∧ .start n ∈ h ∧ .stop m ∈ h ∧ .ref t Role.DEF ∈ h := by
  induction hw with
  | later ev _ ih => exact ⟨.tail _ ih.1, .tail _ ih.2.1, .tail _ ih.2.2.1, .tail _ ih.2.2.2⟩
  | edge hp hs => exact ⟨.tail _ (place_mem hp).1, .tail _ (place_mem hp).2, .tail _ (stop_mem hs), .head _⟩
  | placed ev _ hq hs ht => exact ⟨(place_mem hq).1, (place_mem hq).2, .tail _ (stop_mem hs), .tail _ ht⟩
  | ended m hp ha =>
    exact ⟨.tail _ (place_mem hp).1, .tail _ (place_mem hp).2, .head _, .tail _ (lastDefine_mem (awaits_last ha))⟩

/-- What comes into the rows: the edge itself, or all that waited. -/
theorem mem_arrivals {ev : Event} {role : UInt8} : (t, role) ∈ h.arrivals ev ↔
    ev = .ref t role ∨ (ev = .anchor ∨ ∃ n, ev = .start n) ∧ place h = none ∧ .ref t role ∈ h := by
  have hpending : (t, role) ∈ pending h ↔ place h = none ∧ .ref t role ∈ h := by
    unfold pending
    rw [← mem_edges_iff]
    cases place h <;> simp
  cases ev <;> simp [arrivals, hpending, eq_comm]

variable [XxHash64] {file : UInt32} {b : BodyAnchor}

theorem mem_edgeBodies {edges : List (VName × UInt8)} {stop : Option UInt32} :
    b ∈ edges.flatMap (bodiesOf file n stop) ↔
      ∃ t m, (t, Role.DEF) ∈ edges ∧ stop = some m ∧ b = ⟨file, n, m, t.sym⟩ := by
  simp only [List.mem_flatMap, mem_bodiesOf]
  constructor
  · rintro ⟨⟨t, role⟩, hmem, rfl, m, hs, rfl⟩
    exact ⟨t, m, hmem, hs, rfl⟩
  · rintro ⟨t, m, hmem, hs, rfl⟩
    exact ⟨(t, Role.DEF), hmem, rfl, m, hs, rfl⟩

theorem mem_newBodies {ev : Event} : b ∈ h.newBodies file ev ↔
    ∃ n m t, place (ev :: h) = some n ∧ b = ⟨file, n, m, t.sym⟩ ∧
      ((t, Role.DEF) ∈ h.arrivals ev ∧ stop? h = some m ∨ ev = .stop m ∧ awaits h = some t) := by
  have hlate : ∀ n, b ∈ h.lateBody file n ev ↔ ∃ m t, ev = .stop m ∧ awaits h = some t ∧ b = ⟨file, n, m, t.sym⟩ := by
    intro n
    cases ev with
    | stop m =>
      simp only [lateBody, slot_eq, Option.toList_map, List.map_map, List.mem_map, Option.mem_toList]
      constructor
      · rintro ⟨t, ht, rfl⟩
        exact ⟨m, t, rfl, ht, rfl⟩
      · rintro ⟨m', t, hm, ht, rfl⟩
        cases hm
        exact ⟨t, ht, rfl⟩
    | _ => simp [lateBody]
  simp only [newBodies, List.mem_flatMap (l := (place (ev :: h)).toList), Option.mem_toList, List.mem_append, mem_edgeBodies, hlate]
  constructor
  · rintro ⟨n, hn, ⟨t, m, ht, hs, hb⟩ | ⟨m, t, hev, ht, hb⟩⟩
    · exact ⟨n, m, t, hn, hb, .inl ⟨ht, hs⟩⟩
    · exact ⟨n, m, t, hn, hb, .inr ⟨hev, ht⟩⟩
  · rintro ⟨n, m, t, hn, hb, ⟨ht, hs⟩ | ⟨hev, ht⟩⟩
    · exact ⟨n, hn, .inl ⟨t, m, ht, hs, hb⟩⟩
    · exact ⟨n, hn, .inr ⟨m, t, hev, ht, hb⟩⟩

theorem mem_bodyRows : b ∈ h.bodyRows file ↔ ∃ n m t, Writes h n m t ∧ b = ⟨file, n, m, t.sym⟩ := by
  induction h with
  | nil => exact ⟨nofun, fun ⟨n, m, t, hw, _⟩ => nomatch hw⟩
  | cons ev h ih =>
    rw [bodyRows, List.mem_append, ih, mem_newBodies]
    constructor
    · rintro (⟨n, m, t, hw, hb⟩ | ⟨n, m, t, hp, hb, ⟨ht, hs⟩ | ⟨rfl, ha⟩⟩)
      · exact ⟨n, m, t, .later ev hw, hb⟩
      · rcases mem_arrivals.mp ht with rfl | ⟨-, hq, hmem⟩
        · exact ⟨n, m, t, .edge hp hs, hb⟩
        · exact ⟨n, m, t, .placed ev hq hp hs hmem, hb⟩
      · exact ⟨n, m, t, .ended m hp ha, hb⟩
    · rintro ⟨n, m, t, hw, hb⟩
      cases hw with
      | later _ hw => exact .inl ⟨n, m, t, hw, hb⟩
      | edge hp hs => exact .inr ⟨n, m, t, hp, hb, .inl ⟨mem_arrivals.mpr (.inl rfl), hs⟩⟩
      | placed _ hq hp hs hmem =>
        have hopen := opens hq (by rw [hp]; rfl)
        exact .inr ⟨n, m, t, hp, hb, .inl ⟨mem_arrivals.mpr (.inr ⟨hopen, hq, hmem⟩), hs⟩⟩
      | ended _ hp ha => exact .inr ⟨n, m, t, hp, hb, .inr ⟨rfl, ha⟩⟩

end

/-! ## The definitions that are kept -/

/-- The definition of `t` comes after an end, or waits when an end comes, or is the last before an end. -/
inductive Kept : History → VName → Prop
  | later {h t} (ev : Event) : Kept h t → Kept (ev :: h) t
  | afterEnd {h t} : (stop? h).isSome → Kept (.ref t Role.DEF :: h) t
  | waits {h t} (m : UInt32) : place h = none → .ref t Role.DEF ∈ h → Kept (.stop m :: h) t
  | last {h t} (m : UInt32) : lastDefine h = some t → Kept (.stop m :: h) t

section

variable {h : History} {t : VName} {n m : UInt32}

theorem Kept.mem (hk : Kept h t) : .ref t Role.DEF ∈ h := by
  induction hk with
  | later ev _ ih => exact .tail _ ih
  | afterEnd _ => exact .head _
  | waits m _ ht => exact .tail _ ht
  | last m ht => exact .tail _ (lastDefine_mem ht)

theorem Kept.stop (hk : Kept h t) : (stop? h).isSome := by
  induction hk with
  | later ev _ ih =>
    obtain ⟨m, hm⟩ := Option.isSome_iff_exists.mp ih
    exact stop_isSome (.tail _ (stop_mem hm))
  | afterEnd hs => exact hs
  | waits m _ _ => rfl
  | last m _ => rfl

theorem kept_of_unplaced (hp : place h = none) (hs : (stop? h).isSome) (ht : .ref t Role.DEF ∈ h) : Kept h t := by
  induction h with
  | nil => cases ht
  | cons ev h ih =>
    have hold := place_before hp
    rcases List.mem_cons.mp ht with rfl | hmem
    · exact .afterEnd hs
    · cases ev with
      | stop m => exact .waits m hold hmem
      | _ => exact .later _ (ih hold hs hmem)

theorem Writes.kept (hw : Writes h n m t) : Kept h t := by
  induction hw with
  | later ev _ ih => exact .later ev ih
  | edge _ hs => exact .afterEnd (by rw [hs]; rfl)
  | placed ev hp _ hs ht => exact .later ev (kept_of_unplaced hp (by rw [hs]; rfl) ht)
  | ended m _ ha => exact .last m (awaits_last ha)

/-- The last definition is waited for unless its body has been written. -/
theorem awaits_or_writes (ht : lastDefine h = some t) : awaits h = some t ∨ ∃ n m, Writes h n m t := by
  induction h with
  | nil => cases ht
  | cons ev h ih =>
    rw [lastDefine_cons] at ht
    by_cases ho : Overdue h ev
    · obtain ⟨hp, hq, hs⟩ := ho
      obtain ⟨n, hn⟩ := Option.isSome_iff_exists.mp hq
      obtain ⟨m, hm⟩ := Option.isSome_iff_exists.mp hs
      have hev : ev.defined = none := by rcases opens hp hq with rfl | ⟨k, rfl⟩ <;> rfl
      rw [hev, Option.none_or] at ht
      exact .inr ⟨n, m, .placed ev hp hn hm (lastDefine_mem ht)⟩
    · rw [awaits, if_neg ho]
      cases hev : ev.defined with
      | some t' =>
        rw [hev] at ht
        exact .inl ht
      | none =>
        rw [hev] at ht
        refine (ih ht).imp id ?_
        rintro ⟨n, m, hw⟩
        exact ⟨n, m, .later ev hw⟩

/-- With one start and one end, the bodies of the definitions that are kept are written. -/
theorem Kept.writes (hk : Kept h t) (h1 : OneStart h) (h2 : OneStop h) (hp : place h = some n) (hs : stop? h = some m) :
    Writes h n m t := by
  induction hk with
  | @later h t ev hk ih =>
    obtain ⟨m', hm'⟩ := Option.isSome_iff_exists.mp hk.stop
    obtain rfl : m' = m := h2 m' m (.tail _ (stop_mem hm')) (stop_mem hs)
    cases hq : place h with
    | none => exact .placed ev hq hp hm' hk.mem
    | some n' =>
      obtain rfl : n' = n := Option.some.inj ((h1.place_cons hq).symm.trans hp)
      exact .later ev (ih h1.tail h2.tail hq hm')
  | afterEnd _ => exact .edge hp hs
  | waits m' hq _ => exact absurd (hq.symm.trans hp) nofun
  | @last h t m' ht =>
    obtain rfl : m' = m := Option.some.inj hs
    rcases awaits_or_writes ht with ha | ⟨n', k, hw⟩
    · exact .ended m' hp ha
    · obtain ⟨-, hstart, hstop, -⟩ := hw.facts
      obtain rfl : n' = n := h1.tail n' n hstart (start_mem (place_eq_some.mp hp).2)
      obtain rfl : k = m' := h2 k m' (.tail _ hstop) (.head _)
      exact .later _ hw

end

end History

/-! ## No body range is dropped -/

/-- The anchor has its kind, one start and one end. -/
structure OneRange (es : List Entry) (v : VName) (n m : UInt32) : Prop where
  anchor : Has es v .anchor
  start : ∀ n', Has es v (.start n') ↔ n' = n
  stop : ∀ m', Has es v (.stop m') ↔ m' = m

theorem OneRange.place {es : List Entry} {v : VName} {n m : UInt32} (h : OneRange es v n m) :
    (history es v).OneStart ∧ (history es v).OneStop ∧ (history es v).place = some n ∧ (history es v).stop? = some m := by
  have h1 : (history es v).OneStart := fun k k' hk hk' =>
    ((h.start k).mp (mem_history.mp hk)).trans ((h.start k').mp (mem_history.mp hk')).symm
  have h2 : (history es v).OneStop := fun k k' hk hk' =>
    ((h.stop k).mp (mem_history.mp hk)).trans ((h.stop k').mp (mem_history.mp hk')).symm
  exact ⟨h1, h2, h1.place_iff.mpr ⟨mem_history.mpr h.anchor, mem_history.mpr ((h.start n).mpr rfl)⟩,
    h2.stop_iff.mpr (mem_history.mpr ((h.stop m).mpr rfl))⟩

section

variable [XxHash64]

/-- The body of every definition is recorded, and a body that is recorded has all three facts. -/
structure RangesRecorded (es : List Entry) (s : Sinks) : Prop where
  recorded : ∀ v n m t, OneRange es v n m → Has es v (.ref t Role.DEF) → t.is_empty = false →
    ∃ file, s.file_ids.id? v.path = some file ∧ ⟨file, n, m, t.sym⟩ ∈ s.body_anchors
  facts : ∀ b ∈ s.body_anchors, ∃ v t, s.file_ids.id? v.path = some b.file ∧ Has es v .anchor ∧
    Has es v (.start b.start) ∧ Has es v (.stop b.stop) ∧ Has es v (.ref t Role.DEF) ∧ t.sym = b.sym

/-- No definition waits with kind and start known while another one comes before the end, unless the same
range is written for another reason. -/
def DefinesKept (es : List Entry) : Prop :=
  ∀ v n m t, OneRange es v n m → Has es v (.ref t Role.DEF) → t.is_empty = false →
    (∃ t', t'.sym = t.sym ∧ (history es v).Kept t') ∨
      ∃ w t', w ≠ v ∧ w.path = v.path ∧ t'.sym = t.sym ∧ (history es w).Writes n m t'

variable {es : List Entry} {b₀ : IndexBuilder} {a₀ : FileIdAllocator} {st : IngestState}

theorem Buffered.mem_bodies (h : Buffered b₀ a₀ es es st) (b : BodyAnchor) : b ∈ st.sinks.body_anchors ↔
    ∃ v t, st.sinks.file_ids.id? v.path = some b.file ∧ (history es v).Writes b.start b.stop t ∧ t.sym = b.sym := by
  rw [h.bodies]
  constructor
  · rintro ⟨v, file, hid, hb⟩
    obtain ⟨n, m, t, hw, rfl⟩ := History.mem_bodyRows.mp hb
    exact ⟨v, t, hid, hw, rfl⟩
  · rintro ⟨v, t, hid, hw, hsym⟩
    exact ⟨v, b.file, hid, History.mem_bodyRows.mpr ⟨_, _, t, hw, by rw [hsym]⟩⟩

variable [Unicode]

/-- The ranges are recorded exactly if the definitions are kept. -/
theorem ranges_recorded (hkeys : DistinctKeys es) (ha : a₀.Wf)
    (hrun : es.foldlM (fun st e => process_entry e st) { sinks := { builder := b₀, file_ids := a₀ } } = some st) :
    RangesRecorded es st.sinks ↔ DefinesKept es := by
  have hbuf := buffered_run hkeys hrun
  constructor
  · intro h v n m t hrange hdef hne
    obtain ⟨file, hid, hmem⟩ := h.recorded v n m t hrange hdef hne
    obtain ⟨w, t', hid', hw, hsym⟩ := (hbuf.mem_bodies _).mp hmem
    by_cases hwv : w = v
    · exact .inl ⟨t', hsym, hwv ▸ hw.kept⟩
    · exact .inr ⟨w, t', hwv, (hbuf.wf ha).injective _ _ _ hid' hid, hsym, hw⟩
  · intro h
    refine ⟨fun v n m t hrange hdef hne => ?_, fun b hb => ?_⟩
    · obtain ⟨h1, h2, hp, hs⟩ := hrange.place
      obtain ⟨file, hid⟩ := hbuf.placed v (by rw [hp]; rfl)
      refine ⟨file, hid, (hbuf.mem_bodies _).mpr ?_⟩
      rcases h v n m t hrange hdef hne with ⟨t', hsym, hk⟩ | ⟨w, t', -, hpath, hsym, hw⟩
      · exact ⟨v, t', hid, hk.writes h1 h2 hp hs, hsym⟩
      · exact ⟨w, t', hpath ▸ hid, hw, hsym⟩
    · obtain ⟨v, t, hid, hw, hsym⟩ := (hbuf.mem_bodies b).mp hb
      obtain ⟨hanchor, hstart, hstop, hdef⟩ := hw.facts
      exact ⟨v, t, hid, mem_history.mp hanchor, mem_history.mp hstart, mem_history.mp hstop, mem_history.mp hdef, hsym⟩

end

/-! An anchor whose end comes after two definitions. -/

def bodyAnchor : VName := { signature := "@0", path := "a.c", language := "c++" }

def firstBody : VName := { signature := "f", language := "c++" }

def lastBody : VName := { signature := "g", language := "c++" }

def twoBodies : List Entry :=
  [{ source := bodyAnchor, fact_name := "/kythe/node/kind", fact_value := as_bytes "anchor" },
    { source := bodyAnchor, fact_name := "/kythe/loc/start", fact_value := as_bytes "3" },
    { source := bodyAnchor, edge_kind := "/kythe/edge/defines", target := firstBody },
    { source := bodyAnchor, edge_kind := "/kythe/edge/defines", target := lastBody },
    { source := bodyAnchor, fact_name := "/kythe/loc/end", fact_value := as_bytes "9" }]

@[reducible] def bodyHash : XxHash64 :=
  hashTable [("kythe:c++:##a.c#@0", 0x4f532c2457e9ba06), ("kythe:c++:###f", 0xfe2f89254e732c82),
    ("kythe:c++:###g", 0xe772c8b19f6934ea)]

def twoBodiesHistory : History :=
  [.stop 9, .ref lastBody Role.DEF, .ref firstBody Role.DEF, .start 3, .anchor]

theorem twoBodies_source {e : Entry} (he : e ∈ twoBodies) : e.source = bodyAnchor := by
  simp only [twoBodies, List.mem_cons, List.not_mem_nil, or_false] at he
  rcases he with rfl | rfl | rfl | rfl | rfl <;> rfl

theorem twoBodies_history (v : VName) : history twoBodies v = if v = bodyAnchor then twoBodiesHistory else [] := by
  split
  · rename_i hv
    subst hv
    rfl
  · rename_i hv
    have hnone : ∀ e ∈ twoBodies, ¬ e.source = v := fun e he hsource => hv (hsource.symm.trans (twoBodies_source he))
    unfold history
    rw [List.filter_eq_nil_iff.mpr fun e he => by simpa using hnone e he]
    rfl

theorem twoBodies_oneRange : OneRange twoBodies bodyAnchor 3 9 := by
  have hmem : ∀ ev, Has twoBodies bodyAnchor ev ↔ ev ∈ twoBodiesHistory := by
    intro ev
    rw [← mem_history, twoBodies_history, if_pos rfl]
  refine ⟨(hmem _).mpr ?_, fun n => (hmem _).trans ?_, fun m => (hmem _).trans ?_⟩ <;> simp [twoBodiesHistory]

/-- The first definition is neither the last one nor after the end. -/
theorem twoBodies_lost : ¬ twoBodiesHistory.Kept firstBody := by
  intro hk
  cases hk with
  | later _ hk => exact absurd hk.stop nofun
  | waits _ hp _ => exact absurd hp (by decide)
  | last _ hlast => exact absurd hlast (by decide)

section

attribute [local instance] bodyHash asciiUnicode

theorem twoBodies_run : ∃ st, twoBodies.foldlM (fun st e => process_entry e st)
    ({ sinks := { builder := IndexBuilder.new, file_ids := {} } } : IngestState) = some st :=
  (run_of_room twoBodies (by decide)).imp fun _ h => h.1

theorem twoBodies_keys : DistinctKeys twoBodies := fun e he e' he' _ => by
  rw [twoBodies_source he, twoBodies_source he']

theorem ranges_recorded_twoBodies : ∃ st, twoBodies.foldlM (fun st e => process_entry e st)
    ({ sinks := { builder := IndexBuilder.new, file_ids := {} } } : IngestState) = some st ∧
      (RangesRecorded twoBodies st.sinks ↔ DefinesKept twoBodies) := by
  obtain ⟨st, hrun⟩ := twoBodies_run
  exact ⟨st, hrun, ranges_recorded twoBodies_keys FileIdAllocator.wf_new hrun⟩

/-- The body of the first definition is dropped. -/
theorem body_dropped : ∃ st, twoBodies.foldlM (fun st e => process_entry e st)
    ({ sinks := { builder := IndexBuilder.new, file_ids := {} } } : IngestState) = some st ∧
      ¬ RangesRecorded twoBodies st.sinks := by
  obtain ⟨st, hrun⟩ := twoBodies_run
  refine ⟨st, hrun, fun h => ?_⟩
  have hdef : Has twoBodies bodyAnchor (.ref firstBody Role.DEF) :=
    mem_history.mp (by rw [twoBodies_history, if_pos rfl]; simp [twoBodiesHistory])
  obtain ⟨file, -, hmem⟩ := h.recorded bodyAnchor 3 9 firstBody twoBodies_oneRange hdef rfl
  obtain ⟨w, t, -, hw, hsym⟩ := ((buffered_run twoBodies_keys hrun).mem_bodies _).mp hmem
  rw [twoBodies_history] at hw
  split at hw
  · have ht : t = firstBody ∨ t = lastBody := by simpa [twoBodiesHistory, or_comm] using hw.facts.2.2.2
    rcases ht with rfl | rfl
    · exact twoBodies_lost hw.kept
    · have hne : lastBody.sym ≠ firstBody.sym := by decide
      exact hne hsym
  · exact nomatch hw

end

end Scry2
