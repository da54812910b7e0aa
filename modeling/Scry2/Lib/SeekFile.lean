import Scry2.Lib.Bytes

/-!
# A file under positioned writes

A file is its bytes. Seeking past the end and writing leaves a hole that reads as zeros; seeking
alone, or writing nothing, changes nothing. `place` writes a list of sections, each at its own
offset, and `slice` reads one back.
-/

namespace Scry2.Lib

/-- Write `bs` at position `pos`. -/
def writeAt (file : Bytes) (pos : Nat) (bs : Bytes) : Bytes :=
  if bs = [] then file
  else file.take pos ++ List.replicate (pos - file.length) 0 ++ bs ++ file.drop (pos + bs.length)

/-- Truncate, or extend with zeros, to `n` bytes. -/
def setLen (file : Bytes) (n : Nat) : Bytes := file.take n ++ List.replicate (n - file.length) 0

/-- The `len` bytes from `off` on. -/
def slice (file : Bytes) (off len : Nat) : Bytes := (file.drop off).take len

/-- The byte at `i`, a hole reading as zero. -/
def byteAt (file : Bytes) (i : Nat) : UInt8 := file.getD i 0

/-! ## Byte by byte -/

theorem byteAt_append (a b : Bytes) (i : Nat) :
    byteAt (a ++ b) i = if i < a.length then byteAt a i else byteAt b (i - a.length) := by
  unfold byteAt
  split_ifs with h
  · simp [List.getD_eq_getElem?_getD, List.getElem?_append_left h]
  · simp [List.getD_eq_getElem?_getD, List.getElem?_append_right (not_lt.mp h)]

theorem byteAt_zeros (n i : Nat) : byteAt (List.replicate n 0) i = 0 := by
  simp only [byteAt, List.getD_eq_getElem?_getD, List.getElem?_replicate]
  split_ifs <;> rfl

theorem byteAt_take (a : Bytes) (n i : Nat) : byteAt (a.take n) i = if i < n then byteAt a i else 0 := by
  simp only [byteAt, List.getD_eq_getElem?_getD, List.getElem?_take]
  split_ifs <;> rfl

theorem byteAt_drop (a : Bytes) (n i : Nat) : byteAt (a.drop n) i = byteAt a (n + i) := by
  simp [byteAt, List.getD_eq_getElem?_getD]

theorem byteAt_of_length_le {a : Bytes} {i : Nat} (h : a.length ≤ i) : byteAt a i = 0 := by
  simp [byteAt, List.getD_eq_getElem?_getD, List.getElem?_eq_none h]

theorem eq_of_byteAt {a b : Bytes} (hl : a.length = b.length) (h : ∀ i < a.length, byteAt a i = byteAt b i) :
    a = b := by
  apply List.ext_getElem hl
  intro i h1 h2
  have := h i h1
  simpa [byteAt, List.getD_eq_getElem?_getD, List.getElem?_eq_getElem h1, List.getElem?_eq_getElem h2]
    using this

theorem byteAt_writeAt (file bs : Bytes) (pos i : Nat) :
    byteAt (writeAt file pos bs) i =
      if pos ≤ i ∧ i < pos + bs.length then byteAt bs (i - pos) else byteAt file i := by
  unfold writeAt
  split_ifs with hb hi hi
  · subst hb; simp at hi; omega
  · rfl
  · have hlen : (file.take pos ++ List.replicate (pos - file.length) 0).length = pos := by simp; omega
    rw [byteAt_append, if_pos (by simp; omega), byteAt_append, if_neg (by rw [hlen]; omega), hlen]
  · have hlen : (file.take pos ++ List.replicate (pos - file.length) 0).length = pos := by simp; omega
    have hlen' : (file.take pos ++ List.replicate (pos - file.length) 0 ++ bs).length =
        pos + bs.length := by rw [List.length_append, hlen]
    by_cases hlt : i < pos
    · rw [byteAt_append, if_pos (by rw [hlen']; omega), byteAt_append, if_pos (by rw [hlen]; omega),
        byteAt_append]
      split_ifs with h1
      · rw [byteAt_take, if_pos hlt]
      · rw [byteAt_zeros, byteAt_of_length_le]
        simp at h1; omega
    · rw [byteAt_append, if_neg (by rw [hlen']; omega), hlen', byteAt_drop]
      congr 1; omega

theorem setLen_length (file : Bytes) (n : Nat) : (setLen file n).length = n := by
  simp [setLen]; omega

theorem byteAt_setLen (file : Bytes) (n i : Nat) :
    byteAt (setLen file n) i = if i < n then byteAt file i else 0 := by
  unfold setLen
  rw [byteAt_append, byteAt_zeros, byteAt_take]
  split_ifs with h1 h2 h2
  · rfl
  · rfl
  · rw [byteAt_of_length_le]; simp at h1; omega
  · rfl

theorem slice_length {file : Bytes} {off len : Nat} (h : off + len ≤ file.length) :
    (slice file off len).length = len := by
  simp [slice]; omega

theorem byteAt_slice (file : Bytes) (off len i : Nat) (h : i < len) :
    byteAt (slice file off len) i = byteAt file (off + i) := by
  rw [slice, byteAt_take, if_pos h, byteAt_drop]

/-- Reading back is comparing byte by byte. -/
theorem slice_eq_of_byteAt {file bs : Bytes} {off len : Nat} (hlen : len = bs.length)
    (h : off + len ≤ file.length) (hb : ∀ i < len, byteAt file (off + i) = byteAt bs i) :
    slice file off len = bs := by
  apply eq_of_byteAt
  · rw [slice_length h, hlen]
  · intro i hi
    rw [slice_length h] at hi
    rw [byteAt_slice _ _ _ _ hi, hb i hi]

theorem slice_append_left {a b : Bytes} {off n : Nat} (h : off + n ≤ a.length) :
    slice (a ++ b) off n = slice a off n := by
  rw [slice, slice, List.drop_append_of_le_length (by omega), List.take_append_of_le_length (by simp; omega)]

theorem slice_append_right {a b : Bytes} {off n : Nat} (h : a.length ≤ off) :
    slice (a ++ b) off n = slice b (off - a.length) n := by
  rw [slice, slice, List.drop_append, List.drop_eq_nil_of_le h, List.nil_append]

theorem slice_slice {file : Bytes} {off len x n : Nat} (h : x + n ≤ len) :
    slice (slice file off len) x n = slice file (off + x) n := by
  unfold slice
  rw [List.drop_take, List.drop_drop, List.take_take, Nat.min_eq_left (by omega)]

/-! ## Writing in place -/

theorem length_writeAt {file bs : Bytes} {pos : Nat} (h : pos + bs.length ≤ file.length) :
    (writeAt file pos bs).length = file.length := by
  unfold writeAt
  split_ifs
  · rfl
  · simp; omega

theorem slice_writeAt_self {file bs : Bytes} {pos n : Nat} (hn : bs.length = n)
    (h : pos + n ≤ file.length) : slice (writeAt file pos bs) pos n = bs := by
  subst hn
  apply slice_eq_of_byteAt rfl
  · rwa [length_writeAt h]
  · intro i hi
    rw [byteAt_writeAt, if_pos (by omega), Nat.add_sub_cancel_left]

theorem slice_writeAt_outside {file bs : Bytes} {pos off len : Nat} (hpos : pos + bs.length ≤ file.length)
    (hoff : off + len ≤ file.length) (h : off + len ≤ pos ∨ pos + bs.length ≤ off) :
    slice (writeAt file pos bs) off len = slice file off len := by
  apply slice_eq_of_byteAt (slice_length hoff).symm
  · rwa [length_writeAt hpos]
  · intro i hi
    rw [byteAt_writeAt, if_neg (by omega), byteAt_slice _ _ _ _ hi]

theorem slice_writeAt_inside {file bs : Bytes} {off len x : Nat} (hoff : off + len ≤ file.length)
    (h : x + bs.length ≤ len) :
    slice (writeAt file (off + x) bs) off len = writeAt (slice file off len) x bs := by
  have hl := slice_length hoff
  have hx : x + bs.length ≤ (slice file off len).length := by omega
  apply slice_eq_of_byteAt
  · rw [length_writeAt hx, hl]
  · rw [length_writeAt (by omega)]
    exact hoff
  · intro i hi
    rw [byteAt_writeAt, byteAt_writeAt, byteAt_slice _ _ _ _ hi]
    have e : off + i - (off + x) = i - x := by omega
    by_cases hc : x ≤ i ∧ i < x + bs.length
    · rw [if_pos hc, if_pos (by omega), e]
    · rw [if_neg hc, if_neg (by omega)]

/-! ## Pieces one after the other -/

theorem slice_add (file : Bytes) (off m n : Nat) :
    slice file off (m + n) = slice file off m ++ slice file (off + m) n := by
  unfold slice
  rw [List.take_add, List.drop_drop]

/-- The pieces of a text read back where they begin. -/
theorem slice_flatten (pieces : List Bytes) {i : Nat} (h : i < pieces.length) :
    slice pieces.flatten (pieces.take i).flatten.length pieces[i].length = pieces[i] := by
  have hsplit : pieces.flatten = (pieces.take i).flatten ++ (pieces[i] ++ (pieces.drop (i + 1)).flatten) := by
    rw [← List.flatten_cons, ← List.drop_eq_getElem_cons h, ← List.flatten_append, List.take_append_drop]
  unfold slice
  rw [hsplit, List.drop_left, List.take_left]

/-- A file that has every piece where it begins is the pieces. -/
theorem drop_eq_flatten {file : Bytes} {off : Nat} {pieces : List Bytes}
    (hlen : file.length = off + pieces.flatten.length)
    (h : ∀ i (hi : i < pieces.length),
      slice file (off + (pieces.take i).flatten.length) pieces[i].length = pieces[i]) :
    file.drop off = pieces.flatten := by
  induction pieces generalizing off with
  | nil => exact List.drop_eq_nil_of_le (by simpa using hlen.le)
  | cons p pieces ih =>
    rw [List.flatten_cons, List.length_append] at hlen
    have hhead : (file.drop off).take p.length = p := h 0 (Nat.zero_lt_succ _)
    have htail : file.drop (off + p.length) = pieces.flatten := by
      apply ih (by omega)
      intro i hi
      have := h (i + 1) (Nat.succ_lt_succ hi)
      rw [List.take_succ_cons, List.flatten_cons, List.length_append, ← Nat.add_assoc] at this
      exact this
    rw [List.flatten_cons, ← htail, ← List.drop_drop]
    conv_lhs => rw [← List.take_append_drop p.length (file.drop off), hhead]

/-! ## Sections -/

/-- Write each section at its offset. -/
def place (file : Bytes) (secs : List (Nat × Bytes)) : Bytes :=
  secs.foldl (fun f s => writeAt f s.1 s.2) file

/-- Sections in file order, none reaching into the next. -/
def Apart (secs : List (Nat × Bytes)) : Prop :=
  secs.Pairwise fun s t => s.1 + s.2.length ≤ t.1

/-- It is enough that each section ends before the next one starts. -/
theorem apart_of_isChain {secs : List (Nat × Bytes)}
    (h : secs.IsChain fun s t => s.1 + s.2.length ≤ t.1) : Apart secs := by
  have : IsTrans (Nat × Bytes) fun s t => s.1 + s.2.length ≤ t.1 :=
    ⟨fun a b c hab hbc => by omega⟩
  exact List.isChain_iff_pairwise.mp h

theorem Apart.stop_le_last {secs : List (Nat × Bytes)} {s t : Nat × Bytes} (h : Apart (secs ++ [t]))
    (hs : s ∈ secs ++ [t]) : s.1 + s.2.length ≤ t.1 + t.2.length := by
  rcases List.mem_append.mp hs with hs | hs
  · have := (List.pairwise_append.mp h).2.2 s hs t List.mem_cons_self
    omega
  · rw [List.mem_singleton.mp hs]

theorem byteAt_place_outside (secs : List (Nat × Bytes)) (file : Bytes) (i : Nat)
    (h : ∀ s ∈ secs, i < s.1 ∨ s.1 + s.2.length ≤ i) : byteAt (place file secs) i = byteAt file i := by
  induction secs generalizing file with
  | nil => rfl
  | cons s secs ih =>
    have hs := h s List.mem_cons_self
    have hrest := ih (writeAt file s.1 s.2) fun t ht => h t (List.mem_cons_of_mem _ ht)
    exact hrest.trans (by rw [byteAt_writeAt, if_neg (by omega)])

theorem byteAt_place (secs : List (Nat × Bytes)) (hsecs : Apart secs) (file : Bytes)
    {off : Nat} {bs : Bytes} (hm : (off, bs) ∈ secs) {i : Nat} (hi : i < bs.length) :
    byteAt (place file secs) (off + i) = byteAt bs i := by
  induction secs generalizing file with
  | nil => simp at hm
  | cons s secs ih =>
    rw [place, List.foldl_cons]
    rcases List.mem_cons.mp hm with rfl | hm
    · rw [← place, byteAt_place_outside, byteAt_writeAt, if_pos (by simp; omega)]
      · simp
      · intro t ht
        have := List.rel_of_pairwise_cons hsecs ht
        simp only at this
        left; omega
    · exact ih hsecs.of_cons _ hm

/-- A section that lies inside the final length reads back whole. -/
theorem slice_place {secs : List (Nat × Bytes)} (hsecs : Apart secs) (file : Bytes) (total : Nat)
    {off : Nat} {bs : Bytes} (hm : (off, bs) ∈ secs) (ht : off + bs.length ≤ total) :
    slice (setLen (place file secs) total) off bs.length = bs := by
  apply slice_eq_of_byteAt rfl
  · rw [setLen_length]; exact ht
  · intro i hi
    rw [byteAt_setLen, if_pos (by omega), byteAt_place secs hsecs file hm hi]

/-- A header written before the sections and one written over a placeholder after them leave the
same file. -/
theorem place_header {secs : List (Nat × Bytes)} (hdr hdr' : Bytes) (hl : hdr'.length = hdr.length)
    (h : ∀ s ∈ secs, hdr.length ≤ s.1) (total : Nat) :
    setLen (writeAt (place (writeAt [] 0 hdr') secs) 0 hdr) total =
      setLen (place (writeAt [] 0 hdr) secs) total := by
  apply eq_of_byteAt
  · rw [setLen_length, setLen_length]
  · intro i hi
    rw [setLen_length] at hi
    simp only [byteAt_setLen, if_pos hi, byteAt_writeAt]
    split_ifs with h1
    · rw [byteAt_place_outside _ _ _ fun s hs => Or.inl (by have := h s hs; omega), byteAt_writeAt,
        if_pos h1]
    · -- Past the header both files are the same section writes over the same zeros.
      have key : ∀ (secs : List (Nat × Bytes)) (f g : Bytes), byteAt f i = byteAt g i →
          byteAt (place f secs) i = byteAt (place g secs) i := by
        intro secs
        induction secs with
        | nil => exact fun f g hfg => hfg
        | cons s secs ih =>
          intro f g hfg
          apply ih
          rw [byteAt_writeAt, byteAt_writeAt, hfg]
      apply key
      rw [byteAt_writeAt, byteAt_writeAt, if_neg (by omega), if_neg (by omega)]

end Scry2.Lib
