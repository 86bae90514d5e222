-- The laws of the span table. The pass that fills the table keeps a stack of the
-- open parentheses; for each of them, to seek the end of its group from the
-- start is to seek it from here, with as many inner groups open as the stack
-- holds above it. So the table and the seeking give the same spans.
import PrettyFormula.Placement

namespace PrettyFormula

/-! ## Seeking the end of a group -/

/-- The columns that the tokens in front of position `i` take, without any space between them. -/
def columnsBefore (ts : List Token) (i : Nat) : Nat := ((ts.take i).flatMap Token.text).length

namespace Span

theorem le_stop_seek (i d w : Nat) (ts : List Token) : i ≤ (seek i d w ts).stop := by
  induction ts generalizing i d w with
  | nil => exact Nat.le_refl i
  | cons t ts ih =>
    cases t with
    | lparen => exact Nat.le_of_succ_le (ih _ _ _)
    | atom a => exact Nat.le_of_succ_le (ih _ _ _)
    | rparen =>
      cases d with
      | zero => exact Nat.le_succ i
      | succ d => exact Nat.le_of_succ_le (ih _ _ _)

theorem lt_stop_seek (i d w : Nat) (t : Token) (ts : List Token) :
    i < (seek i d w (t :: ts)).stop := by
  cases t with
  | lparen => exact le_stop_seek _ _ _ ts
  | atom a => exact le_stop_seek _ _ _ ts
  | rparen =>
    cases d with
    | zero => exact Nat.lt_succ_self i
    | succ d => exact le_stop_seek _ _ _ ts

theorem stop_seek_le (i d w : Nat) (ts : List Token) : (seek i d w ts).stop ≤ i + ts.length := by
  induction ts generalizing i d w with
  | nil => exact Nat.le_refl i
  | cons t ts ih =>
    have hlen : i + 1 + ts.length = i + (t :: ts).length := by simp; omega
    rw [← hlen]
    cases t with
    | lparen => exact ih _ _ _
    | atom a => exact ih _ _ _
    | rparen =>
      cases d with
      | zero => exact Nat.le_add_right _ _
      | succ d => exact ih _ _ _

/-- The columns that are counted are those of the tokens that are passed. -/
theorem width_seek (i d w : Nat) (ts : List Token) :
    (seek i d w ts).width = w + columnsBefore ts ((seek i d w ts).stop - i) := by
  induction ts generalizing i d w with
  | nil => simp [seek, columnsBefore]
  | cons t ts ih =>
    -- All tokens but the closing parenthesis are passed in the same way.
    have hpass : ∀ d', (seek (i + 1) d' (w + t.width) ts).width =
        w + columnsBefore (t :: ts) ((seek (i + 1) d' (w + t.width) ts).stop - i) := by
      intro d'
      have hle := le_stop_seek (i + 1) d' (w + t.width) ts
      obtain ⟨k, hk⟩ := Nat.exists_eq_add_of_le hle
      rw [ih, hk, show i + 1 + k - i = k + 1 by omega, show i + 1 + k - (i + 1) = k by omega]
      simp [columnsBefore, Token.width, Nat.add_assoc]
    cases t with
    | lparen => exact hpass (d + 1)
    | atom a => exact hpass d
    | rparen =>
      cases d with
      | zero => simp [seek, columnsBefore, Token.width]
      | succ d => exact hpass d

end Span

theorem spanFrom_eq {ts : List Token} {i : Nat} (h : i ≤ ts.length) :
    spanFrom ts i = Span.seek i 0 0 (ts.drop i) := by
  rw [spanFrom, Nat.min_eq_left h]

theorem columnsBefore_add (ts : List Token) (i k : Nat) :
    columnsBefore ts (i + k) = columnsBefore ts i + columnsBefore (ts.drop i) k := by
  simp [columnsBefore, List.take_add]

/-! ## The pass -/

def matchingAt (ts : List Token) (i : Nat) : Matching :=
  (ts.zipIdx.take i).foldl Matching.push { stops := Array.replicate ts.length ts.length }

/-- The parentheses that are open in front of position `i`, the innermost first. -/
def openAt (ts : List Token) (i : Nat) : List Nat := (matchingAt ts i).pending

/-- The tokens up to a position with their positions are those in front of it, and the one there. -/
theorem take_succ_zipIdx {ts : List Token} {i : Nat} {t : Token} (h : ts[i]? = some t) :
    ts.zipIdx.take (i + 1) = ts.zipIdx.take i ++ [(t, i)] := by
  have hz : ts.zipIdx[i]? = some (t, i) := by simp [List.getElem?_zipIdx, h]
  rw [List.take_add_one, hz]
  rfl

theorem matchingAt_succ {ts : List Token} {i : Nat} {t : Token} (h : ts[i]? = some t) :
    matchingAt ts (i + 1) = (matchingAt ts i).push (t, i) := by
  rw [matchingAt, take_succ_zipIdx h, List.foldl_append]
  rfl

@[simp] theorem matchingAt_length (ts : List Token) : matchingAt ts ts.length = matching ts := by
  rw [matchingAt, List.take_of_length_le (by simp), matching]

namespace Matching

structure Sound (ts : List Token) (i : Nat) (m : Matching) : Prop where
  size : m.stops.size = ts.length
  opens : ∀ p ∈ m.pending, p < i ∧ ts[p]? = some .lparen
  inward : m.pending.Pairwise (· > ·)
  /-- Above an open parenthesis the stack holds the inner groups that are open. -/
  seeking : ∀ d p, m.pending[d]? = some p →
    ∃ w, spanFrom ts (p + 1) = Span.seek i d w (ts.drop i)
  waiting : ∀ p < ts.length, i ≤ p ∨ p ∈ m.pending → m.stops[p]? = some ts.length
  closed : ∀ p < i, ts[p]? = some .lparen → p ∉ m.pending →
    m.stops[p]? = some (spanFrom ts (p + 1)).stop ∧ (spanFrom ts (p + 1)).stop ≤ i

variable {ts : List Token} {i : Nat} {m : Matching}

theorem sound_start (ts : List Token) :
    Sound ts 0 { stops := Array.replicate ts.length ts.length } := by
  refine ⟨by simp, by simp, by simp, by simp, ?_, by simp⟩
  intro p hp _
  simp [hp]

theorem drop_eq_cons {t : Token} (h : ts[i]? = some t) : ts.drop i = t :: ts.drop (i + 1) := by
  obtain ⟨hi, rfl⟩ := List.getElem?_eq_some_iff.mp h
  exact List.drop_eq_getElem_cons hi

theorem Sound.push_lparen (h : m.Sound ts i) (ht : ts[i]? = some .lparen) :
    (m.push (.lparen, i)).Sound ts (i + 1) := by
  obtain ⟨hi, -⟩ := List.getElem?_eq_some_iff.mp ht
  refine ⟨h.size, ?_, ?_, ?_, ?_, ?_⟩
  · intro p hp
    rcases List.mem_cons.mp hp with rfl | hp
    · exact ⟨Nat.lt_succ_self p, ht⟩
    · exact ⟨Nat.lt_succ_of_lt (h.opens p hp).1, (h.opens p hp).2⟩
  · exact List.pairwise_cons.mpr ⟨fun p hp => (h.opens p hp).1, h.inward⟩
  · intro d p hp
    cases d with
    | zero =>
      cases hp
      exact ⟨0, spanFrom_eq hi⟩
    | succ d =>
      obtain ⟨w, hw⟩ := h.seeking d p hp
      exact ⟨w + 1, by rw [hw, drop_eq_cons ht]; rfl⟩
  · intro p hp hw
    refine h.waiting p hp ?_
    rcases hw with hw | hw
    · exact Or.inl (by omega)
    · rcases List.mem_cons.mp hw with rfl | hw
      · exact Or.inl (Nat.le_refl p)
      · exact Or.inr hw
  · intro p hp hl hnot
    obtain ⟨hpi, hpm⟩ : p ≠ i ∧ p ∉ m.pending := not_or.mp (mt List.mem_cons.mpr hnot)
    obtain ⟨hs, hle⟩ := h.closed p (by omega) hl hpm
    exact ⟨hs, by omega⟩

/-- A token that leaves the stack alone: an atom, or a closing parenthesis with no partner. -/
theorem Sound.pass {t : Token} (h : m.Sound ts i) (ht : ts[i]? = some t) (hne : t ≠ .lparen)
    (hseek : ∀ d < m.pending.length, ∀ w,
      ∃ w', Span.seek i d w (t :: ts.drop (i + 1)) = Span.seek (i + 1) d w' (ts.drop (i + 1))) :
    m.Sound ts (i + 1) := by
  refine ⟨h.size, ?_, h.inward, ?_, ?_, ?_⟩
  · intro p hp
    exact ⟨Nat.lt_succ_of_lt (h.opens p hp).1, (h.opens p hp).2⟩
  · intro d p hp
    obtain ⟨w, hw⟩ := h.seeking d p hp
    obtain ⟨hd, -⟩ := List.getElem?_eq_some_iff.mp hp
    obtain ⟨w', hw'⟩ := hseek d hd w
    exact ⟨w', by rw [hw, drop_eq_cons ht, hw']⟩
  · intro p hp hw
    exact h.waiting p hp (hw.imp_left Nat.le_of_succ_le)
  · intro p hp hl hnot
    have hpi : p ≠ i := by
      rintro rfl
      exact hne (Option.some.inj (ht.symm.trans hl))
    obtain ⟨hs, hle⟩ := h.closed p (by omega) hl hnot
    exact ⟨hs, by omega⟩

theorem Sound.push_rparen (h : m.Sound ts i) (ht : ts[i]? = some .rparen) {q : Nat}
    {outer : List Nat} (hm : m.pending = q :: outer) :
    Sound ts (i + 1) { stops := m.stops.setIfInBounds q (i + 1), pending := outer } := by
  obtain ⟨hi, -⟩ := List.getElem?_eq_some_iff.mp ht
  obtain ⟨hq, hql⟩ := h.opens q (by simp [hm])
  have hin : ∀ p ∈ outer, p < q := by
    have := h.inward
    rw [hm, List.pairwise_cons] at this
    exact this.1
  -- The group of `q` ends here, since nothing stands above it on the stack.
  have hstop : (spanFrom ts (q + 1)).stop = i + 1 := by
    obtain ⟨w, hw⟩ := h.seeking 0 q (by simp [hm])
    rw [hw, drop_eq_cons ht]
    rfl
  refine ⟨by simp [h.size], ?_, ?_, ?_, ?_, ?_⟩
  · intro p hp
    obtain ⟨hlt, hl⟩ := h.opens p (by simp [hm, show p ∈ outer from hp])
    exact ⟨Nat.lt_succ_of_lt hlt, hl⟩
  · have := h.inward
    rw [hm, List.pairwise_cons] at this
    exact this.2
  · intro d p hp
    obtain ⟨w, hw⟩ := h.seeking (d + 1) p (by simpa [hm] using hp)
    exact ⟨w + 1, by rw [hw, drop_eq_cons ht]; rfl⟩
  · intro p hp hw
    have hpq : q ≠ p := by
      rcases hw with hw | hw
      · omega
      · exact Nat.ne_of_gt (hin p hw)
    rw [Array.getElem?_setIfInBounds_ne hpq]
    refine h.waiting p hp ?_
    rcases hw with hw | hw
    · exact Or.inl (by omega)
    · exact Or.inr (by simp [hm, show p ∈ outer from hw])
  · intro p hp hl hnot
    have hpi : p ≠ i := by
      rintro rfl
      rw [ht] at hl
      cases hl
    by_cases hpq : q = p
    · subst hpq
      rw [Array.getElem?_setIfInBounds_self_of_lt (by rw [h.size]; omega), hstop]
      exact ⟨rfl, Nat.le_refl _⟩
    · rw [Array.getElem?_setIfInBounds_ne hpq]
      have hout : p ∉ m.pending := by
        rw [hm, List.mem_cons]
        rintro (rfl | hp)
        · exact hpq rfl
        · exact hnot hp
      obtain ⟨hs, hle⟩ := h.closed p (by omega) hl hout
      exact ⟨hs, by omega⟩

theorem Sound.push {t : Token} (h : m.Sound ts i) (ht : ts[i]? = some t) :
    (m.push (t, i)).Sound ts (i + 1) := by
  cases t with
  | lparen => exact h.push_lparen ht
  | atom a => exact h.pass ht (by simp) fun d _ w => ⟨w + (Token.atom a).width, rfl⟩
  | rparen =>
    unfold Matching.push
    rcases hm : m.pending with _ | ⟨q, outer⟩
    · exact h.pass ht (by simp) (by simp [hm])
    · exact h.push_rparen ht hm

end Matching

theorem matchingAt_sound {ts : List Token} {i : Nat} (h : i ≤ ts.length) :
    (matchingAt ts i).Sound ts i := by
  induction i with
  | zero => exact Matching.sound_start ts
  | succ i ih =>
    have ht : ts[i]? = some ts[i] := List.getElem?_eq_getElem h
    rw [matchingAt_succ ht]
    exact (ih (Nat.le_of_succ_le h)).push ht

/-! ## The table -/

/-- At the end, an open parenthesis has its span up to the end of the list. -/
theorem stops_matching {ts : List Token} {j : Nat} (h : ts[j]? = some .lparen) :
    (matching ts).stops[j]? = some (spanFrom ts (j + 1)).stop := by
  obtain ⟨hj, -⟩ := List.getElem?_eq_some_iff.mp h
  have hs := matchingAt_sound (Nat.le_refl ts.length)
  rw [matchingAt_length] at hs
  by_cases hp : j ∈ (matching ts).pending
  · obtain ⟨d, hd⟩ := List.getElem?_of_mem hp
    obtain ⟨w, hw⟩ := hs.seeking d j hd
    rw [hs.waiting j hj (Or.inr hp), hw, List.drop_length]
    rfl
  · exact (hs.closed j hj h hp).1

theorem columnsBefore_spanTable {ts : List Token} {i : Nat} (h : i ≤ ts.length) :
    (spanTable ts).columnsBefore[i]? = some (columnsBefore ts i) := by
  have hsum : ((ts.map Token.width).take i).foldl (· + ·) 0 = columnsBefore ts i := by
    rw [columnsBefore, List.length_flatMap, List.sum_eq_foldl, ← List.map_take]
    rfl
  simpa [spanTable, List.getElem?_scanl, hsum] using h

theorem span?_spanTable {ts : List Token} {j : Nat} (h : ts[j]? = some .lparen) :
    (spanTable ts).span? j = some (spanFrom ts (j + 1)) := by
  obtain ⟨hj, -⟩ := List.getElem?_eq_some_iff.mp h
  have hfrom : spanFrom ts (j + 1) = Span.seek (j + 1) 0 0 (ts.drop (j + 1)) := spanFrom_eq hj
  have hle := Span.le_stop_seek (j + 1) 0 0 (ts.drop (j + 1))
  have hlen := Span.stop_seek_le (j + 1) 0 0 (ts.drop (j + 1))
  have hwidth := Span.width_seek (j + 1) 0 0 (ts.drop (j + 1))
  rw [← hfrom] at hle hlen hwidth
  rw [List.length_drop] at hlen
  obtain ⟨k, hk⟩ := Nat.exists_eq_add_of_le hle
  have hstop : (spanTable ts).stops[j]? = some (spanFrom ts (j + 1)).stop := stops_matching h
  have hcols : columnsBefore ts (spanFrom ts (j + 1)).stop - columnsBefore ts (j + 1) =
      (spanFrom ts (j + 1)).width := by
    rw [hwidth, hk, columnsBefore_add]
    simp
  simp only [SpanTable.span?, hstop, Option.bind_eq_bind, Option.bind_some,
    columnsBefore_spanTable (show (spanFrom ts (j + 1)).stop ≤ ts.length by omega),
    columnsBefore_spanTable (show j + 1 ≤ ts.length from hj), hcols]
  rfl

end PrettyFormula
