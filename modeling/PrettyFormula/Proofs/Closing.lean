-- The laws of closed groups. Behind the opening parenthesis of a closed group
-- stand something well nested and the parenthesis that closes it. Tokens that are
-- appended leave its span alone; the span of a group that is left open grows.
import PrettyFormula.Proofs.Grammar
import PrettyFormula.Proofs.Nesting

namespace PrettyFormula

/-! ## Closed groups -/

/-- What stands behind position `j` is well nested up to a closing parenthesis. So a group that
opens at `j` is closed there. -/
def ClosedAt (ts : List Token) (j : Nat) : Prop :=
  ∃ inner rest, WellNested inner ∧ ts.drop (j + 1) = inner ++ .rparen :: rest

/-- No group that opens in front of position `n` is left open. -/
def ClosedBefore (ts : List Token) (n : Nat) : Prop :=
  ∀ j < n, ts[j]? = some .lparen → ClosedAt ts j

variable {ts us : List Token} {i j n : Nat}

/-! ## Seeking on -/

/-- What is well nested is passed over, with as many inner groups open behind it as before. -/
theorem WellNested.seek_append (h : WellNested ts) (i d w : Nat) :
    ∃ w', ∀ us, Span.seek i d w (ts ++ us) = Span.seek (i + ts.length) d w' us := by
  induction h generalizing i d w with
  | nil => exact ⟨w, fun us => rfl⟩
  | @atom ts a _ ih =>
    obtain ⟨w', hw⟩ := ih (i + 1) d (w + (Token.atom a).width)
    refine ⟨w', fun us => ?_⟩
    rw [List.cons_append, Span.seek, hw, List.length_cons]
    congr 1
    omega
  | @group ts vs _ _ ih ih' =>
    obtain ⟨w₁, h₁⟩ := ih (i + 1) (d + 1) (w + Token.lparen.width)
    obtain ⟨w₂, h₂⟩ := ih' (i + 1 + ts.length + 1) d (w₁ + Token.rparen.width)
    refine ⟨w₂, fun us => ?_⟩
    rw [List.append_assoc, List.cons_append, List.cons_append, List.cons_append, Span.seek, h₁,
      Span.seek, h₂]
    congr 1
    simp only [List.length_append, List.length_cons]
    omega

/-- The tokens close the group that is sought, or the seeking goes on behind them. -/
theorem closes_or_seek_append (i d w : Nat) (ts : List Token) :
    (∃ inner rest, Closes d inner ∧ ts = inner ++ .rparen :: rest) ∨
      ∃ d' w', ∀ us, Span.seek i d w (ts ++ us) = Span.seek (i + ts.length) d' w' us := by
  induction ts generalizing i d w with
  | nil => exact Or.inr ⟨d, w, fun us => rfl⟩
  | cons t ts ih =>
    have hlen : i + 1 + ts.length = i + (t :: ts).length := by
      rw [List.length_cons]
      omega
    rw [← hlen]
    cases t with
    | lparen =>
      rcases ih (i + 1) (d + 1) (w + Token.lparen.width) with ⟨inner, rest, hin, rfl⟩ | hseek
      · exact Or.inl ⟨.lparen :: inner, rest, hin.lparen, rfl⟩
      · exact Or.inr hseek
    | atom a =>
      rcases ih (i + 1) d (w + (Token.atom a).width) with ⟨inner, rest, hin, rfl⟩ | hseek
      · exact Or.inl ⟨.atom a :: inner, rest, hin.atom a, rfl⟩
      · exact Or.inr hseek
    | rparen =>
      rcases d with _ | d
      · exact Or.inl ⟨[], ts, .done .nil, rfl⟩
      · rcases ih (i + 1) d (w + Token.rparen.width) with ⟨inner, rest, hin, rfl⟩ | hseek
        · exact Or.inl ⟨.rparen :: inner, rest, .close .nil hin, rfl⟩
        · exact Or.inr hseek

/-! ## Spans and tokens behind them -/

theorem stop_spanFrom_le (h : j < ts.length) : (spanFrom ts (j + 1)).stop ≤ ts.length := by
  have hle := Span.stop_seek_le (j + 1) 0 0 (ts.drop (j + 1))
  rw [← spanFrom_eq (show j + 1 ≤ ts.length from h), List.length_drop] at hle
  omega

theorem le_length_append (h : n ≤ ts.length) (us : List Token) : n ≤ (ts ++ us).length := by
  rw [List.length_append]
  exact Nat.le_add_right_of_le h

theorem spanFrom_append (h : j < ts.length) (us : List Token) :
    spanFrom (ts ++ us) (j + 1) = Span.seek (j + 1) 0 0 (ts.drop (j + 1) ++ us) := by
  rw [spanFrom_eq (le_length_append h us), List.drop_append_of_le_length h]

/-- Behind the opening parenthesis of a closed group stands at least one more token. -/
theorem ClosedAt.succ_lt (h : ClosedAt ts j) : j + 1 < ts.length := by
  obtain ⟨inner, rest, -, hdrop⟩ := h
  have hlen := congrArg List.length hdrop
  simp only [List.length_drop, List.length_append, List.length_cons] at hlen
  omega

/-- A group that is closed keeps its span. -/
theorem ClosedAt.spanFrom_append (h : ClosedAt ts j) (us : List Token) :
    spanFrom (ts ++ us) (j + 1) = spanFrom ts (j + 1) := by
  have hj : j < ts.length := Nat.lt_of_succ_lt h.succ_lt
  obtain ⟨inner, rest, hin, hdrop⟩ := h
  obtain ⟨w, hw⟩ := hin.seek_append (j + 1) 0 0
  rw [PrettyFormula.spanFrom_append hj, spanFrom_eq hj, hdrop, List.append_assoc, hw, hw,
    List.cons_append]
  rfl

/-- A group that is left open reaches to the end, and over what is appended. -/
theorem spanFrom_append_of_open (h : j < ts.length) (hopen : ¬ ClosedAt ts j) :
    ∃ d w, spanFrom ts (j + 1) = ⟨ts.length, w⟩ ∧
      ∀ us, spanFrom (ts ++ us) (j + 1) = Span.seek ts.length d w us := by
  have hlen : j + 1 + (ts.drop (j + 1)).length = ts.length := by
    rw [List.length_drop]
    omega
  rcases closes_or_seek_append (j + 1) 0 0 (ts.drop (j + 1)) with
    ⟨inner, rest, hin, hdrop⟩ | ⟨d, w, hseek⟩
  · cases hin with
    | done hin => exact absurd ⟨inner, rest, hin, hdrop⟩ hopen
  · rw [hlen] at hseek
    refine ⟨d, w, ?_, fun us => ?_⟩
    · have hnil := hseek []
      rwa [List.append_nil, ← spanFrom_eq h] at hnil
    · rw [spanFrom_append h, hseek]

/-- A span never gets narrower when tokens are appended. -/
theorem width_spanFrom_le (h : j < ts.length) (us : List Token) :
    (spanFrom ts (j + 1)).width ≤ (spanFrom (ts ++ us) (j + 1)).width := by
  by_cases hc : ClosedAt ts j
  · exact Nat.le_of_eq (congrArg Span.width (hc.spanFrom_append us).symm)
  · obtain ⟨d, w, hend, hseek⟩ := spanFrom_append_of_open h hc
    rw [hend, hseek, Span.width_seek]
    exact Nat.le_add_right w _

/-! ## The stack and tokens behind it -/

/-- The stack in front of a position depends on the tokens in front of it only. -/
theorem openAt_append (h : i ≤ ts.length) (us : List Token) :
    openAt (ts ++ us) i = openAt ts i := by
  induction i with
  | zero => rfl
  | succ i ih =>
    have ht : ts[i]? = some ts[i] := List.getElem?_eq_getElem h
    have happend : (ts ++ us)[i]? = some ts[i] := by rw [List.getElem?_append_left h, ht]
    rw [openAt_succ ht, openAt_succ happend, ih (Nat.le_of_succ_le h)]

theorem openAt_take (h : i ≤ ts.length) : openAt (ts.take i) i = openAt ts i := by
  have hlen : (ts.take i).length = i := List.length_take_of_le h
  have happend := openAt_append (Nat.le_of_eq hlen.symm) (ts.drop i)
  rw [List.take_append_drop] at happend
  exact happend.symm

/-- At the end, the stack holds the groups that are left open. -/
theorem mem_openAt_length :
    j ∈ openAt ts ts.length ↔ ts[j]? = some .lparen ∧ ¬ ClosedAt ts j := by
  -- With a token behind the end, the stack there holds the groups that reach over it.
  have hlen : ts.length < (ts ++ [Token.rparen]).length := by simp
  rw [← openAt_append (Nat.le_refl ts.length) [.rparen], mem_openAt hlen, reaches_iff]
  constructor
  · rintro ⟨hj, hl, hstop⟩
    rw [List.getElem?_append_left hj] at hl
    refine ⟨hl, fun hc => ?_⟩
    have hle := stop_spanFrom_le hj
    rw [hc.spanFrom_append] at hstop
    omega
  · rintro ⟨hl, hopen⟩
    obtain ⟨hj, -⟩ := List.getElem?_eq_some_iff.mp hl
    obtain ⟨d, w, -, hseek⟩ := spanFrom_append_of_open hj hopen
    refine ⟨hj, by rwa [List.getElem?_append_left hj], ?_⟩
    rw [hseek]
    exact Span.lt_stop_seek ts.length d w _ _

theorem closedBefore_iff : ClosedBefore ts n ↔ ∀ j ∈ openAt ts ts.length, n ≤ j := by
  unfold ClosedBefore
  simp only [mem_openAt_length]
  constructor
  · intro h j hj
    by_contra hn
    exact hj.2 (h j (by omega) hj.1)
  · intro h j hj hl
    by_contra hopen
    have := h j ⟨hl, hopen⟩
    omega

instance (ts : List Token) (n : Nat) : Decidable (ClosedBefore ts n) :=
  decidable_of_iff _ closedBefore_iff.symm

/-- Where every group is closed the stack is empty at the end. -/
theorem openAt_length_of_closed (h : ClosedBefore ts ts.length) : openAt ts ts.length = [] := by
  rw [List.eq_nil_iff_forall_not_mem]
  intro j hj
  have hle := closedBefore_iff.mp h j hj
  obtain ⟨hlt, -⟩ := List.getElem?_eq_some_iff.mp (mem_openAt_length.mp hj).1
  omega

end PrettyFormula
