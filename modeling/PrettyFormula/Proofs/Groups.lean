-- The laws of the groups in the table. For each position the table has all that
-- it looks up. Its groups nest. A group that is closed stops behind a closing
-- parenthesis of its own; one that is left open reaches to the end, and the
-- check counts how many those are.
import Mathlib.Algebra.GroupWithZero.Nat
import PrettyFormula.Proofs.Partners

namespace PrettyFormula

variable {ts : List Token} {i j : Nat} {a b span : Span}

/-! ## Looking up a position -/

/-- What the table tells of a position. All of it is in the table, the columns do not fall, and
they are those of the tokens up to the stop. -/
structure LookUp (ts : List Token) (i : Nat) (span : Span) : Prop where
  stop : (spanTable ts).stops[i]? = some span.stop
  lt_stop : i < span.stop
  stop_le : span.stop ≤ ts.length
  columns : ∃ atStart atStop, (spanTable ts).columnsBefore[i + 1]? = some atStart ∧
    (spanTable ts).columnsBefore[span.stop]? = some atStop ∧ atStart ≤ atStop ∧
    span.width = atStop - atStart
  width : span.width = ((stretch ts (i + 1) span.stop).map Token.width).sum
  found : (spanTable ts).span? i = some span

/-- The pass enters a stop for opening parentheses only. -/
theorem stops_matchingAt_of_ne (hi : i ≤ ts.length) (hj : j < ts.length)
    (hne : ts[j]? ≠ some .lparen) : (matchingAt ts i).stops[j]? = some ts.length := by
  induction i with
  | zero => simp [matchingAt, hj]
  | succ i ih =>
    obtain ⟨t, ht⟩ : ∃ t, ts[i]? = some t := ⟨ts[i], List.getElem?_eq_getElem hi⟩
    have ih := ih (Nat.le_of_succ_le hi)
    have hs := matchingAt_sound (Nat.le_of_succ_le hi)
    rw [matchingAt_succ ht]
    cases t with
    | lparen => exact ih
    | atom a => exact ih
    | rparen =>
      rw [Matching.push]
      rcases hp : (matchingAt ts i).pending with _ | ⟨q, outer⟩
      · exact ih
      · have hq : q ≠ j := by
          rintro rfl
          exact hne (hs.opens q (by simp [hp])).2
        show ((matchingAt ts i).stops.setIfInBounds q (i + 1))[j]? = some ts.length
        rw [Array.getElem?_setIfInBounds_ne hq, ih]

theorem exists_stop (h : i < ts.length) :
    ∃ stop, (spanTable ts).stops[i]? = some stop ∧ i < stop ∧ stop ≤ ts.length := by
  by_cases hl : ts[i]? = some .lparen
  · exact ⟨_, stops_matching hl, (reaches_iff.mp (reaches_self hl)).2, stop_spanFrom_le h⟩
  · refine ⟨ts.length, ?_, h, Nat.le_refl _⟩
    have hend := stops_matchingAt_of_ne (Nat.le_refl ts.length) h hl
    rwa [matchingAt_length] at hend

theorem columnsBefore_eq_add (ts : List Token) (h : i ≤ j) :
    columnsBefore ts j = columnsBefore ts i + ((stretch ts i j).map Token.width).sum := by
  obtain ⟨k, rfl⟩ := Nat.exists_eq_add_of_le h
  have hsum : columnsBefore (ts.drop i) k = ((stretch ts i (i + k)).map Token.width).sum := by
    rw [columnsBefore, List.length_flatMap, stretch, List.drop_take, Nat.add_sub_cancel_left]
    rfl
  rw [columnsBefore_add, hsum]

theorem exists_lookUp (h : i < ts.length) : ∃ span, LookUp ts i span := by
  obtain ⟨stop, hstop, hlt, hle⟩ := exists_stop h
  have hstart := columnsBefore_spanTable (show i + 1 ≤ ts.length from h)
  have hend := columnsBefore_spanTable hle
  have hadd := columnsBefore_eq_add ts (show i + 1 ≤ stop from hlt)
  refine ⟨⟨stop, columnsBefore ts stop - columnsBefore ts (i + 1)⟩, hstop, hlt, hle,
    ⟨_, _, hstart, hend, by omega, rfl⟩, ?_, ?_⟩
  · show columnsBefore ts stop - columnsBefore ts (i + 1) = _
    rw [hadd, Nat.add_sub_cancel_left]
  · rw [SpanTable.span?, hstop]
    simp only [Option.bind_eq_bind, Option.bind_some, hstart, hend]
    rfl

/-! ## Groups in groups -/

/-- A group that opens in another one ends in it. -/
theorem stop_le_or_stop_le (ha : groupAt ts i = some a) (hb : groupAt ts j = some b) (h : i < j) :
    a.stop ≤ j ∨ b.stop ≤ a.stop := by
  obtain ⟨hl, -⟩ := groupAt_eq_some_iff.mp hb
  obtain ⟨hj, -⟩ := List.getElem?_eq_some_iff.mp hl
  by_contra hcross
  obtain ⟨hin, hout⟩ : j < a.stop ∧ a.stop < b.stop := by omega
  -- Where the outer group stops the inner one would be open, with the outer one below it.
  have hstop : a.stop < ts.length := by
    obtain ⟨-, rfl⟩ := groupAt_eq_some_iff.mp hb
    exact Nat.lt_of_lt_of_le hout (stop_spanFrom_le hj)
  have hinner : j ∈ openAt ts a.stop :=
    (mem_openAt hstop).mpr ⟨hin, reaches_iff_groupAt.mpr ⟨b, hb, hout⟩⟩
  obtain ⟨above, below, hstack⟩ := List.append_of_mem hinner
  have hbelow : openAt ts j = below := openAt_below (Nat.le_of_lt hstop) hstack
  have houter : i ∈ openAt ts j :=
    (mem_openAt hj).mpr ⟨h, reaches_iff_groupAt.mpr ⟨a, ha, hin⟩⟩
  have hmem : i ∈ openAt ts a.stop := by
    rw [hstack, ← hbelow]
    simp [houter]
  obtain ⟨a', ha', hlt⟩ := reaches_iff_groupAt.mp ((mem_openAt hstop).mp hmem).2
  obtain rfl := Option.some.inj (ha.symm.trans ha')
  exact Nat.lt_irrefl _ hlt

/-! ## Closed groups -/

/-- The token in front of the stop of a closed group is the partner of its parenthesis. -/
theorem GroupCloses.partners (h : GroupCloses ts i) (hg : groupAt ts i = some span) :
    Partners ts i (span.stop - 1) := by
  obtain ⟨k, hk⟩ := groupCloses_iff_partners.mp h
  obtain ⟨-, rfl⟩ := groupAt_eq_some_iff.mp hg
  rwa [hk.stop_eq, Nat.add_sub_cancel]

/-- A group that is not closed reaches to the end, and no beginning of it balances. -/
theorem stop_of_not_groupCloses (hg : groupAt ts i = some span) (h : ¬ GroupCloses ts i) :
    span.stop = ts.length ∧ ∀ j, i ≤ j → ¬ Balanced (stretch ts i (j + 1)) := by
  obtain ⟨hl, rfl⟩ := groupAt_eq_some_iff.mp hg
  obtain ⟨hi, -⟩ := List.getElem?_eq_some_iff.mp hl
  have hopen : ¬ ∃ k, Partners ts i k := mt groupCloses_iff_partners.mpr h
  constructor
  · obtain ⟨d, w, hend, -⟩ := spanFrom_append_of_open hi (mt (closedAt_iff_partners hl).mp hopen)
    rw [hend]
  · intro j hj hbalanced
    obtain ⟨k, -, hk⟩ := exists_partners_of_balanced hl (Nat.lt_succ_of_le hj) hbalanced
    exact hopen ⟨k, hk⟩

/-! ## The check counts what is left open -/

/-- Without a stray close, the check goes on from each position with the height of the stack. -/
theorem imbalance?_eq_imbalanceFrom (hstray : ∀ k, imbalance? ts ≠ some (.strayClose k))
    (h : i ≤ ts.length) :
    imbalance? ts = imbalanceFrom (openAt ts i).length i (ts.drop i) := by
  induction i with
  | zero => rfl
  | succ i ih =>
    obtain ⟨t, ht⟩ : ∃ t, ts[i]? = some t := ⟨ts[i], List.getElem?_eq_getElem h⟩
    have ih := ih (Nat.le_of_succ_le h)
    rw [Matching.drop_eq_cons ht] at ih
    rw [openAt_succ ht]
    cases t with
    | lparen => exact ih
    | atom a => exact ih
    | rparen =>
      rcases ho : openAt ts i with _ | ⟨q, outer⟩
      · rw [ho] at ih
        exact absurd ih (hstray i)
      · rw [ho] at ih
        exact ih

theorem imbalance?_eq_leftOpen (hstray : ∀ k, imbalance? ts ≠ some (.strayClose k)) :
    imbalance? ts =
      if (leftOpen ts).length = 0 then none else some (.unclosed (leftOpen ts).length) := by
  rw [imbalance?_eq_imbalanceFrom hstray (Nat.le_refl ts.length), List.drop_length, imbalanceFrom,
    leftOpen_eq, List.length_reverse]

theorem length_leftOpen_of_unclosed {count : Nat} (h : imbalance? ts = some (.unclosed count)) :
    (leftOpen ts).length = count := by
  have hstray (k : Nat) : imbalance? ts ≠ some (.strayClose k) := by simp [h]
  have hcount := imbalance?_eq_leftOpen hstray
  rw [h] at hcount
  split at hcount
  · cases hcount
  · cases hcount
    rfl

theorem leftOpen_of_balanced (h : Balanced ts) : leftOpen ts = [] := by
  have hnone : imbalance? ts = none := h
  have hstray (k : Nat) : imbalance? ts ≠ some (.strayClose k) := by simp [hnone]
  have hcount := imbalance?_eq_leftOpen hstray
  rw [hnone] at hcount
  split at hcount
  · exact List.length_eq_zero_iff.mp ‹_›
  · cases hcount

/-! ## The groups of a table -/

/-- For each position of a token list, all that the table looks up is there. Of two groups one ends
in front of the other or in it. A closed group ends with a closing parenthesis that ends no other
one. A group that is not closed reaches to the end, and nothing that starts with it balances. The
check counts the groups that are not closed, if it finds no stray close. -/
theorem the_groups_of_a_table_nest (ts : List Token) :
    (∀ i < ts.length, ∃ span, LookUp ts i span) ∧
      (∀ i j a b, groupAt ts i = some a → groupAt ts j = some b → i < j →
        a.stop ≤ j ∨ b.stop ≤ a.stop) ∧
      (∀ i span, groupAt ts i = some span → GroupCloses ts i →
        ts[span.stop - 1]? = some .rparen) ∧
      (∀ i j a b, groupAt ts i = some a → groupAt ts j = some b → GroupCloses ts i →
        GroupCloses ts j → i ≠ j → a.stop ≠ b.stop) ∧
      (∀ i span, groupAt ts i = some span → ¬ GroupCloses ts i →
        span.stop = ts.length ∧ ∀ j, i ≤ j → ¬ Balanced (stretch ts i (j + 1))) ∧
      (∀ count, imbalance? ts = some (.unclosed count) → (leftOpen ts).length = count) ∧
      (Balanced ts → leftOpen ts = []) := by
  refine ⟨fun i hi => exists_lookUp hi, fun i j a b => stop_le_or_stop_le,
    fun i span hg h => (h.partners hg).closing, fun i j a b ha hb hi hj hne hstop => ?_,
    fun i span => stop_of_not_groupCloses, fun count => length_leftOpen_of_unclosed,
    leftOpen_of_balanced⟩
  have hpartner := hi.partners ha
  rw [hstop] at hpartner
  exact hne (hpartner.unique_opening (hj.partners hb))

/-- Three groups are left open, with a closed one in the first of them. In the other tokens a closed
group stands in a closed one. -/
theorem a_closed_group_among_three_left_open :
    let ts := Token.scan "(a (b) (c (d".toList
    let us := Token.scan "(a (b))".toList
    (3 < ts.length ∧ ∃ span, LookUp ts 3 span) ∧
      (groupAt ts 0 = some ⟨9, 8⟩ ∧ groupAt ts 2 = some ⟨5, 2⟩ ∧ (9 ≤ 2 ∨ 5 ≤ 9)) ∧
      (GroupCloses ts 2 ∧ ts[4]? = some .rparen) ∧
      (groupAt us 0 = some ⟨6, 5⟩ ∧ groupAt us 2 = some ⟨5, 2⟩ ∧ GroupCloses us 0 ∧
        GroupCloses us 2 ∧ 6 ≠ 5) ∧
      (¬ GroupCloses ts 0 ∧ 9 = ts.length ∧ ¬ Balanced (stretch ts 0 5)) ∧
      (imbalance? ts = some (.unclosed 3) ∧ (leftOpen ts).length = 3) ∧
      (Balanced us ∧ leftOpen us = []) := by
  intro ts us
  obtain ⟨hlook, hnest, hclosing, -, hopen, hcount, -⟩ := the_groups_of_a_table_nest ts
  obtain ⟨-, -, -, happart, -, -, hnone⟩ := the_groups_of_a_table_nest us
  have houter : groupAt ts 0 = some ⟨9, 8⟩ := by decide
  have hinner : groupAt ts 2 = some ⟨5, 2⟩ := by decide
  have hcloses : GroupCloses ts 2 := by decide
  have hleft : ¬ GroupCloses ts 0 := by decide
  have hgroup : groupAt us 0 = some ⟨6, 5⟩ := by decide
  have hgroup' : groupAt us 2 = some ⟨5, 2⟩ := by decide
  have hfault : imbalance? ts = some (.unclosed 3) := by decide
  have hbalanced : Balanced us := by decide
  obtain ⟨hend, hstart⟩ := hopen 0 _ houter hleft
  exact ⟨⟨by decide, hlook 3 (by decide)⟩, ⟨houter, hinner, hnest 0 2 _ _ houter hinner (by decide)⟩,
    ⟨hcloses, hclosing 2 _ hinner hcloses⟩,
    ⟨hgroup, hgroup', by decide, by decide,
      happart 0 2 _ _ hgroup hgroup' (by decide) (by decide) (by decide)⟩,
    ⟨hleft, hend, hstart 4 (by decide)⟩, ⟨hfault, hcount 3 hfault⟩, ⟨hbalanced, hnone hbalanced⟩⟩

end PrettyFormula
