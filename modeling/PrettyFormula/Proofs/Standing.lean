-- The laws of a decision that stands. The cursor and the stack of the pass go on
-- side by side, whatever the tokens are. A decision to cram is that of a group on
-- the stack. It stands from its opening parenthesis on, and ends where that one
-- has its partner.
import PrettyFormula.Proofs.Cramming
import PrettyFormula.Proofs.Partners

namespace PrettyFormula

variable {page : Page} {ts : List Token} {i j : Nat} {c : Cram}

/-- The decision stands at position `i`. It was made at its parenthesis, where none stood, and no
other one has stood since. -/
structure Cram.StandsAt (page : Page) (ts : List Token) (c : Cram) (i : Nat) : Prop where
  made : c ∈ crams page ts
  index_lt : c.index < i
  before : (cursorAt page ts c.index).crammed = none
  since : ∀ n, c.index < n → n ≤ i → (cursorAt page ts n).crammed = some c.depth

/-! ## On the stack -/

/-- A group stands on the stack as high as it is deep. -/
theorem getElem?_reverse_openAt (h : i ≤ ts.length) (hj : j ∈ openAt ts i) :
    (openAt ts i).reverse[nesting ts j]? = some j := by
  have hlt : j < ts.length := Nat.lt_of_lt_of_le ((matchingAt_sound h).opens j hj).1 h
  obtain ⟨inner, outer, hstack⟩ := List.append_of_mem hj
  obtain rfl : openAt ts j = outer := openAt_below h hstack
  rw [← length_openAt hlt, hstack, List.reverse_append, List.reverse_cons, List.append_assoc,
    List.getElem?_append_right (by simp), List.length_reverse, Nat.sub_self]
  rfl

theorem standsAt_of_mem_openAt (h : i ≤ ts.length) (hc : c ∈ crams page ts)
    (hopen : c.index ∈ openAt ts i) : c.StandsAt page ts i := by
  have hlt : c.index < i := ((matchingAt_sound h).opens _ hopen).1
  refine ⟨hc, hlt, ?_, fun n hn hni => ?_⟩
  · obtain ⟨j, -, -, houter, rfl⟩ := mem_crams_iff.mp hc
    rw [cursorAt_eq page (Nat.le_of_lt (Nat.lt_of_lt_of_le hlt h))]
    exact outermostFit_eq_none_iff.mpr houter
  · rw [crammed_eq_some_iff (Nat.le_trans hni h)]
    exact ⟨c, hc, mem_openAt_of_le h hopen hn hni, rfl⟩

/-! ## Where a decision ends -/

theorem crammed_succ_eq_none_iff (h : i < ts.length) (hc : c ∈ crams page ts)
    (hopen : c.index ∈ openAt ts i) :
    (cursorAt page ts (i + 1)).crammed = none ↔ Partners ts c.index i := by
  constructor
  · intro hnone
    by_contra hpartners
    have hstays := (mem_openAt_succ_iff h hopen).mpr hpartners
    have hstands := (crammed_eq_some_iff h).mpr ⟨c, hc, hstays, rfl⟩
    rw [hnone] at hstands
    cases hstands
  · intro hpartners
    obtain ⟨hr, htop⟩ := partners_iff.mp hpartners
    obtain ⟨outer, hstack⟩ := List.head?_eq_some_iff.mp htop
    have hbelow : openAt ts c.index = outer :=
      openAt_below (Nat.le_of_lt h) (show openAt ts i = [] ++ c.index :: outer from hstack)
    -- What is left of the stack is what the group stands on, and nothing of that fits.
    have hleft : openAt ts (i + 1) = openAt ts c.index := by
      rw [openAt_succ hr, stackBehind, hstack, hbelow, List.tail_cons]
    obtain ⟨j, -, -, houter, rfl⟩ := mem_crams_iff.mp hc
    rw [cursorAt_eq page h, hleft]
    exact outermostFit_eq_none_iff.mpr houter

/-! ## The cursor and the stack -/

/-- In front of each token, and at the end, the cursor is as deep as the stack of the pass is high,
and from the bottom to the top the stack is what the tokens so far leave open. Where they leave
nothing open no decision stands. A decision that stands is on the group at its depth on that stack,
has stood since that group was opened, and ends with the parenthesis that closes it. -/
theorem the_cursor_goes_with_the_stack (page : Page) (ts : List Token) (i : Nat)
    (h : i ≤ ts.length) :
    (cursorAt page ts i).depth = (openAt ts i).length ∧
      (openAt ts i).reverse = leftOpen (ts.take i) ∧
      (leftOpen (ts.take i) = [] →
        (cursorAt page ts i).depth = 0 ∧ (cursorAt page ts i).crammed = none) ∧
      ∀ k, (cursorAt page ts i).crammed = some k →
        k < (cursorAt page ts i).depth ∧
          ∃ c : Cram, c.depth = k ∧ (openAt ts i).reverse[k]? = some c.index ∧
            c.StandsAt page ts i ∧
            (i < ts.length →
              ((cursorAt page ts (i + 1)).crammed = none ↔ Partners ts c.index i)) := by
  have hcursor := cursorAt_eq page h
  have hdepth : (cursorAt page ts i).depth = (openAt ts i).length := by rw [hcursor]
  have hstack : (openAt ts i).reverse = leftOpen (ts.take i) := (leftOpen_take h).symm
  refine ⟨hdepth, hstack, fun hnone => ?_, fun k hk => ?_⟩
  · rw [← hstack, List.reverse_eq_nil_iff] at hnone
    rw [hcursor, hnone]
    exact ⟨rfl, rfl⟩
  · obtain ⟨c, hc, hopen, rfl⟩ := (crammed_eq_some_iff h).mp hk
    have hheight : (openAt ts i).reverse[c.depth]? = some c.index := by
      rw [eq_cramAt_index hc]
      exact getElem?_reverse_openAt h hopen
    obtain ⟨hlt, -⟩ := List.getElem?_eq_some_iff.mp hheight
    rw [List.length_reverse, ← hdepth] at hlt
    exact ⟨hlt, c, rfl, hheight, standsAt_of_mem_openAt h hc hopen,
      fun hi => crammed_succ_eq_none_iff hi hc hopen⟩

/-- A closing parenthesis in a crammed group leaves the decision, and its own one ends it. Behind
the group, in one that is too wide, no decision stands. -/
theorem a_decision_ends_at_its_own_close :
    let page : Page := { columns := 8, indent := 2 }
    let ts := Token.scan ") (aa (b (c)) dd) (e (f".toList
    ((cursorAt page ts 7).crammed = some 1 ∧ 1 < (cursorAt page ts 7).depth ∧
        ∃ c : Cram, c.depth = 1 ∧ (openAt ts 7).reverse[1]? = some c.index ∧
          c.StandsAt page ts 7 ∧ 7 < ts.length ∧ (cursorAt page ts 8).crammed ≠ none) ∧
      ((cursorAt page ts 8).crammed = some 1 ∧
        ∃ c : Cram, c.index = 3 ∧ c.StandsAt page ts 8 ∧ 8 < ts.length ∧ Partners ts 3 8 ∧
          (cursorAt page ts 9).crammed = none) ∧
      (11 ≤ ts.length ∧ leftOpen (ts.take 11) = [] ∧ (cursorAt page ts 11).depth = 0 ∧
        (cursorAt page ts 11).crammed = none) := by
  intro page ts
  have hstands : (cursorAt page ts 7).crammed = some 1 := by decide
  have hstands' : (cursorAt page ts 8).crammed = some 1 := by decide
  have hnone : leftOpen (ts.take 11) = [] := by decide
  have hpartners : Partners ts 3 8 := ⟨by decide, by decide, by decide, by decide⟩
  obtain ⟨-, -, -, hinner⟩ := the_cursor_goes_with_the_stack page ts 7 (by decide)
  obtain ⟨-, -, -, hown⟩ := the_cursor_goes_with_the_stack page ts 8 (by decide)
  obtain ⟨-, -, hend, -⟩ := the_cursor_goes_with_the_stack page ts 11 (by decide)
  obtain ⟨hlt, c, hdepth, hheight, hc, -⟩ := hinner 1 hstands
  obtain ⟨-, d, -, hheight', hd, hends⟩ := hown 1 hstands'
  have hindex : d.index = 3 := by
    rw [show (openAt ts 8).reverse[1]? = some 3 by decide] at hheight'
    exact (Option.some.inj hheight').symm
  refine ⟨⟨hstands, hlt, c, hdepth, hheight, hc, by decide, by decide⟩,
    ⟨hstands', d, hindex, hd, by decide, hpartners, ?_⟩, by decide, hnone, hend hnone⟩
  exact (hends (by decide)).mpr (hindex ▸ hpartners)

end PrettyFormula
