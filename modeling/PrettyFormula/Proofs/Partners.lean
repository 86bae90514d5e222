-- The laws of partners. An opening and a closing parenthesis belong together
-- where what stands between them balances. The stack of the pass holds those
-- that are still without a partner, and a closing parenthesis takes the partner
-- on top. So the stack can be told from the tokens alone.
import PrettyFormula.Proofs.Closing

namespace PrettyFormula

/-- The tokens from position `i` up to position `j`, without the one there. -/
def stretch (ts : List Token) (i j : Nat) : List Token := (ts.take j).drop i

/-- The parentheses at the two positions belong together. -/
structure Partners (ts : List Token) (j i : Nat) : Prop where
  lt : j < i
  opening : ts[j]? = some .lparen
  closing : ts[i]? = some .rparen
  between : Balanced (stretch ts (j + 1) i)

variable {ts : List Token} {i j k n : Nat}

/-! ## Stretches -/

theorem stretch_cons {t : Token} (h : i < j) (ht : ts[i]? = some t) :
    stretch ts i j = t :: stretch ts (i + 1) j := by
  have htake : (ts.take j)[i]? = some t := by rw [List.getElem?_take, if_pos h, ht]
  exact Matching.drop_eq_cons htake

theorem stretch_append_singleton {t : Token} (h : i ≤ j) (ht : ts[j]? = some t) :
    stretch ts i (j + 1) = stretch ts i j ++ [t] := by
  obtain ⟨hj, -⟩ := List.getElem?_eq_some_iff.mp ht
  have hlen : i ≤ (ts.take j).length := by
    rw [List.length_take]
    omega
  rw [stretch, List.take_add_one, ht, List.drop_append_of_le_length hlen]
  rfl

theorem drop_eq_stretch_append (ts : List Token) (h : i ≤ j) :
    ts.drop i = stretch ts i j ++ ts.drop j := by
  have hdrop : ts.drop j = (ts.drop i).drop (j - i) := by
    rw [List.drop_drop]
    congr 1
    omega
  rw [stretch, List.drop_take, hdrop, List.take_append_drop]

theorem length_stretch (ts : List Token) (h : j ≤ ts.length) : (stretch ts i j).length = j - i := by
  rw [stretch, List.length_drop, List.length_take, Nat.min_eq_left h]

/-! ## Partners and closed groups -/

theorem partners_take_iff : Partners (ts.take n) j i ↔ i < n ∧ Partners ts j i := by
  have hstretch (h : i < n) : stretch (ts.take n) (j + 1) i = stretch ts (j + 1) i := by
    rw [stretch, List.take_take, Nat.min_eq_left (Nat.le_of_lt h)]
    rfl
  constructor
  · rintro ⟨hlt, hopening, hclosing, hbetween⟩
    rw [List.getElem?_take, Option.ite_none_right_eq_some] at hopening hclosing
    exact ⟨hclosing.1, hlt, hopening.2, hclosing.2, hstretch hclosing.1 ▸ hbetween⟩
  · rintro ⟨h, hlt, hopening, hclosing, hbetween⟩
    refine ⟨hlt, ?_, ?_, (hstretch h).symm ▸ hbetween⟩
    · rw [List.getElem?_take, if_pos (by omega), hopening]
    · rw [List.getElem?_take, if_pos h, hclosing]

theorem Partners.drop_eq (h : Partners ts j i) :
    ts.drop (j + 1) = stretch ts (j + 1) i ++ .rparen :: ts.drop (i + 1) := by
  rw [drop_eq_stretch_append ts h.lt, Matching.drop_eq_cons h.closing]

theorem Partners.lt_length (h : Partners ts j i) : i < ts.length :=
  (List.getElem?_eq_some_iff.mp h.closing).1

/-- A group is closed if and only if its opening parenthesis has a partner. -/
theorem closedAt_iff_partners (hl : ts[j]? = some .lparen) :
    ClosedAt ts j ↔ ∃ i, Partners ts j i := by
  constructor
  · rintro ⟨inner, rest, hin, hdrop⟩
    have hstretch : stretch ts (j + 1) (j + 1 + inner.length) = inner := by
      rw [stretch, List.drop_take, hdrop, Nat.add_sub_cancel_left, List.take_left]
    refine ⟨j + 1 + inner.length, by omega, hl, ?_, ?_⟩
    · rw [← List.getElem?_drop, hdrop, List.getElem?_append_right (Nat.le_refl _), Nat.sub_self]
      rfl
    · rw [hstretch, balanced_iff_wellNested]
      exact hin
  · rintro ⟨i, h⟩
    exact ⟨_, _, balanced_iff_wellNested.mp h.between, h.drop_eq⟩

/-- The span of a closed group stops behind its closing parenthesis. -/
theorem Partners.stop_eq (h : Partners ts j i) : (spanFrom ts (j + 1)).stop = i + 1 := by
  have hi := h.lt_length
  have hlt := h.lt
  obtain ⟨w, hw⟩ := (balanced_iff_wellNested.mp h.between).seek_append (j + 1) 0 0
  rw [spanFrom_eq (show j + 1 ≤ ts.length by omega), h.drop_eq, hw, Span.seek,
    length_stretch ts (Nat.le_of_lt hi)]
  show j + 1 + (i - (j + 1)) + 1 = i + 1
  omega

theorem Partners.unique_closing (h : Partners ts j i) (h' : Partners ts j k) : i = k :=
  Nat.succ.inj (h.stop_eq.symm.trans h'.stop_eq)

theorem Partners.balanced (h : Partners ts j i) : Balanced (stretch ts j (i + 1)) := by
  rw [stretch_cons (Nat.lt_succ_of_lt h.lt) h.opening, stretch_append_singleton h.lt h.closing,
    balanced_iff_wellNested]
  exact .group (balanced_iff_wellNested.mp h.between) .nil

/-- What starts with an opening parenthesis and balances holds the partner of it. -/
theorem exists_partners_of_balanced (hl : ts[j]? = some .lparen) (hk : j < k)
    (h : Balanced (stretch ts j k)) : ∃ i < k, Partners ts j i := by
  rw [stretch_cons hk hl, balanced_iff_wellNested] at h
  have htake : (ts.take k)[j]? = some .lparen := by rw [List.getElem?_take, if_pos hk, hl]
  have hclosed : ClosedAt (ts.take k) j := by
    generalize hs : stretch ts (j + 1) k = s at h
    cases h with
    | group hin _ => exact ⟨_, _, hin, hs⟩
  obtain ⟨i, hi⟩ := (closedAt_iff_partners htake).mp hclosed
  exact ⟨i, partners_take_iff.mp hi⟩

/-! ## The stack of those without a partner -/

/-- The stack in front of a position holds the opening parentheses whose partners do not stand in
front of it. -/
theorem mem_openAt_iff_partners (h : i ≤ ts.length) :
    j ∈ openAt ts i ↔ j < i ∧ ts[j]? = some .lparen ∧ ∀ m < i, ¬ Partners ts j m := by
  have hopen : openAt (ts.take i) (ts.take i).length = openAt ts i := by
    rw [List.length_take_of_le h, openAt_take h]
  rw [← hopen, mem_openAt_length, List.getElem?_take, Option.ite_none_right_eq_some, and_assoc]
  refine and_congr_right fun hj => and_congr_right fun hl => ?_
  have htake : (ts.take i)[j]? = some .lparen := by rw [List.getElem?_take, if_pos hj, hl]
  rw [closedAt_iff_partners htake]
  simp only [partners_take_iff, not_exists, not_and]

theorem pairwise_openAt (h : i ≤ ts.length) : (openAt ts i).Pairwise (· > ·) :=
  (matchingAt_sound h).inward

theorem mem_openAt_of_le (h : i ≤ ts.length) (hj : j ∈ openAt ts i) (hlt : j < n) (hn : n ≤ i) :
    j ∈ openAt ts n := by
  obtain ⟨-, hl, hnone⟩ := (mem_openAt_iff_partners h).mp hj
  rw [mem_openAt_iff_partners (Nat.le_trans hn h)]
  exact ⟨hlt, hl, fun m hm => hnone m (Nat.lt_of_lt_of_le hm hn)⟩

theorem Partners.mem_openAt (h : Partners ts j i) : j ∈ openAt ts i := by
  rw [mem_openAt_iff_partners (Nat.le_of_lt h.lt_length)]
  refine ⟨h.lt, h.opening, fun m hm h' => ?_⟩
  exact Nat.ne_of_lt hm (h'.unique_closing h)

/-- Until its partner comes, a parenthesis stays on the stack. -/
theorem mem_openAt_succ_iff (h : i < ts.length) (hj : j ∈ openAt ts i) :
    j ∈ openAt ts (i + 1) ↔ ¬ Partners ts j i := by
  obtain ⟨hlt, hl, hbefore⟩ := (mem_openAt_iff_partners (Nat.le_of_lt h)).mp hj
  rw [mem_openAt_iff_partners h]
  constructor
  · rintro ⟨-, -, hnone⟩
    exact hnone i (Nat.lt_succ_self i)
  · intro hi
    refine ⟨Nat.lt_succ_of_lt hlt, hl, fun m hm => ?_⟩
    rcases Nat.lt_succ_iff_lt_or_eq.mp hm with hm | rfl
    · exact hbefore m hm
    · exact hi

/-- Only the parenthesis on top is on the stack and not on what is left of it. -/
theorem mem_tail_openAt_iff (h : i ≤ ts.length) (hj : j ∈ openAt ts i) :
    j ∈ (openAt ts i).tail ↔ (openAt ts i).head? ≠ some j := by
  have hin := pairwise_openAt h
  rcases ho : openAt ts i with _ | ⟨q, outer⟩
  · simp [ho] at hj
  · rw [ho, List.pairwise_cons] at hin
    rw [ho, List.mem_cons] at hj
    rw [List.tail_cons, List.head?_cons]
    constructor
    · rintro hmem heq
      cases heq
      exact Nat.lt_irrefl j (hin.1 j hmem)
    · intro hne
      exact hj.resolve_left fun heq => hne (by rw [heq])

/-- A closing parenthesis is the partner of the opening one on top of the stack. -/
theorem partners_iff :
    Partners ts j i ↔ ts[i]? = some .rparen ∧ (openAt ts i).head? = some j := by
  constructor
  · intro h
    have hi := h.lt_length
    have hleaves : j ∉ openAt ts (i + 1) := fun hj => (mem_openAt_succ_iff hi h.mem_openAt).mp hj h
    rw [openAt_succ h.closing, stackBehind,
      mem_tail_openAt_iff (Nat.le_of_lt hi) h.mem_openAt] at hleaves
    exact ⟨h.closing, not_not.mp hleaves⟩
  · rintro ⟨ht, htop⟩
    obtain ⟨hi, -⟩ := List.getElem?_eq_some_iff.mp ht
    have hmem : j ∈ openAt ts i := List.mem_of_head? htop
    by_contra hpartners
    have hstays := (mem_openAt_succ_iff hi hmem).mpr hpartners
    rw [openAt_succ ht, stackBehind, mem_tail_openAt_iff (Nat.le_of_lt hi) hmem] at hstays
    exact hstays htop

theorem Partners.unique_opening (h : Partners ts j i) (h' : Partners ts k i) : j = k :=
  Option.some.inj ((partners_iff.mp h).2.symm.trans (partners_iff.mp h').2)

/-! ## Groups that are left open -/

/-- The group that opens at position `i` is closed: with both its parentheses it balances. -/
def GroupCloses (ts : List Token) (i : Nat) : Prop :=
  ∃ span ∈ groupAt ts i, Balanced (stretch ts i span.stop)

instance (ts : List Token) (i : Nat) : Decidable (GroupCloses ts i) :=
  inferInstanceAs (Decidable (∃ span ∈ groupAt ts i, Balanced (stretch ts i span.stop)))

/-- The positions of the opening parentheses whose groups are not closed, in order. -/
def leftOpen (ts : List Token) : List Nat :=
  (List.range ts.length).filter fun i => ts[i]? = some .lparen ∧ ¬ GroupCloses ts i

theorem groupCloses_iff_partners : GroupCloses ts j ↔ ∃ i, Partners ts j i := by
  constructor
  · rintro ⟨span, hgroup, hbalanced⟩
    obtain ⟨hl, rfl⟩ := groupAt_eq_some_iff.mp hgroup
    have hstop := (reaches_iff.mp (reaches_self hl)).2
    obtain ⟨i, -, h⟩ := exists_partners_of_balanced hl hstop hbalanced
    exact ⟨i, h⟩
  · rintro ⟨i, h⟩
    refine ⟨_, groupAt_lparen h.opening, ?_⟩
    rw [h.stop_eq]
    exact h.balanced

theorem mem_leftOpen_iff : j ∈ leftOpen ts ↔ j ∈ openAt ts ts.length := by
  rw [leftOpen, List.mem_filter, List.mem_range, decide_eq_true_iff, groupCloses_iff_partners,
    mem_openAt_iff_partners (Nat.le_refl ts.length), not_exists]
  refine and_congr_right fun _ => and_congr_right fun _ => ?_
  exact ⟨fun h m _ => h m, fun h m hm => h m hm.lt_length hm⟩

/-- From the bottom to the top, the stack behind a beginning of the tokens is what that beginning
leaves open. -/
theorem leftOpen_take (h : i ≤ ts.length) : leftOpen (ts.take i) = (openAt ts i).reverse := by
  have hsorted : (openAt ts i).reverse.Pairwise (· < ·) :=
    List.pairwise_reverse.mpr (pairwise_openAt h)
  have hrange : (leftOpen (ts.take i)).Pairwise (· < ·) := List.pairwise_lt_range.filter _
  refine List.Perm.eq_of_pairwise (fun a b _ _ hab hba => absurd hab (Nat.lt_asymm hba)) hrange
    hsorted ?_
  refine (List.perm_ext_iff_of_nodup (hrange.imp Nat.ne_of_lt) (hsorted.imp Nat.ne_of_lt)).mpr ?_
  intro j
  rw [mem_leftOpen_iff, List.length_take_of_le h, openAt_take h, List.mem_reverse]

theorem leftOpen_eq (ts : List Token) : leftOpen ts = (openAt ts ts.length).reverse := by
  have htake := leftOpen_take (Nat.le_refl ts.length)
  rwa [List.take_length] at htake

end PrettyFormula
