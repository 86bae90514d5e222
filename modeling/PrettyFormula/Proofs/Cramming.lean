-- The laws of cramming. A group is crammed where it fits and no group around it
-- does. So the groups that are crammed stand apart, and where a token stands in
-- groups that fit, the outermost of them is the one that is being crammed.
import PrettyFormula.Format
import PrettyFormula.Proofs.Placement

namespace PrettyFormula

variable {page : Page} {ts : List Token} {i j : Nat}

/-! ## Groups around groups -/

/-- The decision that stands is on an open group that fits, with none around it that does. -/
theorem outermostFit_eq_some_iff {l : List Nat} {d : Nat} :
    outermostFit page ts l = some d ↔ ∃ inner j outer, l = inner ++ j :: outer ∧
      fitsAt page ts j = true ∧ outer.any (fitsAt page ts) = false ∧ outer.length = d := by
  induction l with
  | nil => simp [outermostFit]
  | cons k l ih =>
    rw [outermostFit, Option.or_eq_some_iff]
    constructor
    · rintro (h | ⟨hnone, h⟩)
      · obtain ⟨inner, j, outer, rfl, hrest⟩ := ih.mp h
        exact ⟨k :: inner, j, outer, rfl, hrest⟩
      · split at h
        · rename_i hk
          exact ⟨[], k, l, rfl, hk, outermostFit_eq_none_iff.mp hnone, Option.some.inj h⟩
        · cases h
    · rintro ⟨inner, j, outer, hl, hj, houter, hd⟩
      rcases inner with _ | ⟨q, inner⟩
      · obtain ⟨rfl, rfl⟩ := List.cons.inj hl
        exact Or.inr ⟨outermostFit_eq_none_iff.mpr houter, by rw [if_pos hj, hd]⟩
      · exact Or.inl (ih.mpr ⟨inner, j, outer, (List.cons.inj hl).2, hj, houter, hd⟩)

/-! ## Decisions -/

/-- The decision to cram the group that opens at position `i`. -/
def cramAt (page : Page) (ts : List Token) (i : Nat) : Cram where
  index := i
  depth := nesting ts i
  fit := page.fitLength (nesting ts i) (spanFrom ts (i + 1))

/-- Position `i` stands in the group of the decision. Its own parenthesis stands in it too. -/
def Cram.Covers (ts : List Token) (c : Cram) (i : Nat) : Prop :=
  c.index ≤ i ∧ reaches ts c.index i = true

/-- A group is crammed if it fits and no group around it does. -/
theorem cram_placementAt (page : Page) (h : ts[i]? = some .lparen) :
    (placementAt page ts (.lparen, i)).cram =
      if (openAt ts i).any (fitsAt page ts) then none
      else if fitsAt page ts i then some (cramAt page ts i) else none := by
  obtain ⟨hi, -⟩ := List.getElem?_eq_some_iff.mp h
  have hplace : (placementAt page ts (.lparen, i)).cram =
      (cursorAt page ts i).cram? page i ((spanTable ts).span? i) := rfl
  rw [hplace, Cursor.cram?, cursorAt_eq page (Nat.le_of_lt hi), isSome_outermostFit,
    span?_spanTable h]
  simp only [length_openAt hi]
  split
  · rfl
  · rw [Option.filter_some, fits_spanFrom page h]
    split
    · rfl
    · rfl

theorem cram_placementAt_eq_some_iff {t : Token} (ht : ts[i]? = some t) {c : Cram} :
    (placementAt page ts (t, i)).cram = some c ↔ ts[i]? = some .lparen ∧
      fitsAt page ts i = true ∧ (openAt ts i).any (fitsAt page ts) = false ∧
      c = cramAt page ts i := by
  cases t with
  | lparen =>
    rw [cram_placementAt page ht]
    split_ifs with houter hfits
    · simp [houter]
    · simp [ht, hfits, houter, eq_comm]
    · simp [hfits]
  | rparen => exact iff_of_false (fun h => nomatch h) (by simp [ht])
  | atom a => exact iff_of_false (fun h => nomatch h) (by simp [ht])

theorem mem_crams_iff {c : Cram} :
    c ∈ crams page ts ↔ ∃ i, ts[i]? = some .lparen ∧ fitsAt page ts i = true ∧
      (openAt ts i).any (fitsAt page ts) = false ∧ c = cramAt page ts i := by
  rw [crams, place_eq_map, List.filterMap_map, List.mem_filterMap]
  constructor
  · rintro ⟨⟨t, i⟩, ht, hc⟩
    exact ⟨i, (cram_placementAt_eq_some_iff (List.mem_zipIdx_iff_getElem?.mp ht)).mp hc⟩
  · rintro ⟨i, h⟩
    exact ⟨(.lparen, i), List.mem_zipIdx_iff_getElem?.mpr h.1,
      (cram_placementAt_eq_some_iff h.1).mpr h⟩

theorem eq_cramAt_index {c : Cram} (hc : c ∈ crams page ts) : c = cramAt page ts c.index := by
  obtain ⟨i, -, -, -, rfl⟩ := mem_crams_iff.mp hc
  rfl

/-- The decision that stands is on a crammed group that is open. -/
theorem crammed_eq_some_iff (h : i ≤ ts.length) {d : Nat} :
    (cursorAt page ts i).crammed = some d ↔
      ∃ c ∈ crams page ts, c.index ∈ openAt ts i ∧ c.depth = d := by
  have hlt {j : Nat} (hj : j ∈ openAt ts i) : j < ts.length :=
    Nat.lt_of_lt_of_le ((matchingAt_sound h).opens j hj).1 h
  rw [cursorAt_eq page h, outermostFit_eq_some_iff]
  constructor
  · rintro ⟨inner, j, outer, hl, hfits, houter, hd⟩
    have hj : j ∈ openAt ts i := by simp [hl]
    obtain rfl : openAt ts j = outer := openAt_below h hl
    refine ⟨cramAt page ts j, mem_crams_iff.mpr ⟨j, ?_, hfits, houter, rfl⟩, hj, ?_⟩
    · exact ((matchingAt_sound h).opens j hj).2
    · rw [← hd, length_openAt (hlt hj)]
      rfl
  · rintro ⟨c, hc, hopen, hd⟩
    obtain ⟨j, -, hfits, houter, rfl⟩ := mem_crams_iff.mp hc
    have hj : j ∈ openAt ts i := hopen
    obtain ⟨inner, outer, hl⟩ := List.append_of_mem hj
    obtain rfl : openAt ts j = outer := openAt_below h hl
    refine ⟨inner, j, _, hl, hfits, houter, ?_⟩
    rw [length_openAt (hlt hj)]
    exact hd

/-- In front of a token, the decision that stands is on a crammed group that reaches over it. -/
theorem crammed_cursorAt_eq_some_iff (h : i < ts.length) {d : Nat} :
    (cursorAt page ts i).crammed = some d ↔
      ∃ c ∈ crams page ts, c.index < i ∧ c.Covers ts i ∧ c.depth = d := by
  rw [crammed_eq_some_iff (Nat.le_of_lt h)]
  refine exists_congr fun c => and_congr_right fun _ => ?_
  rw [mem_openAt h, and_assoc]
  refine and_congr_right fun hlt => and_congr_left fun _ => ?_
  exact ⟨fun hreach => ⟨Nat.le_of_lt hlt, hreach⟩, fun hcovers => hcovers.2⟩

/-- A token in a group that fits stands in a group that is crammed. -/
theorem exists_cram_of_crammedAt (h : i < ts.length) (hc : crammedAt page ts i = true) :
    ∃ c ∈ crams page ts, c.index ≤ i ∧ reaches ts c.index i = true := by
  rw [crammedAt_eq h, Bool.or_eq_true] at hc
  by_cases hin : (openAt ts i).any (fitsAt page ts) = true
  · have hstands : (cursorAt page ts i).crammed.isSome = true := by
      rw [cursorAt_eq page (Nat.le_of_lt h), isSome_outermostFit, hin]
    obtain ⟨d, hd⟩ := Option.isSome_iff_exists.mp hstands
    obtain ⟨c, hc, -, hcovers, -⟩ := (crammed_cursorAt_eq_some_iff h).mp hd
    exact ⟨c, hc, hcovers⟩
  · have hfits : fitsAt page ts i = true := hc.resolve_left hin
    have hl : ts[i]? = some .lparen := by
      by_contra hne
      rw [fitsAt_of_ne hne] at hfits
      cases hfits
    exact ⟨cramAt page ts i, mem_crams_iff.mpr ⟨i, hl, hfits, Bool.eq_false_iff.mpr hin, rfl⟩,
      Nat.le_refl i, reaches_self hl⟩

/-! ## The outermost groups that fit -/

/-- The decision is on a group that is narrower than the page at its own depth, and each group
around it is too wide at its own. -/
structure OnOutermost (page : Page) (ts : List Token) (c : Cram) (span : Span) : Prop where
  group : groupAt ts c.index = some span
  depth : c.depth = nesting ts c.index
  fit : c.fit = page.fitLength c.depth span
  fits : c.fit < page.columns.toNat
  outermost : ∀ j < c.index, ∀ around, groupAt ts j = some around → c.index < around.stop →
    page.columns.toNat ≤ page.fitLength (nesting ts j) around

theorem fitsAt_iff_of_groupAt {span : Span} (h : groupAt ts j = some span) :
    fitsAt page ts j = true ↔ page.fitLength (nesting ts j) span < page.columns.toNat := by
  rw [fitsAt, h, Option.any_some, decide_eq_true_iff, ← Page.fits_iff, Page.fits,
    decide_eq_true_iff]

theorem any_openAt_eq_false_iff (h : i < ts.length) :
    (openAt ts i).any (fitsAt page ts) = false ↔
      ∀ j < i, ∀ around, groupAt ts j = some around → i < around.stop →
        page.columns.toNat ≤ page.fitLength (nesting ts j) around := by
  rw [List.any_eq_false]
  constructor
  · intro hnone j hj around hgroup hstop
    have hreach : reaches ts j i = true := reaches_iff_groupAt.mpr ⟨around, hgroup, hstop⟩
    have hfits := hnone j ((mem_openAt h).mpr ⟨hj, hreach⟩)
    rw [fitsAt_iff_of_groupAt hgroup] at hfits
    exact Nat.le_of_not_lt hfits
  · intro hwide j hj hfits
    obtain ⟨hlt, hreach⟩ := (mem_openAt h).mp hj
    obtain ⟨around, hgroup, hstop⟩ := reaches_iff_groupAt.mp hreach
    rw [fitsAt_iff_of_groupAt hgroup] at hfits
    exact Nat.not_le_of_lt hfits (hwide j hlt around hgroup hstop)

theorem mem_crams_iff_onOutermost {c : Cram} :
    c ∈ crams page ts ↔ ∃ span, OnOutermost page ts c span := by
  rw [mem_crams_iff]
  constructor
  · rintro ⟨i, hl, hfits, houter, rfl⟩
    obtain ⟨hi, -⟩ := List.getElem?_eq_some_iff.mp hl
    have hgroup := groupAt_lparen hl
    exact ⟨spanFrom ts (i + 1), hgroup, rfl, rfl, (fitsAt_iff_of_groupAt hgroup).mp hfits,
      (any_openAt_eq_false_iff hi).mp houter⟩
  · rintro ⟨span, hgroup, hdepth, hfit, hfits, houter⟩
    obtain ⟨i, d, w⟩ := c
    obtain ⟨hl, rfl⟩ := groupAt_eq_some_iff.mp hgroup
    obtain ⟨hi, -⟩ := List.getElem?_eq_some_iff.mp hl
    obtain rfl : d = nesting ts i := hdepth
    obtain rfl : w = page.fitLength (nesting ts i) (spanFrom ts (i + 1)) := hfit
    exact ⟨i, hl, (fitsAt_iff_of_groupAt hgroup).mpr hfits,
      (any_openAt_eq_false_iff hi).mpr houter, rfl⟩

/-! ## Apart and in order -/

/-- A group that is crammed ends in front of the next one. -/
theorem stop_le_of_index_lt {c d : Cram} (hc : c ∈ crams page ts) (hd : d ∈ crams page ts)
    (h : c.index < d.index) {span : Span} (hgroup : groupAt ts c.index = some span) :
    span.stop ≤ d.index := by
  obtain ⟨_, hc⟩ := mem_crams_iff_onOutermost.mp hc
  obtain ⟨_, hd⟩ := mem_crams_iff_onOutermost.mp hd
  obtain rfl := Option.some.inj (hc.group.symm.trans hgroup)
  by_contra hstop
  have hwide := hd.outermost c.index h _ hgroup (Nat.lt_of_not_le hstop)
  rw [← hc.depth, ← hc.fit] at hwide
  exact Nat.not_le_of_lt hc.fits hwide

theorem pairwise_index_crams (page : Page) (ts : List Token) :
    (crams page ts).Pairwise fun c d => c.index < d.index := by
  rw [crams, place_eq_map, List.filterMap_map, List.pairwise_filterMap]
  refine (pairwise_zipIdx ts 0).imp_of_mem fun hs ht hlt c hc d hd => ?_
  obtain ⟨-, -, -, rfl⟩ :=
    (cram_placementAt_eq_some_iff (List.mem_zipIdx_iff_getElem?.mp hs)).mp hc
  obtain ⟨-, -, -, rfl⟩ :=
    (cram_placementAt_eq_some_iff (List.mem_zipIdx_iff_getElem?.mp ht)).mp hd
  exact hlt

theorem not_covers_of_index_lt {c d : Cram} (hc : c ∈ crams page ts) (hd : d ∈ crams page ts)
    (h : c.index < d.index) (hci : c.Covers ts i) : ¬ d.Covers ts i := by
  rintro ⟨hle, -⟩
  obtain ⟨span, hgroup, hlt⟩ := reaches_iff_groupAt.mp hci.2
  have hstop := stop_le_of_index_lt hc hd h hgroup
  omega

theorem eq_of_covers {c d : Cram} (hc : c ∈ crams page ts) (hd : d ∈ crams page ts)
    (hci : c.Covers ts i) (hdi : d.Covers ts i) : c = d := by
  rcases Nat.lt_trichotomy c.index d.index with h | h | h
  · exact absurd hdi (not_covers_of_index_lt hc hd h hci)
  · rw [eq_cramAt_index hc, eq_cramAt_index hd, h]
  · exact absurd hci (not_covers_of_index_lt hd hc h hdi)

/-! ## What is reported -/

/-- The records of level trace are those of the decisions to cram. -/
theorem trace_formatTokensLog (page : Page) (ts : List Token) :
    ((formatTokensLog page ts).filter fun r => r.level = .trace) =
      (crams page ts).map .cramming := by
  rw [formatTokensLog, layoutLog, refillLog]
  simp [List.filter_map, Function.comp_def, Record.level]

/-! ## The decisions to cram -/

/-- A group is crammed if and only if it fits the page and no group around it does, and the
decision on it is reported once. So no two groups that are crammed share a token, they are reported
in order, and where a token stands in one of them, the decision on that one stands. -/
theorem the_outermost_groups_that_fit_are_crammed (page : Page) (ts : List Token) :
    ((formatTokensLog page ts).filter fun r => r.level = .trace) =
        (crams page ts).map .cramming ∧
      (∀ c, c ∈ crams page ts ↔ ∃ span, OnOutermost page ts c span) ∧
      ((crams page ts).Pairwise fun c d => c.index < d.index ∧
        ∀ span, groupAt ts c.index = some span → span.stop ≤ d.index) ∧
      (∀ i, ∀ c ∈ crams page ts, ∀ d ∈ crams page ts,
        c.Covers ts i → d.Covers ts i → c = d) ∧
      ∀ i < ts.length, ∀ depth, (cursorAt page ts i).crammed = some depth ↔
        ∃ c ∈ crams page ts, c.index < i ∧ c.Covers ts i ∧ c.depth = depth := by
  refine ⟨trace_formatTokensLog page ts, fun c => mem_crams_iff_onOutermost, ?_,
    fun i c hc d hd => eq_of_covers hc hd, fun i hi depth => crammed_cursorAt_eq_some_iff hi⟩
  refine (pairwise_index_crams page ts).imp_of_mem fun hc hd hlt => ?_
  exact ⟨hlt, fun span hgroup => stop_le_of_index_lt hc hd hlt hgroup⟩

/-- Behind a closing parenthesis with no partner, a group in one that is too wide, and a group that
is never closed. The groups in those two are not decided on. -/
theorem two_groups_are_crammed_with_those_in_them :
    let page : Page := { columns := 8, indent := 2 }
    let ts := Token.scan ") (aa (b (c)) dd) (e (f".toList
    (∃ span, OnOutermost page ts ⟨3, 1, 7⟩ span) ∧ (∃ span, OnOutermost page ts ⟨11, 0, 3⟩ span) ∧
      groupAt ts 3 = some ⟨9, 5⟩ ∧ 9 ≤ 11 ∧
      (∀ c ∈ crams page ts, c.Covers ts 6 → c = ⟨3, 1, 7⟩) ∧
      6 < ts.length ∧ (cursorAt page ts 6).crammed = some 1 := by
  intro page ts
  obtain ⟨-, hiff, hapart, hone, hstands⟩ := the_outermost_groups_that_fit_are_crammed page ts
  have hcrams : crams page ts = [⟨3, 1, 7⟩, ⟨11, 0, 3⟩] := by decide
  have hmem : ⟨3, 1, 7⟩ ∈ crams page ts := by simp [hcrams]
  have hmem' : ⟨11, 0, 3⟩ ∈ crams page ts := by simp [hcrams]
  have hgroup : groupAt ts 3 = some ⟨9, 5⟩ := by decide
  have hcovers : Cram.Covers ts ⟨3, 1, 7⟩ 6 := ⟨by decide, by decide⟩
  have hstop : 9 ≤ 11 := by
    rw [hcrams] at hapart
    exact (List.rel_of_pairwise_cons hapart (List.mem_singleton_self _)).2 _ hgroup
  exact ⟨(hiff _).mp hmem, (hiff _).mp hmem', hgroup, hstop,
    fun c hc hci => hone 6 c hc _ hmem hci hcovers, by decide,
    (hstands 6 (by decide) 1).mpr ⟨_, hmem, by decide, hcovers, rfl⟩⟩

end PrettyFormula
