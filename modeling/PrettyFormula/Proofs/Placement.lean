-- The laws of the layout. The cursor holds a depth and the depth of one crammed
-- group; both follow from the groups around the token, so the same is true of
-- what stands in front of the token.
import PrettyFormula.Proofs.Nesting
import PrettyFormula.Proofs.Scanning

namespace PrettyFormula

/-! ## The layout without a cursor -/

/-- The group that opens at `j` fits the page at its own depth. -/
def fitsAt (page : Page) (ts : List Token) (j : Nat) : Bool :=
  (groupAt ts j).any fun span =>
    page.indent.toNat * nesting ts j + span.width < page.columns.toNat

/-- Position `i` stands in a group that fits. An opening parenthesis stands in its own group. -/
def crammedAt (page : Page) (ts : List Token) (i : Nat) : Bool :=
  (List.range (i + 1)).any fun j => reaches ts j i && fitsAt page ts j

/-- The spaces in front of a line at a nesting depth, cut off at the largest 64 bit number. -/
def depthMargin (page : Page) (depth : Nat) : Nat :=
  min (page.indent.toNat * depth) (UInt64.size - 1)

/-- What stands in front of the token at position `i`, as the groups around it decide. -/
def separatorAt (page : Page) (ts : List Token) (i : Nat) : Separator :=
  if i = 0 ∨ ts[i]? = some .rparen ∨ ts[i - 1]? = some .lparen then .glue
  else if crammedAt page ts i then .space
  else .newline (depthMargin page (nesting ts i))

/-- The text in front of the token at position `i`: a glued token has none, and any other one goes
on the line in a group that fits and starts a line elsewhere. -/
def gapAt (page : Page) (ts : List Token) (i : Nat) : Text :=
  if i = 0 ∨ ts[i]? = some .rparen ∨ ts[i - 1]? = some .lparen then []
  else if crammedAt page ts i then [' ']
  else '\n' :: List.replicate (depthMargin page (nesting ts i)) ' '

/-! ## The pass -/

def placingAt (page : Page) (ts : List Token) (i : Nat) : Placing :=
  (ts.zipIdx.take i).foldl (Placing.push page (spanTable ts).span?) {}

def cursorAt (page : Page) (ts : List Token) (i : Nat) : Cursor := (placingAt page ts i).cursor

def placementAt (page : Page) (ts : List Token) (t : Token × Nat) : Placement :=
  ((cursorAt page ts t.2).place page (spanTable ts).span? t).1

variable {page : Page} {ts : List Token} {i j : Nat}

theorem placingAt_succ {t : Token} (h : ts[i]? = some t) :
    placingAt page ts (i + 1) = (placingAt page ts i).push page (spanTable ts).span? (t, i) := by
  rw [placingAt, take_succ_zipIdx h, List.foldl_append]
  rfl

theorem cursorAt_succ {t : Token} (h : ts[i]? = some t) :
    cursorAt page ts (i + 1) = ((cursorAt page ts i).place page (spanTable ts).span? (t, i)).2 := by
  rw [cursorAt, placingAt_succ h]
  rfl

theorem placed_placingAt (page : Page) (h : i ≤ ts.length) :
    (placingAt page ts i).placed.toList = (ts.zipIdx.take i).map (placementAt page ts) := by
  induction i with
  | zero => rfl
  | succ i ih =>
    have ht : ts[i]? = some ts[i] := List.getElem?_eq_getElem h
    rw [placingAt_succ ht, Placing.push, Array.toList_push, ih (Nat.le_of_succ_le h),
      take_succ_zipIdx ht, List.map_append]
    rfl

theorem place_eq_map (page : Page) (ts : List Token) :
    place page ts = ts.zipIdx.map (placementAt page ts) := by
  have h := placed_placingAt page (Nat.le_refl ts.length)
  have hz : ts.zipIdx.take ts.length = ts.zipIdx := List.take_of_length_le (by simp)
  rw [placingAt, hz] at h
  exact h

@[simp] theorem length_place (page : Page) (ts : List Token) :
    (place page ts).length = ts.length := by
  rw [place_eq_map, List.length_map, List.length_zipIdx]

theorem layOut_eq_flatMap (page : Page) (ts : List Token) :
    layOut page ts = ts.zipIdx.flatMap fun t => (placementAt page ts t).text := by
  rw [layOut, render, place_eq_map, List.flatMap_map]

theorem take_place (page : Page) (h : i ≤ ts.length) :
    (place page ts).take i = (placingAt page ts i).placed.toList := by
  rw [placed_placingAt page h, place_eq_map, List.map_take]

theorem getElem?_place (page : Page) {t : Token} (h : ts[i]? = some t) :
    (place page ts)[i]? = some (placementAt page ts (t, i)) := by
  rw [place_eq_map, List.getElem?_map, List.getElem?_zipIdx, h, Option.map_some, Option.map_some,
    Nat.zero_add]

theorem exists_token_of_place {p : Placement} (h : (place page ts)[i]? = some p) :
    ∃ t, ts[i]? = some t ∧ p = placementAt page ts (t, i) := by
  obtain ⟨hi, -⟩ := List.getElem?_eq_some_iff.mp h
  rw [length_place] at hi
  have ht : ts[i]? = some ts[i] := List.getElem?_eq_getElem hi
  rw [getElem?_place page ht] at h
  exact ⟨ts[i], ht, (Option.some.inj h).symm⟩

/-! ## Seeking in place of the table -/

/-- The tokens placed, with the end of each group sought anew. -/
def placeSeeking (page : Page) (ts : List Token) : List Placement :=
  (placing page (fun i => some (spanFrom ts (i + 1))) ts).placed.toList

/-- To place a token, its span is looked at only behind an opening parenthesis. -/
theorem Placing.push_congr {f g : Nat → Option Span} {t : Token} (h : t = .lparen → f i = g i)
    {p : Placing} : p.push page f (t, i) = p.push page g (t, i) := by
  cases t with
  | lparen => simp only [push, Cursor.place, h rfl]
  | rparen => rfl
  | atom a => rfl

theorem placing_congr {f g : Nat → Option Span} (h : ∀ j, ts[j]? = some .lparen → f j = g j) :
    placing page f ts = placing page g ts := by
  apply List.foldl_ext
  rintro p ⟨t, i⟩ ht
  refine Placing.push_congr fun hl => h i ?_
  rw [← hl]
  exact List.mem_zipIdx_iff_getElem?.mp ht

theorem placeSeeking_eq (page : Page) (ts : List Token) : placeSeeking page ts = place page ts := by
  rw [placeSeeking, place, placing_congr fun j hj => (span?_spanTable hj).symm]

/-- The table holds the span that seeking the end of a group finds, also for a group that is never
closed and behind closing parentheses with no partner. So a layout that seeks is the same text,
from the same decisions. -/
theorem the_table_holds_what_seeking_finds (ts : List Token) :
    (∀ j, ts[j]? = some .lparen → (spanTable ts).span? j = some (spanFrom ts (j + 1))) ∧
      ∀ page, render (placeSeeking page ts) = layOut page ts ∧
        (placeSeeking page ts).filterMap Placement.cram = crams page ts := by
  refine ⟨fun j hj => span?_spanTable hj, fun page => ?_⟩
  rw [placeSeeking_eq]
  exact ⟨rfl, rfl⟩

/-- Behind a closing parenthesis with no partner, a group that is never closed. -/
theorem a_group_left_open_reaches_to_the_end :
    let ts : List Token := [.rparen, .lparen, .atom ['a'], .lparen, .rparen]
    ts[1]? = some .lparen ∧ (spanTable ts).span? 1 = some (spanFrom ts 2) ∧
      spanFrom ts 2 = ⟨5, 3⟩ :=
  ⟨by decide, (the_table_holds_what_seeking_finds _).1 1 (by decide), by decide⟩

/-! ## The cursor as the stack tells it -/

/-- The depth of the outermost group that fits, among those that are open. -/
def outermostFit (page : Page) (ts : List Token) : List Nat → Option Nat
  | [] => none
  | j :: outer =>
    (outermostFit page ts outer).or (if fitsAt page ts j then some outer.length else none)

theorem outermostFit_lt {l : List Nat} {d : Nat} (h : outermostFit page ts l = some d) :
    d < l.length := by
  induction l with
  | nil => simp [outermostFit] at h
  | cons j outer ih =>
    rw [outermostFit, Option.or_eq_some_iff] at h
    rcases h with h | ⟨-, h⟩
    · exact Nat.lt_succ_of_lt (ih h)
    · split at h
      · cases h
        exact Nat.lt_succ_self _
      · cases h

theorem isSome_outermostFit (page : Page) (ts : List Token) (l : List Nat) :
    (outermostFit page ts l).isSome = l.any (fitsAt page ts) := by
  induction l with
  | nil => rfl
  | cons j outer ih =>
    rw [outermostFit, Option.isSome_or, ih, List.any_cons, Bool.or_comm]
    split
    · rename_i h
      simp [h]
    · rename_i h
      simp [h]

theorem outermostFit_eq_none_iff {l : List Nat} :
    outermostFit page ts l = none ↔ l.any (fitsAt page ts) = false := by
  rw [← isSome_outermostFit, Option.isSome_eq_false_iff, Option.isNone_iff_eq_none]

theorem fitsAt_of_ne (h : ts[j]? ≠ some .lparen) : fitsAt page ts j = false := by
  rw [fitsAt, groupAt_of_ne h, Option.any_none]

theorem fits_spanFrom (page : Page) (h : ts[j]? = some .lparen) :
    page.fits (nesting ts j) (spanFrom ts (j + 1)) = fitsAt page ts j := by
  rw [fitsAt, groupAt_lparen h, Option.any_some, Bool.eq_iff_iff, decide_eq_true_iff,
    Page.fits_iff]

/-- Deciding on a group at its depth: a decision that stands is kept, and without one the group
is crammed if it fits. -/
theorem crammed_adopt (page : Page) {c : Cursor} (hl : ts[i]? = some .lparen)
    (hd : c.depth = nesting ts i) :
    (c.adopt (c.cram? page i ((spanTable ts).span? i))).crammed =
      c.crammed.or (if fitsAt page ts i then some c.depth else none) := by
  rcases hc : c.crammed with _ | d
  · have hfits : fitsAt page ts i = page.fits c.depth (spanFrom ts (i + 1)) := by
      rw [hd, fits_spanFrom page hl]
    rw [Cursor.adopt, Cursor.cram?, hc, span?_spanTable hl, hfits]
    by_cases h : page.fits c.depth (spanFrom ts (i + 1))
    · simp [Option.filter, h]
    · simp [Option.filter, h]
  · simp [Cursor.adopt, hc]

theorem leave_outermostFit (page : Page) (ts : List Token) (l : List Nat) (glued : Bool) :
    Cursor.leave ⟨l.length, outermostFit page ts l, glued⟩ =
      ⟨l.tail.length, outermostFit page ts l.tail, false⟩ := by
  rcases l with _ | ⟨j, outer⟩
  · rfl
  · rw [Cursor.leave, outermostFit]
    simp only [List.length_cons, Nat.add_sub_cancel, List.tail_cons, Cursor.mk.injEq, true_and,
      and_true]
    rcases ho : outermostFit page ts outer with _ | d
    · split_ifs <;> simp_all
    · have hlt := outermostFit_lt ho
      rw [Option.some_or, if_neg]
      intro h
      cases h
      omega

/-- The depth is the height of the stack, the decision that stands is on the outermost open group
that fits, and the next token is glued to nothing and to an opening parenthesis. -/
theorem cursorAt_eq (page : Page) (h : i ≤ ts.length) :
    cursorAt page ts i = {
      depth := (openAt ts i).length
      crammed := outermostFit page ts (openAt ts i)
      glued := decide (i = 0 ∨ ts[i - 1]? = some .lparen) } := by
  induction i with
  | zero => rfl
  | succ i ih =>
    obtain ⟨t, ht⟩ : ∃ t, ts[i]? = some t := ⟨ts[i], List.getElem?_eq_getElem h⟩
    have hglued : decide (i + 1 = 0 ∨ ts[i + 1 - 1]? = some .lparen) = decide (t = .lparen) := by
      simp [ht]
    have hc := ih (Nat.le_of_succ_le h)
    rw [cursorAt_succ ht, openAt_succ ht, hglued]
    cases t with
    | lparen =>
      have hd : (cursorAt page ts i).depth = nesting ts i := by rw [hc, length_openAt h]
      have hcram := crammed_adopt page ht hd
      rw [stackBehind, outermostFit, Cursor.place, Cursor.enter, hcram, Cursor.adopt, hc]
      rfl
    | rparen =>
      rw [stackBehind, Cursor.place, hc, leave_outermostFit]
      rfl
    | atom a =>
      rw [stackBehind, Cursor.place, Cursor.pass, hc]
      rfl

/-! ## Separators -/

theorem any_openAt (h : i < ts.length) :
    (openAt ts i).any (fitsAt page ts) =
      (List.range i).any fun j => reaches ts j i && fitsAt page ts j := by
  rw [Bool.eq_iff_iff, List.any_eq_true, List.any_eq_true]
  simp only [mem_openAt h, List.mem_range, Bool.and_eq_true]
  constructor
  · rintro ⟨j, ⟨hj, hr⟩, hf⟩
    exact ⟨j, hj, hr, hf⟩
  · rintro ⟨j, hj, hr, hf⟩
    exact ⟨j, ⟨hj, hr⟩, hf⟩

theorem crammedAt_eq (h : i < ts.length) :
    crammedAt page ts i = ((openAt ts i).any (fitsAt page ts) || fitsAt page ts i) := by
  rw [crammedAt, List.range_succ, List.any_append, any_openAt h, List.any_cons, List.any_nil,
    Bool.or_false]
  by_cases hl : ts[i]? = some .lparen
  · rw [reaches_self hl, Bool.true_and]
  · rw [fitsAt_of_ne hl, Bool.and_false]

theorem separatorAt_eq_glue_iff :
    separatorAt page ts i = .glue ↔
      i = 0 ∨ ts[i]? = some .rparen ∨ ts[i - 1]? = some .lparen := by
  unfold separatorAt
  split_ifs with hglue
  · exact iff_of_true rfl hglue
  · exact iff_of_false (by simp) hglue
  · exact iff_of_false (by simp) hglue

theorem separator_eq (hr : ts[i]? ≠ some .rparen) {c : Cursor}
    (hd : c.depth = nesting ts i) (hc : c.crammed.isSome = crammedAt page ts i)
    (hg : c.glued = decide (i = 0 ∨ ts[i - 1]? = some .lparen)) :
    c.separator page = separatorAt page ts i := by
  rw [Cursor.separator, separatorAt, hg, hc, hd]
  simp only [hr, false_or, decide_eq_true_eq]
  rfl

@[simp] theorem text_separatorAt (page : Page) (ts : List Token) (i : Nat) :
    (separatorAt page ts i).text = gapAt page ts i := by
  unfold separatorAt gapAt
  split_ifs
  · rfl
  · rfl
  · rfl

theorem separator_placementAt (page : Page) {t : Token} (h : ts[i]? = some t) :
    (placementAt page ts (t, i)).separator = separatorAt page ts i := by
  obtain ⟨hi, -⟩ := List.getElem?_eq_some_iff.mp h
  have hc := cursorAt_eq page (Nat.le_of_lt hi)
  have hd : (cursorAt page ts i).depth = nesting ts i := by rw [hc, length_openAt hi]
  have hsome : (cursorAt page ts i).crammed.isSome = (openAt ts i).any (fitsAt page ts) := by
    rw [hc, isSome_outermostFit]
  have hg : (cursorAt page ts i).glued = decide (i = 0 ∨ ts[i - 1]? = some .lparen) := by rw [hc]
  cases t with
  | lparen =>
    refine separator_eq (by simp [h]) hd ?_ hg
    rw [crammed_adopt page h hd, Option.isSome_or, hsome, crammedAt_eq hi]
    rcases fitsAt page ts i with _ | _ <;> simp
  | rparen =>
    rw [separatorAt, if_pos (Or.inr (Or.inl h))]
    rfl
  | atom a =>
    refine separator_eq (by simp [h]) hd ?_ hg
    have hf : fitsAt page ts i = false := fitsAt_of_ne (by simp [h])
    rw [hsome, crammedAt_eq hi, hf, Bool.or_false]

@[simp] theorem token_placementAt (page : Page) (ts : List Token) (t : Token × Nat) :
    (placementAt page ts t).token = t.1 := by
  obtain ⟨t, i⟩ := t
  cases t <;> rfl

theorem text_placementAt (page : Page) {t : Token} (h : ts[i]? = some t) :
    (placementAt page ts (t, i)).text = gapAt page ts i ++ t.text := by
  rw [Placement.text, separator_placementAt page h, text_separatorAt, token_placementAt]

/-- The layout is the tokens in order, each behind what the groups around it put in front. -/
theorem the_groups_around_a_token_decide_its_separator (page : Page) (ts : List Token) :
    layOut page ts = ts.zipIdx.flatMap fun (t, i) => gapAt page ts i ++ t.text := by
  rw [layOut_eq_flatMap]
  apply List.flatMap_congr
  intro t ht
  exact text_placementAt page (List.mem_zipIdx_iff_getElem?.mp ht)

end PrettyFormula
