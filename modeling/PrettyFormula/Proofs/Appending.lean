-- The laws of appending. What is appended widens the groups that are left open
-- and no other, so a group that did not fit still does not. Line breaks stay, and
-- in front of the first open group nothing changes at all.
import PrettyFormula.Proofs.Closing
import PrettyFormula.Proofs.Cramming

namespace PrettyFormula

variable {page : Page} {ts : List Token} {i j n : Nat}

/-! ## Groups that fit -/

theorem nesting_append (h : i < ts.length) (us : List Token) :
    nesting (ts ++ us) i = nesting ts i := by
  have happend : i < (ts ++ us).length := le_length_append h us
  rw [← length_openAt h, ← length_openAt happend, openAt_append (Nat.le_of_lt h)]

theorem fitsAt_of_append (h : j < ts.length) {us : List Token}
    (hf : fitsAt page (ts ++ us) j = true) : fitsAt page ts j = true := by
  by_cases hl : ts[j]? = some .lparen
  · have happend : (ts ++ us)[j]? = some .lparen := by rw [List.getElem?_append_left h, hl]
    have hwidth := width_spanFrom_le h us
    rw [← fits_spanFrom page happend, Page.fits_iff, nesting_append h] at hf
    rw [← fits_spanFrom page hl, Page.fits_iff]
    omega
  · rw [fitsAt_of_ne (by rwa [List.getElem?_append_left h])] at hf
    cases hf

/-- What is crammed now was crammed before. -/
theorem crammedAt_of_append (h : i < ts.length) {us : List Token}
    (hc : crammedAt page (ts ++ us) i = true) : crammedAt page ts i = true := by
  have happend : i < (ts ++ us).length := le_length_append h us
  rw [crammedAt_eq happend, openAt_append (Nat.le_of_lt h), Bool.or_eq_true, List.any_eq_true] at hc
  rw [crammedAt_eq h, Bool.or_eq_true, List.any_eq_true]
  rcases hc with ⟨j, hj, hf⟩ | hf
  · have hlt : j < i := ((mem_openAt h).mp hj).1
    exact Or.inl ⟨j, hj, fitsAt_of_append (by omega) hf⟩
  · exact Or.inr (fitsAt_of_append h hf)

theorem separatorAt_append_of_newline (h : i < ts.length) {margin : Nat}
    (hs : separatorAt page ts i = .newline margin) (us : List Token) :
    separatorAt page (ts ++ us) i = .newline margin := by
  unfold separatorAt at hs ⊢
  rw [List.getElem?_append_left h, List.getElem?_append_left (by omega), nesting_append h]
  split_ifs at hs with hglue hcram
  rw [if_neg hglue, if_neg fun hc => hcram (crammedAt_of_append h hc), hs]

/-! ## In front of the first open group -/

theorem placingAt_append (hn : n ≤ ts.length) (hc : ClosedBefore ts n) (us : List Token) :
    placingAt page (ts ++ us) n = placingAt page ts n := by
  induction n with
  | zero => rfl
  | succ n ih =>
    have ht : ts[n]? = some ts[n] := List.getElem?_eq_getElem hn
    have happend : (ts ++ us)[n]? = some ts[n] := by rw [List.getElem?_append_left hn, ht]
    have hbefore := ih (Nat.le_of_succ_le hn) fun j hj => hc j (Nat.lt_succ_of_lt hj)
    rw [placingAt_succ ht, placingAt_succ happend, hbefore]
    refine Placing.push_congr fun hl => ?_
    rw [hl] at ht happend
    have hspan := (hc n (Nat.lt_succ_self n) ht).spanFrom_append us
    rw [span?_spanTable ht, span?_spanTable happend, hspan]

theorem take_place_append (hn : n ≤ ts.length) (hc : ClosedBefore ts n) (us : List Token) :
    (place page (ts ++ us)).take n = (place page ts).take n := by
  rw [take_place page (le_length_append hn us), take_place page hn, placingAt_append hn hc]

/-- Behind closed groups, the layout goes on from where it was. -/
theorem place_append_of_closed (hc : ClosedBefore ts ts.length) (us : List Token) :
    place page (ts ++ us) = place page ts ++ (place page (ts ++ us)).drop ts.length := by
  have hts : (place page ts).take ts.length = place page ts :=
    List.take_of_length_le (by simp)
  have happend : (place page (ts ++ us)).take ts.length = (place page ts).take ts.length :=
    take_place_append (Nat.le_refl ts.length) hc us
  rw [hts] at happend
  conv => lhs; rw [← List.take_append_drop ts.length (place page (ts ++ us)), happend]

theorem layOut_append_of_closed (hc : ClosedBefore ts ts.length) (us : List Token) :
    layOut page (ts ++ us) = layOut page ts ++ render ((place page (ts ++ us)).drop ts.length) := by
  conv => lhs; rw [layOut, place_append_of_closed hc]
  rw [layOut, render, render, render, List.flatMap_append]

/-- What is appended to a token list can only undo cramming. A token that starts a line starts it
again, with the same margin. A group that is crammed then lies in one that was crammed before. In
front of the first group that is left open nothing changes, so if there is none the layout goes on
from what it was. -/
theorem appending_can_only_undo_cramming (page : Page) (ts us : List Token) :
    (∀ (i : Nat) (p : Placement) (margin : Nat), (place page ts)[i]? = some p →
        p.separator = .newline margin → ∃ q, (place page (ts ++ us))[i]? = some q ∧
          q.token = p.token ∧ q.separator = .newline margin) ∧
      (∀ c ∈ crams page (ts ++ us), c.index < ts.length →
        ∃ d ∈ crams page ts, d.index ≤ c.index ∧ reaches ts d.index c.index = true) ∧
      (∀ n ≤ ts.length, ClosedBefore ts n →
        (place page (ts ++ us)).take n = (place page ts).take n) ∧
      (ClosedBefore ts ts.length → layOut page ts <+: layOut page (ts ++ us)) := by
  refine ⟨?_, ?_, fun n hn hc => take_place_append hn hc us, fun hc => ?_⟩
  · intro i p margin hp hs
    obtain ⟨t, ht, rfl⟩ := exists_token_of_place hp
    obtain ⟨hi, -⟩ := List.getElem?_eq_some_iff.mp ht
    have happend : (ts ++ us)[i]? = some t := by rw [List.getElem?_append_left hi, ht]
    rw [separator_placementAt page ht] at hs
    refine ⟨_, getElem?_place page happend, ?_, ?_⟩
    · simp
    · rw [separator_placementAt page happend, separatorAt_append_of_newline hi hs]
  · intro c hc hlt
    obtain ⟨i, hl, hfits, -, rfl⟩ := mem_crams_iff.mp hc
    have hi : i < ts.length := hlt
    have hbefore : crammedAt page ts i = true := by
      rw [crammedAt_eq hi, fitsAt_of_append hi hfits, Bool.or_true]
    exact exists_cram_of_crammedAt hi hbefore
  · rw [layOut_append_of_closed hc]
    exact List.prefix_append _ _

/-- The group at position 4 does not fit any longer, and the one in it is crammed in its place. -/
theorem a_group_that_widens_gives_way_to_the_one_in_it :
    let page : Page := { columns := 8, indent := 2 }
    let ts := Token.scan "(a) x (b (c)".toList
    let us := Token.scan "d e f)".toList
    ((place page ts)[3]? = some ⟨.newline 0, .atom ['x'], none⟩ ∧
        ∃ q, (place page (ts ++ us))[3]? = some q ∧ q.token = .atom ['x'] ∧
          q.separator = .newline 0) ∧
      (⟨6, 1, 4⟩ ∈ crams page (ts ++ us) ∧ 6 < ts.length ∧
        ∃ d ∈ crams page ts, d.index ≤ 6 ∧ reaches ts d.index 6 = true) ∧
      (4 ≤ ts.length ∧ ClosedBefore ts 4 ∧
        (place page (ts ++ us)).take 4 = (place page ts).take 4) ∧
      ClosedBefore (ts.take 4) (ts.take 4).length ∧
      layOut page (ts.take 4) <+: layOut page (ts.take 4 ++ us) := by
  intro page ts us
  have hplace : (place page ts)[3]? = some ⟨.newline 0, .atom ['x'], none⟩ := by decide
  have hcram : ⟨6, 1, 4⟩ ∈ crams page (ts ++ us) := by decide
  have hbefore : ClosedBefore ts 4 := by decide
  have hclosed : ClosedBefore (ts.take 4) (ts.take 4).length := by decide
  obtain ⟨hbreak, hgroup, hstay, -⟩ := appending_can_only_undo_cramming page ts us
  obtain ⟨-, -, -, hgoes⟩ := appending_can_only_undo_cramming page (ts.take 4) us
  exact ⟨⟨hplace, hbreak 3 _ 0 hplace rfl⟩, ⟨hcram, by decide, hgroup _ hcram (by decide)⟩,
    ⟨by decide, hbefore, hstay 4 (by decide) hbefore⟩, hclosed, hgoes hclosed⟩

end PrettyFormula
