-- The law of greedy lines. Lines that are narrow and end only where the next word
-- has no room are told by their words alone, so filling gives the only lines of
-- that kind.
import PrettyFormula.Proofs.Dividing

namespace PrettyFormula

/-! ## Greedy lines -/

/-- Lines that hold words in order, with single spaces between them. Each is one word or within the
budget, and the first word of the next line has no room on it. -/
structure Greedy (budget : Nat) (ws ls : List Text) : Prop where
  holds : ls.flatMap words = ws
  spaced : ∀ l ∈ ls, ∃ vs : List Text, vs ≠ [] ∧ (∀ v ∈ vs, IsWord v) ∧ l = unwords vs
  narrow : ∀ l ∈ ls, IsWord l ∨ l.length < budget
  full : ls.IsChain fun l m => ∀ w, (words m).head? = some w →
    budget ≤ l.length + 1 + w.length

variable {budget : Nat} {t : Text} {ws : List Text} {ls ds : List (List Text)}

/-! ## Crowded divisions -/

theorem Division.eq_nil (h : Division budget [] ls) : ls = [] := by
  rcases ls with _ | ⟨l, ls⟩
  · rfl
  · have hl : l = [] := (List.append_eq_nil_iff.mp h.flatten).1
    exact absurd hl (h.ne_nil l (by simp))

theorem Division.tail {l : List Text} (h : Division budget ws (l :: ls)) :
    Division budget ls.flatten ls :=
  ⟨rfl, fun m hm => h.ne_nil m (by simp [hm]), fun m hm => h.narrow m (by simp [hm])⟩

/-- Neither of two first lines can go on to a word that has no room on the other one. -/
theorem Division.eq_of_crowded (hl : Division budget ws ls) (hd : Division budget ws ds)
    (hls : ls.IsChain (Crowded budget)) (hds : ds.IsChain (Crowded budget)) : ls = ds := by
  induction ls generalizing ws ds with
  | nil =>
    obtain rfl : ws = [] := hl.flatten.symm
    exact hd.eq_nil.symm
  | cons l ls ih =>
    rcases ds with _ | ⟨d, ds⟩
    · obtain rfl : ws = [] := hd.flatten.symm
      exact hl.eq_nil
    · have hflatten : d ++ ds.flatten = [] ++ (l :: ls).flatten := hd.flatten.trans hl.flatten.symm
      have hflatten' : l ++ ls.flatten = [] ++ (d :: ds).flatten := hl.flatten.trans hd.flatten.symm
      obtain ⟨after, hlong, hrest⟩ :=
        exists_left_over hls hl.ne_nil (hd.narrow d (by simp)) hflatten
      obtain ⟨after', hlong', -⟩ :=
        exists_left_over hds hd.ne_nil (hl.narrow l (by simp)) hflatten'
      rw [List.nil_append] at hlong hlong'
      have hnil : after = [] := by
        have hlen := congrArg List.length hlong
        have hlen' := congrArg List.length hlong'
        rw [List.length_append] at hlen hlen'
        exact List.eq_nil_of_length_eq_zero (by omega)
      rw [hnil, List.append_nil] at hlong
      rw [hnil, List.nil_append] at hrest
      rw [hlong, ih hl.tail (hrest ▸ hd.tail) (List.isChain_cons.mp hls).2
        (List.isChain_cons.mp hds).2]

/-! ## Lines as texts -/

theorem isWord_unwords_iff {l : List Text} (hne : l ≠ []) (hl : ∀ w ∈ l, IsWord w) :
    IsWord (unwords l) ↔ l.length ≤ 1 := by
  constructor
  · intro h
    have hone : [unwords l] = l := by rw [← words_word h, words_unwords hl]
    rw [← hone]
    exact Nat.le_refl 1
  · intro h
    have hpos := List.length_pos_of_ne_nil hne
    obtain ⟨w, rfl⟩ := List.length_eq_one_iff.mp (Nat.le_antisymm h hpos)
    rw [unwords, List.intercalate_singleton]
    exact hl w (List.mem_singleton_self w)

theorem greedy_map_unwords_iff (h : ∀ l ∈ ls, l ≠ [] ∧ ∀ w ∈ l, IsWord w) :
    Greedy budget ws (ls.map unwords) ↔
      Division budget ws ls ∧ ls.IsChain (Crowded budget) := by
  have hflatten : (ls.map unwords).flatMap words = ls.flatten := by
    rw [List.flatMap_map, flatMap_words_unwords fun l hl => (h l hl).2]
  have hfull : (ls.map unwords).IsChain (fun l m => ∀ w, (words m).head? = some w →
      budget ≤ l.length + 1 + w.length) ↔ ls.IsChain (Crowded budget) := by
    rw [List.isChain_map]
    apply List.IsChain.iff_of_mem_imp
    intro l m _ hm
    rw [words_unwords (h m hm).2]
    rfl
  have hnarrow : ∀ l ∈ ls, (IsWord (unwords l) ∨ (unwords l).length < budget ↔ Narrow budget l) :=
    fun l hl => or_congr_left (isWord_unwords_iff (h l hl).1 (h l hl).2)
  constructor
  · intro hgreedy
    refine ⟨⟨hflatten ▸ hgreedy.holds, fun l hl => (h l hl).1, fun l hl => ?_⟩,
      hfull.mp hgreedy.full⟩
    exact (hnarrow l hl).mp (hgreedy.narrow _ (List.mem_map_of_mem hl))
  · rintro ⟨hdivision, hchain⟩
    refine ⟨hflatten.trans hdivision.flatten, fun m hm => ?_, fun m hm => ?_, hfull.mpr hchain⟩
    · obtain ⟨l, hl, rfl⟩ := List.mem_map.mp hm
      exact ⟨l, (h l hl).1, (h l hl).2, rfl⟩
    · obtain ⟨l, hl, rfl⟩ := List.mem_map.mp hm
      exact (hnarrow l hl).mpr (hdivision.narrow l hl)

theorem Greedy.exists_eq_map {ms : List Text} (h : Greedy budget ws ms) :
    ∃ ls : List (List Text), (∀ l ∈ ls, l ≠ [] ∧ ∀ w ∈ l, IsWord w) ∧ ms = ls.map unwords := by
  have hline : ∀ m ∈ ms, words m ≠ [] ∧ unwords (words m) = m := by
    intro m hm
    obtain ⟨vs, hne, hvs, rfl⟩ := h.spaced m hm
    rw [words_unwords hvs]
    exact ⟨hne, rfl⟩
  refine ⟨ms.map words, fun l hl => ?_, ?_⟩
  · obtain ⟨m, hm, rfl⟩ := List.mem_map.mp hl
    exact ⟨(hline m hm).1, isWord_of_mem_words m⟩
  · rw [List.map_map]
    conv => lhs; rw [← List.map_id ms]
    exact List.map_congr_left fun m hm => (hline m hm).2.symm

theorem greedy_fill (budget : Nat) (h : words t ≠ []) : Greedy budget (words t) (fill budget t) := by
  have hline : ∀ l ∈ pack budget (words t), l ≠ [] ∧ ∀ w ∈ l, IsWord w := fun l hl =>
    ⟨ne_nil_of_mem_pack h hl, isWord_of_mem_pack (isWord_of_mem_words t) hl⟩
  exact (greedy_map_unwords_iff hline).mpr
    ⟨division_pack budget h, isChain_pack budget (words t)⟩

theorem Greedy.eq_fill {ms : List Text} (h : Greedy budget (words t) ms) (hne : words t ≠ []) :
    ms = fill budget t := by
  obtain ⟨ls, hls, rfl⟩ := h.exists_eq_map
  obtain ⟨hdivision, hchain⟩ := (greedy_map_unwords_iff hls).mp h
  rw [hdivision.eq_of_crowded (division_pack budget hne) hchain (isChain_pack budget (words t)),
    fill]

/-- The lines that a text with words is filled into are the only greedy ones. Without words there is
one line, and it is empty. -/
theorem filled_lines_are_the_only_greedy_ones (budget : Nat) (t : Text) :
    (words t ≠ [] → ∀ ls, Greedy budget (words t) ls ↔ ls = fill budget t) ∧
      (words t = [] → fill budget t = [[]]) := by
  refine ⟨fun hne ls => ⟨fun h => h.eq_fill hne, ?_⟩, fun hnil => ?_⟩
  · rintro rfl
    exact greedy_fill budget hne
  · rw [fill, hnil]
    rfl

/-- A division with a break that could have been avoided is not greedy. -/
theorem the_greedy_lines_of_a_text_with_a_wide_word :
    let t : Text := "aa b  ccccccc\td e".toList
    let ls : List Text := ["aa b".toList, "ccccccc".toList, "d e".toList]
    let broken : List Text := ["aa".toList, "b".toList, "ccccccc".toList, "d e".toList]
    let blank : Text := " \t".toList
    words t ≠ [] ∧ Greedy 5 (words t) ls ∧ ls = fill 5 t ∧ ¬ Greedy 5 (words t) broken ∧
      words blank = [] ∧ fill 5 blank = [[]] := by
  intro t ls broken blank
  have hne : words t ≠ [] := by decide
  have hblank : words blank = [] := by decide
  have hgreedy : Greedy 5 (words t) ls := by
    refine ⟨by decide, fun l hl => ⟨words l, ?_, isWord_of_mem_words l, ?_⟩, fun l hl => ?_,
      .cons_cons (fun w hw => ?_) (.cons_cons (fun w hw => ?_) (.singleton _))⟩
    · revert l
      decide
    · revert l
      decide
    · simp only [ls, List.mem_cons, List.not_mem_nil, or_false] at hl
      rcases hl with rfl | rfl | rfl
      · exact Or.inr (by decide)
      · exact Or.inl (isWord_of_mem_words t _ (by decide))
      · exact Or.inr (by decide)
    · obtain rfl : "ccccccc".toList = w := Option.some.inj hw
      decide
    · obtain rfl : "d".toList = w := Option.some.inj hw
      decide
  obtain ⟨honly, -⟩ := filled_lines_are_the_only_greedy_ones 5 t
  obtain ⟨-, hempty⟩ := filled_lines_are_the_only_greedy_ones 5 blank
  refine ⟨hne, hgreedy, (honly hne ls).mp hgreedy, fun hbroken => ?_, hblank, hempty hblank⟩
  exact absurd ((honly hne broken).mp hbroken) (by decide)

end PrettyFormula
