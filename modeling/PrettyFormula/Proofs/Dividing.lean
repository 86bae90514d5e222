-- The laws of packing, held against every other way to divide words into lines.
-- A packed line ends only where the next word has no room. So no division is
-- ever ahead of the packed lines, and none has fewer of them.
import Mathlib.Data.List.Chain
import Mathlib.Data.List.Flatten
import PrettyFormula.Proofs.Filling

namespace PrettyFormula

/-! ## Divisions of words -/

/-- The words in order, on lines that hold some and could not be narrower or are within the
budget. -/
structure Division (budget : Nat) (ws : List Text) (ls : List (List Text)) : Prop where
  flatten : ls.flatten = ws
  ne_nil : ∀ l ∈ ls, l ≠ []
  narrow : ∀ l ∈ ls, Narrow budget l

/-- The first word of the second line has no room on the first one. -/
def Crowded (budget : Nat) (l m : List Text) : Prop :=
  ∀ w, m.head? = some w → budget ≤ (unwords l).length + 1 + w.length

variable {budget wide : Nat} {ws : List Text} {ls ds : List (List Text)}

theorem Division.of_le (h : Division budget ws ls) (hle : budget ≤ wide) : Division wide ws ls := by
  refine ⟨h.flatten, h.ne_nil, fun l hl => ?_⟩
  rcases h.narrow l hl with hone | hnarrow
  · exact Or.inl hone
  · exact Or.inr (Nat.lt_of_lt_of_le hnarrow hle)

theorem division_pack (budget : Nat) (h : ws ≠ []) : Division budget ws (pack budget ws) :=
  ⟨flatten_pack budget ws, fun _ hl => ne_nil_of_mem_pack h hl, fun _ hl => narrow_of_mem_pack hl⟩

/-! ## Where packed lines end -/

namespace Packing

/-- Each line but the last ends where the next word has no room, and none is full before the first
word. -/
structure Tight (budget : Nat) (p : Packing) : Prop where
  start : p.line = [] → p.full.toList = []
  crowded : p.lines.IsChain (Crowded budget)

theorem tight_start (budget : Nat) : Tight budget {} :=
  ⟨fun _ => rfl, List.isChain_singleton _⟩

theorem Tight.push {p : Packing} (h : p.Tight budget) (hgood : p.Good budget) (w : Text) :
    (p.push budget w).Tight budget := by
  have hchain := h.crowded
  unfold lines at hchain
  unfold Packing.push
  split_ifs with hline hfits
  · have hnil : p.line = [] := by simpa using hline
    refine ⟨by simp, ?_⟩
    rw [lines, h.start hnil]
    exact List.isChain_singleton _
  · -- The line keeps its first word, so the line in front of it is as crowded as before.
    obtain ⟨v, vs, hvs⟩ := List.exists_cons_of_ne_nil
      (show p.line.reverse ≠ [] by simpa using hline)
    obtain ⟨hfull, -, hlast⟩ := List.isChain_append.mp hchain
    refine ⟨by simp, List.isChain_append.mpr ⟨hfull, List.isChain_singleton _, ?_⟩⟩
    intro l hl m hm
    cases hm
    have hcrowded := hlast l hl _ rfl
    rw [hvs] at hcrowded
    rw [List.reverse_cons, hvs]
    exact hcrowded
  · have hne : p.line ≠ [] := by simpa using hline
    refine ⟨by simp, ?_⟩
    rw [lines, Array.toList_push, List.append_assoc]
    refine List.isChain_append_cons_cons.mpr ⟨hchain, ?_, List.isChain_singleton _⟩
    intro v hv
    cases hv
    rw [← hgood.width hne]
    exact Nat.le_of_not_lt hfits

end Packing

theorem isChain_pack (budget : Nat) (ws : List Text) :
    (pack budget ws).IsChain (Crowded budget) := by
  suffices h : (ws.foldl (Packing.push budget) {}).Tight budget from h.crowded
  induction ws using List.reverseRecOn with
  | nil => exact Packing.tight_start budget
  | append_singleton ws w ih =>
    rw [List.foldl_append, List.foldl_cons, List.foldl_nil]
    exact ih.push (Packing.good_foldl budget ws) w

/-! ## No division is ahead -/

theorem space_unwords (h : ws ≠ []) : space :: unwords ws = ws.flatMap (space :: ·) := by
  obtain ⟨w, ws, rfl⟩ := List.exists_cons_of_ne_nil h
  rw [unwords, intercalate_cons]
  rfl

theorem length_unwords_le {l : List Text} (h : l ≠ []) (before : List Text) (w : Text)
    (after : List Text) :
    (unwords l).length + 1 + w.length ≤ (unwords (before ++ l ++ w :: after)).length := by
  have hline := congrArg List.length (space_unwords h)
  have hall := congrArg List.length (space_unwords (show before ++ l ++ w :: after ≠ [] by simp))
  simp only [List.flatMap_append, List.flatMap_cons, List.length_append, List.length_cons]
    at hline hall
  omega

/-- A line that starts no later than a packed one ends no later. What it leaves of the packed line
stands in front of the next ones. -/
theorem exists_left_over {before d l : List Text} (hchain : (l :: ls).IsChain (Crowded budget))
    (hne : ∀ m ∈ l :: ls, m ≠ []) (hd : Narrow budget d)
    (h : d ++ ds.flatten = before ++ (l :: ls).flatten) :
    ∃ after, before ++ l = d ++ after ∧ ds.flatten = after ++ ls.flatten := by
  rw [List.flatten_cons, ← List.append_assoc] at h
  rcases List.append_eq_append_iff.mp h with ⟨after, hl, hds⟩ | ⟨more, hmore, hls⟩
  · exact ⟨after, hl, hds⟩
  · rcases more with _ | ⟨w, more⟩
    · exact ⟨[], by rw [hmore, List.append_nil, List.append_nil], hls.symm⟩
    · -- The line would go on to a word that had no room on the packed one.
      exfalso
      have hl : l ≠ [] := hne l (by simp)
      have hwide := length_unwords_le hl before w more
      rw [← hmore] at hwide
      rcases ls with _ | ⟨m, ls⟩
      · simp at hls
      · obtain ⟨v, m, rfl⟩ := List.exists_cons_of_ne_nil (hne m (by simp))
        obtain ⟨rfl, -⟩ := List.cons.inj hls
        have hroom := (List.isChain_cons_cons.mp hchain).1 v rfl
        rcases hd with hone | hnarrow
        · have hpos := List.length_pos_of_ne_nil hl
          rw [hmore] at hone
          simp only [List.length_append, List.length_cons] at hone
          omega
        · omega

/-- Lines that start in front of packed ones do not get ahead of them. -/
theorem length_flatten_take_le {before : List Text} (hchain : ls.IsChain (Crowded budget))
    (hne : ∀ l ∈ ls, l ≠ []) (hds : ∀ d ∈ ds, Narrow budget d)
    (h : ds.flatten = before ++ ls.flatten) (k : Nat) :
    (ds.take k).flatten.length ≤ before.length + (ls.take k).flatten.length := by
  induction k generalizing ls ds before with
  | zero => simp
  | succ k ih =>
    rcases ds with _ | ⟨d, ds⟩
    · simp
    · rcases ls with _ | ⟨l, ls⟩
      · have hle := (List.take_sublist (k + 1) (d :: ds)).flatten.length_le
        rw [h] at hle
        simpa using hle
      · obtain ⟨after, hl, hrest⟩ := exists_left_over hchain hne (hds d (by simp)) h
        have ih := ih (List.isChain_cons.mp hchain).2 (fun m hm => hne m (by simp [hm]))
          (fun m hm => hds m (by simp [hm])) hrest
        have hlen := congrArg List.length hl
        simp only [List.take_succ_cons, List.flatten_cons, List.length_append] at hlen ⊢
        omega

theorem Division.length_take_le (h : Division budget ws ls) (k : Nat) :
    (ls.take k).flatten.length ≤ ((pack budget ws).take k).flatten.length := by
  by_cases hws : ws = []
  · have hle := (List.take_sublist k ls).flatten.length_le
    rw [h.flatten, hws] at hle
    exact Nat.le_trans hle (Nat.zero_le _)
  · have hpack := division_pack budget hws
    have hflatten : ls.flatten = [] ++ (pack budget ws).flatten :=
      h.flatten.trans hpack.flatten.symm
    have hle := length_flatten_take_le (isChain_pack budget ws) hpack.ne_nil h.narrow hflatten k
    simpa using hle

/-! ## The number of lines -/

theorem length_flatten_take_lt (h : ∀ l ∈ ls, l ≠ []) {k : Nat} (hk : k < ls.length) :
    (ls.take k).flatten.length < ls.flatten.length := by
  have hpos := List.length_pos_of_ne_nil (h ls[k] (List.getElem_mem hk))
  conv => rhs; rw [← List.take_append_drop k ls, List.drop_eq_getElem_cons hk]
  rw [List.flatten_append, List.flatten_cons, List.length_append, List.length_append]
  omega

theorem Division.length_pack_le (h : Division budget ws ls) (hws : ws ≠ []) :
    (pack budget ws).length ≤ ls.length := by
  apply Nat.le_of_not_lt
  intro hlt
  have hahead := h.length_take_le ls.length
  have hless := length_flatten_take_lt (division_pack budget hws).ne_nil hlt
  rw [List.take_length, h.flatten] at hahead
  rw [flatten_pack] at hless
  omega

theorem length_pack_of_le (hle : budget ≤ wide) (ws : List Text) :
    (pack wide ws).length ≤ (pack budget ws).length := by
  by_cases hws : ws = []
  · subst hws
    exact Nat.le_refl 1
  · exact ((division_pack budget hws).of_le hle).length_pack_le hws

/-! ## Filled lines -/

theorem flatMap_words_take_fill (budget : Nat) (t : Text) (k : Nat) :
    ((fill budget t).take k).flatMap words = ((pack budget (words t)).take k).flatten := by
  have hline : ∀ l ∈ (pack budget (words t)).take k, ∀ w ∈ l, IsWord w := fun l hl =>
    isWord_of_mem_pack (isWord_of_mem_words t) (List.mem_of_mem_take hl)
  rw [fill, ← List.map_take, List.flatMap_map, flatMap_words_unwords hline]

/-- Filled lines stay ahead of every other division: whatever the number of lines, the first filled
ones hold no fewer words than the first ones of the division. So the words are on as few lines as
can be, and with a larger budget on no more. -/
theorem no_division_is_ahead_of_filled_lines (budget : Nat) (t : Text) :
    (∀ ls, Division budget (words t) ls → ∀ k,
        (ls.take k).flatten.length ≤ (((fill budget t).take k).flatMap words).length) ∧
      (words t ≠ [] → (∃ ls, Division budget (words t) ls ∧ fill budget t = ls.map unwords) ∧
        ∀ ls, Division budget (words t) ls → (fill budget t).length ≤ ls.length) ∧
      ∀ wide, budget ≤ wide → (fill wide t).length ≤ (fill budget t).length := by
  refine ⟨fun ls h k => ?_, fun hne => ⟨?_, fun ls h => ?_⟩, fun wide hle => ?_⟩
  · rw [flatMap_words_take_fill]
    exact h.length_take_le k
  · exact ⟨pack budget (words t), division_pack budget hne, rfl⟩
  · rw [fill, List.length_map]
    exact h.length_pack_le hne
  · rw [fill, fill, List.length_map, List.length_map]
    exact length_pack_of_le hle (words t)

/-- A word that is too wide for any line stands alone in the division as well. -/
theorem three_filled_lines_where_a_division_has_four :
    let t : Text := "aa b  ccccccc\td e".toList
    let ls : List (List Text) := [["aa".toList], ["b".toList], ["ccccccc".toList],
      ["d".toList, "e".toList]]
    Division 5 (words t) ls ∧ words t ≠ [] ∧ 5 ≤ 12 ∧
      fill 5 t = ["aa b".toList, "ccccccc".toList, "d e".toList] ∧
      (ls.take 2).flatten.length ≤ (((fill 5 t).take 2).flatMap words).length ∧
      (fill 5 t).length ≤ ls.length ∧ (fill 12 t).length ≤ (fill 5 t).length := by
  intro t ls
  have hdivision : Division 5 (words t) ls := by
    refine ⟨by decide, by decide, fun l hl => ?_⟩
    simp only [ls, List.mem_cons, List.not_mem_nil, or_false] at hl
    rcases hl with rfl | rfl | rfl | rfl
    · exact Or.inl (by decide)
    · exact Or.inl (by decide)
    · exact Or.inl (by decide)
    · exact Or.inr (by decide)
  have hne : words t ≠ [] := by decide
  obtain ⟨hahead, hfewest, hwider⟩ := no_division_is_ahead_of_filled_lines 5 t
  exact ⟨hdivision, hne, by decide, by decide, hahead ls hdivision 2, (hfewest hne).2 ls hdivision,
    hwider 12 (by decide)⟩

end PrettyFormula
