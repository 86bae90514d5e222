-- The laws of words and lines. A blank parts the words before it from those
-- behind it, so the words of a text are the words of its lines, and words or
-- lines that are joined are found again.
import Mathlib.Data.List.Basic
import Mathlib.Data.List.TakeWhile
import PrettyFormula.Text.Lines
import PrettyFormula.Text.Words

namespace PrettyFormula

/-! ## Words -/

/-- A word holds a character, and no blank one. -/
structure IsWord (w : Text) : Prop where
  ne_nil : w ≠ []
  no_blank : ∀ c ∈ w, isBlank c = false

/-- A text either has no character that `p` holds of, or goes on behind its first one. -/
theorem parted_induction (p : Char → Bool) {P : Text → Prop}
    (solid : ∀ t, (∀ c ∈ t, p c = false) → P t)
    (parted : ∀ a c b, (∀ x ∈ a, p x = false) → p c = true → P b → P (a ++ c :: b))
    (t : Text) : P t := by
  have ht : t.takeWhile (!p ·) ++ t.dropWhile (!p ·) = t := List.takeWhile_append_dropWhile
  have ha : ∀ x ∈ t.takeWhile (!p ·), p x = false := fun x hx => by
    simpa using List.mem_takeWhile_imp hx
  rcases hd : t.dropWhile (!p ·) with _ | ⟨c, b⟩
  · rw [hd, List.append_nil] at ht
    exact solid t (ht ▸ ha)
  · have hc : p c = true := by
      have := List.head_dropWhile_not (!p ·) (l := t) (by simp [hd])
      simpa [hd] using this
    rw [hd] at ht
    have hlt : b.length < t.length := by
      rw [← ht, List.length_append, List.length_cons]
      omega
    have hb := parted_induction p solid parted b
    rw [← ht]
    exact parted _ c b ha hc hb
termination_by t.length

theorem words_word {w : Text} (h : IsWord w) : words w = [w] := by
  rw [words_of_no_blank h.no_blank, if_neg h.ne_nil]

theorem isWord_of_mem_solid {t : Text} (ht : ∀ c ∈ t, isBlank c = false) :
    ∀ w ∈ words t, IsWord w := by
  intro w hw
  rw [words_of_no_blank ht] at hw
  split at hw
  · simp at hw
  · rename_i hne
    rw [List.mem_singleton] at hw
    exact hw ▸ ⟨hne, ht⟩

theorem isWord_of_mem_words (t : Text) : ∀ w ∈ words t, IsWord w := by
  induction t using parted_induction isBlank with
  | solid t ht => exact isWord_of_mem_solid ht
  | parted a c b ha hc ih =>
    intro w hw
    rw [words_append_blank hc, List.mem_append] at hw
    rcases hw with hw | hw
    · exact isWord_of_mem_solid ha w hw
    · exact ih w hw

@[simp] theorem words_margin (n : Nat) (t : Text) :
    words (List.replicate n space ++ t) = words t := by
  induction n with
  | zero => rfl
  | succ n ih => simp [List.replicate_succ, ih]

theorem words_append_spaces (t : Text) (n : Nat) : words (t ++ List.replicate n space) = words t := by
  rcases n with _ | n
  · simp
  · have hnil : words (List.replicate n space) = [] := by simpa using words_margin n []
    simp [List.replicate_succ, hnil]

/-! ## Words and lines joined -/

/-- Joined texts are the first one and the others, each behind the character that joins them. -/
theorem intercalate_cons (c : Char) (t : Text) (ts : List Text) :
    List.intercalate [c] (t :: ts) = t ++ ts.flatMap (c :: ·) := by
  induction ts generalizing t with
  | nil => simp
  | cons u ts ih =>
    rw [List.intercalate_cons_cons, ih u]
    simp

theorem unwords_append_singleton {ws : List Text} (h : ws ≠ []) (w : Text) :
    unwords (ws ++ [w]) = unwords ws ++ space :: w := by
  obtain ⟨v, ws, rfl⟩ := List.exists_cons_of_ne_nil h
  rw [unwords, unwords, List.cons_append, intercalate_cons, intercalate_cons]
  simp

/-- Texts joined by a blank have the words of the texts. -/
theorem words_intercalate {c : Char} (hc : isBlank c = true) (ts : List Text) :
    words (List.intercalate [c] ts) = ts.flatMap words := by
  induction ts with
  | nil => rfl
  | cons t ts ih =>
    rcases ts with _ | ⟨u, ts⟩
    · simp
    · have hu : List.intercalate [c] (t :: u :: ts) = t ++ c :: List.intercalate [c] (u :: ts) := by
        rw [List.intercalate_cons_cons, List.append_assoc, List.singleton_append]
      rw [hu, words_append_blank hc, ih]
      rfl

theorem words_unwords {ws : List Text} (h : ∀ w ∈ ws, IsWord w) : words (unwords ws) = ws := by
  rw [unwords, words_intercalate isBlank_space]
  induction ws with
  | nil => rfl
  | cons w ws ih =>
    rw [List.flatMap_cons, words_word (h w (by simp)), ih fun v hv => h v (by simp [hv])]
    rfl

theorem flatMap_words_unwords {ls : List (List Text)} (h : ∀ l ∈ ls, ∀ w ∈ l, IsWord w) :
    (ls.flatMap fun l => words (unwords l)) = ls.flatten := by
  rw [List.flatMap_congr fun l hl => words_unwords (h l hl), List.flatMap_id']

theorem words_unlines (ls : List Text) : words (unlines ls) = ls.flatMap words :=
  words_intercalate isBlank_newline ls

/-! ## Lines -/

theorem words_terminated (ls : List Text) :
    words (ls.flatMap (· ++ ['\n'])) = ls.flatMap words := by
  induction ls with
  | nil => rfl
  | cons l ls ih => simp [ih]

/-- A newline behind joined lines ends the last one. -/
theorem unlines_append_newline {ls : List Text} (h : ls ≠ []) :
    unlines ls ++ ['\n'] = ls.flatMap (· ++ ['\n']) := by
  induction ls with
  | nil => exact absurd rfl h
  | cons l ls ih =>
    rcases ls with _ | ⟨m, ls⟩
    · simp [unlines]
    · have hm : unlines (l :: m :: ls) = l ++ ['\n'] ++ unlines (m :: ls) :=
        List.intercalate_cons_cons
      rw [hm, List.append_assoc, ih (by simp)]
      rfl

@[simp] theorem words_dropReturn (l : Text) : words (dropReturn l) = words l := by
  unfold dropReturn
  split
  · rename_i h
    have hl : l.dropLast ++ ['\r'] = l := List.dropLast_append_getLast? _ h
    conv => rhs; rw [← hl]
    simp
  · rfl

theorem words_eq_flatMap_lines (t : Text) : words t = (lines t).flatMap words := by
  have hne : t.splitOn '\n' ≠ [] := List.splitOn_ne_nil _ _
  have hlast : words ((t.splitOn '\n').getLast hne) =
      ((t.splitOn '\n').getLast?.toList.filter fun l => !l.isEmpty).flatMap words := by
    rw [List.getLast?_eq_some_getLast hne]
    rcases (t.splitOn '\n').getLast hne with _ | ⟨c, l⟩ <;> simp
  calc words t
    _ = words (unlines (t.splitOn '\n')) := by rw [unlines, List.intercalate_splitOn]
    _ = (t.splitOn '\n').flatMap words := words_unlines _
    _ = (t.splitOn '\n').dropLast.flatMap words ++ words ((t.splitOn '\n').getLast hne) := by
      conv => lhs; rw [← List.dropLast_append_getLast hne]
      simp
    _ = (lines t).flatMap words := by
      rw [hlast, lines, List.flatMap_append, List.flatMap_map]
      simp only [words_dropReturn]

theorem dropReturn_eq_self_iff {l : Text} : dropReturn l = l ↔ l.getLast? ≠ some '\r' := by
  unfold dropReturn
  split
  · rename_i h
    have hl : l.dropLast ++ ['\r'] = l := List.dropLast_append_getLast? _ h
    have hlen := congrArg List.length hl
    simp only [List.length_append, List.length_singleton] at hlen
    refine iff_of_false (fun heq => ?_) (not_not_intro h)
    rw [heq] at hlen
    omega
  · rename_i h
    exact iff_of_true rfl h

theorem map_dropReturn {ls : List Text} (h : ∀ l ∈ ls, l.getLast? ≠ some '\r') :
    ls.map dropReturn = ls := by
  conv => rhs; rw [← List.map_id ls]
  exact List.map_congr_left fun l hl => dropReturn_eq_self_iff.mpr (h l hl)

theorem length_dropReturn_le (l : Text) : (dropReturn l).length ≤ l.length := by
  unfold dropReturn
  split
  · exact (List.dropLast_sublist l).length_le
  · exact Nat.le_refl _

theorem newline_not_mem_dropReturn {l : Text} (h : '\n' ∉ l) : '\n' ∉ dropReturn l := by
  unfold dropReturn
  split
  · exact fun hmem => h (List.dropLast_subset l hmem)
  · exact h

theorem lines_line {l : Text} (h : '\n' ∉ l) : lines (l ++ ['\n']) = [dropReturn l] := by
  simp [lines, List.splitOn_append_cons_self, List.splitOn_eq_singleton h]

theorem newline_not_mem_of_mem_lines (t : Text) : ∀ l ∈ lines t, '\n' ∉ l := by
  have hnot : ∀ a : Text, (∀ c ∈ a, (c == '\n') = false) → '\n' ∉ a :=
    fun a ha hmem => by simpa using ha _ hmem
  induction t using parted_induction (· == '\n') with
  | solid t ht =>
    have hn := hnot t ht
    intro l hl
    rw [lines, List.splitOn_eq_singleton hn] at hl
    have hlt : l = t := by simpa using List.mem_of_mem_filter hl
    exact hlt ▸ hn
  | parted a c b ha hc ih =>
    have hn := hnot a ha
    intro l hl
    rw [beq_iff_eq.mp hc, lines_append_newline, lines_line hn, List.mem_append,
      List.mem_singleton] at hl
    rcases hl with rfl | hl
    · exact newline_not_mem_dropReturn hn
    · exact ih l hl

/-- Lines that end in newlines are found again, but for a carriage return at their end. -/
theorem lines_terminated {ls : List Text} (h : ∀ l ∈ ls, '\n' ∉ l) :
    lines (ls.flatMap (· ++ ['\n'])) = ls.map dropReturn := by
  induction ls with
  | nil => rfl
  | cons l ls ih =>
    rw [List.flatMap_cons, List.append_assoc, List.singleton_append, lines_append_newline,
      lines_line (h l (by simp)), ih fun m hm => h m (by simp [hm])]
    rfl

theorem lines_of_ended {ls : List Text} (h : ∀ l ∈ ls, '\n' ∉ l ∧ l.getLast? ≠ some '\r') :
    lines (ls.flatMap (· ++ ['\n'])) = ls := by
  rw [lines_terminated fun l hl => (h l hl).1, map_dropReturn fun l hl => (h l hl).2]

theorem lines_unlines {ls : List Text}
    (h : ∀ l ∈ ls, l ≠ [] ∧ '\n' ∉ l ∧ l.getLast? ≠ some '\r') : lines (unlines ls) = ls := by
  rcases List.eq_nil_or_concat ls with rfl | ⟨ls, l, rfl⟩
  · rfl
  · rw [List.concat_eq_append] at h ⊢
    have hsplit : (unlines (ls ++ [l])).splitOn '\n' = ls ++ [l] :=
      List.splitOn_intercalate '\n' (fun m hm => (h m hm).2.1) (by simp)
    have hdrop : ls.map dropReturn = ls := map_dropReturn fun m hm => (h m (by simp [hm])).2.2
    simp [lines, hsplit, hdrop, (h l (by simp)).1]

/-! ## Numbered lists -/

theorem pairwise_zipIdx {α : Type} (l : List α) (n : Nat) :
    (l.zipIdx n).Pairwise fun x y => x.2 < y.2 := by
  rw [← List.pairwise_map, List.zipIdx_map_snd]
  exact List.pairwise_lt_range'

end PrettyFormula
