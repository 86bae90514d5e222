-- The laws of filling. Packing keeps every word, in order, and each line that
-- it packs is narrower than the budget or holds one word. So filling a text anew
-- changes its blanks and nothing else.
import Mathlib.Data.List.Induction
import PrettyFormula.Filling
import PrettyFormula.Proofs.Words

namespace PrettyFormula

/-! ## Packing words -/

/-- A line that could not be narrower: it is within the budget, or has at most one word. -/
def Narrow (budget : Nat) (ws : List Text) : Prop :=
  ws.length ≤ 1 ∨ (unwords ws).length < budget

namespace Packing

/-- The lines that are full have words and are narrow, and so is the line that is being packed.
The columns counted for it are its columns. -/
structure Good (budget : Nat) (p : Packing) : Prop where
  full : ∀ l ∈ p.full.toList, l ≠ [] ∧ Narrow budget l
  line : Narrow budget p.line.reverse
  width : p.line ≠ [] → p.width = (unwords p.line.reverse).length

theorem good_start (budget : Nat) : Good budget {} := by
  refine ⟨?_, Or.inl ?_, ?_⟩ <;> simp

theorem Good.push {budget : Nat} {p : Packing} (h : p.Good budget) (w : Text) :
    (p.push budget w).Good budget := by
  unfold Packing.push
  split_ifs with hline hfits
  · refine ⟨h.full, Or.inl ?_, fun _ => ?_⟩
    · simp
    · simp [unwords]
  · have hne : p.line ≠ [] := by simpa using hline
    have hw : (unwords (w :: p.line).reverse).length = p.width + 1 + w.length := by
      rw [List.reverse_cons, unwords_append_singleton (by simpa using hne), h.width hne,
        List.length_append, List.length_cons]
      omega
    exact ⟨h.full, Or.inr (hw ▸ hfits), fun _ => hw.symm⟩
  · have hne : p.line ≠ [] := by simpa using hline
    refine ⟨fun l hl => ?_, Or.inl ?_, fun _ => ?_⟩
    · rw [Array.toList_push, List.mem_append, List.mem_singleton] at hl
      rcases hl with hl | rfl
      · exact h.full l hl
      · exact ⟨by simpa using hne, h.line⟩
    · simp
    · simp [unwords]

theorem good_foldl (budget : Nat) (ws : List Text) : (ws.foldl (push budget) {}).Good budget := by
  induction ws using List.reverseRecOn with
  | nil => exact good_start budget
  | append_singleton ws w ih =>
    rw [List.foldl_append, List.foldl_cons, List.foldl_nil]
    exact ih.push w

theorem line_push_ne_nil (budget : Nat) (p : Packing) (w : Text) :
    (p.push budget w).line ≠ [] := by
  unfold push
  split_ifs <;> simp

theorem flatten_lines_push (budget : Nat) (p : Packing) (w : Text) :
    (p.push budget w).lines.flatten = p.lines.flatten ++ [w] := by
  unfold push
  split_ifs with hline hfits
  · have hnil : p.line = [] := by simpa using hline
    simp [lines, hnil]
  · simp [lines]
  · simp [lines]

end Packing

/-- Packing keeps every word, in order. -/
@[simp] theorem flatten_pack (budget : Nat) (ws : List Text) : (pack budget ws).flatten = ws := by
  unfold pack
  induction ws using List.reverseRecOn with
  | nil => rfl
  | append_singleton ws w ih =>
    rw [List.foldl_append, List.foldl_cons, List.foldl_nil, Packing.flatten_lines_push, ih]

theorem narrow_of_mem_pack {budget : Nat} {ws l : List Text} (h : l ∈ pack budget ws) :
    Narrow budget l := by
  have hg := Packing.good_foldl budget ws
  rw [pack, Packing.lines, List.mem_append, List.mem_singleton] at h
  rcases h with h | rfl
  · exact (hg.full l h).2
  · exact hg.line

theorem ne_nil_of_mem_pack {budget : Nat} {ws l : List Text} (hws : ws ≠ [])
    (h : l ∈ pack budget ws) : l ≠ [] := by
  have hg := Packing.good_foldl budget ws
  rw [pack, Packing.lines, List.mem_append, List.mem_singleton] at h
  rcases h with h | rfl
  · exact (hg.full l h).1
  · rcases List.eq_nil_or_concat ws with rfl | ⟨ws, w, rfl⟩
    · exact absurd rfl hws
    · rw [List.concat_eq_append, List.foldl_append, List.foldl_cons, List.foldl_nil]
      simpa using Packing.line_push_ne_nil budget _ w

theorem mem_of_mem_pack {budget : Nat} {ws l : List Text} (h : l ∈ pack budget ws) {w : Text}
    (hw : w ∈ l) : w ∈ ws := by
  rw [← flatten_pack budget ws]
  exact List.mem_flatten.mpr ⟨l, h, hw⟩

theorem isWord_of_mem_pack {budget : Nat} {ws l : List Text} (hws : ∀ w ∈ ws, IsWord w)
    (h : l ∈ pack budget ws) : ∀ w ∈ l, IsWord w :=
  fun w hw => hws w (mem_of_mem_pack h hw)

/-! ## Filling a text anew -/

theorem refillLine_eq (columns : Nat) (l : Text) :
    refillLine columns l = unlines ((pack (columns - marginOf l) (words l)).map fun ws =>
      List.replicate (marginOf l) space ++ unwords ws) := by
  simp [refillLine, fill, Function.comp_def]

@[simp] theorem flatMap_words_fill (budget : Nat) (t : Text) :
    (fill budget t).flatMap words = words t := by
  have hpack : ∀ ws ∈ pack budget (words t), ∀ w ∈ ws, IsWord w := fun ws hws =>
    isWord_of_mem_pack (isWord_of_mem_words t) hws
  rw [fill, List.flatMap_map, flatMap_words_unwords hpack, flatten_pack]

@[simp] theorem words_refillLine (columns : Nat) (l : Text) :
    words (refillLine columns l) = words l := by
  rw [refillLine, words_unlines, List.flatMap_map]
  simp

theorem refill_eq (columns : Nat) (t : Text) :
    refill columns t = ((lines t).map fun l =>
      if tooWide columns l then refillLine columns l else l).flatMap (· ++ ['\n']) := by
  rw [refill, List.flatMap_map]

/-- What stands behind a newline is filled on its own. -/
theorem refill_append_newline (columns : Nat) (a b : Text) :
    refill columns (a ++ '\n' :: b) = refill columns (a ++ ['\n']) ++ refill columns b := by
  rw [refill, lines_append_newline, List.flatMap_append, ← refill, ← refill]

@[simp] theorem words_refill (columns : Nat) (t : Text) :
    words (refill columns t) = words t := by
  rw [refill_eq, words_terminated, List.flatMap_map, words_eq_flatMap_lines t]
  apply List.flatMap_congr
  intro l _
  split
  · exact words_refillLine columns l
  · rfl

end PrettyFormula
