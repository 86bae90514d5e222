-- The laws of a printed batch. Each formula is printed on lines of its own, so
-- what is printed reads as the formulas read one after the other; and the lines
-- that are no formulas hold no token. So a batch loses and adds none.
import PrettyFormula.Batch
import PrettyFormula.Proofs.Grammar
import PrettyFormula.Proofs.RoundTrip

namespace PrettyFormula

open Token

/-! ## Formulas one after the other -/

theorem scan_format_append (page : Page) (t b : Text) :
    scan (format page t ++ b) = scan t ++ scan b := by
  have hlines : format page t = refill page.columns.toNat (layOut page (scan t)) := rfl
  rw [refill_eq] at hlines
  rw [hlines, scan_terminated_append, ← hlines, scan_format]

theorem scan_flatMap_format (page : Page) (ts : List Text) :
    scan (ts.flatMap (format page)) = ts.flatMap scan := by
  induction ts with
  | nil => rfl
  | cons t ts ih => rw [List.flatMap_cons, scan_format_append, ih, List.flatMap_cons]

theorem balanced_flatMap_scan {ts : List Text} (h : ∀ t ∈ ts, Balanced (scan t)) :
    Balanced (ts.flatMap scan) := by
  induction ts with
  | nil => rfl
  | cons t ts ih => exact (h t (by simp)).append (ih fun u hu => h u (by simp [hu]))

/-! ## What is printed of a batch -/

/-- A formula is printed if it balances, or need not. -/
def Style.admits (style : Style) (t : Text) : Bool := !style.strict || decide (Balanced (scan t))

theorem toOption_formatBalanced (page : Page) (t : Text) :
    (formatBalanced page t).toOption =
      if Balanced (scan t) then some (format page t) else none := by
  unfold formatBalanced
  split
  · rename_i fault hfault
    rw [if_neg (by simp [Balanced, hfault])]
    rfl
  · rename_i hnone
    have hb : Balanced (scan t) := hnone
    rw [if_pos hb]
    rfl

theorem toOption_formatted (style : Style) (f : Formula) :
    (f.formatted style).toOption =
      if style.admits f.text then some (format style.page f.text) else none := by
  unfold Formula.formatted Style.admits
  rcases style.strict with _ | _
  · rfl
  · simp [toOption_formatBalanced]

theorem bodies_eq (style : Style) (fs : List Formula) :
    bodies style fs = ((fs.map Formula.text).filter style.admits).map (format style.page) := by
  rw [bodies, List.filter_map, List.map_map, ← List.filterMap_eq_map, List.filterMap_filter]
  simp only [toOption_formatted]
  rfl

theorem scan_print (style : Style) (fs : List Formula) (h : style.markdown = false) :
    scan (print style fs) = ((fs.map Formula.text).filter style.admits).flatMap scan := by
  rw [print, if_neg (by simp [h]), bodies_eq, ← List.flatMap_def, scan_flatMap_format]

/-! ## The formulas of a text -/

theorem map_text_formulasOf (source : String) (t : Text) :
    (formulasOf source t).map Formula.text = (lines t).filter fun l => !blankText l := by
  have hlines : lines t = ((lines t).zipIdx 1).map Prod.fst := (List.zipIdx_map_fst 1 _).symm
  rw [formulasOf, List.map_filterMap]
  conv => rhs; rw [hlines, List.filter_map, ← List.filterMap_eq_map, List.filterMap_filter]
  congr 1
  funext x
  cases hblank : blankText x.1 <;> simp [hblank]

/-- The formulas of some texts, each under the name of its text. -/
def batchOf (inputs : List (String × Text)) : List Formula :=
  inputs.flatMap fun input => formulasOf input.1 input.2

/-- Lines that are blank hold no token. -/
theorem flatMap_scan_nonblank (ls : List Text) :
    (ls.filter fun l => !blankText l).flatMap scan = ls.flatMap scan := by
  induction ls with
  | nil => rfl
  | cons l ls ih =>
    by_cases hblank : blankText l = true
    · rw [List.filter_cons_of_neg (by simp [hblank]), ih, List.flatMap_cons, scan_blankText hblank,
        List.nil_append]
    · rw [List.filter_cons_of_pos (by simpa using hblank), List.flatMap_cons, ih, List.flatMap_cons]

theorem scan_print_batchOf (style : Style) (inputs : List (String × Text))
    (h : style.markdown = false) :
    scan (print style (batchOf inputs)) =
      inputs.flatMap fun input => ((lines input.2).filter style.admits).flatMap scan := by
  rw [scan_print style _ h, batchOf, List.map_flatMap, List.filter_flatMap, List.flatMap_assoc]
  apply List.flatMap_congr
  intro input _
  rw [map_text_formulasOf, List.filter_comm, flatMap_scan_nonblank]

/-- A batch that is printed plainly reads as its inputs read, one after the other. Where formulas
have to balance it reads as those lines of the inputs that do, and so it balances itself. -/
theorem a_plain_batch_reads_as_its_inputs (page : Page) (inputs : List (String × Text)) :
    let lenient : Style := { page, strict := false, markdown := false }
    let strict : Style := { page, strict := true, markdown := false }
    scan (print lenient (batchOf inputs)) = inputs.flatMap (fun input => scan input.2) ∧
      scan (print strict (batchOf inputs)) = inputs.flatMap (fun input =>
        ((lines input.2).filter fun l => decide (Balanced (scan l))).flatMap scan) ∧
      Balanced (scan (print strict (batchOf inputs))) := by
  intro lenient strict
  have hstrict := scan_print_batchOf strict inputs rfl
  refine ⟨?_, hstrict, ?_⟩
  · rw [scan_print_batchOf lenient inputs rfl]
    apply List.flatMap_congr
    intro input _
    have hall : (lines input.2).filter lenient.admits = lines input.2 :=
      List.filter_eq_self.mpr fun _ _ => rfl
    rw [hall, ← scan_eq_flatMap_lines]
  · rw [hstrict, ← List.flatMap_assoc]
    apply balanced_flatMap_scan
    intro l hl
    obtain ⟨input, _, hl⟩ := List.mem_flatMap.mp hl
    exact of_decide_eq_true (List.mem_filter.mp hl).2

end PrettyFormula
