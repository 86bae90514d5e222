-- The laws of roomier pages. A page with more columns and smaller margins has room
-- for each group that fitted before. So a token that followed on its line still
-- does, and a line break stays one with no larger margin or becomes a space.
import Mathlib.Data.List.Forall2
import PrettyFormula.Proofs.Placement

namespace PrettyFormula

/-! ## Roomier pages -/

/-- A page that has no fewer columns and indents no further. -/
structure Page.Within (page roomy : Page) : Prop where
  columns : page.columns ≤ roomy.columns
  indent : roomy.indent ≤ page.indent

/-- What may stand in place of a separator on a roomier page. -/
inductive Separator.Eases : Separator → Separator → Prop
  | same (s : Separator) : Eases s s
  | nearer {margin margin' : Nat} : margin' ≤ margin → Eases (.newline margin) (.newline margin')
  | joined (margin : Nat) : Eases (.newline margin) .space

/-- The separator ends a line. -/
def Separator.breaks : Separator → Bool
  | .newline _ => true
  | _ => false

/-- The same token, behind what may stand there on a roomier page. -/
structure Placement.Eases (p q : Placement) : Prop where
  token : q.token = p.token
  separator : p.separator.Eases q.separator

variable {page roomy : Page} {ts : List Token} {i j : Nat}

/-! ## Groups and margins -/

theorem Page.Within.indent_mul_le (h : page.Within roomy) (depth : Nat) :
    roomy.indent.toNat * depth ≤ page.indent.toNat * depth :=
  Nat.mul_le_mul_right depth (UInt64.le_iff_toNat_le.mp h.indent)

theorem Page.Within.depthMargin_le (h : page.Within roomy) (depth : Nat) :
    depthMargin roomy depth ≤ depthMargin page depth := by
  have hle := h.indent_mul_le depth
  unfold depthMargin
  omega

theorem fitsAt_of_within (h : page.Within roomy) (hf : fitsAt page ts j = true) :
    fitsAt roomy ts j = true := by
  by_cases hl : ts[j]? = some .lparen
  · have hcolumns := UInt64.le_iff_toNat_le.mp h.columns
    have hindent := h.indent_mul_le (nesting ts j)
    rw [← fits_spanFrom page hl, Page.fits_iff] at hf
    rw [← fits_spanFrom roomy hl, Page.fits_iff]
    omega
  · rw [fitsAt_of_ne hl] at hf
    cases hf

theorem crammedAt_of_within (h : page.Within roomy) (hc : crammedAt page ts i = true) :
    crammedAt roomy ts i = true := by
  unfold crammedAt at hc ⊢
  rw [List.any_eq_true] at hc ⊢
  obtain ⟨j, hj, hc⟩ := hc
  rw [Bool.and_eq_true] at hc
  refine ⟨j, hj, ?_⟩
  rw [hc.1, fitsAt_of_within h hc.2, Bool.and_true]

/-! ## Separators -/

theorem eases_separatorAt (h : page.Within roomy) (ts : List Token) (i : Nat) :
    (separatorAt page ts i).Eases (separatorAt roomy ts i) := by
  unfold separatorAt
  by_cases hglue : i = 0 ∨ ts[i]? = some .rparen ∨ ts[i - 1]? = some .lparen
  · rw [if_pos hglue, if_pos hglue]
    exact .same .glue
  · rw [if_neg hglue, if_neg hglue]
    by_cases hc : crammedAt page ts i = true
    · rw [if_pos hc, if_pos (crammedAt_of_within h hc)]
      exact .same .space
    · rw [if_neg hc]
      split
      · exact .joined _
      · exact .nearer (h.depthMargin_le _)

theorem eases_place (h : page.Within roomy) (ts : List Token) :
    List.Forall₂ Placement.Eases (place page ts) (place roomy ts) := by
  rw [place_eq_map, place_eq_map, List.forall₂_map_left_iff, List.forall₂_map_right_iff,
    List.forall₂_same]
  rintro ⟨t, i⟩ ht
  have ht := List.mem_zipIdx_iff_getElem?.mp ht
  refine ⟨?_, ?_⟩
  · simp
  · rw [separator_placementAt page ht, separator_placementAt roomy ht]
    exact eases_separatorAt h ts i

/-! ## Line breaks -/

theorem Separator.Eases.breaks {s s' : Separator} (h : s.Eases s') (hb : s'.breaks = true) :
    s.breaks = true := by
  cases h with
  | same => exact hb
  | nearer => rfl
  | joined => rfl

theorem countP_breaks_le (h : page.Within roomy) (ts : List Token) :
    (place roomy ts).countP (·.separator.breaks) ≤ (place page ts).countP (·.separator.breaks) := by
  rw [place_eq_map, place_eq_map, List.countP_map, List.countP_map]
  apply List.countP_mono_left
  rintro ⟨t, i⟩ ht hb
  have ht := List.mem_zipIdx_iff_getElem?.mp ht
  rw [Function.comp_apply, separator_placementAt _ ht] at hb ⊢
  exact (eases_separatorAt h ts i).breaks hb

/-- On a roomier page each token stands behind the same separator as before, or behind a line break
with no larger margin or a space where it stood behind a line break. So a layout has no more line
breaks there. -/
theorem a_roomier_page_only_joins_lines {page roomy : Page} (h : page.Within roomy)
    (ts : List Token) :
    List.Forall₂ Placement.Eases (place page ts) (place roomy ts) ∧
      (place roomy ts).countP (·.separator.breaks) ≤
        (place page ts).countP (·.separator.breaks) :=
  ⟨eases_place h ts, countP_breaks_le h ts⟩

/-- On the narrow page the inner group is crammed and the outer one is not; on the roomy one all
stands on one line. -/
theorem a_group_is_crammed_as_a_whole_on_a_roomier_page :
    let page : Page := { columns := 6, indent := 2 }
    let roomy : Page := { columns := 9, indent := 1 }
    let ts := Token.scan "(a (b c) d)".toList
    page.Within roomy ∧
      layOut page ts = "(a (b c)\n  d)".toList ∧ layOut roomy ts = "(a (b c) d)".toList ∧
      List.Forall₂ Placement.Eases (place page ts) (place roomy ts) ∧
      (place roomy ts).countP (·.separator.breaks) ≤
        (place page ts).countP (·.separator.breaks) := by
  intro page roomy ts
  have hwithin : page.Within roomy := ⟨by decide, by decide⟩
  exact ⟨hwithin, by decide, by decide, a_roomier_page_only_joins_lines hwithin ts⟩

end PrettyFormula
