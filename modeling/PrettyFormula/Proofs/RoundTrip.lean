-- The laws of reading a formula back. A layout never lets two atoms touch, so
-- it reads as the tokens that were laid out; filling lines anew moves blanks
-- only. So the formatted text reads as the text that was formatted.
import Mathlib.Data.List.Chain
import PrettyFormula.Format
import PrettyFormula.Proofs.Filling
import PrettyFormula.Proofs.Placement

namespace PrettyFormula

open Token

/-! ## Reading a layout -/

/-- A token clings to the one in front of it, if that opens a group or the token closes one. -/
def clings (t u : Token) : Bool := t = .lparen || u = .rparen

/-- The second one of two placed tokens is glued to the first one if it clings to it, and only
then. -/
def Glued (p q : Placement) : Prop := q.separator = .glue ↔ clings p.token q.token = true

/-- What is glued to an atom is a closing parenthesis. -/
theorem Glued.rparen {p q : Placement} (h : Glued p q) {a : Text} (ha : p.token = .atom a)
    (hs : q.separator = .glue) : q.token = .rparen := by
  simpa [clings, ha] using h.mp hs

@[simp] theorem render_nil : render [] = [] := rfl

@[simp] theorem render_cons (p : Placement) (ps : List Placement) :
    render (p :: ps) = p.separator.text ++ (p.token.text ++ render ps) := by
  rw [render, List.flatMap_cons, Placement.text, List.append_assoc, ← render]

@[simp] theorem words_separator_append (s : Separator) (t : Text) :
    words (s.text ++ t) = words t := by
  cases s with
  | glue => rfl
  | space => simp
  | newline margin => simp

@[simp] theorem scan_separator_append (s : Separator) (t : Text) :
    scan (s.text ++ t) = scan t := by
  rw [scan_eq_flatMap_words, words_separator_append, ← scan_eq_flatMap_words]

theorem endsAtom_head_of_glued {p q : Placement} {ps : List Placement} (h : Glued p q) {a : Text}
    (ha : p.token = .atom a) {c : Char} (hc : (render (q :: ps)).head? = some c) :
    endsAtom c = true := by
  rw [render, List.flatMap_cons, Placement.text] at hc
  rcases hs : q.separator with _ | _ | margin
  · rw [hs, h.rparen ha hs] at hc
    cases hc
    rfl
  · rw [hs] at hc
    cases hc
    rfl
  · rw [hs] at hc
    cases hc
    rfl

theorem scan_render {ps : List Placement} (hread : ∀ p ∈ ps, p.token.Readable)
    (hglued : ps.IsChain Glued) : scan (render ps) = ps.map Placement.token := by
  induction ps with
  | nil => rfl
  | cons p ps ih =>
    have hend : ∀ a, p.token = .atom a → ∀ c, (render ps).head? = some c → endsAtom c = true := by
      intro a ha c hc
      rcases ps with _ | ⟨q, ps⟩
      · simp at hc
      · exact endsAtom_head_of_glued (List.isChain_cons_cons.mp hglued).1 ha hc
    have hrest := ih (fun q hq => hread q (by simp [hq])) (List.isChain_cons.mp hglued).2
    rw [render_cons, scan_separator_append, scan_text_append (hread p (by simp)) hend, hrest]
    rfl

theorem isChain_place (page : Page) (ts : List Token) : (place page ts).IsChain Glued := by
  rw [place_eq_map, List.isChain_map, List.isChain_iff_getElem]
  intro i hi
  have hlen : i + 1 < ts.length := by simpa using hi
  have ht : ts[i + 1]? = some ts[i + 1] := List.getElem?_eq_getElem hlen
  have hbefore : ts[i]? = some ts[i] := List.getElem?_eq_getElem (Nat.lt_of_succ_lt hlen)
  simp only [List.getElem_zipIdx, Nat.zero_add, Glued, token_placementAt]
  rw [separator_placementAt page ht, separatorAt_eq_glue_iff, ht, Nat.add_sub_cancel, hbefore]
  simp [clings, or_comm]

@[simp] theorem map_token_place (page : Page) (ts : List Token) :
    (place page ts).map Placement.token = ts := by
  rw [place_eq_map, List.map_map]
  have hfst : Placement.token ∘ placementAt page ts = Prod.fst := by
    funext t
    exact token_placementAt page ts t
  rw [hfst, List.zipIdx_map_fst]

theorem readable_of_mem_place (page : Page) {ts : List Token} (h : ∀ t ∈ ts, t.Readable) :
    ∀ p ∈ place page ts, p.token.Readable := by
  intro p hp
  apply h
  rw [← map_token_place page ts]
  exact List.mem_map_of_mem hp

/-- A layout reads as the tokens that were laid out, if they can be read at all. -/
theorem scan_layOut (page : Page) {ts : List Token} (h : ∀ t ∈ ts, t.Readable) :
    scan (layOut page ts) = ts := by
  rw [layOut, scan_render (readable_of_mem_place page h) (isChain_place page ts), map_token_place]

theorem exists_scan_eq_iff {ts : List Token} :
    (∃ t, scan t = ts) ↔ ∀ t ∈ ts, t.Readable := by
  constructor
  · rintro ⟨t, rfl⟩
    exact readable_of_mem_scan t
  · exact fun h => ⟨layOut {} ts, scan_layOut {} h⟩

/-- A layout reads as the tokens that were laid out if and only if each atom holds a character, and
no blank and no parenthesis. Those token lists are the ones that some text reads as. -/
theorem a_layout_reads_back_iff_its_atoms_can_be_read (page : Page) (ts : List Token) :
    (scan (layOut page ts) = ts ↔
        ∀ a, .atom a ∈ ts → a ≠ [] ∧ ∀ c ∈ a, isBlank c = false ∧ c ≠ '(' ∧ c ≠ ')') ∧
      (scan (layOut page ts) = ts ↔ ∃ t, scan t = ts) := by
  have hback : scan (layOut page ts) = ts ↔ ∀ t ∈ ts, t.Readable :=
    ⟨fun h => exists_scan_eq_iff.mp ⟨layOut page ts, h⟩, scan_layOut page⟩
  exact ⟨hback.trans forall_readable_iff, hback.trans exists_scan_eq_iff.symm⟩

/-! ## Reading a formatted text -/

@[simp] theorem scan_refill (columns : Nat) (t : Text) : scan (refill columns t) = scan t := by
  rw [scan_eq_flatMap_words, words_refill, ← scan_eq_flatMap_words]

@[simp] theorem scan_format (page : Page) (t : Text) : scan (format page t) = scan t := by
  rw [format, formatTokens, scan_refill, scan_layOut page (readable_of_mem_scan t)]

theorem format_congr (page : Page) {t u : Text} (h : scan t = scan u) :
    format page t = format page u := by
  rw [format, format, h]

theorem formatBalanced_congr (page : Page) {t u : Text} (h : scan t = scan u) :
    formatBalanced page t = formatBalanced page u := by
  rw [formatBalanced, formatBalanced, h]

/-- No token is lost, added, split or moved by formatting. So a formatted text is formatted as the
text that it came from, balanced or not, with the same fault if it has one, and two texts look
the same when they are formatted if and only if they have the same tokens. -/
theorem formatting_keeps_every_token (page : Page) (t : Text) :
    scan (format page t) = scan t ∧
      (∀ page', format page' (format page t) = format page' t) ∧
      (∀ page', formatBalanced page' (format page t) = formatBalanced page' t) ∧
      ∀ u, format page t = format page u ↔ scan t = scan u := by
  have ht := scan_format page t
  refine ⟨ht, fun page' => format_congr page' ht, fun page' => formatBalanced_congr page' ht, ?_⟩
  intro u
  constructor
  · intro h
    rw [← ht, h, scan_format page u]
  · exact format_congr page

end PrettyFormula
