-- The laws of padding. With a space on both sides of every parenthesis, the words
-- of a text are the texts of its tokens. Cutting each word of the text at its
-- parentheses, from the first one on, gives the same tokens.
import PrettyFormula.Proofs.Scanning

namespace PrettyFormula.Token

/-! ## Padding and cutting -/

def isParen (c : Char) : Bool := c == '(' || c == ')'

/-- The text with a space on both sides of every parenthesis. -/
def padded (t : Text) : Text :=
  t.flatMap fun c => if isParen c then [space, c, space] else [c]

def ofParen (c : Char) : Token := if c = '(' then .lparen else .rparen

/-- The token of a piece: a parenthesis, or else an atom that holds the piece as it is. -/
def ofPiece (w : Text) : Token :=
  if w = ['('] then .lparen else if w = [')'] then .rparen else .atom w

/-- The atom between two parentheses, if anything stands there. -/
def atomBetween (a : Text) : List Token := if a.isEmpty then [] else [.atom a]

theorem length_lt_of_dropWhile {p : Char → Bool} {w rest : Text} {c : Char}
    (h : w.dropWhile p = c :: rest) : rest.length < w.length := by
  have hle := (List.dropWhile_suffix p (l := w)).length_le
  rw [h, List.length_cons] at hle
  exact hle

/-- The tokens of a word. It is cut at its first parenthesis, and the rest behind that is cut in the
same way. -/
def cutWord (w : Text) : List Token :=
  match h : w.dropWhile (!isParen ·) with
  | [] => atomBetween w
  | c :: rest =>
    have := length_lt_of_dropWhile h
    atomBetween (w.takeWhile (!isParen ·)) ++ ofParen c :: cutWord rest
termination_by w.length

variable {a b w : Text} {c : Char}

/-! ## Parentheses -/

theorem isParen_iff : isParen c = true ↔ c = '(' ∨ c = ')' := by
  simp [isParen]

theorem not_isBlank_of_isParen (hc : isParen c = true) : isBlank c = false := by
  rcases isParen_iff.mp hc with rfl | rfl
  · simp
  · simp

theorem endsAtom_eq (c : Char) : endsAtom c = (isParen c || isBlank c) := rfl

theorem isBlank_of_not_isParen (h : endsAtom c = true) (hc : isParen c = false) :
    isBlank c = true := by
  rwa [endsAtom_eq, hc, Bool.false_or] at h

theorem ofPiece_paren (hc : isParen c = true) : ofPiece [c] = ofParen c := by
  rcases isParen_iff.mp hc with rfl | rfl
  · rfl
  · rfl

theorem scan_solid (ha : ∀ x ∈ a, endsAtom x = false) : scan a = atomBetween a := by
  unfold atomBetween
  split
  · rename_i h
    simp [List.isEmpty_iff.mp h]
  · rename_i h
    exact scan_atom ⟨by simpa using h, ha⟩

/-- A parenthesis is a token of its own, whatever stands around it. -/
theorem scan_append_paren (hc : isParen c = true) (a b : Text) :
    scan (a ++ c :: b) = scan a ++ ofParen c :: scan b := by
  rcases isParen_iff.mp hc with rfl | rfl
  · simp [scan_append, endsAtom, ofParen]
  · simp [scan_append, endsAtom, ofParen]

/-! ## Cutting words -/

theorem cutWord_eq_scan (hw : ∀ x ∈ w, isBlank x = false) : cutWord w = scan w := by
  have hends : ∀ x ∈ w, isParen x = false → endsAtom x = false := fun x hx hparen => by
    rw [endsAtom_eq, hparen, hw x hx]
    rfl
  fun_induction cutWord w with
  | case1 w h =>
    rw [List.dropWhile_eq_nil_iff] at h
    rw [scan_solid fun x hx => hends x hx (by simpa using h x hx)]
  | case2 w c rest h _ ih =>
    have hsplit : w.takeWhile (!isParen ·) ++ c :: rest = w := by
      rw [← h]
      exact List.takeWhile_append_dropWhile
    have hparen : isParen c = true := by
      have hhead := List.head_dropWhile_not (!isParen ·) (l := w) (by simp [h])
      simpa [h] using hhead
    have hrest : ∀ x ∈ rest, x ∈ w := fun x hx => hsplit ▸ by simp [hx]
    have hbefore : ∀ x ∈ w.takeWhile (!isParen ·), endsAtom x = false := fun x hx =>
      hends x ((List.takeWhile_prefix _).subset hx) (by simpa using List.mem_takeWhile_imp hx)
    conv => rhs; rw [← hsplit, scan_append_paren hparen, scan_solid hbefore]
    rw [ih (fun x hx => hw x (hrest x hx)) (fun x hx => hends x (hrest x hx))]

theorem flatMap_cutWord_words (t : Text) : (words t).flatMap cutWord = scan t := by
  rw [scan_eq_flatMap_words]
  exact List.flatMap_congr fun w hw => cutWord_eq_scan (isWord_of_mem_words t w hw).no_blank

/-! ## Splitting what is padded -/

@[simp] theorem padded_append (a b : Text) : padded (a ++ b) = padded a ++ padded b :=
  List.flatMap_append

theorem padded_solid (ha : ∀ x ∈ a, endsAtom x = false) : padded a = a := by
  have hone : ∀ x ∈ a, (if isParen x then [space, x, space] else [x]) = [x] := fun x hx => by
    have hx := ha x hx
    rw [endsAtom_eq, Bool.or_eq_false_iff] at hx
    rw [hx.1]
    rfl
  rw [padded, List.flatMap_congr hone, List.flatMap_singleton']

theorem map_ofPiece_solid (ha : ∀ x ∈ a, endsAtom x = false) :
    (words a).map ofPiece = scan a := by
  have hword : ∀ c, endsAtom c = true → a ≠ [c] := by
    rintro c hc rfl
    rw [ha c List.mem_cons_self] at hc
    cases hc
  rw [words_of_no_blank fun x hx => (endsAtom_eq_false_iff.mp (ha x hx)).1, scan_solid ha]
  by_cases hnil : a = []
  · simp [hnil, atomBetween]
  · simp [hnil, atomBetween, ofPiece, hword '(' (by decide), hword ')' (by decide)]

/-- The pieces in front of a parenthesis, the parenthesis, and the pieces behind it. -/
theorem words_padded_paren (hc : isParen c = true) (ha : ∀ x ∈ a, endsAtom x = false) (b : Text) :
    words (padded (a ++ c :: b)) = words a ++ [c] :: words (padded b) := by
  have hpadded : padded (a ++ c :: b) = a ++ space :: ([c] ++ space :: padded b) := by
    rw [padded_append, padded_solid ha, padded, List.flatMap_cons, if_pos hc, ← padded]
    rfl
  have hword : IsWord [c] := ⟨by simp, by simpa using not_isBlank_of_isParen hc⟩
  rw [hpadded, words_append_blank isBlank_space, words_append_blank isBlank_space, words_word hword]
  rfl

theorem map_ofPiece_words_padded (t : Text) : (words (padded t)).map ofPiece = scan t := by
  induction t using parted_induction endsAtom with
  | solid a ha => rw [padded_solid ha, map_ofPiece_solid ha]
  | parted a c b ha hc ih =>
    by_cases hparen : isParen c = true
    · rw [words_padded_paren hparen ha, List.map_append, List.map_cons, map_ofPiece_solid ha, ih,
        ofPiece_paren hparen, scan_append_paren hparen]
    · have hparen := Bool.eq_false_iff.mpr hparen
      have hblank := isBlank_of_not_isParen hc hparen
      have hpadded : padded (a ++ c :: b) = a ++ c :: padded b := by
        rw [padded_append, padded_solid ha, padded, List.flatMap_cons, hparen, ← padded]
        rfl
      rw [hpadded, words_append_blank hblank, List.map_append, map_ofPiece_solid ha, ih,
        scan_append_blank hblank]

@[simp] theorem text_ofPiece (w : Text) : (ofPiece w).text = w := by
  unfold ofPiece
  split_ifs with h₁ h₂
  · rw [h₁]
    rfl
  · rw [h₂]
    rfl
  · rfl

/-- The tokens of a text are its pieces, once every parenthesis is padded with spaces and the text is
split at its blanks: a piece is a parenthesis, or an atom as it stands. To split the text first and
then cut each word at its parentheses gives the same tokens. -/
theorem padding_and_cutting_read_the_same_tokens (t : Text) :
    scan t = (words (padded t)).map ofPiece ∧
      (words t).flatMap cutWord = (words (padded t)).map ofPiece ∧
      (scan t).map text = words (padded t) := by
  have hpieces := map_ofPiece_words_padded t
  refine ⟨hpieces.symm, ?_, ?_⟩
  · rw [flatMap_cutWord_words, hpieces]
  · rw [← hpieces, List.map_map]
    conv => rhs; rw [← List.map_id (words (padded t))]
    exact List.map_congr_left fun w _ => text_ofPiece w

/-- A parenthesis parts what stands around it without a blank. -/
example : words (padded "¬(Tag e1)".toList) =
    ["¬".toList, "(".toList, "Tag".toList, "e1".toList, ")".toList] := by
  decide

end PrettyFormula.Token
