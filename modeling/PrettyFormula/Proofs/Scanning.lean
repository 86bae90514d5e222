-- The laws of reading tokens. A blank or a parenthesis ends an atom, so what is
-- read in front of it does not depend on what stands behind it, and a text
-- reads as its words read.
import PrettyFormula.Proofs.Words
import PrettyFormula.Token

namespace PrettyFormula.Token

/-! ## Where atoms end -/

/-- A character that no atom holds. -/
def endsAtom (c : Char) : Bool := c == '(' || c == ')' || isBlank c

/-- A token as it can be read: an atom holds a character, and none that ends it. -/
def Readable : Token → Prop
  | .atom t => t ≠ [] ∧ ∀ c ∈ t, endsAtom c = false
  | _ => True

theorem endsAtom_of_isBlank {c : Char} (hc : isBlank c = true) : endsAtom c = true := by
  simp [endsAtom, hc]

theorem endsAtom_eq_false_iff {c : Char} :
    endsAtom c = false ↔ isBlank c = false ∧ c ≠ '(' ∧ c ≠ ')' := by
  simp only [endsAtom, Bool.or_eq_false_iff, beq_eq_false_iff_ne, ne_eq]
  exact and_comm

/-- Parentheses can always be read. -/
theorem forall_readable_iff {ts : List Token} :
    (∀ t ∈ ts, t.Readable) ↔
      ∀ a, .atom a ∈ ts → a ≠ [] ∧ ∀ c ∈ a, isBlank c = false ∧ c ≠ '(' ∧ c ≠ ')' := by
  simp only [← endsAtom_eq_false_iff]
  constructor
  · exact fun h a ha => h _ ha
  · intro h t ht
    cases t with
    | lparen => trivial
    | rparen => trivial
    | atom a => exact h a ht

theorem Readable.isWord {t : Token} (h : t.Readable) : IsWord t.text := by
  cases t with
  | lparen => exact ⟨by simp, by simp⟩
  | rparen => exact ⟨by simp, by simp⟩
  | atom a =>
    exact ⟨h.1, fun c hc => (endsAtom_eq_false_iff.mp (h.2 c hc)).1⟩

/-! ## One character in front -/

namespace Reading

/-- A character that ends an atom leaves none to extend. -/
theorem extend_of_endsAtom {c : Char} (hc : endsAtom c = true) (r : Reading) :
    r.extend c = { after := (r.extend c).tokens } := by
  simp only [endsAtom, Bool.or_eq_true, beq_iff_eq] at hc
  unfold extend
  split_ifs with h₁ h₂ h₃
  · rfl
  · rfl
  · rfl
  · simp [h₁, h₂, h₃] at hc

theorem extend_of_not_endsAtom {c : Char} (hc : endsAtom c = false) (r : Reading) :
    r.extend c = { r with atom := c :: r.atom } := by
  obtain ⟨hblank, hopen, hclose⟩ := endsAtom_eq_false_iff.mp hc
  simp [extend, hopen, hclose, hblank]

/-- More tokens behind a reading stay behind it. -/
def followedBy (ts : List Token) (r : Reading) : Reading :=
  { r with after := r.after ++ ts }

theorem tokens_followedBy (ts : List Token) (r : Reading) :
    (r.followedBy ts).tokens = r.tokens ++ ts := by
  unfold tokens followedBy
  split <;> simp

theorem extend_followedBy (c : Char) (ts : List Token) (r : Reading) :
    (r.followedBy ts).extend c = (r.extend c).followedBy ts := by
  unfold extend
  simp only [tokens_followedBy]
  split_ifs <;> rfl

end Reading

/-! ## Texts behind each other -/

theorem foldr_extend_followedBy (t : Text) (ts : List Token) :
    t.foldr Reading.extend { after := ts } = (reading t).followedBy ts := by
  induction t with
  | nil => rfl
  | cons c t ih =>
    rw [List.foldr_cons, ih, Reading.extend_followedBy]
    rfl

/-- What ends an atom also ends the reading of the text in front of it. -/
theorem scan_append {c : Char} (hc : endsAtom c = true) (a b : Text) :
    scan (a ++ c :: b) = scan a ++ scan (c :: b) := by
  have hr : reading (c :: b) = { after := scan (c :: b) } := Reading.extend_of_endsAtom hc _
  unfold scan at hr ⊢
  rw [reading, List.foldr_append, ← reading, hr, foldr_extend_followedBy,
    Reading.tokens_followedBy, ← hr]

@[simp] theorem scan_append_blank {c : Char} (hc : isBlank c = true) (a b : Text) :
    scan (a ++ c :: b) = scan a ++ scan b := by
  rw [scan_append (endsAtom_of_isBlank hc), scan_cons_blank hc]

theorem scan_blankText_append {a : Text} (ha : blankText a = true) (b : Text) :
    scan (a ++ b) = scan b := by
  induction a with
  | nil => rfl
  | cons c a ih =>
    rw [blankText, List.all_cons, Bool.and_eq_true] at ha
    rw [List.cons_append, scan_cons_blank ha.1, ih ha.2]

theorem scan_blankText {t : Text} (ht : blankText t = true) : scan t = [] := by
  have h := scan_blankText_append ht []
  rwa [List.append_nil] at h

theorem flatMap_scan_of_no_blank {t : Text} (ht : ∀ c ∈ t, isBlank c = false) :
    (words t).flatMap scan = scan t := by
  rw [words_of_no_blank ht]
  split
  · rename_i h
    subst h
    rfl
  · simp

/-- A text reads as its words read, so its blanks matter only in that they part the words. -/
theorem scan_eq_flatMap_words (t : Text) : scan t = (words t).flatMap scan := by
  induction t using parted_induction isBlank with
  | solid t ht => exact (flatMap_scan_of_no_blank ht).symm
  | parted a c b ha hc ih =>
    rw [scan_append_blank hc, words_append_blank hc, List.flatMap_append,
      flatMap_scan_of_no_blank ha, ← ih]

/-- A text reads as its lines read. -/
theorem scan_eq_flatMap_lines (t : Text) : scan t = (lines t).flatMap scan := by
  have hlines : (lines t).flatMap scan = (lines t).flatMap fun l => (words l).flatMap scan :=
    List.flatMap_congr fun l _ => scan_eq_flatMap_words l
  rw [hlines, scan_eq_flatMap_words, words_eq_flatMap_lines, List.flatMap_assoc]

/-- What stands behind lines that have ended is read on its own. -/
theorem scan_terminated_append (ls : List Text) (b : Text) :
    scan (ls.flatMap (· ++ ['\n']) ++ b) = scan (ls.flatMap (· ++ ['\n'])) ++ scan b := by
  induction ls with
  | nil => rfl
  | cons l ls ih => simp [ih]

/-! ## What is read -/

theorem reading_append {a : Text} (ha : ∀ c ∈ a, endsAtom c = false) (b : Text) :
    reading (a ++ b) = { reading b with atom := a ++ (reading b).atom } := by
  induction a with
  | nil => rfl
  | cons c a ih =>
    have hc : reading (c :: a ++ b) = (reading (a ++ b)).extend c := rfl
    rw [hc, ih fun x hx => ha x (by simp [hx]),
      Reading.extend_of_not_endsAtom (ha c (by simp))]
    rfl

theorem scan_atom {a : Text} (h : (Token.atom a).Readable) : scan a = [.atom a] := by
  have hr := reading_append h.2 []
  rw [List.append_nil] at hr
  rw [scan, hr]
  simp [reading, Reading.tokens, h.1]

/-- A readable token reads as itself in front of anything that ends an atom. -/
theorem scan_text_append {t : Token} (h : t.Readable) {b : Text}
    (hb : ∀ a, t = .atom a → ∀ c, b.head? = some c → endsAtom c = true) :
    scan (t.text ++ b) = t :: scan b := by
  cases t with
  | lparen => exact scan_cons_lparen b
  | rparen => exact scan_cons_rparen b
  | atom a =>
    rcases b with _ | ⟨c, b⟩
    · simp [scan_atom h]
    · rw [text, scan_append (hb a rfl c rfl), scan_atom h, List.singleton_append]

/-- A reading whose atom can still be extended and whose tokens are readable. -/
structure Reading.Sound (r : Reading) : Prop where
  atom : ∀ c ∈ r.atom, endsAtom c = false
  after : ∀ t ∈ r.after, t.Readable

theorem Reading.Sound.tokens {r : Reading} (h : r.Sound) : ∀ t ∈ r.tokens, t.Readable := by
  unfold Reading.tokens
  split
  · exact h.after
  · rename_i hne
    intro t ht
    rcases List.mem_cons.mp ht with rfl | ht
    · exact ⟨by simpa using hne, h.atom⟩
    · exact h.after t ht

theorem Reading.Sound.cons {r : Reading} (h : r.Sound) {t : Token} (ht : t.Readable) :
    Reading.Sound { after := t :: r.tokens } := by
  refine ⟨by simp, fun u hu => ?_⟩
  rcases List.mem_cons.mp hu with rfl | hu
  · exact ht
  · exact h.tokens u hu

theorem Reading.Sound.extend {r : Reading} (h : r.Sound) (c : Char) : (r.extend c).Sound := by
  unfold Reading.extend
  split_ifs with h₁ h₂ h₃
  · exact h.cons trivial
  · exact h.cons trivial
  · exact ⟨by simp, h.tokens⟩
  · refine ⟨fun x hx => ?_, h.after⟩
    rcases List.mem_cons.mp hx with rfl | hx
    · simpa [endsAtom, h₁, h₂] using h₃
    · exact h.atom x hx

theorem reading_sound (t : Text) : (reading t).Sound := by
  induction t with
  | nil => exact ⟨by simp [reading], by simp [reading]⟩
  | cons c t ih => exact ih.extend c

theorem readable_of_mem_scan (t : Text) : ∀ x ∈ scan t, x.Readable :=
  (reading_sound t).tokens

end PrettyFormula.Token
