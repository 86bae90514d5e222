-- The laws of spacing. A text is its tokens with blanks around them, and the
-- blanks matter only where they keep two atoms apart. So any spacing that does
-- reads as the same tokens, and a text reads as no other ones.
import PrettyFormula.Proofs.Scanning

namespace PrettyFormula.Token

/-! ## Tokens and gaps -/

/-- The tokens one after the other, each behind its gap, and a last gap behind them. -/
def withGaps (gap : Nat → Text) : List Token → Text
  | [] => gap 0
  | t :: ts => gap 0 ++ t.text ++ withGaps (fun i => gap (i + 1)) ts

/-- Gaps are blank, and between two atoms there is one. -/
structure Parts (gap : Nat → Text) (ts : List Token) : Prop where
  blank : ∀ i, blankText (gap i) = true
  between : ∀ i a b, ts[i]? = some (.atom a) → ts[i + 1]? = some (.atom b) → gap (i + 1) ≠ []

/-- The text is the tokens, with gaps that part them. -/
def Spells (t : Text) (ts : List Token) : Prop := ∃ gap, Parts gap ts ∧ t = withGaps gap ts

/-- The gap `g` in front of all others. -/
def gapInFront (g : Text) (gap : Nat → Text) : Nat → Text
  | 0 => g
  | i + 1 => gap i

variable {gap : Nat → Text} {ts : List Token} {t : Token} {a b : Text} {c : Char}

theorem Parts.tail (h : Parts gap (t :: ts)) : Parts (fun i => gap (i + 1)) ts :=
  ⟨fun i => h.blank (i + 1), fun i a b ha hb => h.between (i + 1) a b ha hb⟩

theorem Parts.cons (h : Parts gap ts)
    (hb : ∀ a b, t = .atom a → ts[0]? = some (.atom b) → gap 0 ≠ []) :
    Parts (gapInFront [] gap) (t :: ts) where
  blank i := by
    cases i with
    | zero => rfl
    | succ i => exact h.blank i
  between i a b ha hb' := by
    cases i with
    | zero => exact hb a b (Option.some.inj ha) hb'
    | succ i => exact h.between i a b ha hb'

/-! ## Reading what is spelled -/

/-- Behind an atom stands a blank, a parenthesis or nothing. -/
theorem Parts.endsAtom_head (h : Parts gap (.atom a :: ts))
    (hc : (withGaps (fun i => gap (i + 1)) ts).head? = some c) : endsAtom c = true := by
  have hblank := h.blank 1
  rcases hg : gap 1 with _ | ⟨d, g⟩
  · cases ts with
    | nil => simp [withGaps, hg] at hc
    | cons u ts =>
      simp only [withGaps, Nat.zero_add, hg, List.nil_append] at hc
      cases u with
      | lparen =>
        cases hc
        rfl
      | rparen =>
        cases hc
        rfl
      | atom b => exact absurd hg (h.between 0 a b rfl rfl)
  · have hd : d = c := by
      cases ts <;> simpa [withGaps, hg] using hc
    rw [hg, blankText, List.all_cons, Bool.and_eq_true, hd] at hblank
    exact endsAtom_of_isBlank hblank.1

theorem scan_withGaps (hread : ∀ t ∈ ts, t.Readable) (h : Parts gap ts) :
    scan (withGaps gap ts) = ts := by
  induction ts generalizing gap with
  | nil => exact scan_blankText (h.blank 0)
  | cons t ts ih =>
    have hend : ∀ a, t = .atom a →
        ∀ c, (withGaps (fun i => gap (i + 1)) ts).head? = some c → endsAtom c = true := by
      rintro a rfl c hc
      exact h.endsAtom_head hc
    rw [withGaps, List.append_assoc, scan_blankText_append (h.blank 0),
      scan_text_append (hread t (by simp)) hend, ih (fun u hu => hread u (by simp [hu])) h.tail]

/-! ## Spelling what is read -/

theorem Spells.cons_blank (hc : isBlank c = true) (h : Spells a ts) : Spells (c :: a) ts := by
  obtain ⟨gap, hparts, rfl⟩ := h
  refine ⟨gapInFront (c :: gap 0) fun i => gap (i + 1), ⟨fun i => ?_, hparts.between⟩, ?_⟩
  · cases i with
    | zero =>
      rw [gapInFront, blankText, List.all_cons, hc, Bool.true_and]
      exact hparts.blank 0
    | succ i => exact hparts.blank (i + 1)
  · cases ts <;> rfl

/-- A token in front, if it is a parenthesis or something ends it. -/
theorem Spells.cons (hread : ∀ u ∈ ts, u.Readable) (h : Spells b ts)
    (hend : ∀ a, t = .atom a → ∀ c, b.head? = some c → endsAtom c = true) :
    Spells (t.text ++ b) (t :: ts) := by
  obtain ⟨gap, hparts, rfl⟩ := h
  refine ⟨gapInFront [] gap, hparts.cons fun a b ha hb hg => ?_, rfl⟩
  -- Without a gap the text goes on with the next atom, and no character of it ends an atom.
  obtain ⟨us, rfl⟩ : ∃ us, ts = .atom b :: us := by
    cases ts with
    | nil => simp at hb
    | cons u us => exact ⟨us, by rw [Option.some.inj hb]⟩
  obtain ⟨hne, hatom⟩ := hread _ List.mem_cons_self
  obtain ⟨c, b, rfl⟩ := List.exists_cons_of_ne_nil hne
  have hc := hend a ha c (by simp [withGaps, hg])
  rw [hatom c List.mem_cons_self] at hc
  cases hc

theorem Spells.cons_endsAtom (hc : endsAtom c = true) (h : Spells b (scan b)) :
    Spells (c :: b) (scan (c :: b)) := by
  have hread := readable_of_mem_scan b
  simp only [endsAtom, Bool.or_eq_true, beq_iff_eq] at hc
  rcases hc with (rfl | rfl) | hc
  · simpa using Spells.cons (t := .lparen) hread h (by simp)
  · simpa using Spells.cons (t := .rparen) hread h (by simp)
  · simpa [hc] using h.cons_blank hc

/-- An atom in front of what ends it, if there is one. -/
theorem Spells.append (ha : ∀ x ∈ a, endsAtom x = false)
    (hb : ∀ c, b.head? = some c → endsAtom c = true) (h : Spells b (scan b)) :
    Spells (a ++ b) (scan (a ++ b)) := by
  by_cases hne : a = []
  · rwa [hne]
  · have hatom : (Token.atom a).Readable := ⟨hne, ha⟩
    have hscan : scan (a ++ b) = .atom a :: scan b := scan_text_append hatom fun _ _ => hb
    rw [hscan]
    exact Spells.cons (readable_of_mem_scan b) h fun _ _ => hb

theorem spells_nil : Spells [] [] :=
  ⟨fun _ => [], ⟨fun _ => rfl, fun i a b ha _ => by simp at ha⟩, rfl⟩

theorem spells_scan (a : Text) : Spells a (scan a) := by
  induction a using parted_induction endsAtom with
  | solid a ha =>
    have hnil := Spells.append (b := []) ha (by simp) spells_nil
    rwa [List.append_nil] at hnil
  | parted a c b ha hc ih =>
    refine Spells.append ha (fun d hd => ?_) (ih.cons_endsAtom hc)
    cases hd
    exact hc

theorem scan_eq_iff {ts : List Token} :
    scan a = ts ↔ (∀ x ∈ ts, x.Readable) ∧ Spells a ts := by
  constructor
  · rintro rfl
    exact ⟨readable_of_mem_scan a, spells_scan a⟩
  · rintro ⟨hread, gap, hparts, rfl⟩
    exact scan_withGaps hread hparts

/-- A text reads as the tokens that it spells, if they can be read, and as no others. So two texts
have the same tokens when they spell the same ones, and then they differ in their gaps only. -/
theorem a_text_reads_as_what_it_spells (t : Text) :
    (∀ ts, scan t = ts ↔ (∀ x ∈ ts, x.Readable) ∧ Spells t ts) ∧
      ∀ u, scan t = scan u ↔ ∃ ts, (∀ x ∈ ts, x.Readable) ∧ Spells t ts ∧ Spells u ts := by
  refine ⟨fun ts => scan_eq_iff, fun u => ⟨fun h => ?_, ?_⟩⟩
  · exact ⟨scan t, readable_of_mem_scan t, spells_scan t, h ▸ spells_scan u⟩
  · rintro ⟨ts, hread, ht, hu⟩
    rw [scan_eq_iff.mpr ⟨hread, ht⟩, scan_eq_iff.mpr ⟨hread, hu⟩]

end PrettyFormula.Token
