-- The laws of clumps. Tokens that cling to each other are glued on every page, and
-- a blank stands between all others. So the words of a formatted formula are
-- its clumps, and the page decides the blanks between them and nothing else.
import Mathlib.Data.List.SplitBy
import PrettyFormula.Proofs.RoundTrip

namespace PrettyFormula

open Token

/-! ## Clumps -/

/-- The tokens, cut in front of each one that does not cling to the one in front of it. That is an
opening parenthesis or an atom that is not behind an opening parenthesis. -/
def clumps (ts : List Token) : List (List Token) := ts.splitBy clings

/-- The tokens with nothing between them. -/
def spell (ts : List Token) : Text := ts.flatMap text

variable {t u : Token} {ts : List Token}

theorem clumps_cons_of_not_clings (h : clings t u = false) (ts : List Token) :
    clumps (t :: u :: ts) = [t] :: clumps (u :: ts) :=
  List.splitBy_append_cons (l := [t]) ts (by simpa using h)

theorem exists_clumps_cons (t : Token) (ts : List Token) :
    ∃ c cs, clumps (t :: ts) = (t :: c) :: cs := by
  have hne : clumps (t :: ts) ≠ [] := List.splitBy_ne_nil.mpr (by simp)
  obtain ⟨c, cs, hcs⟩ := List.exists_cons_of_ne_nil hne
  have hc : c ≠ [] := List.ne_nil_of_mem_splitBy (hcs ▸ List.mem_cons_self)
  obtain ⟨v, c, rfl⟩ := List.exists_cons_of_ne_nil hc
  have hflat : (clumps (t :: ts)).flatten = t :: ts := List.flatten_splitBy clings _
  rw [hcs] at hflat
  obtain ⟨rfl, -⟩ := List.cons.inj hflat
  exact ⟨c, cs, hcs⟩

theorem clumps_cons_of_clings (h : clings t u = true) {c : List Token} {cs : List (List Token)}
    (hcs : clumps (u :: ts) = (u :: c) :: cs) : clumps (t :: u :: ts) = (t :: u :: c) :: cs := by
  obtain ⟨hflat, hnil, hchain, hcuts⟩ := List.splitBy_eq_iff.mp hcs
  refine List.splitBy_eq_iff.mpr ⟨?_, ?_, ?_, ?_⟩
  · rw [hflat]
    rfl
  · simpa using hnil
  · intro m hm
    rcases List.mem_cons.mp hm with rfl | hm
    · exact List.isChain_cons_cons.mpr ⟨h, hchain _ List.mem_cons_self⟩
    · exact hchain m (List.mem_cons_of_mem _ hm)
  · rcases cs with _ | ⟨d, cs⟩
    · exact List.isChain_singleton _
    · obtain ⟨hcut, hcuts⟩ := List.isChain_cons_cons.mp hcuts
      refine List.isChain_cons_cons.mpr ⟨?_, hcuts⟩
      simpa using hcut

/-! ## The shape of a clump -/

theorem rparens_of_isChain (ht : t ≠ .lparen) (h : (t :: ts).IsChain fun u v => clings u v) :
    ∀ u ∈ ts, u = .rparen := by
  induction ts generalizing t with
  | nil => simp
  | cons v ts ih =>
    obtain ⟨hv, hts⟩ := List.isChain_cons_cons.mp h
    have hv : v = .rparen := by simpa [clings, ht] using hv
    subst hv
    intro u hu
    rcases List.mem_cons.mp hu with rfl | hu
    · rfl
    · exact ih (by simp) hts u hu

theorem shape_of_isChain (h : ts.IsChain fun u v => clings u v) :
    ∃ (opens : Nat) (atom : Option Text) (closes : Nat),
      ts = List.replicate opens .lparen ++ atom.toList.map .atom ++
        List.replicate closes .rparen := by
  induction ts with
  | nil => exact ⟨0, none, 0, rfl⟩
  | cons t ts ih =>
    cases t with
    | lparen =>
      obtain ⟨opens, atom, closes, hts⟩ := ih (List.isChain_cons.mp h).2
      refine ⟨opens + 1, atom, closes, ?_⟩
      rw [hts, List.replicate_succ]
      rfl
    | rparen =>
      have hts := List.eq_replicate_of_mem (rparens_of_isChain (by simp) h)
      refine ⟨0, none, ts.length + 1, ?_⟩
      conv => lhs; rw [hts]
      rfl
    | atom a =>
      have hts := List.eq_replicate_of_mem (rparens_of_isChain (by simp) h)
      refine ⟨0, some a, ts.length, ?_⟩
      conv => lhs; rw [hts]
      rfl

/-! ## The words of a layout -/

/-- Characters in front of a word go on with it. -/
theorem words_append_of_no_blank {a b w : Text} {ws : List Text}
    (ha : ∀ c ∈ a, isBlank c = false) (hb : ∀ c, b.head? = some c → isBlank c = false)
    (h : words b = w :: ws) : words (a ++ b) = (a ++ w) :: ws := by
  have hsolid : ∀ x : Text, (∀ c ∈ x, isBlank c = false) → x ≠ [] →
      words x = [x] ∧ words (a ++ x) = [a ++ x] := by
    intro x hx hne
    refine ⟨words_word ⟨hne, hx⟩, words_word ⟨by simp [hne], fun c hc => ?_⟩⟩
    exact (List.mem_append.mp hc).elim (ha c) (hx c)
  induction b using parted_induction isBlank with
  | solid b hb' =>
    have hne : b ≠ [] := by
      rintro rfl
      cases h
    obtain ⟨hword, happend⟩ := hsolid b hb' hne
    rw [hword] at h
    obtain ⟨rfl, rfl⟩ := List.cons.inj h
    exact happend
  | parted x c y hx hc _ =>
    have hne : x ≠ [] := by
      rintro rfl
      rw [hb c rfl] at hc
      cases hc
    obtain ⟨hword, happend⟩ := hsolid x hx hne
    rw [words_append_blank hc, hword] at h
    obtain ⟨rfl, rfl⟩ := List.cons.inj h
    rw [← List.append_assoc, words_append_blank hc, happend]
    rfl

theorem words_append_separator {s : Separator} (hs : s ≠ .glue) (a b : Text) :
    words (a ++ (s.text ++ b)) = words a ++ words b := by
  cases s with
  | glue => exact absurd rfl hs
  | space => simp
  | newline margin => simp

theorem isBlank_head_of_isWord {w b : Text} (h : IsWord w) {c : Char}
    (hc : (w ++ b).head? = some c) : isBlank c = false := by
  obtain ⟨x, w, rfl⟩ := List.exists_cons_of_ne_nil h.ne_nil
  cases hc
  exact h.no_blank c List.mem_cons_self

/-- A token in front of what it is glued to goes on with the first word there. -/
theorem words_text_append (ht : t.Readable) (hu : u.Readable) {b : Text} {c : List Token}
    {ws : List Text} (h : words (u.text ++ b) = spell (u :: c) :: ws) :
    words (t.text ++ (u.text ++ b)) = spell (t :: u :: c) :: ws :=
  words_append_of_no_blank ht.isWord.no_blank (fun _ hx => isBlank_head_of_isWord hu.isWord hx) h

theorem words_render {ps : List Placement} (hread : ∀ p ∈ ps, p.token.Readable)
    (hglued : ps.IsChain Glued) :
    words (render ps) = (clumps (ps.map Placement.token)).map spell := by
  induction ps with
  | nil => rfl
  | cons p ps ih =>
    have hp := hread p (by simp)
    rw [render_cons, words_separator_append]
    rcases ps with _ | ⟨q, ps⟩
    · have hone : clumps ([p].map Placement.token) = [[p.token]] := rfl
      rw [hone, render, List.flatMap_nil, List.append_nil, words_word hp.isWord]
      simp [spell]
    · obtain ⟨hq, hrest⟩ := List.isChain_cons_cons.mp hglued
      have ih := ih (fun r hr => hread r (by simp [hr])) hrest
      rw [render_cons, words_separator_append, List.map_cons] at ih
      rw [render_cons, List.map_cons, List.map_cons]
      by_cases hcling : clings p.token q.token = true
      · obtain ⟨c, cs, hcs⟩ := exists_clumps_cons q.token (ps.map Placement.token)
        have hglue : q.separator = .glue := hq.mpr hcling
        rw [hcs] at ih
        rw [clumps_cons_of_clings hcling hcs, hglue]
        exact words_text_append hp (hread q (by simp)) ih
      · have hblank : q.separator ≠ .glue := fun hs => hcling (hq.mp hs)
        rw [words_append_separator hblank, words_word hp.isWord, ih,
          clumps_cons_of_not_clings (Bool.eq_false_iff.mpr hcling)]
        simp [spell]

theorem words_format (page : Page) (t : Text) :
    words (format page t) = (clumps (scan t)).map spell := by
  have hread := readable_of_mem_place page (readable_of_mem_scan t)
  rw [format, formatTokens, words_refill, layOut, words_render hread (isChain_place page (scan t)),
    map_token_place]

/-- The words of a formatted formula are the clumps of its tokens, in order. Each of them is opening
parentheses, at most one atom and closing parentheses. So they are the same on every page. -/
theorem the_words_of_a_formula_are_its_clumps (page : Page) (t : Text) :
    words (format page t) = (clumps (scan t)).map spell ∧
      (∀ c ∈ clumps (scan t), ∃ (opens : Nat) (atom : Option Text) (closes : Nat),
        c = List.replicate opens .lparen ++ atom.toList.map .atom ++
          List.replicate closes .rparen) ∧
      ∀ page', words (format page' t) = words (format page t) := by
  refine ⟨words_format page t, fun c hc => ?_, fun page' => ?_⟩
  · exact shape_of_isChain (List.isChain_of_mem_splitBy hc)
  · rw [words_format, words_format]

/-- A stray closing parenthesis at the start is a clump of its own. -/
theorem a_clump_of_two_openings_and_a_close :
    let page : Page := { columns := 8, indent := 2 }
    let t : Text := ")((a) b)c".toList
    let c : List Token := [.lparen, .lparen, .atom ['a'], .rparen]
    words (format page t) = [")".toList, "((a)".toList, "b)".toList, "c".toList] ∧
      c ∈ clumps (scan t) ∧ ∃ (opens : Nat) (atom : Option Text) (closes : Nat),
        c = List.replicate opens .lparen ++ atom.toList.map .atom ++
          List.replicate closes .rparen := by
  intro page t c
  have hmem : c ∈ clumps (scan t) := by decide
  obtain ⟨hwords, hshape, -⟩ := the_words_of_a_formula_are_its_clumps page t
  exact ⟨hwords.trans (by decide), hmem, hshape c hmem⟩

end PrettyFormula
