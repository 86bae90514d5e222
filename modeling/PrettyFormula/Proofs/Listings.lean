-- The laws of listings. A formatted formula has no empty line, and one stands
-- behind the fence that closes its listing. So listings one behind the other are
-- told apart, whatever their formulas hold, and a batch of them can be read back.
import PrettyFormula.Proofs.Formatting
import PrettyFormula.Proofs.Printing

namespace PrettyFormula

open Token

/-! ## Texts without empty lines -/

/-- The text of one line, with something on it. -/
structure IsLine (l : Text) : Prop where
  ne_nil : l ≠ []
  no_newline : '\n' ∉ l

/-- A text of lines with something on each of them, every one ended by a newline. -/
def Unbroken (t : Text) : Prop :=
  ∃ ls : List Text, (∀ l ∈ ls, IsLine l) ∧ t = ls.flatMap (· ++ ['\n'])

variable {a b x y : Text} {n : Nat}

theorem line_append_inj {l m : Text} (hl : '\n' ∉ l) (hm : '\n' ∉ m)
    (h : l ++ '\n' :: a = m ++ '\n' :: b) : l = m ∧ a = b := by
  have hparts := congrArg (List.splitOn '\n') h
  rw [List.splitOn_append_cons_self, List.splitOn_append_cons_self, List.splitOn_eq_singleton hl,
    List.splitOn_eq_singleton hm] at hparts
  obtain ⟨rfl, -⟩ := List.cons.inj hparts
  exact ⟨rfl, (List.cons.inj (List.append_cancel_left h)).2⟩

/-- The first empty line tells where lines end that are not empty. -/
theorem lines_append_inj {ls ms : List Text} (hl : ∀ l ∈ ls, IsLine l) (hm : ∀ m ∈ ms, IsLine m)
    (h : ls.flatMap (· ++ ['\n']) ++ '\n' :: a = ms.flatMap (· ++ ['\n']) ++ '\n' :: b) :
    ls = ms ∧ a = b := by
  have hnil : '\n' ∉ ([] : Text) := by simp
  induction ls generalizing ms with
  | nil =>
    rcases ms with _ | ⟨m, ms⟩
    · exact ⟨rfl, (List.cons.inj h).2⟩
    · simp only [List.flatMap_cons, List.append_assoc, List.singleton_append] at h
      have hempty := (line_append_inj hnil (hm m (by simp)).no_newline h).1
      exact absurd hempty.symm (hm m (by simp)).ne_nil
  | cons l ls ih =>
    simp only [List.flatMap_cons, List.append_assoc, List.singleton_append] at h
    rcases ms with _ | ⟨m, ms⟩
    · have hempty := (line_append_inj (hl l (by simp)).no_newline hnil h).1
      exact absurd hempty (hl l (by simp)).ne_nil
    · simp only [List.flatMap_cons, List.append_assoc, List.singleton_append] at h
      obtain ⟨rfl, hrest⟩ :=
        line_append_inj (hl l (by simp)).no_newline (hm m (by simp)).no_newline h
      have hls : ∀ m ∈ ls, IsLine m := fun m hm => hl m (by simp [hm])
      have hms : ∀ m ∈ ms, IsLine m := fun m hm' => hm m (by simp [hm'])
      obtain ⟨rfl, hab⟩ := ih hls hms hrest
      exact ⟨rfl, hab⟩

theorem unbroken_format (page : Page) (t : Text) : Unbroken (format page t) := by
  have hread := readable_of_mem_scan t
  refine ⟨(formattedRows page (scan t)).map Row.text, fun l hl => ?_, formatTokens_eq hread⟩
  obtain ⟨hne, hnewline, -⟩ := line_of_mem_formattedRows hread l hl
  exact ⟨hne, hnewline⟩

theorem unbroken_of_mem_bodies {style : Style} {fs : List Formula} (h : a ∈ bodies style fs) :
    Unbroken a := by
  rw [bodies_eq] at h
  obtain ⟨t, -, rfl⟩ := List.mem_map.mp h
  exact unbroken_format style.page t

/-! ## Listings -/

/-- Behind the formula stands the fence, which is one more line, and behind that the first empty
line. -/
theorem listing_append (n : Nat) (ls : List Text) (x : Text) :
    listing n (ls.flatMap (· ++ ['\n'])) ++ x =
      heading n ++ ((ls ++ [fence]).flatMap (· ++ ['\n']) ++ '\n' :: x) := by
  have hlisting : listing n (ls.flatMap (· ++ ['\n'])) =
      heading n ++ ls.flatMap (· ++ ['\n']) ++ fence ++ ['\n', '\n'] := rfl
  rw [hlisting, List.flatMap_append, List.flatMap_singleton]
  simp only [List.append_assoc, List.cons_append, List.nil_append]

@[simp] theorem listing_ne_nil (n : Nat) (a : Text) : listing n a ≠ [] :=
  List.append_ne_nil_of_right_ne_nil _ (show "\n\n".toList ≠ [] by decide)

theorem isLine_append_fence {ls : List Text} (h : ∀ l ∈ ls, IsLine l) :
    ∀ l ∈ ls ++ [fence], IsLine l := by
  intro l hl
  rcases List.mem_append.mp hl with hl | hl
  · exact h l hl
  · rw [List.mem_singleton.mp hl]
    exact ⟨by decide, by decide⟩

/-- A listing tells where it ends, and what it lists. -/
theorem listing_append_inj (ha : Unbroken a) (hb : Unbroken b)
    (h : listing n a ++ x = listing n b ++ y) : a = b ∧ x = y := by
  obtain ⟨ls, hls, rfl⟩ := ha
  obtain ⟨ms, hms, rfl⟩ := hb
  rw [listing_append, listing_append] at h
  obtain ⟨hlines, hrest⟩ := lines_append_inj (isLine_append_fence hls) (isLine_append_fence hms)
    (List.append_cancel_left h)
  exact ⟨by rw [List.append_cancel_right hlines], hrest⟩

/-- Listings one behind the other, numbered from `n` on. -/
def listingsFrom (n : Nat) (as : List Text) : Text :=
  (as.zipIdx n).flatMap fun (a, k) => listing k a

@[simp] theorem listingsFrom_nil (n : Nat) : listingsFrom n [] = [] := rfl

@[simp] theorem listingsFrom_cons (n : Nat) (a : Text) (as : List Text) :
    listingsFrom n (a :: as) = listing n a ++ listingsFrom (n + 1) as := rfl

theorem listingsFrom_inj {as bs : List Text} (ha : ∀ a ∈ as, Unbroken a)
    (hb : ∀ b ∈ bs, Unbroken b) (h : listingsFrom n as = listingsFrom n bs) : as = bs := by
  induction as generalizing n bs with
  | nil =>
    rcases bs with _ | ⟨b, bs⟩
    · rfl
    · simp at h
  | cons a as ih =>
    rcases bs with _ | ⟨b, bs⟩
    · simp at h
    · rw [listingsFrom_cons, listingsFrom_cons] at h
      obtain ⟨rfl, hrest⟩ := listing_append_inj (ha a (by simp)) (hb b (by simp)) h
      rw [ih (fun c hc => ha c (by simp [hc])) (fun c hc => hb c (by simp [hc])) hrest]

/-! ## Batches of listings -/

theorem print_markdown {style : Style} (h : style.markdown = true) (fs : List Formula) :
    print style fs = listingsFrom 1 (bodies style fs) := if_pos h

theorem map_scan_bodies (style : Style) (fs : List Formula) :
    (bodies style fs).map scan = ((fs.map Formula.text).filter style.admits).map scan := by
  rw [bodies_eq, List.map_map]
  apply List.map_congr_left
  intro t _
  rw [Function.comp_apply, scan_format]

/-- Two batches of listings that are printed the same have the same formatted formulas, in order,
whatever their pages are and whether their formulas have to balance. So the formulas that are
printed have the same tokens. -/
theorem a_batch_of_listings_can_be_read_back {style style' : Style} {fs gs : List Formula}
    (hstyle : style.markdown = true) (hstyle' : style'.markdown = true)
    (h : print style fs = print style' gs) :
    bodies style fs = bodies style' gs ∧
      ((fs.map Formula.text).filter style.admits).map scan =
        ((gs.map Formula.text).filter style'.admits).map scan := by
  rw [print_markdown hstyle, print_markdown hstyle'] at h
  have hbodies : bodies style fs = bodies style' gs :=
    listingsFrom_inj (fun _ => unbroken_of_mem_bodies) (fun _ => unbroken_of_mem_bodies) h
  refine ⟨hbodies, ?_⟩
  rw [← map_scan_bodies, ← map_scan_bodies, hbodies]

/-- Formulas that look like the fence and the heading of a listing. The strict batch leaves out one
that does not balance, and the other batch has none in its place. -/
theorem two_batches_of_the_same_listings :
    let style : Style :=
      { page := { columns := 20, indent := 2 }, strict := true, markdown := true }
    let style' : Style := { page := { columns := 80, indent := 4 }, markdown := true }
    let fs : List Formula :=
      [⟨"a", 1, "``` (## b)".toList⟩, ⟨"a", 2, "(```".toList⟩, ⟨"a", 3, "2".toList⟩]
    let gs : List Formula := [⟨"b", 5, "  ```(##  b )".toList⟩, ⟨"c", 1, "2".toList⟩]
    style.markdown = true ∧ style'.markdown = true ∧ print style fs = print style' gs ∧
      bodies style fs = bodies style' gs ∧
      ((fs.map Formula.text).filter style.admits).map scan =
        ((gs.map Formula.text).filter style'.admits).map scan := by
  intro style style' fs gs
  have hstyle : style.markdown = true := rfl
  have hstyle' : style'.markdown = true := rfl
  have h : print style fs = print style' gs := by decide
  exact ⟨hstyle, hstyle', h, a_batch_of_listings_can_be_read_back hstyle hstyle' h⟩

end PrettyFormula
