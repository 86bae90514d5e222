-- The laws of balance. Balanced tokens are those that a grammar of atoms and
-- closed groups gives. A stray close is named at the first position that no
-- further token can repair, and open groups are counted by what would close them.
import Mathlib.Logic.Basic
import PrettyFormula.Balance

namespace PrettyFormula

open Token

/-! ## The grammar -/

/-- Atoms and groups one after the other, where a group is the same between parentheses. -/
inductive WellNested : List Token → Prop
  | nil : WellNested []
  | atom {ts : List Token} (a : Text) : WellNested ts → WellNested (.atom a :: ts)
  | group {ts us : List Token} :
      WellNested ts → WellNested us → WellNested (.lparen :: ts ++ .rparen :: us)

/-- What can stand behind `depth` open parentheses, so that all of them are closed. -/
inductive Closes : Nat → List Token → Prop
  | done {ts : List Token} : WellNested ts → Closes 0 ts
  | close {depth : Nat} {ts us : List Token} :
      WellNested ts → Closes depth us → Closes (depth + 1) (ts ++ .rparen :: us)

variable {depth index : Nat} {ts us : List Token}

theorem WellNested.append (ht : WellNested ts) (hu : WellNested us) : WellNested (ts ++ us) := by
  induction ht with
  | nil => exact hu
  | atom a _ ih => exact .atom a ih
  | group h _ _ ih =>
    rw [List.append_assoc]
    exact .group h ih

theorem Closes.atom (a : Text) (h : Closes depth ts) : Closes depth (.atom a :: ts) := by
  cases h with
  | done h => exact .done (.atom a h)
  | close h hrest => exact .close (.atom a h) hrest

/-- An opening parenthesis in front makes a group of what closes it. -/
theorem Closes.lparen (h : Closes (depth + 1) ts) : Closes depth (.lparen :: ts) := by
  -- The first close now ends the group, and what stood behind it goes on to the next one.
  cases h with
  | close hgroup hrest =>
    cases hrest with
    | done h => exact .done (.group hgroup h)
    | close h hrest =>
      rw [← List.cons_append, ← List.cons_append, ← List.append_assoc]
      exact .close (.group hgroup h) hrest

/-! ## The check reads the grammar -/

/-- The check passes over what is well nested, with as many parentheses open behind it as before. -/
theorem WellNested.imbalanceFrom_append (h : WellNested ts) (depth index : Nat) (us : List Token) :
    imbalanceFrom depth index (ts ++ us) = imbalanceFrom depth (index + ts.length) us := by
  induction h generalizing depth index us with
  | nil => rfl
  | @atom ts a _ ih =>
    rw [List.cons_append, imbalanceFrom, ih, List.length_cons]
    congr 1
    omega
  | @group ts vs _ _ ih ih' =>
    rw [List.append_assoc, List.cons_append, List.cons_append, List.cons_append, imbalanceFrom, ih,
      imbalanceFrom, ih']
    congr 1
    simp only [List.length_append, List.length_cons]
    omega

theorem Closes.imbalanceFrom_eq (h : Closes depth ts) (index : Nat) :
    imbalanceFrom depth index ts = none := by
  induction h generalizing index with
  | @done ts h =>
    have hnil := h.imbalanceFrom_append 0 index []
    rwa [List.append_nil] at hnil
  | close h _ ih =>
    rw [h.imbalanceFrom_append, imbalanceFrom]
    exact ih _

theorem closes_of_imbalanceFrom (h : imbalanceFrom depth index ts = none) : Closes depth ts := by
  induction ts generalizing depth index with
  | nil =>
    rcases depth with _ | depth
    · exact .done .nil
    · simp [imbalanceFrom] at h
  | cons t ts ih =>
    cases t with
    | lparen => exact (ih h).lparen
    | atom a => exact (ih h).atom a
    | rparen =>
      rcases depth with _ | depth
      · simp [imbalanceFrom] at h
      · exact .close .nil (ih h)

theorem balanced_iff_wellNested : Balanced ts ↔ WellNested ts := by
  constructor
  · intro h
    cases closes_of_imbalanceFrom h with
    | done h => exact h
  · intro h
    exact (Closes.done h).imbalanceFrom_eq 0

theorem Balanced.append (ht : Balanced ts) (hu : Balanced us) : Balanced (ts ++ us) := by
  rw [balanced_iff_wellNested] at ht hu ⊢
  exact ht.append hu

/-! ## Where a stray close is found -/

/-- At the end, parentheses can be open, but no close is stray. -/
theorem imbalanceFrom_nil_ne (depth index k : Nat) :
    imbalanceFrom depth index [] ≠ some (.strayClose k) := by
  rw [imbalanceFrom]
  split <;> simp

theorem le_of_strayClose {k : Nat} (h : imbalanceFrom depth index ts = some (.strayClose k)) :
    index ≤ k := by
  induction ts generalizing depth index with
  | nil => exact absurd h (imbalanceFrom_nil_ne depth index k)
  | cons t ts ih =>
    cases t with
    | lparen => exact Nat.le_of_succ_le (ih h)
    | atom a => exact Nat.le_of_succ_le (ih h)
    | rparen =>
      rcases depth with _ | depth
      · cases h
        exact Nat.le_refl _
      · exact Nat.le_of_succ_le (ih h)

/-- A beginning of the tokens has the stray close of the whole, if it reaches over it. -/
theorem strayClose_take_iff {n k : Nat} :
    imbalanceFrom depth index (ts.take n) = some (.strayClose k) ↔
      imbalanceFrom depth index ts = some (.strayClose k) ∧ k < index + n := by
  induction ts generalizing depth index n with
  | nil => simp [imbalanceFrom_nil_ne]
  | cons t ts ih =>
    rcases n with _ | n
    · have hle := @le_of_strayClose depth index (t :: ts) k
      simp only [List.take_zero, imbalanceFrom_nil_ne, false_iff, Nat.add_zero, not_and, Nat.not_lt]
      exact hle
    · have hnext : index + 1 + n = index + (n + 1) := by omega
      rw [List.take_succ_cons]
      cases t with
      | lparen => exact hnext ▸ ih
      | atom a => exact hnext ▸ ih
      | rparen =>
        rcases depth with _ | depth
        · simp only [imbalanceFrom, Option.some.injEq, Imbalance.strayClose.injEq]
          omega
        · exact hnext ▸ ih

/-- A stray close stands where a beginning of the tokens first has one. -/
theorem strayClose_iff_take {n : Nat} :
    imbalance? ts = some (.strayClose n) ↔
      (∀ k, imbalance? (ts.take n) ≠ some (.strayClose k)) ∧
        ∃ k, imbalance? (ts.take (n + 1)) = some (.strayClose k) := by
  simp only [imbalance?, ne_eq, strayClose_take_iff, Nat.zero_add, not_and, Nat.not_lt]
  constructor
  · intro h
    refine ⟨fun k hk => ?_, n, h, Nat.lt_succ_self n⟩
    rw [h] at hk
    cases hk
    exact Nat.le_refl n
  · rintro ⟨hbefore, k, hk, hlt⟩
    have hle := hbefore k hk
    have heq : k = n := by omega
    exact heq ▸ hk

/-! ## What closes the groups that are left open -/

theorem imbalanceFrom_replicate_rparen (depth index n : Nat) :
    imbalanceFrom depth index (List.replicate n .rparen) = none ↔ n = depth := by
  induction n generalizing depth index with
  | zero =>
    have hend : imbalanceFrom depth index [] = none ↔ depth = 0 := by simp [imbalanceFrom]
    exact hend.trans eq_comm
  | succ n ih =>
    rw [List.replicate_succ]
    rcases depth with _ | depth
    · simp [imbalanceFrom]
    · rw [imbalanceFrom, ih]
      omega

/-- Tokens can be repaired from behind as long as none of them is a stray close. -/
theorem exists_append_iff :
    (∃ us, imbalanceFrom depth index (ts ++ us) = none) ↔
      ∀ k, imbalanceFrom depth index ts ≠ some (.strayClose k) := by
  induction ts generalizing depth index with
  | nil =>
    constructor
    · intro _ k
      exact imbalanceFrom_nil_ne depth index k
    · intro _
      exact ⟨_, (imbalanceFrom_replicate_rparen depth index depth).mpr rfl⟩
  | cons t ts ih =>
    cases t with
    | lparen => exact ih
    | atom a => exact ih
    | rparen =>
      rcases depth with _ | depth
      · simp [imbalanceFrom]
      · exact ih

theorem unclosed_iff {n : Nat} :
    imbalanceFrom depth index ts = some (.unclosed n) ↔
      0 < n ∧ imbalanceFrom depth index (ts ++ List.replicate n .rparen) = none := by
  induction ts generalizing depth index with
  | nil =>
    rw [List.nil_append, imbalanceFrom_replicate_rparen, imbalanceFrom]
    split
    · simp only [reduceCtorEq, false_iff]
      omega
    · simp only [Option.some.injEq, Imbalance.unclosed.injEq]
      omega
  | cons t ts ih =>
    cases t with
    | lparen => exact ih
    | atom a => exact ih
    | rparen =>
      rcases depth with _ | depth
      · simp [imbalanceFrom]
      · exact ih

/-! ## The check decides the grammar -/

theorem exists_wellNested_append_iff :
    (∃ us, WellNested (ts ++ us)) ↔ ∀ k, imbalance? ts ≠ some (.strayClose k) := by
  simp only [← balanced_iff_wellNested]
  exact exists_append_iff

/-- Tokens balance when the grammar gives them. The tokens in front of a stray close can go on to be
well nested, and with it they cannot. As many groups are unclosed as closing parentheses behind the
tokens make them well nested. -/
theorem the_check_decides_the_grammar (ts : List Token) :
    (imbalance? ts = none ↔ WellNested ts) ∧
      (∀ index, imbalance? ts = some (.strayClose index) ↔
        (∃ us, WellNested (ts.take index ++ us)) ∧ ¬ ∃ us, WellNested (ts.take (index + 1) ++ us)) ∧
      ∀ count, imbalance? ts = some (.unclosed count) ↔
        0 < count ∧ WellNested (ts ++ List.replicate count .rparen) := by
  refine ⟨balanced_iff_wellNested, fun index => ?_, fun count => ?_⟩
  · rw [exists_wellNested_append_iff, exists_wellNested_append_iff, strayClose_iff_take]
    simp only [ne_eq, not_forall, not_not]
  · rw [← balanced_iff_wellNested]
    exact unclosed_iff

end PrettyFormula
