-- The groups that a token stands in. The parentheses that are open in front of
-- a token are those whose groups reach over it, and their number is the depth
-- at which the token stands.
import Mathlib.Data.List.Perm.Basic
import PrettyFormula.Proofs.Matching

namespace PrettyFormula

/-! ## Groups over a position -/

/-- The span behind the opening parenthesis at position `j`, if there is one. -/
def groupAt (ts : List Token) (j : Nat) : Option Span :=
  if ts[j]? = some .lparen then (spanTable ts).span? j else none

/-- The group that opens at `j` reaches over position `i`. -/
def reaches (ts : List Token) (j i : Nat) : Bool :=
  (groupAt ts j).any fun span => i < span.stop

/-- How many groups that open before position `i` reach over it. -/
def nesting (ts : List Token) (i : Nat) : Nat :=
  (List.range i).countP fun j => reaches ts j i

variable {ts : List Token} {i j : Nat}

theorem groupAt_lparen (h : ts[j]? = some .lparen) :
    groupAt ts j = some (spanFrom ts (j + 1)) := by
  rw [groupAt, if_pos h, span?_spanTable h]

theorem groupAt_eq_some_iff {span : Span} :
    groupAt ts j = some span ↔ ts[j]? = some .lparen ∧ span = spanFrom ts (j + 1) := by
  by_cases h : ts[j]? = some .lparen
  · simp [groupAt_lparen h, h, eq_comm]
  · simp [groupAt, h]

theorem groupAt_of_ne (h : ts[j]? ≠ some .lparen) : groupAt ts j = none := if_neg h

theorem reaches_iff_groupAt :
    reaches ts j i = true ↔ ∃ span, groupAt ts j = some span ∧ i < span.stop := by
  simp [reaches, Option.any_eq_true]

theorem reaches_iff :
    reaches ts j i = true ↔ ts[j]? = some .lparen ∧ i < (spanFrom ts (j + 1)).stop := by
  simp [reaches_iff_groupAt, groupAt_eq_some_iff, and_assoc]

@[simp] theorem reaches_self (h : ts[j]? = some .lparen) : reaches ts j j = true := by
  rw [reaches_iff]
  refine ⟨h, ?_⟩
  obtain ⟨hj, -⟩ := List.getElem?_eq_some_iff.mp h
  rw [spanFrom_eq hj]
  exact Span.le_stop_seek (j + 1) 0 0 _

/-! ## The stack of open parentheses -/

/-- The stack behind the token at position `i`, told by the stack in front of it. A closing
parenthesis with no partner leaves it empty. -/
def stackBehind (i : Nat) : Token → List Nat → List Nat
  | .lparen, stack => i :: stack
  | .rparen, stack => stack.tail
  | .atom _, stack => stack

theorem stackBehind_map_add (n i : Nat) (t : Token) (stack : List Nat) :
    stackBehind (n + i) t (stack.map (n + ·)) = (stackBehind i t stack).map (n + ·) := by
  cases t with
  | lparen => rfl
  | rparen => exact List.map_tail.symm
  | atom a => rfl

@[simp] theorem openAt_zero (ts : List Token) : openAt ts 0 = [] := rfl

theorem openAt_succ {t : Token} (h : ts[i]? = some t) :
    openAt ts (i + 1) = stackBehind i t (openAt ts i) := by
  rw [openAt, matchingAt_succ h, openAt]
  cases t with
  | lparen => rfl
  | atom a => rfl
  | rparen =>
    unfold Matching.push
    rcases hp : (matchingAt ts i).pending with _ | ⟨q, outer⟩
    · exact hp
    · rfl

/-- An open parenthesis behind a token is the token itself, or it was open in front of the token
with the same ones below it. -/
theorem eq_or_of_stackBehind {t : Token} {stack inner outer : List Nat}
    (h : stackBehind i t stack = inner ++ j :: outer) :
    (i = j ∧ stack = outer) ∨ ∃ above, stack = above ++ j :: outer := by
  cases t with
  | lparen =>
    rcases inner with _ | ⟨q, inner⟩
    · exact Or.inl (List.cons.inj h)
    · exact Or.inr ⟨inner, (List.cons.inj h).2⟩
  | atom a => exact Or.inr ⟨inner, h⟩
  | rparen =>
    rcases stack with _ | ⟨q, stack⟩
    · simp [stackBehind] at h
    · exact Or.inr ⟨q :: inner, congrArg (q :: ·) h⟩

/-- Below an open parenthesis the stack is as it was in front of it. -/
theorem openAt_below (h : i ≤ ts.length) {inner outer : List Nat}
    (ho : openAt ts i = inner ++ j :: outer) : openAt ts j = outer := by
  induction i generalizing inner with
  | zero => simp at ho
  | succ i ih =>
    rw [openAt_succ (List.getElem?_eq_getElem h)] at ho
    rcases eq_or_of_stackBehind ho with ⟨rfl, hstack⟩ | ⟨above, hstack⟩
    · exact hstack
    · exact ih (Nat.le_of_succ_le h) hstack

/-- The open parentheses in front of a token are those whose groups reach over it. -/
theorem mem_openAt (h : i < ts.length) : j ∈ openAt ts i ↔ j < i ∧ reaches ts j i = true := by
  have hs := matchingAt_sound (Nat.le_of_lt h)
  rw [reaches_iff]
  constructor
  · intro hj
    obtain ⟨hlt, hl⟩ := hs.opens j hj
    obtain ⟨d, hd⟩ := List.getElem?_of_mem hj
    obtain ⟨w, hw⟩ := hs.seeking d j hd
    refine ⟨hlt, hl, ?_⟩
    rw [hw, List.drop_eq_getElem_cons h]
    exact Span.lt_stop_seek i d w _ _
  · rintro ⟨hlt, hl, hstop⟩
    by_contra hj
    have hle := (hs.closed j hlt hl hj).2
    omega

theorem length_openAt (h : i < ts.length) : (openAt ts i).length = nesting ts i := by
  have hs := matchingAt_sound (Nat.le_of_lt h)
  have hnodup : (openAt ts i).Nodup := hs.inward.imp fun hgt => Nat.ne_of_gt hgt
  rw [nesting, List.countP_eq_length_filter]
  refine List.Perm.length_eq ?_
  refine (List.perm_ext_iff_of_nodup hnodup (List.nodup_range.filter _)).mpr fun j => ?_
  rw [mem_openAt h, List.mem_filter, List.mem_range]

end PrettyFormula
