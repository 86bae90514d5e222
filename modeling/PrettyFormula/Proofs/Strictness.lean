-- The laws of strict batches. A formula that balances is printed under the next
-- number, as in a batch where formulas need not balance. Any other one is counted
-- and reported, and leaves no trace in what is printed.
import Mathlib.Data.List.Forall2
import PrettyFormula.Proofs.Printing

namespace PrettyFormula

open Token

/-! ## Formula by formula -/

/-- A batch on its way: what is printed, how many formulas that is, how many are skipped, and what
is reported. -/
structure Progress where
  text : Text := []
  printed : Nat := 0
  skipped : Nat := 0
  log : List Record := []

/-- One more formula. It is printed under the next number, or skipped and counted. -/
def Progress.push (style : Style) (p : Progress) (f : Formula) : Progress :=
  match f.formatted style with
  | .error _ => { p with skipped := p.skipped + 1, log := p.log ++ f.log style }
  | .ok body =>
    { p with
      text := p.text ++ if style.markdown then listing (p.printed + 1) body else body
      printed := p.printed + 1
      log := p.log ++ f.log style }

/-- What a batch comes to. -/
def Progress.of (style : Style) (fs : List Formula) : Progress where
  text := print style fs
  printed := (bodies style fs).length
  skipped := leftOut style fs
  log := printLog style fs

variable {style : Style} {page : Page} {fs : List Formula} {f : Formula}

theorem leftOut_eq (style : Style) (fs : List Formula) :
    leftOut style fs = (fs.filter fun f => !style.admits f.text).length := by
  rw [leftOut, List.countP_eq_length_filter]
  congr 2
  funext f
  rw [toOption_formatted]
  cases style.admits f.text
  · rfl
  · rfl

/-- The records of what went wrong. -/
def errors (log : List Record) : List Record := log.filter fun r => r.level = .error

/-- Nothing goes wrong in formatting. -/
@[simp] theorem errors_formatTokensLog (page : Page) (ts : List Token) :
    errors (formatTokensLog page ts) = [] := by
  rw [errors, List.filter_eq_nil_iff]
  intro r hr
  rw [formatTokensLog, layoutLog, refillLog, List.mem_append, List.mem_append, List.mem_map,
    List.mem_singleton, List.mem_map] at hr
  rcases hr with (⟨c, -, rfl⟩ | rfl) | ⟨l, -, rfl⟩
  · simp [Record.level]
  · simp [Record.level]
  · simp [Record.level]

end PrettyFormula
