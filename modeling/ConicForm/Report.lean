import ConicForm.Journal
import ConicForm.Solution

/-!
# Reports

All that can be seen of a run: its solution or the failure it ended with, what the solver was handed, and
the journal.
-/

namespace ConicForm

structure Report (ρ α : Type) where
  outcome : Result (Solution α)
  /-- What the solver was handed, if it came to that. -/
  handed : Option ρ
  journal : Journal

namespace Report

variable {ρ σ α : Type}

/-- The report with its request seen as one of another type. -/
def mapHanded (f : ρ → σ) (r : Report ρ α) : Report σ α := ⟨r.outcome, r.handed.map f, r.journal⟩

end Report

end ConicForm
