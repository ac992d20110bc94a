import ConicForm.Keyed
import ConicForm.Value.Printer

/-!
# Diagnoses

The text of an error about a problem definition: a title, the details of the case one a line, and, where
there is one, a suggestion.
-/

namespace ConicForm

structure Diagnosis where
  title : String
  details : List (String × String)
  suggestion : Option String

namespace Diagnosis

/-- Details as given: a name that comes again keeps its place and takes the later value. -/
def ofDetails (title : String) (details : List (String × Value)) (suggestion : Option String) :
    Diagnosis :=
  ⟨title, Keyed.mapValues Value.shown (Keyed.ofPairs details), suggestion⟩

/-- An empty suggestion is none. -/
def render (d : Diagnosis) : String :=
  let lines := d.details.map fun e => "\n  " ++ e.1 ++ ": " ++ e.2
  let body := "conejax " ++ d.title ++ ":" ++ String.join lines
  match d.suggestion with
  | some s => if s = "" then body else body ++ "\n\nSuggestion: " ++ s
  | none => body

end Diagnosis

end ConicForm
