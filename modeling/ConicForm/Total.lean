/-!
# Totals

The total of a list of counts, such as the sizes of the parts of a whole, and of a list of integers that
may stand for counts.
-/

namespace ConicForm

def total : List Nat → Nat
  | [] => 0
  | n :: rest => n + total rest

@[simp] theorem total_nil : total [] = 0 := rfl

@[simp] theorem total_cons (n : Nat) (rest : List Nat) : total (n :: rest) = n + total rest := rfl

@[simp] theorem total_append (xs ys : List Nat) : total (xs ++ ys) = total xs + total ys := by
  induction xs with
  | nil => simp
  | cons n rest ih => simp [ih, Nat.add_assoc]

theorem total_perm {xs ys : List Nat} (h : xs.Perm ys) : total xs = total ys := by
  induction h with
  | nil => rfl
  | cons n _ ih => rw [total_cons, total_cons, ih]
  | swap m n rest =>
    simp only [total_cons]
    omega
  | trans _ _ ih ih' => exact ih.trans ih'

theorem le_total_of_mem {xs : List Nat} {n : Nat} (h : n ∈ xs) : n ≤ total xs := by
  obtain ⟨before, after, rfl⟩ := List.append_of_mem h
  rw [total_append, total_cons]
  omega

def integerTotal : List Int → Int
  | [] => 0
  | n :: rest => n + integerTotal rest

@[simp] theorem integerTotal_ofNat (ns : List Nat) :
    integerTotal (ns.map fun n : Nat => (n : Int)) = total ns := by
  induction ns with
  | nil => rfl
  | cons n rest ih => simp [integerTotal, ih]

end ConicForm
