/-!
# Places along an axis

Where a position or a range of positions falls on an axis of a given size. A position below zero counts
from the end of the axis. Positions of single entries are thirty-two bit integers: past the end they are
cut to the last place where entries are taken and dropped where entries are put.
-/

namespace ConicForm.Axis

/-- The remainder of an integer in the range of signed thirty-two bit integers. -/
def wrap (n : Int) : Int := Int.bmod n (Nat.pow 2 32)

/-- A position counted from the start of the axis. Axes whose places are all thirty-two bit integers have
positions that are. -/
def fromStart (size : Nat) (position : Int) : Int :=
  let p := if position < 0 then position + size else position
  if size < Nat.pow 2 31 then wrap p else p

theorem fromStart_ofNat {size n : Nat} (h : n < size) : fromStart size n = n := by
  have hn : ¬(n : Int) < 0 := by omega
  simp only [fromStart, hn, if_false]
  split
  · next hs =>
    have h31 : Nat.pow 2 31 = 2147483648 := rfl
    have h32 : Nat.pow 2 32 = 4294967296 := rfl
    rw [h31] at hs
    rw [wrap, h32, Int.bmod_def]
    split <;> omega
  · rfl

/-- The place that an entry is taken from. -/
def source (size : Nat) (position : Int) : Nat := min (fromStart size position).toNat (size - 1)

/-- The place that an entry is put to, if there is one. -/
def target? (size : Nat) (position : Int) : Option Nat :=
  let p := fromStart size position
  if 0 ≤ p ∧ p < size then some p.toNat else none

theorem source_ofNat {size n : Nat} (h : n < size) : source size n = n := by
  rw [source, fromStart_ofNat h, Int.toNat_natCast]
  omega

theorem target?_ofNat {size n : Nat} (h : n < size) : target? size n = some n := by
  simp only [target?, fromStart_ofNat h]
  rw [if_pos ⟨by omega, by omega⟩, Int.toNat_natCast]

/-- Where a range ends that is stated up to a position, or begins that is stated from there on. -/
def cut (size : Nat) (position : Int) : Nat :=
  min (if position < 0 then position + size else position).toNat size

/-- The places from `start` to before `stop`. -/
def window (size : Nat) (start stop : Int) : List Nat :=
  let first := cut size start
  (List.range (cut size stop - first)).map fun k => first + k

/-- The entries from `start` to before `stop`. -/
def slice {β : Type} (xs : List β) (start stop : Int) : List β :=
  let first := cut xs.length start
  (xs.drop first).take (cut xs.length stop - first)

/-- The index of the last item equal to `i`. -/
def lastIndexOf? (i : Nat) : List (Option Nat) → Option Nat
  | [] => none
  | p :: ps =>
    match lastIndexOf? i ps with
    | some k => some (k + 1)
    | none => if p = some i then some 0 else none

theorem cut_ofNat (size n : Nat) : cut size n = min n size := by
  unfold cut
  rw [if_neg (by omega), Int.toNat_natCast]

end ConicForm.Axis
