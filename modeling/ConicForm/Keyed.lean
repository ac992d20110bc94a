/-!
# Keyed lists

Association lists in the order of first insertion: a repeated key keeps its first place and takes the
last value.
-/

namespace ConicForm.Keyed

variable {κ β γ : Type}

def get? [BEq κ] (entries : List (κ × β)) (k : κ) : Option β :=
  (entries.find? fun e => e.1 == k).map Prod.snd

def keys (entries : List (κ × β)) : List κ := entries.map Prod.fst

/-- Sets the value under a key, at its place if the key is there and at the end if not. -/
def put [BEq κ] (entries : List (κ × β)) (k : κ) (v : β) : List (κ × β) :=
  match entries with
  | [] => [(k, v)]
  | e :: rest => if e.1 == k then (e.1, v) :: rest else e :: put rest k v

def ofPairs [BEq κ] (pairs : List (κ × β)) : List (κ × β) :=
  pairs.foldl (fun entries p => put entries p.1 p.2) []

def mapValues (f : β → γ) (entries : List (κ × β)) : List (κ × γ) :=
  entries.map fun e => (e.1, f e.2)

@[simp] theorem get?_nil [BEq κ] (k : κ) : get? ([] : List (κ × β)) k = none := rfl

theorem get?_cons [BEq κ] (e : κ × β) (rest : List (κ × β)) (k : κ) :
    get? (e :: rest) k = if e.1 == k then some e.2 else get? rest k := by
  by_cases h : e.1 == k <;> simp [get?, h]

theorem get?_put [BEq κ] [EquivBEq κ] (entries : List (κ × β)) (k l : κ) (v : β) :
    get? (put entries k v) l = if k == l then some v else get? entries l := by
  induction entries with
  | nil => by_cases h : k == l <;> simp [put, get?_cons, h]
  | cons e rest ih =>
    by_cases he : e.1 == k
    · have hl : (e.1 == l) = (k == l) := BEq.congr_left he
      by_cases h : k == l <;> simp [put, get?_cons, he, hl, h]
    · by_cases h : k == l
      · have hl : ¬(e.1 == l) := fun x => he (BEq.trans x (BEq.symm h))
        simp [put, get?_cons, he, hl, ih, h]
      · simp [put, get?_cons, he, ih, h]

@[simp] theorem get?_mapValues [BEq κ] (f : β → γ) (entries : List (κ × β)) (k : κ) :
    get? (mapValues f entries) k = (get? entries k).map f := by
  induction entries with
  | nil => rfl
  | cons e rest ih =>
    change get? ((e.1, f e.2) :: mapValues f rest) k = _
    by_cases h : e.1 == k <;> simp [get?_cons, h, ih]

@[simp] theorem keys_mapValues (f : β → γ) (entries : List (κ × β)) :
    keys (mapValues f entries) = keys entries := by
  simp [keys, mapValues]

end ConicForm.Keyed
