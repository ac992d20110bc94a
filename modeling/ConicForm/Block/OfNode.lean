import ConicForm.Block.Rules

/-!
# The block of an expression

`Node.block` makes the block of a tree by recursion. `Node.build` does the same with a cache of the
blocks made before, so that a node that occurs many times is worked out once; the cache outlives a
failure and may be handed on to the next expression.
-/

namespace ConicForm

variable {α : Type}

/-- Blocks by the identities of their nodes. -/
abbrev Cache (α : Type) := List (Nat × Block α)

namespace Node

variable [Zero α] [One α] [Add α] [Neg α] [Mul α] [Div α] [OfDouble α]

mutual

/-- The affine map of an expression: from the variables to its value, column by column. -/
def block : Node α → Result (Block α)
  | ⟨ident, kind, shape, children, data⟩ =>
    let n : Node α := ⟨ident, kind, shape, children, data⟩
    if kind.isExpression then do Block.rule n (← blocks children)
    else .error (Block.unsupported n)
termination_by structural n => n

/-- The blocks of several expressions, up to the first that has none. -/
def blocks : List (Node α) → Result (List (Block α))
  | [] => .ok []
  | n :: rest => do
    let b ← block n
    return b :: (← blocks rest)
termination_by structural ns => ns

end

mutual

/-- The block of an expression and the cache afterwards. -/
def build : Node α → Cache α → Result (Block α) × Cache α
  | ⟨ident, kind, shape, children, data⟩, cache =>
    let n : Node α := ⟨ident, kind, shape, children, data⟩
    match cache.lookup ident with
    | some b => (.ok b, cache)
    | none =>
      if kind.isExpression then
        match buildAll children cache with
        | (.error e, cache) => (.error e, cache)
        | (.ok bs, cache) =>
          match Block.rule n bs with
          | .error e => (.error e, cache)
          | .ok b => (.ok b, (ident, b) :: cache)
      else (.error (Block.unsupported n), cache)
termination_by structural n => n

/-- The blocks of several expressions and the cache afterwards. -/
def buildAll : List (Node α) → Cache α → Result (List (Block α)) × Cache α
  | [], cache => (.ok [], cache)
  | n :: rest, cache =>
    match build n cache with
    | (.error e, cache) => (.error e, cache)
    | (.ok b, cache) =>
      match buildAll rest cache with
      | (.error e, cache) => (.error e, cache)
      | (.ok bs, cache) => (.ok (b :: bs), cache)
termination_by structural ns => ns

end

/-- The block of an expression, each of its nodes worked out once. -/
def affine (n : Node α) : Result (Block α) := (n.build []).1

end Node

end ConicForm
