import RegexDerivatives.Regex.Basic

/-!
# Regexes in postorder

A tree is listed by its nodes, children before their parent and left before
right.  Read from left to right on a stack, the list builds the tree again, so no
two trees have the same list.
-/

namespace RegexDerivatives

universe u

/-- One node of a regex, apart from its children. -/
inductive Token (α : Type u) : Type u where
  | empty : Token α
  | epsilon : Token α
  | symbol (a : α) : Token α
  | concat : Token α
  | union : Token α
  | star : Token α

variable {α : Type u}

/-- Put a node on the stack, above its children, which are taken off: the right
child is on top of the left one.  There is no result when a child is missing. -/
def Token.push? : Token α → List (Regex α) → Option (List (Regex α))
  | empty, stack => some (.empty :: stack)
  | epsilon, stack => some (.epsilon :: stack)
  | symbol a, stack => some (.symbol a :: stack)
  | concat, y :: x :: stack => some (.concat x y :: stack)
  | union, y :: x :: stack => some (.union x y :: stack)
  | star, x :: stack => some (.star x :: stack)
  | _, _ => none

namespace Regex

/-- The nodes of a regex in postorder, listed in front of further tokens. -/
def postorderBefore : Regex α → List (Token α) → List (Token α)
  | empty, rest => .empty :: rest
  | epsilon, rest => .epsilon :: rest
  | symbol a, rest => .symbol a :: rest
  | concat x y, rest => x.postorderBefore (y.postorderBefore (.concat :: rest))
  | union x y, rest => x.postorderBefore (y.postorderBefore (.union :: rest))
  | star x, rest => x.postorderBefore (.star :: rest)

/-- The nodes of a regex in postorder. -/
def postorder (r : Regex α) : List (Token α) :=
  r.postorderBefore []

/-- Pushing the nodes of a tree in postorder leaves the tree on the stack. -/
theorem foldlM_push_postorderBefore (r : Regex α) (rest : List (Token α))
    (stack : List (Regex α)) :
    (r.postorderBefore rest).foldlM (fun stack t => t.push? stack) stack =
      rest.foldlM (fun stack t => t.push? stack) (r :: stack) := by
  induction r generalizing rest stack with
  | empty => rfl
  | epsilon => rfl
  | symbol a => rfl
  | concat x y ihx ihy =>
      rw [postorderBefore, ihx, ihy]
      rfl
  | union x y ihx ihy =>
      rw [postorderBefore, ihx, ihy]
      rfl
  | star x ih =>
      rw [postorderBefore, ih]
      rfl

/-- The list of the nodes determines the tree. -/
theorem postorder_inj {r r' : Regex α} : r.postorder = r'.postorder ↔ r = r' := by
  constructor
  · intro h
    have hstack : some [r] = some [r'] :=
      calc
        some [r] = r.postorder.foldlM (fun stack t => t.push? stack) [] :=
          (foldlM_push_postorderBefore r [] []).symm
        _ = r'.postorder.foldlM (fun stack t => t.push? stack) [] := by rw [h]
        _ = some [r'] := foldlM_push_postorderBefore r' [] []
    simpa using hstack
  · rintro rfl
    rfl

end Regex
end RegexDerivatives
