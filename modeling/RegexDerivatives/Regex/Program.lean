import RegexDerivatives.Regex.NormalForm
import RegexDerivatives.Regex.Postorder

/-!
# Programs that build a regex

A program is a list of instructions for a stack of regexes.  Besides the nodes in
postorder it has instructions for the regex of a word, for a copy of the topmost
regex and for the operations that turn one regex into another.  A program denotes
the single regex that it leaves on the stack.
-/

namespace RegexDerivatives

universe u

/-- One instruction for a stack of regexes. -/
inductive Instruction (α : Type u) : Type u where
  /-- Put a node above its children. -/
  | node (t : Token α) : Instruction α
  /-- Put the regex of a word on the stack. -/
  | word (w : Word α) : Instruction α
  /-- Put a copy of the topmost regex on the stack. -/
  | copy : Instruction α
  /-- Replace the topmost regex by its part for the empty word. -/
  | epsilonPart : Instruction α
  /-- Replace the topmost regex by its normal form. -/
  | normalForm : Instruction α
  /-- Replace the topmost regex by its derivative. -/
  | derivative (s : α) : Instruction α

/-- A program for a stack of regexes. -/
abbrev Program (α : Type u) : Type u := List (Instruction α)

variable {α : Type u}

/-- The stack after an instruction, if the stack holds what the instruction
needs. -/
def Instruction.step? [BEq α] : Instruction α → List (Regex α) → Option (List (Regex α))
  | node t, stack => t.push? stack
  | word w, stack => some (Regex.ofWord w :: stack)
  | copy, r :: stack => some (r :: r :: stack)
  | epsilonPart, r :: stack => some (r.epsilonPart :: stack)
  | normalForm, r :: stack => some (r.normalForm :: stack)
  | derivative s, r :: stack => some (r.derivative s :: stack)
  | _, _ => none

namespace Program

variable [BEq α]

/-- The stack after all instructions of a program. -/
def run? (p : Program α) (stack : List (Regex α)) : Option (List (Regex α)) :=
  p.foldlM (fun stack i => i.step? stack) stack

/-- The regex that a program denotes.  There is none when an instruction lacks an
operand or when not exactly one regex is left. -/
def regex? (p : Program α) : Option (Regex α) :=
  match p.run? [] with
  | some [r] => some r
  | _ => none

/-- The program that pushes the nodes of a regex one by one denotes it. -/
theorem regex?_postorder (r : Regex α) :
    Program.regex? (r.postorder.map Instruction.node) = some r := by
  have h : run? (r.postorder.map Instruction.node) [] = some [r] := by
    rw [run?, List.foldlM_map]
    exact Regex.foldlM_push_postorderBefore r [] []
  simp [regex?, h]

end Program
end RegexDerivatives
