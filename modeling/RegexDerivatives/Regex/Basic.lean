import RegexDerivatives.Word

/-!
# Regular expressions

The syntax trees of regular expressions over an arbitrary type of symbols, with
their size, their structural comparison and the regex of a single word.

Symbols are compared by the `==` of the symbol type.  Nothing is assumed about
that comparison: it may fail to be reflexive, or identify distinct symbols.
-/

namespace RegexDerivatives

universe u

/-- Regular expressions over the symbols `α`. -/
inductive Regex (α : Type u) : Type u where
  /-- Describes no word at all. -/
  | empty : Regex α
  /-- Describes the empty word only. -/
  | epsilon : Regex α
  /-- Describes the words of one symbol that compares equal to the given one. -/
  | symbol (a : α) : Regex α
  /-- A word of the first part followed by a word of the second part. -/
  | concat (x y : Regex α) : Regex α
  /-- A word of either part. -/
  | union (x y : Regex α) : Regex α
  /-- Any number of words of the body, one after the other. -/
  | star (x : Regex α) : Regex α

namespace Regex

variable {α : Type u}

/-- The number of nodes of the tree. -/
def size : Regex α → Nat
  | empty => 1
  | epsilon => 1
  | symbol _ => 1
  | concat x y => 1 + x.size + y.size
  | union x y => 1 + x.size + y.size
  | star x => 1 + x.size

/-- Whether the regex is the node `empty` itself. -/
def isEmpty : Regex α → Bool
  | empty => true
  | _ => false

/-- Whether the regex is the node `epsilon` itself. -/
def isEpsilon : Regex α → Bool
  | epsilon => true
  | _ => false

/-- The number of symbol nodes of the tree. -/
def symbolCount : Regex α → Nat
  | empty => 0
  | epsilon => 0
  | symbol _ => 1
  | concat x y => x.symbolCount + y.symbolCount
  | union x y => x.symbolCount + y.symbolCount
  | star x => x.symbolCount

/-- The symbols of the tree, from left to right. -/
def symbols : Regex α → List α
  | empty => []
  | epsilon => []
  | symbol a => [a]
  | concat x y => x.symbols ++ y.symbols
  | union x y => x.symbols ++ y.symbols
  | star x => x.symbols

/-- Whether the tree has no `star` node. -/
def starFree : Regex α → Bool
  | empty => true
  | epsilon => true
  | symbol _ => true
  | concat x y => x.starFree && y.starFree
  | union x y => x.starFree && y.starFree
  | star _ => false

/-- The regex of one word: its symbols in order, nested to the right, and
`epsilon` at the end. -/
def ofWord : Word α → Regex α
  | [] => epsilon
  | a :: w => concat (symbol a) (ofWord w)

/-- Two trees compare equal when they have the same shape and their symbols
compare equal place by place. -/
protected def beq [BEq α] : Regex α → Regex α → Bool
  | empty, empty => true
  | epsilon, epsilon => true
  | symbol a, symbol b => a == b
  | concat x y, concat x' y' => x.beq x' && y.beq y'
  | union x y, union x' y' => x.beq x' && y.beq y'
  | star x, star x' => x.beq x'
  | _, _ => false

instance [BEq α] : BEq (Regex α) := ⟨Regex.beq⟩

@[simp] theorem size_empty : (empty : Regex α).size = 1 := rfl
@[simp] theorem size_epsilon : (epsilon : Regex α).size = 1 := rfl
@[simp] theorem size_symbol (a : α) : (symbol a).size = 1 := rfl

@[simp] theorem size_concat (x y : Regex α) :
    (concat x y).size = 1 + x.size + y.size := rfl

@[simp] theorem size_union (x y : Regex α) :
    (union x y).size = 1 + x.size + y.size := rfl

@[simp] theorem size_star (x : Regex α) : (star x).size = 1 + x.size := rfl

/-- Every tree has a node. -/
theorem size_pos (r : Regex α) : 0 < r.size := by
  cases r <;> simp only [size] <;> omega

theorem symbol_ne_empty (a : α) : symbol a ≠ empty := nofun
theorem symbol_ne_epsilon (a : α) : symbol a ≠ epsilon := nofun
theorem concat_ne_empty (x y : Regex α) : concat x y ≠ empty := nofun
theorem union_ne_empty (x y : Regex α) : union x y ≠ empty := nofun
theorem star_ne_empty (x : Regex α) : star x ≠ empty := nofun
theorem star_ne_epsilon (x : Regex α) : star x ≠ epsilon := nofun

@[simp] theorem isEmpty_empty : (empty : Regex α).isEmpty = true := rfl
@[simp] theorem isEmpty_epsilon : (epsilon : Regex α).isEmpty = false := rfl

theorem isEmpty_iff {r : Regex α} : r.isEmpty = true ↔ r = empty := by
  cases r <;> simp [isEmpty]

theorem isEpsilon_iff {r : Regex α} : r.isEpsilon = true ↔ r = epsilon := by
  cases r <;> simp [isEpsilon]

theorem isEmpty_eq_false_iff {r : Regex α} : r.isEmpty = false ↔ r ≠ empty := by
  rw [← Bool.not_eq_true, isEmpty_iff]

theorem isEpsilon_eq_false_iff {r : Regex α} : r.isEpsilon = false ↔ r ≠ epsilon := by
  rw [← Bool.not_eq_true, isEpsilon_iff]

@[simp] theorem ofWord_nil : ofWord ([] : Word α) = epsilon := rfl

@[simp] theorem ofWord_cons (a : α) (w : Word α) :
    ofWord (a :: w) = concat (symbol a) (ofWord w) := rfl

/-- The regex of a word has two nodes for each symbol and one at the end. -/
theorem size_ofWord (w : Word α) : (ofWord w).size = 2 * w.length + 1 := by
  induction w with
  | nil => rfl
  | cons a w ih =>
      simp [ih]
      omega

theorem symbols_ofWord (w : Word α) : (ofWord w).symbols = w := by
  induction w with
  | nil => rfl
  | cons a w ih => simp [symbols, ih]

end Regex
end RegexDerivatives
