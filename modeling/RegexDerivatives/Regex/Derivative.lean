import RegexDerivatives.Regex.Basic

/-!
# Derivatives

The derivative of a regex by a symbol describes what may follow that symbol: a
word belongs to it exactly when the symbol followed by the word belongs to the
regex.  The trees built here are not simplified.
-/

namespace RegexDerivatives

universe u

namespace Regex

variable {α : Type u}

/-- Whether the regex describes the empty word. -/
def nullable : Regex α → Bool
  | empty => false
  | epsilon => true
  | symbol _ => false
  | concat x y => x.nullable && y.nullable
  | union x y => x.nullable || y.nullable
  | star _ => true

/-- The part of a regex that describes the empty word: `epsilon` when it is
described and `empty` when it is not. -/
def epsilonPart (r : Regex α) : Regex α :=
  if r.nullable then epsilon else empty

/-- The derivative of a regex by a symbol.  In a concatenation the symbol is
either read by the second part, after an empty first word, or by the first part;
both possibilities are kept. -/
def derivative [BEq α] (r : Regex α) (s : α) : Regex α :=
  match r with
  | empty => empty
  | epsilon => empty
  | symbol a => if a == s then epsilon else empty
  | concat x y =>
      union (concat x.epsilonPart (y.derivative s)) (concat (x.derivative s) y)
  | union x y => union (x.derivative s) (y.derivative s)
  | star x => concat (x.derivative s) (star x)

/-- The derivative of a regex by the symbols of a word in turn. -/
def derivativeBy [BEq α] (r : Regex α) (w : Word α) : Regex α :=
  w.foldl derivative r

/-- The regexes met when a step is repeated along a word, one after each
symbol. -/
def trail (step : Regex α → α → Regex α) (r : Regex α) : Word α → List (Regex α)
  | [] => []
  | s :: w => step r s :: trail step (step r s) w

@[simp] theorem nullable_empty : (empty : Regex α).nullable = false := rfl
@[simp] theorem nullable_epsilon : (epsilon : Regex α).nullable = true := rfl
@[simp] theorem nullable_symbol (a : α) : (symbol a).nullable = false := rfl

@[simp] theorem nullable_concat (x y : Regex α) :
    (concat x y).nullable = (x.nullable && y.nullable) := rfl

@[simp] theorem nullable_union (x y : Regex α) :
    (union x y).nullable = (x.nullable || y.nullable) := rfl

@[simp] theorem nullable_star (x : Regex α) : (star x).nullable = true := rfl

theorem epsilonPart_of_nullable {r : Regex α} (h : r.nullable = true) :
    r.epsilonPart = epsilon :=
  if_pos h

theorem epsilonPart_of_not_nullable {r : Regex α} (h : r.nullable = false) :
    r.epsilonPart = empty := by
  rw [epsilonPart, h]
  rfl

@[simp] theorem nullable_epsilonPart (r : Regex α) :
    r.epsilonPart.nullable = r.nullable := by
  cases h : r.nullable <;> simp [epsilonPart, h]

theorem size_epsilonPart (r : Regex α) : r.epsilonPart.size = 1 := by
  cases h : r.nullable with
  | true => rw [epsilonPart_of_nullable h, size_epsilon]
  | false => rw [epsilonPart_of_not_nullable h, size_empty]

theorem symbols_epsilonPart (r : Regex α) : r.epsilonPart.symbols = [] := by
  cases h : r.nullable with
  | true =>
      rw [epsilonPart_of_nullable h]
      rfl
  | false =>
      rw [epsilonPart_of_not_nullable h]
      rfl

section Comparison

variable [BEq α]

@[simp] theorem derivative_empty (s : α) : (empty : Regex α).derivative s = empty := rfl

@[simp] theorem derivative_epsilon (s : α) : (epsilon : Regex α).derivative s = empty := rfl

theorem derivative_symbol (a s : α) :
    (symbol a).derivative s = if a == s then epsilon else empty := rfl

theorem size_derivative_symbol (a s : α) : ((symbol a).derivative s).size = 1 := by
  rw [derivative_symbol]
  split
  · rfl
  · rfl

@[simp] theorem derivative_concat (x y : Regex α) (s : α) :
    (concat x y).derivative s =
      union (concat x.epsilonPart (y.derivative s)) (concat (x.derivative s) y) := rfl

@[simp] theorem derivative_union (x y : Regex α) (s : α) :
    (union x y).derivative s = union (x.derivative s) (y.derivative s) := rfl

@[simp] theorem derivative_star (x : Regex α) (s : α) :
    (star x).derivative s = concat (x.derivative s) (star x) := rfl

@[simp] theorem derivativeBy_nil (r : Regex α) : r.derivativeBy [] = r := rfl

@[simp] theorem derivativeBy_cons (r : Regex α) (s : α) (w : Word α) :
    r.derivativeBy (s :: w) = (r.derivative s).derivativeBy w := rfl

@[simp] theorem derivativeBy_empty (w : Word α) :
    (empty : Regex α).derivativeBy w = empty := by
  induction w with
  | nil => rfl
  | cons s w ih => exact ih

theorem derivativeBy_union (x y : Regex α) (w : Word α) :
    (union x y).derivativeBy w = union (x.derivativeBy w) (y.derivativeBy w) := by
  induction w generalizing x y with
  | nil => rfl
  | cons s w ih => exact ih (x.derivative s) (y.derivative s)

theorem derivativeBy_append (r : Regex α) (v w : Word α) :
    r.derivativeBy (v ++ w) = (r.derivativeBy v).derivativeBy w :=
  List.foldl_append

/-- A derivative has no symbols of its own. -/
theorem symbols_derivative_subset (r : Regex α) (s : α) :
    (r.derivative s).symbols ⊆ r.symbols := by
  induction r with
  | empty => exact List.Subset.refl _
  | epsilon => exact List.Subset.refl _
  | symbol a =>
      rw [derivative_symbol]
      split
      · exact List.nil_subset _
      · exact List.nil_subset _
  | concat x y ihx ihy =>
      -- The second part stands in both alternatives, once as a derivative.
      simp only [derivative_concat, symbols, symbols_epsilonPart, List.nil_append]
      exact List.append_subset.2 ⟨List.subset_append_of_subset_right _ ihy,
        List.append_subset.2 ⟨List.subset_append_of_subset_left _ ihx,
          List.subset_append_right _ _⟩⟩
  | union x y ihx ihy =>
      simp only [derivative_union, symbols]
      exact List.append_subset.2 ⟨List.subset_append_of_subset_left _ ihx,
        List.subset_append_of_subset_right _ ihy⟩
  | star x ih =>
      simp only [derivative_star, symbols]
      exact List.append_subset.2 ⟨ih, List.Subset.refl _⟩

theorem symbols_derivativeBy_subset (r : Regex α) (w : Word α) :
    (r.derivativeBy w).symbols ⊆ r.symbols := by
  induction w generalizing r with
  | nil => exact List.Subset.refl _
  | cons s w ih => exact List.Subset.trans (ih (r.derivative s)) (symbols_derivative_subset r s)

end Comparison

/-- The trail ends where the repeated step ends. -/
theorem getLastD_trail (step : Regex α → α → Regex α) (r : Regex α) (w : Word α) :
    (trail step r w).getLastD r = w.foldl step r := by
  induction w generalizing r with
  | nil => rfl
  | cons s w ih =>
      rw [trail, List.getLastD_cons, ih, List.foldl_cons]

end Regex
end RegexDerivatives
