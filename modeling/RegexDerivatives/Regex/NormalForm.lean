import RegexDerivatives.Regex.Derivative

/-!
# Normal forms

A regex is simplified from the leaves upwards by absorbing `empty` and `epsilon`
where they cannot change the described words.  A derivative that is simplified
at once is the residual of the regex; residuals along a word stay small where
derivatives grow with every symbol.
-/

namespace RegexDerivatives

universe u

namespace Regex

variable {α : Type u}

/-- The concatenation of two regexes, with `empty` absorbing its neighbour and
`epsilon` absorbed by it. -/
def absorbConcat : Regex α → Regex α → Regex α
  | empty, _ => empty
  | _, empty => empty
  | epsilon, y => y
  | x, epsilon => x
  | x, y => concat x y

/-- The union of two regexes, with `empty` absorbed by its neighbour. -/
def absorbUnion : Regex α → Regex α → Regex α
  | empty, y => y
  | x, empty => x
  | x, y => union x y

/-- The regex with every absorption carried out.  A star is kept whatever its
body, because even the star of `empty` describes the empty word. -/
def normalForm : Regex α → Regex α
  | empty => empty
  | epsilon => epsilon
  | symbol a => symbol a
  | concat x y => absorbConcat x.normalForm y.normalForm
  | union x y => absorbUnion x.normalForm y.normalForm
  | star x => star x.normalForm

/-- Whether the regex describes no word, whatever its symbols compare equal to. -/
def barren : Regex α → Bool
  | empty => true
  | epsilon => false
  | symbol _ => false
  | concat x y => x.barren || y.barren
  | union x y => x.barren && y.barren
  | star _ => false

/-- The simplified derivative of a regex by a symbol. -/
def residual [BEq α] (r : Regex α) (s : α) : Regex α :=
  (r.derivative s).normalForm

/-- The residual of a regex by the symbols of a word in turn, simplified after
each symbol. -/
def residualBy [BEq α] (r : Regex α) (w : Word α) : Regex α :=
  w.foldl residual r

@[simp] theorem normalForm_empty : (empty : Regex α).normalForm = empty := rfl
@[simp] theorem normalForm_epsilon : (epsilon : Regex α).normalForm = epsilon := rfl

@[simp] theorem normalForm_symbol (a : α) : (symbol a).normalForm = symbol a := rfl

@[simp] theorem normalForm_concat (x y : Regex α) :
    (concat x y).normalForm = absorbConcat x.normalForm y.normalForm := rfl

@[simp] theorem normalForm_union (x y : Regex α) :
    (union x y).normalForm = absorbUnion x.normalForm y.normalForm := rfl

@[simp] theorem normalForm_star (x : Regex α) :
    (star x).normalForm = star x.normalForm := rfl

@[simp] theorem absorbConcat_empty_left (y : Regex α) : absorbConcat empty y = empty := rfl

@[simp] theorem absorbConcat_empty_right (x : Regex α) : absorbConcat x empty = empty := by
  cases x <;> rfl

@[simp] theorem absorbConcat_epsilon_left (y : Regex α) : absorbConcat epsilon y = y := by
  cases y <;> rfl

@[simp] theorem absorbConcat_epsilon_right (x : Regex α) : absorbConcat x epsilon = x := by
  cases x <;> rfl

/-- Between regexes that are neither `empty` nor `epsilon` nothing is
absorbed. -/
theorem absorbConcat_eq_concat {x y : Regex α} (hx : x ≠ empty) (hx' : x ≠ epsilon)
    (hy : y ≠ empty) (hy' : y ≠ epsilon) : absorbConcat x y = concat x y := by
  cases x <;> cases y <;> simp_all [absorbConcat]

@[simp] theorem absorbUnion_empty_left (y : Regex α) : absorbUnion empty y = y := rfl

@[simp] theorem absorbUnion_empty_right (x : Regex α) : absorbUnion x empty = x := by
  cases x <;> rfl

/-- Between regexes other than `empty` nothing is absorbed. -/
theorem absorbUnion_eq_union {x y : Regex α} (hx : x ≠ empty) (hy : y ≠ empty) :
    absorbUnion x y = union x y := by
  cases x <;> cases y <;> simp_all [absorbUnion]

theorem isEmpty_absorbConcat (x y : Regex α) :
    (absorbConcat x y).isEmpty = (x.isEmpty || y.isEmpty) := by
  fun_cases absorbConcat x y with
  | case1 y => rfl
  | case2 x hx => rw [isEmpty_empty, Bool.or_true]
  | case3 y hy => rw [isEmpty_epsilon, Bool.false_or]
  | case4 x hx hx' => rw [isEmpty_epsilon, Bool.or_false]
  | case5 x y hx hy hx' hy' =>
      have hleft : x.isEmpty = false := isEmpty_eq_false_iff.2 hx
      have hright : y.isEmpty = false := isEmpty_eq_false_iff.2 hy
      rw [hleft, hright]
      rfl

theorem isEmpty_absorbUnion (x y : Regex α) :
    (absorbUnion x y).isEmpty = (x.isEmpty && y.isEmpty) := by
  fun_cases absorbUnion x y with
  | case1 y => rfl
  | case2 x hx => rw [isEmpty_empty, Bool.and_true]
  | case3 x y hx hy =>
      have hleft : x.isEmpty = false := isEmpty_eq_false_iff.2 hx
      rw [hleft]
      rfl

/-- The normal form of a regex is `empty` exactly when the regex is barren. -/
theorem isEmpty_normalForm (r : Regex α) : r.normalForm.isEmpty = r.barren := by
  induction r with
  | empty => rfl
  | epsilon => rfl
  | symbol a => rfl
  | concat x y ihx ihy => rw [normalForm_concat, isEmpty_absorbConcat, ihx, ihy, barren]
  | union x y ihx ihy => rw [normalForm_union, isEmpty_absorbUnion, ihx, ihy, barren]
  | star x ih => rfl

theorem size_absorbConcat_le (x y : Regex α) :
    (absorbConcat x y).size ≤ 1 + x.size + y.size := by
  fun_cases absorbConcat x y with
  | case1 y => rw [size_empty]; omega
  | case2 x hx => rw [size_empty]; omega
  | case3 y hy => omega
  | case4 x hx hx' => omega
  | case5 x y hx hy hx' hy' => exact Nat.le_refl _

theorem size_absorbUnion_le (x y : Regex α) :
    (absorbUnion x y).size ≤ 1 + x.size + y.size := by
  fun_cases absorbUnion x y with
  | case1 y => omega
  | case2 x hx => omega
  | case3 x y hx hy => exact Nat.le_refl _

/-- Absorption adds no nodes. -/
theorem size_normalForm_le (r : Regex α) : r.normalForm.size ≤ r.size := by
  induction r with
  | empty => exact Nat.le_refl 1
  | epsilon => exact Nat.le_refl 1
  | symbol a => exact Nat.le_refl 1
  | concat x y ihx ihy =>
      have h := size_absorbConcat_le x.normalForm y.normalForm
      rw [normalForm_concat, size_concat]
      omega
  | union x y ihx ihy =>
      have h := size_absorbUnion_le x.normalForm y.normalForm
      rw [normalForm_union, size_union]
      omega
  | star x ih =>
      rw [normalForm_star, size_star, size_star]
      omega

theorem symbols_absorbConcat_sublist (x y : Regex α) :
    (absorbConcat x y).symbols.Sublist (x.symbols ++ y.symbols) := by
  fun_cases absorbConcat x y with
  | case1 y => exact List.nil_sublist _
  | case2 x hx => exact List.nil_sublist _
  | case3 y hy => exact List.sublist_append_right _ _
  | case4 x hx hx' => exact List.sublist_append_left _ _
  | case5 x y hx hy hx' hy' => exact List.Sublist.refl _

theorem symbols_absorbUnion_sublist (x y : Regex α) :
    (absorbUnion x y).symbols.Sublist (x.symbols ++ y.symbols) := by
  fun_cases absorbUnion x y with
  | case1 y => exact List.sublist_append_right _ _
  | case2 x hx => exact List.sublist_append_left _ _
  | case3 x y hx hy => exact List.Sublist.refl _

/-- Absorption drops symbols and leaves the others in their order. -/
theorem symbols_normalForm_sublist (r : Regex α) : r.normalForm.symbols.Sublist r.symbols := by
  induction r with
  | empty => exact List.Sublist.refl _
  | epsilon => exact List.Sublist.refl _
  | symbol a => exact List.Sublist.refl _
  | concat x y ihx ihy => exact (symbols_absorbConcat_sublist _ _).trans (ihx.append ihy)
  | union x y ihx ihy => exact (symbols_absorbUnion_sublist _ _).trans (ihx.append ihy)
  | star x ih => exact ih

theorem nullable_absorbConcat (x y : Regex α) :
    (absorbConcat x y).nullable = (x.nullable && y.nullable) := by
  fun_cases absorbConcat x y with
  | case1 y => rfl
  | case2 x hx => rw [nullable_empty, Bool.and_false]
  | case3 y hy => rw [nullable_epsilon, Bool.true_and]
  | case4 x hx hx' => rw [nullable_epsilon, Bool.and_true]
  | case5 x y hx hy hx' hy' => rfl

theorem nullable_absorbUnion (x y : Regex α) :
    (absorbUnion x y).nullable = (x.nullable || y.nullable) := by
  fun_cases absorbUnion x y with
  | case1 y => rw [nullable_empty, Bool.false_or]
  | case2 x hx => rw [nullable_empty, Bool.or_false]
  | case3 x y hx hy => rfl

@[simp] theorem nullable_normalForm (r : Regex α) : r.normalForm.nullable = r.nullable := by
  induction r with
  | empty => rfl
  | epsilon => rfl
  | symbol a => rfl
  | concat x y ihx ihy =>
      rw [normalForm_concat, nullable_absorbConcat, ihx, ihy, nullable_concat]
  | union x y ihx ihy =>
      rw [normalForm_union, nullable_absorbUnion, ihx, ihy, nullable_union]
  | star x ih => rfl

@[simp] theorem epsilonPart_normalForm (r : Regex α) :
    r.normalForm.epsilonPart = r.epsilonPart := by
  rw [epsilonPart, nullable_normalForm, epsilonPart]

@[simp] theorem normalForm_epsilonPart (r : Regex α) :
    r.epsilonPart.normalForm = r.epsilonPart := by
  cases h : r.nullable with
  | true => rw [epsilonPart_of_nullable h, normalForm_epsilon]
  | false => rw [epsilonPart_of_not_nullable h, normalForm_empty]

section Comparison

variable [BEq α]

@[simp] theorem residual_empty (s : α) : (empty : Regex α).residual s = empty := rfl

@[simp] theorem residual_epsilon (s : α) : (epsilon : Regex α).residual s = empty := rfl

theorem residual_symbol (a s : α) :
    (symbol a).residual s = if a == s then epsilon else empty := by
  rw [residual, derivative_symbol]
  split
  · rfl
  · rfl

theorem residual_concat (x y : Regex α) (s : α) :
    (concat x y).residual s =
      absorbUnion (absorbConcat x.epsilonPart (y.residual s))
        (absorbConcat (x.residual s) y.normalForm) := by
  rw [residual, derivative_concat, normalForm_union, normalForm_concat, normalForm_concat,
    normalForm_epsilonPart]
  rfl

theorem residual_union (x y : Regex α) (s : α) :
    (union x y).residual s = absorbUnion (x.residual s) (y.residual s) := rfl

theorem residual_star (x : Regex α) (s : α) :
    (star x).residual s = absorbConcat (x.residual s) (star x.normalForm) := rfl

@[simp] theorem residualBy_nil (r : Regex α) : r.residualBy [] = r := rfl

@[simp] theorem residualBy_cons (r : Regex α) (s : α) (w : Word α) :
    r.residualBy (s :: w) = (r.residual s).residualBy w := rfl

@[simp] theorem residualBy_empty (w : Word α) : (empty : Regex α).residualBy w = empty := by
  induction w with
  | nil => rfl
  | cons s w ih => exact ih

theorem residualBy_append (r : Regex α) (v w : Word α) :
    r.residualBy (v ++ w) = (r.residualBy v).residualBy w :=
  List.foldl_append

theorem symbols_residual_subset (r : Regex α) (s : α) : (r.residual s).symbols ⊆ r.symbols := by
  have habsorb : (r.residual s).symbols ⊆ (r.derivative s).symbols :=
    (symbols_normalForm_sublist (r.derivative s)).subset
  exact List.Subset.trans habsorb (symbols_derivative_subset r s)

/-- The residuals of a regex have no symbols of their own. -/
theorem symbols_residualBy_subset (r : Regex α) (w : Word α) :
    (r.residualBy w).symbols ⊆ r.symbols := by
  induction w generalizing r with
  | nil => exact List.Subset.refl _
  | cons s w ih => exact List.Subset.trans (ih (r.residual s)) (symbols_residual_subset r s)

end Comparison

end Regex
end RegexDerivatives
