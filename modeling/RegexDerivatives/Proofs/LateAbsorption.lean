import RegexDerivatives.Proofs.Recognition

/-!
# Absorbing late

Residuals absorb after every symbol.  This file shows that the trees are the same,
node by node, when nothing is absorbed before the end of the word.  An absorption at
the root commutes with the residual by a symbol; by induction the residual of a normal
form is the residual of the regex itself, and normal forms along a word forget
everything about a regex but its normal form.
-/

namespace RegexDerivatives

universe u

namespace Regex

variable {α : Type u}

/-! ## Normal forms of absorptions -/

theorem normalForm_absorbConcat (x y : Regex α) :
    (absorbConcat x y).normalForm = absorbConcat x.normalForm y.normalForm := by
  fun_cases absorbConcat x y with
  | case1 y => rfl
  | case2 x hx => rw [normalForm_empty, absorbConcat_empty_right]
  | case3 y hy => rw [normalForm_epsilon, absorbConcat_epsilon_left]
  | case4 x hx hx' => rw [normalForm_epsilon, absorbConcat_epsilon_right]
  | case5 x y hx hy hx' hy' => rfl

theorem normalForm_absorbUnion (x y : Regex α) :
    (absorbUnion x y).normalForm = absorbUnion x.normalForm y.normalForm := by
  fun_cases absorbUnion x y with
  | case1 y => rfl
  | case2 x hx => rw [normalForm_empty, absorbUnion_empty_right]
  | case3 x y hx hy => rfl

/-- Nothing is left to absorb in a normal form. -/
theorem normalForm_normalForm (r : Regex α) : r.normalForm.normalForm = r.normalForm := by
  induction r with
  | empty => rfl
  | epsilon => rfl
  | symbol a => rfl
  | concat x y ihx ihy => rw [normalForm_concat, normalForm_absorbConcat, ihx, ihy]
  | union x y ihx ihy => rw [normalForm_union, normalForm_absorbUnion, ihx, ihy]
  | star x ih => rw [normalForm_star, normalForm_star, ih]

/-! ## Residuals of absorptions -/

variable [BEq α]

theorem residual_absorbConcat (x y : Regex α) (s : α) :
    (absorbConcat x y).residual s = (concat x y).residual s := by
  rw [residual_concat]
  fun_cases absorbConcat x y with
  | case1 y =>
      have h : (empty : Regex α).epsilonPart = empty := rfl
      rw [h, residual_empty, absorbConcat_empty_left, absorbConcat_empty_left,
        absorbUnion_empty_left]
  | case2 x hx =>
      rw [residual_empty, normalForm_empty, absorbConcat_empty_right, absorbConcat_empty_right,
        absorbUnion_empty_left]
  | case3 y hy =>
      have h : (epsilon : Regex α).epsilonPart = epsilon := rfl
      rw [h, residual_epsilon, absorbConcat_epsilon_left, absorbConcat_empty_left,
        absorbUnion_empty_right]
  | case4 x hx hx' =>
      rw [residual_epsilon, normalForm_epsilon, absorbConcat_empty_right,
        absorbConcat_epsilon_right, absorbUnion_empty_left]
  | case5 x y hx hy hx' hy' => rw [residual_concat]

theorem residual_absorbUnion (x y : Regex α) (s : α) :
    (absorbUnion x y).residual s = (union x y).residual s := by
  rw [residual_union]
  fun_cases absorbUnion x y with
  | case1 y => rw [residual_empty, absorbUnion_empty_left]
  | case2 x hx => rw [residual_empty, absorbUnion_empty_right]
  | case3 x y hx hy => rw [residual_union]

/-- The residual of a regex depends on its normal form alone. -/
theorem residual_normalForm (r : Regex α) (s : α) : r.normalForm.residual s = r.residual s := by
  induction r with
  | empty => rfl
  | epsilon => rfl
  | symbol a => rfl
  | concat x y ihx ihy =>
      -- The second part stays as it was in one alternative, and there its normal form
      -- is taken twice.
      rw [normalForm_concat, residual_absorbConcat, residual_concat, residual_concat,
        epsilonPart_normalForm, ihx, ihy, normalForm_normalForm]
  | union x y ihx ihy =>
      rw [normalForm_union, residual_absorbUnion, residual_union, residual_union, ihx, ihy]
  | star x ih =>
      rw [normalForm_star, residual_star, residual_star, ih, normalForm_normalForm]

/-! ## Along a word -/

theorem residualBy_normalForm_cons (r : Regex α) (s : α) (w : Word α) :
    r.normalForm.residualBy (s :: w) = r.residualBy (s :: w) := by
  rw [residualBy_cons, residual_normalForm, residualBy_cons]

/-- What is absorbed before the first symbol of a word makes no difference after
the last one. -/
theorem normalForm_derivativeBy_congr {r r' : Regex α} (h : r.normalForm = r'.normalForm)
    (w : Word α) : (r.derivativeBy w).normalForm = (r'.derivativeBy w).normalForm := by
  induction w generalizing r r' with
  | nil => exact h
  | cons s w ih =>
      have hs : (r.derivative s).normalForm = (r'.derivative s).normalForm := by
        change r.residual s = r'.residual s
        rw [← residual_normalForm r, ← residual_normalForm r', h]
      exact ih hs

theorem normalForm_derivativeBy_of_barren {r : Regex α} (h : r.barren = true) (w : Word α) :
    (r.derivativeBy w).normalForm = empty := by
  have hr : r.normalForm = (empty : Regex α).normalForm := by
    rw [normalForm_empty, ← isEmpty_iff, isEmpty_normalForm, h]
  rw [normalForm_derivativeBy_congr hr, derivativeBy_empty, normalForm_empty]

/-- The alternative in which the first part of a concatenation has been left remains
only when it can be left. -/
theorem normalForm_derivativeBy_epsilonPart_concat (x z : Regex α) (p w : Word α) :
    ((concat (x.derivativeBy p).epsilonPart z).derivativeBy w).normalForm =
      if x.Describes p then (z.derivativeBy w).normalForm else empty := by
  by_cases hp : x.Describes p
  · have hleft : (concat (x.derivativeBy p).epsilonPart z).normalForm = z.normalForm := by
      rw [epsilonPart_of_nullable (nullable_derivativeBy_iff.2 hp), normalForm_concat,
        normalForm_epsilon, absorbConcat_epsilon_left]
    rw [if_pos hp, normalForm_derivativeBy_congr hleft]
  · have hnullable : (x.derivativeBy p).nullable = false := by
      rw [← Bool.not_eq_true, nullable_derivativeBy_iff]
      exact hp
    have hbarren : (concat (x.derivativeBy p).epsilonPart z).barren = true := by
      rw [epsilonPart_of_not_nullable hnullable]
      rfl
    rw [if_neg hp, normalForm_derivativeBy_of_barren hbarren]

/-- A concatenation whose first part has read `p` either leaves that part before the
next symbol or lets it read the symbol as well. -/
theorem normalForm_derivativeBy_concat_cons (x y : Regex α) (p : Word α) (s : α) (w : Word α) :
    ((concat (x.derivativeBy p) y).derivativeBy (s :: w)).normalForm =
      absorbUnion (if x.Describes p then (y.derivativeBy (s :: w)).normalForm else empty)
        ((concat (x.derivativeBy (p ++ [s])) y).derivativeBy w).normalForm := by
  have hstep : (x.derivativeBy p).derivative s = x.derivativeBy (p ++ [s]) :=
    (derivativeBy_append x p [s]).symm
  rw [derivativeBy_cons, derivative_concat, derivativeBy_union, normalForm_union, hstep,
    normalForm_derivativeBy_epsilonPart_concat]
  rfl

/-- The residual by a word of at least one symbol is the normal form of the
derivative by the word. -/
theorem residualBy_cons_eq_normalForm (r : Regex α) (s : α) (w : Word α) :
    r.residualBy (s :: w) = (r.derivativeBy (s :: w)).normalForm := by
  -- Induction from the front: the absorption after the first symbol is the one that
  -- has to be shown superfluous.
  induction w generalizing r s with
  | nil => rfl
  | cons t w ih =>
      have hs : (r.residual s).normalForm = (r.derivative s).normalForm :=
        normalForm_normalForm (r.derivative s)
      calc
        r.residualBy (s :: t :: w) = (r.residual s).residualBy (t :: w) := rfl
        _ = ((r.residual s).derivativeBy (t :: w)).normalForm := ih (r.residual s) t
        _ = ((r.derivative s).derivativeBy (t :: w)).normalForm :=
            normalForm_derivativeBy_congr hs (t :: w)
        _ = (r.derivativeBy (s :: t :: w)).normalForm := rfl

theorem map_normalForm_trail_congr {r r' : Regex α} (h : r.normalForm = r'.normalForm)
    (w : Word α) :
    (trail derivative r w).map normalForm = (trail derivative r' w).map normalForm := by
  induction w generalizing r r' with
  | nil => rfl
  | cons s w ih =>
      have hs : (r.derivative s).normalForm = (r'.derivative s).normalForm :=
        normalForm_derivativeBy_congr h [s]
      rw [trail, trail, List.map_cons, List.map_cons, hs, ih hs]

/-- The residuals met along a word are the normal forms of the derivatives met. -/
theorem trail_residual (r : Regex α) (w : Word α) :
    trail residual r w = (trail derivative r w).map normalForm := by
  induction w generalizing r with
  | nil => rfl
  | cons s w ih =>
      have hs : (r.residual s).normalForm = (r.derivative s).normalForm :=
        normalForm_normalForm (r.derivative s)
      calc
        trail residual r (s :: w) = r.residual s :: trail residual (r.residual s) w := rfl
        _ = r.residual s :: (trail derivative (r.residual s) w).map normalForm := by rw [ih]
        _ = r.residual s :: (trail derivative (r.derivative s) w).map normalForm := by
            rw [map_normalForm_trail_congr hs]
        _ = (trail derivative r (s :: w)).map normalForm := rfl

theorem nullable_residualBy (r : Regex α) (w : Word α) :
    (r.residualBy w).nullable = (r.derivativeBy w).nullable := by
  cases w with
  | nil => rfl
  | cons s w => rw [residualBy_cons_eq_normalForm, nullable_normalForm]

/-- Absorbing once at the end of a word gives the same tree as absorbing after
each of its symbols, and as absorbing before the first symbol as well; the answer
for a word needs no absorption at all. -/
theorem absorbing_once_suffices (r : Regex α) :
    (∀ s, (r.normalForm.derivative s).normalForm = (r.derivative s).normalForm) ∧
      (∀ s w,
        ((Recognizer.start r).readAll (s :: w)).current =
            (r.derivativeBy (s :: w)).normalForm ∧
          ((Recognizer.start r.normalForm).readAll (s :: w)).current =
            (r.derivativeBy (s :: w)).normalForm) ∧
      ∀ w, r.accepts w = (r.derivativeBy w).nullable := by
  refine ⟨residual_normalForm r, fun s w => ⟨?_, ?_⟩, fun w => ?_⟩
  · rw [Recognizer.current_readAll_start, residualBy_cons_eq_normalForm]
  · have h : r.normalForm.normalForm = r.normalForm := normalForm_normalForm r
    rw [Recognizer.current_readAll_start, residualBy_cons_eq_normalForm]
    exact normalForm_derivativeBy_congr h (s :: w)
  · rw [accepts_eq_nullable_residualBy, nullable_residualBy]

end Regex
end RegexDerivatives
