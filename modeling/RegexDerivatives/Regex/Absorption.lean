import RegexDerivatives.Regex.Basic

/-!
# Absorption as a reduction relation

One absorption removes an `empty` or `epsilon` at one place of a tree, under
stars as well.  A tree is saturated when no absorption is possible anywhere; the
main statement is that this can be read off its nodes.
-/

namespace RegexDerivatives

universe u

namespace Regex

variable {α : Type u}

/-- The second tree results from the first by one absorption at one place. -/
inductive Absorbs : Regex α → Regex α → Prop where
  | emptyConcat (y : Regex α) : Absorbs (concat empty y) empty
  | concatEmpty (x : Regex α) : Absorbs (concat x empty) empty
  | epsilonConcat (y : Regex α) : Absorbs (concat epsilon y) y
  | concatEpsilon (x : Regex α) : Absorbs (concat x epsilon) x
  | emptyUnion (y : Regex α) : Absorbs (union empty y) y
  | unionEmpty (x : Regex α) : Absorbs (union x empty) x
  | concatLeft {x x' : Regex α} (y : Regex α) (h : Absorbs x x') :
      Absorbs (concat x y) (concat x' y)
  | concatRight (x : Regex α) {y y' : Regex α} (h : Absorbs y y') :
      Absorbs (concat x y) (concat x y')
  | unionLeft {x x' : Regex α} (y : Regex α) (h : Absorbs x x') :
      Absorbs (union x y) (union x' y)
  | unionRight (x : Regex α) {y y' : Regex α} (h : Absorbs y y') :
      Absorbs (union x y) (union x y')
  | starBody {x x' : Regex α} (h : Absorbs x x') : Absorbs (star x) (star x')

/-- No absorption is possible. -/
def Saturated (r : Regex α) : Prop :=
  ∀ r', ¬ Absorbs r r'

/-- No concatenation in the tree has a child `empty` or `epsilon`, and no union
a child `empty`. -/
def isSaturated : Regex α → Bool
  | empty => true
  | epsilon => true
  | symbol _ => true
  | concat x y =>
      !x.isEmpty && !x.isEpsilon && !y.isEmpty && !y.isEpsilon && x.isSaturated && y.isSaturated
  | union x y => !x.isEmpty && !y.isEmpty && x.isSaturated && y.isSaturated
  | star x => x.isSaturated

/-- Each absorption removes a node. -/
theorem Absorbs.size_lt {r r' : Regex α} (h : Absorbs r r') : r'.size < r.size := by
  induction h with
  | emptyConcat y => simp only [size_concat, size_empty]; omega
  | concatEmpty x => simp only [size_concat, size_empty]; omega
  | epsilonConcat y => simp only [size_concat]; omega
  | concatEpsilon x => simp only [size_concat]; omega
  | emptyUnion y => simp only [size_union]; omega
  | unionEmpty x => simp only [size_union]; omega
  | concatLeft y h ih => simp only [size_concat]; omega
  | concatRight x h ih => simp only [size_concat]; omega
  | unionLeft y h ih => simp only [size_union]; omega
  | unionRight x h ih => simp only [size_union]; omega
  | starBody h ih => simp only [size_star]; omega

theorem Absorbs.isSaturated_eq_false {r r' : Regex α} (h : Absorbs r r') :
    r.isSaturated = false := by
  induction h <;> simp_all [isSaturated, isEmpty, isEpsilon]

theorem Saturated.isSaturated {r : Regex α} (h : r.Saturated) : r.isSaturated = true := by
  induction r with
  | empty => rfl
  | epsilon => rfl
  | symbol a => rfl
  | concat x y ihx ihy =>
      have hx : x ≠ empty := by
        rintro rfl
        exact h _ (.emptyConcat y)
      have hx' : x ≠ epsilon := by
        rintro rfl
        exact h _ (.epsilonConcat y)
      have hy : y ≠ empty := by
        rintro rfl
        exact h _ (.concatEmpty x)
      have hy' : y ≠ epsilon := by
        rintro rfl
        exact h _ (.concatEpsilon x)
      have hsx := ihx fun x' hx => h _ (.concatLeft y hx)
      have hsy := ihy fun y' hy => h _ (.concatRight x hy)
      simp [Regex.isSaturated, isEmpty_eq_false_iff.2 hx, isEpsilon_eq_false_iff.2 hx',
        isEmpty_eq_false_iff.2 hy, isEpsilon_eq_false_iff.2 hy', hsx, hsy]
  | union x y ihx ihy =>
      have hx : x ≠ empty := by
        rintro rfl
        exact h _ (.emptyUnion y)
      have hy : y ≠ empty := by
        rintro rfl
        exact h _ (.unionEmpty x)
      have hsx := ihx fun x' hx => h _ (.unionLeft y hx)
      have hsy := ihy fun y' hy => h _ (.unionRight x hy)
      simp [Regex.isSaturated, isEmpty_eq_false_iff.2 hx, isEmpty_eq_false_iff.2 hy, hsx, hsy]
  | star x ih => exact ih fun x' hx => h _ (.starBody hx)

/-- No absorption is possible exactly when no node has a child to absorb. -/
theorem saturated_iff {r : Regex α} : r.Saturated ↔ r.isSaturated = true := by
  constructor
  · exact Saturated.isSaturated
  · intro h r' hr
    rw [hr.isSaturated_eq_false] at h
    contradiction

end Regex
end RegexDerivatives
