import Mathlib.Logic.Relation
import RegexDerivatives.Regex.Absorption
import RegexDerivatives.Proofs.LateAbsorption

/-!
# Normal forms are unique

The normal form of a regex absorbs from the leaves upwards, in one pass.  Here it is compared
with absorptions at single places of the tree, made in any order.

* No sequence of absorptions goes on for ever (`wellFounded_absorbs`).
* The pass is one such sequence (`reflTransGen_normalForm`), and it leaves nothing to absorb
  (`saturated_normalForm`).
* An absorption anywhere in a tree leaves the normal form of the tree as it is
  (`Absorbs.normalForm_eq`), so that all orders come to the same end.
-/

namespace RegexDerivatives

universe u

namespace Regex

open Relation

variable {α : Type u}

/-- Each absorption makes the tree smaller, so there is no infinite sequence of them. -/
theorem wellFounded_absorbs : WellFounded fun r' r : Regex α => Absorbs r r' :=
  Subrelation.wf (fun h => h.size_lt) (measure size).wf

/-! ## The pass is a sequence of absorptions -/

/-- Where single absorptions are possible in both parts of a node, sequences of them are. -/
theorem reflTransGen_node {node : Regex α → Regex α → Regex α}
    (hleft : ∀ {x x' : Regex α} (y : Regex α), Absorbs x x' → Absorbs (node x y) (node x' y))
    (hright : ∀ (x : Regex α) {y y' : Regex α}, Absorbs y y' → Absorbs (node x y) (node x y'))
    {x x' y y' : Regex α} (hx : ReflTransGen Absorbs x x') (hy : ReflTransGen Absorbs y y') :
    ReflTransGen Absorbs (node x y) (node x' y') := by
  have hfirst : ReflTransGen Absorbs (node x y) (node x' y) :=
    hx.lift (fun z => node z y) fun _ _ h => hleft y h
  have hsecond : ReflTransGen Absorbs (node x' y) (node x' y') :=
    hy.lift (node x') fun _ _ h => hright x' h
  exact hfirst.trans hsecond

theorem reflTransGen_absorbConcat (x y : Regex α) :
    ReflTransGen Absorbs (concat x y) (absorbConcat x y) := by
  fun_cases absorbConcat x y with
  | case1 y => exact .single (.emptyConcat y)
  | case2 x hx => exact .single (.concatEmpty x)
  | case3 y hy => exact .single (.epsilonConcat y)
  | case4 x hx hx' => exact .single (.concatEpsilon x)
  | case5 x y hx hy hx' hy' => exact .refl

theorem reflTransGen_absorbUnion (x y : Regex α) :
    ReflTransGen Absorbs (union x y) (absorbUnion x y) := by
  fun_cases absorbUnion x y with
  | case1 y => exact .single (.emptyUnion y)
  | case2 x hx => exact .single (.unionEmpty x)
  | case3 x y hx hy => exact .refl

/-- The normal form is reached by absorptions. -/
theorem reflTransGen_normalForm (r : Regex α) : ReflTransGen Absorbs r r.normalForm := by
  induction r with
  | empty => exact .refl
  | epsilon => exact .refl
  | symbol a => exact .refl
  | concat x y ihx ihy =>
      -- First everything inside the two parts, then what this exposes at the root.
      have hparts : ReflTransGen Absorbs (concat x y) (concat x.normalForm y.normalForm) :=
        reflTransGen_node .concatLeft .concatRight ihx ihy
      exact hparts.trans (reflTransGen_absorbConcat _ _)
  | union x y ihx ihy =>
      have hparts : ReflTransGen Absorbs (union x y) (union x.normalForm y.normalForm) :=
        reflTransGen_node .unionLeft .unionRight ihx ihy
      exact hparts.trans (reflTransGen_absorbUnion _ _)
  | star x ih => exact ih.lift star fun _ _ h => .starBody h

/-! ## The pass leaves nothing to absorb -/

theorem isSaturated_absorbConcat {x y : Regex α} (hx : x.isSaturated = true)
    (hy : y.isSaturated = true) : (absorbConcat x y).isSaturated = true := by
  fun_cases absorbConcat x y with
  | case1 y => rfl
  | case2 x hne => rfl
  | case3 y hne => exact hy
  | case4 x hne hne' => exact hx
  | case5 x y hxe hye hxe' hye' =>
      simp [isSaturated, hx, hy, isEmpty_eq_false_iff.2 hxe, isEpsilon_eq_false_iff.2 hxe',
        isEmpty_eq_false_iff.2 hye, isEpsilon_eq_false_iff.2 hye']

theorem isSaturated_absorbUnion {x y : Regex α} (hx : x.isSaturated = true)
    (hy : y.isSaturated = true) : (absorbUnion x y).isSaturated = true := by
  fun_cases absorbUnion x y with
  | case1 y => exact hy
  | case2 x hne => exact hx
  | case3 x y hxe hye =>
      simp [isSaturated, hx, hy, isEmpty_eq_false_iff.2 hxe, isEmpty_eq_false_iff.2 hye]

theorem isSaturated_normalForm (r : Regex α) : r.normalForm.isSaturated = true := by
  induction r with
  | empty => rfl
  | epsilon => rfl
  | symbol a => rfl
  | concat x y ihx ihy => exact isSaturated_absorbConcat ihx ihy
  | union x y ihx ihy => exact isSaturated_absorbUnion ihx ihy
  | star x ih => exact ih

theorem saturated_normalForm (r : Regex α) : r.normalForm.Saturated :=
  saturated_iff.2 (isSaturated_normalForm r)

/-- A tree is its own normal form exactly when there is nothing to absorb. -/
theorem normalForm_eq_self_iff {r : Regex α} : r.normalForm = r ↔ r.Saturated := by
  constructor
  · intro h
    rw [← h]
    exact saturated_normalForm r
  · intro h
    -- No absorption leads out of the tree, so the sequence to its normal form is empty.
    exact (reflTransGen_iff_eq h).1 (reflTransGen_normalForm r)

/-! ## All orders come to the same end -/

/-- An absorption at any place of a tree leaves its normal form as it is. -/
theorem Absorbs.normalForm_eq {r r' : Regex α} (h : Absorbs r r') :
    r'.normalForm = r.normalForm := by
  induction h with
  | emptyConcat y => rfl
  | concatEmpty x => rw [normalForm_concat, normalForm_empty, absorbConcat_empty_right]
  | epsilonConcat y => rw [normalForm_concat, normalForm_epsilon, absorbConcat_epsilon_left]
  | concatEpsilon x => rw [normalForm_concat, normalForm_epsilon, absorbConcat_epsilon_right]
  | emptyUnion y => rfl
  | unionEmpty x => rw [normalForm_union, normalForm_empty, absorbUnion_empty_right]
  | concatLeft y h ih => rw [normalForm_concat, normalForm_concat, ih]
  | concatRight x h ih => rw [normalForm_concat, normalForm_concat, ih]
  | unionLeft y h ih => rw [normalForm_union, normalForm_union, ih]
  | unionRight x h ih => rw [normalForm_union, normalForm_union, ih]
  | starBody h ih => rw [normalForm_star, normalForm_star, ih]

theorem normalForm_eq_of_reflTransGen {r r' : Regex α} (h : ReflTransGen Absorbs r r') :
    r'.normalForm = r.normalForm := by
  induction h with
  | refl => rfl
  | tail _ hlast ih => rw [hlast.normalForm_eq, ih]

/-- Whatever two sequences of absorptions have made of a tree, further absorptions lead
them together. -/
theorem join_of_reflTransGen {r x y : Regex α} (hx : ReflTransGen Absorbs r x)
    (hy : ReflTransGen Absorbs r y) : Join (ReflTransGen Absorbs) x y := by
  refine ⟨r.normalForm, ?_, ?_⟩
  · rw [← normalForm_eq_of_reflTransGen hx]
    exact reflTransGen_normalForm x
  · rw [← normalForm_eq_of_reflTransGen hy]
    exact reflTransGen_normalForm y

/-- Two trees have the same normal form exactly when absorptions, made and undone, lead from
one to the other. -/
theorem normalForm_eq_iff_eqvGen {r r' : Regex α} :
    r.normalForm = r'.normalForm ↔ EqvGen Absorbs r r' := by
  constructor
  · intro h
    have hr : EqvGen Absorbs r r.normalForm :=
      EqvGen.reflTransGen_le_eqvGen Absorbs _ _ (reflTransGen_normalForm r)
    have hr' : EqvGen Absorbs r' r'.normalForm :=
      EqvGen.reflTransGen_le_eqvGen Absorbs _ _ (reflTransGen_normalForm r')
    rw [h] at hr
    exact hr.trans _ _ _ (hr'.symm _ _)
  · intro h
    induction h with
    | rel x y h => exact h.normalForm_eq.symm
    | refl x => rfl
    | symm x y _ ih => exact ih.symm
    | trans x y z _ _ ihxy ihyz => exact ihxy.trans ihyz

/-- The normal form of a tree is reached by absorptions and leaves nothing to absorb.  It is
the normal form of everything that absorptions make of the tree, and so the only thing they
can end in; a tree is its own normal form exactly when there is nothing to absorb. -/
theorem normalForm_unique (r : Regex α) :
    ReflTransGen Absorbs r r.normalForm ∧
      (r.normalForm.Saturated ∧ r.normalForm.isSaturated = true) ∧
      (∀ r', ReflTransGen Absorbs r r' →
        r'.normalForm = r.normalForm ∧ (r'.Saturated → r' = r.normalForm)) ∧
      r.normalForm.normalForm = r.normalForm ∧
      (r.normalForm = r ↔ r.Saturated) := by
  refine ⟨reflTransGen_normalForm r, ⟨saturated_normalForm r, isSaturated_normalForm r⟩,
    fun r' h => ?_, normalForm_normalForm r, normalForm_eq_self_iff⟩
  have hsame : r'.normalForm = r.normalForm := normalForm_eq_of_reflTransGen h
  refine ⟨hsame, fun hsaturated => ?_⟩
  rw [← hsame]
  exact (normalForm_eq_self_iff.2 hsaturated).symm

/-- Absorbing on the right before the left. -/
theorem normalForm_unique_right_first :
    let r : Regex Char := concat (union empty (symbol 'a')) (concat epsilon (symbol 'b'))
    let r' : Regex Char := concat (symbol 'a') (symbol 'b')
    ReflTransGen Absorbs r r' ∧ r'.Saturated ∧ r' = r.normalForm := by
  intro r r'
  have hright : Absorbs r (concat (union empty (symbol 'a')) (symbol 'b')) :=
    .concatRight _ (.epsilonConcat _)
  have hleft : Absorbs (concat (union empty (symbol 'a')) (symbol 'b')) r' :=
    .concatLeft _ (.emptyUnion _)
  have h : ReflTransGen Absorbs r r' := .head hright (.single hleft)
  have hsaturated : r'.Saturated := saturated_iff.2 rfl
  exact ⟨h, hsaturated, ((normalForm_unique r).2.2.1 r' h).2 hsaturated⟩

end Regex
end RegexDerivatives
