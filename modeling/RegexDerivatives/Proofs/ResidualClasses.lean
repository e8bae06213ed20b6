import Mathlib.Order.SupClosed
import RegexDerivatives.Regex.UnionCongruence
import RegexDerivatives.Proofs.LateAbsorption

/-!
# The classes of residuals

The residuals of a regex can be arbitrarily many and arbitrarily large, but only because
equal parts of a union are kept.  Up to the laws of union there are finitely many.

* `UnionClass` — regexes up to the laws of union.  They form a semilattice whose join is
  the union, so finitely many classes have finitely many joins.
* `residualClasses` — the classes into which residuals fall, by recursion on the regex:
  what is left of a concatenation or a star is a union of parts of two kinds, what is left
  of the first part in front of the second one, and what is left of the second part.
* `unionClass_normalForm_derivativeBy_mem` — no residual falls outside of them, whatever
  the symbols compare equal to.

The absorption of `epsilon` does not respect the laws of union: a union of two `epsilon`
is not absorbed by a neighbour.  The classes are therefore classes of trees with all
absorption done, and for each absorption every outcome is a class of its own.
-/

namespace RegexDerivatives

universe u

variable {α : Type u}

/-! ## Regexes up to the laws of union -/

/-- The regexes up to the laws of union. -/
def UnionClass (α : Type u) : Type u :=
  Quotient (inferInstance : Setoid (Regex α))

/-- The class of a regex up to the laws of union. -/
def Regex.unionClass (r : Regex α) : UnionClass α :=
  Quotient.mk _ r

namespace UnionClass

/-- Two regexes are in one class when they differ by the laws of union only. -/
theorem unionClass_eq_iff {r r' : Regex α} :
    r.unionClass = r'.unionClass ↔ Regex.UnionEquiv r r' :=
  Quotient.eq

theorem exists_unionClass (c : UnionClass α) : ∃ r : Regex α, r.unionClass = c :=
  Quotient.exists_rep c

/-- Some regex of a class. -/
noncomputable def form (c : UnionClass α) : Regex α :=
  Quotient.out c

theorem unionClass_form (c : UnionClass α) : c.form.unionClass = c :=
  Quotient.out_eq c

/-- The class of the union of two regexes. -/
def join : UnionClass α → UnionClass α → UnionClass α :=
  Quotient.map₂ Regex.union fun _ _ hx _ _ hy => .union hx hy

/-- The class of the concatenation of a regex with a fixed second part. -/
def concatWith (y : Regex α) : UnionClass α → UnionClass α :=
  Quotient.map (fun x => Regex.concat x y) fun _ _ hx => .concat hx (.refl y)

theorem join_comm (a b : UnionClass α) : join a b = join b a := by
  obtain ⟨x, rfl⟩ := exists_unionClass a
  obtain ⟨y, rfl⟩ := exists_unionClass b
  exact unionClass_eq_iff.2 (.comm x y)

theorem join_assoc (a b c : UnionClass α) : join (join a b) c = join a (join b c) := by
  obtain ⟨x, rfl⟩ := exists_unionClass a
  obtain ⟨y, rfl⟩ := exists_unionClass b
  obtain ⟨z, rfl⟩ := exists_unionClass c
  exact unionClass_eq_iff.2 (.assoc x y z)

theorem join_self (a : UnionClass α) : join a a = a := by
  obtain ⟨x, rfl⟩ := exists_unionClass a
  exact unionClass_eq_iff.2 (.idem x)

instance : Max (UnionClass α) := ⟨join⟩

instance : SemilatticeSup (UnionClass α) :=
  SemilatticeSup.mk' join_comm join_assoc join_self

theorem unionClass_union (x y : Regex α) :
    (x.union y).unionClass = x.unionClass ⊔ y.unionClass := rfl

theorem unionClass_concat (x y : Regex α) :
    (x.concat y).unionClass = concatWith y x.unionClass := rfl

end UnionClass

namespace Regex

open UnionClass

/-! ## The classes into which residuals fall -/

/-- The classes of what is left of a concatenation whose symbols have all been read by the
first part: what is left of that part in front of the second one or, after an absorption,
one of the two alone. -/
def classesInFirst (first : Set (UnionClass α)) (y : Regex α) : Set (UnionClass α) :=
  insert y.unionClass (first ∪ concatWith y '' first)

/-- The classes of what can be left of a regex after a word, with absorption at the
end. -/
def residualClasses : Regex α → Set (UnionClass α)
  | empty => {(empty : Regex α).unionClass}
  | epsilon => {(epsilon : Regex α).unionClass, (empty : Regex α).unionClass}
  | symbol a =>
      {(symbol a).unionClass, (epsilon : Regex α).unionClass, (empty : Regex α).unionClass}
  | concat x y =>
      supClosure (classesInFirst x.residualClasses y.normalForm ∪ y.residualClasses)
  | union x y => supClosure (x.residualClasses ∪ y.residualClasses)
  | star x =>
      insert (star x.normalForm).unionClass
        (supClosure (classesInFirst x.residualClasses (star x.normalForm)))

theorem finite_classesInFirst {first : Set (UnionClass α)} (h : first.Finite) (y : Regex α) :
    (classesInFirst first y).Finite :=
  (h.union (h.image (concatWith y))).insert y.unionClass

/-- A regex has finitely many classes of residuals. -/
theorem finite_residualClasses (r : Regex α) : r.residualClasses.Finite := by
  induction r with
  | empty => exact Set.finite_singleton _
  | epsilon => exact (Set.finite_singleton _).insert _
  | symbol a => exact ((Set.finite_singleton _).insert _).insert _
  | concat x y ihx ihy => exact ((finite_classesInFirst ihx y.normalForm).union ihy).supClosure
  | union x y ihx ihy => exact (ihx.union ihy).supClosure
  | star x ih => exact (finite_classesInFirst ih (star x.normalForm)).supClosure.insert _

/-! ## No residual falls outside -/

theorem unionClass_absorbUnion_mem {classes : Set (UnionClass α)} (hjoin : SupClosed classes)
    {x y : Regex α} (hx : x.unionClass ∈ classes) (hy : y.unionClass ∈ classes) :
    (absorbUnion x y).unionClass ∈ classes := by
  fun_cases absorbUnion x y with
  | case1 y => exact hy
  | case2 x hne => exact hx
  | case3 x y hne hne' =>
      rw [unionClass_union]
      exact hjoin hx hy

theorem unionClass_absorbConcat_mem {first : Set (UnionClass α)} {x : Regex α}
    (hx : x.unionClass ∈ first) (y : Regex α) :
    (absorbConcat x y).unionClass ∈ classesInFirst first y := by
  fun_cases absorbConcat x y with
  | case1 y => exact .inr (.inl hx)
  | case2 x hne => exact .inl rfl
  | case3 y hne => exact .inl rfl
  | case4 x hne hne' => exact .inr (.inl hx)
  | case5 x y hne hne' hne'' hne''' =>
      rw [unionClass_concat]
      exact .inr (.inr (Set.mem_image_of_mem _ hx))

section Comparison

variable [BEq α]

/-- A set of classes that is closed under joins has every class of what is left of a
concatenation, provided that it has the classes left by its first part alone and those
left by its second part.  For the second part all that is left of the concatenation by
shorter words may be used. -/
theorem unionClass_concat_derivativeBy_mem {classes : Set (UnionClass α)}
    (hjoin : SupClosed classes) {x y : Regex α}
    (hkept : ∀ p : Word α,
      (absorbConcat (x.derivativeBy p).normalForm y.normalForm).unionClass ∈ classes)
    (hleft : ∀ (s : α) (w : Word α),
      (∀ p, ((concat (x.derivativeBy p) y).derivativeBy w).normalForm.unionClass ∈ classes) →
        (y.derivativeBy (s :: w)).normalForm.unionClass ∈ classes)
    (p w : Word α) :
    ((concat (x.derivativeBy p) y).derivativeBy w).normalForm.unionClass ∈ classes := by
  -- Induction on what follows `p`; each symbol is read after leaving `x` or moves
  -- into `p`.
  induction w generalizing p with
  | nil => exact hkept p
  | cons s w ih =>
      rw [normalForm_derivativeBy_concat_cons]
      by_cases hp : x.Describes p
      · rw [if_pos hp]
        exact unionClass_absorbUnion_mem hjoin (hleft s w ih) (ih (p ++ [s]))
      · rw [if_neg hp, absorbUnion_empty_left]
        exact ih (p ++ [s])

/-- Whatever is read, what is left of a regex falls into one of its classes. -/
theorem unionClass_normalForm_derivativeBy_mem (r : Regex α) (w : Word α) :
    (r.derivativeBy w).normalForm.unionClass ∈ r.residualClasses := by
  -- Induction on the regex, for all words at once: a first part has read a beginning of
  -- the word and a second part an end of it.
  induction r generalizing w with
  | empty =>
      rw [derivativeBy_empty]
      exact Set.mem_singleton _
  | epsilon =>
      rcases w with _ | ⟨s, w⟩
      · exact .inl rfl
      · rw [derivativeBy_cons, derivative_epsilon, derivativeBy_empty]
        exact .inr rfl
  | symbol a =>
      rcases w with _ | ⟨s, w⟩
      · exact .inl rfl
      · rw [derivativeBy_cons, derivative_symbol]
        by_cases h : (a == s) = true
        · rw [if_pos h]
          rcases w with _ | ⟨t, w⟩
          · exact .inr (.inl rfl)
          · rw [derivativeBy_cons, derivative_epsilon, derivativeBy_empty]
            exact .inr (.inr rfl)
        · rw [if_neg h, derivativeBy_empty]
          exact .inr (.inr rfl)
  | concat x y ihx ihy =>
      have hfirst : ∀ p : Word α,
          (absorbConcat (x.derivativeBy p).normalForm y.normalForm).unionClass ∈
            (concat x y).residualClasses :=
        fun p => subset_supClosure (.inl (unionClass_absorbConcat_mem (ihx p) y.normalForm))
      have hsecond : ∀ (s : α) (w : Word α),
          (y.derivativeBy (s :: w)).normalForm.unionClass ∈ (concat x y).residualClasses :=
        fun s w => subset_supClosure (.inr (ihy (s :: w)))
      exact unionClass_concat_derivativeBy_mem supClosed_supClosure hfirst
        (fun s w _ => hsecond s w) [] w
  | union x y ihx ihy =>
      rw [derivativeBy_union]
      exact unionClass_absorbUnion_mem supClosed_supClosure (subset_supClosure (.inl (ihx w)))
        (subset_supClosure (.inr (ihy w)))
  | star x ih =>
      rcases w with _ | ⟨s, w⟩
      · exact .inl rfl
      · have hbody : ∀ p : Word α,
            (absorbConcat (x.derivativeBy p).normalForm (star x).normalForm).unionClass ∈
              supClosure (classesInFirst x.residualClasses (star x.normalForm)) :=
          fun p => subset_supClosure (unionClass_absorbConcat_mem (ih p) (star x.normalForm))
        -- After one symbol a star is a concatenation that ends with the star itself, so
        -- what is left of the second part is left of the concatenation.
        right
        exact unionClass_concat_derivativeBy_mem supClosed_supClosure hbody
          (fun t v hv => hv [t]) [s] w

/-- The residual by a word is the regex itself or falls into one of its classes. -/
theorem residualBy_eq_self_or_mem_residualClasses (r : Regex α) (w : Word α) :
    r.residualBy w = r ∨ (r.residualBy w).unionClass ∈ r.residualClasses := by
  rcases w with _ | ⟨s, w⟩
  · exact .inl rfl
  · right
    rw [residualBy_cons_eq_normalForm]
    exact unionClass_normalForm_derivativeBy_mem r (s :: w)

end Comparison

/-- For every regex there is a finite list that has, up to the laws of union, what is left
to match after any word.  The list does not depend on how symbols are compared. -/
theorem exists_forms_of_residuals (r : Regex α) :
    ∃ forms : List (Regex α), ∀ (_ : BEq α) (w : Word α),
      ∃ form ∈ forms, UnionEquiv ((Recognizer.start r).readAll w).current form := by
  refine ⟨r :: r.finite_residualClasses.toFinset.toList.map form, fun _ w => ?_⟩
  rw [Recognizer.current_readAll_start]
  rcases residualBy_eq_self_or_mem_residualClasses r w with hself | hmem
  · rw [hself]
    exact ⟨r, List.mem_cons_self, .refl r⟩
  · refine ⟨(r.residualBy w).unionClass.form, ?_, ?_⟩
    · apply List.mem_cons_of_mem
      apply List.mem_map_of_mem
      rwa [Finset.mem_toList, Set.Finite.mem_toFinset]
    · rw [← unionClass_eq_iff, unionClass_form]

end Regex
end RegexDerivatives
