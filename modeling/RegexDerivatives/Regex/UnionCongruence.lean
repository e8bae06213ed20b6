import RegexDerivatives.Regex.Basic

/-!
# Regexes up to the laws of union

Two regexes are union-equivalent when one becomes the other by regrouping unions,
by exchanging their parts and by merging equal parts, at any places of the tree.
This is the least congruence under which union is associative, commutative and
idempotent.
-/

namespace RegexDerivatives

universe u

namespace Regex

variable {α : Type u}

/-- The two regexes differ by the laws of union only. -/
inductive UnionEquiv : Regex α → Regex α → Prop where
  | refl (x : Regex α) : UnionEquiv x x
  | symm {x y : Regex α} (h : UnionEquiv x y) : UnionEquiv y x
  | trans {x y z : Regex α} (h : UnionEquiv x y) (h' : UnionEquiv y z) : UnionEquiv x z
  | assoc (x y z : Regex α) : UnionEquiv (union (union x y) z) (union x (union y z))
  | comm (x y : Regex α) : UnionEquiv (union x y) (union y x)
  | idem (x : Regex α) : UnionEquiv (union x x) x
  | concat {x x' y y' : Regex α} (hx : UnionEquiv x x') (hy : UnionEquiv y y') :
      UnionEquiv (concat x y) (concat x' y')
  | union {x x' y y' : Regex α} (hx : UnionEquiv x x') (hy : UnionEquiv y y') :
      UnionEquiv (union x y) (union x' y')
  | star {x x' : Regex α} (h : UnionEquiv x x') : UnionEquiv (star x) (star x')

instance : Setoid (Regex α) where
  r := UnionEquiv
  iseqv := ⟨.refl, .symm, .trans⟩

end Regex
end RegexDerivatives
