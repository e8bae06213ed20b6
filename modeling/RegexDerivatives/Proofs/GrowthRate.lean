import Mathlib.Algebra.BigOperators.Ring.Finset
import Mathlib.Algebra.Order.BigOperators.Group.Finset
import RegexDerivatives.Proofs.ResidualGrowth
import RegexDerivatives.Proofs.UniqueNormalForm

/-!
# How fast residuals grow

A derivative copies parts of its regex, and absorption takes some of the copies away again.
Here the nodes are counted.

* Absorption makes a tree smaller unless there is nothing to absorb
  (`size_normalForm_lt_iff`).
* The derivative of a regex with `n` nodes has at most `n * (n + 3) / 2 - 1` nodes
  (`two_mul_size_derivative_le`).  Stars around a symbol reach this for every `n`, and
  absorption takes two nodes from them only (`two_mul_size_residual_starred`), so that no bound
  for one symbol is linear.
* Over a whole word each symbol at most doubles the tree, up to a polynomial in the length of
  the word (`readings_le_growth`, `size_current_readAll_le`).  The star of a star is doubled by
  every symbol, so the factor cannot be less than two.
-/

namespace RegexDerivatives

universe u

variable {α : Type u}

namespace Regex

/-! ## Absorption -/

/-- Absorption makes a tree smaller exactly when there is something to absorb. -/
theorem size_normalForm_lt_iff {r : Regex α} : r.normalForm.size < r.size ↔ ¬r.Saturated := by
  constructor
  · intro hlt hsaturated
    rw [normalForm_eq_self_iff.2 hsaturated] at hlt
    exact Nat.lt_irrefl _ hlt
  · intro h
    -- One absorption removes a node, and what is left has the same normal form.
    obtain ⟨r', hr'⟩ : ∃ r', Absorbs r r' := by
      by_contra hnone
      exact h fun r' hr' => hnone ⟨r', hr'⟩
    rw [← hr'.normalForm_eq]
    exact (size_normalForm_le r').trans_lt hr'.size_lt

/-- Absorption keeps the number of nodes only where it keeps the tree. -/
theorem size_normalForm_eq_iff {r : Regex α} : r.normalForm.size = r.size ↔ r.normalForm = r := by
  constructor
  · intro hsize
    rw [normalForm_eq_self_iff]
    by_contra hnot
    have hlt := size_normalForm_lt_iff.2 hnot
    omega
  · intro h
    rw [h]

/-! ## One symbol -/

section Step

variable [BEq α]

/-- The most nodes that a derivative can have.  A star needs all of the bound, because it is
kept behind the derivative of its body. -/
theorem two_mul_size_derivative_le (r : Regex α) (s : α) :
    2 * (r.derivative s).size + 2 ≤ r.size * (r.size + 3) := by
  induction r with
  | empty => exact Nat.le_refl 4
  | epsilon => exact Nat.le_refl 4
  | symbol a =>
      rw [size_derivative_symbol]
      exact Nat.le_refl 4
  | concat x y ihx ihy =>
      have hx := size_pos x
      have hproduct : 0 < x.size * y.size := Nat.mul_pos hx (size_pos y)
      rw [derivative_concat, size_union, size_concat, size_concat, size_concat, size_epsilonPart]
      nlinarith
  | union x y ihx ihy =>
      rw [derivative_union, size_union, size_union]
      nlinarith [Nat.zero_le (x.size * y.size)]
  | star x ih =>
      rw [derivative_star, size_concat, size_star]
      nlinarith

theorem size_derivative_le_sq (r : Regex α) (s : α) : (r.derivative s).size ≤ r.size ^ 2 := by
  have hbound := two_mul_size_derivative_le r s
  -- The two bounds agree for trees of one node and of two.
  have hsq : r.size * (r.size + 3) ≤ 2 * r.size ^ 2 + 2 := by
    obtain ⟨n, hn⟩ := Nat.exists_eq_succ_of_ne_zero (size_pos r).ne'
    rw [hn]
    nlinarith [Nat.le_mul_self n]
  omega

theorem size_residual_le_sq (r : Regex α) (s : α) : (r.residual s).size ≤ r.size ^ 2 :=
  (size_normalForm_le _).trans (size_derivative_le_sq r s)

end Step

/-- A regex inside of a number of stars. -/
def starred (r : Regex α) : Nat → Regex α
  | 0 => r
  | n + 1 => star (starred r n)

theorem size_starred (r : Regex α) (n : Nat) : (starred r n).size = r.size + n := by
  induction n with
  | zero => rfl
  | succ n ih =>
      rw [starred, size_star, ih]
      omega

theorem normalForm_starred (r : Regex α) (n : Nat) :
    (starred r n).normalForm = starred r.normalForm n := by
  induction n with
  | zero => rfl
  | succ n ih => rw [starred, normalForm_star, ih, starred]

section Stars

variable [BEq α]

/-- Stars around a symbol have the largest derivatives for their number of nodes. -/
theorem two_mul_size_derivative_starred (a s : α) (n : Nat) :
    2 * ((starred (symbol a) n).derivative s).size + 2 =
      (starred (symbol a) n).size * ((starred (symbol a) n).size + 3) := by
  induction n with
  | zero =>
      rw [starred, size_derivative_symbol]
      rfl
  | succ n ih =>
      rw [starred, derivative_star, size_concat, size_star]
      linarith

/-- From the derivative of stars around a symbol that is read, only `epsilon` and the
concatenation with it are absorbed. -/
theorem two_mul_size_residual_starred {a s : α} (h : (a == s) = true) (n : Nat) :
    2 * ((starred (symbol a) (n + 1)).residual s).size + 6 =
      (starred (symbol a) (n + 1)).size * ((starred (symbol a) (n + 1)).size + 3) := by
  induction n with
  | zero =>
      have hinner : (star (symbol a)).residual s = star (symbol a) := by
        rw [residual_star, residual_symbol, if_pos h, absorbConcat_epsilon_left, normalForm_symbol]
      rw [starred, starred, hinner]
      rfl
  | succ n ih =>
      -- The residual of the inner stars has several nodes, so nothing is absorbed at the root.
      have hsize : 2 ≤ ((starred (symbol a) (n + 1)).residual s).size := by
        rw [size_starred, size_symbol] at ih
        nlinarith
      have hempty : (starred (symbol a) (n + 1)).residual s ≠ empty := by
        intro hr
        rw [hr, size_empty] at hsize
        omega
      have hepsilon : (starred (symbol a) (n + 1)).residual s ≠ epsilon := by
        intro hr
        rw [hr, size_epsilon] at hsize
        omega
      have hkept : absorbConcat ((starred (symbol a) (n + 1)).residual s)
          (star (starred (symbol a) (n + 1))) =
            concat ((starred (symbol a) (n + 1)).residual s) (star (starred (symbol a) (n + 1))) :=
        absorbConcat_eq_concat hempty hepsilon (star_ne_empty _) (star_ne_epsilon _)
      rw [starred, residual_star, normalForm_starred, normalForm_symbol, hkept, size_concat,
        size_star]
      linarith

/-- No factor bounds the growth by one symbol. -/
theorem exists_mul_size_lt_size_residual {a s : α} (h : (a == s) = true) (c : Nat) :
    ∃ r : Regex α, c * r.size < (r.residual s).size := by
  refine ⟨starred (symbol a) (2 * c + 1), ?_⟩
  have hsize := two_mul_size_residual_starred h (2 * c)
  rw [size_starred, size_symbol] at hsize ⊢
  nlinarith

end Stars

/-! ## A whole word -/

/-- How deep stars stand inside of each other. -/
def starHeight : Regex α → Nat
  | empty => 0
  | epsilon => 0
  | symbol _ => 0
  | concat x y => max x.starHeight y.starHeight
  | union x y => max x.starHeight y.starHeight
  | star x => x.starHeight + 1

/-- The growth over a number of symbols, up to a factor, where stars stand inside of each other
to a given depth. -/
def growth (depth n : Nat) : Nat :=
  (n + 1) ^ depth * 2 ^ n

theorem growth_pos (d n : Nat) : 0 < growth d n :=
  Nat.mul_pos (Nat.pow_pos (Nat.succ_pos n)) (Nat.two_pow_pos n)

theorem growth_le_growth {d d' : Nat} (h : d ≤ d') (n : Nat) : growth d n ≤ growth d' n :=
  Nat.mul_le_mul_right _ (Nat.pow_le_pow_right (Nat.succ_pos n) h)

/-- The growths of two parts, added up. -/
theorem add_mul_growth_le (c c' d d' n : Nat) :
    c * growth d n + c' * growth d' n ≤ (c + c') * growth (max d d') n := by
  rw [Nat.add_mul]
  exact Nat.add_le_add (Nat.mul_le_mul_left c (growth_le_growth (Nat.le_max_left d d') n))
    (Nat.mul_le_mul_left c' (growth_le_growth (Nat.le_max_right d d') n))

theorem growth_succ_depth (d n : Nat) : growth (d + 1) n = (n + 1) * growth d n := by
  unfold growth
  ring

theorem two_mul_growth_le (d n : Nat) : 2 * growth d n ≤ growth d (n + 1) := by
  have hpow : (n + 1) ^ d ≤ (n + 2) ^ d := Nat.pow_le_pow_left (Nat.le_succ _) d
  calc
    2 * growth d n = (n + 1) ^ d * 2 ^ (n + 1) := by
      unfold growth
      ring
    _ ≤ growth d (n + 1) := Nat.mul_le_mul_right _ hpow

/-- Behind one symbol more, a star has room for the growth of its body and for twice its own. -/
theorem growth_add_two_mul_growth_le (d n : Nat) :
    growth d (n + 1) + 2 * growth (d + 1) n ≤ growth (d + 1) (n + 1) := by
  calc
    growth d (n + 1) + 2 * growth (d + 1) n =
        growth d (n + 1) + (n + 1) * (2 * growth d n) := by
      rw [growth_succ_depth]
      ring
    _ ≤ growth d (n + 1) + (n + 1) * growth d (n + 1) :=
      Nat.add_le_add_left (Nat.mul_le_mul_left _ (two_mul_growth_le d n)) _
    _ = growth (d + 1) (n + 1) := by
      rw [growth_succ_depth]
      ring

/-- All terms together are at most twice the first. -/
theorem sum_growth_le (d n : Nat) :
    ∑ i ∈ Finset.range n, growth d (n - i) ≤ 2 * growth d n := by
  induction n with
  | zero => exact Nat.zero_le _
  | succ n ih =>
      have hdouble := two_mul_growth_le d n
      rw [Finset.sum_range_succ']
      simp only [Nat.add_sub_add_right, Nat.sub_zero]
      omega

/-- What is counted at the places where a regex is left, when the rest of the word counts as at
most its growth. -/
theorem sum_drop_le {p : Nat → Prop} [DecidablePred p] {g : Word α → Nat} {c d : Nat}
    {w : Word α} (hg : ∀ v : Word α, v.length ≤ w.length → g v ≤ c * growth d v.length) :
    (∑ i ∈ Finset.range w.length, if p i then g (w.drop i) else 0) ≤
      c * (2 * growth d w.length) := by
  calc
    (∑ i ∈ Finset.range w.length, if p i then g (w.drop i) else 0) ≤
        ∑ i ∈ Finset.range w.length, c * growth d (w.length - i) := by
      refine Finset.sum_le_sum fun i _ => ?_
      have hrest : g (w.drop i) ≤ c * growth d (w.length - i) := by
        rw [← List.length_drop]
        exact hg (w.drop i) (by rw [List.length_drop]; exact Nat.sub_le _ _)
      split
      · exact hrest
      · exact Nat.zero_le _
    _ = c * ∑ i ∈ Finset.range w.length, growth d (w.length - i) := (Finset.mul_sum ..).symm
    _ ≤ c * (2 * growth d w.length) := Nat.mul_le_mul_left c (sum_growth_le d w.length)

/-- The factor of a concatenation, in which the second part counts twice. -/
theorem two_pow_add_two_mul_two_pow_le (x y : Regex α) :
    2 ^ x.size + 2 * 2 ^ y.size ≤ 2 ^ (concat x y).size := by
  have hx : 2 ^ 1 ≤ 2 ^ x.size := Nat.pow_le_pow_right Nat.two_pos (size_pos x)
  have hy : 2 ^ 1 ≤ 2 ^ y.size := Nat.pow_le_pow_right Nat.two_pos (size_pos y)
  rw [size_concat, Nat.pow_add, Nat.pow_add]
  nlinarith

section Word

variable [BEq α]

/-- A star around a regex adds one to the degree of the polynomial. -/
theorem readings_star_le_growth {x : Regex α} {c d : Nat}
    (hx : ∀ w : Word α, x.readings w ≤ c * growth d w.length) (w : Word α) :
    x.star.readings w ≤ c * growth (d + 1) w.length := by
  -- Induction on the length of the word: the star goes on with what follows the first piece.
  induction hn : w.length using Nat.strong_induction_on generalizing w with
  | _ n ih =>
      subst hn
      cases w with
      | nil => exact Nat.zero_le _
      | cons s w =>
          have hrest := sum_drop_le (p := fun i => x.Describes (s :: w.take i)) (w := w)
            fun v hv => ih v.length (Nat.lt_succ_of_le hv) v rfl
          rw [readings_star]
          calc
            _ ≤ c * growth d (w.length + 1) + c * (2 * growth (d + 1) w.length) :=
              Nat.add_le_add (hx (s :: w)) hrest
            _ = c * (growth d (w.length + 1) + 2 * growth (d + 1) w.length) :=
              (Nat.mul_add ..).symm
            _ ≤ c * growth (d + 1) (w.length + 1) :=
              Nat.mul_le_mul_left c (growth_add_two_mul_growth_le d w.length)

/-- Over a word the number of readings grows by a factor of two for each symbol at most, up to
a polynomial of which the degree is the depth of the stars. -/
theorem readings_le_growth (r : Regex α) (w : Word α) :
    r.readings w ≤ 2 ^ r.size * growth r.starHeight w.length := by
  -- Induction on the regex, for all words at once: the second part of a concatenation reads
  -- the ends of the word.
  induction r generalizing w with
  | empty => exact Nat.zero_le _
  | epsilon => exact Nat.zero_le _
  | symbol a =>
      have hone : (symbol a).readings w ≤ 1 := by
        rw [readings]
        split
        · exact Nat.le_refl _
        · exact Nat.zero_le _
      exact hone.trans (Nat.mul_pos (Nat.two_pow_pos _) (growth_pos _ _))
  | concat x y ihx ihy =>
      cases hy : y.barren with
      | true =>
          rw [readings, hy]
          exact Nat.zero_le _
      | false =>
          have hrest := sum_drop_le (p := fun i => x.Describes (w.take i)) (w := w)
            fun v _ => ihy v
          rw [readings_concat x y w hy]
          calc
            _ ≤ 2 ^ x.size * growth x.starHeight w.length +
                2 ^ y.size * (2 * growth y.starHeight w.length) := Nat.add_le_add (ihx w) hrest
            _ = 2 ^ x.size * growth x.starHeight w.length +
                2 * 2 ^ y.size * growth y.starHeight w.length := by ring
            _ ≤ (2 ^ x.size + 2 * 2 ^ y.size) * growth (concat x y).starHeight w.length :=
              add_mul_growth_le _ _ _ _ _
            _ ≤ 2 ^ (concat x y).size * growth (concat x y).starHeight w.length :=
              Nat.mul_le_mul_right _ (two_pow_add_two_mul_two_pow_le x y)
  | union x y ihx ihy =>
      rw [readings]
      calc
        x.readings w + y.readings w ≤ 2 ^ x.size * growth x.starHeight w.length +
            2 ^ y.size * growth y.starHeight w.length := Nat.add_le_add (ihx w) (ihy w)
        _ ≤ (2 ^ x.size + 2 ^ y.size) * growth (union x y).starHeight w.length :=
          add_mul_growth_le _ _ _ _ _
        _ ≤ 2 ^ (union x y).size * growth (union x y).starHeight w.length := by
          refine Nat.mul_le_mul_right _ ?_
          have hfactor := two_pow_add_two_mul_two_pow_le x y
          rw [size_concat] at hfactor
          rw [size_union]
          omega
  | star x ih =>
      have hfactor : 2 ^ x.size ≤ 2 ^ x.star.size :=
        Nat.pow_le_pow_right Nat.two_pos (Nat.le_add_left _ _)
      exact (readings_star_le_growth ih w).trans (Nat.mul_le_mul_right _ hfactor)

end Word

end Regex

namespace Recognizer

variable [BEq α]

/-- A derivative has at most as many nodes as there are pairs of nodes in its regex.  A normal
form has no more nodes than its regex, and fewer unless it is the regex itself.  So one symbol
leads a recognizer from a number of nodes to its square at most. -/
theorem size_step_le_sq :
    (∀ (r : Regex α) (s : α), (r.derivative s).size ≤ r.size ^ 2) ∧
      (∀ r : Regex α, r.normalForm.size ≤ r.size ∧
        (r.normalForm.size = r.size ↔ r.normalForm = r)) ∧
      ∀ (m : Recognizer α) (s : α), (m.read s).current.size ≤ m.current.size ^ 2 := by
  refine ⟨Regex.size_derivative_le_sq, fun r => ⟨Regex.size_normalForm_le r, ?_⟩, fun m s => ?_⟩
  · exact Regex.size_normalForm_eq_iff
  · rw [current_read]
    exact Regex.size_residual_le_sq m.current s

/-- How large a recognizer can become while it reads a word. -/
theorem size_current_readAll_le (m : Recognizer α) (w : Word α) :
    (m.readAll w).current.size ≤ (m.current.size ^ 2 + 1) *
      (2 ^ m.current.size * Regex.growth m.current.starHeight w.length) + 1 := by
  rw [current_readAll]
  cases w with
  | nil =>
      have hgrowth : 0 < 2 ^ m.current.size * Regex.growth m.current.starHeight 0 :=
        Nat.mul_pos (Nat.two_pow_pos _) (Regex.growth_pos _ _)
      rw [Regex.residualBy_nil, List.length_nil]
      nlinarith [Nat.le_self_pow two_ne_zero m.current.size]
  | cons s w =>
      have hreadings := Regex.readings_le_growth m.current (s :: w)
      exact (Regex.size_residualBy_le_mul_readings m.current s w).trans
        (Nat.succ_le_succ (Nat.mul_le_mul_left _ hreadings))

end Recognizer
end RegexDerivatives
