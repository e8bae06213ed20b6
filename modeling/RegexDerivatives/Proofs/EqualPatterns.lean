import Mathlib.Data.List.Forall2
import RegexDerivatives.Recognizer.Scan

/-!
# Patterns that compare equal

Where symbols are compared symmetrically and transitively, regexes that compare equal may
stand for each other, and so may symbols of the input.  The comparison need not be reflexive,
and symbols that compare equal need not be the same, so the trees that two runs meet are
equal in the sense of the comparison only.

Two regexes compare equal when they correspond node by node.  The correspondence is kept
by everything that is done with a regex, and a step of a recognizer keeps it between two
recognizers; by induction two whole runs, and two scans, stay side by side.
-/

namespace RegexDerivatives

universe u

variable {α : Type u} [BEq α]

/-- The two symbols of an input are the same or compare equal. -/
def Interchangeable (s s' : α) : Prop :=
  s = s' ∨ (s == s') = true

/-- Which symbols of a pattern a symbol matches does not change when both are replaced. -/
theorem beq_eq_of_interchangeable [PartialEquivBEq α] {a b s s' : α} (h : (a == b) = true)
    (hs : Interchangeable s s') : (a == s) = (b == s') := by
  rcases hs with rfl | hs
  · exact BEq.congr_left h
  · rw [BEq.congr_left h, BEq.congr_right hs]

namespace Regex

/-! ## Correspondence of trees -/

/-- The two trees have the same shape, and their symbols compare equal place by place. -/
inductive Corresponds : Regex α → Regex α → Prop where
  | empty : Corresponds empty empty
  | epsilon : Corresponds epsilon epsilon
  | symbol {a b : α} (h : (a == b) = true) : Corresponds (symbol a) (symbol b)
  | concat {x x' y y' : Regex α} (hx : Corresponds x x') (hy : Corresponds y y') :
      Corresponds (concat x y) (concat x' y')
  | union {x x' y y' : Regex α} (hx : Corresponds x x') (hy : Corresponds y y') :
      Corresponds (union x y) (union x' y')
  | star {x x' : Regex α} (h : Corresponds x x') : Corresponds (star x) (star x')

/-- Comparing two trees tells whether they correspond. -/
theorem beq_iff_corresponds {r r' : Regex α} : (r == r') = true ↔ r.Corresponds r' := by
  show r.beq r' = true ↔ _
  constructor
  · intro h
    fun_induction Regex.beq r r' with
    | case1 => exact .empty
    | case2 => exact .epsilon
    | case3 a b => exact .symbol h
    | case4 x y x' y' ihx ihy =>
        obtain ⟨hx, hy⟩ := Bool.and_eq_true_iff.1 h
        exact .concat (ihx hx) (ihy hy)
    | case5 x y x' y' ihx ihy =>
        obtain ⟨hx, hy⟩ := Bool.and_eq_true_iff.1 h
        exact .union (ihx hx) (ihy hy)
    | case6 x x' ih => exact .star (ih h)
    | case7 => contradiction
  · intro h
    induction h with
    | empty => rfl
    | epsilon => rfl
    | symbol h => exact h
    | concat hx hy ihx ihy => exact Bool.and_eq_true_iff.2 ⟨ihx, ihy⟩
    | union hx hy ihx ihy => exact Bool.and_eq_true_iff.2 ⟨ihx, ihy⟩
    | star h ih => exact ih

namespace Corresponds

theorem symm [PartialEquivBEq α] {r r' : Regex α} (h : r.Corresponds r') :
    r'.Corresponds r := by
  induction h with
  | empty => exact .empty
  | epsilon => exact .epsilon
  | symbol h => exact .symbol (BEq.symm h)
  | concat hx hy ihx ihy => exact .concat ihx ihy
  | union hx hy ihx ihy => exact .union ihx ihy
  | star h ih => exact .star ih

theorem trans [PartialEquivBEq α] {r r' r'' : Regex α} (h : r.Corresponds r')
    (h' : r'.Corresponds r'') : r.Corresponds r'' := by
  induction h generalizing r'' with
  | empty => exact h'
  | epsilon => exact h'
  | symbol h =>
      cases h' with
      | symbol h' => exact .symbol (BEq.trans h h')
  | concat hx hy ihx ihy =>
      cases h' with
      | concat hx' hy' => exact .concat (ihx hx') (ihy hy')
  | union hx hy ihx ihy =>
      cases h' with
      | union hx' hy' => exact .union (ihx hx') (ihy hy')
  | star h ih =>
      cases h' with
      | star h' => exact .star (ih h')

/-- Regexes are compared symmetrically and transitively if their symbols are, so they may be
symbols in their turn. -/
instance [PartialEquivBEq α] : PartialEquivBEq (Regex α) where
  symm h := beq_iff_corresponds.2 (beq_iff_corresponds.1 h).symm
  trans h h' := beq_iff_corresponds.2 ((beq_iff_corresponds.1 h).trans (beq_iff_corresponds.1 h'))

theorem isEmpty_eq {r r' : Regex α} (h : r.Corresponds r') : r.isEmpty = r'.isEmpty := by
  cases h <;> rfl

theorem ne_empty {r r' : Regex α} (h : r.Corresponds r') (hr : r ≠ .empty) : r' ≠ .empty := by
  rintro rfl
  cases h
  exact hr rfl

theorem ne_epsilon {r r' : Regex α} (h : r.Corresponds r') (hr : r ≠ .epsilon) :
    r' ≠ .epsilon := by
  rintro rfl
  cases h
  exact hr rfl

theorem size_eq {r r' : Regex α} (h : r.Corresponds r') : r.size = r'.size := by
  induction h with
  | empty => rfl
  | epsilon => rfl
  | symbol h => rfl
  | concat hx hy ihx ihy => rw [size_concat, size_concat, ihx, ihy]
  | union hx hy ihx ihy => rw [size_union, size_union, ihx, ihy]
  | star h ih => rw [size_star, size_star, ih]

theorem nullable_eq {r r' : Regex α} (h : r.Corresponds r') : r.nullable = r'.nullable := by
  induction h with
  | empty => rfl
  | epsilon => rfl
  | symbol h => rfl
  | concat hx hy ihx ihy => rw [nullable_concat, nullable_concat, ihx, ihy]
  | union hx hy ihx ihy => rw [nullable_union, nullable_union, ihx, ihy]
  | star h ih => rfl

theorem epsilonPart {r r' : Regex α} (h : r.Corresponds r') :
    r.epsilonPart.Corresponds r'.epsilonPart := by
  unfold Regex.epsilonPart
  rw [h.nullable_eq]
  split
  · exact .epsilon
  · exact .empty

/-- Regexes that correspond have derivatives that correspond, also by different symbols
that compare equal. -/
theorem derivative [PartialEquivBEq α] {r r' : Regex α} (h : r.Corresponds r') {s s' : α}
    (hs : Interchangeable s s') : (r.derivative s).Corresponds (r'.derivative s') := by
  induction h with
  | empty => exact .empty
  | epsilon => exact .empty
  | symbol h =>
      -- Both symbols of the pattern match, or neither does.
      rw [derivative_symbol, derivative_symbol, beq_eq_of_interchangeable h hs]
      split
      · exact .epsilon
      · exact .empty
  | concat hx hy ihx ihy =>
      rw [derivative_concat, derivative_concat]
      exact .union (.concat hx.epsilonPart ihy) (.concat ihx hy)
  | union hx hy ihx ihy =>
      rw [derivative_union, derivative_union]
      exact .union ihx ihy
  | star h ih =>
      rw [derivative_star, derivative_star]
      exact .concat ih (.star h)

theorem absorbConcat {x x' y y' : Regex α} (hx : x.Corresponds x') (hy : y.Corresponds y') :
    (absorbConcat x y).Corresponds (absorbConcat x' y') := by
  fun_cases Regex.absorbConcat x y with
  | case1 y =>
      cases hx
      exact .empty
  | case2 x hne =>
      cases hy
      rw [absorbConcat_empty_right]
      exact .empty
  | case3 y hne =>
      cases hx
      rw [absorbConcat_epsilon_left]
      exact hy
  | case4 x hne hne' =>
      cases hy
      rw [absorbConcat_epsilon_right]
      exact hx
  | case5 x y hxe hye hxe' hye' =>
      -- Nothing is absorbed on the other side either.
      rw [absorbConcat_eq_concat (hx.ne_empty hxe) (hx.ne_epsilon hxe') (hy.ne_empty hye)
        (hy.ne_epsilon hye')]
      exact .concat hx hy

theorem absorbUnion {x x' y y' : Regex α} (hx : x.Corresponds x') (hy : y.Corresponds y') :
    (absorbUnion x y).Corresponds (absorbUnion x' y') := by
  fun_cases Regex.absorbUnion x y with
  | case1 y =>
      cases hx
      exact hy
  | case2 x hne =>
      cases hy
      rw [absorbUnion_empty_right]
      exact hx
  | case3 x y hxe hye =>
      rw [absorbUnion_eq_union (hx.ne_empty hxe) (hy.ne_empty hye)]
      exact .union hx hy

theorem normalForm {r r' : Regex α} (h : r.Corresponds r') :
    r.normalForm.Corresponds r'.normalForm := by
  induction h with
  | empty => exact .empty
  | epsilon => exact .epsilon
  | symbol h => exact .symbol h
  | concat hx hy ihx ihy =>
      rw [normalForm_concat, normalForm_concat]
      exact ihx.absorbConcat ihy
  | union hx hy ihx ihy =>
      rw [normalForm_union, normalForm_union]
      exact ihx.absorbUnion ihy
  | star h ih =>
      rw [normalForm_star, normalForm_star]
      exact .star ih

theorem residual [PartialEquivBEq α] {r r' : Regex α} (h : r.Corresponds r') {s s' : α}
    (hs : Interchangeable s s') : (r.residual s).Corresponds (r'.residual s') :=
  (h.derivative hs).normalForm

end Corresponds
end Regex

/-! ## Runs side by side -/

namespace Recognizer

/-- The two recognizers have read equally many symbols, and what may follow them
corresponds. -/
structure Corresponds (m m' : Recognizer α) : Prop where
  current : m.current.Corresponds m'.current
  consumed : m.consumed = m'.consumed

namespace Corresponds

theorem start {r r' : Regex α} (h : r.Corresponds r') : (start r).Corresponds (start r') where
  current := h
  consumed := rfl

theorem isDead_eq {m m' : Recognizer α} (h : m.Corresponds m') : m.isDead = m'.isDead :=
  h.current.isEmpty_eq

theorem accepts_eq {m m' : Recognizer α} (h : m.Corresponds m') : m.accepts = m'.accepts :=
  h.current.nullable_eq

variable [PartialEquivBEq α]

theorem read {m m' : Recognizer α} (h : m.Corresponds m') {s s' : α}
    (hs : Interchangeable s s') : (m.read s).Corresponds (m'.read s') where
  current := h.current.residual hs
  consumed := congrArg (· + 1) h.consumed

theorem readAll {m m' : Recognizer α} (h : m.Corresponds m') {w w' : Word α}
    (hw : List.Forall₂ Interchangeable w w') : (m.readAll w).Corresponds (m'.readAll w') := by
  induction hw generalizing m m' with
  | nil => exact h
  | cons hs hw ih =>
      rw [readAll_cons, readAll_cons]
      exact ih (h.read hs)

end Corresponds
end Recognizer

/-- The two scans give the same answer, take equally many symbols and end in recognizers that
correspond. -/
structure Outcome.Corresponds (o o' : Outcome α) : Prop where
  accepted : o.accepted = o'.accepted
  recognizer : o.recognizer.Corresponds o'.recognizer
  pulled : o.pulled = o'.pulled

namespace Recognizer

/-- Two scans stop at the same place, because both recognizers are dead or neither is. -/
theorem Corresponds.scanOn [PartialEquivBEq α] (v : Verbosity) {m m' : Recognizer α}
    (h : m.Corresponds m') {w w' : Word α} (hw : List.Forall₂ Interchangeable w w') :
    (m.scanOn v w).Corresponds (m'.scanOn v w') := by
  induction hw generalizing m m' with
  | nil => exact ⟨h.accepts_eq, h, rfl⟩
  | cons hs hw ih =>
      cases hdead : m.isDead with
      | true =>
          have hdead' : m'.isDead = true := by rw [← h.isDead_eq, hdead]
          rw [scanOn_cons_of_isDead v hdead, scanOn_cons_of_isDead v hdead']
          exact ⟨rfl, h, rfl⟩
      | false =>
          have hdead' : m'.isDead = false := by rw [← h.isDead_eq, hdead]
          have hrest := ih (h.read hs)
          rw [scanOn_cons_of_not_isDead v hdead, scanOn_cons_of_not_isDead v hdead']
          exact ⟨hrest.accepted, hrest.recognizer, congrArg (· + 1) hrest.pulled⟩

theorem Corresponds.scan [PartialEquivBEq α] (v : Verbosity) {m m' : Recognizer α}
    (h : m.pattern.Corresponds m'.pattern) {w w' : Word α}
    (hw : List.Forall₂ Interchangeable w w') : (m.scan v w).Corresponds (m'.scan v w') :=
  (Corresponds.start h).scanOn v hw

/-- Patterns that compare equal have equal sizes, answer alike for the empty word, and have
normal forms and derivatives that compare equal.  Recognizers of them that read words with
interchangeable symbols in all places compare equal after each symbol, and so do their scans
in answer, cost and end. -/
theorem run_beq_of_pattern_beq [PartialEquivBEq α] {r r' : Regex α} (h : (r == r') = true) :
    (∀ s s' : α, Interchangeable s s' → (r.derivative s == r'.derivative s') = true) ∧
      (r.normalForm == r'.normalForm) = true ∧
      r.size = r'.size ∧
      r.nullable = r'.nullable ∧
      ∀ w w' : Word α, List.Forall₂ Interchangeable w w' →
        (∀ n,
          let m := (start r).readAll (w.take n)
          let m' := (start r').readAll (w'.take n)
          (m.current == m'.current) = true ∧ m.consumed = m'.consumed ∧
            m.isDead = m'.isDead ∧ m.accepts = m'.accepts) ∧
        (∀ (v : Verbosity) (m m' : Recognizer α), m.pattern = r → m'.pattern = r' →
          (m.scan v w).accepted = (m'.scan v w').accepted ∧
            (m.scan v w).pulled = (m'.scan v w').pulled ∧
            (m.scan v w).recognizer.consumed = (m'.scan v w').recognizer.consumed ∧
            ((m.scan v w).recognizer.current == (m'.scan v w').recognizer.current) = true) ∧
        r.accepts w = r'.accepts w' := by
  have hr : r.Corresponds r' := Regex.beq_iff_corresponds.1 h
  refine ⟨fun s s' hs => Regex.beq_iff_corresponds.2 (hr.derivative hs),
    Regex.beq_iff_corresponds.2 hr.normalForm, hr.size_eq, hr.nullable_eq,
    fun w w' hw => ⟨fun n => ?_, fun v m m' hm hm' => ?_, ?_⟩⟩
  · have hrun := (Corresponds.start hr).readAll (List.forall₂_take n hw)
    exact ⟨Regex.beq_iff_corresponds.2 hrun.current, hrun.consumed, hrun.isDead_eq,
      hrun.accepts_eq⟩
  · subst hm hm'
    have hscan := Corresponds.scan v hr hw
    exact ⟨hscan.accepted, hscan.pulled, hscan.recognizer.consumed,
      Regex.beq_iff_corresponds.2 hscan.recognizer.current⟩
  · have hscan : ((start r).scan .silent w).Corresponds ((start r').scan .silent w') :=
      Corresponds.scan .silent hr hw
    exact hscan.accepted

end Recognizer

/-- Sample symbols: two zeros that compare equal, a one, and a symbol that compares equal to
nothing, not even to itself. -/
inductive Sample : Type where
  | zero
  | negativeZero
  | one
  | undefined

namespace Sample

/-- What a sample symbol is compared by. -/
def value : Sample → Option Nat
  | zero => some 0
  | negativeZero => some 0
  | one => some 1
  | undefined => none

instance : BEq Sample := ⟨fun a b => a.value.isSome && a.value == b.value⟩

instance : PartialEquivBEq Sample where
  symm := by rintro (_ | _ | _ | _) (_ | _ | _ | _) <;> decide
  trans := by rintro (_ | _ | _ | _) (_ | _ | _ | _) (_ | _ | _ | _) <;> decide

end Sample

/-- One zero in the pattern and the other in the word, and at the end a symbol that is the
same in both words without comparing equal. -/
theorem Recognizer.run_beq_of_pattern_beq_zeros :
    let r : Regex Sample := .star (.concat (.symbol .zero) (.symbol .one))
    let r' : Regex Sample := .star (.concat (.symbol .negativeZero) (.symbol .one))
    let w : Word Sample := [.negativeZero, .one, .zero, .undefined]
    let w' : Word Sample := [.zero, .one, .zero, .undefined]
    (r == r') = true ∧ List.Forall₂ Interchangeable w w' ∧
      (((start r).readAll (w.take 3)).current == ((start r').readAll (w'.take 3)).current) = true ∧
      ((start r).scan .silent w).recognizer.consumed =
        ((start r').scan .silent w').recognizer.consumed ∧
      r.accepts w = r'.accepts w' := by
  intro r r' w w'
  have h : (r == r') = true := by decide
  have hw : List.Forall₂ Interchangeable w w' :=
    .cons (.inr rfl) (.cons (.inl rfl) (.cons (.inr rfl) (.cons (.inl rfl) .nil)))
  obtain ⟨hsteps, hscans, haccepts⟩ := (run_beq_of_pattern_beq h).2.2.2.2 w w' hw
  exact ⟨h, hw, (hsteps 3).1, (hscans .silent (start r) (start r') rfl rfl).2.2.1, haccepts⟩

end RegexDerivatives
