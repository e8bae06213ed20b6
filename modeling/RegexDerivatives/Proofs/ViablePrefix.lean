import RegexDerivatives.Proofs.EarlyStop
import RegexDerivatives.Proofs.LateAbsorption

/-!
# Viable prefixes

A word is a viable prefix of a regex when some described word begins with it.  To be dead
is a property of a tree, that its root is `empty`; this file compares it with the viability
of what has been read.

* What is dead has read no viable prefix.
* Conversely, a tree with all absorption done that is not `empty` describes some word,
  provided that each of its symbols compares equal to some symbol.  Derivatives have no
  symbols of their own, so this applies to every residual of a regex with that property.

Hence a scan stops as early as it can: at the shortest prefix that is not viable.
-/

namespace RegexDerivatives

universe u

variable {α : Type u} [BEq α]

namespace Regex

/-- Some described word begins with the given one. -/
def Viable (r : Regex α) (p : Word α) : Prop :=
  ∃ w, p <+: w ∧ r.Describes w

/-- Each symbol of the regex compares equal to some symbol. -/
def Matchable (r : Regex α) : Prop :=
  ∀ a ∈ r.symbols, ∃ s, (a == s) = true

/-- The lengths of the beginnings of a word, apart from the empty one, that are not viable
prefixes. -/
def deadLengths (r : Regex α) (w : Word α) : Set Nat :=
  {k | 1 ≤ k ∧ k ≤ w.length ∧ ¬ r.Viable (w.take k)}

/-! ## Regexes with words -/

/-- Symbols that compare equal to themselves can be matched. -/
theorem matchable_of_reflBEq [ReflBEq α] (r : Regex α) : r.Matchable :=
  fun a _ => ⟨a, beq_self_eq_true a⟩

theorem matchable_concat_iff {x y : Regex α} :
    (concat x y).Matchable ↔ x.Matchable ∧ y.Matchable :=
  List.forall_mem_append

theorem matchable_union_iff {x y : Regex α} :
    (union x y).Matchable ↔ x.Matchable ∧ y.Matchable :=
  List.forall_mem_append

/-- A regex that is not barren describes a word, if its symbols can be matched at all. -/
theorem exists_describes_of_not_barren {r : Regex α} (hsymbols : r.Matchable)
    (h : r.barren = false) : ∃ w, r.Describes w := by
  induction r with
  | empty => simp [barren] at h
  | epsilon => exact ⟨[], .epsilon⟩
  | symbol a =>
      obtain ⟨s, hs⟩ := hsymbols a (List.mem_singleton.2 rfl)
      exact ⟨[s], .symbol hs⟩
  | concat x y ihx ihy =>
      obtain ⟨hmatchx, hmatchy⟩ := matchable_concat_iff.1 hsymbols
      obtain ⟨hx, hy⟩ := Bool.or_eq_false_iff.1 h
      obtain ⟨u, hu⟩ := ihx hmatchx hx
      obtain ⟨v, hv⟩ := ihy hmatchy hy
      exact ⟨u ++ v, .concat hu hv⟩
  | union x y ihx ihy =>
      obtain ⟨hmatchx, hmatchy⟩ := matchable_union_iff.1 hsymbols
      -- One part that is not barren is enough.
      rcases Bool.and_eq_false_iff.1 h with hx | hy
      · obtain ⟨w, hw⟩ := ihx hmatchx hx
        exact ⟨w, .unionLeft hw⟩
      · obtain ⟨w, hw⟩ := ihy hmatchy hy
        exact ⟨w, .unionRight hw⟩
  | star x ih => exact ⟨[], .starNil⟩

/-! ## Viability and residuals -/

theorem viable_iff_exists_completion {r : Regex α} {p : Word α} :
    r.Viable p ↔ ∃ v, r.Describes (p ++ v) := by
  constructor
  · rintro ⟨w, ⟨v, rfl⟩, hw⟩
    exact ⟨v, hw⟩
  · rintro ⟨v, hv⟩
    exact ⟨p ++ v, List.prefix_append p v, hv⟩

theorem not_viable_of_residualBy_eq_empty {r : Regex α} {p : Word α}
    (h : r.residualBy p = empty) : ¬ r.Viable p := by
  intro hviable
  obtain ⟨v, hv⟩ := viable_iff_exists_completion.1 hviable
  rw [← describes_residualBy_iff, h] at hv
  exact not_describes_empty v hv

/-- Behind a prefix that is not viable nothing is left of a regex whose symbols can be
matched.  Before the first symbol this need not be so, because nothing has been absorbed
yet. -/
theorem residualBy_eq_empty_of_not_viable {r : Regex α} (hsymbols : r.Matchable) {p : Word α}
    (hp : p ≠ []) (h : ¬ r.Viable p) : r.residualBy p = empty := by
  obtain ⟨s, u, rfl⟩ := List.exists_cons_of_ne_nil hp
  rw [residualBy_cons_eq_normalForm, ← isEmpty_iff, isEmpty_normalForm]
  by_contra hbarren
  have hleft : (r.derivativeBy (s :: u)).Matchable :=
    fun a ha => hsymbols a (symbols_derivativeBy_subset r (s :: u) ha)
  obtain ⟨v, hv⟩ := exists_describes_of_not_barren hleft (Bool.eq_false_of_not_eq_true hbarren)
  exact h (viable_iff_exists_completion.2 ⟨v, describes_derivativeBy_iff.1 hv⟩)

/-- Apart from `empty` itself, the lengths after which nothing is left are the lengths of
the prefixes that are not viable. -/
theorem mem_deadLengths_iff {r : Regex α} (hsymbols : r.Matchable) (hr : r ≠ empty)
    {w : Word α} {k : Nat} :
    k ∈ r.deadLengths w ↔ k ≤ w.length ∧ r.residualBy (w.take k) = empty := by
  rcases Nat.eq_zero_or_pos k with rfl | hk
  · constructor
    · rintro ⟨hone, -⟩
      omega
    · rintro ⟨-, hempty⟩
      exact absurd hempty hr
  · have htake : k ≤ w.length → w.take k ≠ [] := by
      intro hle hnil
      have hlength := congrArg List.length hnil
      rw [List.length_take, List.length_nil] at hlength
      omega
    constructor
    · rintro ⟨-, hle, hviable⟩
      exact ⟨hle, residualBy_eq_empty_of_not_viable hsymbols (htake hle) hviable⟩
    · rintro ⟨hle, hempty⟩
      exact ⟨hk, hle, not_viable_of_residualBy_eq_empty hempty⟩

/-- A scan reads up to the shortest prefix that is not viable, or the whole word. -/
theorem length_readPart_eq_least_dead {r : Regex α} (hsymbols : r.Matchable) (hr : r ≠ empty)
    (w : Word α) :
    IsLeast (r.deadLengths w) (r.readPart w).length ∨
      r.deadLengths w = ∅ ∧ (r.readPart w).length = w.length := by
  obtain ⟨hmem, hleast⟩ := isLeast_length_readPart r w
  have hlower : (r.readPart w).length ∈ lowerBounds (r.deadLengths w) :=
    fun k hk => hleast (.inr ((mem_deadLengths_iff hsymbols hr).1 hk))
  by_cases hdead : (r.readPart w).length ∈ r.deadLengths w
  · exact .inl ⟨hdead, hlower⟩
  · right
    rcases hmem with hend | hempty
    · refine ⟨Set.eq_empty_of_forall_notMem fun k hk => ?_, hend⟩
      -- A dead length would be the length of the whole word, to which the scan has come.
      have hle : (r.readPart w).length ≤ k := hlower hk
      have hk' : k = (r.readPart w).length := Nat.le_antisymm (hend ▸ hk.2.1) hle
      exact hdead (hk' ▸ hk)
    · exact absurd ((mem_deadLengths_iff hsymbols hr).2 hempty) hdead

end Regex

namespace Recognizer

/-- A recognizer that has read a symbol and is dead has read no viable prefix.  If each
symbol of the pattern compares equal to some symbol, the converse holds as well, and a scan
reads nothing for the pattern `empty` and otherwise stops at the shortest prefix that is not
viable. -/
theorem early_stop_exact (m : Recognizer α) :
    (∀ p, p ≠ [] → (m.restart.readAll p).isDead = true → ¬ m.pattern.Viable p) ∧
      (m.pattern.Matchable →
        (∀ p, p ≠ [] → ¬ m.pattern.Viable p → (m.restart.readAll p).isDead = true) ∧
          ∀ (v : Verbosity) (w : Word α),
            (m.pattern = .empty → (m.scan v w).recognizer.consumed = 0) ∧
              (m.pattern ≠ .empty →
                IsLeast (m.pattern.deadLengths w) (m.scan v w).recognizer.consumed ∨
                  m.pattern.deadLengths w = ∅ ∧
                    (m.scan v w).recognizer.consumed = w.length)) := by
  have hdead : ∀ p, (m.restart.readAll p).isDead = true ↔ m.pattern.residualBy p = .empty := by
    intro p
    rw [isDead_iff, current_readAll]
    rfl
  refine ⟨fun p _ h => Regex.not_viable_of_residualBy_eq_empty ((hdead p).1 h), ?_⟩
  intro hsymbols
  refine ⟨fun p hp h => (hdead p).2 (Regex.residualBy_eq_empty_of_not_viable hsymbols hp h), ?_⟩
  intro v w
  rw [consumed_scan]
  refine ⟨fun hempty => ?_, fun hne => Regex.length_readPart_eq_least_dead hsymbols hne w⟩
  rw [hempty]
  cases w with
  | nil => rfl
  | cons s w => rfl

/-- Behind `a` and any number of `b` no `c` can follow, and a scan stops there. -/
theorem early_stop_exact_ab_star :
    let m : Recognizer Char := start (.concat (.symbol 'a') (.star (.symbol 'b')))
    m.pattern.Matchable ∧ m.pattern ≠ .empty ∧
      (m.restart.readAll ['a', 'c']).isDead = true ∧ ¬ m.pattern.Viable ['a', 'c'] ∧
      IsLeast (m.pattern.deadLengths ['a', 'c', 'b']) 2 ∧
      ((start (.empty : Regex Char)).scan .silent ['a']).recognizer.consumed = 0 := by
  intro m
  have hsymbols : m.pattern.Matchable := m.pattern.matchable_of_reflBEq
  have hne : m.pattern ≠ .empty := Regex.concat_ne_empty _ _
  obtain ⟨hsound, hexact⟩ := early_stop_exact m
  obtain ⟨hcomplete, hscan⟩ := hexact hsymbols
  have hviable : ¬ m.pattern.Viable ['a', 'c'] := hsound ['a', 'c'] (by decide) (by decide)
  have hempty : (start (.empty : Regex Char)).pattern.Matchable :=
    Regex.matchable_of_reflBEq .empty
  have hleast : IsLeast (m.pattern.deadLengths ['a', 'c', 'b']) 2 := by
    rcases (hscan .silent ['a', 'c', 'b']).2 hne with hleast | ⟨-, hall⟩
    · exact hleast
    · exact absurd hall (by decide)
  exact ⟨hsymbols, hne, hcomplete ['a', 'c'] (by decide) hviable, hviable, hleast,
    (((early_stop_exact (start (.empty : Regex Char))).2 hempty).2 .silent ['a']).1 rfl⟩

end Recognizer
end RegexDerivatives
