import Mathlib.Data.List.Forall2
import RegexDerivatives.Recognizer.Scan
import RegexDerivatives.Proofs.SessionHistory

/-!
# What a run learns of its word

A recognizer looks at its word only by comparing symbols of the pattern with symbols of
the word.  Two words that no such comparison tells apart lead it through the same states,
and their scans differ in nothing but the symbols that the events name.

The symbols to compare with are those of the residual that is reached, while the words are
only known to be alike for the symbols of the pattern.  What carries the argument along a
word is that residuals have no symbols of their own (`symbols_residual_subset`).
-/

namespace RegexDerivatives

universe u

variable {α : Type u}

/-- What an event says apart from the symbol that it names. -/
def Event.redact : Event α → Nat × Option (Regex α)
  | read n _ r => (n, some r)
  | stop n _ => (n, none)

/-- The two outcomes differ at most in the symbols that their events name. -/
structure Outcome.Alike (o o' : Outcome α) : Prop where
  accepted : o.accepted = o'.accepted
  recognizer : o.recognizer = o'.recognizer
  pulled : o.pulled = o'.pulled
  events : o.events.map Event.redact = o'.events.map Event.redact

theorem map_redact_keep {v : Verbosity} {e e' : Event α} (hlevel : e.level = e'.level)
    (h : e.redact = e'.redact) : (v.keep e).map Event.redact = (v.keep e').map Event.redact := by
  unfold Verbosity.keep
  rw [← hlevel]
  split
  · rw [List.map_singleton, List.map_singleton, h]
  · rfl

variable [BEq α]

namespace Regex

/-- No symbol of the regex tells the two symbols apart. -/
def Indistinct (r : Regex α) (s s' : α) : Prop :=
  ∀ a ∈ r.symbols, (a == s) = (a == s')

instance (r : Regex α) (s s' : α) : Decidable (r.Indistinct s s') :=
  inferInstanceAs (Decidable (∀ a ∈ r.symbols, (a == s) = (a == s')))

theorem Indistinct.mono {r r' : Regex α} {s s' : α} (h : r.Indistinct s s')
    (hsymbols : r'.symbols ⊆ r.symbols) : r'.Indistinct s s' :=
  fun a ha => h a (hsymbols ha)

theorem indistinct_concat_iff {x y : Regex α} {s s' : α} :
    (concat x y).Indistinct s s' ↔ x.Indistinct s s' ∧ y.Indistinct s s' :=
  List.forall_mem_append

theorem indistinct_union_iff {x y : Regex α} {s s' : α} :
    (union x y).Indistinct s s' ↔ x.Indistinct s s' ∧ y.Indistinct s s' :=
  List.forall_mem_append

/-! ## Residuals -/

theorem derivative_congr {r : Regex α} {s s' : α} (h : r.Indistinct s s') :
    r.derivative s = r.derivative s' := by
  induction r with
  | empty => rfl
  | epsilon => rfl
  | symbol a =>
      have ha : (a == s) = (a == s') := h a (List.mem_singleton.2 rfl)
      rw [derivative_symbol, derivative_symbol, ha]
  | concat x y ihx ihy =>
      obtain ⟨hx, hy⟩ := indistinct_concat_iff.1 h
      rw [derivative_concat, derivative_concat, ihx hx, ihy hy]
  | union x y ihx ihy =>
      obtain ⟨hx, hy⟩ := indistinct_union_iff.1 h
      rw [derivative_union, derivative_union, ihx hx, ihy hy]
  | star x ih => rw [derivative_star, derivative_star, ih h]

theorem residual_congr {r : Regex α} {s s' : α} (h : r.Indistinct s s') :
    r.residual s = r.residual s' := by
  unfold residual
  rw [derivative_congr h]

/-- What no symbol of a regex tells apart, no symbol of its residual does. -/
theorem forall₂_indistinct_residual {r : Regex α} {w w' : Word α}
    (h : List.Forall₂ r.Indistinct w w') (s : α) :
    List.Forall₂ (r.residual s).Indistinct w w' :=
  h.imp fun _ _ hs => hs.mono (symbols_residual_subset r s)

end Regex

namespace Recognizer

/-! ## Runs -/

theorem read_congr {m : Recognizer α} {s s' : α} (h : m.current.Indistinct s s') :
    m.read s = m.read s' := by
  unfold read
  rw [Regex.residual_congr h]

/-- Words that the residual does not tell apart leave the same state behind. -/
theorem readAll_congr {m : Recognizer α} {w w' : Word α}
    (h : List.Forall₂ m.current.Indistinct w w') : m.readAll w = m.readAll w' := by
  induction w generalizing m w' with
  | nil =>
      cases h
      rfl
  | cons s w ih =>
      cases h with
      | cons hs hw =>
          -- Both recognizers are now in one state, and the rests of the words are alike for
          -- its residual too.
          rw [readAll_cons, readAll_cons, ← read_congr hs]
          exact ih (Regex.forall₂_indistinct_residual hw s)

/-- One scan beside the other: both stop at the same symbol or read it and go on. -/
theorem scanOn_congr (v : Verbosity) {m : Recognizer α} {w w' : Word α}
    (h : List.Forall₂ m.current.Indistinct w w') : (m.scanOn v w).Alike (m.scanOn v w') := by
  induction w generalizing m w' with
  | nil =>
      cases h
      exact ⟨rfl, rfl, rfl, rfl⟩
  | cons s w ih =>
      cases h with
      | @cons _ s' _ w' hs hw =>
          cases hdead : m.isDead with
          | true =>
              rw [scanOn_cons_of_isDead v hdead, scanOn_cons_of_isDead v hdead]
              exact ⟨rfl, rfl, rfl, map_redact_keep rfl rfl⟩
          | false =>
              have hrest : ((m.read s).scanOn v w).Alike ((m.read s).scanOn v w') :=
                ih (Regex.forall₂_indistinct_residual hw s)
              have hread : (v.keep ((m.read s).readEvent s)).map Event.redact =
                  (v.keep ((m.read s).readEvent s')).map Event.redact :=
                map_redact_keep rfl rfl
              rw [scanOn_cons_of_not_isDead v hdead, scanOn_cons_of_not_isDead v hdead,
                ← read_congr hs]
              refine ⟨hrest.accepted, hrest.recognizer, congrArg (· + 1) hrest.pulled, ?_⟩
              rw [List.map_append, List.map_append, hread, hrest.events]

theorem symbols_current_readAll_subset (r : Regex α) (w : Word α) :
    ((start r).readAll w).current.symbols ⊆ r.symbols := by
  rw [current_readAll_start]
  exact Regex.symbols_residualBy_subset r w

/-- Whatever is done with a pattern, no recognizer in use or saved ever holds a symbol that
the pattern does not have. -/
theorem symbols_current_actAll_subset (r : Regex α) (actions : List (Action α)) :
    ∀ m ∈ ((Session.start r).actAll r actions).recognizer ::
        ((Session.start r).actAll r actions).saved, m.current.symbols ⊆ r.symbols := by
  rw [← Histories.session_actAll_start]
  intro m hm
  rcases List.mem_cons.1 hm with rfl | hsaved
  · exact symbols_current_readAll_subset r _
  · obtain ⟨u, -, rfl⟩ := List.mem_map.1 hsaved
    exact symbols_current_readAll_subset r u

/-- Words that no symbol of the pattern tells apart lead a recognizer through equal states,
one after each symbol, and their scans have equal answers, end in equal states and take
equally many symbols; the events differ in the symbols that they name only.  And no state
that can be reached holds a symbol that the pattern does not have. -/
theorem comparisons_determine_run (m : Recognizer α) :
    (∀ w w' : Word α, List.Forall₂ m.pattern.Indistinct w w' →
        (∀ n, m.restart.readAll (w.take n) = m.restart.readAll (w'.take n)) ∧
          ∀ v : Verbosity, (m.scan v w).Alike (m.scan v w')) ∧
      (∀ w : Word α, (m.restart.readAll w).current.symbols ⊆ m.pattern.symbols) ∧
      ∀ actions : List (Action α),
        ∀ m' ∈ ((Session.start m.pattern).actAll m.pattern actions).recognizer ::
            ((Session.start m.pattern).actAll m.pattern actions).saved,
          m'.current.symbols ⊆ m.pattern.symbols := by
  refine ⟨fun w w' h => ⟨fun n => ?_, fun v => ?_⟩, fun w => ?_, fun actions => ?_⟩
  · exact readAll_congr (List.forall₂_take n h)
  · exact scanOn_congr v h
  · exact symbols_current_readAll_subset m.pattern w
  · exact symbols_current_actAll_subset m.pattern actions

/-- Neither `c` nor `x` occurs in a regex of `a` and `b`, so a scan stops behind the one as
it stops behind the other. -/
theorem comparisons_determine_run_ab_star :
    let m : Recognizer Char := start (.concat (.symbol 'a') (.star (.symbol 'b')))
    List.Forall₂ m.pattern.Indistinct ['a', 'c', 'b'] ['a', 'x', 'b'] ∧
      m.restart.readAll ['a', 'c'] = m.restart.readAll ['a', 'x'] ∧
      (m.scan .trace ['a', 'c', 'b']).Alike (m.scan .trace ['a', 'x', 'b']) ∧
      (m.scan .trace ['a', 'c', 'b']).pulled = 3 := by
  intro m
  have h : List.Forall₂ m.pattern.Indistinct ['a', 'c', 'b'] ['a', 'x', 'b'] := by decide
  obtain ⟨hstates, hscans⟩ := (comparisons_determine_run m).1 _ _ h
  exact ⟨h, hstates 2, hscans .trace, by decide⟩

end Recognizer
end RegexDerivatives
