import RegexDerivatives.Recognizer.Event

/-!
# Scanning a whole word

A scan starts over, reads a word symbol by symbol and stops as soon as nothing is
left to match.  Its outcome holds the answer, the recognizer where it stopped, the
number of symbols taken from the word and the events that were kept.  A symbol
that is taken and then not read, because the scan stops there, counts as taken.
-/

namespace RegexDerivatives

universe u

/-- What a scan leaves behind. -/
structure Outcome (α : Type u) : Type u where
  /-- Whether the whole word was accepted. -/
  accepted : Bool
  /-- The recognizer where the scan ended. -/
  recognizer : Recognizer α
  /-- How many symbols were taken from the word. -/
  pulled : Nat
  /-- The events kept, in the order in which they happened. -/
  events : List (Event α)

variable {α : Type u} [BEq α]

namespace Recognizer

/-- Read on from where the recognizer is, stopping before the first symbol for
which nothing is left to match. -/
def scanOn (v : Verbosity) (m : Recognizer α) : Word α → Outcome α
  | [] => { accepted := m.accepts, recognizer := m, pulled := 0, events := [] }
  | s :: w =>
      if m.isDead then
        { accepted := false, recognizer := m, pulled := 1, events := v.keep (m.stopEvent s) }
      else
        let next := m.read s
        let kept := v.keep (next.readEvent s)
        let rest := scanOn v next w
        { rest with pulled := rest.pulled + 1, events := kept ++ rest.events }

/-- Start over and read a whole word. -/
def scan (v : Verbosity) (m : Recognizer α) (w : Word α) : Outcome α :=
  m.restart.scanOn v w

@[simp] theorem scanOn_nil (v : Verbosity) (m : Recognizer α) :
    m.scanOn v [] =
      { accepted := m.accepts, recognizer := m, pulled := 0, events := [] } := rfl

/-- A dead recognizer takes the next symbol and stops. -/
theorem scanOn_cons_of_isDead (v : Verbosity) {m : Recognizer α} (h : m.isDead = true)
    (s : α) (w : Word α) :
    m.scanOn v (s :: w) =
      { accepted := false, recognizer := m, pulled := 1, events := v.keep (m.stopEvent s) } := by
  simp [scanOn, h]

/-- A recognizer that is not dead reads the next symbol and goes on. -/
theorem scanOn_cons_of_not_isDead (v : Verbosity) {m : Recognizer α} (h : m.isDead = false)
    (s : α) (w : Word α) :
    m.scanOn v (s :: w) =
      { (m.read s).scanOn v w with
        pulled := ((m.read s).scanOn v w).pulled + 1
        events := v.keep ((m.read s).readEvent s) ++ ((m.read s).scanOn v w).events } := by
  simp [scanOn, h]

/-- The pattern alone decides the outcome of a scan: whatever was read before is
forgotten. -/
theorem scan_eq_scan_start (v : Verbosity) (m : Recognizer α) (w : Word α) :
    m.scan v w = (start m.pattern).scan v w := rfl

end Recognizer

namespace Regex

/-- Scan a whole word with a recognizer of its own. -/
def scan (v : Verbosity) (r : Regex α) (w : Word α) : Outcome α :=
  (Recognizer.start r).scan v w

/-- Whether a regex accepts a whole word. -/
def accepts (r : Regex α) (w : Word α) : Bool :=
  (r.scan .silent w).accepted

/-- Scan the characters of a text. -/
def scanText (v : Verbosity) (r : Regex Char) (text : String) : Outcome Char :=
  r.scan v text.toList

/-- Whether a regex over characters accepts a whole text. -/
def acceptsText (r : Regex Char) (text : String) : Bool :=
  r.accepts text.toList

end Regex
end RegexDerivatives
