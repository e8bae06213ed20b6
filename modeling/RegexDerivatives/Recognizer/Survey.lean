import RegexDerivatives.Recognizer.Scan

/-!
# Surveys

A survey scans word after word with one recognizer and records which words were
accepted, how many were tried and how many symbols were read in all.
-/

namespace RegexDerivatives

universe u

/-- The result of scanning a list of words. -/
structure Survey (α : Type u) : Type u where
  /-- The accepted words, in the order in which they were tried. -/
  accepted : List (Word α)
  /-- The number of words tried. -/
  tried : Nat
  /-- The number of symbols read in all. -/
  consumed : Nat
  /-- The events kept. -/
  events : List (Event α)

variable {α : Type u} [BEq α]

/-- Scan the words of a list one after the other. -/
def Recognizer.survey (v : Verbosity) (m : Recognizer α) : List (Word α) → Survey α
  | [] => { accepted := [], tried := 0, consumed := 0, events := [] }
  | w :: words =>
      let outcome := m.scan v w
      let rest := survey v outcome.recognizer words
      { accepted := if outcome.accepted then w :: rest.accepted else rest.accepted
        tried := rest.tried + 1
        consumed := outcome.recognizer.consumed + rest.consumed
        events := outcome.events ++ rest.events }

/-- Scan all words over an alphabet up to a length, shortest first. -/
def Regex.survey (v : Verbosity) (r : Regex α) (alphabet : Word α) (maxLength : Nat) : Survey α :=
  (Recognizer.start r).survey v (Word.upToLength alphabet maxLength)

end RegexDerivatives
