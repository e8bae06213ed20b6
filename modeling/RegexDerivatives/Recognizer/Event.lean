import RegexDerivatives.Recognizer.Basic
import RegexDerivatives.Regex.Text

/-!
# Events

While it reads, a recognizer reports each symbol that it has read and the symbol
at which it stops early.  How much of this is kept depends on the verbosity with
which it is run.
-/

namespace RegexDerivatives

universe u

/-- How much detail an event belongs to. -/
inductive Level : Type where
  | debug : Level
  | trace : Level
  deriving DecidableEq

/-- The name of a level. -/
def Level.name : Level → String
  | debug => "DEBUG"
  | trace => "TRACE"

/-- How much of what happens is kept. -/
inductive Verbosity : Type where
  /-- Nothing is kept. -/
  | silent : Verbosity
  /-- The early stops are kept. -/
  | debug : Verbosity
  /-- Everything is kept. -/
  | trace : Verbosity
  deriving DecidableEq

/-- Whether a verbosity keeps the events of a level. -/
def Verbosity.shows : Verbosity → Level → Bool
  | silent, _ => false
  | debug, .debug => true
  | debug, .trace => false
  | trace, _ => true

@[simp] theorem Verbosity.shows_trace (l : Level) : trace.shows l = true := rfl

/-- Something that a recognizer reports. -/
inductive Event (α : Type u) : Type u where
  /-- A symbol has been read: how many have been read with it, and what may
  still follow. -/
  | read (consumed : Nat) (s : α) (current : Regex α) : Event α
  /-- Nothing is left to match after so many symbols, and this one is not
  read. -/
  | stop (consumed : Nat) (s : α) : Event α

variable {α : Type u}

namespace Event

/-- Each symbol read is reported in the finer detail, an early stop in the
coarser. -/
def level : Event α → Level
  | read _ _ _ => .trace
  | stop _ _ => .debug

/-- The wording of an event. -/
def message [ToString α] : Event α → String
  | read n s r =>
      "derivation " ++ toString n ++ " by " ++ toString s ++ ": " ++ toString r ++
        " (" ++ toString r.size ++ " nodes)"
  | stop n s =>
      "no match possible after " ++ toString n ++ " symbols, stopping before " ++ toString s

end Event

/-- An event alone, if the verbosity keeps it. -/
def Verbosity.keep (v : Verbosity) (e : Event α) : List (Event α) :=
  if v.shows e.level then [e] else []

theorem Verbosity.keep_eq_filter (v : Verbosity) (e : Event α) :
    v.keep e = [e].filter fun e => v.shows e.level := by
  cases h : v.shows e.level <;> simp [keep, h]

namespace Recognizer

/-- The report of a symbol by the recognizer that has just read it. -/
def readEvent (m : Recognizer α) (s : α) : Event α :=
  .read m.consumed s m.current

/-- The report of a recognizer that stops before a symbol. -/
def stopEvent (m : Recognizer α) (s : α) : Event α :=
  .stop m.consumed s

end Recognizer
end RegexDerivatives
