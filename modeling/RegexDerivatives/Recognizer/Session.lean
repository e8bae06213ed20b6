import RegexDerivatives.Recognizer.Scan

/-!
# Sessions

A session is one recognizer in use, together with a stack of saved copies of it.
Each command changes the session and may report events; a scan also has an
outcome.
-/

namespace RegexDerivatives

universe u

/-- What can be asked of a recognizer in use. -/
inductive Command (α : Type u) : Type u where
  /-- Read one symbol. -/
  | read (s : α) : Command α
  /-- Forget the symbols read so far. -/
  | restart : Command α
  /-- Start over and read a whole word. -/
  | scan (w : Word α) : Command α
  /-- Save a copy of the recognizer. -/
  | save : Command α
  /-- Go on with the copy that was saved last, which is then no longer saved.
  Without a saved copy nothing changes. -/
  | restore : Command α

/-- A recognizer in use and the copies saved of it, the last one first. -/
structure Session (α : Type u) : Type u where
  /-- The recognizer in use. -/
  recognizer : Recognizer α
  /-- The saved copies. -/
  saved : List (Recognizer α)

/-- What a command leads to. -/
structure Reply (α : Type u) : Type u where
  /-- The session after the command. -/
  session : Session α
  /-- The outcome of the command, if it was a scan. -/
  outcome : Option (Outcome α)
  /-- The events kept. -/
  events : List (Event α)

namespace Session

variable {α : Type u}

/-- The session of a pattern before the first command. -/
def start (r : Regex α) : Session α where
  recognizer := .start r
  saved := []

/-- The reply to a command. -/
def reply [BEq α] (v : Verbosity) (t : Session α) : Command α → Reply α
  | .read s =>
      let next := t.recognizer.read s
      { session := { t with recognizer := next }
        outcome := none
        events := v.keep (next.readEvent s) }
  | .restart =>
      { session := { t with recognizer := t.recognizer.restart }
        outcome := none
        events := [] }
  | .scan w =>
      let outcome := t.recognizer.scan v w
      { session := { t with recognizer := outcome.recognizer }
        outcome := some outcome
        events := outcome.events }
  | .save =>
      { session := { t with saved := t.recognizer :: t.saved }
        outcome := none
        events := [] }
  | .restore =>
      match t.saved with
      | [] => { session := t, outcome := none, events := [] }
      | m :: saved =>
          { session := { recognizer := m, saved := saved }, outcome := none, events := [] }

/-- The replies to commands given one after the other. -/
def replies [BEq α] (v : Verbosity) (t : Session α) : List (Command α) → List (Reply α)
  | [] => []
  | c :: commands =>
      let first := t.reply v c
      first :: replies v first.session commands

end Session
end RegexDerivatives
