/-!
Messages of the builders.
-/
namespace PolicyFormat.Builder

/-- How serious a message is. -/
inductive Level where
  | info | warning | error
deriving Repr, BEq

/-- A message. -/
structure Message where
  level : Level
  text : String
deriving Repr, BEq

def Message.line (m : Message) : String :=
  (match m.level with
    | .info => ""
    | .warning => "WARNING: "
    | .error => "ERROR: ") ++ m.text ++ "\n"

def logText (messages : List Message) : String :=
  String.join (messages.map (·.line))

end PolicyFormat.Builder
