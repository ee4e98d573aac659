/-! Messages for the people who run the tool. They are part of what a step gives back. -/

namespace BrightCoverage

inductive LogLevel where
  | debug | warn
deriving DecidableEq

structure LogEntry where
  level : LogLevel
  message : String
deriving DecidableEq

def LogEntry.ofLine (level : LogLevel) (line : Nat) (message : String) : LogEntry :=
  ⟨level, "line " ++ toString line ++ ": " ++ message⟩

end BrightCoverage
