/-!
# Leveled logs

A log keeps messages up to its buffer level and shows messages up to its console level. Level 0 is
silent, 1 warnings, 2 information, 3 details. What is shown on the console is not kept here.
-/

namespace TokenGrammar

structure Log where
  bufferLevel : Nat
  consoleLevel : Nat
  buffer : String
  deriving DecidableEq, Repr

namespace Log

def new (bufferLevel consoleLevel : Nat) : Log := ⟨bufferLevel, consoleLevel, ""⟩

def quiet : Log := new 0 0

def fresh (l : Log) : Log := { l with buffer := "" }

def enabled (l : Log) (level : Nat) : Bool := level ≤ max l.bufferLevel l.consoleLevel

/-- Keeps a text if the buffer takes its level. -/
def write (l : Log) (level : Nat) (s : String) : Log :=
  if level ≤ l.bufferLevel then { l with buffer := l.buffer ++ s } else l

def writeWarning (l : Log) (s : String) : Log := l.write 1 s

def writeInfo (l : Log) (s : String) : Log := l.write 2 s

def warn (l : Log) (s : String) : Log :=
  if l.enabled 1 then ((l.writeWarning "Warning: ").writeWarning s).writeWarning "\n" else l

def info (l : Log) (s : String) : Log :=
  if l.enabled 2 then (l.writeInfo s).writeInfo "\n" else l

def drain (l : Log) : String × Log := (l.buffer, l.fresh)

end Log

end TokenGrammar
