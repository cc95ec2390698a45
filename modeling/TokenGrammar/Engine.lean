import TokenGrammar.Recognizer.Run
import TokenGrammar.Tables.Compile

/-!
# Engines

An engine compiles a grammar once and hands out recognizers that share its tables.
-/

namespace TokenGrammar

structure Engine where
  tables : Tables
  /-- The options of recognizers made from now on. Pruning is fixed when the tables are built. -/
  options : Options
  bufferLevel : Nat
  consoleLevel : Nat
  deriving DecidableEq

namespace Engine

/-- Compiles a grammar. The levels of `log`, to which the tables are reported, carry over to the
recognizers. -/
def build (g : Grammar) (options : Options) (log : Log) (elapsedMicros : Nat) :
    Except Failure (Engine × Log) := do
  let tables ← Tables.compile g options
  return (⟨tables, options, log.bufferLevel, log.consoleLevel⟩, tables.report elapsedMicros log)

def ofGrammar (g : Grammar) : Except Failure Engine := do
  return (← build g {} (.new 0 1) 0).1

/-- An engine that logs nothing. -/
def quietly (g : Grammar) (options : Options) : Except Failure Engine := do
  return (← build g options .quiet 0).1

def quiet (e : Engine) : Engine := { e with bufferLevel := 0, consoleLevel := 0 }

def recognizerWith (e : Engine) (bufferLevel : Nat) : Except Failure Recognizer :=
  Recognizer.start e.tables e.options (.new bufferLevel e.consoleLevel)

def recognizer (e : Engine) : Except Failure Recognizer := e.recognizerWith e.bufferLevel

def parse (e : Engine) (tokens : List Token) : Except Failure Verdict := do
  return (← (← e.recognizer).parse tokens).1

def recognize (e : Engine) (tokens : List Token) : Except Failure Bool := do
  return (← e.parse tokens).isAccept

def parseText (e : Engine) (s : String) : Except Failure Verdict := e.parse (Token.ofString s)

end Engine

/-- Whether an input is a sentence of a grammar. -/
def Grammar.recognize (g : Grammar) (tokens : List Token) : Except Failure Bool := do
  (← Engine.quietly g {}).recognize tokens

end TokenGrammar
