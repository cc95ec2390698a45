import TokenGrammar.Builder.Rules
import TokenGrammar.Engine

/-!
# Sample grammars

Small grammars that exercise every shape of recursion, each written as a program for a builder that
returns the root expression, and checks that run engines on texts.
-/

namespace TokenGrammar.Samples

open Builder

/-- The token of a character. -/
private def char (c : Char) : BuildM NodeRef := equal (Token.ofChar c)

/-- The characters `lo` to `hi`. -/
private def chars (lo hi : Char) : BuildM NodeRef := tokenRange (Token.ofChar lo) (Token.ofChar hi)

private def oneOf (s : String) : BuildM NodeRef := do select (← s.toList.mapM char)

/-- `list ::= 'a' list?` -/
def rightList : BuildM NodeRef := do
  let list ← define "list" fun list => do
    let a ← char 'a'
    let tail ← maybe (← call list)
    seq a tail
  call list

/-- `name ::= name name | 'a'` -/
private def doubled (name : String) : BuildM NodeRef := do
  let r ← define name fun r => do
    let left ← call r
    let right ← call r
    let both ← seq left right
    alt both (← char 'a')
  call r

/-- `list ::= list list | 'a'` -/
def ambiguousList : BuildM NodeRef := doubled "list"

/-- `s ::= s s | 'a'`; every split of the input is a derivation. -/
def superAmbiguous : BuildM NodeRef := doubled "s"

/-- `list ::= 'a'? list?`; nullable, and recursive in tail position. -/
def nullableList : BuildM NodeRef := do
  let list ← define "list" fun list => do
    let a ← maybe (← char 'a')
    let tail ← maybe (← call list)
    seq a tail
  call list

/-- `a ::= b; b ::= 't' a?` -/
def indirectList : BuildM NodeRef := do
  let a ← rule "a"
  let b ← rule "b"
  setBody a (← call b)
  let t ← char 't'
  let tail ← maybe (← call a)
  setBody b (← seq t tail)
  call a

/-- `r1 ::= 'a' r2 | 'x'; r2 ::= 'b' r3; ...; rN ::= 'z' r1` in the order given by the letters. Each
rule is reached only through the one before it. -/
def indirectRecursion (letters : String) : BuildM NodeRef := do
  let rules ← letters.toList.mapM fun c => rule ("r" ++ String.singleton c)
  let next := rules.drop 1 ++ rules.take 1
  for ((c, r, after), i) in (letters.toList.zip (rules.zip next)).zipIdx do
    let t ← char c
    let body ← seq t (← call after)
    let body ← if i = 0 then do alt body (← char 'x') else pure body
    setBody r body
  call (← inRange rules.head?)

/-- `'(' r ')'` -/
private def inParens (r : RuleRef) : BuildM NodeRef := do
  let opening ← char '('
  let inner ← call r
  let closing ← char ')'
  join [opening, inner, closing]

/-- `a0 ::= a1; a1 ::= a2; ...; a{n} ::= 'x' | '(' a0 ')'` -/
def aliasChain (n : Nat) : BuildM NodeRef := do
  let top ← rule "a0"
  let rest ← (List.range n).mapM fun i => rule ("a" ++ toString (i + 1))
  for (r, next) in (top :: rest).zip rest do
    setBody r (← call next)
  let x ← char 'x'
  setBody ((top :: rest).getLast (by simp)) (← alt x (← inParens top))
  call top

/-- Three rules that are aliases of each other in a cycle:
`a ::= b | 'x' | '(' a ')'; b ::= c | 'y'; c ::= a | 'z'` -/
def mutualAlias : BuildM NodeRef := do
  let a ← rule "a"
  let b ← rule "b"
  let c ← rule "c"
  let callB ← call b
  let x ← char 'x'
  let parens ← inParens a
  setBody a (← select [callB, x, parens])
  let callC ← call c
  setBody b (← alt callC (← char 'y'))
  let callA ← call a
  setBody c (← alt callA (← char 'z'))
  call a

/-- `e ::= e '+' 'x' | 'x'` -/
def leftRecursiveSum : BuildM NodeRef := do
  let e ← define "e" fun e => do
    let again ← call e
    let sum ← seq again (← literal "+x")
    alt sum (← char 'x')
  call e

/-- `left op right`, where `op` is one of the characters of a text. -/
private def binary (left : RuleRef) (ops : String) (right : RuleRef) : BuildM NodeRef := do
  let l ← call left
  let op ← oneOf ops
  let r ← call right
  join [l, op, r]

/-- `expr ::= expr op expr | '1'` over `+ - * /`. -/
def ambiguousExpr : BuildM NodeRef := do
  let expr ← define "expr" fun expr => do
    let both ← binary expr "+-*/" expr
    alt both (← char '1')
  call expr

/-- Expressions layered by precedence, grouped to the left:

    sum     ::= sum ('+' | '-') product | product
    product ::= product ('*' | '/') atom | atom
    atom    ::= number | '(' sum ')'
    number  ::= ['0'-'9']+ -/
def layeredExpr : BuildM NodeRef := do
  let sum ← rule "sum"
  let product ← rule "product"
  let atom ← rule "atom"
  let number ← rule "number"
  setBody number (← plus (← chars '0' '9'))
  let num ← call number
  setBody atom (← alt num (← inParens sum))
  let both ← binary product "*/" atom
  setBody product (← alt both (← call atom))
  let both ← binary sum "+-" product
  setBody sum (← alt both (← call product))
  call sum

/-- `parens ::= ('(' parens ')')*` -/
def balancedParens : BuildM NodeRef := do
  let parens ← define "parens" fun parens => do star (← inParens parens)
  call parens

/-- Identifiers `[a-z_][a-z0-9_]*`, separated by commas. -/
def identifierList : BuildM NodeRef := do
  let ident ← define "ident" fun _ => do
    let lower ← chars 'a' 'z'
    let head ← alt lower (← char '_')
    let lower ← chars 'a' 'z'
    let digit ← chars '0' '9'
    let under ← char '_'
    let tail ← star (← select [lower, digit, under])
    seq head tail
  let first ← call ident
  let comma ← char ','
  let more ← star (← seq comma (← call ident))
  seq first more

/-- The grammar of a sample. -/
def grammar (sample : BuildM NodeRef) : Except Failure Grammar := grammarOf 0 sample

/-- `1+1-1*1/...1` with `n` operators. -/
def exprInput (n : Nat) : String :=
  String.ofList
    ((List.range n).flatMap (fun i =>
      ['1', match i % 4 with | 0 => '+' | 1 => '-' | 2 => '*' | _ => '/']) ++ ['1'])

/-- Fails unless each of the texts is a sentence. -/
def checkAccepts (e : Engine) (inputs : List String) : Except Failure Unit :=
  inputs.forM fun s => do
    if (← e.parseText s) ≠ .accept then fault .checkFailed

/-- Fails unless each of the texts is rejected at the given offset. -/
def checkRejects (e : Engine) (inputs : List (String × Nat)) : Except Failure Unit :=
  inputs.forM fun (s, offset) => do
    if (← e.parseText s) ≠ .reject offset then fault .checkFailed

/-- Fails unless pruning keeps the verdict on each of the texts. -/
def checkPruning (sample : BuildM NodeRef) (inputs : List String) : Except Failure Unit := do
  let pruned ← Engine.quietly (← grammar sample) {}
  let full ← Engine.quietly (← grammar sample) { pruneDeadContinuations := false }
  if full.tables.stats.callEntries < pruned.tables.stats.callEntries then fault .checkFailed
  inputs.forM fun s => do
    if (← pruned.parseText s) ≠ (← full.parseText s) then fault .checkFailed

end TokenGrammar.Samples
