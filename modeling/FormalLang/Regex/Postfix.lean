import FormalLang.Regex.Token

/-!
# From text to listing

The front end of the regular expressions turns a text into the listing of one expression.  It works
in passes over the tokens, and each pass rejects what it finds first from the left:

1. `checkParens`: every parenthesis has a partner;
2. `insertConcat`: concatenation becomes an operator of its own;
3. `checkOperators`: `|` and `*` stand next to operands;
4. `shunt`: the operators move behind their operands, by precedence and to the left;
5. `evaluate`: the listing has all its operands, and the expression is read off it.

The last pass also meets the empty groups, such as in `a()b`, that the earlier ones let through.
-/

namespace FormalLang

/-- An entry of a listing with the position of its token. -/
structure Item where
  entry : Entry
  position : Nat
  deriving DecidableEq

/-- **A listing of one expression**, with the expression that it lists. -/
structure Postfix where
  items : List Item
  expression : Regex
  deriving DecidableEq

namespace Postfix

/-! ## 1. Parentheses -/

/-- Looks for a parenthesis without partner, with the positions of those open so far, innermost
first: the leftmost `)` that closes nothing, or else the rightmost `(` that is never closed. -/
def checkParens : List Nat → List Token → Except RegexError Unit
  | [], [] => .ok ()
  | p :: _, [] => .error (.unbalancedParen p)
  | opened, token :: rest =>
    match token.kind with
    | .openParen => checkParens (token.position :: opened) rest
    | .closeParen =>
      match opened with
      | [] => .error (.unbalancedParen token.position)
      | _ :: outer => checkParens outer rest
    | _ => checkParens opened rest

/-! ## 2. Explicit concatenation -/

/-- Puts a concatenation between neighbours of which one ends an operand and the other begins
one. -/
def insertConcat : List Token → List Token
  | [] => []
  | [token] => [token]
  | token :: next :: rest =>
    if token.kind.endsOperand && next.kind.startsOperand then
      token :: ⟨.operator .concat, next.position⟩ :: insertConcat (next :: rest)
    else token :: insertConcat (next :: rest)

/-! ## 3. Operators next to their operands -/

/-- Whether a token has the neighbours it needs: `|` an operand on both sides, `*` one before. -/
def isComplete (afterOperand beforeOperand : Bool) : TokenKind → Bool
  | .operator .union => afterOperand && beforeOperand
  | .operator .star => afterOperand
  | _ => true

/-- Looks for the leftmost operator without its operands.  The flag says whether an operand ends
right before the tokens. -/
def checkOperators (afterOperand : Bool) : List Token → Except RegexError Unit
  | [] => .ok ()
  | token :: rest =>
    let beforeOperand := rest.head?.any fun next => next.kind.startsOperand
    if isComplete afterOperand beforeOperand token.kind then
      checkOperators token.kind.endsOperand rest
    else
      match token.kind with
      | .operator op => .error (.missingOperand op.toChar token.position)
      | _ => checkOperators token.kind.endsOperand rest

/-! ## 4. Operators behind their operands -/

/-- What waits on the operator stack: an open group, or an operator with its position. -/
inductive Waiting where
  | group
  | operator (op : Operator) (position : Nat)
  deriving DecidableEq

/-- Releases the operators of the innermost group, and closes the group. -/
def closeGroup : List Waiting → List Item × List Waiting
  | [] => ([], [])
  | .group :: rest => ([], rest)
  | .operator op p :: rest =>
    let released := closeGroup rest
    (⟨.operator op, p⟩ :: released.1, released.2)

/-- Releases the operators that bind at least as tightly as `op`, up to the innermost group. -/
def releaseTighter (op : Operator) : List Waiting → List Item × List Waiting
  | .operator top p :: rest =>
    if op.precedence ≤ top.precedence then
      let released := releaseTighter op rest
      (⟨.operator top, p⟩ :: released.1, released.2)
    else ([], .operator top p :: rest)
  | stack => ([], stack)

/-- Releases all operators. -/
def releaseAll : List Waiting → List Item
  | [] => []
  | .group :: rest => releaseAll rest
  | .operator op p :: rest => ⟨.operator op, p⟩ :: releaseAll rest

/-- The shunting-yard pass: leaves are written at once, operators when a weaker one or the end of
their group arrives. -/
def shunt (stack : List Waiting) : List Token → List Item
  | [] => releaseAll stack
  | token :: rest =>
    match token.kind with
    | .leaf s => ⟨.leaf s, token.position⟩ :: shunt stack rest
    | .openParen => shunt (.group :: stack) rest
    | .closeParen =>
      let released := closeGroup stack
      released.1 ++ shunt released.2 rest
    | .operator op =>
      let released := releaseTighter op stack
      released.1 ++ shunt (.operator op token.position :: released.2) rest

/-! ## 5. Reading a listing -/

/-- Reads a listing with a stack of expressions, the last one on top. -/
def evaluate (stack : List Regex) : List Item → Except RegexError (List Regex)
  | [] => .ok stack
  | item :: rest =>
    match item.entry, stack with
    | .leaf s, _ => evaluate (.leaf s :: stack) rest
    | .operator .star, e :: below => evaluate (.star e :: below) rest
    | .operator .concat, r :: l :: below => evaluate (.concat l r :: below) rest
    | .operator .union, r :: l :: below => evaluate (.union l r :: below) rest
    | .operator op, _ => .error (.missingOperand op.toChar item.position)

/-- The listing of a sequence of tokens. -/
def ofTokens (tokens : List Token) : Except RegexError Postfix :=
  match checkParens [] tokens with
  | .error e => .error e
  | .ok () =>
    let explicit := insertConcat tokens
    match checkOperators false explicit with
    | .error e => .error e
    | .ok () =>
      let items := shunt [] explicit
      match evaluate [] items with
      | .error e => .error e
      | .ok [] => .error .emptyExpression
      | .ok (e :: _) => .ok ⟨items, e⟩

/-! ## 6. The front end -/

/-- The listing of the expression that a text denotes. -/
def ofText (cs : List Char) : Except RegexError Postfix :=
  match Token.scan cs with
  | .error e => .error e
  | .ok tokens => ofTokens tokens

/-- A sequence of tokens in parentheses, with the end marker behind it. -/
def augmentTokens (length : Nat) (tokens : List Token) : List Token :=
  ⟨.openParen, 0⟩ :: tokens ++ [⟨.closeParen, length⟩, ⟨.leaf .endMarker, length⟩]

/-- The listing of the expression that a text denotes, with the end marker behind it.  The text is
checked on its own first, so that errors point into it. -/
def augmentedOfText (cs : List Char) : Except RegexError Postfix :=
  match Token.scan cs with
  | .error e => .error e
  | .ok tokens =>
    match ofTokens tokens with
    | .error e => .error e
    | .ok _ => ofTokens (augmentTokens cs.length tokens)

/-- The text of a listing: one character for each entry. -/
def text (p : Postfix) : String := String.ofList (p.items.map fun item => item.entry.toChar)

end Postfix

end FormalLang
