import FormalLang.Automaton.Builder
import FormalLang.Fault

/-!
# What a computation takes for granted

Computations rely on facts that they do not check: what they look up is there, and certain cases do
not come up.  A computation in which these facts are checked after all returns a `Lapse` where one
of them does not hold.
-/

namespace FormalLang

/-- **A fact that was taken for granted and does not hold.** -/
inductive Lapse where
  /-- Something was looked up that does not exist. -/
  | fault (f : Fault)
  /-- `ε` is on the stack of a parser. -/
  | epsilonOnStack
  /-- A parser goes on after a failure. -/
  | failurePerformed
  /-- A parenthesis stands in a listing. -/
  | parenInListing
  /-- An operator finds the operand stack empty. -/
  | missingOperand
  /-- A listing leaves more than one operand. -/
  | operandsLeft
  /-- A builder refuses to go on. -/
  | refused (r : NfaBuilder.Refusal)
  /-- More or fewer numbers were given out than there are states. -/
  | miscounted
  /-- A state gets two targets for one character. -/
  | twoTargets
  /-- A state is left whose moves were not computed. -/
  | stateLeft
  /-- A position that a word can end with has no entry for what follows it. -/
  | missingEntry
  /-- A member of a state is no position of a character or the end marker. -/
  | silentMember
  /-- There is no end marker behind an expression. -/
  | missingEndMarker
  deriving DecidableEq

end FormalLang
