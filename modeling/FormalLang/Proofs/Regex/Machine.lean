import FormalLang.Proofs.Regex.Operands

/-!
# Constructions that read a listing

A construction that reads a listing keeps a stack of results: an operator takes the results of its
operands from it and puts its own on it.  An `OperandMachine` is what a construction does at a leaf
and at each operator; that the stack always has what it is asked for is shown here for all of them.

On the listing of an expression, a machine does what its parts make of the expression, whatever lies
on the stack (`OperandMachine.performs`): each operator finds its operands on top of the stack, and
in the end one result is left (`OperandMachine.read_tokens`).
-/

namespace FormalLang

/-- **A construction that reads listings**: what it does at a leaf and at each operator, given the
results of the operands.  It has a state besides, in which it keeps what it has built. -/
structure OperandMachine (σ ρ : Type) where
  leaf : Leaf → σ → Except Lapse (σ × ρ)
  star : ρ → σ → Except Lapse (σ × ρ)
  concat : ρ → ρ → σ → Except Lapse (σ × ρ)
  union : ρ → ρ → σ → Except Lapse (σ × ρ)

namespace OperandMachine

variable {σ ρ : Type}

/-! ## 1. Reading a listing -/

/-- Puts a result on the stack. -/
def push (below : List ρ) (made : σ × ρ) : σ × List ρ := (made.1, made.2 :: below)

/-- Reads one token, the last operand being on top of the stack. -/
def step (m : OperandMachine σ ρ) (token : Token) (s : σ) (stack : List ρ) :
    Except Lapse (σ × List ρ) :=
  match token.kind, stack with
  | .leaf symbol, _ => (m.leaf symbol s).map (push stack)
  | .operator .star, inner :: below => (m.star inner s).map (push below)
  | .operator .concat, right :: left :: below => (m.concat left right s).map (push below)
  | .operator .union, right :: left :: below => (m.union left right s).map (push below)
  | .operator _, _ => .error .missingOperand
  | .openParen, _ => .error .parenInListing
  | .closeParen, _ => .error .parenInListing

/-- Reads tokens, one after the other. -/
def run (m : OperandMachine σ ρ) : List Token → σ → List ρ → Except Lapse (σ × List ρ)
  | [], s, stack => .ok (s, stack)
  | token :: rest, s, stack => do
    let (s, stack) ← m.step token s stack
    m.run rest s stack

/-- Reads a listing, and takes the one result that it leaves. -/
def read (m : OperandMachine σ ρ) (listing : List Token) (s : σ) : Except Lapse (σ × ρ) :=
  match m.run listing s [] with
  | .error l => .error l
  | .ok (_, []) => .error .missingOperand
  | .ok (s, [result]) => .ok (s, result)
  | .ok (_, _ :: _ :: _) => .error .operandsLeft

/-! ## 2. Listings of expressions -/

/-- What the parts of a machine make of an expression, operands first. -/
def ofRegex (m : OperandMachine σ ρ) : Regex → σ → Except Lapse (σ × ρ)
  | .leaf symbol, s => m.leaf symbol s
  | .concat l r, s => do
    let (s, left) ← m.ofRegex l s
    let (s, right) ← m.ofRegex r s
    m.concat left right s
  | .union l r, s => do
    let (s, left) ← m.ofRegex l s
    let (s, right) ← m.ofRegex r s
    m.union left right s
  | .star e, s => do
    let (s, inner) ← m.ofRegex e s
    m.star inner s

section Operands

variable {m : OperandMachine σ ρ} {a b : Regex} {s s' s'' : σ} {left right : ρ}

theorem ofRegex_concat (ha : m.ofRegex a s = .ok (s', left))
    (hb : m.ofRegex b s' = .ok (s'', right)) :
    m.ofRegex (.concat a b) s = m.concat left right s'' := by
  rw [ofRegex, ha]
  simp only [bind, Except.bind, hb]

theorem ofRegex_union (ha : m.ofRegex a s = .ok (s', left))
    (hb : m.ofRegex b s' = .ok (s'', right)) :
    m.ofRegex (.union a b) s = m.union left right s'' := by
  rw [ofRegex, ha]
  simp only [bind, Except.bind, hb]

theorem ofRegex_star (ha : m.ofRegex a s = .ok (s', left)) :
    m.ofRegex (.star a) s = m.star left s' := by
  rw [ofRegex, ha]
  rfl

end Operands

/-- Whether a machine does on the listing of an expression what its parts make of the expression, on
top of whatever lies on the stack. -/
def Performs (m : OperandMachine σ ρ) (e : Regex) : Prop :=
  ∀ {items : List Item} (s : σ) (stack : List ρ) (rest : List Token),
    items.map Item.entry = e.listing →
      m.run (items.map Item.token ++ rest) s stack =
        (m.ofRegex e s).bind fun made => m.run rest made.1 (made.2 :: stack)

variable {m : OperandMachine σ ρ}

/-- A token that makes a result goes on with it on the stack. -/
theorem run_cons_of_step {token : Token} {s : σ} {stack below : List ρ}
    {made : Except Lapse (σ × ρ)} (h : m.step token s stack = made.map (push below))
    (rest : List Token) :
    m.run (token :: rest) s stack = made.bind fun made => m.run rest made.1 (made.2 :: below) := by
  rw [run, h]
  cases made with
  | error l => rfl
  | ok made => rfl

/-- An operator behind two operands. -/
theorem Performs.binary {a b : Regex} (ha : m.Performs a) (hb : m.Performs b) {last : Token}
    {op : ρ → ρ → σ → Except Lapse (σ × ρ)}
    (hlast : ∀ s left right below,
      m.step last s (right :: left :: below) = (op left right s).map (push below))
    {left right : List Item} (hleft : left.map Item.entry = a.listing)
    (hright : right.map Item.entry = b.listing) (s : σ) (stack : List ρ) (rest : List Token) :
    m.run (left.map Item.token ++ (right.map Item.token ++ last :: rest)) s stack =
      (do
        let (s, l) ← m.ofRegex a s
        let (s, r) ← m.ofRegex b s
        op l r s).bind fun made => m.run rest made.1 (made.2 :: stack) := by
  rw [ha s stack _ hleft]
  cases m.ofRegex a s with
  | error l => rfl
  | ok l =>
    refine (hb l.1 (l.2 :: stack) _ hright).trans ?_
    simp only [bind, Except.bind]
    cases m.ofRegex b l.1 with
    | error l => rfl
    | ok r => exact run_cons_of_step (hlast _ _ _ _) rest

/-- **A machine finds the operands of every operator**, and leaves one result. -/
theorem performs (m : OperandMachine σ ρ) : ∀ e : Regex, m.Performs e := by
  intro e
  induction e with
  | leaf symbol =>
    intro items s stack rest h
    obtain ⟨⟨_, _⟩, rfl, rfl⟩ := List.map_eq_singleton_iff.mp h
    exact run_cons_of_step rfl rest
  | concat a b iha ihb =>
    intro items s stack rest h
    obtain ⟨left, right, _, rfl, hleft, hright⟩ := Postfix.exists_items_of_binary h
    rw [List.map_append, List.map_append, List.append_assoc, List.append_assoc]
    exact iha.binary ihb (fun _ _ _ _ => rfl) hleft hright s stack rest
  | union a b iha ihb =>
    intro items s stack rest h
    obtain ⟨left, right, _, rfl, hleft, hright⟩ := Postfix.exists_items_of_binary h
    rw [List.map_append, List.map_append, List.append_assoc, List.append_assoc]
    exact iha.binary ihb (fun _ _ _ _ => rfl) hleft hright s stack rest
  | star a iha =>
    intro items s stack rest h
    obtain ⟨inner, _, rfl, hinner⟩ := Postfix.exists_items_of_unary h
    rw [List.map_append, List.append_assoc, iha _ _ _ hinner, ofRegex]
    cases m.ofRegex a s with
    | error l => rfl
    | ok made => exact run_cons_of_step rfl rest

/-- **What a machine reads in the listing of an expression** is what its parts make of it. -/
theorem read_tokens (m : OperandMachine σ ρ) {p : Postfix}
    (h : p.items.map Item.entry = p.expression.listing) (s : σ) :
    m.read p.tokens s = m.ofRegex p.expression s := by
  have hrun := m.performs p.expression s [] [] h
  rw [List.append_nil] at hrun
  rw [read, Postfix.tokens, hrun]
  cases m.ofRegex p.expression s with
  | error l => rfl
  | ok made => rfl

end OperandMachine

end FormalLang
