import FormalLang.Proofs.Automaton.Compiling

/-!
# Replaying the steps of Thompson's construction

The steps that Thompson's construction records are enough to build its automaton again
(`rebuild_fragment`).  There is one step for each entry of the listing, in its order
(`Regex.records_fragment`).

**The stack.**  A step for an operator does not say which parts it is applied to: they are on top of
a stack, where the steps for the operands have put them.  The steps of an expression therefore put
one part on the stack, whatever lies there already (`Replay.run_fragment`).

**The numbers.**  A step that adds states says which numbers they have.  The replay adds them only
if these are the next two, so that it fails if a step is missing or out of place.
-/

namespace FormalLang

/-! ## 1. What is recorded -/

/-- Whether a step is the one that is recorded for an entry of a listing. -/
inductive Records : Entry → Step → Prop where
  | leaf (s : Leaf) (start accept : Nat) : Records (.leaf s) (.symbol s.label start accept)
  | star (start accept : Nat) : Records (.operator .star) (.star start accept)
  | concat (source target : Nat) : Records (.operator .concat) (.concat source target)
  | union (start accept : Nat) : Records (.operator .union) (.union start accept)

/-- **Every entry of a listing has its step**, and the steps are in the order of the entries. -/
theorem Regex.records_fragment (e : Regex) :
    ∀ free : Nat, List.Forall₂ Records e.listing (e.fragment free).steps := by
  induction e with
  | leaf s => exact fun free => .cons (.leaf s free (free + 1)) .nil
  | concat l r ihl ihr =>
    exact fun free => List.rel_append (List.rel_append (ihl free) (ihr _))
      (.cons (.concat _ _) .nil)
  | union l r ihl ihr =>
    exact fun free => List.rel_append (List.rel_append (ihl free) (ihr _))
      (.cons (.union _ _) .nil)
  | star e ih => exact fun free => List.rel_append (ih free) (.cons (.star _ _) .nil)

/-! ## 2. The replay -/

/-- **A replay in progress**: the states and edges so far, and the parts that no operator has been
applied to yet, the last one on top. -/
structure Replay where
  builder : NfaBuilder
  parts : List Ends

namespace NfaBuilder

/-- Adds two states, which have to be the next ones. -/
def addPair (b : NfaBuilder) (start accept : Nat) : Option NfaBuilder :=
  if start = b.nextId ∧ accept = b.nextId + 1 then some b.addState.addState else none

end NfaBuilder

namespace Replay

/-- The part that a step makes between two new states, with edges to and from them. -/
def enclose (r : Replay) (start accept : Nat) (edges : List Edge) (below : List Ends) :
    Option Replay := do
  let b ← r.builder.addPair start accept
  let b ← (b.addEdges edges).toOption
  return ⟨b, ⟨start, accept⟩ :: below⟩

/-- **Does again what a step has done.** -/
def step (r : Replay) : Step → Option Replay
  | .symbol label start accept => r.enclose start accept [⟨start, label, accept⟩] r.parts
  | .star start accept =>
    match r.parts with
    | inner :: below =>
      r.enclose start accept
        [⟨start, .epsilon, inner.start⟩, ⟨start, .epsilon, accept⟩,
          ⟨inner.accept, .epsilon, inner.start⟩, ⟨inner.accept, .epsilon, accept⟩] below
    | _ => none
  | .union start accept =>
    match r.parts with
    | right :: left :: below =>
      r.enclose start accept
        [⟨start, .epsilon, left.start⟩, ⟨start, .epsilon, right.start⟩,
          ⟨left.accept, .epsilon, accept⟩, ⟨right.accept, .epsilon, accept⟩] below
    | _ => none
  | .concat source target =>
    match r.parts with
    | right :: left :: below =>
      if source = left.accept ∧ target = right.start then do
        let b ← (r.builder.addEdges [⟨source, .epsilon, target⟩]).toOption
        return ⟨b, ⟨left.start, right.accept⟩ :: below⟩
      else none
    | _ => none
  | _ => none

/-- Does again what steps have done, one after the other. -/
def run (r : Replay) (steps : List Step) : Option Replay := steps.foldlM step r

end Replay

/-- **The automaton that steps build**, which has the ends of the one part that they leave. -/
def rebuild (steps : List Step) : Option Nfa := do
  let r ← Replay.run ⟨.empty, []⟩ steps
  match r.parts with
  | [ends] => (r.builder.build ends.start ends.accept).toOption
  | _ => none

/-! ## 3. What is built again -/

open Compiler (Rooted ends)

theorem NfaBuilder.addPair_ofEdges {size : Nat} {edges : List Edge} (h : Rooted size edges) :
    (ofEdges size edges).addPair size (size + 1) = some (ofEdges (size + 2) edges) := by
  rw [addPair, nextId_ofEdges, if_pos ⟨rfl, rfl⟩, addState_ofEdges h,
    addState_ofEdges (h.mono (Nat.le_succ size))]

namespace Replay

/-- The replay after a fragment has been built. -/
def after (f : Fragment) (edges : List Edge) (below : List Ends) : Replay :=
  ⟨.ofEdges f.next (edges ++ f.edges), ends f :: below⟩

variable {size : Nat} {edges : List Edge} {below : List Ends} {f l r : Fragment}

theorem enclose_ofEdges {later : List Edge} {parts : List Ends} (h : Rooted size edges)
    (hlater : Rooted (size + 2) later) :
    enclose ⟨.ofEdges size edges, parts⟩ size (size + 1) later below =
      some ⟨.ofEdges (size + 2) (edges ++ later), ⟨size, size + 1⟩ :: below⟩ := by
  simp only [enclose, NfaBuilder.addPair_ofEdges h, NfaBuilder.addEdges_ofEdges hlater,
    Except.toOption, bind, Option.bind, pure]

theorem step_leaf (h : Rooted size edges) (s : Leaf) :
    step ⟨.ofEdges size edges, below⟩ (.symbol s.label size (size + 1)) =
      some (after (.ofLeaf s size) edges below) :=
  enclose_ofEdges h (Rooted.of_tight (Fragment.tight_ofLeaf s size))

theorem step_star (h : Rooted size edges) (tight : f.Tight size) :
    step (after f edges below) (.star f.next (f.next + 1)) = some (after f.star edges below) := by
  have hmade := @enclose_ofEdges f.next (edges ++ f.edges) below
    [⟨f.next, .epsilon, f.start⟩, ⟨f.next, .epsilon, f.next + 1⟩,
      ⟨f.accept, .epsilon, f.start⟩, ⟨f.accept, .epsilon, f.next + 1⟩] (ends f :: below)
    (h.fragment tight) (Rooted.of_tight tight.star).right
  rw [List.append_assoc] at hmade
  exact hmade

theorem step_concat (tight : l.Tight size) (tight' : r.Tight l.next) :
    step (after r (edges ++ l.edges) (ends l :: below)) (.concat l.accept r.start) =
      some (after (l.concat r) edges below) := by
  have hadded := @NfaBuilder.addEdges_ofEdges r.next [⟨l.accept, .epsilon, r.start⟩]
    (edges ++ l.edges ++ r.edges) (Rooted.of_tight (tight.concat tight')).right
  simp only [step, after, ends, hadded, Except.toOption, bind, Option.bind, pure, and_self, if_true,
    Fragment.concat, ← List.append_assoc]

theorem step_union (h : Rooted size edges) (tight : l.Tight size) (tight' : r.Tight l.next) :
    step (after r (edges ++ l.edges) (ends l :: below)) (.union r.next (r.next + 1)) =
      some (after (l.union r) edges below) := by
  have hmade := @enclose_ofEdges r.next (edges ++ l.edges ++ r.edges) below
    [⟨r.next, .epsilon, l.start⟩, ⟨r.next, .epsilon, r.start⟩,
      ⟨l.accept, .epsilon, r.next + 1⟩, ⟨r.accept, .epsilon, r.next + 1⟩]
    (ends r :: ends l :: below) ((h.fragment tight).fragment tight')
    (Rooted.of_tight (tight.union tight')).right
  simp only [List.append_assoc] at hmade
  simp only [step, after, ends, Fragment.union, List.append_assoc]
  exact hmade

/-! ## 4. Expressions -/

/-- One more step. -/
theorem run_concat {before after : Replay} {steps : List Step} {last : Step}
    (h : before.run steps = some after) : before.run (steps ++ [last]) = after.step last := by
  rw [run] at h
  rw [run, List.foldlM_append, h]
  exact bind_pure (after.step last)

/-- The steps of two operands. -/
theorem run_append {before between after : Replay} {first second : List Step}
    (h : before.run first = some between) (h' : between.run second = some after) :
    before.run (first ++ second) = some after := by
  rw [run] at h
  rw [run, List.foldlM_append, h]
  exact h'

/-- **The steps of an expression put its fragment on the stack**, whatever lies there. -/
theorem run_fragment (e : Regex) : ∀ {size : Nat} {edges : List Edge} (below : List Ends),
    Rooted size edges → run ⟨.ofEdges size edges, below⟩ (e.fragment size).steps =
      some (after (e.fragment size) edges below) := by
  induction e with
  | leaf s =>
    intro size edges below h
    exact (bind_pure _).trans (step_leaf h s)
  | concat l r ihl ihr =>
    intro size edges below h
    have tight := l.tight_fragment size
    have hoperands := run_append (ihl below h) (ihr _ (h.fragment tight))
    exact (run_concat hoperands).trans (step_concat tight (r.tight_fragment _))
  | union l r ihl ihr =>
    intro size edges below h
    have tight := l.tight_fragment size
    have hoperands := run_append (ihl below h) (ihr _ (h.fragment tight))
    exact (run_concat hoperands).trans (step_union h tight (r.tight_fragment _))
  | star e ih =>
    intro size edges below h
    exact (run_concat (ih below h)).trans (step_star h (e.tight_fragment size))

end Replay

/-- **The steps of Thompson's construction build its automaton again.** -/
theorem rebuild_fragment (e : Regex) : rebuild (e.fragment 0).steps = some e.toNfa := by
  have hbegin : Rooted 0 [] := nofun
  have hrun : Replay.run ⟨.empty, []⟩ (e.fragment 0).steps = _ := Replay.run_fragment e [] hbegin
  rw [rebuild, hrun]
  simp only [bind, Option.bind, Replay.after, ends, List.nil_append, e.build_fragment]
  rfl

end FormalLang
