import FormalLang.Proofs.Grammar.Leftmost
import FormalLang.Proofs.Predictive.Termination

/-!
# A trace is a leftmost derivation

A parse records every action with the stack and the input before it.  Read as a whole, the trace is
a leftmost derivation of what was matched so far followed by the stack (`Parser.parse_trace`), and
if the input is accepted, it is the only leftmost derivation of the input.

* **Every step keeps the derivation going** (`Faithful.derivesLeftmost`): a match moves a terminal
  from the stack to what was matched, and a replacement is a leftmost step.
* **There is no other derivation.**  A run makes the choices of every derivation that agrees with it
  on the terminals up to the next one (`Faithful.yieldsBy_of_runs`).  The stacks are `Guarded`, so
  that the next terminal predicts the choice of the derivation, and a cell holds one body.
-/

namespace FormalLang

/-! ## 1. Actions and derivations -/

/-- **What an action does to a configuration.**  A match takes the terminal off the stack and off
the input; a replacement puts a body of the variable in its place, the first goal on top. -/
inductive Grammar.Acts (g : Grammar) : Configuration → Action → Configuration → Prop where
  | matched (t : Terminal) (rest : List Goal) (input : List Terminal) :
      Acts g ⟨.terminal t :: rest, t :: input⟩ (.matched t) ⟨rest, input⟩
  | expanded {name : String} {body : Body} (rule : body ∈ g.bodiesOf name) (rest : List Goal)
      (input : List Terminal) :
      Acts g ⟨.variable name :: rest, input⟩ (.expanded name body) ⟨body.goals ++ rest, input⟩

/-- **What the trace of a parse says** about a grammar and the terminals of the input. -/
structure LeftmostTrace (g : Grammar) (terminals : List Terminal) (parse : Parse) : Prop where
  finished : parse.verdict ≠ .unfinished
  first : ∃ action later, parse.trace =
    ⟨⟨[.variable g.start, .terminal .endOfInput], terminals ++ [.endOfInput]⟩, action⟩ :: later
  next : ∀ earlier s s' later, parse.trace = earlier ++ s :: s' :: later →
    g.Acts s.before s.action s'.before
  /-- What was matched and what is ahead make up the input. -/
  input : ∀ earlier s later, parse.trace = earlier ++ s :: later →
    terminals ++ [.endOfInput] = matchedIn earlier ++ s.before.input
  derived : ∀ earlier s later, parse.trace = earlier ++ s :: later →
    g.DerivesLeftmost (choicesIn earlier) [.variable g.start, .terminal .endOfInput]
      ((matchedIn earlier).map .terminal ++ s.before.stack)
  /-- A failure is recorded in the last step and in no other. -/
  failed : ∀ e, parse.verdict = .rejected e → (∀ remaining, e ≠ .leftoverInput remaining) →
    ∃ earlier c, parse.trace = earlier ++ [⟨c, .failed e⟩] ∧
      ∀ s ∈ earlier, ∀ e', s.action ≠ .failed e'
  unfailed : (parse.verdict = .accepted ∨
      ∃ remaining, parse.verdict = .rejected (.leftoverInput remaining)) →
    ∀ s ∈ parse.trace, ∀ e, s.action ≠ .failed e
  /-- The replacements are the only leftmost derivation of an accepted input. -/
  unique : parse.verdict = .accepted → ∀ choices,
    g.DerivesLeftmost choices [.variable g.start] (terminals.map .terminal) ↔
      choices = choicesIn parse.trace

namespace ParseTable

variable {g : Grammar} {first : FirstSets} {follow : FollowSets} {t : ParseTable}
  {c d last : Configuration} {steps earlier later ending : List TraceStep} {s : TraceStep}
  {verdict : Verdict}

/-! ## 2. What a run derives -/

section Faithful

variable (faithful : Faithful g first follow t)

include faithful

theorem Faithful.acts (run : t.Runs c [s] d) : g.Acts s.before s.action d := by
  rcases run with _ | h | ⟨hcell, h⟩
  · rw [← h.eq_of_nil]
    exact .matched _ _ _
  · rw [← h.eq_of_nil]
    exact .expanded (faithful.predicted _ _ _ hcell).1 _ _

/-- **A run is a leftmost derivation** of what it matches, followed by the stack that it leaves. -/
theorem Faithful.derivesLeftmost (run : t.Runs c steps last) :
    g.DerivesLeftmost (choicesIn steps) c.stack
      ((matchedIn steps).map .terminal ++ last.stack) := by
  induction run with
  | nil c => exact .refl _
  | matched _ ih => exact ih.cons _
  | expanded hcell _ ih => exact .step [] _ (faithful.predicted _ _ _ hcell).1 ih

/-- **A run makes the choices of every derivation that agrees with it** on what it matches and on
the terminal after that; so the rest of the derivation is one from the stack that the run leaves. -/
theorem Faithful.yieldsBy_of_runs (run : t.Runs c steps last) : Guarded g follow c.stack →
    ∀ {choices : List (String × Body)} {other : List Terminal},
      other.head? = last.input.head? → g.YieldsBy choices c.stack (matchedIn steps ++ other) →
        Guarded g follow last.stack ∧ ∃ choices', choices = choicesIn steps ++ choices' ∧
          g.YieldsBy choices' last.stack other := by
  induction run with
  | nil c => exact fun guarded choices other _ h => ⟨guarded, choices, rfl, h⟩
  | matched _ ih =>
    rintro (_ | guarded) choices other hhead (_ | h | _)
    exact ih guarded hhead h
  | @expanded name a cell rest input steps last hcell run ih =>
    rintro (_ | _ | ⟨known, guarded⟩) choices other hhead h
    -- the next terminal is the same for the run and for the derivation
    have hnext : (matchedIn steps ++ other).head? = some a := by
      rw [List.head?_append, hhead, ← List.head?_append, ← run.input_eq]
      rfl
    obtain ⟨ahead, hahead⟩ := List.head?_eq_some_iff.mp hnext
    rcases h with _ | _ | @⟨_, body, choices, _, _, rule, h⟩
    have hyields : g.Yields (body.goals ++ rest) (a :: ahead) := hahead ▸ h.yields
    obtain ⟨cell', hcell', rfl⟩ := faithful.cells name body rule a
      (predicts_of_yields faithful.closedFirst known hyields)
    obtain rfl := Option.some.inj (hcell.symm.trans hcell')
    have hbodies : Guarded g follow (cell.body.goals ++ rest) :=
      Guarded.bodies faithful.closedFirst faithful.closed rule known guarded fun _ _ h => h
    obtain ⟨hlast, choices', rfl, hchoices'⟩ := ih hbodies hhead h
    exact ⟨hlast, choices', rfl, hchoices'⟩

section Accepted

variable {terminals : List Terminal} {choices : List (String × Body)}
  (run : t.Runs ⟨[.variable g.start, .terminal .endOfInput], terminals ++ [.endOfInput]⟩ steps
    ⟨[], []⟩)

include run

/-- An accepting run makes the choices of every derivation of its input. -/
theorem Faithful.eq_choicesIn (h : g.YieldsBy choices [.variable g.start] terminals) :
    choices = choicesIn steps := by
  have hend : g.YieldsBy [] [.terminal .endOfInput] [.endOfInput] := .take .nil
  have hyields := h.append hend
  rw [show terminals ++ [.endOfInput] = matchedIn steps ++ [] from run.input_eq,
    List.append_nil choices] at hyields
  obtain ⟨-, choices', rfl, hnil⟩ :=
    faithful.yieldsBy_of_runs run (guarded_initial faithful.closed) rfl hyields
  rw [(Grammar.yieldsBy_nil_iff.mp hnil).1, List.append_nil]

/-- An accepting run is a derivation of its input with the end behind it. -/
theorem Faithful.generates_of_accepted : g.Generates g.start terminals := by
  have hderives := (faithful.derivesLeftmost run).derives
  rw [List.append_nil] at hderives
  obtain ⟨u, hu, hgenerates⟩ := Grammar.yields_initial_iff.mp (hderives.yields rfl)
  have hinput : terminals ++ [.endOfInput] = u ++ [.endOfInput] := by
    rw [← hu, ← List.append_nil (matchedIn steps)]
    exact run.input_eq
  rwa [List.append_cancel_right hinput]

/-- **An accepting run is the only leftmost derivation** of its input. -/
theorem Faithful.derivesLeftmost_iff_of_accepted :
    g.DerivesLeftmost choices [.variable g.start] (terminals.map .terminal) ↔
      choices = choicesIn steps := by
  rw [Grammar.derivesLeftmost_iff_yieldsBy]
  refine ⟨faithful.eq_choicesIn run, ?_⟩
  rintro rfl
  have hyields := Grammar.generates_iff_yields.mp (faithful.generates_of_accepted run)
  obtain ⟨choices, hchoices⟩ := Grammar.exists_yieldsBy_iff.mpr hyields
  rwa [← faithful.eq_choicesIn run hchoices]

end Accepted

theorem Faithful.acts_of_trace_eq (run : t.Runs c steps last)
    (stops : t.Stops last ending verdict) {s' : TraceStep}
    (h : steps ++ ending = earlier ++ s :: s' :: later) : g.Acts s.before s.action s'.before := by
  rw [List.append_cons] at h
  obtain ⟨d, -, hstep⟩ := (run.of_trace_eq stops h).split
  rw [← hstep.before_eq] at hstep
  exact faithful.acts hstep

/-- **A run of a faithful table and its end** make a trace that is a leftmost derivation. -/
theorem Faithful.leftmostTrace {terminals : List Terminal}
    (run : t.Runs ⟨[.variable g.start, .terminal .endOfInput], terminals ++ [.endOfInput]⟩ steps
      last) (stops : t.Stops last ending verdict) :
    LeftmostTrace g terminals ⟨steps ++ ending, verdict⟩ where
  finished := stops.ne_unfinished
  first := run.exists_first stops
  next earlier s s' later h := faithful.acts_of_trace_eq run stops h
  input earlier s later h := (run.of_trace_eq stops h).input_eq
  derived earlier s later h := faithful.derivesLeftmost (run.of_trace_eq stops h)
  failed e h hne := by
    obtain rfl : verdict = .rejected e := h
    obtain rfl := stops.ending_of_failed hne
    exact ⟨steps, last, rfl, run.not_failed⟩
  unfailed h := by
    obtain rfl := stops.ending_of_unfailed h
    rw [List.append_nil]
    exact run.not_failed
  unique h choices := by
    obtain rfl : verdict = .accepted := h
    obtain ⟨rfl, rfl⟩ := stops.eq_of_accepted
    rw [List.append_nil]
    exact faithful.derivesLeftmost_iff_of_accepted run

end Faithful

end ParseTable

/-! ## 3. Parsers -/

namespace Parser

variable {g : Grammar} {p : Parser}

/-- A parse is a run of the table, from the start and the whole input. -/
theorem exists_runs_of_parse (wellFormed : g.WellFormed) (h : ofGrammar g = .ok p)
    (input : List Char) : ∃ steps last ending, (p.parse input).trace = steps ++ ending ∧
      p.table.Runs ⟨[.variable g.start, .terminal .endOfInput], tokens input ++ [.endOfInput]⟩
        steps last ∧ p.table.Stops last ending (p.parse input).verdict := by
  have hfinished := verdict_ne_unfinished wellFormed h input
  rw [← (ofGrammar_eq_ok h).1]
  exact ParseTable.exists_runs _ hfinished

/-- **The trace of a parse is a leftmost derivation**, whichever way the grammar was obtained and
however the parse ends, and if the input is accepted, it is the only one. -/
theorem parse_trace (obtained : g.Obtained) (h : ofGrammar g = .ok p) (input : List Char) :
    LeftmostTrace g (tokens input) (p.parse input) := by
  have wellFormed := obtained.wellFormed
  obtain ⟨first, follow, faithful⟩ := exists_faithful wellFormed h
  obtain ⟨steps, last, ending, htrace, run, stops⟩ := exists_runs_of_parse wellFormed h input
  have htrace' := faithful.leftmostTrace run stops
  rwa [← htrace] at htrace'

/-- `a $ b` is derived in one way from the left, which is the one that the trace shows. -/
theorem parse_trace_listThenEnd :
    listThenEnd.Obtained ∧ ofGrammar listThenEnd = .ok listThenEndParser ∧
      (listThenEndParser.parse "a $ b".toList).verdict = .accepted ∧
      ∀ choices, listThenEnd.DerivesLeftmost choices [.variable "S"]
          [.terminal (.named "a"), .terminal .endOfInput, .terminal (.named "b")] ↔
        choices = [("S", [.variable "A", .terminal .endOfInput, .terminal (.named "b")]),
          ("A", [.terminal (.named "a"), .variable "A"]), ("A", [.epsilon])] := by
  have hparser : ofGrammar listThenEnd = .ok listThenEndParser := by decide
  have haccepted : (listThenEndParser.parse "a $ b".toList).verdict = .accepted := by decide
  have htokens : tokens "a $ b".toList = [.named "a", .endOfInput, .named "b"] := by decide
  have hchoices : choicesIn (listThenEndParser.parse "a $ b".toList).trace =
    [("S", [.variable "A", .terminal .endOfInput, .terminal (.named "b")]),
      ("A", [.terminal (.named "a"), .variable "A"]), ("A", [.epsilon])] := by decide
  have hunique := (parse_trace listThenEnd_obtained hparser "a $ b".toList).unique haccepted
  rw [htokens, hchoices] at hunique
  exact ⟨listThenEnd_obtained, hparser, haccepted, hunique⟩

end Parser

end FormalLang
