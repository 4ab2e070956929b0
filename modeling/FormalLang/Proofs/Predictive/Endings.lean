import FormalLang.Proofs.Predictive.Earliest

/-!
# What the failures at the end of the input mean

The end of the input is a terminal like any other: it stands at the bottom of the stack, bodies and
inputs may contain it, and one more is put behind the input.  Still the two failures that have to do
with the end mean what they say (`Parser.parse_failures_at_end`).

* **Leftover input.**  The stack is empty, so that the end at its bottom has been matched.  What was
  matched before is a word of the grammar, and the end that was matched with it is in the input.
* **Unexpected end.**  Everything has been matched, the end behind the input last, and the stack is
  not empty.  That end was not matched with the one at the bottom, which would have left nothing.
  So a body brought in the one that it was matched with (`BroughtIn`).

If neither the bodies nor the input have an end of their own, there is nothing for either failure to
be about, and an input can only be rejected at one of its tokens.
-/

namespace FormalLang

/-! ## 1. Where a goal on the stack comes from -/

/-- **Whether a body has brought a goal onto the stack**, above what is below it, and the goal has
been there ever since. -/
inductive BroughtIn (g : Grammar) (goal : Goal) (below : List Goal) : List TraceStep → Prop where
  | expanded {name : String} {body : Body} {rest front back : List Goal} {input : List Terminal}
      {later : List TraceStep} (rule : body ∈ g.bodiesOf name)
      (hgoals : body.goals = front ++ goal :: back) (hbelow : below = back ++ rest)
      (held : ∀ s ∈ later, goal :: below <:+ s.before.stack) :
      BroughtIn g goal below (⟨⟨.variable name :: rest, input⟩, .expanded name body⟩ :: later)
  | later (s : TraceStep) {steps : List TraceStep} (h : BroughtIn g goal below steps) :
      BroughtIn g goal below (s :: steps)

theorem BroughtIn.exists_body {g : Grammar} {goal : Goal} {below : List Goal}
    {steps : List TraceStep} (h : BroughtIn g goal below steps) :
    ∃ name, ∃ body ∈ g.bodiesOf name, goal ∈ body.goals := by
  induction h with
  | @expanded name body _ _ _ _ _ rule hgoals _ _ =>
    refine ⟨name, body, rule, ?_⟩
    rw [hgoals]
    exact List.mem_append_right _ List.mem_cons_self
  | later _ _ ih => exact ih

namespace ParseTable

variable {g : Grammar} {first : FirstSets} {follow : FollowSets} {t : ParseTable}
  {c last : Configuration} {steps ending : List TraceStep} {verdict : Verdict} {goal : Goal}
  {below : List Goal} {a : Terminal} {terminals : List Terminal}

/-- **A goal on the stack** has been there from the beginning, or a body has brought it in. -/
theorem Faithful.held_or_broughtIn (faithful : Faithful g first follow t)
    (run : t.Runs c steps last) : goal :: below <:+ last.stack →
      (goal :: below <:+ c.stack ∧ ∀ s ∈ steps, goal :: below <:+ s.before.stack) ∨
        BroughtIn g goal below steps := by
  induction run with
  | nil c => exact fun h => .inl ⟨h, nofun⟩
  | @matched a rest input steps last _ ih =>
    intro h
    rcases ih h with ⟨hrest, held⟩ | hbrought
    · have hstack : goal :: below <:+ .terminal a :: rest := hrest.trans (List.suffix_cons _ _)
      exact .inl ⟨hstack, List.forall_mem_cons.mpr ⟨hstack, held⟩⟩
    · exact .inr (.later _ hbrought)
  | @expanded name a cell rest input steps last hcell _ ih =>
    intro h
    rcases ih h with ⟨⟨front, hfront⟩, held⟩ | hbrought
    · -- the goal stands in the body that was put in, or below it
      rcases append_eq_append_cons hfront.symm with ⟨back, hgoals, hbelow⟩ | ⟨mid, -, hrest⟩
      · exact .inr (.expanded (faithful.predicted _ _ _ hcell).1 hgoals hbelow held)
      · have hstack : goal :: below <:+ .variable name :: rest :=
          List.IsSuffix.trans ⟨mid, hrest.symm⟩ (List.suffix_cons _ _)
        exact .inl ⟨hstack, List.forall_mem_cons.mpr ⟨hstack, held⟩⟩
    · exact .inr (.later _ hbrought)

/-! ## 2. The end of the input -/

theorem Runs.eq_of_input_nil {stack : List Goal} (run : t.Runs ⟨stack, []⟩ steps last) :
    steps = [] ∧ last = ⟨stack, []⟩ := by
  rcases run with _ | _ | _
  exact ⟨rfl, rfl⟩

/-- **The last terminal is matched in the last step** of a run that uses up its input. -/
theorem Runs.exists_last_matched (run : t.Runs c steps last) : c.input = terminals ++ [a] →
    last.input = [] → ∃ earlier, t.Runs c earlier ⟨.terminal a :: last.stack, [a]⟩ ∧
      steps = earlier ++ [⟨⟨.terminal a :: last.stack, [a]⟩, .matched a⟩] := by
  induction run generalizing terminals with
  | nil c =>
    intro hinput hnil
    rw [hinput] at hnil
    exact absurd hnil (List.append_ne_nil_of_right_ne_nil _ (List.cons_ne_nil _ _))
  | @matched b rest input steps last run ih =>
    intro hinput hnil
    rcases terminals with _ | ⟨b', terminals⟩
    · obtain ⟨rfl, rfl⟩ := List.cons.inj hinput
      obtain ⟨rfl, rfl⟩ := run.eq_of_input_nil
      exact ⟨[], .nil _, rfl⟩
    · obtain ⟨-, hrest⟩ := List.cons.inj hinput
      obtain ⟨earlier, hearlier, rfl⟩ := ih hrest hnil
      exact ⟨_ :: earlier, .matched hearlier, rfl⟩
  | expanded hcell _ ih =>
    intro hinput hnil
    obtain ⟨earlier, hearlier, rfl⟩ := ih hinput hnil
    exact ⟨_ :: earlier, .expanded hcell hearlier, rfl⟩

/-- Nothing is matched at the end of a trace. -/
theorem Stops.matchedIn_append (h : t.Stops last ending verdict) :
    matchedIn (steps ++ ending) = matchedIn steps := by
  have hending : matchedIn ending = [] := by
    rcases h with _ | _ | _ | _ | _
    · rfl
    · rfl
    · rfl
    · rfl
    · rfl
  rw [matchedIn, List.filterMap_append]
  exact (congrArg (matchedIn steps ++ ·) hending).trans (List.append_nil _)

section Faithful

variable (faithful : Faithful g first follow t)
  (run : t.Runs ⟨[.variable g.start, .terminal .endOfInput], terminals ++ [.endOfInput]⟩ steps last)

include faithful run

/-- **Where input is left over**, a word of the grammar was matched, and an end behind it that is
not the one behind the input. -/
theorem Faithful.exists_leftover {remaining : List Terminal}
    (stops : t.Stops last ending (.rejected (.leftoverInput remaining))) :
    ∃ u v, terminals = u ++ [.endOfInput] ++ v ∧ g.Generates g.start u ∧
      remaining = v ++ [.endOfInput] := by
  rcases stops with _ | ⟨b, input⟩ | _ | _ | _
  have hderives := (faithful.derivesLeftmost run).derives
  rw [List.append_nil] at hderives
  obtain ⟨u, hmatched, hgenerates⟩ := Grammar.yields_initial_iff.mp (hderives.yields rfl)
  have hinput : terminals ++ [.endOfInput] = u ++ [.endOfInput] ++ (b :: input) := by
    rw [← hmatched]
    exact run.input_eq
  -- the end behind the input is the last one of what is left over
  obtain ⟨v, last, hleft⟩ := (List.eq_nil_or_concat' (b :: input)).resolve_left (List.cons_ne_nil _ _)
  rw [hleft, ← List.append_assoc] at hinput
  obtain ⟨hterminals, hlast⟩ := List.append_inj' hinput rfl
  obtain rfl := (List.cons.inj hlast).1
  exact ⟨u, v, hterminals, hgenerates, hleft⟩

/-- **Where the input ends too early**, everything was matched, and the end behind the input was
matched with one that a body had brought in. -/
theorem Faithful.exists_unexpectedEnd {expected : Goal}
    (stops : t.Stops last ending (.rejected (.unexpectedEnd expected))) :
    matchedIn steps = terminals ++ [.endOfInput] ∧ ∃ earlier below,
      steps = earlier ++ [⟨⟨.terminal .endOfInput :: below, [.endOfInput]⟩,
        .matched .endOfInput⟩] ∧ BroughtIn g (.terminal .endOfInput) below earlier := by
  rcases stops with _ | _ | ⟨goal, rest⟩ | _ | _
  have hinput : terminals ++ [.endOfInput] = matchedIn steps ++ [] := run.input_eq
  obtain ⟨earlier, hearlier, hsteps⟩ := run.exists_last_matched rfl rfl
  refine ⟨by rw [hinput, List.append_nil], earlier, _, hsteps, ?_⟩
  rcases faithful.held_or_broughtIn hearlier List.suffix_rfl with ⟨hbottom, -⟩ | hbrought
  · -- below the end at the bottom there is no goal to be left
    have heq := hbottom.eq_of_length_le (Nat.le_add_left _ _)
    cases (List.cons.inj heq).1
  · exact hbrought

end Faithful

end ParseTable

/-! ## 3. Parsers -/

/-- The end behind the input is reported as `$`. -/
theorem message_leftoverInput (terminals : List Terminal) :
    (ParseError.leftoverInput (terminals ++ [.endOfInput])).message =
      "input not fully consumed, remaining: " ++
        Text.joinWith " " (terminals.map Terminal.text ++ ["$"]) := by
  have htexts : (terminals ++ [Terminal.endOfInput]).map Terminal.text =
      terminals.map Terminal.text ++ ["$"] := by
    rw [List.map_append]
    rfl
  exact congrArg (fun texts => "input not fully consumed, remaining: " ++ Text.joinWith " " texts)
    htexts

namespace Parser

variable {g : Grammar} {p : Parser}

/-- **The failures at the end mean what they say**, whichever way the grammar was obtained.

If input is left over, then the input is a word of the grammar, an end that it contains, and the
rest of it, and what is reported is this rest with the end behind.  If the input ends too early,
then all of it was matched, and the end behind it was matched last, with one that stands in a body
of the grammar.  So if neither the bodies nor the input contain an end, every rejection names a
token of the input. -/
theorem parse_failures_at_end (obtained : g.Obtained) (h : ofGrammar g = .ok p)
    (input : List Char) :
    (∀ remaining, (p.parse input).verdict = .rejected (.leftoverInput remaining) →
      ∃ u v, tokens input = u ++ [.endOfInput] ++ v ∧ g.Generates g.start u ∧
        remaining = v ++ [.endOfInput] ∧
        (ParseError.leftoverInput remaining).message = "input not fully consumed, remaining: " ++
          Text.joinWith " " (v.map Terminal.text ++ ["$"])) ∧
    (∀ expected, (p.parse input).verdict = .rejected (.unexpectedEnd expected) →
      matchedIn (p.parse input).trace = tokens input ++ [.endOfInput] ∧
      ∃ earlier below later, (p.parse input).trace = earlier ++
          ⟨⟨.terminal .endOfInput :: below, [.endOfInput]⟩, .matched .endOfInput⟩ :: later ∧
        BroughtIn g (.terminal .endOfInput) below earlier) ∧
    ((∀ name, ∀ body ∈ g.bodiesOf name, .terminal .endOfInput ∉ body) →
      .endOfInput ∉ tokens input → ∀ e, (p.parse input).verdict = .rejected e →
        (∃ expected found, e = .mismatch expected found) ∨
          ∃ head terminal, e = .noProduction head terminal) := by
  have wellFormed := obtained.wellFormed
  obtain ⟨first, follow, faithful⟩ := exists_faithful wellFormed h
  obtain ⟨steps, last, ending, htrace, run, stops⟩ := exists_runs_of_parse wellFormed h input
  refine ⟨fun remaining hverdict => ?_, fun expected hverdict => ?_,
    fun hbodies htokens e hverdict => ?_⟩
  · rw [hverdict] at stops
    obtain ⟨u, v, hinput, hgenerates, rfl⟩ := faithful.exists_leftover run stops
    refine ⟨u, v, hinput, hgenerates, rfl, ?_⟩
    exact message_leftoverInput v
  · rw [hverdict] at stops
    obtain ⟨hmatched, earlier, below, rfl, hbrought⟩ := faithful.exists_unexpectedEnd run stops
    refine ⟨?_, earlier, below, ending, ?_, hbrought⟩
    · rw [htrace, stops.matchedIn_append, hmatched]
    · rw [htrace, List.append_assoc]
      rfl
  · rw [hverdict] at stops
    cases e with
    | mismatch expected found => exact .inl ⟨expected, found, rfl⟩
    | noProduction head terminal => exact .inr ⟨head, terminal, rfl⟩
    | leftoverInput remaining =>
      obtain ⟨u, v, hinput, -⟩ := faithful.exists_leftover run stops
      refine absurd ?_ htokens
      rw [hinput]
      exact List.mem_append_left _ (List.mem_append_right _ List.mem_cons_self)
    | unexpectedEnd expected =>
      obtain ⟨-, earlier, below, -, hbrought⟩ := faithful.exists_unexpectedEnd run stops
      obtain ⟨name, body, rule, hend⟩ := hbrought.exists_body
      exact absurd (Body.terminal_mem_goals.mp hend) (hbodies name body rule)

/-- In `a $ b $ a` the second `$` meets the bottom of the stack, with `a $` left over; behind `a`
the end of the input meets the `$` of the body, with `b` left on the stack; and where there is no
`$` at all, the token `c` is to blame. -/
theorem parse_failures_at_end_twoEnds :
    listThenEnd.Obtained ∧ ofGrammar listThenEnd = .ok listThenEndParser ∧
      (listThenEndParser.parse "a $ b $ a".toList).verdict =
        .rejected (.leftoverInput [.named "a", .endOfInput]) ∧
      (∃ u v, tokens "a $ b $ a".toList = u ++ [.endOfInput] ++ v ∧
        listThenEnd.Generates "S" u ∧ [.named "a", .endOfInput] = v ++ [.endOfInput]) ∧
      (listThenEndParser.parse "a".toList).verdict =
        .rejected (.unexpectedEnd (.terminal (.named "b"))) ∧
      (∃ earlier below later, (listThenEndParser.parse "a".toList).trace = earlier ++
          ⟨⟨.terminal .endOfInput :: below, [.endOfInput]⟩, .matched .endOfInput⟩ :: later ∧
        BroughtIn listThenEnd (.terminal .endOfInput) below earlier) ∧
      twoContexts.Obtained ∧ ofGrammar twoContexts = .ok twoContextsParser ∧
      (∀ name, ∀ body ∈ twoContexts.bodiesOf name, .terminal .endOfInput ∉ body) ∧
      .endOfInput ∉ tokens "b c".toList ∧
      ∀ e, (twoContextsParser.parse "b c".toList).verdict = .rejected e →
        (∃ expected found, e = .mismatch expected found) ∨
          ∃ head terminal, e = .noProduction head terminal := by
  have hlist : ofGrammar listThenEnd = .ok listThenEndParser := by decide
  have hcontexts : ofGrammar twoContexts = .ok twoContextsParser := by decide
  have hleftover : (listThenEndParser.parse "a $ b $ a".toList).verdict =
    .rejected (.leftoverInput [.named "a", .endOfInput]) := by decide
  have hearly : (listThenEndParser.parse "a".toList).verdict =
    .rejected (.unexpectedEnd (.terminal (.named "b"))) := by decide
  have hdeclared : ∀ p ∈ twoContexts.productions, ∀ body ∈ p.bodies,
    .terminal .endOfInput ∉ body := by decide
  have hbodies : ∀ name, ∀ body ∈ twoContexts.bodiesOf name,
      .terminal .endOfInput ∉ body := by
    intro name body hbody
    obtain ⟨p, hp, -, hmem⟩ :=
      (Grammar.mem_bodiesOf_iff twoContexts_obtained.wellFormed.nodup).mp hbody
    exact hdeclared p hp body hmem
  have htokens : .endOfInput ∉ tokens "b c".toList := by decide
  obtain ⟨hover, -, -⟩ := parse_failures_at_end listThenEnd_obtained hlist "a $ b $ a".toList
  obtain ⟨-, hunexpected, -⟩ := parse_failures_at_end listThenEnd_obtained hlist "a".toList
  obtain ⟨-, -, hrejected⟩ := parse_failures_at_end twoContexts_obtained hcontexts "b c".toList
  obtain ⟨u, v, hinput, hgenerates, hremaining, -⟩ := hover _ hleftover
  exact ⟨listThenEnd_obtained, hlist, hleftover, ⟨u, v, hinput, hgenerates, hremaining⟩, hearly,
    (hunexpected _ hearly).2, twoContexts_obtained, hcontexts, hbodies, htokens,
    hrejected hbodies htokens⟩

end Parser

end FormalLang
