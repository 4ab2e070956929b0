import FormalLang.Proofs.Grammar.Leading
import FormalLang.Proofs.Grammar.Legible
import FormalLang.Proofs.Grammar.Store
import FormalLang.Proofs.Lapse
import FormalLang.Proofs.Predictive.Analysis
import FormalLang.Proofs.Predictive.Conflict

/-!
# Nothing that is looked up is missing

An analysis looks up bodies, FIRST sets and FOLLOW sets by the names of variables, and a parser
takes goals from a stack of symbols.  Here these computations are written out with a fault at every
look-up that could find nothing, and at the symbol `ε`, which must not be on the stack.  The result
is that of the analysis (`Analysis.tryOfText_eq`) and of the parser (`Parser.tryParse_eq`).

**Why nothing is missing.**  Grammars are in order, whichever way they were obtained, so that every
name in a body is declared; and the sets of declared variables are there from the beginning, and
none is ever taken away.  For the parser nothing is needed of the grammar: `ε` is left out when a
body is put on the stack.
-/

namespace FormalLang

/-! ## 1. FOLLOW sets -/

namespace FollowSets

/-- The sets at the beginning: empty ones, but the end of the input follows the start. -/
def tryBlank (g : Grammar) : Except Fault FollowSets :=
  let sets := OrderedMap.ofList (g.variableNames.map fun v => (v, (∅ : OrderedSet Terminal)))
  match sets.find? g.start with
  | none => .error .missingSets
  | some s => .ok ⟨sets.insert g.start (s.insert .endOfInput)⟩

namespace Search

/-- Hands a set on to one heir. -/
def tryHandTo (handed : OrderedSet Terminal) (s : Search) (heir : String) : Except Fault Search :=
  match s.follow.get? heir with
  | none => .error .missingSets
  | some known =>
    let grown := known ∪ handed
    if grown.size = known.size then .ok s
    else .ok ⟨⟨s.follow.sets.insert heir grown⟩,
      if heir ∈ s.pending then s.pending else s.pending ++ [heir]⟩

/-- Hands a set on to some heirs, one after the other. -/
def tryHandAll (handed : OrderedSet Terminal) : Search → List String → Except Fault Search
  | s, [] => .ok s
  | s, heir :: rest =>
    match s.tryHandTo handed heir with
    | .error f => .error f
    | .ok s => tryHandAll handed s rest

/-- Hands on the set of the next variable. -/
def tryStep (heirs : OrderedMap String (OrderedSet String)) (s : Search) :
    Except Fault (Option Search) :=
  match s.pending with
  | [] => .ok none
  | head :: rest =>
    match heirs.find? head with
    | none => .ok (some { s with pending := rest })
    | some names =>
      match s.follow.get? head with
      | none => .error .missingSets
      | some handed =>
        match tryHandAll handed { s with pending := rest } names.toList with
        | .error f => .error f
        | .ok s => .ok (some s)

end Search

/-- The FOLLOW sets of a grammar, given FIRST sets. -/
def tryOfGrammar (g : Grammar) (first : FirstSets) : Except Fault FollowSets :=
  match tryBlank g with
  | .error f => .error f
  | .ok blank =>
    match Seeds.addHeads g first ⟨blank, ∅⟩ g.variableNames with
    | .error f => .error f
    | .ok seeds =>
      match iterateE (Search.tryStep seeds.heirs) (rounds seeds.follow g.variableNames)
          ⟨seeds.follow, g.variableNames⟩ with
      | .error f => .error f
      | .ok s => .ok s.follow

theorem tryBlank_eq {g : Grammar} (hstart : g.start ∈ g.variableNames) :
    tryBlank g = .ok (blank g) := by
  rw [tryBlank]
  simp only [OrderedMap.find?_ofList_const, if_pos hstart]
  refine congrArg Except.ok (congrArg FollowSets.mk (OrderedMap.ext fun name => ?_))
  rw [OrderedMap.find?_insert, OrderedMap.find?_alter, OrderedMap.find?_ofList_const,
    OrderedMap.find?_ofList_const, if_pos hstart]
  rfl

namespace Search

/-- Whether there are sets for some names, and only variables with a set wait for their turn. -/
structure Known (names : List String) (s : Search) : Prop where
  sets : ∀ name ∈ names, (s.follow.get? name).isSome
  pending : ∀ name ∈ s.pending, name ∈ names

variable {names : List String} {s : Search}

theorem Known.exists_get? (h : s.Known names) {name : String} (hname : name ∈ names) :
    ∃ known, s.follow.get? name = some known ∧ s.follow.getD name = known := by
  obtain ⟨known, hknown⟩ := Option.isSome_iff_exists.mp (h.sets name hname)
  exact ⟨known, hknown, by rw [getD, hknown]; rfl⟩

theorem Known.handTo (h : s.Known names) (handed : OrderedSet Terminal) {heir : String}
    (hheir : heir ∈ names) :
    s.tryHandTo handed heir = .ok (s.handTo handed heir) ∧ (s.handTo handed heir).Known names := by
  obtain ⟨known, hget, hgetD⟩ := h.exists_get? hheir
  simp only [tryHandTo, Search.handTo, hget, hgetD]
  split
  · exact ⟨rfl, h⟩
  · refine ⟨rfl, fun name hname => ?_, fun name hname => ?_⟩
    · rw [get?, OrderedMap.find?_insert]
      split
      · rfl
      · exact h.sets name hname
    · dsimp only at hname
      split at hname
      · exact h.pending name hname
      · rcases List.mem_append.mp hname with hname | hname
        · exact h.pending name hname
        · rwa [List.mem_singleton.mp hname]

theorem Known.handAll (handed : OrderedSet Terminal) : ∀ {heirs : List String} {s : Search},
    s.Known names →
    (∀ heir ∈ heirs, heir ∈ names) →
      tryHandAll handed s heirs = .ok (heirs.foldl (Search.handTo handed) s) ∧
        (heirs.foldl (Search.handTo handed) s).Known names
  | [], _, h, _ => ⟨rfl, h⟩
  | heir :: heirs, s, h, hheirs => by
    obtain ⟨hone, hknown⟩ := h.handTo handed (hheirs heir List.mem_cons_self)
    rw [tryHandAll, hone, List.foldl_cons]
    exact handAll handed hknown fun v hv => hheirs v (List.mem_cons_of_mem _ hv)

/-- **A round hands on sets that are there**, and none gets lost. -/
theorem Known.step {links : OrderedMap String (OrderedSet String)}
    (hlinks : ∀ head name, Inherits links head name → name ∈ names) (h : s.Known names) :
    s.tryStep links = .ok (s.step links) ∧ ∀ s', s.step links = some s' → s'.Known names := by
  obtain ⟨follow, pending⟩ := s
  cases pending with
  | nil => exact ⟨rfl, nofun⟩
  | cons head rest =>
    have hrest : Known names ⟨follow, rest⟩ :=
      ⟨h.sets, fun name hname => h.pending name (List.mem_cons_of_mem _ hname)⟩
    obtain ⟨handed, hget, hgetD⟩ := h.exists_get? (h.pending head List.mem_cons_self)
    cases hheirs : links.find? head with
    | none =>
      simp only [tryStep, Search.step, hheirs]
      refine ⟨trivial, fun s' hs' => ?_⟩
      obtain rfl := Option.some.inj hs'
      exact hrest
    | some heirs =>
      have hnames : ∀ name ∈ heirs.toList, name ∈ names :=
        fun name hname => hlinks head name ⟨heirs, hheirs, hname⟩
      obtain ⟨hall, hknown⟩ := handAll handed hrest hnames
      simp only [tryStep, Search.step, hheirs, hget, hgetD, hall]
      refine ⟨trivial, fun s' hs' => ?_⟩
      obtain rfl := Option.some.inj hs'
      exact hknown

end Search

/-- **The FOLLOW sets are found without a missing set.** -/
theorem tryOfGrammar_eq {g : Grammar} {first : FirstSets} (wellFormed : g.WellFormed)
    (total : ∀ name ∈ g.variableNames, (first.get? name).isSome) :
    tryOfGrammar g first = ofGrammar g first := by
  have hself : ∀ name ∈ g.variableNames, name ∈ g.variableNames := fun _ h => h
  obtain ⟨seeds, hseeds, exact⟩ := exists_seeds wellFormed total hself hself
  have hknown : Search.Known g.variableNames ⟨seeds.follow, g.variableNames⟩ :=
    ⟨fun name => (exact.known name).mpr, fun _ h => h⟩
  rw [tryOfGrammar, ofGrammar, compute, tryBlank_eq wellFormed.start_mem]
  simp only [hseeds]
  rw [iterateE_eq_ok (fun s h => Search.Known.step
    (fun _ _ h => (exact.mem_variableNames wellFormed h).2) h) _ _ hknown]

end FollowSets

/-! ## 2. Tables -/

/-- **A table is built without a missing set.** -/
theorem ParseTable.build_ne_fault {g : Grammar} {first : FirstSets} (wellFormed : g.WellFormed)
    (total : ∀ name ∈ g.variableNames, (first.get? name).isSome) (follow : FollowSets) (f : Fault) :
    build g first follow ≠ .error (.fault f) := by
  have hdefined : ∀ rule ∈ g.rules, ∃ found, first.ofBody rule.body = .ok found := by
    intro rule hrule
    have hbody := List.mem_of_getElem? ((Grammar.mem_rules_iff wellFormed.nodup).mp hrule)
    exact FirstSets.exists_ofBody fun v hv => total v ((wellFormed.rule hbody).2 v hv)
  intro h
  obtain ⟨c, hconflict, -⟩ := firstConflict_of_build wellFormed.nodup hdefined h
  contradiction

/-! ## 3. Parsing with a stack of symbols -/

namespace ParseTable

/-- The stack and the input after an action on the symbol that was on top of the rest. -/
def tryPerform (rest : List Symbol) (input : List Terminal) :
    Action → Except Lapse (List Symbol × List Terminal)
  | .matched _ => .ok (rest, input.tail)
  | .expanded _ body => .ok ((body.filter fun s => s ≠ .epsilon) ++ rest, input)
  | .failed _ => .error .failurePerformed

/-- Runs for at most so many rounds. -/
def tryRunFrom (t : ParseTable) : Nat → List Symbol → List Terminal → Except Lapse Parse
  | 0, _, _ => .ok ⟨[], .unfinished⟩
  | _ + 1, [], input =>
    .ok ⟨[], if input.isEmpty then .accepted else .rejected (.leftoverInput input)⟩
  | n + 1, top :: rest, input =>
    match top.goal? with
    | none => .error .epsilonOnStack
    | some goal =>
      let before : Configuration := ⟨Body.goals (top :: rest), input⟩
      match t.choose goal input with
      | .error e => .ok ⟨[⟨before, .failed e⟩], .rejected e⟩
      | .ok action =>
        match tryPerform rest input action with
        | .error l => .error l
        | .ok (stack, input) =>
          match t.tryRunFrom n stack input with
          | .error l => .error l
          | .ok later => .ok ⟨⟨before, action⟩ :: later.trace, later.verdict⟩

/-- A table never answers with a failure for an action. -/
theorem choose_ne_failed {t : ParseTable} {goal : Goal} {input : List Terminal} {e : ParseError} :
    t.choose goal input ≠ .ok (.failed e) := by
  unfold choose
  split
  · nofun
  · split
    · nofun
    · nofun
  · split
    · nofun
    · nofun

/-- **`ε` never gets on the stack.** -/
theorem tryRunFrom_eq (t : ParseTable) : ∀ (n : Nat) (stack : List Symbol) (input : List Terminal),
    .epsilon ∉ stack → t.tryRunFrom n stack input = .ok (t.runFrom n ⟨Body.goals stack, input⟩)
  | 0, _, _, _ => rfl
  | _ + 1, [], _, _ => rfl
  | n + 1, top :: rest, input, hstack => by
    obtain ⟨htop, hrest⟩ := List.ne_and_not_mem_of_not_mem_cons hstack
    obtain ⟨goal, hgoal⟩ : ∃ goal, top.goal? = some goal := by
      rcases top with t | name | _
      · exact ⟨_, rfl⟩
      · exact ⟨_, rfl⟩
      · exact absurd rfl htop
    have hgoals : Body.goals (top :: rest) = goal :: Body.goals rest :=
      List.filterMap_cons_some hgoal
    rw [tryRunFrom, hgoal, hgoals, runFrom]
    dsimp only
    cases haction : t.choose goal input with
    | error e => rfl
    | ok action =>
      cases action with
      | matched terminal =>
        simp only [tryPerform, tryRunFrom_eq t n rest input.tail hrest, perform]
      | expanded head body =>
        have hpushed : .epsilon ∉ (body.filter fun s => s ≠ .epsilon) ++ rest := by
          rw [List.mem_append, not_or]
          exact ⟨by simp, hrest⟩
        simp only [tryPerform, tryRunFrom_eq t n _ input hpushed, perform, Body.goals_append,
          Body.goals_filter]
      | failed e => exact absurd haction choose_ne_failed

end ParseTable

/-- Parses words separated by white space, with a stack of symbols. -/
def Parser.tryParse (p : Parser) (input : List Char) : Except Lapse Parse :=
  let tokens := tokens input ++ [.endOfInput]
  p.table.tryRunFrom (p.table.rounds tokens.length) [.variable p.start, .terminal .endOfInput]
    tokens

/-- **A parser never finds `ε` on its stack**, whatever its table. -/
theorem Parser.tryParse_eq (p : Parser) (input : List Char) :
    p.tryParse input = .ok (p.parse input) :=
  p.table.tryRunFrom_eq _ _ _ (by simp)

/-! ## 4. The whole analysis -/

namespace Analysis

/-- The analysis of a grammar. -/
def tryOfGrammar (options : GrammarOptions) (g : Grammar) :
    Except Fault (Except TableError Analysis) :=
  match g.store.tryRemoveLeftRecursion options.suffix with
  | .error f => .error f
  | .ok removal =>
    match removal.store.listing with
    | .error f => .error f
    | .ok productions =>
      let grammar : Grammar := ⟨g.start, productions⟩
      match FirstSets.ofGrammar grammar with
      | .error f => .error f
      | .ok first =>
        match FollowSets.tryOfGrammar grammar first with
        | .error f => .error f
        | .ok follow =>
          match ParseTable.build grammar first follow with
          | .error (.fault f) => .error f
          | .error (.conflict c) => .ok (.error (.conflict c))
          | .ok table =>
            .ok (.ok ⟨grammar, removal.events, first, follow, ⟨grammar.start, table⟩⟩)

/-- The analysis of the grammar that a text describes. -/
def tryOfText (options : GrammarOptions) (cs : List Char) :
    Except Fault (Except AnalysisError Analysis) :=
  match Grammar.ofText options cs with
  | .error e => .ok (.error (.grammar e))
  | .ok g =>
    match tryOfGrammar options g with
    | .error f => .error f
    | .ok (.error e) => .ok (.error (.table e))
    | .ok (.ok a) => .ok (.ok a)

/-- **The phases of an analysis find whatever they look up.** -/
theorem tryOfGrammar_eq {g : Grammar} (wellFormed : g.WellFormed) {options : GrammarOptions}
    (hsuffix : options.suffix ≠ "") : tryOfGrammar options g = .ok (ofGrammar options g) := by
  have removed : (g.removeLeftRecursion options.suffix).grammar.WellFormed :=
    wellFormed.removeLeftRecursion (.inl hsuffix)
  have hstart : (g.removeLeftRecursion options.suffix).grammar.start = g.start :=
    (wellFormed.keeps_removeLeftRecursion hsuffix).start
  obtain ⟨first, hfirst, closedFirst⟩ := FirstSets.exists_ofGrammar_closed removed
  obtain ⟨follow, hfollow, -⟩ := FollowSets.exists_compute_closed removed closedFirst.total
    (fun _ h => h) (fun _ h => h)
  have hfollow : FollowSets.ofGrammar (g.removeLeftRecursion options.suffix).grammar first =
    .ok follow := hfollow
  have htable := ParseTable.build_ne_fault removed closedFirst.total follow
  rw [tryOfGrammar, Grammar.tryRemoveLeftRecursion_store wellFormed hsuffix]
  simp only [Grammar.Removal.stored, Grammar.listing_store removed.nodup, ← hstart, hfirst,
    FollowSets.tryOfGrammar_eq removed closedFirst.total, hfollow, ofGrammar]
  split
  · rename_i f hbuild
    exact absurd hbuild (htable f)
  · rename_i c hbuild
    rw [hbuild]
  · rename_i table hbuild
    rw [hbuild]

/-- **The analysis of a text finds whatever it looks up.** -/
theorem tryOfText_eq {options : GrammarOptions} (reachable : options.Reachable) (cs : List Char) :
    tryOfText options cs = .ok (ofText options cs) := by
  rw [tryOfText, ofText]
  cases hread : Grammar.ofText options cs with
  | error e => rfl
  | ok g =>
    have wellFormed := Grammar.wellFormed_of_ofText hread
    dsimp only
    rw [tryOfGrammar_eq wellFormed reachable.suffix_ne_empty]
    cases ofGrammar options g with
    | error e => rfl
    | ok a => rfl

/-- **Grammars are in order, and nothing that is looked up in one is missing.**

A builder that was asked for anything, and a reader, return grammars in order only, and a reader
leaves no variable undefined.  The removal of left recursion keeps grammars in order; it finds the
bodies that it asks for, and declares what it says that it introduces, behind all other variables.
In a grammar in order every phase finds what it looks up, so that the analysis of any text does, and
no parser finds `ε` on its stack. -/
theorem nothing_missing :
    (∀ (calls : List BuilderCall) (g : Grammar), (GrammarBuilder.run calls).build = .ok g →
      RuleStore.run calls = g.store ∧ g.store.InOrder g.start) ∧
    (∀ (options : GrammarOptions) (cs : List Char),
      (∀ g, Grammar.ofText options cs = .ok g → g.store.InOrder g.start) ∧
        ∀ name, Grammar.ofText options cs ≠ .error (.undefinedVariable name)) ∧
    (∀ (g : Grammar) (suffix : String), g.store.InOrder g.start → suffix ≠ "" →
      ∃ removal, g.removeLeftRecursion suffix = removal ∧
        g.store.tryRemoveLeftRecursion suffix = .ok ⟨removal.grammar.store, removal.events⟩ ∧
        removal.grammar.store.InOrder removal.grammar.start ∧
        removal.grammar.variableNames =
          g.variableNames ++ removal.events.filterMap RecursionEvent.introduced?) ∧
    (∀ g : Grammar, g.store.InOrder g.start → ∃ first follow leftRecursive,
      g.store.listing = .ok g.productions ∧
        FirstSets.ofGrammar g = .ok first ∧
        FollowSets.ofGrammar g first = .ok follow ∧
        FollowSets.tryOfGrammar g first = .ok follow ∧
        (∀ f, ParseTable.build g first follow ≠ .error (.fault f)) ∧
        g.hasLeftRecursion = .ok leftRecursive ∧ g.tryHasLeftRecursion = .ok leftRecursive) ∧
    (∀ options : GrammarOptions, options.Reachable → ∀ cs : List Char,
      tryOfText options cs = .ok (ofText options cs)) ∧
    ∀ (p : Parser) (input : List Char), p.tryParse input = .ok (p.parse input) := by
  refine ⟨fun calls g hbuild => ?_, fun options cs => ⟨fun g hread => ?_, fun name => ?_⟩,
    fun g suffix inOrder hsuffix => ?_, fun g inOrder => ?_, fun options reachable cs =>
      tryOfText_eq reachable cs, Parser.tryParse_eq⟩
  · obtain ⟨-, hproductions, -⟩ := GrammarBuilder.build_eq_ok hbuild
    have wellFormed := (GrammarBuilder.reachable_run calls).wellFormed hbuild
    refine ⟨?_, Grammar.wellFormed_iff_store.mp wellFormed⟩
    rw [RuleStore.run_eq_store, Grammar.store, hproductions]
  · exact Grammar.wellFormed_iff_store.mp (Grammar.wellFormed_of_ofText hread)
  · exact WrittenRule.ofText_ne_undefinedVariable options cs name
  · have wellFormed := Grammar.wellFormed_iff_store.mpr inOrder
    exact ⟨_, rfl, Grammar.tryRemoveLeftRecursion_store wellFormed hsuffix,
      Grammar.wellFormed_iff_store.mp (wellFormed.removeLeftRecursion (.inl hsuffix)),
      wellFormed.variableNames_removeLeftRecursion suffix⟩
  · have wellFormed := Grammar.wellFormed_iff_store.mpr inOrder
    obtain ⟨first, hfirst, closedFirst⟩ := FirstSets.exists_ofGrammar_closed wellFormed
    obtain ⟨follow, hfollow, -⟩ := FollowSets.exists_compute_closed wellFormed closedFirst.total
      (fun _ h => h) (fun _ h => h)
    have hanswer : g.hasLeftRecursion =
        .ok (g.variableNames.any fun name => decide (name ∈ g.leaders first name)) := by
      rw [Grammar.hasLeftRecursion, hfirst]
    exact ⟨first, follow, _, Grammar.listing_store wellFormed.nodup, hfirst, hfollow,
      (FollowSets.tryOfGrammar_eq wellFormed closedFirst.total).trans hfollow,
      ParseTable.build_ne_fault wellFormed closedFirst.total follow, hanswer,
      wellFormed.tryHasLeftRecursion_eq.trans hanswer⟩

/-- Two variables that begin with each other, one of them with nothing else. -/
def entangled : Grammar :=
  ⟨"A", [⟨"S", [[.variable "A", .terminal (.named "a")], [.epsilon]]⟩,
    ⟨"A", [[.variable "S", .variable "A"], [.variable "A"], [.terminal (.named "A'")]]⟩]⟩

/-- The terminal `A'` is avoided, and the two parts of the store stay in step. -/
theorem nothing_missing_entangled :
    (GrammarBuilder.run [.setStart "A",
      .addRules "S" [[.variable "A", .terminal (.named "a"), .epsilon], []],
      .addRule "A" [.variable "S", .variable "A"],
      .addRules "A" [[.variable "A"], [.terminal (.named "A'")]]]).build = .ok entangled ∧
    entangled.store.InOrder "A" ∧
    (∃ removal, entangled.store.tryRemoveLeftRecursion "'" = .ok removal ∧
      removal.store.listed = ["S", "A", "A''"] ∧ removal.store.InOrder "A") ∧
    (∃ leftRecursive, entangled.tryHasLeftRecursion = .ok leftRecursive ∧
      entangled.hasLeftRecursion = .ok leftRecursive) ∧
    GrammarOptions.default.Reachable ∧
    tryOfText .default "S -> A | b\nA -> S".toList =
      .ok (ofText .default "S -> A | b\nA -> S".toList) := by
  obtain ⟨hbuilt, -, hremoval, hphases, htext, -⟩ := nothing_missing
  have hbuild : (GrammarBuilder.run [.setStart "A",
      .addRules "S" [[.variable "A", .terminal (.named "a"), .epsilon], []],
      .addRule "A" [.variable "S", .variable "A"],
      .addRules "A" [[.variable "A"], [.terminal (.named "A'")]]]).build = .ok entangled := by
    decide
  obtain ⟨-, inOrder⟩ := hbuilt _ entangled hbuild
  obtain ⟨removal, rfl, htry, inOrder', hnames⟩ := hremoval entangled "'" inOrder (by decide)
  obtain ⟨_, _, leftRecursive, -, -, -, -, -, hplain, hwalks⟩ := hphases entangled inOrder
  have hstart : (entangled.removeLeftRecursion "'").grammar.start = "A" := by decide
  have hintroduced : entangled.variableNames ++ (entangled.removeLeftRecursion "'").events.filterMap
      RecursionEvent.introduced? = ["S", "A", "A''"] := by decide
  exact ⟨hbuild, inOrder, ⟨_, htry, hnames.trans hintroduced, hstart ▸ inOrder'⟩,
    ⟨leftRecursive, hwalks, hplain⟩, .default, htext .default .default _⟩

end Analysis

end FormalLang
