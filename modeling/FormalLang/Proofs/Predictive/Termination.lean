import FormalLang.Proofs.Grammar.Beginning
import FormalLang.Proofs.Predictive.Exactness

/-!
# Every parse ends

A parser comes to an end on every input, and between two matched terminals it makes a number of
replacements that the height of the stack bounds (`Parser.parse_finishes`).  Nothing is assumed of
the grammar but that it has a table: its variables may be left recursive, vanish, or derive nothing
at all.

**Why a table is enough.**  Fix the next terminal.  A variable is replaced only if the FIRST and the
FOLLOW sets say that its body can begin with the terminal, or that it can vanish and the terminal
follows.  The FIRST sets are least, so there is a finite reason for that: a chain of rules
(`Grammar.CanBegin`).  The bodies of the chain are predicted too, and a cell holds one body, so that
the parser has no choice but to go along the chain (`Faithful.exists_rewrites`).  At its end the
terminal is on top of the stack, or nothing is left.

**The invariant** along a chain is that the FOLLOW sets foresee what comes behind each variable
(`Foresees`).  It holds of every body, because the FOLLOW sets are closed, and that is why it does
not matter how the stack came about.
-/

namespace FormalLang

namespace ParseTable

variable {g : Grammar} {first : FirstSets} {follow : FollowSets} {t : ParseTable} {a : Terminal}
  {x : Symbol}

/-! ## 1. What the FOLLOW sets foresee -/

/-- Whether a terminal follows each variable of a form behind which the form begins in some way. -/
def Foresees (first : FirstSets) (follow : FollowSets) (a : Terminal) (x : Symbol)
    (form : List Goal) : Prop :=
  ∀ name back, .variable name :: back <:+ form → first.Begins back x → a ∈ follow.getD name

theorem Foresees.tail {goal : Goal} {form : List Goal}
    (h : Foresees first follow a x (goal :: form)) : Foresees first follow a x form :=
  fun name back hsuffix => h name back (hsuffix.trans (List.suffix_cons _ _))

theorem foresees_terminal (closed : FollowSets.Closed g first follow) {head : String} {body : Body}
    (rule : body ∈ g.bodiesOf head) : Foresees first follow a (.terminal a) body.goals := by
  intro name back hsuffix hbegins
  obtain ⟨after, hafter, rfl⟩ := exists_behind_of_suffix hsuffix
  exact closed.behind head body rule name after hafter a hbegins

theorem foresees_epsilon (closed : FollowSets.Closed g first follow) {head : String} {body : Body}
    (rule : body ∈ g.bodiesOf head) (ha : a ∈ follow.getD head) :
    Foresees first follow a .epsilon body.goals := by
  intro name back hsuffix hvanish
  obtain ⟨after, hafter, rfl⟩ := exists_behind_of_suffix hsuffix
  exact closed.heirs head body rule name after hafter hvanish a ha

/-! ## 2. Going along a reason -/

/-- **A table that is faithful to its grammar**: the sets are closed, the FIRST sets are least, and
the cells are the predicted bodies. -/
structure Faithful (g : Grammar) (first : FirstSets) (follow : FollowSets) (t : ParseTable) :
    Prop where
  closedFirst : FirstSets.Closed g first
  grounded : FirstSets.Grounded g first
  closed : FollowSets.Closed g first follow
  cells : ∀ name, ∀ body ∈ g.bodiesOf name, ∀ a, Predicts first follow name body a →
    ∃ cell, t.get? name a = some cell ∧ cell.body = body
  predicted : ∀ name a cell, t.get? name a = some cell →
    cell.body ∈ g.bodiesOf name ∧ Predicts first follow name cell.body a

/-- The sets tell what forms can begin with. -/
theorem Faithful.begins_iff (faithful : Faithful g first follow t) {form : List Goal} {x : Symbol} :
    first.Begins form x ↔ g.CanBegin form x :=
  FirstSets.begins_iff_canBegin faithful.closedFirst faithful.grounded

/-- A predicted body is put in the place of its variable. -/
theorem Faithful.rewrites (faithful : Faithful g first follow t) {name : String} {body : Body}
    (rule : body ∈ g.bodiesOf name) (predicts : Predicts first follow name body a)
    (rest : List Goal) : t.Rewrites a 1 (.variable name :: rest) (body.goals ++ rest) := by
  obtain ⟨cell, hcell, rfl⟩ := faithful.cells name body rule a predicts
  exact (Rewrites.of_cell hcell).append rest

/-- Whether a form begins with a symbol at once. -/
def Shows : Symbol → List Goal → Prop
  | .terminal t, form => ∃ rest, form = .terminal t :: rest
  | .epsilon, form => form = []
  | .variable _, _ => False

/-- **The parser goes along the reason** for which a form can begin with the next terminal, or
vanish. -/
theorem Faithful.exists_rewrites (faithful : Faithful g first follow t) {form : List Goal}
    (h : g.CanBegin form x) : x = .epsilon ∨ x = .terminal a → Foresees first follow a x form →
      ∃ m left, t.Rewrites a m form left ∧ Shows x left := by
  induction h with
  | nil => exact fun _ _ => ⟨0, [], .refl _, rfl⟩
  | terminal e rest => exact fun _ _ => ⟨0, .terminal e :: rest, .refl _, rest, rfl⟩
  | @found name body rest x rule hbody hx ih =>
    intro hcase _
    obtain rfl : x = .terminal a := hcase.resolve_left hx
    have predicts : Predicts first follow name body a :=
      .inl (faithful.begins_iff.mpr hbody)
    obtain ⟨m, left, hm, back, rfl⟩ := ih hcase (foresees_terminal faithful.closed rule)
    exact ⟨_, _, (faithful.rewrites rule predicts rest).trans (hm.append rest), back ++ rest, rfl⟩
  | @vanish name body rest x rule hbody hrest ihbody ihrest =>
    intro hcase foresees
    -- the terminal follows the variable, for the rest begins with it or vanishes too
    have ha : a ∈ follow.getD name := foresees name rest (List.suffix_refl _)
      (faithful.begins_iff.mpr hrest)
    have predicts : Predicts first follow name body a :=
      .inr ⟨faithful.begins_iff.mpr hbody, ha⟩
    obtain ⟨m, _, hm, rfl⟩ := ihbody (.inl rfl) (foresees_epsilon faithful.closed rule ha)
    obtain ⟨n, left, hn, shows⟩ := ihrest hcase foresees.tail
    exact ⟨_, left, ((faithful.rewrites rule predicts rest).trans (hm.append rest)).trans hn, shows⟩

/-- A goal is worked off, or it comes to a point where no replacement is possible. -/
theorem Faithful.exists_rewrites_goal (faithful : Faithful g first follow t) (goal : Goal) :
    (∃ m, t.Rewrites a m [goal] []) ∨
      ∃ m left, t.Rewrites a m [goal] left ∧ t.Stuck a left := by
  rcases goal with e | name
  · exact .inr ⟨0, [.terminal e], .refl _, trivial⟩
  · cases hcell : t.get? name a with
    | none => exact .inr ⟨0, [.variable name], .refl _, hcell⟩
    | some cell =>
      obtain ⟨rule, predicts⟩ := faithful.predicted name a cell hcell
      have hfirst : t.Rewrites a 1 [.variable name] cell.body.goals := .of_cell hcell
      rcases predicts with hbegins | ⟨hvanish, ha⟩
      · obtain ⟨m, _, hm, back, rfl⟩ :=
          faithful.exists_rewrites (faithful.begins_iff.mp hbegins) (.inr rfl)
            (foresees_terminal faithful.closed rule)
        exact .inr ⟨_, _, hfirst.trans hm, trivial⟩
      · obtain ⟨m, _, hm, rfl⟩ :=
          faithful.exists_rewrites (faithful.begins_iff.mp hvanish) (.inl rfl)
            (foresees_epsilon faithful.closed rule ha)
        exact .inl ⟨_, hfirst.trans hm⟩

/-- **So is every stack**, one goal after the other. -/
theorem Faithful.exists_rewrites_stack (faithful : Faithful g first follow t) :
    ∀ stack : List Goal, (∃ m, t.Rewrites a m stack []) ∨
      ∃ m left, t.Rewrites a m stack left ∧ t.Stuck a left
  | [] => .inl ⟨0, .refl _⟩
  | goal :: rest => by
    rcases faithful.exists_rewrites_goal (a := a) goal with ⟨m, hm⟩ | ⟨m, left, hm, stuck⟩
    · have hgoal : t.Rewrites a m (goal :: rest) rest := hm.append rest
      rcases faithful.exists_rewrites_stack rest with ⟨n, hn⟩ | ⟨n, left, hn, stuck⟩
      · exact .inl ⟨_, hgoal.trans hn⟩
      · exact .inr ⟨_, left, hgoal.trans hn, stuck⟩
    · exact .inr ⟨m, left ++ rest, hm.append rest, stuck.append rest⟩

/-- **A faithful table runs to an end** from every configuration. -/
theorem Faithful.exists_last (faithful : Faithful g first follow t) :
    ∀ (input : List Terminal) (stack : List Goal),
      ∃ n last, t.Reaches n ⟨stack, input⟩ last ∧ t.next? last = none
  | [], stack => ⟨0, _, .refl _, next?_nil stack⟩
  | a :: input, stack => by
    rcases faithful.exists_rewrites_stack (a := a) stack with ⟨m, hm⟩ | ⟨m, left, hm, stuck⟩
    · exact ⟨m, _, hm.reaches input, rfl⟩
    · rcases next?_of_stuck stuck input with hstop | ⟨rest, rfl, hmatch⟩
      · exact ⟨m, _, hm.reaches input, hstop⟩
      · obtain ⟨n, last, hlast, hstop⟩ := faithful.exists_last input rest
        exact ⟨_, last, (hm.reaches input).trans (.step hmatch hlast), hstop⟩

/-! ## 3. Replacements in a row -/

/-- Whether some number of replacements in a row leads from one configuration to another. -/
inductive Replaces (t : ParseTable) : Nat → Configuration → Configuration → Prop where
  | refl (c : Configuration) : Replaces t 0 c c
  | step {n : Nat} {goal : Goal} {rest : List Goal} {input : List Terminal} {head : String}
      {body : Body} {last : Configuration} (first : t.choose goal input = .ok (.expanded head body))
      (later : Replaces t n (perform rest input (.expanded head body)) last) :
      Replaces t (n + 1) ⟨goal :: rest, input⟩ last

/-- There is one way to go on, so a row of replacements takes the same steps as any run. -/
theorem Replaces.of_reaches {m n : Nat} {c d e : Configuration} (h : t.Reaches m c e) :
    t.Replaces (m + n) c d → t.Replaces n e d := by
  induction h with
  | refl c =>
    intro hreplaces
    rwa [Nat.zero_add] at hreplaces
  | step first _ ih =>
    intro hreplaces
    rw [Nat.succ_add] at hreplaces
    cases hreplaces with
    | step hchoose later =>
      rw [next?_of_ok hchoose] at first
      obtain rfl := Option.some.inj first
      exact ih later

theorem not_replaces_of_stuck {left : List Goal} (stuck : t.Stuck a left) {input : List Terminal}
    {n : Nat} {d : Configuration} : ¬ t.Replaces (n + 1) ⟨left, a :: input⟩ d := by
  rintro (_ | ⟨hchoose, -⟩)
  rename_i goal rest _ _
  rcases goal with e | name
  · rw [choose] at hchoose
    split at hchoose
    · cases Except.ok.inj hchoose
    · contradiction
  · have hnone : t.get? name a = none := stuck
    simp only [choose, hnone] at hchoose
    contradiction

/-- **The replacements in a row are bounded by the height of the stack.** -/
theorem Faithful.replaces_le (faithful : Faithful g first follow t) {n : Nat}
    {c d : Configuration} (h : t.Replaces n c d) : n ≤ c.stack.length * t.goalCost := by
  obtain ⟨stack, input⟩ := c
  have hrow : ∀ m k, t.Reaches m ⟨stack, input⟩ k → (∀ j, ¬ t.Replaces (j + 1) k d) → n ≤ m := by
    intro m k hreaches hend
    by_contra hlt
    obtain ⟨j, rfl⟩ : ∃ j, n = m + (j + 1) := ⟨n - m - 1, by omega⟩
    exact hend j (h.of_reaches hreaches)
  rcases input with _ | ⟨a, input⟩
  · have hnone := hrow 0 _ (.refl _) (by rintro j (_ | ⟨hchoose, -⟩); contradiction)
    exact Nat.le_trans hnone (Nat.zero_le _)
  · cases outcome_of_stack (t := t) a stack with
    | vanishes m hm hnil => exact Nat.le_trans (hrow m _ (hnil.reaches input) nofun) hm
    | stops m hm left _ hleft stuck =>
      exact Nat.le_trans (hrow m _ (hleft.reaches input) fun _ => not_replaces_of_stuck stuck) hm
    | repeats _ _ _ hname _ => exact absurd hname List.not_mem_nil
    | loops m k name left left' hleft again =>
      -- the run that goes on for ever contradicts the one that ends
      obtain ⟨j, last, hlast, hstop⟩ := faithful.exists_last (a :: input) stack
      have hfinished := hlast.finished (runFrom_of_next?_eq_none hstop 0 0).2 (Nat.le_refl _)
      obtain ⟨i, hi, front, hfront⟩ := exists_rewrites_of_again again (j + 1)
      have hlong := (hleft.trans (hfront.append left)).reaches input
      exact absurd (hlong.unfinished (j + 1) (by omega)) hfinished

end ParseTable

/-! ## 4. Parsers -/

namespace Parser

variable {g : Grammar} {p : Parser}

/-- **The table of a grammar in order is faithful.** -/
theorem exists_faithful (wellFormed : g.WellFormed) (h : ofGrammar g = .ok p) :
    ∃ first follow, p.table.Faithful g first follow := by
  obtain ⟨-, first, follow, hfirst, hfollow, hbuild⟩ := ofGrammar_eq_ok h
  have closedFirst := FirstSets.closed_of_ofGrammar wellFormed hfirst
  refine ⟨first, follow, closedFirst, FirstSets.grounded_of_compute hfirst,
    FollowSets.closed_of_ofGrammar wellFormed closedFirst hfollow,
    fun name body rule a predicts =>
      ParseTable.exists_cell_of_predicts wellFormed.nodup hbuild rule predicts,
    fun name a cell hcell => ⟨ParseTable.mem_bodiesOf_of_build wellFormed.nodup hbuild hcell, ?_⟩⟩
  exact ((ParseTable.build_cell_iff wellFormed.nodup hbuild).mp hcell).2

/-- The rounds of a parse are never used up. -/
theorem verdict_ne_unfinished (wellFormed : g.WellFormed) (h : ofGrammar g = .ok p)
    (input : List Char) : (p.parse input).verdict ≠ .unfinished := by
  obtain ⟨first, follow, faithful⟩ := exists_faithful wellFormed h
  obtain ⟨n, last, hlast, hstop⟩ := faithful.exists_last (tokens input ++ [.endOfInput])
    [.variable p.start, .terminal .endOfInput]
  have hfinished :=
    hlast.finished (ParseTable.runFrom_of_next?_eq_none hstop 0 0).2 (Nat.le_refl _)
  unfold parse initial
  dsimp only
  rw [ParseTable.verdict_rounds hfinished]
  exact hfinished

/-- **Every parse ends**, whichever way the grammar was obtained: the parser comes to a point where
it does not go on, and gives its verdict there.  From any configuration, the replacements that it
makes before the next terminal is matched are bounded by the height of the stack. -/
theorem parse_finishes (obtained : g.Obtained) (h : ofGrammar g = .ok p) (input : List Char) :
    (p.parse input).verdict ≠ .unfinished ∧
    (∃ n last, p.table.Reaches n (p.initial (tokens input)) last ∧ p.table.next? last = none) ∧
    ∀ n c d, p.table.Replaces n c d → n ≤ c.stack.length * p.table.goalCost := by
  have wellFormed := obtained.wellFormed
  obtain ⟨first, follow, faithful⟩ := exists_faithful wellFormed h
  exact ⟨verdict_ne_unfinished wellFormed h input, faithful.exists_last _ _,
    fun n c d hreplaces => faithful.replaces_le hreplaces⟩

/-- `X` is left recursive, once behind a variable that vanishes, and derives no word. -/
def hiddenLoops : Grammar :=
  ⟨"S", [⟨"S", [[.terminal (.named "a"), .variable "S"], [.terminal (.named "b")],
      [.variable "X", .terminal (.named "c")]]⟩,
    ⟨"X", [[.variable "X"], [.variable "Y", .variable "X", .terminal (.named "d")]]⟩,
    ⟨"Y", [[.epsilon]]⟩]⟩

theorem hiddenLoops_obtained : hiddenLoops.Obtained :=
  @Grammar.Obtained.read .default "S -> a S | b | X c\nX -> X | Y X d\nY -> ε".toList _ (by decide)

/-- The parser of `hiddenLoops`. -/
def hiddenLoopsParser : Parser :=
  ⟨"S", ⟨OrderedMap.ofList
    [(("S", .named "a"), ⟨0, [.terminal (.named "a"), .variable "S"]⟩),
      (("S", .named "b"), ⟨1, [.terminal (.named "b")]⟩)]⟩⟩

theorem parse_finishes_hiddenLoops :
    hiddenLoops.Obtained ∧ ofGrammar hiddenLoops = .ok hiddenLoopsParser ∧
      (hiddenLoopsParser.parse "a a b".toList).verdict ≠ .unfinished := by
  have hparser : ofGrammar hiddenLoops = .ok hiddenLoopsParser := by decide
  exact ⟨hiddenLoops_obtained, hparser, (parse_finishes hiddenLoops_obtained hparser _).1⟩

end Parser

end FormalLang
