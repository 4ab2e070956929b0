import FormalLang.Proofs.Grammar.Introduced
import FormalLang.Proofs.Grammar.Leads

/-!
# Left recursion is really removed

After the removal no body begins with its own head, whatever the grammar
(`WellFormed.founded_removeLeftRecursion`).  That does not exclude left recursion by itself: the
introduced variables can vanish, and a body like `A' b B'` of `B'` begins with all that they let
through.  If the grammar has neither an `ε` body nor a cycle, there is no left recursion of any kind
(`removeLeftRecursion_not_leftRecursive`).

**The invariant** is `Staged`, and one replacement or one removal takes it a stage further.

* The bodies of a declared variable begin with a terminal or a declared variable, and once the
  variable was visited, with a later one.  Such goals do not vanish (`Staged.restrict_eq_nil`).
* Without the introduced variables in it, such a body is derived from the variable in the grammar
  that the removal began with.  A tail of introduced variables only would be a cycle there
  (`Inherits.restrict_tail_ne_nil`).
* So every tail of an introduced variable has a goal that does not vanish, and what stands before it
  was introduced earlier.

At the end every variable is led by variables of a lower rank (`Staged.rankIn_lt`): the introduced
ones by earlier introduced ones or by declared ones, and these by later declared ones.
-/

namespace FormalLang.Grammar

/-! ## 1. The order of declaration -/

/-- The place of a variable in the order of declaration. -/
def place (g : Grammar) (name : String) : Nat := g.variableNames.idxOf name

theorem place_injective {g : Grammar} {name name' : String} (h : name ∈ g.variableNames)
    (heq : g.place name = g.place name') : name = name' := (List.idxOf_inj h).mp heq

/-- A variable is declared once, and its place is the number of those before it. -/
theorem WellFormed.place_eq_length {g : Grammar} (wellFormed : g.WellFormed)
    {before after : List String} {name : String}
    (hnames : g.variableNames = before ++ name :: after) :
    name ∈ g.variableNames ∧ name ∉ before ∧ g.place name = before.length := by
  have hnodup := wellFormed.nodup
  rw [hnames] at hnodup
  have hnew : name ∉ before := fun hmem =>
    (List.nodup_append.mp hnodup).2.2 _ hmem _ List.mem_cons_self rfl
  refine ⟨?_, hnew, ?_⟩
  · rw [hnames]
    exact List.mem_append_right _ List.mem_cons_self
  · rw [place, hnames, List.idxOf_append_of_notMem hnew, List.idxOf_cons_self, Nat.add_zero]

/-! ## 2. No body begins with its own head -/

/-- Whether no body of a variable begins with the variable. -/
def Founded (g : Grammar) (name : String) : Prop :=
  ∀ body ∈ g.bodiesOf name, ∀ tail, body ≠ .variable name :: tail

/-- What stands behind a variable in its own bodies has goals, since `ε` stands alone. -/
theorem WellFormed.exists_goal_of_recursiveTails {g : Grammar} (wellFormed : g.WellFormed)
    {head : String} {tail : Body} (h : tail ∈ g.recursiveTails head) :
    ∃ goal rest, tail.goals = goal :: rest := by
  obtain ⟨hne, hbody⟩ := mem_recursiveTails.mp h
  obtain ⟨-, hepsilon⟩ := (wellFormed.rule hbody).1
  rcases tail with _ | ⟨t | v | _, tail⟩
  · exact absurd rfl hne
  · exact ⟨_, _, rfl⟩
  · exact ⟨_, _, rfl⟩
  · cases hepsilon (List.mem_cons_of_mem _ List.mem_cons_self)

theorem WellFormed.mem_of_recursiveTails {g : Grammar} (wellFormed : g.WellFormed)
    {head v : String} {tail : Body} (h : tail ∈ g.recursiveTails head)
    (hv : .variable v ∈ tail.goals) : v ∈ g.variableNames :=
  (wellFormed.rule (mem_recursiveTails.mp h).2).2 v
    (List.mem_cons_of_mem _ (Body.variable_mem_goals.mp hv))

/-- Other variables are as they were before a leading variable was replaced. -/
theorem Founded.substitute {r : Removal} {head name : String} (h : r.grammar.Founded name)
    (earlier : String) (hname : name ≠ head) :
    (r.substitute head earlier).grammar.Founded name := by
  intro body hbody
  rcases Removal.mem_bodiesOf_substitute hbody with ⟨hbody, -⟩ | ⟨hhead, -⟩
  · exact h body hbody
  · exact absurd hhead hname

/-- **The variable whose recursion is removed, and the fresh one, are founded afterwards.** -/
theorem WellFormed.founded_removeDirect {r : Removal} (wellFormed : r.grammar.WellFormed)
    {suffix : String} (hsuffix : suffix ≠ "") {head name : String}
    (h : name ≠ head → r.grammar.Founded name) :
    (r.removeDirect suffix head).grammar.Founded name := by
  have hfresh := freshVariable_not_mem_variableNames hsuffix r.grammar head
  rintro _ hbody tail rfl
  rcases Removal.mem_bodiesOf_removeDirect hsuffix hbody with
    ⟨hbody, hkept⟩ | ⟨-, ⟨rfl, old, hold, heq⟩ | ⟨hname, heq | ⟨old, hold, heq⟩⟩⟩
  · by_cases hname : name = head
    · exact hkept hname tail (hname ▸ rfl)
    · exact h hname _ hbody tail rfl
  · -- the body has the fresh variable behind it, which is another one
    obtain ⟨hbody, hbegins⟩ := mem_foundedBodies.mp hold
    have hgoals := congrArg Body.goals heq
    rw [goals_variable_cons, goals_append_fresh] at hgoals
    rcases List.cons_eq_append_iff.mp hgoals with ⟨-, hfirst⟩ | ⟨rest, hrest, -⟩
    · rw [Goal.variable.inj (List.cons.inj hfirst).1] at hfresh
      exact hfresh (mem_variableNames_of_mem_bodiesOf hbody)
    · obtain ⟨tail', rfl⟩ := (wellFormed.rule hbody).1.exists_variable_cons hrest
      exact hbegins tail' rfl
  · cases heq
  · -- the tail was there before the fresh variable was
    obtain ⟨goal, rest, hrest⟩ := wellFormed.exists_goal_of_recursiveTails hold
    have hgoals := congrArg Body.goals heq
    rw [goals_variable_cons, goals_append_fresh, hrest, List.cons_append] at hgoals
    obtain rfl := (List.cons.inj hgoals).1
    refine hfresh (hname ▸ wellFormed.mem_of_recursiveTails hold ?_)
    rw [hrest]
    exact List.mem_cons_self

/-- Whether the variables taken so far, and those that are new, are founded. -/
structure FoundedUpTo (g : Grammar) (earlier : List String) (r : Removal) : Prop where
  wellFormed : r.grammar.WellFormed
  founded : ∀ name, (name ∈ g.variableNames → name ∈ earlier) → r.grammar.Founded name

theorem FoundedUpTo.visit {g : Grammar} {earlier : List String} {head : String} {r : Removal}
    (h : g.FoundedUpTo earlier r) (hhead : head ∈ g.variableNames) (hnew : head ∉ earlier)
    {suffix : String} (hsuffix : suffix ≠ "") :
    g.FoundedUpTo (earlier ++ [head]) (r.visit suffix earlier head) := by
  have hfold : g.FoundedUpTo earlier (earlier.foldl (Removal.substitute head) r) := by
    refine foldl_stages (P := fun _ r => g.FoundedUpTo earlier r) ?_ h
    intro taken e rest r _ h
    refine ⟨h.wellFormed.substitute e head, fun name hname => ?_⟩
    have hne : name ≠ head := by
      rintro rfl
      exact hnew (hname hhead)
    exact (h.founded name hname).substitute e hne
  refine ⟨hfold.wellFormed.removeDirect hsuffix head, fun name hname => ?_⟩
  refine hfold.wellFormed.founded_removeDirect hsuffix fun hne => ?_
  refine hfold.founded name fun hmem => ?_
  exact (List.mem_append.mp (hname hmem)).resolve_right fun h => hne (List.mem_singleton.mp h)

/-- **After the removal no body begins with its own head.** -/
theorem WellFormed.founded_removeLeftRecursion {g : Grammar} (wellFormed : g.WellFormed)
    {suffix : String} (hsuffix : suffix ≠ "") (name : String) :
    (g.removeLeftRecursion suffix).grammar.Founded name := by
  have hstart : g.FoundedUpTo [] ⟨g, []⟩ := by
    refine ⟨wellFormed, fun name hname body hbody => ?_⟩
    exact absurd (hname (mem_variableNames_of_mem_bodiesOf hbody)) List.not_mem_nil
  have hall : g.FoundedUpTo g.variableNames (g.removeLeftRecursion suffix) := by
    refine Removal.visitAll_stages ?_ g.variableNames [] _ rfl hstart
    intro earlier head later r hnames h
    obtain ⟨hhead, hnew, -⟩ := wellFormed.place_eq_length hnames
    exact h.visit hhead hnew hsuffix
  exact hall.founded name id

/-! ## 3. Forms without introduced variables -/

/-- Whether a goal is a terminal or a variable of the grammar. -/
def knows (g : Grammar) : Goal → Bool
  | .terminal _ => true
  | .variable name => g.isVariable name

/-- A form without the variables that a grammar does not have. -/
def restrict (g : Grammar) (form : List Goal) : List Goal := form.filter g.knows

variable {g g' : Grammar} {name : String} {form : List Goal}

theorem knows_variable_iff : g.knows (.variable name) = true ↔ name ∈ g.variableNames := by
  rw [knows, isVariable, decide_eq_true_eq]

theorem restrict_nil : g.restrict [] = [] := rfl

theorem restrict_append (front back : List Goal) :
    g.restrict (front ++ back) = g.restrict front ++ g.restrict back := List.filter_append ..

theorem restrict_cons_of_knows {goal : Goal} (h : g.knows goal = true) :
    g.restrict (goal :: form) = goal :: g.restrict form := List.filter_cons_of_pos h

theorem restrict_cons_of_not_knows {goal : Goal} (h : ¬ g.knows goal = true) :
    g.restrict (goal :: form) = g.restrict form := List.filter_cons_of_neg h

theorem WellFormed.restrict_goals (wellFormed : g.WellFormed) {body : Body}
    (hbody : body ∈ g.bodiesOf name) : g.restrict body.goals = body.goals := by
  refine List.filter_eq_self.mpr fun goal hgoal => ?_
  rcases goal with t | v
  · rfl
  · exact knows_variable_iff.mpr
      ((wellFormed.rule hbody).2 v (Body.variable_mem_goals.mp hgoal))

/-- What the removal keeps of each body of a declared variable: without introduced variables it is
derived from the variable in the original grammar, and no introduced variable is in front. -/
structure Inherits (g : Grammar) (name : String) (form : List Goal) : Prop where
  derived : Relation.TransGen g.Expands [.variable name] (g.restrict form)
  headed : ∃ goal rest, form = goal :: rest ∧ g.knows goal = true

/-- What a body of an introduced variable is: empty, or a tail with the variable itself behind it.
The tail has a goal of the original grammar, and introduced variables in it are earlier ones. -/
def Trails (g g' : Grammar) (name : String) (form : List Goal) : Prop :=
  form = [] ∨ ∃ tail, form = tail ++ [.variable name] ∧ g.restrict tail ≠ [] ∧
    ∀ v, .variable v ∈ tail → v ∉ g.variableNames → g'.place v < g'.place name

theorem Inherits.first {back rest : List Goal} {goal : Goal} (h : g.Inherits name form)
    (heq : form ++ back = goal :: rest) : ∃ rest', form = goal :: rest' := by
  obtain ⟨goal', rest', rfl, -⟩ := h.headed
  obtain ⟨rfl, -⟩ := List.cons.inj heq
  exact ⟨rest', rfl⟩

theorem Inherits.restrict_ne_nil (h : g.Inherits name form) : g.restrict form ≠ [] := by
  obtain ⟨goal, rest, rfl, hgoal⟩ := h.headed
  rw [restrict_cons_of_knows hgoal]
  exact List.cons_ne_nil _ _

/-- Replacing the variable in front is a step of the derivation. -/
theorem Inherits.append {earlier head : String} {rest tail : List Goal}
    (hearlier : earlier ∈ g.variableNames) (h : g.Inherits head (.variable earlier :: tail))
    (hrest : g.Inherits earlier rest) : g.Inherits head (rest ++ tail) := by
  constructor
  · have hfirst := h.derived
    rw [restrict_cons_of_knows (knows_variable_iff.mpr hearlier)] at hfirst
    rw [restrict_append]
    exact hfirst.trans (transGen_expands_frame [] (g.restrict tail) hrest.derived)
  · obtain ⟨goal, rest, rfl, hgoal⟩ := hrest.headed
    exact ⟨goal, _, rfl, hgoal⟩

theorem Inherits.snoc {head fresh : String} (h : g.Inherits head form)
    (hfresh : fresh ∉ g.variableNames) : g.Inherits head (form ++ [.variable fresh]) := by
  have hunknown : ¬ g.knows (.variable fresh) = true :=
    fun hknows => hfresh (knows_variable_iff.mp hknows)
  constructor
  · rw [restrict_append, restrict_cons_of_not_knows hunknown, restrict_nil, List.append_nil]
    exact h.derived
  · obtain ⟨goal, rest, rfl, hgoal⟩ := h.headed
    exact ⟨goal, _, rfl, hgoal⟩

/-- A tail of introduced variables only would be a cycle. -/
theorem Inherits.restrict_tail_ne_nil {head : String} {tail : List Goal}
    (hhead : head ∈ g.variableNames) (h : g.Inherits head (.variable head :: tail))
    (acyclic : ¬ Relation.TransGen g.Expands [.variable head] [.variable head]) :
    g.restrict tail ≠ [] := by
  intro hnil
  have hderived := h.derived
  rw [restrict_cons_of_knows (knows_variable_iff.mpr hhead), hnil] at hderived
  exact acyclic hderived

theorem place_removeDirect {r : Removal} {head v : String} (suffix : String)
    (hv : v ∈ r.grammar.variableNames) :
    (r.removeDirect suffix head).grammar.place v = r.grammar.place v := by
  rcases r.variableNames_removeDirect suffix head with heq | heq
  · rw [place, heq, place]
  · rw [place, heq, List.idxOf_append_of_mem hv, place]

theorem Trails.removeDirect {r : Removal} (wellFormed : r.grammar.WellFormed) {body : Body}
    (hbody : body ∈ r.grammar.bodiesOf name) (h : g.Trails r.grammar name body.goals)
    (suffix head : String) :
    g.Trails (r.removeDirect suffix head).grammar name body.goals := by
  refine h.imp_right ?_
  rintro ⟨tail, hgoals, hsolid, hlower⟩
  refine ⟨tail, hgoals, hsolid, fun v hv hnew => ?_⟩
  have hmem : v ∈ r.grammar.variableNames := by
    refine (wellFormed.rule hbody).2 v (Body.variable_mem_goals.mp ?_)
    rw [hgoals]
    exact List.mem_append_left _ hv
  rw [place_removeDirect suffix hmem,
    place_removeDirect suffix (mem_variableNames_of_mem_bodiesOf hbody)]
  exact hlower v hv hnew

/-- The fresh variable is declared behind all that its tails mention. -/
theorem trails_fresh {r : Removal} (wellFormed : r.grammar.WellFormed) {suffix head : String}
    (hsuffix : suffix ≠ "") (hnames : (r.removeDirect suffix head).grammar.variableNames =
      r.grammar.variableNames ++ [r.grammar.freshVariable head suffix])
    {tail : Body} (htail : tail ∈ r.grammar.recursiveTails head)
    (hsolid : g.restrict tail.goals ≠ []) :
    g.Trails (r.removeDirect suffix head).grammar (r.grammar.freshVariable head suffix)
      (Body.append tail [.variable (r.grammar.freshVariable head suffix)]).goals := by
  have hfresh := freshVariable_not_mem_variableNames hsuffix r.grammar head
  refine .inr ⟨tail.goals, goals_append_fresh _ _, hsolid, fun v hv _ => ?_⟩
  have hmem := wellFormed.mem_of_recursiveTails htail hv
  have hlast : (r.removeDirect suffix head).grammar.place (r.grammar.freshVariable head suffix) =
      r.grammar.variableNames.length := by
    rw [place, hnames, List.idxOf_append_of_notMem hfresh, List.idxOf_cons_self, Nat.add_zero]
  rw [place_removeDirect suffix hmem, hlast]
  exact List.idxOf_lt_length_of_mem hmem

/-! ## 4. The stages of the removal -/

/-- **How far the removal is**: the variables at places before `k` were visited, and in the bodies
of the one at the place `k`, leading variables at places before `j` were replaced. -/
structure Staged (g : Grammar) (k j : Nat) (g' : Grammar) : Prop where
  wellFormed : g'.WellFormed
  declared : ∀ name ∈ g.variableNames, name ∈ g'.variableNames
  inherits : ∀ name ∈ g.variableNames, ∀ body ∈ g'.bodiesOf name, g.Inherits name body.goals
  past : ∀ name ∈ g.variableNames, g.place name < k → ∀ body ∈ g'.bodiesOf name, ∀ v rest,
    body.goals = .variable v :: rest → g.place name < g.place v
  current : ∀ name ∈ g.variableNames, g.place name = k → ∀ body ∈ g'.bodiesOf name, ∀ v rest,
    body.goals = .variable v :: rest → j ≤ g.place v
  trails : ∀ name ∉ g.variableNames, ∀ body ∈ g'.bodiesOf name, g.Trails g' name body.goals

/-- **The removal begins at the first stage.**  An `ε` body would have no first goal. -/
theorem WellFormed.staged (wellFormed : g.WellFormed)
    (solid : ∀ name, [.epsilon] ∉ g.bodiesOf name) : g.Staged 0 0 g where
  wellFormed := wellFormed
  declared _ h := h
  inherits name _ body hbody := by
    have hrestrict := wellFormed.restrict_goals hbody
    refine ⟨hrestrict.symm ▸ transGen_expands_of_rule hbody, ?_⟩
    obtain ⟨goal, rest, hgoals⟩ := (wellFormed.rule hbody).1.exists_goal_cons
      fun heq => solid name (heq ▸ hbody)
    refine ⟨goal, rest, hgoals, List.filter_eq_self.mp hrestrict goal ?_⟩
    rw [hgoals]
    exact List.mem_cons_self
  past _ _ h := absurd h (Nat.not_lt_zero _)
  current _ _ _ _ _ _ _ _ := Nat.zero_le _
  trails _ h _ hbody := absurd (mem_variableNames_of_mem_bodiesOf hbody) h

/-- **A replacement is a stage**: what it puts in front comes after the earlier variable, which was
visited. -/
theorem Staged.substitute {r : Removal} {k j : Nat} (h : g.Staged k j r.grammar)
    {earlier head : String} (hearlier : earlier ∈ g.variableNames) (hhead : head ∈ g.variableNames)
    (hj : g.place earlier = j) (hjk : j < k) (hk : g.place head = k) :
    g.Staged k (j + 1) (r.substitute head earlier).grammar where
  wellFormed := h.wellFormed.substitute earlier head
  declared name hname := by
    rw [Removal.variableNames_substitute]
    exact h.declared name hname
  inherits name hname body hbody := by
    rcases Removal.mem_bodiesOf_substitute hbody with
      ⟨hbody, -⟩ | ⟨rfl, tail, hold, replacement, hreplacement, rfl⟩
    · exact h.inherits name hname body hbody
    · rw [Body.goals_bodyAppend]
      exact (h.inherits _ hname _ hold).append hearlier (h.inherits _ hearlier _ hreplacement)
  past name hname hplace body hbody := by
    rcases Removal.mem_bodiesOf_substitute hbody with ⟨hbody, -⟩ | ⟨rfl, -⟩
    · exact h.past name hname hplace body hbody
    · omega
  current name hname hplace body hbody v rest hgoals := by
    rcases Removal.mem_bodiesOf_substitute hbody with
      ⟨hbody, hkept⟩ | ⟨rfl, tail, hold, replacement, hreplacement, rfl⟩
    · have hle := h.current name hname hplace body hbody v rest hgoals
      have hne : g.place v ≠ j := by
        intro heq
        obtain rfl := place_injective hearlier (hj.trans heq.symm)
        obtain ⟨tail, htail⟩ := (h.wellFormed.rule hbody).1.exists_variable_cons hgoals
        exact hkept (place_injective hname (hplace.trans hk.symm)) tail htail
      omega
    · -- the first goal is that of a body of the earlier variable
      rw [Body.goals_bodyAppend] at hgoals
      obtain ⟨rest', hrest⟩ := (h.inherits _ hearlier _ hreplacement).first hgoals
      have := h.past _ hearlier (hj ▸ hjk) _ hreplacement v rest' hrest
      omega
  trails name hname body hbody := by
    rcases Removal.mem_bodiesOf_substitute hbody with ⟨hbody, -⟩ | ⟨rfl, -⟩
    · simpa only [Trails, place, Removal.variableNames_substitute]
        using h.trails name hname body hbody
    · exact absurd hhead hname

/-- The bodies that are kept begin with later variables, once the earlier ones are replaced. -/
theorem Staged.place_lt_of_founded {k : Nat} (h : g.Staged k k g') {head v : String}
    (hhead : head ∈ g.variableNames) (hk : g.place head = k) {body : Body}
    (hbody : body ∈ g'.foundedBodies head) {rest : List Goal}
    (hgoals : body.goals = .variable v :: rest) : g.place head < g.place v := by
  obtain ⟨hrule, hbegins⟩ := mem_foundedBodies.mp hbody
  have hle := h.current head hhead hk body hrule v rest hgoals
  have hne : g.place head ≠ g.place v := by
    intro heq
    obtain rfl := place_injective hhead heq
    obtain ⟨tail, htail⟩ := (h.wellFormed.rule hrule).1.exists_variable_cons hgoals
    exact hbegins tail htail
  omega

/-- **Removing the recursion of a variable is a stage**: what is left begins with later variables,
and the fresh variable gets the tails. -/
theorem Staged.removeDirect {r : Removal} {k : Nat} (h : g.Staged k k r.grammar) {head : String}
    (acyclic : ¬ Relation.TransGen g.Expands [.variable head] [.variable head])
    (hhead : head ∈ g.variableNames) (hk : g.place head = k) {suffix : String}
    (hsuffix : suffix ≠ "") : g.Staged (k + 1) 0 (r.removeDirect suffix head).grammar := by
  have hfresh := freshVariable_not_mem_variableNames hsuffix r.grammar head
  have hnew : r.grammar.freshVariable head suffix ∉ g.variableNames :=
    fun hmem => hfresh (h.declared _ hmem)
  constructor
  case wellFormed => exact h.wellFormed.removeDirect hsuffix head
  case declared =>
    intro name hname
    rcases r.variableNames_removeDirect suffix head with heq | heq
    · exact heq ▸ h.declared name hname
    · exact heq ▸ List.mem_append_left _ (h.declared name hname)
  case inherits =>
    intro name hname body hbody
    rcases Removal.mem_bodiesOf_removeDirect hsuffix hbody with
      ⟨hbody, -⟩ | ⟨-, ⟨rfl, old, hold, rfl⟩ | ⟨rfl, -⟩⟩
    · exact h.inherits name hname body hbody
    · rw [goals_append_fresh]
      exact (h.inherits name hname old (mem_foundedBodies.mp hold).1).snoc hnew
    · exact absurd hname hnew
  case past =>
    intro name hname hplace body hbody v rest hgoals
    rcases Removal.mem_bodiesOf_removeDirect hsuffix hbody with
      ⟨hrule, hkept⟩ | ⟨-, ⟨rfl, old, hold, rfl⟩ | ⟨rfl, -⟩⟩
    · by_cases heq : name = head
      · subst heq
        exact h.place_lt_of_founded hhead hk (mem_foundedBodies.mpr ⟨hrule, hkept rfl⟩) hgoals
      · have hne : g.place name ≠ g.place head := fun h => heq (place_injective hname h)
        exact h.past name hname (by omega) body hrule v rest hgoals
    · rw [goals_append_fresh] at hgoals
      obtain ⟨rest', hrest⟩ :=
        (h.inherits name hname old (mem_foundedBodies.mp hold).1).first hgoals
      exact h.place_lt_of_founded hhead hk hold hrest
    · exact absurd hname hnew
  case current => exact fun _ _ _ _ _ _ _ _ => Nat.zero_le _
  case trails =>
    intro name hname body hbody
    rcases Removal.mem_bodiesOf_removeDirect hsuffix hbody with
      ⟨hbody, -⟩ | ⟨hnames, ⟨rfl, -⟩ | ⟨rfl, rfl | ⟨tail, htail, rfl⟩⟩⟩
    · exact (h.trails name hname body hbody).removeDirect h.wellFormed hbody suffix head
    · exact absurd hhead hname
    · exact .inl rfl
    · have hinherits := h.inherits head hhead _ (mem_recursiveTails.mp htail).2
      exact trails_fresh h.wellFormed hsuffix hnames htail
        (hinherits.restrict_tail_ne_nil hhead acyclic)

/-- **A visit is a stage.** -/
theorem Staged.visit (wellFormed : g.WellFormed) {earlier later : List String} {head : String}
    (hnames : g.variableNames = earlier ++ head :: later)
    (acyclic : ¬ Relation.TransGen g.Expands [.variable head] [.variable head]) {r : Removal}
    (h : g.Staged earlier.length 0 r.grammar) {suffix : String} (hsuffix : suffix ≠ "") :
    g.Staged (earlier ++ [head]).length 0 (r.visit suffix earlier head).grammar := by
  obtain ⟨hhead, -, hk⟩ := wellFormed.place_eq_length hnames
  have hfold : g.Staged earlier.length earlier.length
      (earlier.foldl (Removal.substitute head) r).grammar := by
    refine foldl_stages
      (P := fun taken (r : Removal) => g.Staged earlier.length taken.length r.grammar) ?_ h
    intro taken e rest r hearlier h
    rw [hearlier, List.append_assoc, List.cons_append] at hnames
    obtain ⟨he, -, hplace⟩ := wellFormed.place_eq_length hnames
    have hlt : taken.length < earlier.length := by
      rw [hearlier, List.length_append, List.length_cons]
      omega
    rw [List.length_append, List.length_singleton]
    exact h.substitute he hhead hplace hlt hk
  rw [List.length_append, List.length_singleton]
  exact hfold.removeDirect acyclic hhead hk hsuffix

theorem WellFormed.staged_removeLeftRecursion (wellFormed : g.WellFormed)
    (solid : ∀ name, [.epsilon] ∉ g.bodiesOf name)
    (acyclic : ∀ name, ¬ Relation.TransGen g.Expands [.variable name] [.variable name])
    {suffix : String} (hsuffix : suffix ≠ "") :
    g.Staged g.variableNames.length 0 (g.removeLeftRecursion suffix).grammar := by
  refine Removal.visitAll_stages (P := fun earlier r => g.Staged earlier.length 0 r.grammar) ?_
    g.variableNames [] ⟨g, []⟩ rfl (wellFormed.staged solid)
  intro earlier head later r hnames h
  exact h.visit wellFormed hnames (acyclic head) hsuffix

/-! ## 5. Nothing leads back -/

/-- **Only introduced variables can vanish.** -/
theorem Staged.restrict_eq_nil {k j : Nat} (h : g.Staged k j g') (hvanish : g'.Derives form []) :
    g.restrict form = [] := by
  have hyields : g'.Yields form [] := hvanish.yields rfl
  clear hvanish
  generalize hword : ([] : List Terminal) = word at hyields
  induction hyields with
  | nil => rfl
  | take => contradiction
  | @expand name body form word rule _ ih =>
    have hall := ih hword
    rw [restrict_append, List.append_eq_nil_iff] at hall
    obtain ⟨hbody, hform⟩ := hall
    by_cases hname : name ∈ g.variableNames
    · exact absurd hbody (h.inherits name hname body rule).restrict_ne_nil
    · rw [restrict_cons_of_not_knows fun hknows => hname (knows_variable_iff.mp hknows)]
      exact hform

/-- A declared variable is led by the first goals of its bodies only, which are later ones. -/
theorem Staged.led_of_declared (h : g.Staged g.variableNames.length 0 g') {head : String}
    (hhead : head ∈ g.variableNames) (led : g'.LedBy head name) :
    name ∈ g.variableNames ∧ g.place head < g.place name := by
  obtain ⟨body, rule, before, after, hgoals, hvanish⟩ := led
  have hbefore := h.restrict_eq_nil hvanish
  obtain ⟨goal, rest, hheaded, hgoal⟩ := (h.inherits head hhead body rule).headed
  rw [hheaded] at hgoals
  rcases before with _ | ⟨first, before⟩
  · obtain ⟨rfl, rfl⟩ := List.cons.inj hgoals
    refine ⟨knows_variable_iff.mp hgoal, ?_⟩
    exact h.past head hhead (List.idxOf_lt_length_of_mem hhead) body rule name rest hheaded
  · obtain ⟨rfl, -⟩ := List.cons.inj hgoals
    rw [restrict_cons_of_knows hgoal] at hbefore
    contradiction

/-- An introduced variable is not led by itself or a later one: its tails do not vanish. -/
theorem Staged.led_of_introduced {k j : Nat} (h : g.Staged k j g') {head : String}
    (hhead : head ∉ g.variableNames) (led : g'.LedBy head name) :
    name ∈ g.variableNames ∨ g'.place name < g'.place head := by
  obtain ⟨body, rule, before, after, hgoals, hvanish⟩ := led
  rcases h.trails head hhead body rule with hnil | ⟨tail, htail, hsolid, hlower⟩
  · rw [hnil] at hgoals
    exact absurd hgoals (by simp)
  · rw [htail] at hgoals
    rcases append_eq_append_cons hgoals with ⟨mid, rfl, -⟩ | ⟨mid, rfl, -⟩
    · by_cases hname : name ∈ g.variableNames
      · exact .inl hname
      · exact .inr (hlower name (List.mem_append_right _ List.mem_cons_self) hname)
    · have hbefore := h.restrict_eq_nil hvanish
      rw [restrict_append, List.append_eq_nil_iff] at hbefore
      exact absurd hbefore.1 hsolid

/-- The rank of a variable: declared ones rank below introduced ones, and later ones below earlier
ones; introduced ones rank in their order. -/
def rankIn (g g' : Grammar) (name : String) : Nat :=
  if name ∈ g.variableNames then g.variableNames.length - g.place name
  else g.variableNames.length + 1 + g'.place name

theorem Staged.rankIn_lt (h : g.Staged g.variableNames.length 0 g') {head : String}
    (led : g'.LedBy head name) : rankIn g g' name < rankIn g g' head := by
  rw [rankIn, rankIn]
  by_cases hhead : head ∈ g.variableNames
  · obtain ⟨hname, hlt⟩ := h.led_of_declared hhead led
    have hplace : g.place head < g.variableNames.length := List.idxOf_lt_length_of_mem hhead
    rw [if_pos hhead, if_pos hname]
    omega
  · rw [if_neg hhead]
    split
    · omega
    · rename_i hname
      have hlt := (h.led_of_introduced hhead led).resolve_left hname
      omega

/-- **Left recursion is really removed.**  No body begins with its own head, whatever the grammar;
and if the grammar has no `ε` body and no cycle, no variable is left recursive afterwards, not even
behind introduced variables that can vanish. -/
theorem removeLeftRecursion_not_leftRecursive {g : Grammar} (obtained : g.Obtained)
    {suffix : String} (nonempty : suffix ≠ "") :
    (∀ name, ∀ body ∈ (g.removeLeftRecursion suffix).grammar.bodiesOf name, ∀ tail,
        body ≠ .variable name :: tail) ∧
      ((∀ name, [.epsilon] ∉ g.bodiesOf name) →
        (∀ name, ¬ Relation.TransGen g.Expands [.variable name] [.variable name]) →
          ∀ name, ¬ (g.removeLeftRecursion suffix).grammar.LeftRecursive name) := by
  have wellFormed := obtained.wellFormed
  refine ⟨wellFormed.founded_removeLeftRecursion nonempty, fun solid acyclic => ?_⟩
  have staged := wellFormed.staged_removeLeftRecursion solid acyclic nonempty
  exact not_leftRecursive_of_rank fun _ _ led => staged.rankIn_lt led

/-- Each of two variables begins with the other: `A -> A a | B` and `B -> A b | c`. -/
def entwined : Grammar :=
  ⟨"A", [⟨"A", [[.variable "A", .terminal (.named "a")], [.variable "B"]]⟩,
    ⟨"B", [[.variable "A", .terminal (.named "b")], [.terminal (.named "c")]]⟩]⟩

theorem entwined_obtained : entwined.Obtained :=
  .build (b := (GrammarBuilder.empty.addRules "A"
      [[.variable "A", .terminal (.named "a")], [.variable "B"]]).addRules "B"
        [[.variable "A", .terminal (.named "b")], [.terminal (.named "c")]])
    (.addRules _ _ (.addRules _ _ .empty)) (by rfl)

/-- Weights by which every body is heavier than its head. -/
def entwinedWeight : Goal → Nat
  | .terminal _ => 3
  | .variable name => if name = "A" then 1 else 2

/-- `B'` becomes `A' b B' | ε`, where `A'` can vanish. -/
theorem removeLeftRecursion_not_leftRecursive_entwined :
    entwined.Obtained ∧ "'" ≠ "" ∧ (∀ name, [.epsilon] ∉ entwined.bodiesOf name) ∧
      (∀ name, ¬ Relation.TransGen entwined.Expands [.variable name] [.variable name]) ∧
      (∀ name, ∀ body ∈ (entwined.removeLeftRecursion "'").grammar.bodiesOf name, ∀ tail,
        body ≠ .variable name :: tail) ∧
      ∀ name, ¬ (entwined.removeLeftRecursion "'").grammar.LeftRecursive name := by
  have hnodup := entwined_obtained.wellFormed.nodup
  have solid : ∀ name, [.epsilon] ∉ entwined.bodiesOf name := by
    intro name hbody
    obtain ⟨p, hp, -, hmem⟩ := (mem_bodiesOf_iff hnodup).mp hbody
    exact (by decide : ∀ p ∈ entwined.productions, [.epsilon] ∉ p.bodies) p hp hmem
  have heavier : ∀ name, ∀ body ∈ entwined.bodiesOf name,
      entwinedWeight (.variable name) < (body.goals.map entwinedWeight).sum := by
    intro name body hbody
    obtain ⟨p, hp, rfl, hmem⟩ := (mem_bodiesOf_iff hnodup).mp hbody
    exact (by decide : ∀ p ∈ entwined.productions, ∀ body ∈ p.bodies,
      entwinedWeight (.variable p.head) < (body.goals.map entwinedWeight).sum) p hp body hmem
  have acyclic := fun name => not_transGen_expands_self heavier [.variable name]
  obtain ⟨founded, unrecursive⟩ :=
    removeLeftRecursion_not_leftRecursive entwined_obtained (by decide : "'" ≠ "")
  exact ⟨entwined_obtained, by decide, solid, acyclic, founded, unrecursive solid acyclic⟩

example : (entwined.removeLeftRecursion "'").grammar =
    ⟨"A", [⟨"A", [[.variable "B", .variable "A'"]]⟩,
      ⟨"B", [[.terminal (.named "c"), .variable "B'"]]⟩,
      ⟨"A'", [[.terminal (.named "a"), .variable "A'"], [.epsilon]]⟩,
      ⟨"B'", [[.variable "A'", .terminal (.named "b"), .variable "B'"], [.epsilon]]⟩]⟩ := by
  decide

end FormalLang.Grammar
