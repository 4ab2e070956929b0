import FormalLang.Proofs.Grammar.FirstMeaning
import FormalLang.Proofs.Grammar.Follow

/-!
# What FOLLOW sets mean

The FOLLOW set of a variable has the terminals that can come right behind it: in a form that some
variable derives, reachable from the start or not, and for the end of the input also behind a form
that the start derives (`Grammar.Follows`).  The two passes find these sets, whatever the order of
the variables (`FollowSets.compute_finds_follow`).

* **Everything that can follow is found.**  Go back along a derivation to where the variable was put
  in.  What comes behind it begins in the body, or all of that vanishes and what followed the head
  follows the variable too (`Closed.mem_of_derives`).  The induction is on derivations that grow at
  their end, and it speaks of whatever the form behind the variable can begin with, since the
  terminal may get there later than the variable.
* **Nothing else is found.**  Every seed and every link is a derivation (`Follows.of_behind`,
  `Follows.of_heir`), so sets that hold only what can follow keep to that (`Search.Justified`).
-/

namespace FormalLang

/-- **Whether a terminal can come right behind a variable**: in a form that some variable derives,
or, as the end of the input, behind a form that the start derives. -/
def Grammar.Follows (g : Grammar) (name : String) (t : Terminal) : Prop :=
  (∃ v ∈ g.variableNames, ∃ before after,
    g.Derives [.variable v] (before ++ .variable name :: .terminal t :: after)) ∨
  t = .endOfInput ∧ ∃ before, g.Derives [.variable g.start] (before ++ [.variable name])

namespace FollowSets

variable {g : Grammar} {first : FirstSets} {follow : FollowSets} {name head : String} {t : Terminal}

/-! ## 1. Everything that can follow is found -/

/-- **Closed sets know what comes behind a variable** in a derived form: what the form behind it can
begin with and, if that can vanish, what follows the variable that the form is derived from. -/
theorem Closed.mem_of_derives (closedFirst : FirstSets.Closed g first)
    (closed : Closed g first follow) {v : String} {form : List Goal}
    (h : g.Derives [.variable v] form) : ∀ {name : String} {front back : List Goal},
      form = front ++ .variable name :: back →
      first.Begins back (.terminal t) ∨ first.Begins back .epsilon ∧ t ∈ follow.getD v →
        t ∈ follow.getD name := by
  rw [Grammar.derives_iff_reflTransGen] at h
  induction h with
  | refl =>
    intro name front back heq hback
    obtain ⟨rfl, hcons⟩ := List.append_eq_singleton_iff.mp heq.symm |>.resolve_right (by simp)
    obtain ⟨hname, rfl⟩ := List.cons.inj hcons
    obtain rfl := Goal.variable.inj hname
    rcases hback with hbegins | ⟨-, ht⟩
    · cases FirstSets.begins_nil_iff.mp hbegins
    · exact ht
  | tail _ expands ih =>
    rintro name front back rfl hback
    rcases expands.goal_cases with ⟨front', rfl, -⟩ | ⟨back', rfl, hstep⟩ |
      ⟨head, body, before, left, right, after, rule, rfl, hgoals, -, rfl⟩
    · exact ih rfl hback
    · refine ih rfl (hback.imp ?_ ?_)
      · exact closedFirst.begins_of_expands hstep
      · exact And.imp_left (closedFirst.begins_of_expands hstep)
    · -- the variable stands in the body of `head`, with `right` behind it there
      have hsuffix : .variable name :: right <:+ Body.goals body := ⟨left, hgoals.symm⟩
      obtain ⟨behind, hbehind, rfl⟩ := exists_behind_of_suffix hsuffix
      have hheir : first.Begins (Body.goals behind) .epsilon → t ∈ follow.getD head →
          t ∈ follow.getD name :=
        fun hvanish ht => closed.heirs head body rule name behind hbehind hvanish t ht
      rcases hback with hbegins | ⟨hvanish, ht⟩
      · rcases FirstSets.begins_append_iff.mp hbegins with ⟨hright, -⟩ | ⟨hright, hafter⟩
        · exact closed.behind head body rule name behind hbehind t hright
        · exact hheir hright (ih rfl (.inl hafter))
      · rcases FirstSets.begins_append_iff.mp hvanish with ⟨-, hne⟩ | ⟨hright, hafter⟩
        · contradiction
        · exact hheir hright (ih rfl (.inr ⟨hafter, ht⟩))

theorem Closed.mem_of_follows (closedFirst : FirstSets.Closed g first)
    (closed : Closed g first follow) (h : g.Follows name t) : t ∈ follow.getD name := by
  rcases h with ⟨v, -, before, after, h⟩ | ⟨rfl, before, h⟩
  · exact closed.mem_of_derives closedFirst h rfl (.inl (.terminal t after))
  · exact closed.mem_of_derives closedFirst h rfl (.inr ⟨.nil, closed.start⟩)

/-! ## 2. Seeds and links are derivations -/

/-- What begins behind a variable in a body follows it. -/
theorem Follows.of_behind {body : Body} (rule : body ∈ g.bodiesOf head)
    {before after rest : List Goal} (hgoals : body.goals = before ++ .variable name :: after)
    (hafter : g.Derives after (.terminal t :: rest)) : g.Follows name t := by
  have hbody : g.Derives body.goals (before ++ .variable name :: .terminal t :: rest) := by
    have hframe := hafter.frame (before ++ [.variable name]) []
    simpa [hgoals] using hframe
  have hhead := Grammar.Derives.of_rule rule hbody []
  rw [List.append_nil] at hhead
  exact .inl ⟨head, Grammar.mem_variableNames_of_mem_bodiesOf rule, before, rest, hhead⟩

/-- **What follows the head of a body follows a variable in it**, if all that is behind the variable
vanishes. -/
theorem Follows.of_heir {body : Body} (rule : body ∈ g.bodiesOf head) {before after : List Goal}
    (hgoals : body.goals = before ++ .variable name :: after) (hvanish : g.Derives after [])
    (h : g.Follows head t) : g.Follows name t := by
  have hend : g.Derives [.variable head] (before ++ [.variable name]) := by
    have hframe := hvanish.frame (before ++ [.variable name]) []
    refine .step (.replace [] [] rule) ?_
    simpa [hgoals] using hframe
  rcases h with ⟨v, hv, front, back, h⟩ | ⟨ht, front, h⟩
  · refine .inl ⟨v, hv, front ++ before, back, h.trans ?_⟩
    simpa using hend.frame front (.terminal t :: back)
  · refine .inr ⟨ht, front ++ before, h.trans ?_⟩
    simpa using hend.frame front []

/-! ## 3. Nothing else is found -/

namespace Search

/-- Whether the variables have sets, and these hold only what can follow. -/
structure Justified (g : Grammar) (s : Search) : Prop where
  names : ∀ name, (s.follow.get? name).isSome ↔ name ∈ g.variableNames
  follows : ∀ name, ∀ t ∈ s.follow.getD name, g.Follows name t

variable {s s' : Search}

theorem Justified.handTo (h : s.Justified g) {handed : OrderedSet Terminal} {heir : String}
    (hheir : heir ∈ g.variableNames) (hhanded : ∀ t ∈ handed, g.Follows heir t) :
    (s.handTo handed heir).Justified g := by
  unfold Search.handTo
  dsimp only
  split
  · exact h
  · refine ⟨fun name => ?_, fun name t ht => ?_⟩
    · rw [get?, OrderedMap.find?_insert]
      split
      · rename_i hname
        simp [hname, hheir]
      · exact h.names name
    · rw [getD_insert] at ht
      split at ht
      · rename_i hname
        subst hname
        exact (OrderedSet.mem_union.mp ht).elim (h.follows name t) (hhanded t)
      · exact h.follows name t ht

theorem Justified.handAll {handed : OrderedSet Terminal} : ∀ {heirs : List String} {s : Search},
    s.Justified g →
    (∀ heir ∈ heirs, heir ∈ g.variableNames ∧ ∀ t ∈ handed, g.Follows heir t) →
      (heirs.foldl (Search.handTo handed) s).Justified g
  | [], _, h, _ => h
  | heir :: _, _, h, hheirs => by
    obtain ⟨hname, hfollows⟩ := hheirs heir List.mem_cons_self
    rw [List.foldl_cons]
    exact handAll (h.handTo hname hfollows) fun v hv => hheirs v (List.mem_cons_of_mem _ hv)

/-- **A round hands on what can follow**, if the links do. -/
theorem Justified.step {links : OrderedMap String (OrderedSet String)}
    (hlinks : ∀ head name, Inherits links head name →
      name ∈ g.variableNames ∧ ∀ t, g.Follows head t → g.Follows name t)
    (h : s.Justified g) (hs : Search.step links s = some s') : s'.Justified g := by
  unfold Search.step at hs
  split at hs
  · contradiction
  · rename_i head rest _
    split at hs
    · obtain rfl := Option.some.inj hs
      exact ⟨h.names, h.follows⟩
    · rename_i heirs hheirs
      obtain rfl := Option.some.inj hs
      refine Justified.handAll ⟨h.names, h.follows⟩ fun heir hheir => ?_
      obtain ⟨hname, hfollows⟩ := hlinks head heir ⟨heirs, hheirs, hheir⟩
      exact ⟨hname, fun t ht => hfollows t (h.follows head t ht)⟩

end Search

/-- The seeds hold only what can follow. -/
theorem Seeds.Exact.justified {seeds : Seeds} (exact : seeds.Exact g first)
    (grounded : FirstSets.Grounded g first) (pending : List String) :
    Search.Justified g ⟨seeds.follow, pending⟩ where
  names := exact.known
  follows name t ht := by
    rcases (exact.follow name t).mp ht with ⟨rfl, rfl⟩ | ⟨head, body, rule, after, hbehind, hbegins⟩
    · exact .inr ⟨rfl, [], .refl _⟩
    · obtain ⟨before, hgoals⟩ := hbehind.exists_goals
      obtain ⟨rest, hafter⟩ :=
        (FirstSets.derives_of_canBegin (grounded.canBegin_of_begins hbegins)).2 t rfl
      exact Follows.of_behind rule hgoals hafter

/-- The links hand on only what can follow. -/
theorem Seeds.Exact.follows_of_inherits {seeds : Seeds} (exact : seeds.Exact g first)
    (grounded : FirstSets.Grounded g first) (h : Inherits seeds.heirs head name)
    (hhead : g.Follows head t) : g.Follows name t := by
  obtain ⟨-, body, rule, after, hbehind, hvanish⟩ := (exact.heirs head name).mp h
  obtain ⟨before, hgoals⟩ := hbehind.exists_goals
  exact Follows.of_heir rule hgoals
    ((FirstSets.derives_of_canBegin (grounded.canBegin_of_begins hvanish)).1 rfl) hhead

/-! ## 4. The order does not matter -/

/-- Whether there is a set for each variable, and each holds what can follow the variable. -/
structure Meant (g : Grammar) (follow : FollowSets) : Prop where
  names : ∀ name, (follow.get? name).isSome ↔ name ∈ g.variableNames
  follows : ∀ name t, t ∈ follow.getD name ↔ g.Follows name t

theorem Meant.unique {follow' : FollowSets} (h : Meant g follow) (h' : Meant g follow') :
    follow = follow' := by
  have hsets : follow.sets = follow'.sets := by
    refine OrderedMap.ext fun name => ?_
    change follow.get? name = follow'.get? name
    have hset : follow.getD name = follow'.getD name :=
      OrderedSet.ext fun t => (h.follows name t).trans (h'.follows name t).symm
    have hsome := (h.names name).trans (h'.names name).symm
    unfold getD at hset
    cases hget : follow.get? name <;> cases hget' : follow'.get? name <;> simp_all
  exact congrArg FollowSets.mk hsets

/-- Handing on ends in sets that hold what can follow. -/
theorem exists_last_meant (wellFormed : g.WellFormed) (closedFirst : FirstSets.Closed g first)
    (grounded : FirstSets.Grounded g first) {order : List String}
    (lists : ∀ name, name ∈ order ↔ name ∈ g.variableNames) :
    ∃ seeds last, Seeds.addHeads g first ⟨blank g, ∅⟩ order = .ok seeds ∧
      iterate (Search.step seeds.heirs) (rounds seeds.follow order) ⟨seeds.follow, order⟩ = last ∧
      last.pending = [] ∧ compute g first order = .ok last.follow ∧ Meant g last.follow := by
  obtain ⟨seeds, last, hseeds, exact, hlast, -, hpending⟩ := exists_last wellFormed
    closedFirst.total (fun name => (lists name).mp) (fun name => (lists name).mpr)
  have hcompute : compute g first order = .ok last.follow := by rw [compute, hseeds, ← hlast]
  obtain ⟨follow, hfollow, closed⟩ := exists_compute_closed wellFormed closedFirst.total
    (fun name => (lists name).mp) (fun name => (lists name).mpr)
  obtain rfl : last.follow = follow := Except.ok.inj (hcompute.symm.trans hfollow)
  have hkept := iterate_invariant (fun s s' h hs => Search.Justified.step (fun head name hlink =>
    ⟨(exact.mem_variableNames wellFormed hlink).2,
      fun t => exact.follows_of_inherits grounded hlink⟩) h hs)
    (rounds seeds.follow order) _ (exact.justified grounded order)
  rw [hlast] at hkept
  exact ⟨seeds, last, hseeds, hlast, hpending, hcompute, hkept.names,
    fun name t => ⟨hkept.follows name t, closed.mem_of_follows closedFirst⟩⟩

/-- **FOLLOW sets mean what they say, in any order.**  Handing on ends with no variable waiting, the
set of each variable holds what can follow it, and every order leads to the same sets. -/
theorem compute_finds_follow (obtained : g.Obtained) {order : List String}
    (lists : ∀ name, name ∈ order ↔ name ∈ g.variableNames) :
    ∃ first seeds last, FirstSets.ofGrammar g = .ok first ∧
      Seeds.addHeads g first ⟨blank g, ∅⟩ order = .ok seeds ∧
      iterate (Search.step seeds.heirs) (rounds seeds.follow order) ⟨seeds.follow, order⟩ = last ∧
      last.pending = [] ∧ compute g first order = .ok last.follow ∧
      (∀ name ∈ g.variableNames, ∃ found, last.follow.get? name = some found ∧
        ∀ t, t ∈ found ↔ g.Follows name t) ∧
      ∀ order' : List String, (∀ name, name ∈ order' ↔ name ∈ g.variableNames) →
        compute g first order' = .ok last.follow := by
  have wellFormed := obtained.wellFormed
  obtain ⟨first, hfirst, closedFirst⟩ := FirstSets.exists_ofGrammar_closed wellFormed
  have grounded : FirstSets.Grounded g first := FirstSets.grounded_of_compute hfirst
  obtain ⟨seeds, last, hseeds, hlast, hpending, hcompute, meant⟩ :=
    exists_last_meant wellFormed closedFirst grounded lists
  refine ⟨first, seeds, last, hfirst, hseeds, hlast, hpending, hcompute, fun name hname => ?_,
    fun order' lists' => ?_⟩
  · obtain ⟨found, hfound⟩ := Option.isSome_iff_exists.mp ((meant.names name).mpr hname)
    refine ⟨found, hfound, fun t => ?_⟩
    rw [← meant.follows name t, getD, hfound, Option.getD_some]
  · obtain ⟨_, last', -, -, -, hcompute', meant'⟩ :=
      exists_last_meant wellFormed closedFirst grounded lists'
    rw [hcompute', meant'.unique meant]

/-- `A` and `B` end each other's bodies, `$` stands in a body, and `U` is not reachable. -/
def circular : Grammar :=
  ⟨"S", [⟨"S", [[.variable "A", .variable "B"]]⟩,
    ⟨"A", [[.terminal (.named "a"), .variable "B"], [.epsilon]]⟩,
    ⟨"B", [[.terminal (.named "b"), .variable "A"], [.terminal .endOfInput, .variable "A"],
      [.epsilon]]⟩,
    ⟨"U", [[.variable "B", .terminal (.named "u")]]⟩]⟩

theorem circular_obtained : circular.Obtained :=
  @Grammar.Obtained.read .default
    "S -> A B\nA -> a B | ε\nB -> b A | $ A | ε\nU -> B u".toList _ (by decide)

/-- The FIRST sets of `circular`. -/
def circularFirst : FirstSets :=
  ⟨OrderedMap.ofList
    [("S", .ofList [.terminal (.named "a"), .terminal (.named "b"), .terminal .endOfInput,
        .epsilon]),
      ("A", .ofList [.terminal (.named "a"), .epsilon]),
      ("B", .ofList [.terminal (.named "b"), .terminal .endOfInput, .epsilon]),
      ("U", .ofList [.terminal (.named "b"), .terminal (.named "u"), .terminal .endOfInput])]⟩

/-- The FOLLOW sets of `circular`. -/
def circularFollow : FollowSets :=
  ⟨OrderedMap.ofList
    [("S", .ofList [.endOfInput]),
      ("A", .ofList [.named "b", .named "u", .endOfInput]),
      ("B", .ofList [.named "b", .named "u", .endOfInput]), ("U", ∅)]⟩

/-- An order that begins with the unreachable variable and has another one twice. -/
def shuffled : List String := ["U", "B", "S", "B", "A"]

/-- `u` follows `A` because the unreachable `U` derives `b A u`, and `a` does not follow it. -/
theorem compute_finds_follow_circular :
    circular.Obtained ∧ (∀ name, name ∈ shuffled ↔ name ∈ circular.variableNames) ∧
      compute circular circularFirst shuffled = ofGrammar circular circularFirst ∧
      circular.Follows "A" (.named "u") ∧ ¬ circular.Follows "A" (.named "a") := by
  have hlists : ∀ name, name ∈ shuffled ↔ name ∈ circular.variableNames := fun name =>
    ⟨(by decide : ∀ v ∈ shuffled, v ∈ circular.variableNames) name,
      (by decide : ∀ v ∈ circular.variableNames, v ∈ shuffled) name⟩
  have hfirst : FirstSets.ofGrammar circular = .ok circularFirst := by decide
  have hfollow : compute circular circularFirst shuffled = .ok circularFollow := by decide
  obtain ⟨first, seeds, last, hok, -, -, -, hcompute, hvariables, horder⟩ :=
    compute_finds_follow circular_obtained hlists
  obtain rfl : circularFirst = first := Except.ok.inj (hfirst.symm.trans hok)
  have heq : last.follow = circularFollow := Except.ok.inj (hcompute.symm.trans hfollow)
  rw [heq] at hvariables
  obtain ⟨found, hget, hfound⟩ := hvariables "A" (by decide)
  obtain rfl := Option.some.inj (hget.symm.trans (by rfl))
  exact ⟨circular_obtained, hlists,
    hcompute.trans (horder circular.variableNames fun _ => Iff.rfl).symm,
    (hfound _).mp (by decide), fun h => absurd ((hfound _).mpr h) (by decide)⟩

end FollowSets

end FormalLang
