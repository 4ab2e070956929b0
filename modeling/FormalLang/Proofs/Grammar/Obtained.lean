import FormalLang.Grammar.Reader
import FormalLang.Proofs.Grammar.Removal

/-!
# The grammars that can be obtained

A grammar comes from a builder, from a text, or from the removal of left recursion (`Obtained`), and
every one of these is in order (`Obtained.wellFormed`).

A builder only looks at undefined variables at the end, so while rules are added the invariant is
weaker (`GrammarBuilder.Tidy`).
-/

namespace FormalLang

/-! ## 1. Building -/

namespace GrammarBuilder

/-- The builders that adding rules and setting the start lead to. -/
inductive Reachable : GrammarBuilder → Prop where
  | empty : Reachable .empty
  | addRule {b : GrammarBuilder} (head : String) (body : Body) (h : Reachable b) :
      Reachable (b.addRule head body)
  | addRules {b : GrammarBuilder} (head : String) (bodies : List Body) (h : Reachable b) :
      Reachable (b.addRules head bodies)
  | setStart {b : GrammarBuilder} (name : String) (h : Reachable b) : Reachable (b.setStart name)

/-- What holds of a builder at any time: heads do not repeat, and bodies are in normal form. -/
structure Tidy (b : GrammarBuilder) : Prop where
  nodup : b.heads.Nodup
  normal : ∀ p ∈ b.productions, ∀ body ∈ p.bodies, body.Normal

theorem map_head_addBody (head : String) (body : Body) : ∀ productions : List Production,
    (addBody head body productions).map Production.head =
      if head ∈ productions.map Production.head then productions.map Production.head
      else productions.map Production.head ++ [head]
  | [] => by simp [addBody]
  | p :: rest => by
    have ih := map_head_addBody head body rest
    rw [addBody]
    by_cases hp : p.head = head
    · simp [hp]
    · have hne : head ≠ p.head := fun e => hp e.symm
      rw [if_neg hp, List.map_cons, ih]
      by_cases hrest : head ∈ rest.map Production.head
      · simp [hrest]
      · simp [hne, hrest]

theorem mem_bodies_addBody {head : String} {body other : Body} :
    ∀ {productions : List Production} {p : Production}, p ∈ addBody head body productions →
      other ∈ p.bodies → other = body ∨ ∃ q ∈ productions, other ∈ q.bodies
  | [], p, hp, hother => by
    obtain rfl := List.mem_singleton.mp hp
    exact .inl (List.mem_singleton.mp hother)
  | q :: rest, p, hp, hother => by
    rw [addBody] at hp
    split at hp
    · rcases List.mem_cons.mp hp with rfl | hp
      · rcases List.mem_append.mp hother with h | h
        · exact .inr ⟨q, List.mem_cons_self, h⟩
        · exact .inl (List.mem_singleton.mp h)
      · exact .inr ⟨p, List.mem_cons_of_mem _ hp, hother⟩
    · rcases List.mem_cons.mp hp with rfl | hp
      · exact .inr ⟨p, List.mem_cons_self, hother⟩
      · rcases mem_bodies_addBody hp hother with h | ⟨r, hr, h⟩
        · exact .inl h
        · exact .inr ⟨r, List.mem_cons_of_mem _ hr, h⟩

theorem Tidy.addRule {b : GrammarBuilder} (h : b.Tidy) (head : String) (body : Body) :
    (b.addRule head body).Tidy := by
  refine ⟨?_, fun p hp other hother => ?_⟩
  · rw [heads, GrammarBuilder.addRule, map_head_addBody]
    split
    · exact h.nodup
    · rename_i hnew
      exact h.nodup.append (List.nodup_singleton head) (List.disjoint_singleton.mpr hnew)
  · rcases mem_bodies_addBody hp hother with rfl | ⟨q, hq, hother⟩
    · exact Body.normal_normalize body
    · exact h.normal q hq other hother

theorem Tidy.addRules {b : GrammarBuilder} (h : b.Tidy) (head : String) :
    ∀ bodies : List Body, (b.addRules head bodies).Tidy := by
  intro bodies
  induction bodies generalizing b with
  | nil => exact h
  | cons body rest ih => exact ih (h.addRule head body)

theorem Reachable.tidy {b : GrammarBuilder} (h : b.Reachable) : b.Tidy := by
  induction h with
  | empty => exact ⟨List.nodup_nil, fun p hp => absurd hp List.not_mem_nil⟩
  | addRule head body _ ih => exact ih.addRule head body
  | addRules head bodies _ ih => exact ih.addRules head bodies
  | setStart name _ ih => exact ⟨ih.nodup, ih.normal⟩

/-- A builder without undefined variables mentions declared variables only. -/
theorem closed_of_undefined?_eq_none {b : GrammarBuilder} (h : b.undefined? = none) :
    ∀ p ∈ b.productions, ∀ body ∈ p.bodies, ∀ name, .variable name ∈ body → name ∈ b.heads := by
  intro p hp body hbody name hname
  have hmentioned : name ∈ b.mentioned :=
    List.mem_flatMap.mpr ⟨p, hp, List.mem_flatMap.mpr
      ⟨body, hbody, List.mem_filterMap.mpr ⟨_, hname, rfl⟩⟩⟩
  have := List.find?_eq_none.mp h name hmentioned
  simpa using this

/-- A builder that mentions declared variables only has no undefined ones. -/
theorem undefined?_eq_none {b : GrammarBuilder} (h : ∀ p ∈ b.productions, ∀ body ∈ p.bodies,
    ∀ name, .variable name ∈ body → name ∈ b.heads) : b.undefined? = none := by
  rw [undefined?, List.find?_eq_none]
  intro name hname
  simp only [mentioned, List.mem_flatMap, List.mem_filterMap] at hname
  obtain ⟨p, hp, body, hbody, s, hs, hvariable⟩ := hname
  obtain rfl : s = .variable name := by
    cases s <;> simp_all [Symbol.variableName?]
  rw [decide_eq_true_eq, not_not]
  exact h p hp body hbody name hs

/-- A grammar that is built has the rules of its builder and starts with one of its variables. -/
theorem build_eq_ok {b : GrammarBuilder} {g : Grammar} (h : b.build = .ok g) :
    b.undefined? = none ∧ g.productions = b.productions ∧ g.start ∈ b.heads := by
  rw [build] at h
  split at h
  · contradiction
  · rename_i hclosed
    split at h
    · split at h
      · rename_i hstart
        obtain rfl := Except.ok.inj h
        exact ⟨hclosed, rfl, hstart⟩
      · contradiction
    · contradiction
    · rename_i p rest _ hproductions
      obtain rfl := Except.ok.inj h
      refine ⟨hclosed, rfl, ?_⟩
      rw [heads, hproductions]
      exact List.mem_cons_self

theorem Reachable.wellFormed {b : GrammarBuilder} {g : Grammar} (reachable : b.Reachable)
    (h : b.build = .ok g) : g.WellFormed := by
  obtain ⟨hclosed, hproductions, hstart⟩ := build_eq_ok h
  have hnames : g.variableNames = b.heads := by rw [Grammar.variableNames, hproductions, heads]
  refine ⟨?_, ?_, ?_, ?_⟩
  · rw [hnames]
    exact reachable.tidy.nodup
  · rw [hnames]
    exact hstart
  · rw [hnames, hproductions]
    exact closed_of_undefined?_eq_none hclosed
  · rw [hproductions]
    exact reachable.tidy.normal

end GrammarBuilder

namespace WrittenRule

/-- The bodies of a rule as they are read, given the heads of all rules. -/
def classified (options : GrammarOptions) (heads : List String) (rule : WrittenRule) : List Body :=
  rule.bodies.map fun body => body.map (classify options heads)

/-- **What holds of a builder while the rules of a text are added** holds in the end. -/
theorem toBuilder_induction {options : GrammarOptions} {rules : List WrittenRule}
    {P : List WrittenRule → GrammarBuilder → Prop} (empty : P [] .empty)
    (add : ∀ (added : List WrittenRule) (rule : WrittenRule) (b : GrammarBuilder), rule ∈ rules →
      P added b → P (added ++ [rule])
        (b.addRules rule.head (rule.classified options (rules.map WrittenRule.head))))
    (start : ∀ (b : GrammarBuilder) (name : String), P rules b → P rules (b.setStart name)) :
    P rules (toBuilder options rules) := by
  have hall : P rules (rules.foldl (fun b rule =>
      b.addRules rule.head (rule.classified options (rules.map WrittenRule.head))) .empty) := by
    refine foldl_stages ?_ empty
    intro added rule later b hrules h
    refine add added rule b ?_ h
    rw [hrules]
    exact List.mem_append_right _ List.mem_cons_self
  rw [toBuilder]
  split
  · exact hall
  · exact start _ _ hall

theorem reachable_toBuilder (options : GrammarOptions) (rules : List WrittenRule) :
    (toBuilder options rules).Reachable :=
  toBuilder_induction (P := fun _ b => b.Reachable) .empty
    (fun _ rule _ _ h => h.addRules rule.head _) fun _ name h => h.setStart name

end WrittenRule

theorem Grammar.wellFormed_of_ofText {options : GrammarOptions} {cs : List Char} {g : Grammar}
    (h : Grammar.ofText options cs = .ok g) : g.WellFormed := by
  rw [Grammar.ofText] at h
  split at h
  · contradiction
  · exact (WrittenRule.reachable_toBuilder options _).wellFormed h

/-! ## 2. All grammars -/

namespace Grammar

/-- **The grammars that can be obtained**: built, read from a text, or made from one of these by
removing left recursion.  With an empty suffix there are no fresh names, and the removal comes to an
end only if it looks for none. -/
inductive Obtained : Grammar → Prop where
  | build {b : GrammarBuilder} {g : Grammar} (reachable : b.Reachable) (h : b.build = .ok g) :
      Obtained g
  | read {options : GrammarOptions} {cs : List Char} {g : Grammar}
      (h : Grammar.ofText options cs = .ok g) : Obtained g
  | removal {g : Grammar} {suffix : String}
      (fresh : suffix ≠ "" ∨ (g.removeLeftRecursion suffix).OnlySubstitutes) (h : Obtained g) :
      Obtained (g.removeLeftRecursion suffix).grammar

/-- **Every grammar that can be obtained is in order.** -/
theorem Obtained.wellFormed {g : Grammar} (h : g.Obtained) : g.WellFormed := by
  induction h with
  | build reachable h => exact reachable.wellFormed h
  | read h => exact wellFormed_of_ofText h
  | removal fresh _ ih => exact ih.removeLeftRecursion fresh

end Grammar

end FormalLang
