import FormalLang.Proofs.Predictive.Table
import Mathlib.Data.Set.BooleanAlgebra
import Mathlib.Data.Set.Disjoint
import Mathlib.Order.CompletePartialOrder

/-!
# When there is a table

A grammar has a table exactly if no terminal predicts two bodies of one variable, and if it has none,
the first conflict is reported (`ParseTable.build_exact`).  FIRST and FOLLOW sets are whatever they
are given as: they need not belong to the grammar, as long as the variables in its bodies have FIRST
sets.

* **A table has no conflicts.**  Every rule that was entered is in the cells of all the terminals
  that predict it, and a cell has one place (`alternative_unique`).
* **A conflict is one of two rules.**  The construction ends at a rule whose terminal has a cell
  already (`enterRules_eq_error`).  The rules before it have a table among themselves, and the cell is
  the place of one of them, which comes first because the rules of a variable are in order
  (`rules_ordered`).
-/

namespace FormalLang

/-! ## 1. Predicting a body by its place -/

/-- **The terminals that predict a body of a variable**, given the place of the body: those in the
FIRST set of the body and, if that has `ε`, those that follow the variable. -/
def Grammar.predictSet (g : Grammar) (first : FirstSets) (follow : FollowSets) (name : String)
    (i : Nat) : Set Terminal :=
  {t | ∃ body found, (g.bodiesOf name)[i]? = some body ∧ first.ofBody body = .ok found ∧
    (.terminal t ∈ found ∨ .epsilon ∈ found ∧ t ∈ follow.getD name)}

/-- **What a first conflict is**: a terminal predicts two bodies of a variable, and of the rules that
come before the second body, no two that belong to one variable are predicted by one terminal. -/
def Grammar.FirstConflict (g : Grammar) (first : FirstSets) (follow : FollowSets) (c : Conflict) :
    Prop :=
  ∃ i j before after, i < j ∧ (g.bodiesOf c.head)[i]? = some c.existing ∧
    (g.bodiesOf c.head)[j]? = some c.conflicting ∧
    c.terminal ∈ g.predictSet first follow c.head i ∧
    c.terminal ∈ g.predictSet first follow c.head j ∧
    g.rules = before ++ ⟨c.head, j, c.conflicting⟩ :: after ∧
    before.Pairwise fun r r' => r.head = r'.head →
      Disjoint (g.predictSet first follow r.head r.alternative)
        (g.predictSet first follow r'.head r'.alternative)

namespace ParseTable

variable {g : Grammar} {first : FirstSets} {follow : FollowSets} {t t' : ParseTable} {rule : Rule}
  {a : Terminal}

theorem mem_predictSet_iff (defined : ∀ rule ∈ g.rules, ∃ found, first.ofBody rule.body = .ok found)
    (nodup : g.variableNames.Nodup) {name : String} {i : Nat} :
    a ∈ g.predictSet first follow name i ↔
      ∃ body, (g.bodiesOf name)[i]? = some body ∧ Predicts first follow name body a := by
  constructor
  · rintro ⟨body, found, hbody, hfound, hmem⟩
    rw [FirstSets.mem_ofBody_iff hfound, FirstSets.mem_ofBody_iff hfound] at hmem
    exact ⟨body, hbody, hmem⟩
  · rintro ⟨body, hbody, hpredicts⟩
    obtain ⟨found, hfound⟩ := defined ⟨name, i, body⟩ ((Grammar.mem_rules_iff nodup).mpr hbody)
    refine ⟨body, found, hbody, hfound, ?_⟩
    rw [FirstSets.mem_ofBody_iff hfound, FirstSets.mem_ofBody_iff hfound]
    exact hpredicts

theorem mem_predictSet_of_listed
    (defined : ∀ rule ∈ g.rules, ∃ found, first.ofBody rule.body = .ok found)
    (nodup : g.variableNames.Nodup) (listed : Listed g rule) :
    a ∈ g.predictSet first follow rule.head rule.alternative ↔
      Predicts first follow rule.head rule.body a := by
  rw [mem_predictSet_iff defined nodup, listed]
  simp

/-! ## 2. The order of the rules -/

theorem rules_production_ordered (p : Production) :
    p.rules.Pairwise fun r r' => r.alternative < r'.alternative := by
  rw [List.pairwise_iff_getElem]
  intro i j hi hj hij
  simpa [Production.rules] using hij

/-- **The rules of a variable are in the order of their places.** -/
theorem rules_ordered (nodup : g.variableNames.Nodup) :
    g.rules.Pairwise fun r r' => r.head = r'.head → r.alternative < r'.alternative := by
  have hhead : ∀ p : Production, ∀ r ∈ p.rules, r.head = p.head := by
    intro p r hr
    obtain ⟨i, -, rfl⟩ := List.mem_mapIdx.mp hr
    rfl
  rw [Grammar.rules, List.pairwise_flatMap]
  refine ⟨fun p _ => (rules_production_ordered p).imp fun {r r'} h (_ : r.head = r'.head) => h, ?_⟩
  refine (List.pairwise_map.mp nodup).imp fun {p q} hne r hr r' hr' heads => ?_
  rw [hhead p r hr, hhead q r' hr'] at heads
  exact absurd heads hne

/-! ## 3. The first conflict -/

theorem enter_eq_error {c : Conflict} (h : t.enter rule a = .error c) :
    ∃ cell, t.get? rule.head a = some cell ∧ cell.alternative ≠ rule.alternative ∧
      c = ⟨rule.head, a, cell.body, rule.body⟩ := by
  unfold enter at h
  split at h
  · contradiction
  · rename_i cell hcell
    split at h
    · contradiction
    · rename_i hne
      exact ⟨cell, hcell, hne, (Except.error.inj h).symm⟩

/-- A rule that cannot be entered comes up against a cell that was there before it. -/
theorem enterAll_eq_error (listed : Listed g rule) {c : Conflict} :
    ∀ {terminals : List Terminal} {t : ParseTable}, Consistent g t →
      t.enterAll rule terminals = .error c → ∃ b ∈ terminals, ∃ cell,
        t.get? rule.head b = some cell ∧ cell.alternative ≠ rule.alternative ∧
          c = ⟨rule.head, b, cell.body, rule.body⟩
  | [], _, _, h => nomatch h
  | a :: rest, t, consistent, h => by
    rw [enterAll] at h
    split at h
    · rename_i c' hc
      obtain rfl := Except.error.inj h
      obtain ⟨cell, hcell⟩ := enter_eq_error hc
      exact ⟨a, List.mem_cons_self, cell, hcell⟩
    · rename_i next hnext
      have hone := fun name b cell => @enter_cell_iff g t next rule consistent listed a hnext name
        b cell
      have hconsistent : Consistent g next :=
        consistent.of_cell_iff (P := fun _ b => b = a) listed hone
      obtain ⟨b, hb, cell, hcell, hne, hc⟩ := enterAll_eq_error listed hconsistent h
      refine ⟨b, List.mem_cons_of_mem _ hb, cell, ?_, hne, hc⟩
      rcases (hone rule.head b cell).mp hcell with hcell | ⟨-, -, rfl⟩
      · exact hcell
      · exact absurd rfl hne

/-- **The construction ends at the first rule that cannot be entered.** -/
theorem enterRules_eq_error {e : TableError} : ∀ {rules : List Rule} {t : ParseTable},
    (∀ rule ∈ rules, ∃ found, first.ofBody rule.body = .ok found) →
    enterRules first follow t rules = .error e →
      ∃ before rule after t' found c, rules = before ++ rule :: after ∧
        enterRules first follow t before = .ok t' ∧ first.ofBody rule.body = .ok found ∧
          t'.enterAll rule (predict follow rule.head found) = .error c ∧ e = .conflict c
  | [], _, _, h => nomatch h
  | rule :: rest, t, defined, h => by
    obtain ⟨found, hfound⟩ := defined rule List.mem_cons_self
    rw [enterRules, hfound] at h
    dsimp only at h
    split at h
    · rename_i c hc
      exact ⟨[], rule, rest, t, found, c, rfl, rfl, hfound, hc, (Except.error.inj h).symm⟩
    · rename_i next hnext
      obtain ⟨before, rule', after, t', found', c, rfl, hbefore, herror⟩ :=
        enterRules_eq_error (fun r hr => defined r (List.mem_cons_of_mem _ hr)) h
      refine ⟨rule :: before, rule', after, t', found', c, rfl, ?_, herror⟩
      rw [enterRules, hfound]
      simp only [hnext]
      exact hbefore

/-- **Rules in a table that one terminal predicts have one place**, if they belong to one
variable. -/
theorem alternative_unique {rules : List Rule} (listed : ∀ rule ∈ rules, Listed g rule)
    (h : enterRules first follow empty rules = .ok t) {r r' : Rule} (hr : r ∈ rules)
    (hr' : r' ∈ rules) (heads : r.head = r'.head) (hpredicts : Predicts first follow r.head r.body a)
    (hpredicts' : Predicts first follow r'.head r'.body a) : r.alternative = r'.alternative := by
  have hcell : t.get? r.head a = some (cellOf r) :=
    (cell_iff_of_enterRules listed h).mpr ⟨r, hr, rfl, hpredicts, rfl⟩
  have hcell' : t.get? r'.head a = some (cellOf r') :=
    (cell_iff_of_enterRules listed h).mpr ⟨r', hr', rfl, hpredicts', rfl⟩
  rw [heads, hcell'] at hcell
  exact congrArg Cell.alternative (Option.some.inj hcell).symm

/-! ## 4. The whole table -/

section Building

variable (nodup : g.variableNames.Nodup)
  (defined : ∀ rule ∈ g.rules, ∃ found, first.ofBody rule.body = .ok found)

include nodup defined

/-- Where there is a table, no terminal predicts two bodies of one variable. -/
theorem disjoint_predictSet (h : build g first follow = .ok t) {name : String} {i j : Nat}
    (hij : i ≠ j) :
    Disjoint (g.predictSet first follow name i) (g.predictSet first follow name j) := by
  have hlisted : ∀ rule ∈ g.rules, Listed g rule :=
    fun rule hrule => (Grammar.mem_rules_iff nodup).mp hrule
  refine Set.disjoint_left.mpr fun a hi hj => hij ?_
  obtain ⟨body, hbody, hpredicts⟩ := (mem_predictSet_iff defined nodup).mp hi
  obtain ⟨body', hbody', hpredicts'⟩ := (mem_predictSet_iff defined nodup).mp hj
  have hrule : (⟨name, i, body⟩ : Rule) ∈ g.rules := (Grammar.mem_rules_iff nodup).mpr hbody
  have hrule' : (⟨name, j, body'⟩ : Rule) ∈ g.rules := (Grammar.mem_rules_iff nodup).mpr hbody'
  exact alternative_unique hlisted h hrule hrule' rfl hpredicts hpredicts'

/-- **Where there is no table, the first conflict is reported.** -/
theorem firstConflict_of_build {e : TableError} (h : build g first follow = .error e) :
    ∃ c, e = .conflict c ∧ g.FirstConflict first follow c := by
  have hlisted : ∀ rule ∈ g.rules, Listed g rule :=
    fun rule hrule => (Grammar.mem_rules_iff nodup).mp hrule
  obtain ⟨before, rule, after, t, found, c, hrules, hbefore, hfound, herror, rfl⟩ :=
    enterRules_eq_error defined h
  have hordered := rules_ordered nodup
  rw [hrules, List.pairwise_append, List.pairwise_cons] at hordered
  obtain ⟨hearlier, -, hlater⟩ := hordered
  have hbeforeListed : ∀ r ∈ before, Listed g r :=
    fun r hr => hlisted r (hrules ▸ List.mem_append_left _ hr)
  have hruleListed : Listed g rule :=
    hlisted rule (hrules ▸ List.mem_append_right _ List.mem_cons_self)
  have hpredicts : ∀ r, Listed g r → ∀ b, b ∈ g.predictSet first follow r.head r.alternative →
      Predicts first follow r.head r.body b :=
    fun r hr b => (mem_predictSet_of_listed defined nodup hr).mp
  obtain ⟨a, ha, cell, hcell, -, rfl⟩ :=
    enterAll_eq_error hruleListed (consistent_of_enterRules hbeforeListed hbefore) herror
  -- the cell that is in the way is that of an earlier rule
  obtain ⟨r, hr, heads, hfirst, rfl⟩ := (cell_iff_of_enterRules hbeforeListed hbefore).mp hcell
  have hrListed := hbeforeListed r hr
  have hplaces : r.alternative < rule.alternative :=
    hlater r hr rule List.mem_cons_self heads.symm
  have hmem : a ∈ g.predictSet first follow rule.head r.alternative := by
    rw [heads] at hfirst ⊢
    exact (mem_predictSet_of_listed defined nodup hrListed).mpr hfirst
  have hmem' : a ∈ g.predictSet first follow rule.head rule.alternative :=
    (mem_predictSet_of_listed defined nodup hruleListed).mpr ((mem_predict_iff hfound).mp ha)
  refine ⟨_, rfl, r.alternative, rule.alternative, before, after, hplaces, heads ▸ hrListed,
    hruleListed, hmem, hmem', hrules, hearlier.imp_of_mem fun {r₁ r₂} h₁ h₂ hlt heads => ?_⟩
  refine Set.disjoint_left.mpr fun b hb hb' => Nat.ne_of_lt (hlt heads) ?_
  exact alternative_unique hbeforeListed hbefore h₁ h₂ heads
    (hpredicts r₁ (hbeforeListed r₁ h₁) b hb) (hpredicts r₂ (hbeforeListed r₂ h₂) b hb')

end Building

/-- **There is a table exactly if no terminal predicts two bodies of one variable.**  Its cells are
then the predicted bodies with their places, and otherwise the first conflict is reported. -/
theorem build_exact (nodup : g.variableNames.Nodup)
    (defined : ∀ p ∈ g.productions, ∀ body ∈ p.bodies, ∀ name, .variable name ∈ body →
      (first.get? name).isSome) :
    ((∃ table, build g first follow = .ok table) ↔ ∀ name i j, i ≠ j →
      Disjoint (g.predictSet first follow name i) (g.predictSet first follow name j)) ∧
    (∀ table, build g first follow = .ok table → ∀ name a cell, table.get? name a = some cell ↔
      (g.bodiesOf name)[cell.alternative]? = some cell.body ∧
        a ∈ g.predictSet first follow name cell.alternative) ∧
    ∀ e, build g first follow = .error e →
      ∃ c, e = .conflict c ∧ g.FirstConflict first follow c := by
  have hbodies : ∀ rule ∈ g.rules, ∃ found, first.ofBody rule.body = .ok found := by
    intro rule hrule
    have hbody := List.mem_of_getElem? ((Grammar.mem_rules_iff nodup).mp hrule)
    obtain ⟨p, hp, -, hbody⟩ := (Grammar.mem_bodiesOf_iff nodup).mp hbody
    exact FirstSets.exists_ofBody (defined p hp rule.body hbody)
  refine ⟨⟨?_, fun hdisjoint => ?_⟩, fun table h name a cell => ?_,
    fun e => firstConflict_of_build nodup hbodies⟩
  · rintro ⟨table, h⟩ name i j
    exact disjoint_predictSet nodup hbodies h
  · cases h : build g first follow with
    | ok table => exact ⟨table, rfl⟩
    | error e =>
      obtain ⟨c, -, i, j, _, _, hlt, -, -, hi, hj, -⟩ := firstConflict_of_build nodup hbodies h
      exact absurd hj (Set.disjoint_left.mp (hdisjoint c.head i j (Nat.ne_of_lt hlt)) hi)
  · rw [build_cell_iff nodup h]
    refine and_congr_right fun hbody => ?_
    rw [mem_predictSet_iff hbodies nodup, hbody]
    simp

/-- Two bodies of `S` begin with `A`. -/
def rivals : Grammar :=
  ⟨"S", [⟨"S", [[.variable "A", .terminal (.named "x")], [.variable "B", .terminal (.named "y")],
      [.variable "A", .terminal (.named "z")]]⟩,
    ⟨"A", [[.terminal (.named "a")], [.epsilon]]⟩, ⟨"B", [[.terminal (.named "b")]]⟩]⟩

/-- FIRST sets of another grammar, without one for `S`, which stands in no body. -/
def foreignFirst : FirstSets :=
  ⟨OrderedMap.ofList [("A", .ofList [.terminal (.named "c"), .variable "Q", .epsilon]),
    ("B", .ofList [.terminal (.named "b")])]⟩

/-- The bodies at the places 0 and 2 compete for `c`. -/
def rivalry : Conflict :=
  ⟨"S", .named "c", [.variable "A", .terminal (.named "x")],
    [.variable "A", .terminal (.named "z")]⟩

/-- No variable has a FOLLOW set here. -/
theorem build_exact_rivals :
    rivals.variableNames.Nodup ∧
      (∀ p ∈ rivals.productions, ∀ body ∈ p.bodies, ∀ name, .variable name ∈ body →
        (foreignFirst.get? name).isSome) ∧
      build rivals foreignFirst ⟨∅⟩ = .error (.conflict rivalry) ∧
      rivals.FirstConflict foreignFirst ⟨∅⟩ rivalry := by
  have hnodup : rivals.variableNames.Nodup := by decide
  have hall : ∀ p ∈ rivals.productions, ∀ body ∈ p.bodies, ∀ s ∈ body,
      (s.variableName?.all fun name => (foreignFirst.get? name).isSome) = true := by decide
  have hdefined : ∀ p ∈ rivals.productions, ∀ body ∈ p.bodies, ∀ name, .variable name ∈ body →
      (foreignFirst.get? name).isSome :=
    fun p hp body hbody name hname => hall p hp body hbody (.variable name) hname
  have hbuild : build rivals foreignFirst ⟨∅⟩ = .error (.conflict rivalry) := by decide
  obtain ⟨-, -, herror⟩ := @build_exact rivals foreignFirst ⟨∅⟩ hnodup hdefined
  obtain ⟨c, hc, hfirst⟩ := herror _ hbuild
  obtain rfl := TableError.conflict.inj hc
  exact ⟨hnodup, hdefined, hbuild, hfirst⟩

end ParseTable

end FormalLang
