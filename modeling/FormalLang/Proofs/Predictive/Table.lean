import FormalLang.Predictive.Table
import FormalLang.Proofs.Grammar.Follow

/-!
# What a table holds

`Predicts` says under which terminals a body is entered: those it can begin with and, if it can
vanish, those that follow its variable.

* `build_cell_iff`: where there is a table, its cells are exactly the predicted bodies.  No two
  bodies of a variable are predicted by one terminal, for that is a conflict.

**The invariant.**  A cell names a body by its place among the bodies of its variable
(`Consistent`).  That is why entering a rule under a terminal whose cell has the same place changes
nothing: the cell has the body of the rule already.
-/

namespace FormalLang

/-- Whether a body of a variable is predicted by a terminal. -/
def Predicts (first : FirstSets) (follow : FollowSets) (head : String) (body : Body)
    (t : Terminal) : Prop :=
  first.Begins body.goals (.terminal t) ∨
    first.Begins body.goals .epsilon ∧ t ∈ follow.getD head

namespace ParseTable

/-! ## 1. Entering rules -/

/-- Whether a rule is the body of its variable at its place. -/
def Listed (g : Grammar) (rule : Rule) : Prop :=
  (g.bodiesOf rule.head)[rule.alternative]? = some rule.body

/-- Whether every cell holds a body of its variable, with its place. -/
def Consistent (g : Grammar) (t : ParseTable) : Prop :=
  ∀ name a cell, t.get? name a = some cell → Listed g ⟨name, cell.alternative, cell.body⟩

/-- The cell that a rule makes. -/
def cellOf (rule : Rule) : Cell := ⟨rule.alternative, rule.body⟩

variable {g : Grammar} {t t' : ParseTable} {rule : Rule}

theorem get?_empty {name : String} {a : Terminal} : ParseTable.empty.get? name a = none := rfl

theorem consistent_empty : Consistent g ParseTable.empty := fun _ _ _ hcell => nomatch hcell

theorem enter_cell_iff (consistent : Consistent g t) (listed : Listed g rule) {a : Terminal}
    (h : t.enter rule a = .ok t') {name : String} {b : Terminal} {cell : Cell} :
    t'.get? name b = some cell ↔
      t.get? name b = some cell ∨ name = rule.head ∧ b = a ∧ cell = cellOf rule := by
  unfold enter at h
  split at h
  · rename_i hnone
    obtain rfl := Except.ok.inj h
    rw [get?, OrderedMap.find?_insert]
    split
    · rename_i heq
      obtain ⟨rfl, rfl⟩ := Prod.mk.inj heq
      rw [hnone]
      simp [cellOf, eq_comm]
    · rename_i hne
      have hother : ¬(name = rule.head ∧ b = a ∧ cell = cellOf rule) := by
        rintro ⟨rfl, rfl, -⟩
        exact hne rfl
      simp only [hother, or_false]
      exact Iff.rfl
  · rename_i known hknown
    split at h
    · rename_i halternative
      obtain rfl := Except.ok.inj h
      -- the cell is there already, with the body of the rule
      have hbody : known = cellOf rule := by
        have hlisted := consistent rule.head a known hknown
        rw [Listed] at hlisted listed
        rw [halternative, listed] at hlisted
        obtain ⟨alternative, body⟩ := known
        exact congrArg₂ Cell.mk halternative (Option.some.inj hlisted).symm
      constructor
      · exact .inl
      · rintro (h | ⟨rfl, rfl, rfl⟩)
        · exact h
        · rw [← hbody]
          exact hknown
    · contradiction

theorem Consistent.of_cell_iff {P : String → Terminal → Prop} (consistent : Consistent g t)
    (listed : Listed g rule) (h : ∀ name b cell, t'.get? name b = some cell ↔
      t.get? name b = some cell ∨ name = rule.head ∧ P name b ∧ cell = cellOf rule) :
    Consistent g t' := by
  intro name b cell hcell
  rcases (h name b cell).mp hcell with hcell | ⟨rfl, -, rfl⟩
  · exact consistent name b cell hcell
  · exact listed

theorem enterAll_cell_iff (listed : Listed g rule) : ∀ {terminals : List Terminal}
    {t : ParseTable}, Consistent g t → t.enterAll rule terminals = .ok t' →
      ∀ name b cell, t'.get? name b = some cell ↔
        t.get? name b = some cell ∨ name = rule.head ∧ b ∈ terminals ∧ cell = cellOf rule
  | [], t, _, h, name, b, cell => by
    obtain rfl := Except.ok.inj h
    simp
  | a :: rest, t, consistent, h, name, b, cell => by
    rw [enterAll] at h
    split at h
    · contradiction
    · rename_i next hnext
      have hone := fun name b cell => @enter_cell_iff g t next rule consistent listed a hnext name
        b cell
      have hconsistent : Consistent g next :=
        consistent.of_cell_iff (P := fun _ b => b = a) listed hone
      rw [enterAll_cell_iff listed hconsistent h, hone, List.mem_cons]
      grind

theorem mem_predict_iff {first : FirstSets} {follow : FollowSets} {body : Body}
    {firstOfBody : OrderedSet Symbol} (h : first.ofBody body = .ok firstOfBody) {head : String}
    {a : Terminal} : a ∈ predict follow head firstOfBody ↔ Predicts first follow head body a := by
  rw [predict, List.mem_append, mem_filterMap_terminal?_iff, ← OrderedSet.mem_def, Predicts,
    ← FirstSets.mem_ofBody_iff h, ← FirstSets.mem_ofBody_iff h]
  refine or_congr_right ?_
  split
  · rename_i hvanish
    exact ⟨fun ha => ⟨hvanish, ha⟩, fun ha => ha.2⟩
  · rename_i hvanish
    exact ⟨fun ha => absurd ha List.not_mem_nil, fun ha => absurd ha.1 hvanish⟩

theorem enterRules_cell_iff {first : FirstSets} {follow : FollowSets} :
    ∀ {rules : List Rule} {t : ParseTable}, (∀ rule ∈ rules, Listed g rule) → Consistent g t →
      enterRules first follow t rules = .ok t' →
      ∀ name b cell, t'.get? name b = some cell ↔ t.get? name b = some cell ∨
        ∃ rule ∈ rules, name = rule.head ∧ Predicts first follow name rule.body b ∧
          cell = cellOf rule
  | [], t, _, _, h, name, b, cell => by
    obtain rfl := Except.ok.inj h
    simp
  | rule :: rest, t, listed, consistent, h, name, b, cell => by
    rw [enterRules] at h
    split at h
    · contradiction
    · rename_i firstOfBody hfirst
      split at h
      · contradiction
      · rename_i next hnext
        have hrule := listed rule List.mem_cons_self
        have hone := enterAll_cell_iff hrule consistent hnext
        have hconsistent : Consistent g next := consistent.of_cell_iff
          (P := fun _ b => b ∈ predict follow rule.head firstOfBody) hrule hone
        rw [enterRules_cell_iff (fun r hr => listed r (List.mem_cons_of_mem _ hr)) hconsistent h,
          hone, mem_predict_iff hfirst, or_assoc]
        refine or_congr_right ?_
        simp only [List.mem_cons, exists_eq_or_imp]
        refine or_congr_left ?_
        constructor
        · rintro ⟨rfl, hpredicts, hcell⟩
          exact ⟨rfl, hpredicts, hcell⟩
        · rintro ⟨rfl, hpredicts, hcell⟩
          exact ⟨rfl, hpredicts, hcell⟩

/-! ## 2. The whole table -/

/-- **The cells of a table are the rules that were entered**, where they are predicted. -/
theorem cell_iff_of_enterRules {first : FirstSets} {follow : FollowSets} {rules : List Rule}
    (listed : ∀ rule ∈ rules, Listed g rule) (h : enterRules first follow empty rules = .ok t)
    {name : String} {a : Terminal} {cell : Cell} :
    t.get? name a = some cell ↔ ∃ rule ∈ rules, name = rule.head ∧
      Predicts first follow name rule.body a ∧ cell = cellOf rule := by
  rw [enterRules_cell_iff listed consistent_empty h, get?_empty]
  exact or_iff_right nofun

theorem consistent_of_enterRules {first : FirstSets} {follow : FollowSets} {rules : List Rule}
    (listed : ∀ rule ∈ rules, Listed g rule) (h : enterRules first follow empty rules = .ok t) :
    Consistent g t := by
  intro name a cell hcell
  obtain ⟨rule, hrule, rfl, -, rfl⟩ := (cell_iff_of_enterRules listed h).mp hcell
  exact listed rule hrule

/-- **The cells of a table are the predicted bodies**, with their places. -/
theorem build_cell_iff {first : FirstSets} {follow : FollowSets} (nodup : g.variableNames.Nodup)
    (h : build g first follow = .ok t) {name : String} {a : Terminal} {cell : Cell} :
    t.get? name a = some cell ↔ (g.bodiesOf name)[cell.alternative]? = some cell.body ∧
      Predicts first follow name cell.body a := by
  have hlisted : ∀ rule ∈ g.rules, Listed g rule :=
    fun rule hrule => (Grammar.mem_rules_iff nodup).mp hrule
  rw [cell_iff_of_enterRules hlisted h]
  constructor
  · rintro ⟨rule, hrule, rfl, hpredicts, rfl⟩
    exact ⟨hlisted rule hrule, hpredicts⟩
  · rintro ⟨hplace, hpredicts⟩
    exact ⟨⟨name, cell.alternative, cell.body⟩, (Grammar.mem_rules_iff nodup).mpr hplace, rfl,
      hpredicts, rfl⟩

/-- A cell holds a body of its variable. -/
theorem mem_bodiesOf_of_build {first : FirstSets} {follow : FollowSets}
    (nodup : g.variableNames.Nodup) (h : build g first follow = .ok t) {name : String}
    {a : Terminal} {cell : Cell} (hcell : t.get? name a = some cell) :
    cell.body ∈ g.bodiesOf name :=
  List.mem_of_getElem? ((build_cell_iff nodup h).mp hcell).1

/-- A predicted body is in its cell. -/
theorem exists_cell_of_predicts {first : FirstSets} {follow : FollowSets}
    (nodup : g.variableNames.Nodup) (h : build g first follow = .ok t) {name : String}
    {body : Body} (rule : body ∈ g.bodiesOf name) {a : Terminal}
    (predicts : Predicts first follow name body a) :
    ∃ cell, t.get? name a = some cell ∧ cell.body = body := by
  obtain ⟨i, hi⟩ := List.getElem?_of_mem rule
  exact ⟨⟨i, body⟩, (build_cell_iff nodup h).mpr ⟨hi, predicts⟩, rfl⟩

end ParseTable

end FormalLang
