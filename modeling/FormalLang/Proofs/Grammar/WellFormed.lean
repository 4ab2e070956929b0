import FormalLang.Grammar.Derivation
import FormalLang.Grammar.LeftRecursion
import Mathlib.Data.List.Nodup
import Mathlib.Tactic.Common

/-!
# Grammars that are in order

A `Grammar` is a start and a list of productions, and most such values are no grammar that anything
produces: heads may repeat, bodies may mention names without rules.  `WellFormed` rules these out.
Here it is put in terms of `bodiesOf`, the view through which derivations read a grammar
(`wellFormed_iff`), together with what `bodiesOf` shows after a change: other bodies for a variable
(`bodiesOf_setBodies`) and one more variable (`bodiesOf_declare`).
-/

namespace FormalLang

/-! ## 1. Bodies in normal form -/

namespace Body

/-- Whether a body is in normal form: it is not empty, and `ε` stands in it only alone. -/
def Normal (body : Body) : Prop := body ≠ [] ∧ (.epsilon ∈ body → body = [.epsilon])

theorem Normal.exists_variable_cons {body : Body} (normal : body.Normal) {name : String}
    {rest : List Goal} (h : body.goals = .variable name :: rest) :
    ∃ tail, body = .variable name :: tail := by
  rcases body with _ | ⟨t | v | _, tail⟩
  · exact absurd rfl normal.1
  · cases (List.cons.inj h).1
  · obtain rfl := Goal.variable.inj (List.cons.inj h).1
    exact ⟨tail, rfl⟩
  · rw [normal.2 List.mem_cons_self] at h
    contradiction

/-- Only the empty body has no goals. -/
theorem Normal.exists_goal_cons {body : Body} (normal : body.Normal) (hne : body ≠ [.epsilon]) :
    ∃ goal rest, body.goals = goal :: rest := by
  rcases body with _ | ⟨t | v | _, tail⟩
  · exact absurd rfl normal.1
  · exact ⟨_, _, rfl⟩
  · exact ⟨_, _, rfl⟩
  · exact absurd (normal.2 List.mem_cons_self) hne

theorem normalize_eq_or (body : Body) :
    normalize body = [.epsilon] ∧ (body.filter fun s => s ≠ .epsilon) = [] ∨
      normalize body = body.filter (fun s => s ≠ .epsilon) ∧
        (body.filter fun s => s ≠ .epsilon) ≠ [] := by
  unfold normalize
  split
  · rename_i h
    exact .inl ⟨rfl, h⟩
  · rename_i s rest h
    exact .inr ⟨h.symm, by rw [h]; exact List.cons_ne_nil s rest⟩

theorem normal_normalize (body : Body) : (normalize body).Normal := by
  rcases normalize_eq_or body with ⟨h, -⟩ | ⟨h, hne⟩
  · rw [h]
    exact ⟨List.cons_ne_nil _ _, fun _ => rfl⟩
  · rw [h]
    refine ⟨hne, fun hmem => ?_⟩
    simp at hmem

/-- The normal form has the same symbols other than `ε`. -/
theorem mem_normalize {body : Body} {s : Symbol} (hs : s ≠ .epsilon) :
    s ∈ normalize body ↔ s ∈ body := by
  have hfilter : s ∈ body.filter (fun s => s ≠ .epsilon) ↔ s ∈ body := by simp [hs]
  rcases normalize_eq_or body with ⟨h, hnil⟩ | ⟨h, -⟩
  · rw [h, ← hfilter, hnil]
    simp [hs]
  · rw [h, hfilter]

theorem goals_filter (body : Body) : goals (body.filter fun s => s ≠ .epsilon) = body.goals := by
  rw [goals, goals, List.filterMap_filter]
  congr 1
  funext s
  cases s <;> rfl

@[simp] theorem goals_normalize (body : Body) : (normalize body).goals = body.goals := by
  rw [← goals_filter body]
  rcases normalize_eq_or body with ⟨h, hnil⟩ | ⟨h, -⟩
  · rw [h, hnil]
    rfl
  · rw [h]

theorem goals_append (front back : Body) : goals (front ++ back) = front.goals ++ back.goals :=
  List.filterMap_append

@[simp] theorem goals_bodyAppend (front back : Body) :
    (Body.append front back).goals = front.goals ++ back.goals := by
  rw [Body.append, goals_normalize, goals_append]

theorem mem_append_iff {front back : Body} {s : Symbol} (hs : s ≠ .epsilon) :
    s ∈ Body.append front back ↔ s ∈ front ∨ s ∈ back := by
  rw [Body.append, mem_normalize hs, List.mem_append]

theorem variable_mem_append {front back : Body} {name : String} :
    .variable name ∈ Body.append front back ↔ .variable name ∈ front ∨ .variable name ∈ back :=
  mem_append_iff nofun

theorem variable_mem_goals {body : Body} {name : String} :
    Goal.variable name ∈ body.goals ↔ Symbol.variable name ∈ body := by
  rw [goals, List.mem_filterMap]
  constructor
  · rintro ⟨s, hs, h⟩
    cases s <;> simp_all [Symbol.goal?]
  · exact fun h => ⟨_, h, rfl⟩

theorem terminal_mem_goals {body : Body} {t : Terminal} :
    Goal.terminal t ∈ body.goals ↔ Symbol.terminal t ∈ body := by
  rw [goals, List.mem_filterMap]
  constructor
  · rintro ⟨s, hs, h⟩
    cases s <;> simp_all [Symbol.goal?]
  · exact fun h => ⟨_, h, rfl⟩

theorem beginsWith_iff {name : String} {body : Body} :
    body.beginsWith name = true ↔ ∃ tail, body = .variable name :: tail := by
  rw [beginsWith, decide_eq_true_eq]
  cases body <;> simp

end Body

/-! ## 2. The bodies of a variable -/

namespace Grammar

theorem bodiesOf_eq_nil {g : Grammar} {name : String} (h : name ∉ g.variableNames) :
    g.bodiesOf name = [] := by
  have hnone : (g.productions.find? fun p => decide (p.head = name)) = none := by
    rw [List.find?_eq_none]
    intro p hp
    rw [decide_eq_true_eq]
    rintro rfl
    exact h (List.mem_map_of_mem hp)
  rw [bodiesOf, hnone]

theorem mem_variableNames_of_mem_bodiesOf {g : Grammar} {name : String} {body : Body}
    (h : body ∈ g.bodiesOf name) : name ∈ g.variableNames := by
  by_contra hn
  rw [bodiesOf_eq_nil hn] at h
  exact List.not_mem_nil h

/-- The bodies of a declared variable are found. -/
theorem getBodies_eq_ok {g : Grammar} {name : String} (h : name ∈ g.variableNames) :
    g.getBodies name = .ok (g.bodiesOf name) := by
  rw [getBodies, isVariable, if_pos (decide_eq_true h)]

theorem eq_bodiesOf_of_getBodies {g : Grammar} {name : String} {bodies : List Body}
    (h : g.getBodies name = .ok bodies) : bodies = g.bodiesOf name := by
  rw [getBodies] at h
  split at h
  · exact (Except.ok.inj h).symm
  · contradiction

/-- Where heads do not repeat, a production holds all bodies of its head. -/
theorem bodiesOf_eq_of_mem {g : Grammar} (nodup : g.variableNames.Nodup) {p : Production}
    (hp : p ∈ g.productions) : g.bodiesOf p.head = p.bodies := by
  obtain ⟨start, productions⟩ := g
  simp only [variableNames, bodiesOf] at *
  induction productions with
  | nil => exact absurd hp List.not_mem_nil
  | cons q rest ih =>
    rw [List.map_cons, List.nodup_cons] at nodup
    rcases List.mem_cons.mp hp with rfl | hp
    · rw [List.find?_cons_of_pos (by simp)]
    · have hne : q.head ≠ p.head := fun h => nodup.1 (h ▸ List.mem_map_of_mem hp)
      rw [List.find?_cons_of_neg (by simpa using hne)]
      exact ih nodup.2 hp

theorem mem_bodiesOf_iff {g : Grammar} (nodup : g.variableNames.Nodup) {name : String}
    {body : Body} :
    body ∈ g.bodiesOf name ↔ ∃ p ∈ g.productions, p.head = name ∧ body ∈ p.bodies := by
  constructor
  · intro h
    obtain ⟨p, hp, rfl⟩ := List.mem_map.mp (mem_variableNames_of_mem_bodiesOf h)
    rw [bodiesOf_eq_of_mem nodup hp] at h
    exact ⟨p, hp, rfl, h⟩
  · rintro ⟨p, hp, rfl, h⟩
    rw [bodiesOf_eq_of_mem nodup hp]
    exact h

/-- Well-formedness, with the rules read through `bodiesOf`. -/
theorem wellFormed_iff {g : Grammar} : g.WellFormed ↔
    g.variableNames.Nodup ∧ g.start ∈ g.variableNames ∧
      ∀ name, ∀ body ∈ g.bodiesOf name, body.Normal ∧
        ∀ v, .variable v ∈ body → v ∈ g.variableNames := by
  constructor
  · rintro ⟨nodup, start_mem, closed, normal⟩
    refine ⟨nodup, start_mem, fun name body hbody => ?_⟩
    obtain ⟨p, hp, -, hbody⟩ := (mem_bodiesOf_iff nodup).mp hbody
    exact ⟨normal p hp body hbody, closed p hp body hbody⟩
  · rintro ⟨nodup, start_mem, rules⟩
    have hrule : ∀ p ∈ g.productions, ∀ body ∈ p.bodies, body ∈ g.bodiesOf p.head :=
      fun p hp body hbody => (mem_bodiesOf_iff nodup).mpr ⟨p, hp, rfl, hbody⟩
    exact ⟨nodup, start_mem, fun p hp body hbody => (rules _ _ (hrule p hp body hbody)).2,
      fun p hp body hbody => (rules _ _ (hrule p hp body hbody)).1⟩

theorem WellFormed.rule {g : Grammar} (h : g.WellFormed) {name : String} {body : Body}
    (hbody : body ∈ g.bodiesOf name) : body.Normal ∧ ∀ v, .variable v ∈ body → v ∈ g.variableNames :=
  (wellFormed_iff.mp h).2.2 name body hbody

/-- The rules of a grammar are the bodies of its variables with their places. -/
theorem mem_rules_iff {g : Grammar} (nodup : g.variableNames.Nodup) {r : Rule} :
    r ∈ g.rules ↔ (g.bodiesOf r.head)[r.alternative]? = some r.body := by
  rw [rules, List.mem_flatMap]
  constructor
  · rintro ⟨p, hp, hr⟩
    obtain ⟨i, hi, rfl⟩ := List.mem_mapIdx.mp hr
    rw [bodiesOf_eq_of_mem nodup hp]
    exact List.getElem?_eq_getElem hi
  · intro h
    obtain ⟨p, hp, hhead, -⟩ := (mem_bodiesOf_iff nodup).mp (List.mem_of_getElem? h)
    rw [← hhead, bodiesOf_eq_of_mem nodup hp] at h
    obtain ⟨hi, hbody⟩ := List.getElem?_eq_some_iff.mp h
    refine ⟨p, hp, List.mem_mapIdx.mpr ⟨r.alternative, hi, ?_⟩⟩
    rw [hbody, hhead]

/-- The terminals of a body are terminals of the grammar. -/
theorem mem_terminals_of_mem_bodiesOf {g : Grammar} (nodup : g.variableNames.Nodup)
    {name : String} {body : Body} {t : Terminal} (hbody : body ∈ g.bodiesOf name)
    (ht : .terminal t ∈ body) : t ∈ g.terminals := by
  obtain ⟨i, hi⟩ := List.getElem?_of_mem hbody
  have hrule : (⟨name, i, body⟩ : Rule) ∈ g.rules := (mem_rules_iff nodup).mpr hi
  exact OrderedSet.mem_ofList.mpr (List.mem_cons_of_mem _ (List.mem_flatMap.mpr
    ⟨_, hrule, List.mem_filterMap.mpr ⟨_, ht, rfl⟩⟩))

/-! ## 3. Other bodies, other variables -/

@[simp] theorem variableNames_setBodies (g : Grammar) (name : String) (bodies : List Body) :
    (g.setBodies name bodies).variableNames = g.variableNames := by
  simp only [variableNames, setBodies, List.map_map]
  refine List.map_congr_left fun p _ => ?_
  simp only [Function.comp_apply]
  split <;> rfl

theorem bodiesOf_setBodies {g : Grammar} {name : String} (h : name ∈ g.variableNames)
    (bodies : List Body) (x : String) :
    (g.setBodies name bodies).bodiesOf x = if x = name then bodies else g.bodiesOf x := by
  have hkeep : ((fun p : Production => decide (p.head = x)) ∘ fun p =>
      if p.head = name then ⟨p.head, bodies⟩ else p) = fun p => decide (p.head = x) := by
    funext p
    simp only [Function.comp_apply]
    split <;> rfl
  simp only [bodiesOf, setBodies, List.find?_map, hkeep]
  cases hfind : g.productions.find? fun p => decide (p.head = x) with
  | none =>
    have hne : x ≠ name := by
      rintro rfl
      obtain ⟨p, hp, rfl⟩ := List.mem_map.mp h
      exact List.find?_eq_none.mp hfind p hp (decide_eq_true rfl)
    simp [hne]
  | some p =>
    have hp : p.head = x := by simpa using List.find?_some hfind
    simp only [Option.map_some, hp]
    split <;> rfl

/-- The grammar with one more variable, declared last. -/
def declare (g : Grammar) (p : Production) : Grammar :=
  { g with productions := g.productions ++ [p] }

@[simp] theorem variableNames_declare (g : Grammar) (p : Production) :
    (g.declare p).variableNames = g.variableNames ++ [p.head] := by
  simp [variableNames, declare]

theorem bodiesOf_declare {g : Grammar} {p : Production} (h : p.head ∉ g.variableNames)
    (x : String) :
    (g.declare p).bodiesOf x = if x = p.head then p.bodies else g.bodiesOf x := by
  simp only [bodiesOf, declare, List.find?_append]
  by_cases hx : x = p.head
  · subst hx
    have hnone : (g.productions.find? fun q => decide (q.head = p.head)) = none := by
      rw [List.find?_eq_none]
      intro q hq hqp
      exact h (decide_eq_true_eq.mp hqp ▸ List.mem_map_of_mem hq)
    simp [hnone]
  · have hne : p.head ≠ x := fun e => hx e.symm
    simp [hne, hx]

end Grammar

end FormalLang
