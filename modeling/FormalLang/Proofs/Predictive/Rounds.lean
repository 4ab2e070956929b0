import FormalLang.Predictive.Parser
import FormalLang.Proofs.Ordered.Growth

/-!
# The rounds of a parse suffice

A run is cut off after `ParseTable.rounds`.  If it comes to an end at all, it does so before that
(`verdict_rounds`), so that the bound never changes the verdict of a parse.

**One phase.**  Between two matched terminals the next terminal is fixed, and a table replaces each
variable in one way only.  Work off a goal: it vanishes, or a terminal or a variable without a cell
comes to the top, or a variable comes up again that is being worked off (`Outcome`).  In the last
case the machine repeats itself for ever.  Otherwise the variables on a path of replacements are
different from each other, which bounds the replacements by `(b + 1) ^ v` for each goal and what
they put on the stack by `v * b`.

**All phases.**  `budget` adds the phases up, one for each terminal of the input.
-/

namespace FormalLang.ParseTable

variable {t : ParseTable}

/-! ## 1. Steps -/

/-- The next configuration, if the parser goes on. -/
def next? (t : ParseTable) (c : Configuration) : Option Configuration :=
  match c.stack with
  | [] => none
  | goal :: rest =>
    match t.choose goal c.input with
    | .error _ => none
    | .ok action => some (perform rest c.input action)

section Choice

variable {goal : Goal} {rest : List Goal} {input : List Terminal} {e : ParseError}
  {action : Action}

theorem next?_of_error (h : t.choose goal input = .error e) :
    t.next? ⟨goal :: rest, input⟩ = none := by
  rw [next?]
  dsimp only
  rw [h]

theorem next?_of_ok (h : t.choose goal input = .ok action) :
    t.next? ⟨goal :: rest, input⟩ = some (perform rest input action) := by
  rw [next?]
  dsimp only
  rw [h]

theorem runFrom_of_error (h : t.choose goal input = .error e) (n : Nat) :
    t.runFrom (n + 1) ⟨goal :: rest, input⟩ =
      ⟨[⟨⟨goal :: rest, input⟩, .failed e⟩], .rejected e⟩ := by
  rw [runFrom]
  dsimp only
  rw [h]

theorem runFrom_of_ok (h : t.choose goal input = .ok action) (n : Nat) :
    t.runFrom (n + 1) ⟨goal :: rest, input⟩ =
      ⟨⟨⟨goal :: rest, input⟩, action⟩ :: (t.runFrom n (perform rest input action)).trace,
        (t.runFrom n (perform rest input action)).verdict⟩ := by
  rw [runFrom]
  dsimp only
  rw [h]

end Choice

/-- Without input no run goes on. -/
theorem next?_nil (stack : List Goal) : t.next? ⟨stack, []⟩ = none := by
  rcases stack with _ | ⟨_ | _, _⟩
  · rfl
  · rfl
  · rfl

/-- Whether some number of steps leads from one configuration to another. -/
inductive Reaches (t : ParseTable) : Nat → Configuration → Configuration → Prop where
  | refl (c : Configuration) : Reaches t 0 c c
  | step {n : Nat} {c next last : Configuration} (first : t.next? c = some next)
      (rest : Reaches t n next last) : Reaches t (n + 1) c last

theorem Reaches.trans {m n : Nat} {c d e : Configuration} (h : t.Reaches m c d)
    (h' : t.Reaches n d e) : t.Reaches (m + n) c e := by
  induction h with
  | refl c =>
    rw [Nat.zero_add]
    exact h'
  | step first _ ih =>
    rw [Nat.succ_add]
    exact .step first (ih h')

theorem runFrom_of_next? {c next : Configuration} (h : t.next? c = some next) (n : Nat) :
    (t.runFrom (n + 1) c).verdict = (t.runFrom n next).verdict := by
  obtain ⟨stack, input⟩ := c
  rcases stack with _ | ⟨goal, rest⟩
  · contradiction
  · rcases hchoose : t.choose goal input with e | action
    · rw [next?_of_error hchoose] at h
      contradiction
    · rw [next?_of_ok hchoose] at h
      obtain rfl := Option.some.inj h
      rw [runFrom_of_ok hchoose]

/-- A parser that does not go on has a verdict after one round. -/
theorem runFrom_of_next?_eq_none {c : Configuration} (h : t.next? c = none) (m n : Nat) :
    t.runFrom (m + 1) c = t.runFrom (n + 1) c ∧ (t.runFrom (m + 1) c).verdict ≠ .unfinished := by
  obtain ⟨stack, input⟩ := c
  rcases stack with _ | ⟨goal, rest⟩
  · refine ⟨rfl, ?_⟩
    rw [runFrom]
    dsimp only
    split
    · nofun
    · nofun
  · rcases hchoose : t.choose goal input with e | action
    · rw [runFrom_of_error hchoose, runFrom_of_error hchoose]
      exact ⟨rfl, nofun⟩
    · rw [next?_of_ok hchoose] at h
      contradiction

theorem Reaches.verdict {m : Nat} {c d : Configuration} (h : t.Reaches m c d) (n : Nat) :
    (t.runFrom (m + n) c).verdict = (t.runFrom n d).verdict := by
  induction h with
  | refl c => rw [Nat.zero_add]
  | step first _ ih =>
    rw [Nat.succ_add, runFrom_of_next? first]
    exact ih

/-- Fewer rounds than steps are not enough. -/
theorem Reaches.unfinished {m : Nat} {c d : Configuration} (h : t.Reaches m c d) :
    ∀ n ≤ m, (t.runFrom n c).verdict = .unfinished := by
  induction h with
  | refl c =>
    intro n hn
    obtain rfl := Nat.le_zero.mp hn
    rfl
  | step first _ ih =>
    intro n hn
    rcases n with _ | n
    · rfl
    · rw [runFrom_of_next? first]
      exact ih n (Nat.le_of_succ_le_succ hn)

/-- **More rounds do not change a verdict.** -/
theorem verdict_mono : ∀ {m n : Nat} {c : Configuration}, m ≤ n →
    (t.runFrom m c).verdict ≠ .unfinished → (t.runFrom n c).verdict = (t.runFrom m c).verdict
  | 0, _, _, _, h => absurd rfl h
  | m + 1, n, c, hn, h => by
    obtain ⟨n, rfl⟩ : ∃ k, n = k + 1 := ⟨n - 1, by omega⟩
    cases hnext : t.next? c with
    | none => rw [(runFrom_of_next?_eq_none hnext n m).1]
    | some next =>
      rw [runFrom_of_next? hnext] at h ⊢
      rw [runFrom_of_next? hnext]
      exact verdict_mono (Nat.le_of_succ_le_succ hn) h

/-! ## 2. Working off goals -/

/-- Whether some number of replacements turns the top of the stack into something else, whatever is
below it and behind the next terminal. -/
def Rewrites (t : ParseTable) (a : Terminal) (m : Nat) (form form' : List Goal) : Prop :=
  ∀ rest input, t.Reaches m ⟨form ++ rest, a :: input⟩ ⟨form' ++ rest, a :: input⟩

variable {a : Terminal}

theorem Rewrites.refl (form : List Goal) : t.Rewrites a 0 form form := fun _ _ => .refl _

theorem Rewrites.trans {m n : Nat} {f f' f'' : List Goal} (h : t.Rewrites a m f f')
    (h' : t.Rewrites a n f' f'') : t.Rewrites a (m + n) f f'' :=
  fun rest input => (h rest input).trans (h' rest input)

theorem Rewrites.append {m : Nat} {f f' : List Goal} (h : t.Rewrites a m f f')
    (back : List Goal) : t.Rewrites a m (f ++ back) (f' ++ back) := by
  intro rest input
  rw [List.append_assoc, List.append_assoc]
  exact h (back ++ rest) input

theorem Rewrites.of_cell {name : String} {cell : Cell} (h : t.get? name a = some cell) :
    t.Rewrites a 1 [.variable name] cell.body.goals := by
  intro rest input
  refine .step ?_ (.refl _)
  rw [next?]
  simp only [List.cons_append, List.nil_append, choose, h]
  rfl

/-- What is worked off may be the whole stack. -/
theorem Rewrites.reaches {m : Nat} {f f' : List Goal} (h : t.Rewrites a m f f')
    (input : List Terminal) : t.Reaches m ⟨f, a :: input⟩ ⟨f', a :: input⟩ := by
  have hreaches := h [] input
  rw [List.append_nil, List.append_nil] at hreaches
  exact hreaches

/-- Whether no replacement is possible: nothing is left, or a terminal or a variable without a cell
is on top. -/
def Stuck (t : ParseTable) (a : Terminal) : List Goal → Prop
  | [] => False
  | .terminal _ :: _ => True
  | .variable name :: _ => t.get? name a = none

theorem Stuck.append {left : List Goal} (stuck : t.Stuck a left) (back : List Goal) :
    t.Stuck a (left ++ back) := by
  rcases left with _ | ⟨_ | _, _⟩
  · exact stuck.elim
  · trivial
  · exact stuck

/-- A stack without replacements ends the run, or the next terminal is matched. -/
theorem next?_of_stuck : ∀ {left : List Goal}, t.Stuck a left → ∀ input : List Terminal,
    t.next? ⟨left, a :: input⟩ = none ∨
      ∃ rest, left = .terminal a :: rest ∧ t.next? ⟨left, a :: input⟩ = some ⟨rest, input⟩
  | [], stuck, _ => stuck.elim
  | .terminal e :: rest, _, input => by
    by_cases he : e = a
    · subst he
      refine .inr ⟨rest, rfl, ?_⟩
      simp only [next?, choose]
      rfl
    · left
      simp only [next?, choose, if_neg he]
  | .variable name :: rest, stuck, input => by
    have hnone : t.get? name a = none := stuck
    left
    simp only [next?, choose, hnone]

/-- How the work on some goals ends, given the variables that are being worked off. -/
inductive Outcome (t : ParseTable) (a : Terminal) (working : List String) (cost size : Nat)
    (form : List Goal) : Prop where
  | vanishes (m : Nat) (hm : m ≤ cost) (h : t.Rewrites a m form [])
  | stops (m : Nat) (hm : m ≤ cost) (left : List Goal) (hleft : left.length ≤ size)
      (h : t.Rewrites a m form left) (stuck : t.Stuck a left)
  | repeats (m : Nat) (name : String) (left : List Goal) (hname : name ∈ working)
      (h : t.Rewrites a m form (.variable name :: left))
  | loops (m k : Nat) (name : String) (left left' : List Goal)
      (h : t.Rewrites a m form (.variable name :: left))
      (again : t.Rewrites a (k + 1) [.variable name] (.variable name :: left'))

variable {working : List String} {cost size : Nat}

/-- Work begins with the replacements that are made. -/
theorem Outcome.of_rewrites {m cost' : Nat} {form form' : List Goal}
    (h : t.Rewrites a m form form') (outcome : Outcome t a working cost size form')
    (hcost : m + cost ≤ cost') : Outcome t a working cost' size form := by
  cases outcome with
  | vanishes k hk h' => exact .vanishes (m + k) (by omega) (h.trans h')
  | stops k hk left hleft h' stuck => exact .stops (m + k) (by omega) left hleft (h.trans h') stuck
  | repeats k name left hname h' => exact .repeats (m + k) name left hname (h.trans h')
  | loops k j name left left' h' again => exact .loops (m + k) j name left left' (h.trans h') again

theorem Outcome.append {form : List Goal} (back : List Goal)
    (outcome : Outcome t a working cost size form) {cost' : Nat}
    (hback : Outcome t a working cost' (size + back.length) back) :
    Outcome t a working (cost + cost') (size + back.length) (form ++ back) := by
  cases outcome with
  | vanishes k hk h =>
    have happend := h.append back
    rw [List.nil_append] at happend
    exact hback.of_rewrites happend (by omega)
  | stops k hk left hleft h stuck =>
    exact .stops k (by omega) (left ++ back) (by simp; omega) (h.append back) (stuck.append back)
  | repeats k name left hname h => exact .repeats k name (left ++ back) hname (h.append back)
  | loops k j name left left' h again =>
    exact .loops k j name (left ++ back) left' (h.append back) again

theorem Outcome.mono {cost' size' : Nat} {form : List Goal}
    (outcome : Outcome t a working cost size form) (hcost : cost ≤ cost') (hsize : size ≤ size') :
    Outcome t a working cost' size' form := by
  cases outcome with
  | vanishes k hk h => exact .vanishes k (by omega) h
  | stops k hk left hleft h stuck => exact .stops k (by omega) left (by omega) h stuck
  | repeats k name left hname h => exact .repeats k name left hname h
  | loops k j name left left' h again => exact .loops k j name left left' h again

/-- If every goal can be worked off at some cost, so can several goals. -/
theorem outcome_of_goals : ∀ {form : List Goal},
    (∀ goal ∈ form, Outcome t a working cost (size + 1) [goal]) →
      Outcome t a working (form.length * cost) (size + form.length) form
  | [], _ => .vanishes 0 (Nat.zero_le _) (.refl _)
  | goal :: form, h => by
    have hgoal := h goal List.mem_cons_self
    have hform : Outcome t a working (form.length * cost) (size + 1 + form.length) form :=
      (outcome_of_goals fun g hg => h g (List.mem_cons_of_mem _ hg)).mono (Nat.le_refl _) (by omega)
    have happend := hgoal.append form hform
    rw [List.singleton_append] at happend
    refine happend.mono ?_ ?_
    · rw [List.length_cons, Nat.succ_mul]
      omega
    · rw [List.length_cons]
      omega

/-- A variable is worked off like its body, unless it comes up again. -/
theorem Outcome.of_cell {name : String} {cell : Cell} (hcell : t.get? name a = some cell)
    (outcome : Outcome t a (name :: working) cost size cell.body.goals) :
    Outcome t a working (cost + 1) size [.variable name] := by
  have hfirst : t.Rewrites a 1 [.variable name] cell.body.goals := .of_cell hcell
  cases outcome with
  | vanishes m hm h => exact .vanishes (1 + m) (by omega) (hfirst.trans h)
  | stops m hm left hleft h stuck =>
    exact .stops (1 + m) (by omega) left hleft (hfirst.trans h) stuck
  | repeats m other left hother h =>
    rcases List.mem_cons.mp hother with rfl | hother
    · have hagain := hfirst.trans h
      rw [Nat.add_comm] at hagain
      exact .loops 0 m other [] left (.refl _) hagain
    · exact .repeats (1 + m) other left hother (hfirst.trans h)
  | loops m k other left left' h again =>
    exact .loops (1 + m) k other left left' (hfirst.trans h) again

theorem length_goals_le (body : Body) : body.goals.length ≤ body.length :=
  List.length_filterMap_le _ _

/-- A goal without a cell stays where it is, and a variable that is being worked off is a repetition
at once. -/
theorem outcome_of_familiar {goal : Goal}
    (h : ∀ name cell, goal = .variable name → t.get? name a = some cell → name ∈ working) :
    Outcome t a working cost (size + 1) [goal] := by
  rcases goal with e | name
  · exact .stops 0 (Nat.zero_le _) [.terminal e] (by simp) (.refl _) trivial
  · cases hcell : t.get? name a with
    | none => exact .stops 0 (Nat.zero_le _) [.variable name] (by simp) (.refl _) hcell
    | some cell => exact .repeats 0 name [] (h name cell rfl hcell) (.refl _)

/-- **Every goal can be worked off.**  The list holds the variables with cells that are not being
worked off yet. -/
theorem outcome_of_goal {b : Nat}
    (hlength : ∀ name cell, t.get? name a = some cell → cell.body.length ≤ b) :
    ∀ (k : Nat) {names working : List String}, names.length = k →
      (∀ name cell, t.get? name a = some cell → name ∈ names ∨ name ∈ working) →
      ∀ goal, Outcome t a working ((b + 1) ^ k) (k * b + 1) [goal] := by
  intro k
  induction k with
  | zero =>
    intro names working hnames hcells goal
    obtain rfl := List.eq_nil_of_length_eq_zero hnames
    exact outcome_of_familiar fun name cell _ hcell =>
      (hcells name cell hcell).resolve_left List.not_mem_nil
  | succ k ih =>
    intro names working hnames hcells goal
    by_cases hnew : ∃ name cell, goal = .variable name ∧ t.get? name a = some cell ∧ name ∈ names
    · obtain ⟨name, cell, rfl, hcell, hname⟩ := hnew
      have hrest : (names.erase name).length = k := by
        rw [List.length_erase_of_mem hname]
        omega
      have hcells' : ∀ other cell, t.get? other a = some cell →
          other ∈ names.erase name ∨ other ∈ name :: working := by
        intro other cell hother
        by_cases heq : other = name
        · exact .inr (heq ▸ List.mem_cons_self)
        · rcases hcells other cell hother with hmem | hmem
          · exact .inl ((List.mem_erase_of_ne heq).mpr hmem)
          · exact .inr (List.mem_cons_of_mem _ hmem)
      have hbody : Outcome t a (name :: working) _ _ cell.body.goals :=
        outcome_of_goals fun goal _ => ih hrest hcells' goal
      have hshort : cell.body.goals.length ≤ b :=
        Nat.le_trans (length_goals_le _) (hlength name cell hcell)
      refine (Outcome.of_cell hcell hbody).mono ?_ ?_
      · have hcost := Nat.mul_le_mul_right ((b + 1) ^ k) hshort
        have hone : 1 ≤ (b + 1) ^ k := Nat.one_le_pow _ _ (Nat.succ_pos b)
        rw [Nat.pow_succ, Nat.mul_comm _ (b + 1), Nat.succ_mul]
        omega
      · rw [Nat.succ_mul]
        omega
    · exact outcome_of_familiar fun name cell hgoal hcell =>
        (hcells name cell hcell).resolve_left fun hname => hnew ⟨name, cell, hgoal, hcell, hname⟩

/-! ## 3. All phases -/

/-- A number of rounds that suffices for an input of some length and a stack of some height. -/
def budget (cost gain : Nat) : Nat → Nat → Nat
  | 0, _ => 1
  | length + 1, height => height * cost + 1 + budget cost gain length (height + gain)

theorem budget_mono {cost gain : Nat} : ∀ (length : Nat) {height height' : Nat},
    height ≤ height' → budget cost gain length height ≤ budget cost gain length height'
  | 0, _, _, _ => Nat.le_refl _
  | length + 1, height, height', h => by
    have hlater := @budget_mono cost gain length (height + gain) (height' + gain) (by omega)
    have hnow := Nat.mul_le_mul_right cost h
    rw [budget, budget]
    omega

theorem budget_le {cost gain : Nat} : ∀ length height : Nat, budget cost gain length height ≤
    length * ((height + length * gain) * cost) + length + 1
  | 0, _ => by simp [budget]
  | length + 1, height => by
    have hlater := @budget_le cost gain length (height + gain)
    have hsame : height + gain + length * gain = height + (length + 1) * gain := by
      rw [Nat.succ_mul]
      omega
    have hnow : height * cost ≤ (height + (length + 1) * gain) * cost :=
      Nat.mul_le_mul_right cost (Nat.le_add_right _ _)
    rw [hsame] at hlater
    rw [budget, Nat.succ_mul]
    omega

/-- A machine that repeats itself does so as often as one likes. -/
theorem exists_rewrites_of_again {k : Nat} {name : String} {left : List Goal}
    (again : t.Rewrites a (k + 1) [.variable name] (.variable name :: left)) :
    ∀ n, ∃ m ≥ n, ∃ left', t.Rewrites a m [.variable name] (.variable name :: left')
  | 0 => ⟨0, Nat.le_refl _, [], .refl _⟩
  | n + 1 => by
    obtain ⟨m, hm, left', h⟩ := exists_rewrites_of_again again n
    have hnext := again.append left'
    exact ⟨m + (k + 1), by omega, left ++ left', h.trans hnext⟩

theorem name_mem_heads {name : String} {cell : Cell} (h : t.get? name a = some cell) :
    name ∈ t.heads := by
  refine OrderedSet.mem_ofList.mpr (List.mem_map.mpr ⟨(name, a), ?_, rfl⟩)
  rw [OrderedMap.mem_keys, OrderedMap.contains]
  rw [get?] at h
  rw [h]
  rfl

theorem le_foldl_max {n : Nat} : ∀ {l : List Nat} {m : Nat}, n ≤ m ∨ n ∈ l → n ≤ l.foldl max m
  | [], m, h => h.resolve_right List.not_mem_nil
  | k :: l, m, h => by
    rw [List.foldl_cons]
    refine le_foldl_max ?_
    rcases h with h | h
    · exact .inl (by omega)
    · rcases List.mem_cons.mp h with rfl | h
      · exact .inl (Nat.le_max_right _ _)
      · exact .inr h

theorem length_le_longest {name : String} {cell : Cell} (h : t.get? name a = some cell) :
    cell.body.length ≤ t.longest := by
  refine le_foldl_max (.inr (List.mem_map.mpr ⟨cell, ?_, rfl⟩))
  exact List.mem_map.mpr ⟨((name, a), cell), OrderedMap.mem_toList.mpr h, rfl⟩

/-- The replacements that a goal can cost between two matched terminals. -/
def goalCost (t : ParseTable) : Nat := (t.longest + 1) ^ t.heads.size

/-- How much a phase can put on the stack. -/
def gain (t : ParseTable) : Nat := t.heads.size * t.longest

/-- **A stack is worked off** within a cost that its height determines. -/
theorem outcome_of_stack (a : Terminal) (stack : List Goal) :
    Outcome t a [] (stack.length * t.goalCost) (t.gain + stack.length) stack := by
  refine outcome_of_goals fun goal _ => ?_
  refine outcome_of_goal (fun name cell h => length_le_longest h) t.heads.size rfl ?_ goal
  exact fun name cell h => .inl (name_mem_heads h)

/-- What is reached by a run with a verdict has a verdict. -/
theorem Reaches.exists_finished {m n : Nat} {c d : Configuration} (h : t.Reaches m c d)
    (hn : (t.runFrom n c).verdict ≠ .unfinished) :
    ∃ k, (t.runFrom k d).verdict ≠ .unfinished := by
  have hlt : m ≤ n := by
    by_contra hlt
    exact hn (h.unfinished n (by omega))
  obtain ⟨k, rfl⟩ := Nat.exists_eq_add_of_le hlt
  exact ⟨k, h.verdict k ▸ hn⟩

theorem Reaches.finished {m n k : Nat} {c d : Configuration} (h : t.Reaches m c d)
    (hd : (t.runFrom k d).verdict ≠ .unfinished) (hn : m + k ≤ n) :
    (t.runFrom n c).verdict ≠ .unfinished := by
  rw [← h.verdict k] at hd
  rw [verdict_mono hn hd]
  exact hd

/-- **A run that comes to an end does so within its budget.** -/
theorem finished_budget : ∀ {input : List Terminal} {stack : List Goal} {n : Nat},
    (t.runFrom n ⟨stack, input⟩).verdict ≠ .unfinished →
      (t.runFrom (budget t.goalCost t.gain input.length stack.length) ⟨stack, input⟩).verdict ≠
        .unfinished
  | [], stack, _, _ => (runFrom_of_next?_eq_none (next?_nil stack) 0 0).2
  | a :: input, stack, n, hn => by
    rw [List.length_cons, budget]
    cases outcome_of_stack (t := t) a stack with
    | vanishes m hm h =>
      exact (h.reaches input).finished (runFrom_of_next?_eq_none rfl 0 0).2 (by omega)
    | repeats _ _ _ hname _ => exact absurd hname List.not_mem_nil
    | loops m k name left left' h again =>
      obtain ⟨j, hj, front, hfront⟩ := exists_rewrites_of_again again n
      have hlong := (h.trans (hfront.append left)).reaches input
      exact absurd (hlong.unfinished n (by omega)) hn
    | stops m hm left hleft h stuck =>
      rcases next?_of_stuck stuck input with hstop | ⟨rest, rfl, hnext⟩
      · exact (h.reaches input).finished (runFrom_of_next?_eq_none hstop 0 0).2 (by omega)
      · have hmatched := (h.reaches input).trans (.step hnext (.refl _))
        obtain ⟨k, hk⟩ := hmatched.exists_finished hn
        refine hmatched.finished (finished_budget hk) ?_
        have hheight : rest.length ≤ stack.length + t.gain := by
          rw [List.length_cons] at hleft
          omega
        have hlater := @budget_mono t.goalCost t.gain input.length _ _ hheight
        omega

/-- **The rounds of a parse suffice**: a run that has a verdict after some number of rounds has it
after these. -/
theorem verdict_rounds {start : Goal} {last : Goal} {input : List Terminal} {n : Nat}
    (hn : (t.runFrom n ⟨[start, last], input⟩).verdict ≠ .unfinished) :
    (t.runFrom (t.rounds input.length) ⟨[start, last], input⟩).verdict =
      (t.runFrom n ⟨[start, last], input⟩).verdict := by
  have hbudget : budget t.goalCost t.gain input.length 2 ≤ t.rounds input.length := by
    have hle := @budget_le t.goalCost t.gain input.length 2
    have hpow : Nat.pow (t.longest + 1) t.heads.size = t.goalCost := rfl
    rw [gain, Nat.add_comm 2] at hle
    rw [rounds, gain, hpow, Nat.mul_assoc, Nat.succ_mul]
    omega
  have hfinished := finished_budget hn
  rcases Nat.le_total n (t.rounds input.length) with hle | hle
  · exact verdict_mono hle hn
  · rw [verdict_mono hbudget hfinished]
    exact (verdict_mono (Nat.le_trans hbudget hle) hfinished).symm

end FormalLang.ParseTable
