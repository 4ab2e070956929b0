import FormalLang.Proofs.Grammar.WellFormed

/-!
# What the removal of left recursion does to a grammar

A step of the removal replaces the leading occurrences of one variable in the bodies of another, or
removes the direct recursion of one variable.  Here is what the steps can do, and how what they keep
is kept by the whole.

* A body after a step is one from before it, or was made from one or two of these in the way that
  `mem_bodiesOf_substitute` and `mem_bodiesOf_removeDirect` say.  Whatever is true of the bodies of
  every variable is proved from these two.
* A new variable is declared last.  It keeps the heads apart only because `freshVariable` really
  finds an unused name (`freshVariable_not_mem`), for which the suffix must not be empty.
* What each step keeps, the removal keeps (`visitAll_induction`), and what a visit takes from one
  stage to the next, it takes to the end (`visitAll_stages`).  The first thing that is kept is that
  the grammar is in order (`WellFormed.removeLeftRecursion`).
-/

namespace FormalLang

/-- **What a step of a fold passes on** from the elements before its own to those up to it, holds
after the fold. -/
theorem foldl_stages {α β : Type} {f : β → α → β} {l : List α} {b : β} {P : List α → β → Prop}
    (onStep : ∀ (taken : List α) (x : α) (later : List α) (b : β), l = taken ++ x :: later →
      P taken b → P (taken ++ [x]) (f b x)) (start : P [] b) : P l (l.foldl f b) := by
  have hlater : ∀ (later taken : List α) (b : β), l = taken ++ later → P taken b →
      P l (later.foldl f b) := by
    intro later
    induction later with
    | nil =>
      intro taken b hl h
      rw [hl, List.append_nil]
      exact h
    | cons x later ih =>
      intro taken b hl h
      refine ih (taken ++ [x]) _ ?_ (onStep taken x later b hl h)
      rw [hl, List.append_assoc]
      rfl
  exact hlater l [] b rfl start

/-! ## 1. Fresh names -/

namespace Grammar

/-- Every appended suffix leaves a shorter name behind for good, so that as many attempts as there
are long enough names suffice. -/
theorem avoid_not_mem {used : List String} {suffix : String} (hsuffix : suffix ≠ "") :
    ∀ (n : Nat) (name : String),
      (used.filter fun u => decide (name.length ≤ u.length)).length ≤ n →
        avoid used suffix n name ∉ used
  | 0, name, h => by
    intro hmem
    have : name ∈ used.filter fun u => decide (name.length ≤ u.length) :=
      List.mem_filter.mpr ⟨hmem, by simp⟩
    rw [List.length_eq_zero_iff.mp (Nat.le_zero.mp h)] at this
    exact List.not_mem_nil this
  | n + 1, name, h => by
    rw [avoid]
    split
    · rename_i hmem
      refine avoid_not_mem hsuffix n (name ++ suffix) ?_
      have hpos : 0 < suffix.length :=
        Nat.pos_of_ne_zero fun h0 => hsuffix (String.length_eq_zero_iff.mp h0)
      have hsub : (used.filter fun u => decide ((name ++ suffix).length ≤ u.length)) =
          (used.filter fun u => decide (name.length ≤ u.length)).filter
            fun u => decide ((name ++ suffix).length ≤ u.length) := by
        rw [List.filter_filter]
        refine List.filter_congr fun u _ => ?_
        rw [String.length_append, Bool.eq_iff_iff]
        simp only [decide_eq_true_eq, Bool.and_eq_true]
        omega
      have hlt : ((used.filter fun u => decide (name.length ≤ u.length)).filter
          fun u => decide ((name ++ suffix).length ≤ u.length)).length <
            (used.filter fun u => decide (name.length ≤ u.length)).length := by
        rw [List.length_filter_lt_length_iff_exists]
        refine ⟨name, List.mem_filter.mpr ⟨hmem, by simp⟩, ?_⟩
        rw [String.length_append]
        simp only [decide_eq_true_eq, Nat.not_le]
        omega
      rw [hsub]
      omega
    · assumption

/-- **A fresh name is not used.** -/
theorem freshVariable_not_mem {suffix : String} (hsuffix : suffix ≠ "") (g : Grammar)
    (name : String) : g.freshVariable name suffix ∉ g.usedNames :=
  avoid_not_mem hsuffix _ _ (List.length_filter_le _ _)

theorem freshVariable_not_mem_variableNames {suffix : String} (hsuffix : suffix ≠ "") (g : Grammar)
    (name : String) : g.freshVariable name suffix ∉ g.variableNames :=
  fun h => freshVariable_not_mem hsuffix g name (List.mem_append_left _ h)

/-! ## 2. What a step can do -/

/-- The bodies of a variable that do not begin with it. -/
def foundedBodies (g : Grammar) (head : String) : List Body :=
  (g.bodiesOf head).filter fun body => !body.beginsWith head

/-- What stands behind a variable in the bodies of its own that begin with it. -/
def recursiveTails (g : Grammar) (head : String) : List Body :=
  (((g.bodiesOf head).filter (Body.beginsWith head)).map List.tail).filter fun tail =>
    !tail.isEmpty

theorem mem_foundedBodies {g : Grammar} {head : String} {body : Body} :
    body ∈ g.foundedBodies head ↔
      body ∈ g.bodiesOf head ∧ ∀ tail, body ≠ .variable head :: tail := by
  rw [foundedBodies, List.mem_filter, Bool.not_eq_true', ← Bool.not_eq_true, Body.beginsWith_iff,
    not_exists]

theorem mem_recursiveTails {g : Grammar} {head : String} {tail : Body} :
    tail ∈ g.recursiveTails head ↔ tail ≠ [] ∧ (.variable head :: tail) ∈ g.bodiesOf head := by
  simp only [recursiveTails, List.mem_filter, List.mem_map, Bool.not_eq_true',
    List.isEmpty_eq_false_iff]
  constructor
  · rintro ⟨⟨body, ⟨hbody, hbegins⟩, rfl⟩, hne⟩
    obtain ⟨tail, rfl⟩ := Body.beginsWith_iff.mp hbegins
    exact ⟨hne, hbody⟩
  · rintro ⟨hne, hbody⟩
    exact ⟨⟨_, ⟨hbody, Body.beginsWith_iff.mpr ⟨tail, rfl⟩⟩, rfl⟩, hne⟩

/-- The grammar in which the leading occurrences of a variable in the bodies of another are
replaced. -/
def substituteLeading (g : Grammar) (earlier head : String) : Grammar :=
  g.setBodies head ((g.bodiesOf head).flatMap (Body.substitute earlier (g.bodiesOf earlier)))

/-- The grammar in which a fresh variable takes over the recursion of another. -/
def splitRecursion (g : Grammar) (head fresh : String) : Grammar :=
  (g.setBodies head ((g.foundedBodies head).map fun body =>
      Body.append body [.variable fresh])).declare
    ⟨fresh, ((g.recursiveTails head).map fun tail => Body.append tail [.variable fresh]) ++
      [[.epsilon]]⟩

theorem bodiesOf_splitRecursion {g : Grammar} {head fresh : String}
    (hhead : head ∈ g.variableNames) (hfresh : fresh ∉ g.variableNames) (name : String) :
    (g.splitRecursion head fresh).bodiesOf name =
      if name = fresh then
        ((g.recursiveTails head).map fun tail => Body.append tail [.variable fresh]) ++ [[.epsilon]]
      else if name = head then
        (g.foundedBodies head).map fun body => Body.append body [.variable fresh]
      else g.bodiesOf name := by
  rw [splitRecursion, bodiesOf_declare (by simpa using hfresh), bodiesOf_setBodies hhead]

namespace Removal

/-- Replacing leading occurrences changes the bodies of a declared variable, or there are none. -/
theorem substitute_cases (r : Removal) (earlier head : String) :
    (∀ body ∈ r.grammar.bodiesOf head, ∀ tail, body ≠ .variable earlier :: tail) ∧
        (r.substitute head earlier).grammar = r.grammar ∨
      head ∈ r.grammar.variableNames ∧
        (r.substitute head earlier).grammar = r.grammar.substituteLeading earlier head := by
  simp only [substitute]
  split
  · rename_i hany
    obtain ⟨body, hbody, -⟩ := List.any_eq_true.mp hany
    exact .inr ⟨mem_variableNames_of_mem_bodiesOf hbody, rfl⟩
  · rename_i hnone
    refine .inl ⟨fun body hbody tail heq => hnone ?_, rfl⟩
    exact List.any_eq_true.mpr ⟨body, hbody, Body.beginsWith_iff.mpr ⟨tail, heq⟩⟩

/-- **What becomes of the recursion of a variable.**  Nothing, if there is none; its bodies that are
just itself are dropped, if there are no others; and a fresh variable takes over what is left. -/
theorem removeDirect_cases (r : Removal) (suffix head : String) :
    (∀ body ∈ r.grammar.bodiesOf head, ∀ tail, body ≠ .variable head :: tail) ∧
        (r.removeDirect suffix head).grammar = r.grammar ∨
      head ∈ r.grammar.variableNames ∧
        (r.grammar.recursiveTails head = [] ∧ (r.removeDirect suffix head).grammar =
            r.grammar.setBodies head (r.grammar.foundedBodies head) ∨
          (r.removeDirect suffix head).grammar =
            r.grammar.splitRecursion head (r.grammar.freshVariable head suffix)) := by
  simp only [removeDirect]
  split
  · rename_i hnone
    rw [List.isEmpty_iff, List.filter_eq_nil_iff] at hnone
    refine .inl ⟨fun body hbody tail heq => hnone body hbody ?_, rfl⟩
    exact Body.beginsWith_iff.mpr ⟨tail, heq⟩
  · rename_i hrecursive
    rw [List.isEmpty_iff] at hrecursive
    obtain ⟨body, hbody⟩ := List.exists_mem_of_ne_nil _ hrecursive
    have hhead := mem_variableNames_of_mem_bodiesOf (List.mem_filter.mp hbody).1
    split
    · rename_i htails
      exact .inr ⟨hhead, .inl ⟨List.isEmpty_iff.mp htails, rfl⟩⟩
    · exact .inr ⟨hhead, .inr rfl⟩

theorem start_substitute (r : Removal) (earlier head : String) :
    (r.substitute head earlier).grammar.start = r.grammar.start := by
  rcases r.substitute_cases earlier head with ⟨-, heq⟩ | ⟨-, heq⟩
  · rw [heq]
  · rw [heq]
    rfl

theorem start_removeDirect (r : Removal) (suffix head : String) :
    (r.removeDirect suffix head).grammar.start = r.grammar.start := by
  rcases r.removeDirect_cases suffix head with ⟨-, heq⟩ | ⟨-, ⟨-, heq⟩ | heq⟩
  · rw [heq]
  · rw [heq]
    rfl
  · rw [heq]
    rfl

theorem variableNames_substitute (r : Removal) (earlier head : String) :
    (r.substitute head earlier).grammar.variableNames = r.grammar.variableNames := by
  rcases r.substitute_cases earlier head with ⟨-, heq⟩ | ⟨-, heq⟩
  · rw [heq]
  · rw [heq, substituteLeading, variableNames_setBodies]

/-- Removing direct recursion declares one variable at most, behind all others. -/
theorem variableNames_removeDirect (r : Removal) (suffix head : String) :
    (r.removeDirect suffix head).grammar.variableNames = r.grammar.variableNames ∨
      (r.removeDirect suffix head).grammar.variableNames =
        r.grammar.variableNames ++ [r.grammar.freshVariable head suffix] := by
  rcases r.removeDirect_cases suffix head with ⟨-, heq⟩ | ⟨-, ⟨-, heq⟩ | heq⟩
  · exact .inl (by rw [heq])
  · exact .inl (by rw [heq, variableNames_setBodies])
  · exact .inr (by rw [heq, splitRecursion, variableNames_declare, variableNames_setBodies])

theorem mem_variableNames_removeDirect {r : Removal} {suffix head name : String}
    (h : name ∈ (r.removeDirect suffix head).grammar.variableNames) :
    name ∈ r.grammar.variableNames ∨ name = r.grammar.freshVariable head suffix := by
  rcases r.variableNames_removeDirect suffix head with heq | heq
  · exact .inl (heq ▸ h)
  · rw [heq] at h
    exact (List.mem_append.mp h).imp_right List.mem_singleton.mp

/-- **A body after the replacement** was there before and was to be kept, or it was made from one
that began with the earlier variable, by putting a body of that in its place. -/
theorem mem_bodiesOf_substitute {r : Removal} {earlier head name : String} {body : Body}
    (h : body ∈ (r.substitute head earlier).grammar.bodiesOf name) :
    body ∈ r.grammar.bodiesOf name ∧ (name = head → ∀ tail, body ≠ .variable earlier :: tail) ∨
      name = head ∧ ∃ tail, .variable earlier :: tail ∈ r.grammar.bodiesOf head ∧
        ∃ replacement ∈ r.grammar.bodiesOf earlier, body = Body.append replacement tail := by
  rcases r.substitute_cases earlier head with ⟨hnone, heq⟩ | ⟨hhead, heq⟩
  · rw [heq] at h
    exact .inl ⟨h, fun hname => hnone body (hname ▸ h)⟩
  · rw [heq, substituteLeading, bodiesOf_setBodies hhead] at h
    split at h
    · rename_i hname
      subst hname
      obtain ⟨old, hold, hbody⟩ := List.mem_flatMap.mp h
      rw [Body.substitute] at hbody
      split at hbody
      · rename_i hbegins
        obtain ⟨tail, rfl⟩ := Body.beginsWith_iff.mp hbegins
        obtain ⟨replacement, hreplacement, rfl⟩ := List.mem_map.mp hbody
        exact .inr ⟨rfl, tail, hold, replacement, hreplacement, rfl⟩
      · rename_i hkept
        obtain rfl := List.mem_singleton.mp hbody
        exact .inl ⟨hold, fun _ tail heq => hkept (Body.beginsWith_iff.mpr ⟨tail, heq⟩)⟩
    · rename_i hname
      exact .inl ⟨h, fun heq => absurd heq hname⟩

/-- **A body after the recursion of a variable was removed** was there before and was to be kept, or
there is a fresh variable, and the body was made from one of the variable by putting the fresh one
behind it, or is the empty body of the fresh one. -/
theorem mem_bodiesOf_removeDirect {r : Removal} {suffix head name : String} {body : Body}
    (hsuffix : suffix ≠ "") (h : body ∈ (r.removeDirect suffix head).grammar.bodiesOf name) :
    body ∈ r.grammar.bodiesOf name ∧ (name = head → ∀ tail, body ≠ .variable head :: tail) ∨
      (r.removeDirect suffix head).grammar.variableNames =
          r.grammar.variableNames ++ [r.grammar.freshVariable head suffix] ∧
        (name = head ∧ (∃ old ∈ r.grammar.foundedBodies head,
            body = Body.append old [.variable (r.grammar.freshVariable head suffix)]) ∨
          name = r.grammar.freshVariable head suffix ∧ (body = [.epsilon] ∨
            ∃ tail ∈ r.grammar.recursiveTails head,
              body = Body.append tail [.variable (r.grammar.freshVariable head suffix)])) := by
  rcases r.removeDirect_cases suffix head with ⟨hnone, heq⟩ | ⟨hhead, ⟨-, heq⟩ | heq⟩
  · rw [heq] at h
    exact .inl ⟨h, fun hname => hnone body (hname ▸ h)⟩
  · rw [heq, bodiesOf_setBodies hhead] at h
    split at h
    · rename_i hname
      obtain ⟨hbody, hfounded⟩ := mem_foundedBodies.mp h
      exact .inl ⟨hname ▸ hbody, fun _ => hfounded⟩
    · rename_i hname
      exact .inl ⟨h, fun heq => absurd heq hname⟩
  · have hnames : (r.removeDirect suffix head).grammar.variableNames =
        r.grammar.variableNames ++ [r.grammar.freshVariable head suffix] := by
      rw [heq, splitRecursion, variableNames_declare, variableNames_setBodies]
    rw [heq, bodiesOf_splitRecursion hhead (freshVariable_not_mem_variableNames hsuffix _ _)] at h
    split at h
    · rename_i hname
      rcases List.mem_append.mp h with h | h
      · obtain ⟨tail, htail, rfl⟩ := List.mem_map.mp h
        exact .inr ⟨hnames, .inr ⟨hname, .inr ⟨tail, htail, rfl⟩⟩⟩
      · exact .inr ⟨hnames, .inr ⟨hname, .inl (List.mem_singleton.mp h)⟩⟩
    · split at h
      · rename_i hname
        obtain ⟨old, hold, rfl⟩ := List.mem_map.mp h
        exact .inr ⟨hnames, .inl ⟨hname, old, hold, rfl⟩⟩
      · rename_i hname
        exact .inl ⟨h, fun heq => absurd heq hname⟩

/-! ## 3. Events -/

/-- Whether leading occurrences were replaced, and nothing else was done. -/
def OnlySubstitutes (r : Removal) : Prop :=
  ∀ e ∈ r.events, ∃ earlier head, e = .substituted earlier head

theorem events_substitute (r : Removal) (earlier head : String) {e : RecursionEvent}
    (he : e ∈ r.events) : e ∈ (r.substitute head earlier).events := by
  simp only [substitute]
  split
  · exact List.mem_append_left _ he
  · exact he

theorem events_removeDirect (r : Removal) (suffix head : String) {e : RecursionEvent}
    (he : e ∈ r.events) : e ∈ (r.removeDirect suffix head).events := by
  simp only [removeDirect]
  split
  · exact he
  · split
    · exact List.mem_append_left _ he
    · exact List.mem_append_left _ (List.mem_append_left _ (List.mem_append_left _ he))

/-- A variable whose recursion is not left alone leaves an event behind. -/
theorem removeDirect_eq_of_onlySubstitutes {r : Removal} {suffix head : String}
    (h : (r.removeDirect suffix head).OnlySubstitutes) : r.removeDirect suffix head = r := by
  unfold removeDirect at h ⊢
  dsimp only at h ⊢
  split
  · rfl
  · rename_i hrecursive
    rw [if_neg hrecursive] at h
    rw [List.isEmpty_iff] at hrecursive
    obtain ⟨body, hbody⟩ := List.exists_mem_of_ne_nil _ hrecursive
    exfalso
    split at h
    · rename_i htails
      rw [List.isEmpty_iff, List.filter_eq_nil_iff] at htails
      have htail : body.tail.isEmpty = true := by
        simpa using htails body.tail (List.mem_map_of_mem hbody)
      obtain ⟨_, _, heq⟩ := h (.dropped head) (List.mem_append_right _
        (List.mem_map.mpr ⟨body, List.mem_filter.mpr ⟨hbody, htail⟩, rfl⟩))
      contradiction
    · obtain ⟨_, _, heq⟩ := h (.introduced head (r.grammar.freshVariable head suffix))
        (List.mem_append_right _ List.mem_cons_self)
      contradiction

/-! ## 4. The whole removal -/

/-- **What a visit passes on** from the variables before its own to those up to it, holds after
all visits. -/
theorem visitAll_stages {suffix : String} {names : List String} {P : List String → Removal → Prop}
    (onVisit : ∀ (earlier : List String) (head : String) (later : List String) (r : Removal),
      names = earlier ++ head :: later → P earlier r →
        P (earlier ++ [head]) (visit suffix r earlier head)) :
    ∀ (later earlier : List String) (r : Removal), names = earlier ++ later → P earlier r →
      P names (visitAll suffix r earlier later)
  | [], earlier, r, hnames, h => by
    rw [hnames, List.append_nil]
    exact h
  | head :: later, earlier, r, hnames, h =>
    visitAll_stages onVisit later (earlier ++ [head]) _ (by rw [hnames, List.append_assoc]; rfl)
      (onVisit earlier head later r hnames h)

/-- **What every step keeps, the removal of left recursion keeps.**  Each variable is visited after
those declared before it, so an earlier one is never the visited one. -/
theorem visitAll_induction {suffix : String} {P : Removal → Prop}
    (onSubstitute : ∀ (r : Removal) (earlier head : String), earlier ≠ head → P r →
      P (r.substitute head earlier))
    (onRemove : ∀ (r : Removal) (head : String), P r → P (r.removeDirect suffix head))
    (later earlier : List String) (r : Removal) (hnodup : (earlier ++ later).Nodup) (h : P r) :
    P (visitAll suffix r earlier later) := by
  refine visitAll_stages (P := fun _ r => P r) ?_ later earlier r rfl h
  intro before head after r hnames h
  rw [hnames] at hnodup
  have hne : ∀ v ∈ before, v ≠ head := by
    rintro v hv rfl
    exact (List.nodup_append.mp hnodup).2.2 v hv v List.mem_cons_self rfl
  refine onRemove _ head (foldl_stages (P := fun _ r => P r) ?_ h)
  intro taken v rest r hbefore h
  refine onSubstitute r v head (hne v ?_) h
  rw [hbefore]
  exact List.mem_append_right _ List.mem_cons_self

end Removal

/-! ## 5. The removal of left recursion keeps grammars in order -/

theorem WellFormed.substitute {r : Removal} (h : r.grammar.WellFormed) (earlier head : String) :
    (r.substitute head earlier).grammar.WellFormed := by
  rw [wellFormed_iff, Removal.variableNames_substitute, Removal.start_substitute]
  refine ⟨h.nodup, h.start_mem, fun name body hbody => ?_⟩
  rcases Removal.mem_bodiesOf_substitute hbody with
    ⟨hbody, -⟩ | ⟨-, tail, hold, replacement, hreplacement, rfl⟩
  · exact h.rule hbody
  · refine ⟨Body.normal_normalize _, fun v hv => ?_⟩
    rcases Body.variable_mem_append.mp hv with hv | hv
    · exact (h.rule hreplacement).2 v hv
    · exact (h.rule hold).2 v (List.mem_cons_of_mem _ hv)

theorem WellFormed.removeDirect {r : Removal} (h : r.grammar.WellFormed) {suffix : String}
    (hsuffix : suffix ≠ "") (head : String) :
    (r.removeDirect suffix head).grammar.WellFormed := by
  have hfresh := freshVariable_not_mem_variableNames hsuffix r.grammar head
  have hkeeps : ∀ v ∈ r.grammar.variableNames,
      v ∈ (r.removeDirect suffix head).grammar.variableNames := by
    intro v hv
    rcases r.variableNames_removeDirect suffix head with heq | heq
    · exact heq ▸ hv
    · exact heq ▸ List.mem_append_left _ hv
  have happend : ∀ old : Body, (∀ v, .variable v ∈ old → v ∈ r.grammar.variableNames) →
      (r.removeDirect suffix head).grammar.variableNames =
        r.grammar.variableNames ++ [r.grammar.freshVariable head suffix] →
      (Body.append old [.variable (r.grammar.freshVariable head suffix)]).Normal ∧
        ∀ v, .variable v ∈ Body.append old [.variable (r.grammar.freshVariable head suffix)] →
          v ∈ (r.removeDirect suffix head).grammar.variableNames := by
    intro old hold hnames
    refine ⟨Body.normal_normalize _, fun v hv => ?_⟩
    rw [hnames]
    rcases Body.variable_mem_append.mp hv with hv | hv
    · exact List.mem_append_left _ (hold v hv)
    · exact List.mem_append_right _ (by simpa using hv)
  refine wellFormed_iff.mpr ⟨?_, ?_, fun name body hbody => ?_⟩
  · rcases r.variableNames_removeDirect suffix head with heq | heq
    · rw [heq]
      exact h.nodup
    · rw [heq]
      exact h.nodup.append (List.nodup_singleton _) (List.disjoint_singleton.mpr hfresh)
  · rw [Removal.start_removeDirect]
    exact hkeeps _ h.start_mem
  · rcases Removal.mem_bodiesOf_removeDirect hsuffix hbody with
      ⟨hbody, -⟩ | ⟨hnames, ⟨-, old, hold, rfl⟩ | ⟨-, rfl | ⟨tail, htail, rfl⟩⟩⟩
    · exact ⟨(h.rule hbody).1, fun v hv => hkeeps v ((h.rule hbody).2 v hv)⟩
    · exact happend old (h.rule (mem_foundedBodies.mp hold).1).2 hnames
    · exact ⟨⟨List.cons_ne_nil _ _, fun _ => rfl⟩, by simp⟩
    · exact happend tail (fun v hv => (h.rule (mem_recursiveTails.mp htail).2).2 v
        (List.mem_cons_of_mem _ hv)) hnames

/-- A pass for which a fresh name can be found, or which needs none. -/
theorem WellFormed.removeLeftRecursion {g : Grammar} (h : g.WellFormed) {suffix : String}
    (fresh : suffix ≠ "" ∨ (g.removeLeftRecursion suffix).OnlySubstitutes) :
    (g.removeLeftRecursion suffix).grammar.WellFormed := by
  rcases fresh with hsuffix | honly
  · exact Removal.visitAll_induction (P := fun r => r.grammar.WellFormed)
      (fun _ _ _ _ h => h.substitute _ _) (fun _ head h => h.removeDirect hsuffix head)
      g.variableNames [] ⟨g, []⟩ h.nodup h
  · -- no event is taken back, so that no visit has done anything else
    refine Removal.visitAll_induction (P := fun r => r.OnlySubstitutes → r.grammar.WellFormed)
      ?_ ?_ g.variableNames [] ⟨g, []⟩ h.nodup (fun _ => h) honly
    · intro r earlier head _ ih honly
      exact (ih fun e he => honly e (r.events_substitute earlier head he)).substitute earlier head
    · intro r head ih honly
      rw [Removal.removeDirect_eq_of_onlySubstitutes honly]
      exact ih fun e he => honly e (r.events_removeDirect suffix head he)

end Grammar

end FormalLang
