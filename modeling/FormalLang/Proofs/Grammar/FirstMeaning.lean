import FormalLang.Proofs.Grammar.Beginning
import FormalLang.Proofs.Grammar.Forms
import FormalLang.Proofs.Grammar.Obtained

/-!
# What FIRST sets mean

The FIRST set of a form has the terminals that derived forms begin with, and `ε` if the form derives
the empty one (`Grammar.IsFirst`).  The search finds these sets, for variables and for sequences,
whatever the order in which it looks at the variables (`FirstSets.search_finds_first`).

* **Everything that is derived is found.**  Closed sets never say less after a replacement is taken
  back (`Closed.begins_of_expands`), so what the last form of a derivation begins with, the first
  form begins with too.
* **Nothing else is found.**  There is a finite reason for everything in the sets
  (`Grammar.CanBegin`), and a reason is a derivation that replaces the variable in front
  (`derives_of_canBegin`).

That the order does not matter follows: the sets are described without it.
-/

namespace FormalLang

/-- **Whether a set is the FIRST set of a form**: its terminals are those that derived forms begin
with, it has `ε` exactly if the form derives the empty one, and it has no variables. -/
structure Grammar.IsFirst (g : Grammar) (form : List Goal) (s : OrderedSet Symbol) : Prop where
  terminal : ∀ t, .terminal t ∈ s ↔ ∃ rest, g.Derives form (.terminal t :: rest)
  epsilon : .epsilon ∈ s ↔ g.Derives form []
  no_variable : ∀ name, .variable name ∉ s

theorem Grammar.IsFirst.unique {g : Grammar} {form : List Goal} {s s' : OrderedSet Symbol}
    (h : g.IsFirst form s) (h' : g.IsFirst form s') : s = s' := by
  refine OrderedSet.ext fun x => ?_
  rcases x with t | name | _
  · rw [h.terminal, h'.terminal]
  · exact ⟨fun hx => absurd hx (h.no_variable name), fun hx => absurd hx (h'.no_variable name)⟩
  · rw [h.epsilon, h'.epsilon]

namespace FirstSets

variable {g : Grammar} {first : FirstSets} {form next last : List Goal} {x : Symbol}

/-! ## 1. Everything that is derived is found -/

/-- **Closed sets know before a replacement** what the form begins with afterwards. -/
theorem Closed.begins_of_expands (closed : Closed g first) (h : g.Expands form next)
    (hx : first.Begins next x) : first.Begins form x := by
  obtain @⟨name, body, before, after, rule⟩ := h
  have hvariable : ∀ y, first.Begins body.goals y → first.Has name y :=
    closed.closed name body rule
  rw [List.append_assoc, begins_append_iff, begins_append_iff] at hx
  rw [begins_append_iff, begins_variable_cons_iff]
  rcases hx with hfront | ⟨hvanish, ⟨hbody, hne⟩ | ⟨hbody, hafter⟩⟩
  · exact .inl hfront
  · exact .inr ⟨hvanish, .inl ⟨hvariable x hbody, hne⟩⟩
  · exact .inr ⟨hvanish, .inr ⟨hvariable _ hbody, hafter⟩⟩

theorem Closed.begins_of_derives (closed : Closed g first) (h : g.Derives form last) :
    first.Begins last x → first.Begins form x := by
  induction h with
  | refl form => exact id
  | step expands _ ih => exact fun hx => closed.begins_of_expands expands (ih hx)

/-! ## 2. Nothing else is found -/

/-- **A reason is a derivation**, which replaces the variable in front at every step. -/
theorem derives_of_canBegin (h : g.CanBegin form x) :
    (x = .epsilon → g.Derives form []) ∧
      ∀ t, x = .terminal t → ∃ rest, g.Derives form (.terminal t :: rest) := by
  induction h with
  | nil => exact ⟨fun _ => .refl [], nofun⟩
  | terminal t rest =>
    refine ⟨nofun, fun s hs => ⟨rest, ?_⟩⟩
    obtain rfl := Symbol.terminal.inj hs
    exact .refl _
  | @found name body rest x rule _ hx ih =>
    refine ⟨fun heq => absurd heq hx, fun t ht => ?_⟩
    obtain ⟨behind, hbody⟩ := ih.2 t ht
    exact ⟨behind ++ rest, .of_rule rule hbody rest⟩
  | @vanish name body rest x rule _ _ ihbody ihrest =>
    have hvanish : g.Derives (.variable name :: rest) rest := .of_rule rule (ihbody.1 rfl) rest
    refine ⟨fun heq => hvanish.trans (ihrest.1 heq), fun t ht => ?_⟩
    obtain ⟨behind, hrest⟩ := ihrest.2 t ht
    exact ⟨behind, hvanish.trans hrest⟩

theorem not_canBegin_variable {name : String} : ¬ g.CanBegin form (.variable name) := by
  intro h
  generalize hx : Symbol.variable name = x at h
  induction h with
  | nil => cases hx
  | terminal t rest => cases hx
  | found _ _ _ ih => exact ih hx
  | vanish _ _ _ _ ih => exact ih hx

/-- **Closed and grounded sets say what forms derive.** -/
theorem isFirst_of_mem_iff (closed : Closed g first) (grounded : Grounded g first)
    {s : OrderedSet Symbol} (hs : ∀ x, x ∈ s ↔ first.Begins form x) : g.IsFirst form s where
  terminal t := by
    rw [hs]
    constructor
    · exact fun h => (derives_of_canBegin (grounded.canBegin_of_begins h)).2 t rfl
    · rintro ⟨rest, h⟩
      exact closed.begins_of_derives h (.terminal t rest)
  epsilon := by
    rw [hs]
    exact ⟨fun h => (derives_of_canBegin (grounded.canBegin_of_begins h)).1 rfl,
      fun h => closed.begins_of_derives h .nil⟩
  no_variable name := by
    rw [hs]
    exact fun h => not_canBegin_variable (grounded.canBegin_of_begins h)

theorem isFirst_ofBody (closed : Closed g first) (grounded : Grounded g first) {body : Body}
    {s : OrderedSet Symbol} (h : first.ofBody body = .ok s) : g.IsFirst body.goals s :=
  isFirst_of_mem_iff closed grounded fun _ => mem_ofBody_iff h

theorem isFirst_get? (closed : Closed g first) (grounded : Grounded g first) {name : String}
    {s : OrderedSet Symbol} (h : first.get? name = some s) : g.IsFirst [.variable name] s := by
  refine isFirst_of_mem_iff closed grounded fun x => ?_
  have hhas : first.Has name x ↔ x ∈ s := by
    constructor
    · rintro ⟨s', hs', hx⟩
      obtain rfl := Option.some.inj (h.symm.trans hs')
      exact hx
    · exact fun hx => ⟨s, h, hx⟩
  rw [begins_variable_cons_iff, begins_nil_iff, ← hhas]
  by_cases hx : x = .epsilon
  · simp [hx]
  · simp [hx]

/-! ## 3. The order does not matter -/

/-- A look at a variable gives no set to a name without one, and takes none away. -/
theorem Search.isSome_step {s s' : Search} (hs : Search.step g s = .ok (some s')) (name : String) :
    (s'.first.get? name).isSome = (s.first.get? name).isSome := by
  rcases Search.first_cases hs with heq | ⟨head, found, known, -, hknown, heq⟩
  · rw [heq]
  · rw [heq, get?_insert]
    split
    · rename_i hname
      rw [hname, hknown]
      rfl
    · rfl

/-- The names with a FIRST set are the variables. -/
theorem isSome_get?_of_compute {order : List String} (h : compute g order = .ok first)
    (name : String) : (first.get? name).isSome = decide (name ∈ g.variableNames) := by
  unfold compute at h
  split at h
  · contradiction
  · rename_i s hs
    obtain rfl := Except.ok.inj h
    refine iterateE_invariant
      (P := fun s => ∀ name, (s.first.get? name).isSome = decide (name ∈ g.variableNames))
      (fun s s' hnames hs name => (Search.isSome_step hs name).trans (hnames name)) _ _ _ ?_ hs name
    intro name
    rw [get?_blank]
    split
    · simp [*]
    · simp [*]

/-- Sets that are found in two orders are the same. -/
theorem eq_of_compute {first' : FirstSets} {order order' : List String}
    (h : compute g order = .ok first) (h' : compute g order' = .ok first')
    (closed : Closed g first) (closed' : Closed g first') : first = first' := by
  have hsets : first.sets = first'.sets := by
    refine OrderedMap.ext fun name => ?_
    change first.get? name = first'.get? name
    have hsome := isSome_get?_of_compute h name
    have hsome' := isSome_get?_of_compute h' name
    cases hget : first.get? name with
    | none =>
      rw [hget] at hsome
      rw [← hsome] at hsome'
      exact (Option.isNone_iff_eq_none.mp (by simpa using hsome')).symm
    | some s =>
      rw [hget] at hsome
      rw [← hsome] at hsome'
      obtain ⟨s', hget'⟩ := Option.isSome_iff_exists.mp hsome'
      rw [hget', (isFirst_get? closed (grounded_of_compute h) hget).unique
        (isFirst_get? closed' (grounded_of_compute h') hget')]
  exact congrArg FirstSets.mk hsets

/-- **FIRST sets mean what they say, in any order.**  The search ends with no variable waiting, each
variable has a FIRST set, so does each sequence of symbols, and every order leads to the same
sets. -/
theorem search_finds_first (obtained : g.Obtained) {order : List String}
    (lists : ∀ name, name ∈ order ↔ name ∈ g.variableNames) :
    ∃ s, search g order = .ok s ∧ s.pending = [] ∧ compute g order = .ok s.first ∧
      (∀ name ∈ g.variableNames, ∃ found, s.first.get? name = some found ∧
        g.IsFirst [.variable name] found) ∧
      (∀ body : Body, (∀ name, .variable name ∈ body → name ∈ g.variableNames) →
        ∃ found, s.first.ofBody body = .ok found ∧ g.IsFirst body.goals found) ∧
      ∀ order' : List String, (∀ name, name ∈ order' ↔ name ∈ g.variableNames) →
        compute g order' = .ok s.first := by
  have wellFormed := obtained.wellFormed
  obtain ⟨s, hs, sound, hpending⟩ := exists_search wellFormed (fun name => (lists name).mp)
    (fun name => (lists name).mpr)
  have hcompute : compute g order = .ok s.first := by rw [compute, hs]
  have closed : Closed g s.first := sound.closed hpending
  have grounded : Grounded g s.first := grounded_of_compute hcompute
  refine ⟨s, hs, hpending, hcompute, fun name hname => ?_, fun body hbody => ?_,
    fun order' lists' => ?_⟩
  · obtain ⟨found, hfound⟩ := Option.isSome_iff_exists.mp (closed.total name hname)
    exact ⟨found, hfound, isFirst_get? closed grounded hfound⟩
  · obtain ⟨found, hfound⟩ := exists_ofBody fun name hname => closed.total name (hbody name hname)
    exact ⟨found, hfound, isFirst_ofBody closed grounded hfound⟩
  · obtain ⟨first', hcompute', closed'⟩ := exists_compute_closed wellFormed
      (fun name => (lists' name).mp) (fun name => (lists' name).mpr)
    rw [hcompute', eq_of_compute hcompute' hcompute closed' closed]

/-- `A` and `C` make each other vanish, `S` is hidden behind them, and `X` derives no word. -/
def tangledRules : Grammar :=
  ⟨"S", [⟨"S", [[.variable "A", .variable "S", .terminal (.named "b")],
      [.variable "X", .terminal (.named "c")], [.terminal .endOfInput]]⟩,
    ⟨"A", [[.variable "B", .variable "C"]]⟩,
    ⟨"B", [[.variable "C"], [.terminal (.named "a")]]⟩,
    ⟨"C", [[.variable "A"], [.epsilon]]⟩,
    ⟨"X", [[.variable "X", .terminal (.named "d")]]⟩]⟩

theorem tangledRules_obtained : tangledRules.Obtained :=
  @Grammar.Obtained.read .default
    "S -> A S b | X c | $\nA -> B C\nB -> C | a\nC -> A | ε\nX -> X d".toList _ (by decide)

/-- An order that looks at the start last and at two variables twice. -/
def backwards : List String := ["X", "C", "B", "A", "C", "S", "X"]

/-- The FIRST sets of `tangledRules`. -/
def tangledFirst : FirstSets :=
  ⟨OrderedMap.ofList
    [("S", .ofList [.terminal (.named "a"), .terminal .endOfInput]),
      ("A", .ofList [.terminal (.named "a"), .epsilon]),
      ("B", .ofList [.terminal (.named "a"), .epsilon]),
      ("C", .ofList [.terminal (.named "a"), .epsilon]), ("X", ∅)]⟩

/-- `S` derives a form that begins with `a` and none that begins with `b`, and `A` derives the empty
form. -/
theorem search_finds_first_tangledRules :
    tangledRules.Obtained ∧ (∀ name, name ∈ backwards ↔ name ∈ tangledRules.variableNames) ∧
      compute tangledRules backwards = ofGrammar tangledRules ∧
      (∃ rest, tangledRules.Derives [.variable "S"] (.terminal (.named "a") :: rest)) ∧
      (¬ ∃ rest, tangledRules.Derives [.variable "S"] (.terminal (.named "b") :: rest)) ∧
      tangledRules.Derives [.variable "A"] [] := by
  have hlists : ∀ name, name ∈ backwards ↔ name ∈ tangledRules.variableNames := fun name =>
    ⟨(by decide : ∀ v ∈ backwards, v ∈ tangledRules.variableNames) name,
      (by decide : ∀ v ∈ tangledRules.variableNames, v ∈ backwards) name⟩
  have hfirst : compute tangledRules backwards = .ok tangledFirst := by decide
  obtain ⟨s, -, -, hcompute, hvariables, -, horder⟩ :=
    search_finds_first tangledRules_obtained hlists
  have heq : s.first = tangledFirst := Except.ok.inj (hcompute.symm.trans hfirst)
  rw [heq] at hvariables
  obtain ⟨foundS, hgetS, hS⟩ := hvariables "S" (by decide)
  obtain ⟨foundA, hgetA, hA⟩ := hvariables "A" (by decide)
  obtain rfl := Option.some.inj (hgetS.symm.trans (by rfl))
  obtain rfl := Option.some.inj (hgetA.symm.trans (by rfl))
  exact ⟨tangledRules_obtained, hlists,
    hcompute.trans (horder tangledRules.variableNames fun _ => Iff.rfl).symm,
    (hS.terminal _).mp (by decide), fun h => absurd ((hS.terminal _).mpr h) (by decide),
    hA.epsilon.mp (by decide)⟩

end FirstSets

end FormalLang
