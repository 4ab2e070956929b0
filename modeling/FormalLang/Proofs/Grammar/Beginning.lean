import FormalLang.Proofs.Grammar.First

/-!
# The FIRST sets are least

`Grammar.CanBegin` says what a sequence can begin with for a finite reason: a chain of rules at the
end of which the terminal stands, or nothing is left.  Closed sets have all of that
(`FirstSets.Closed.begins_of_canBegin`).  The sets that the search finds have nothing else
(`FirstSets.grounded_of_compute`), for they begin empty and only take up what the bodies begin with
at the time.

So the FIRST sets of a grammar are `CanBegin`, and an argument about them can go by induction on the
reason (`FirstSets.begins_iff_canBegin`).
-/

namespace FormalLang

/-- **Whether a sequence can begin with a terminal**, or vanish in the case of `ε`. -/
inductive Grammar.CanBegin (g : Grammar) : List Goal → Symbol → Prop where
  | nil : CanBegin g [] .epsilon
  | terminal (t : Terminal) (rest : List Goal) :
      CanBegin g (.terminal t :: rest) (.terminal t)
  | found {name : String} {body : Body} {rest : List Goal} {x : Symbol}
      (rule : body ∈ g.bodiesOf name) (hbody : CanBegin g body.goals x) (hx : x ≠ .epsilon) :
      CanBegin g (.variable name :: rest) x
  | vanish {name : String} {body : Body} {rest : List Goal} {x : Symbol}
      (rule : body ∈ g.bodiesOf name) (hbody : CanBegin g body.goals .epsilon)
      (hrest : CanBegin g rest x) : CanBegin g (.variable name :: rest) x

namespace FirstSets

variable {g : Grammar} {first : FirstSets} {form : List Goal} {x : Symbol}

/-! ## 1. Closed sets have everything -/

theorem Closed.begins_of_canBegin (closed : Closed g first) (h : g.CanBegin form x) :
    first.Begins form x := by
  induction h with
  | nil => exact .nil
  | terminal t rest => exact .terminal t rest
  | found rule _ hx ih => exact .found (closed.closed _ _ rule _ ih) hx
  | vanish rule _ _ ihbody ihrest => exact .vanish (closed.closed _ _ rule _ ihbody) ihrest

/-! ## 2. The search finds nothing else -/

/-- Whether there is a reason for all that is in the sets. -/
def Grounded (g : Grammar) (first : FirstSets) : Prop :=
  ∀ name x, first.Has name x → ∃ body ∈ g.bodiesOf name, g.CanBegin body.goals x

theorem Grounded.canBegin_of_begins (grounded : Grounded g first) (h : first.Begins form x) :
    g.CanBegin form x := by
  induction h with
  | nil => exact .nil
  | terminal t rest => exact .terminal t rest
  | found has hx =>
    obtain ⟨body, rule, hbody⟩ := grounded _ _ has
    exact .found rule hbody hx
  | vanish has _ ih =>
    obtain ⟨body, rule, hbody⟩ := grounded _ _ has
    exact .vanish rule hbody ih

theorem Grounded.insert (grounded : Grounded g first) {head : String} {found : OrderedSet Symbol}
    (hfound : ∀ x ∈ found, ∃ body ∈ g.bodiesOf head, first.Begins body.goals x) :
    Grounded g ⟨first.sets.insert head found⟩ := by
  intro name x hx
  rw [has_insert_iff] at hx
  split at hx
  · rename_i heq
    subst heq
    obtain ⟨body, rule, hbody⟩ := hfound x hx
    exact ⟨body, rule, grounded.canBegin_of_begins hbody⟩
  · exact grounded name x hx

/-- What a look at a variable does to the sets: nothing, or the set of a variable that has one
becomes what its bodies begin with. -/
theorem Search.first_cases {s s' : Search} (hs : Search.step g s = .ok (some s')) :
    s'.first = s.first ∨ ∃ head found known, s.first.ofBodies (g.bodiesOf head) = .ok found ∧
      s.first.get? head = some known ∧ s'.first = ⟨s.first.sets.insert head found⟩ := by
  unfold Search.step at hs
  split at hs
  · cases Except.ok.inj hs
  · rename_i head rest _
    split at hs
    · contradiction
    · rename_i bodies hbodies
      obtain rfl := Grammar.eq_bodiesOf_of_getBodies hbodies
      split at hs
      · contradiction
      · rename_i found hfound
        split at hs
        · contradiction
        · rename_i known hknown
          split at hs
          · obtain rfl := Option.some.inj (Except.ok.inj hs)
            exact .inl rfl
          · obtain rfl := Option.some.inj (Except.ok.inj hs)
            exact .inr ⟨head, found, known, hfound, hknown, rfl⟩

/-- **A look at a variable needs a reason for what it finds.** -/
theorem Grounded.step {s s' : Search} (grounded : Grounded g s.first)
    (hs : Search.step g s = .ok (some s')) : Grounded g s'.first := by
  rcases Search.first_cases hs with heq | ⟨head, found, _, hfound, -, heq⟩
  · rw [heq]
    exact grounded
  · rw [heq]
    exact grounded.insert fun x => (mem_ofBodies_iff hfound).mp

/-- **The sets that are found are grounded**, whatever the order in which the search looks at the
variables. -/
theorem grounded_of_compute {order : List String} (h : compute g order = .ok first) :
    Grounded g first := by
  unfold compute at h
  split at h
  · contradiction
  · rename_i s hs
    obtain rfl := Except.ok.inj h
    exact iterateE_invariant (fun s s' (grounded : Grounded g s.first) hs => grounded.step hs)
      _ _ _ (fun name x hx => absurd hx not_has_blank) hs

/-- **FIRST sets are what sequences can begin with**, if they are closed and grounded. -/
theorem begins_iff_canBegin (closed : Closed g first) (grounded : Grounded g first) :
    first.Begins form x ↔ g.CanBegin form x :=
  ⟨grounded.canBegin_of_begins, closed.begins_of_canBegin⟩

end FirstSets

end FormalLang
