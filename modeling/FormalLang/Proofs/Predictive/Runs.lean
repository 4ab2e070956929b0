import FormalLang.Proofs.Grammar.Forms
import FormalLang.Proofs.Predictive.Rounds

/-!
# Runs and how they end

A parse is a run and its end (`ParseTable.exists_runs`).  `Runs` says which steps a table records on
the way from one configuration to another, with one constructor for each action, and `Stops` lists
the five ways in which a parse ends.  A failure is recorded at the end only, and leftover input is
not recorded at all.

Up to each of its steps the trace of a parse is a run itself (`Runs.of_trace_eq`), so that what
holds of runs holds at every step of a trace.
-/

namespace FormalLang

/-! ## 1. Reading a trace -/

/-- The terminal that an action matches. -/
def Action.matched? : Action → Option Terminal
  | .matched t => some t
  | _ => none

/-- The replacement that an action makes. -/
def Action.choice? : Action → Option (String × Body)
  | .expanded head body => some (head, body)
  | _ => none

/-- The terminals that are matched in a trace. -/
def matchedIn (trace : List TraceStep) : List Terminal :=
  trace.filterMap fun s => s.action.matched?

/-- The replacements in a trace. -/
def choicesIn (trace : List TraceStep) : List (String × Body) :=
  trace.filterMap fun s => s.action.choice?

namespace ParseTable

variable {t : ParseTable} {c last : Configuration} {steps earlier later ending : List TraceStep}
  {s : TraceStep} {verdict : Verdict}

/-! ## 2. Runs and their ends -/

/-- **The steps that a table records** on the way from one configuration to another. -/
inductive Runs (t : ParseTable) : Configuration → List TraceStep → Configuration → Prop where
  | nil (c : Configuration) : Runs t c [] c
  | matched {a : Terminal} {rest : List Goal} {input : List Terminal} {steps : List TraceStep}
      {last : Configuration} (later : Runs t ⟨rest, input⟩ steps last) :
      Runs t ⟨.terminal a :: rest, a :: input⟩
        (⟨⟨.terminal a :: rest, a :: input⟩, .matched a⟩ :: steps) last
  | expanded {name : String} {a : Terminal} {cell : Cell} {rest : List Goal}
      {input : List Terminal} {steps : List TraceStep} {last : Configuration}
      (hcell : t.get? name a = some cell)
      (later : Runs t ⟨cell.body.goals ++ rest, a :: input⟩ steps last) :
      Runs t ⟨.variable name :: rest, a :: input⟩
        (⟨⟨.variable name :: rest, a :: input⟩, .expanded name cell.body⟩ :: steps) last

/-- **How a table stops**: what it records at the end, and its verdict. -/
inductive Stops (t : ParseTable) : Configuration → List TraceStep → Verdict → Prop where
  | accepted : Stops t ⟨[], []⟩ [] .accepted
  | leftover (a : Terminal) (input : List Terminal) :
      Stops t ⟨[], a :: input⟩ [] (.rejected (.leftoverInput (a :: input)))
  | unexpectedEnd (goal : Goal) (rest : List Goal) :
      Stops t ⟨goal :: rest, []⟩ [⟨⟨goal :: rest, []⟩, .failed (.unexpectedEnd goal)⟩]
        (.rejected (.unexpectedEnd goal))
  | mismatch {expected a : Terminal} (hne : expected ≠ a) (rest : List Goal)
      (input : List Terminal) :
      Stops t ⟨.terminal expected :: rest, a :: input⟩
        [⟨⟨.terminal expected :: rest, a :: input⟩, .failed (.mismatch expected a)⟩]
        (.rejected (.mismatch expected a))
  | noProduction {name : String} {a : Terminal} (hcell : t.get? name a = none) (rest : List Goal)
      (input : List Terminal) :
      Stops t ⟨.variable name :: rest, a :: input⟩
        [⟨⟨.variable name :: rest, a :: input⟩, .failed (.noProduction name a)⟩]
        (.rejected (.noProduction name a))

/-- **A parse is a run and its end.** -/
theorem exists_runs : ∀ (n : Nat) {c : Configuration}, (t.runFrom n c).verdict ≠ .unfinished →
    ∃ steps last ending, (t.runFrom n c).trace = steps ++ ending ∧ t.Runs c steps last ∧
      t.Stops last ending (t.runFrom n c).verdict
  | 0, _, h => absurd rfl h
  | n + 1, ⟨[], []⟩, _ => ⟨[], _, [], rfl, .nil _, .accepted⟩
  | n + 1, ⟨[], a :: input⟩, _ => ⟨[], _, [], rfl, .nil _, .leftover a input⟩
  | n + 1, ⟨goal :: rest, []⟩, _ => by
    have hchoose : t.choose goal [] = .error (.unexpectedEnd goal) := rfl
    rw [runFrom_of_error hchoose]
    exact ⟨[], _, _, rfl, .nil _, .unexpectedEnd goal rest⟩
  | n + 1, ⟨.terminal expected :: rest, a :: input⟩, h => by
    by_cases heq : expected = a
    · subst heq
      have hchoose : t.choose (.terminal expected) (expected :: input) = .ok (.matched expected) :=
        if_pos rfl
      rw [runFrom_of_ok hchoose] at h ⊢
      obtain ⟨steps, last, ending, htrace, run, stops⟩ := exists_runs n h
      exact ⟨_ :: steps, last, ending, congrArg (List.cons _) htrace, .matched run, stops⟩
    · have hchoose : t.choose (.terminal expected) (a :: input) = .error (.mismatch expected a) :=
        if_neg heq
      rw [runFrom_of_error hchoose]
      exact ⟨[], _, _, rfl, .nil _, .mismatch heq rest input⟩
  | n + 1, ⟨.variable name :: rest, a :: input⟩, h => by
    cases hcell : t.get? name a with
    | none =>
      have hchoose : t.choose (.variable name) (a :: input) = .error (.noProduction name a) := by
        rw [choose, hcell]
      rw [runFrom_of_error hchoose]
      exact ⟨[], _, _, rfl, .nil _, .noProduction hcell rest input⟩
    | some cell =>
      have hchoose : t.choose (.variable name) (a :: input) = .ok (.expanded name cell.body) := by
        rw [choose, hcell]
      rw [runFrom_of_ok hchoose] at h ⊢
      obtain ⟨steps, last, ending, htrace, run, stops⟩ := exists_runs n h
      exact ⟨_ :: steps, last, ending, congrArg (List.cons _) htrace, .expanded hcell run, stops⟩

/-! ## 3. Parts of a trace -/

theorem Runs.split : ∀ {earlier : List TraceStep} {c : Configuration},
    t.Runs c (earlier ++ later) last → ∃ d, t.Runs c earlier d ∧ t.Runs d later last
  | [], c, h => ⟨c, .nil c, h⟩
  | s :: earlier, c, h => by
    rcases h with _ | h | ⟨hcell, h⟩
    · obtain ⟨d, hd, hlast⟩ := h.split
      exact ⟨d, .matched hd, hlast⟩
    · obtain ⟨d, hd, hlast⟩ := h.split
      exact ⟨d, .expanded hcell hd, hlast⟩

theorem Runs.eq_of_nil (h : t.Runs c [] last) : c = last := by
  rcases h with _ | _ | _
  rfl

theorem Runs.before_eq (h : t.Runs c (s :: later) last) : s.before = c := by
  rcases h with _ | _ | _
  · rfl
  · rfl

/-- At the end at most one step is recorded, before which nothing changes any more. -/
theorem Stops.ending_cases (h : t.Stops last ending verdict) :
    ending = [] ∨ ∃ action, ending = [⟨last, action⟩] := by
  rcases h with _ | _ | _ | _ | _
  · exact .inl rfl
  · exact .inl rfl
  · exact .inr ⟨_, rfl⟩
  · exact .inr ⟨_, rfl⟩
  · exact .inr ⟨_, rfl⟩

theorem Stops.ne_unfinished (h : t.Stops last ending verdict) : verdict ≠ .unfinished := by
  rcases h with _ | _ | _ | _ | _
  · nofun
  · nofun
  · nofun
  · nofun
  · nofun

/-- A failure is recorded, unless input is left over. -/
theorem Stops.ending_of_failed {e : ParseError} (h : t.Stops last ending (.rejected e))
    (hne : ∀ remaining, e ≠ .leftoverInput remaining) : ending = [⟨last, .failed e⟩] := by
  rcases h with _ | _ | _ | _ | _
  · exact absurd rfl (hne _)
  · rfl
  · rfl
  · rfl

/-- Acceptance and leftover input are not recorded. -/
theorem Stops.ending_of_unfailed (h : t.Stops last ending verdict)
    (hverdict : verdict = .accepted ∨
      ∃ remaining, verdict = .rejected (.leftoverInput remaining)) : ending = [] := by
  rcases h with _ | _ | _ | _ | _
  · rfl
  · rfl
  · simp at hverdict
  · simp at hverdict
  · simp at hverdict

theorem Stops.eq_of_accepted (h : t.Stops last ending .accepted) :
    last = ⟨[], []⟩ ∧ ending = [] := by
  rcases h with _ | _
  exact ⟨rfl, rfl⟩

/-- The first step is recorded before anything changes. -/
theorem Runs.exists_first {goal : Goal} {rest : List Goal} {input : List Terminal}
    (run : t.Runs ⟨goal :: rest, input⟩ steps last) (stops : t.Stops last ending verdict) :
    ∃ action later, steps ++ ending = ⟨⟨goal :: rest, input⟩, action⟩ :: later := by
  rcases run with _ | _ | _
  · rcases stops with _ | _ | _ | _ | _
    · exact ⟨_, _, rfl⟩
    · exact ⟨_, _, rfl⟩
    · exact ⟨_, _, rfl⟩
  · exact ⟨_, _, rfl⟩
  · exact ⟨_, _, rfl⟩

/-- **Up to each of its steps a trace is a run.** -/
theorem Runs.of_trace_eq (run : t.Runs c steps last) (stops : t.Stops last ending verdict)
    (h : steps ++ ending = earlier ++ s :: later) : t.Runs c earlier s.before := by
  rcases append_eq_append_cons h with ⟨mid, rfl, -⟩ | ⟨mid, rfl, hending⟩
  · obtain ⟨d, hd, hrest⟩ := run.split
    rwa [hrest.before_eq]
  · rcases stops.ending_cases with rfl | ⟨action, rfl⟩
    · exact absurd hending.symm (List.append_ne_nil_of_right_ne_nil _ (List.cons_ne_nil _ _))
    · obtain ⟨rfl, heq⟩ | ⟨-, heq⟩ := List.append_eq_singleton_iff.mp hending.symm
      · obtain ⟨rfl, -⟩ := List.cons.inj heq
        rwa [List.append_nil]
      · contradiction

/-! ## 4. What a run matches -/

/-- **What is matched and what is ahead** make up the input. -/
theorem Runs.input_eq (run : t.Runs c steps last) : c.input = matchedIn steps ++ last.input := by
  induction run with
  | nil c => rfl
  | matched _ ih => exact congrArg (List.cons _) ih
  | expanded _ _ ih => exact ih

theorem Runs.not_failed (run : t.Runs c steps last) :
    ∀ s ∈ steps, ∀ e, s.action ≠ .failed e := by
  induction run with
  | nil c => exact fun s hs => absurd hs List.not_mem_nil
  | matched _ ih => exact List.forall_mem_cons.mpr ⟨fun _ => nofun, ih⟩
  | expanded _ _ ih => exact List.forall_mem_cons.mpr ⟨fun _ => nofun, ih⟩

end ParseTable

end FormalLang
