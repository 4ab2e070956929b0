import FormalLang.Proofs.Automaton.Exploration
import FormalLang.Proofs.Lapse

/-!
# Deterministic automata built state by state

A `DfaBuilder` numbers sets of members as they come, looks their numbers up in an index, and enters
transitions into states that it looks up by number.  It has a lapse where a state does not exist,
where a state would get a second target for a character, and where a state is left whose moves were
not computed.  Here an exploration is written out with a builder, and it has no lapse and builds the
automaton of the exploration (`Exploration.explore_eq`).

**What a builder holds** is determined by the exploration in progress (`Exploration.toBuilder`), so
that a step of the one is a step of the other.  That no state gets two targets for one character
takes three facts: a set has one move at most for each character, every transition that was entered
is such a move, and a set that was found has one number (`Exploration.Traced`).
-/

namespace FormalLang

/-- **A deterministic automaton in the making**, and the steps that it took so far. -/
structure DfaBuilder where
  /-- The number that the next state takes. -/
  free : Nat
  states : List Dfa.State
  /-- The numbers of the sets of members. -/
  index : List (Members × Nat)
  /-- The states whose moves have not been computed, the last one first. -/
  unmarked : List Nat
  steps : List Step
  deriving DecidableEq

namespace DfaBuilder

/-! ## 1. Building an automaton -/

/-- The builder without states. -/
def empty : DfaBuilder := ⟨0, [], [], [], []⟩

/-- The state of a set of members, which is made if the set is new. -/
def intern (b : DfaBuilder) (members : Members) : Nat × DfaBuilder :=
  match b.index.lookup members with
  | some id => (id, b)
  | none =>
    (b.free, { b with
      free := b.free + 1
      states := b.states ++ [⟨b.free, members, ∅⟩]
      index := b.index ++ [(members, b.free)]
      unmarked := b.free :: b.unmarked })

/-- The members of a state. -/
def members (b : DfaBuilder) (id : Nat) : Except Lapse Members :=
  match b.states[id]? with
  | none => .error (.fault .missingState)
  | some s => .ok s.members

/-- Enters a transition. -/
def addTransition (b : DfaBuilder) (source : Nat) (symbol : Char) (target : Nat) :
    Except Lapse DfaBuilder :=
  match b.states[source]? with
  | none => .error (.fault .missingState)
  | some s =>
    if (s.transitions.find? symbol).all fun previous => decide (previous = target) then
      let changed := { s with transitions := s.transitions.insert symbol target }
      .ok { b with states := b.states.set source changed }
    else .error .twoTargets

/-- Records a step. -/
def record (b : DfaBuilder) (step : Step) : DfaBuilder := { b with steps := b.steps ++ [step] }

/-- Enters a move, and its target if that is new. -/
def addMove (b : DfaBuilder) (source : Nat) (arrow : Char × Members) :
    Except Lapse DfaBuilder := do
  let (target, b) := b.intern arrow.2
  let b ← b.addTransition source arrow.1 target
  return b.record (.dfaMove ⟨source, arrow.1, target, arrow.2⟩)

/-- Enters the moves out of a state, one after the other. -/
def addMoves (source : Nat) : DfaBuilder → List (Char × Members) → Except Lapse DfaBuilder
  | b, [] => .ok b
  | b, arrow :: rest => do
    let b ← b.addMove source arrow
    addMoves source b rest

/-- Takes the last state whose moves have not been computed, and enters its moves. -/
def step (moves : Members → Except Lapse (List (Char × Members))) (b : DfaBuilder) :
    Except Lapse (Option DfaBuilder) :=
  match b.unmarked with
  | [] => .ok none
  | id :: rest => do
    let b := { b with unmarked := rest }
    let members ← b.members id
    let arrows ← moves members
    let b ← b.addMoves id arrows
    return some b

/-- The automaton that has been built; a state accepts if its members pass a test. -/
def build (b : DfaBuilder) (accepting : Members → Bool) : Except Lapse Dfa :=
  if b.unmarked.isEmpty then
    let accept := (b.states.filter fun s => accepting s.members).map Dfa.State.id
    .ok ⟨0, b.states, OrderedSet.ofList accept⟩
  else .error .stateLeft

/-- The automaton of the sets that moves lead to, and the steps that build it.  The universe has so
many members. -/
def explore (moves : Members → Except Lapse (List (Char × Members))) (members : Nat)
    (start : Members) (accepting : Members → Bool) : Except Lapse (Dfa × List Step) := do
  let (_, b) := (empty.record (.dfaStart start)).intern start
  let b ← iterateE (step moves) (Nat.pow 2 members + 1) b
  let dfa ← b.build accepting
  return (dfa, b.steps)

end DfaBuilder

namespace Exploration

variable {next : Members → List (Char × Members)} {start s t : Members} {all : List Nat}
  {e e' : Exploration}

/-! ## 2. What a builder holds -/

/-- **The builder of an exploration in progress.** -/
def toBuilder (start : Members) (e : Exploration) : DfaBuilder where
  free := e.found.length
  states := e.found.mapIdx fun id members => ⟨id, members, transitionsOf e.moves id⟩
  index := e.found.zipIdx
  unmarked := e.pending
  steps := e.steps start

/-- What is known of the moves that were noted. -/
structure Traced (next : Members → List (Char × Members)) (e : Exploration) : Prop where
  nodup : e.found.Nodup
  made : ∀ m ∈ e.moves, ∃ s, e.found[m.source]? = some s ∧ (m.symbol, m.members) ∈ next s ∧
    e.found[m.target]? = some m.members

theorem Traced.noted (h : e.Traced next) {source : Nat} (hsource : e.found[source]? = some s)
    {arrow : Char × Members} (harrow : arrow ∈ next s) : (note source e arrow).Traced next := by
  have hnoted := noted_note source e arrow
  refine ⟨hnoted.nodup h.nodup, fun m hm => ?_⟩
  rcases hnoted.made m hm with hm | ⟨rfl, hmove, htarget⟩
  · obtain ⟨s', hs', hmove, htarget⟩ := h.made m hm
    exact ⟨s', hnoted.getElem? hs', hmove, hnoted.getElem? htarget⟩
  · rw [List.mem_singleton] at hmove
    exact ⟨s, hnoted.getElem? hsource, hmove ▸ harrow, htarget⟩

/-- The number of a set, which is put down if it is new. -/
def find (e : Exploration) (t : Members) : Nat × Exploration :=
  match e.found.idxOf? t with
  | some id => (id, e)
  | none => (e.found.length, { e with
      found := e.found ++ [t]
      pending := e.found.length :: e.pending })

/-- Notes a move to a set that has a number. -/
def move (e : Exploration) (m : Move) : Exploration := { e with moves := e.moves ++ [m] }

theorem note_eq (source : Nat) (e : Exploration) (c : Char) (t : Members) :
    note source e (c, t) = (e.find t).2.move ⟨source, c, (e.find t).1, t⟩ := by
  unfold note find
  dsimp only
  cases e.found.idxOf? t with
  | none => rfl
  | some id => rfl

/-- The index of numbered sets tells their places. -/
theorem lookup_zipIdx (t : Members) : ∀ (found : List Members) (first : Nat),
    (found.zipIdx first).lookup t = (found.idxOf? t).map (first + ·)
  | [], _ => rfl
  | s :: found, first => by
    rw [List.zipIdx_cons, List.lookup_cons, List.idxOf?_cons, lookup_zipIdx t found]
    by_cases h : t = s
    · subst h
      simp
    · have hne : (t == s) = false := beq_false_of_ne h
      have hne' : (s == t) = false := beq_false_of_ne (Ne.symm h)
      rw [hne, hne', if_neg Bool.false_ne_true, Option.map_map]
      exact congrArg (Option.map · _) (funext fun i => by rw [Function.comp_apply]; omega)

/-- A new state has no transitions, as no move comes from it. -/
theorem Traced.transitionsOf_new (h : e.Traced next) :
    transitionsOf e.moves e.found.length = ∅ := by
  have hnone : (e.moves.filter fun m => decide (m.source = e.found.length)) = [] := by
    rw [List.filter_eq_nil_iff]
    intro m hm
    obtain ⟨s, hs, -⟩ := h.made m hm
    have := (List.getElem?_eq_some_iff.mp hs).1
    simp only [decide_eq_true_eq]
    omega
  rw [transitionsOf, hnone]
  rfl

/-- **A set is interned under the number that it has or gets.** -/
theorem Traced.intern_toBuilder (h : e.Traced next) (t : Members) :
    (toBuilder start e).intern t = ((e.find t).1, toBuilder start (e.find t).2) := by
  have hlookup : (toBuilder start e).index.lookup t = e.found.idxOf? t := by
    rw [toBuilder, lookup_zipIdx]
    simp
  rw [DfaBuilder.intern, hlookup, find]
  cases e.found.idxOf? t with
  | some id => rfl
  | none =>
    simp only [toBuilder, List.mapIdx_append, List.mapIdx_singleton, Nat.zero_add,
      h.transitionsOf_new, List.zipIdx_append, List.zipIdx_singleton, List.length_append,
      List.length_singleton]
    rfl

theorem transitionsOf_append (moves : List Move) (m : Move) (id : Nat) :
    transitionsOf (moves ++ [m]) id = if m.source = id then
      (transitionsOf moves id).insert m.symbol m.target else transitionsOf moves id := by
  unfold transitionsOf
  rw [List.filter_append]
  split
  · rename_i hsource
    simp [hsource]
  · rename_i hsource
    simp [hsource]

theorem getElem?_states (e : Exploration) (id : Nat) : (toBuilder start e).states[id]? =
    (e.found[id]?).map fun members => ⟨id, members, transitionsOf e.moves id⟩ := by
  rw [toBuilder, List.getElem?_mapIdx]

/-- **A transition is entered into the state that it leaves**, if it agrees with those before. -/
theorem addTransition_toBuilder {m : Move} (hsource : e.found[m.source]? = some s)
    (agree : ∀ m' ∈ e.moves, m'.source = m.source → m'.symbol = m.symbol → m'.target = m.target) :
    (toBuilder start e).addTransition m.source m.symbol m.target =
      .ok { toBuilder start (e.move m) with steps := e.steps start } := by
  have hall : ((transitionsOf e.moves m.source).find? m.symbol).all
      (fun previous => decide (previous = m.target)) = true := by
    rw [Option.all_eq_true]
    intro previous hprevious
    obtain ⟨m', hm', hsource', hsymbol', rfl⟩ := exists_move_of_transitionsOf hprevious
    exact decide_eq_true (agree m' hm' hsource' hsymbol')
  rw [DfaBuilder.addTransition, getElem?_states, hsource]
  simp only [Option.map_some, hall, if_true]
  refine congrArg (fun states => Except.ok { toBuilder start (e.move m) with
    states, steps := e.steps start }) (List.ext_getElem? fun i => ?_)
  have hlt : m.source < (toBuilder start e).states.length := by
    rw [toBuilder, List.length_mapIdx]
    exact (List.getElem?_eq_some_iff.mp hsource).1
  rw [List.getElem?_set, getElem?_states, getElem?_states, move, transitionsOf_append]
  split
  · rename_i heq
    subst heq
    rw [hsource]
    rfl
  · rfl

/-- Interning keeps what has a number, and gives its number to the set. -/
theorem getElem?_find (e : Exploration) (t : Members) :
    (∀ (id : Nat) (s : Members), e.found[id]? = some s → (e.find t).2.found[id]? = some s) ∧
      (e.find t).2.found[(e.find t).1]? = some t := by
  unfold find
  cases hid : e.found.idxOf? t with
  | some id =>
    obtain ⟨hlt, hget, -⟩ := List.idxOf?_eq_some_iff.mp hid
    exact ⟨fun _ _ h => h, List.getElem?_eq_some_iff.mpr ⟨hlt, hget⟩⟩
  | none =>
    refine ⟨fun id s hs => ?_, by simp⟩
    dsimp only
    rw [List.getElem?_append_left (List.getElem?_eq_some_iff.mp hs).1]
    exact hs

theorem moves_find (e : Exploration) (t : Members) : (e.find t).2.moves = e.moves := by
  unfold find
  cases e.found.idxOf? t with
  | some id => rfl
  | none => rfl

theorem steps_move (e : Exploration) (m : Move) :
    (e.move m).steps start = e.steps start ++ [.dfaMove m] := by
  rw [steps, steps, move, List.map_append]
  rfl

/-- **With nothing left to explore, the builder builds the automaton of the exploration.** -/
theorem build_toBuilder (hpending : e.pending = []) (accepting : Members → Bool) :
    (toBuilder start e).build accepting = .ok (e.toDfa accepting) := by
  have hunmarked : (toBuilder start e).unmarked.isEmpty = true := by
    rw [toBuilder, hpending]
    rfl
  rw [DfaBuilder.build, if_pos hunmarked]
  refine congrArg (fun accept => Except.ok (Dfa.mk 0 _ accept)) (OrderedSet.ext fun id => ?_)
  simp only [OrderedSet.mem_ofList, List.mem_map, List.mem_filter, List.mem_range]
  constructor
  · rintro ⟨state, ⟨hstate, haccepting⟩, rfl⟩
    obtain ⟨i, hi⟩ := List.getElem?_of_mem hstate
    obtain ⟨s, hs, rfl⟩ := Option.map_eq_some_iff.mp ((getElem?_states e i).symm.trans hi)
    exact ⟨(List.getElem?_eq_some_iff.mp hs).1, by rw [hs]; exact haccepting⟩
  · rintro ⟨-, haccepting⟩
    obtain ⟨s, hs, haccepting⟩ := (Option.any_eq_true _ _).mp haccepting
    have hstate := @getElem?_states start e id
    rw [hs] at hstate
    exact ⟨_, ⟨List.mem_of_getElem? hstate, haccepting⟩, rfl⟩

/-! ## 3. Exploring with a builder -/

section Explore

variable (deterministic : ∀ s c t t', (c, t) ∈ next s → (c, t') ∈ next s → t = t')
include deterministic

/-- **A move is entered as it is noted.** -/
theorem Traced.addMove_toBuilder (h : e.Traced next) {source : Nat}
    (hsource : e.found[source]? = some s) {arrow : Char × Members} (harrow : arrow ∈ next s) :
    (toBuilder start e).addMove source arrow = .ok (toBuilder start (note source e arrow)) := by
  obtain ⟨c, t⟩ := arrow
  obtain ⟨hkept, htarget⟩ := e.getElem?_find t
  have hnodup : (e.find t).2.found.Nodup := by
    have hnoted := (h.noted hsource harrow).nodup
    rwa [note_eq] at hnoted
  have agree : ∀ m ∈ (e.find t).2.moves, m.source = source → m.symbol = c →
      m.target = (e.find t).1 := by
    intro m hm hm_source hm_symbol
    rw [moves_find] at hm
    obtain ⟨s', hs', hmove, hmembers⟩ := h.made m hm
    rw [hm_source, hsource] at hs'
    obtain rfl := Option.some.inj hs'
    rw [hm_symbol] at hmove
    rw [deterministic _ _ _ _ hmove harrow] at hmembers
    have hsame := hkept _ _ hmembers
    exact List.getElem?_inj (List.getElem?_eq_some_iff.mp hsame).1 hnodup |>.mp
      (hsame.trans htarget.symm)
  have hadded := @addTransition_toBuilder start s (e.find t).2
    ⟨source, c, (e.find t).1, t⟩ (hkept _ _ hsource) agree
  rw [DfaBuilder.addMove, h.intern_toBuilder]
  simp only [hadded, note_eq, bind, Except.bind, DfaBuilder.record, ← steps_move]
  rfl

theorem Traced.addMoves_toBuilder {source : Nat} : ∀ {arrows : List (Char × Members)}
    {e : Exploration}, e.Traced next → e.found[source]? = some s →
      (∀ arrow ∈ arrows, arrow ∈ next s) →
      (toBuilder start e).addMoves source arrows =
        .ok (toBuilder start (arrows.foldl (note source) e))
  | [], e, _, _, _ => rfl
  | arrow :: arrows, e, h, hsource, harrows => by
    have harrow := harrows arrow List.mem_cons_self
    have hrest := addMoves_toBuilder (h.noted hsource harrow)
      ((noted_note source e arrow).getElem? hsource)
      fun later hlater => harrows later (List.mem_cons_of_mem _ hlater)
    rw [DfaBuilder.addMoves, h.addMove_toBuilder deterministic hsource harrow]
    exact hrest

/-- **A round with a builder** is a round of the exploration. -/
theorem Sound.step_toBuilder {moves : Members → Except Lapse (List (Char × Members))}
    (computed : ∀ s, (∀ x ∈ s, x ∈ all) → moves s = .ok (next s)) (h : Sound next start all e) :
    DfaBuilder.step moves (toBuilder start e) =
      .ok ((Exploration.step next e).map (toBuilder start)) := by
  obtain ⟨found, pending, noted⟩ := e
  cases pending with
  | nil => rfl
  | cons id rest =>
    have hid : id < found.length := h.waiting id List.mem_cons_self
    obtain ⟨s, hs⟩ : ∃ s, found[id]? = some s := ⟨_, List.getElem?_eq_getElem hid⟩
    have hmembers : (toBuilder start ⟨found, rest, noted⟩).members id = .ok s := by
      rw [DfaBuilder.members, getElem?_states, hs]
      rfl
    have htraced : Traced next ⟨found, rest, noted⟩ := ⟨h.nodup, h.made⟩
    have hadded := @Traced.addMoves_toBuilder next start s deterministic id (next s) _ htraced hs
      fun _ harrow => harrow
    have hstep : DfaBuilder.step moves (toBuilder start ⟨found, id :: rest, noted⟩) = (do
        let members ← (toBuilder start ⟨found, rest, noted⟩).members id
        let arrows ← moves members
        let b ← (toBuilder start ⟨found, rest, noted⟩).addMoves id arrows
        return some b) := rfl
    have hcomputed := computed s (h.within s (List.mem_of_getElem? hs))
    rw [hstep, hmembers, Exploration.step]
    simp only [bind, Except.bind, hcomputed, hadded, hs]
    rfl

/-- **An exploration with a builder has no lapse**, if none occurs when moves are computed, and it
builds the automaton of the exploration. -/
theorem explore_eq {moves : Members → Except Lapse (List (Char × Members))}
    (computed : ∀ s, (∀ x ∈ s, x ∈ all) → moves s = .ok (next s))
    (closed : ∀ s, (∀ x ∈ s, x ∈ all) → ∀ c t, (c, t) ∈ next s → ∀ x ∈ t, x ∈ all)
    (hstart : ∀ x ∈ start, x ∈ all) {n : Nat} (hn : all.length ≤ n) (accepting : Members → Bool) :
    DfaBuilder.explore moves n start accepting =
      .ok ((run next n start).toDfa accepting, (run next n start).steps start) := by
  have hsound : Sound next start all (begin start) := sound_begin hstart
  obtain ⟨-, hdone⟩ := sound_run closed hstart hn
  have hloop : iterateE (DfaBuilder.step moves) _ _ = .ok (toBuilder start (run next n start)) :=
    iterateE_map_eq_ok (f := toBuilder start)
      (fun e h => ⟨Sound.step_toBuilder deterministic computed h,
        fun e' hs => (Sound.step closed hn h hs).1⟩) (Nat.pow 2 n + 1) (begin start) hsound
  have hbuild := @build_toBuilder start _ (pending_eq_nil hdone) accepting
  have hbegin : (DfaBuilder.empty.record (.dfaStart start)).intern start =
    (0, toBuilder start (begin start)) := rfl
  rw [DfaBuilder.explore, hbegin]
  simp only [bind, Except.bind, hloop, hbuild]
  rfl

end Explore

end Exploration

end FormalLang
