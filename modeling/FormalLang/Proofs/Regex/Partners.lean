import FormalLang.Proofs.Regex.Acceptance
import Mathlib.Order.Bounds.Defs

/-!
# Parentheses without partners

The check of the parentheses reports the leftmost `)` without partner, or else the rightmost `(`
without partner (`Postfix.lone_of_checkParens`).  Two parentheses are partners if the text between
them has parentheses that match (`Partners`); nothing here mentions the positions that the check
keeps.

* **Matching texts.**  Every parenthesis has a partner inside (`Paired.hasPartner`).  No beginning
  closes more groups than it opens (`Paired.count_take_le`), so that no partner can be found across
  the end of a matching text.
* **The check.**  What has been read are matching texts, divided by the parentheses that are still
  open (`Opened`).  So a `)` that closes nothing stands behind a matching text, and at the end the
  innermost open `(` stands before one.
-/

namespace FormalLang

variable {cs ds before behind : List Char} {c : Char}

/-! ## 1. Matching texts -/

/-- **A text whose parentheses match.** -/
inductive Paired : List Char → Prop where
  | nil : Paired []
  | other {c : Char} {cs : List Char} (hopen : c ≠ '(') (hclose : c ≠ ')') (h : Paired cs) :
      Paired (c :: cs)
  | group {inner cs : List Char} (hinner : Paired inner) (h : Paired cs) :
      Paired ('(' :: (inner ++ ')' :: cs))

theorem Paired.append (h : Paired cs) (h' : Paired ds) : Paired (cs ++ ds) := by
  induction h with
  | nil => exact h'
  | other hopen hclose _ ih => exact .other hopen hclose ih
  | group hinner _ _ ih =>
    rw [List.cons_append, List.append_assoc, List.cons_append]
    exact .group hinner ih

theorem Paired.count_eq (h : Paired cs) : cs.count ')' = cs.count '(' := by
  induction h with
  | nil => rfl
  | other hopen hclose _ ih => rwa [List.count_cons_of_ne hopen, List.count_cons_of_ne hclose]
  | group _ _ ihinner ih =>
    rw [List.count_cons_of_ne (by decide), List.count_cons_self, List.count_append,
      List.count_append, List.count_cons_self, List.count_cons_of_ne (by decide)]
    omega

/-- **No beginning closes more than it opens.** -/
theorem Paired.count_take_le (h : Paired cs) :
    ∀ n, (cs.take n).count ')' ≤ (cs.take n).count '(' := by
  induction h with
  | nil =>
    intro n
    rw [List.take_nil]
    exact Nat.le_refl _
  | other hopen hclose _ ih =>
    rintro (_ | n)
    · exact Nat.le_refl _
    · rw [List.take_succ_cons, List.count_cons_of_ne hopen, List.count_cons_of_ne hclose]
      exact ih n
  | @group inner cs hinner _ ihinner ih =>
    rintro (_ | n)
    · exact Nat.le_refl _
    · rw [List.take_succ_cons, List.take_append, List.count_cons_of_ne (by decide),
        List.count_cons_self, List.count_append, List.count_append]
      rcases hbehind : n - inner.length with _ | k
      · have hinside := ihinner n
        rw [List.take_zero, List.count_nil, List.count_nil]
        omega
      · -- the group is closed in this beginning
        have hwhole := hinner.count_eq
        have hrest := ih k
        rw [List.take_of_length_le (by omega), List.take_succ_cons, List.count_cons_self,
          List.count_cons_of_ne (by decide)]
        omega

theorem Paired.count_le_of_append (h : Paired (cs ++ ds)) : cs.count ')' ≤ cs.count '(' := by
  have hle := h.count_take_le cs.length
  rwa [List.take_left] at hle

/-- Behind a matching beginning nothing closes a group. -/
theorem Paired.not_closed (h : Paired cs) : ¬ Paired (cs ++ ')' :: ds) := by
  intro hwhole
  rw [List.append_cons] at hwhole
  have hle := hwhole.count_le_of_append
  have heq := h.count_eq
  rw [List.count_append, List.count_append, List.count_singleton_self,
    List.count_singleton, if_neg (by decide)] at hle
  omega

/-- Before a matching end nothing opens a group. -/
theorem Paired.not_opened (h : Paired ds) : ¬ Paired (cs ++ '(' :: ds) := by
  intro hwhole
  have hle := hwhole.count_le_of_append
  have heq := hwhole.count_eq
  have hend := h.count_eq
  rw [List.count_append, List.count_append, List.count_cons_self,
    List.count_cons_of_ne (by decide)] at heq
  omega

/-! ## 2. Partners -/

variable {p q i : Nat}

/-- **Whether the parentheses at two positions are partners.** -/
def Partners (cs : List Char) (p q : Nat) : Prop :=
  ∃ before inner after, cs = before ++ '(' :: (inner ++ ')' :: after) ∧ Paired inner ∧
    before.length = p ∧ p + 1 + inner.length = q

/-- Whether the parenthesis at a position has a partner. -/
def HasPartner (cs : List Char) (i : Nat) : Prop := ∃ j, Partners cs i j ∨ Partners cs j i

/-- **Whether a parenthesis without partner is at a position.** -/
def LoneAt (paren : Char) (cs : List Char) (i : Nat) : Prop :=
  cs[i]? = some paren ∧ ¬ HasPartner cs i

theorem Partners.append_right (h : Partners cs p q) (ds : List Char) : Partners (cs ++ ds) p q := by
  obtain ⟨before, inner, after, rfl, hinner, hp, hq⟩ := h
  exact ⟨before, inner, after ++ ds, by simp, hinner, hp, hq⟩

theorem Partners.append_left (h : Partners cs p q) (ds : List Char) :
    Partners (ds ++ cs) (ds.length + p) (ds.length + q) := by
  obtain ⟨before, inner, after, rfl, hinner, rfl, rfl⟩ := h
  exact ⟨ds ++ before, inner, after, (List.append_assoc _ _ _).symm, hinner, List.length_append,
    by omega⟩

theorem HasPartner.append_right (h : HasPartner cs i) (ds : List Char) :
    HasPartner (cs ++ ds) i := by
  obtain ⟨j, h | h⟩ := h
  · exact ⟨j, .inl (h.append_right ds)⟩
  · exact ⟨j, .inr (h.append_right ds)⟩

theorem HasPartner.append_left (h : HasPartner cs i) (ds : List Char) :
    HasPartner (ds ++ cs) (ds.length + i) := by
  obtain ⟨j, h | h⟩ := h
  · exact ⟨_, .inl (h.append_left ds)⟩
  · exact ⟨_, .inr (h.append_left ds)⟩

theorem HasPartner.cons (h : HasPartner cs i) (c : Char) : HasPartner (c :: cs) (i + 1) := by
  have hmoved := h.append_left [c]
  rwa [List.singleton_append, List.length_singleton, Nat.add_comm] at hmoved

/-- A character is before another one, or it is this one, or it is behind it. -/
theorem getElem?_append_cons_cases {d : Char} (h : (before ++ c :: behind)[i]? = some d) :
    before[i]? = some d ∨ (before.length = i ∧ c = d) ∨
      ∃ j, before.length + (j + 1) = i ∧ behind[j]? = some d := by
  rcases Nat.lt_trichotomy i before.length with hi | rfl | hi
  · rw [List.getElem?_append_left hi] at h
    exact .inl h
  · rw [List.getElem?_append_right (Nat.le_refl _), Nat.sub_self] at h
    exact .inr (.inl ⟨rfl, Option.some.inj h⟩)
  · obtain ⟨j, rfl⟩ := Nat.exists_eq_add_of_lt hi
    rw [List.getElem?_append_right (by omega), Nat.add_assoc, Nat.add_sub_cancel_left] at h
    exact .inr (.inr ⟨j, (Nat.add_assoc _ _ _).symm, h⟩)

/-- **Every parenthesis of a matching text has a partner.** -/
theorem Paired.hasPartner (h : Paired cs) (hc : c = '(' ∨ c = ')') :
    ∀ {i : Nat}, cs[i]? = some c → HasPartner cs i := by
  induction h with
  | nil => nofun
  | @other d cs hopen hclose _ ih =>
    rintro (_ | i) hi
    · obtain rfl := Option.some.inj hi
      exact absurd hc (not_or.mpr ⟨hopen, hclose⟩)
    · exact (ih hi).cons d
  | @group inner cs hinner _ ihinner ih =>
    have hpartners : Partners ('(' :: (inner ++ ')' :: cs)) 0 (inner.length + 1) :=
      ⟨[], inner, cs, rfl, hinner, rfl, by omega⟩
    rintro (_ | i) hi
    · exact ⟨_, .inl hpartners⟩
    · rcases getElem?_append_cons_cases hi with hi | ⟨rfl, -⟩ | ⟨j, rfl, hj⟩
      · exact ((ihinner hi).append_right _).cons _
      · exact ⟨_, .inr hpartners⟩
      · exact (((ih hj).cons _).append_left inner).cons _

/-- A `)` that has a partner stands behind it and a matching text. -/
theorem Partners.closing (h : Partners cs p q) : ∃ before inner after,
    cs = (before ++ '(' :: inner) ++ ')' :: after ∧ Paired inner ∧
      (before ++ '(' :: inner).length = q := by
  obtain ⟨before, inner, after, rfl, hinner, rfl, rfl⟩ := h
  refine ⟨before, inner, after, by simp, hinner, ?_⟩
  rw [List.length_append, List.length_cons]
  omega

/-- **Behind a matching beginning a `)` has no partner.** -/
theorem Paired.lone_closing (h : Paired before) (behind : List Char) :
    LoneAt ')' (before ++ ')' :: behind) before.length := by
  refine ⟨by simp, ?_⟩
  rintro ⟨j, ⟨front, inner, after, hcs, -, hlength, -⟩ | hpartners⟩
  · obtain ⟨-, hparen⟩ := List.append_inj hcs hlength.symm
    exact absurd (List.cons.inj hparen).1 (by decide)
  · obtain ⟨front, inner, after, hcs, hinner, hlength⟩ := hpartners.closing
    obtain ⟨rfl, -⟩ := List.append_inj hcs hlength.symm
    exact hinner.not_opened h

/-- **Before a matching end a `(` has no partner.** -/
theorem Paired.lone_opening (h : Paired behind) (before : List Char) :
    LoneAt '(' (before ++ '(' :: behind) before.length := by
  refine ⟨by simp, ?_⟩
  rintro ⟨j, ⟨front, inner, after, hcs, hinner, hlength, -⟩ | hpartners⟩
  · obtain ⟨-, hbehind⟩ := List.append_inj hcs hlength.symm
    rw [(List.cons.inj hbehind).2] at h
    exact hinner.not_closed h
  · obtain ⟨front, inner, after, hcs, -, hlength⟩ := hpartners.closing
    obtain ⟨-, hparen⟩ := List.append_inj hcs hlength.symm
    exact absurd (List.cons.inj hparen).1 (by decide)

/-! ## 3. Texts with open groups -/

/-- **A text that leaves some parentheses open**, with their positions, innermost first. -/
inductive Opened : List Char → List Nat → Prop where
  | paired {cs : List Char} (h : Paired cs) : Opened cs []
  | opening {before cs : List Char} {ps : List Nat} (h : Opened before ps) (hbehind : Paired cs) :
      Opened (before ++ '(' :: cs) (before.length :: ps)

variable {ps : List Nat}

theorem Opened.append (h : Opened cs ps) (h' : Paired ds) : Opened (cs ++ ds) ps := by
  cases h with
  | paired h => exact .paired (h.append h')
  | opening h hbehind =>
    rw [List.append_assoc, List.cons_append]
    exact .opening h (hbehind.append h')

/-- A `)` is the partner of the innermost `(` that is open. -/
theorem Opened.close (h : Opened cs (p :: ps)) : Opened (cs ++ [')']) ps := by
  cases h with
  | opening h hbehind =>
    rw [List.append_assoc, List.cons_append]
    exact h.append (.group hbehind .nil)

theorem Opened.closing_hasPartner (h : Opened cs ps) :
    ∀ {i : Nat}, cs[i]? = some ')' → HasPartner cs i := by
  induction h with
  | paired h => exact h.hasPartner (.inr rfl)
  | @opening before cs ps _ hbehind ih =>
    intro i hi
    rcases getElem?_append_cons_cases hi with hi | ⟨-, hparen⟩ | ⟨j, rfl, hj⟩
    · exact (ih hi).append_right _
    · exact absurd hparen (by decide)
    · exact ((hbehind.hasPartner (.inr rfl) hj).cons _).append_left before

/-! ## 4. The check -/

theorem Text.ne_of_isAlphanumeric {d : Char} (h : isAlphanumeric c = true)
    (hd : isAlphanumeric d = false) : c ≠ d := by
  rintro rfl
  rw [h] at hd
  contradiction

theorem Token.scanFrom_cons {cs : List Char} {position : Nat} {tokens : List Token}
    (h : scanFrom position (c :: cs) = .ok tokens) : ∃ k rest,
      tokens = ⟨k, position⟩ :: rest ∧ CharIs c k ∧ scanFrom (position + 1) cs = .ok rest := by
  rw [scanFrom] at h
  split at h
  · contradiction
  · rename_i token htoken
    split at h
    · contradiction
    · rename_i rest hrest
      have hkind := kind_of_ofChar htoken
      rw [ofChar_of_charIs hkind] at htoken
      obtain rfl := Except.ok.inj h
      exact ⟨_, rest, congrArg (· :: rest) (Except.ok.inj htoken).symm, hkind, hrest⟩

/-- The scan behind some characters goes on behind one more. -/
theorem Token.scanFrom_length_cons {cs front : List Char} {tokens : List Token}
    (h : scanFrom front.length (c :: cs) = .ok tokens) : ∃ k rest,
      tokens = ⟨k, front.length⟩ :: rest ∧ CharIs c k ∧
        scanFrom (front ++ [c]).length cs = .ok rest := by
  obtain ⟨k, rest, htokens, hk, hrest⟩ := scanFrom_cons h
  refine ⟨k, rest, htokens, hk, ?_⟩
  rw [List.length_append]
  exact hrest

namespace Postfix

/-- **What the check says of a text**, with what has been read in front. -/
theorem checkParens_cases : ∀ {cs front : List Char} {tokens : List Token} {opened : List Nat},
    Token.scanFrom front.length cs = .ok tokens → Opened front opened →
      (checkParens opened tokens = .ok () ∧ Paired (front ++ cs)) ∨
      (∃ before behind, front ++ cs = before ++ ')' :: behind ∧ Paired before ∧
        checkParens opened tokens = .error (.unbalancedParen before.length)) ∨
      ∃ p ps, Opened (front ++ cs) (p :: ps) ∧
        checkParens opened tokens = .error (.unbalancedParen p)
  | [], front, tokens, opened, hscan, hopened => by
    obtain rfl := Except.ok.inj hscan
    rw [List.append_nil]
    cases hopened with
    | paired h => exact .inl ⟨rfl, h⟩
    | opening h hbehind => exact .inr (.inr ⟨_, _, .opening h hbehind, rfl⟩)
  | c :: cs, front, tokens, opened, hscan, hopened => by
    obtain ⟨k, rest, rfl, hk, hnext⟩ := Token.scanFrom_length_cons hscan
    rw [List.append_cons, checkParens_cons]
    -- a character that is no parenthesis stays in the innermost group
    have hother : c ≠ '(' → c ≠ ')' → Opened (front ++ [c]) opened :=
      fun hopen hclose => hopened.append (.other hopen hclose .nil)
    cases hk with
    | openParen => exact checkParens_cases hnext (.opening hopened .nil)
    | closeParen =>
      rcases opened with _ | ⟨p, outer⟩
      · cases hopened with
        | paired h => exact .inr (.inl ⟨front, cs, (List.append_cons _ _ _).symm, h, rfl⟩)
      · exact checkParens_cases hnext hopened.close
    | union => exact checkParens_cases hnext (hother (by decide) (by decide))
    | star => exact checkParens_cases hnext (hother (by decide) (by decide))
    | epsilon => exact checkParens_cases hnext (hother (by decide) (by decide))
    | char halphanumeric _ =>
      exact checkParens_cases hnext (hother (Text.ne_of_isAlphanumeric halphanumeric (by decide))
        (Text.ne_of_isAlphanumeric halphanumeric (by decide)))

/-- **The check reports a parenthesis without partner**: the leftmost `)`, or else the rightmost
`(`.  Without report there is none. -/
theorem lone_of_checkParens {cs : List Char} {tokens : List Token}
    (hscan : Token.scan cs = .ok tokens) :
    (checkParens [] tokens = .ok () ∧ ∀ i c, c = '(' ∨ c = ')' → ¬ LoneAt c cs i) ∨
    (∃ q, checkParens [] tokens = .error (.unbalancedParen q) ∧ IsLeast {q | LoneAt ')' cs q} q) ∨
    ∃ p, checkParens [] tokens = .error (.unbalancedParen p) ∧ (∀ q, ¬ LoneAt ')' cs q) ∧
      IsGreatest {p | LoneAt '(' cs p} p := by
  rcases @checkParens_cases cs [] tokens [] hscan (.paired .nil) with
    ⟨hok, hpaired⟩ | ⟨before, behind, hcs, hbefore, herror⟩ | ⟨p, ps, hopened, herror⟩
  · exact .inl ⟨hok, fun i c hc hlone => hlone.2 (hpaired.hasPartner hc hlone.1)⟩
  · rw [List.nil_append] at hcs
    subst hcs
    refine .inr (.inl ⟨_, herror, hbefore.lone_closing behind, fun q hlone => ?_⟩)
    by_contra hlt
    have hinside : before[q]? = some ')' := by
      rw [← hlone.1, List.getElem?_append_left (Nat.lt_of_not_le hlt)]
    exact hlone.2 ((hbefore.hasPartner (.inr rfl) hinside).append_right _)
  · rw [List.nil_append] at hopened
    refine .inr (.inr ⟨p, herror, fun q hlone => hlone.2 (hopened.closing_hasPartner hlone.1), ?_⟩)
    cases hopened with
    | @opening before behind _ _ hbehind =>
      refine ⟨hbehind.lone_opening before, fun q hlone => ?_⟩
      by_contra hlt
      rcases getElem?_append_cons_cases hlone.1 with hq | ⟨rfl, -⟩ | ⟨j, rfl, hj⟩
      · obtain ⟨hq, -⟩ := List.getElem?_eq_some_iff.mp hq
        exact hlt (Nat.le_of_lt hq)
      · exact hlt (Nat.le_refl _)
      · exact hlone.2 (((hbehind.hasPartner (.inl rfl) hj).cons _).append_left before)

end Postfix

end FormalLang
