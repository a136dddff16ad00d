import ConceptSpace.Facts.Join
import ConceptSpace.Proofs.Sequence.Traversal

/-!
# Searches that are cut off

Nothing bounds the pivots in a row that a query takes, so that a query may go on for ever. A search
that is cut off at some depth always ends, and it is followed by induction on the depth. A query has
the outcome of every search that is not cut off (`answers_eq_of_answersWithin`), and it goes on for
ever just if every search is cut off (`answers_eq_endlessQuery_iff`).
-/

namespace ConceptSpace

namespace Search

variable {α β : Type}

/-! ## Outcomes below that of a search -/

/-- What a search comes to that may have been cut off, as compared to the one that goes on. -/
def Below (x : Except Error α) (y : Search α) : Prop :=
  x = .error .endlessQuery ∨ (y : Option (Except Error α)) = some x

namespace Below

theorem lift (x : Except Error α) : Below x (liftM x) :=
  .inr rfl

theorem bind {x : Except Error α} {y : Search α} {f : α → Except Error β} {g : α → Search β}
    (h : Below x y) (next : ∀ a, Below (f a) (g a)) : Below (x >>= f) (y >>= g) := by
  obtain rfl | run := h
  · exact .inl rfl
  · have step : (y >>= g : Search β) = (some x : Option _) >>= ExceptT.bindCont g :=
      congrArg (Option.bind · (ExceptT.bindCont g)) run
    cases x with
    | error e => exact .inr step
    | ok a => exact (next a).imp_right step.trans

theorem mapM {f : α → Except Error β} {g : α → Search β} (h : ∀ a, Below (f a) (g a))
    (l : List α) : Below (l.mapM f) (l.mapM g) := by
  induction l with
  | nil => exact .lift (.ok [])
  | cons a l ih =>
    rw [List.mapM_cons, List.mapM_cons]
    exact (h a).bind fun b => ih.bind fun bs => .lift (.ok (b :: bs))

end Below

/-! ## Outcomes that are reached -/

/-- Cut off late enough, searches come to the outcome of the one that goes on, if there is one. -/
def Reaches (x : Nat → Except Error α) (y : Search α) : Prop :=
  ∀ r, (y : Option (Except Error α)) = some r → ∃ enough, ∀ n, enough ≤ n → x n = r

namespace Reaches

theorem lift (x : Except Error α) : Reaches (fun _ => x) (liftM x) :=
  fun _ h => ⟨0, fun _ _ => Option.some.inj h⟩

theorem bind {x : Nat → Except Error α} {y : Search α} {f : Nat → α → Except Error β}
    {g : α → Search β} (h : Reaches x y) (next : ∀ a, Reaches (fun n => f n a) (g a)) :
    Reaches (fun n => x n >>= f n) (y >>= g) := by
  intro r reached
  obtain ⟨first, run, rest⟩ := Option.bind_eq_some_iff.mp reached
  obtain ⟨enough, same⟩ := h first run
  cases first with
  | error e =>
    obtain rfl := Option.some.inj rest
    exact ⟨enough, fun n hn => congrArg (· >>= f n) (same n hn)⟩
  | ok a =>
    obtain ⟨more, later⟩ := next a r rest
    exact ⟨max enough more, fun n hn =>
      (congrArg (· >>= f n) (same n (by omega))).trans (later n (by omega))⟩

theorem mapM {f : Nat → α → Except Error β} {g : α → Search β}
    (h : ∀ a, Reaches (fun n => f n a) (g a)) (l : List α) :
    Reaches (fun n => l.mapM (f n)) (l.mapM g) := by
  induction l with
  | nil => exact .lift (.ok [])
  | cons a l ih =>
    simp only [List.mapM_cons]
    exact (h a).bind fun b => ih.bind fun bs => .lift (.ok (b :: bs))

end Reaches

/-! ## Outcomes of searches that are deep enough -/

/-- The outcome of the searches that are not cut off, if there are any. -/
noncomputable def limit (x : Nat → Except Error α) : Except Error α :=
  open Classical in
  if h : ∃ depth, x depth ≠ .error .endlessQuery then x h.choose else .error .endlessQuery

end Search

namespace FactBase

open Storage
open Search (Below Reaches)

/-! ## Cutting searches off -/

/-- The answers to rules, as by `search`, but cut off after `depth` pivots in a row. -/
def answersWithin (base : FactBase) (t : Table) (partials : Bool) :
    Nat → List Concept → Except Error (List Bindings)
  | 0, _ => .error .endlessQuery
  | depth + 1, rules => do
    let (patterns, ground) := (Concept.distinct rules).partition (·.isPattern)
    if (base.existing t ground).length < ground.length then return []
    match ← pivot t patterns with
    | none => return [∅]
    | some (mask, rule, rest) =>
      match rule.match? mask with
      | none => return []
      | some places =>
        let answers ← (← maskEntries t mask).mapM fun values =>
          match bindEntry places values with
          | none => return []
          | some candidate => do
            if !partials && !candidate.isGround then return []
            if rest.isEmpty then return [candidate]
            let remaining ← liftSource (Source.substitute candidate.values rest)
            let completions ← answersWithin base t partials depth remaining
            return completions.filterMap candidate.merge?
        return answers.flatten.filter fun answer => partials || answer.isGround

variable {base : FactBase} {t : Table} {partials : Bool} {rules : List Concept}

/-- A search of any depth is cut off or comes to what the query comes to. -/
theorem below_search (depth : Nat) (rules : List Concept) :
    Below (base.answersWithin t partials depth rules) (base.search t partials rules) := by
  induction depth generalizing rules with
  | zero => exact .inl rfl
  | succ depth ih =>
    rw [answersWithin, search, List.partition_eq_filter_filter]
    simp only
    split
    · exact .lift (.ok [])
    refine (Below.lift _).bind fun chosen => ?_
    rcases chosen with _ | ⟨mask, rule, rest⟩
    · exact .lift (.ok [∅])
    simp only
    cases rule.match? mask with
    | none => exact .lift (.ok [])
    | some places =>
      refine (Below.lift _).bind fun entries => (Below.mapM (fun values => ?_) entries).bind
        fun answers => .lift (.ok _)
      cases bindEntry places values with
      | none => exact .lift (.ok [])
      | some candidate =>
        simp only
        split
        · exact .lift (.ok [])
        split
        · exact .lift (.ok [_])
        exact (Below.lift _).bind fun remaining => (ih remaining).bind fun completions =>
          .lift (.ok _)

/-- What a query comes to is reached at all depths from some depth on. -/
theorem reaches_search (rules : List Concept) :
    Reaches (fun depth => base.answersWithin t partials depth rules)
      (base.search t partials rules) := by
  refine search.partial_correctness base t partials
    (fun rules r => ∃ enough, ∀ n, enough ≤ n → base.answersWithin t partials n rules = r)
    (fun answer ih rules r reached => ?_) rules
  have later : ∃ enough, ∀ n, enough ≤ n → base.answersWithin t partials (n + 1) rules = r := by
    revert r
    change Reaches (fun depth => base.answersWithin t partials (depth + 1) rules) _
    simp only [answersWithin, List.partition_eq_filter_filter]
    split
    · exact .lift (.ok [])
    refine (Reaches.lift _).bind fun chosen => ?_
    rcases chosen with _ | ⟨mask, rule, rest⟩
    · exact .lift (.ok [∅])
    simp only
    cases rule.match? mask with
    | none => exact .lift (.ok [])
    | some places =>
      refine (Reaches.lift _).bind fun entries => (Reaches.mapM (fun values => ?_) entries).bind
        fun answers => .lift (.ok _)
      cases bindEntry places values with
      | none => exact .lift (.ok [])
      | some candidate =>
        simp only
        split
        · exact .lift (.ok [])
        split
        · exact .lift (.ok [_])
        exact (Reaches.lift _).bind fun remaining => .bind (ih remaining) fun completions =>
          .lift (.ok _)
  obtain ⟨enough, same⟩ := later
  refine ⟨enough + 1, fun n hn => ?_⟩
  obtain ⟨n, rfl⟩ : ∃ m, n = m + 1 := ⟨n - 1, by omega⟩
  exact same n (by omega)

/-! ## Queries -/

/-- A query has the outcome of every search that is not cut off. -/
theorem answers_eq_of_answersWithin {depth : Nat} {r : Except Error (List Bindings)}
    (e : base.answersWithin t partials depth rules = r) (ended : r ≠ .error .endlessQuery) :
    base.answers t rules partials = r := by
  subst e
  rw [answers, (below_search depth rules).resolve_left ended]
  rfl

theorem answers_eq_ok {depth : Nat} {found : List Bindings}
    (e : base.answersWithin t partials depth rules = .ok found) :
    base.answers t rules partials = .ok found :=
  answers_eq_of_answersWithin e nofun

/-- The outcome of a query that ends is that of searches which are deep enough. -/
theorem exists_answersWithin_eq {r : Except Error (List Bindings)}
    (e : base.answers t rules partials = r) (ended : r ≠ .error .endlessQuery) :
    ∃ enough, ∀ depth, enough ≤ depth → base.answersWithin t partials depth rules = r := by
  rw [answers] at e
  cases run : base.search t partials rules with
  | none =>
    rw [run] at e
    exact absurd e.symm ended
  | some outcome =>
    rw [run] at e
    obtain rfl : outcome = r := e
    exact reaches_search rules outcome run

/-- A query goes on for ever just if searches of all depths are cut off. -/
theorem answers_eq_endlessQuery_iff : base.answers t rules partials = .error .endlessQuery ↔
    ∀ depth, base.answersWithin t partials depth rules = .error .endlessQuery := by
  constructor
  · intro endless depth
    by_contra ended
    exact ended ((answers_eq_of_answersWithin rfl ended).symm.trans endless)
  · intro cut
    by_contra ended
    obtain ⟨enough, same⟩ := exists_answersWithin_eq rfl ended
    exact ended ((same enough (Nat.le_refl _)).symm.trans (cut enough))

/-- A query is what its searches come to. -/
theorem answers_eq_limit : base.answers t rules partials =
    Search.limit fun depth => base.answersWithin t partials depth rules := by
  rw [Search.limit]
  split
  case isTrue some => exact answers_eq_of_answersWithin rfl some.choose_spec
  case isFalse none => exact answers_eq_endlessQuery_iff.mpr (not_exists_not.mp none)

end FactBase

end ConceptSpace
