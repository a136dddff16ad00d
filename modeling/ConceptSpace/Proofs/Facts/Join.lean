import ConceptSpace.Proofs.Facts.Pivot
import ConceptSpace.Proofs.Facts.Search
import ConceptSpace.Proofs.Pattern.Substitution

/-!
# Queries find the solutions

The answers to rules over a fact base that was reached with plain facts are the solutions of the
rules, each listed once (`Reached.answers_iff_solves`). The proof is by induction on the number of
pivots in a row; what one index entry of the pivot leads to is `exists_answersOfEntry_eq`.
-/

namespace ConceptSpace.FactBase

open Storage
open ConceptSpace.Concept (IsPlainFact IsRule IsEntry)
open Bindings (Extends)

/-! ## One pivot -/

/-- Bindings completed by answers to the remaining rules. -/
def completedBy (answer : List Concept → Except Error (List Bindings)) (candidate : Bindings)
    (rest : List Concept) : Except Error (List Bindings) := do
  if rest.isEmpty then return [candidate]
  let remaining ← liftSource (Source.substitute candidate.values rest)
  let completions ← answer remaining
  return completions.filterMap candidate.merge?

/-- The answers that an index entry of a pivot leads to, partial ones among them if they are asked
for. -/
def answersOfEntry (base : FactBase) (t : Table) (partials : Bool) (depth : Nat) (places : Bindings)
    (rest values : List Concept) : Except Error (List Bindings) :=
  match bindEntry places values with
  | none => return []
  | some candidate => do
    if !partials && !candidate.isGround then return []
    completedBy (base.answersWithin t partials depth) candidate rest

/-- There is no answer if a rule without variables is no fact. -/
theorem answersWithin_of_missing {base : FactBase} {t : Table} {partials : Bool} {depth : Nat}
    {rules patterns ground : List Concept}
    (split : (Concept.distinct rules).partition (·.isPattern) = (patterns, ground))
    (missing : (base.existing t ground).length < ground.length) :
    base.answersWithin t partials (depth + 1) rules = .ok [] := by
  rw [answersWithin, split]
  simp only [if_pos missing]
  rfl

theorem answers_of_missing {base : FactBase} {t : Table} {partials : Bool}
    {rules patterns ground : List Concept}
    (split : (Concept.distinct rules).partition (·.isPattern) = (patterns, ground))
    (missing : (base.existing t ground).length < ground.length) :
    base.answers t rules partials = .ok [] :=
  have e : base.answersWithin t partials 1 rules = .ok [] := answersWithin_of_missing split missing
  answers_eq_ok e

/-- The answers to rules that include no pivot. -/
theorem answersWithin_of_pivot_none {base : FactBase} {t : Table} {partials : Bool} {depth : Nat}
    {rules patterns ground : List Concept}
    (split : (Concept.distinct rules).partition (·.isPattern) = (patterns, ground))
    (stored : ¬ (base.existing t ground).length < ground.length)
    (none : pivot t patterns = .ok .none) :
    base.answersWithin t partials (depth + 1) rules = .ok [∅] := by
  rw [answersWithin, split]
  simp only [if_neg stored, none]
  rfl

/-- The answers to rules are those that the index entries of the pivot lead to. -/
theorem answersWithin_eq_of_pivot {base : FactBase} {t : Table} {partials : Bool} {depth : Nat}
    {rules patterns ground rest : List Concept} {rule : Concept} {places : Bindings}
    {entries : List (List Concept)}
    (split : (Concept.distinct rules).partition (·.isPattern) = (patterns, ground))
    (stored : ¬ (base.existing t ground).length < ground.length)
    (chosen : pivot t patterns = .ok (some (rule.mask, rule, rest)))
    (found : rule.match? rule.mask = some places) (listed : maskEntries t rule.mask = .ok entries) :
    base.answersWithin t partials (depth + 1) rules = (do
      let answers ← entries.mapM (base.answersOfEntry t partials depth places rest)
      return answers.flatten.filter fun answer => partials || answer.isGround) := by
  rw [answersWithin, split]
  simp only [if_neg stored, chosen, Sequence.ok_bind, found, listed]
  rfl

theorem answersWithin_of_pivot {base : FactBase} {t : Table} {partials : Bool} {depth : Nat}
    {rules patterns ground rest : List Concept} {rule : Concept} {places : Bindings}
    {entries : List (List Concept)} {answers : List (List Bindings)}
    (split : (Concept.distinct rules).partition (·.isPattern) = (patterns, ground))
    (stored : ¬ (base.existing t ground).length < ground.length)
    (chosen : pivot t patterns = .ok (some (rule.mask, rule, rest)))
    (found : rule.match? rule.mask = some places) (listed : maskEntries t rule.mask = .ok entries)
    (answered : entries.mapM (base.answersOfEntry t partials depth places rest) = .ok answers) :
    base.answersWithin t partials (depth + 1) rules =
      .ok (answers.flatten.filter fun answer => partials || answer.isGround) := by
  rw [answersWithin_eq_of_pivot split stored chosen found listed, answered]
  rfl

theorem isGround_iff {b : Bindings} :
    b.isGround = true ↔ b.AllValues fun value => value.isVariable = false := by
  rw [Bindings.isGround, Bindings.range, List.all_map, List.all_eq_true]
  constructor
  · intro h name value e
    simpa using h (name, value) (Std.ExtTreeMap.mem_toList_iff_getElem?_eq_some.mpr e)
  · rintro h ⟨name, value⟩ hp
    simpa using h (Std.ExtTreeMap.mem_toList_iff_getElem?_eq_some.mp hp)

theorem isGround_of_allValues {b : Bindings} (h : b.AllValues Concept.IsGround) :
    b.isGround = true := by
  refine isGround_iff.mpr fun name value e => ?_
  have ground := h e
  cases value with
  | compound => rfl
  | atom word => simpa [Concept.IsGround, Concept.vars_atom, Concept.isVariable] using ground

/-- Bindings are put into concepts without a fault, unless `&` occurs. -/
theorem liftSource_substitute_eq {b : Bindings} {cs : List Concept} (hc : ∀ c ∈ cs, c.IsSelfFree)
    (hb : b.AllValues Concept.IsSelfFree) : liftSource (Source.substitute b.values cs) =
      .ok (Concept.distinct (cs.map (Concept.instantiate b))) := by
  rw [Source.substitute_eq (fun c h => (hc c h).clean) (fun _ _ e => (hb e).clean)
    (fun c h => (hc c h).noSelf) (fun _ _ e => (hb e).noSelf)]
  rfl

/-- Bindings of one rule are completed by the answers to the instances of the other rules. -/
theorem completedBy_of_ne_nil {answer : List Concept → Except Error (List Bindings)}
    {cand : Bindings} {rest : List Concept} {completions : List Bindings} (others : rest ≠ [])
    (hr : ∀ r ∈ rest, r.IsSelfFree) (hb : cand.AllValues Concept.IsSelfFree)
    (e : answer (Concept.distinct (rest.map (Concept.instantiate cand))) = .ok completions) :
    completedBy answer cand rest = .ok (completions.filterMap cand.merge?) := by
  rw [completedBy, if_neg (by simpa using others), liftSource_substitute_eq hr hb]
  simp only [Sequence.ok_bind, e]
  rfl

/-- Bindings are completed alike by answers that are the same for the remaining rules. -/
theorem completedBy_congr {answer other : List Concept → Except Error (List Bindings)}
    {cand : Bindings} {rest : List Concept} (same : ∀ remaining,
      Source.substitute cand.values rest = .ok remaining → answer remaining = other remaining) :
    completedBy answer cand rest = completedBy other cand rest := by
  unfold completedBy
  cases e : Source.substitute cand.values rest with
  | error => rfl
  | ok remaining =>
    have lifted : liftSource (.ok remaining) = .ok remaining := rfl
    simp only [lifted, Sequence.ok_bind, same remaining e]

section Pivot

variable {t : Table} {facts : Finset Concept} (plain : ∀ c ∈ facts, IsPlainFact c)
  {rule c : Concept} {rest values : List Concept} (isRule : ∀ r ∈ rule :: rest, IsRule r)

section Completion

variable {answer : List Concept → Except Error (List Bindings)}
  (answered : ∀ rules : List Concept, (∀ r ∈ rules, IsRule r) → rules.length ≤ rest.length →
    ∃ found, answer rules = .ok found ∧ found.Nodup ∧
      ∀ b, b ∈ found ↔ Solves (· ∈ facts) rules b)

include plain isRule answered in
/-- If the remaining rules are answered by their solutions, bindings of one rule are completed to
the solutions that extend them. -/
theorem exists_completedBy_eq {cand : Bindings} (extended : Extends rule.vars ∅ cand)
    (plainCand : cand.AllValues IsPlainFact) (fact : rule.instantiate cand ∈ facts) :
    ∃ found, completedBy answer cand rest = .ok found ∧ found.Nodup ∧
      ∀ b, b ∈ found ↔ Solves (· ∈ facts) (rule :: rest) b ∧ cand.IsPartOf b := by
  cases rest with
  | nil =>
    refine ⟨[cand], rfl, by simp, fun b => ?_⟩
    rw [List.mem_singleton, solves_singleton_iff extended fact]
  | cons other rest =>
    have first : Solves (· ∈ facts) [rule] cand := ((solves_singleton_iff extended fact).mp rfl).1
    have together : ∀ r ∈ [rule] ++ other :: rest, IsRule r := isRule
    have instances := isRule_of_mem_rest plain together first
    have mem_remaining := fun r => Concept.mem_distinct (c := r) fun r hr => (instances r hr).clean
    obtain ⟨completions, e, nodup, solutions⟩ := answered
      (Concept.distinct ((other :: rest).map (Concept.instantiate cand)))
      (fun r hr => instances r ((mem_remaining r).mp hr))
      ((Concept.distinct_sublist _).length_le.trans (Nat.le_of_eq (List.length_map _)))
    obtain ⟨nodup, merged⟩ := solves_filterMap_merge plain together first nodup
      fun extra => (solutions extra).trans (solves_congr mem_remaining)
    refine ⟨_, ?_, nodup, merged⟩
    exact completedBy_of_ne_nil (by simp)
      (fun r hr => (isRule r (List.mem_cons_of_mem _ hr)).isSelfFree)
      (fun _ _ e => (plainCand e).isSelfFree) e

end Completion

include plain isRule in
/-- The answers that the entry of a fact leads to are the solutions that make the pivot this
fact. -/
theorem exists_answersOfEntry_eq {base : FactBase} {depth : Nat}
    (answered : ∀ rules : List Concept, (∀ r ∈ rules, IsRule r) → rules.length ≤ rest.length →
      ∃ found, base.answersWithin t false depth rules = .ok found ∧ found.Nodup ∧
        ∀ b, b ∈ found ↔ Solves (· ∈ facts) rules b)
    (hc : c ∈ facts) (entry : IsEntry c rule.mask values) :
    ∃ found, base.answersOfEntry t false depth rule.placesOf rest values = .ok found ∧ found.Nodup ∧
      ∀ b, b ∈ found ↔ Solves (· ∈ facts) (rule :: rest) b ∧ values = rule.placeValues b := by
  have pivot := isRule rule (by simp)
  have bound : ∀ b : Bindings, Solves (· ∈ facts) (rule :: rest) b →
      ∀ name ∈ rule.vars, b[name]? ≠ none := fun b solves name hn =>
    (solves.binds name).mpr ⟨rule, by simp, hn⟩
  cases candidate : bindEntry rule.placesOf values with
  | none =>
    refine ⟨[], by simp [answersOfEntry, candidate, pure, Except.pure], .nil, fun b => ?_⟩
    simp only [List.not_mem_nil, false_iff]
    rintro ⟨solves, rfl⟩
    obtain ⟨cand, e, -⟩ := exists_bindEntry (bound b solves)
    rw [e] at candidate
    simp at candidate
  | some cand =>
    obtain ⟨extended, plainCand, same, values'⟩ :=
      extends_of_bindEntry pivot (plain c hc) entry candidate
    have extends_iff : ∀ b, Solves (· ∈ facts) (rule :: rest) b →
        (cand.IsPartOf b ↔ values = rule.placeValues b) := by
      intro b solves
      constructor
      · intro part
        rw [values', Concept.placeValues_eq_of_isPartOf _ part]
        exact fun name hn => extended.ne_none_iff.mpr hn
      · rintro rfl
        obtain ⟨cand', e, part⟩ := exists_bindEntry (bound b solves)
        obtain rfl : cand' = cand := Option.some.inj (e.symm.trans candidate)
        exact part
    obtain ⟨found, e, nodup, completed⟩ :=
      exists_completedBy_eq plain isRule answered extended plainCand (same ▸ hc)
    refine ⟨found, ?_, nodup, fun b =>
      (completed b).trans (and_congr_right fun solves => extends_iff b solves)⟩
    rw [answersOfEntry, candidate]
    simp only [isGround_of_allValues fun _ _ e => (plainCand e).ground]
    exact e

variable {base : FactBase} {depth : Nat} (opened : ¬ rule.IsGround)
  (answered : ∀ rules : List Concept, (∀ r ∈ rules, IsRule r) → rules.length ≤ rest.length →
    ∃ found, base.answersWithin t false depth rules = .ok found ∧ found.Nodup ∧
      ∀ b, b ∈ found ↔ Solves (· ∈ facts) rules b)

include plain isRule opened answered in
/-- The index entries of the pivot together lead to all solutions. -/
theorem Indexed.exists_answers_eq (h : Indexed t facts) :
    ∃ entries answers, maskEntries t rule.mask = .ok entries ∧
      entries.mapM (base.answersOfEntry t false depth rule.placesOf rest) = .ok answers ∧
        answers.flatten.Nodup ∧ ∀ b, b ∈ answers.flatten ↔ Solves (· ∈ facts) (rule :: rest) b := by
  have pivot := isRule rule (by simp)
  obtain ⟨entries, listed, ordered, mem_entries⟩ :=
    h.exists_maskEntries_eq (pivot.clean.clean_mask)
  obtain ⟨answers, e, related⟩ := Sequence.exists_mapM_eq_ok fun values hv => by
    obtain ⟨c, hc, -, entry⟩ := (mem_entries values).mp hv
    exact exists_answersOfEntry_eq plain isRule answered hc entry
  have nodup : entries.Nodup := .of_map _ (ordered.imp String.ne_of_lt)
  refine ⟨entries, answers, listed, e, ?_, fun b => ?_⟩
  · refine Sequence.nodup_flatten related nodup rule.placeValues fun values found h => ?_
    exact ⟨h.1, fun b hb => ((h.2 b).mp hb).2.symm⟩
  · rw [List.mem_flatten]
    constructor
    · rintro ⟨found, hf, hb⟩
      obtain ⟨values, -, -, solutions⟩ := Sequence.exists_of_mem_right related hf
      exact ((solutions b).mp hb).1
    · intro solves
      have fact := solves.holds rule (by simp)
      have plainAll : b.AllValues IsPlainFact :=
        solves.allValues plain fun r hr => (isRule r hr).clean
      obtain ⟨masked, entry⟩ := isEntry_placeValues (fun name hn => (solves.binds name).mpr
        ⟨rule, by simp, hn⟩) pivot opened plainAll (h.storable _ fact)
      obtain ⟨found, hf, -, solutions⟩ := Sequence.exists_of_mem_left related
        ((mem_entries _).mpr ⟨_, fact, masked, entry⟩)
      exact ⟨found, hf, (solutions b).mpr ⟨solves, rfl⟩⟩

end Pivot

/-! ## All pivots -/

/-- Rules of a kind in two parts: those that are looked up by their masks, and those without
variables. -/
structure IsSplit (kind : Concept → Prop) (rules patterns ground : List Concept) : Prop where
  /-- The rules with variables. -/
  openRules : ∀ r ∈ patterns, kind r ∧ ¬ r.IsGround
  /-- The rules without variables. -/
  groundRules : ∀ r ∈ ground, kind r ∧ r.IsGround
  /-- No rule is lost. -/
  mem : ∀ r, r ∈ rules ↔ r ∈ patterns ++ ground
  /-- No rule has been added. -/
  length : patterns.length ≤ rules.length
  /-- No rule comes twice. -/
  nodup : patterns.Nodup

section Split

variable {kind : Concept → Prop} (clean : ∀ r, kind r → r.Clean)
  {rules patterns ground : List Concept}

include clean in
theorem exists_isSplit (form : ∀ r, kind r → (r.isPattern = true ↔ ¬ r.IsGround))
    (isKind : ∀ r ∈ rules, kind r) :
    ∃ patterns ground, (Concept.distinct rules).partition (·.isPattern) = (patterns, ground) ∧
      IsSplit kind rules patterns ground := by
  have mem_rules := fun r => Concept.mem_distinct (c := r) fun r hr => clean r (isKind r hr)
  refine ⟨_, _, List.partition_eq_filter_filter, fun r hr => ?_, fun r hr => ?_, fun r => ?_, ?_,
    ?_⟩
  · rw [List.mem_filter, mem_rules] at hr
    exact ⟨isKind r hr.1, (form r (isKind r hr.1)).mp hr.2⟩
  · rw [List.mem_filter, mem_rules] at hr
    refine ⟨isKind r hr.1, Classical.not_not.mp fun opened => ?_⟩
    simp [(form r (isKind r hr.1)).mpr opened] at hr
  · rw [List.mem_append, List.mem_filter, List.mem_filter, mem_rules]
    by_cases isPattern : r.isPattern = true <;> simp [isPattern]
  · exact (List.length_filter_le _ _).trans (Concept.distinct_sublist rules).length_le
  · exact (List.Nodup.of_map _ (Sequence.nodup_keys_distinctBy _ _)).filter _

include clean in
/-- Rules without variables have to be facts; the others say what is bound. -/
theorem IsSplit.solves_iff {facts : Concept → Prop} (split : IsSplit kind rules patterns ground)
    {b : Bindings} : Solves facts rules b ↔ (∀ r ∈ ground, facts r) ∧ Solves facts patterns b := by
  rw [← solves_append_ground (fun r hr => clean r (split.groundRules r hr).1)
    fun r hr => (split.groundRules r hr).2]
  exact solves_congr split.mem

end Split

variable {t : Table} {facts : Finset Concept}

/-- Rules without variables are looked up: none is missing just if all of them are facts. -/
theorem Indexed.existing_lt_iff (h : Indexed t facts) (base : FactBase) {ground : List Concept}
    (clean : ∀ r ∈ ground, r.Clean) :
    (base.existing t ground).length < ground.length ↔ ¬ ∀ r ∈ ground, r ∈ facts := by
  have stored : ∀ r ∈ ground, contains t r == true ↔ r ∈ facts := fun r hr => by
    rw [beq_iff_eq, h.contains_iff (clean r hr)]
  rw [existing, select_eq_filter, ← Nat.not_le, not_iff_not]
  constructor
  · intro all r hr
    rw [← List.filter_sublist.eq_of_length_le all] at hr
    exact (stored r (List.mem_filter.mp hr).1).mp (List.mem_filter.mp hr).2
  · intro all
    rw [List.filter_eq_self.mpr fun r hr => (stored r hr).mpr (all r hr)]

/-- What the answers to rules are, with or without partial ones: there is none if a rule without
variables is no fact, and nothing is bound without variables; else they are those that the index
entries of a pivot lead to. -/
theorem Indexed.answersWithin_split (h : Indexed t facts) (base : FactBase) (depth : Nat)
    {rules patterns ground : List Concept}
    (parts : (Concept.distinct rules).partition (·.isPattern) = (patterns, ground))
    (clean : ∀ r ∈ patterns, r.Clean) :
    ((base.existing t ground).length < ground.length ∧
        ∀ partials, base.answersWithin t partials (depth + 1) rules = .ok []) ∨
      ¬ (base.existing t ground).length < ground.length ∧
        ((patterns = [] ∧ ∀ partials, base.answersWithin t partials (depth + 1) rules = .ok [∅]) ∨
          ∃ rule rest places, (rule :: rest).Perm patterns ∧
            (∀ r ∈ patterns, UInt64.ofNat (total facts (Key.maskCount r.mask)) ≤
              UInt64.ofNat (total facts (Key.maskCount rule.mask))) ∧
            rule.match? rule.mask = some places ∧ ∀ partials entries answers,
              maskEntries t rule.mask = .ok entries →
                entries.mapM (base.answersOfEntry t partials depth places rest) = .ok answers →
                  base.answersWithin t partials (depth + 1) rules =
                    .ok (answers.flatten.filter fun answer => partials || answer.isGround)) := by
  by_cases missing : (base.existing t ground).length < ground.length
  · exact .inl ⟨missing, fun _ => answersWithin_of_missing parts missing⟩
  refine .inr ⟨missing, ?_⟩
  rcases h.exists_pivot_eq patterns with ⟨none, chosen⟩ | ⟨rule, rest, chosen, perm, most⟩
  · exact .inl ⟨none, fun _ => answersWithin_of_pivot_none parts missing (none ▸ chosen)⟩
  · have pivot := clean rule (perm.mem_iff.mp (by simp))
    have fits := (Concept.Covers.refl rule).isSome_match?_mask pivot pivot
    obtain ⟨places, found⟩ := Option.isSome_iff_exists.mp fits
    exact .inr ⟨rule, rest, places, perm, most, found, fun _ entries answers listed answered =>
      answersWithin_of_pivot parts missing chosen found listed answered⟩

/-- What the answers to rules of a kind are, if no partial ones are asked for. -/
theorem Indexed.answersWithin_cases (h : Indexed t facts) (base : FactBase) (depth : Nat)
    {kind : Concept → Prop} (clean : ∀ r, kind r → r.Clean) {rules patterns ground : List Concept}
    (parts : (Concept.distinct rules).partition (·.isPattern) = (patterns, ground))
    (split : IsSplit kind rules patterns ground) :
    (¬ (∀ r ∈ ground, r ∈ facts) ∧ base.answersWithin t false (depth + 1) rules = .ok []) ∨
      (∀ r ∈ ground, r ∈ facts) ∧
        (patterns = [] ∧ base.answersWithin t false (depth + 1) rules = .ok [∅] ∨
          ∃ rule rest places, (rule :: rest).Perm patterns ∧ rest.length < rules.length ∧
            (∀ r ∈ patterns, UInt64.ofNat (total facts (Key.maskCount r.mask)) ≤
              UInt64.ofNat (total facts (Key.maskCount rule.mask))) ∧
            rule.match? rule.mask = some places ∧ ∀ entries answers,
              maskEntries t rule.mask = .ok entries →
                entries.mapM (base.answersOfEntry t false depth places rest) = .ok answers →
                  base.answersWithin t false (depth + 1) rules =
                    .ok (answers.flatten.filter fun answer => false || answer.isGround)) := by
  have lookup := h.existing_lt_iff base fun r hr => clean r (split.groundRules r hr).1
  rcases h.answersWithin_split base depth parts fun r hr => clean r (split.openRules r hr).1 with
    ⟨missing, e⟩ | ⟨stored, found⟩
  · exact .inl ⟨lookup.mp missing, e false⟩
  · refine .inr ⟨Classical.not_not.mp (mt lookup.mpr stored), ?_⟩
    rcases found with ⟨none, e⟩ | ⟨rule, rest, places, perm, most, placed, found⟩
    · exact .inl ⟨none, e false⟩
    · refine .inr ⟨rule, rest, places, perm, ?_, most, placed, found false⟩
      have := perm.length_eq
      have := split.length
      rw [List.length_cons] at *
      omega

/-- A search for rules that is deep enough for all of them finds the solutions. -/
theorem Indexed.exists_answersWithin_eq (h : Indexed t facts) (plain : ∀ c ∈ facts, IsPlainFact c)
    (base : FactBase) {depth : Nat} {rules : List Concept} (isRule : ∀ r ∈ rules, IsRule r)
    (enough : rules.length < depth) :
    ∃ found, base.answersWithin t false depth rules = .ok found ∧ found.Nodup ∧
      ∀ b, b ∈ found ↔ Solves (· ∈ facts) rules b := by
  -- Every pivot uses up a rule with variables, so the induction is on the pivots that are left.
  induction depth generalizing rules with
  | zero => simp at enough
  | succ depth ih =>
    have clean : ∀ r, IsRule r → r.Clean := fun _ hr => hr.clean
    obtain ⟨patterns, ground, parts, split⟩ :=
      exists_isSplit clean (fun _ hr => hr.isPattern_iff) isRule
    have solves_iff : ∀ b, Solves (· ∈ facts) rules b ↔
        (∀ r ∈ ground, r ∈ facts) ∧ Solves (· ∈ facts) patterns b := fun _ => split.solves_iff clean
    rcases h.answersWithin_cases base depth clean parts split with ⟨missing, e⟩ | ⟨stored, found⟩
    · exact ⟨[], e, .nil, fun b => by simp [solves_iff, missing]⟩
    simp only [solves_iff, and_iff_right stored]
    rcases found with ⟨rfl, e⟩ | ⟨rule, rest, places, perm, shorter, -, placed, found⟩
    · exact ⟨[∅], e, by simp, fun b => by rw [List.mem_singleton, solves_nil_iff]⟩
    · have patterns : ∀ r ∈ rule :: rest, IsRule r ∧ ¬ r.IsGround := fun r hr =>
        split.openRules r (perm.mem_iff.mp hr)
      have pivot := (patterns rule (by simp)).1
      obtain rfl := Option.some.inj ((pivot.clean.match?_mask pivot.noSet).symm.trans placed)
      obtain ⟨entries, answers, listed, e, nodup, solutions⟩ :=
        h.exists_answers_eq plain (fun r hr => (patterns r hr).1) (patterns rule (by simp)).2
          fun others isRule fewer => ih isRule (by omega)
      have all : (answers.flatten.filter fun answer => false || answer.isGround) =
          answers.flatten := by
        refine List.filter_eq_self.mpr fun b hb => ?_
        have values := ((solutions b).mp hb).allValues plain fun r hr => (patterns r hr).1.clean
        exact isGround_of_allValues fun _ _ e => (values e).ground
      refine ⟨answers.flatten, (found entries answers listed e).trans (by rw [all]), nodup,
        fun b => ?_⟩
      rw [solutions]
      exact solves_congr fun r => perm.mem_iff

/-! ## Main statement -/

/-- A stored fact. Words that are no tokens could spell the key of another concept, so that only
clean concepts count. -/
def IsFact (t : Table) (c : Concept) : Prop :=
  c.Clean ∧ contains t c = true

theorem Indexed.isFact_iff (h : Indexed t facts) {c : Concept} : IsFact t c ↔ c ∈ facts :=
  h.mem_iff.symm

/-- The answers to rules are the solutions. -/
theorem Indexed.exists_answers_eq_ok (h : Indexed t facts) (plain : ∀ c ∈ facts, IsPlainFact c)
    (base : FactBase) {rules : List Concept} (isRule : ∀ r ∈ rules, IsRule r) :
    ∃ found, base.answers t rules = .ok found ∧ found.Nodup ∧
      ∀ b, b ∈ found ↔ Solves (· ∈ facts) rules b :=
  let ⟨found, e, solutions⟩ := h.exists_answersWithin_eq plain base isRule (Nat.lt_succ_self _)
  ⟨found, answers_eq_ok e, solutions⟩

/-- Whatever plain facts were added and removed, a query succeeds, and its answers are the solutions
of the rules over the stored facts, each listed once. -/
theorem Reached.answers_iff_solves {s : Store} (h : Reached IsPlainFact s) (base : FactBase)
    {rules : List Concept} (isRule : ∀ r ∈ rules, IsRule r) :
    ∃ found, base.answers s.table rules = .ok found ∧ found.Nodup ∧
      ∀ b, b ∈ found ↔ Solves (IsFact s.table) rules b := by
  obtain ⟨-, -, facts, indexed, kind⟩ := h.exists_indexed
  have plain := kind fun _ hc _ hp => hc.of_mem_parts hp
  obtain ⟨found, e, nodup, solutions⟩ := indexed.exists_answers_eq_ok plain base isRule
  have same : (IsFact s.table) = (· ∈ facts) := funext fun c => propext indexed.isFact_iff
  exact ⟨found, e, nodup, same ▸ solutions⟩

/-- Two facts that share a word. -/
private def edges : List Concept :=
  [.compound [.atom "from", .atom "middle"], .compound [.atom "middle", .atom "to"]]

private def edgeStore : Store :=
  ((Change.add edges).run ⟨"home", 2⟩ (Store.create .memory)).2

/-- Rules that ask for such a word. -/
private def edgeRules : List Concept :=
  [.compound [.atom "from", .atom "$mid"], .compound [.atom "$mid", .atom "to"]]

theorem edgeStore_answers : Reached IsPlainFact edgeStore ∧ (∀ r ∈ edgeRules, IsRule r) ∧
    ∃ found, FactBase.answers ⟨"home", 2⟩ edgeStore.table edgeRules = .ok found ∧
      (∅ : Bindings).insert "$mid" (.atom "middle") ∈ found := by
  have storable : ∀ c ∈ edges, Storable c := by
    simpa [edges] using ⟨⟨by decide +kernel, by decide +kernel⟩, by decide +kernel,
      by decide +kernel⟩
  have plain : ∀ c ∈ edges, IsPlainFact c := by
    simpa [edges] using ⟨⟨⟨by decide +kernel, by decide, by decide⟩, by decide +kernel⟩,
      ⟨by decide +kernel, by decide, by decide⟩, by decide +kernel⟩
  have isRule : ∀ r ∈ edgeRules, IsRule r := by
    simpa [edgeRules] using ⟨⟨⟨by decide +kernel, by decide, by decide⟩,
        .inr ⟨rfl, "from", by decide, by decide +kernel⟩⟩,
      ⟨by decide +kernel, by decide, by decide⟩, .inr ⟨rfl, "to", by decide, by decide +kernel⟩⟩
  have reached : Reached IsPlainFact edgeStore :=
    .add_create .memory ⟨"home", 2⟩ storable plain (by decide +kernel)
  have indexed := indexed_add_create .memory ⟨"home", 2⟩ storable
  obtain ⟨found, e, -, solutions⟩ := reached.answers_iff_solves ⟨"home", 2⟩ isRule
  refine ⟨reached, isRule, found, e, (solutions _).mpr ⟨fun name => ?_, ?_⟩⟩
  · have vars : ∀ r ∈ edgeRules, r.vars = ["$mid"] := by decide +kernel
    rcases eq_or_ne name "$mid" with rfl | other
    · exact iff_of_true (by simp) ⟨_, List.mem_cons_self .., by decide +kernel⟩
    · refine iff_of_false (by simp [other.symm]) ?_
      rintro ⟨r, hr, hn⟩
      exact other (by simpa [vars r hr] using hn)
  · have becomes : ∀ r ∈ edgeRules,
        r.instantiate ((∅ : Bindings).insert "$mid" (.atom "middle")) ∈ edges := by decide +kernel
    exact fun r hr => indexed.isFact_iff.mpr (List.mem_toFinset.mpr
      (List.mem_append_left _ (becomes r hr)))

end ConceptSpace.FactBase
