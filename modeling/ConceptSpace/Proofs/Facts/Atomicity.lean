import ConceptSpace.Proofs.Facts.Counting

/-!
# A removal happens as a whole or not at all

Whatever a store holds, a removal that fails leaves it as it was, its texts included
(`remove_atomic`). Two things can go wrong. The search for the facts to remove may come upon an edge
that cannot be read; nothing has been written then. Or the counter of a mask may turn out to be
undecodable when the index entries and the edges are deleted and other counters are lowered already
(`removal_succeeds_iff`); then the transaction drops what it has written.
-/

namespace ConceptSpace.FactBase

open Storage

variable {t : Table}

/-! ## When a transaction succeeds -/

/-- Lowering different counters succeeds if each of them can be read. -/
theorem lowerCounts_succeeds_iff {amounts : List (String × UInt64)}
    (nodup : (amounts.map (·.1)).Nodup) :
    (∃ lowered, (lowerCounts amounts).runDirect t = (.ok (), lowered)) ↔
      ∀ e ∈ amounts, ∃ current, storedCount t[e.1]? = .ok current := by
  constructor
  · rintro ⟨lowered, ok⟩
    induction amounts generalizing t with
    | nil => simp
    | cons e amounts ih =>
      obtain ⟨fresh, nodup⟩ := List.nodup_cons.mp nodup
      obtain ⟨current, read⟩ := exists_storedCount_of_lowerCounts ok
      obtain ⟨next, step, -, others⟩ := exists_runDirect_lowerCounts_cons read e.2 amounts
      intro d hd
      rcases List.mem_cons.mp hd with rfl | hd
      · exact ⟨current, read⟩
      · -- Another counter is still what it was when its turn comes.
        have apart : d.1 ≠ e.1 := fun same => fresh (List.mem_map.mpr ⟨d, hd, same⟩)
        rw [← others d.1 apart]
        exact ih nodup (step ▸ ok) d hd
  · intro readable
    have read : ∀ e ∈ amounts,
        storedCount t[e.1]? = .ok ((storedCount t[e.1]?).toOption.getD 0) := by
      intro e he
      obtain ⟨current, read⟩ := readable e he
      rw [read]
      rfl
    obtain ⟨lowered, run, -⟩ := runDirect_lowerCounts
      (fun key => (storedCount t[key]?).toOption.getD 0) nodup read
    exact ⟨lowered, run⟩

/-- The transaction that removes facts succeeds if the counters of all their masks can be read. -/
theorem removal_succeeds_iff {facts : List Concept} :
    (∃ n left, (removal facts).runDirect t = (.ok n, left)) ↔
      ∀ key ∈ facts.flatMap counterKeys, ∃ current, storedCount t[key]? = .ok current := by
  have lower : (∃ n left, (removal facts).runDirect t = (.ok n, left)) ↔
      ∃ lowered, (lowerCounts (tally (facts.flatMap counterKeys))).runDirect
        (t.eraseAll (Indexed.firstDeleted facts)) = (.ok (), lowered) := by
    constructor
    · rintro ⟨n, left, ok⟩
      obtain ⟨lowered, run, -⟩ := exists_of_removal ok
      exact ⟨lowered, run⟩
    · rintro ⟨lowered, run⟩
      exact ⟨_, _, Indexed.runDirect_removal run⟩
  rw [lower, lowerCounts_succeeds_iff (map_fst_tally_nodup _)]
  constructor
  · intro readable key hk
    have counted := readable _ (mem_tally_iff.mpr ⟨hk, rfl⟩)
    rwa [Indexed.getElem?_firstDeleted_of_counted t hk] at counted
  · intro readable e he
    have hk := (mem_tally_iff.mp he).1
    rw [Indexed.getElem?_firstDeleted_of_counted t hk]
    exact readable e.1 hk

/-- The transaction that removes facts fails if the counter of one of their masks cannot be read. -/
theorem removal_fails_iff {facts : List Concept} :
    (∃ fault, ((removal facts).runDirect t).1 = .error fault) ↔
      ∃ key ∈ facts.flatMap counterKeys, ∃ fault, storedCount t[key]? = .error fault := by
  constructor
  · rintro ⟨fault, failed⟩
    by_contra none
    have readable : ∀ key ∈ facts.flatMap counterKeys,
        ∃ current, storedCount t[key]? = .ok current := by
      intro key hk
      cases read : storedCount t[key]? with
      | ok current => exact ⟨current, rfl⟩
      | error fault => exact absurd ⟨key, hk, fault, read⟩ none
    obtain ⟨n, left, run⟩ := removal_succeeds_iff.mpr readable
    rw [run] at failed
    cases failed
  · rintro ⟨key, hk, fault, unreadable⟩
    rcases run : (removal facts).runDirect t with ⟨fault' | n, left⟩
    · exact ⟨fault', rfl⟩
    · obtain ⟨current, read⟩ := removal_succeeds_iff.mp ⟨n, left, run⟩ key hk
      cases unreadable.symm.trans read

/-! ## Main statement -/

/-- Whatever is stored, a removal that fails leaves the table and the texts as they were. It fails
just if the search for the facts to remove does, or if one of the counters that these facts are
counted by cannot be read. -/
theorem remove_atomic (base : FactBase) (cs : List Concept) (s : Store) :
    (∀ e s', base.remove cs s = (.error e, s') → s' = s) ∧
      ((∃ e s', base.remove cs s = (.error e, s')) ↔
        (∃ e, doomed s.table cs = .error e) ∨
          ∃ facts, doomed s.table cs = .ok facts ∧
            ∃ key ∈ facts.flatMap counterKeys, ∃ fault, storedCount s.table[key]? = .error fault) := by
  rcases remove_cases base cs s with ⟨e, failed, removed⟩ | ⟨facts, found, ⟨fault, failed, removed⟩ |
    ⟨n, left, run, removed⟩⟩
  · refine ⟨fun e' s' h => (Prod.mk.inj (h.symm.trans removed)).2, ?_⟩
    exact iff_of_true ⟨e, s, removed⟩ (.inl ⟨e, failed⟩)
  · refine ⟨fun e' s' h => (Prod.mk.inj (h.symm.trans removed)).2, ?_⟩
    exact iff_of_true ⟨_, s, removed⟩ (.inr ⟨facts, found, removal_fails_iff.mp ⟨fault, failed⟩⟩)
  · have done : ∀ e s', base.remove cs s ≠ (.error e, s') := fun e s' h => by
      cases removed.symm.trans h
    refine ⟨fun e s' h => absurd h (done e s'), iff_of_false ?_ ?_⟩
    · rintro ⟨e, s', h⟩
      exact done e s' h
    · rintro (⟨e, failed⟩ | ⟨facts', found', unreadable⟩)
      · cases found.symm.trans failed
      · obtain rfl := Except.ok.inj (found.symm.trans found')
        obtain ⟨fault, failed⟩ := removal_fails_iff.mpr unreadable
        rw [run] at failed
        cases failed

/-- A fact of two words. -/
private def twoWords : Concept :=
  .compound [.atom "a", .atom "b"]

/-- A store in which a counter of a fact is too short, and a text is attached to the fact. -/
private def miscounted : Store where
  backend := .durable
  table := Table.putAll ∅ ((marks twoWords).map (·, Value.marker) ++
    [(Key.maskCount (.compound [.atom "$0", .atom "b"]), [1, 2])])
  texts := (∅ : Std.ExtTreeMap String String).insert (Key.attached "home" twoWords) "note"

/-- A store in which an edge of a fact leads nowhere. -/
private def misled : Store where
  backend := .memory
  table := Table.putAll ∅ ((marks twoWords ++ [Key.containmentsOf twoWords ++ "x"]).map
    (·, Value.marker))

/-- The counter is met when the index entries have been deleted, the edge before anything has. -/
theorem miscounted_misled_unchanged :
    (∃ e, FactBase.remove ⟨"home", 2⟩ [twoWords] miscounted = (.error e, miscounted)) ∧
      ∃ e, FactBase.remove ⟨"home", 2⟩ [twoWords] misled = (.error e, misled) := by
  have unchanged : ∀ s, (FactBase.remove ⟨"home", 2⟩ [twoWords] s).1.toOption.isNone = true →
      ∃ e, FactBase.remove ⟨"home", 2⟩ [twoWords] s = (.error e, s) := by
    intro s failed
    rcases run : FactBase.remove ⟨"home", 2⟩ [twoWords] s with ⟨e | r, s'⟩
    · exact ⟨e, by rw [(remove_atomic _ _ s).1 e s' run]⟩
    · rw [run] at failed
      cases failed
  exact ⟨unchanged miscounted (by decide +kernel), unchanged misled (by decide +kernel)⟩

end ConceptSpace.FactBase
