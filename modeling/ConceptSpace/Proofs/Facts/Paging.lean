import ConceptSpace.Proofs.Facts.History
import ConceptSpace.Proofs.Storage.Listing

/-!
# Walking through the facts page by page

To list all facts a few at a time, one asks for one more than wanted and, if it comes, starts the
next page from it. In a table that holds what its facts are stored as, a page that starts from a
fact is what follows in the list of all facts (`page_from`): the bound of the page is the storage
key of this fact, so nothing is skipped or repeated, although storage keys are not in the order of
the keys of facts. Since each page leaves less to list, the walk ends, and its pages put together
are all facts (`Reached.walk_spec`).
-/

namespace ConceptSpace.FactBase

open Storage

/-- The pages that one gets by asking for `n + 1` facts and, as long as that many come, going on
from the last of them, which is left to the next page. -/
inductive Walk (t : Table) (n : Nat) : Option String → List (List Concept) → Prop where
  | last {start : Option String} {facts : List Concept}
    (asked : page t { start, limit := some (n + 1) } = .ok facts) (few : facts.length ≠ n + 1) :
    Walk t n start [facts]
  | next {start : Option String} {facts : List Concept} {overlap : Concept}
    {pages : List (List Concept)}
    (asked : page t { start, limit := some (n + 1) } = .ok (facts ++ [overlap]))
    (full : facts.length = n) (rest : Walk t n (some overlap.key) pages) :
    Walk t n start (facts :: pages)

/-- What comes of a page decides how the walk goes on. -/
theorem Walk.unique {t : Table} {n : Nat} {start : Option String}
    {pages others : List (List Concept)} (h : Walk t n start pages)
    (h' : Walk t n start others) : pages = others := by
  induction h generalizing others with
  | last asked few =>
    cases h' with
    | last asked' _ => rw [Except.ok.inj (asked.symm.trans asked')]
    | next asked' full _ =>
      rw [Except.ok.inj (asked.symm.trans asked')] at few
      simp [full] at few
  | next asked full _ ih =>
    cases h' with
    | last asked' few =>
      rw [Except.ok.inj (asked'.symm.trans asked)] at few
      simp [full] at few
    | next asked' _ rest =>
      obtain ⟨rfl, same⟩ := List.append_inj' (Except.ok.inj (asked.symm.trans asked')) rfl
      obtain rfl := List.singleton_inj.mp same
      rw [ih rest]

/-! ## Pages of listed facts -/

/-- These are the facts of a table, in the order of their storage keys. -/
structure Lists (t : Table) (cs : List Concept) : Prop where
  storable : ∀ c ∈ cs, Storable c
  keys : t.listKeys { stem := Key.factStem } = cs.map Key.fact

namespace Lists

variable {t : Table} {cs rest : List Concept}

theorem pairwise (h : Lists t cs) : cs.Pairwise fun a b => Key.fact a < Key.fact b := by
  rw [← List.pairwise_map, ← h.keys]
  exact t.listKeys_stem_pairwise _

/-- A page with a limit lists the first of the facts that are not before its start. -/
theorem page_eq (h : Lists t cs) {start : Option String} (limit : Nat)
    (behind : (cs.filter fun c => (Page.listing { start }).isFromStart (Key.fact c)) = rest) :
    page t { start, limit := some limit } = .ok (rest.take limit) := by
  have listed : t.listKeys (Page.listing { start, limit := some limit }) =
      (rest.take limit).map Key.fact := by
    rw [Table.listKeys_eq]
    change ((t.listKeys { stem := Key.factStem }).filter fun key =>
      (Page.listing { start }).isFromStart key && true).take limit = _
    simp only [Bool.and_true]
    rw [h.keys, List.filter_map, ← List.map_take, Function.comp_def, behind]
  rw [page, listed, List.mapM_map]
  refine (Sequence.mapM_eq_ok (g := id) fun c hc => ?_).trans (by rw [List.map_id])
  have hc : c ∈ cs := List.mem_of_mem_filter (behind ▸ List.mem_of_mem_take hc)
  exact factOf_fact (h.storable c hc)

theorem page_none (h : Lists t cs) (limit : Nat) :
    page t { limit := some limit } = .ok (cs.take limit) :=
  h.page_eq limit (List.filter_eq_self.mpr fun _ _ => rfl)

/-- A page from a fact lists this fact and those behind it. -/
theorem page_from (h : Lists t cs) {c : Concept} {after : List Concept}
    (suffix : (c :: after) <:+ cs) (limit : Nat) :
    page t { start := some c.key, limit := some limit } = .ok ((c :: after).take limit) := by
  have ordered := h.pairwise
  refine h.page_eq limit ?_
  obtain ⟨before, rfl⟩ := suffix
  obtain ⟨-, behind, apart⟩ := List.pairwise_append.mp ordered
  have start : ∀ d : Concept, (Page.listing { start := some c.key }).isFromStart (Key.fact d) =
      decide (Key.fact c ≤ Key.fact d) := fun _ => rfl
  simp only [start]
  rw [List.filter_append, List.filter_eq_nil_iff.mpr, List.nil_append, List.filter_eq_self.mpr]
  · intro d hd
    rcases List.mem_cons.mp hd with rfl | hd
    · simp
    · simpa using Std.le_of_lt ((List.pairwise_cons.mp behind).1 d hd)
  · intro b hb
    simpa using apart b hb c (by simp)

/-- From each place on, the walk lists what is left. -/
theorem exists_walk (h : Lists t cs) {n : Nat} (pos : 0 < n) {start : Option String}
    (suffix : rest <:+ cs)
    (asked : page t { start, limit := some (n + 1) } = .ok (rest.take (n + 1))) :
    ∃ pages, Walk t n start pages ∧ pages.flatten = rest := by
  induction left : rest.length using Nat.strong_induction_on generalizing start rest with
  | h left' ih =>
    by_cases few : rest.length ≤ n
    · rw [List.take_of_length_le (by omega)] at asked
      exact ⟨[rest], .last asked (by omega), by simp⟩
    · obtain ⟨c, after, behind⟩ := List.exists_cons_of_length_pos
        (show 0 < (rest.drop n).length by rw [List.length_drop]; omega)
      have next : (c :: after) <:+ cs := behind ▸ (List.drop_suffix n rest).trans suffix
      have full : (rest.take n).length = n := List.length_take_of_le (by omega)
      have overlap : rest.take (n + 1) = rest.take n ++ [c] := by
        rw [List.take_add, behind]
        rfl
      -- The overlap is listed again, so the walk gets on only because a page has another fact.
      have fewer : (c :: after).length < left' := by
        rw [← behind, List.length_drop]
        omega
      obtain ⟨pages, walk, flat⟩ := ih _ fewer next (h.page_from next (n + 1)) rfl
      refine ⟨rest.take n :: pages, .next (overlap ▸ asked) full walk, ?_⟩
      rw [List.flatten_cons, flat, ← behind, List.take_append_drop]

end Lists

/-- The facts that a table holds can be put in the order of their storage keys. -/
theorem Indexed.exists_lists {t : Table} {facts : Finset Concept} (h : Indexed t facts) :
    ∃ cs, Lists t cs ∧ ∀ c, c ∈ cs ↔ c ∈ facts := by
  have read : ∀ key ∈ t.listKeys { stem := Key.factStem },
      ∃ c, factOf key = .ok c ∧ c ∈ facts ∧ key = Key.fact c := by
    intro key hk
    obtain ⟨stored, under⟩ := Table.mem_listKeys_stem.mp hk
    obtain ⟨c, hc, rfl⟩ := exists_of_factStem_prefix (h.mem_table_iff.mp stored) under
    exact ⟨c, factOf_fact (h.storable c hc), hc, rfl⟩
  obtain ⟨cs, -, related⟩ := Sequence.exists_mapM_eq_ok read
  have among : ∀ c ∈ cs, c ∈ facts := by
    intro c hc
    obtain ⟨_, -, hc, -⟩ := Sequence.exists_of_mem_right related hc
    exact hc
  have keys : t.listKeys { stem := Key.factStem } = cs.map Key.fact :=
    List.forall₂_eq_eq_eq ▸ List.forall₂_map_right_iff.mpr (related.imp fun _ _ h => h.2)
  refine ⟨cs, ⟨fun c hc => h.storable c (among c hc), keys⟩, fun c => ⟨among c, fun hc => ?_⟩⟩
  have listed : Key.fact c ∈ t.listKeys { stem := Key.factStem } :=
    Table.mem_listKeys_stem.mpr ⟨(h.mem_iff.mp hc).2, by simp [Key.fact]⟩
  rw [keys] at listed
  obtain ⟨d, hd, same⟩ := List.mem_map.mp listed
  rwa [← h.injOn_fact (among d hd) hc same]

/-! ## Main statement -/

/-- Whatever was added and removed, and however many facts are wanted at a time, there is one walk
through the pages. It ends, and its pages put together are the stored facts, each of them once and
in the order of the bytes of their storage keys. -/
theorem Reached.walk_spec {kind : Concept → Prop} {s : Store} (h : Reached kind s) {n : Nat}
    (pos : 0 < n) : ∃ pages, (∀ others, Walk s.table n none others ↔ others = pages) ∧
      pages.flatten.map Key.fact = s.table.listKeys { stem := Key.factStem } ∧
      (pages.flatten.Pairwise fun a b => Text.bytesOf (Key.fact a) < Text.bytesOf (Key.fact b)) ∧
      ∀ c, c ∈ pages.flatten ↔ c.Clean ∧ contains s.table c = true := by
  obtain ⟨-, -, facts, indexed, -⟩ := h.exists_indexed
  obtain ⟨cs, lists, mem⟩ := indexed.exists_lists
  obtain ⟨pages, walk, rfl⟩ := lists.exists_walk pos (List.suffix_refl cs) (lists.page_none (n + 1))
  refine ⟨pages, fun others => ⟨fun other => other.unique walk, fun e => e ▸ walk⟩,
    lists.keys.symm, ?_, fun c => (mem c).trans indexed.mem_iff⟩
  exact lists.pairwise.imp fun before => Text.bytesOf_lt_iff.mpr before

/-- A fact that is behind its first part in the order of keys, and before it in that of storage
keys. -/
private def listedPair : Concept :=
  .compound [.atom "a", .atom "b"]

private def listedStore : Store :=
  (Change.run ⟨"home", 2⟩ (Store.create .memory) (.add [listedPair])).2

theorem listedStore_walk :
    Reached (fun _ => True) listedStore ∧ 0 < 1 ∧
      ∃ pages, Walk listedStore.table 1 none pages ∧ pages.flatten.map Key.fact =
        ["concept:a%20b%7C%7C", "concept:a%7C%7C", "concept:b%7C%7C"] := by
  have storable : Storable listedPair := ⟨by decide +kernel, by decide +kernel⟩
  have small : listedStore.table.size < Text.wordCount := by decide +kernel
  have reached : Reached (fun _ => True) listedStore :=
    .change _ _ (.create .memory) (by simpa [Change.concepts] using storable) (by simp) small
  obtain ⟨pages, walks, keys, -⟩ := reached.walk_spec Nat.one_pos
  refine ⟨reached, Nat.one_pos, pages, (walks pages).mpr rfl, keys.trans ?_⟩
  decide +kernel

end ConceptSpace.FactBase
