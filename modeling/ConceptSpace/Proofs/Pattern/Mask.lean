import Mathlib.Data.List.Nodup
import ConceptSpace.Proofs.Pattern.Numbering

/-!
# Index entries under masks

Every mask of a clean concept is clean, has the variables `$0`, `$1`, … once each, and gives the
concept again when the values of its index entry are put in (`Clean.exists_isEntry`). So a mask and
the values under it determine the concept that they belong to.
-/

namespace ConceptSpace

open Shape (numberedName namesFrom)

namespace Bindings

/-! ## Values by number -/

/-- Concepts as the values of numbered variables, from a number on. -/
def numbered : Nat → List Concept → Bindings
  | _, [] => ∅
  | first, value :: values => (numbered (first + 1) values).insert (numberedName first) value

theorem getElem?_numbered_cons (first : Nat) (value : Concept) (values : List Concept)
    (name : String) : (numbered first (value :: values))[name]? =
      if numberedName first = name then some value else (numbered (first + 1) values)[name]? := by
  simp [numbered, Std.ExtTreeMap.getElem?_insert]

theorem getElem?_numbered (first : Nat) (values : List Concept) (i : Nat) :
    (numbered first values)[numberedName (first + i)]? = values[i]? := by
  induction values generalizing first i with
  | nil => simp [numbered]
  | cons value values ih =>
    rw [getElem?_numbered_cons]
    cases i with
    | zero => simp
    | succ i =>
      rw [if_neg (by rw [Shape.numberedName_inj]; omega),
        show first + (i + 1) = first + 1 + i by omega, ih, List.getElem?_cons_succ]

/-- Nothing but the numbers of values is bound. -/
theorem mem_namesFrom_of_getElem?_numbered {first : Nat} {values : List Concept} {name : String}
    (h : (numbered first values)[name]? ≠ none) : name ∈ namesFrom first values.length := by
  induction values generalizing first with
  | nil => simp [numbered] at h
  | cons value values ih =>
    rw [getElem?_numbered_cons] at h
    rw [List.length_cons, Nat.add_comm, ← Shape.namesFrom_append]
    split at h
    case isTrue e =>
      subst e
      simp [namesFrom]
    case isFalse => exact List.mem_append_right _ (ih h)

theorem mem_namesFrom_iff {first count : Nat} {name : String} :
    name ∈ namesFrom first count ↔ ∃ i < count, name = numberedName (first + i) := by
  simp only [namesFrom, List.mem_map, List.mem_range'_1]
  constructor
  · rintro ⟨n, ⟨low, high⟩, rfl⟩
    exact ⟨n - first, by omega, by rw [Nat.add_sub_cancel' low]⟩
  · rintro ⟨i, hi, rfl⟩
    exact ⟨first + i, by omega, rfl⟩

theorem nodup_namesFrom (first count : Nat) : (namesFrom first count).Nodup :=
  (List.nodup_range' ).map fun _ _ e => Shape.numberedName_inj.mp e

theorem getElem?_numbered_ne_none_iff (first : Nat) (values : List Concept) (name : String) :
    (numbered first values)[name]? ≠ none ↔ name ∈ namesFrom first values.length := by
  refine ⟨mem_namesFrom_of_getElem?_numbered, fun h => ?_⟩
  obtain ⟨i, hi, rfl⟩ := mem_namesFrom_iff.mp h
  simp [getElem?_numbered, hi]

theorem allValues_numbered {P : Concept → Prop} {first : Nat} {values : List Concept} :
    (numbered first values).AllValues P ↔ ∀ value ∈ values, P value := by
  constructor
  · intro h value hv
    obtain ⟨i, hi, rfl⟩ := List.mem_iff_getElem.mp hv
    have bound : (numbered first values)[numberedName (first + i)]? = some values[i] := by
      simp [getElem?_numbered]
    exact h bound
  · intro h name value e
    obtain ⟨i, -, rfl⟩ := mem_namesFrom_iff.mp
      (mem_namesFrom_of_getElem?_numbered (Option.ne_none_iff_exists'.mpr ⟨value, e⟩))
    rw [getElem?_numbered] at e
    exact h value (List.mem_of_getElem? e)

/-- Bindings of just the numbered variables are the values in the order of the numbers. -/
theorem eq_numbered {b : Bindings} {values : List Concept}
    (binds : ∀ name : String, b[name]? ≠ none ↔ name ∈ namesFrom 0 values.length)
    (h : ∀ i < values.length, b[numberedName i]? = values[i]?) : b = numbered 0 values := by
  ext1 name
  by_cases hn : name ∈ namesFrom 0 values.length
  · obtain ⟨i, hi, rfl⟩ := mem_namesFrom_iff.mp hn
    rw [getElem?_numbered, Nat.zero_add, h i hi]
  · have hb : b[name]? = none := by simpa [hn] using binds name
    have hv : (numbered 0 values)[name]? = none := by
      simpa [hn] using getElem?_numbered_ne_none_iff 0 values name
    rw [hb, hv]

end Bindings

namespace Concept

/-! ## Reading values by number -/

/-- The order in which the values of a mask are listed. -/
private def numberLe (a b : Nat × Concept) : Bool :=
  decide (a.1 ≤ b.1)

/-- Sorting by numbers that occur once each lists the numbers. -/
theorem map_fst_sortBy_numberLe {entries : List (Nat × Concept)} {count : Nat}
    (numbers : (entries.map (·.1)).Perm (List.range count)) :
    (Sequence.sortBy numberLe entries).map (·.1) = List.range count := by
  have sorted : (Sequence.sortBy numberLe entries).Pairwise (numberLe · ·) :=
    Sequence.pairwise_sortBy (fun x y => by simpa [numberLe] using Nat.le_total x.1 y.1)
      (fun x y z => by simpa [numberLe] using Nat.le_trans) entries
  refine (((Sequence.sortBy_perm numberLe entries).map _).trans numbers).eq_of_pairwise
    (fun i j _ _ hij hji => Nat.le_antisymm hij hji) ?_ (List.pairwise_lt_range.imp Nat.le_of_lt)
  rw [List.pairwise_map]
  exact sorted.imp fun h => by simpa [numberLe] using h

/-- The values of a mask are what its variables are bound to, in the order of their numbers. -/
theorem exists_maskValues?_eq {c m : Concept} {b : Bindings} {count : Nat}
    (h : c.match? m = some b) (fits : count ≤ Text.wordCount)
    (binds : ∀ name : String, b[name]? ≠ none ↔ name ∈ namesFrom 0 count) :
    ∃ values, c.maskValues? m = some values ∧ values.length = count ∧
      b = Bindings.numbered 0 values := by
  let number : String → Nat := fun name => (variableNumber? name).getD 0
  let entries := b.toList.map fun e => (number e.1, e.2)
  have read_name : ∀ i < count, variableNumber? (numberedName i) = some i := fun i hi =>
    Shape.variableNumber?_numberedName (by omega)
  have number_name : ∀ i < count, number (numberedName i) = i := fun i hi => by
    simp [number, read_name i hi]
  have named : ∀ e ∈ b.toList, b[e.1]? = some e.2 ∧ ∃ i < count, e.1 = numberedName i := by
    intro e he
    have bound : b[e.1]? = some e.2 := Std.ExtTreeMap.mem_toList_iff_getElem?_eq_some.mp he
    obtain ⟨i, hi, e'⟩ := Bindings.mem_namesFrom_iff.mp
      ((binds e.1).mp (Option.ne_none_iff_exists'.mpr ⟨_, bound⟩))
    exact ⟨bound, i, hi, by rw [e', Nat.zero_add]⟩
  have read : b.toList.mapM (fun e => (variableNumber? e.1).map fun number => (number, e.2)) =
      some entries := by
    refine Sequence.mapM_eq_some fun e he => ?_
    obtain ⟨-, i, hi, e'⟩ := named e he
    simp [e', number_name i hi, read_name i hi]
  have names : (b.toList.map (·.1)).Perm (namesFrom 0 count) := by
    rw [Std.ExtTreeMap.map_fst_toList_eq_keys]
    refine (List.perm_ext_iff_of_nodup b.nodup_keys (Bindings.nodup_namesFrom 0 count)).mpr
      fun name => ?_
    rw [Std.ExtTreeMap.mem_keys, ← binds, Std.ExtTreeMap.mem_iff_isSome_getElem?,
      Option.isSome_iff_ne_none]
  -- The numbers that are read are those below `count`, so that sorting by them gives each value
  -- its place.
  have numbers : (entries.map (·.1)).Perm (List.range count) := by
    have range : (namesFrom 0 count).map number = List.range count := by
      rw [namesFrom, List.map_map, ← List.range_eq_range']
      refine (List.map_congr_left fun i hi => ?_).trans (List.map_id _)
      exact number_name i (List.mem_range.mp hi)
    have := names.map number
    rw [range, List.map_map] at this
    rw [List.map_map]
    exact this
  have sorted := map_fst_sortBy_numberLe numbers
  have length : (Sequence.sortBy numberLe entries).length = count := by
    simpa using congrArg List.length sorted
  refine ⟨(Sequence.sortBy numberLe entries).map (·.2), ?_, by simpa using length, ?_⟩
  · rw [maskValues?, h]
    change (b.toList.mapM (fun e =>
      (variableNumber? e.1).map fun number => (number, e.2)) >>= _) = _
    rw [read]
    rfl
  · refine Bindings.eq_numbered (by simpa [length] using binds) fun i hi => ?_
    have hi : i < (Sequence.sortBy numberLe entries).length := by simpa using hi
    have first : ((Sequence.sortBy numberLe entries)[i]).1 = i := by
      have := congrArg (·[i]?) sorted
      simpa [List.getElem?_map, List.getElem?_eq_getElem hi, length ▸ hi] using this
    obtain ⟨e, he, same⟩ := List.mem_map.mp
      ((Sequence.sortBy_perm numberLe entries).mem_iff.mp (List.getElem_mem hi))
    obtain ⟨bound, j, hj, e'⟩ := named e he
    obtain rfl : j = i := by rw [← first, ← same, e', number_name j hj]
    rw [← e', bound, List.getElem?_map, List.getElem?_eq_getElem hi, Option.map_some, ← same]

/-! ## The masks of a concept -/

/-- What a concept has at the variables of a mask. -/
structure IsEntry (c m : Concept) (values : List Concept) : Prop where
  /-- The mask is clean. -/
  clean : m.Clean
  /-- Its variables are numbered, each number once. -/
  vars : m.vars.Perm (namesFrom 0 values.length)
  /-- The mask fits with the values at its variables. -/
  matched : c.match? m = some (.numbered 0 values)
  /-- The values are those of the index entry. -/
  read : c.maskValues? m = some values
  /-- The values are clean. -/
  cleanValues : ∀ value ∈ values, value.Clean
  /-- With the values put in, the mask is the concept. -/
  instantiates : m.instantiate (.numbered 0 values) = c

/-- A mask comes of a generalization, and fits the concept. -/
theorem exists_of_mem_masks {c m : Concept} (h : m ∈ c.masks) :
    ∃ shapes ∈ Shape.generalizations c, Shape.anyOpen shapes = true ∧
      m = (Shape.canonical (.nested shapes)).toMask ∧ m.isAllVariables = false ∧
      (c.match? m).isSome = true := by
  obtain ⟨hm, fits⟩ := List.mem_filter.mp h
  obtain ⟨hm, notAll⟩ := List.mem_filter.mp ((Sequence.distinctBy_sublist _ _).subset hm)
  obtain ⟨shapes, hs, rfl⟩ := List.mem_map.mp hm
  obtain ⟨hs, opened⟩ := List.mem_filter.mp hs
  exact ⟨shapes, hs, opened, rfl, by simpa using notAll, fits⟩

theorem Clean.clean_of_mem_masks {c m : Concept} (h : c.Clean) (hm : m ∈ c.masks) : m.Clean := by
  obtain ⟨shapes, hs, -, rfl, -⟩ := exists_of_mem_masks hm
  obtain ⟨count, numbering⟩ := (Shape.formed_of_mem_generalizations h hs).canonical.number 0
  exact numbering.clean

/-- The values of an index entry are clean, however many there are. -/
theorem Clean.clean_of_maskValues? {c m : Concept} {values : List Concept} (h : c.Clean)
    (hm : m.Clean) (read : c.maskValues? m = some values) : ∀ value ∈ values, value.Clean := by
  obtain ⟨b, matched, read⟩ := Option.bind_eq_some_iff.mp read
  obtain ⟨entries, numbered, read⟩ := Option.bind_eq_some_iff.mp read
  obtain rfl := Option.some.inj read
  intro value hv
  obtain ⟨entry, he, rfl⟩ := List.mem_map.mp hv
  obtain ⟨pair, hp, e⟩ :=
    Sequence.exists_of_mapM_eq_some numbered ((Sequence.sortBy_perm _ _).mem_iff.mp he)
  obtain ⟨number, -, rfl⟩ := Option.map_eq_some_iff.mp e
  exact (hm.fits_of_match? h matched).clean
    (Std.ExtTreeMap.mem_toList_iff_getElem?_eq_some.mp hp)

theorem nodup_keys_masks (c : Concept) : (c.masks.map key).Nodup :=
  (Sequence.nodup_keys_distinctBy _ _).sublist (List.filter_sublist.map key)

/-! ## The number of words -/

theorem utf8ByteSize_pos_of_isToken {word : String} (h : Source.isToken word = true) :
    0 < word.utf8ByteSize := by
  rw [Nat.pos_iff_ne_zero, ne_eq, String.utf8ByteSize_eq_zero_iff]
  rintro rfl
  exact absurd h (by decide)

/-- Texts with blanks between them are at least as long as the words that they hold. -/
theorem length_flatMap_words_le {ps : List Concept}
    (h : ∀ p ∈ ps, p.words.length ≤ p.asPart.utf8ByteSize) :
    (ps.flatMap words).length ≤ (spaced ps).utf8ByteSize := by
  induction ps with
  | nil => simp
  | cons p ps ih =>
    have first := h p (by simp)
    have rest := ih fun q hq => h q (by simp [hq])
    cases ps with
    | nil => simpa [spaced] using first
    | cons q ps =>
      rw [List.flatMap_cons, List.length_append, spaced_cons_cons, String.utf8ByteSize_append,
        String.utf8ByteSize_append]
      omega

theorem Clean.length_words_le_asPart {c : Concept} (h : c.Clean) :
    c.words.length ≤ c.asPart.utf8ByteSize := by
  induction c with
  | atom word => exact utf8ByteSize_pos_of_isToken (clean_atom_iff.mp h)
  | compound ps ih =>
    have := length_flatMap_words_le fun p hp => ih p hp (h.of_mem hp)
    rw [words_compound, asPart, String.utf8ByteSize_append, String.utf8ByteSize_append]
    omega

/-- The key of a clean concept is at least as long as it has words. -/
theorem Clean.length_words_le {c : Concept} (h : c.Clean) :
    c.words.length ≤ c.key.utf8ByteSize := by
  cases c with
  | atom word => exact h.length_words_le_asPart
  | compound ps =>
    rw [words_compound]
    exact length_flatMap_words_le fun p hp => (h.of_mem hp).length_words_le_asPart

theorem length_le_length_flatMap {α β : Type} {f : α → List β} {l : List α}
    (h : ∀ a ∈ l, f a ≠ []) : l.length ≤ (l.flatMap f).length := by
  induction l with
  | nil => simp
  | cons a l ih =>
    have first := List.length_pos_iff.mpr (h a (by simp))
    have rest := ih fun b hb => h b (by simp [hb])
    rw [List.flatMap_cons, List.length_append, List.length_cons]
    omega

theorem Clean.length_words_le_instantiate {c : Concept} {b : Bindings} (h : c.Clean)
    (hb : b.AllValues Clean) : c.words.length ≤ (c.instantiate b).words.length := by
  rw [(h.words_instantiate b).length_eq]
  refine length_le_length_flatMap fun word hw => ?_
  have token : Clean (.atom word) := clean_atom_iff.mpr (h.isToken_of_mem_words hw)
  exact (token.instantiate hb).words_ne_nil

/-! ## Every mask has an entry -/

/-- Each mask of a clean concept has an index entry, which gives the concept again. -/
theorem Clean.exists_isEntry {c m : Concept} (h : c.Clean) (fits : c.words.length ≤ Text.wordCount)
    (hm : m ∈ c.masks) : ∃ values, IsEntry c m values := by
  obtain ⟨shapes, hs, -, e, -, matched⟩ := exists_of_mem_masks hm
  obtain ⟨b, hb⟩ := Option.isSome_iff_exists.mp matched
  obtain ⟨count, numbering⟩ := (Shape.formed_of_mem_generalizations h hs).canonical.number 0
  have clean : m.Clean := h.clean_of_mem_masks hm
  have vars : m.vars.Perm (namesFrom 0 count) := e ▸ numbering.vars
  have fit := clean.fits_of_match? h hb
  have binds : ∀ name : String, b[name]? ≠ none ↔ name ∈ namesFrom 0 count := fun name => by
    rw [fit.binds, ← vars.mem_iff]
    simp
  have small : count ≤ Text.wordCount := by
    have words := clean.length_words_le_instantiate fit.clean
    rw [fit.instantiates] at words
    have names : m.vars.length = count := by simpa [namesFrom] using vars.length_eq
    have among : m.vars.length ≤ m.words.length := List.length_filter_le _ _
    omega
  obtain ⟨values, read, length, rfl⟩ := exists_maskValues?_eq hb small binds
  exact ⟨values, clean, length ▸ vars, hb, read, Bindings.allValues_numbered.mp fit.clean,
    fit.instantiates⟩

/-- Keys tell lists of clean concepts apart. -/
theorem eq_of_map_key_eq {cs ds : List Concept} (hc : ∀ c ∈ cs, c.Clean) (hd : ∀ d ∈ ds, d.Clean)
    (h : cs.map key = ds.map key) : cs = ds :=
  Sequence.eq_of_map_eq (fun c hcs d hds => ((hc c hcs).key_inj (hd d hds)).mp) h

/-- What a concept has at the variables of a mask tells it from other concepts. -/
theorem IsEntry.eq {c d m n : Concept} {values others : List Concept} (hc : IsEntry c m values)
    (hd : IsEntry d n others) (mask : m.key = n.key) (same : values.map key = others.map key) :
    c = d := by
  obtain rfl : m = n := (hc.clean.key_inj hd.clean).mp mask
  rw [← hc.instantiates, ← hd.instantiates,
    eq_of_map_key_eq hc.cleanValues hd.cleanValues same]

end Concept

end ConceptSpace
