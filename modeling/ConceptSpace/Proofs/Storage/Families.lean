import ConceptSpace.Proofs.Storage.Encoding

/-!
# Families of storage keys

Storage keys of different families differ, and a storage key determines the fields that it was made
of (`fact_inj`, `containment_inj`, `maskMatch_inj`, `maskCount_inj`). The readers of storage keys
find these fields again, where memory can hold them.
-/

namespace ConceptSpace.Storage.Key

/-! ## Fields -/

/-- The first of two fields ends at the first mark between them. -/
theorem fields_inj {x : Char} {as bs cs ds : List Char} (ha : x ∉ as) (hb : x ∉ bs)
    (h : as ++ x :: cs = bs ++ x :: ds) : as = bs ∧ cs = ds := by
  induction as generalizing bs with
  | nil =>
    cases bs with
    | nil => exact ⟨rfl, (List.cons.inj h).2⟩
    | cons b bs => exact absurd (List.cons.inj h).1 (by rintro rfl; simp at hb)
  | cons a as ih =>
    cases bs with
    | nil => exact absurd (List.cons.inj h).1.symm (by rintro rfl; simp at ha)
    | cons b bs =>
      obtain ⟨rfl, tail⟩ := List.cons.inj h
      obtain ⟨rfl, rfl⟩ := ih (fun m => ha (by simp [m])) (fun m => hb (by simp [m])) tail
      exact ⟨rfl, rfl⟩

/-- A list of fields that are not empty is determined by the text with marks between them. -/
theorem intercalate_inj {x : Char} {as bs : List (List Char)} (ha : ∀ l ∈ as, x ∉ l ∧ l ≠ [])
    (hb : ∀ l ∈ bs, x ∉ l ∧ l ≠ []) (h : [x].intercalate as = [x].intercalate bs) : as = bs := by
  have nonempty : ∀ l ls, (∀ m ∈ l :: ls, x ∉ m ∧ m ≠ []) → [x].intercalate (l :: ls) ≠ [] := by
    intro l ls hl
    have := (hl l (by simp)).2
    cases ls <;> simp [this]
  cases as with
  | nil =>
    cases bs with
    | nil => rfl
    | cons b bs => exact absurd h.symm (by simpa using nonempty b bs hb)
  | cons a as =>
    cases bs with
    | nil => exact absurd h (by simpa using nonempty a as ha)
    | cons b bs =>
      rw [← List.splitOn_intercalate x (fun l hl => (ha l hl).1) (List.cons_ne_nil a as), h,
        List.splitOn_intercalate x (fun l hl => (hb l hl).1) (List.cons_ne_nil b bs)]

theorem append_ne_append {s t : String} (hs : ¬ s.toList <+: t.toList)
    (ht : ¬ t.toList <+: s.toList) (x y : String) : s ++ x ≠ t ++ y := by
  intro h
  have h := congrArg String.toList h
  rw [String.toList_append, String.toList_append] at h
  rcases List.prefix_or_prefix_of_prefix (List.prefix_append s.toList x.toList)
    (h ▸ List.prefix_append t.toList y.toList) with hp | hp
  · exact hs hp
  · exact ht hp

theorem not_prefix_append {s t : String} (hs : ¬ s.toList <+: t.toList)
    (ht : ¬ t.toList <+: s.toList) (x y : String) : ¬ (s ++ x).toList <+: (t ++ y).toList := by
  rintro ⟨rest, e⟩
  refine append_ne_append hs ht (x ++ String.ofList rest) y (String.toList_inj.mp ?_)
  rw [← String.append_assoc, String.toList_append, String.toList_ofList, e]

theorem append_left_inj {s x y : String} (h : s ++ x = s ++ y) : x = y := by
  have h := congrArg String.toList h
  rw [String.toList_append, String.toList_append] at h
  exact String.toList_inj.mp (List.append_cancel_left h)

/-! ## Facts and counters -/

theorem fact_inj {c d : Concept} (h : fact c = fact d) : c.key = d.key :=
  encode_inj.mp (append_left_inj h)

theorem maskCount_inj {m n : Concept} (h : maskCount m = maskCount n) : m.key = n.key :=
  encode_inj.mp (append_left_inj h)

/-! ## Edges -/

theorem toList_containment (part : Concept) (position : Nat) (container : Concept) :
    (containment part position container).toList = containmentStem.toList ++
      ((encode part.key).toList ++ '/' :: (Nat.toDigits 10 position ++
        '/' :: (encode container.key).toList)) := by
  simp [containment, Nat.toString_eq_repr, Nat.toList_repr]

theorem slash_not_mem_toDigits (n : Nat) : '/' ∉ Nat.toDigits 10 n := fun h =>
  absurd (Nat.isDigit_of_mem_toDigits (by decide) (by decide) h) (by decide)

theorem toDigits_inj {m n : Nat} (h : Nat.toDigits 10 m = Nat.toDigits 10 n) : m = n := by
  have hm := Text.digits?_toDigits m
  rw [h, Text.digits?_toDigits] at hm
  exact (Option.some.inj hm).symm

theorem containment_inj {p q c d : Concept} {i j : Nat}
    (h : containment p i c = containment q j d) : p.key = q.key ∧ i = j ∧ c.key = d.key := by
  have h := congrArg String.toList h
  rw [toList_containment, toList_containment] at h
  obtain ⟨part, h⟩ := fields_inj (slash_not_mem_encode _) (slash_not_mem_encode _)
    (List.append_cancel_left h)
  obtain ⟨position, container⟩ :=
    fields_inj (slash_not_mem_toDigits _) (slash_not_mem_toDigits _) h
  exact ⟨encode_inj.mp (String.toList_inj.mp part), toDigits_inj position,
    encode_inj.mp (String.toList_inj.mp container)⟩

/-- An edge is listed under its part and under no other. -/
theorem containmentsOf_prefix_iff {p q c : Concept} {i : Nat} :
    (containmentsOf q).toList <+: (containment p i c).toList ↔ q.key = p.key := by
  have e : (containmentsOf q).toList =
      containmentStem.toList ++ ((encode q.key).toList ++ ['/']) := by
    simp [containmentsOf]
  rw [toList_containment, e, List.prefix_append_right_inj]
  constructor
  · rintro ⟨rest, h⟩
    rw [List.append_assoc, List.singleton_append] at h
    exact encode_inj.mp (String.toList_inj.mp
      (fields_inj (slash_not_mem_encode _) (slash_not_mem_encode _) h).1)
  · intro h
    rw [h]
    exact ⟨_, by rw [List.append_assoc, List.singleton_append]⟩

/-! ## Index entries -/

theorem toList_maskMatch (mask : Concept) (values : List Concept) :
    (maskMatch mask values).toList = maskMatchStem.toList ++ ((encode mask.key).toList ++
      '/' :: [';'].intercalate (values.map fun value => (encode value.key).toList)) := by
  simp [maskMatch, maskMatches, String.toList_intercalate, List.map_map, Function.comp_def]

theorem isField_encode (values : List Concept) :
    ∀ l ∈ values.map (fun value => (encode value.key).toList), ';' ∉ l ∧ l ≠ [] := by
  intro l hl
  obtain ⟨value, -, rfl⟩ := List.mem_map.mp hl
  exact ⟨semicolon_not_mem_encode _, toList_encode_ne_nil _⟩

theorem maskMatch_inj {m n : Concept} {vs ws : List Concept} (h : maskMatch m vs = maskMatch n ws) :
    m.key = n.key ∧ vs.map Concept.key = ws.map Concept.key := by
  have h := congrArg String.toList h
  rw [toList_maskMatch, toList_maskMatch] at h
  obtain ⟨mask, values⟩ := fields_inj (slash_not_mem_encode _) (slash_not_mem_encode _)
    (List.append_cancel_left h)
  refine ⟨encode_inj.mp (String.toList_inj.mp mask), ?_⟩
  have values := intercalate_inj (isField_encode vs) (isField_encode ws) values
  have inj : Function.Injective fun key => (encode key).toList := fun j k e =>
    encode_inj.mp (String.toList_inj.mp e)
  refine (List.map_inj_right fun _ _ e => inj e).mp ?_
  simpa [List.map_map, Function.comp_def] using values

/-- An index entry is listed under its mask and under no other. -/
theorem maskMatches_prefix_iff {m n : Concept} {vs : List Concept} :
    (maskMatches n).toList <+: (maskMatch m vs).toList ↔ n.key = m.key := by
  have e : (maskMatches n).toList =
      maskMatchStem.toList ++ ((encode n.key).toList ++ ['/']) := by
    simp [maskMatches]
  rw [toList_maskMatch, e, List.prefix_append_right_inj]
  constructor
  · rintro ⟨rest, h⟩
    rw [List.append_assoc, List.singleton_append] at h
    exact encode_inj.mp (String.toList_inj.mp
      (fields_inj (slash_not_mem_encode _) (slash_not_mem_encode _) h).1)
  · intro h
    rw [h]
    exact ⟨_, by rw [List.append_assoc, List.singleton_append]⟩

/-! ## Families -/

theorem fact_ne_maskCount (c m : Concept) : fact c ≠ maskCount m :=
  append_ne_append (by decide) (by decide) _ _

theorem fact_ne_maskMatch (c m : Concept) (vs : List Concept) : fact c ≠ maskMatch m vs := by
  rw [maskMatch, maskMatches, String.append_assoc, String.append_assoc]
  exact append_ne_append (by decide) (by decide) _ _

theorem fact_ne_containment (c p : Concept) (i : Nat) (d : Concept) :
    fact c ≠ containment p i d := by
  simp only [containment, String.append_assoc]
  exact append_ne_append (by decide) (by decide) _ _

theorem containment_ne_maskCount (p : Concept) (i : Nat) (c m : Concept) :
    containment p i c ≠ maskCount m := by
  simp only [containment, String.append_assoc]
  exact append_ne_append (by decide) (by decide) _ _

theorem containment_ne_maskMatch (p : Concept) (i : Nat) (c m : Concept) (vs : List Concept) :
    containment p i c ≠ maskMatch m vs := by
  simp only [containment, maskMatch, maskMatches, String.append_assoc]
  exact append_ne_append (by decide) (by decide) _ _

theorem maskMatch_ne_maskCount (m : Concept) (vs : List Concept) (n : Concept) :
    maskMatch m vs ≠ maskCount n := by
  rw [maskMatch, maskMatches, String.append_assoc, String.append_assoc]
  exact append_ne_append (by decide) (by decide) _ _

/-! ## Reading them -/

theorem after?_append (stem cs : List Char) : after? stem (stem ++ cs) = some cs := by
  induction stem with
  | nil => cases cs <;> rfl
  | cons s stem ih => simp [after?, ih]

theorem readFact_fact_eq (c : Concept) : readFact (fact c) = decode (encode c.key) := by
  simp [readFact, fact, after?_append]

theorem readFact_fact {c : Concept} (h : FitsMemory c.key) : readFact (fact c) = .ok c.key := by
  rw [readFact_fact_eq, decode_encode h]

/-- What is read of the key of a stored fact is the key of the fact, however long it is. -/
theorem eq_of_readFact {c : Concept} {key : String} (h : readFact (fact c) = .ok key) :
    key = c.key :=
  eq_of_decode_encode (readFact_fact_eq c ▸ h)

theorem readContainment_containment {p c : Concept} {i : Nat} (hp : FitsMemory p.key)
    (hi : i < Text.wordCount) (hc : FitsMemory c.key) :
    readContainment (containment p i c) = .ok ⟨p.key, i, c.key⟩ := by
  have fields : ((encode p.key).toList ++ '/' :: (Nat.toDigits 10 i ++
      '/' :: (encode c.key).toList)).splitOn '/' =
        [(encode p.key).toList, Nat.toDigits 10 i, (encode c.key).toList] := by
    rw [List.splitOn_append_cons_self_of_not_mem (slash_not_mem_encode _),
      List.splitOn_append_cons_self_of_not_mem (slash_not_mem_toDigits _),
      List.splitOn_eq_singleton (slash_not_mem_encode _)]
  rw [readContainment, toList_containment, after?_append, Option.map_some, fields]
  simp only [String.ofList_toList, decode_encode hp, Text.word?_toDigits hi, decode_encode hc]
  rfl

/-- An index entry is read value by value. -/
theorem readMaskMatch_maskMatch_eq (m : Concept) (vs : List Concept) :
    readMaskMatch (maskMatch m vs) = vs.mapM fun value => decode (encode value.key) := by
  have skip : ∀ c ∈ (encode m.key).toList, decide (c ≠ '/') = true := by
    intro c hc
    have : c ≠ '/' := by
      rintro rfl
      exact slash_not_mem_encode _ hc
    simp [this]
  rw [readMaskMatch, toList_maskMatch, after?_append, Option.map_some,
    List.dropWhile_append_of_pos skip, List.dropWhile_cons_of_neg (by simp)]
  cases vs with
  | nil => rfl
  | cons v vs =>
    have fields := isField_encode (v :: vs)
    have nonempty : ([';'].intercalate ((v :: vs).map fun value =>
        (encode value.key).toList)).isEmpty = false := by
      rw [List.isEmpty_eq_false_iff]
      intro e
      have : (v :: vs).map (fun value => (encode value.key).toList) = [] :=
        intercalate_inj fields (by simp) e
      simp at this
    simp only [nonempty]
    rw [List.splitOn_intercalate ';' (fun l hl => (fields l hl).1) (by simp), List.mapM_map]
    exact Sequence.mapM_congr fun value _ => by simp

/-- What is read of an index entry are the keys of its values, however long they are. -/
theorem eq_of_readMaskMatch {m : Concept} {vs : List Concept} {keys : List String}
    (h : readMaskMatch (maskMatch m vs) = .ok keys) : keys = vs.map Concept.key := by
  rw [readMaskMatch_maskMatch_eq] at h
  have related : List.Forall₂ (fun value key => key = Concept.key value) vs keys :=
    (Sequence.forall₂_of_mapM_eq_ok h).imp fun _ _ => eq_of_decode_encode
  rw [← List.forall₂_eq_eq_eq, List.forall₂_map_right_iff]
  exact related.flip

theorem readMaskMatch_maskMatch {m : Concept} {vs : List Concept}
    (h : ∀ value ∈ vs, FitsMemory value.key) :
    readMaskMatch (maskMatch m vs) = .ok (vs.map Concept.key) := by
  rw [readMaskMatch_maskMatch_eq]
  exact Sequence.mapM_eq_ok fun value hv => decode_encode (h value hv)

end ConceptSpace.Storage.Key
