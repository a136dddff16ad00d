import ConceptSpace.Proofs.Space.Triggers
import ConceptSpace.Proofs.Trigger.Keeping

/-!
# Attached texts

A text is attached to a stored fact, and facts vanish in several ways: they are removed, or a fact
inside them is, or a trigger removes them in the middle of an addition, or everything is deleted. A
store is *tidy* if its facts are clean and no text is left without its fact. Whatever is done to a
tidy store with clean concepts, and whatever becomes of it, the store stays tidy
(`Space.Operation.keeps`), so that only stored facts have texts (`Space.stored_of_attached`).
-/

namespace ConceptSpace

open Sequence (Gives)

namespace FactBase

open Storage

variable {base : FactBase} {s : Store} {cs : List Concept} {c d : Concept}

/-! ## Tidy stores -/

theorem contains_congr (t : Table) (same : c.key = d.key) : contains t c = contains t d := by
  rw [contains, contains, Key.fact, Key.fact, same]

/-- A store of clean facts that has texts for stored facts only. -/
structure IsTidy (base : FactBase) (s : Store) : Prop where
  /-- The facts are clean. -/
  clean : IsClean s.table
  /-- Each text is attached to a stored fact. -/
  attached : ∀ name : String, s.texts.contains name = true →
    ∃ c, contains s.table c = true ∧ name = Key.attached base.space c

/-- The texts that are left are those of other facts. -/
theorem contains_texts_detach {facts : List Concept} {name : String} :
    (base.detach facts s).texts.contains name = true ↔
      s.texts.contains name = true ∧ ∀ d ∈ facts, name ≠ Key.attached base.space d := by
  rw [detach]
  generalize s.texts = texts
  simp only
  induction facts generalizing texts with
  | nil => simp
  | cons d facts ih =>
    rw [List.foldl_cons, ih, Std.ExtTreeMap.contains_erase, List.forall_mem_cons, ← and_assoc]
    refine and_congr_left fun _ => ?_
    rw [Bool.and_eq_true, bne_iff_ne, ne_eq, Std.compare_eq_iff_eq, and_comm, ne_comm]

namespace IsTidy

theorem create (base : FactBase) (backend : Backend) : IsTidy base (Store.create backend) where
  clean := .empty
  attached name h := by simp [Store.create] at h

theorem stored (h : IsTidy base s) {text : String}
    (found : s.texts[Key.attached base.space c]? = some text) : contains s.table c = true := by
  obtain ⟨d, stored, same⟩ := h.attached (Key.attached base.space c) <| by
    rw [Std.ExtTreeMap.contains_eq_isSome_getElem?, found]
    rfl
  rwa [contains_congr s.table (Key.Name.attached_inj same).2]

theorem add (h : IsTidy base s) (clean : ∀ c ∈ cs, c.Clean) :
    IsTidy base { s with table := (base.add cs s.table).2 } where
  clean := h.clean.add clean
  attached name hn := by
    obtain ⟨c, stored, same⟩ := h.attached name hn
    exact ⟨c, (add_spec base cs s.table).1 _ stored, same⟩

theorem remove (h : IsTidy base s) (cs : List Concept) : IsTidy base (base.remove cs s).2 := by
  rcases remove_spec base cs s with same | ⟨facts, left, loses, same⟩ <;> rw [same]
  · exact h
  · refine ⟨h.clean.mono loses.old, fun name hn => ?_⟩
    obtain ⟨hn, others⟩ := contains_texts_detach.mp hn
    obtain ⟨c, stored, rfl⟩ := h.attached name hn
    -- A fact that is lost is among those whose texts have been dropped.
    refine ⟨c, (loses.kept c stored).resolve_right ?_, rfl⟩
    rintro ⟨d, hd, key⟩
    exact others d hd (by rw [Key.attached, Key.attached, key])

/-- A page lists the stored facts, so that no text is left when the texts of these are dropped. -/
theorem texts_detach (h : IsTidy base s) {found : List Concept}
    (listed : page s.table {} = .ok found) : (base.detach found s).texts = ∅ := by
  refine Std.ExtTreeMap.eq_empty_iff_forall_contains.mpr fun name => ?_
  rw [← Bool.not_eq_true, contains_texts_detach]
  rintro ⟨hn, others⟩
  obtain ⟨c, stored, rfl⟩ := h.attached name hn
  obtain ⟨d, hd, key⟩ := h.clean.exists_mem_of_page listed stored
  exact others d hd (by rw [Key.attached, Key.attached, key])

/-- Starting over leaves nothing, if it succeeds. -/
theorem eq_of_reset (h : IsTidy base s) {n : Nat} {s' : Store}
    (ok : base.reset s = (.ok n, s')) : s'.table = ∅ ∧ s'.texts = ∅ := by
  cases listed : page s.table {} with
  | error e =>
    rw [FactBase.reset, listed] at ok
    cases ok
  | ok found =>
    obtain ⟨count, e⟩ := exists_reset_eq listed base
    obtain ⟨-, rfl⟩ := Prod.mk.inj (e.symm.trans ok)
    exact ⟨rfl, h.texts_detach listed⟩

theorem reset (h : IsTidy base s) : IsTidy base (base.reset s).2 := by
  cases ended : base.reset s with
  | mk result s' =>
    cases result with
    | ok n =>
      obtain ⟨table, texts⟩ := h.eq_of_reset ended
      exact ⟨table ▸ .empty, fun name hn => by simp [texts] at hn⟩
    | error e =>
      rw [FactBase.reset] at ended
      split at ended
      · cases ended
        exact h
      · cases ended

theorem attach (h : IsTidy base s) (stored : contains s.table c = true) (text : String) :
    IsTidy base { s with texts := s.texts.insert (Key.attached base.space c) text } where
  clean := h.clean
  attached name hn := by
    simp only [Std.ExtTreeMap.contains_insert, Bool.or_eq_true, beq_iff_eq,
      Std.compare_eq_iff_eq] at hn
    rcases hn with rfl | hn
    · exact ⟨c, stored, rfl⟩
    · exact h.attached name hn

theorem eraseText (h : IsTidy base s) (name : String) :
    IsTidy base { s with texts := s.texts.erase name } where
  clean := h.clean
  attached other hn := by
    simp only [Std.ExtTreeMap.contains_erase, Bool.and_eq_true] at hn
    exact h.attached other hn.2

end IsTidy

/-- Additions of clean concepts and removals keep a store tidy, and so do rounds. -/
theorem IsTidy.isKept (base : FactBase) : IsKept base (IsTidy base) where
  clean := IsTidy.clean
  add := IsTidy.add
  remove := IsTidy.remove

end FactBase

namespace Space

open Storage
open FactBase (IsTidy Storable)

variable {s : Space} {c : Concept}

/-! ## Operations -/

theorem clean_statedFact (h : c.Clean) : (statedFact c).Clean := by
  unfold statedFact attachment?
  split
  case h_1 target text found =>
    split at found
    case h_1 target' directive payload parts =>
      split at found
      · obtain ⟨rfl, -⟩ := Prod.mk.inj (Option.some.inj found)
        exact h.of_mem_parts (by simp [parts])
      · cases found
    case h_2 => cases found
  case h_2 => exact h

theorem keeps_attach (s : Space) (c : Concept) (text : String) :
    Run.Keeps (IsTidy s.base) (s.attach c text) fun _ => True := by
  refine .changeStore fun store h => ⟨?_, fun _ _ => trivial⟩
  split
  case isTrue stored => exact h.attach stored text
  case isFalse => exact h

theorem keeps_attachAll (s : Space) (texts : List (Concept × String)) :
    Run.Keeps (IsTidy s.base) (s.attachAll texts) fun _ => True := by
  induction texts with
  | nil => exact .pure trivial
  | cons text texts ih => exact .bind (keeps_attach s text.1 text.2) fun _ _ => ih

/-- A change of a space. -/
inductive Operation where
  /-- What source texts state is added. -/
  | addSource (sources : List String) (values : Interpolations)
  /-- Concepts are added. -/
  | add (cs : List Concept)
  /-- Concepts are removed. -/
  | remove (cs : List Concept)
  /-- A text is attached to a fact. -/
  | attach (c : Concept) (text : String)
  /-- The text of a fact is deleted. -/
  | detach (c : Concept)
  /-- Everything is deleted. -/
  | reset

namespace Operation

/-- What an operation adds is clean. -/
def AddsClean : Operation → Prop
  | .addSource sources values =>
    ∀ stated, Source.interpolate values.values sources = .ok stated → ∀ c ∈ stated, c.Clean
  | .add cs => ∀ c ∈ cs, c.Clean
  | _ => True

/-- What a space is after an operation, whatever becomes of it. -/
def run (s : Space) (w : SpaceState) : Operation → SpaceState
  | .addSource sources values => (s.addSource sources values w).2
  | .add cs => (s.add cs w).2
  | .remove cs => (s.remove cs w).2
  | .attach c text => (s.attach c text w).2
  | .detach c => (s.detach c w).2
  | .reset => (s.reset w).2

/-- An operation that adds clean concepts keeps the store of a space tidy, even if it fails. -/
theorem keeps {op : Operation} (clean : op.AddsClean) {w : SpaceState}
    (h : IsTidy s.base w.store) : IsTidy s.base (op.run s w).store := by
  have kept := IsTidy.isKept s.base
  cases op with
  | addSource sources values =>
    have stated : Run.Keeps (IsTidy s.base)
        (Run.ask fun _ => liftSource (Source.interpolate values.values sources))
        fun stated => ∀ c ∈ stated, c.Clean := .ask fun _ _ => .liftSource clean
    have whole : Run.Keeps (IsTidy s.base) (s.addSource sources values) fun _ => True := by
      refine .bind stated fun stated clean => .bind (kept.addAll fun c hc => ?_)
        fun _ _ => .bind (keeps_attachAll s _) fun _ _ => .pure trivial
      obtain ⟨d, hd, rfl⟩ := List.mem_map.mp hc
      exact clean_statedFact (clean d hd)
    exact (whole w h).1
  | add cs => exact (kept.addAll clean w h).1
  | remove cs =>
    have whole : Run.Keeps (IsTidy s.base) (s.remove cs) fun _ => True :=
      .bind (kept.changeStore_remove cs) fun _ _ => .pure trivial
    exact (whole w h).1
  | attach c text => exact (keeps_attach s c text w h).1
  | detach c => exact h.eraseText _
  | reset => exact h.reset

/-- What a space is after several operations. -/
def runAll (s : Space) (w : SpaceState) (ops : List Operation) : SpaceState :=
  ops.foldl (run s) w

theorem keeps_all {ops : List Operation} (clean : ∀ op ∈ ops, op.AddsClean) {w : SpaceState}
    (h : IsTidy s.base w.store) : IsTidy s.base (runAll s w ops).store := by
  induction ops generalizing w with
  | nil => exact h
  | cons op ops ih => exact ih (fun o ho => clean o (by simp [ho])) (keeps (clean op (by simp)) h)

end Operation

/-! ## Main statement -/

/-- Whatever has been done to a space since it was made, with clean concepts as far as they were
added, and whatever became of it, only stored facts have texts. To delete everything then leaves
neither a key nor a text, and it succeeds if memory holds the keys of the stored facts. -/
theorem stored_of_attached (s : Space) (backend : Backend) (journal : List Delivery)
    {ops : List Operation} (clean : ∀ op ∈ ops, op.AddsClean) :
    let w := Operation.runAll s ⟨Store.create backend, journal⟩ ops
    (∀ c text, (s.attached c w).1 = .ok (some text) →
        FactBase.contains w.store.table c = true) ∧
      (∀ n w', s.reset w = (.ok n, w') → w'.store.table = ∅ ∧ w'.store.texts = ∅) ∧
      ((∀ c, FactBase.contains w.store.table c = true → Key.FitsMemory c.key) →
        ∃ n w', s.reset w = (.ok n, w')) := by
  intro w
  have tidy : IsTidy s.base w.store := Operation.keeps_all clean (.create s.base backend)
  refine ⟨fun c text found => tidy.stored (Except.ok.inj found), fun n w' ended => ?_,
    fun fits => ?_⟩
  · have result : (s.base.reset w.store).1 = .ok n := congrArg Prod.fst ended
    have left : (s.base.reset w.store).2 = w'.store := congrArg (·.2.store) ended
    exact tidy.eq_of_reset (Prod.ext result left)
  · obtain ⟨found, listed⟩ := tidy.clean.exists_page_eq fits
    obtain ⟨n, e⟩ := FactBase.exists_reset_eq listed s.base
    have ended : (s.reset w).1 = .ok n := congrArg Prod.fst e
    exact ⟨n, (s.reset w).2, Prod.ext ended rfl⟩

private def pinboard : Space where
  id := "home"
  settings := {}

private def notedFact : Concept :=
  .compound [.atom "john", .atom "Person"]

/-- A fact with a text, and a text for what is no fact. -/
private def noting : List Operation :=
  [.addSource ["[john Person] @data notes"] ∅, .attach (.atom "mary") "gone"]

private def noted : SpaceState :=
  Operation.runAll pinboard ⟨Store.create .memory, []⟩ noting

/-- What the source text states. -/
private def statedNote : Concept :=
  .compound [notedFact, .atom "@data", .atom "notes"]

private theorem interpolate_noting :
    Source.interpolate (∅ : Interpolations).values ["[john Person] @data notes"] =
      .ok [statedNote] :=
  Sequence.eq_ok_of_toOption (by decide +kernel)

private theorem exists_noted_eq : ∃ (v : SpaceState) (facts : Finset Concept),
    FactBase.Indexed v.store.table facts ∧ noted = (pinboard.attach (.atom "mary") "gone" { v with
      store := { v.store with
        texts := v.store.texts.insert (Key.attached "home" notedFact) "notes" } }).2 := by
  have storable : ∀ c ∈ [notedFact], Storable c := by
    simpa using ⟨by decide, by decide⟩
  obtain ⟨rounds, v, facts, added, -, -, indexed, given⟩ := FactBase.exists_addAll_create
    pinboard.base pinboard.notifier storable (by decide) .memory []
  refine ⟨v, facts, indexed, congrArg (fun w => (pinboard.attach _ _ w).2) ?_⟩
  have stored : FactBase.contains v.store.table notedFact = true :=
    indexed.contains_iff_exists.mpr ⟨notedFact, given notedFact (by simp), rfl⟩
  have attached : pinboard.attach notedFact "notes" v = (.ok true, { v with
      store := { v.store with
        texts := v.store.texts.insert (Key.attached "home" notedFact) "notes" } }) := by
    rw [attach, Run.changeStore]
    simp only [stored, if_true]
    rfl
  have texts : [statedNote].filterMap attachment? = [(notedFact, "notes")] := by decide
  have facts : [statedNote].map statedFact = [notedFact] := by decide
  rw [Operation.run, addSource_of_interpolate interpolate_noting, facts, texts,
    Run.bind_of_ok added, attachAll, attachAll,
    Run.bind_of_ok (Run.bind_of_ok attached _)]
  rfl

/-- The fact has its text, and memory holds the keys of all facts. -/
private theorem noted_spec : noted.store.texts[Key.attached "home" notedFact]? = some "notes" ∧
    ∀ c, FactBase.contains noted.store.table c = true → Key.FitsMemory c.key := by
  obtain ⟨v, facts, indexed, e⟩ := exists_noted_eq
  have other : Key.attached "home" (.atom "mary") ≠ Key.attached "home" notedFact := by decide
  have fits : ∀ c, FactBase.contains v.store.table c = true → Key.FitsMemory c.key := by
    intro c hc
    obtain ⟨d, hd, same⟩ := indexed.contains_iff_exists.mp hc
    exact same ▸ (indexed.storable d hd).fits
  rw [e, attach, Run.changeStore]
  simp only
  split
  · refine ⟨?_, fits⟩
    rw [Std.ExtTreeMap.getElem?_insert, if_neg (by simpa [pinboard] using other),
      Std.ExtTreeMap.getElem?_insert_self]
  · exact ⟨Std.ExtTreeMap.getElem?_insert_self, fits⟩

theorem noted_attached : (∀ op ∈ noting, op.AddsClean) ∧
    (pinboard.attached notedFact noted).1 = .ok (some "notes") ∧
    FactBase.contains noted.store.table notedFact = true ∧
    ∃ n w, pinboard.reset noted = (.ok n, w) ∧ w.store.table = ∅ ∧ w.store.texts = ∅ := by
  have clean : ∀ op ∈ noting, op.AddsClean := by
    simp only [noting, List.mem_cons, List.not_mem_nil, or_false, forall_eq_or_imp, forall_eq]
    refine ⟨fun stated e => ?_, trivial⟩
    obtain rfl := Except.ok.inj (interpolate_noting.symm.trans e)
    simpa using (by decide : Concept.Clean _)
  obtain ⟨text, fits⟩ := noted_spec
  have attached : (pinboard.attached notedFact noted).1 = .ok (some "notes") := congrArg _ text
  obtain ⟨stored, emptied, succeeds⟩ := stored_of_attached pinboard .memory [] clean
  obtain ⟨n, w, ended⟩ := succeeds fits
  exact ⟨clean, attached, stored _ _ attached, n, w, ended, emptied n w ended⟩

end Space

end ConceptSpace
