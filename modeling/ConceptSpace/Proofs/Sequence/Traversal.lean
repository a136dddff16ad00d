import Mathlib.Data.List.Forall2
import Mathlib.Data.List.Perm.Basic

/-!
# Traversals that succeed

Applying a partial function to every element of a list gives the list of its values, if it has a
value at each of them.
-/

namespace ConceptSpace.Sequence

variable {α β ε : Type}

theorem ok_bind (a : α) (f : α → Except ε β) : ((.ok a : Except ε α) >>= f) = f a := rfl

/-- Both steps of a computation that succeeds succeed. -/
theorem exists_of_bind_eq_ok {x : Except ε α} {f : α → Except ε β} {b : β}
    (h : (x >>= f) = .ok b) : ∃ a, x = .ok a ∧ f a = .ok b := by
  cases x with
  | error e => exact absurd h nofun
  | ok a => exact ⟨a, rfl, h⟩

theorem exists_of_map_eq_ok {x : Except ε α} {f : α → β} {b : β} (h : x.map f = .ok b) :
    ∃ a, x = .ok a ∧ f a = b := by
  cases x with
  | error e => cases h
  | ok a => exact ⟨a, rfl, Except.ok.inj h⟩

theorem eq_ok_of_toOption {x : Except ε α} {a : α} (h : x.toOption = some a) : x = .ok a := by
  cases x with
  | error e => cases h
  | ok b => exact congrArg Except.ok (Option.some.inj h)

/-- A run has succeeded if a check of its value holds. -/
theorem exists_of_any_toOption {σ : Type} {f : α → Bool} {run : Except ε α × σ}
    (h : run.1.toOption.any f = true) : ∃ a s, run = (.ok a, s) ∧ f a = true := by
  rcases run with ⟨e | a, s⟩
  · cases h
  · exact ⟨a, s, rfl, h⟩

theorem mapM_eq_ok {f : α → Except ε β} {g : α → β} {l : List α}
    (h : ∀ a ∈ l, f a = .ok (g a)) : l.mapM f = .ok (l.map g) := by
  induction l with
  | nil => rfl
  | cons a l ih =>
    rw [List.mapM_cons, h a (by simp), ih fun b hb => h b (by simp [hb])]
    rfl

theorem mapM_eq_error {f : α → Except ε β} {e : ε} {l : List α} (some : l ≠ [])
    (h : ∀ a ∈ l, f a = .error e) : l.mapM f = .error e := by
  cases l with
  | nil => exact absurd rfl some
  | cons a l =>
    rw [List.mapM_cons, h a (by simp)]
    rfl

theorem mapM_eq_some {f : α → Option β} {g : α → β} {l : List α}
    (h : ∀ a ∈ l, f a = some (g a)) : l.mapM f = some (l.map g) := by
  induction l with
  | nil => rfl
  | cons a l ih =>
    rw [List.mapM_cons, h a (by simp), ih fun b hb => h b (by simp [hb])]
    rfl

theorem mapM_congr {f g : α → Except ε β} {l : List α} (h : ∀ a ∈ l, f a = g a) :
    l.mapM f = l.mapM g := by
  induction l with
  | nil => rfl
  | cons a l ih => rw [List.mapM_cons, List.mapM_cons, h a (by simp), ih fun b hb => h b (by simp [hb])]

/-- Steps that succeed go through a list as they do without failures. -/
theorem run_foldlM_mk {f : β → α → Except ε (Option β)} {g : β → α → Option β}
    (h : ∀ b a, f b a = .ok (g b a)) (l : List α) (b : β) :
    (l.foldlM (fun b a => OptionT.mk (f b a)) b).run = .ok (l.foldlM g b) := by
  induction l generalizing b with
  | nil => rfl
  | cons a l ih =>
    rw [List.foldlM_cons, List.foldlM_cons, OptionT.run_bind, OptionT.run_mk, h]
    cases g b a with
    | none => rfl
    | some next => exact ih next

/-- Going through a list part by part is going through it. -/
theorem mapM_flatten (f : α → Except ε β) (ls : List (List α)) :
    ls.flatten.mapM f = (ls.mapM (List.mapM f) >>= fun groups => .ok groups.flatten) := by
  induction ls with
  | nil => rfl
  | cons l ls ih =>
    rw [List.flatten_cons, List.mapM_append, ih, List.mapM_cons]
    cases l.mapM f with
    | error e => rfl
    | ok group => cases ls.mapM (List.mapM f) <;> rfl

/-- A function that succeeds everywhere gives a list of values, related as each value is. -/
theorem exists_mapM_eq_ok {R : α → β → Prop} {f : α → Except ε β} {l : List α}
    (h : ∀ a ∈ l, ∃ b, f a = .ok b ∧ R a b) : ∃ bs, l.mapM f = .ok bs ∧ List.Forall₂ R l bs := by
  induction l with
  | nil => exact ⟨[], rfl, .nil⟩
  | cons a l ih =>
    obtain ⟨b, hf, hr⟩ := h a (by simp)
    obtain ⟨bs, hfs, hrs⟩ := ih fun c hc => h c (by simp [hc])
    exact ⟨b :: bs, by rw [List.mapM_cons, hf, hfs]; rfl, .cons hr hrs⟩

/-- A list of values comes from a value at each element. -/
theorem forall₂_of_mapM_eq_ok {f : α → Except ε β} {l : List α} {bs : List β}
    (h : l.mapM f = .ok bs) : List.Forall₂ (fun a b => f a = .ok b) l bs := by
  induction l generalizing bs with
  | nil =>
    obtain rfl : [] = bs := Except.ok.inj h
    exact .nil
  | cons a l ih =>
    rw [List.mapM_cons] at h
    obtain ⟨b, ha, h⟩ := exists_of_bind_eq_ok h
    obtain ⟨more, hl, h⟩ := exists_of_bind_eq_ok h
    obtain rfl : b :: more = bs := Except.ok.inj h
    exact .cons ha (ih hl)

theorem exists_of_mapM_eq_some {f : α → Option β} {l : List α} {bs : List β}
    (h : l.mapM f = some bs) {b : β} (hb : b ∈ bs) : ∃ a ∈ l, f a = some b := by
  induction l generalizing bs with
  | nil =>
    obtain rfl : [] = bs := Option.some.inj h
    simp at hb
  | cons a l ih =>
    rw [List.mapM_cons] at h
    obtain ⟨first, here, h⟩ := Option.bind_eq_some_iff.mp h
    obtain ⟨more, later, h⟩ := Option.bind_eq_some_iff.mp h
    obtain rfl : first :: more = bs := Option.some.inj h
    rcases List.mem_cons.mp hb with rfl | hb
    · exact ⟨a, by simp, here⟩
    · obtain ⟨a', ha, e⟩ := ih later hb
      exact ⟨a', List.mem_cons_of_mem _ ha, e⟩

theorem any_congr_of_mem {p q : α → Bool} {l : List α} (h : ∀ a ∈ l, p a = q a) :
    l.any p = l.any q := by
  rw [Bool.eq_iff_iff, List.any_eq_true, List.any_eq_true]
  exact exists_congr fun a => and_congr_right fun ha => by rw [h a ha]

/-- Elements that nothing comes of can be left out. -/
theorem flatMap_filter {f : α → List β} {p : α → Bool} (l : List α)
    (h : ∀ a, p a = false → f a = []) : (l.filter p).flatMap f = l.flatMap f := by
  induction l with
  | nil => rfl
  | cons a l ih =>
    by_cases ha : p a = true
    · rw [List.filter_cons_of_pos ha, List.flatMap_cons, List.flatMap_cons, ih]
    · rw [List.filter_cons_of_neg ha, List.flatMap_cons, h a (by simpa using ha), List.nil_append,
        ih]

/-- A function that tells the elements of two lists apart tells the lists apart. -/
theorem eq_of_map_eq {f : α → β} {l l' : List α}
    (inj : ∀ a ∈ l, ∀ b ∈ l', f a = f b → a = b) (h : l.map f = l'.map f) : l = l' := by
  induction l generalizing l' with
  | nil => exact (List.map_eq_nil_iff.mp h.symm).symm
  | cons a l ih =>
    obtain ⟨b, l', rfl, first, rest⟩ := List.map_eq_cons_iff.mp h.symm
    rw [inj a (by simp) b (by simp) first.symm,
      ih (fun c hc d hd => inj c (by simp [hc]) d (by simp [hd])) rest.symm]

/-! ## Related lists -/

variable {R : α → β → Prop} {l : List α} {l' : List β}

theorem exists_of_mem_left (h : List.Forall₂ R l l') {a : α} (ha : a ∈ l) : ∃ b ∈ l', R a b := by
  induction h with
  | nil => simp at ha
  | @cons x y l l' hr _ ih =>
    rcases List.mem_cons.mp ha with rfl | ha
    · exact ⟨y, by simp, hr⟩
    · obtain ⟨b, hb, hr⟩ := ih ha
      exact ⟨b, by simp [hb], hr⟩

theorem exists_of_mem_right (h : List.Forall₂ R l l') {b : β} (hb : b ∈ l') :
    ∃ a ∈ l, R a b :=
  exists_of_mem_left h.flip hb

theorem forall₂_imp_of_mem {S : α → β → Prop} (imp : ∀ a ∈ l, ∀ b ∈ l', R a b → S a b)
    (h : List.Forall₂ R l l') : List.Forall₂ S l l' := by
  induction h with
  | nil => exact .nil
  | cons hr _ ih =>
    exact .cons (imp _ (by simp) _ (by simp) hr)
      (ih fun a ha b hb => imp a (by simp [ha]) b (by simp [hb]))

/-- Two lists that are related to the same list are related through its elements. -/
theorem forall₂_through {γ : Type} {S : α → γ → Prop} {l'' : List γ} (h : List.Forall₂ R l l')
    (h' : List.Forall₂ S l l'') : List.Forall₂ (fun b c => ∃ a ∈ l, R a b ∧ S a c) l' l'' := by
  induction h generalizing l'' with
  | nil =>
    cases h'
    exact .nil
  | @cons a b l l' hr _ ih =>
    cases h' with
    | cons hs h' =>
      refine .cons ⟨a, by simp, hr, hs⟩ ((ih h').imp fun _ _ ⟨a', ha, hb, hc⟩ => ?_)
      exact ⟨a', List.mem_cons_of_mem a ha, hb, hc⟩

/-- A list in another order is related to the other list in another order. -/
theorem exists_forall₂_of_perm {m : List α} (h : List.Forall₂ R l l') (perm : m.Perm l) :
    ∃ m' : List β, m'.Perm l' ∧ List.Forall₂ R m m' := by
  obtain ⟨m', related, perm⟩ := List.perm_comp_forall₂ perm h
  exact ⟨m', perm, related⟩

/-- Lists that are put together from lists with the same elements have the same elements. -/
theorem perm_flatMap {γ : Type} {f : α → List γ} {g : β → List γ}
    (h : List.Forall₂ (fun a b => (f a).Perm (g b)) l l') : (l.flatMap f).Perm (l'.flatMap g) := by
  induction h with
  | nil => exact .nil
  | cons first _ ih => simpa using first.append ih

/-- Lists without repetition, the elements of which tell where they come from, have no element in
common. -/
theorem nodup_flatten {R : α → List β → Prop} {l : List α} {ls : List (List β)}
    (h : List.Forall₂ R l ls) (nodup : l.Nodup) (origin : β → α)
    (own : ∀ a bs, R a bs → bs.Nodup ∧ ∀ b ∈ bs, origin b = a) : ls.flatten.Nodup := by
  induction h with
  | nil => exact .nil
  | @cons a bs l ls hr rest ih =>
    obtain ⟨fresh, nodup⟩ := List.nodup_cons.mp nodup
    rw [List.flatten_cons, List.nodup_append]
    refine ⟨(own a bs hr).1, ih nodup, ?_⟩
    rintro b hb other ho rfl
    obtain ⟨cs, hcs, ho⟩ := List.mem_flatten.mp ho
    obtain ⟨a', ha', hr'⟩ := exists_of_mem_right rest hcs
    obtain rfl : a' = a := ((own a' cs hr').2 b ho).symm.trans ((own a bs hr).2 b hb)
    exact fresh ha'

/-! ## What a computation gives -/

/-- What a computation gives, if it succeeds, has a property. -/
def Gives (x : Except ε α) (P : α → Prop) : Prop :=
  ∀ a, x = .ok a → P a

namespace Gives

variable {P : α → Prop} {Q : β → Prop}

theorem ok {a : α} (h : P a) : Gives (.ok a : Except ε α) P := by
  rintro _ ⟨⟩
  exact h

theorem mono {x : Except ε α} {P' : α → Prop} (h : Gives x P) (imp : ∀ a, P a → P' a) :
    Gives x P' :=
  fun a e => imp a (h a e)

theorem bind {x : Except ε α} {f : α → Except ε β} (hx : Gives x P)
    (hf : ∀ a, P a → Gives (f a) Q) : Gives (x >>= f) Q := by
  intro b h
  obtain ⟨a, e, h⟩ := exists_of_bind_eq_ok h
  exact hf a (hx a e) b h

theorem mapM {f : α → Except ε β} {l : List α} (h : ∀ a ∈ l, Gives (f a) Q) :
    Gives (l.mapM f) fun bs => ∀ b ∈ bs, Q b := by
  intro bs e b hb
  obtain ⟨a, ha, found⟩ := exists_of_mem_right (forall₂_of_mapM_eq_ok e) hb
  exact h a ha b found

end Gives

/-! ## How a computation fails -/

/-- The fault that a computation fails with, if it fails, has a property. -/
def Fails (x : Except ε α) (P : ε → Prop) : Prop :=
  ∀ e, x = .error e → P e

namespace Fails

variable {P P' : ε → Prop}

theorem ok (a : α) : Fails (.ok a) P :=
  fun _ h => by cases h

theorem error {e : ε} (h : P e) : Fails (.error e : Except ε α) P := by
  rintro _ ⟨⟩
  exact h

theorem mono {x : Except ε α} (h : Fails x P) (imp : ∀ e, P e → P' e) : Fails x P' :=
  fun e failed => imp e (h e failed)

theorem bind {x : Except ε α} {f : α → Except ε β} (hx : Fails x P)
    (hf : ∀ a, x = .ok a → Fails (f a) P) : Fails (x >>= f) P := by
  cases x with
  | error fault => exact fun e h => hx e (congrArg Except.error (Except.error.inj h))
  | ok a => exact hf a rfl

theorem mapM {f : α → Except ε β} {l : List α} (h : ∀ a ∈ l, Fails (f a) P) :
    Fails (l.mapM f) P := by
  induction l with
  | nil => exact ok []
  | cons a l ih =>
    rw [List.mapM_cons]
    exact (h a (by simp)).bind fun b _ =>
      (ih fun a ha => h a (by simp [ha])).bind fun bs _ => ok (b :: bs)

end Fails

end ConceptSpace.Sequence
