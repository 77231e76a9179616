import Mathlib.Data.List.Basic

/-! Code words that can be read off the front of a text. What stands behind a word is the end of the text
or a letter at which the word can stop; then the text has only one reading. Words are put together one
behind the other, up to a closing letter, or with a separator between them. -/

namespace Codes

universe u v w

variable {α : Type u} {β : Type v} {γ : Type w}

/-- The text is at its end, or goes on with a letter at which a word can stop. -/
def Stops (stop : β → Prop) (rest : List β) : Prop := ∀ c ∈ rest.head?, stop c

/-- A text that goes on behind a word as it should begins with only one word. -/
def Readable (code : α → List β) (stop : β → Prop) : Prop :=
  ∀ a b x y, Stops stop x → Stops stop y → code a ++ x = code b ++ y → a = b ∧ x = y

variable {code : α → List β} {stop stop' : β → Prop}

theorem stops_nil : Stops stop [] := fun _ h => by cases h

theorem stops_cons {c : β} {rest : List β} : Stops stop (c :: rest) ↔ stop c := by
  unfold Stops
  rw [List.head?_cons]
  constructor
  · intro h
    exact h c rfl
  · intro h d hd
    cases hd
    exact h

namespace Readable

theorem injective (h : Readable code stop) : Function.Injective code := by
  intro a b hab
  exact (h a b [] [] stops_nil stops_nil (by rw [hab])).1

/-- Words that a reader gets back. -/
theorem of_read (read : List β → Option (α × List β))
    (h : ∀ a x, Stops stop x → read (code a ++ x) = some (a, x)) : Readable code stop := by
  intro a b x y hx hy heq
  have hread := h a x hx
  rw [heq, h b y hy] at hread
  obtain ⟨hba, hyx⟩ := Prod.mk.inj (Option.some.inj hread)
  exact ⟨hba.symm, hyx.symm⟩

/-- Words of letters of a kind, up to the first letter of another kind. -/
theorem of_kind {p : β → Bool} (hinj : Function.Injective code) (hkind : ∀ a, ∀ c ∈ code a, p c = true) :
    Readable code (fun c => p c = false) := by
  have htake : ∀ a x, Stops (fun c => p c = false) x → (code a ++ x).takeWhile p = code a := by
    intro a x hx
    rw [List.takeWhile_append_of_pos (hkind a)]
    cases x with
    | nil => rw [List.takeWhile_nil, List.append_nil]
    | cons c x => rw [List.takeWhile_cons_of_neg (by rw [stops_cons.mp hx]; simp), List.append_nil]
  intro a b x y hx hy heq
  have hab : code a = code b := by rw [← htake a x hx, heq, htake b y hy]
  rw [hab] at heq
  exact ⟨hinj hab, List.append_cancel_left heq⟩

/-- One word behind the other. -/
theorem pair {code' : γ → List β} (h : Readable code stop) (h' : Readable code' stop')
    (hstop : ∀ b, ∃ c w, code' b = c :: w ∧ stop c) :
    Readable (fun p : α × γ => code p.1 ++ code' p.2) stop' := by
  rintro ⟨a, b⟩ ⟨a', b'⟩ x y hx hy heq
  simp only [List.append_assoc] at heq
  have hfollow : ∀ b z, Stops stop (code' b ++ z) := by
    intro b z
    obtain ⟨c, w, hw, hc⟩ := hstop b
    rw [hw]
    exact stops_cons.mpr hc
  obtain ⟨haa', hrest⟩ := h a a' _ _ (hfollow b x) (hfollow b' y) heq
  obtain ⟨hbb', hxy⟩ := h' b b' x y hx hy hrest
  exact ⟨by rw [haa', hbb'], hxy⟩

/-- Words up to a closing letter, with which no word begins. -/
theorem terminated {close : β} (h : Readable code fun _ => True)
    (hclose : ∀ a, ∃ c w, code a = c :: w ∧ c ≠ close) :
    Readable (fun items : List α => items.flatMap code ++ [close]) fun _ => True := by
  intro items items' x y _ _ heq
  beta_reduce at heq
  induction items generalizing items' with
  | nil =>
      cases items' with
      | nil => exact ⟨rfl, List.append_cancel_left heq⟩
      | cons b rest =>
          obtain ⟨c, w, hw, hc⟩ := hclose b
          rw [List.flatMap_cons, hw] at heq
          exact absurd (List.cons.inj heq).1.symm hc
  | cons a rest ih =>
      cases items' with
      | nil =>
          obtain ⟨c, w, hw, hc⟩ := hclose a
          rw [List.flatMap_cons, hw] at heq
          exact absurd (List.cons.inj heq).1 hc
      | cons b rest' =>
          simp only [List.flatMap_cons, List.append_assoc] at heq ih
          obtain ⟨hab, hrest⟩ := h a b _ _ (fun _ _ => trivial) (fun _ _ => trivial) heq
          obtain ⟨hitems, hxy⟩ := ih rest' hrest
          exact ⟨by rw [hab, hitems], hxy⟩

/-- Words with a separator between them, up to a closing letter, with which no word begins. -/
theorem separated {sep close : β} (h : Readable code stop) (hsep : stop sep) (hstop : stop close)
    (hne : close ≠ sep) (hclose : ∀ a, ∃ c w, code a = c :: w ∧ c ≠ close) :
    Readable (fun items : List α => List.intercalate [sep] (items.map code) ++ [close])
      fun _ => True := by
  have hbegin : ∀ a rest x, List.intercalate [sep] ((a :: rest).map code) ++ [close] ++ x =
      code a ++ (if rest = [] then close :: x
        else sep :: (List.intercalate [sep] (rest.map code) ++ [close] ++ x)) := by
    intro a rest x
    cases rest with
    | nil => simp
    | cons b rest => simp [List.intercalate_cons_cons]
  have hfollow : ∀ (rest : List α) (x more : List β),
      Stops stop (if rest = [] then close :: x else sep :: more) := by
    intro rest x more
    split_ifs
    · exact stops_cons.mpr hstop
    · exact stops_cons.mpr hsep
  intro items items' x y _ _ heq
  beta_reduce at heq
  induction items generalizing items' with
  | nil =>
      cases items' with
      | nil => exact ⟨rfl, List.append_cancel_left heq⟩
      | cons b rest =>
          obtain ⟨c, w, hw, hc⟩ := hclose b
          rw [hbegin, hw] at heq
          exact absurd (List.cons.inj heq).1.symm hc
  | cons a rest ih =>
      cases items' with
      | nil =>
          obtain ⟨c, w, hw, hc⟩ := hclose a
          rw [hbegin, hw] at heq
          exact absurd (List.cons.inj heq).1 hc
      | cons b rest' =>
          rw [hbegin, hbegin] at heq
          obtain ⟨hab, hrest⟩ := h a b _ _ (hfollow rest x _) (hfollow rest' y _) heq
          split_ifs at hrest with hnil hnil' hnil'
          · exact ⟨by rw [hab, hnil, hnil'], (List.cons.inj hrest).2⟩
          · exact absurd (List.cons.inj hrest).1 hne
          · exact absurd (List.cons.inj hrest).1.symm hne
          · obtain ⟨hitems, hxy⟩ := ih rest' (List.cons.inj hrest).2
            exact ⟨by rw [hab, hitems], hxy⟩

end Readable

end Codes
