import Blkit.Text.Split

/-!
# Reading a text

A text reads as a list of items without white space when it is the text of these
items, laid out in some way.  The passes take texts that read as one list to texts
that read as another.
-/

namespace Blkit

namespace Item

/-- No item can run on into the text. -/
def Stops (rest : Text) : Prop :=
  ∀ c ∈ rest.head?, isIdentByte c = false ∧ ∀ d, wideOps.contains [d, c] = false

lemma stops_nil : Stops [] := by simp [Stops]

lemma stops_cons {c : Char} (hc : c = ' ' ∨ c = ',' ∨ isOpen c ∨ isClose c) (rest : Text) :
    Stops (c :: rest) := by
  intro c' h
  obtain rfl : c = c' := by simpa using h
  rw [isOpen_iff, isClose_iff] at hc
  rcases hc with rfl | rfl | (rfl | rfl | rfl) | (rfl | rfl | rfl) <;>
    exact ⟨rfl, fun d => by simp [wideOps]⟩

variable {rest : Text}

lemma endsBefore_of_stops (h : Stops rest) (x : Item) : endsBefore rest x := by
  cases hrest : rest.head? with
  | none =>
    unfold endsBefore merges
    split <;> simp [hrest]
  | some c =>
    obtain ⟨hi, hm⟩ := h c hrest
    unfold endsBefore merges
    split <;> simp_all

variable {xs : List Item}

/-- Items that end where the text ends also end before a text that stops them. -/
lemma okAll_of_stops {rest' : Text} (h : Stops rest') (hok : okAll xs rest) : okAll xs rest' := by
  induction xs with
  | nil => rfl
  | cons x xs ih =>
    simp only [okAll, Bool.and_eq_true] at hok ⊢
    refine ⟨⟨hok.1.1, ?_⟩, ih hok.2⟩
    cases htext : textAll xs with
    | nil => exact endsBefore_of_stops h x
    | cons c t =>
      rw [htext] at hok
      exact (endsBefore_congr (by simp) x).trans hok.1.2

lemma ok_of_okAll (h : okAll xs rest) : ∀ x ∈ xs, x.ok := by
  induction xs with
  | nil => simp
  | cons x xs ih =>
    simp only [okAll, Bool.and_eq_true] at h
    simpa [h.1.1] using ih h.2

/-- Part of a list of items is read as it is in the list. -/
lemma okAll_of_append {ys : List Item} (h : okAll (xs ++ ys) rest) :
    okAll xs [] ∧ okAll ys rest := by
  rw [okAll_append, Bool.and_eq_true] at h
  exact ⟨okAll_of_stops stops_nil h.1, h.2⟩

lemma okAll_trim (h : okAll xs rest) : okAll (trim xs) [] := by
  have h₁ : okAll (xs.dropWhile isBlank) rest = true := by
    obtain ⟨a, ha⟩ := List.dropWhile_suffix (l := xs) isBlank
    rw [← ha] at h
    exact (okAll_of_append h).2
  obtain ⟨b, hb⟩ := List.rdropWhile_prefix isBlank (xs.dropWhile isBlank)
  rw [← hb] at h₁
  exact (okAll_of_append h₁).1

lemma eraseAll_dropWhile (xs : List Item) : eraseAll (xs.dropWhile isBlank) = eraseAll xs := by
  induction xs with
  | nil => rfl
  | cons x xs ih =>
    cases x with
    | blank c =>
      rw [List.dropWhile_cons_of_pos rfl, ih]
      rfl
    | _ => rfl

lemma eraseAll_rdropWhile (xs : List Item) : eraseAll (xs.rdropWhile isBlank) = eraseAll xs := by
  induction xs using List.reverseRecOn with
  | nil => rfl
  | append_singleton xs x ih =>
    cases x with
    | blank c =>
      rw [List.rdropWhile_concat_pos _ _ _ rfl, ih]
      simp [eraseAll, erase]
    | _ => rw [List.rdropWhile_concat_neg _ _ _ (by simp [isBlank])]

@[simp] lemma eraseAll_trim (xs : List Item) : eraseAll (trim xs) = eraseAll xs := by
  rw [trim, eraseAll_rdropWhile, eraseAll_dropWhile]

/-- The item with the content of its group, if it is one, replaced. -/
def mapGroup (f : List Item → List Item) : Item → Item
  | .group b inner => .group b (f inner)
  | x => x

end Item

open Item

/-- The text is a layout of the items. -/
def Reads (s : Text) (T : List Item) : Prop :=
  ∃ xs, textAll xs = s ∧ okAll xs [] = true ∧ eraseAll xs = T

variable {s : Text} {T : List Item}

lemma Reads.lex_eq (h : Reads s T) : lex s = flatAll T := by
  obtain ⟨xs, rfl, hok, rfl⟩ := h
  rw [lex_textAll hok, (eraseAll_spec _).2]

lemma Reads.tight (h : Reads s T) : tightAll T := by
  obtain ⟨xs, -, -, rfl⟩ := h
  exact (eraseAll_spec xs).1

lemma reads_iff (hT : tightAll T) : Reads s T ↔ lex s = flatAll T := by
  refine ⟨Reads.lex_eq, fun h => ?_⟩
  obtain ⟨xs, rfl, hok, herase⟩ := exists_items hT h
  exact ⟨xs, rfl, hok, herase⟩

/-- A text reads in one way. -/
lemma Reads.unique {T' : List Item} (h : Reads s T) (h' : Reads s T') : T = T' := by
  have heq := h.lex_eq.symm.trans h'.lex_eq
  refine (eq_of_flatAll T h.tight T' [] [] h'.tight ?_ ?_ (by simpa using heq)).1 <;> simp [AtEnd]

/-! ## Putting texts together -/

namespace Reads

variable {s s' : Text} {T T' : List Item}

lemma nil : Reads [] [] := ⟨[], rfl, rfl, rfl⟩

lemma word {w : Text} (h : IsWord w) : Reads w [.word w] := by
  refine ⟨[.word w], by simp [textAll, text], ?_, rfl⟩
  have hne : w.isEmpty = false := by simpa using h.1
  have hall : w.all isIdentByte = true := by simpa using h.2
  simp [okAll, ok, endsBefore, textAll, hne, hall]

lemma append (h : Reads s T) (h' : Reads s' T') (hstop : Stops s') : Reads (s ++ s') (T ++ T') := by
  obtain ⟨xs, rfl, hok, rfl⟩ := h
  obtain ⟨ys, rfl, hok', rfl⟩ := h'
  refine ⟨xs ++ ys, by simp, ?_, by simp⟩
  rw [okAll_append, List.append_nil, okAll_of_stops hstop hok, hok']
  rfl

lemma blank_cons (h : Reads s T) : Reads (' ' :: s) T := by
  obtain ⟨xs, rfl, hok, rfl⟩ := h
  refine ⟨.blank ' ' :: xs, rfl, ?_, by simp [eraseAll, erase]⟩
  have hspace : isSpace ' ' = true := rfl
  simpa [okAll, ok, endsBefore, hspace] using hok

lemma append_blank (h : Reads s T) : Reads (s ++ [' ']) T := by
  simpa using h.append nil.blank_cons (stops_cons (.inl rfl) [])

lemma group (b : Bracket) (h : Reads s T) : Reads (b.opening :: s ++ [b.closing]) [.group b T] := by
  obtain ⟨xs, rfl, hok, rfl⟩ := h
  refine ⟨[.group b xs], by simp [textAll, text], ?_, by simp [eraseAll, erase]⟩
  have hstop : Stops [b.closing] := stops_cons (by cases b <;> simp [Bracket.closing, isClose]) []
  simp [okAll, ok, endsBefore, okAll_of_stops hstop hok]

end Reads

lemma Item.stops_blank (rest : Text) : Stops (' ' :: rest) := stops_cons (.inl rfl) rest

/-! ## Passes over the groups -/

/-- A pass that does something to what is in brackets. -/
lemma mapTopLevelGroups_reads {fn : Text → Text} {f : List Item → List Item} {xs : List Item}
    {Q : Text} (hok : okAll xs Q)
    (hfn : ∀ b inner, Item.group b inner ∈ xs → Reads (fn (textAll inner)) (f (eraseAll inner))) :
    ∃ ys, textAll ys = mapTopLevelGroups (textAll xs) fn ∧ okAll ys Q ∧
      (textAll ys).head? = (textAll xs).head? ∧
      eraseAll ys = (eraseAll xs).map (mapGroup f) := by
  rw [mapTopLevelGroups_eq hok]
  induction xs with
  | nil => exact ⟨[], rfl, rfl, rfl, rfl⟩
  | cons x xs ih =>
    simp only [okAll, Bool.and_eq_true] at hok
    obtain ⟨ys, htext, hys, hhead, herase⟩ := ih hok.2 fun b inner h => hfn b inner (by simp [h])
    have hnext : (textAll ys ++ Q).head? = (textAll xs ++ Q).head? := by
      rw [List.head?_append, List.head?_append, hhead]
    have hend : x.endsBefore (textAll ys ++ Q) = true := (endsBefore_congr hnext x).trans hok.1.2
    by_cases hx : ∃ b inner, x = .group b inner
    · obtain ⟨b, inner, rfl⟩ := hx
      obtain ⟨zs, hzs, hzok, hz⟩ := hfn b inner (by simp)
      refine ⟨.group b zs :: ys, ?_, ?_, rfl, ?_⟩
      · simp [textAll, text, mapText, hzs, htext]
      · simp only [okAll, Bool.and_eq_true]
        refine ⟨⟨okAll_of_stops (stops_cons ?_ []) hzok, rfl⟩, hys⟩
        cases b <;> simp [Bracket.closing, isClose]
      · simp [eraseAll, erase, mapGroup, hz, herase]
    · obtain ⟨hmap, hx⟩ : mapText fn x = x.text ∧ x.erase.map (mapGroup f) = x.erase := by
        cases x <;> first | exact ⟨rfl, rfl⟩ | exact absurd ⟨_, _, rfl⟩ hx
      refine ⟨x :: ys, ?_, ?_, ?_, ?_⟩
      · rw [List.flatMap_cons, hmap, ← htext, textAll]
      · simp only [okAll, Bool.and_eq_true]
        exact ⟨⟨hok.1.1, hend⟩, hys⟩
      · simp [textAll, List.head?_append, hhead]
      · simp [eraseAll, hx, herase]

end Blkit
