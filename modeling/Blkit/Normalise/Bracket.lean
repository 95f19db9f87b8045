import Blkit.Normalise.Scanners
import Blkit.Text.Reading
import Blkit.Text.Split

/-!
# The ends of groups

The passes find the end of a bracketed group in two ways: `matchGroupEnd` counts brackets
of all kinds, and `mapTopLevelGroups` only those of the kind that was opened.  On text whose
brackets are nested, outside string literals, the two find the same end.
-/

namespace Blkit

open Item List

lemma matchGroupEnd_nested (b : Bracket) {t : Text} (ht : Nested t) (P Q : Text) :
    matchGroupEnd (P ++ b.opening :: (t ++ b.closing :: Q)) P.length =
      some (P.length + 1 + t.length) := by
  unfold matchGroupEnd
  extract_lets visit
  have hdeep : ∀ i c (d : Int) st, 0 < d → visit i c d st = .next 1 st := by
    intro i c d st hd
    have hne : (d == 0) = false := beq_eq_false_iff_ne.2 hd.ne'
    simp only [visit, hne, Bool.and_false]
    rfl
  have hopen : visit P.length b.opening 1 () = .next 1 () := hdeep _ _ _ _ (by decide)
  have hclose : visit (P.length + 1 + t.length) b.closing 0 () =
      .stop (P.length + 1 + t.length) := by
    simp [visit, b.kind_closing]
  rw [scan, take_length, drop_left,
    scanLoop_next b.kind_opening.1 (by rw [b.nesting_opening]; rfl) hopen,
    scanLoop_nested hdeep ht _ _ _ (by decide),
    scanLoop_stop b.kind_closing.1 (by rw [b.nesting_closing]; rfl) hclose]
  rfl

lemma mapGroupsLoop_id {a : Text} (ha : Nested a) : mapGroupsLoop id a 0 = a := by
  induction ha with
  | nil => rfl
  | @char c s hq hn _ ih =>
    have ho : isOpen c = false := Bool.eq_false_iff.2 fun h => by simp [nesting, h] at hn
    exact (mapGroupsLoop_plain (a := [c]) (forall_mem_singleton.2 ⟨hq, ho⟩) s).trans
      (by rw [ih]; rfl)
  | str ht _ ih => rw [mapGroupsLoop_str ht, ih]
  | group b ht _ _ ih => rw [mapGroupsLoop_group b ht, ih, id]

/-- A reader in a string literal is in it up to the quote that ends it. -/
lemma after_inLiteral {e : Bool} {t : Text} (h : stringBody e (t ++ ['"']) = some t) :
    (inLiteral e).after (t ++ ['"']) = .code ∧ ∀ p, p <+: t → (inLiteral e).after p ≠ .code := by
  have hcode (e : Bool) : inLiteral e ≠ .code := by cases e <;> decide
  induction t generalizing e with
  | nil => cases e <;> simp_all [stringBody, inLiteral, Reading.step]
  | cons c t ih =>
    have hstep : (inLiteral e).step c = inLiteral (!e && c == '\\') ∧
        stringBody (!e && c == '\\') (t ++ ['"']) = some t := by
      cases e with
      | true => simpa [stringBody, inLiteral, Reading.step] using h
      | false =>
        by_cases hc : c = '"'
        · simp [stringBody, hc] at h
        · exact ⟨step_inLiteral (.inr hc), by simpa [stringBody, hc] using h⟩
    rw [cons_append, Reading.after_cons, hstep.1]
    refine ⟨(ih hstep.2).1, fun p hp => ?_⟩
    cases p with
    | nil => exact hcode e
    | cons c' p =>
      obtain ⟨rfl, htail⟩ := cons_prefix_cons.1 hp
      rw [Reading.after_cons, hstep.1]
      exact (ih hstep.2).2 p htail

lemma closed_cons {c : Char} {s : Text} (hq : (c == '"') = false) : Closed (c :: s) ↔ Closed s := by
  simp [Closed, Reading.step, hq]

lemma closed_append {s t : Text} (hs : Closed s) : Closed (s ++ t) ↔ Closed t := by
  rw [Closed, hs.after_append, Closed]

lemma closed_str {t : Text} (ht : stringBody false (t ++ ['"']) = some t) :
    Closed (Item.str t).text :=
  (after_inLiteral ht).1

lemma Nested.closed {a : Text} (ha : Nested a) : Closed a := by
  induction ha with
  | nil => rfl
  | char hq _ _ ih => exact (closed_cons hq).2 ih
  | str ht _ ih => exact (closed_append (closed_str ht)).2 ih
  | group b _ _ iht ih =>
    rwa [closed_cons b.kind_opening.1, closed_append iht, closed_cons b.kind_closing.1]

/-- A byte is before or after another one of the text. -/
lemma before_or_after {t s P rest : Text} {e c : Char}
    (h : t ++ e :: s = P ++ c :: rest) (hne : e ≠ c) :
    (∃ P', P = t ++ e :: P' ∧ s = P' ++ c :: rest) ∨ ∃ u, t = P ++ c :: u ∧ rest = u ++ e :: s := by
  rcases append_eq_append_iff.1 h with ⟨_ | ⟨p, P'⟩, rfl, hs⟩ | ⟨_ | ⟨p, u⟩, rfl, hu⟩ <;> simp_all

/-- An opening bracket of nested text that is in no string literal opens a group. -/
lemma exists_group {c : Char} {s P rest : Text} (hs : Nested s) (h : s = P ++ c :: rest)
    (hP : Closed P) (hc : isOpen c) :
    ∃ b t u, c = Bracket.opening b ∧ rest = t ++ b.closing :: u ∧ Nested t := by
  have hquote : '"' ≠ c := by
    rintro rfl
    cases hc
  induction hs generalizing P rest with
  | nil => simp at h
  | char hq hn _ ih =>
    cases P with
    | nil =>
      cases h
      simp [nesting, hc] at hn
    | cons p P =>
      cases h
      exact ih rfl ((closed_cons hq).1 hP)
  | @str t s ht _ ih =>
    rw [text, cons_append, cons_append, append_assoc, singleton_append] at h
    cases P with
    | nil => exact absurd (cons.inj h).1 hquote
    | cons p P =>
      obtain ⟨rfl, htail⟩ := cons.inj h
      rcases before_or_after htail hquote with ⟨P', rfl, hs⟩ | ⟨u, rfl, -⟩
      · have hcut : '"' :: (t ++ '"' :: P') = (Item.str t).text ++ P' := by simp [text]
        exact ih hs ((closed_append (closed_str ht)).1 (hcut ▸ hP))
      · exact absurd hP ((after_inLiteral ht).2 P (prefix_append _ _))
  | @group b t s ht _ iht ih =>
    have hne : b.closing ≠ c := by
      rintro rfl
      cases b <;> cases hc
    cases P with
    | nil =>
      cases h
      exact ⟨b, t, s, rfl, rfl, ht⟩
    | cons p P =>
      obtain ⟨rfl, htail⟩ := cons.inj h
      rw [closed_cons b.kind_opening.1] at hP
      rcases before_or_after htail hne with ⟨P', rfl, hs⟩ | ⟨u, htext, rfl⟩
      · rw [closed_append ht.closed, closed_cons b.kind_closing.1] at hP
        exact ih hs hP
      · obtain ⟨b', t', u', hb, rfl, ht'⟩ := iht htext hP
        exact ⟨b', t', u' ++ b.closing :: s, hb, by simp, ht'⟩

/-- Wherever a bracket is opened outside string literals, counting brackets of its kind
finds the same end of the group as counting all of them.  Groups that are mapped to
themselves leave the text as it is. -/
theorem groupEnds_agree {s : Text} (hs : Nested s) :
    (∀ i c, s[i]? = some c → isOpen c → Closed (s.take i) →
      matchGroupEnd s i = some (i + 1 + closeAt c (matchingClose c) (s.drop (i + 1)) 0 1 0)) ∧
    mapTopLevelGroups s id = s := by
  refine ⟨fun i c hi hc hclosed => ?_, mapGroupsLoop_id hs⟩
  obtain ⟨hlt, rfl⟩ := List.getElem?_eq_some_iff.1 hi
  have hsplit : s = s.take i ++ s[i] :: s.drop (i + 1) := by simp
  obtain ⟨b, t, u, hb, hrest, ht⟩ := exists_group hs hsplit hclosed hc
  have hend := matchGroupEnd_nested b ht (s.take i) u
  have hmatch : matchingClose b.opening = b.closing := by cases b <;> rfl
  rw [← hrest, ← hb, ← hsplit, length_take_of_le hlt.le] at hend
  rw [hend, hb, hmatch, hrest, closeAt_group b ht]

/-- A bracket within a parenthesis. -/
theorem groupEnds_agree_sample :
    matchGroupEnd "f([x])".toList 1 = some (1 + 1 + closeAt '(' ')' "[x])".toList 0 1 0) :=
  (groupEnds_agree (s := "f([x])".toList) (.char rfl rfl
    (.group .paren (.group .square (.char rfl rfl .nil) .nil) .nil))).1 1 '(' rfl rfl rfl

end Blkit
