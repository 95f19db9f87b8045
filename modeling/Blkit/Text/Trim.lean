import Blkit.Text.Basic
import Mathlib.Data.List.TakeDrop

/-!
# White space at the ends of a text

`strings.TrimSpace` takes white space off both ends of a text.  White space is that
of Unicode, so that some of it takes two or three bytes; what is taken off never
contains an ASCII byte that one can see.
-/

namespace Blkit

open List

/-- White space in ASCII. -/
def isSpace (c : Char) : Bool :=
  c == ' ' || c == '\t' || c == '\n' || c == '\x0b' || c == '\x0c' || c == '\r'

/-- A byte that is a character of its own. -/
def isAscii (c : Char) : Bool := decide (c < '\x80')

/-- An ASCII byte other than white space. -/
def isInk (c : Char) : Bool := isAscii c && !isSpace c

/-- The white space of Unicode that is not in ASCII, in UTF-8: U+0085, U+00A0, U+1680,
U+2000 to U+200A, U+2028, U+2029, U+202F, U+205F and U+3000. -/
def wideSpaces : List Text :=
  [['\xc2', '\x85'], ['\xc2', '\xa0'], ['\xe1', '\x9a', '\x80'], ['\xe2', '\x80', '\x80'],
    ['\xe2', '\x80', '\x81'], ['\xe2', '\x80', '\x82'], ['\xe2', '\x80', '\x83'],
    ['\xe2', '\x80', '\x84'], ['\xe2', '\x80', '\x85'], ['\xe2', '\x80', '\x86'],
    ['\xe2', '\x80', '\x87'], ['\xe2', '\x80', '\x88'], ['\xe2', '\x80', '\x89'],
    ['\xe2', '\x80', '\x8a'], ['\xe2', '\x80', '\xa8'], ['\xe2', '\x80', '\xa9'],
    ['\xe2', '\x80', '\xaf'], ['\xe2', '\x81', '\x9f'], ['\xe3', '\x80', '\x80']]

/-- How many bytes the white space takes with which the text begins. -/
def spaceWidth (wide : List Text) (s : Text) : Nat :=
  if s.head?.any isSpace then 1 else ((wide.find? fun w => w.isPrefixOf s).map List.length).getD 0

/-- The text without white space at its beginning, `skip` bytes of which have been
recognised already. -/
def trimFront (wide : List Text) : Text → (skip : Nat) → Text
  | [], _ => []
  | _ :: s, skip + 1 => trimFront wide s skip
  | c :: s, 0 =>
    match spaceWidth wide (c :: s) with
    | 0 => c :: s
    | n + 1 => trimFront wide s n

/-- `strings.TrimSpace`. -/
def trimSpace (s : Text) : Text :=
  (trimFront (wideSpaces.map List.reverse) (trimFront wideSpaces s 0).reverse 0).reverse

section Front

variable {wide : List Text}

lemma isInk_of_mem_take_spaceWidth (hwide : ∀ w ∈ wide, ∀ c ∈ w, isInk c = false) (s : Text) :
    ∀ c ∈ s.take (spaceWidth wide s), isInk c = false := by
  intro c hc
  rw [spaceWidth] at hc
  split at hc
  · rename_i hs
    cases s with
    | nil => simp at hc
    | cons d s =>
      obtain rfl : c = d := by simpa using hc
      have hd : isSpace c = true := hs
      simp [isInk, hd]
  · cases hf : wide.find? fun w => w.isPrefixOf s with
    | none => simp [hf] at hc
    | some w =>
      have hw : w <+: s := by simpa using find?_some hf
      rw [hf, Option.map_some, Option.getD_some, ← prefix_iff_eq_take.1 hw] at hc
      exact hwide w (mem_of_find?_eq_some hf) c hc

/-- Only white space is taken off. -/
lemma exists_eq_append_trimFront (hwide : ∀ w ∈ wide, ∀ c ∈ w, isInk c = false) {s : Text}
    {skip : Nat} (hskip : ∀ c ∈ s.take skip, isInk c = false) :
    ∃ p, s = p ++ trimFront wide s skip ∧ ∀ c ∈ p, isInk c = false := by
  induction s generalizing skip with
  | nil => exact ⟨[], rfl, by simp⟩
  | cons c s ih =>
    cases skip with
    | succ skip =>
      simp only [take_succ_cons, forall_mem_cons] at hskip
      obtain ⟨p, hp, hink⟩ := ih hskip.2
      refine ⟨c :: p, ?_, forall_mem_cons.2 ⟨hskip.1, hink⟩⟩
      rw [trimFront, cons_append, ← hp]
    | zero =>
      have hink := isInk_of_mem_take_spaceWidth hwide (c :: s)
      rw [trimFront]
      split
      · exact ⟨[], rfl, by simp⟩
      · rename_i n hn
        rw [hn, take_succ_cons, forall_mem_cons] at hink
        obtain ⟨p, hp, hpink⟩ := ih hink.2
        exact ⟨c :: p, by rw [cons_append, ← hp], forall_mem_cons.2 ⟨hink.1, hpink⟩⟩

/-- Where the white space is in ASCII, and what follows it begins in ASCII. -/
lemma trimFront_eq_dropWhile (hwide : ∀ w ∈ wide, ∃ c ∈ w.head?, isAscii c = false) {s : Text}
    (h : ∀ c ∈ (s.dropWhile isSpace).head?, isAscii c) :
    trimFront wide s 0 = s.dropWhile isSpace := by
  induction s with
  | nil => rfl
  | cons c s ih =>
    cases hc : isSpace c with
    | true =>
      have hw : spaceWidth wide (c :: s) = 1 := by simp [spaceWidth, hc]
      rw [dropWhile_cons_of_pos hc] at h ⊢
      rw [trimFront, hw]
      exact ih h
    | false =>
      rw [dropWhile_cons_of_neg (by simp [hc])] at h ⊢
      have hnone : wide.find? (fun w => w.isPrefixOf (c :: s)) = none := by
        rw [find?_eq_none]
        intro w hw hpre
        obtain ⟨d, hd, hdascii⟩ := hwide w hw
        obtain ⟨t, ht⟩ := isPrefixOf_iff_prefix.1 hpre
        cases w with
        | nil => simp at hd
        | cons e w =>
          obtain rfl : e = d := by simpa using hd
          obtain rfl : e = c := by simpa using congrArg head? ht
          simp [h e (by simp)] at hdascii
      have hw : spaceWidth wide (c :: s) = 0 := by simp [spaceWidth, hc, hnone]
      rw [trimFront, hw]

end Front

lemma isInk_of_mem_wideSpaces : ∀ w ∈ wideSpaces, ∀ c ∈ w, isInk c = false := by
  have h : (wideSpaces.all fun w => w.all fun c => !isInk c) = true := rfl
  intro w hw c hc
  simpa using all_eq_true.1 (all_eq_true.1 h w hw) c hc

/-- The first byte of a white space that is not in ASCII is not in ASCII, and neither is
the last. -/
lemma isAscii_of_mem_wideSpaces : (∀ w ∈ wideSpaces, ∃ c ∈ w.head?, isAscii c = false) ∧
      ∀ w ∈ wideSpaces.map reverse, ∃ c ∈ w.head?, isAscii c = false := by
  have h : (wideSpaces.all fun w => w.head?.any fun c => !isAscii c) = true := rfl
  have h' : ((wideSpaces.map reverse).all fun w => w.head?.any fun c => !isAscii c) = true := rfl
  constructor
  · intro w hw
    simpa [Option.any_eq_true] using all_eq_true.1 h w hw
  · intro w hw
    simpa [Option.any_eq_true] using all_eq_true.1 h' w hw

/-- What `strings.TrimSpace` takes off is white space. -/
lemma exists_eq_append_trimSpace (s : Text) : ∃ p q, s = p ++ trimSpace s ++ q ∧
    (∀ c ∈ p, isInk c = false) ∧ ∀ c ∈ q, isInk c = false := by
  have hreverse : ∀ w ∈ wideSpaces.map reverse, ∀ c ∈ w, isInk c = false := by
    intro w hw c hc
    obtain ⟨v, hv, rfl⟩ := mem_map.1 hw
    exact isInk_of_mem_wideSpaces v hv c (mem_reverse.1 hc)
  obtain ⟨p, hp, hpink⟩ :=
    @exists_eq_append_trimFront wideSpaces isInk_of_mem_wideSpaces s 0 (by simp)
  obtain ⟨q, hq, hqink⟩ := @exists_eq_append_trimFront (wideSpaces.map reverse) hreverse
    (trimFront wideSpaces s 0).reverse 0 (by simp)
  refine ⟨p, q.reverse, ?_, hpink, fun c hc => hqink c (mem_reverse.1 hc)⟩
  have hrev : trimFront wideSpaces s 0 = trimSpace s ++ q.reverse := by
    rw [trimSpace, ← reverse_append, ← hq, reverse_reverse]
  rw [append_assoc, ← hrev]
  exact hp

end Blkit
