import Blkit.Text.Scan

/-!
# Bracketed texts

A text whose brackets and quotes match is a list of items: words, string literals,
operators, white space, and bracketed groups of items.  `lex` reads the lexemes of
any text; on the text of a list of items it returns the items without white space,
and every text with such lexemes is the text of a list of items.
-/

namespace Blkit

open List

/-- The kinds of brackets. -/
inductive Bracket where
  | paren | square | brace
deriving DecidableEq, Repr

/-- The opening bracket. -/
def Bracket.opening : Bracket → Char
  | .paren => '('
  | .square => '['
  | .brace => '\x7b'

/-- The closing bracket. -/
def Bracket.closing : Bracket → Char
  | .paren => ')'
  | .square => ']'
  | .brace => '\x7d'

/-- The bracket a character opens. -/
def opens (c : Char) : Option Bracket :=
  if c == '(' then some .paren else if c == '[' then some .square
  else if c == '\x7b' then some .brace else none

/-- The bracket a character closes. -/
def closes (c : Char) : Option Bracket :=
  if c == ')' then some .paren else if c == ']' then some .square
  else if c == '\x7d' then some .brace else none

/-- A part of a text. -/
inductive Item where
  | word (w : Text)
  | str (body : Text)
  | op (s : Text)
  | blank (c : Char)
  | group (b : Bracket) (inner : List Item)

/-- The operators of two characters. -/
def wideOps : List Text :=
  ["==".toList, "!=".toList, "<=".toList, ">=".toList, "**".toList, "..".toList, "&&".toList,
    "||".toList]

/-- The character and the next one are read as one operator. -/
def merges (c : Char) (rest : Text) : Bool := rest.head?.any fun d => wideOps.contains [c, d]

/-- A character of an operator: any ASCII character that is nothing else. -/
def isOpChar (c : Char) : Bool :=
  !isIdentByte c && !isSpace c && c != '"' && !isOpen c && !isClose c && isAscii c

/-- What is between the quotes of a string literal, whose opening quote has been
passed; `none` when it is not closed. -/
def stringBody (escaped : Bool) : Text → Option Text
  | [] => none
  | c :: s =>
    if escaped then (stringBody false s).map fun b => c :: b
    else if c == '"' then some []
    else (stringBody (c == '\\') s).map fun b => c :: b

namespace Item

mutual

/-- The text of an item. -/
def text : Item → Text
  | .word w => w
  | .str body => '"' :: body ++ ['"']
  | .op s => s
  | .blank c => [c]
  | .group b inner => b.opening :: textAll inner ++ [b.closing]

/-- The text of a list of items. -/
def textAll : List Item → Text
  | [] => []
  | x :: xs => text x ++ textAll xs

end

/-- The item ends where it should when `rest` follows. -/
def endsBefore (rest : Text) : Item → Bool
  | .word _ => !rest.head?.any isIdentByte
  | .op [c] => !merges c rest
  | _ => true

mutual

/-- The item is what it says it is. -/
def ok : Item → Bool
  | .word w => !w.isEmpty && w.all isIdentByte
  | .str body => stringBody false (body ++ ['"']) == some body
  | .op s => s.all isOpChar && (s.length == 1 || wideOps.contains s)
  | .blank c => isSpace c
  | .group b inner => okAll inner [b.closing]

/-- Every item is what it says it is, also when the items are read from their text
followed by `rest`. -/
def okAll : List Item → Text → Bool
  | [], _ => true
  | x :: xs, rest => ok x && endsBefore (textAll xs ++ rest) x && okAll xs rest

end

mutual

/-- The items without white space. -/
def erase : Item → List Item
  | .blank _ => []
  | .group b inner => [.group b (eraseAll inner)]
  | x => [x]

/-- The items without white space. -/
def eraseAll : List Item → List Item
  | [] => []
  | x :: xs => erase x ++ eraseAll xs

end

end Item

/-! ## Lexemes -/

/-- What the lexer reads. -/
inductive Lexeme where
  | word (w : Text)
  | str (body : Text)
  | op (s : Text)
  | opening (b : Bracket)
  | closing (b : Bracket)
  /-- A string literal that is not closed, or a byte that is not in ASCII. -/
  | unread
deriving DecidableEq, Repr

/-- The lexemes of what is left of a text, after `skip` more characters. -/
def lexLoop : Text → (skip : Nat) → List Lexeme
  | [], _ => []
  | _ :: s, skip + 1 => lexLoop s skip
  | c :: s, 0 =>
    if c == '"' then
      match stringBody false s with
      | some b => .str b :: lexLoop s (b.length + 1)
      | none => [.unread]
    else if isIdentByte c then
      .word (c :: s.takeWhile isIdentByte) :: lexLoop s (s.takeWhile isIdentByte).length
    else if isSpace c then lexLoop s 0
    else
      match opens c, closes c with
      | some b, _ => .opening b :: lexLoop s 0
      | none, some b => .closing b :: lexLoop s 0
      | none, none =>
        if !isAscii c then [.unread]
        else if merges c s then .op (c :: s.take 1) :: lexLoop s 1
        else .op [c] :: lexLoop s 0

/-- The lexemes of a text. -/
def lex (s : Text) : List Lexeme := lexLoop s 0

namespace Item

mutual

/-- The lexemes of an item. -/
def flat : Item → List Lexeme
  | .word w => [.word w]
  | .str body => [.str body]
  | .op s => [.op s]
  | .blank _ => []
  | .group b inner => .opening b :: flatAll inner ++ [.closing b]

/-- The lexemes of a list of items. -/
def flatAll : List Item → List Lexeme
  | [] => []
  | x :: xs => flat x ++ flatAll xs

end

end Item

/-! ## Kinds of characters -/

section Characters

variable {c : Char}

lemma ne_quote_of_isIdentByte (h : isIdentByte c) : (c == '"') = false := by
  rw [beq_eq_false_iff_ne]
  rintro rfl
  exact absurd h (by decide)

lemma isSpace_iff : isSpace c ↔
    c = ' ' ∨ c = '\t' ∨ c = '\n' ∨ c = '\x0b' ∨ c = '\x0c' ∨ c = '\r' := by
  simp [isSpace, or_assoc]

lemma isOpen_iff : isOpen c ↔ c = '(' ∨ c = '[' ∨ c = '\x7b' := by
  simp [isOpen, or_assoc]

lemma isClose_iff : isClose c ↔ c = ')' ∨ c = ']' ∨ c = '\x7d' := by
  simp [isClose, or_assoc]

/-- White space is nothing else. -/
lemma kind_of_isSpace (h : isSpace c) :
    isIdentByte c = false ∧ (c == '"') = false ∧ isOpen c = false ∧ isClose c = false := by
  rcases isSpace_iff.1 h with rfl | rfl | rfl | rfl | rfl | rfl <;> decide

lemma isSpace_of_isIdentByte (h : isIdentByte c) : isSpace c = false := by
  by_contra hs
  rw [(kind_of_isSpace (by simpa using hs)).1] at h
  cases h

/-- A word's characters are no brackets. -/
lemma bracket_of_isIdentByte (h : isIdentByte c) : isOpen c = false ∧ isClose c = false := by
  constructor <;> rw [Bool.eq_false_iff] <;> intro hb
  · rcases isOpen_iff.1 hb with rfl | rfl | rfl <;> exact absurd h (by decide)
  · rcases isClose_iff.1 hb with rfl | rfl | rfl <;> exact absurd h (by decide)

lemma opens_eq_none (h : isOpen c = false) : opens c = none := by
  simp only [isOpen, Bool.or_eq_false_iff] at h
  simp [opens, h.1.1, h.1.2, h.2]

lemma closes_eq_none (h : isClose c = false) : closes c = none := by
  simp only [isClose, Bool.or_eq_false_iff] at h
  simp [closes, h.1.1, h.1.2, h.2]

lemma isOpChar_iff : isOpChar c ↔ isIdentByte c = false ∧ isSpace c = false ∧
    (c == '"') = false ∧ isOpen c = false ∧ isClose c = false ∧ isAscii c := by
  simp [isOpChar, and_assoc]

/-- A bracket is nothing else. -/
lemma Bracket.kind_opening (b : Bracket) : (b.opening == '"') = false ∧
    isIdentByte b.opening = false ∧ isSpace b.opening = false ∧ isOpen b.opening ∧
    isClose b.opening = false := by
  cases b <;> decide

lemma Bracket.kind_closing (b : Bracket) : (b.closing == '"') = false ∧
    isIdentByte b.closing = false ∧ isSpace b.closing = false ∧ isOpen b.closing = false ∧
    isClose b.closing ∧ opens b.closing = none := by
  cases b <;> decide

end Characters

/-! ## String literals -/

section Strings

variable {e : Bool} {s b : Text}

lemma stringBody_append (h : stringBody e s = some b) (rest : Text) :
    stringBody e (s ++ rest) = some b := by
  induction s generalizing e b with
  | nil => cases h
  | cons c s ih =>
    rw [cons_append]
    simp only [stringBody] at h ⊢
    split at h
    · obtain ⟨b, hb, rfl⟩ := Option.map_eq_some_iff.1 h
      simp [*]
    · split at h
      · simp [*]
      · obtain ⟨b, hb, rfl⟩ := Option.map_eq_some_iff.1 h
        simp [*]

/-- A literal that is closed is passed with its closing quote. -/
lemma skipBody_of_stringBody (h : stringBody e s = some b) : skipBody e s = b.length + 1 := by
  induction s generalizing e b with
  | nil => cases h
  | cons c s ih =>
    simp only [stringBody, skipBody] at h ⊢
    split at h
    · obtain ⟨b, hb, rfl⟩ := Option.map_eq_some_iff.1 h
      simp [*]
    · split at h
      · cases h
        simp [*]
      · obtain ⟨b, hb, rfl⟩ := Option.map_eq_some_iff.1 h
        simp [*]

/-- What a literal that is closed looks like. -/
lemma eq_of_stringBody (h : stringBody e s = some b) : ∃ rest, s = b ++ '"' :: rest := by
  induction s generalizing e b with
  | nil => cases h
  | cons c s ih =>
    simp only [stringBody] at h
    split at h
    · obtain ⟨b, hb, rfl⟩ := Option.map_eq_some_iff.1 h
      obtain ⟨rest, rfl⟩ := ih hb
      exact ⟨rest, rfl⟩
    · split at h
      · rename_i hc
        cases h
        exact ⟨s, by rw [eq_of_beq hc]; rfl⟩
      · obtain ⟨b, hb, rfl⟩ := Option.map_eq_some_iff.1 h
        obtain ⟨rest, rfl⟩ := ih hb
        exact ⟨rest, rfl⟩

/-- Nothing after the closing quote matters. -/
lemma stringBody_of_append {rest : Text} (h : stringBody e (b ++ '"' :: rest) = some b) :
    stringBody e (b ++ ['"']) = some b := by
  induction b generalizing e with
  | nil =>
    cases e with
    | true => simp [stringBody] at h
    | false => rfl
  | cons c b ih =>
    simp only [cons_append, stringBody] at h ⊢
    split at h
    · simp only [Option.map_eq_some_iff, cons.injEq, true_and, exists_eq_right] at h
      simp [*]
    · split at h
      · cases h
      · simp only [Option.map_eq_some_iff, cons.injEq, true_and, exists_eq_right] at h
        simp [*]

end Strings

/-! ## The lexemes of items -/

lemma lexLoop_append (a s : Text) : lexLoop (a ++ s) a.length = lexLoop s 0 := by
  induction a with
  | nil => rfl
  | cons c a ih => exact ih

variable {c : Char} {rest : Text}

lemma lexLoop_word {w : Text} (hc : isIdentByte c)
    (hw : ∀ d ∈ w, isIdentByte d) (hrest : rest.head?.any isIdentByte = false) :
    lexLoop (c :: w ++ rest) 0 = .word (c :: w) :: lexLoop rest 0 := by
  have htake : (w ++ rest).takeWhile isIdentByte = w := by
    rw [takeWhile_append_of_pos hw]
    cases rest with
    | nil => simp
    | cons d rest =>
      have hd : isIdentByte d = false := by simpa using hrest
      simp [hd]
  rw [cons_append, lexLoop, ne_quote_of_isIdentByte hc, if_neg Bool.false_ne_true, if_pos hc,
    htake, lexLoop_append]

lemma lexLoop_str {b : Text} (h : stringBody false (b ++ ['"']) = some b) (rest : Text) :
    lexLoop ('"' :: b ++ ['"'] ++ rest) 0 = .str b :: lexLoop rest 0 := by
  have hbody := stringBody_append h rest
  have hlen := lexLoop_append (b ++ ['"']) rest
  rw [length_append, length_singleton] at hlen
  rw [cons_append, cons_append, lexLoop, if_pos (by decide), hbody]
  exact congrArg _ hlen

lemma lexLoop_space (hc : isSpace c) (rest : Text) : lexLoop (c :: rest) 0 = lexLoop rest 0 := by
  obtain ⟨hi, hq, -, -⟩ := kind_of_isSpace hc
  rw [lexLoop, hq, if_neg Bool.false_ne_true, hi, if_neg Bool.false_ne_true, if_pos hc]

lemma lexLoop_opening (b : Bracket) (rest : Text) :
    lexLoop (b.opening :: rest) 0 = .opening b :: lexLoop rest 0 := by
  cases b <;> rfl

lemma lexLoop_closing (b : Bracket) (rest : Text) :
    lexLoop (b.closing :: rest) 0 = .closing b :: lexLoop rest 0 := by
  cases b <;> rfl

lemma lexLoop_op_one (hc : isOpChar c)
    (h : merges c rest = false) : lexLoop (c :: rest) 0 = .op [c] :: lexLoop rest 0 := by
  obtain ⟨hi, hs, hq, ho, hcl, ha⟩ := isOpChar_iff.1 hc
  simp only [lexLoop, hq, hi, hs, ha, Bool.not_true, Bool.false_eq_true, if_false, opens_eq_none ho,
    closes_eq_none hcl, h]

lemma lexLoop_op_two {d : Char} (hc : isOpChar c) (h : wideOps.contains [c, d])
    (rest : Text) : lexLoop (c :: d :: rest) 0 = .op [c, d] :: lexLoop rest 0 := by
  obtain ⟨hi, hs, hq, ho, hcl, ha⟩ := isOpChar_iff.1 hc
  have hm : merges c (d :: rest) = true := h
  simp only [lexLoop, hq, hi, hs, ha, Bool.not_true, Bool.false_eq_true, if_false, opens_eq_none ho,
    closes_eq_none hcl, hm, if_true]
  rfl

variable {s : Text}

lemma of_mem_wideOps (h : wideOps.contains s) : s.length = 2 ∧ s.all isOpChar := by
  simp only [wideOps, contains_eq_mem, decide_eq_true_eq, mem_cons, not_mem_nil, or_false] at h
  rcases h with rfl | rfl | rfl | rfl | rfl | rfl | rfl | rfl <;> exact ⟨rfl, by decide⟩

lemma isOpen_of_opens (h : opens c = none) : isOpen c = false := by
  rw [Bool.eq_false_iff]
  intro ho
  rcases isOpen_iff.1 ho with rfl | rfl | rfl <;> cases h

lemma isClose_of_closes (h : closes c = none) : isClose c = false := by
  rw [Bool.eq_false_iff]
  intro ho
  rcases isClose_iff.1 ho with rfl | rfl | rfl <;> cases h

namespace Item

variable {c : Char} {rest rest' : Text}

lemma endsBefore_congr (h : rest.head? = rest'.head?) (x : Item) :
    endsBefore rest x = endsBefore rest' x := by
  unfold endsBefore
  split
  · rw [h]
  · rw [merges, merges, h]
  · rfl

/-- Only the next character matters for where items end. -/
lemma okAll_congr (h : rest.head? = rest'.head?) (xs : List Item) :
    okAll xs rest = okAll xs rest' := by
  induction xs with
  | nil => rfl
  | cons x xs ih =>
    rw [okAll, okAll, ih, endsBefore_congr]
    rw [head?_append, head?_append, h]

mutual

theorem lexLoop_text : (x : Item) → (rest : Text) → x.ok → x.endsBefore rest →
    lexLoop (x.text ++ rest) 0 = x.flat ++ lexLoop rest 0
  | .word [], _, hok, _ => by simp [ok] at hok
  | .word (c :: w), rest, hok, hend => by
    simp only [ok, isEmpty_cons, Bool.not_false, Bool.true_and, all_cons,
      Bool.and_eq_true, all_eq_true] at hok
    exact lexLoop_word hok.1 hok.2 (by simpa [endsBefore] using hend)
  | .str b, rest, hok, _ => lexLoop_str (by simpa [ok] using hok) rest
  | .op [], _, hok, _ => by simp [ok, wideOps] at hok
  | .op [c], rest, hok, hend => by
    simp only [ok, all_cons, all_nil, Bool.and_true, Bool.and_eq_true] at hok
    exact lexLoop_op_one hok.1 (by simpa [endsBefore] using hend)
  | .op [c, d], rest, hok, _ => by
    simp only [ok, all_cons, Bool.and_eq_true, length_cons, length_nil] at hok
    exact lexLoop_op_two hok.1.1 (by simpa using hok.2) rest
  | .op (_ :: _ :: _ :: _), _, hok, _ => by
    simp only [ok, Bool.and_eq_true, Bool.or_eq_true] at hok
    rcases hok.2 with h | h
    · simp at h
    · simpa using (of_mem_wideOps h).1
  | .blank _, rest, hok, _ => lexLoop_space hok rest
  | .group b inner, rest, hok, _ => by
    have hinner : okAll inner (b.closing :: rest) = true := by
      rw [ok] at hok
      rw [← hok]
      exact okAll_congr (by rfl) inner
    rw [text, cons_append, cons_append, append_assoc, singleton_append,
      lexLoop_opening, lexLoop_textAll inner _ hinner, lexLoop_closing, flat]
    simp

/-- The lexemes of a list of items are the items, without white space. -/
theorem lexLoop_textAll : (xs : List Item) → (rest : Text) → okAll xs rest →
    lexLoop (textAll xs ++ rest) 0 = flatAll xs ++ lexLoop rest 0
  | [], _, _ => rfl
  | x :: xs, rest, h => by
    simp only [okAll, Bool.and_eq_true] at h
    rw [textAll, append_assoc, lexLoop_text x _ h.1.1 h.1.2, lexLoop_textAll xs rest h.2,
      flatAll, append_assoc]

end

/-! ## Items without white space -/

mutual

/-- There is no white space in the item, at any depth. -/
def tight : Item → Bool
  | .blank _ => false
  | .group _ inner => tightAll inner
  | _ => true

/-- There is no white space in the items, at any depth. -/
def tightAll : List Item → Bool
  | [] => true
  | x :: xs => tight x && tightAll xs

end

@[simp] lemma textAll_append (xs ys : List Item) :
    textAll (xs ++ ys) = textAll xs ++ textAll ys := by
  induction xs with
  | nil => rfl
  | cons x xs ih => simp [textAll, ih]

@[simp] lemma flatAll_append (xs ys : List Item) :
    flatAll (xs ++ ys) = flatAll xs ++ flatAll ys := by
  induction xs with
  | nil => rfl
  | cons x xs ih => simp [flatAll, ih]

@[simp] lemma eraseAll_append (xs ys : List Item) :
    eraseAll (xs ++ ys) = eraseAll xs ++ eraseAll ys := by
  induction xs with
  | nil => rfl
  | cons x xs ih => simp [eraseAll, ih]

@[simp] lemma tightAll_append (xs ys : List Item) :
    tightAll (xs ++ ys) = (tightAll xs && tightAll ys) := by
  induction xs with
  | nil => rfl
  | cons x xs ih => simp [tightAll, ih, Bool.and_assoc]

/-- Where one list of items ends and the next one begins. -/
lemma okAll_append (xs ys : List Item) (rest : Text) :
    okAll (xs ++ ys) rest = (okAll xs (textAll ys ++ rest) && okAll ys rest) := by
  induction xs with
  | nil => rfl
  | cons x xs ih => simp [okAll, ih, Bool.and_assoc]

mutual

theorem erase_spec : (x : Item) → tightAll x.erase ∧ flatAll x.erase = x.flat
  | .group _ inner => by simp [erase, tightAll, tight, flatAll, flat, eraseAll_spec inner]
  | .blank _ | .word _ | .str _ | .op _ => ⟨rfl, rfl⟩

/-- White space has no lexemes. -/
theorem eraseAll_spec : (xs : List Item) → tightAll (eraseAll xs) ∧
    flatAll (eraseAll xs) = flatAll xs
  | [] => ⟨rfl, rfl⟩
  | x :: xs => by simp [eraseAll, flatAll, erase_spec x, eraseAll_spec xs]

end

/-- The list of lexemes is empty or begins with a closing bracket. -/
def AtEnd (L : List Lexeme) : Prop := ∀ l ∈ L.head?, ∃ b, l = .closing b

variable {x : Item}

lemma not_atEnd_flatAll_cons (hx : x.tight) (xs : List Item)
    (L : List Lexeme) : ¬ AtEnd (flatAll (x :: xs) ++ L) := by
  intro h
  cases x with
  | blank c => cases hx
  | _ =>
    obtain ⟨b, hb⟩ := h _ (by simp [flatAll, flat]; rfl)
    cases hb

mutual

theorem eq_of_flat : (x : Item) → x.tight → ∀ (y : Item) (L L' : List Lexeme),
    y.tight → x.flat ++ L = y.flat ++ L' → x = y ∧ L = L'
  | .blank _, hx, _, _, _, _, _ => by cases hx
  | .word w, _, y, L, L', hy, h | .str w, _, y, L, L', hy, h | .op w, _, y, L, L', hy, h => by
    cases y <;> simp_all [flat, tight]
  | .group b inner, hx, y, L, L', hy, h => by
    cases y with
    | group b' inner' =>
      simp only [flat, cons_append, append_assoc, cons.injEq, Lexeme.opening.injEq] at h
      obtain ⟨rfl, hrest⟩ := h
      obtain ⟨rfl, hL⟩ := eq_of_flatAll inner hx inner' _ _ hy (by simp [AtEnd]) (by simp [AtEnd])
        hrest
      simpa using hL
    | _ => simp_all [flat, tight]

/-- The lexemes determine the items, up to white space. -/
theorem eq_of_flatAll : (xs : List Item) → tightAll xs → ∀ (ys : List Item)
    (L L' : List Lexeme), tightAll ys → AtEnd L → AtEnd L' →
    flatAll xs ++ L = flatAll ys ++ L' → xs = ys ∧ L = L'
  | [], _, [], _, _, _, _, _, h => ⟨rfl, h⟩
  | [], _, y :: ys, L, L', hy, hL, _, h => by
    simp only [tightAll, Bool.and_eq_true] at hy
    rw [flatAll, nil_append] at h
    exact absurd (h ▸ hL) (not_atEnd_flatAll_cons hy.1 ys L')
  | x :: xs, hx, [], L, L', _, _, hL', h => by
    simp only [tightAll, Bool.and_eq_true] at hx
    have h' : flatAll (x :: xs) ++ L = L' := h
    exact absurd (h'.symm ▸ hL') (not_atEnd_flatAll_cons hx.1 xs L)
  | x :: xs, hx, y :: ys, L, L', hy, hL, hL', h => by
    simp only [tightAll, Bool.and_eq_true] at hx hy
    simp only [flatAll, append_assoc] at h
    obtain ⟨rfl, htail⟩ := eq_of_flat x hx.1 y _ _ hy.1 h
    obtain ⟨rfl, hrest⟩ := eq_of_flatAll xs hx.2 ys _ _ hy.2 hL hL' htail
    exact ⟨rfl, hrest⟩

end

/-! ## Every text with the lexemes of items is the text of items -/

lemma text_blanks (bs : Text) : textAll (bs.map .blank) = bs := by
  induction bs with
  | nil => rfl
  | cons c bs ih => simp [textAll, text, ih]

lemma eraseAll_blanks (bs : Text) : eraseAll (bs.map .blank) = [] := by
  induction bs with
  | nil => rfl
  | cons c bs ih => simp [eraseAll, erase, ih]

lemma okAll_blanks {bs : Text} (h : ∀ c ∈ bs, isSpace c) (rest : Text) :
    okAll (bs.map .blank) rest := by
  induction bs with
  | nil => rfl
  | cons c bs ih => simp_all [okAll, ok, endsBefore]

variable {s : Text} {l : Lexeme} {L : List Lexeme}

/-- A text with lexemes is some white space and then something else. -/
lemma exists_blanks (h : lexLoop s 0 = l :: L) :
    ∃ bs c s', s = bs ++ c :: s' ∧ (∀ d ∈ bs, isSpace d) ∧ isSpace c = false ∧
      lexLoop (c :: s') 0 = l :: L := by
  induction s with
  | nil => cases h
  | cons c s ih =>
    cases hc : isSpace c with
    | false => exact ⟨[], c, s, rfl, by simp, hc, h⟩
    | true =>
      rw [lexLoop_space hc] at h
      obtain ⟨bs, d, s', rfl, hbs, hd, hlex⟩ := ih h
      exact ⟨c :: bs, d, s', rfl, by simpa [hc] using hbs, hd, hlex⟩

/-- The item that a lexeme is, unless it is a bracket. -/
def ofLexeme : Lexeme → Option Item
  | .word w => some (.word w)
  | .str b => some (.str b)
  | .op s => some (.op s)
  | _ => none

/-- A text that begins with an item, as the first lexeme says. -/
lemma exists_item
    (hc : isSpace c = false) (h : lexLoop (c :: s) 0 = l :: L) (hx : ofLexeme l = some x) :
    ∃ rest, c :: s = x.text ++ rest ∧ x.ok ∧ x.endsBefore rest ∧ lexLoop rest 0 = L := by
  rw [lexLoop] at h
  split at h
  · -- A string literal.
    rename_i hq
    split at h
    · rename_i b hb
      obtain ⟨rest, rfl⟩ := eq_of_stringBody hb
      cases h
      cases hx
      have hlen := lexLoop_append (b ++ ['"']) rest
      rw [length_append, length_singleton, append_assoc] at hlen
      refine ⟨rest, by simp [text, eq_of_beq hq], ?_, rfl, hlen.symm⟩
      simp [ok, stringBody_of_append hb]
    · cases h
      cases hx
  split at h
  · -- A word.
    rename_i hi
    cases h
    cases hx
    have hlen := lexLoop_append (s.takeWhile isIdentByte) (s.dropWhile isIdentByte)
    rw [takeWhile_append_dropWhile] at hlen
    refine ⟨s.dropWhile isIdentByte, by simp [text], ?_, ?_, hlen.symm⟩
    · simp only [ok, isEmpty_cons, all_cons, hi, Bool.not_false, Bool.true_and, all_takeWhile]
    · simp only [endsBefore, Bool.not_eq_true', Option.any_eq_false]
      intro d hd
      have := head?_dropWhile_not isIdentByte s
      rw [hd] at this
      simpa using this
  rw [if_neg (by simp [hc])] at h
  split at h
  · cases h
    cases hx
  · cases h
    cases hx
  · -- An operator.
    rename_i hq hi _ _ ho hcl
    split at h
    · cases h
      cases hx
    rename_i ha
    have hop : isOpChar c = true := isOpChar_iff.2 ⟨by simpa using hi, hc, by simpa using hq,
      isOpen_of_opens ho, isClose_of_closes hcl, by simpa using ha⟩
    split at h
    · rename_i hm
      cases s with
      | nil => cases hm
      | cons d s =>
        have hwide : wideOps.contains [c, d] = true := hm
        cases h
        cases hx
        have hok : ok (.op [c, d]) = true := by
          rw [ok, (of_mem_wideOps hwide).2, hwide]
          rfl
        exact ⟨s, rfl, hok, rfl, rfl⟩
    · rename_i hm
      cases h
      cases hx
      exact ⟨s, rfl, by simp [ok, hop], by simpa [endsBefore] using hm, rfl⟩

variable {b : Bracket}

lemma eq_of_opens (h : opens c = some b) : c = b.opening := by
  by_cases ho : isOpen c = true
  · rcases isOpen_iff.1 ho with rfl | rfl | rfl <;> cases h <;> rfl
  · rw [opens_eq_none (by simpa using ho)] at h
    cases h

lemma eq_of_closes (h : closes c = some b) : c = b.closing := by
  by_cases hc : isClose c = true
  · rcases isClose_iff.1 hc with rfl | rfl | rfl <;> cases h <;> rfl
  · rw [closes_eq_none (by simpa using hc)] at h
    cases h

/-- A text that begins with a bracket, as the first lexeme says. -/
lemma eq_bracket (hc : isSpace c = false)
    (h : lexLoop (c :: s) 0 = l :: L) : (∀ b, l = .opening b → c = b.opening ∧ lexLoop s 0 = L) ∧
      ∀ b, l = .closing b → c = b.closing ∧ lexLoop s 0 = L := by
  rw [lexLoop] at h
  split at h
  · split at h <;> cases h <;> simp
  split at h
  · cases h
    simp
  rw [if_neg (by simp [hc])] at h
  split at h
  · rename_i ho
    cases h
    simp [eq_of_opens ho]
  · rename_i hcl
    cases h
    simp [eq_of_closes hcl]
  · split at h
    · cases h
      simp
    · split at h <;> cases h <;> simp

lemma exists_text_of_lexeme (hx : ofLexeme l = some x) (h : lexLoop s 0 = l :: L) :
    ∃ xs rest, s = textAll xs ++ rest ∧
      okAll xs rest ∧ eraseAll xs = [x] ∧ lexLoop rest 0 = L := by
  have herase : x.erase = [x] := by cases l <;> cases hx <;> rfl
  obtain ⟨bs, c, s, rfl, hbs, hc, hlex⟩ := exists_blanks h
  obtain ⟨rest, hs, hok, hend, hrest⟩ := exists_item hc hlex hx
  refine ⟨bs.map .blank ++ [x], rest, ?_, ?_, ?_, hrest⟩
  · simp [text_blanks, hs, textAll]
  · simp [okAll_append, okAll_blanks hbs, okAll, hok, textAll, hend]
  · simp [eraseAll_blanks, eraseAll, herase]

mutual

theorem exists_text : (x : Item) → x.tight → ∀ (s : Text) (L : List Lexeme),
    lexLoop s 0 = x.flat ++ L → ∃ xs rest, s = textAll xs ++ rest ∧ okAll xs rest ∧
      eraseAll xs = [x] ∧ lexLoop rest 0 = L
  | .blank _, hx, _, _, _ => by cases hx
  | .word _, _, _, _, h | .str _, _, _, _, h | .op _, _, _, _, h => exists_text_of_lexeme rfl h
  | .group b inner, hx, s, L, h => by
    rw [flat, cons_append, cons_append, append_assoc] at h
    obtain ⟨bs, c, s, rfl, hbs, hc, hlex⟩ := exists_blanks h
    obtain ⟨rfl, hopen⟩ := (eq_bracket hc hlex).1 b rfl
    obtain ⟨xs, rest, rfl, hok, herase, hinner⟩ := exists_textAll inner hx s _ hopen
    obtain ⟨bs', c', rest, rfl, hbs', hc', hlex'⟩ := exists_blanks hinner
    obtain ⟨rfl, hclose⟩ := (eq_bracket hc' hlex').2 b rfl
    refine ⟨bs.map .blank ++ [.group b (xs ++ bs'.map .blank)], rest, ?_, ?_, ?_, hclose⟩
    · simp [text_blanks, textAll, text]
    · have hinner : okAll xs (bs' ++ [b.closing]) = true := by
        rw [← hok]
        exact okAll_congr (by cases bs' <;> rfl) xs
      simp [okAll_append, okAll_blanks hbs, okAll, ok, text_blanks, hinner, okAll_blanks hbs',
        endsBefore]
    · simp [eraseAll_blanks, eraseAll, erase, herase]

/-- A text that begins with the lexemes of items is the text of items, with white
space between them, and what follows. -/
theorem exists_textAll : (T : List Item) → tightAll T → ∀ (s : Text) (L : List Lexeme),
    lexLoop s 0 = flatAll T ++ L → ∃ xs rest, s = textAll xs ++ rest ∧ okAll xs rest ∧
      eraseAll xs = T ∧ lexLoop rest 0 = L
  | [], _, s, _, h => ⟨[], s, rfl, rfl, rfl, h⟩
  | x :: T, hT, s, L, h => by
    simp only [tightAll, Bool.and_eq_true] at hT
    rw [flatAll, append_assoc] at h
    obtain ⟨xs, rest, rfl, hok, herase, hrest⟩ := exists_text x hT.1 s _ h
    obtain ⟨ys, rest', rfl, hok', herase', hrest'⟩ := exists_textAll T hT.2 rest L hrest
    refine ⟨xs ++ ys, rest', by simp, ?_, by simp [herase, herase'], hrest'⟩
    rw [okAll_append, hok, hok']
    rfl

end

lemma isSpace_of_lexLoop_eq_nil (h : lexLoop s 0 = []) : ∀ c ∈ s, isSpace c := by
  induction s with
  | nil => simp
  | cons c s ih =>
    cases hc : isSpace c with
    | true =>
      rw [lexLoop_space hc] at h
      simpa [hc] using ih h
    | false =>
      simp only [lexLoop, hc, Bool.false_eq_true, if_false] at h
      repeat' split at h
      all_goals cases h

lemma lex_textAll {xs : List Item} (h : okAll xs []) : lex (textAll xs) = flatAll xs := by
  simpa [lex, lexLoop] using lexLoop_textAll xs [] h

/-- A text with the lexemes of items is the text of these items with white space
between them. -/
lemma exists_items {T : List Item} (hT : tightAll T)
    (h : lex s = flatAll T) : ∃ xs, s = textAll xs ∧ okAll xs [] ∧ eraseAll xs = T := by
  obtain ⟨xs, rest, rfl, hok, herase, hrest⟩ := exists_textAll T hT s [] (by simpa [lex] using h)
  have hspace := isSpace_of_lexLoop_eq_nil hrest
  refine ⟨xs ++ rest.map .blank, by simp [text_blanks], ?_, by simp [herase, eraseAll_blanks]⟩
  simp [okAll_append, text_blanks, hok, okAll_blanks hspace]

end Item

end Blkit
