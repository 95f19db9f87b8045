import Mathlib.Data.List.Basic

/-!
# Buffered channels

A channel with a buffer, a reader, and a sender that does not wait: what does not fit into
the buffer is not sent.  What the reader has taken is kept, so that `contents` is all that
was ever sent, in order.  Sending on a closed channel and closing it again are errors; a
channel on which that has happened is `misused`.
-/

namespace Blkit

structure Chan (α : Type) where
  cap : ℕ
  taken : List α
  buffer : List α
  closed : Bool
  misused : Bool
deriving DecidableEq, Repr

namespace Chan

variable {α : Type}

/-- A new channel. -/
def make (cap : ℕ) : Chan α := ⟨cap, [], [], false, false⟩

variable (c : Chan α)

/-- Everything that was sent. -/
def contents : List α := c.taken ++ c.buffer

/-- How many more fit in. -/
def room : ℕ := c.cap - c.buffer.length

/-- Send if there is room. -/
def trySend (a : α) : Bool × Chan α :=
  if c.closed then (false, { c with misused := true })
  else if c.buffer.length < c.cap then (true, { c with buffer := c.buffer ++ [a] })
  else (false, c)

def close : Chan α := if c.closed then { c with misused := true } else { c with closed := true }

/-- The reader takes up to `n` elements. -/
def read (n : ℕ) : Chan α :=
  { c with taken := c.taken ++ c.buffer.take n, buffer := c.buffer.drop n }

variable {c} {a : α} {n : ℕ}

@[simp] lemma contents_read : (c.read n).contents = c.contents := by
  rw [contents, read, List.append_assoc, List.take_append_drop, contents]

@[simp] lemma contents_close : c.close.contents = c.contents := by
  rw [close]
  split <;> rfl

@[simp] lemma closed_read : (c.read n).closed = c.closed := rfl

@[simp] lemma misused_read : (c.read n).misused = c.misused := rfl

@[simp] lemma closed_close : c.close.closed := by
  rw [close]
  split
  · assumption
  · rfl

lemma misused_close (h : c.closed = false) : c.close.misused = c.misused := by
  rw [close, if_neg (by simp [h])]

lemma room_le_read : c.room ≤ (c.read n).room := by
  simp only [room, read, List.length_drop]
  omega

/-- What sending on an open channel does. -/
lemma trySend_of_open (h : c.closed = false) (a : α) :
    c.trySend a = if 0 < c.room then (true, { c with buffer := c.buffer ++ [a] }) else
      (false, c) := by
  rw [trySend, if_neg (by simp [h])]
  refine if_congr ?_ rfl rfl
  rw [room]
  omega

/-- Sending where there is room. -/
lemma trySend_of_room (h : c.closed = false) (hroom : 0 < c.room) :
    c.trySend a = (true, { c with buffer := c.buffer ++ [a] }) := by
  rw [trySend_of_open h, if_pos hroom]

lemma contents_push : ({ c with buffer := c.buffer ++ [a] } : Chan α).contents =
    c.contents ++ [a] :=
  (List.append_assoc _ _ _).symm

lemma room_push : ({ c with buffer := c.buffer ++ [a] } : Chan α).room = c.room - 1 := by
  simp only [room, List.length_append, List.length_singleton]
  omega

@[simp] lemma closed_trySend : (c.trySend a).2.closed = c.closed := by
  rw [trySend]
  split
  · rfl
  · split <;> rfl

lemma misused_trySend (h : c.closed = false) : (c.trySend a).2.misused = c.misused := by
  rw [trySend_of_open h]
  split <;> rfl

end Chan

end Blkit
