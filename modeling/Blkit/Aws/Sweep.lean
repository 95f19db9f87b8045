import Blkit.Control.Pool
import Mathlib.Data.List.Nodup
import Mathlib.Data.List.Count
import Mathlib.Algebra.Order.Group.Unbundled.Int

/-!
# Sweeping workers and claiming timers in DynamoDB

The workers and the timers of `brokers/aws-sqs-sns/registrystore.go` are items of one
table.  A sweeper, and a scheduler, deletes items it has scanned before, on the condition
that the item still has the deadline, or the fire time, that was scanned.  It may be
another item by then: what makes this safe is that the time was due when it was scanned,
not that nothing has happened since.

A request is carried out in one step, and a scan one page at a time, with whatever items
are on the page.  The deletions that DynamoDB makes on its own, long after the time of an
item, are left out.
-/

namespace Blkit.Dynamo

open Prog List

inductive Key where
  | worker (workerID : String)
  | timer (instanceID : String)
deriving DecidableEq

/-- An item: its deadline or its fire time in milliseconds, and which write it is from. -/
structure Item where
  due : ℤ
  write : ℕ

/-- The condition of a request. -/
inductive Cond where
  | free
  /-- `attribute_exists(#pk) AND #d > :now` -/
  | after (now : ℤ)
  /-- `#d = :d` -/
  | equals (due : ℤ)

def Cond.check : Cond → Option Item → Bool
  | .free, _ => true
  | .after now, some x => now < x.due
  | .equals due, some x => x.due = due
  | _, none => false

/-- An item that was deleted for its time, and when. -/
structure Removal where
  key : Key
  item : Item
  time : ℕ

/-- The table, with the time in nanoseconds and all that was deleted for its time. -/
structure Table where
  clock : ℕ
  items : Key → Option Item
  writes : ℕ
  removed : List Removal

inductive Cmd where
  | now
  | putItem (k : Key) (due : ℤ)
  | updateItem (k : Key) (due : ℤ) (cond : Cond)
  | deleteItem (k : Key) (cond : Cond)
  | scan (filter : Key × ℤ → Bool)

/-- Whether the condition held, for a request that has one; the items of a page that the
filter lets through, and whether there are more pages. -/
abbrev Cmd.Reply : Cmd → Type
  | .now => ℕ
  | .putItem .. => Unit
  | .updateItem .. => Bool
  | .deleteItem .. => Bool
  | .scan filter => List { x // filter x = true } × Bool

/-- The time that passes before a command, and what is on the page of a scan. -/
structure Choice where
  wait : ℕ
  page : List Key
  more : Bool

namespace Table

variable (s : Table)

def empty (clock : ℕ) : Table := ⟨clock, fun _ => none, 0, []⟩

def store (k : Key) (due : ℤ) : Table :=
  { s with items := Function.update s.items k (some ⟨due, s.writes⟩), writes := s.writes + 1 }

/-- What a deletion under a condition takes down. -/
def removals (k : Key) : Cond → List Removal
  | .equals _ => (s.items k).toList.map fun x => ⟨k, x, s.clock⟩
  | _ => []

def erase (k : Key) (cond : Cond) : Table :=
  { s with
    items := Function.update s.items k none
    removed := s.removed ++ s.removals k cond }

def page (filter : Key × ℤ → Bool) (ks : List Key) : List { x // filter x = true } :=
  ks.filterMap fun k => (s.items k).bind fun x =>
    if h : filter (k, x.due) = true then some ⟨_, h⟩ else none

def run (c : Cmd) (h : Choice) : Option (Table × c.Reply) :=
  let s := { s with clock := s.clock + h.wait }
  match c with
  | .now => some (s, s.clock)
  | .putItem k due => some (s.store k due, ())
  | .updateItem k due cond =>
    some (if cond.check (s.items k) then (s.store k due, true) else (s, false))
  | .deleteItem k cond =>
    some (if cond.check (s.items k) then (s.erase k cond, true) else (s, false))
  | .scan filter => some (s, s.page filter h.page, h.more)

end Table

def service : Service Table Cmd Cmd.Reply Choice where
  run := Table.run
  fallible
    | .now => false
    | _ => true

/-! ## The calls -/

inductive Failure where
  | unknownWorker
  | request

abbrev Act := Try Cmd Cmd.Reply Failure

def ask (c : Cmd) : Act c.Reply := must .request c

/-- `UnixMilli` of a time in nanoseconds. -/
def unixMilli (t : ℤ) : ℤ := t / 1000000

def putRegistrations (workerID : String) (ttl : ℤ) : Act Unit := do
  let now ← ask .now
  ask (.putItem (.worker workerID) (unixMilli (now + ttl)))

def touch (workerID : String) (ttl : ℤ) : Act Unit := do
  let now ← ask .now
  let known ← ask (.updateItem (.worker workerID) (unixMilli (now + ttl)) (.after (unixMilli now)))
  check .unknownWorker known

def delete (workerID : String) : Act Unit := do
  let now ← ask .now
  let known ← ask (.deleteItem (.worker workerID) (.after (unixMilli now)))
  check .unknownWorker known

/-- The loop over the pages of a scan. -/
def scanPages (filter : Key × ℤ → Bool) : ℕ → Act (List { x // filter x = true })
  | 0 => pure []
  | pages + 1 => do
    let (items, more) ← ask (.scan filter)
    if more then
      let rest ← scanPages filter pages
      pure (items ++ rest)
    else pure items

def isWorker : Key × ℤ → Bool
  | (.worker _, _) => true
  | (.timer _, _) => false

def isTimerDue (now : ℤ) : Key × ℤ → Bool
  | (.worker _, _) => false
  | (.timer _, fireAt) => fireAt ≤ now

/-- The loop of `sweep` over the items. -/
def sweepItems (now : ℤ) : List { x // isWorker x = true } → Act Unit
  | [] => pure ()
  | ⟨(k, deadline), _⟩ :: items => do
    -- `deadline.After(now)`
    if now < deadline * 1000000 then sweepItems now items
    else
      let _ ← attempt _ (.deleteItem k (.equals deadline))
      sweepItems now items

/-- One tick of `sweep`. -/
def sweep (pages : ℕ) : Act Unit := do
  let items ← scanPages isWorker pages
  let now ← ask .now
  sweepItems now items

def putTimer (instanceID : String) (fireAt : ℤ) : Act Unit :=
  ask (.putItem (.timer instanceID) (unixMilli fireAt))

def deleteTimer (instanceID : String) : Act Unit := do
  let _ ← ask (.deleteItem (.timer instanceID) .free)

/-- The loop of `DueTimers` over the candidates: what was claimed, and the error it ends
with. -/
def claimTimers {now : ℤ} (claimed : List Key) :
    List { x // isTimerDue now x = true } → Act (List Key × Option Failure)
  | [] => pure (claimed, none)
  | ⟨(k, fireAt), _⟩ :: candidates => do
    match (← attempt _ (.deleteItem k (.equals fireAt)) : Option Bool) with
    | none => pure (claimed, some .request)
    | some mine => claimTimers (if mine then claimed ++ [k] else claimed) candidates

def dueTimers (pages : ℕ) (now : ℤ) : Act (List Key × Option Failure) := do
  let candidates ← scanPages (isTimerDue (unixMilli now)) pages
  claimTimers [] candidates

/-- One tick of `runTimerScheduler`: the timers it has claimed. -/
def pollTimers (pages : ℕ) : Act (List Key) := do
  let now ← ask .now
  let (claimed, _) ← dueTimers pages now
  pure claimed

inductive Call where
  | putRegistrations (workerID : String) (ttl : ℤ)
  | touch (workerID : String) (ttl : ℤ)
  | delete (workerID : String)
  | sweep (pages : ℕ)
  | putTimer (instanceID : String) (fireAt : ℤ)
  | deleteTimer (instanceID : String)
  | pollTimers (pages : ℕ)

/-- The program of a call; only a scheduler has a result. -/
def Call.body : Call → Act (List Key)
  | .putRegistrations workerID ttl => Dynamo.putRegistrations workerID ttl >>= fun _ => pure []
  | .touch workerID ttl => Dynamo.touch workerID ttl >>= fun _ => pure []
  | .delete workerID => Dynamo.delete workerID >>= fun _ => pure []
  | .sweep pages => Dynamo.sweep pages >>= fun _ => pure []
  | .putTimer instanceID fireAt => Dynamo.putTimer instanceID fireAt >>= fun _ => pure []
  | .deleteTimer instanceID => Dynamo.deleteTimer instanceID >>= fun _ => pure []
  | .pollTimers pages => Dynamo.pollTimers pages

abbrev Outcome := Except Failure (List Key)

/-- Any number of calls, at any time. -/
def system : System Table Call Cmd Cmd.Reply Choice Outcome where
  service := service
  body k := k.body.run
  admits _ _ := true

/-- The timers that a call claims with its result. -/
def Outcome.claims : Outcome → List Key
  | .ok claimed => claimed
  | .error _ => []

/-- The timers that all schedulers have claimed. -/
def claims (w : Pool Table Call Cmd Cmd.Reply Outcome) : List Key :=
  w.threads.flatMap fun t =>
    match t.rest with
    | .done a => a.claims
    | .ask _ _ => []

/-! ## What is deleted is due -/

/-- What a call has seen: a time that has come, and what it has deleted for its time. -/
structure Known where
  now : ℕ
  deleted : List Key

/-- What a reply says was deleted for its time. -/
def Cmd.gain : (c : Cmd) → c.Reply → List Key
  | .deleteItem k (.equals _), true => [k]
  | _, _ => []

/-- What a call has seen after a reply. -/
def Known.hear (q : Known) (c : Cmd) : Option c.Reply → Known
  | none => q
  | some r => ⟨match c, r with
      | .now, t => t
      | _, _ => q.now, q.deleted ++ c.gain r⟩

/-- An item is deleted for its time only if that is due. -/
def Known.Allows (q : Known) : Cmd → Prop
  | .deleteItem _ (.equals due) => due * 1000000 ≤ q.now
  | _ => True

def heeds : Protocol Known Cmd Cmd.Reply := hearing Known.Allows Known.hear

/-- Commands that tell no time and delete nothing for its time. -/
def Cmd.Quiet : Cmd → Prop
  | .now => False
  | .deleteItem _ (.equals _) => False
  | _ => True

variable {q : Known} {c : Cmd} {α : Type}

lemma heeds_of_quiet (hc : c.Quiet) (q : Known) (r : Option c.Reply) : heeds q c r q := by
  cases c with
  | now => exact hc.elim
  | putItem | updateItem | scan =>
    cases r <;> simp [heeds, hearing, Known.Allows, Known.hear, Cmd.gain]
  | deleteItem k cond =>
    cases cond with
    | equals due => exact hc.elim
    | free | after => cases r <;> simp [heeds, hearing, Known.Allows, Known.hear, Cmd.gain]

lemma still_ask (hc : c.Quiet) : Still heeds (ask c) :=
  still_must fun q r => heeds_of_quiet hc q r

/-- After a look at the clock, its time is known. -/
lemma obeys_now {β : Type} {f : ℕ → Act β} {post : Known → Except Failure β → Prop}
    (hf : ∀ t, Obeys heeds post ⟨t, q.deleted⟩ (f t).run) (he : ∀ e, post q (.error e)) :
    Obeys heeds post q (ask .now >>= f).run := by
  refine obeys_hearing_must trivial (he .request) fun t => ?_
  have hheard : q.hear .now (some t) = ⟨t, q.deleted⟩ := by simp [Known.hear, Cmd.gain]
  exact hheard ▸ hf t

lemma still_scanPages {filter : Key × ℤ → Bool} {pages : ℕ} :
    Still heeds (scanPages filter pages) := by
  induction pages with
  | zero => exact still_pure
  | succ pages ih =>
    refine (still_ask (show (Cmd.scan filter).Quiet from trivial)).bind fun (items, more) => ?_
    cases more with
    | false => exact still_pure
    | true => exact ih.bind fun rest => still_pure

/-- The program deletes for its time only what is due. -/
abbrev Obedient (q : Known) (x : Act α) : Prop := Obeys heeds (fun _ _ => True) q x.run

lemma obedient_check {b : Bool} {e : Failure} : Obedient q (check e b) := by
  cases b <;> trivial

lemma obedient_ask (hc : c.Quiet) : Obedient q (ask c) :=
  ((still_ask hc) q).mono fun _ _ _ => trivial

lemma obedient_sweepItems {items : List { x // isWorker x = true }} :
    Obedient q (sweepItems q.now items) := by
  induction items generalizing q with
  | nil => trivial
  | cons item items ih =>
    obtain ⟨⟨k, deadline⟩, hk⟩ := item
    rw [sweepItems]
    split_ifs with hdue
    · exact ih
    · have hallows : q.Allows (.deleteItem k (.equals deadline)) := not_lt.1 hdue
      refine obeys_hearing_attempt hallows fun r => ?_
      -- whatever the reply is, it tells no other time
      have hnow : (q.hear (.deleteItem k (.equals deadline)) r).now = q.now := by
        cases r <;> rfl
      have hrest := @ih (q.hear (.deleteItem k (.equals deadline)) r)
      rwa [hnow] at hrest

/-- A result is what was deleted. -/
def Answers (q : Known) : Except Failure (List Key × Option Failure) → Prop
  | .ok (claimed, _) => claimed = q.deleted
  | .error _ => True

lemma mul_le_of_le_unixMilli {due t : ℤ} (h : due ≤ unixMilli t) : due * 1000000 ≤ t :=
  (Int.le_ediv_iff_mul_le (by decide)).1 h

lemma obeys_claimTimers {now : ℕ} {claimed : List Key}
    {candidates : List { x // isTimerDue (unixMilli now) x = true }} :
    Obeys heeds Answers ⟨now, claimed⟩ (claimTimers claimed candidates).run := by
  induction candidates generalizing claimed with
  | nil => exact rfl
  | cons candidate candidates ih =>
    obtain ⟨⟨k, fireAt⟩, hk⟩ := candidate
    have hdue : fireAt * 1000000 ≤ (now : ℤ) := by
      cases k with
      | worker => cases hk
      | timer => exact mul_le_of_le_unixMilli (of_decide_eq_true hk)
    rw [claimTimers]
    refine obeys_hearing_attempt hdue fun r => ?_
    rcases r with - | - | -
    · exact rfl
    · have hsame : Known.hear ⟨now, claimed⟩ (.deleteItem k (.equals fireAt)) (some false) =
          ⟨now, claimed⟩ := by simp [Known.hear, Cmd.gain]
      rw [hsame]
      exact ih
    · exact ih

/-- What a scheduler claims it has deleted. -/
def Covers (q : Known) (a : Outcome) : Prop := a.claims <+ q.deleted

lemma covers_error {e : Failure} : Covers q (.error e) := nil_sublist _

lemma Obedient.covers {β : Type} {x : Act β} (h : Obedient q x) :
    Obeys heeds Covers q (x >>= fun _ => pure []).run := by
  refine obeys_try.2 (h.mono fun q a _ => ?_)
  cases a with
  | error e => exact covers_error
  | ok a => exact nil_sublist _

lemma obeys_body (k : Call) : Obeys heeds Covers ⟨0, []⟩ k.body.run := by
  cases k with
  | putRegistrations workerID ttl =>
    exact Obedient.covers (obeys_now (fun t => obedient_ask trivial) fun _ => trivial)
  | touch workerID ttl | delete workerID =>
    refine Obedient.covers (obeys_now (fun t => ?_) fun _ => trivial)
    exact Still.obeys (still_ask (by trivial)) (fun known => obedient_check) fun _ => trivial
  | sweep pages =>
    refine Obedient.covers (still_scanPages.obeys (fun items => ?_) fun _ => trivial)
    exact obeys_now (fun now => obedient_sweepItems) fun _ => trivial
  | putTimer instanceID fireAt => exact Obedient.covers (obedient_ask trivial)
  | deleteTimer instanceID =>
    exact Obedient.covers (Still.obeys (still_ask (by trivial)) (fun _ => trivial) fun _ => trivial)
  | pollTimers pages =>
    refine obeys_now (fun now => obeys_try.2 ?_) fun _ => covers_error
    refine still_scanPages.obeys (fun candidates => ?_) fun _ => covers_error
    refine obeys_claimTimers.mono fun q a h => ?_
    cases a with
    | error e => exact covers_error
    | ok a =>
      have hclaimed : a.1 = q.deleted := h
      show a.1 <+ q.deleted
      rw [hclaimed]

def discipline : Discipline system Known where
  rules := heeds
  start _ := ⟨0, []⟩
  post _ := Covers
  obeys := obeys_body

/-! ## The table -/

/-- Writes have their own numbers, nothing is deleted for its time twice, and what was
deleted for it was due. -/
structure Table.Sound (s : Table) : Prop where
  before : ∀ k x, s.items k = some x → x.write < s.writes
  apart : ∀ k k' x x', s.items k = some x → s.items k' = some x' → x.write = x'.write → k = k'
  gone : ∀ d ∈ s.removed, d.item.write < s.writes ∧
    ∀ k x, s.items k = some x → x.write ≠ d.item.write
  once : (s.removed.map fun d => d.item.write).Nodup
  due : ∀ d ∈ s.removed, d.item.due * 1000000 ≤ d.time

namespace Table

variable {s : Table} {k k' : Key} {x : Item} {due : ℤ} {cond : Cond}

lemma items_store_eq_some : (s.store k due).items k' = some x ↔
    k' = k ∧ x = ⟨due, s.writes⟩ ∨ k' ≠ k ∧ s.items k' = some x := by
  show Function.update s.items k _ k' = some x ↔ _
  by_cases h : k' = k
  · simp [h, eq_comm]
  · simp [h]

lemma items_erase_eq_some :
    (s.erase k cond).items k' = some x ↔ k' ≠ k ∧ s.items k' = some x := by
  show Function.update s.items k _ k' = some x ↔ _
  by_cases h : k' = k
  · simp [h]
  · simp [h]

lemma Sound.store (h : s.Sound) : (s.store k due).Sound where
  before k' x hx := by
    rcases items_store_eq_some.1 hx with ⟨-, rfl⟩ | ⟨-, hx⟩
    · exact Nat.lt_succ_self _
    · exact Nat.lt_succ_of_lt (h.before k' x hx)
  apart := by
    intro k₁ k₂ x₁ x₂ h₁ h₂ heq
    rcases items_store_eq_some.1 h₁ with ⟨rfl, rfl⟩ | ⟨-, h₁'⟩ <;>
      rcases items_store_eq_some.1 h₂ with ⟨rfl, rfl⟩ | ⟨-, h₂'⟩
    · rfl
    · exact absurd heq (h.before k₂ x₂ h₂').ne'
    · exact absurd heq (h.before k₁ x₁ h₁').ne
    · exact h.apart k₁ k₂ x₁ x₂ h₁' h₂' heq
  gone d hd := by
    obtain ⟨hlt, hne⟩ := h.gone d hd
    refine ⟨Nat.lt_succ_of_lt hlt, fun k' x hx => ?_⟩
    rcases items_store_eq_some.1 hx with ⟨-, rfl⟩ | ⟨-, hx⟩
    · exact hlt.ne'
    · exact hne k' x hx
  once := h.once
  due := h.due

/-- All that a deletion takes down is the item at its key. -/
lemma of_mem_removals {d : Removal} (h : d ∈ s.removals k cond) :
    s.items k = some d.item ∧ d.key = k ∧ d.time = s.clock ∧ s.removals k cond = [d] ∧
      ∃ due, cond = .equals due := by
  cases cond with
  | free | after => cases h
  | equals due =>
    obtain ⟨x, hx, rfl⟩ := mem_map.1 h
    rw [Option.mem_toList] at hx
    exact ⟨hx, rfl, rfl, by simp [removals, hx], due, rfl⟩

/-- A condition that names a value holds only of an item with it. -/
lemma exists_of_check_equals {o : Option Item} (h : (Cond.equals due).check o = true) :
    ∃ x, o = some x ∧ x.due = due := by
  cases o with
  | none => cases h
  | some x => exact ⟨x, rfl, of_decide_eq_true h⟩

lemma Sound.erase (h : s.Sound) (hdue : ∀ d ∈ s.removals k cond, d.item.due * 1000000 ≤ s.clock) :
    (s.erase k cond).Sound where
  before k' x hx := h.before k' x (items_erase_eq_some.1 hx).2
  apart k₁ k₂ x₁ x₂ h₁ h₂ :=
    h.apart k₁ k₂ x₁ x₂ (items_erase_eq_some.1 h₁).2 (items_erase_eq_some.1 h₂).2
  gone d hd := by
    rcases mem_append.1 hd with hd | hd
    · exact ⟨(h.gone d hd).1, fun k' x hx => (h.gone d hd).2 k' x (items_erase_eq_some.1 hx).2⟩
    · obtain ⟨hk, -⟩ := of_mem_removals hd
      -- the item that goes is the only one from its write
      refine ⟨h.before k d.item hk, fun k' x hx heq => ?_⟩
      obtain ⟨hne, hx⟩ := items_erase_eq_some.1 hx
      exact hne (h.apart k' k x d.item hx hk heq)
  once := by
    show ((s.removed ++ s.removals k cond).map fun d => d.item.write).Nodup
    rw [map_append, nodup_append]
    refine ⟨h.once, ?_, fun n hn m hm heq => ?_⟩
    · cases hr : s.removals k cond with
      | nil => exact nodup_nil
      | cons d ds =>
        obtain ⟨-, -, -, hd, -⟩ := of_mem_removals (hr ▸ mem_cons_self : d ∈ s.removals k cond)
        rw [← hr, hd]
        exact nodup_singleton _
    · obtain ⟨d, hd, rfl⟩ := mem_map.1 hn
      obtain ⟨d', hd', rfl⟩ := mem_map.1 hm
      obtain ⟨hk, -⟩ := of_mem_removals hd'
      exact (h.gone d hd).2 k d'.item hk heq.symm
  due d hd := by
    rcases mem_append.1 hd with hd | hd
    · exact h.due d hd
    · obtain ⟨-, -, htime, -⟩ := of_mem_removals hd
      exact htime ▸ hdue d hd

/-- Time passes. -/
lemma Sound.later {clock : ℕ} (h : s.Sound) : Sound { s with clock } :=
  ⟨h.before, h.apart, h.gone, h.once, h.due⟩

/-- The keys of what was deleted for its time. -/
def removedKeys (s : Table) : List Key := s.removed.map Removal.key

/-- What a command does, if what it deletes for its time is due. -/
lemma Sound.run {c : Cmd} {ch : Choice} {s' : Table} {r : c.Reply} {q : Known} (hs : s.Sound)
    (hrun : s.run c ch = some (s', r)) (hallows : q.Allows c) (hq : q.now ≤ s.clock) :
    s'.Sound ∧ s'.clock = s.clock + ch.wait ∧ s'.removedKeys = s.removedKeys ++ c.gain r := by
  have hlater : Sound { s with clock := s.clock + ch.wait } := hs.later
  cases c with
  | now | scan filter =>
    cases hrun
    exact ⟨hlater, rfl, (append_nil _).symm⟩
  | putItem k due =>
    cases hrun
    exact ⟨hlater.store, rfl, (append_nil _).symm⟩
  | updateItem k due cond =>
    simp only [Table.run] at hrun
    split_ifs at hrun
    · cases hrun
      exact ⟨hlater.store, rfl, (append_nil _).symm⟩
    · cases hrun
      exact ⟨hlater, rfl, (append_nil _).symm⟩
  | deleteItem k cond =>
    simp only [Table.run] at hrun
    split_ifs at hrun with hcheck
    · cases hrun
      refine ⟨hlater.erase fun d hd => ?_, rfl, ?_⟩
      · obtain ⟨hk, -, -, -, due, rfl⟩ := of_mem_removals hd
        obtain ⟨x, hx, hxv⟩ := exists_of_check_equals hcheck
        cases hk.symm.trans hx
        have hdue : due * 1000000 ≤ q.now := hallows
        push_cast
        omega
      · cases cond with
        | free | after => simp [removedKeys, Table.erase, removals, Cmd.gain]
        | equals due =>
          obtain ⟨x, hx, -⟩ := exists_of_check_equals hcheck
          have hx : s.items k = some x := hx
          simp [removedKeys, Table.erase, removals, Cmd.gain, hx]
    · cases hrun
      refine ⟨hlater, rfl, ?_⟩
      cases cond <;> exact (append_nil _).symm

end Table

/-! ## Every run -/

/-- What a call has deleted, or claims with its result. -/
def took : Known ⊕ Outcome → List Key := Sum.elim Known.deleted Outcome.claims

/-- The table is sound, times that are known have come, and what calls have deleted was
deleted. -/
structure Timely (s : Table) (xs : Ledger Call Known Outcome) : Prop where
  sound : s.Sound
  known : ∀ i, (xs.stateAt ⟨0, []⟩ i).now ≤ s.clock
  taken : ∀ k, (xs.flatMap fun x => took x.2).count k ≤ s.removedKeys.count k

lemma Timely.set {s s' : Table} {xs : Ledger Call Known Outcome} {i : ℕ} {k : Call}
    {z : Known ⊕ Outcome} {gain : List Key} (h : Timely s xs) (hi : xs[i]? = some (k, .inl q))
    (hs : s'.Sound) (hclock : s.clock ≤ s'.clock)
    (hz : (z.elim (fun q => q) fun _ => ⟨0, []⟩).now ≤ s'.clock)
    (hremoved : s'.removedKeys = s.removedKeys ++ gain) (htook : took z <+ q.deleted ++ gain) :
    Timely s' (xs.set i (k, z)) where
  sound := hs
  known j := by
    rw [Ledger.stateAt_set (List.getElem?_eq_some_iff.1 hi).1, Function.update_apply]
    split_ifs
    · exact hz
    · exact (h.known j).trans hclock
  taken key := by
    have hset : ((xs.set i (k, z)).flatMap fun x => took x.2).count key + q.deleted.count key =
        (xs.flatMap fun x => took x.2).count key + (took z).count key :=
      Ledger.count_flatMap_set (fun x => took x.2) hi (k, z) key
    have hle := htook.count_le key
    have hold := h.taken key
    rw [count_append] at hle
    rw [hremoved, count_append]
    omega

lemma keeper : discipline.Keeper (fun _ _ => True) Timely where
  call w xs k _ _ _ hI := by
    refine ⟨hI.sound, fun i => ?_, fun key => ?_⟩
    · rw [Ledger.stateAt_append, Function.update_apply]
      split_ifs
      · exact Nat.zero_le _
      · exact hI.known i
    · rw [flatMap_append, flatMap_singleton]
      exact (append_nil _).symm ▸ hI.taken key
  ret s xs i k q a hi hpost hI :=
    hI.set hi hI.sound le_rfl (Nat.zero_le _) (append_nil _).symm (hpost.trans (by simp))
  step w xs i ch heard k c q s r q' _ _ _ hi _ hrun hrules hI := by
    obtain ⟨hallows, rfl⟩ := hrules
    have hq : q.now ≤ w.shared.clock := Ledger.stateAt_eq hi ▸ hI.known i
    obtain ⟨hs, hclock, hremoved⟩ := hI.sound.run hrun hallows hq
    have hle : w.shared.clock ≤ s.clock := hclock ▸ Nat.le_add_right _ _
    cases heard with
    | false => exact hI.set hi hs hle (hq.trans hle) hremoved (sublist_append_left _ _)
    | true =>
      refine hI.set hi hs hle ?_ hremoved (Sublist.refl _)
      cases c with
      | now =>
        cases hrun
        exact le_rfl
      | putItem | updateItem | deleteItem | scan => exact hq.trans hle
  fail w xs i k c q q' _ _ _ hi _ hrules hI := by
    obtain ⟨-, hq'⟩ := hrules
    have hq : q'.now ≤ w.shared.clock := hq' ▸ Ledger.stateAt_eq hi ▸ hI.known i
    exact hI.set hi hI.sound le_rfl hq (append_nil _).symm (by simp [took, hq', Known.hear])

/-- What schedulers have claimed is known of them. -/
lemma claims_sublist {w : Pool Table Call Cmd Cmd.Reply Outcome} {xs : Ledger Call Known Outcome}
    (h : discipline.Tracked xs w) : claims w <+ xs.flatMap fun x => took x.2 := by
  have hcalls := h.forall₂
  rw [claims]
  clear h
  generalize w.threads = ts at hcalls
  induction hcalls with
  | nil => exact Sublist.refl _
  | @cons x t _ _ hx _ ih =>
    rw [flatMap_cons, flatMap_cons]
    refine Sublist.append ?_ ih
    obtain ⟨k, z⟩ := x
    obtain ⟨k', p⟩ := t
    cases p with
    | ask c f => exact nil_sublist _
    | done b =>
      cases z with
      | inl q => exact hx.2.elim
      | inr a =>
        cases hx.2
        exact Sublist.refl _

/-- A timer is stored; two schedulers scan it, and the first to delete it has claimed it. -/
def sampleClaims : List (PoolAction Call Choice) :=
  [.call (.putTimer "i" 5), .step 0 ⟨0, [], false⟩ true, .call (.pollTimers 1),
    .call (.pollTimers 1), .step 1 ⟨9, [], false⟩ true, .step 2 ⟨0, [], false⟩ true,
    .step 1 ⟨0, [.timer "i"], false⟩ true, .step 2 ⟨0, [.timer "i"], false⟩ true,
    .step 2 ⟨0, [], false⟩ true, .step 1 ⟨0, [], false⟩ true]

end Blkit.Dynamo
