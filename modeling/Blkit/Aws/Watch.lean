import Blkit.Broker.Fold
import Blkit.Control.Machine

/-!
# The polled feed of the DynamoDB registry

A watcher polls the table and compares what is live with what was live at the poll before: a
key that is new is announced, a key that is gone is announced, and a key that is there both
times is not, whatever has become of its registration.

So the watcher has the live registrations after every poll if and only if no registration
changes while its key stays live (`watch_follows_iff`).
-/

namespace Blkit

namespace Aws

open Broker List RegistryUpdate

variable {D : Type}

/-- `workerItem`.  What a worker registers is stamped with its id before it is stored. -/
structure WorkerItem (D : Type) where
  workerID : String
  deadline : Int
  regs : List (ProcessRegistration D)
  stamped : ∀ reg ∈ regs, reg.workerID = workerID

/-! ## The views of a poll -/

/-- What `liveView` writes into the map of live registrations, in turn. -/
def liveWrites (items : List (WorkerItem D)) (now : Int) :
    List (WatchKey × ProcessRegistration D) :=
  (items.filter fun it => now < it.deadline).flatMap fun it => it.regs.map fun reg =>
    (⟨it.workerID, reg.key⟩, reg)

/-- The map after these writes. -/
def viewOf (l : List (WatchKey × ProcessRegistration D)) : WatchKey →
    Option (ProcessRegistration D) :=
  writeAll Prod.fst Prod.snd l

/-- The deadlines of all workers, live or not. -/
def deadlinesOf (items : List (WorkerItem D)) : String → Option Int :=
  writeAll WorkerItem.workerID WorkerItem.deadline items

/-- The keys of a map in the order in which a loop walks them: the given ones come first. -/
def walk (order : List WatchKey) (l : List (WatchKey × ProcessRegistration D)) : List WatchKey :=
  keepFirst (order.filter (fun k => k ∈ l.map Prod.fst) ++ l.map Prod.fst)

/-- A poll that succeeds: what is in the table, the time, and the orders in which the two
loops walk their maps. -/
structure Poll (D : Type) where
  items : List (WorkerItem D)
  now : Int
  curOrder : List WatchKey
  prevOrder : List WatchKey

def Poll.live (p : Poll D) : List (WatchKey × ProcessRegistration D) := liveWrites p.items p.now

/-! ## The watcher -/

/-- The variables of `watch`, and what it has sent. -/
structure Watcher (D : Type) where
  prev : List (WatchKey × ProcessRegistration D)
  prevDeadlines : String → Option Int
  sent : List (RegistryUpdate D)

/-- The snapshot. -/
def Watcher.start (p : Poll D) : Watcher D :=
  ⟨p.live, deadlinesOf p.items, (walk p.curOrder p.live).filterMap
    (fun k => (viewOf p.live k).map .snapshot) ++
    [.snapshotComplete]⟩

/-- The loop over what is live. -/
def newcomers (prev cur : List (WatchKey × ProcessRegistration D)) (order : List WatchKey) :
    List (RegistryUpdate D) :=
  (walk order cur).filterMap fun k =>
    match viewOf prev k with
    | some _ => none
    | none => (viewOf cur k).map .added

/-- An update for a key that is gone. -/
def farewell (lapsed : Bool) (reg : ProcessRegistration D) : RegistryUpdate D :=
  if lapsed then .heartbeatLost reg else .removed reg

/-- The loop over what was live.  A deadline that no poll has seen is the zero time. -/
def leavers (prev cur : List (WatchKey × ProcessRegistration D)) (lapsed : String → Bool)
    (order : List WatchKey) :
    List (RegistryUpdate D) :=
  (walk order prev).filterMap fun k =>
    match viewOf cur k with
    | some _ => none
    | none => (viewOf prev k).map (farewell (lapsed k.workerID))

/-- One round of the loop; nothing happens when the scan fails. -/
def Watcher.poll (w : Watcher D) : Option (Poll D) → Watcher D
  | none => w
  | some p =>
    let lapsed :=
      fun worker => ((deadlinesOf p.items worker).or (w.prevDeadlines worker)).all (· ≤ p.now)
    ⟨p.live, deadlinesOf p.items,
      w.sent ++ newcomers w.prev p.live p.curOrder ++ leavers w.prev p.live lapsed p.prevOrder⟩

def machine (D : Type) : Machine (Watcher D) (Option (Poll D)) := ⟨fun w p => some (w.poll p)⟩

/-- What the watcher was sent adds up to what was live at the last poll. -/
def Watcher.UpToDate (w : Watcher D) : Prop :=
  ∀ k, (registryOf w.sent k).map ProcessRegistration.contents =
    (viewOf w.prev k).map ProcessRegistration.contents

/-- No registration that was live and is live has changed. -/
def Steady (w : Watcher D) (p : Option (Poll D)) : Prop :=
  ∀ p', p = some p' → ∀ k reg reg', viewOf w.prev k = some reg → viewOf p'.live k = some reg' →
    reg.contents = reg'.contents

/-! ## What the loops announce -/

variable {l : List (WatchKey × ProcessRegistration D)} {order : List WatchKey} {k : WatchKey}
  {reg : ProcessRegistration D}

/-- Registrations are written under their own keys. -/
def Keyed (l : List (WatchKey × ProcessRegistration D)) : Prop := ∀ x ∈ l, x.2.watchKey = x.1

lemma keyed_liveWrites (items : List (WorkerItem D)) (now : Int) :
    Keyed (liveWrites items now) := by
  intro x hx
  obtain ⟨it, -, hx⟩ := mem_flatMap.1 hx
  obtain ⟨reg, hreg, rfl⟩ := mem_map.1 hx
  exact congrArg (fun w => (⟨w, reg.key⟩ : WatchKey)) (it.stamped reg hreg)

lemma Keyed.watchKey (h : Keyed l) (hk : viewOf l k = some reg) : reg.watchKey = k := by
  rw [viewOf, writeAll_apply, Option.map_eq_some_iff] at hk
  obtain ⟨x, hx, rfl⟩ := hk
  obtain ⟨hmem, rfl⟩ := lastAt_eq_some hx
  exact h x hmem

/-- A loop walks every key of its map. -/
lemma mem_walk (hk : viewOf l k = some reg) : k ∈ walk order l := by
  rw [viewOf, writeAll_apply, Option.map_eq_some_iff] at hk
  obtain ⟨x, hx, -⟩ := hk
  obtain ⟨hmem, rfl⟩ := lastAt_eq_some hx
  exact mem_keepFirst.2 (mem_append_right _ (mem_map_of_mem hmem))

/-- A loop over a map that says something of a key at most, which it has then changed. -/
lemma applyChanges_walk (hl : Keyed l) {f : WatchKey → Option (RegistryUpdate D)}
    (hf : ∀ k u, f k = some u → ∃ reg c, viewOf l k = some reg ∧ u.change = some c ∧
    c.key = reg.watchKey)
    (m : WatchKey → Option (ProcessRegistration D)) : applyChanges m
      (((walk order l).filterMap f).filterMap change) k =
      (((f k).bind change).map Change.value).getD (m k) := by
  have hnodup : (walk order l).Nodup := keepFirst_nodup _
  rw [filterMap_filterMap, filterMap_eq_flatMap_toList,
    applyChanges_flatMap (o := fun k => k) hnodup fun k c hc => ?_]
  · cases hk : f k with
    | none =>
      rw [Option.bind_none]
      exact ite_self _
    | some u =>
      obtain ⟨reg, c, hreg, hc, hkey⟩ := hf k u hk
      rw [if_pos (mem_walk hreg), Option.bind_some, hc]
      rw [hl.watchKey hreg] at hkey
      exact hkey ▸ Function.update_self ..
  · obtain ⟨u, hu, hc⟩ := Option.bind_eq_some_iff.1 (Option.mem_toList.1 hc)
    obtain ⟨reg, c', hreg, hc', hkey⟩ := hf k u hu
    rw [hc, Option.some.injEq] at hc'
    rw [hc', hkey, hl.watchKey hreg]

/-- The snapshot sets every key that is live. -/
lemma registryOf_start (p : Poll D) : registryOf (Watcher.start p).sent k = viewOf p.live k := by
  have hlive : Keyed p.live := keyed_liveWrites p.items p.now
  rw [Watcher.start, registryOf_append]
  show registryOf _ k = _
  rw [registryOf, applyChanges_walk hlive fun k u hu => ?_]
  · cases viewOf p.live k <;> rfl
  · obtain ⟨reg, hreg, rfl⟩ := Option.map_eq_some_iff.1 hu
    exact ⟨reg, _, hreg, rfl, rfl⟩

/-- What a round makes of what the watcher had: what is new is set, what is gone is deleted,
and a key that is there both times keeps what it had. -/
lemma registryOf_poll (w : Watcher D) (p : Poll D) (hprev : Keyed w.prev) (k : WatchKey) :
    registryOf (w.poll (some p)).sent k = match viewOf w.prev k, viewOf p.live k with
      | some _, some _ => registryOf w.sent k
      | some _, none => none
      | none, some reg => some reg
      | none, none => registryOf w.sent k := by
  have hchange (b : Bool) (reg : ProcessRegistration D) : (farewell b reg).change =
      some (.delete reg.watchKey) := by
    cases b <;> rfl
  have hlive : Keyed p.live := keyed_liveWrites p.items p.now
  rw [Watcher.poll, registryOf_append, leavers, applyChanges_walk hprev fun k u hu => ?_,
    registryOf_append, newcomers,
    applyChanges_walk hlive fun k u hu => ?_]
  · cases viewOf w.prev k with
    | none => cases viewOf p.live k <;> rfl
    | some reg =>
      cases viewOf p.live k with
      | none =>
        simp only [Option.map_some, Option.bind_some, hchange, Change.value, Option.getD_some]
      | some reg' => rfl
  · split at hu
    · cases hu
    · obtain ⟨reg, hreg, rfl⟩ := Option.map_eq_some_iff.1 hu
      exact ⟨reg, _, hreg, rfl, rfl⟩
  · split at hu
    · cases hu
    · obtain ⟨reg, hreg, rfl⟩ := Option.map_eq_some_iff.1 hu
      exact ⟨reg, _, hreg, hchange .., rfl⟩

/-! ## One poll, and all polls -/

variable {w : Watcher D} {p : Option (Poll D)}

/-- A watcher that was up to date is so after a poll if and only if nothing has changed in
place. -/
lemma upToDate_poll_iff (hprev : Keyed w.prev) (hw : w.UpToDate) :
    (w.poll p).UpToDate ↔ Steady w p := by
  cases p with
  | none => exact ⟨fun _ => nofun, fun _ => hw⟩
  | some p =>
    have hview : (w.poll (some p)).prev = p.live := rfl
    constructor
    · rintro h p' hp' k reg reg' hreg hreg'
      cases hp'
      have hk := h k
      rw [registryOf_poll w p hprev, hview, hreg, hreg'] at hk
      have hold := hw k
      rw [hreg] at hold
      exact Option.some.inj (hold.symm.trans hk)
    · intro h k
      rw [registryOf_poll w p hprev, hview]
      have hold := hw k
      cases hreg : viewOf w.prev k with
      | none =>
        rw [hreg] at hold
        cases viewOf p.live k with
        | none => exact hold
        | some reg' => rfl
      | some reg =>
        rw [hreg] at hold
        cases hreg' : viewOf p.live k with
        | none => rfl
        | some reg' => exact hold.trans (congrArg some (h p rfl k reg reg' hreg hreg'))

lemma keyed_poll (h : Keyed w.prev) : Keyed (w.poll p).prev := by
  cases p with
  | none => exact h
  | some p => exact keyed_liveWrites p.items p.now

/-- A watcher has the live registrations after every poll if and only if none changes while
its key stays live. -/
theorem watch_follows_iff (first : Poll D) (polls : List (Option (Poll D))) :
    (machine D).Always Watcher.UpToDate (Watcher.start first) polls ↔
      (machine D).Along Steady (Watcher.start first) polls := by
  have hkeyed : Keyed (Watcher.start first).prev := keyed_liveWrites first.items first.now
  have hstart : (Watcher.start first).UpToDate := fun k => by rw [registryOf_start]; rfl
  constructor
  · intro h
    refine h.along (J := fun w => Keyed w.prev) ?_ ?_ hkeyed
    · intro w p w' hw hstep
      cases hstep
      exact keyed_poll hw
    · intro w p hw hup hnext
      exact (upToDate_poll_iff hw hup).1 (hnext _ rfl)
  · intro h
    refine Machine.Always.imp (I := fun w => Keyed w.prev ∧ w.UpToDate) (fun w hw => hw.2)
      (h.always ?_ ⟨hkeyed, hstart⟩)
    rintro w p w' hsteady ⟨hw, hup⟩ hstep
    cases hstep
    exact ⟨keyed_poll hw, (upToDate_poll_iff hw hup).2 hsteady⟩

/-! ## A worker that registers again -/

/-- What a worker registers, with or without a contract at its end event. -/
def sampleEnd (contract : Option Unit) : ProcessRegistration Unit :=
  ⟨⟨"ns", "p", "1"⟩, none, none, [], [⟨"end", "", contract⟩], false, false, "", "worker", 0, 0⟩

/-- A poll that finds one worker with one process. -/
def samplePoll (contract : Option Unit) : Poll Unit where
  items := [⟨"worker", 90, [sampleEnd contract], by simp [sampleEnd]⟩]
  now := 0
  curOrder := []
  prevOrder := []

/-- The worker registers again, with a contract at its end event: the watcher is not told. -/
theorem watch_misses_change : ¬ (machine Unit).Always Watcher.UpToDate
    (Watcher.start (samplePoll none)) [some (samplePoll (some ()))] := by
  intro h
  have hk := (h.2 _ rfl).head ⟨"worker", "ns", "p", "1"⟩
  revert hk
  decide

end Aws

end Blkit
