import Blkit.Broker.Watchers

/-!
# The polled feed of the Firestore registry

A watcher reads the documents of the workers and compares them with those it read before: a
worker that is gone takes its registrations with it, one that has another revision has them
replaced, and a new one brings them.  As long as a revision stands for one set of
registrations, what a watcher was sent adds up to what is live (`watch_adds_up`).
-/

namespace Blkit

namespace Firestore

open Broker List

variable {D B : Type}

structure WorkerDoc (B : Type) where
  deadline : Int
  heartbeat : Int
  regs : List B
  rev : String

structure WatchedWorker (D : Type) where
  deadline : Int
  rev : String
  regs : List (ProcessRegistration D)

/-- A poll that succeeds: when its round begins, when the documents are read, and the
documents that are not malformed. -/
structure Poll (B : Type) where
  now : Int
  readAt : Int
  docs : String → Option (WorkerDoc B)

section Watch

-- What a stored registration is decoded to, if it can be.
variable (decode : B → Option (ProcessRegistration D))

def decodeRegs (doc : WorkerDoc B) : List (ProcessRegistration D) :=
  (doc.regs.filterMap decode).map fun reg => { reg with lastHeartbeat := doc.heartbeat }

def Poll.readWorkers (p : Poll B) (id : String) : Option (WatchedWorker D) :=
  ((p.docs id).filter fun doc => !decide (doc.deadline < p.readAt)).map fun doc =>
    ⟨doc.deadline, doc.rev, decodeRegs decode doc⟩

variable (prev cur : String → Option (WatchedWorker D)) (id : String)

/-- The registrations of a worker. -/
def regsOf : List (ProcessRegistration D) := (cur id).elim [] WatchedWorker.regs

/-- The body of the loop over `prev`. -/
def changed (now : Int) : List (RegistryUpdate D) :=
  match prev id, cur id with
  | none, _ => []
  | some pw, none => pw.regs.map (if pw.deadline < now then .heartbeatLost else .removed)
  | some pw, some cw => if cw.rev ≠ pw.rev then pw.regs.map .removed ++ cw.regs.map .added else []

/-- The body of the loop over `cur`. -/
def arrived : List (RegistryUpdate D) := if (prev id).isSome then [] else (regsOf cur id).map .added

/-- What was sent in some polls, the last of which comes first.  A loop walks the workers there
have been in any order, and passes over those that are not in its map. -/
inductive Watch (ids : List String) : List (Poll B) → List (RegistryUpdate D) → Prop
  | first (p : Poll B) {l : List String} (h : l.Perm ids) : Watch ids [p]
      (l.flatMap (fun id => (regsOf (p.readWorkers decode) id).map .snapshot) ++
        [.snapshotComplete])
  | next (p : Poll B) {q ps sent} {l l' : List String} (h : Watch ids (q :: ps) sent)
      (hl : l.Perm ids) (hl' : l'.Perm ids) :
    Watch ids (p :: q :: ps)
      (sent ++ l.flatMap (changed (q.readWorkers decode) (p.readWorkers decode) · p.now) ++
      l'.flatMap (arrived (q.readWorkers decode) (p.readWorkers decode)))

end Watch

/-- A revision stands for one set of registrations of a worker. -/
def FreshRevs (ps : List (Poll B)) : Prop :=
  ∀ p ∈ ps, ∀ q ∈ ps, ∀ id d e, p.docs id = some d → q.docs id = some e →
    d.rev = e.rev → d.regs = e.regs

variable {decode : B → Option (ProcessRegistration D)}
  {prev cur : String → Option (WatchedWorker D)} {id : String}

/-- Two polls that find one revision of a worker find the same registrations. -/
lemma stills_eq_of_rev {p q : Poll B} {ps : List (Poll B)} (hrevs : FreshRevs ps)
    (hp : p ∈ ps) (hq : q ∈ ps) :
    ∀ pw ∈ q.readWorkers decode id, ∀ cw ∈ p.readWorkers decode id, cw.rev = pw.rev →
      stills pw.regs = stills cw.regs := by
  intro pw hpw cw hcw hrev
  obtain ⟨d, hd, rfl⟩ := Option.map_eq_some_iff.1 hpw
  obtain ⟨e, he, rfl⟩ := Option.map_eq_some_iff.1 hcw
  have hregs :=
    hrevs q hq p hp id d e (Option.filter_eq_some_iff.1 hd).1
      (Option.filter_eq_some_iff.1 he).1 hrev.symm
  rw [stills, stills, decodeRegs, decodeRegs, map_map, map_map, hregs]
  rfl

variable [DecidableEq D] {m : Multiset (ProcessRegistration D)}

/-- A loop each round of which puts some registrations in the place of others. -/
lemma foldUpdates_flatMap {f g : String → List (ProcessRegistration D)}
    {u : String → List (RegistryUpdate D)}
    (h : ∀ id m, foldUpdates (stills (f id) + m) (u id) = stills (g id) + m) (l : List String) :
    foldUpdates (stills (l.flatMap f) + m) (l.flatMap u) = stills (l.flatMap g) + m := by
  induction l generalizing m with
  | nil => rfl
  | cons id l ih =>
    simp only [flatMap_cons, stills_append, foldUpdates_append, add_assoc, h]
    rw [add_left_comm, ih, add_left_comm]

/-- The loop over `prev` leaves what the workers it walks have now. -/
lemma foldUpdates_changed {now : Int}
    (hsame : ∀ pw ∈ prev id, ∀ cw ∈ cur id, cw.rev = pw.rev → stills pw.regs = stills cw.regs) :
    foldUpdates (stills (regsOf prev id) + m) (changed prev cur id now) =
      stills (if (prev id).isSome then regsOf cur id else []) + m := by
  rw [changed, regsOf, regsOf]
  cases hpw : prev id with
  | none => rfl
  | some pw =>
    cases hcw : cur id with
    | none =>
      refine Eq.trans ?_ (zero_add m).symm
      dsimp only
      split
      all_goals exact foldUpdates_delete (fun _ _ => rfl) _
    | some cw =>
      dsimp only
      split
      · rw [foldUpdates_append]
        exact (congrArg (foldUpdates · _) (foldUpdates_delete (fun _ _ => rfl) _)).trans
          (foldUpdates_insert (fun _ _ => rfl) _)
      · rename_i hrev
        exact congrArg (· + m) (hsame pw hpw cw hcw (not_not.1 hrev))

/-- The loop over `cur` brings the others. -/
lemma foldUpdates_arrived : foldUpdates (stills (if (prev id).isSome then regsOf cur id else []) +
    m) (arrived prev cur id) =
    stills (regsOf cur id) + m := by
  rw [arrived]
  split
  · rfl
  · rw [foldUpdates_insert fun _ _ => rfl]
    exact congrArg (_ + ·) (zero_add m)

/-- After every poll, what a watcher was sent adds up to what is live. -/
theorem watch_adds_up {ids : List String} {ps : List (Poll B)} {sent : List (RegistryUpdate D)}
    (h : Watch decode ids ps sent)
    (hrevs : FreshRevs ps) : ∀ p ∈ ps.head?, foldUpdates 0 sent =
      stills (ids.flatMap (regsOf (p.readWorkers decode))) := by
  induction h with
  | first p hl =>
    rintro _ ⟨⟩
    rw [foldUpdates_append, ← map_flatMap, foldUpdates_insert fun _ _ => rfl,
      stills_perm (hl.flatMap_right _)]
    exact add_zero _
  | @next p q ps sent l l' h hl hl' ih =>
    rintro _ ⟨⟩
    have hsent := ih (fun q hq q' hq' => hrevs q (.tail _ hq) q' (.tail _ hq')) q rfl
    have hsame (id : String) :=
      @stills_eq_of_rev _ _ decode id p q _ hrevs (.head _) (.tail _ (.head _))
    rw [foldUpdates_append, foldUpdates_append, hsent, ← add_zero (stills _),
      ← stills_perm (hl.flatMap_right _),
      foldUpdates_flatMap fun id _ => foldUpdates_changed (hsame id),
      stills_perm ((hl.trans hl'.symm).flatMap_right _),
      foldUpdates_flatMap fun _ _ => foldUpdates_arrived,
      stills_perm (hl'.flatMap_right _), add_zero]

/-- A worker that is there in the first poll and gone in the next. -/
theorem watch_adds_up_gone :
    foldUpdates 0 [.snapshot sampleReg, .snapshotComplete, .heartbeatLost sampleReg] = 0 := by
  refine @watch_adds_up Unit _ some _ ["worker"] _ _ (.next ⟨2, 2, fun _ => none⟩
    (.first ⟨0, 0, fun _ => some ⟨1, 0, [sampleReg], "r"⟩⟩ (.refl _)) (.refl _) (.refl _)) ?_ _ rfl
  simp [FreshRevs]

end Firestore

end Blkit
