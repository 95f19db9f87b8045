import Blkit.Store.Nats

/-!
# Handles and calls on one bucket

Several handles share a bucket, and calls of `WriteBatch` on them run side by side.  A
call is at one of the points between its steps on the bucket: it draws a number and puts a
record, or it lists the keys of a run and then gets and puts them one by one.  Any call
may take the next step, and any step may fail, which ends its call.

The world keeps a list of the records that have been accepted, in the order in which the
bucket acknowledged them.
-/

namespace Blkit

open List

namespace Nats

/-- What a handle puts under a new key. -/
inductive Arrival where
  | value (w : ValueWrite)
  | history (h : HistoryEntry)
deriving DecidableEq, Repr

namespace Arrival

def kind : Arrival → Kind
  | .value _ => .value
  | .history _ => .history

/-- The nanoseconds the key shows. -/
def nanos : Arrival → Int
  | .value w => w.timestamp.nanos
  | .history h => h.timestamp.nanos

def event : Arrival → Event
  | .value w => .value w
  | .history h => .history h

def record : Arrival → Record
  | .value w => .value (w.toRec .pending)
  | .history h => .history h.toRec

end Arrival

/-- A record with the number its handle has drawn for it. -/
structure Drawn where
  handle : Nat
  n : Nat
  runID : String
  arrival : Arrival
deriving DecidableEq, Repr

/-- The key of a record, where the number is a `uint64`. -/
def Drawn.key (d : Drawn) : List Char :=
  eventKey d.arrival.kind d.runID d.arrival.nanos (d.n % 2 ^ 64)

/-- Where a call of `WriteBatch` stands. -/
inductive Phase where
  | ready (ops : List WriteOp)
  | storing (d : Drawn) (ops : List WriteOp)
  | flipping (runID : String) (f : StatusFlip) (keys : List (List Char)) (ops : List WriteOp)
  | settling (runID : String) (f : StatusFlip) (key : List Char) (r : Record)
      (keys : List (List Char)) (ops : List WriteOp)
  | returned
deriving DecidableEq, Repr

/-- The bucket, the numbers each handle has drawn, the calls with their handles, and the
records that were accepted. -/
structure World where
  kv : KV
  drawn : Nat → Nat
  calls : List (Nat × Phase)
  accepted : List Drawn

/-- What may happen: a call begins, metadata is saved, a call takes its next step, or that
step fails. -/
inductive Action where
  | writeBatch (handle : Nat) (ops : List WriteOp)
  | save (m : RunMetadata)
  | move (i : Nat)
  | fail (i : Nat)
deriving DecidableEq, Repr

namespace World

/-- An empty bucket, and no calls. -/
def new : World := ⟨.empty, fun _ => 0, [], []⟩

variable (w : World)

/-- Call `i` is at another point. -/
def moveTo (i h : Nat) (ph : Phase) : World := { w with calls := w.calls.set i (h, ph) }

/-- The handle draws the next number for a record. -/
def draw (i h : Nat) (runID : String) (a : Arrival) (ops : List WriteOp) : World :=
  { w with
    drawn := Function.update w.drawn h (w.drawn h + 1)
    calls := w.calls.set i (h, .storing ⟨h, w.drawn h + 1, runID, a⟩ ops) }

/-- The next step of call `i`. -/
def advance (i h : Nat) : Phase → Option World
  | .ready [] => some (w.moveTo i h .returned)
  | .ready (op :: ops) =>
    match op.event? with
    | none => some (w.moveTo i h (.ready ops))
    | some (.value v) => some (w.draw i h op.runID (.value v) ops)
    | some (.history e) => some (w.draw i h op.runID (.history e) ops)
    | some (.flip f) =>
      some (w.moveTo i h (.flipping op.runID f (runKeys w.kv (stem .value op.runID)) ops))
  | .storing d ops =>
    some { w.moveTo i h (.ready ops) with
      kv := w.kv.put d.key d.arrival.record, accepted := w.accepted ++ [d] }
  | .flipping _ _ [] ops => some (w.moveTo i h (.ready ops))
  | .flipping runID f (k :: ks) ops =>
    match w.kv.get k with
    | none => some (w.moveTo i h .returned)
    | some e =>
      match flipped f e.value with
      | none => some (w.moveTo i h (.flipping runID f ks ops))
      | some r => some (w.moveTo i h (.settling runID f k r ks ops))
  | .settling runID f k r ks ops =>
    some { w.moveTo i h (.flipping runID f ks ops) with kv := w.kv.put k r }
  | .returned => none

/-- What an action does; a batch or metadata that is refused changes nothing. -/
def step : Action → Option World
  | .writeBatch h ops =>
    if ∀ op ∈ ops, op.Valid then some { w with calls := w.calls ++ [(h, .ready ops)] } else some w
  | .save m =>
    if m.runID = "" then some w
    else some { w with kv := w.kv.put (metaSuffix m.runID) (.metadata m) }
  | .move i => (w.calls[i]?).bind fun c => w.advance i c.1 c.2
  | .fail i => (w.calls[i]?).map fun c => w.moveTo i c.1 .returned

/-- What a sequence of actions does. -/
def exec (w : World) : List Action → Option World
  | [] => some w
  | a :: as => (w.step a).bind fun w' => w'.exec as

lemma exec_append (as bs : List Action) : w.exec (as ++ bs) = (w.exec as).bind fun w' =>
    w'.exec bs := by
  induction as generalizing w with
  | nil => rfl
  | cons a as ih =>
    rw [cons_append, exec, exec, Option.bind_assoc]
    congr 1
    funext w'
    exact ih w'

/-! ## What a step can do -/

/-- A step of a call that leaves the bucket alone. -/
inductive Quiet (kv : KV) : Phase → Phase → Prop
  | fail (ph : Phase) : Quiet kv ph .returned
  | next (op : WriteOp) (ops : List WriteOp) : Quiet kv (.ready (op :: ops)) (.ready ops)
  | list {op : WriteOp} {f : StatusFlip} (he : op.event? = some (.flip f)) (ops : List WriteOp) :
    Quiet kv (.ready (op :: ops)) (.flipping op.runID f (runKeys kv (stem .value op.runID)) ops)
  | finish (runID : String) (f : StatusFlip) (ops : List WriteOp) :
    Quiet kv (.flipping runID f [] ops) (.ready ops)
  | skip (runID : String) (f : StatusFlip) (k : List Char) (ks : List (List Char))
      (ops : List WriteOp) :
    Quiet kv (.flipping runID f (k :: ks) ops) (.flipping runID f ks ops)
  | take {f : StatusFlip} {k : List Char} {e : BucketEntry (List Char) Record} {r : Record}
    (hget : kv.get k = some e) (hr : flipped f e.value = some r) (runID : String)
    (ks : List (List Char)) (ops : List WriteOp) :
    Quiet kv (.flipping runID f (k :: ks) ops) (.settling runID f k r ks ops)

/-- What a step does to the world. -/
inductive Step (w : World) : World → Prop
  | refuse : Step w w
  | begin (h : Nat) {ops : List WriteOp} (hops : ∀ op ∈ ops, op.Valid) :
    Step w { w with calls := w.calls ++ [(h, .ready ops)] }
  | save (m : RunMetadata) : Step w { w with kv := w.kv.put (metaSuffix m.runID) (.metadata m) }
  | quiet {i h : Nat} {ph ph' : Phase} (hi : w.calls[i]? = some (h, ph)) (hph : Quiet w.kv ph ph') :
    Step w (w.moveTo i h ph')
  | draw {i h : Nat} {op : WriteOp} {a : Arrival} {ops : List WriteOp}
    (hi : w.calls[i]? = some (h, .ready (op :: ops))) (ha : op.event? = some a.event) :
    Step w (w.draw i h op.runID a ops)
  | store {i h : Nat} {d : Drawn} {ops : List WriteOp}
      (hi : w.calls[i]? = some (h, .storing d ops)) :
    Step w { w.moveTo i h (.ready ops) with
      kv := w.kv.put d.key d.arrival.record, accepted := w.accepted ++ [d] }
  | settle {i h : Nat} {runID : String} {f : StatusFlip} {k : List Char} {r : Record}
    {ks : List (List Char)} {ops : List WriteOp}
    (hi : w.calls[i]? = some (h, .settling runID f k r ks ops)) :
    Step w { w.moveTo i h (.flipping runID f ks ops) with kv := w.kv.put k r }

variable {w} {w' : World}

lemma Step.of_advance {i h : Nat} {ph : Phase} (hi : w.calls[i]? = some (h, ph))
    (hw : w.advance i h ph = some w') : Step w w' := by
  cases ph with
  | ready ops =>
    cases ops with
    | nil =>
      cases hw
      exact .quiet hi (.fail _)
    | cons op ops =>
      rw [advance] at hw
      split at hw
      · cases hw
        exact .quiet hi (.next op ops)
      · rename_i v he
        cases hw
        exact .draw (a := .value v) hi he
      · rename_i e he
        cases hw
        exact .draw (a := .history e) hi he
      · rename_i f he
        cases hw
        exact .quiet hi (.list he ops)
  | storing d ops =>
    cases hw
    exact .store hi
  | flipping runID f keys ops =>
    cases keys with
    | nil =>
      cases hw
      exact .quiet hi (.finish runID f ops)
    | cons k ks =>
      rw [advance] at hw
      split at hw
      · cases hw
        exact .quiet hi (.fail _)
      · rename_i e hget
        split at hw
        · cases hw
          exact .quiet hi (.skip runID f k ks ops)
        · rename_i r hr
          cases hw
          exact .quiet hi (.take hget hr runID ks ops)
  | settling runID f k r ks ops =>
    cases hw
    exact .settle hi
  | returned => cases hw

lemma Step.of_step {a : Action} (hw : w.step a = some w') : Step w w' := by
  cases a with
  | writeBatch h ops =>
    rw [step] at hw
    split at hw
    · rename_i hops
      cases hw
      exact .begin h hops
    · cases hw
      exact .refuse
  | save m =>
    rw [step] at hw
    split at hw
    · cases hw
      exact .refuse
    · cases hw
      exact .save m
  | move i =>
    obtain ⟨⟨h, ph⟩, hi, hw⟩ := Option.bind_eq_some_iff.1 hw
    exact .of_advance hi hw
  | fail i =>
    obtain ⟨⟨h, ph⟩, hi, rfl⟩ := Option.map_eq_some_iff.1 hw
    exact .quiet hi (.fail ph)

/-- What every step keeps, every sequence of actions keeps. -/
lemma exec_induction {P : World → Prop} (hstep : ∀ w w', P w → Step w w' → P w') {as : List Action}
    (hw : P w) (h : w.exec as = some w') : P w' := by
  induction as generalizing w with
  | nil =>
    cases h
    exact hw
  | cons a as ih =>
    obtain ⟨w₁, h₁, h⟩ := Option.bind_eq_some_iff.1 h
    exact ih (hstep w w₁ hw (.of_step h₁)) h

end World

/-! ## The numbers of a handle -/

/-- The record a call is about to put. -/
def Phase.drawn : Phase → Option Drawn
  | .storing d _ => some d
  | _ => none

namespace World

/-- The record call `i` is about to put. -/
def outstanding (w : World) (i : Nat) : Option Drawn := (w.calls[i]?).bind fun c => c.2.drawn

/-- A handle draws each number once. -/
structure Numbers (w : World) : Prop where
  accepted_le : ∀ d ∈ w.accepted, d.n ≤ w.drawn d.handle
  accepted_distinct : w.accepted.Pairwise fun d d' => d.handle = d'.handle → d.n ≠ d'.n
  storing_le : ∀ i d, w.outstanding i = some d → d.n ≤ w.drawn d.handle
  storing_fresh : ∀ i d, w.outstanding i = some d → ∀ d' ∈ w.accepted,
    d'.handle = d.handle → d'.n ≠ d.n
  storing_distinct : ∀ i j d d', i ≠ j → w.outstanding i = some d → w.outstanding j = some d' →
    d.handle = d'.handle → d.n ≠ d'.n

variable {w w' : World} {ph : Phase}

lemma Quiet.drawn {kv : KV} {ph' : Phase} (h : Quiet kv ph ph') : ph'.drawn = none := by
  cases h <;> rfl

variable {i h : Nat} {d : Drawn}

/-- A call that moves to a point where it is not about to put a record. -/
lemma outstanding_set (hph : ph.drawn = none) {j : Nat}
    (hj : ((w.calls.set i (h, ph))[j]?).bind (fun c => c.2.drawn) = some d) :
    j ≠ i ∧ w.outstanding j = some d := by
  rw [getElem?_set] at hj
  by_cases hij : i = j
  · rw [if_pos hij] at hj
    split at hj
    · rw [Option.bind_some, hph] at hj
      cases hj
    · cases hj
  · rw [if_neg hij] at hj
    exact ⟨Ne.symm hij, hj⟩

lemma Numbers.mono (hn : w.Numbers) (hacc : w'.accepted = w.accepted) (hdrawn : w'.drawn = w.drawn)
    (hout : ∀ i d, w'.outstanding i = some d → w.outstanding i = some d) : w'.Numbers := by
  constructor
  · rw [hacc, hdrawn]
    exact hn.accepted_le
  · rw [hacc]
    exact hn.accepted_distinct
  · rw [hdrawn]
    exact fun i d hi => hn.storing_le i d (hout i d hi)
  · rw [hacc]
    exact fun i d hi => hn.storing_fresh i d (hout i d hi)
  · exact fun i j d d' hij hi hj => hn.storing_distinct i j d d' hij (hout i d hi) (hout j d' hj)

variable {ops : List WriteOp}

lemma Numbers.draw (hn : w.Numbers) {runID : String} {a : Arrival}
    (hi : i < w.calls.length) : (w.draw i h runID a ops).Numbers := by
  have hdrawn (h' : Nat) : w.drawn h' ≤ (w.draw i h runID a ops).drawn h' := by
    show w.drawn h' ≤ Function.update w.drawn h (w.drawn h + 1) h'
    by_cases hh : h' = h
    · rw [hh, Function.update_self]
      exact Nat.le_succ _
    · rw [Function.update_of_ne hh]
  have hnew : (w.draw i h runID a ops).drawn h = w.drawn h + 1 := Function.update_self ..
  have hout (j : Nat) (d : Drawn) (hj : (w.draw i h runID a ops).outstanding j = some d) :
      (j = i ∧ d = ⟨h, w.drawn h + 1, runID, a⟩) ∨ (j ≠ i ∧ w.outstanding j = some d) := by
    rw [outstanding, World.draw, getElem?_set] at hj
    by_cases hij : i = j
    · rw [if_pos hij, if_pos hi] at hj
      exact .inl ⟨hij.symm, (Option.some.inj hj).symm⟩
    · rw [if_neg hij] at hj
      exact .inr ⟨Ne.symm hij, hj⟩
  -- a number drawn before is not the new one
  have hold {d : Drawn} (hd : d.n ≤ w.drawn d.handle) (hh : d.handle = h) : d.n ≠
      w.drawn h + 1 := by
    rw [hh] at hd
    omega
  refine ⟨fun d hd => (hn.accepted_le d hd).trans (hdrawn _), hn.accepted_distinct, ?_, ?_, ?_⟩
  · intro j d hj
    rcases hout j d hj with ⟨-, rfl⟩ | ⟨-, hj⟩
    · exact hnew.ge
    · exact (hn.storing_le j d hj).trans (hdrawn _)
  · intro j d hj d' hd'
    rcases hout j d hj with ⟨-, rfl⟩ | ⟨-, hj⟩
    · exact hold (hn.accepted_le d' hd')
    · exact hn.storing_fresh j d hj d' hd'
  · intro j j' d d' hne hj hj'
    rcases hout j d hj with ⟨hji, rfl⟩ | ⟨-, hold₁⟩
    · rcases hout j' d' hj' with ⟨hji', rfl⟩ | ⟨-, hold₂⟩
      · exact absurd (hji.trans hji'.symm) hne
      · exact fun hh => (hold (hn.storing_le j' d' hold₂) hh.symm).symm
    · rcases hout j' d' hj' with ⟨-, rfl⟩ | ⟨-, hold₂⟩
      · exact hold (hn.storing_le j d hold₁)
      · exact hn.storing_distinct j j' d d' hne hold₁ hold₂

lemma Numbers.store (hn : w.Numbers) (hi : w.calls[i]? = some (h, .storing d ops)) (kv : KV) :
    Numbers { w.moveTo i h (.ready ops) with kv, accepted := w.accepted ++ [d] } := by
  have hd : w.outstanding i = some d := by
    rw [outstanding, hi]
    rfl
  have hout (j : Nat) (d' : Drawn)
      (hj : outstanding { w.moveTo i h (.ready ops) with kv, accepted := w.accepted ++ [d] } j =
        some d') :
      j ≠ i ∧ w.outstanding j = some d' := outstanding_set rfl hj
  constructor
  · exact forall_mem_concat.2 ⟨hn.accepted_le, hn.storing_le i d hd⟩
  · exact pairwise_concat.2 ⟨hn.accepted_distinct, hn.storing_fresh i d hd⟩
  · exact fun j d' hj => hn.storing_le j d' (hout j d' hj).2
  · intro j d' hj
    obtain ⟨hne, hj⟩ := hout j d' hj
    rw [forall_mem_concat]
    exact ⟨hn.storing_fresh j d' hj, hn.storing_distinct i j d d' hne.symm hd hj⟩
  · intro j j' d' d'' hne hj hj'
    exact hn.storing_distinct j j' d' d'' hne (hout j d' hj).2 (hout j' d'' hj').2

lemma Numbers.step (hn : w.Numbers) (hw : Step w w') : w'.Numbers := by
  cases hw with
  | refuse => exact hn
  | begin h hops =>
    refine hn.mono rfl rfl fun j d hj => ?_
    rw [outstanding, getElem?_append] at hj
    split at hj
    · exact hj
    · obtain ⟨c, hc, hd⟩ := Option.bind_eq_some_iff.1 hj
      rw [mem_singleton.1 (mem_of_getElem? hc)] at hd
      cases hd
  | save m => exact hn.mono rfl rfl fun j d hj => hj
  | quiet hi hph => exact hn.mono rfl rfl fun j d hj => (outstanding_set hph.drawn hj).2
  | draw hi ha => exact hn.draw (List.getElem?_eq_some_iff.1 hi).1
  | store hi => exact hn.store hi _
  | settle hi => exact hn.mono rfl rfl fun j d hj => (outstanding_set rfl hj).2

lemma numbers_new : new.Numbers := by
  have hnone (i : Nat) (d : Drawn) : new.outstanding i ≠ some d := fun h => by cases h
  exact ⟨nofun, .nil, fun i d hi => absurd hi (hnone i d), fun i d hi => absurd hi (hnone i d),
    fun i _ d _ _ hi => absurd hi (hnone i d)⟩

lemma numbers_exec {as : List Action} (h : new.exec as = some w) : w.Numbers :=
  exec_induction (fun _ _ hn hw => hn.step hw) numbers_new h

end World

/-! ## What lies under the keys -/

/-- The flip names a task and settles it one way or the other. -/
def Settles (f : StatusFlip) : Prop := f.taskID ≠ "" ∧ (Event.flip f).Settling

variable {f : StatusFlip}

lemma settles_of_valid {op : WriteOp} (h : op.Valid)
    (he : op.event? = some (.flip f)) : Settles f := by
  obtain ⟨e, he', hset⟩ := h.event
  rw [he, Option.some.injEq] at he'
  subst he'
  refine ⟨fun htask => ?_, hset⟩
  rw [WriteOp.event?] at he
  unfold WriteOp.Valid validateWriteOp at h
  split at h
  · cases h
  · split at he
    · cases hv : op.valueWrite <;> simp [hv] at he
    · rename_i hkind
      obtain ⟨f', hf', hff'⟩ := Option.map_eq_some_iff.1 he
      cases hff'
      simp [hkind, hf', htask] at h
    · cases hv : op.historyEntry <;> simp [hv] at he
    · cases he

variable {r r' : Record}

/-- What a flip settles is a pending value record of its task. -/
lemma flipped_eq_some (hf : f.taskID ≠ "") (h : flipped f r = some r') :
    ∃ v, r = .value v ∧ v.taskID = f.taskID ∧ v.status = ValueStatus.pending.string ∧
      r' = .value { v with status := f.newStatus.string } := by
  rw [flipped] at h
  split at h
  · cases h
  · rename_i hnot
    rw [not_or, not_not, not_not] at hnot
    cases r with
    | value v => exact ⟨v, rfl, hnot.1, hnot.2, (Option.some.inj h).symm⟩
    | history e | metadata m => exact absurd hnot.1.symm hf

/-- The record of an arrival, whatever status a write has by now. -/
def Arrival.Holds : Arrival → Record → Prop
  | .value w, r => ∃ st : ValueStatus, st.Named ∧ r = .value (w.toRec st)
  | .history h, r => r = .history h.toRec

lemma Arrival.Holds.flipped {a : Arrival} (h : a.Holds r)
    (hf : Settles f) (hr : flipped f r = some r') : a.Holds r' := by
  obtain ⟨v, rfl, -, -, rfl⟩ := flipped_eq_some hf.1 hr
  cases a with
  | value w =>
    obtain ⟨st, -, hv⟩ := h
    cases hv
    exact ⟨f.newStatus, hf.2.named, rfl⟩
  | history e => cases h

/-- The operations a call still has to do are valid, and the record it is about to put back
is one of the accepted ones. -/
def Phase.Sound (accepted : List Drawn) : Phase → Prop
  | .ready ops | .storing _ ops => ∀ op ∈ ops, op.Valid
  | .flipping _ f _ ops => Settles f ∧ ∀ op ∈ ops, op.Valid
  | .settling _ f k r _ ops =>
    Settles f ∧ (∀ op ∈ ops, op.Valid) ∧ ∃ d ∈ accepted, d.key = k ∧ d.arrival.Holds r
  | .returned => True

lemma Phase.Sound.mono {acc acc' : List Drawn} (hacc : ∀ d ∈ acc, d ∈ acc') {ph : Phase}
    (h : ph.Sound acc) : ph.Sound acc' := by
  cases ph with
  | settling runID f k r ks ops =>
    obtain ⟨hf, hops, d, hd, hk⟩ := h
    exact ⟨hf, hops, d, hacc d hd, hk⟩
  | ready _ | storing _ _ | flipping _ _ _ _ => exact h
  | returned => trivial

/-- An entry is metadata under its key, or an accepted record under its key. -/
def Backed (accepted : List Drawn) (e : BucketEntry (List Char) Record) : Prop :=
  (∃ m, e.value = .metadata m ∧ e.key = metaSuffix m.runID) ∨
    ∃ d ∈ accepted, d.key = e.key ∧ d.arrival.Holds e.value

namespace World

variable {w w' : World}

/-- The bucket holds the accepted records and metadata. -/
structure Sound (w : World) : Prop where
  calls : ∀ c ∈ w.calls, c.2.Sound w.accepted
  backed : ∀ k e, w.kv.get k = some e → Backed w.accepted e
  present : ∀ d ∈ w.accepted, d.key ∈ w.kv.keys

/-- The entry a flip settles is an accepted record. -/
lemma Sound.of_flipped (h : w.Sound) {k : List Char} {e : BucketEntry (List Char) Record}
    (hget : w.kv.get k = some e) {f : StatusFlip} (hf : Settles f) {r : Record}
    (hr : flipped f e.value = some r) : ∃ d ∈ w.accepted, d.key = k ∧ d.arrival.Holds r := by
  have hkey : e.key = k := (Bucket.get_eq_some_iff.1 hget).2
  rcases h.backed k e hget with ⟨m, hm, -⟩ | ⟨d, hd, hdk, hholds⟩
  · obtain ⟨v, hv, -⟩ := flipped_eq_some hf.1 hr
    rw [hm] at hv
    cases hv
  · exact ⟨d, hd, hdk.trans hkey, hholds.flipped hf hr⟩

variable {ph : Phase}

lemma Sound.quiet (h : w.Sound) {ph' : Phase} (hph : ph.Sound w.accepted)
    (hq : Quiet w.kv ph ph') : ph'.Sound w.accepted := by
  cases hq with
  | fail => trivial
  | next op ops => exact (forall_mem_cons.1 hph).2
  | list he ops =>
    have hops := forall_mem_cons.1 hph
    exact ⟨settles_of_valid hops.1 he, hops.2⟩
  | finish runID f ops => exact hph.2
  | skip runID f k ks ops => exact hph
  | take hget hr runID ks ops => exact ⟨hph.1, hph.2, h.of_flipped hget hph.1 hr⟩

/-- A call is at another point, the bucket and the accepted records stay. -/
lemma Sound.moveTo (h : w.Sound) {i n : Nat} (hph : ph.Sound w.accepted) :
    ∀ c ∈ w.calls.set i (n, ph), c.2.Sound w.accepted := by
  intro c hc
  rcases mem_or_eq_of_mem_set hc with hc | rfl
  · exact h.calls c hc
  · exact hph

lemma Sound.step (h : w.Sound) (hw : Step w w') : w'.Sound := by
  have hcall {i n : Nat} {ph : Phase} (hi : w.calls[i]? = some (n, ph)) : ph.Sound w.accepted :=
    h.calls _ (mem_of_getElem? hi)
  cases hw with
  | refuse => exact h
  | begin n hops =>
    refine ⟨?_, h.backed, h.present⟩
    rw [forall_mem_concat]
    exact ⟨h.calls, hops⟩
  | save m =>
    refine ⟨h.calls, fun k e he => ?_, fun d hd => Bucket.mem_keys_put.2 (.inr (h.present d hd))⟩
    rw [Bucket.get_put] at he
    split at he
    · cases he
      exact .inl ⟨m, rfl, rfl⟩
    · exact h.backed k e he
  | quiet hi hph => exact ⟨h.moveTo (h.quiet (hcall hi) hph), h.backed, h.present⟩
  | draw hi ha => exact ⟨h.moveTo (forall_mem_cons.1 (hcall hi)).2, h.backed, h.present⟩
  | @store i n d ops hi =>
    have hmono : ∀ d' ∈ w.accepted, d' ∈ w.accepted ++ [d] := fun _ => mem_append_left _
    have hstoring := hcall hi
    have hready : (Phase.ready ops).Sound w.accepted := hstoring
    refine ⟨fun c hc => (h.moveTo hready c hc).mono hmono, fun k e he => ?_, ?_⟩
    · rw [Bucket.get_put] at he
      split at he
      · cases he
        refine .inr ⟨d, by simp, rfl, ?_⟩
        cases d.arrival with
        | value w => exact ⟨.pending, rfl, rfl⟩
        | history h => rfl
      · exact (h.backed k e he).imp_right fun ⟨d', hd', hk⟩ => ⟨d', hmono d' hd', hk⟩
    · exact forall_mem_concat.2 ⟨fun d' hd' => Bucket.mem_keys_put.2 (.inr (h.present d' hd')),
        Bucket.mem_keys_put.2 (.inl rfl)⟩
  | settle hi =>
    obtain ⟨hf, hops, d, hd, hdk, hholds⟩ := hcall hi
    refine ⟨h.moveTo ⟨hf, hops⟩, fun k' e he => ?_, fun d hd =>
      Bucket.mem_keys_put.2 (.inr (h.present d hd))⟩
    rw [Bucket.get_put] at he
    split at he
    · cases he
      exact .inr ⟨d, hd, hdk, hholds⟩
    · exact h.backed k' e he

lemma sound_new : new.Sound := by
  refine ⟨forall_mem_nil _, fun k e he => ?_, forall_mem_nil _⟩
  cases he

lemma sound_exec {as : List Action} (h : new.exec as = some w) : w.Sound :=
  exec_induction (fun _ _ hs hw => hs.step hw) sound_new h

end World

end Nats

end Blkit
