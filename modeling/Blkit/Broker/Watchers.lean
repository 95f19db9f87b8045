import Blkit.Broker.World
import Mathlib.Algebra.Order.Group.Multiset
import Mathlib.Data.List.Induction

/-!
# What watchers of the registry know

A watcher folds the updates it receives: snapshot and added insert, removed and
heartbeat-lost delete.  Order and heartbeat times do not count.

What a watcher has received, what its pump has in hand and what is queued for it add up, in
this order, to what is registered.  So a watcher is up to date when its queue is empty and
nothing is in the hand of its pump; an empty queue alone is not enough.
-/

namespace Blkit

open List

namespace Broker

variable {D : Type}

/-! ## Folding a feed -/

/-- A registration without its heartbeat time. -/
def ProcessRegistration.still (reg : ProcessRegistration D) : ProcessRegistration D :=
  { reg with lastHeartbeat := 0 }

/-- A list of registrations without order and heartbeat times. -/
def stills (regs : List (ProcessRegistration D)) : Multiset (ProcessRegistration D) :=
  ↑(regs.map ProcessRegistration.still)

lemma stills_perm {regs regs' : List (ProcessRegistration D)} (h : regs.Perm regs') :
    stills regs = stills regs' :=
  Multiset.coe_eq_coe.2 (h.map _)

lemma stills_cons (reg : ProcessRegistration D) (regs : List (ProcessRegistration D)) :
    stills (reg :: regs) = reg.still ::ₘ stills regs := rfl

lemma stills_append (regs regs' : List (ProcessRegistration D)) :
    stills (regs ++ regs') = stills regs + stills regs' := by
  rw [stills, map_append, ← Multiset.coe_add]
  rfl

/-- What is registered. -/
def Registry.registered (r : Registry D) : Multiset (ProcessRegistration D) :=
  stills (r.workers.flatMap Worker.regs)

section Fold

variable [DecidableEq D]

/-- Snapshot and added insert, removed and heartbeat-lost delete. -/
def applyUpdate (m : Multiset (ProcessRegistration D)) : RegistryUpdate D →
    Multiset (ProcessRegistration D)
  | .snapshot reg | .added reg => reg.still ::ₘ m
  | .snapshotComplete => m
  | .removed reg | .heartbeatLost reg => m.erase reg.still

/-- What a watcher makes of the updates it has received. -/
def foldUpdates (m : Multiset (ProcessRegistration D)) (us : List (RegistryUpdate D)) :
    Multiset (ProcessRegistration D) := us.foldl applyUpdate m

variable {m : Multiset (ProcessRegistration D)}

lemma foldUpdates_append {us vs : List (RegistryUpdate D)} :
    foldUpdates m (us ++ vs) = foldUpdates (foldUpdates m us) vs := foldl_append

variable {f : ProcessRegistration D → RegistryUpdate D}

/-- A list of updates that insert. -/
lemma foldUpdates_insert
    (hf : ∀ m reg, applyUpdate m (f reg) = reg.still ::ₘ m) (regs : List (ProcessRegistration D)) :
    foldUpdates m (regs.map f) = stills regs + m := by
  induction regs generalizing m with
  | nil => exact (zero_add m).symm
  | cons reg regs ih =>
    rw [stills_cons, Multiset.cons_add, ← Multiset.add_cons]
    exact (congrArg (fun m' => foldUpdates m' _) (hf m reg)).trans ih

/-- A list of updates that delete, where all that is deleted was there. -/
lemma foldUpdates_delete
    (hf : ∀ m reg, applyUpdate m (f reg) = m.erase reg.still)
    (regs : List (ProcessRegistration D)) :
    foldUpdates (stills regs + m) (regs.map f) = m := by
  induction regs with
  | nil => exact zero_add m
  | cons reg regs ih =>
    refine (congrArg (fun m' => foldUpdates m' _) ((hf _ reg).trans ?_)).trans ih
    rw [stills_cons, Multiset.cons_add, Multiset.erase_cons_head]

end Fold

/-! ## Walking the workers -/

namespace Registry

variable {r : Registry D} {order : List ℕ} {workerID : String}

lemma filterMap_getElem?_range {α : Type} (l : List α) :
    (range l.length).filterMap (l[·]?) = l := by
  induction l with
  | nil => rfl
  | cons a l ih =>
    rw [length_cons, range_succ_eq_map, filterMap_cons, filterMap_map]
    exact congrArg (a :: ·) ih

/-- A loop in any order walks the workers. -/
lemma visit_perm (h : r.Visits order) : (r.visit order).Perm r.workers :=
  (List.Perm.filterMap _ h).trans (.of_eq (filterMap_getElem?_range _))

variable {w : Worker D}

lemma worker_perm (h : r.worker workerID = some w) : r.workers.Perm (w :: r.others workerID) := by
  obtain ⟨hid, as, bs, hws, has⟩ := find?_eq_some_iff_append.1 h
  have hothers : r.others workerID = as ++ bs := by
    rw [others, hws, eraseP_append_right _ fun b hb => by simpa using has b hb,
      eraseP_cons_of_pos (p := fun w => decide (Worker.id w = workerID)) hid]
  rw [hothers, hws]
  exact perm_middle

/-- The registrations of a worker, and those of the others. -/
lemma registered_of_worker (h : r.worker workerID = some w) :
    r.registered = stills w.regs + stills ((r.others workerID).flatMap Worker.regs) := by
  rw [registered, stills_perm ((worker_perm h).flatMap_right _), flatMap_cons, stills_append]

end Registry

/-! ## The feed adds up -/

lemma Pump.feed_push (p : Pump D) (us : List (RegistryUpdate D)) :
    (p.push us).feed = p.feed ++ us :=
  (append_assoc _ _ _).symm

lemma Pump.feed_pop (p p' : Pump D) (h : p.pop = some p') (ha : p'.attached) :
    p.attached ∧ p.feed = p'.feed := by
  rw [pop] at h
  split at h
  · rename_i u q _ hhand hqueue
    cases h
    refine ⟨ha, ?_⟩
    rw [feed, feed, hhand, hqueue]
    simp
  · cases h

lemma Pump.feed_deliver (p p' : Pump D) (h : p.deliver = some p') (ha : p'.attached) :
    p.attached ∧ p.feed = p'.feed := by
  rw [deliver] at h
  split at h
  · rename_i u hhand
    cases h
    refine ⟨ha, ?_⟩
    rw [feed, feed, hhand]
    simp
  · cases h

section Feed

variable [DecidableEq D]

/-- What each watcher was sent adds up to what is registered. -/
def Feed (r : Registry D) : Prop :=
  ∀ p ∈ r.pumps, p.attached = true → foldUpdates 0 p.feed = r.registered

variable {r : Registry D} {us : List (RegistryUpdate D)}

/-- Updates are sent that take what was registered to what is. -/
lemma Feed.emit {ws : List (Worker D)} (h : Feed r)
    (hus : foldUpdates r.registered us = stills (ws.flatMap Worker.regs)) :
    Feed (({ r with workers := ws } : Registry D).emit us) := by
  intro p' hp' hattached
  obtain ⟨p, hp, rfl⟩ := mem_map.1 hp'
  split at hattached
  · rename_i hp₀
    rw [if_pos hp₀, Pump.feed_push, foldUpdates_append, h p hp hp₀]
    exact hus
  · exact absurd hattached ‹_›

variable {ps : List (Pump D)}

/-- Pumps change, what each attached one was sent does not. -/
lemma Feed.pumps (h : Feed r)
    (hps : ∀ p' ∈ ps, p'.attached → ∃ p ∈ r.pumps, p.attached ∧ p.feed = p'.feed) :
    Feed ({ r with pumps := ps } : Registry D) := by
  intro p' hp' hattached
  obtain ⟨p, hp, hp₀, hfeed⟩ := hps p' hp' hattached
  rw [← hfeed]
  exact h p hp hp₀

variable {r' : Registry D}

lemma Feed.pumpStep {i : ℕ} {f : Pump D → Option (Pump D)} (h : Feed r)
    (hf : ∀ p p', f p = some p' → p'.attached → p.attached ∧ p.feed = p'.feed)
    (hr' : r.pumpStep i f = some r') : Feed r' := by
  obtain ⟨p', hp', rfl⟩ := Option.map_eq_some_iff.1 hr'
  obtain ⟨p, hp, hfp⟩ := Option.bind_eq_some_iff.1 hp'
  refine h.pumps fun q hq hattached => ?_
  rcases mem_or_eq_of_mem_set hq with hq | rfl
  · exact ⟨q, hq, hattached, rfl⟩
  · exact ⟨p, mem_of_getElem? hp, hf p q hfp hattached⟩

omit [DecidableEq D] in
lemma emit_emit (vs : List (RegistryUpdate D)) : (r.emit us).emit vs = r.emit (us ++ vs) := by
  have hpush (p : Pump D) : (if (if p.attached then p.push us else p).attached then
      (if p.attached then p.push us else p).push vs else (if p.attached then p.push us else p)) =
      if p.attached then p.push (us ++ vs) else p := by
    by_cases hp : p.attached = true
    · rw [if_pos hp, if_pos hp, if_pos (show (p.push us).attached = true from hp),
        Pump.push, Pump.push]
      exact congrArg (fun q => { p with queue := q }) (append_assoc _ _ _)
    · rw [if_neg hp, if_neg hp, if_neg hp]
  simp only [Registry.emit, map_map, Function.comp_def, hpush]

omit [DecidableEq D] in
/-- The registrations once a worker has others. -/
lemma stills_concat (ws : List (Worker D)) (w : Worker D) :
    stills ((ws ++ [w]).flatMap Worker.regs) = stills w.regs + stills (ws.flatMap Worker.regs) := by
  rw [flatMap_append, stills_append, flatMap_singleton, add_comm]

/-- What was registered by a worker is taken away. -/
lemma foldUpdates_removed (workerID : String) :
    foldUpdates r.registered (((r.worker workerID).elim [] Worker.regs).map .removed) =
      stills ((r.others workerID).flatMap Worker.regs) := by
  cases hw : r.worker workerID with
  | none => rw [Registry.others, eraseP_of_forall_not (find?_eq_none.1 hw)]; rfl
  | some w =>
    rw [Registry.registered_of_worker hw]
    exact foldUpdates_delete (fun _ _ => rfl) _

variable {closed cancelled : Bool} {ttl now : Int} {workerID : String}

lemma Feed.registerProcesses {regs : List (ProcessRegistration D)} (h : Feed r)
    (hr' : r.registerProcesses closed ttl cancelled now workerID regs = .ok r') : Feed r' := by
  rw [Registry.registerProcesses] at hr'
  split at hr'
  · cases hr'
  split at hr'
  · cases hr'
  cases hr'
  generalize stampRegs workerID now _ regs = st
  obtain ⟨stamped, firstReg⟩ := st
  let ws := r.others workerID ++ [⟨workerID, stamped, now + ttl, firstReg⟩]
  show Feed ((({ r with workers := ws } : Registry D).emit _).emit _)
  rw [emit_emit]
  refine h.emit ?_
  rw [foldUpdates_append, foldUpdates_removed, foldUpdates_insert (fun _ _ => rfl), stills_concat]

lemma Feed.heartbeat (h : Feed r)
    (hr' : r.heartbeat closed ttl cancelled now workerID = .ok r') : Feed r' := by
  rw [Registry.heartbeat] at hr'
  split at hr'
  · cases hr'
  split at hr'
  · cases hr'
  split at hr'
  · cases hr'
  · rename_i w hw
    cases hr'
    intro p hp hattached
    -- only the times of heartbeats have changed
    have hregs : stills (w.regs.map fun reg => { reg with lastHeartbeat := now }) =
      stills w.regs := by
      rw [stills, stills, map_map]
      rfl
    rw [Registry.registered, stills_concat, hregs, ← Registry.registered_of_worker hw]
    exact h p hp hattached

lemma Feed.unregister (h : Feed r)
    (hr' : r.unregister closed cancelled workerID = .ok r') : Feed r' := by
  rw [Registry.unregister] at hr'
  split at hr'
  · cases hr'
  split at hr'
  · cases hr'
  split at hr'
  · cases hr'
  · rename_i w hw
    cases hr'
    have hremoved := @foldUpdates_removed D _ r workerID
    rw [hw] at hremoved
    exact h.emit hremoved

variable {order : List ℕ}

lemma Feed.watch (h : Feed r) (horder : r.Visits order)
    (hr' : r.watch closed order = .ok r') : Feed r' := by
  rw [Registry.watch] at hr'
  split at hr'
  · cases hr'
  cases hr'
  intro p hp hattached
  rcases mem_append.1 hp with hp | hp
  · exact h p hp hattached
  · rw [mem_singleton.1 hp]
    show foldUpdates 0 (_ ++ [.snapshotComplete]) = r.registered
    rw [foldUpdates_append, ← map_flatMap, foldUpdates_insert (fun _ _ => rfl),
      add_zero, Registry.registered]
    exact stills_perm ((Registry.visit_perm horder).flatMap_right _)

/-- The workers of a list that were not heard of, and the others. -/
lemma foldUpdates_lost (p : Worker D → Bool) (ws : List (Worker D)) :
    foldUpdates (stills (ws.flatMap Worker.regs))
      ((ws.filter p).flatMap fun w => w.regs.map .heartbeatLost) =
      stills ((ws.filter fun w => !p w).flatMap Worker.regs) := by
  have hperm : ws.Perm (ws.filter p ++ ws.filter fun w => !p w) := (filter_append_perm p ws).symm
  rw [stills_perm (hperm.flatMap_right _), flatMap_append, stills_append, ← map_flatMap]
  exact foldUpdates_delete (fun _ _ => rfl) _

lemma Feed.sweep (h : Feed r) (horder : r.Visits order) : Feed (r.sweep now order) := by
  have hperm := Registry.visit_perm horder
  refine h.emit ?_
  rw [Registry.registered, ← stills_perm (hperm.flatMap_right _),
    ← stills_perm ((hperm.filter _).flatMap_right _)]
  exact foldUpdates_lost _ _

/-- Watchers that leave. -/
lemma Feed.stop (h : Feed r) (hps : ∀ p ∈ ps, p ∈ r.pumps ∨ p.attached = false) :
    Feed ({ r with pumps := ps } : Registry D) := by
  refine h.pumps fun p hp hattached => ⟨p, ?_, hattached, rfl⟩
  refine (hps p hp).resolve_right ?_
  rw [hattached]
  exact nofun

lemma Feed.close (h : Feed r) : Feed r.close := by
  refine h.stop fun p' hp' => ?_
  obtain ⟨p, -, rfl⟩ := mem_map.1 hp'
  exact .inr rfl

lemma Feed.unwatch (h : Feed r) (i : ℕ) : Feed (r.unwatch i) := by
  refine h.stop fun p' hp' => ?_
  obtain ⟨n, hn⟩ := mem_iff_getElem?.1 hp'
  rw [getElem?_modify] at hn
  obtain ⟨p, hp, hpp'⟩ := Option.map_eq_some_iff.1 hn
  split at hpp'
  · exact .inr (hpp' ▸ rfl)
  · exact .inl (hpp' ▸ mem_of_getElem? hp)

/-- Every step of workers, watchers and pumps keeps the feed. -/
lemma Feed.step {a : RegistryAction D} (h : Feed r)
    (hr' : r.step closed ttl a = some r') : Feed r' := by
  have hcall {x : Except Refusal (Registry D)} (hx : ∀ r₁, x = .ok r₁ → Feed r₁) :
      Feed (r.settleCall x) := by
    cases x with
    | ok r₁ => exact hx r₁ rfl
    | error e => exact h
  cases a with
  | registerProcesses cancelled now workerID regs =>
    cases hr'
    exact hcall fun _ => h.registerProcesses
  | heartbeat cancelled now workerID =>
    cases hr'
    exact hcall fun _ => h.heartbeat
  | unregister cancelled workerID =>
    cases hr'
    exact hcall fun _ => h.unregister
  | watch order =>
    obtain ⟨horder, hr'⟩ := Option.ite_none_right_eq_some.1 hr'
    cases hr'
    exact hcall fun _ => h.watch horder
  | unwatch i =>
    cases hr'
    exact h.unwatch i
  | pop i => exact h.pumpStep Pump.feed_pop hr'
  | deliver i => exact h.pumpStep Pump.feed_deliver hr'
  | quit i =>
    refine h.pumpStep (fun p p' hp' hattached => ?_) hr'
    obtain ⟨hp, hp'⟩ := Option.ite_none_right_eq_some.1 hp'
    cases hp'
    cases hp.1.symm.trans hattached

end Feed

/-! ## Whole runs -/

lemma Step.feed [DecidableEq D] {cfg : Config D} {w w' : World D}
    {a : Action D} (h : Step cfg w a w')
    (hw : Feed w.registry) : Feed w'.registry := by
  cases h with
  | registry a r hr => exact hw.step hr
  | sweep now order horder => exact hw.sweep horder
  | close _ => exact hw.close
  | _ => exact hw

/-- In every run, what a watcher was sent adds up to what is registered; it has all of it
when its queue is empty and its pump has nothing in hand. -/
theorem watcher_up_to_date [DecidableEq D] (cfg : Config D) (as : List (Action D)) (w : World D)
    (h : (machine cfg).exec .new as = some w) (p : Pump D) (hp : p ∈ w.registry.pumps)
    (hattached : p.attached = true) :
    foldUpdates 0 (p.received ++ p.hand.toList ++ p.queue) = w.registry.registered ∧
      (p.queue = [] → p.hand = none → foldUpdates 0 p.received = w.registry.registered) := by
  have hfeed : Feed w.registry :=
    Machine.exec_induction (I := fun w => Feed w.registry)
      (fun _ _ _ hw hstep => (Step.of_step hstep).feed hw)
      (fun _ hp => absurd hp not_mem_nil) h
  refine ⟨hfeed p hp hattached, fun hqueue hhand => ?_⟩
  have hall := hfeed p hp hattached
  rw [Pump.feed, hqueue, hhand] at hall
  simpa using hall

/-- A watcher joins, a worker registers, and the watcher receives both updates but the last. -/
def sampleWatch : List (Action Unit) :=
  [.registry (.watch []), .registry (.pop 0), .registry (.deliver 0),
    .registry (.registerProcesses false 0 "worker" [sampleReg]), .registry (.pop 0)]

/-- The watcher has received all there was to deliver. -/
theorem watcher_up_to_date_delivered :
    ∃ w p, (machine sampleConfig).exec .new (sampleWatch ++ [.registry (.deliver 0)]) = some w ∧
      p ∈ w.registry.pumps ∧ p.queue = [] ∧ p.hand = none ∧ foldUpdates 0 p.received =
        w.registry.registered := by
  obtain ⟨w, p, h, hmem, hattached, hqueue, hhand⟩ : ∃ w p,
      (machine sampleConfig).exec .new (sampleWatch ++ [.registry (.deliver 0)]) = some w ∧
      p ∈ w.registry.pumps ∧
      p.attached = true ∧ p.queue = [] ∧ p.hand = none :=
        ⟨_, _, rfl, mem_singleton_self _, rfl, rfl, rfl⟩
  exact ⟨w, p, h, hmem, hqueue, hhand,
    (watcher_up_to_date sampleConfig _ w h p hmem hattached).2 hqueue hhand⟩

/-- The queue is empty, but the pump still has the update in hand. -/
theorem watcher_behind : ∃ w p, (machine sampleConfig).exec .new sampleWatch = some w ∧
    p ∈ w.registry.pumps ∧
    p.attached = true ∧ p.queue = [] ∧ foldUpdates 0 p.received ≠ w.registry.registered :=
  ⟨_, _, rfl, mem_singleton_self _, rfl, rfl, by decide⟩

end Broker

end Blkit
