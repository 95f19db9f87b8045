import Blkit.Store.NatsFlips

/-!
# One handle, one call after the other

A session is a handle that is used sequentially, together with the records that have been
written through it, in order.  Its steps are single operations and metadata; a longer batch
is its operations one after the other, up to the first one that fails.  The server may
refuse any put.

Every session is a run of the world with a single handle, so what holds of the bucket in
every interleaving holds of it here.
-/

namespace Blkit

open List

namespace Nats

/-- How the server answers the put of a key. -/
abbrev Server := List Char → Except String Unit

/-- What is done through the handle, and how the server answers meanwhile. -/
inductive SeqStep where
  | save (server : Server) (m : RunMetadata)
  | write (server : Server) (op : WriteOp)

/-- The run a step is about. -/
def SeqStep.runID : SeqStep → String
  | .save _ m => m.runID
  | .write _ op => op.runID

/-- The flip a step asks for, and its run. -/
def SeqStep.flip? : SeqStep → Option (Server × String × StatusFlip)
  | .save _ _ => none
  | .write server op =>
    if op.Valid then
      match op.event? with
      | some (.flip f) => some (server, op.runID, f)
      | _ => none
    else none

/-- The handle, and the records written through it in the order they were written in. -/
structure Session where
  handle : Handle
  written : List Drawn

namespace Session

/-- A new handle on an empty bucket. -/
def new : Session := ⟨⟨.empty, 0⟩, []⟩

/-- The bucket. -/
def kv (s : Session) : KV := s.handle.kv

/-- The record an event brings. -/
def arrival (s : Session) (runID : String) : Event → List Drawn
  | .value w => [⟨0, s.handle.n + 1, runID, .value w⟩]
  | .history h => [⟨0, s.handle.n + 1, runID, .history h⟩]
  | .flip _ => []

/-- What a result leaves of the records. -/
def gained (ds : List Drawn) : Except String Unit → List Drawn
  | .error _ => []
  | .ok () => ds

section Steps

variable (marshal : List UInt8 → Except String Unit) (encode : RunMetadata → Except String Unit)

/-- What a step does; an operation that is written without an error has brought its record. -/
def step (s : Session) : SeqStep → Session
  | .save server m => { s with handle := (save server s.handle encode m).2 }
  | .write server op =>
    let (result, handle) := writeBatch marshal server s.handle [op]
    ⟨handle, s.written ++ gained (op.event?.elim [] (s.arrival op.runID)) result⟩

/-- What a history of steps does. -/
def run (s : Session) (sts : List SeqStep) : Session := sts.foldl (step marshal encode) s

end Steps

variable {marshal : List UInt8 → Except String Unit} {encode : RunMetadata → Except String Unit}

lemma run_concat (s : Session) (sts : List SeqStep) (st : SeqStep) :
    s.run marshal encode (sts ++ [st]) = (s.run marshal encode sts).step marshal encode st := by
  rw [run, foldl_append, foldl_cons, foldl_nil, run]

/-! ## Batches -/

variable {server : Server} {op : WriteOp}

lemma writeBatch_single {h : Handle} (hop : op.Valid) :
    writeBatch marshal server h [op] = applyOp marshal server h op := by
  have hvalid : [op].forM validateWriteOp = .ok () := forM_validateWriteOp.2 (by simpa using hop)
  rw [writeBatch, hvalid]
  show applyOps marshal server h [op] = _
  rw [applyOps]
  split
  · rename_i hres
    exact hres.symm
  · rename_i hres
    rw [applyOps, hres]

/-- Operations that are written one after the other, the handle being what the ones before
have made of it, and of which none fails. -/
def Writes (marshal : List UInt8 → Except String Unit) (encode : RunMetadata → Except String Unit)
    (server : Server) (s : Session) (ops : List WriteOp) : Prop :=
  ∀ ⦃before op after⦄, ops = before ++ op :: after →
    (writeBatch marshal server (s.run marshal encode (before.map (.write server))).handle [op]).1 =
      .ok ()

lemma Writes.nil (s : Session) : s.Writes marshal encode server [] := by
  intro before op after h
  simp at h

lemma Writes.cons {s : Session} {ops : List WriteOp}
    (hop : (writeBatch marshal server s.handle [op]).1 = .ok ())
    (hops : (s.step marshal encode (.write server op)).Writes marshal encode server ops) :
    s.Writes marshal encode server (op :: ops) := by
  intro before op' after h
  cases before with
  | nil =>
    cases h
    exact hop
  | cons _ before =>
    cases h
    exact hops rfl

/-- A batch that has passed the checks writes its operations one after the other, up to the
first one that fails. -/
lemma applyOps_eq_run (s : Session) {ops : List WriteOp} (hops : ∀ op ∈ ops, op.Valid) :
    (s.Writes marshal encode server ops ∧ applyOps marshal server s.handle ops =
      (.ok (), (s.run marshal encode (ops.map (.write server))).handle)) ∨
    ∃ before op after e, ops = before ++ op :: after ∧ s.Writes marshal encode server before ∧
      (writeBatch marshal server (s.run marshal encode (before.map (.write server))).handle
        [op]).1 = .error e ∧
      applyOps marshal server s.handle ops =
        (.error e, (s.run marshal encode ((before ++ [op]).map (.write server))).handle) := by
  induction ops generalizing s with
  | nil => exact .inl ⟨.nil s, rfl⟩
  | cons op ops ih =>
    obtain ⟨hop, hops⟩ := forall_mem_cons.1 hops
    have hstep : (s.step marshal encode (.write server op)).handle =
        (applyOp marshal server s.handle op).2 := by
      rw [step, writeBatch_single hop]
    rw [applyOps]
    split
    · rename_i e h' hres
      rw [hres] at hstep
      refine .inr ⟨[], op, ops, e, rfl, .nil s, ?_, ?_⟩
      · rw [map_nil, run, foldl_nil, writeBatch_single hop, hres]
      · rw [nil_append, map_singleton, run, foldl_cons, foldl_nil, hstep]
    · rename_i h' hres
      have hwrite : (writeBatch marshal server s.handle [op]).1 = .ok () := by
        rw [writeBatch_single hop, hres]
      have ih := ih (s.step marshal encode (.write server op)) hops
      rw [hstep, hres] at ih
      rcases ih with ⟨hwrites, hrun⟩ | ⟨before, bad, after, e, rfl, hwrites, hbad, hrun⟩
      · exact .inl ⟨hwrites.cons hwrite, hrun⟩
      · exact .inr ⟨op :: before, bad, after, e, rfl, hwrites.cons hwrite, hbad, hrun⟩

/-- A batch is refused by the checks and then changes nothing; or its operations are written
one after the other and none fails; or one of them fails, with the error of the batch, and
what it and the ones before it have done stays.  So every sequence of calls is a history of
steps. -/
theorem writeBatch_eq_run (s : Session) (ops : List WriteOp) :
    (∃ e, ops.forM validateWriteOp = .error e ∧
      writeBatch marshal server s.handle ops = (.error e, s.handle)) ∨
    (s.Writes marshal encode server ops ∧ writeBatch marshal server s.handle ops =
      (.ok (), (s.run marshal encode (ops.map (.write server))).handle)) ∨
    ∃ before op after e, ops = before ++ op :: after ∧ s.Writes marshal encode server before ∧
      (writeBatch marshal server (s.run marshal encode (before.map (.write server))).handle
        [op]).1 = .error e ∧
      writeBatch marshal server s.handle ops =
        (.error e, (s.run marshal encode ((before ++ [op]).map (.write server))).handle) := by
  rw [writeBatch]
  cases hvalid : ops.forM validateWriteOp with
  | error e => exact .inl ⟨e, rfl, rfl⟩
  | ok _ => exact .inr (applyOps_eq_run s (forM_validateWriteOp.1 hvalid))

/-! ## What a step can do -/

/-- A step is refused, or its put is after a number was drawn for it; or it saves, writes or
flips. -/
inductive Outcome (s : Session) : SeqStep → Session → Prop
  | refused {st : SeqStep} (hst : st.flip? = none) : Outcome s st s
  | lost {server : Server} {op : WriteOp} {a : Arrival} (hop : op.Valid)
    (ha : op.event? = some a.event) :
    Outcome s (.write server op) ⟨⟨s.kv, s.handle.n + 1⟩, s.written⟩
  | saved (server : Server) {m : RunMetadata} (hm : m.runID ≠ "") :
    Outcome s (.save server m)
      ⟨⟨s.kv.put (metaSuffix m.runID) (.metadata m), s.handle.n⟩, s.written⟩
  | wrote {server : Server} {op : WriteOp} {a : Arrival} (hop : op.Valid)
    (ha : op.event? = some a.event) {d : Drawn} (hd : d = ⟨0, s.handle.n + 1, op.runID, a⟩) :
    Outcome s (.write server op) ⟨⟨s.kv.put d.key a.record, s.handle.n + 1⟩, s.written ++ [d]⟩
  | flipped {server : Server} {op : WriteOp} {f : StatusFlip} (hop : op.Valid)
    (hf : op.event? = some (.flip f)) :
    Outcome s (.write server op)
      ⟨⟨(settleKeys server f s.kv (runKeys s.kv (stem .value op.runID))).2, s.handle.n⟩, s.written⟩

variable {s : Session} {result : Except String Unit} {handle : Handle}

lemma outcome_putEvent {a : Arrival} (hop : op.Valid) (ha : op.event? = some a.event)
    (h : putEvent server s.handle a.kind op.runID a.nanos a.record = (result, handle)) :
    s.Outcome (.write server op)
      ⟨handle, s.written ++ gained (s.arrival op.runID a.event) result⟩ := by
  have harrival : s.arrival op.runID a.event = [⟨0, s.handle.n + 1, op.runID, a⟩] := by
    cases a <;> rfl
  rw [putEvent] at h
  split at h
  · cases h
    rw [gained, append_nil]
    exact .lost hop ha
  · cases h
    rw [gained, harrival]
    exact @Outcome.wrote s server op a hop ha ⟨0, s.handle.n + 1, op.runID, a⟩ rfl

lemma Outcome.of_step (s : Session) (st : SeqStep) : s.Outcome st (s.step marshal encode st) := by
  have hfailed {st : SeqStep} (hst : st.flip? = none) {msg : String} {ds : List Drawn} :
      s.Outcome st ⟨s.handle, s.written ++ gained ds (.error msg)⟩ := by
    rw [gained, append_nil]
    exact .refused hst
  cases st with
  | save server m =>
    rw [step, save]
    split
    · exact .refused rfl
    · rename_i hm
      split
      · exact .refused rfl
      · split
        · exact .refused rfl
        · exact .saved server hm
  | write server op =>
    by_cases hop : op.Valid
    · obtain ⟨e, he, -⟩ := hop.event
      obtain ⟨⟨result, handle⟩, h⟩ : ∃ r, applyOp marshal server s.handle op = r := ⟨_, rfl⟩
      rw [step, writeBatch_single hop, h, he, Option.elim_some]
      dsimp only
      rw [applyOp, he] at h
      cases e with
      | value w =>
        change applyValueWrite marshal server s.handle op.runID w = _ at h
        rw [applyValueWrite] at h
        split at h
        · cases h
          exact hfailed (by rw [SeqStep.flip?, if_pos hop, he])
        · exact outcome_putEvent (a := .value w) hop he h
      | flip f =>
        change applyStatusFlip server s.handle op.runID f = _ at h
        rw [applyStatusFlip] at h
        cases h
        have hnone (r : Except String Unit) : gained (s.arrival op.runID (.flip f)) r = [] := by
          cases r <;> rfl
        rw [hnone, append_nil]
        exact .flipped hop he
      | history en =>
        change applyHistoryEntry marshal server s.handle op.runID en = _ at h
        rw [applyHistoryEntry] at h
        split at h
        · cases h
          exact hfailed (by rw [SeqStep.flip?, if_pos hop, he])
        · exact outcome_putEvent (a := .history en) hop he h
    · rw [step, writeBatch]
      cases hvalid : [op].forM validateWriteOp with
      | error e => exact hfailed (by rw [SeqStep.flip?, if_neg hop])
      | ok _ => exact absurd (forM_validateWriteOp.1 hvalid op (mem_singleton_self op)) hop

end Session

/-! ## Sessions are runs of the world -/

namespace World

variable {w w' w'' : World}

/-- Some sequence of actions takes the one world to the other. -/
def Leads (w w' : World) : Prop := ∃ as, w.exec as = some w'

lemma Leads.refl (w : World) : w.Leads w := ⟨[], rfl⟩

lemma Leads.trans (h : w.Leads w') (h' : w'.Leads w'') : w.Leads w'' := by
  obtain ⟨as, has⟩ := h
  obtain ⟨bs, hbs⟩ := h'
  refine ⟨as ++ bs, ?_⟩
  rw [exec_append, has]
  exact hbs

lemma leads_step {a : Action} (h : w.step a = some w') : w.Leads w' := by
  refine ⟨[a], ?_⟩
  rw [exec, h]
  rfl

variable {i h : Nat}

lemma leads_move {ph : Phase} (hi : w.calls[i]? = some (h, ph))
    (hw : w.advance i h ph = some w') : w.Leads w' := by
  refine leads_step (a := .move i) ?_
  rw [step, hi]
  exact hw

lemma getElem?_set_same {α : Type} {l : List α} {a b : α} (h : l[i]? = some a) :
    (l.set i b)[i]? = some b := by
  rw [List.getElem?_set_self (List.getElem?_eq_some_iff.1 h).1]

/-- A call that flips gets to the end of its keys, or to the put that the server refuses. -/
lemma leads_settleKeys (server : Server) {runID : String} {f : StatusFlip}
    {ks : List (List Char)} {ops : List WriteOp}
    (hi : w.calls[i]? = some (h, .flipping runID f ks ops)) :
    ∃ w', w.Leads w' ∧ w'.kv = (settleKeys server f w.kv ks).2 ∧ w'.drawn = w.drawn ∧
      w'.accepted = w.accepted := by
  induction ks generalizing w with
  | nil => exact ⟨w, .refl w, rfl, rfl, rfl⟩
  | cons k ks ih =>
    rw [settleKeys]
    split
    · exact ⟨w, .refl w, rfl, rfl, rfl⟩
    · rename_i e hget
      split
      · rename_i hr
        have hskip : w.Leads (w.moveTo i h (.flipping runID f ks ops)) :=
          leads_move hi (by simp only [advance, hget, hr])
        obtain ⟨w', hlead, hrest⟩ :=
          ih (w := w.moveTo i h (.flipping runID f ks ops)) (getElem?_set_same hi)
        exact ⟨w', hskip.trans hlead, hrest⟩
      · rename_i r hr
        split
        · exact ⟨w, .refl w, rfl, rfl, rfl⟩
        · have htake : w.Leads (w.moveTo i h (.settling runID f k r ks ops)) :=
            leads_move hi (by simp only [advance, hget, hr])
          let w₂ : World := { (w.moveTo i h (.settling runID f k r ks ops)).moveTo i h
            (.flipping runID f ks ops) with kv := w.kv.put k r }
          have hput : (w.moveTo i h (.settling runID f k r ks ops)).Leads w₂ :=
            leads_move (getElem?_set_same hi) rfl
          obtain ⟨w', hlead, hrest⟩ := ih (w := w₂) (getElem?_set_same (getElem?_set_same hi))
          exact ⟨w', (htake.trans hput).trans hlead, hrest⟩

end World

/-- The world shows the bucket, the numbers and the records of the session. -/
structure Mirrors (w : World) (s : Session) : Prop where
  kv : w.kv = s.kv
  drawn : w.drawn 0 = s.handle.n
  drawn_le : ∀ h, w.drawn h ≤ s.handle.n
  accepted : w.accepted = s.written
  handle : ∀ d ∈ s.written, d.handle = 0

namespace Mirrors

open World

variable {w : World} {s : Session} {op : WriteOp}

/-- A call with one operation begins. -/
lemma leads_begin (w : World) (hop : op.Valid) :
    w.Leads { w with calls := w.calls ++ [(0, .ready [op])] } := by
  refine leads_step (a := .writeBatch 0 [op]) ?_
  rw [World.step, if_pos (by simpa using hop)]

section Arrivals

variable {op : WriteOp} {a : Arrival}

/-- The world after a number was drawn for the only operation of a new call. -/
def drawFor (w : World) (op : WriteOp) (a : Arrival) : World :=
  World.draw { w with calls := w.calls ++ [(0, .ready [op])] } w.calls.length 0 op.runID a []

lemma leads_draw (w : World) (hop : op.Valid) (ha : op.event? = some a.event) :
    w.Leads (drawFor w op a) := by
  refine (leads_begin w hop).trans (leads_move getElem?_concat_length ?_)
  rw [advance, ha]
  cases a <;> rfl

lemma drawn_drawFor (h : Mirrors w s) (op : WriteOp) (a : Arrival) :
    (drawFor w op a).drawn 0 = s.handle.n + 1 ∧ ∀ n, (drawFor w op a).drawn n ≤ s.handle.n + 1 := by
  have hdrawn : (drawFor w op a).drawn = Function.update w.drawn 0 (w.drawn 0 + 1) := rfl
  rw [hdrawn]
  refine ⟨by rw [Function.update_self, h.drawn], fun n => ?_⟩
  rw [Function.update_apply]
  split
  · exact (congrArg (· + 1) h.drawn).le
  · exact (h.drawn_le n).trans (Nat.le_succ _)

lemma lost (h : Mirrors w s) (hop : op.Valid) (ha : op.event? = some a.event) :
    ∃ w', w.Leads w' ∧ Mirrors w' ⟨⟨s.kv, s.handle.n + 1⟩, s.written⟩ :=
  by
  obtain ⟨hdrawn, hle⟩ := h.drawn_drawFor op a
  exact ⟨_, leads_draw w hop ha, h.kv, hdrawn, hle, h.accepted, h.handle⟩

lemma wrote (h : Mirrors w s) (hop : op.Valid) (ha : op.event? = some a.event) {d : Drawn}
    (hd : d = ⟨0, s.handle.n + 1, op.runID, a⟩) :
    ∃ w', w.Leads w' ∧
      Mirrors w' ⟨⟨s.kv.put d.key a.record, s.handle.n + 1⟩, s.written ++ [d]⟩ := by
  rw [← h.drawn] at hd
  let w₂ : World := { (drawFor w op a).moveTo w.calls.length 0 (.ready []) with
    kv := w.kv.put d.key a.record, accepted := w.accepted ++ [d] }
  have hstore : (drawFor w op a).Leads w₂ := by
    subst hd
    exact leads_move (getElem?_set_same getElem?_concat_length) rfl
  obtain ⟨hdrawn, hle⟩ := h.drawn_drawFor op a
  refine ⟨w₂, (leads_draw w hop ha).trans hstore, ?_, hdrawn, hle, ?_, ?_⟩
  · show w.kv.put d.key a.record = s.kv.put d.key a.record
    rw [h.kv]
  · show w.accepted ++ [d] = s.written ++ [d]
    rw [h.accepted]
  · rw [forall_mem_concat]
    exact ⟨h.handle, by rw [hd]⟩

end Arrivals

lemma saved (h : Mirrors w s) (m : RunMetadata) (hm : m.runID ≠ "") : ∃ w', w.Leads w' ∧
      Mirrors w' ⟨⟨s.kv.put (metaSuffix m.runID) (.metadata m), s.handle.n⟩, s.written⟩ := by
  refine ⟨{ w with kv := w.kv.put (metaSuffix m.runID) (.metadata m) },
    leads_step (a := .save m) ?_,
    ?_, h.drawn, h.drawn_le, h.accepted, h.handle⟩
  · rw [World.step, if_neg hm]
  · show w.kv.put _ _ = s.kv.put _ _
    rw [h.kv]

lemma flipped (h : Mirrors w s) {server : Server} {f : StatusFlip} (hop : op.Valid)
    (hf : op.event? = some (.flip f)) :
    ∃ w', w.Leads w' ∧ Mirrors w'
      ⟨⟨(settleKeys server f s.kv (runKeys s.kv (stem .value op.runID))).2, s.handle.n⟩,
      s.written⟩ := by
  let w₁ : World := { w with calls := w.calls ++ [(0, .ready [op])] }
  have hi : w₁.calls[w.calls.length]? = some (0, .ready [op]) := getElem?_concat_length
  let w₂ : World := w₁.moveTo w.calls.length 0
    (.flipping op.runID f (runKeys w.kv (stem .value op.runID)) [])
  have hlist : w₁.Leads w₂ := by
    refine leads_move hi ?_
    rw [advance, hf]
  obtain ⟨w', hlead, hkv, hdrawn, hacc⟩ := leads_settleKeys (w := w₂) server (getElem?_set_same hi)
  refine ⟨w', ((leads_begin w hop).trans hlist).trans hlead, ?_, ?_, ?_, ?_, h.handle⟩
  · rw [hkv, ← h.kv]
    rfl
  · rw [hdrawn]
    exact h.drawn
  · rw [hdrawn]
    exact h.drawn_le
  · rw [hacc]
    exact h.accepted

lemma outcome (h : Mirrors w s) {st : SeqStep} {s' : Session} (hs : s.Outcome st s') :
    ∃ w', w.Leads w' ∧ Mirrors w' s' := by
  cases hs with
  | refused hst => exact ⟨w, .refl w, h⟩
  | lost hop ha => exact h.lost hop ha
  | saved server hm => exact h.saved _ hm
  | wrote hop ha hd => exact h.wrote hop ha hd
  | flipped hop hf => exact h.flipped hop hf

end Mirrors

/-- Every session is a run of the world. -/
lemma mirrors_run {marshal : List UInt8 → Except String Unit}
    {encode : RunMetadata → Except String Unit}
    (sts : List SeqStep) :
    ∃ as w, World.new.exec as = some w ∧ Mirrors w (Session.new.run marshal encode sts) := by
  induction sts using reverseRecOn with
  | nil =>
    refine ⟨[], World.new, rfl, rfl, rfl, fun _ => le_rfl, rfl, fun d hd => ?_⟩
    cases hd
  | append_singleton sts st ih =>
    obtain ⟨as, w, has, h⟩ := ih
    rw [Session.run_concat]
    obtain ⟨w', ⟨bs, hbs⟩, h'⟩ := h.outcome (.of_step _ st)
    refine ⟨as ++ bs, w', ?_, h'⟩
    rw [World.exec_append, has]
    exact hbs

end Nats

end Blkit
