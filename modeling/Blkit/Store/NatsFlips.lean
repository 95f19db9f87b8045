import Blkit.Store.NatsArrivals

/-!
# Status flips side by side

A flip gets a record and puts it back later, whatever has happened to it in between.  Two
flips of one task with different outcomes that are under way at the same time can
therefore settle a record twice.  When no two such flips overlap and no record is put under
a key in use, a record that is settled stays as it is, in every interleaving.
-/

namespace Blkit

open List

namespace Nats

/-- The value record under a key. -/
def valueAt (kv : KV) (k : List Char) : Option ValueRec :=
  (kv.get k).bind fun e =>
    match e.value with
    | .value v => some v
    | _ => none

/-- The status of the value record under a key. -/
def statusAt (kv : KV) (k : List Char) : Option String := (valueAt kv k).map fun v => v.status

lemma valueAt_put_of_ne {kv : KV} {k k' : List Char} (h : k ≠ k') (r : Record) :
    valueAt (kv.put k r) k' = valueAt kv k' := by
  rw [valueAt, Bucket.get_put_of_ne h, valueAt]

lemma valueAt_put_self (kv : KV) (k : List Char) (v : ValueRec) :
    valueAt (kv.put k (.value v)) k = some v := by
  rw [valueAt, Bucket.get_put_self]
  rfl

/-- The run and the flip a call is working on. -/
def Phase.flip : Phase → Option (String × StatusFlip)
  | .flipping runID f _ _ | .settling runID f _ _ _ _ => some (runID, f)
  | _ => none

/-- Two flips of one task with different outcomes that may list the same keys. -/
def Conflict (p q : String × StatusFlip) : Prop :=
  p.2.taskID = q.2.taskID ∧ p.2.newStatus ≠ q.2.newStatus ∧
    (stem .value p.1 <+: stem .value q.1 ∨ stem .value q.1 <+: stem .value p.1)

lemma Conflict.symm {p q : String × StatusFlip} (h : Conflict p q) : Conflict q p :=
  ⟨h.1.symm, Ne.symm h.2.1, h.2.2.symm⟩

instance : DecidableRel Conflict := fun p q =>
  inferInstanceAs (Decidable (p.2.taskID = q.2.taskID ∧ p.2.newStatus ≠ q.2.newStatus ∧
    (stem .value p.1 <+: stem .value q.1 ∨ stem .value q.1 <+: stem .value p.1)))

/-- The keys a flip still has to look at are keys of its run; the record it is about to put
back is settled its way, and the one in the bucket is pending or settled the same way. -/
def Phase.Poised (kv : KV) : Phase → Prop
  | .flipping runID _ ks _ => ∀ k ∈ ks, stem .value runID <+: k
  | .settling runID f k r ks _ =>
    (∀ k' ∈ k :: ks, stem .value runID <+: k') ∧
    (∃ v, r = .value v ∧ v.taskID = f.taskID ∧ v.status = f.newStatus.string) ∧
    ∃ v, valueAt kv k = some v ∧ v.taskID = f.taskID ∧
      (v.status = ValueStatus.pending.string ∨ v.status = f.newStatus.string)
  | _ => True

lemma Phase.Poised.mono {kv kv' : KV} {ph : Phase} (h : ph.Poised kv)
    (hkv : ∀ k v, valueAt kv k = some v → valueAt kv' k = some v) : ph.Poised kv' := by
  cases ph with
  | settling runID f k r ks ops =>
    obtain ⟨hstem, hr, v, hv, hrest⟩ := h
    exact ⟨hstem, hr, v, hkv k v hv, hrest⟩
  | flipping runID f ks ops => exact h
  | ready _ | storing _ _ | returned => trivial

namespace World

variable {w w' : World}

/-- No two flips under way conflict. -/
def Calm (w : World) : Prop :=
  w.calls.Pairwise fun c c' => ∀ p ∈ c.2.flip, ∀ q ∈ c'.2.flip, ¬ Conflict p q

instance : Decidable w.Calm :=
  inferInstanceAs
    (Decidable (w.calls.Pairwise fun c c' => ∀ p ∈ c.2.flip, ∀ q ∈ c'.2.flip, ¬ Conflict p q))

variable {i j : Nat}

/-- Two calls that have conflicting flips under way are the same. -/
lemma Calm.not_conflict (hc : w.Calm) (hij : i ≠ j) {c c' : Nat × Phase}
    (hi : w.calls[i]? = some c) (hj : w.calls[j]? = some c') {p q : String × StatusFlip}
    (hp : c.2.flip = some p) (hq : c'.2.flip = some q) : ¬ Conflict p q := by
  obtain ⟨hi', rfl⟩ := List.getElem?_eq_some_iff.1 hi
  obtain ⟨hj', rfl⟩ := List.getElem?_eq_some_iff.1 hj
  have hcalls := pairwise_iff_getElem.1 hc
  rcases Nat.lt_or_gt_of_ne hij with hlt | hlt
  · exact hcalls i j hi' hj' hlt p hp q hq
  · exact fun h => hcalls j i hj' hi' hlt q hq p hp h.symm

/-- Every flip is poised. -/
def Poised (w : World) : Prop :=
  ∀ (i : Nat) (c : Nat × Phase), w.calls[i]? = some c → c.2.Poised w.kv

lemma Quiet.poised {kv : KV} {ph ph' : Phase} (hq : Quiet kv ph ph') {acc : List Drawn}
    (hsound : ph.Sound acc) (h : ph.Poised kv) : ph'.Poised kv := by
  cases hq with
  | fail | next _ _ | finish _ _ _ => trivial
  | list he ops => exact fun k hk => isPrefixOf_iff_prefix.1 (mem_filter.1 hk).2
  | skip runID f k ks ops => exact (forall_mem_cons.1 h).2
  | @take f k e r hget hr runID ks ops =>
    obtain ⟨v, hv, htask, hstatus, rfl⟩ := flipped_eq_some hsound.1.1 hr
    refine ⟨h, ⟨_, rfl, htask, rfl⟩, v, ?_, htask, .inl hstatus⟩
    rw [valueAt, hget, Option.bind_some, hv]

/-- The calls after call `i` has moved. -/
lemma getElem?_set_cases {α : Type} {l : List α} {a c : α} (h : (l.set i a)[j]? = some c) :
    c = a ∨ (j ≠ i ∧ l[j]? = some c) := by
  rw [getElem?_set] at h
  split at h
  · split at h
    · exact .inl (Option.some.inj h).symm
    · cases h
  · rename_i hij
    exact .inr ⟨Ne.symm hij, h⟩

variable {k : List Char} {v : ValueRec}

/-- A value record is an accepted one, under the key of its arrival. -/
lemma Sound.of_valueAt (hs : w.Sound) (hv : valueAt w.kv k = some v) :
    ∃ d ∈ w.accepted, d.key = k := by
  obtain ⟨e, he, hev⟩ := Option.bind_eq_some_iff.1 hv
  rcases hs.backed k e he with ⟨m, hm, -⟩ | ⟨d, hd, hdk, -⟩
  · rw [hm] at hev
    cases hev
  · exact ⟨d, hd, hdk.trans (Bucket.get_eq_some_iff.1 he).2⟩

/-- Metadata that is saved changes no value record. -/
lemma Sound.valueAt_save (hs : w.Sound) (hv : valueAt w.kv k = some v)
    (runID : String) (r : Record) : valueAt (w.kv.put (metaSuffix runID) r) k = some v := by
  obtain ⟨d, -, rfl⟩ := hs.of_valueAt hv
  exact (valueAt_put_of_ne metaSuffix_ne_eventKey r).trans hv

/-- A record that is put under a key of its own changes no other. -/
lemma Sound.valueAt_store (hs : w.Sound) {d : Drawn}
    (hkeys : ((w.accepted ++ [d]).map Drawn.key).Nodup)
    (hv : valueAt w.kv k = some v) (r : Record) :
    valueAt (w.kv.put d.key r) k = some v := by
  obtain ⟨d', hd', rfl⟩ := hs.of_valueAt hv
  rw [map_append, nodup_append] at hkeys
  have hne := hkeys.2.2 d'.key (mem_map_of_mem hd') d.key (mem_singleton_self _)
  rw [valueAt_put_of_ne hne.symm, hv]

/-- Two calls that are about to put back the same record settle it the same way. -/
lemma Calm.same_outcome (hc : w.Calm) (hp : w.Poised) {h h' : Nat} (hij : i ≠ j)
    {runID runID' : String} {f f' : StatusFlip} {r r' : Record}
    {ks ks' : List (List Char)} {ops ops' : List WriteOp}
    (hi : w.calls[i]? = some (h, .settling runID f k r ks ops))
    (hj : w.calls[j]? = some (h', .settling runID' f' k r' ks' ops')) :
    f.taskID = f'.taskID ∧ f.newStatus = f'.newStatus := by
  obtain ⟨hstem, -, v, hv, htask, -⟩ := hp i _ hi
  obtain ⟨hstem', -, v', hv', htask', -⟩ := hp j _ hj
  obtain rfl : v = v' := Option.some.inj (hv.symm.trans hv')
  have htasks := htask.symm.trans htask'
  refine ⟨htasks, by_contra fun hne => hc.not_conflict hij hi hj rfl rfl ⟨htasks, hne, ?_⟩⟩
  exact prefix_or_prefix_of_prefix (hstem k mem_cons_self) (hstem' k mem_cons_self)

lemma Poised.step (hp : w.Poised) (hs : w.Sound) (hc : w.Calm) (hw : Step w w')
    (hkeys : (w'.accepted.map Drawn.key).Nodup) : w'.Poised := by
  have hcall {i n : Nat} {ph : Phase} (hi : w.calls[i]? = some (n, ph)) : ph.Sound w.accepted :=
    hs.calls _ (mem_of_getElem? hi)
  cases hw with
  | refuse => exact hp
  | begin n hops =>
    intro i c hi
    rw [getElem?_append] at hi
    split at hi
    · exact hp i c hi
    · rw [mem_singleton.1 (mem_of_getElem? hi)]
      trivial
  | save m => exact fun i c hi => (hp i c hi).mono fun k v hv => hs.valueAt_save hv _ _
  | quiet hi hph =>
    intro j c hj
    rcases getElem?_set_cases hj with rfl | ⟨-, hj⟩
    · exact hph.poised (hcall hi) (hp _ _ hi)
    · exact hp j c hj
  | draw hi ha =>
    intro j c hj
    rcases getElem?_set_cases hj with rfl | ⟨-, hj⟩
    · trivial
    · exact hp j c hj
  | store hi =>
    intro j c hj
    rcases getElem?_set_cases hj with rfl | ⟨-, hj⟩
    · trivial
    · exact (hp j c hj).mono fun k v hv => hs.valueAt_store hkeys hv _
  | @settle i n runID f k r ks ops hi =>
    intro j c hj
    obtain ⟨hstem, ⟨v, rfl, htask, hstatus⟩, -⟩ := hp i _ hi
    rcases getElem?_set_cases hj with rfl | ⟨hji, hj⟩
    · exact (forall_mem_cons.1 hstem).2
    · obtain ⟨n', ph⟩ := c
      cases ph with
      | settling runID' f' k' r' ks' ops' =>
        obtain ⟨hstem', hr', v', hv', hrest⟩ := hp j _ hj
        refine ⟨hstem', hr', ?_⟩
        by_cases hk : k = k'
        · -- the other call is about to put back the record that was settled now
          subst hk
          obtain ⟨htasks, houtcome⟩ := hc.same_outcome hp hji.symm hi hj
          exact ⟨v, valueAt_put_self _ _ _, htask.trans htasks,
            .inr (hstatus.trans (houtcome ▸ rfl))⟩
        · exact ⟨v', (valueAt_put_of_ne hk _).trans hv', hrest⟩
      | flipping runID' f' ks' ops' => exact hp j _ hj
      | ready _ | storing _ _ | returned => trivial

/-- A settled record keeps its status in every step. -/
lemma statusAt_step (hp : w.Poised) (hs : w.Sound) (hw : Step w w')
    (hkeys : (w'.accepted.map Drawn.key).Nodup) {st : ValueStatus}
    (hst : st = .committed ∨ st = .aborted)
    (hk : statusAt w.kv k = some st.string) : statusAt w'.kv k = some st.string := by
  obtain ⟨v, hv, hvst⟩ := Option.map_eq_some_iff.1 hk
  have hkeep {kv' : KV} (h : valueAt kv' k = some v) : statusAt kv' k = some st.string := by
    rw [statusAt, h, Option.map_some, hvst]
  cases hw with
  | refuse | begin _ _ | quiet _ _ | draw _ _ => exact hk
  | save m => exact hkeep (hs.valueAt_save hv _ _)
  | store hi => exact hkeep (hs.valueAt_store hkeys hv _)
  | @settle i n runID f k' r ks ops hi =>
    by_cases hkk : k' = k
    · subst hkk
      obtain ⟨-, ⟨v', rfl, -, hstatus⟩, u, hu, -, hpending | hsame⟩ := hp i _ hi
      · -- a settled record is not pending
        obtain rfl : v = u := Option.some.inj (hv.symm.trans hu)
        rw [hpending] at hvst
        rcases hst with rfl | rfl <;> exact absurd hvst (by decide)
      · obtain rfl : v = u := Option.some.inj (hv.symm.trans hu)
        rw [statusAt, valueAt_put_self, Option.map_some, hstatus, ← hsame, hvst]
    · exact hkeep ((valueAt_put_of_ne hkk _).trans hv)

/-- Every world on the way is calm. -/
def CalmRun (w : World) (as : List Action) : Prop :=
  ∀ bs, bs <+: as → ∀ w', w.exec bs = some w' → w'.Calm

variable {as : List Action}

lemma CalmRun.calm (h : w.CalmRun as) : w.Calm := h [] nil_prefix w rfl

lemma CalmRun.cons {a : Action} (h : w.CalmRun (a :: as)) {w₁ : World}
    (hw : w.step a = some w₁) : w₁.CalmRun as := by
  intro bs hbs w' hw'
  refine h (a :: bs) (cons_prefix_cons.2 ⟨rfl, hbs⟩) w' ?_
  rw [exec, hw]
  exact hw'

lemma CalmRun.append {bs : List Action} (h : w.CalmRun (as ++ bs)) :
    w.CalmRun as ∧ ∀ w₁, w.exec as = some w₁ → w₁.CalmRun bs := by
  constructor
  · exact fun cs hcs => h cs (hcs.trans (prefix_append as bs))
  · intro w₁ hw₁ cs hcs w' hw'
    refine h (as ++ cs) ((prefix_append_right_inj as).2 hcs) w' ?_
    rw [exec_append, hw₁]
    exact hw'

lemma accepted_isPrefix (h : w.exec as = some w') : w.accepted <+: w'.accepted := by
  refine exec_induction (P := fun w₁ => w.accepted <+: w₁.accepted) ?_ prefix_rfl h
  intro w₁ w₂ hacc hw
  cases hw with
  | store hi => exact hacc.trans (prefix_append _ _)
  | refuse | begin _ _ | save _ | quiet _ _ | draw _ _ | settle _ => exact hacc

/-- What every step from a calm world keeps while keys are distinct, every calm run keeps. -/
lemma CalmRun.induction {P : World → Prop}
    (hstep : ∀ w w', w.Calm → (w'.accepted.map Drawn.key).Nodup → P w → Step w w' → P w')
    (hcalm : w.CalmRun as) (hkeys : (w'.accepted.map Drawn.key).Nodup) (hw : P w)
    (h : w.exec as = some w') : P w' := by
  induction as generalizing w with
  | nil =>
    cases h
    exact hw
  | cons a as ih =>
    obtain ⟨w₁, h₁, h⟩ := Option.bind_eq_some_iff.1 h
    have hkeys₁ := hkeys.sublist ((accepted_isPrefix h).sublist.map Drawn.key)
    exact ih (hcalm.cons h₁) (hstep w w₁ hcalm.calm hkeys₁ hw (.of_step h₁)) h

/-- Flips are poised, and the bucket holds the accepted records. -/
def Steady (w : World) : Prop := w.Poised ∧ w.Sound

lemma steady_new : new.Steady := by
  refine ⟨fun i c hi => ?_, sound_new⟩
  cases hi

lemma Steady.step (h : w.Steady) (hc : w.Calm) (hkeys : (w'.accepted.map Drawn.key).Nodup)
    (hw : Step w w') : w'.Steady := ⟨h.1.step h.2 hc hw hkeys, h.2.step hw⟩

/-- When no two conflicting flips are under way at the same time and no two handles put
entries under one key, a record that is committed or aborted keeps its status, in every
interleaving. -/
theorem nats_settled_stays {as bs : List Action} (h : new.exec as = some w)
    (h' : w.exec bs = some w') (hfit : ∀ h, w'.drawn h < 2 ^ 64) (hclash : NoClash w'.accepted)
    (hcalm : new.CalmRun (as ++ bs)) {k : List Char} {st : ValueStatus}
    (hst : st = .committed ∨ st = .aborted) (hk : statusAt w.kv k = some st.string) :
    statusAt w'.kv k = some st.string := by
  obtain ⟨has, hbs⟩ := hcalm.append
  have hall : new.exec (as ++ bs) = some w' := by
    rw [exec_append, h]
    exact h'
  have hkeys' := (nodup_keys_iff (numbers_exec hall) hfit).2 hclash
  have hkeys := hkeys'.sublist ((accepted_isPrefix h').sublist.map Drawn.key)
  have hsteady : w.Steady :=
    has.induction (fun _ _ hc hkeys hw hstep => hw.step hc hkeys hstep) hkeys steady_new h
  have hend : w'.Steady ∧ statusAt w'.kv k = some st.string :=
    (hbs w h).induction (P := fun w => w.Steady ∧ statusAt w.kv k = some st.string)
      (fun w w' hc hkeys hw hstep =>
        ⟨hw.1.step hc hkeys hstep, statusAt_step hw.1.1 hw.1.2 hstep hkeys hst hw.2⟩)
      hkeys' ⟨hsteady, hk⟩ h'
  exact hend.2

/-- The flip that settles what task `t` of run `a` has written. -/
def flipOf (st : ValueStatus) : WriteOp :=
  { commitOp "a" "t" with statusFlip := some ⟨"t", st, ⟨1, 0⟩⟩ }

/-- A value is written; one call is to commit it and one to abort it, and both have read the
record before the first one puts it back. -/
def readTwice : List Action :=
  [.writeBatch 0 [writeAt 1 "1"], .move 0, .move 0,
    .writeBatch 0 [flipOf .committed], .writeBatch 0 [flipOf .aborted],
    .move 1, .move 1, .move 2, .move 2, .move 1]

/-- The committed value is aborted. -/
theorem nats_committed_aborted : ∃ w w', new.exec readTwice = some w ∧ w.exec [.move 2] = some w' ∧
      statusAt w.kv firstDrawn.key = some ValueStatus.committed.string ∧
      statusAt w'.kv firstDrawn.key = some ValueStatus.aborted.string :=
  ⟨_, _, rfl, rfl, rfl, rfl⟩

/-- A value is written and committed. -/
def flippedOnce : List Action :=
  [.writeBatch 0 [writeAt 1 "1", flipOf .committed], .writeBatch 1 [flipOf .aborted],
    .move 0, .move 0, .move 0, .move 0, .move 0, .move 0]

lemma calmRun_of_inits (h : ∀ bs ∈ as.inits, ∀ w' ∈ w.exec bs, w'.Calm) : w.CalmRun as :=
  fun bs hbs w' hw' => h bs (mem_inits bs as |>.2 hbs) w' hw'

/-- A call that lists the keys later leaves the committed value alone. -/
theorem nats_settled_stays_later :
    ∃ w w', new.exec flippedOnce = some w ∧ w.exec [.move 1, .move 1, .move 1] = some w' ∧
      statusAt w'.kv firstDrawn.key = some ValueStatus.committed.string := by
  obtain ⟨w, w', h, h', hk, haccepted, hdrawn⟩ : ∃ w w', new.exec flippedOnce = some w ∧
      w.exec [.move 1, .move 1, .move 1] = some w' ∧ statusAt w.kv firstDrawn.key =
        some ValueStatus.committed.string ∧
      w'.accepted = [firstDrawn] ∧ w'.drawn = Function.update (fun _ => 0) 0 1 :=
        ⟨_, _, rfl, rfl, rfl, rfl, rfl⟩
  refine ⟨w, w', h, h', nats_settled_stays h h' (fun n => ?_) ?_
    (calmRun_of_inits ?_) (.inl rfl) hk⟩
  · rw [hdrawn, Function.update_apply]
    split <;> decide
  · rw [haccepted]
    exact pairwise_singleton _ _
  · decide +kernel

end World

end Nats

end Blkit
