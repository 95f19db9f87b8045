import Blkit.Redis.Instances
import Blkit.Redis.Roles

/-!
# The order of lifecycle events

On the stream of an instance the event that it is pending should come first, and none should
come after one that it has ended.  The job of `Submit` is on the stream of jobs before that
event is on the stream of the instance, so a worker can be faster; and a report that the
instance runs does not look whether it has finished.

The order is as it should be when calls are made in order (`lifecycle_in_order`): an instance
is reported on, or cancelled, when `Submit` has returned it and it is still known, it is
reported running or suspended when it has not finished, it is marked finished while no such
report is under way, and its metadata does not expire while reports are.  When besides its
stream does not expire, and does not grow so long after the end that the end is trimmed off,
every subscriber is told that it has ended.
-/

namespace Blkit

namespace Redis

open Broker Prog List Function Option

/-! ## Lifecycle events, the flag and the roles -/

/-- What holds of the phases so far, of the flag (if there is metadata), and of the roles of
all calls. -/
structure Core (L : List ProcessStatus) (flag : Option Bool) (ρ : ℕ → Role) : Prop where
  starts : ∀ i, ρ i = .starts → L = [] ∧ ∀ j, j ≠ i → ρ j = .quiet
  begun : ∀ i, ρ i ≠ .quiet → ρ i ≠ .starts → L ≠ []
  first : ∀ ph, L.head? = some ph → ph = .pending
  last : ∀ ph ∈ L.dropLast, ph.Terminal = false
  live : flag = some false → (∀ ph ∈ L, ph.Terminal = false) ∧ ∀ i, ρ i ≠ .armed
  mild : ∀ i, ρ i = .mild → flag = some false
  ends : ∀ i, ρ i = .ends ∨ ρ i = .armed → flag ≠ none
  armed : ∀ i, ρ i = .armed → ∀ ph ∈ L, ph.Terminal = false
  single : ∀ i j, ρ i = .armed → ρ j = .armed → i = j

namespace Core

variable {L : List ProcessStatus} {flag : Option Bool} {ρ : ℕ → Role} {i j : ℕ}
  {q q' : Role} {ph : ProcessStatus}

/-- A role that is not the new one is an old one. -/
lemma of_update (h : update ρ i q' j = q) (hq : q ≠ q') : j ≠ i ∧ ρ j = q := by
  by_cases hj : j = i
  · subst hj
    rw [update_self] at h
    exact absurd h.symm hq
  · rw [update_of_ne hj] at h
    exact ⟨hj, h⟩

/-- A call has nothing more to do with the lifecycle. -/
lemma quiet (h : Core L flag ρ) : Core L flag (update ρ i .quiet) where
  starts j hj := by
    obtain ⟨hji, hj⟩ := of_update hj nofun
    refine ⟨(h.starts j hj).1, fun k hk => ?_⟩
    by_cases hki : k = i
    · subst hki
      exact update_self ..
    · rw [update_of_ne hki]
      exact (h.starts j hj).2 k hk
  begun j hj hne := by
    have hji := (of_update rfl hj).2
    exact h.begun j (fun heq => hj (hji.symm.trans heq)) fun heq => hne (hji.symm.trans heq)
  first := h.first
  last := h.last
  live hf := ⟨(h.live hf).1, fun j hj => (h.live hf).2 j (of_update hj nofun).2⟩
  mild j hj := h.mild j (of_update hj nofun).2
  ends j hj := hj.elim (fun hj => h.ends j (.inl (of_update hj nofun).2)) fun hj =>
    h.ends j (.inr (of_update hj nofun).2)
  armed j hj := h.armed j (of_update hj nofun).2
  single j k hj hk := h.single j k (of_update hj nofun).2 (of_update hk nofun).2

/-- While one call submits the instance there is no other role. -/
lemma not_starts (h : Core L flag ρ) (hL : L ≠ []) : ρ i ≠ .starts := fun hi => hL (h.starts i hi).1

/-- A call that reports, or ends, an instance whose first event is there. -/
lemma call (h : Core L flag ρ) (hL : L ≠ []) (hq : q = .mild ∧ flag = some false ∨
    q = .ends ∧ flag ≠ none) :
    Core L flag (update ρ i q) := by
  have hne : q ≠ .quiet ∧ q ≠ .starts ∧ q ≠ .armed := by
    rcases hq with ⟨rfl, -⟩ | ⟨rfl, -⟩ <;> exact ⟨nofun, nofun, nofun⟩
  refine ⟨fun j hj => absurd (of_update hj hne.2.1.symm).2 (h.not_starts hL),
    fun j _ _ => hL, h.first, h.last,
    fun hf => ⟨(h.live hf).1, fun j hj => (h.live hf).2 j (of_update hj hne.2.2.symm).2⟩,
    fun j hj => ?_, fun j hj => ?_,
    fun j hj => h.armed j (of_update hj hne.2.2.symm).2,
    fun j k hj hk => h.single j k (of_update hj hne.2.2.symm).2 (of_update hk hne.2.2.symm).2⟩
  · rcases hq with ⟨-, hf⟩ | ⟨rfl, -⟩
    · exact hf
    · exact h.mild j (of_update hj nofun).2
  · rcases hq with ⟨rfl, hf⟩ | ⟨-, hf⟩
    · rw [hf]
      nofun
    · exact hf

/-- `Submit` is called for an instance nothing is known of. -/
lemma submit (hL : L = []) (hρ : ∀ j, ρ j = .quiet) : Core L flag (update ρ i .starts) := by
  have hstarts {j : ℕ} {q : Role} (hne : q ≠ .starts) (hq : q ≠ .quiet) :
      update ρ i .starts j ≠ q :=
    fun hj => hq (((of_update hj hne).2).symm.trans (hρ j))
  subst hL
  refine ⟨fun j hj => ⟨rfl, fun k hk => ?_⟩, fun j hj hne => ?_, nofun,
    fun _ hph => absurd hph not_mem_nil,
    fun _ => ⟨fun _ hph => absurd hph not_mem_nil, fun j => hstarts nofun nofun⟩,
    fun j hj => absurd hj (hstarts nofun nofun), fun j hj => ?_, fun j hj =>
      absurd hj (hstarts nofun nofun),
    fun j _ hj => absurd hj (hstarts nofun nofun)⟩
  · have hji : j = i := by
      by_contra hji
      rw [update_of_ne hji, hρ j] at hj
      cases hj
    rw [hji] at hk
    rw [update_of_ne hk]
    exact hρ k
  · exact absurd ((of_update rfl hne).2.symm.trans (hρ j)) hj
  · exact (hj.elim (hstarts nofun nofun) (hstarts nofun nofun)).elim

/-- `Submit` writes the metadata. -/
lemma setMeta {b : Option Bool} (h : Core L flag ρ) (hi : ρ i = .starts) : Core L b ρ := by
  obtain ⟨hL, hquiet⟩ := h.starts i hi
  have hno {j : ℕ} {q : Role} (hq : q ≠ .starts) (hq' : q ≠ .quiet) : ρ j ≠ q := by
    rintro rfl
    by_cases hj : j = i
    · subst hj
      exact hq hi
    · exact hq' (hquiet j hj)
  refine ⟨h.starts, h.begun, h.first, h.last, fun _ => ⟨?_, fun j => hno nofun nofun⟩,
    fun j hj => absurd hj (hno nofun nofun), fun j hj => ?_, h.armed, h.single⟩
  · rw [hL]
    exact fun _ hph => absurd hph not_mem_nil
  · exact (hj.elim (hno nofun nofun) (hno nofun nofun)).elim

/-- The flag is set, by a call that ends the instance, while none reports on it. -/
lemma setFlag (h : Core L (some false) ρ) (hi : ρ i = .ends) (hmild : ∀ j, ρ j ≠ .mild) :
    Core L (some true) (update ρ i .armed) := by
  have hL := h.begun i (by rw [hi]; nofun) (by rw [hi]; nofun)
  have hone {j : ℕ} (hj : update ρ i .armed j = .armed) : j = i := by
    by_contra hji
    rw [update_of_ne hji] at hj
    exact (h.live rfl).2 j hj
  exact ⟨fun j hj => absurd (of_update hj nofun).2 (h.not_starts hL), fun _ _ _ =>
    hL, h.first, h.last, nofun,
    fun j hj => absurd (of_update hj nofun).2 (hmild j), fun _ _ =>
      nofun, fun _ _ => (h.live rfl).1,
    fun j k hj hk => (hone hj).trans (hone hk).symm⟩

/-- An event is appended by the call that has the role for it. -/
lemma append (h : Core L flag ρ) (hi : ρ i = .mild ∧ ph.Terminal = false ∨ ρ i = .armed) :
    Core (L ++ [ph]) flag (update ρ i .quiet) := by
  have hL : L ≠ [] := by
    refine h.begun i ?_ ?_ <;> rcases hi with ⟨hi, -⟩ | hi <;> rw [hi] <;> nofun
  have hall : ∀ ph ∈ L, ph.Terminal = false :=
    hi.elim (fun hi => (h.live (h.mild i hi.1)).1) fun hi => h.armed i hi
  have harmed {j : ℕ} (hj : update ρ i .quiet j = .armed) : False := by
    obtain ⟨hji, hj⟩ := of_update hj nofun
    rcases hi with ⟨hi, -⟩ | hi
    · exact (h.live (h.mild i hi)).2 j hj
    · exact hji (h.single j i hj hi)
  refine ⟨fun j hj => absurd (of_update hj nofun).2 (h.not_starts hL), fun _ _ _ =>
    by simp, fun ph' hph' => ?_,
    fun ph' hph' => ?_, fun hf => ⟨fun ph' hph' => ?_, fun j hj => harmed hj⟩, fun j hj =>
      h.mild j (of_update hj nofun).2,
    fun j hj => hj.elim (fun hj => h.ends j (.inl (of_update hj nofun).2)) fun hj =>
      (harmed hj).elim,
    fun j hj => (harmed hj).elim, fun j _ hj => (harmed hj).elim⟩
  · rw [head?_append_of_ne_nil _ hL] at hph'
    exact h.first ph' hph'
  · rw [dropLast_concat] at hph'
    exact hall ph' hph'
  · rcases mem_append.1 hph' with hold | hnew
    · exact hall ph' hold
    · rcases hi with ⟨-, hph⟩ | hi
      · rw [mem_singleton.1 hnew]
        exact hph
      · exact absurd hi ((h.live hf).2 i)

/-- `Submit` publishes the first event. -/
lemma appendPending (h : Core L flag ρ) (hi : ρ i = .starts) (hq : q = .started ∨ q = .quiet) :
    Core (L ++ [.pending]) flag (update ρ i q) := by
  obtain ⟨rfl, hquiet⟩ := h.starts i hi
  have hno {j : ℕ} {p : Role} (hp : p ≠ .started) (hp' : p ≠ .quiet) : update ρ i q j ≠ p := by
    intro hj
    have hne : p ≠ q := by
      rcases hq with rfl | rfl
      · exact hp
      · exact hp'
    obtain ⟨hji, hj⟩ := of_update hj hne
    exact hp' (hj.symm.trans (hquiet j hji))
  refine ⟨fun j hj => absurd hj (hno nofun nofun), fun _ _ _ => nofun, fun ph hph => ?_,
    fun _ hph => absurd hph not_mem_nil, fun _ => ⟨fun ph hph => ?_, fun j => hno nofun nofun⟩,
    fun j hj => absurd hj (hno nofun nofun), fun j hj => ?_, fun j hj =>
      absurd hj (hno nofun nofun),
    fun j _ hj => absurd hj (hno nofun nofun)⟩
  · exact (some.inj hph).symm
  · rw [mem_singleton.1 hph]
    rfl
  · exact (hj.elim (hno nofun nofun) (hno nofun nofun)).elim

/-- The metadata is gone while no call has a role. -/
lemma expire (h : Core L flag ρ) (hno : ∀ j, ρ j ≠ .mild ∧ ρ j ≠ .ends ∧ ρ j ≠ .armed) :
    Core L none ρ :=
  { h with
    live := nofun
    mild := fun j hj => absurd hj (hno j).1
    ends := fun j hj => (hj.elim (hno j).2.1 (hno j).2.2).elim }

end Core

/-! ## The calls under way -/

variable {D B : Type} {cfg : Config D B} {id : String}

/-- The calls with their role, or their result. -/
abbrev Known (D : Type) := Ledger (Call D) Role (Except Failure (Answer D))

namespace Known

open Ledger

variable {xs : Known D} {i j : ℕ} {k : Call D} {q q' : Role}

/-- The role of a call; one that has returned is quiet. -/
abbrev roleAt (xs : Known D) : ℕ → Role := stateAt .quiet xs

lemma roleAt_eq (h : xs[i]? = some (k, .inl q)) : xs.roleAt i = q := by rw [roleAt, stateAt, h]

/-- The role a call can have after the one it began with. -/
def Follows (q₀ q : Role) : Prop :=
  q = .quiet ∨ q = q₀ ∨ q₀ = .ends ∧ q = .armed ∨ q₀ = .starts ∧ q = .started

variable {q₀ : Role}

/-- A role that calls do not come to is one they begin with. -/
lemma Follows.eq (h : Follows q₀ q) (hquiet : q ≠ .quiet) (harmed : q ≠ .armed)
    (hstarted : q ≠ .started) : q₀ = q := by
  rcases h with hq | hq | ⟨-, hq⟩ | ⟨-, hq⟩
  · exact absurd hq hquiet
  · exact hq.symm
  · exact absurd hq harmed
  · exact absurd hq hstarted

/-- The roles that calls begin with. -/
lemma startRole_cases (id : String) (k : Call D) :
    startRole id k = .quiet ∨ startRole id k = .starts ∨ startRole id k = .mild ∨
    startRole id k = .ends := by
  cases k with
  | submit b inst req | cancel b req => rw [startRole]; split <;> simp
  | report b inst what =>
    cases what with
    | running | suspended resumeAt | finished o => rw [startRole]; split <;> simp
    | _ => exact .inl rfl
  | _ => exact .inl rfl

lemma Follows.armed (h : Follows (startRole id k) .armed) : startRole id k = .ends := by
  rcases h with hq | hq | ⟨hk, -⟩ | ⟨-, hq⟩
  · cases hq
  · have hcases := startRole_cases id k
    rw [← hq] at hcases
    rcases hcases with h | h | h | h <;> cases h
  · exact hk
  · cases hq

variable (id) in
/-- `Submit` was called for the instance. -/
def Submitted (ks : List (Call D)) : Prop := ∃ k ∈ ks, startRole id k = .starts

variable (id) in
/-- What holds of the phases on the stream of an instance, of its flag and of the calls. -/
structure Inv (L : List ProcessStatus) (flag : Option Bool) (xs : Known D) : Prop where
  core : Submitted id xs.keys → Core L flag xs.roleAt
  returned : ∀ k a, (k, .inr (.ok a)) ∈ xs → startRole id k = .starts → L ≠ []
  roles : ∀ (i : ℕ) k q, xs[i]? = some (k, .inl q) → Follows (startRole id k) q
  fresh : (∀ k ∈ xs.keys, k.inst ≠ some id) → L = []

variable {L L' : List ProcessStatus} {flag flag' : Option Bool}

/-- A call with a role names the instance. -/
lemma inst_of_startRole (h : startRole id k ≠ .quiet) : k.inst = some id := by
  cases k with
  | submit b inst req | cancel b req =>
    rw [startRole] at h
    split at h
    · rename_i heq
      exact congrArg some heq
    · exact absurd rfl h
  | report b inst what =>
    by_cases heq : inst = id
    · exact congrArg some heq
    · exact absurd (startRole_report_quiet heq) h
  | _ => exact absurd rfl h

/-- The call that begins by submitting the instance. -/
lemma exists_submit (h : startRole id k = .starts) : ∃ b req, k = .submit b id req := by
  cases k with
  | submit b inst req =>
    rw [startRole] at h
    split at h
    · rename_i heq
      exact ⟨b, req, by rw [heq]⟩
    · cases h
  | cancel b req =>
    rw [startRole] at h
    split at h <;> cases h
  | report b inst what => exact absurd h startRole_report_ne
  | _ => cases h

lemma Inv.quiet_of_fresh (h : Inv id L flag xs) (hfresh : ∀ k ∈ xs.keys, k.inst ≠ some id)
    (hi : xs[i]? = some (k, .inl q)) : q = .quiet := by
  have hk : startRole id k = .quiet := by
    by_contra hne
    exact hfresh k (mem_keys hi) (inst_of_startRole hne)
  have hroles := h.roles i k q hi
  rw [hk] at hroles
  rcases hroles with hq | hq | ⟨hk, -⟩ | ⟨hk, -⟩
  · exact hq
  · exact hq
  · cases hk
  · cases hk

/-- A call goes on, or returns, with a change of the phases and the flag. -/
lemma Inv.set {z : Role ⊕ Except Failure (Answer D)} (h : Inv id L flag xs)
    (hi : xs[i]? = some (k, .inl q)) (hL : L <+: L')
    (hcore : Submitted id xs.keys → Core L flag xs.roleAt →
      Core L' flag' (update xs.roleAt i (z.elim (fun q => q) fun _ => .quiet)))
    (hz : ∀ a, z = .inr (.ok a) → startRole id k = .starts → L' ≠ []) (hz' : ∀ q', z = .inl q' →
      Follows (startRole id k) q')
    (hquiet : q = .quiet → L' = L) : Inv id L' flag' (xs.set i (k, z)) := by
  refine ⟨fun hsub => ?_, fun k' a hmem hk' => ?_, fun j k' p hj => ?_, fun hfresh => ?_⟩
  · rw [roleAt, stateAt_set (List.getElem?_eq_some_iff.1 hi).1]
    rw [keys_set hi] at hsub
    exact hcore hsub (h.core hsub)
  · rcases mem_or_eq_of_mem_set hmem with hmem | heq
    · intro hnil
      rw [hnil] at hL
      exact h.returned k' a hmem hk' (prefix_nil.1 hL)
    · cases heq
      exact hz a rfl hk'
  · rw [getElem?_set] at hj
    split at hj
    · split at hj
      · cases hj
        exact hz' p rfl
      · cases hj
    · exact h.roles j k' p hj
  · rw [keys_set hi] at hfresh
    rw [hquiet (h.quiet_of_fresh hfresh hi)]
    exact h.fresh hfresh

/-- A call takes a step that changes the phases, the flag and its role. -/
lemma Inv.update (h : Inv id L flag xs) (hi : xs[i]? = some (k, .inl q)) (hL : L <+: L')
    (hcore : Submitted id xs.keys → Core L flag xs.roleAt → Core L' flag' (update xs.roleAt i q'))
    (hq' : Follows (startRole id k) q') (hquiet : q = .quiet → L' = L) : Inv id L' flag'
      (xs.set i (k, .inl q')) :=
  h.set hi hL hcore nofun (fun _ hq => Sum.inl.inj hq ▸ hq') hquiet

/-- A call returns. -/
lemma Inv.ret {a : Except Failure (Answer D)} (h : Inv id L flag xs)
    (hi : xs[i]? = some (k, .inl q))
    (ha : Kept id k q a) : Inv id L flag (xs.set i (k, .inr a)) := by
  refine h.set hi prefix_rfl (fun _ hcore => hcore.quiet) (fun a' heq hk => ?_) nofun fun _ => rfl
  -- it is `Submit` that returns: its event is on the stream
  have hstarted := ha hk a' (Sum.inr.inj heq)
  have hrole := roleAt_eq hi
  exact (h.core ⟨k, mem_keys hi, hk⟩).begun i (by rw [hrole, hstarted]; nofun)
    (by rw [hrole, hstarted]; nofun)

end Known

/-! ## Calls made in order -/

/-- The phases of the lifecycle events among entries. -/
def phases (l : List (EventEntry B)) : List ProcessStatus := l.filterMap EventEntry.phase

variable {l : List (EventEntry B)} {e : EventEntry B}

lemma phases_concat : phases (l ++ [e]) = phases l ++ e.phase.toList := by
  rw [phases, filterMap_append, filterMap_cons, filterMap_nil, phases]
  split
  · rename_i h
    rw [h]
    rfl
  · rename_i ph h
    rw [h]
    rfl

/-- `Submit` was called for the instance. -/
def World.Submitted (w : World D B) (id : String) : Prop :=
  ∃ t ∈ w.threads, startRole id t.key = .starts

/-- The event says that the instance has ended. -/
def EventEntry.ends (e : EventEntry B) : Bool := e.phase.any ProcessStatus.Terminal

/-- The end of the instance was appended to its stream. -/
def Server.HasEnded (s : Server B) (id : String) : Prop := ∃ e ∈ s.history id, e.ends

/-- From the end of the instance on, fewer events were appended than a stream may be trimmed
to. -/
def Server.HasRoom (s : Server B) (id : String) : Prop :=
  ∀ e l, e :: l <:+ s.history id → e.ends → (e :: l).length < instStreamMaxLen

/-- An instance is reported on, or cancelled, when `Submit` has returned it and its metadata
is there; it is reported running or suspended when the flag is not set.  The flag is set
while no such report is under way, and the metadata expires while no report or cancellation
is.  When the instance has ended, its stream does not expire, and events are appended only
while there is room. -/
def InOrder (w : World D B) : PoolAction (Call D) Choice → Prop
  | .call k => ∀ id, World.Submitted w id → startRole id k = .mild ∨ startRole id k = .ends →
    (∃ b req ans, w.Returned (.submit b id req) (.ok ans)) ∧
      ∃ f, w.shared.flag id = some f ∧ (startRole id k = .mild → f = false)
  | .step i _ _ => ∀ id,
    (World.Submitted w id →
      (w.next i = some (.hsetnxFinished id) → w.shared.flag id = some false →
        ¬ w.Busy fun k => startRole id k = .mild) ∧
      (w.next i = some (.expireMeta id) →
        ¬ w.Busy fun k => startRole id k = .mild ∨ startRole id k = .ends)) ∧
    (w.shared.HasEnded id → w.next i ≠ some (.expireInst id) ∧
      ∀ kind phase env, w.next i = some (.xaddInst id kind phase env) → w.shared.HasRoom id)
  | .fail _ => True

namespace Known

open Ledger

variable {xs : Known D} {i : ℕ} {k : Call D} {q q' : Role} {w : World D B}
  {s s' : Server B} {c : Cmd B}

lemma submitted_iff (h : (discipline cfg id).Tracked xs w) : Submitted id xs.keys ↔
    World.Submitted w id := by
  rw [Submitted, Ledger.keys, h.keys]
  constructor
  · rintro ⟨k, hk, hstarts⟩
    obtain ⟨t, ht, rfl⟩ := mem_map.1 hk
    exact ⟨t, ht, hstarts⟩
  · rintro ⟨t, ht, hstarts⟩
    exact ⟨t.key, mem_map.2 ⟨t, ht, rfl⟩, hstarts⟩

variable {L : List ProcessStatus}

/-- While no call that can have a role is under way, none has it. -/
lemma Inv.idle {flag : Option Bool} {P : Call D → Prop} (h : Inv id L flag xs)
    (hxs : (discipline cfg id).Tracked xs w) (hidle : ¬ w.Busy P) (hq : q ≠ .quiet)
    (hP : ∀ k, Follows (startRole id k) q → P k) : xs.roleAt i ≠ q := by
  intro hi
  obtain ⟨k, hk⟩ := exists_of_stateAt hi hq
  obtain ⟨c, p, ht⟩ := hxs.busy hk
  exact hidle ⟨⟨k, .ask c p⟩, mem_of_getElem? ht, hP k (h.roles i k q hk), nofun⟩

/-- A call is made. -/
lemma Inv.call (h : Inv id (phases (w.shared.history id)) (w.shared.flag id) xs)
    (hxs : (discipline cfg id).Tracked xs w) (hP : InOrder w (.call k)) (hk : admits w k) :
    Inv id (phases (w.shared.history id)) (w.shared.flag id)
      (xs ++ [(k, .inl (startRole id k))]) := by
  have hkeys : Ledger.keys (xs ++ [(k, .inl (startRole id k))]) = xs.keys ++ [k] := by
    simp [Ledger.keys]
  refine ⟨fun hsub => ?_, fun k' a hmem hk' => ?_, fun j k' p hj => ?_, fun hfresh => ?_⟩
  · rw [roleAt, stateAt_append]
    by_cases hstarts : startRole id k = .starts
    · -- `Submit`, and so an id that was named by no call
      rw [hstarts]
      have hfresh : ∀ k' ∈ xs.keys, k'.inst ≠ some id := by
        obtain ⟨b, req, rfl⟩ : ∃ b req, k = .submit b id req := exists_submit hstarts
        intro k' hk'
        rw [Ledger.keys, hxs.keys] at hk'
        obtain ⟨t, ht, rfl⟩ := mem_map.1 hk'
        exact of_decide_eq_true (all_eq_true.1 hk t ht)
      refine Core.submit (h.fresh hfresh) fun j => ?_
      by_contra hne
      obtain ⟨k', hk'⟩ := exists_of_stateAt rfl hne
      exact hne (h.quiet_of_fresh hfresh hk')
    · have hsub : Submitted id xs.keys := by
        rw [hkeys] at hsub
        obtain ⟨k', hk', hs⟩ := hsub
        rcases mem_append.1 hk' with hold | hnew
        · exact ⟨k', hold, hs⟩
        · rw [mem_singleton.1 hnew] at hs
          exact absurd hs hstarts
      have hcore := h.core hsub
      have hsubmitted := (submitted_iff hxs).1 hsub
      have hready (hrole : startRole id k = .mild ∨ startRole id k = .ends) :
          phases (w.shared.history id) ≠ [] ∧
            ∃ f, w.shared.flag id = some f ∧ (startRole id k = .mild → f = false) := by
        obtain ⟨⟨b, req, ans, hret⟩, hflag⟩ := hP id hsubmitted hrole
        exact ⟨h.returned _ ans (hxs.returned hret) (if_pos rfl), hflag⟩
      rcases startRole_cases id k with hq | hq | hq | hq
      · rw [hq]
        exact hcore.quiet
      · exact absurd hq hstarts
      · obtain ⟨hL, f, hf, hlive⟩ := hready (.inl hq)
        rw [hq]
        exact hcore.call hL (.inl ⟨rfl, by rw [hf, hlive hq]⟩)
      · obtain ⟨hL, f, hf, -⟩ := hready (.inr hq)
        rw [hq]
        exact hcore.call hL (.inr ⟨rfl, by simp [hf]⟩)
  · rcases mem_append.1 hmem with hold | hnew
    · exact h.returned k' a hold hk'
    · cases mem_singleton.1 hnew
  · rcases Nat.lt_or_ge j xs.length with hlt | hge
    · rw [getElem?_append_left hlt] at hj
      exact h.roles j k' p hj
    · rw [getElem?_append_right hge, getElem?_singleton] at hj
      split at hj
      · cases hj
        exact .inr (.inl rfl)
      · cases hj
  · refine h.fresh fun k' hk' => hfresh k' ?_
    rw [hkeys]
    exact mem_append_left _ hk'

/-- A step that changes at most the flag. -/
lemma Inv.flag {flag flag' : Option Bool} (h : Inv id L flag xs) (hi : xs[i]? = some (k, .inl q))
    (hcore : Submitted id xs.keys → Core L flag xs.roleAt → Core L flag' xs.roleAt) :
    Inv id L flag' (xs.set i (k, .inl q)) := by
  refine h.update hi prefix_rfl (fun hsub hold => ?_) (h.roles i k q hi) fun _ => rfl
  rw [← roleAt_eq hi, update_eq_self]
  exact hcore hsub hold

/-- A step that does not concern the lifecycle of the instance. -/
lemma Inv.stay {flag : Option Bool} (h : Inv id L flag xs) (hi : xs[i]? = some (k, .inl q)) :
    Inv id L flag (xs.set i (k, .inl q)) := h.flag hi fun _ hcore => hcore

variable {heard : Bool}

/-- An event is appended to the stream of the instance. -/
lemma Inv.append {flag : Option Bool} {phase : Option ProcessStatus}
    (h : Inv id L flag xs) (hi : xs[i]? = some (k, .inl q)) (hA : Appends q phase heard q') :
    Inv id (L ++ phase.toList) flag (xs.set i (k, .inl q')) := by
  have hrole := roleAt_eq hi
  cases hA with
  | other q heard =>
    rw [toList_none, append_nil]
    exact h.stay hi
  | pending =>
    have hk := (h.roles i k _ hi).eq nofun nofun nofun
    exact h.update hi (prefix_append _ _) (fun _ hcore => hcore.appendPending hrole (.inl rfl))
      (.inr (.inr (.inr ⟨hk, rfl⟩))) nofun
  | pendingUnheard =>
    exact h.update hi (prefix_append _ _) (fun _ hcore => hcore.appendPending hrole (.inr rfl))
      (.inl rfl) nofun
  | mild ph heard hph =>
    exact h.update hi (prefix_append _ _) (fun _ hcore => hcore.append (.inl ⟨hrole, hph⟩))
      (.inl rfl) nofun
  | armed ph heard hph =>
    exact h.update hi (prefix_append _ _) (fun _ hcore => hcore.append (.inr hrole))
      (.inl rfl) nofun

/-- A call sets the flag, or finds it set. -/
lemma Inv.hsetnx {r : Option Bool} (h : Inv id L (s.flag id) xs)
    (hi : xs[i]? = some (k, .inl .ends)) (hr : r = some (s.hsetnxFinished id).1 ∨ r = none)
    (hmild : Submitted id xs.keys → s.flag id = some false → ∀ j, xs.roleAt j ≠ .mild) :
    Inv id L ((s.hsetnxFinished id).2.flag id)
      (xs.set i (k, .inl (if r = some true then .armed else .quiet))) := by
  have hrole := roleAt_eq hi
  have hk := (h.roles i k .ends hi).eq nofun nofun nofun
  rw [Server.flag_hsetnxFinished]
  have hfollows : Follows (startRole id k) (if r = some true then .armed else .quiet) := by
    split
    · exact .inr (.inr (.inl ⟨hk, rfl⟩))
    · exact .inl rfl
  refine h.update hi prefix_rfl (fun hsub hcore => ?_) hfollows nofun
  match hflag : s.flag id with
  | none => exact absurd hflag (hcore.ends i (.inl hrole))
  | some true =>
    -- it was set before, so the reply does not arm the call
    rw [hflag] at hcore
    rw [if_neg]
    · exact hcore.quiet
    · rw [Server.hsetnxFinished_of_flag hflag] at hr
      rcases hr with rfl | rfl <;> nofun
  | some false =>
    have hset := Core.setFlag (hflag ▸ hcore) hrole (hmild hsub hflag)
    split
    · exact hset
    · have hquiet := hset.quiet (i := i)
      rwa [update_idem] at hquiet

/-- A command that does not touch the instance leaves a call with its role. -/
lemma lifecycle_of_not_touches {ρ : Option c.Reply} (hc : ¬ Server.Touches id c)
    (h : lifecycle cfg id q c ρ q') :
    q' = q := by
  cases c with
  | xaddInst inst kind phase env => exact (if_neg hc).mp h.2
  | hsetnxFinished inst => exact (if_neg hc).mp h
  | hsetMeta inst key corr => exact h.2
  | _ => exact h

/-- One step of a call. -/
lemma Inv.step {ch : Choice} {r : c.Reply}
    (h : Inv id (phases (w.shared.history id)) (w.shared.flag id) xs)
    (hxs : (discipline cfg id).Tracked xs w)
    (hP : InOrder w (.step i ch heard)) (hnext : w.next i = some c) (hi : xs[i]? = some (k, .inl q))
    (hrun : w.shared.run c ch = some (s', r))
    (hN : lifecycle cfg id q c (if heard then some r else none) q') :
    Inv id (phases (s'.history id)) (s'.flag id) (xs.set i (k, .inl q')) := by
  by_cases hc : Server.Touches id c
  · cases c with
    | xaddInst inst kind phase env =>
      obtain rfl := hc
      obtain ⟨-, hrun⟩ := ite_none_right_eq_some.1 hrun
      cases hrun
      rw [Server.history_xaddInst, phases_concat]
      exact h.append hi ((if_pos rfl).mp hN.2)
    | hsetnxFinished inst =>
      obtain rfl := hc
      cases hrun
      rw [Server.history_hsetnxFinished]
      obtain ⟨rfl, rfl⟩ := (if_pos rfl).mp hN
      refine h.hsetnx hi ?_ fun hsub hflag j => ?_
      · cases heard
        · exact .inr rfl
        · exact .inl rfl
      · have hidle := ((hP inst).1 ((submitted_iff hxs).1 hsub)).1 hnext hflag
        exact h.idle hxs hidle nofun fun _ hk => hk.eq nofun nofun nofun
    | hsetMeta inst key corr =>
      obtain rfl := hc
      cases hrun
      obtain ⟨hstarts, rfl⟩ := hN
      obtain rfl := hstarts rfl
      exact h.flag hi fun _ hcore => hcore.setMeta (roleAt_eq hi)
    | expireMeta inst =>
      obtain rfl := hc
      obtain ⟨-, hrun⟩ := ite_none_right_eq_some.1 hrun
      cases hrun
      cases hN
      have hflag : Server.flag { w.shared with metas := Function.update w.shared.metas inst none }
        inst = none := by
        show (Function.update w.shared.metas inst none inst).map Meta.finished = none
        rw [update_self]
        rfl
      rw [hflag]
      refine h.flag hi fun hsub hcore => hcore.expire fun j => ?_
      have hidle := ((hP inst).1 ((submitted_iff hxs).1 hsub)).2 hnext
      exact ⟨h.idle hxs hidle nofun fun _ hk => .inl (hk.eq nofun nofun nofun),
        h.idle hxs hidle nofun fun _ hk => .inr (hk.eq nofun nofun nofun),
        h.idle hxs hidle nofun fun _ hk => .inr hk.armed⟩
    | expireInst inst =>
      obtain ⟨-, hrun⟩ := ite_none_right_eq_some.1 hrun
      cases hrun
      cases hN
      exact h.stay hi
    | _ => exact hc.elim
  · have hsame := Server.same_run hc hrun
    obtain rfl := lifecycle_of_not_touches hc hN
    rw [hsame.history, hsame.flag]
    exact h.stay hi

/-- A command that fails leaves a call with its role, or with none. -/
lemma lifecycle_none (h : lifecycle cfg id q c none q') : q' = q ∨ q' = .quiet := by
  cases c with
  | xaddInst inst kind phase env =>
    obtain ⟨-, h⟩ := h
    split at h
    · cases h with
      | other q heard => exact .inl rfl
      | _ => exact .inr rfl
    · exact .inl h
  | hsetnxFinished inst =>
    simp only [lifecycle] at h
    split at h
    · exact .inr h.2
    · exact .inl h
  | hsetMeta inst key corr => exact .inl h.2
  | _ => exact .inl h

/-- The next command of a call fails. -/
lemma Inv.fail {flag : Option Bool} (h : Inv id L flag xs) (hi : xs[i]? = some (k, .inl q))
    (hN : lifecycle cfg id q c none q') : Inv id L flag (xs.set i (k, .inl q')) := by
  rcases lifecycle_none hN with rfl | rfl
  · exact h.stay hi
  · exact h.update hi prefix_rfl (fun _ hcore => hcore.quiet) (.inl rfl) fun _ => rfl

lemma inv_new : Inv id (phases ((Server.empty : Server B).history id))
    ((Server.empty : Server B).flag id) ([] : Known D) :=
  ⟨fun ⟨_, hk, _⟩ => absurd hk not_mem_nil, fun _ _ hmem => absurd hmem not_mem_nil,
    fun _ _ _ hi => (some_ne_none _ hi.symm).elim, fun _ => rfl⟩

end Known

/-! ## What is on the streams -/

variable (cfg id) in
/-- The stream of an instance is the end of what was ever appended to it, in envelopes that
can be read; where the instance has ended, that is on it. -/
structure Server.Stored (s : Server B) : Prop where
  readable : ∀ e ∈ s.history id, Readable cfg e.kind e.phase e.env
  suffix : s.events id <:+ s.history id
  kept : ∀ e l, e :: l <:+ s.history id → e.ends → e :: l <:+ s.events id

namespace Server.Stored

variable {s s' : Server B} {c : Cmd B}

lemma of_eq (h : s.Stored cfg id) (hh : s'.history id = s.history id)
    (he : s'.events id = s.events id) : s'.Stored cfg id := by
  refine ⟨?_, ?_, ?_⟩
  · rw [hh]
    exact h.readable
  · rw [hh, he]
    exact h.suffix
  · rw [hh, he]
    exact h.kept

lemma xaddInst {kind : EventKind} {phase : Option ProcessStatus} {env : B} {trim : ℕ}
    (h : s.Stored cfg id) (hr : Readable cfg kind phase env) (htrim : s.MayTrim id trim)
    (hroom : s.HasEnded id → s.HasRoom id) :
    (s.xaddInst id kind phase env trim).Stored cfg id := by
  refine ⟨?_, ?_, fun e l hl hends => ?_⟩
  · rw [Server.history_xaddInst, forall_mem_append, forall_mem_singleton]
    exact ⟨h.readable, hr⟩
  · rw [Server.history_xaddInst, Server.events_xaddInst]
    obtain ⟨l, hl⟩ := h.suffix
    exact (drop_suffix _ _).trans ⟨l, by rw [← hl, append_assoc]⟩
  · -- the end is the new event, or is as far from the end of the stream as there is room
    rw [Server.history_xaddInst, suffix_concat_iff] at hl
    obtain ⟨t, ht, hsuffix⟩ := hl.resolve_left (cons_ne_nil _ _)
    rw [ht]
    cases t with
    | nil =>
      have hpos : 0 < Server.instStreamMaxLen := by decide
      exact Server.suffix_events_xaddInst htrim nil_suffix hpos
    | cons e' t =>
      obtain rfl : e' = e := (cons.inj ht).1.symm
      have hended : s.HasEnded id := ⟨e', hsuffix.subset (.head _), hends⟩
      exact Server.suffix_events_xaddInst htrim (h.kept e' t hsuffix hends)
        (hroom hended e' t hsuffix hends)

lemma run {ch : Choice} {r : c.Reply} {ρ : Option c.Reply} {q q' : Role} (h : s.Stored cfg id)
    (hrun : s.run c ch = some (s', r)) (hN : lifecycle cfg id q c ρ q')
    (hroom : s.HasEnded id → c ≠ .expireInst id ∧
      ∀ kind phase env, c = .xaddInst id kind phase env → s.HasRoom id) :
    s'.Stored cfg id := by
  by_cases hc : Server.Touches id c
  · cases c with
    | xaddInst inst kind phase env =>
      obtain rfl := hc
      obtain ⟨htrim, hrun⟩ := ite_none_right_eq_some.1 hrun
      cases hrun
      exact h.xaddInst hN.1 htrim fun hended => (hroom hended).2 _ _ _ rfl
    | hsetnxFinished inst =>
      cases hrun
      have hi : s.Agree (s.hsetnxFinished inst).2 .insts := Server.agree_hsetnxFinished rfl
      exact h.of_eq (congrFun Server.history_hsetnxFinished id)
        (congrArg (fun f => ((f id).map EventStream.entries).getD []) hi)
    | hsetMeta inst key corr =>
      cases hrun
      exact h.of_eq rfl rfl
    | expireMeta inst =>
      obtain ⟨-, hrun⟩ := ite_none_right_eq_some.1 hrun
      cases hrun
      exact h.of_eq rfl rfl
    | expireInst inst =>
      obtain rfl := hc
      obtain ⟨-, hrun⟩ := ite_none_right_eq_some.1 hrun
      cases hrun
      refine ⟨h.readable, ?_, fun e l hl hends => ?_⟩
      · show ((update s.insts inst none inst).map EventStream.entries).getD [] <:+ _
        rw [update_self]
        exact nil_suffix
      · exact absurd rfl (hroom ⟨e, hl.subset (.head _), hends⟩).1
    | _ => exact hc.elim
  · have hsame := Server.same_run hc hrun
    exact h.of_eq hsame.history hsame.events

end Server.Stored

/-! ## What a subscriber is told -/

/-- Nothing but lifecycle events counts for the phase and for the latest event. -/
lemma Replay.see_of_ne {r : Replay B} (h : e.kind ≠ .lifecycle) :
    (r.see e).phase = r.phase ∧ (r.see e).latest = r.latest := by
  rw [see]
  split
  · contradiction
  · exact ⟨rfl, rfl⟩
  · split <;> exact ⟨rfl, rfl⟩
  all_goals exact ⟨rfl, rfl⟩

/-- A look at a stream finds the last lifecycle event. -/
lemma replay_spec (h : ∀ e ∈ l, Readable cfg e.kind e.phase e.env) :
    (replay l).phase = (phases l).getLast? ∧
      ∀ ph, (phases l).getLast? = some ph → ∃ e ∈ l, (replay l).latest = some e ∧
      e.phase = some ph := by
  induction l using reverseRecOn with
  | nil => exact ⟨rfl, nofun⟩
  | append_singleton l e ih =>
    obtain ⟨hphase, hlatest⟩ := ih fun e' he' => h e' (mem_append_left _ he')
    obtain ⟨evt, -, hkind, hph⟩ := h e (mem_append_right _ (mem_singleton.2 rfl))
    have hreplay : replay (l ++ [e]) = (replay l).see e := by
      rw [replay, foldl_append]
      rfl
    rw [hreplay, phases_concat]
    cases hbody : evt.body with
    | lifecycle ph =>
      have hphase' : e.phase = some ph := by rw [← hph, InstanceEvent.phase, hbody]
      rw [hbody] at hkind
      have hsee : (replay l).see e = { replay l with latest := some e, phase := some ph } := by
        rw [Replay.see, ← hkind, hphase']
        rfl
      rw [hsee, hphase', toList_some, getLast?_concat]
      exact ⟨rfl, fun ph' hph' =>
        ⟨e, mem_append_right _ (mem_singleton.2 rfl), rfl, hphase'.trans hph'⟩⟩
    | _ =>
      have hphase' : e.phase = none := by rw [← hph, InstanceEvent.phase, hbody]
      rw [hbody] at hkind
      have hsee :=
        Replay.see_of_ne (r := replay l) (show e.kind ≠ .lifecycle by rw [← hkind]; nofun)
      rw [hphase', toList_none, append_nil, hsee.1, hsee.2]
      refine ⟨hphase, fun ph' hph' => ?_⟩
      obtain ⟨e', he', hlast⟩ := hlatest ph' hph'
      exact ⟨e', mem_append_left _ he', hlast⟩

/-- In an order where nothing comes after an end, an end is the last. -/
lemma getLast_of_terminal {l l' : List ProcessStatus} (h : ∀ ph ∈ l.dropLast, ph.Terminal = false)
    (hs : l' <:+ l)
    {ph : ProcessStatus} (hph : ph ∈ l') (ht : ph.Terminal) : l'.getLast? = some ph := by
  obtain ⟨front, hfront⟩ := hs
  rcases eq_nil_or_concat l' with rfl | ⟨init, z, rfl⟩
  · exact absurd hph not_mem_nil
  · rw [concat_eq_append] at *
    rw [getLast?_concat]
    rcases mem_append.1 hph with hinit | hz
    · have hdrop : ph ∈ l.dropLast := by
        rw [← hfront, ← append_assoc, dropLast_concat]
        exact mem_append_right _ hinit
      rw [h ph hdrop] at ht
      cases ht
    · rw [mem_singleton.1 hz]

variable (cfg id) in
/-- If the instance has ended, a subscriber is sent a terminal lifecycle event and a closed
channel. -/
def Server.Told (s : Server B) : Prop :=
  s.HasEnded id → ∃ sent last, replayEntries cfg id (s.events id) = pure (.events sent true last) ∧
    ∃ evt ∈ sent, ∃ ph, evt.phase = some ph ∧ ph.Terminal = true

lemma Server.Stored.told {s : Server B} (h : s.Stored cfg id)
    (hlast : ∀ ph ∈ (phases (s.history id)).dropLast, ph.Terminal = false) : s.Told cfg id := by
  rintro ⟨e, hmem, hends⟩
  obtain ⟨front, l, hsplit⟩ := append_of_mem hmem
  have he : e ∈ s.events id := (h.kept e l ⟨front, hsplit.symm⟩ hends).subset (.head _)
  obtain ⟨ph, hph, ht⟩ := (Option.any_eq_true _ _).1 hends
  have hsuffix := h.suffix
  have hreadable : ∀ e ∈ s.events id, Readable cfg e.kind e.phase e.env :=
    fun e he => h.readable e (hsuffix.subset he)
  have hgetLast : (phases (s.events id)).getLast? = some ph :=
    getLast_of_terminal hlast (hsuffix.filterMap _) (mem_filterMap.2 ⟨e, he, hph⟩) ht
  obtain ⟨hphase, hlatest⟩ := replay_spec hreadable
  obtain ⟨e', he', hl, hph'⟩ := hlatest ph hgetLast
  obtain ⟨evt, hdecode, -, hevt⟩ := hreadable e' he'
  have hlast' := getLast?_eq_some_getLast (ne_nil_of_mem he)
  refine ⟨(replay (s.events id)).events cfg, ((s.events id).getLast (ne_nil_of_mem he)).id, ?_,
    evt, ?_, ph, hevt.trans hph', ht⟩
  · rw [replayEntries, hlast']
    rw [hphase, hgetLast, any_some, ht]
  · rw [Replay.events, hl]
    refine mem_append_left _ ?_
    rw [bind_some, decodeInstanceEventEntry, hdecode]
    exact mem_singleton.2 rfl

/-! ## Runs -/

lemma keeper (cfg : Config D B) (id : String) : (discipline cfg id).Keeper InOrder
    fun s xs => Known.Inv id (phases (s.history id)) (s.flag id) xs ∧ s.Stored cfg id where
  call w xs k hxs hP hk h := ⟨h.1.call hxs hP hk, h.2⟩
  ret s xs i k q a hi ha h := ⟨h.1.ret hi ha, h.2⟩
  step w xs i ch heard k c q s r q' hxs hP hnext hi _ hrun hN h := by
    obtain ⟨p, hp⟩ := hnext
    have hnext : w.next i = some c := by
      rw [Pool.next, hp]
      rfl
    refine ⟨h.1.step hxs hP hnext hi hrun hN, h.2.run hrun hN fun hended => ?_⟩
    obtain ⟨hexpire, hroom⟩ := (hP id).2 hended
    exact ⟨fun hc => hexpire (hc ▸ hnext), fun kind phase env hc =>
      hroom kind phase env (hc ▸ hnext)⟩
  fail w xs i k c q q' _ _ _ hi _ hN h := ⟨h.1.fail hi hN, h.2⟩

variable (cfg) in
/-- The lifecycle events of an instance are in order: the first is that it is pending, none
follows one that it has ended, and when it has ended, a subscriber is told. -/
structure World.Ordered (w : World D B) (id : String) : Prop where
  first : ∀ ph, (phases (w.shared.history id)).head? = some ph → ph = .pending
  last : ∀ ph ∈ (phases (w.shared.history id)).dropLast, ph.Terminal = false
  told : w.shared.Told cfg id

/-- In every run with calls in order, the lifecycle events of every instance are in order, and a
subscriber to one that has ended is told so. -/
theorem lifecycle_in_order (cfg : Config D B) (as : List (PoolAction (Call D) Choice))
    (h : (system cfg).machine.Along InOrder ⟨.empty, []⟩ as) :
    (system cfg).machine.Always (fun w => ∀ id, World.Submitted w id → World.Ordered cfg w id)
      ⟨.empty, []⟩ as := by
  refine Machine.Always.all fun id => ?_
  have hnew : (Server.empty : Server B).Stored cfg id :=
    ⟨fun e he => absurd he not_mem_nil, nil_suffix, fun e l hl =>
      absurd (hl.subset (.head _)) not_mem_nil⟩
  refine Machine.Always.imp ?_ ((keeper cfg id).always ⟨Known.inv_new, hnew⟩ h)
  rintro w ⟨xs, hxs, hinv, hstored⟩ hsub
  have hcore := hinv.core ((Known.submitted_iff hxs).2 hsub)
  exact ⟨hcore.first, hcore.last, hstored.told hcore.last⟩

/-- The worker fetches the job, runs the instance and completes it, all before `Submit`
publishes that it is pending. -/
def sampleOvertaken : List (PoolAction (Call Unit) Choice) :=
  sampleQueued ++ .call (.fetchLoop 0 [sampleKey] false) :: goOn 2 3 ++
    .call (.report 0 "i" .running) :: goOn 3 5 ++
    .call (.report 0 "i" (.finished (.completed ()))) :: goOn 4 15 ++ goOn 1 3

/-- The instance is pending after it has completed. -/
theorem pending_after_completed : ∃ w, (system sampleSystem).machine.exec ⟨.empty, []⟩
    sampleOvertaken = some w ∧
    World.Submitted w "i" ∧ phases (w.shared.history "i") = [.running, .completed, .pending] ∧
    ¬ World.Ordered sampleSystem w "i" := by
  obtain ⟨w, h, hsub, hphases⟩ : ∃ w, (system sampleSystem).machine.exec ⟨.empty, []⟩
      sampleOvertaken = some w ∧
      World.Submitted w "i" ∧ phases (w.shared.history "i") = [.running, .completed, .pending] :=
    ⟨_, rfl, ⟨_, mem_of_getElem? (i := 1) rfl, rfl⟩, rfl⟩
  refine ⟨w, h, hsub, hphases, fun hord => ?_⟩
  have hfirst := hord.first .running (by rw [hphases]; rfl)
  cases hfirst

/-- The same calls, one after the other. -/
def samplePatient : List (PoolAction (Call Unit) Choice) :=
  sampleQueued ++ goOn 1 3 ++ .call (.fetchLoop 0 [sampleKey] false) :: goOn 2 3 ++
    .call (.report 0 "i" .running) :: goOn 3 5 ++
      .call (.report 0 "i" (.finished (.completed ()))) :: goOn 4 15

/-- `Submit` has returned the instance. -/
def submitReturned (id : String)
    (t : Thread (Call D) (Cmd B) Cmd.Reply (Except Failure (Answer D))) : Bool :=
  match t with
  | ⟨.submit _ inst _, .done (.ok _)⟩ => inst = id
  | _ => false

/-- A test for a call that is made in order. -/
def patient (w : World D B) : PoolAction (Call D) Choice → Bool
  | .call k =>
    match k.inst with
    | none => true
    | some id =>
      match startRole id k with
      | .mild => w.threads.any (submitReturned id) && w.shared.flag id = some false
      | .ends => w.threads.any (submitReturned id) && (w.shared.flag id).isSome
      | _ => true
  | .step i _ _ =>
    match w.next i with
    | some (.hsetnxFinished id) => w.threads.all fun t =>
      startRole id t.key ≠ .mild || t.rest.next.isNone
    | some (.expireMeta _) | some (.expireInst _) => false
    | some (.xaddInst id _ _ _) => (w.shared.history id).length < Server.instStreamMaxLen
    | _ => true
  | .fail _ => true

variable {w : World D B}

lemma returned_of_submitReturned (h : w.threads.any (submitReturned id)) :
    ∃ b req ans, w.Returned (.submit b id req) (.ok ans) := by
  obtain ⟨t, ht, hret⟩ := any_eq_true.1 h
  unfold submitReturned at hret
  split at hret
  · rename_i b inst req ans
    obtain rfl := of_decide_eq_true hret
    exact ⟨b, req, ans, ht⟩
  · cases hret

lemma inOrder_of_patient {a : PoolAction (Call D) Choice} (h : patient w a) : InOrder w a := by
  cases a with
  | call k =>
    intro id _ hrole
    have hinst : k.inst = some id :=
      Known.inst_of_startRole (by rcases hrole with h | h <;> rw [h] <;> nofun)
    rw [patient, hinst] at h
    dsimp only at h
    rcases hrole with hrole | hrole
    · rw [hrole] at h
      obtain ⟨hret, hflag⟩ := Bool.and_eq_true_iff.1 h
      exact ⟨returned_of_submitReturned hret, false, of_decide_eq_true hflag, fun _ => rfl⟩
    · rw [hrole] at h
      obtain ⟨hret, hflag⟩ := Bool.and_eq_true_iff.1 h
      obtain ⟨f, hf⟩ := isSome_iff_exists.1 hflag
      refine ⟨returned_of_submitReturned hret, f, hf, fun hmild => ?_⟩
      rw [hrole] at hmild
      cases hmild
  | step i ch heard =>
    refine fun id => ⟨fun _ => ⟨fun hnext _ => ?_, fun hnext => ?_⟩, fun _ =>
      ⟨fun hnext => ?_, fun kind phase env hnext e l hl _ => ?_⟩⟩
    · rintro ⟨t, ht, hmild, hbusy⟩
      rw [patient, hnext] at h
      have ht' := all_eq_true.1 h t ht
      rw [hmild] at ht'
      exact hbusy (isNone_iff_eq_none.1 ht')
    · rw [patient, hnext] at h
      cases h
    · rw [patient, hnext] at h
      cases h
    · rw [patient, hnext] at h
      exact Nat.lt_of_le_of_lt hl.length_le (of_decide_eq_true h)
  | fail i => trivial

/-- The calls of `samplePatient` are in order, and so are the events. -/
theorem lifecycle_in_order_patient :
    (system sampleSystem).machine.Along InOrder ⟨.empty, []⟩ samplePatient ∧
    (system sampleSystem).machine.Always (fun w => ∀ id, World.Submitted w id →
    World.Ordered sampleSystem w id)
      ⟨.empty, []⟩ samplePatient ∧
    ∃ w, (system sampleSystem).machine.exec ⟨.empty, []⟩ samplePatient = some w ∧
      World.Submitted w "i" ∧
      phases (w.shared.history "i") = [.pending, .running, .completed] := by
  have hpatient : (system sampleSystem).machine.Along InOrder ⟨.empty, []⟩ samplePatient :=
    Machine.along_of_checks (fun _ _ => inOrder_of_patient) rfl
  refine ⟨hpatient, lifecycle_in_order sampleSystem samplePatient hpatient, ?_⟩
  exact ⟨_, rfl, ⟨_, mem_of_getElem? (i := 1) rfl, rfl⟩, rfl⟩

end Redis

end Blkit
