import Blkit.Broker.Message
import Blkit.Control.Machine
import Mathlib.Logic.Function.Basic

/-!
# Fetching jobs from the stream

`FetchJobs` of `brokers/nats/broker.go`.  Every fetcher pulls from a durable consumer that is
named after its set of process keys.  A consumer hands a message to one of its pullers; two
consumers whose filters share a key hand the same message out twice.  There are no
acknowledgement timeouts and no negative acknowledgements here.
-/

namespace Blkit.JetStream

open Broker

/-! ## Subjects -/

/-- What subjects and durable names are made with: `encToken` is the base64 encoding of a
token, `digest` the hexadecimal start of the SHA-256 sum. -/
structure Naming where
  subjectPrefix : String
  encToken : String → String
  digest : String → String
  encToken_injective : Function.Injective encToken
  encToken_ne_wildcard : ∀ s, encToken s ≠ "*"

namespace Naming

variable (b : Naming)

/-- `jobSubject`, by its tokens. -/
def jobSubject (key : ProcessKey) (instanceID : String) : List String :=
  [b.subjectPrefix, "jobs", b.encToken key.ns, b.encToken key.processID,
    b.encToken key.version, instanceID]

def jobFilter (key : ProcessKey) : List String := b.jobSubject key "*"

/-- The name of the durable consumer for some keys. -/
def durable (keys : List ProcessKey) : String :=
  let filters := keys.map fun key => ".".intercalate (b.jobFilter key)
  "fj-" ++ b.digest ("\x00".intercalate (filters.mergeSort fun x y => decide (x ≤ y)))

/-- The server takes a consumer whose filters are subjects without an empty token and do
not overlap. -/
def Accepts (keys : List ProcessKey) : Prop :=
  (keys.map b.jobFilter).Nodup ∧ ∀ key ∈ keys, "" ∉ b.jobFilter key

instance (keys : List ProcessKey) : Decidable (b.Accepts keys) :=
  inferInstanceAs (Decidable (_ ∧ _))

end Naming

/-- A filter matches a subject. -/
def covers : List String → List String → Bool
  | [], [] => true
  | f :: fs, t :: ts => (f == "*" || f == t) && covers fs ts
  | _, _ => false

lemma Naming.covers_jobFilter (b : Naming) {key key' : ProcessKey} {id : String} :
    covers (b.jobFilter key) (b.jobSubject key' id) ↔ key = key' := by
  cases key
  cases key'
  simp [jobFilter, jobSubject, covers, b.encToken_ne_wildcard, b.encToken_injective.eq_iff]

/-! ## The server and the fetchers -/

structure Msg where
  seq : Nat
  key : ProcessKey
  instanceID : String
deriving DecidableEq

structure Consumer where
  filters : List (List String)
  /-- The messages that were given to a puller. -/
  handed : List Msg

/-- The jobs stream, its durable consumers, the fetchers `ι` that pull and what is in
flight. -/
structure Fetching (ι : Type) where
  last : Nat
  jobs : List Msg
  consumers : String → Option Consumer
  pulling : List ι
  inFlight : List (ι × Msg)

def Fetching.empty (ι : Type) : Fetching ι := ⟨0, [], fun _ => none, [], []⟩

/-- No message is in flight at two fetchers. -/
def Fetching.Exclusive {ι : Type} (s : Fetching ι) : Prop :=
  ∀ i j msg, (i, msg) ∈ s.inFlight → (j, msg) ∈ s.inFlight → i = j

inductive FetchAct (ι β : Type) where
  | publishJob (key : ProcessKey) (instanceID : String)
  /-- `Cancel` takes a job off the stream. -/
  | deleteMsg (seq : Nat)
  | fetchJobs (i : ι)
  | stop (i : ι)
  | next (i : ι) (msg : Msg) (decodes : Bool)
  /-- A broker settles what its fetchers have of an instance; `removed` says which messages
  `DeleteMsg` could take off the stream. -/
  | settleInstance (broker : β) (instanceID : String) (removed : Nat → Bool)

section

variable {ι β : Type} (b : Naming) (broker : ι → β) (keys : ι → List ProcessKey)

namespace Fetching

/-- `CreateOrUpdateConsumer`: what was handed out stays handed out. -/
def createOrUpdate (s : Fetching ι) (i : ι) : Fetching ι :=
  let name := b.durable (keys i)
  let handed := ((s.consumers name).map Consumer.handed).getD []
  { s with
    consumers := Function.update s.consumers name (some ⟨(keys i).map b.jobFilter, handed⟩)
    pulling := i :: s.pulling }

/-- The consumer of `i` hands a message out; one that cannot be decoded is terminated. -/
def hand (s : Fetching ι) (i : ι) (c : Consumer) (msg : Msg) (decodes : Bool) : Fetching ι :=
  { s with
    consumers :=
      Function.update s.consumers (b.durable (keys i)) (some { c with handed := msg :: c.handed })
    inFlight := if decodes then (i, msg) :: s.inFlight else s.inFlight }

/-! ## What a consumer guarantees -/

/-- A fetcher with the name of `i`'s consumer asked for the key. -/
def Asked (i : ι) (key : ProcessKey) : Prop :=
  ∃ j, b.Accepts (keys j) ∧ b.durable (keys j) = b.durable (keys i) ∧ key ∈ keys j

structure Inv (s : Fetching ι) : Prop where
  filters : ∀ name c, s.consumers name = some c →
    ∃ i, b.Accepts (keys i) ∧ b.durable (keys i) = name ∧ c.filters = (keys i).map b.jobFilter
  handed : ∀ p ∈ s.inFlight, ∃ c, s.consumers (b.durable (keys p.1)) = some c ∧ p.2 ∈ c.handed
  asked : ∀ p ∈ s.inFlight, Asked b keys p.1 p.2.key
  /-- One consumer has a message in flight at one puller. -/
  single : ∀ p ∈ s.inFlight, ∀ q ∈ s.inFlight, p.2 = q.2 →
    b.durable (keys p.1) = b.durable (keys q.1) → p.1 = q.1

variable {b keys} {s s' : Fetching ι} {i j : ι}

/-- What is no longer in flight, and what happens to the stream, does not matter. -/
lemma Inv.sub (h : Inv b keys s) (hc : s'.consumers = s.consumers)
    (hp : ∀ p ∈ s'.inFlight, p ∈ s.inFlight) :
    Inv b keys s' where
  filters := hc ▸ h.filters
  handed p hmem := hc ▸ h.handed p (hp p hmem)
  asked p hmem := h.asked p (hp p hmem)
  single p hmem q hmem' := h.single p (hp p hmem) q (hp q hmem')

lemma Inv.createOrUpdate (h : Inv b keys s) (hi : b.Accepts (keys i)) :
    Inv b keys (s.createOrUpdate b keys i) where
  filters name c hc := by
    simp only [Fetching.createOrUpdate, Function.update_apply] at hc
    split at hc
    next hname =>
      cases hc
      exact ⟨i, hi, hname.symm, rfl⟩
    next => exact h.filters name c hc
  handed p hp := by
    obtain ⟨c, hc, hmem⟩ := h.handed p hp
    simp only [Fetching.createOrUpdate, Function.update_apply]
    split
    next hname => exact ⟨_, rfl, by rw [← hname, hc]; exact hmem⟩
    next => exact ⟨c, hc, hmem⟩
  asked := h.asked
  single := h.single

lemma Inv.hand (h : Inv b keys s) {c : Consumer} {msg : Msg} {decodes : Bool}
    (hc : s.consumers (b.durable (keys i)) = some c) (hnew : msg ∉ c.handed)
    (hcov : c.filters.any (covers · (b.jobSubject msg.key msg.instanceID))) :
    Inv b keys (s.hand b keys i c msg decodes) := by
  -- who already has the message has it from another consumer
  have hother : ∀ p ∈ s.inFlight, p.2 = msg → b.durable (keys p.1) ≠ b.durable (keys i) := by
    intro p hp hmsg hname
    obtain ⟨c', hc', hmem⟩ := h.handed p hp
    rw [hname, hc, Option.some.injEq] at hc'
    exact hnew (by rwa [hc', ← hmsg])
  have hmem : ∀ p ∈ (s.hand b keys i c msg decodes).inFlight, p = (i, msg) ∨ p ∈ s.inFlight := by
    intro p hp
    cases decodes with
    | true => exact List.mem_cons.1 hp
    | false => exact .inr hp
  have hasked : Asked b keys i msg.key := by
    obtain ⟨j, hj, hname, hfilters⟩ := h.filters _ c hc
    obtain ⟨filter, hfilter, hcovers⟩ := List.any_eq_true.1 hcov
    rw [hfilters] at hfilter
    obtain ⟨key, hkey, rfl⟩ := List.mem_map.1 hfilter
    exact ⟨j, hj, hname, b.covers_jobFilter.1 hcovers ▸ hkey⟩
  refine ⟨fun name c' hc' => ?_, fun p hp => ?_, fun p hp => ?_, fun p hp q hq hmsg hname => ?_⟩
  · simp only [Fetching.hand, Function.update_apply] at hc'
    split at hc'
    next hname =>
      cases hc'
      exact h.filters name c (hname ▸ hc)
    next => exact h.filters name c' hc'
  · simp only [Fetching.hand, Function.update_apply]
    obtain rfl | hp := hmem p hp
    · exact ⟨_, if_pos rfl, List.mem_cons_self⟩
    · obtain ⟨c', hc', hin⟩ := h.handed p hp
      split
      next hname =>
        rw [hname, hc, Option.some.injEq] at hc'
        exact ⟨_, rfl, List.mem_cons_of_mem _ (hc' ▸ hin)⟩
      next => exact ⟨c', hc', hin⟩
  · obtain rfl | hp := hmem p hp
    · exact hasked
    · exact h.asked p hp
  · obtain rfl | hp := hmem p hp <;> obtain rfl | hq := hmem q hq
    · rfl
    · exact absurd hname.symm (hother q hq hmsg.symm)
    · exact absurd hname (hother p hp hmsg)
    · exact h.single p hp q hq hmsg hname

lemma Inv.empty : Inv b keys (.empty ι) where
  filters _ _ h := nomatch h
  handed _ h := nomatch h
  asked _ h := nomatch h
  single _ h := nomatch h

/-! ## Runs -/

variable (b keys) [DecidableEq ι] [DecidableEq β]

def step (s : Fetching ι) : FetchAct ι β → Option (Fetching ι)
  | .publishJob key instanceID =>
    if "" ∈ b.jobSubject key instanceID then none
    else some { s with last := s.last + 1, jobs := ⟨s.last, key, instanceID⟩ :: s.jobs }
  | .deleteMsg seq => some { s with jobs := s.jobs.filter (·.seq ≠ seq) }
  | .fetchJobs i =>
    if keys i = [] then some s
    else if b.Accepts (keys i) then some (s.createOrUpdate b keys i) else none
  | .stop i => some { s with pulling := s.pulling.filter (· ≠ i) }
  | .next i msg decodes =>
    (s.consumers (b.durable (keys i))).bind fun c =>
      if i ∈ s.pulling ∧ msg ∈ s.jobs ∧ msg ∉ c.handed ∧
          c.filters.any (covers · (b.jobSubject msg.key msg.instanceID)) then
        some (s.hand b keys i c msg decodes)
      else none
  | .settleInstance bk instanceID removed =>
    let settled := s.inFlight.filter fun p => broker p.1 = bk ∧ p.2.instanceID = instanceID
    some { s with
      inFlight := s.inFlight.filter (· ∉ settled)
      jobs := s.jobs.filter fun msg => ¬ (msg ∈ settled.map Prod.snd ∧ removed msg.seq) }

def machine : Machine (Fetching ι) (FetchAct ι β) := ⟨step b broker keys⟩

variable {b keys}

lemma Inv.step (h : Inv b keys s) {a : FetchAct ι β} (ha : s.step b broker keys a = some s') :
    Inv b keys s' := by
  cases a with
  | publishJob key instanceID =>
    obtain ⟨-, h'⟩ := Option.ite_none_left_eq_some.1 ha
    cases h'
    exact h.sub rfl fun _ hp => hp
  | deleteMsg seq | stop i =>
    cases ha
    exact h.sub rfl fun _ hp => hp
  | fetchJobs i =>
    simp only [Fetching.step] at ha
    split at ha
    · cases ha
      exact h
    · obtain ⟨hi, h'⟩ := Option.ite_none_right_eq_some.1 ha
      cases h'
      exact h.createOrUpdate hi
  | next i msg decodes =>
    obtain ⟨c, hc, ha⟩ := Option.bind_eq_some_iff.1 ha
    obtain ⟨⟨-, -, hnew, hcov⟩, h'⟩ := Option.ite_none_right_eq_some.1 ha
    cases h'
    exact h.hand hc hnew hcov
  | settleInstance bk instanceID removed =>
    cases ha
    exact h.sub rfl fun _ hp => List.mem_of_mem_filter hp

/-! ## Overlapping key sets -/

lemma step_fetchJobs {key : ProcessKey} (hi : b.Accepts (keys i)) (hkey : key ∈ keys i) :
    s.step b broker keys (.fetchJobs i) = some (s.createOrUpdate b keys i) :=
  (if_neg (List.ne_nil_of_mem hkey)).trans (if_pos hi)

lemma step_next {msg : Msg} (hc : s.consumers (b.durable (keys i)) =
    some ⟨(keys i).map b.jobFilter, []⟩)
    (hpull : i ∈ s.pulling) (hjob : msg ∈ s.jobs) (hkey : msg.key ∈ keys i) :
    s.step b broker keys (.next i msg true) =
      some (s.hand b keys i ⟨(keys i).map b.jobFilter, []⟩ msg true) := by
  have hany : ((keys i).map b.jobFilter).any
      (covers · (b.jobSubject msg.key msg.instanceID)) = true :=
    List.any_eq_true.2 ⟨_, List.mem_map_of_mem hkey, b.covers_jobFilter.2 rfl⟩
  show (s.consumers (b.durable (keys i))).bind _ = _
  rw [hc]
  exact if_pos ⟨hpull, hjob, List.not_mem_nil, hany⟩

/-- A job is published, and two fetchers start and are handed it. -/
def twice (i j : ι) (key : ProcessKey) : List (FetchAct ι β) :=
  [.publishJob key "x", .fetchJobs i, .fetchJobs j, .next i ⟨0, key, "x"⟩ true,
    .next j ⟨0, key, "x"⟩ true]

/-- Two fetchers that share a key and have different consumers both get a job for the key. -/
lemma exec_twice {key : ProcessKey} (hi : b.Accepts (keys i)) (hj : b.Accepts (keys j))
    (hki : key ∈ keys i) (hkj : key ∈ keys j) (hne : b.durable (keys i) ≠ b.durable (keys j)) :
    ∃ s, (machine b broker keys).exec (.empty ι) (twice i j key) = some s ∧ ¬ s.Exclusive := by
  let msg : Msg := ⟨0, key, "x"⟩
  let s₀ : Fetching ι := ⟨1, [msg], fun _ => none, [], []⟩
  let s₂ := (s₀.createOrUpdate b keys i).createOrUpdate b keys j
  let s₃ := s₂.hand b keys i ⟨(keys i).map b.jobFilter, []⟩ msg true
  have hpublish : (Fetching.empty ι).step b broker keys (.publishJob key "x") = some s₀ := by
    have hfilter := hi.2 key hki
    apply if_neg
    simp only [Naming.jobFilter, Naming.jobSubject, List.mem_cons, not_or] at hfilter ⊢
    tauto
  have hci : s₂.consumers (b.durable (keys i)) = some ⟨(keys i).map b.jobFilter, []⟩ := by
    simp [s₂, s₀, createOrUpdate, Function.update_of_ne hne]
  have hcj : s₃.consumers (b.durable (keys j)) = some ⟨(keys j).map b.jobFilter, []⟩ := by
    simp [s₃, s₂, s₀, hand, createOrUpdate, Function.update_of_ne hne.symm]
  have hi₃ : s₂.step b broker keys (.next i msg true) = some s₃ :=
    step_next broker hci (.tail _ (.head _)) (.head _) hki
  have hj₃ : s₃.step b broker keys (.next j msg true) = _ :=
    step_next broker hcj (.head _) (.head _) hkj
  refine ⟨s₃.hand b keys j ⟨(keys j).map b.jobFilter, []⟩ msg true, ?_, fun h => ?_⟩
  · simp only [twice, Machine.exec, machine, hpublish, step_fetchJobs broker hi hki,
      step_fetchJobs broker hj hkj, Option.bind_some]
    rw [hi₃, Option.bind_some, hj₃]
    rfl
  · exact hne (congrArg (fun k => b.durable (keys k)) (h i j msg (.tail _ (.head _)) (.head _)))

/-- Tokens end in a mark, and nothing is hashed. -/
def plainNaming : Naming where
  subjectPrefix := "blkit"
  encToken s := s.push '_'
  digest := id
  encToken_injective _ _ h := by simpa using h
  encToken_ne_wildcard s h := by
    have := congrArg String.toList h
    simp [List.append_eq_singleton_iff] at this

/-- One fetcher for a key, and one for this key and another. -/
def orderKeys : Bool → List ProcessKey
  | false => [⟨"shop", "order", "1"⟩]
  | true => [⟨"shop", "order", "1"⟩, ⟨"shop", "order", "2"⟩]

end Fetching

end

end Blkit.JetStream
