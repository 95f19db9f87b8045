import Blkit.Redis.Fields

/-!
# The hash and the stream of an instance

The flag that an instance is finished, all events that were ever appended to its stream, and
those that are still on it: which commands change them, and how.
-/

namespace Blkit

namespace Redis

open Broker Function

namespace Server

variable {B : Type}

/-- The flag in the metadata of an instance, if there is metadata. -/
def flag (s : Server B) (id : String) : Option Bool := (s.metas id).map Meta.finished

/-- The events that are on the stream of an instance. -/
def events (s : Server B) (id : String) : List (EventEntry B) :=
  ((s.insts id).map EventStream.entries).getD []

variable {s s' s'' : Server B} {id inst : String}

/-! ## The flag -/

lemma flag_setMeta {m : Meta} : (s.setMeta id m).flag id = some m.finished := by
  show (update s.metas id (some m) id).map Meta.finished = _
  rw [update_self]
  rfl

lemma flag_setMeta_ne {m : Meta} (h : inst ≠ id) : (s.setMeta inst m).flag id = s.flag id := by
  show (update s.metas inst (some m) id).map Meta.finished = _
  rw [update_of_ne (Ne.symm h)]
  rfl

/-- After `HSETNX` the flag is set. -/
lemma flag_hsetnxFinished : (s.hsetnxFinished id).2.flag id = some true := by
  rw [hsetnxFinished]
  split
  · exact flag_setMeta
  · rename_i m hm
    split
    · rename_i hf
      rw [flag, hm, Option.map_some, hf]
    · exact flag_setMeta

lemma hsetnxFinished_of_flag (h : s.flag id = some true) : s.hsetnxFinished id = (false, s) := by
  obtain ⟨m, hm, hf⟩ := Option.map_eq_some_iff.1 h
  rw [hsetnxFinished, hm]
  exact if_pos hf

/-- The call that sets the flag is told so. -/
lemma hsetnxFinished_of_not_flag (h : s.flag id ≠ some true) : (s.hsetnxFinished id).1 := by
  rw [hsetnxFinished]
  split
  · rfl
  · rename_i m hm
    split
    · rename_i hf
      refine absurd ?_ h
      rw [flag, hm, Option.map_some, hf]
    · rfl

lemma flag_hsetnxFinished_ne (h : inst ≠ id) : (s.hsetnxFinished inst).2.flag id = s.flag id := by
  rw [hsetnxFinished]
  split
  · exact flag_setMeta_ne h
  · split
    · rfl
    · exact flag_setMeta_ne h

lemma history_hsetnxFinished : (s.hsetnxFinished inst).2.history = s.history :=
  agree_hsetnxFinished (f := .history) rfl

/-! ## Events -/

section XaddInst

variable {kind : EventKind} {phase : Option ProcessStatus} {env : B} {trim : ℕ}

lemma history_xaddInst :
    (s.xaddInst id kind phase env trim).history id =
      s.history id ++ [⟨s.lastID + 1, kind, phase, env⟩] :=
  update_self ..

lemma events_xaddInst :
    (s.xaddInst id kind phase env trim).events id =
      (s.events id ++ [(⟨s.lastID + 1, kind, phase, env⟩ : EventEntry B)]).drop trim := by
  show ((update s.insts id _ id).map EventStream.entries).getD [] = _
  rw [update_self, events]
  cases s.insts id <;> rfl

lemma events_xaddInst_ne (h : inst ≠ id) : (s.xaddInst inst kind phase env trim).events id =
    s.events id := by
  show ((update s.insts inst _ id).map EventStream.entries).getD [] = _
  rw [update_of_ne (Ne.symm h)]
  rfl

lemma mayTrim_iff : s.MayTrim id trim ↔ trim = 0 ∨ trim + instStreamMaxLen ≤
    (s.events id).length + 1 := by
  rw [MayTrim, events]
  cases s.insts id <;> rfl

/-- The last events, if they are not too many, stay when one is appended. -/
lemma suffix_events_xaddInst {l : List (EventEntry B)} (htrim : s.MayTrim id trim)
    (hl : l <:+ s.events id)
    (hlen : l.length < instStreamMaxLen) :
    l ++ [⟨s.lastID + 1, kind, phase, env⟩] <:+ (s.xaddInst id kind phase env trim).events id := by
  rw [events_xaddInst]
  have hsuffix : l ++ [⟨s.lastID + 1, kind, phase, env⟩] <:+ s.events
      id ++ [⟨s.lastID + 1, kind, phase, env⟩] :=
    let ⟨t, ht⟩ := hl
    ⟨t, by rw [← ht, List.append_assoc]⟩
  rcases mayTrim_iff.1 htrim with rfl | hmax
  · exact hsuffix
  · refine List.suffix_of_suffix_length_le hsuffix (List.drop_suffix ..) ?_
    rw [List.length_append, List.length_drop, List.length_append, List.length_singleton]
    omega

end XaddInst

/-! ## What leaves an instance alone -/

/-- The same flag and events of an instance. -/
structure Same (id : String) (s s' : Server B) : Prop where
  flag : s'.flag id = s.flag id
  history : s'.history id = s.history id
  events : s'.events id = s.events id

lemma Same.refl : Same id s s := ⟨rfl, rfl, rfl⟩

lemma Same.trans (h : Same id s s') (h' : Same id s' s'') : Same id s s'' :=
  ⟨h'.flag.trans h.flag, h'.history.trans h.history, h'.events.trans h.events⟩

lemma Same.of_agree (hm : s.Agree s' .metas) (hh : s.Agree s' .history) (hi : s.Agree s' .insts) :
    Same id s s' :=
  ⟨congrArg (fun f => (f id).map Meta.finished) hm, congrFun hh id,
    congrArg (fun f => ((f id).map EventStream.entries).getD []) hi⟩

/-- Commands that change the flag or the events of an instance. -/
def Touches (id : String) : Cmd B → Prop
  | .hsetMeta inst _ _ | .hsetnxFinished inst | .expireMeta inst | .xaddInst inst _ _
      _ | .expireInst inst => inst = id
  | _ => False

/-- All others leave it alone. -/
lemma same_run {c : Cmd B} {ch : Choice} {r : c.Reply} (hc : ¬ Touches id c)
    (h : s.run c ch = some (s', r)) :
    Same id s s' := by
  cases c with
  | hsetMeta inst key corr =>
    cases h
    exact ⟨flag_setMeta_ne hc, rfl, rfl⟩
  | hsetnxFinished inst =>
    cases h
    have hi : s.Agree (s.hsetnxFinished inst).2 .insts := agree_hsetnxFinished rfl
    exact ⟨flag_hsetnxFinished_ne hc, congrFun history_hsetnxFinished id,
      congrArg (fun f => ((f id).map EventStream.entries).getD []) hi⟩
  | expireMeta inst =>
    obtain ⟨-, h⟩ := Option.ite_none_right_eq_some.1 h
    cases h
    refine ⟨?_, rfl, rfl⟩
    show (update s.metas inst none id).map Meta.finished = _
    rw [update_of_ne (Ne.symm hc)]
    rfl
  | xaddInst inst kind phase env =>
    obtain ⟨-, h⟩ := Option.ite_none_right_eq_some.1 h
    cases h
    exact ⟨rfl, update_of_ne (Ne.symm hc) .., events_xaddInst_ne hc⟩
  | expireInst inst =>
    obtain ⟨-, h⟩ := Option.ite_none_right_eq_some.1 h
    cases h
    refine ⟨rfl, rfl, ?_⟩
    show ((update s.insts inst none id).map EventStream.entries).getD [] = _
    rw [update_of_ne (Ne.symm hc)]
    rfl
  | pexpireMeta inst =>
    cases h
    refine ⟨?_, rfl, rfl⟩
    show (update s.metas inst _ id).map Meta.finished = _
    rw [update_apply]
    split
    · rename_i heq
      rw [heq, Option.map_map]
      rfl
    · rfl
  | pexpireInst inst =>
    cases h
    refine ⟨rfl, rfl, ?_⟩
    show ((update s.insts inst _ id).map EventStream.entries).getD [] = _
    rw [update_apply]
    split
    · rename_i heq
      rw [heq, Option.map_map]
      rfl
    · rfl
  | _ => exact .of_agree (agree_run rfl h) (agree_run rfl h) (agree_run rfl h)

end Server

end Redis

end Blkit
