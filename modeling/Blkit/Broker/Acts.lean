import Blkit.Broker.Message
import Blkit.Control.Prog

/-!
# What the calls of brokers over a server have in common

A call may be refused, or fail on the server or on an encoding.  What it checks is the same
for every server, so the commands are left open here.
-/

namespace Blkit

namespace Broker

open Prog

/-- Why a call returns an error. -/
inductive Failure where
  | refused (r : Refusal)
  | server
  | encode (msg : String)
  | corruptKey
deriving DecidableEq, Repr

variable {C : Type} {R : C → Type} {D : Type}

/-- Go on unless the call is refused. -/
def refuse (r : Option Refusal) : Try C R Failure Unit :=
  r.elim (pure ()) fun r => throw (.refused r)

def refuseUnless (b : Bool) (r : Refusal) : Try C R Failure Unit := check (.refused r) b

/-- The start event of the request, if its input passes. -/
def checkStart (validate : D → D → Except String Unit) (reg : ProcessRegistration D)
    (req : StartRequest D) :
    Try C R Failure Unit :=
  match reg.startEvents.find? fun start => start.id = req.startID with
  | none => throw (.refused .unknownStartID)
  | some start =>
    match start.inputContract.map fun contract => validate contract req.input with
    | some (.error msg) => throw (.refused (.contract msg))
    | _ => pure ()

/-! None of these issues a command. -/

variable {P : C → Prop}

lemma issues_refuse {r : Option Refusal} : Issues P (refuse r : Try C R Failure Unit) := by
  cases r with
  | none => exact issues_pure
  | some r => exact issues_throw

lemma issues_refuseUnless {b : Bool} {r : Refusal} :
    Issues P (refuseUnless b r : Try C R Failure Unit) :=
  issues_check

lemma issues_checkStart {validate : D → D → Except String Unit} {reg : ProcessRegistration D}
    {req : StartRequest D} :
    Issues P (checkStart validate reg req : Try C R Failure Unit) := by
  rw [checkStart]
  split
  · exact issues_throw
  · split
    · exact issues_throw
    · exact issues_pure

end Broker

end Blkit
