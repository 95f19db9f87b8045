import Blkit.Broker.Registry
import Blkit.Data.Feed

/-!
# What a watcher makes of registry updates

A watcher keeps one registration for each worker and process key: snapshot and added set it,
removed and heartbeat-lost delete it.
-/

namespace Blkit

namespace Broker

variable {D : Type}

/-- `watchKey`: one worker's registration of one process version. -/
structure WatchKey where
  workerID : String
  key : ProcessKey
deriving DecidableEq, Repr

def ProcessRegistration.watchKey (reg : ProcessRegistration D) : WatchKey := ⟨reg.workerID, reg.key⟩

/-- What is registered, whenever that was. -/
def ProcessRegistration.contents (reg : ProcessRegistration D) : ProcessRegistration D :=
  { reg with registeredAt := 0, lastHeartbeat := 0 }

/-- What an update changes. -/
def RegistryUpdate.change : RegistryUpdate D → Option (Change WatchKey (ProcessRegistration D))
  | .snapshot reg | .added reg => some (.set reg.watchKey reg)
  | .removed reg | .heartbeatLost reg => some (.delete reg.watchKey)
  | .snapshotComplete => none

/-- What a watcher makes of the updates it has received. -/
def registryOf (us : List (RegistryUpdate D)) : WatchKey → Option (ProcessRegistration D) :=
  applyChanges (fun _ => none) (us.filterMap RegistryUpdate.change)

lemma registryOf_append {us vs : List (RegistryUpdate D)} :
    registryOf (us ++ vs) = applyChanges (registryOf us) (vs.filterMap RegistryUpdate.change) := by
  rw [registryOf, List.filterMap_append, applyChanges_append]
  rfl

end Broker

end Blkit
