import Unixd.Cache.Prune

/-!
# The key lock and what runs under it

`lock`, the lookup and the store of its holder, the unlocked lookup and `clear`; and the
sessions that any number of threads in any number of processes run on one root.
-/

namespace Unixd.Cache

open Unixd.Lib

/-- The lock on one key, and the right to store it. -/
structure KeyLock where
  key : Key
  held : Held
  maintenance : ℕ

inductive Maintenance where
  | notNeeded
  | pruned (prune : Prune)
  | deferred (error : Error)

inductive Stored where
  | written (maintenance : Maintenance)
  | tooLarge (bytes : ℕ)

variable {V T : Type}

def lock (key : Key) : M V KeyLock := do
  validateRoot
  ensureDir locks
  let maintenance ← openLock maintenanceLock
  orClose maintenance do
    match ← Sys.flock maintenance .shared true with
    | .error _ => throw .lock
    | .ok () =>
      let held ← lockExclusive (lockPath key.digest)
      return ⟨key, held, maintenance⟩

/-- The fields drop in order: the key's lock before the maintenance lock. -/
def KeyLock.drop (lock : KeyLock) : M V Unit := do
  lock.held.drop
  Sys.close lock.maintenance

def KeyLock.lookup (codec : Codec T) (inner : Inner) (lock : KeyLock) : M V (Lookup T) :=
  read codec inner lock.key true

def lookup (codec : Codec T) (inner : Inner) (key : Key) : M V (Lookup T) :=
  read codec inner key false

/-- The maintenance that follows a write. -/
def maintain (codec : Codec T) (inner : Inner) : M V Maintenance := do
  match ← Prog.attempt usage with
  | .error e => return .deferred e
  | .ok usage =>
    let isOver := inner.limits.hardEntries < usage.entries ∨ inner.limits.hardBytes < usage.bytes
    let due ← if isOver then pure true else sweepDue inner
    if due then
      match ← Prog.attempt (prune codec inner .skip) with
      | .ok prune => return .pruned prune
      | .error e => return .deferred e
    else
      return .notNeeded

def KeyLock.store (codec : Codec T) (inner : Inner) (lock : KeyLock) (value : T) (policy : Policy) :
    M V Stored := do
  let written ← orElseDrop lock.drop do
    let now ← Sys.now
    match codec.encode (.at inner lock.key now value policy) with
    | none => throw .encode
    | some bytes =>
      if inner.limits.maxEntryBytes < bytes.length then
        return some bytes.length
      else
        writeAtomic lock.key.digest bytes
        return none
  lock.drop
  match written with
  | some size => return .tooLarge size
  | none => return .written (← maintain codec inner)

/-- Removes everything in the directory at `path`. -/
def clearDir (path : Path) : M V Unit := do
  ensureDir path
  forDir path () fun _ name => remove (path ++ [name]) .clear
  syncDir path

def clear : M V Unit := do
  validateRoot
  let maintenance ← openLock maintenanceLock
  closing maintenance do
    match ← Sys.flock maintenance .exclusive true with
    | .error _ => throw .lock
    | .ok () =>
      clearDir entries
      clearDir locks

end Unixd.Cache
