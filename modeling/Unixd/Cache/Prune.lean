import Mathlib.Data.Char
import Mathlib.Data.List.Lex
import Mathlib.Data.Nat.Basic
import Mathlib.Data.Prod.Lex
import Unixd.Cache.Entry

/-!
# Usage and prune

Counting the entry files, and removing the expired, the unused and then the oldest of them under
their keys' locks, which prune only ever tries.
-/

namespace Unixd.Cache

open Unixd.Lib

structure Usage where
  entries : ℕ
  bytes : ℕ
  deriving DecidableEq

def Usage.add (usage : Usage) (bytes : ℕ) : Usage :=
  ⟨usage.entries + 1, satAdd usage.bytes bytes⟩

def Usage.remove (usage : Usage) (bytes : ℕ) : Usage :=
  ⟨usage.entries - 1, usage.bytes - bytes⟩

/-- What a prune removed. -/
structure Prune where
  beforeEntries : ℕ
  beforeBytes : ℕ
  afterEntries : ℕ
  afterBytes : ℕ
  expiredRemoved : ℕ
  unusedRemoved : ℕ
  capacityRemoved : ℕ
  temporaryRemoved : ℕ
  locksRemoved : ℕ
  deriving DecidableEq

inductive Wait where
  | block
  | skip
  deriving DecidableEq

variable {V T : Type}

def usage : M V Usage := do
  ensureDir entries
  forDir entries ⟨0, 0⟩ fun usage name => do
    if entryDigest (entries ++ [name]) = none then
      return usage
    else
      match ← Sys.lstat (entries ++ [name]) with
      | .ok metadata => if metadata.kind = .file then return usage.add metadata.len else return usage
      | .error .notFound => return usage
      | .error e => throw (.io e)

/-- `prune.lock`'s modification time records the last prune, on the cache's clock. -/
def sweepDue (inner : Inner) : M V Bool := do
  match ← Sys.lstat pruneLock with
  | .ok metadata =>
    let now ← Sys.now
    return decide (millis inner.limits.sweepEvery < now - modifiedMs metadata)
  | .error _ => return false

def tryKey (digest : Name) : M V (Option Held) :=
  tryLockExclusive (lockPath digest)

/-- `p`, and then the drop of `held`. -/
def withHeld {α : Type} (held : Held) (p : M V α) : M V α :=
  after p held.drop

def removeUnheldLocks : M V ℕ := do
  ensureDir locks
  let removed ← forDir locks 0 fun removed name => do
    let path := locks ++ [name]
    match ← regular path with
    | none => return removed
    | some _ =>
      match ← tryLockExclusive path with
      | none => return removed
      | some held =>
        held.drop
        return removed + 1
  syncDir locks
  return removed

def valueKey : Bytes :=
  [0x2c, 0x22, 0x76, 0x61, 0x6c, 0x75, 0x65, 0x22, 0x3a]

/-- Where `window` first occurs in `bytes`. -/
def position (window : Bytes) : Bytes → Option ℕ
  | [] => if window = [] then some 0 else none
  | byte :: bytes =>
    if window <+: byte :: bytes then some 0 else (position window bytes).map (· + 1)

/-- Reads up to the `value` key and no further, and at most `limit` bytes. -/
def readHeader (codec : Codec T) (path : Path) (limit : ℕ) : M V (Option Header) := do
  match ← Sys.openRead path true with
  | .error _ => return none
  | .ok file =>
    closing file (Prog.iterate (fun read : Bytes => do
      if limit ≤ read.length then
        return .inr none
      else
        match ← Sys.read file (min 8192 (limit - read.length)) with
        | .error _ => return .inr none
        | .ok chunk =>
          if chunk = [] then
            return .inr none
          else
            let start := read.length - (valueKey.length - 1)
            let read := read ++ chunk
            match position valueKey (read.drop start) with
            | some at' => return .inr (codec.header (read.take (start + at') ++ [0x7d]))
            | none => return .inl read) [])

def live (codec : Codec T) (path : Path) (now limit : ℕ) : M V Bool := do
  match ← readHeader codec path limit with
  | none => return false
  | some header =>
    return header.consistent ∧ entryDigest path = some header.digest ∧ now ≤ header.staleUntilMs

/-- When an entry was last used, its digest and its size. -/
abbrev Kept := ℕ × Name × ℕ

/-- The order of the tuples. -/
def Kept.le (a b : Kept) : Bool :=
  decide (toLex (a.1, toLex (a.2.1, a.2.2)) ≤ toLex (b.1, toLex (b.2.1, b.2.2)))

/-- The running result of a prune, what is left, and what may still go. -/
structure Pass where
  outcome : Prune
  left : Usage
  kept : List Kept

def Pass.removeTemporary (pass : Pass) : Pass :=
  { pass with outcome.temporaryRemoved := pass.outcome.temporaryRemoved + 1 }

def Pass.removeExpired (pass : Pass) (size : ℕ) : Pass :=
  { pass with outcome.expiredRemoved := pass.outcome.expiredRemoved + 1, left := pass.left.remove size }

def Pass.removeUnused (pass : Pass) (size : ℕ) : Pass :=
  { pass with outcome.unusedRemoved := pass.outcome.unusedRemoved + 1, left := pass.left.remove size }

def Pass.removeOldest (pass : Pass) (size : ℕ) : Pass :=
  { pass with outcome.capacityRemoved := pass.outcome.capacityRemoved + 1, left := pass.left.remove size }

/-- One temporary file of the first pass. -/
def pruneTemporary (path : Path) (pass : Pass) : M V Pass := do
  match temporaryDigest path with
  | none =>
    remove path (.prune .temporary)
    return pass.removeTemporary
  | some digest =>
    match ← tryKey digest with
    | none => return pass
    | some held =>
      withHeld held do
        remove path (.prune .temporary)
        return pass.removeTemporary

/-- One entry of the first pass, under its key's lock. -/
def pruneEntry (codec : Codec T) (inner : Inner) (now : ℕ) (path : Path) (digest : Name) (pass : Pass) :
    M V Pass := do
  match ← regular path with
  | none => return pass
  | some metadata =>
    let usedMs := modifiedMs metadata
    if inner.limits.maxEntryBytes < metadata.len then
      remove path (.prune .expired)
      return pass.removeExpired metadata.len
    else if ¬(← live codec path now inner.limits.maxEntryBytes) then
      remove path (.prune .expired)
      return pass.removeExpired metadata.len
    else if millis inner.limits.unusedAfter < now - usedMs then
      remove path (.prune .unused)
      return pass.removeUnused metadata.len
    else
      return { pass with kept := pass.kept ++ [(usedMs, digest, metadata.len)] }

/-- One name of the first pass. -/
def pruneName (codec : Codec T) (inner : Inner) (now : ℕ) (pass : Pass) (name : Name) : M V Pass := do
  let path := entries ++ [name]
  if isTemporary path then
    pruneTemporary path pass
  else
    match entryDigest path with
    | none => return pass
    | some digest =>
      match ← tryKey digest with
      | none => return pass
      | some held => withHeld held (pruneEntry codec inner now path digest pass)

/-- The second pass: the least recently used entries, until both targets hold. -/
def pruneOldest (targetEntries targetBytes : ℕ) : List Kept → Pass → M V Pass
  | [], pass => return pass
  | (usedMs, digest, size) :: kept, pass => do
    if pass.left.entries ≤ targetEntries ∧ pass.left.bytes ≤ targetBytes then
      return pass
    else
      match ← tryKey digest with
      | none => pruneOldest targetEntries targetBytes kept pass
      | some held =>
        let pass ← withHeld held do
          match ← regular (entryPath digest) with
          | none => return pass
          | some metadata =>
            if modifiedMs metadata ≠ usedMs then
              return pass
            else
              remove (entryPath digest) (.prune .oldest)
              return pass.removeOldest size
        pruneOldest targetEntries targetBytes kept pass

/-- A prune that holds its locks. -/
def pruneLocked (codec : Codec T) (inner : Inner) (pruning : ℕ) : M V Prune := do
  ensureDir entries
  let locksRemoved ← removeUnheldLocks
  let before ← usage
  let now ← Sys.now
  let pass ← forDir entries
    ⟨⟨before.entries, before.bytes, 0, 0, 0, 0, 0, 0, locksRemoved⟩, before, []⟩
    (pruneName codec inner now)
  let limits := inner.limits
  let pass ← if limits.hardEntries < before.entries ∨ limits.hardBytes < before.bytes then
      pruneOldest (min limits.targetEntries limits.hardEntries) (min limits.targetBytes limits.hardBytes)
        (pass.kept.mergeSort Kept.le) pass
    else
      pure pass
  syncDir entries
  ofResult (← Sys.setModified pruning now)
  return { pass.outcome with afterEntries := pass.left.entries, afterBytes := pass.left.bytes }

def lockError : ErrorKind → Error
  | .wouldBlock => .lock
  | e => .io e

/-- Takes a lock of a prune, waiting or not. -/
def takeLock (file : ℕ) (mode : LockMode) : Wait → M V Unit
  | .block => do
    match ← Sys.flock file mode true with
    | .ok () => return ()
    | .error _ => throw .lock
  | .skip => do
    match ← Sys.flock file mode false with
    | .ok () => return ()
    | .error e => throw (lockError e)

/-- Holds the maintenance lock shared and `prune.lock`, so one prune runs at a time. -/
def prune (codec : Codec T) (inner : Inner) (wait : Wait) : M V Prune := do
  validateRoot
  let maintenance ← openLock maintenanceLock
  closing maintenance do
    let pruning ← openLock pruneLock
    closing pruning do
      takeLock maintenance .shared wait
      takeLock pruning .exclusive wait
      pruneLocked codec inner pruning

end Unixd.Cache
