import Unixd.Cache.Private

/-!
# Entries

What an entry file holds and the two ways in: `lookup` reads one, `writeAtomic` replaces one. The
codec is a parameter here.
-/

namespace Unixd.Cache

open Unixd.Lib

/-- The layout version of entry files. -/
def format : ℕ := 1

/-- A namespace and the hex digest of its parts. -/
structure Key where
  space : Name
  digest : Name
  wf : isDigest digest = true

inductive Source where
  | callerDefault
  | cacheControl
  deriving DecidableEq

/-- How long a value is fresh and may then serve stale; durations are in nanoseconds. -/
structure Policy where
  fresh : ℕ
  staleIfError : ℕ
  source : Source

def millis (duration : ℕ) : ℕ :=
  min (duration / 1000000) u64Max

def modifiedMs (metadata : Metadata) : ℕ :=
  if metadata.modified < 0 then 0 else millis metadata.modified.toNat

structure Limits where
  maxEntryBytes : ℕ
  maxEntry : maxEntryBytes ≤ u64Max
  hardEntries : ℕ
  hardBytes : ℕ
  targetEntries : ℕ
  targetBytes : ℕ
  unusedAfter : ℕ
  sweepEvery : ℕ
  touchAfter : ℕ

/-- One open cache; the root and the clock are the world's. -/
structure Inner where
  schema : ℕ
  fits : schema < 2 ^ 32
  limits : Limits

/-- Everything in an entry but the value. -/
structure Header where
  format : ℕ
  schema : ℕ
  space : Name
  digest : Name
  storedAtMs : ℕ
  freshUntilMs : ℕ
  staleUntilMs : ℕ
  source : Source

structure Written (T : Type) where
  header : Header
  value : T

def Header.consistent (header : Header) : Bool :=
  header.format = Cache.format ∧ header.storedAtMs ≤ header.freshUntilMs ∧
    header.freshUntilMs ≤ header.staleUntilMs

/-- The JSON serializer and the two deserializers of an entry. -/
structure Codec (T : Type) where
  encode : Written T → Option Bytes
  header : Bytes → Option Header
  value : Bytes → Option T

structure Cached (T : Type) where
  value : T
  storedAtMs : ℕ
  ageMs : ℕ
  source : Source

inductive Lookup (T : Type) where
  | miss
  | fresh (cached : Cached T)
  | stale (cached : Cached T)

variable {V T : Type}

/-- What `KeyLock::store` serializes at clock time `now`. -/
def Written.at (inner : Inner) (key : Key) (now : ℕ) (value : T) (policy : Policy) : Written T :=
  let freshUntilMs := satAdd now (millis policy.fresh)
  ⟨⟨format, inner.schema, key.space, key.digest, now, freshUntilMs,
    satAdd freshUntilMs (millis policy.staleIfError), policy.source⟩, value⟩

/-- Removes the entry only under the key lock. -/
def discard (path : Path) (locked : Bool) : M V (Lookup T) := do
  if locked then
    let _ ← Prog.attempt (remove path .discard)
    return .miss
  else
    return .miss

def read (codec : Codec T) (inner : Inner) (key : Key) (locked : Bool) : M V (Lookup T) := do
  ensureDir entries
  let path := entryPath key.digest
  match ← readFile path inner.limits.maxEntryBytes with
  | none => discard path locked
  | some (bytes, metadata) =>
    match codec.header bytes with
    | none => discard path locked
    | some header =>
      if inner.schema < header.schema then
        return .miss
      else if ¬header.consistent ∨ header.digest ≠ key.digest ∨ header.space ≠ key.space then
        discard path locked
      else
        let now ← Sys.now
        if header.staleUntilMs < now then
          discard path locked
        else
          match codec.value bytes with
          | none => discard path locked
          | some value =>
            if millis inner.limits.touchAfter < now - modifiedMs metadata then
              let _ ← Prog.attempt (touch path now)
            let cached := ⟨value, header.storedAtMs, now - header.storedAtMs, header.source⟩
            if header.schema = inner.schema ∧ now ≤ header.freshUntilMs then
              return .fresh cached
            else
              return .stale cached

/-- `write_all`: writes until nothing is left. -/
def writeAll (file : ℕ) (bytes : Bytes) : M V Unit :=
  Prog.iterate (fun left : Bytes => do
    if left = [] then
      return .inr ()
    else
      let n ← ofResult (← Sys.write file left)
      return .inl (left.drop n)) bytes

def writeAtomic (digest : Name) (bytes : Bytes) : M V Unit := do
  ensureDir entries
  let file ← ofResult (← Sys.tempfile entries (temporaryStart digest) temporarySuffix)
  closing file do
    orElseDrop (Sys.dropTemp file) do
      writeAll file bytes
      let now ← Sys.now
      ofResult (← Sys.setModified file now)
      ofResult (← Sys.fsync file)
      ofResult (← Sys.persist file (entryPath digest))
  syncDir entries

end Unixd.Cache
