import Unixd.Cache.Names

/-!
# Private directories, lock files and reads

The functions of `private.rs`. A Rust value that closes its file when it is dropped is a scope
here: `closing` drops it at the end, `orClose` only when the rest fails.
-/

namespace Unixd.Cache

open Unixd.Lib

inductive Error where
  | unsafeRoot
  | io (kind : ErrorKind)
  | lock
  | duplicateKeyPart (name : Name)
  | encode
  deriving DecidableEq

/-- Programs of the cache. -/
abbrev M (V : Type) := Prog Error (Op V) Op.Ret

def satAdd (a b : ℕ) : ℕ :=
  min (a + b) u64Max

variable {V α σ : Type}

namespace Sys

def lstat (path : Path) : M V (Except ErrorKind Metadata) := Prog.op (Op.lstat path)
def fstat (f : ℕ) : M V (Except ErrorKind Metadata) := Prog.op (Op.fstat f)
def openLock (path : Path) : M V (Except ErrorKind ℕ) := Prog.op (Op.openLock path)
def openRead (path : Path) (follow : Bool) : M V (Except ErrorKind ℕ) := Prog.op (Op.openRead path follow)
def openDir (path : Path) : M V (Except ErrorKind ℕ) := Prog.op (Op.openDir path)
def chmod (path : Path) (mode : ℕ) : M V (Except ErrorKind Unit) := Prog.op (Op.chmod path mode)
def fchmod (f mode : ℕ) : M V (Except ErrorKind Unit) := Prog.op (Op.fchmod f mode)
def mkdir (path : Path) : M V (Except ErrorKind Unit) := Prog.op (Op.mkdir path)
def flock (f : ℕ) (mode : LockMode) (wait : Bool) : M V (Except ErrorKind Unit) := Prog.op (Op.flock f mode wait)
def close (f : ℕ) : M V Unit := Prog.op (Op.close f)
def hold (f : ℕ) (by' : HeldBy) : M V Unit := Prog.op (Op.hold f by')
def release (f : ℕ) : M V Unit := Prog.op (Op.release f)
def unlink (path : Path) (why : Why) : M V (Except ErrorKind Unit) := Prog.op (Op.unlink path why)
def removeTree (path : Path) (why : Why) : M V (Except ErrorKind Unit) := Prog.op (Op.removeTree path why)
def tempfile (dir : Path) (start suffix : Name) : M V (Except ErrorKind ℕ) := Prog.op (Op.tempfile dir start suffix)
def write (f : ℕ) (bytes : Bytes) : M V (Except ErrorKind ℕ) := Prog.op (Op.write f bytes)
def setModified (f ms : ℕ) : M V (Except ErrorKind Unit) := Prog.op (Op.setModified f ms)
def fsync (f : ℕ) : M V (Except ErrorKind Unit) := Prog.op (Op.fsync f)
def persist (f : ℕ) (dst : Path) : M V (Except ErrorKind Unit) := Prog.op (Op.persist f dst)
def dropTemp (f : ℕ) : M V Unit := Prog.op (Op.dropTemp f)
def next (f : ℕ) : M V (Except ErrorKind (Option Name)) := Prog.op (Op.next f)
def read (f size : ℕ) : M V (Except ErrorKind Bytes) := Prog.op (Op.read f size)
def now : M V ℕ := Prog.op Op.now
def note (v : V) : M V Unit := Prog.op (Op.note v)

end Sys

/-- `?` on an I/O result. -/
def ofResult : Except ErrorKind α → M V α
  | .ok a => pure a
  | .error e => throw (.io e)

/-- What is dropped at the end of a scope, however it ends. -/
def after (p : M V α) (drop : M V Unit) : M V α :=
  p.handle fun r => do
    drop
    .ret r

def closing (f : ℕ) (p : M V α) : M V α :=
  after p (Sys.close f)

/-- What is dropped when the rest of a scope fails. -/
def orElseDrop (drop : M V Unit) (p : M V α) : M V α :=
  p.handle fun
    | .ok a => pure a
    | .error e => do
      drop
      throw e

def orClose (f : ℕ) (p : M V α) : M V α :=
  orElseDrop (Sys.close f) p

def setMode (path : Path) (mode : ℕ) : M V Unit := do
  ofResult (← Sys.chmod path mode)

def validateRoot : M V Unit := do
  match ← Sys.lstat root with
  | .error _ => throw .unsafeRoot
  | .ok metadata =>
    if metadata.kind ≠ .dir ∨ ¬metadata.owned then
      throw .unsafeRoot
    else
      setMode root 0o700

def ensureDir (path : Path) : M V Unit :=
  Prog.iterate (fun _ : Unit => do
    match ← Sys.lstat path with
    | .ok metadata =>
      if metadata.kind = .dir ∧ metadata.owned then
        setMode path 0o700
        return .inr ()
      else
        throw .unsafeRoot
    | .error .notFound =>
      match ← Sys.mkdir path with
      | .ok () =>
        setMode path 0o700
        return .inr ()
      | .error .alreadyExists => return .inl ()
      | .error e => throw (.io e)
    | .error e => throw (.io e)) ()

def openLock (path : Path) : M V ℕ := do
  match ← Sys.openLock path with
  | .ok file =>
    orClose file do
      let metadata ← ofResult (← Sys.fstat file)
      if metadata.kind ≠ .file ∨ ¬metadata.owned then
        throw .unsafeRoot
      else
        ofResult (← Sys.fchmod file 0o600)
        return file
  | .error e =>
    match ← Sys.lstat path with
    | .ok metadata => if metadata.kind ≠ .file then throw .unsafeRoot else throw (.io e)
    | .error _ => throw (.io e)

/-- An exclusive lock on a lock file. -/
structure Held where
  path : Path
  file : ℕ

def Held.drop (held : Held) : M V Unit := do
  Sys.release held.file
  Sys.close held.file

def names (path : Path) (file : ℕ) : M V Bool := do
  let held ← ofResult (← Sys.fstat file)
  match ← Sys.lstat path with
  | .ok named => return named.ino = held.ino
  | .error .notFound => return false
  | .error e => throw (.io e)

def lockExclusive (path : Path) : M V Held :=
  Prog.iterate (fun _ : Unit => do
    let file ← openLock path
    orClose file do
      match ← Sys.flock file .exclusive true with
      | .error _ => throw .lock
      | .ok () =>
        if ← names path file then
          Sys.hold file .key
          return .inr ⟨path, file⟩
        else
          Sys.close file
          return .inl ()) ()

def tryLockExclusive (path : Path) : M V (Option Held) := do
  let file ← openLock path
  orClose file do
    match ← Sys.flock file .exclusive false with
    | .error .wouldBlock =>
      Sys.close file
      return none
    | .error e => throw (.io e)
    | .ok () =>
      if ← names path file then
        Sys.hold file .prune
        return some ⟨path, file⟩
      else
        Sys.close file
        return none

/-- Removes whatever is at `path` without following a symlink. -/
def remove (path : Path) (why : Why) : M V Unit := do
  let result ← match ← Sys.lstat path with
    | .ok metadata => if metadata.kind = .dir then Sys.removeTree path why else Sys.unlink path why
    | .error e => pure (.error e)
  match result with
  | .ok () => return ()
  | .error .notFound => return ()
  | .error e => throw (.io e)

/-- Removes anything at `path` that is not a regular file. -/
def regular (path : Path) : M V (Option Metadata) := do
  match ← Sys.lstat path with
  | .ok metadata =>
    if metadata.kind = .file then
      return some metadata
    else
      remove path (.prune .irregular)
      return none
  | .error .notFound => return none
  | .error e => throw (.io e)

/-- At most `limit` bytes of an open file, in chunks of any size. -/
def readToEnd (file limit : ℕ) : M V Bytes :=
  Prog.iterate (fun bytes : Bytes => do
    if limit ≤ bytes.length then
      return .inr bytes
    else
      let chunk ← ofResult (← Sys.read file (limit - bytes.length))
      if chunk = [] then
        return .inr bytes
      else
        return .inl (bytes ++ chunk)) []

def readFile (path : Path) (limit : ℕ) : M V (Option (Bytes × Metadata)) := do
  match ← Sys.openRead path false with
  | .error .notFound => return none
  | .error e =>
    match ← Sys.lstat path with
    | .ok metadata => if metadata.kind ≠ .file then return none else throw (.io e)
    | .error .notFound => return none
    | .error _ => throw (.io e)
  | .ok file =>
    closing file do
      let metadata ← ofResult (← Sys.fstat file)
      if metadata.kind ≠ .file ∨ limit < metadata.len then
        return none
      else
        let bytes ← readToEnd file (satAdd limit 1)
        if limit < bytes.length then
          return none
        else
          return some (bytes, metadata)

/-- Sets the modification time of the regular file at `path`. -/
def touch (path : Path) (ms : ℕ) : M V Unit := do
  let file ← ofResult (← Sys.openRead path false)
  closing file do
    ofResult (← Sys.setModified file ms)

def syncDir (path : Path) : M V Unit := do
  let directory ← ofResult (← Sys.openRead path true)
  closing directory do
    ofResult (← Sys.fsync directory)

/-- `body` for each name that a stream of the directory at `path` shows. -/
def forDir (path : Path) (init : σ) (body : σ → Name → M V σ) : M V σ := do
  let dir ← ofResult (← Sys.openDir path)
  closing dir (Prog.iterate (fun s => do
    match ← ofResult (← Sys.next dir) with
    | none => return .inr s
    | some name => return .inl (← body s name)) init)

end Unixd.Cache
