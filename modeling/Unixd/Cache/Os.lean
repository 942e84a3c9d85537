import Mathlib.Algebra.Order.BigOperators.Group.List
import Mathlib.Algebra.Order.Group.Nat
import Mathlib.Data.Int.Notation
import Mathlib.Logic.Function.Basic
import Mathlib.Tactic.Common
import Unixd.Lib.Rely

/-!
# The file system under a cache root

What the operating system does for one call: a name space of paths below the root, inodes,
and the open files of every agent with their `flock`s. A call is one atomic step. Where the
system is free (which inode is new, how much one write or read moves, what a directory stream
shows of names that change under it) the model is free too.
-/

namespace Unixd.Cache

open Unixd.Lib

def u64Max : ℕ := 2 ^ 64 - 1

abbrev Name := List Char

/-- A path below the root, which is `[]`. -/
abbrev Path := List Name

abbrev Bytes := List UInt8

inductive Kind where
  | file
  | dir
  | symlink
  | special
  deriving DecidableEq

/-- An inode. `modified` is in nanoseconds since the epoch. -/
structure Node where
  kind : Kind
  owned : Bool
  mode : ℕ
  bytes : Bytes
  modified : ℤ

structure Metadata where
  kind : Kind
  owned : Bool
  ino : ℕ
  len : ℕ
  modified : ℤ

def Node.metadata (node : Node) (ino : ℕ) : Metadata :=
  ⟨node.kind, node.owned, ino, node.bytes.length, node.modified⟩

inductive ErrorKind where
  | notFound
  | alreadyExists
  | wouldBlock
  | other (code : ℕ)
  deriving DecidableEq

inductive LockMode where
  | shared
  | exclusive
  deriving DecidableEq

/-- Who made a `Held`: a key lock or a prune. -/
inductive HeldBy where
  | key
  | prune
  deriving DecidableEq

/-- Why a prune removes a name. -/
inductive Reason where
  | temporary
  | irregular
  | expired
  | unused
  | oldest
  deriving DecidableEq

/-- Who removes a name; the system does not look at it. -/
inductive Why where
  | clear
  | prune (reason : Reason)
  | discard
  deriving DecidableEq

/-- An open file. `held` marks the file of a live `Held`, `temp` the bytes written so far to a
temporary file that still has its own name, `since` and `seen` are a directory stream's. -/
structure Open where
  path : Path
  ino : ℕ
  lock : Option LockMode
  held : Option HeldBy
  temp : Option Bytes
  pos : ℕ
  since : ℕ
  seen : List Name

/-- The calls, and the moments at which a `Held` begins and ends. -/
inductive Op (V : Type) where
  | lstat (path : Path)
  | fstat (f : ℕ)
  | openLock (path : Path)
  | openRead (path : Path) (follow : Bool)
  | openDir (path : Path)
  | chmod (path : Path) (mode : ℕ)
  | fchmod (f : ℕ) (mode : ℕ)
  | mkdir (path : Path)
  | flock (f : ℕ) (mode : LockMode) (wait : Bool)
  | close (f : ℕ)
  | hold (f : ℕ) (by' : HeldBy)
  | release (f : ℕ)
  | unlink (path : Path) (why : Why)
  | removeTree (path : Path) (why : Why)
  | tempfile (dir : Path) (start suffix : Name)
  | write (f : ℕ) (bytes : Bytes)
  | setModified (f : ℕ) (ms : ℕ)
  | fsync (f : ℕ)
  | persist (f : ℕ) (dst : Path)
  | dropTemp (f : ℕ)
  | next (f : ℕ)
  | read (f : ℕ) (size : ℕ)
  | now
  | note (v : V)

def Op.Ret {V : Type} : Op V → Type
  | .lstat _ | .fstat _ => Except ErrorKind Metadata
  | .openLock _ | .openRead _ _ | .openDir _ | .tempfile _ _ _ => Except ErrorKind ℕ
  | .chmod _ _ | .fchmod _ _ | .mkdir _ | .flock _ _ _ | .unlink _ _ | .removeTree _ _ => Except ErrorKind Unit
  | .setModified _ _ | .fsync _ | .persist _ _ => Except ErrorKind Unit
  | .close _ | .hold _ _ | .release _ | .dropTemp _ | .note _ => Unit
  | .write _ _ => Except ErrorKind ℕ
  | .next _ => Except ErrorKind (Option Name)
  | .read _ _ => Except ErrorKind Bytes
  | .now => ℕ

/-- A call that fails for a reason of its own, such as a full disk. -/
def Op.IsFault {V : Type} : (op : Op V) → op.Ret → Prop
  | .lstat _, r | .fstat _, r | .openLock _, r | .openRead _ _, r | .openDir _, r | .tempfile _ _ _, r
  | .chmod _ _, r | .fchmod _ _, r | .mkdir _, r | .flock _ _ _, r | .unlink _ _, r | .removeTree _ _, r
  | .setModified _ _, r | .fsync _, r | .persist _ _, r | .write _ _, r | .next _, r | .read _ _, r =>
    ∃ code, r = .error (.other code)
  | _, _ => False

/-- What happened to names and to agents, which calls failed for a reason of their own, and what agents read and
note. -/
inductive What (V : Type) where
  | linked (path : Path)
  | unlinked (path : Path) (why : Why)
  | renamed (src dst : Path) (bytes : Bytes)
  | released (path : Path) (by' : HeldBy)
  | dropped (path : Path)
  | failed (op : Op V)
  | clock (now : ℕ)
  | noted (v : V) (now : ℕ)
  | died

/-- Whether a name at `path` came or went. -/
def What.Touches {V : Type} (path : Path) : What V → Prop
  | .linked p | .unlinked p _ | .released p _ | .dropped p => p = path
  | .renamed src dst _ => src = path ∨ dst = path
  | .failed _ | .clock _ | .noted _ _ | .died => False

/-- Whether a name at `path` came. -/
def What.Links {V : Type} (path : Path) : What V → Prop
  | .linked p => p = path
  | .renamed _ dst _ => dst = path
  | _ => False

structure Event (A V : Type) where
  agent : A
  what : What V

/-- The shared world. Only finitely many names and inodes are in use and every agent has finitely
many open files, so a new one can always be had. -/
structure World (A V : Type) where
  names : Path → Option ℕ
  nodes : ℕ → Node
  files : A → ℕ → Option Open
  clock : ℕ
  journal : List (Event A V)
  inos : ∃ n, ∀ i, n ≤ i → (∀ p, names p ≠ some i) ∧ ∀ a f o, files a f = some o → o.ino ≠ i
  fds : ∀ a, ∃ n, ∀ f, n ≤ f → files a f = none
  paths : ∃ ps : List Path, ∀ p, names p ≠ none → p ∈ ps

namespace World

variable {A V : Type}

/-- An inode that no name and no open file uses. -/
def Free (w : World A V) (i : ℕ) : Prop :=
  (∀ p, w.names p ≠ some i) ∧ ∀ a f o, w.files a f = some o → o.ino ≠ i

lemma exists_free (w : World A V) : ∃ i, w.Free i := by
  obtain ⟨n, hn⟩ := w.inos
  exact ⟨n, hn n (Nat.le_refl n)⟩

lemma exists_fd (w : World A V) (a : A) : ∃ f, w.files a f = none := by
  obtain ⟨n, hn⟩ := w.fds a
  exact ⟨n, hn n (Nat.le_refl n)⟩

/-- A name of a temporary file that is not taken. -/
lemma exists_name (w : World A V) (dir : Path) (start suffix : Name) :
    ∃ random, w.names (dir ++ [start ++ random ++ suffix]) = none := by
  obtain ⟨ps, hps⟩ := w.paths
  let lengths := ps.map fun p => (p.getLast?.getD []).length
  refine ⟨List.replicate (lengths.sum + 1) 'a', ?_⟩
  by_contra hne
  have hmem := List.mem_map_of_mem (f := fun p : Path => (p.getLast?.getD []).length) (hps _ hne)
  have hle : _ ≤ lengths.sum := List.le_sum_of_mem hmem
  simp at hle
  omega

def setFile [DecidableEq A] (w : World A V) (a : A) (f : ℕ) (file : Option Open) : World A V where
  names := w.names
  nodes := w.nodes
  files := Function.update w.files a (Function.update (w.files a) f file)
  clock := w.clock
  journal := w.journal
  inos := by
    obtain ⟨n, hn⟩ := w.inos
    refine ⟨max n (file.elim 0 fun o => o.ino + 1), fun i hi => ⟨(hn i (by omega)).1, fun b g o ho => ?_⟩⟩
    by_cases hb : b = a
    · subst hb
      rw [Function.update_self] at ho
      by_cases hg : g = f
      · subst hg
        rw [Function.update_self] at ho
        simp only [ho, Option.elim] at hi
        omega
      · rw [Function.update_of_ne hg] at ho
        exact (hn i (by omega)).2 b g o ho
    · rw [Function.update_of_ne hb] at ho
      exact (hn i (by omega)).2 b g o ho
  fds b := by
    obtain ⟨n, hn⟩ := w.fds b
    refine ⟨max n (f + 1), fun g hg => ?_⟩
    by_cases hb : b = a
    · subst hb
      rw [Function.update_self, Function.update_of_ne (by omega)]
      exact hn g (by omega)
    · rw [Function.update_of_ne hb]
      exact hn g (by omega)
  paths := w.paths

def setName (w : World A V) (path : Path) (ino : Option ℕ) : World A V where
  names := Function.update w.names path ino
  nodes := w.nodes
  files := w.files
  clock := w.clock
  journal := w.journal
  inos := by
    obtain ⟨n, hn⟩ := w.inos
    refine ⟨max n (ino.elim 0 (· + 1)), fun i hi => ⟨fun p => ?_, (hn i (by omega)).2⟩⟩
    by_cases hp : p = path
    · subst hp
      rw [Function.update_self]
      rintro rfl
      simp only [Option.elim] at hi
      omega
    · rw [Function.update_of_ne hp]
      exact (hn i (by omega)).1 p
  fds := w.fds
  paths := by
    obtain ⟨ps, hps⟩ := w.paths
    refine ⟨path :: ps, fun p hp => ?_⟩
    by_cases heq : p = path
    · exact heq ▸ List.mem_cons_self
    · rw [Function.update_of_ne heq] at hp
      exact List.mem_cons_of_mem _ (hps p hp)

/-- Takes away `path` and all that is below it. -/
def dropTree (w : World A V) (path : Path) : World A V where
  names p := if path <+: p then none else w.names p
  nodes := w.nodes
  files := w.files
  clock := w.clock
  journal := w.journal
  inos := by
    obtain ⟨n, hn⟩ := w.inos
    refine ⟨n, fun i hi => ⟨fun p => ?_, (hn i hi).2⟩⟩
    split
    · simp
    · exact (hn i hi).1 p
  fds := w.fds
  paths := by
    obtain ⟨ps, hps⟩ := w.paths
    refine ⟨ps, fun p hp => ?_⟩
    split at hp
    · exact absurd rfl hp
    · exact hps p hp

def setNode (w : World A V) (ino : ℕ) (node : Node) : World A V :=
  { w with nodes := Function.update w.nodes ino node }

def log (w : World A V) (a : A) (what : What V) : World A V :=
  { w with journal := w.journal ++ [⟨a, what⟩] }

def setClock (w : World A V) (clock : ℕ) : World A V :=
  { w with clock := clock }

open Classical in
/-- The agents that die lose their open files, and with them their locks. -/
noncomputable def kill (dead : A → Prop) (w : World A V) : World A V where
  names := w.names
  nodes := w.nodes
  files a f := if dead a then none else w.files a f
  clock := w.clock
  journal := if h : ∃ a, dead a then w.journal ++ [⟨h.choose, .died⟩] else w.journal
  inos := by
    obtain ⟨n, hn⟩ := w.inos
    refine ⟨n, fun i hi => ⟨(hn i hi).1, fun a f o ho => ?_⟩⟩
    split at ho
    · cases ho
    · exact (hn i hi).2 a f o ho
  fds a := by
    obtain ⟨n, hn⟩ := w.fds a
    refine ⟨n, fun f hf => ?_⟩
    rw [hn f hf, ite_self]
  paths := w.paths

lemma journal_kill (dead : A → Prop) (w : World A V) :
    (∀ a, ¬dead a) ∧ (w.kill dead).journal = w.journal ∨
      ∃ a, dead a ∧ (w.kill dead).journal = w.journal ++ [⟨a, .died⟩] := by
  by_cases h : ∃ a, dead a
  · exact Or.inr ⟨h.choose, h.choose_spec, dif_pos h⟩
  · exact Or.inl ⟨fun a ha => h ⟨a, ha⟩, dif_neg h⟩

section

variable [DecidableEq A] (w : World A V) (a : A) (f : ℕ) (file : Option Open)

@[simp] lemma names_setFile : (w.setFile a f file).names = w.names := rfl
@[simp] lemma nodes_setFile : (w.setFile a f file).nodes = w.nodes := rfl
@[simp] lemma clock_setFile : (w.setFile a f file).clock = w.clock := rfl
@[simp] lemma journal_setFile : (w.setFile a f file).journal = w.journal := rfl

lemma files_setFile : (w.setFile a f file).files = Function.update w.files a (Function.update (w.files a) f file) :=
  rfl

@[simp] lemma files_setFile_self : (w.setFile a f file).files a = Function.update (w.files a) f file := by
  rw [files_setFile, Function.update_self]

lemma files_setFile_of_ne {b : A} (h : b ≠ a) : (w.setFile a f file).files b = w.files b := by
  rw [files_setFile, Function.update_of_ne h]

lemma files_setFile_eq_some {b : A} {g : ℕ} {o : Open} :
    (w.setFile a f file).files b g = some o ↔
      (b = a ∧ g = f) ∧ file = some o ∨ ¬(b = a ∧ g = f) ∧ w.files b g = some o := by
  by_cases hb : b = a
  · subst hb
    by_cases hg : g = f
    · subst hg
      simp
    · simp [hg]
  · simp [files_setFile_of_ne w a f file hb, hb]

lemma setFile_setFile (file' : Option Open) : (w.setFile a f file).setFile a f file' = w.setFile a f file' := by
  simp [setFile]

end

section

variable (w : World A V)

@[simp] lemma names_setName (p : Path) (i : Option ℕ) :
    (w.setName p i).names = Function.update w.names p i := rfl
@[simp] lemma nodes_setName (p : Path) (i : Option ℕ) : (w.setName p i).nodes = w.nodes := rfl
@[simp] lemma files_setName (p : Path) (i : Option ℕ) : (w.setName p i).files = w.files := rfl
@[simp] lemma clock_setName (p : Path) (i : Option ℕ) : (w.setName p i).clock = w.clock := rfl
@[simp] lemma journal_setName (p : Path) (i : Option ℕ) : (w.setName p i).journal = w.journal := rfl
@[simp] lemma nodes_dropTree (p : Path) : (w.dropTree p).nodes = w.nodes := rfl
@[simp] lemma files_dropTree (p : Path) : (w.dropTree p).files = w.files := rfl
@[simp] lemma clock_dropTree (p : Path) : (w.dropTree p).clock = w.clock := rfl
@[simp] lemma journal_dropTree (p : Path) : (w.dropTree p).journal = w.journal := rfl
@[simp] lemma names_setNode (i : ℕ) (node : Node) : (w.setNode i node).names = w.names := rfl
@[simp] lemma nodes_setNode (i : ℕ) (node : Node) :
    (w.setNode i node).nodes = Function.update w.nodes i node := rfl
@[simp] lemma files_setNode (i : ℕ) (node : Node) : (w.setNode i node).files = w.files := rfl
@[simp] lemma clock_setNode (i : ℕ) (node : Node) : (w.setNode i node).clock = w.clock := rfl
@[simp] lemma journal_setNode (i : ℕ) (node : Node) : (w.setNode i node).journal = w.journal := rfl
@[simp] lemma names_log (a : A) (what : What V) : (w.log a what).names = w.names := rfl
@[simp] lemma nodes_log (a : A) (what : What V) : (w.log a what).nodes = w.nodes := rfl
@[simp] lemma files_log (a : A) (what : What V) : (w.log a what).files = w.files := rfl
@[simp] lemma clock_log (a : A) (what : What V) : (w.log a what).clock = w.clock := rfl
@[simp] lemma journal_log (a : A) (what : What V) : (w.log a what).journal = w.journal ++ [⟨a, what⟩] := rfl

end

/-- What is at `path`, unfollowed. -/
def lstat (w : World A V) (path : Path) : Except ErrorKind Metadata :=
  match w.names path with
  | none => .error .notFound
  | some i => .ok ((w.nodes i).metadata i)

def IsDir (w : World A V) (path : Path) : Prop :=
  ∃ i, w.names path = some i ∧ (w.nodes i).kind = .dir

/-- Another open file of the inode has a lock that excludes `mode`. -/
def Conflict (w : World A V) (a : A) (f ino : ℕ) (mode : LockMode) : Prop :=
  ∃ b g o, ¬(b = a ∧ g = f) ∧ w.files b g = some o ∧ o.ino = ino ∧
    (o.lock = some .exclusive ∨ mode = .exclusive ∧ o.lock = some .shared)

/-- A name in the directory of the stream came or went since the stream was opened. -/
def Touched (w : World A V) (o : Open) (name : Name) : Prop :=
  ∃ e ∈ w.journal.drop o.since, e.what.Touches (o.path ++ [name])

def Linked (w : World A V) (o : Open) (name : Name) : Prop :=
  ∃ e ∈ w.journal.drop o.since, e.what.Links (o.path ++ [name])

end World

/-- A freshly opened file. -/
def Open.at (path : Path) (ino since : ℕ) : Open :=
  ⟨path, ino, none, none, none, 0, since, []⟩

/-- The open file of a `Held`. -/
def Open.holding (path : Path) (ino since : ℕ) (by' : HeldBy) : Open :=
  { Open.at path ino since with lock := some .exclusive, held := some by' }

/-- The open file of a lock that is not held yet. -/
def Open.locked (path : Path) (ino since : ℕ) : Open :=
  { Open.at path ino since with lock := some .exclusive }

/-- An open file with a lock. -/
def Open.withLock (path : Path) (ino since : ℕ) (mode : LockMode) : Open :=
  { Open.at path ino since with lock := some mode }

/-- An open file that was read up to `pos`. -/
def Open.reading (path : Path) (ino since pos : ℕ) : Open :=
  { Open.at path ino since with pos := pos }

/-- A temporary file with the bytes written so far. -/
def Open.temporary (path : Path) (ino since : ℕ) (written : Bytes) : Open :=
  { Open.at path ino since with temp := some written }

/-- The open file of a directory stream. -/
def Open.streaming (path : Path) (ino since : ℕ) (seen : List Name) : Open :=
  { Open.at path ino since with seen := seen }

def Node.empty (kind : Kind) (mode : ℕ) (modified : ℤ) : Node :=
  ⟨kind, true, mode, [], modified⟩

/-- The moment `ms` milliseconds after the epoch. -/
def millisecond (ms : ℕ) : ℤ :=
  ms * 1000000

open World in
/-- One call of agent `a`, where the calls of `faults` may fail. -/
inductive Sem {A V : Type} [DecidableEq A] (faults : Op V → Prop) (a : A) :
    (op : Op V) → World A V → op.Ret → World A V → Prop where
  | fault {op w r} (h : faults op) (hr : op.IsFault r) : Sem faults a op w r (w.log a (.failed op))
  | lstat {path w} : Sem faults a (.lstat path) w (w.lstat path) w
  | fstat {f o w} (h : w.files a f = some o) :
      Sem faults a (.fstat f) w (.ok ((w.nodes o.ino).metadata o.ino)) w
  | openLock {path i f w} (h : w.names path = some i) (kind : (w.nodes i).kind = .file)
      (new : w.files a f = none) :
      Sem faults a (.openLock path) w (.ok f) (w.setFile a f (some (.at path i w.journal.length)))
  | openLockOther {path i w code} (h : w.names path = some i) (kind : (w.nodes i).kind ≠ .file) :
      Sem faults a (.openLock path) w (.error (.other code)) w
  | openLockNoDir {path w} (h : w.names path = none) (dir : ¬w.IsDir path.dropLast) :
      Sem faults a (.openLock path) w (.error .notFound) w
  | createLock {path i f modified w} (h : w.names path = none) (dir : w.IsDir path.dropLast)
      (free : w.Free i) (new : w.files a f = none) :
      Sem faults a (.openLock path) w (.ok f)
        ((((w.setName path (some i)).setNode i (.empty .file 0o600 modified)).log a
          (.linked path)).setFile a f (some (.at path i (w.journal.length + 1))))
  | openRead {path follow i f w} (h : w.names path = some i) (kind : (w.nodes i).kind ≠ .symlink)
      (new : w.files a f = none) :
      Sem faults a (.openRead path follow) w (.ok f)
        (w.setFile a f (some (.at path i w.journal.length)))
  | openReadMissing {path follow w} (h : w.names path = none) :
      Sem faults a (.openRead path follow) w (.error .notFound) w
  | openReadOther {path follow i w code} (h : w.names path = some i)
      (kind : (w.nodes i).kind = .symlink ∨ (w.nodes i).kind = .special) :
      Sem faults a (.openRead path follow) w (.error (.other code)) w
  | followed {path i j f w} (h : w.names path = some i) (kind : (w.nodes i).kind = .symlink)
      (new : w.files a f = none) :
      Sem faults a (.openRead path true) w (.ok f)
        (w.setFile a f (some (.at path j w.journal.length)))
  | openDir {path i f w} (h : w.names path = some i) (kind : (w.nodes i).kind = .dir)
      (new : w.files a f = none) :
      Sem faults a (.openDir path) w (.ok f) (w.setFile a f (some (.at path i w.journal.length)))
  | openDirMissing {path w} (h : w.names path = none) :
      Sem faults a (.openDir path) w (.error .notFound) w
  | openDirOther {path i w code} (h : w.names path = some i) (kind : (w.nodes i).kind ≠ .dir) :
      Sem faults a (.openDir path) w (.error (.other code)) w
  | chmod {path mode i w} (h : w.names path = some i) :
      Sem faults a (.chmod path mode) w (.ok ()) (w.setNode i { w.nodes i with mode := mode })
  | chmodMissing {path mode w} (h : w.names path = none) :
      Sem faults a (.chmod path mode) w (.error .notFound) w
  | fchmod {f mode o w} (h : w.files a f = some o) :
      Sem faults a (.fchmod f mode) w (.ok ()) (w.setNode o.ino { w.nodes o.ino with mode := mode })
  | mkdir {path i modified w} (h : w.names path = none) (dir : w.IsDir path.dropLast) (free : w.Free i) :
      Sem faults a (.mkdir path) w (.ok ())
        (((w.setName path (some i)).setNode i (.empty .dir 0o755 modified)).log a (.linked path))
  | mkdirExists {path i w} (h : w.names path = some i) :
      Sem faults a (.mkdir path) w (.error .alreadyExists) w
  | mkdirNoDir {path w} (h : w.names path = none) (dir : ¬w.IsDir path.dropLast) :
      Sem faults a (.mkdir path) w (.error .notFound) w
  | flock {f mode wait o w} (h : w.files a f = some o) (free : ¬w.Conflict a f o.ino mode) :
      Sem faults a (.flock f mode wait) w (.ok ()) (w.setFile a f (some { o with lock := some mode }))
  | wouldBlock {f mode o w} (h : w.files a f = some o) (held : w.Conflict a f o.ino mode) :
      Sem faults a (.flock f mode false) w (.error .wouldBlock) w
  | close {f o w} (h : w.files a f = some o) : Sem faults a (.close f) w () (w.setFile a f none)
  | hold {f by' o w} (h : w.files a f = some o) :
      Sem faults a (.hold f by') w () (w.setFile a f (some { o with held := some by' }))
  | release {f o by' w} (h : w.files a f = some o) (held : o.held = some by') :
      Sem faults a (.release f) w ()
        (((w.setName o.path none).log a (.released o.path by')).setFile a f (some { o with held := none }))
  | releaseFails {f o by' w} (h : w.files a f = some o) (held : o.held = some by')
      (why : faults (.release f) ∨ w.IsDir o.path) :
      Sem faults a (.release f) w ()
        ((w.log a (.released o.path by')).setFile a f (some { o with held := none }))
  | unlink {path why i w} (h : w.names path = some i) (kind : (w.nodes i).kind ≠ .dir) :
      Sem faults a (.unlink path why) w (.ok ()) ((w.setName path none).log a (.unlinked path why))
  | unlinkMissing {path why w} (h : w.names path = none) :
      Sem faults a (.unlink path why) w (.error .notFound) w
  | unlinkDir {path why w code} (h : w.IsDir path) :
      Sem faults a (.unlink path why) w (.error (.other code)) w
  | removeTree {path why w} (h : w.IsDir path) :
      Sem faults a (.removeTree path why) w (.ok ()) ((w.dropTree path).log a (.unlinked path why))
  | removeTreeMissing {path why w} (h : w.names path = none) :
      Sem faults a (.removeTree path why) w (.error .notFound) w
  | removeTreeOther {path why i w code} (h : w.names path = some i) (kind : (w.nodes i).kind ≠ .dir) :
      Sem faults a (.removeTree path why) w (.error (.other code)) w
  | tempfile {dir start random suffix i f modified w} (h : w.names (dir ++ [start ++ random ++ suffix]) = none)
      (isDir : w.IsDir dir) (free : w.Free i) (new : w.files a f = none) :
      Sem faults a (.tempfile dir start suffix) w (.ok f)
        ((((w.setName (dir ++ [start ++ random ++ suffix]) (some i)).setNode i
          (.empty .file 0o600 modified)).log a (.linked (dir ++ [start ++ random ++ suffix]))).setFile a f
            (some { Open.at (dir ++ [start ++ random ++ suffix]) i (w.journal.length + 1) with
              temp := some [] }))
  | tempfileNoDir {dir start suffix w} (isDir : ¬w.IsDir dir) :
      Sem faults a (.tempfile dir start suffix) w (.error .notFound) w
  | write {f bytes n o written modified w} (h : w.files a f = some o) (temp : o.temp = some written)
      (le : n ≤ bytes.length) (pos : bytes ≠ [] → 0 < n) :
      Sem faults a (.write f bytes) w (.ok n)
        ((w.setNode o.ino { w.nodes o.ino with
            bytes := (w.nodes o.ino).bytes ++ bytes.take n, modified := modified }).setFile a f
          (some { o with temp := some (written ++ bytes.take n) }))
  | setModified {f ms o w} (h : w.files a f = some o) :
      Sem faults a (.setModified f ms) w (.ok ())
        (w.setNode o.ino { w.nodes o.ino with modified := millisecond ms })
  | fsync {f w} : Sem faults a (.fsync f) w (.ok ()) w
  | persist {f dst o i written w} (h : w.files a f = some o) (temp : o.temp = some written)
      (src : w.names o.path = some i) (file : ¬w.IsDir dst) :
      Sem faults a (.persist f dst) w (.ok ())
        ((((w.setName o.path none).setName dst (some i)).log a
          (.renamed o.path dst (w.nodes i).bytes)).setFile a f (some { o with path := dst, temp := none }))
  | persistMissing {f dst o w} (h : w.files a f = some o) (src : w.names o.path = none) :
      Sem faults a (.persist f dst) w (.error .notFound) w
  | persistOther {f dst w code} (file : w.IsDir dst) : Sem faults a (.persist f dst) w (.error (.other code)) w
  | dropTemp {f o written w} (h : w.files a f = some o) (temp : o.temp = some written) :
      Sem faults a (.dropTemp f) w ()
        (((w.setName o.path none).log a (.dropped o.path)).setFile a f (some { o with temp := none }))
  | dropTempFails {f o written w} (h : w.files a f = some o) (temp : o.temp = some written)
      (why : faults (.dropTemp f) ∨ w.IsDir o.path) :
      Sem faults a (.dropTemp f) w () (w.setFile a f (some { o with temp := none }))
  | next {f o name w} (h : w.files a f = some o)
      (shown : w.names (o.path ++ [name]) ≠ none ∨ w.Touched o name)
      (once : name ∈ o.seen → w.Linked o name) :
      Sem faults a (.next f) w (.ok (some name)) (w.setFile a f (some { o with seen := name :: o.seen }))
  | nextEnd {f o w} (h : w.files a f = some o)
      (all : ∀ name, w.names (o.path ++ [name]) ≠ none → ¬w.Touched o name → name ∈ o.seen) :
      Sem faults a (.next f) w (.ok none) w
  | read {f size n o w} (h : w.files a f = some o) (le : n ≤ size)
      (pos : n = 0 → size = 0 ∨ (w.nodes o.ino).bytes.length ≤ o.pos) :
      Sem faults a (.read f size) w (.ok (((w.nodes o.ino).bytes.drop o.pos).take n))
        (w.setFile a f (some { o with pos := o.pos + (((w.nodes o.ino).bytes.drop o.pos).take n).length }))
  | now {w} : Sem faults a .now w w.clock (w.log a (.clock w.clock))
  | note {v w} : Sem faults a (.note v) w () (w.log a (.noted v w.clock))

/-- The system, under a clock of 64 bits that moves as `tick` allows. -/
noncomputable def machine (A V : Type) [DecidableEq A] (faults : Op V → Prop) (tick : ℕ → ℕ → Prop) :
    Machine A (World A V) (Op V) Op.Ret where
  sem := Sem faults
  env w w' := ∃ clock, clock ≤ u64Max ∧ tick w.clock clock ∧ w' = w.setClock clock
  kill := World.kill

end Unixd.Cache
