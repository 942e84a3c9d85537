import Unixd.Cache.KeyLock

/-!
# The protocol of a cache root

What every agent keeps to, and the invariant that follows: a live `Held` is the only one of its
path, which names the inode that it locks; the entry and the temporary file of a key change only
under its lock; and an entry file holds what was last renamed into its place.
-/

namespace Unixd.Cache

open Unixd.Lib

/-- A path directly below a directory. -/
def ChildOf (dir path : Path) : Prop :=
  ∃ name, path = dir ++ [name]

/-- The temporary file of a store of `digest`. -/
def TemporaryOf (digest : Name) (path : Path) : Prop :=
  ∃ random, path = entries ++ [temporaryStart digest ++ random ++ temporarySuffix]

/-- A file in the entries directory that belongs to the key of `digest`. -/
def Covers (digest : Name) (path : Path) : Prop :=
  ChildOf entries path ∧
    (entryDigest path = some digest ∨ isTemporary path = true ∧ temporaryDigest path = some digest)

lemma ChildOf.length {dir path : Path} (h : ChildOf dir path) : path.length = dir.length + 1 := by
  obtain ⟨name, rfl⟩ := h
  simp

lemma childOf_entryPath (digest : Name) : ChildOf entries (entryPath digest) :=
  ⟨_, rfl⟩

lemma childOf_lockPath (digest : Name) : ChildOf locks (lockPath digest) :=
  ⟨_, rfl⟩

lemma ChildOf.not_locks {path : Path} (h : ChildOf entries path) : ¬ChildOf locks path := by
  obtain ⟨name, rfl⟩ := h
  rintro ⟨name', h⟩
  simp [entries, locks] at h

lemma TemporaryOf.child {digest : Name} {path : Path} (h : TemporaryOf digest path) : ChildOf entries path := by
  obtain ⟨random, rfl⟩ := h
  exact ⟨_, rfl⟩

lemma TemporaryOf.isTemporary {digest : Name} {path : Path} (h : TemporaryOf digest path) :
    isTemporary path = true := by
  obtain ⟨random, rfl⟩ := h
  have hsuffix : temporarySuffix <:+ temporaryStart digest ++ random ++ temporarySuffix :=
    List.suffix_append _ _
  simp [Cache.isTemporary, temporaryStart] at hsuffix ⊢
  exact hsuffix

lemma takeWhile_digest {digest rest : Name} (h : isDigest digest = true) :
    (digest ++ '.' :: rest).takeWhile (· ≠ '.') = digest := by
  rw [isDigest_iff] at h
  have hall : ∀ c ∈ digest, decide (c ≠ '.') = true := by
    intro c hc
    have hhex := h.2 c hc
    rw [decide_eq_true_eq]
    rintro rfl
    revert hhex
    decide
  rw [List.takeWhile_append_of_pos hall]
  simp

lemma TemporaryOf.temporaryDigest {digest : Name} {path : Path} (h : TemporaryOf digest path)
    (hd : isDigest digest = true) : temporaryDigest path = some digest := by
  obtain ⟨random, rfl⟩ := h
  rw [temporaryDigest_eq_some]
  refine ⟨digest ++ '.' :: (random ++ temporarySuffix), ?_, takeWhile_digest hd, hd⟩
  simp [temporaryStart]

lemma not_temporary_of_entryDigest {path : Path} {digest : Name} (hc : ChildOf entries path)
    (h : entryDigest path = some digest) : isTemporary path = false := by
  obtain ⟨name, rfl⟩ := hc
  obtain ⟨rfl, -⟩ := entryDigest_eq_some.mp h
  simp only [isTemporary, List.getLast?_append, List.getLast?_singleton, Option.some_or,
    decide_eq_false_iff_not, not_and]
  rintro - hsuffix
  have hlast : (digest ++ ".json".toList).getLast? = temporarySuffix.getLast? := by
    obtain ⟨start, hstart⟩ := hsuffix
    rw [← hstart, List.getLast?_append_of_ne_nil _ (by decide)]
  rw [List.getLast?_append_of_ne_nil _ (by decide)] at hlast
  revert hlast
  decide

/-- The path of a file that is only ever locked. -/
def Lockish (path : Path) : Prop :=
  path = maintenanceLock ∨ path = pruneLock ∨ ChildOf locks path

/-- What holds of all agents of one root beyond the protocol: which calls may fail for reasons of
their own, how the clock moves, which agents may set the time of use of an entry, and what the
entries held at the start. `permits` says what each agent may remove, put in place or note after a
journal, `sweeps` which note a prune or a clear ends that another one began, `born` when an entry says
that it was stored. Where `plain` holds no lock
file has a second name, where `ordered` holds agents take their locks in an order, where `once` holds
each takes one key lock, and where `tidy` holds the lock files were in order at the start. -/
structure Setting (A V : Type) where
  fails : Op V → Prop
  tick : ℕ → ℕ → Prop
  reader : A → Prop
  permits : List (Event A V) → A → What V → Prop
  sweeps : V → Option V
  born : Bytes → Option ℕ
  start : Name → Option (Kind × Bytes)
  plain : Prop
  ordered : Prop
  once : Prop
  tidy : Prop

/-- Some call may fail for a reason of its own. -/
def Setting.faults {A V : Type} (σ : Setting A V) : Prop :=
  ∃ op, σ.fails op

/-- Whether lock files can be accounted for. -/
def Setting.clean {A V : Type} (σ : Setting A V) : Prop :=
  (σ.plain ∧ σ.tidy) ∧ ¬σ.faults

/-- The clock never goes back. -/
def Setting.forward {A V : Type} (σ : Setting A V) : Prop :=
  ∀ {n m}, σ.tick n m → n ≤ m

/-- The events that a setting has a say in. -/
def What.Guarded {V : Type} : What V → Prop
  | .unlinked _ _ | .renamed _ _ _ | .noted _ _ => True
  | _ => False

/-- The time that an event was at, if it tells. -/
def What.time {V : Type} : What V → Option ℕ
  | .clock now | .noted _ now => some now
  | _ => none

namespace World

variable {A V : Type}

/-- `a` holds the maintenance lock shared. -/
def Shares (w : World A V) (a : A) : Prop :=
  ∃ f o, w.files a f = some o ∧ o.path = maintenanceLock ∧ o.lock = some .shared

/-- `a` holds the maintenance lock alone. -/
def Excludes (w : World A V) (a : A) : Prop :=
  ∃ f o, w.files a f = some o ∧ o.path = maintenanceLock ∧ o.lock = some .exclusive

/-- `a` holds `prune.lock`. -/
def Prunes (w : World A V) (a : A) : Prop :=
  ∃ f o, w.files a f = some o ∧ o.path = pruneLock ∧ o.lock = some .exclusive

/-- `a` has a live `Held` on `path`. -/
def Holds (w : World A V) (a : A) (path : Path) (by' : HeldBy) : Prop :=
  ∃ f o, w.files a f = some o ∧ o.path = path ∧ o.held = some by'

/-- `a` has dropped its key lock. -/
def Released (w : World A V) (a : A) : Prop :=
  ∃ e ∈ w.journal, e.agent = a ∧ ∃ path, e.what = .released path .key

/-- A directory of the user's own at `path`. -/
def OwnDir (w : World A V) (path : Path) : Prop :=
  ∃ i, w.names path = some i ∧ (w.nodes i).kind = .dir ∧ (w.nodes i).owned = true

/-- A process died after the first `n` events. -/
def DiedSince (w : World A V) (n : ℕ) : Prop :=
  ∃ e ∈ w.journal.drop n, e.what = .died

/-- Some agent has the file at `path` open and will see to it. -/
def Kept (w : World A V) (path : Path) (i : ℕ) : Prop :=
  ∃ a f o, w.files a f = some o ∧ o.path = path ∧ o.ino = i ∧ (o.lock ≠ none ∨ ¬w.DiedSince o.since)

/-- Every lock file is some agent's to see to. -/
def Clean (w : World A V) : Prop :=
  ∀ path i, ChildOf locks path → w.names path = some i → w.Kept path i

/-- Another open file has the lock on the file of `o`. -/
def Locked (w : World A V) (a : A) (f : ℕ) (o : Open) : Prop :=
  ∃ b g o', ¬(b = a ∧ g = f) ∧ w.files b g = some o' ∧ o'.path = o.path ∧ o'.ino = o.ino ∧ o'.lock ≠ none

/-- What `a` holds keeps its locks when the file `f` is closed. -/
def Backed (w : World A V) (a : A) (f : ℕ) : Prop :=
  ∀ g o by', w.files a g = some o → o.held = some by' →
    (∃ h m, h ≠ f ∧ w.files a h = some m ∧ m.path = maintenanceLock ∧ m.lock = some .shared) ∧
    (by' = .prune → ∃ h p, h ≠ f ∧ w.files a h = some p ∧ p.path = pruneLock ∧ p.lock = some .exclusive)

/-- `a` may wait for the lock at `path` with the locks that it has. -/
def MayWait (w : World A V) (a : A) (path : Path) (mode : LockMode) : Prop :=
  (∀ g o, w.files a g = some o → o.lock ≠ none → o.path ≠ pruneLock) ∧
  (path = maintenanceLock ∧ ((∀ g o, w.files a g = some o → o.lock = none) ∨ mode = .shared ∧ w.Shares a) ∨
    path = pruneLock ∧ w.Shares a ∨
    ChildOf locks path ∧ ∀ g o, w.files a g = some o → o.lock ≠ none → o.path = maintenanceLock ∧ o.lock = some .shared)

/-- What is at `path`, without its times and its mode. -/
def content (w : World A V) (path : Path) : Option (Kind × Bytes) :=
  (w.names path).map fun i => ((w.nodes i).kind, (w.nodes i).bytes)

/-- Who may take a name away. -/
def MayRemove (w : World A V) (a : A) (path : Path) : Why → Prop
  | .clear => w.Excludes a ∧ (ChildOf entries path ∨ ChildOf locks path)
  | .prune _ => w.Prunes a ∧ w.Shares a ∧
    ((∃ digest, Covers digest path ∧ w.Holds a (lockPath digest) .prune) ∨
      (ChildOf entries path ∧ isTemporary path = true ∧ temporaryDigest path = none) ∨
      (ChildOf locks path ∧ ∀ i, w.names path = some i → (w.nodes i).kind ≠ .file))
  | .discard => ∃ digest, isDigest digest = true ∧ path = entryPath digest ∧
    w.Holds a (lockPath digest) .key

end World

/-- What becomes of the entry of `digest`. -/
def What.change {V : Type} (digest : Name) (content : Option (Kind × Bytes)) :
    What V → Option (Kind × Bytes)
  | .renamed _ dst bytes => if dst = entryPath digest then some (.file, bytes) else content
  | .unlinked path _ => if path = entryPath digest then none else content
  | _ => content

/-- The entry of `digest` after `journal`. -/
def contents {A V : Type} (start : Name → Option (Kind × Bytes)) (journal : List (Event A V))
    (digest : Name) : Option (Kind × Bytes) :=
  journal.foldl (fun content e => e.what.change digest content) (start digest)

variable {A V : Type}

/-- What an agent may do. -/
def Allowed (σ : Setting A V) (a : A) : Op V → World A V → Prop
  | .openLock path, w => path = maintenanceLock ∨ path = pruneLock ∨
    (ChildOf locks path ∧ (σ.once → ¬w.Released a ∨ w.Prunes a))
  | .openRead path follow, w => (path = pruneLock ∨ path = entries ∨ path = locks ∨
      ∃ digest, isDigest digest = true ∧ path = entryPath digest) ∧
    (follow = true → ∀ i, w.names path = some i → (w.nodes i).kind ≠ .symlink)
  | .openDir path, _ => path = entries ∨ path = locks
  | .mkdir path, _ => path = entries ∨ path = locks
  | .flock f mode wait, w => ∀ o, w.files a f = some o → o.lock = none ∧
    (wait = true → σ.ordered → w.MayWait a o.path mode)
  | .close f, w => ∀ o, w.files a f = some o → o.held = none ∧ o.temp = none ∧
    ((o.path = maintenanceLock ∨ o.path = pruneLock) → o.lock ≠ none → w.Backed a f) ∧
    (σ.clean → ChildOf locks o.path →
      w.names o.path ≠ some o.ino ∨ o.lock = none ∧ (w.Locked a f o ∨ w.DiedSince o.since))
  | .hold f by', w => w.Shares a ∧ (by' = .prune → w.Prunes a) ∧
    (by' = .key → σ.once → ¬w.Released a ∧ ∀ g o, w.files a g = some o → o.held ≠ some .key) ∧
    ∀ o, w.files a f = some o → o.held = none ∧ o.lock = some .exclusive ∧ ChildOf locks o.path ∧
      w.names o.path = some o.ino
  | .release _, w => ∀ g o, w.files a g = some o → o.temp = none
  | .unlink path why, w => w.MayRemove a path why ∧ σ.permits w.journal a (.unlinked path why)
  | .removeTree path why, w => w.MayRemove a path why ∧ σ.permits w.journal a (.unlinked path why)
  | .tempfile dir start suffix, w => ∃ digest, isDigest digest = true ∧ dir = entries ∧
    start = temporaryStart digest ∧ suffix = temporarySuffix ∧ w.Holds a (lockPath digest) .key
  | .setModified f ms, w => ⟨a, .clock ms⟩ ∈ w.journal ∧
    ∀ o, w.files a f = some o → σ.reader a ∨ o.temp ≠ none ∨ o.path = pruneLock
  | .persist f dst, w => ∀ o, w.files a f = some o → o.lock = none ∧ o.held = none ∧
    ∃ written digest, o.temp = some written ∧ isDigest digest = true ∧ TemporaryOf digest o.path ∧
      dst = entryPath digest ∧ σ.permits w.journal a (.renamed o.path dst written) ∧
      (σ.forward → ∀ ms, σ.born written = some ms → millisecond ms ≤ (w.nodes o.ino).modified)
  | .note v, w => σ.permits w.journal a (.noted v w.clock) ∧
    (σ.clean → ∀ v₀ before now after, σ.sweeps v = some v₀ → w.journal = before ++ ⟨a, .noted v₀ now⟩ :: after →
      (∀ e ∈ after, e.what ≠ .died) → w.Clean)
  | _, _ => True

/-- What holds of one open file. -/
structure FileOk (w : World A V) (a : A) (f : ℕ) (o : Open) : Prop where
  flock : ∀ {b g o'}, w.files b g = some o' → o'.ino = o.ino → o.lock = some .exclusive → o'.lock ≠ none →
    b = a ∧ g = f
  pinned : (o.path = maintenanceLock ∨ o.path = pruneLock) → w.names o.path = some o.ino
  regular : ChildOf locks o.path → (w.nodes o.ino).kind = .file
  held : ∀ {by'}, o.held = some by' → o.lock = some .exclusive ∧ ChildOf locks o.path ∧
    w.names o.path = some o.ino ∧ w.Shares a ∧ (by' = .prune → w.Prunes a)
  temp : ∀ {written}, o.temp = some written → w.names o.path = some o.ino ∧
    (∀ q, w.names q = some o.ino → q = o.path) ∧ (w.nodes o.ino).kind = .file ∧ (w.nodes o.ino).bytes = written ∧
      (∀ b g o', w.files b g = some o' → o'.ino = o.ino → b = a ∧ g = f) ∧
      ∃ digest, isDigest digest = true ∧ TemporaryOf digest o.path ∧ w.Holds a (lockPath digest) .key

/-- What holds of the shared world at every moment. -/
structure Core (σ : Setting A V) (w : World A V) : Prop where
  file : ∀ {a f o}, w.files a f = some o → FileOk w a f o
  entriesDir : w.OwnDir entries
  content : ∀ {digest}, isDigest digest = true →
    w.content (entryPath digest) = contents σ.start w.journal digest
  said : ∀ {before e after}, w.journal = before ++ e :: after → e.what.Guarded →
    σ.permits before e.agent e.what
  clock : w.clock ≤ u64Max

/-- No lock file has a second name. -/
structure Single (w : World A V) : Prop where
  name : ∀ {path q i}, Lockish path → w.names path = some i → w.names q = some i → q = path
  file : ∀ {a f o}, w.files a f = some o → Lockish o.path →
    (∀ q, w.names q = some o.ino → q = o.path) ∧ ∀ b g o', w.files b g = some o' → o'.ino = o.ino → o'.path = o.path
  other : ∀ {a f o path}, w.files a f = some o → Lockish path → w.names path = some o.ino → o.path = path

/-- Each agent takes at most one key lock. -/
def Once (w : World A V) : Prop :=
  ∀ a f o, w.files a f = some o → o.held = some .key →
    ¬w.Released a ∧ ∀ g o', w.files a g = some o' → o'.held = some .key → g = f

/-- Lock files are regular files, and each one that came or went since the last death is seen to. -/
structure Tidy (σ : Setting A V) (w : World A V) : Prop where
  locksDir : w.OwnDir locks
  regular : ∀ {path i}, ChildOf locks path → w.names path = some i →
    (w.nodes i).kind = .file ∧ (w.nodes i).owned = true
  since : ∀ {a f o}, w.files a f = some o → ChildOf locks o.path → o.since ≤ w.journal.length
  kept : ∀ {path i before e after}, ChildOf locks path → w.names path = some i →
    w.journal = before ++ e :: after → e.what.Touches path → (∀ d ∈ after, d.what ≠ .died) → w.Kept path i
  swept : ∀ {a v v₀ before now middle now' after}, σ.sweeps v = some v₀ →
    w.journal = before ++ ⟨a, .noted v₀ now⟩ :: middle ++ ⟨a, .noted v now'⟩ :: after →
    (∀ e ∈ middle ++ after, e.what ≠ .died) → w.Clean

/-- The times in the journal follow each other. -/
structure Timely (w : World A V) : Prop where
  sorted : (w.journal.filterMap fun e => e.what.time).Pairwise (· ≤ ·)
  past : ∀ n ∈ w.journal.filterMap fun e => e.what.time, n ≤ w.clock

/-- The invariant, with the parts that a setting asks for. -/
structure Inv (σ : Setting A V) (w : World A V) : Prop extends Core σ w where
  single : σ.plain → Single w
  once : σ.once → Once w
  tidy : σ.clean → Tidy σ w
  timely : σ.forward → Timely w

end Unixd.Cache
