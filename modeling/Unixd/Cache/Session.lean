import Unixd.Cache.Agents
import Unixd.Cache.Horizon

/-!
# Sessions

What a thread does with caches on one root: any operations in any order, each chosen after what the
ones before it answered, with any number of key locks at a time. Notes say when an operation began
and what it answered.
-/

namespace Unixd.Cache

open Unixd.Lib

set_option linter.unusedSectionVars false

variable {ι : Type} {T : ι → Type}

/-- The value types on one root are `T i`; a cache is open with a schema and limits. -/
inductive Session (ι : Type) (T : ι → Type) : Type where
  | done
  | lookup (i : ι) (inner : Inner) (key : Key) (next : Except Error (Lookup (T i)) → Session ι T)
  | lock (key : Key) (next : Except Error Unit → Session ι T)
  | lockedLookup (n : ℕ) (i : ι) (inner : Inner) (next : Except Error (Lookup (T i)) → Session ι T)
  | store (n : ℕ) (i : ι) (inner : Inner) (value : T i) (policy : Policy) (next : Except Error Stored → Session ι T)
  | drop (n : ℕ) (next : Session ι T)
  | prune (i : ι) (inner : Inner) (wait : Wait) (next : Except Error Prune → Session ι T)
  | clear (next : Except Error Unit → Session ι T)

/-- A note before an operation, or after it. A prune has a cache, and a clear needs none. -/
inductive Note (ι : Type) (T : ι → Type) where
  | began (cache : Option (ι × Inner))
  | swept (cache : Option (ι × Inner))
  | looking (i : ι) (inner : Inner) (key : Key) (locked : Bool)
  | looked (i : ι) (inner : Inner) (key : Key) (locked : Bool) (result : Except Error (Lookup (T i)))
  | storing (i : ι) (inner : Inner) (key : Key) (value : T i) (policy : Policy)

section

variable {V : Type}

/-- The key locks that are left at the end of a thread. -/
def dropAll : List KeyLock → M V Unit
  | [] => return ()
  | lock :: locks => do
    lock.drop
    dropAll locks

end

/-- A lookup between its notes. -/
def looking (i : ι) (inner : Inner) (key : Key) (locked : Bool) (p : M (Note ι T) (Lookup (T i))) :
    M (Note ι T) (Except Error (Lookup (T i))) := do
  Sys.note (.looking i inner key locked)
  let result ← Prog.attempt p
  Sys.note (.looked i inner key locked result)
  return result

/-- A prune or a clear between its notes. -/
def sweeping {α : Type} (cache : Option (ι × Inner)) (p : M (Note ι T) α) : M (Note ι T) (Except Error α) := do
  Sys.note (.began cache)
  match ← Prog.attempt p with
  | .ok x =>
    Sys.note (.swept cache)
    return .ok x
  | .error e => return .error e

/-- The program of a session that holds `locks`, the latest first. -/
def Session.run (codec : (i : ι) → Codec (T i)) : Session ι T → List KeyLock → M (Note ι T) Unit
  | .done, locks => dropAll locks
  | .lookup i inner key next, locks => do
    let result ← looking i inner key false (Cache.lookup (codec i) inner key)
    (next result).run codec locks
  | .lock key next, locks => do
    match ← Prog.attempt (Cache.lock key) with
    | .ok held => (next (.ok ())).run codec (held :: locks)
    | .error e => (next (.error e)).run codec locks
  | .lockedLookup n i inner next, locks =>
    match locks[n]? with
    | none => dropAll locks
    | some held => do
      let result ← looking i inner held.key true (held.lookup (codec i) inner)
      (next result).run codec locks
  | .store n i inner value policy next, locks =>
    match locks[n]? with
    | none => dropAll locks
    | some held => do
      Sys.note (.storing i inner held.key value policy)
      let result ← Prog.attempt (held.store (codec i) inner value policy)
      (next result).run codec (locks.eraseIdx n)
  | .drop n next, locks =>
    match locks[n]? with
    | none => dropAll locks
    | some held => do
      held.drop
      next.run codec (locks.eraseIdx n)
  | .prune i inner wait next, locks => do
    let result ← sweeping (some (i, inner)) (Cache.prune (codec i) inner wait)
    (next result).run codec locks
  | .clear next, locks => do
    let result ← sweeping none Cache.clear
    (next result).run codec locks

/-- In an `ordered` session a thread with a key lock takes no other one and does not clear; what it locks it
reads and stores as `may` says. -/
def Session.Follows (ordered : Prop) (may : ι → Inner → Key → Prop) : Session ι T → List Key → Prop
  | .done, _ => True
  | .lookup _ _ _ next, keys => ∀ r, (next r).Follows ordered may keys
  | .lock key next, keys => (ordered → keys = []) ∧ (∀ e, (next (.error e)).Follows ordered may keys) ∧
    (next (.ok ())).Follows ordered may (key :: keys)
  | .lockedLookup n i inner next, keys => (∀ key, keys[n]? = some key → may i inner key) ∧
    ∀ r, (next r).Follows ordered may keys
  | .store n i inner _ _ next, keys => (∀ key, keys[n]? = some key → may i inner key) ∧
    ∀ r, (next r).Follows ordered may (keys.eraseIdx n)
  | .drop n next, keys => next.Follows ordered may (keys.eraseIdx n)
  | .prune _ _ _ next, keys => ∀ r, (next r).Follows ordered may keys
  | .clear next, keys => (ordered → keys = []) ∧ ∀ r, (next r).Follows ordered may keys

section

variable {A V : Type}

/-- The last thing that `a` noted in `j` is `v`, at the time `t` after `pre`, and `P` holds of what followed. -/
def Since (j : List (Event A V)) (a : A) (pre : List (Event A V)) (v : V) (t : ℕ) (P : List (Event A V) → Prop) : Prop :=
  ∃ post, j = pre ++ ⟨a, .noted v t⟩ :: post ∧ (∀ e ∈ post, e.agent = a → ∀ v t, e.what ≠ .noted v t) ∧ P post

/-- `a` read the time `now` in `post`. -/
def Clocked (a : A) (now : ℕ) (post : List (Event A V)) : Prop :=
  ⟨a, .clock now⟩ ∈ post ∧ now ≤ u64Max

/-- `now` is the last time that `a` read in `post`. -/
def Latest (a : A) (now : ℕ) (post : List (Event A V)) : Prop :=
  ∃ seen rest, post = seen ++ ⟨a, .clock now⟩ :: rest ∧ (∀ e ∈ rest, e.agent = a → ∀ t, e.what ≠ .clock t) ∧ now ≤ u64Max

/-- `a` read the time `n` in `post`, or it is the time `t` of the note before. -/
def Read (a : A) (t n : ℕ) (post : List (Event A V)) : Prop :=
  n = t ∨ ⟨a, .clock n⟩ ∈ post

end

/-- What the threads on one root have in common. -/
structure Rules (A ι : Type) (T : ι → Type) where
  serde : (i : ι) → Serde (T i)
  fails : Op (Note ι T) → Prop
  tick : ℕ → ℕ → Prop
  start : Name → Option (Kind × Bytes)
  plain : Prop
  ordered : Prop
  tidy : Prop
  may : ι → Inner → Key → Prop

namespace Rules

variable {A : Type} (R : Rules A ι T)

def codec (i : ι) : Codec (T i) :=
  (R.serde i).codec

/-- What a lookup after `pre` may answer, with `post` since then: what the content of the entry at some moment of
the lookup is worth; under the key lock that is the content at its beginning. -/
def Answers (pre : List (Event A (Note ι T))) (a : A) (t : ℕ) (post : List (Event A (Note ι T))) (i : ι) (inner : Inner)
    (key : Key) (locked : Bool) : Except Error (Lookup (T i)) → Prop
  | .ok r => ∃ n seen, Read a t n post ∧ seen <+: post ∧ (locked = true → seen = []) ∧
    r = answer (R.codec i) inner key (contents R.start (pre ++ ⟨a, .noted (.looking i inner key locked) t⟩ :: seen) key.digest) n
  | .error _ => (∃ op, R.fails op) ∨ ∃ seen kind bytes, seen <+: post ∧ (locked = true → seen = []) ∧ kind ≠ .file ∧
    contents R.start (pre ++ ⟨a, .noted (.looking i inner key locked) t⟩ :: seen) key.digest = some (kind, bytes)

/-- Whether a prune by a cache, or the maintenance of its stores, may find this entry expired after `post`. -/
def Expires (i : ι) (inner : Inner) (digest : Name) (a : A) (post : List (Event A (Note ι T))) (now : ℕ)
    (content : Option (Kind × Bytes)) : Prop :=
  ∃ bytes, content = some (.file, bytes) ∧ (inner.limits.maxEntryBytes < bytes.length ∨
    ¬Live (R.codec i) digest now inner.limits.maxEntryBytes bytes ∨ Unread a post)

/-- What an agent may remove, put in place and note after the journal `j`. -/
def permits (j : List (Event A (Note ι T))) (a : A) : What (Note ι T) → Prop
  | .unlinked path .discard => ∃ pre t n i inner key, Since j a pre (.looking i inner key true) t (Read a t n) ∧
    R.may i inner key ∧ path = entryPath key.digest ∧ Discards (R.codec i) inner key (contents R.start j key.digest) n
  | .unlinked path (.prune .expired) => ∃ pre v t i inner digest now,
    (v = .began (some (i, inner)) ∨ ∃ key value policy, v = .storing i inner key value policy) ∧
    path = entryPath digest ∧ Since j a pre v t fun post => Latest a now post ∧
      R.Expires i inner digest a post now (contents R.start j digest)
  | .renamed _ dst bytes => ∃ pre t i inner key value policy now,
    Since j a pre (.storing i inner key value policy) t (Clocked a now) ∧ R.may i inner key ∧
    dst = entryPath key.digest ∧ (R.codec i).encode (.at inner key now value policy) = some bytes ∧
    bytes.length ≤ inner.limits.maxEntryBytes
  | .noted (.looked i inner key locked result) _ => ∃ pre t, (locked = true → R.may i inner key) ∧
    Since j a pre (.looking i inner key locked) t fun post => R.Answers pre a t post i inner key locked result
  | _ => True

def setting : Setting A (Note ι T) where
  fails := R.fails
  tick := R.tick
  reader _ := True
  permits := R.permits
  sweeps
    | .swept cache => some (.began cache)
    | _ => none
  born bytes := (headerOfBytes bytes).map Header.storedAtMs
  start := R.start
  plain := R.plain
  ordered := R.ordered
  once := False
  tidy := R.tidy

/-- Any number of threads begin their sessions on an open root, with nothing of theirs open yet. -/
structure Starts (s : Pool A (World A (Note ι T)) Error (Op (Note ι T)) Op.Ret Unit) : Prop where
  progs : ∀ a p, s.progs a = some p → ∃ session : Session ι T, session.Follows R.ordered R.may [] ∧
    p = session.run R.codec []
  files : ∀ a f, s.world.files a f = none
  journal : s.world.journal = []
  clock : s.world.clock ≤ u64Max
  entries : s.world.OwnDir entries
  content : ∀ digest, isDigest digest = true → s.world.content (entryPath digest) = R.start digest
  single : R.plain → ∀ path q i, Lockish path → s.world.names path = some i → s.world.names q = some i → q = path
  locks : R.setting.clean → s.world.OwnDir locks ∧ ∀ path i, ChildOf locks path → s.world.names path = some i →
    (s.world.nodes i).kind = .file ∧ (s.world.nodes i).owned = true

/-- All threads on one root, interleaved call by call and killed at any moment. -/
noncomputable def system [DecidableEq A] :
    System (Pool A (World A (Note ι T)) Error (Op (Note ι T)) Op.Ret Unit) (Pool.Label A) :=
  Pool.system (machine A (Note ι T) R.fails R.tick) R.Starts

end Rules

/-- The open files of an agent that holds `locks` and nothing else. -/
inductive Ledger.Locks : List KeyLock → Ledger → Prop where
  | nil : Locks [] fun _ => none
  | cons {locks : List KeyLock} {lock : KeyLock} {L L' : Ledger} (h : Locks locks L) (locked : L.Locked lock L') :
      Locks (lock :: locks) L'

section

variable {A V : Type} {σ : Setting A V} {L L' L₀ L₁ : Ledger} {lock lock' : KeyLock} {locks : List KeyLock}

lemma Ledger.Locked.below (h : L.Locked lock L') : L.Below L' := by
  obtain ⟨⟨-, hm, hf, hne⟩, i, since, j, since', rfl⟩ := h
  intro g o ho
  refine Ledger.below_update ((Function.update_of_ne hne _ _).trans hf) _ g o ?_
  exact Ledger.below_update hm _ g o ho

lemma Ledger.Locked.shares (h : L.Locked lock L') : L'.Shares := by
  obtain ⟨⟨-, hm, hf, hne⟩, i, since, j, since', rfl⟩ := h
  exact ⟨_, _, (Function.update_of_ne hne.symm _ _).trans (Function.update_self _ _ _), rfl, rfl⟩

/-- What holds of the files of `L` and of the two files of a key lock. -/
lemma Ledger.Locked.cases (h : L.Locked lock L') {P : Open → Prop} (hL : ∀ g o, L g = some o → P o)
    (hm : ∀ i since, P (.withLock maintenanceLock i since .shared))
    (hf : ∀ j since, P (.holding (lockPath lock.key.digest) j since .key)) : ∀ g o, L' g = some o → P o := by
  obtain ⟨-, i, since, j, since', rfl⟩ := h
  exact Ledger.update_cases (P := fun _ => P) (hf _ _) (Ledger.update_cases (hm _ _) hL)

lemma Ledger.Locks.ready (h : Ledger.Locks locks L) : L.Ready σ := by
  induction h with
  | nil =>
    exact ⟨fun _ _ _ h => (nomatch h), fun _ _ h => (nomatch h), fun _ => ⟨fun _ _ h => (nomatch h),
      Or.inl fun _ _ h => (nomatch h)⟩⟩
  | cons h locked ih =>
    refine ⟨fun g o by' => ?_, ?_, fun hσ => ⟨?_, Or.inr locked.shares⟩⟩
    · refine locked.cases (P := fun o => o.held = some by' → _) (fun g o ho hheld => ?_) ?_ ?_ g o
      · exact (ih.backed g o by' ho hheld).imp (fun _ => locked.shares) fun hp hk => (hp hk).below locked.below
      · exact fun _ _ h => by cases h
      · exact fun _ _ h => ⟨locked.shares, fun hk => by cases h; cases hk⟩
    · exact locked.cases ih.whole (fun _ _ => rfl) fun _ _ => rfl
    · refine locked.cases (P := fun o => o.lock ≠ none → o.path ≠ pruneLock) (ih.ordered hσ).1 ?_ ?_
      · exact fun _ _ _ => show maintenanceLock ≠ pruneLock by decide
      · exact fun _ _ _ => (childOf_lockPath _).ne (by decide)

lemma Ledger.Locks.none (h : Ledger.Locks [] L) (g : ℕ) : L g = Option.none := by
  cases h
  rfl

/-- Two key locks in either order. -/
lemma Ledger.Locked.swap (h : L.Locked lock L₀) (h' : L₀.Locked lock' L₁) :
    ∃ L', L.Locked lock' L' ∧ L'.Locked lock L₁ := by
  obtain ⟨⟨hpath, hm, hf, hne⟩, i, since, j, since', rfl⟩ := h
  obtain ⟨⟨hpath', hm', hf', hne'⟩, i₁, since₁, j₁, since₁', rfl⟩ := h'
  have hother : ∀ {g : ℕ}, Function.update (Function.update L lock.maintenance
      (some (Open.withLock maintenanceLock i since .shared))) lock.held.file
        (some (.holding (lockPath lock.key.digest) j since' .key)) g = none →
      g ≠ lock.maintenance ∧ g ≠ lock.held.file ∧ L g = none := by
    intro g hg
    have hgf : g ≠ lock.held.file := by
      rintro rfl
      simp at hg
    have hgm : g ≠ lock.maintenance := by
      rintro rfl
      simp [hgf] at hg
    exact ⟨hgm, hgf, by simpa [hgf, hgm] using hg⟩
  obtain ⟨hmm, hmf, hm'⟩ := hother hm'
  obtain ⟨hfm, hff, hf'⟩ := hother hf'
  refine ⟨_, ⟨⟨hpath', hm', hf', hne'⟩, i₁, since₁, j₁, since₁', rfl⟩, ⟨hpath, ?_, ?_, hne⟩, i, since, j, since', ?_⟩
  · simp [hmm.symm, hfm.symm, hm]
  · simp [hmf.symm, hff.symm, hf]
  · rw [Function.update_comm hmf.symm, Function.update_comm hmm.symm, Function.update_comm hff.symm,
      Function.update_comm hfm.symm]

lemma Ledger.Locks.take (h : Ledger.Locks locks L) {n : ℕ} (hn : locks[n]? = some lock) :
    ∃ L₀, Ledger.Locks (locks.eraseIdx n) L₀ ∧ L₀.Locked lock L := by
  induction h generalizing n with
  | nil => simp at hn
  | @cons locks lock' L L' h locked ih =>
    cases n with
    | zero =>
      obtain rfl : lock' = lock := by simpa using hn
      exact ⟨L, h, locked⟩
    | succ n =>
      obtain ⟨L₀, h₀, hlocked⟩ := ih (by simpa using hn)
      obtain ⟨L₁, h₁, h₁'⟩ := hlocked.swap locked
      exact ⟨L₁, .cons h₀ h₁, h₁'⟩

end

section

variable {A V : Type} {σ : Setting A V} {a : A} {L : Ledger} {F : World A V → Prop} {pre j : List (Event A V)} {v : V} {t n : ℕ}
  {P : List (Event A V) → Prop}

lemma Since.append (h : Since j a pre v t P) {e : Event A V} (he : ∀ v t, e ≠ ⟨a, .noted v t⟩)
    (hP : ∀ post, P post → P (post ++ [e])) : Since (j ++ [e]) a pre v t P := by
  obtain ⟨post, rfl, hnone, hpost⟩ := h
  refine ⟨post ++ [e], by simp, fun e' he' hagent v' t' hwhat => ?_, hP post hpost⟩
  rcases List.mem_append.mp he' with hmem | hmem
  · exact hnone e' hmem hagent v' t' hwhat
  · rw [List.mem_singleton] at hmem
    subst hmem
    exact he v' t' (by rw [← hagent, ← hwhat])

lemma Since.mono {P' : List (Event A V) → Prop} (h : Since j a pre v t P) (hP : ∀ post, P post → P' post) :
    Since j a pre v t P' := by
  obtain ⟨post, hj, hnone, hpost⟩ := h
  exact ⟨post, hj, hnone, hP post hpost⟩

lemma Since.noted : Since (pre ++ [⟨a, .noted v t⟩]) a pre v t (· = []) :=
  ⟨[], rfl, by simp, rfl⟩

lemma Read.append {post : List (Event A V)} (h : Read a t n post) (e : Event A V) : Read a t n (post ++ [e]) :=
  h.imp_right (List.mem_append_left _)

variable [DecidableEq A]

lemma lasting_since (hP : ∀ post e, (∀ now, e ≠ ⟨a, .clock now⟩) → P post → P (post ++ [e])) :
    Lasting σ a fun w => Since w.journal a pre v t P :=
  lasting_journal (J := fun j => Since j a pre v t P) fun _ _ he hc h => h.append he fun post => hP post _ hc

lemma Latest.append {now : ℕ} {post : List (Event A V)} (h : Latest a now post) {e : Event A V}
    (he : ∀ now, e ≠ ⟨a, .clock now⟩) : Latest a now (post ++ [e]) := by
  obtain ⟨seen, rest, rfl, hrest, hle⟩ := h
  refine ⟨seen, rest ++ [e], by simp, fun e' he' hagent t hwhat => ?_, hle⟩
  rcases List.mem_append.mp he' with hmem | hmem
  · exact hrest e' hmem hagent t hwhat
  · rw [List.mem_singleton] at hmem
    subst hmem
    exact he t (by rw [← hagent, ← hwhat])

lemma Latest.clocked {now : ℕ} {post : List (Event A V)} (h : Latest a now post) : Clocked a now post := by
  obtain ⟨seen, rest, rfl, -, hle⟩ := h
  exact ⟨by simp, hle⟩

/-- A look at the clock after a note. -/
lemma Since.read {w : World A V} (hi : Inv σ w) (h : Since w.journal a pre v t fun _ => True) :
    Since (w.log a (.clock w.clock)).journal a pre v t (Latest a w.clock) := by
  obtain ⟨post, hj, hnone, -⟩ := h
  refine ⟨post ++ [⟨a, .clock w.clock⟩], by simp [hj], fun e he => ?_, post, [], rfl, by simp, hi.clock⟩
  rcases List.mem_append.mp he with hmem | hmem
  · exact hnone e hmem
  · rw [List.mem_singleton] at hmem
    simp [hmem]

/-- What is known for good after a note, with the times that were read. -/
lemma knows_since {Q : ℕ → List (Event A V) → Prop} (hQ : ∀ now post e, (∀ t, e ≠ ⟨a, .clock t⟩) → Q now post → Q now (post ++ [e]))
    (hlatest : ∀ now post, Latest a now post → Q now post) (hclocked : ∀ now post, Q now post → Clocked a now post) :
    Knows σ a (fun w => Since w.journal a pre v t fun _ => True) fun now w => Since w.journal a pre v t (Q now) where
  lasting := lasting_since fun _ _ _ h => h
  later now := lasting_since fun post e he h => hQ now post e he h
  clock w hi h := (h.read hi).mono fun post => hlatest _ post
  known _ _ h := h.mono fun _ _ => trivial
  recent now w h := by
    obtain ⟨post, hj, -, hpost⟩ := h
    rw [hj]
    exact List.mem_append_right _ (List.mem_cons_of_mem _ (hclocked now post hpost).1)

lemma knows_clocked : Knows σ a (fun w => Since w.journal a pre v t fun _ => True)
    fun now w => Since w.journal a pre v t (Clocked a now) :=
  knows_since (fun _ _ _ _ h => ⟨List.mem_append_left _ h.1, h.2⟩) (fun _ _ h => h.clocked) fun _ _ h => h

lemma knows_latest : Knows σ a (fun w => Since w.journal a pre v t fun _ => True)
    fun now w => Since w.journal a pre v t (Latest a now) :=
  knows_since (fun _ _ _ he h => h.append he) (fun _ _ h => h) fun _ _ h => h.clocked

/-- What was read stays read. -/
lemma Since.reread {now : ℕ} {w : World A V} (hi : Inv σ w) (h : Since w.journal a pre v t (Clocked a now)) :
    Since (w.log a (.clock w.clock)).journal a pre v t (Clocked a now) :=
  h.append (fun _ _ h => by cases h) fun _ h => ⟨List.mem_append_left _ h.1, h.2⟩

lemma Since.length_le {w : World A V} (h : Since w.journal a pre v t P) : pre.length + 1 ≤ w.journal.length := by
  obtain ⟨post, hj, -⟩ := h
  simp [hj]

lemma safe_note (hF : Lasting σ a F) {v : V} {S : Unit → World A V → Prop} {X : Error → World A V → Prop}
    (hallowed : ∀ w, Inv σ w → Has a L F w → Allowed σ a (.note v) w)
    (hS : ∀ w, Inv σ w → Has a L F w → Inv σ (w.log a (.noted v w.clock)) → S () (w.log a (.noted v w.clock))) :
    Safely σ a (Has a L F) (Sys.note v) S X := by
  refine .op hF.calm.stable.step hallowed ?_
  intro w r w' hi h hi' hsem
  cases hsem with
  | fault hf hr => exact hr.elim
  | note => exact hS w hi h hi'

end

namespace Rules

variable {A : Type} [DecidableEq A] {R : Rules A ι T} {a : A} {L : Ledger} {i : ι} {inner : Inner} {key : Key}
  {pre : List (Event A (Note ι T))} {t : ℕ}

lemma looks_unlocked (L : Ledger) (pre : List (Event A (Note ι T))) (t : ℕ) :
    Looks ((protocol R.setting).whole a) L (R.codec i) inner key false
    (fun n w => Since w.journal a pre (.looking i inner key false) t (Read a t n)) (fun n w => Since w.journal a pre (.looking i inner key false) t (Read a t n))
    (fun n w => Since w.journal a pre (.looking i inner key false) t (Read a t n)) (fun view w => ∃ post seen,
      w.journal = pre ++ ⟨a, .noted (.looking i inner key false) t⟩ :: post ∧ seen <+: post ∧
        view.map Prod.snd = contents R.start (pre ++ ⟨a, .noted (.looking i inner key false) t⟩ :: seen) key.digest) := by
  have hsince : ∀ n, Lasting R.setting a fun w => Since w.journal a pre (.looking i inner key false) t (Read a t n) :=
    fun n => lasting_since fun _ e _ h => h.append e
  have hseen : ∀ view : Option (ℕ × Kind × Bytes), Lasting R.setting a fun w => ∃ post seen,
      w.journal = pre ++ ⟨a, .noted (.looking i inner key false) t⟩ :: post ∧ seen <+: post ∧
        view.map Prod.snd = contents R.start (pre ++ ⟨a, .noted (.looking i inner key false) t⟩ :: seen) key.digest := by
    refine fun view => lasting_journal (J := fun j => ∃ post seen, j = pre ++ ⟨a, .noted (.looking i inner key false) t⟩ :: post ∧ seen <+: post ∧
      view.map Prod.snd = contents R.start (pre ++ ⟨a, .noted (.looking i inner key false) t⟩ :: seen) key.digest) ?_
    rintro j e - - ⟨post, seen, rfl, hseen, hview⟩
    exact ⟨post ++ [e], seen, by simp, hseen.trans (List.prefix_append _ _), hview⟩
  refine ⟨fun n => (hsince n).calm, fun n => (hsince n).calm, fun n => ⟨fun view => (hseen view).calm, ?_⟩, ?_, ?_,
    fun h => h, (fun h => nomatch h), (fun h => nomatch h), ?_, trivial⟩
  · rintro w hi ⟨post, hj, -⟩
    refine ⟨post, post, hj, List.prefix_refl _, ?_⟩
    rw [World.map_view, hi.content key.wf, hj]
    rfl
  · intro n w hi h
    exact (Since.read hi (h.mono fun _ _ => trivial)).mono fun post hpost => Or.inr hpost.clocked.1
  · rintro view w ⟨post, seen, hj, hseen, hview⟩
    exact ⟨post ++ [⟨a, .clock w.clock⟩], seen, by simp [hj], hseen.trans (List.prefix_append _ _), hview⟩
  · intro n view _ _ _ w w' hi h hD _ hcall _ _
    exact ⟨(hsince n).own hi h hcall, (hseen view).own hi hD hcall⟩

lemma looks_locked (pre : List (Event A (Note ι T))) (t : ℕ) (hholds : L.Holds key.digest) (hmay : R.may i inner key) :
    Looks ((protocol R.setting).whole a) L (R.codec i) inner key true
      (fun n w => Since w.journal a pre (.looking i inner key true) t (Read a t n) ∧ contents R.start w.journal key.digest =
        contents R.start (pre ++ [⟨a, .noted (.looking i inner key true) t⟩]) key.digest)
      (fun n w => Since w.journal a pre (.looking i inner key true) t (Read a t n))
      (fun n w => Since w.journal a pre (.looking i inner key true) t (Read a t n) ∧ contents R.start w.journal key.digest =
        contents R.start (pre ++ [⟨a, .noted (.looking i inner key true) t⟩]) key.digest)
      (fun view _ => view.map Prod.snd = contents R.start (pre ++ [⟨a, .noted (.looking i inner key true) t⟩]) key.digest) := by
  have hsince : ∀ n, Lasting R.setting a fun w => Since w.journal a pre (.looking i inner key true) t (Read a t n) :=
    fun n => lasting_since fun _ e _ h => h.append e
  obtain ⟨f, o, ho, hpath, hheld⟩ := hholds
  have hcalm : ∀ n, Calm ((protocol R.setting).whole a) L fun w => Since w.journal a pre (.looking i inner key true) t (Read a t n) ∧
      contents R.start w.journal key.digest = contents R.start (pre ++ [⟨a, .noted (.looking i inner key true) t⟩]) key.digest :=
    fun n => (hsince n).calm.and (calm_contents (σ := R.setting) key.wf ho hpath (by simp [hheld]) _)
  refine ⟨hcalm, hcalm, fun n => ⟨fun view => calm_const _, ?_⟩, ?_, fun h => h, fun h => h.1, ?_, ?_, ?_, trivial⟩
  · intro w hi h
    rw [World.map_view, hi.content key.wf, ← h.2]
    rfl
  · intro n w hi h
    refine ⟨(Since.read hi (h.1.mono fun _ _ => trivial)).mono fun post hpost => Or.inr hpost.clocked.1, ?_⟩
    rw [← h.2, World.journal_log, contents_append]
    rfl
  · intro _ n view w hi h hD hdiscards
    refine ⟨⟨key.digest, key.wf, rfl, h.holds ⟨f, o, ho, hpath, hheld⟩⟩, pre, t, n, i, inner, key, h.2.1, hmay, rfl, ?_⟩
    rw [h.2.2, ← hD]
    exact hdiscards
  · exact fun _ n _ w w' hi h hD hcall _ => ⟨(hsince n).own hi h.2.1 hcall, hD⟩
  · rintro n view _ _ _ w w' hi h hD - hcall - rfl
    exact ⟨⟨(hsince n).own hi h.1 hcall, h.2⟩, hD⟩

lemma Answers.append {post : List (Event A (Note ι T))} {locked : Bool} {result : Except Error (Lookup (T i))}
    (h : R.Answers pre a t post i inner key locked result) (e : Event A (Note ι T)) :
    R.Answers pre a t (post ++ [e]) i inner key locked result := by
  rcases result with _ | r
  · refine h.imp id ?_
    rintro ⟨seen, kind, bytes, hseen, hrest⟩
    exact ⟨seen, kind, bytes, hseen.trans (List.prefix_append _ _), hrest⟩
  · obtain ⟨n, seen, hread, hseen, hrest⟩ := h
    exact ⟨n, seen, hread.append e, hseen.trans (List.prefix_append _ _), hrest⟩

lemma safe_looking {locked : Bool} (hlocked : locked = true → L.Holds key.digest ∧ R.may i inner key)
    {X : Error → World A (Note ι T) → Prop} :
    Safely R.setting a (Has a L fun _ => True) (looking i inner key locked (read (R.codec i) inner key locked))
      (fun _ => Has a L fun _ => True) X := by
  refine .bind (U := fun _ w => ∃ pre t, Has a L (fun w => Since w.journal a pre (Note.looking i inner key locked) t (· = [])) w) (safe_note
    (lasting_const True) (fun w _ _ => ⟨trivial, fun _ _ _ _ _ h => by cases h⟩) fun w _ h _ =>
      ⟨w.journal, w.clock, h.1, Since.noted⟩) fun _ => .of_exists fun pre => .of_exists fun t => ?_
  refine .bind (U := fun result w => Has a L (fun w => Since w.journal a pre (.looking i inner key locked) t fun post =>
    R.Answers pre a t post i inner key locked result) w) (.attempt ?_) fun result => ?_
  · cases locked with
    | false =>
      refine (runs_lookup (n := t) (looks_unlocked L pre t)).triple.mono ?_ ?_ ?_
      · exact fun w _ h => ⟨h.1, h.2.mono fun _ _ => Or.inl rfl⟩
      · rintro r w _ ⟨n, view, hr, ⟨post, seen, hj, hseen, hview⟩, hrest⟩
        have hsince : Has a L (fun w => Since w.journal a pre (.looking i inner key false) t (Read a t n)) w := by
          rcases hrest with ⟨-, h⟩ | ⟨-, h⟩ | ⟨-, h⟩
          · exact h
          · exact h
          · exact h
        refine ⟨hsince.1, ?_⟩
        obtain ⟨post', hj', hnone, hread⟩ := hsince.2
        obtain rfl : post = post' := by simpa using hj.symm.trans hj'
        exact ⟨post, hj, hnone, n, seen, hread, hseen, by simp, by rw [hr, hview]⟩
      · rintro e w _ ⟨n, hfiles, ⟨post, hj, hnone, hread⟩, hwhy⟩
        refine ⟨hfiles, post, hj, hnone, hwhy.imp id ?_⟩
        rintro ⟨_, kind, bytes, hkind, post', seen, hj', hseen, hview⟩
        obtain rfl : post' = post := by simpa using hj'.symm.trans hj
        exact ⟨seen, kind, bytes, hseen, by simp, hkind, hview.symm⟩
    | true =>
      obtain ⟨hholds, hmay⟩ := hlocked rfl
      refine (runs_lookup (n := t) (looks_locked pre t hholds hmay)).triple.mono ?_ ?_ ?_
      · rintro w _ ⟨hfiles, post, hj, hnone, rfl⟩
        exact ⟨hfiles, ⟨[], hj, hnone, Or.inl rfl⟩, by rw [hj]⟩
      · rintro r w _ ⟨n, view, hr, hview, hrest⟩
        have hsince : Has a L (fun w => Since w.journal a pre (.looking i inner key true) t (Read a t n)) w := by
          rcases hrest with ⟨-, h⟩ | ⟨-, h⟩ | ⟨-, h⟩
          · exact ⟨h.1, h.2.1⟩
          · exact h
          · exact ⟨h.1, h.2.1⟩
        obtain ⟨post, hj, hnone, hread⟩ := hsince.2
        exact ⟨hsince.1, post, hj, hnone, n, [], hread, List.nil_prefix, fun _ => rfl, by rw [hr, hview]⟩
      · rintro e w _ ⟨n, hfiles, ⟨⟨post, hj, hnone, hread⟩, -⟩, hwhy⟩
        refine ⟨hfiles, post, hj, hnone, hwhy.imp id ?_⟩
        rintro ⟨_, kind, bytes, hkind, hview⟩
        exact ⟨[], kind, bytes, List.nil_prefix, fun _ => rfl, hkind, hview.symm⟩
  · have hanswers : Lasting R.setting a fun w => Since w.journal a pre (.looking i inner key locked) t fun post =>
        R.Answers pre a t post i inner key locked result :=
      lasting_since fun post e _ h => h.append e
    refine .bind (U := fun _ => Has a L fun _ => True) (safe_note hanswers ?_ fun _ _ h _ => ⟨h.1, trivial⟩) fun _ =>
      .pure fun _ _ h => h
    exact fun w _ h => ⟨⟨pre, t, fun hl => (hlocked hl).2, h.2⟩, fun _ _ _ _ _ h => by cases h⟩

/-- What a prune may remove after the note before it. -/
lemma prunes_since {v : Note ι T} (hv : v = .began (some (i, inner)) ∨ ∃ key value policy, v = .storing i inner key value policy) :
    R.setting.Prunes a (R.codec i) inner (pre.length + 1) fun now w => Since w.journal a pre v t (Latest a now) where
  temporary _ _ := trivial
  irregular _ _ := trivial
  expired w digest now bytes _ hsince hcontent hwhy := by
    obtain ⟨post, hj, hnone, hlatest⟩ := hsince
    have hdrop : w.journal.drop (pre.length + 1) = post := by
      rw [hj, List.drop_append]
      simp
    rw [hdrop] at hwhy
    exact ⟨pre, v, t, i, inner, digest, now, hv, rfl, post, hj, hnone, hlatest, bytes, hcontent, hwhy⟩
  unused _ _ _ := trivial
  oldest _ _ _ := trivial

/-- Once all lock files are swept since the last note, none is left alone. -/
lemma clean_of_swept {w : World A (Note ι T)} {v v₀ : Note ι T} {now : ℕ} {before after : List (Event A (Note ι T))}
    (hswept : w.Swept R.setting (pre.length + 1)) (hsince : Since w.journal a pre v t fun _ => True) (hclean : R.setting.clean)
    (hj : w.journal = before ++ ⟨a, .noted v₀ now⟩ :: after) (halive : ∀ e ∈ after, e.what ≠ .died) : w.Clean := by
  obtain ⟨post, hpost, hnone, -⟩ := hsince
  have hle : before.length ≤ pre.length := by
    by_contra hlt
    have hget : post[before.length - pre.length - 1]? = some ⟨a, .noted v₀ now⟩ := by
      have h := congrArg (·[before.length]?) (hpost.symm.trans hj)
      simp only [List.getElem?_append_right (Nat.le_of_lt (Nat.not_le.mp hlt)), List.getElem?_append_right (Nat.le_refl _),
        Nat.sub_self, List.getElem?_cons_zero] at h
      rwa [List.getElem?_cons, if_neg (by omega)] at h
    exact hnone _ (List.mem_of_getElem? hget) rfl v₀ now rfl
  have halive' : ¬w.DiedSince (pre.length + 1) := by
    rintro ⟨e, he, hdied⟩
    refine halive e ?_ hdied
    have hdrop : w.journal.drop (before.length + 1) = after := by
      rw [hj, List.drop_append, List.drop_of_length_le (by omega)]
      simp
    rw [← hdrop]
    exact (List.drop_sublist_drop_left _ (by omega)).subset he
  exact fun path k hchild hname => (hswept path hchild).2 hclean halive' k hname

lemma safe_sweeping {α : Type} {cache : Option (ι × Inner)} {p : M (Note ι T) α} {X : Error → World A (Note ι T) → Prop}
    (hp : ∀ pre t, Safely R.setting a (Has a L fun w => Since w.journal a pre (.began cache) t fun _ => True) p
      (fun _ => Has a L fun w => (Since w.journal a pre (.began cache) t fun _ => True) ∧ w.Swept R.setting (pre.length + 1))
      fun _ => Has a L fun w => Since w.journal a pre (.began cache) t fun _ => True) :
    Safely R.setting a (Has a L fun _ => True) (sweeping cache p) (fun _ => Has a L fun _ => True) X := by
  refine .bind (U := fun _ w => ∃ pre t, Has a L (fun w => Since w.journal a pre (Note.began cache) t fun _ => True) w) (safe_note
    (lasting_const True) (fun w _ _ => ⟨trivial, fun _ _ _ _ _ h => by cases h⟩) fun w _ h _ =>
      ⟨w.journal, w.clock, h.1, Since.noted.mono fun _ _ => trivial⟩) fun _ => .of_exists fun pre => .of_exists fun t => ?_
  refine .bind (.attempt (T := fun (result : Except Error α) w => Has a L (fun w => (Since w.journal a pre (Note.began cache) t
    fun _ => True) ∧ (result.isOk = true → w.Swept R.setting (pre.length + 1))) w) ((hp pre t).mono (fun _ _ => id)
      (fun _ _ _ h => ⟨h.1, h.2.1, fun _ => h.2.2⟩) fun _ _ _ h => ⟨h.1, h.2, fun hok => by cases hok⟩)) ?_
  rintro (e | x)
  · exact .pure fun _ _ h => ⟨h.1, trivial⟩
  · have hdone : Lasting R.setting a fun w => (Since w.journal a pre (.began cache) t fun _ => True) ∧
        w.Swept R.setting (pre.length + 1) := (lasting_since fun _ _ _ h => h).and lasting_swept
    refine .bind (U := fun _ => Has a L fun _ => True) (.pre (safe_note (L := L) (S := fun _ => Has a L fun _ => True) hdone ?_
      fun _ _ h _ => ⟨h.1, trivial⟩) fun _ _ h => ⟨h.1, h.2.1, h.2.2 rfl⟩) fun _ => .pure fun _ _ h => h
    refine fun w _ h => ⟨trivial, fun hclean v₀ before now after hv hj halive => ?_⟩
    cases hv
    exact clean_of_swept h.2.2 h.2.1 hclean hj halive

lemma safe_dropAll {locks : List KeyLock} (h : Ledger.Locks locks L) {X : Error → World A (Note ι T) → Prop} :
    Safely R.setting a (Has a L fun _ => True) (dropAll locks) (fun _ _ => True) X := by
  induction h with
  | nil => exact .pure fun _ _ _ => trivial
  | cons h locked ih =>
    have hready := h.ready (σ := R.setting)
    exact .bind (safe_dropLock (lasting_const True) hready.backed hready.whole locked) fun _ => ih

/-- Every operation of a session does what is allowed. -/
theorem safe_session {session : Session ι T} {locks : List KeyLock} (hL : Ledger.Locks locks L)
    (h : session.Follows R.ordered R.may (locks.map KeyLock.key)) :
    Safely R.setting a (Has a L fun _ => True) (session.run R.codec locks) (fun _ _ => True) fun _ _ => True := by
  induction session generalizing locks L with
  | done => exact safe_dropAll hL
  | lookup i inner key next ih => exact .bind (safe_looking (by simp)) fun r => ih r hL (h r)
  | lock key next ih =>
    unfold Session.run
    refine .bind (.attempt (T := Upshot
      (fun held w => held.key = key ∧ ∃ L', L.Locked held L' ∧ Has a L' (fun _ => True) w)
      (fun _ w => Has a L (fun _ => True) w)) (safe_lock (σ := R.setting) (lasting_const True)
        (hL.ready (σ := R.setting)).backed (fun hf => False.elim hf) ?_ key)) ?_
    · intro hσ g o ho
      have hnil : locks = [] := List.map_eq_nil_iff.mp (h.1 hσ)
      subst hnil
      rw [hL.none] at ho
      cases ho
    · rintro (e | held)
      · exact ih _ hL (h.2.1 e)
      · refine .imp fun hkey => .of_exists fun L' => .imp fun hlocked => ih _ (.cons hL hlocked) ?_
        rw [List.map_cons, hkey]
        exact h.2.2
  | lockedLookup n i inner next ih =>
    unfold Session.run
    cases hn : locks[n]? with
    | none => exact safe_dropAll hL
    | some held =>
      obtain ⟨L₀, -, hlocked⟩ := hL.take hn
      exact .bind (safe_looking fun _ => ⟨hlocked.holds, h.1 held.key (by simp [hn])⟩) fun r => ih r hL (h.2 r)
  | store n i inner value policy next ih =>
    unfold Session.run
    cases hn : locks[n]? with
    | none => exact safe_dropAll hL
    | some held =>
      obtain ⟨L₀, hL₀, hlocked⟩ := hL.take hn
      refine .bind (U := fun _ w => ∃ pre t, Has a L (fun w => Since w.journal a pre (Note.storing i inner held.key value policy) t
        fun _ => True) w) (safe_note (lasting_const True) (fun w _ _ => ⟨trivial, fun _ _ _ _ _ h => by cases h⟩) fun w _ hw _ =>
          ⟨w.journal, w.clock, hw.1, Since.noted.mono fun _ _ => trivial⟩) fun _ => .of_exists fun pre => .of_exists fun t => ?_
      refine .bind (U := fun _ => Has a L₀ fun _ => True) (.attempt ((safe_store knows_clocked (fun _ _ hi hw => hw.reread hi)
        knows_latest hL₀.ready (prunes_since (Or.inr ⟨held.key, value, policy, rfl⟩)) (fun _ hw => hw.length_le) hlocked ?_
          ?_).mono (fun _ _ => id) (fun _ _ _ hw => ⟨hw.1, trivial⟩) fun _ _ _ hw => ⟨hw.1, trivial⟩)) fun r => ih r hL₀ ?_
      · rintro now bytes w s hencode ⟨post, -, -, -, hle⟩ hs
        have hheader := Serde.header_encode hencode (fits_at hle)
        have hborn : R.setting.born bytes = some now := congrArg (Option.map Header.storedAtMs) hheader
        rw [hborn, Option.some_inj] at hs
        exact hs.symm
      · exact fun now bytes w path hencode hle _ hw => ⟨pre, t, i, inner, held.key, value, policy, now, hw,
          h.1 held.key (by simp [hn]), rfl, hencode, hle⟩
      · rw [← List.eraseIdx_map]
        exact h.2 r
  | drop n next ih =>
    unfold Session.run
    cases hn : locks[n]? with
    | none => exact safe_dropAll hL
    | some held =>
      obtain ⟨L₀, hL₀, hlocked⟩ := hL.take hn
      refine .bind (safe_dropLock (lasting_const True) (hL₀.ready (σ := R.setting)).backed (hL₀.ready (σ := R.setting)).whole
        hlocked) fun _ => ih hL₀ ?_
      rw [← List.eraseIdx_map]
      exact h
  | prune i inner wait next ih =>
    refine .bind (safe_sweeping fun pre t => ?_) fun r => ih r hL (h r)
    exact safe_prune knows_latest hL.ready (prunes_since (Or.inl rfl)) (fun w hw => hw.length_le) wait
  | clear next ih =>
    refine .bind (safe_sweeping fun pre t => ?_) fun r => ih r hL (h.2 r)
    refine safe_clear (lasting_since fun _ _ _ h => h) (hL.ready (σ := R.setting)).backed (fun _ _ => trivial) ?_ ?_
    · intro hσ g o ho
      have hnil : locks = [] := List.map_eq_nil_iff.mp (h.1 hσ)
      subst hnil
      rw [hL.none] at ho
      cases ho
    · rintro w ⟨post, hj, -⟩
      simp [hj]

variable {s : Pool A (World A (Note ι T)) Error (Op (Note ι T)) Op.Ret Unit}

lemma Starts.inv (h : R.Starts s) : Inv R.setting s.world := by
  have hnil : ∀ {before after : List (Event A (Note ι T))} {e}, s.world.journal ≠ before ++ e :: after := by
    intro before after e hj
    simp [h.journal] at hj
  have hfiles : ∀ {a f o}, s.world.files a f ≠ some o := by
    intro a f o ho
    simp [h.files] at ho
  refine ⟨⟨fun ho => absurd ho hfiles, h.entries, ?_, fun hj => absurd hj hnil, h.clock⟩, fun hp => ⟨?_, fun ho => absurd ho hfiles,
    fun ho => absurd ho hfiles⟩, fun hf => False.elim hf, fun hclean => ?_, fun _ => ?_⟩
  · intro digest hd
    rw [h.content digest hd, h.journal]
    rfl
  · exact fun hlock hpath hq => h.single hp _ _ _ hlock hpath hq
  · obtain ⟨hdir, hregular⟩ := h.locks hclean
    refine ⟨hdir, fun hchild hname => hregular _ _ hchild hname, fun ho => absurd ho hfiles, fun _ _ hj => absurd hj hnil, ?_⟩
    intro a v v₀ before now middle now' after _ hj
    rw [List.append_assoc] at hj
    exact absurd hj hnil
  · exact ⟨by simp [h.journal], by simp [h.journal]⟩

/-- Whatever the threads do, each call is allowed and the invariant holds. -/
theorem ok (h : R.system.Reachable s) : Pool.Ok (protocol R.setting) (fun _ _ _ => True) s := by
  refine Pool.ok_of_reachable (S := fun a => Has a (fun _ => none) fun _ => True) (fun _ _ _ _ _ _ _ => trivial)
    (fun s hs => hs.inv) (fun s hs a p hp => ?_) h
  obtain ⟨session, hfollows, rfl⟩ := hs.progs a p hp
  refine ⟨⟨funext fun f => hs.files a f, trivial⟩, ?_⟩
  refine Protocol.Spec.mono (safe_session .nil hfollows) (fun _ _ h => h) ?_
  exact fun _ _ _ _ => trivial

theorem inv (h : R.system.Reachable s) : Inv R.setting s.world :=
  (ok h).inv

end Rules

end Unixd.Cache
