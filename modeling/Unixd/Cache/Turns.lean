import Unixd.Cache.Exclusion
import Unixd.Cache.History
import Unixd.Cache.Looked

/-!
# Threads that take turns

What one thread of a pool does with an idle root while all others pause: it takes a key lock, stores under it and looks
up, with what its journal tells of each.
-/

namespace Unixd.Cache

open Unixd.Lib Protocol.Scope

set_option linter.unusedSectionVars false

section

variable {A : Type} [DecidableEq A] {a : A} {u v : Scene A} {path : Path} {i : ℕ} {node : Node} {digest : Name} {lock : KeyLock}

/-- A root in order, with nothing open. -/
structure Scene.AtRest (v : Scene A) : Prop where
  fit : v.Fit
  distinct : v.Distinct
  closed : ∀ a f, v.files a f = none

lemma Scene.AtRest.shareable (h : v.AtRest) : v.Shareable := by
  intro i node b g o _ ho
  rw [h.closed] at ho
  cases ho

lemma Scene.AtRest.free (h : v.AtRest) : ¬v.Taken path := by
  rintro ⟨i, node, b, g, o, -, ho, -⟩
  rw [h.closed] at ho
  cases ho

lemma Scene.OwnDir.put {p : Path} {x : Option (ℕ × Node)} (h : v.OwnDir p) (hne : p ≠ path) : (v.put path x).OwnDir p := by
  obtain ⟨i, node, hfind, hdir⟩ := h
  exact ⟨i, node, (Scene.find_put_of_ne _ hne).trans hfind, hdir⟩

/-- A new entry, or the same in another state, leaves a root idle. -/
lemma Scene.AtRest.put (h : v.AtRest) (hi : v.Free i ∨ ∃ x, v.find (entryPath digest) = some (i, x)) (hkind : node.kind = .file)
    (howned : node.owned = true) : (v.put (entryPath digest) (some (i, node))).AtRest := by
  have hne : ∀ {p}, Lockish p → p ≠ entryPath digest := by
    rintro p (rfl | rfl | hchild) heq
    · exact absurd heq (by simp [maintenanceLock, entryPath, entries])
    · exact absurd heq (by simp [pruneLock, entryPath, entries])
    · exact (childOf_entryPath digest).not_locks (heq ▸ hchild)
  have hold : ∀ {p}, Lockish p → (v.put (entryPath digest) (some (i, node))).find p = v.find p :=
    fun hlock => Scene.find_put_of_ne _ (hne hlock)
  refine ⟨⟨h.fit.root.put (by simp [root, entryPath]), h.fit.entries.put (by simp [entries, entryPath]),
    h.fit.locks.put (by simp [locks, entries, entryPath]), ?_, ?_, ?_⟩, ?_, h.closed⟩
  · intro p hlock j x hfind
    exact h.fit.regular hlock j x ((hold hlock).symm.trans hfind)
  · rw [hold (Or.inl rfl)]
    exact h.fit.maintenance
  · rw [hold (Or.inr (Or.inl rfl))]
    exact h.fit.pruning
  · intro p q j x y hlock hp hq
    rw [hold hlock] at hp
    by_cases hentry : q = entryPath digest
    · exfalso
      rw [hentry, Scene.find_put_self, Option.some_inj, Prod.mk.injEq] at hq
      obtain ⟨rfl, -⟩ := hq
      rcases hi with hfree | ⟨z, hz⟩
      · exact hfree.1 p x hp
      · exact hne hlock (h.distinct hlock hp hz).symm
    · rw [Scene.find_put_of_ne _ hentry] at hq
      exact h.distinct hlock hp hq

/-- `u` is `v` with `lock` held. -/
def Locking (a : A) (v : Scene A) (lock : KeyLock) (u : Scene A) : Prop :=
  ∃ m since i since' node, lock.held.path = lockPath lock.key.digest ∧ v.Locks lock.held.path i node ∧
    v.files a lock.maintenance = none ∧ v.files a lock.held.file = none ∧ lock.held.file ≠ lock.maintenance ∧
      u = lock.scene a v m since i since' node

lemma Locking.find (h : Locking a v lock u) (hne : path ≠ lock.held.path) : u.find path = v.find path := by
  obtain ⟨m, since, i, since', node, -, -, -, -, -, rfl⟩ := h
  exact Scene.find_put_of_ne _ hne

lemma Locking.clock (h : Locking a v lock u) : u.clock = v.clock := by
  obtain ⟨m, since, i, since', node, -, -, -, -, -, rfl⟩ := h
  rfl

lemma Locking.holding (h : Locking a v lock u) : u.Holding a lock := by
  obtain ⟨m, since, i, since', node, hpath, hlocks, -, -, hne, rfl⟩ := h
  refine ⟨hpath, ⟨i, since', Scene.files_setFile_self _⟩, ⟨m, since, ?_⟩, hne, ?_⟩
  · exact (Scene.files_setFile_of_ne _ hne.symm).trans (Scene.files_setFile_self _)
  · intro j x hfind
    obtain ⟨-, rfl⟩ := Prod.mk.inj (Option.some_inj.mp ((Scene.find_put_self (some (i, node))).symm.trans hfind))
    exact ⟨hlocks.kind, hlocks.owned⟩

/-- A lock file shares no inode with a file that has one name. -/
lemma Locking.one (h : Locking a v lock u) (hv : v.Distinct) (hfind : v.find path = some (i, node)) (hne : path ≠ lock.held.path)
    (hone : ∀ p x, v.find p = some (i, x) → p = path) : ∀ p x, u.find p = some (i, x) → p = path := by
  intro p x hp
  by_cases hlock : p = lock.held.path
  · exfalso
    obtain ⟨m, since, j, since', y, hpath, hlocks, -, -, -, rfl⟩ := h
    have hself : (v.put lock.held.path (some (j, y))).find lock.held.path = some (j, y) := Scene.find_put_self _
    have heq := hself.symm.trans (hlock ▸ hp)
    obtain ⟨rfl, -⟩ := Prod.mk.inj (Option.some_inj.mp heq)
    rcases hlocks.found with hfound | ⟨-, hfree⟩
    · exact hne (hv (hpath ▸ Or.inr (Or.inr (childOf_lockPath _))) hfound hfind)
    · exact hfree.1 _ _ hfind
  · exact hone p x ((h.find hlock).symm.trans hp)

lemma Locking.entries (h : Locking a v lock u) (hv : v.OwnDir entries) : u.OwnDir entries := by
  obtain ⟨j, x, hx, hdir⟩ := hv
  refine ⟨j, x, (h.find ?_).trans hx, hdir⟩
  rw [h.holding.path]
  simp [Cache.entries, lockPath, locks]

lemma Locking.free (h : Locking a v lock u) (hv : v.AtRest) (hmissing : v.find lock.held.path = none) (hfree : u.Free i) :
    v.Free i := by
  refine ⟨fun p x hx => ?_, fun b g o ho => ?_⟩
  · by_cases hp : p = lock.held.path
    · rw [hp, hmissing] at hx
      cases hx
    · exact hfree.1 p x ((h.find hp).trans hx)
  · rw [hv.closed] at ho
    cases ho

/-- A lock that was made and is dropped leaves nothing behind. -/
lemma Locking.dropped (h : Locking a v lock u) (hmissing : v.find lock.held.path = none) (x : Option (ℕ × Node))
    (hne : path ≠ lock.held.path) : ((u.put path x).put lock.held.path none).dropped a lock = v.put path x := by
  obtain ⟨m, since, i, since', node, -, -, hm, hf, hfne, rfl⟩ := h
  have hput : ((v.put lock.held.path (some (i, node))).put path x).put lock.held.path none = v.put path x := by
    rw [Scene.put_comm _ _ hne, Scene.put_put, Scene.put_eq_self ((Scene.find_put_of_ne _ hne.symm).trans hmissing)]
  change ((((((v.put lock.held.path (some (i, node))).put path x).put lock.held.path none).setFile a lock.maintenance _).setFile a
    lock.held.file _).setFile a lock.held.file none).setFile a lock.maintenance none = _
  rw [hput, Scene.setFile_setFile, Scene.setFile_comm _ _ hfne, Scene.setFile_setFile, Scene.setFile_eq_self (v := v.put path x) hm,
    Scene.setFile_eq_self (v := v.put path x) hf]

end

section

variable {A V : Type} {w : World A V} {a : A}

/-- Nothing is removed, put in place or noted. -/
def World.plainly (w : World A V) : Margin A V where
  before := w.journal
  may what := ¬what.Guarded
  clock _ := id

lemma World.sees_plainly (w : World A V) (a : A) : Sees a w.scene w.plainly w :=
  ⟨rfl, [], (List.append_nil _).symm, fun _ he => (nomatch he)⟩

lemma World.plainly_writes (w : World A V) (digest : Name) : w.plainly.Writes digest :=
  fun _ _ => ⟨id, id⟩

lemma Sees.added {u : Scene A} {w' : World A V} (h : Sees a u w.plainly w') : ∃ x, w'.journal = w.journal ++ x ∧
    ∀ e ∈ x, e.agent = a ∧ ¬e.what.Guarded :=
  h.journal

end

section

variable {A V T : Type} [DecidableEq A] {tick : ℕ → ℕ → Prop} {a : A} {v : Scene A} {ℓ : Margin A V} {codec : Codec T}
  {inner : Inner} {lock : KeyLock} {value : T} {policy : Policy} {bytes : Bytes}

/-- An entry that can be written and is small enough is put in place. -/
lemma does_writeEntry (hdir : v.OwnDir entries) (hentry : ∀ j x, v.find (entryPath lock.key.digest) = some (j, x) → x.kind ≠ .dir)
    (hmay : ℓ.Writes lock.key.digest) (hencode : codec.encode (.at inner lock.key v.clock value policy) = some bytes)
    (hsize : bytes.length ≤ inner.limits.maxEntryBytes) :
    Does tick a (Sees a v ℓ) (writeEntry codec inner lock value policy : M V (Option ℕ)) fun r w => r = none ∧ ∃ u ℓ',
      Placed a v ℓ lock.key.digest bytes u ℓ' ∧ Sees a u ℓ' w := by
  refine .bind solo_now fun now => .imp fun hnow => ?_
  subst hnow
  rw [hencode]
  dsimp only
  rw [if_neg (Nat.not_lt.mpr hsize)]
  have hwrite : Solo (fun _ => False) tick a (Sees a v ℓ) (writeAtomic lock.key.digest bytes : M V Unit) _ _ :=
    solo_writeAtomic hdir hentry hmay fun _ => id
  refine .bind (hwrite.mono (fun _ => id) (fun _ _ => id) fun e w h => ?_) fun _ => .pure fun w _ h => ⟨rfl, h⟩
  rcases h with ⟨_, ⟨op, hop, -⟩, -⟩ | ⟨_, _, -, _, ⟨op, hop, -⟩, -⟩
  · exact hop
  · exact hop

lemma does_dropLock (h : v.Holding a lock) : Does tick a (Sees a v ℓ) (lock.drop : M V Unit) fun _ w => ∃ j, ℓ.Holds a j ∧
    Sees a ((v.put lock.held.path none).dropped a lock) (ℓ.later (j ++ [⟨a, .released lock.held.path .key⟩])) w := by
  have hdrop : Does tick a (Sees a v ℓ) (lock.drop : M V Unit) _ := solo_drop h
  refine hdrop.post fun _ w _ hw => ?_
  obtain ⟨j, hj, hsees⟩ := hw
  exact ⟨j, hj, hsees.resolve_right fun hf => hf.1.elim fun _ => id⟩

end

lemma attempt_handle_bind {V α β γ : Type} (p : M V β) (g : Except Error β → M V α) (f : Except Error α → M V γ) :
    ((p.handle g).attempt >>= f) = p.handle fun r => (g r).attempt >>= f := by
  refine (congrArg (fun q => Prog.handle q _) (Prog.handle_handle p g _)).trans ?_
  exact Prog.handle_handle p _ _

section

variable {V T : Type} {codec : Codec T} {inner : Inner} {lock : KeyLock} {value : T} {policy : Policy}

/-- What follows a release of the lock with the entry in place. -/
def maintained (codec : Codec T) (inner : Inner) : Option ℕ → M V Stored
  | some size => return .tooLarge size
  | none => return .written (← maintain codec inner)

/-- How a store goes on when it has tried to write. -/
def released (codec : Codec T) (inner : Inner) (lock : KeyLock) : Except Error (Option ℕ) → M V Stored
  | .ok written => lock.drop >>= fun _ => maintained codec inner written
  | .error e => lock.drop >>= fun _ => throw e

lemma store_handle : (lock.store codec inner value policy : M V Stored) =
    (writeEntry codec inner lock value policy).handle (released codec inner lock) := by
  refine (Prog.handle_handle (writeEntry codec inner lock value policy) _ _).trans ?_
  congr 1
  funext r
  cases r with
  | ok written =>
    cases written <;> rfl
  | error e =>
    refine (Prog.handle_handle lock.drop _ _).trans ?_
    change lock.drop.handle _ = lock.drop.handle _
    congr 1
    funext r
    cases r <;> rfl

end

namespace Rules

variable {ι : Type} {T : ι → Type} {A : Type} [DecidableEq A] {R : Rules A ι T} {s : State A ι T} {a : A} {α : Type}
  {i : ι} {inner : Inner} {key : Key} {locked : Bool}

/-- A part of a program with a specification of its own runs to its end. -/
lemma exec {f : Except Error α → M (Note ι T) Unit} {p : M (Note ι T) α} {S : World A (Note ι T) → Prop}
    {U : α → World A (Note ι T) → Prop} (hsound : R.fails = fun _ => False) (h : R.system.Reachable s)
    (hprog : s.progs a = some (p.handle f)) (hdoes : Does R.tick a S p U) (hs : S s.world) :
    ∃ t x, R.system.Reachable t ∧ t.progs = Function.update s.progs a (some (f (.ok x))) ∧ U x t.world := by
  unfold Does at hdoes
  rw [← hsound] at hdoes
  obtain ⟨ls, r, w, hend, hrun⟩ := Protocol.Scope.Total.exec (fun _ => rfl) (hdoes s.world trivial hs) hprog rfl
  rcases r with e | x
  · exact hend.elim
  · exact ⟨_, x, h.run hrun, rfl, hend⟩

/-- A note is taken. -/
lemma exec_note {f : Unit → M (Note ι T) Unit} {v : Note ι T} (h : R.system.Reachable s)
    (hprog : s.progs a = some (Sys.note v >>= f)) :
    ∃ t, R.system.Reachable t ∧ t.progs = Function.update s.progs a (some (f ())) ∧
      t.world = s.world.log a (.noted v s.world.clock) := by
  have hsem : (machine A (Note ι T) R.fails R.tick).sem a (.note v) s.world () (s.world.log a (.noted v s.world.clock)) := Sem.note
  have hstep := Pool.Step.call hprog hsem
  exact ⟨_, h.run (.single hstep), rfl, rfl⟩

/-- How a session goes on when it has tried to take a lock. -/
def relocked (R : Rules A ι T) (next : Except Error Unit → Session ι T) (locks : List KeyLock) :
    Except Error KeyLock → M (Note ι T) Unit
  | .ok held => (next (.ok ())).run R.codec (held :: locks)
  | .error e => (next (.error e)).run R.codec locks

lemma run_lock (next : Except Error Unit → Session ι T) (locks : List KeyLock) :
    (Session.lock key next).run R.codec locks = (Cache.lock key).handle (R.relocked next locks) := by
  unfold Session.run
  refine (Prog.handle_handle (Cache.lock key) _ _).trans ?_
  congr 1

lemma exec_lock (hsound : R.fails = fun _ => False) (h : R.system.Reachable s) {next : Except Error Unit → Session ι T}
    {locks : List KeyLock} (hprog : s.progs a = some ((Session.lock key next).run R.codec locks)) (hidle : s.world.scene.AtRest) :
    ∃ t held, R.system.Reachable t ∧ t.progs = Function.update s.progs a (some ((next (.ok ())).run R.codec (held :: locks))) ∧
      held.key = key ∧ Locking a s.world.scene held t.world.scene ∧ ∃ x, t.world.journal = s.world.journal ++ x ∧
        ∀ e ∈ x, e.agent = a ∧ ¬e.what.Guarded := by
  have hdoes := @does_lock _ _ _ R.tick a _ s.world.plainly key hidle.fit hidle.distinct hidle.shareable hidle.free id
  rw [run_lock] at hprog
  obtain ⟨t, held, ht, hprogs, m, since, i, since', node, hkey, hpath, hlocks, hm, hf, hne, hsees⟩ :=
    exec hsound h hprog hdoes (s.world.sees_plainly a)
  exact ⟨t, held, ht, hprogs, hkey, ⟨m, since, i, since', node, hkey ▸ hpath, hpath ▸ hlocks, hm, hf, hne,
    hsees.scene⟩, hsees.added⟩

/-- A thread that holds a lock stores under it, up to where the maintenance begins. -/
lemma exec_store (hsound : R.fails = fun _ => False) (h : R.system.Reachable s) {value : T i} {policy : Policy}
    {next : Except Error Cache.Stored → Session ι T} {held : KeyLock} {locks : List KeyLock} {v : Scene A} {bytes : Bytes}
    (hprog : s.progs a = some ((Session.store 0 i inner value policy next).run R.codec (held :: locks)))
    (hlocking : Locking a v held s.world.scene) (hidle : v.AtRest) (hmissing : v.find held.held.path = none)
    (hentry : ∀ j x, v.find (entryPath held.key.digest) = some (j, x) → x.kind ≠ .dir)
    (hencode : (R.codec i).encode (.at inner held.key v.clock value policy) = some bytes)
    (hsize : bytes.length ≤ inner.limits.maxEntryBytes) :
    ∃ t p src x y k node, R.system.Reachable t ∧ t.progs = Function.update s.progs a (some p) ∧
      (v.Free k ∧ node.kind = .file ∧ node.owned = true ∧ node.bytes = bytes ∧ node.modified = millisecond v.clock) ∧
      t.world.scene = v.put (entryPath held.key.digest) (some (k, node)) ∧
      t.world.journal = s.world.journal ++ ⟨a, .noted (.storing i inner held.key value policy) v.clock⟩ :: x ++
        ⟨a, .renamed src (entryPath held.key.digest) bytes⟩ :: y ∧
      ∀ e ∈ x ++ y, e.agent = a ∧ ¬e.what.Guarded := by
  obtain ⟨t₁, ht₁, hprogs₁, hworld₁⟩ := exec_note h hprog
  have hscene₁ : t₁.world.scene = s.world.scene := by rw [hworld₁, World.scene_log]
  have hclock : s.world.clock = v.clock := hlocking.clock
  have hlocking₁ : Locking a v held t₁.world.scene := hscene₁.symm ▸ hlocking
  have hnot : entryPath held.key.digest ≠ held.held.path := hlocking.holding.entry_ne
  have hwrite := @does_writeEntry _ _ _ _ R.tick a t₁.world.scene t₁.world.plainly (R.codec i) inner held value policy bytes
    (hlocking₁.entries hidle.fit.entries) (fun j x hx => hentry j x ((hlocking₁.find hnot).symm.trans hx))
    (t₁.world.plainly_writes _) (hlocking₁.clock ▸ hencode) hsize
  have hprog₁ : t₁.progs a = some ((writeEntry (R.codec i) inner held value policy).handle fun r =>
      Prog.attempt (released (R.codec i) inner held r) >>= fun result => (next result).run R.codec locks) := by
    rw [hprogs₁, Function.update_self, store_handle]
    exact congrArg some (attempt_handle_bind _ _ _)
  obtain ⟨t₂, r, ht₂, hprogs₂, rfl, u, ℓ', hplaced, hsees₂⟩ := exec hsound ht₁ hprog₁ hwrite (t₁.world.sees_plainly a)
  obtain ⟨f, hprog₂⟩ : ∃ f, t₂.progs a = some (held.drop.handle f) :=
    ⟨_, by rw [hprogs₂, Function.update_self]; exact congrArg some (attempt_handle_bind held.drop _ _)⟩
  obtain ⟨k, node, hfree, hkind, howned, hbytes, hmodified, rfl⟩ := hplaced.entry
  obtain ⟨src, j, ⟨x, rfl, hx⟩, rfl⟩ := hplaced.journal
  have hholding := hplaced.holding hlocking₁.holding
  rw [← hsees₂.scene] at hholding
  obtain ⟨t₃, _, ht₃, hprogs₃, j, ⟨y, rfl, hy⟩, hsees₃⟩ := exec hsound ht₂ hprog₂ (does_dropLock hholding) (t₂.world.sees_plainly a)
  obtain ⟨y', hj₂, hy'⟩ := hsees₂.journal
  obtain ⟨z, hj₃, hz⟩ := hsees₃.journal
  obtain ⟨p, hprogs⟩ : ∃ p, t₃.progs = Function.update s.progs a (some p) :=
    ⟨_, by rw [hprogs₃, hprogs₂, hprogs₁, Function.update_idem, Function.update_idem]⟩
  refine ⟨t₃, p, src, x, y' ++ (y ++ ⟨a, .released held.held.path .key⟩ :: z), k, node, ht₃, hprogs,
    ⟨hlocking₁.free hidle hmissing hfree, hkind, howned, hbytes, hmodified.trans (congrArg millisecond hlocking₁.clock)⟩, ?_, ?_, ?_⟩
  · rw [hsees₃.scene, hsees₂.scene]
    exact hlocking₁.dropped hmissing _ hnot
  · rw [hj₃]
    change (t₂.world.journal ++ y ++ [_]) ++ z = _
    rw [hj₂]
    change ((((t₁.world.journal ++ x) ++ [_]) ++ y') ++ y ++ [_]) ++ z = _
    rw [hworld₁, World.journal_log, hclock]
    simp only [List.append_assoc, List.cons_append, List.nil_append]
  · simp only [List.mem_append, List.mem_cons]
    rintro e (he | he | he | rfl | he)
    · exact hx e he
    · exact hy' e he
    · exact hy e he
    · exact ⟨rfl, id⟩
    · exact hz e he

lemma looking_handle {p : M (Note ι T) (Lookup (T i))} (f : Except Error (Lookup (T i)) → M (Note ι T) Unit) :
    (looking i inner key locked p >>= f) = Sys.note (.looking i inner key locked) >>= fun _ =>
      p.handle fun result => Sys.note (.looked i inner key locked result) >>= fun _ => f result := by
  refine (Prog.handle_handle (Sys.note _) _ _).trans ?_
  change (Sys.note _).handle _ = (Sys.note _).handle _
  congr 1
  funext r
  cases r with
  | error e => rfl
  | ok u =>
    refine (Prog.handle_handle (Prog.attempt p) _ _).trans ((Prog.handle_handle p _ _).trans ?_)
    congr 1

/-- A lookup of an entry that is there and worth something. -/
lemma exec_looking (hsound : R.fails = fun _ => False) (h : R.system.Reachable s) {f : Except Error (Lookup (T i)) → M (Note ι T) Unit}
    {k : ℕ} {node : Node}
    (hprog : s.progs a = some (looking i inner key locked (read (R.codec i) inner key locked) >>= f))
    (hentries : s.world.scene.OwnDir entries) (hfind : s.world.find (entryPath key.digest) = some (k, node)) (hkind : node.kind = .file)
    (hone : ∀ p x, s.world.find p = some (k, x) → p = entryPath key.digest)
    (hkeep : ¬Discards (R.codec i) inner key (some (.file, node.bytes)) s.world.clock) :
    ∃ t x r, R.system.Reachable t ∧ t.progs = Function.update s.progs a (some (f (.ok r))) ∧
      r = answer (R.codec i) inner key (some (.file, node.bytes)) s.world.clock ∧
      t.world.scene = s.world.scene.looked (R.codec i) inner key locked k node ∧
      t.world.journal = s.world.journal ++ ⟨a, .noted (.looking i inner key locked) s.world.clock⟩ :: x ++
        [⟨a, .noted (.looked i inner key locked (.ok r)) s.world.clock⟩] ∧
      ∀ e ∈ x, e.agent = a ∧ ¬e.what.Guarded := by
  rw [looking_handle] at hprog
  obtain ⟨t₁, ht₁, hprogs₁, hworld₁⟩ := exec_note h hprog
  have hscene₁ : t₁.world.scene = s.world.scene := by rw [hworld₁, World.scene_log]
  have hclock₁ : t₁.world.scene.clock = s.world.clock := by rw [hscene₁]; rfl
  have hlookup := @solo_lookup _ (Note ι T) _ _ (fun _ => False) R.tick a t₁.world.scene t₁.world.plainly k node (R.codec i) inner key locked
    (hscene₁ ▸ hentries) (hscene₁ ▸ hfind) hkind (hscene₁ ▸ hone) fun hd => absurd (hclock₁ ▸ hd) hkeep
  have hdoes : Does R.tick a (Sees a t₁.world.scene t₁.world.plainly) (read (R.codec i) inner key locked) fun r w =>
      r = answer (R.codec i) inner key (some (.file, node.bytes)) s.world.clock ∧
        Sees a (s.world.scene.looked (R.codec i) inner key locked k node) t₁.world.plainly w := by
    refine Lone.mono hlookup (fun _ => id) (fun r w hw => ?_) fun e w hw => ?_
    · obtain ⟨hr, hsees | ⟨e, _, ⟨op, hop, -⟩, -⟩⟩ := hw
      · exact ⟨hclock₁ ▸ hr, hscene₁ ▸ hsees⟩
      · exact hop.elim
    · obtain ⟨-, _, ⟨op, hop, -⟩, -⟩ := hw
      exact hop
  have hprog₁ : t₁.progs a = some ((read (R.codec i) inner key locked).handle fun result =>
      Sys.note (.looked i inner key locked result) >>= fun _ => f result) := by
    rw [hprogs₁, Function.update_self]
  obtain ⟨t₂, r, ht₂, hprogs₂, hr, hsees⟩ := exec hsound ht₁ hprog₁ hdoes (t₁.world.sees_plainly a)
  have hprog₂ : t₂.progs a = some (Sys.note (.looked i inner key locked (.ok r)) >>= fun _ => f (.ok r)) := by
    rw [hprogs₂, Function.update_self]
  obtain ⟨t₃, ht₃, hprogs₃, hworld₃⟩ := exec_note ht₂ hprog₂
  obtain ⟨x, hx, hplain⟩ := hsees.added
  have hclock₂ : t₂.world.clock = s.world.clock := hsees.clock.trans Scene.clock_looked
  refine ⟨t₃, x, r, ht₃, ?_, hr, ?_, ?_, hplain⟩
  · rw [hprogs₃, hprogs₂, hprogs₁, Function.update_idem, Function.update_idem]
  · rw [hworld₃, World.scene_log, hsees.scene]
  · rw [hworld₃, World.journal_log, hx, hworld₁, World.journal_log, hclock₂]
    simp only [List.append_assoc, List.cons_append, List.nil_append]

lemma find_empty {A V : Type} [DecidableEq A] {clock : ℕ} {dir : Name} {path : Path} (h : ChildOf [dir] path) :
    (World.of (rootWith []) clock : World A V).scene.find path = none := by
  obtain ⟨name, rfl⟩ := h
  cases hfind : (World.of (rootWith []) clock : World A V).scene.find ([dir] ++ [name]) with
  | none => rfl
  | some found =>
    obtain ⟨x, hx, -⟩ := @mem_extra A V _ _ _ _ _ extra_nil dir name hfind
    cases hx

/-- Threads on a root with the entries of `found`. -/
def holding (A : Type) (found : List (Name × Node)) : Rules A Unit fun _ => Unit :=
  { quiet A with start := fun digest => (found.lookup digest).map fun node => (node.kind, node.bytes) }

lemma starts_holding {found : List (Name × Node)} {clock : ℕ} {progs : A → Option (M (Note Unit fun _ => Unit) Unit)}
    (hfound : (found.map Prod.fst).Nodup) (hkind : ∀ x ∈ found, x.2.kind = .file ∧ x.2.owned = true) (hclock : clock ≤ u64Max)
    (hprogs : ∀ a p, progs a = some p → ∃ session : Session Unit fun _ => Unit,
      session.Follows True (fun _ _ _ => True) [] ∧ p = session.run (holding A found).codec []) :
    (holding A found).Starts ⟨progs, World.of (rootWith (stored found [])) clock⟩ := by
  have hextra := extra_stored hfound List.nodup_nil hkind
  have hfit := @fit_rootWith A (Note Unit fun _ => Unit) _ _ clock hextra
  have hdir : ∀ {path}, (World.of (rootWith (stored found [])) clock : World A (Note Unit fun _ => Unit)).scene.OwnDir path →
      (World.of (rootWith (stored found [])) clock : World A (Note Unit fun _ => Unit)).OwnDir path := by
    rintro path ⟨i, node, hfind, hkind, howned⟩
    obtain ⟨hname, rfl⟩ := (World.find_eq_some _).mp hfind
    exact ⟨i, hname, hkind, howned⟩
  refine ⟨hprogs, fun _ _ => rfl, rfl, hclock, hdir hfit.entries, ?_, ?_, fun _ => ⟨hdir hfit.locks, ?_⟩⟩
  · intro digest _
    change World.content _ _ = (found.lookup digest).map _
    cases hfind : (World.of (rootWith (stored found [])) clock : World A (Note Unit fun _ => Unit)).find (entryPath digest) with
    | none =>
      have hnone : found.lookup digest = none := by
        rw [List.lookup_eq_none_iff]
        intro x hx
        rw [bne_iff_ne]
        rintro rfl
        obtain ⟨i, hthere⟩ := @World.find_of_mem A (Note Unit fun _ => Unit) _ _ clock _ _ (rootWith_nodup hextra)
          (List.mem_append_right _ (mem_stored.mpr (Or.inl ⟨x, hx, rfl⟩)))
        rw [hfind] at hthere
        cases hthere
      rw [World.content, (World.find_eq_none _).mp hfind, hnone]
      rfl
    | some x =>
      obtain ⟨i, node⟩ := x
      obtain ⟨x, hx, rfl⟩ := mem_extra hextra hfind
      have hmem : (digest, x) ∈ found := by
        rcases mem_stored.mp hx with ⟨y, hy, heq⟩ | ⟨_, h, -⟩
        · obtain ⟨hpath, rfl⟩ := Prod.mk.inj heq
          obtain rfl : digest = y.1 := by simpa [entryPath, entries] using hpath
          exact hy
        · cases h
      obtain ⟨before, after, rfl⟩ := List.append_of_mem hmem
      have hsome : (before ++ (digest, x) :: after).lookup digest = some x := by
        refine List.lookup_eq_some_iff.mpr ⟨before, after, rfl, fun y hy => ?_⟩
        rw [bne_iff_ne]
        rintro rfl
        rw [List.map_append, List.map_cons] at hfound
        exact (List.nodup_middle.mp hfound).notMem (List.mem_append_left _ (List.mem_map.mpr ⟨y, hy, rfl⟩))
      obtain ⟨hname, hnode⟩ := (World.find_eq_some _).mp hfind
      rw [World.content, hname, hsome]
      have hkind := congrArg Node.kind hnode
      have hbytes := congrArg Node.bytes hnode
      exact congrArg some (Prod.ext hkind hbytes)
  · intro _ path q i hlock hpath hq
    exact World.distinct_of hlock ((World.find_eq_some _).mpr ⟨hpath, rfl⟩) ((World.find_eq_some _).mpr ⟨hq, rfl⟩)
  · intro path i hchild hname
    exact hfit.regular (Or.inr (Or.inr hchild)) i { World.nodes (World.of (rootWith (stored found [])) clock :
      World A (Note Unit fun _ => Unit)) i with mode := 0 } ((World.find_eq_some _).mpr ⟨hname, rfl⟩)

end Rules

end Unixd.Cache
