import Unixd.Cache.Opened
import Unixd.Cache.Stored

/-!
# A store that fails

What the caller of a store may take from its answer, whatever calls of it fail.
-/

namespace Unixd.Cache

open Unixd.Lib Protocol.Scope

set_option linter.unusedSectionVars false

variable {A V T : Type} [DecidableEq A] {faults : Op V → Prop} {tick : ℕ → ℕ → Prop} {a : A} {v : Scene A} {ℓ : Margin A V}
  {codec : Codec T} {inner : Inner} {lock : KeyLock} {value : T} {policy : Policy} {w w' : World A V}

/-- The entry is what it was, no name is new in `entries`, and the lock is released. -/
structure Unchanged (a : A) (lock : KeyLock) (w w' : World A V) : Prop where
  entry : w'.find (entryPath lock.key.digest) = w.find (entryPath lock.key.digest)
  names : ∀ name, w'.find (entries ++ [name]) ≠ none → w.find (entries ++ [name]) ≠ none
  released : w'.files a lock.held.file = none ∧ w'.files a lock.maintenance = none

/-- The entry of the value was renamed into place. -/
def Replaced (codec : Codec T) (inner : Inner) (lock : KeyLock) (value : T) (policy : Policy) (a : A) (w w' : World A V) : Prop :=
  ∃ src bytes, codec.encode (.at inner lock.key w.clock value policy) = some bytes ∧
    ⟨a, .renamed src (entryPath lock.key.digest) bytes⟩ ∈ w'.journal.drop w.journal.length

/-- What the answer of a store says. -/
def Stored.Tells (codec : Codec T) (inner : Inner) (lock : KeyLock) (value : T) (policy : Policy) (a : A) (w w' : World A V) :
    Except Error Stored → Prop
  | .error _ | .ok (.tooLarge _) => Unchanged a lock w w'
  | .ok (.written _) => Replaced codec inner lock value policy a w w'

/-- A call fails after the rename and before the key lock is released. -/
def FailsAfterRename (a : A) (lock : KeyLock) (w w' : World A V) : Prop :=
  ∃ pre e post, w'.journal = w.journal ++ (pre ++ e :: post) ∧ (∃ op, e.what = .failed op) ∧
    (∃ src bytes, ⟨a, .renamed src (entryPath lock.key.digest) bytes⟩ ∈ pre) ∧ ⟨a, .released lock.held.path .key⟩ ∉ pre

/-- Before the rename no call fails, nothing is renamed and no lock is released. -/
def World.careful (w : World A V) : Margin A V where
  before := w.journal
  may what := (∀ op, what ≠ .failed op) ∧ (∀ src dst bytes, what ≠ .renamed src dst bytes) ∧ ∀ p x, what ≠ .released p x
  clock n := ⟨fun _ h => (nomatch h), fun _ _ _ h => (nomatch h), fun _ _ h => (nomatch h)⟩

lemma World.sees_careful (w : World A V) (a : A) : Sees a w.scene w.careful w :=
  ⟨rfl, [], (List.append_nil _).symm, fun _ he => (nomatch he)⟩

lemma World.careful_writes (w : World A V) (digest : Name) : w.careful.Writes digest := by
  intro p _
  exact ⟨⟨fun _ h => (nomatch h), fun _ _ _ h => (nomatch h), fun _ _ h => (nomatch h)⟩,
    fun _ h => (nomatch h), fun _ _ _ h => (nomatch h), fun _ _ h => (nomatch h)⟩

/-- Where nothing was renamed no call fails after a rename. -/
lemma not_fails_of_none {added : List (Event A V)} (hj : w'.journal = w.journal ++ added)
    (hnone : ∀ e ∈ added, ∀ src bytes, e.what ≠ .renamed src (entryPath lock.key.digest) bytes) : ¬FailsAfterRename a lock w w' := by
  rintro ⟨pre, e, post, hj', -, ⟨src, bytes, hmem⟩, -⟩
  rw [hj, List.append_cancel_left_eq] at hj'
  refine hnone ⟨a, .renamed src (entryPath lock.key.digest) bytes⟩ ?_ src bytes rfl
  rw [hj']
  exact List.mem_append_left _ hmem

/-- Where no call failed before the release, none fails between. -/
lemma not_fails_of_sure {added rest : List (Event A V)} (hj : w'.journal = w.journal ++ (added ++ ⟨a, .released lock.held.path .key⟩ :: rest))
    (hsure : ∀ e ∈ added, ∀ op, e.what ≠ .failed op) : ¬FailsAfterRename a lock w w' := by
  rintro ⟨pre, e, post, hj', ⟨op, hfailed⟩, -, hnot⟩
  rw [hj, List.append_cancel_left_eq, List.append_eq_append_iff] at hj'
  rcases hj' with ⟨x, rfl, hx⟩ | ⟨x, rfl, hx⟩
  · cases x with
    | nil =>
      rw [List.nil_append, List.cons.injEq] at hx
      rw [← hx.1] at hfailed
      cases hfailed
    | cons d x =>
      rw [List.cons_append, List.cons.injEq] at hx
      exact hnot (hx.1 ▸ by simp)
  · cases x with
    | nil =>
      rw [List.nil_append, List.cons.injEq] at hx
      rw [hx.1] at hfailed
      cases hfailed
    | cons d x =>
      rw [List.cons_append, List.cons.injEq] at hx
      exact hsure e (hx.1 ▸ by simp) op hfailed

lemma Sem.longer {op : Op V} {r : op.Ret} (h : Sem faults a op w r w') : w.journal <+: w'.journal := by
  rcases h.journal with hj | ⟨what, hj⟩
  · exact hj ▸ List.prefix_rfl
  · exact ⟨_, hj.symm⟩

/-- After the release of a lock the rest of the scene is as it was. -/
lemma Holding.drop_ends {r : Except Error Unit} (hlock : v.Holding a lock) (hsees : Sees a v ℓ w)
    (h : (lock.drop : M V Unit).Ends (machine A V faults tick) a w r w') : r = .ok () ∧ ∃ j u, ℓ.Holds a j ∧
      (u = v.put lock.held.path none ∨ u = v) ∧ Sees a (u.dropped a lock) (ℓ.later (j ++ [⟨a, .released lock.held.path .key⟩])) w' := by
  have hdrop := (Lone.ends (solo_drop (X := fun _ _ => False) hlock) hsees).2 r w' h
  cases r with
  | error e => exact hdrop.elim
  | ok x =>
    obtain ⟨j, hj, hsees' | ⟨-, hsees'⟩⟩ := hdrop
    · exact ⟨rfl, j, _, hj, Or.inl rfl, hsees'⟩
    · exact ⟨rfl, j, _, hj, Or.inr rfl, hsees'⟩

/-- A store that wrote nothing leaves everything as it was. -/
lemma unchanged_of_dropped {u : Scene A} (hlock : w.scene.Holding a lock)
    (hu : u = w.scene.put lock.held.path none ∨ u = w.scene) (hsees : Sees a (u.dropped a lock) ℓ w') : Unchanged a lock w w' := by
  have hsame : ∀ {p}, ¬ChildOf locks p → w'.find p = w.find p := by
    intro p hp
    rw [hsees.find]
    rcases hu with rfl | rfl
    · refine Scene.find_put_of_ne _ ?_
      rintro rfl
      exact hp (hlock.path ▸ childOf_lockPath _)
    · rfl
  refine ⟨hsame (childOf_entryPath _).not_locks, fun name => ?_, ?_⟩
  · rw [hsame (ChildOf.not_locks ⟨name, rfl⟩)]
    exact id
  · rw [hsees.files]
    exact Scene.files_dropped

lemma Scene.Holding.put (h : v.Holding a lock) {path : Path} {x : Option (ℕ × Node)} (hne : path ≠ lock.held.path) :
    (v.put path x).Holding a lock :=
  ⟨h.path, h.held, h.shares, h.ne, fun i node hfind => h.regular i node ((Scene.find_put_of_ne _ hne.symm).symm.trans hfind)⟩

lemma Scene.Holding.entry_ne (h : v.Holding a lock) : entryPath lock.key.digest ≠ lock.held.path := by
  rw [h.path]
  exact fun heq => (childOf_entryPath lock.key.digest).not_locks (heq ▸ childOf_lockPath _)

lemma Placed.holding {bytes : Bytes} {u : Scene A} {ℓ' : Margin A V} (h : Placed a v ℓ lock.key.digest bytes u ℓ')
    (hlock : v.Holding a lock) : u.Holding a lock := by
  obtain ⟨i, node, -, -, -, -, -, rfl⟩ := h.entry
  exact hlock.put hlock.entry_ne

/-- After the entry was put in place it is not what it was. -/
lemma Placed.changed {digest : Name} {bytes : Bytes} {u : Scene A} {ℓ' : Margin A V} (h : Placed a v ℓ digest bytes u ℓ') :
    u.find (entryPath digest) ≠ v.find (entryPath digest) := by
  obtain ⟨i, node, hfree, -, -, -, -, rfl⟩ := h.entry
  rw [Scene.find_put_self]
  exact fun heq => hfree.1 _ _ heq.symm

/-- The journal of a write in which a call failed after the rename. -/
lemma fails_of_broken {bytes : Bytes} {u : Scene A} {ℓ' : Margin A V} {e : Error} {w₀ : World A V} {rest : List (Event A V)}
    (hplaced : Placed a w.scene w.careful lock.key.digest bytes u ℓ') (h : Broken faults a u ℓ' e w₀)
    (hj : w'.journal = w₀.journal ++ rest) : FailsAfterRename a lock w w' := by
  obtain ⟨j, ⟨op, -, hfailed⟩, ⟨added, hadded, hmay⟩, hsees⟩ := h
  obtain ⟨src, j₀, ⟨added₀, hadded₀, hmay₀⟩, rfl⟩ := hplaced.journal
  obtain ⟨more, hmore, -⟩ := hsees.journal
  rw [hadded] at hfailed
  change ⟨a, .failed op⟩ ∈ List.drop (j₀ ++ [_]).length ((j₀ ++ [_]) ++ added) at hfailed
  rw [List.drop_left] at hfailed
  obtain ⟨x, y, rfl⟩ := List.append_of_mem hfailed
  refine ⟨added₀ ++ ⟨a, .renamed src (entryPath lock.key.digest) bytes⟩ :: x, ⟨a, .failed op⟩, y ++ more ++ rest, ?_, ⟨op, rfl⟩,
    ⟨src, bytes, by simp⟩, ?_⟩
  · rw [hj, hmore]
    change (j ++ more) ++ rest = _
    rw [hadded]
    change (j₀ ++ [_]) ++ _ ++ more ++ rest = _
    rw [hadded₀]
    change w.journal ++ added₀ ++ [_] ++ _ ++ more ++ rest = _
    simp only [List.append_assoc, List.cons_append, List.nil_append]
  · rw [List.mem_append, List.mem_cons]
    rintro (hmem | heq | hmem)
    · exact (hmay₀ _ hmem).2.2.2 _ _ rfl
    · cases heq
    · rcases (hmay _ (List.mem_append_left _ hmem)).2 with hl | ⟨op, hl⟩
      · exact hl.2.2 _ _ rfl
      · cases hl

lemma sure_pruneIfDue (due : Bool) : Prog.Ends.Sure (machine A V faults tick) a (if due then do
      match ← Prog.attempt (prune codec inner .skip) with
      | .ok prune => return .pruned prune
      | .error e => return .deferred e
    else
      return .notNeeded : M V Maintenance) := by
  rcases due
  · exact Prog.Ends.sure_pure _
  · refine .bind (Prog.Ends.sure_attempt _) fun r => ?_
    cases r with
    | ok prune => exact Prog.Ends.sure_pure _
    | error e => exact Prog.Ends.sure_pure _

/-- The maintenance after a write is no error of the store. -/
lemma sure_maintain : Prog.Ends.Sure (machine A V faults tick) a (maintain codec inner : M V Maintenance) := by
  have hdue : Prog.Ends.Sure (machine A V faults tick) a (sweepDue inner : M V Bool) := by
    refine .bind (Prog.Ends.sure_op _) fun r => ?_
    cases r with
    | ok metadata => exact .bind (Prog.Ends.sure_op _) fun now => Prog.Ends.sure_pure _
    | error e => exact Prog.Ends.sure_pure _
  refine .bind (Prog.Ends.sure_attempt _) fun usage => ?_
  cases usage with
  | error e => exact Prog.Ends.sure_pure _
  | ok usage =>
    dsimp only
    split
    · exact .bind (Prog.Ends.sure_pure true) sure_pruneIfDue
    · exact .bind hdue sure_pruneIfDue

/-- After a drop nothing was renamed that was not renamed before it. -/
lemma not_fails_of_dropped {u : Scene A} {j : List (Event A V)} (hbefore : ℓ.before = w.journal)
    (hmay : ∀ what, ℓ.may what → ∀ src dst bytes, what ≠ .renamed src dst bytes) (hj : ℓ.Holds a j)
    (hsees : Sees a u (ℓ.later (j ++ [⟨a, .released lock.held.path .key⟩])) w') : ¬FailsAfterRename a lock w w' := by
  obtain ⟨added, rfl, hadded⟩ := hj
  obtain ⟨more, hmore, hmay'⟩ := hsees.journal
  refine @not_fails_of_none _ _ _ _ _ _ _ (added ++ ⟨a, .released lock.held.path .key⟩ :: more) ?_ fun e he src bytes heq => ?_
  · rw [hmore]
    change (ℓ.before ++ added) ++ [_] ++ more = _
    rw [hbefore]
    simp only [List.append_assoc, List.cons_append, List.nil_append]
  · rcases List.mem_append.mp he with hmem | hmem
    · exact hmay _ (hadded e hmem).2 _ _ _ heq
    · rcases List.mem_cons.mp hmem with rfl | hmem
      · cases heq
      · exact hmay _ (hmay' e hmem).2 _ _ _ heq

/-- The journal after a drop that follows a write. -/
lemma sure_of_placed {bytes : Bytes} {u u' : Scene A} {ℓ' : Margin A V} {j : List (Event A V)} {w₁ : World A V}
    (hplaced : Placed a w.scene w.careful lock.key.digest bytes u ℓ') (hj : ℓ'.Holds a j)
    (hsees : Sees a u' (ℓ'.later (j ++ [⟨a, .released lock.held.path .key⟩])) w₁) (hrest : w₁.journal <+: w'.journal) :
    (∃ src, ⟨a, .renamed src (entryPath lock.key.digest) bytes⟩ ∈ w'.journal.drop w.journal.length) ∧
      ¬FailsAfterRename a lock w w' := by
  obtain ⟨src, j₀, ⟨added₀, rfl, hadded₀⟩, rfl⟩ := hplaced.journal
  obtain ⟨added, rfl, hadded⟩ := hj
  obtain ⟨more, hmore, -⟩ := hsees.journal
  obtain ⟨rest, hrest⟩ := hrest
  have hall : w'.journal = w.journal ++ ((added₀ ++ ⟨a, .renamed src (entryPath lock.key.digest) bytes⟩ :: added) ++
      ⟨a, .released lock.held.path .key⟩ :: (more ++ rest)) := by
    rw [← hrest, hmore]
    change ((w.journal ++ added₀ ++ [_]) ++ added ++ [_]) ++ more ++ rest = _
    simp only [List.append_assoc, List.cons_append, List.nil_append]
  refine ⟨⟨src, ?_⟩, not_fails_of_sure hall fun e he op heq => ?_⟩
  · rw [hall, List.drop_left]
    simp
  · rcases List.mem_append.mp he with hmem | hmem
    · exact (hadded₀ e hmem).2.1 op heq
    · rcases List.mem_cons.mp hmem with rfl | hmem
      · cases heq
      · exact (hadded e hmem).2.1 op heq

/-- The key lock of one thread. -/
def lockA : KeyLock :=
  ⟨keyA, ⟨lockPath digestA, 0⟩, 1⟩

/-- A root with nothing stored, where one thread has a key lock. -/
def lockedA : World Unit Unit :=
  ((World.of (rootWith (stored [] [digestA])) 0).setFile () 0 (some (.holding (lockPath digestA) 5 0 .key))).setFile () 1
    (some (.withLock maintenanceLock 3 0 .shared))

lemma extra_lockedA : Extra (stored [] [digestA]) :=
  extra_stored List.nodup_nil (List.nodup_singleton _) (by simp)

lemma fit_lockedA : lockedA.scene.Fit := by
  unfold lockedA
  rw [World.scene_setFile, World.scene_setFile]
  exact ((fit_rootWith extra_lockedA).setFile _).setFile _

lemma holding_lockedA : lockedA.scene.Holding () lockA := by
  have hregular := fit_lockedA.regular (Lockish.of_child (childOf_lockPath digestA))
  exact ⟨rfl, ⟨5, 0, rfl⟩, ⟨3, 0, rfl⟩, by decide, hregular⟩

lemma entry_lockedA : lockedA.find (entryPath digestA) = none :=
  rfl

/-- Where the directory of the entries cannot be opened for its sync. -/
def noSync : Op Unit → Prop :=
  fun op => op = .openRead entries true

/-- What happens without faults happens with them. -/
lemma Sem.weaken {op : Op V} {r : op.Ret} (h : Sem (fun _ => False) a op w r w') : Sem faults a op w r w' := by
  cases h with
  | fault hf hr => exact hf.elim
  | releaseFails ho held why => exact .releaseFails ho held (Or.inr (why.resolve_left id))
  | dropTempFails ho temp why => exact .dropTempFails ho temp (Or.inr (why.resolve_left id))
  | followed hi kind new => exact .followed hi kind new
  | _ => constructor <;> assumption

/-- Without faults there is a run. -/
lemma Does.exists_ends {α : Type} {p : M V α} {T : α → World A V → Prop} (h : Does tick a (Sees a v ℓ) p T) (hw : Sees a v ℓ w) :
    ∃ x w', p.Ends (machine A V faults tick) a w (.ok x) w' ∧ T x w' := by
  obtain ⟨⟨r, w', hr⟩, hends⟩ := Lone.ends h hw
  have hend := hends r w' hr
  cases r with
  | error e => exact hend.elim
  | ok x => exact ⟨x, w', hr.weaken fun hsem => Sem.weaken hsem, hend⟩

/-- The entry is put in place, and then the store fails. -/
lemma store_fails : ∃ e w', (lockA.store Serde.unit.codec roomy () briefly : M Unit Stored).Ends
    (machine Unit Unit noSync fun _ _ => True) () lockedA (.error e) w' ∧
      w'.find (entryPath digestA) ≠ lockedA.find (entryPath digestA) := by
  have hlength : (Serde.unit.codec.encode (.at roomy keyA 0 () briefly)).map List.length = some 208 := rfl
  obtain ⟨bytes, hencode, hbytes⟩ := Option.map_eq_some_iff.mp hlength
  have hsize : ¬roomy.limits.maxEntryBytes < bytes.length := by
    rw [hbytes]
    decide
  have hnone : ∀ j x, lockedA.scene.find (entryPath digestA) = some (j, x) → x.kind ≠ .dir := by
    intro j x hx
    cases hx
  have hplace := @solo_placeEntry _ _ _ (fun _ => False) (fun _ _ => True) () _ _ _ bytes fit_lockedA.entries hnone
    (lockedA.careful_writes digestA) fun _ => id
  have hnow : Does (fun _ _ => True) () (Sees () lockedA.scene lockedA.careful) (Sys.now : M Unit ℕ) _ := solo_now
  obtain ⟨now, w₀, hnow, rfl, hsees₀⟩ := Does.exists_ends hnow (lockedA.sees_careful ())
  obtain ⟨_, w₁, hplaced, u, ℓ', hu, hsees₁⟩ := Does.exists_ends (Does.of_solo hplace) hsees₀
  have hsync : (syncDir entries : M Unit Unit).Ends (machine Unit Unit noSync fun _ _ => True) () w₁ (.error (.io (.other 0)))
      (w₁.log () (.failed (.openRead entries true))) :=
    .call (.fault rfl ⟨0, rfl⟩) .ret
  have hwrite : (writeEntry Serde.unit.codec roomy lockA () briefly : M Unit (Option ℕ)).Ends
      (machine Unit Unit noSync fun _ _ => True) () lockedA (.error (.io (.other 0)))
        (w₁.log () (.failed (.openRead entries true))) := by
    refine hnow.bind ?_
    rw [show Serde.unit.codec.encode (.at roomy lockA.key lockedA.scene.clock () briefly) = some bytes from hencode]
    dsimp only
    rw [if_neg hsize]
    refine Prog.Ends.bind_error ?_
    rw [writeAtomic_eq]
    exact hplaced.bind hsync
  have hscene : (w₁.log () (.failed (.openRead entries true))).scene = u := hsees₁.scene
  have hlock : (w₁.log () (.failed (.openRead entries true))).scene.Holding () lockA := hscene ▸ hu.holding holding_lockedA
  have hdrop : Does (fun _ _ => True) () (Sees () _ (World.margin (w₁.log () (.failed (.openRead entries true)))))
    (lockA.drop : M Unit Unit) _ := solo_drop hlock
  obtain ⟨_, w₃, hdropped, j, hj, hsees₃⟩ := Does.exists_ends hdrop (World.sees _ ())
  refine ⟨.io (.other 0), w₃, ?_, ?_⟩
  · rw [store_eq]
    exact Prog.Ends.bind_error (hwrite.handle (hdropped.bind .ret))
  · have hfind : w₃.find (entryPath digestA) = u.find (entryPath digestA) := by
      rcases hsees₃ with h | ⟨⟨_, hf⟩, -⟩
      · rw [h.find, ← hscene]
        exact Scene.find_put_of_ne (v := (w₁.log () (.failed (.openRead entries true))).scene) none holding_lockedA.entry_ne
      · exact hf.elim
    rw [hfind]
    exact hu.changed

/-- A store answers for what it did to the entry, unless a call fails after the rename and before the key lock is
released: the entry is replaced then, and the answer is an error. -/
theorem store_tells_iff {r : Except Error Stored} (hentries : w.scene.OwnDir entries) (hlock : w.scene.Holding a lock)
    (hentry : ∀ i node, w.find (entryPath lock.key.digest) = some (i, node) → node.kind = .file) (hdrop : ∀ f, ¬faults (.dropTemp f))
    (h : (lock.store codec inner value policy : M V Stored).Ends (machine A V faults tick) a w r w') :
    Stored.Tells codec inner lock value policy a w w' r ↔ ¬FailsAfterRename a lock w w' := by
  have hwrite := Lone.ends (@solo_writeEntry _ _ _ _ _ tick _ _ _ codec inner _ value policy
    hentries (fun j x hx hkind => absurd ((hentry j x hx).symm.trans hkind) (by simp)) (w.careful_writes _) hdrop) (w.sees_careful a)
  rw [store_eq] at h
  obtain ⟨written, w₁, hfirst, hrest⟩ | ⟨e, hfirst, rfl⟩ := Prog.Ends.of_bind h
  all_goals obtain ⟨y, w₀, hwritten, hsame⟩ := Prog.Ends.of_handle hfirst
  · -- the entry is written, or it is too large
    rcases y with e | y
    · obtain ⟨u, w₂, -, hthrow⟩ | ⟨e', -, heq⟩ := Prog.Ends.of_bind hsame
      · cases (Prog.Ends.of_ret hthrow).1
      · cases heq
    · obtain ⟨heq, rfl⟩ := Prog.Ends.of_ret hsame
      obtain rfl : written = y := Except.ok.inj heq
      have hwrote := hwrite.2 _ _ hwritten
      cases written with
      | some size =>
        obtain ⟨-, hsees⟩ := hwrote
        obtain ⟨u, w₂, hdropped, hlast⟩ | ⟨e, hdropped, rfl⟩ := Prog.Ends.of_bind hrest
        · obtain ⟨rfl, rfl⟩ := Prog.Ends.of_ret hlast
          obtain ⟨-, j, u, hj, hu, hsees'⟩ := Holding.drop_ends hlock hsees hdropped
          exact iff_of_true (unchanged_of_dropped hlock hu hsees') (not_fails_of_dropped (ℓ := w.careful) rfl
            (fun _ hm => hm.2.1) hj hsees')
        · cases (Holding.drop_ends hlock hsees hdropped).1
      | none =>
        obtain ⟨bytes, u, ℓ', ⟨hencode, -⟩, hplaced, hsees⟩ := hwrote
        have hlock' := hplaced.holding hlock
        obtain ⟨u, w₂, hdropped, hlast⟩ | ⟨e, hdropped, rfl⟩ := Prog.Ends.of_bind hrest
        · obtain ⟨-, j, u, hj, -, hsees'⟩ := Holding.drop_ends hlock' hsees hdropped
          obtain ⟨m, w₃, hmaintain, hret⟩ | ⟨e, hmaintain, -⟩ := Prog.Ends.of_bind hlast
          · obtain ⟨rfl, rfl⟩ := Prog.Ends.of_ret hret
            have hgrows : w₂.journal <+: w'.journal := hmaintain.keeps (I := fun w => w₂.journal <+: w.journal)
              (fun hsem hw => hw.trans (Sem.longer hsem)) List.prefix_rfl
            obtain ⟨⟨src, hmem⟩, hnot⟩ := sure_of_placed hplaced hj hsees' hgrows
            exact iff_of_true ⟨src, bytes, hencode, hmem⟩ hnot
          · exact absurd hmaintain (sure_maintain _ _ _)
        · cases (Holding.drop_ends hlock' hsees hdropped).1
  · -- the write fails
    rcases y with e' | y
    · rcases hwrite.2 _ _ hwritten with hsees | ⟨bytes, u, ℓ', hplaced, hbroken⟩
      · obtain ⟨u, w₂, hdropped, hthrow⟩ | ⟨e', hdropped, heq⟩ := Prog.Ends.of_bind hsame
        · obtain ⟨-, rfl⟩ := Prog.Ends.of_ret hthrow
          obtain ⟨-, j, u, hj, hu, hsees'⟩ := Holding.drop_ends hlock hsees hdropped
          refine iff_of_true (unchanged_of_dropped hlock hu hsees') (not_fails_of_dropped rfl ?_ hj hsees')
          rintro what (hm | ⟨op, rfl⟩) src dst bytes heq
          · exact hm.2.1 _ _ _ heq
          · cases heq
        · cases (Holding.drop_ends hlock hsees hdropped).1
      · have hlock' := hplaced.holding hlock
        have hsees := hbroken.sees
        obtain ⟨u', w₂, hdropped, hthrow⟩ | ⟨e', hdropped, heq⟩ := Prog.Ends.of_bind hsame
        · obtain ⟨-, rfl⟩ := Prog.Ends.of_ret hthrow
          obtain ⟨-, j, u', ⟨x, rfl, -⟩, hu, hsees'⟩ := Holding.drop_ends hlock' hsees.later hdropped
          obtain ⟨more, hmore, -⟩ := hsees'.journal
          refine iff_of_false (fun htells => hplaced.changed ?_) (not_not.mpr ?_)
          · rw [← (show w'.find (entryPath lock.key.digest) = u.find (entryPath lock.key.digest) from ?_)]
            · exact htells.entry
            · rw [hsees'.find]
              rcases hu with rfl | rfl
              · exact Scene.find_put_of_ne _ (hlock.entry_ne)
              · rfl
          · refine @fails_of_broken _ _ _ _ _ _ _ _ _ _ _ _ _ (x ++ [⟨a, .released lock.held.path .key⟩] ++ more) hplaced hbroken ?_
            rw [hmore]
            change (w₀.journal ++ x) ++ [_] ++ more = _
            simp only [List.append_assoc]
        · cases (Holding.drop_ends hlock' hsees hdropped).1
    · cases (Prog.Ends.of_ret hsame).1

theorem store_tells_locked : ∃ r w', (lockA.store Serde.unit.codec roomy () briefly : M Unit Stored).Ends
    (machine Unit Unit noSync fun _ _ => True) () lockedA r w' ∧
      (Stored.Tells Serde.unit.codec roomy lockA () briefly () lockedA w' r ↔ ¬FailsAfterRename () lockA lockedA w') := by
  obtain ⟨e, w', h, -⟩ := store_fails
  refine ⟨_, w', h, store_tells_iff fit_lockedA.entries holding_lockedA (by simp [lockA, keyA, entry_lockedA]) ?_ h⟩
  intro f hf
  cases hf

/-- The directory of the entries cannot be synced: the store fails, and the entry is replaced. -/
theorem store_fails_replaced : ∃ e w', (lockA.store Serde.unit.codec roomy () briefly : M Unit Stored).Ends
    (machine Unit Unit noSync fun _ _ => True) () lockedA (.error e) w' ∧
      ¬Stored.Tells Serde.unit.codec roomy lockA () briefly () lockedA w' (.error e) := by
  obtain ⟨e, w', h, hchanged⟩ := store_fails
  exact ⟨e, w', h, fun htells => hchanged htells.entry⟩

end Unixd.Cache
