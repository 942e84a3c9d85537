import Unixd.Cache.Files
import Unixd.Cache.KeyLock

/-!
# Writing an entry, alone

A write of an entry on a known scene, where calls may fail: before the rename nothing is left of it, and after the
rename the entry is there.
-/

namespace Unixd.Cache

open Unixd.Lib Protocol.Scope

set_option linter.unusedSectionVars false

variable {A V T : Type} [DecidableEq A] {faults : Op V → Prop} {tick : ℕ → ℕ → Prop} {a : A} {v : Scene A} {ℓ : Margin A V}
  {path : Path} {i f since : ℕ} {node : Node} {o : Open} {X : Error → World A V → Prop} {digest : Name} {bytes written : Bytes}

/-- A temporary file in a scene, with what was written to it. -/
def Scene.writing (v : Scene A) (a : A) (f : ℕ) (path : Path) (i since : ℕ) (node : Node) (written : Bytes) : Scene A :=
  (v.put path (some (i, node))).setFile a f (some (.temporary path i since written))

/-- An inode that was free has the name that it was given. -/
lemma Scene.Free.only (h : v.Free i) {p : Path} {x : Node} (hfind : (v.put path (some (i, node))).find p = some (i, x)) : p = path := by
  by_contra hne
  rw [find_put_of_ne _ hne] at hfind
  exact h.1 p x hfind

lemma solo_writeAll (hfree : v.Free i) (hkind : node.kind = .file) (howned : node.owned = true) :
    Solo faults tick a (Sees a (v.writing a f path i since node written) ℓ) (writeAll f bytes : M V Unit)
      (fun _ w => ∃ node' written', (node'.kind = .file ∧ node'.owned = true ∧ node'.bytes = node.bytes ++ bytes) ∧
        Sees a (v.writing a f path i since node' written') ℓ w)
      (fun e w => ∃ node' written', node'.kind = .file ∧ Broken faults a (v.writing a f path i since node' written') ℓ e w) := by
  refine (Runs.iterate (J := fun n left w => n = left.length ∧ ∃ node' written',
    (node'.kind = .file ∧ node'.owned = true ∧ node'.bytes ++ left = node.bytes ++ bytes) ∧
      Sees a (v.writing a f path i since node' written') ℓ w) (fun n left => ?_) bytes.length bytes).pre fun w _ h =>
        ⟨rfl, node, written, ⟨hkind, howned, rfl⟩, h⟩
  refine .imp fun hn => .of_exists fun node' => .of_exists fun written' => .imp fun ⟨hkind', howned', hbytes⟩ => ?_
  subst hn
  by_cases hleft : left = []
  · simp only [if_pos hleft]
    subst hleft
    rw [List.append_nil] at hbytes
    exact .pure fun w _ h => ⟨node', written', ⟨hkind', howned', hbytes⟩, h⟩
  · simp only [if_neg hleft]
    refine .bind (solo_write (Scene.files_setFile_self _) (Scene.find_put_self _) fun p x hx => hfree.only hx) fun r => .or ?_ ?_
    · refine .of_exists fun n => .of_exists fun node'' => .imp fun hr => .imp fun hle => .imp fun hpos => .imp fun hk => .imp fun ho =>
        .imp fun hb => ?_
      subst hr
      refine .pure fun w _ h => ⟨(left.drop n).length, ?_, rfl, node'', written' ++ left.take n, ⟨hk.trans hkind', ho.trans howned', ?_⟩, ?_⟩
      · have hpos' := hpos hleft
        rw [List.length_drop]
        have hlen := List.length_pos_of_ne_nil hleft
        omega
      · rw [hb, List.append_assoc, List.take_append_drop, hbytes]
      · unfold Scene.writing at h ⊢
        rwa [Scene.put_setFile, Scene.put_put, Scene.setFile_setFile] at h
    · intro w hi h
      obtain ⟨code, rfl⟩ := h.2.1
      exact .ret ⟨node', written', hkind', h.broken _⟩

lemma Scene.put_writing {node' : Node} :
    (v.writing a f path i since node written).put path (some (i, node')) = v.writing a f path i since node' written := by
  unfold writing
  rw [put_setFile, put_put]

lemma Scene.files_writing : (v.writing a f path i since node written).files a f = some (.temporary path i since written) :=
  files_setFile_self _

lemma Scene.find_writing : (v.writing a f path i since node written).find path = some (i, node) :=
  find_put_self _

lemma Scene.Free.only_writing (h : v.Free i) {p : Path} {x : Node}
    (hfind : (v.writing a f path i since node written).find p = some (i, x)) : p = path :=
  h.only hfind

/-- A call and what follows, unless it fails. -/
lemma solo_bind_ok {α : Type} {op : Op V} {q : M V (Except ErrorKind Unit)} {p : Unit → M V α} {S U : World A V → Prop}
    {T : α → World A V → Prop} (hq : Solo faults tick a S q (fun r w => r = .ok () ∧ U w ∨ Fails faults op a v ℓ r w) X)
    (hbroken : ∀ e w, Broken faults a v ℓ e w → X e w) (hp : Solo faults tick a U (p ()) T X) :
    Solo faults tick a S (q >>= fun r => ofResult r >>= p) T X := by
  refine .bind hq fun r => .or (.imp fun hr => ?_) fun w _ h => ?_
  · subst hr
    exact hp
  · obtain ⟨code, rfl⟩ := h.2.1
    exact .ret (hbroken _ _ (h.broken _))

/-- A call on a temporary file failed. -/
def Torn (faults : Op V → Prop) (a : A) (v : Scene A) (ℓ : Margin A V) (f : ℕ) (path : Path) (i since : ℕ) (e : Error)
    (w : World A V) : Prop :=
  ∃ node written, node.kind = .file ∧ Broken faults a (v.writing a f path i since node written) ℓ e w

lemma solo_dateTemp {ms : ℕ} (hfree : v.Free i) :
    Solo faults tick a (Sees a (v.writing a f path i since node written) ℓ) (Sys.setModified f ms) (fun r w =>
      r = .ok () ∧ Sees a (v.writing a f path i since { node with modified := millisecond ms } written) ℓ w ∨
        Fails faults (.setModified f ms) a (v.writing a f path i since node written) ℓ r w) X := by
  refine (solo_setModified Scene.files_writing Scene.find_writing fun p x hx => hfree.only_writing hx).post fun r w _ h => ?_
  refine h.imp_left (And.imp_right fun h => ?_)
  rwa [← Scene.put_writing]

/-- The entry of `digest` was put in place of what was there, as the journal says. -/
structure Placed (a : A) (v : Scene A) (ℓ : Margin A V) (digest : Name) (bytes : Bytes) (u : Scene A) (ℓ' : Margin A V) : Prop where
  entry : ∃ i node, v.Free i ∧ node.kind = .file ∧ node.owned = true ∧ node.bytes = bytes ∧ node.modified = millisecond v.clock ∧
    u = v.put (entryPath digest) (some (i, node))
  journal : ∃ src j, ℓ.Holds a j ∧ ℓ' = ℓ.later (j ++ [⟨a, .renamed src (entryPath digest) bytes⟩])

/-- What a write may do to the names of temporary files. -/
def Margin.Writes (ℓ : Margin A V) (digest : Name) : Prop :=
  ∀ p, Temporary entries (temporaryStart digest) temporarySuffix p → ℓ.may (.linked p) ∧ ℓ.may (.dropped p)

/-- The part of a write that ends with the rename. -/
def placeEntry (digest : Name) (bytes : Bytes) : M V Unit := do
  ensureDir entries
  let file ← ofResult (← Sys.tempfile entries (temporaryStart digest) temporarySuffix)
  closing file do
    orElseDrop (Sys.dropTemp file) do
      writeAll file bytes
      let now ← Sys.now
      ofResult (← Sys.setModified file now)
      ofResult (← Sys.fsync file)
      ofResult (← Sys.persist file (entryPath digest))

lemma writeAtomic_eq : (writeAtomic digest bytes : M V Unit) = placeEntry digest bytes >>= fun _ => syncDir entries := by
  unfold writeAtomic placeEntry
  simp only [Prog.bind_assoc]

/-- What fails before the rename leaves nothing. -/
theorem solo_placeEntry (hdir : v.OwnDir entries) (hentry : ∀ j x, v.find (entryPath digest) = some (j, x) → x.kind ≠ .dir)
    (hmay : ℓ.Writes digest) (hdrop : ∀ f, ¬faults (.dropTemp f)) :
    Solo faults tick a (Sees a v ℓ) (placeEntry digest bytes : M V Unit)
      (fun _ w => ∃ u ℓ', Placed a v ℓ digest bytes u ℓ' ∧ Sees a u ℓ' w) (Broken faults a v ℓ) := by
  refine .bind (solo_ensureDir hdir) fun _ => ?_
  refine .bind (solo_tempfile hdir fun p hp => (hmay p hp).1) fun r => .or ?_ ?_
  · refine .of_exists fun f => .of_exists fun path => .of_exists fun i => .of_exists fun node => .of_exists fun since => .imp fun hr =>
      .imp fun htemp => .imp fun hnone => .imp fun hfree => .imp fun hnew => .imp fun hkind => .imp fun howned => .imp fun hempty => ?_
    subst hr
    rw [ofResult_ok_bind]
    have hinner : Solo faults tick a (Sees a (v.writing a f path i since node []) ℓ) (do
          writeAll f bytes
          let now ← Sys.now
          ofResult (← Sys.setModified f now)
          ofResult (← Sys.fsync f)
          ofResult (← Sys.persist f (entryPath digest)) : M V Unit)
        (fun _ w => ∃ u ℓ' o, Placed a v ℓ digest bytes u ℓ' ∧ u.files a f = none ∧ Sees a (u.setFile a f (some o)) ℓ' w)
        (Torn faults a v ℓ f path i since) := by
      refine .bind (solo_writeAll hfree hkind howned) fun _ => .of_exists fun node' => .of_exists fun written' => .imp
        fun ⟨hkind', howned', hbytes⟩ => ?_
      rw [hempty, List.nil_append] at hbytes
      subst hbytes
      refine .bind solo_now fun now => .imp fun hnow => ?_
      subst hnow
      refine solo_bind_ok (solo_dateTemp hfree) (fun e w h => ⟨_, _, hkind', h⟩) ?_
      refine solo_bind_ok solo_fsync (fun e w h => ⟨{ node' with modified := millisecond v.clock }, written', hkind', h⟩) ?_
      refine .bind (solo_persist Scene.files_writing Scene.find_writing ?_) fun r => .or ?_ fun w _ h => ?_
      · intro j x hx hdirkind
        by_cases hp : entryPath digest = path
        · rw [hp, Scene.find_writing, Option.some_inj, Prod.mk.injEq] at hx
          rw [← hx.2] at hdirkind
          exact absurd (hkind'.symm.trans hdirkind) (by simp)
        · exact hentry j x ((Scene.find_put_of_ne _ hp).symm.trans hx) hdirkind
      · refine .imp fun hr => .of_exists fun j => .imp fun hj => ?_
        subst hr
        refine .pure fun w _ h => ⟨_, _, .at (entryPath digest) i since, ⟨⟨i, { node' with modified := millisecond v.clock },
          hfree, hkind', howned', rfl, rfl, rfl⟩, path, j, hj, rfl⟩, hnew, ?_⟩
        unfold Scene.writing at h
        rwa [Scene.put_setFile, Scene.put_setFile, Scene.setFile_setFile, Scene.put_put, Scene.put_eq_self hnone] at h
      · obtain ⟨code, rfl⟩ := h.2.1
        exact .ret ⟨{ node' with modified := millisecond v.clock }, written', hkind', h.broken _⟩
    refine Runs.handle (Y := fun e w => v.files a f = none ∧ ∃ o, Broken faults a (v.setFile a f (some o)) ℓ e w)
      (Runs.handle hinner (fun _ => .pure fun w _ h => h) fun e => ?_) (fun _ => ?_) fun e => ?_
    · refine .of_exists fun node' => .of_exists fun written' => .imp fun hkind' => .of_exists fun j => .imp fun hf => .imp fun hj => ?_
      refine .bind (solo_dropTemp Scene.files_writing ?_ (Or.inl (hmay path htemp).2) (hdrop f)) fun _ =>
        .throw fun w _ h => ⟨hnew, .at path i since, j, hf, hj, ?_⟩
      · intro j x hx hdirkind
        rw [Scene.find_writing, Option.some_inj, Prod.mk.injEq] at hx
        rw [← hx.2] at hdirkind
        exact absurd (hkind'.symm.trans hdirkind) (by simp)
      · unfold Scene.writing at h
        rwa [Scene.put_setFile, Scene.setFile_setFile, Scene.put_put, Scene.put_eq_self hnone] at h
    · refine .of_exists fun u => .of_exists fun ℓ' => .of_exists fun o => .imp fun hplaced => .imp fun hnone' => ?_
      refine .bind (solo_close (Scene.files_setFile_self _)) fun _ => .pure fun w _ h => ⟨u, ℓ', hplaced, ?_⟩
      rwa [Scene.setFile_setFile, Scene.setFile_eq_self hnone'] at h
    · refine .imp fun hnone' => .of_exists fun o => .of_exists fun j => .imp fun hf => .imp fun hj => ?_
      refine .bind (solo_close (Scene.files_setFile_self _)) fun _ => .throw fun w _ h => ⟨j, hf, hj, ?_⟩
      rwa [Scene.setFile_setFile, Scene.setFile_eq_self hnone'] at h
  · intro w hi h
    obtain ⟨code, rfl⟩ := h.2.1
    exact .ret (h.broken _)

/-- A write that fails before the rename leaves nothing, and one that fails after it leaves the entry. -/
theorem solo_writeAtomic (hdir : v.OwnDir entries) (hentry : ∀ j x, v.find (entryPath digest) = some (j, x) → x.kind ≠ .dir)
    (hmay : ℓ.Writes digest) (hdrop : ∀ f, ¬faults (.dropTemp f)) :
    Solo faults tick a (Sees a v ℓ) (writeAtomic digest bytes : M V Unit)
      (fun _ w => ∃ u ℓ', Placed a v ℓ digest bytes u ℓ' ∧ Sees a u ℓ' w)
      (fun e w => Broken faults a v ℓ e w ∨ ∃ u ℓ', Placed a v ℓ digest bytes u ℓ' ∧ Broken faults a u ℓ' e w) := by
  rw [writeAtomic_eq]
  refine .bind (Lone.mono (solo_placeEntry hdir hentry hmay hdrop) (fun _ => id) (fun _ _ => id) fun _ _ => Or.inl) fun _ => ?_
  refine .of_exists fun u => .of_exists fun ℓ' => .imp fun hplaced => ?_
  have hdir' : u.OwnDir entries := by
    obtain ⟨i, node, -, -, -, -, -, rfl⟩ := hplaced.entry
    obtain ⟨d, dir, hfind, hkind⟩ := hdir
    exact ⟨d, dir, (Scene.find_put_of_ne _ (by simp [entries, entryPath])).trans hfind, hkind⟩
  refine Lone.mono (solo_syncDir hdir') (fun _ => id) (fun _ w h => ⟨u, ℓ', hplaced, h⟩) fun e w h => Or.inr ⟨u, ℓ', hplaced, h⟩

/-- The scene of an agent that holds a key lock. -/
structure Scene.Holding (v : Scene A) (a : A) (lock : KeyLock) : Prop where
  path : lock.held.path = lockPath lock.key.digest
  held : ∃ i since, v.files a lock.held.file = some (.holding lock.held.path i since .key)
  shares : ∃ i since, v.files a lock.maintenance = some (.withLock maintenanceLock i since .shared)
  ne : lock.held.file ≠ lock.maintenance
  regular : v.Regular lock.held.path

/-- What is left when a key lock was dropped, its file gone or not. -/
def Scene.dropped (v : Scene A) (a : A) (lock : KeyLock) : Scene A :=
  (v.setFile a lock.held.file none).setFile a lock.maintenance none

lemma Scene.files_dropped {lock : KeyLock} :
    (v.dropped a lock).files a lock.held.file = none ∧ (v.dropped a lock).files a lock.maintenance = none := by
  refine ⟨?_, files_setFile_self _⟩
  by_cases h : lock.held.file = lock.maintenance
  · rw [h]
    exact files_setFile_self _
  · exact (files_setFile_of_ne _ h).trans (files_setFile_self _)

/-- Whatever fails, the lock is free afterwards. -/
lemma solo_drop {lock : KeyLock} (h : v.Holding a lock) : Solo faults tick a (Sees a v ℓ) (lock.drop : M V Unit) (fun _ w =>
    ∃ j, ℓ.Holds a j ∧ (Sees a ((v.put lock.held.path none).dropped a lock)
        (ℓ.later (j ++ [⟨a, .released lock.held.path .key⟩])) w ∨
      (∃ f, faults (.release f)) ∧ Sees a (v.dropped a lock) (ℓ.later (j ++ [⟨a, .released lock.held.path .key⟩])) w)) X := by
  obtain ⟨i, since, hheld⟩ := h.held
  obtain ⟨m, since', hshares⟩ := h.shares
  have hclose : ∀ {u : Scene A} {ℓ' : Margin A V} {o : Open}, u.files a lock.maintenance = v.files a lock.maintenance →
      Solo faults tick a (Sees a (u.setFile a lock.held.file (some o)) ℓ') (do
        Sys.close lock.held.file
        Sys.close lock.maintenance : M V Unit) (fun _ => Sees a (u.dropped a lock) ℓ') X := by
    intro u ℓ' o hfile
    refine .bind (solo_close (Scene.files_setFile_self _)) fun _ => ?_
    rw [Scene.setFile_setFile]
    refine solo_close (o := .withLock maintenanceLock m since' .shared) ?_
    rw [Scene.files_setFile_of_ne _ h.ne.symm, hfile, hshares]
  have hdir : ∀ j x, v.find (Open.holding lock.held.path i since .key).path = some (j, x) → x.kind ≠ .dir := by
    intro j x hx hkind
    exact absurd ((h.regular j x hx).1.symm.trans hkind) (by simp)
  have hprog : (lock.drop : M V Unit) = Sys.release lock.held.file >>= fun _ => (do
      Sys.close lock.held.file
      Sys.close lock.maintenance) := rfl
  rw [hprog]
  refine .bind (solo_released hheld rfl hdir) fun _ => .of_exists fun j => .imp fun hj => .or ?_ (.imp fun hf => ?_)
  · exact Runs.post (hclose (u := v.put lock.held.path none) rfl) fun _ w _ h => ⟨j, hj, Or.inl h⟩
  · exact Runs.post (hclose (u := v) rfl) fun _ w _ h => ⟨j, hj, Or.inr ⟨⟨_, hf⟩, h⟩⟩

section

variable {codec : Codec T} {inner : Inner} {lock : KeyLock} {value : T} {policy : Policy}

/-- The part of a store that ends with the entry in place. -/
def writeEntry (codec : Codec T) (inner : Inner) (lock : KeyLock) (value : T) (policy : Policy) : M V (Option ℕ) := do
  let now ← Sys.now
  match codec.encode (.at inner lock.key now value policy) with
  | none => throw .encode
  | some bytes =>
    if inner.limits.maxEntryBytes < bytes.length then
      return some bytes.length
    else
      writeAtomic lock.key.digest bytes
      return none

lemma store_eq : (lock.store codec inner value policy : M V Stored) = (do
    let written ← orElseDrop lock.drop (writeEntry codec inner lock value policy)
    lock.drop
    match written with
    | some size => return .tooLarge size
    | none => return .written (← maintain codec inner)) := rfl

/-- What a store wrote, or why it did not. -/
def Wrote (codec : Codec T) (inner : Inner) (lock : KeyLock) (value : T) (policy : Policy) (a : A) (v : Scene A) (ℓ : Margin A V) :
    Option ℕ → World A V → Prop
  | some size, w => (∃ bytes, codec.encode (.at inner lock.key v.clock value policy) = some bytes ∧ size = bytes.length ∧
      inner.limits.maxEntryBytes < size) ∧ Sees a v ℓ w
  | none, w => ∃ bytes u ℓ', (codec.encode (.at inner lock.key v.clock value policy) = some bytes ∧
      bytes.length ≤ inner.limits.maxEntryBytes) ∧ Placed a v ℓ lock.key.digest bytes u ℓ' ∧ Sees a u ℓ' w

/-- Nothing was written, or the entry was put in place and a call failed after that. -/
def Unwritten (faults : Op V → Prop) (lock : KeyLock) (a : A) (v : Scene A) (ℓ : Margin A V) (e : Error) (w : World A V) : Prop :=
  Sees a v ℓ.lax w ∨ ∃ bytes u ℓ', Placed a v ℓ lock.key.digest bytes u ℓ' ∧ Broken faults a u ℓ' e w

lemma solo_writeEntry (hdir : v.OwnDir entries) (hentry : ∀ j x, v.find (entryPath lock.key.digest) = some (j, x) → x.kind ≠ .dir)
    (hmay : ℓ.Writes lock.key.digest) (hdrop : ∀ f, ¬faults (.dropTemp f)) :
    Solo faults tick a (Sees a v ℓ) (writeEntry codec inner lock value policy) (Wrote codec inner lock value policy a v ℓ)
      (Unwritten faults lock a v ℓ) := by
  refine .bind solo_now fun now => .imp fun hnow => ?_
  subst hnow
  cases hencode : codec.encode (.at inner lock.key v.clock value policy) with
  | none => exact .throw fun w _ h => Or.inl h.lax
  | some bytes =>
    dsimp only
    by_cases hlarge : inner.limits.maxEntryBytes < bytes.length
    · rw [if_pos hlarge]
      exact .pure fun w _ h => ⟨⟨bytes, hencode, rfl, hlarge⟩, h⟩
    · rw [if_neg hlarge]
      refine .bind (Lone.mono (solo_writeAtomic hdir hentry hmay hdrop) (fun _ => id) (fun _ _ => id) fun e w h => ?_) fun _ => ?_
      · rcases h with h | ⟨u, ℓ', hplaced, h⟩
        · exact Or.inl h.sees
        · exact Or.inr ⟨bytes, u, ℓ', hplaced, h⟩
      · refine .of_exists fun u => .of_exists fun ℓ' => .imp fun hplaced => .pure fun w _ h => ?_
        exact ⟨bytes, u, ℓ', ⟨hencode, not_lt.mp hlarge⟩, hplaced, h⟩

end

end Unixd.Cache
