import Unixd.Cache.Files

/-!
# What a prune does, alone

The exact result of a prune of a known scene: what it judges of each name, what it removes, and what it counts.
-/

namespace Unixd.Cache

open Unixd.Lib Protocol.Scope

set_option linter.unusedSectionVars false

variable {A V T α : Type} [DecidableEq A] {tick : ℕ → ℕ → Prop} {a : A} {u v : Scene A} {ℓ : Margin A V} {path : Path}
  {i f now : ℕ} {node : Node} {o : Open} {name digest : Name} {gone : Set Path} {held : Held}

namespace Scene

lemma find_hold_of_ne {since : ℕ} {by' : HeldBy} (h : path ≠ held.path) :
    (v.hold a held i since node by').find path = v.find path :=
  find_put_of_ne _ h

lemma hold_less {since : ℕ} {by' : HeldBy} (h : held.path ∉ gone) :
    (v.hold a held i since node by').less gone = (v.less gone).hold a held i since node by' := by
  rw [hold, less_setFile, less_put _ h]
  rfl

lemma hold_extent {since : ℕ} {by' : HeldBy} (h : path ≠ held.path) :
    (v.hold a held i since node by').extent path = v.extent path :=
  extent_congr (find_hold_of_ne h)

end Scene

/-- What is done under the lock of a key that nobody has, and what instead when somebody has it. -/
lemma does_underKey {p : Held → M V α} {q : M V α} {T : α → Scene A → Prop} (hdir : v.OwnDir locks)
    (hreg : v.Regular (lockPath digest)) (hlinked : ℓ.may (.linked (lockPath digest)))
    (hreleased : ℓ.may (.released (lockPath digest) .prune))
    (htaken : v.Taken (lockPath digest) → Does tick a (Sees a v ℓ) q fun x w => ∃ u, T x u ∧ Sees a u ℓ w)
    (hfree : ¬v.Taken (lockPath digest) → ∀ held i since node, held.path = lockPath digest → v.files a held.file = none →
      node.kind = .file → Does tick a (Sees a (v.hold a held i since node .prune) ℓ) (p held) fun x w =>
        ∃ u : Scene A, T x (u.less {lockPath digest}) ∧ u.files a held.file = none ∧ Sees a (u.hold a held i since node .prune) ℓ w) :
    Does tick a (Sees a v ℓ) (do
      match ← tryKey digest with
      | none => q
      | some held => withHeld held (p held)) fun x w => ∃ u, T x u ∧ Sees a u ℓ w := by
  refine .bind (does_tryLockExclusive (lockPath_dropLast digest ▸ hdir) hreg fun _ => hlinked) fun r => .or ?_ ?_
  · refine .imp fun ht => .imp fun hr => ?_
    subst hr
    exact htaken ht
  · refine .imp fun ht => .of_exists fun held => .of_exists fun i => .of_exists fun node => .of_exists fun since =>
      .imp fun hr => .imp fun hpath => .imp fun hlocks => .imp fun hnew => ?_
    subst hr
    refine does_after (hfree ht held i since node hpath hnew hlocks.kind) fun x => .of_exists fun u => .imp fun hT => .imp fun hfile => ?_
    refine (does_drop (Scene.files_setFile_self _) ?_ ?_).post fun _ w _ h => ⟨_, hT, ?_⟩
    · intro j node' hfind
      rw [Scene.find_setFile, Scene.find_put_self, Option.some_inj, Prod.mk.injEq] at hfind
      exact hfind.2 ▸ ⟨hlocks.kind, hlocks.owned⟩
    · rwa [hpath]
    · unfold Scene.hold at h
      rw [Scene.put_setFile, Scene.setFile_setFile, Scene.put_put, Scene.setFile_eq_self (v := u.put held.path none) hfile, Scene.put_none, hpath] at h
      exact h

/-- What becomes of a name in a prune's first pass. -/
inductive Judgement where
  | skip
  | temporary
  | irregular
  | expired
  | unused
  | keep
  deriving DecidableEq

def Judgement.Goes : Judgement → Prop
  | .skip | .keep => False
  | _ => True

namespace Scene

/-- Whether some agent has the key that a temporary file names. -/
def Writes (v : Scene A) (name : Name) : Prop :=
  ∃ digest, temporaryDigest (entries ++ [name]) = some digest ∧ v.Taken (lockPath digest)

def used (v : Scene A) (name : Name) : ℕ :=
  (v.find (entries ++ [name])).elim 0 fun x => modifiedMs (x.2.metadata x.1)

def size (v : Scene A) (name : Name) : ℕ :=
  (v.find (entries ++ [name])).elim 0 fun x => x.2.bytes.length

open Classical in
noncomputable def verdict (v : Scene A) (codec : Codec T) (inner : Inner) (now : ℕ) (name : Name) : Judgement :=
  if isTemporary (entries ++ [name]) then
    if v.Writes name then .skip else .temporary
  else
    match entryDigest (entries ++ [name]) with
    | none => .skip
    | some digest =>
      if v.Taken (lockPath digest) then .skip
      else
        match v.find (entries ++ [name]) with
        | none => .skip
        | some (_, node) =>
          if node.kind ≠ .file then .irregular
          else if inner.limits.maxEntryBytes < node.bytes.length ∨
              ¬Live codec digest now inner.limits.maxEntryBytes node.bytes then .expired
          else if millis inner.limits.unusedAfter < now - v.used name then .unused
          else .keep

end Scene

/-- The digest that the name of an entry begins with. -/
def digestOf (name : Name) : Name :=
  (entryDigest (entries ++ [name])).getD []

def Pass.judge (pass : Pass) (v : Scene A) (name : Name) : Judgement → Pass
  | .skip | .irregular => pass
  | .temporary => pass.removeTemporary
  | .expired => pass.removeExpired (v.size name)
  | .unused => pass.removeUnused (v.size name)
  | .keep => { pass with kept := pass.kept ++ [(v.used name, digestOf name, v.size name)] }

/-- A scene in which a lock file is there only while somebody has its lock. -/
structure Scene.Swept (v : Scene A) : Prop where
  dir : v.OwnDir locks
  regular : ∀ {path}, ChildOf locks path → v.Regular path
  taken : ∀ {path}, ChildOf locks path → v.find path ≠ none → v.Taken path

/-- A prune may make and remove lock files, and remove what is at `path`. -/
structure Margin.Prunes (ℓ : Margin A V) (path : Path) : Prop where
  linked : ∀ digest, ℓ.may (.linked (lockPath digest))
  released : ∀ digest, ℓ.may (.released (lockPath digest) .prune)
  unlinked : ∀ reason, ℓ.may (.unlinked path (.prune reason))

lemma Scene.Swept.less_lock (h : v.Swept) (hfree : ¬v.Taken (lockPath digest)) :
    v.less (gone ∪ {lockPath digest}) = v.less gone := by
  refine less_congr fun p hp => ⟨fun hmem => hmem.resolve_right ?_, Or.inl⟩
  rintro rfl
  exact hfree (h.taken (childOf_lockPath digest) hp)

lemma lockPath_not_mem_extent : lockPath digest ∉ v.extent (entries ++ [name]) := by
  intro hmem
  have hp := Scene.prefix_of_mem_extent hmem
  rw [entries, lockPath, locks, List.singleton_append, List.singleton_append, List.cons_prefix_cons] at hp
  exact absurd hp.1 (by decide)

/-- A temporary file goes unless the holder of its key may be writing it. -/
lemma does_pruneTemporary {pass : Pass} (hswept : v.Swept) (hmay : ℓ.Prunes (entries ++ [name])) :
    Does tick a (Sees a v ℓ) (pruneTemporary (entries ++ [name]) pass : M V Pass) fun pass' w =>
      v.Writes name ∧ pass' = pass ∧ Sees a v ℓ w ∨
        ¬v.Writes name ∧ pass' = pass.removeTemporary ∧ Sees a (v.less (v.extent (entries ++ [name]))) ℓ w := by
  unfold pruneTemporary
  cases hdigest : temporaryDigest (entries ++ [name]) with
  | none =>
    refine .bind (does_remove (hmay.unlinked _)) fun _ => .pure fun w _ h => Or.inr ⟨?_, rfl, h⟩
    rintro ⟨digest, hd, -⟩
    rw [hdigest] at hd
    cases hd
  | some digest =>
    have hwrites : v.Writes name ↔ v.Taken (lockPath digest) := by
      constructor
      · rintro ⟨digest', hd, htaken⟩
        rw [hdigest, Option.some_inj] at hd
        exact hd ▸ htaken
      · exact fun htaken => ⟨digest, hdigest, htaken⟩
    have hchild := childOf_lockPath digest
    have hne : entries ++ [name] ≠ lockPath digest := fun heq => ChildOf.not_locks ⟨name, rfl⟩ (heq.symm ▸ hchild)
    refine (does_underKey (T := fun pass' u => v.Writes name ∧ pass' = pass ∧ u = v ∨ ¬v.Writes name ∧
      pass' = pass.removeTemporary ∧ u = v.less (v.extent (entries ++ [name]))) hswept.dir (hswept.regular hchild)
        (hmay.linked digest) (hmay.released digest) (fun ht => ?_) fun ht held i since node hpath hnew hkind => ?_).post ?_
    · exact .pure fun w _ h => ⟨v, Or.inl ⟨hwrites.mpr ht, rfl, rfl⟩, h⟩
    · refine .bind (does_remove (hmay.unlinked _)) fun _ => .pure fun w _ h => ?_
      refine ⟨v.less (v.extent (entries ++ [name])), Or.inr ⟨hwrites.not.mpr ht, rfl, ?_⟩, hnew, ?_⟩
      · rw [Scene.less_less, hswept.less_lock ht]
      · rwa [Scene.hold_extent (hpath ▸ hne), Scene.hold_less (hpath ▸ lockPath_not_mem_extent)] at h
    · rintro pass' w - ⟨u, ⟨hw, hp, rfl⟩ | ⟨hw, hp, rfl⟩, h⟩
      · exact Or.inl ⟨hw, hp, h⟩
      · exact Or.inr ⟨hw, hp, h⟩

/-- What is judged of an entry whose key is free. -/
lemma Scene.verdict_entry {codec : Codec T} {inner : Inner} (htemp : isTemporary (entries ++ [name]) = false)
    (hdigest : entryDigest (entries ++ [name]) = some digest) (hfree : ¬v.Taken (lockPath digest))
    (hfind : v.find (entries ++ [name]) = some (i, node)) : v.verdict codec inner now name =
      open Classical in
      if node.kind ≠ .file then .irregular
      else if inner.limits.maxEntryBytes < node.bytes.length ∨
          ¬Live codec digest now inner.limits.maxEntryBytes node.bytes then .expired
      else if millis inner.limits.unusedAfter < now - v.used name then .unused
      else .keep := by
  unfold verdict
  rw [htemp, hdigest, hfind]
  simp [hfree]

/-- An entry whose key is free is judged, and goes or is kept. -/
lemma does_pruneEntry {codec : Codec T} {inner : Inner} {pass : Pass} (htemp : isTemporary (entries ++ [name]) = false)
    (hdigest : entryDigest (entries ++ [name]) = some digest) (hfree : ¬v.Taken (lockPath digest))
    (hfind : v.find (entries ++ [name]) = some (i, node)) {x : Scene A} (hx : x.find (entries ++ [name]) = some (i, node))
    (hmay : ℓ.Prunes (entries ++ [name])) :
    Does tick a (Sees a x ℓ) (pruneEntry codec inner now (entries ++ [name]) digest pass : M V Pass) fun pass' w =>
      pass' = pass.judge v name (v.verdict codec inner now name) ∧
        ((v.verdict codec inner now name).Goes ∧ Sees a (x.less (x.extent (entries ++ [name]))) ℓ w ∨
          ¬(v.verdict codec inner now name).Goes ∧ Sees a x ℓ w) := by
  have hverdict := @Scene.verdict_entry _ _ _ _ _ now _ _ _ codec inner htemp hdigest hfree hfind
  obtain ⟨hname, hd⟩ := entryDigest_eq_some.mp hdigest
  have hsize : v.size name = node.bytes.length := by rw [Scene.size, hfind]; rfl
  have hused : v.used name = modifiedMs (node.metadata i) := by rw [Scene.used, hfind]; rfl
  have hentry : entries ++ [name] = entryPath digest := by rw [hname]; rfl
  refine .bind (does_regular (hmay.unlinked _)) fun r => .or ?_ ?_
  · refine .of_exists fun j => .of_exists fun node' => .imp fun hfind' => .imp fun hkind => .imp fun hr => ?_
    rw [hx, Option.some_inj, Prod.mk.injEq] at hfind'
    obtain ⟨rfl, rfl⟩ := hfind'
    subst hr
    rw [if_neg (not_not.mpr hkind)] at hverdict
    dsimp only
    have hlen : (node.metadata i).len = node.bytes.length := rfl
    rw [hlen, ← hused]
    by_cases hlarge : inner.limits.maxEntryBytes < node.bytes.length
    · rw [if_pos (Or.inl hlarge)] at hverdict
      rw [if_pos hlarge, hverdict, ← hsize]
      exact .bind (does_remove (hmay.unlinked _)) fun _ => .pure fun w _ h => ⟨rfl, Or.inl ⟨trivial, h⟩⟩
    · rw [if_neg hlarge]
      rw [hentry] at hx ⊢
      refine .bind (does_live hd hx hkind) fun r => .imp fun hlive => ?_
      by_cases halive : r = true
      · rw [if_neg (not_not.mpr halive)]
        rw [if_neg (not_or.mpr ⟨hlarge, not_not.mpr (hlive.mp halive)⟩)] at hverdict
        by_cases hunused : millis inner.limits.unusedAfter < now - v.used name
        · rw [if_pos hunused] at hverdict
          rw [if_pos hunused, hverdict, ← hsize]
          exact .bind (does_remove (hentry ▸ hmay.unlinked _)) fun _ => .pure fun w _ h => ⟨rfl, Or.inl ⟨trivial, h⟩⟩
        · rw [if_neg hunused] at hverdict
          rw [if_neg hunused, hverdict, ← hsize]
          refine .pure fun w _ h => ⟨?_, Or.inr ⟨id, h⟩⟩
          simp only [Pass.judge, digestOf, hdigest, Option.getD_some]
      · rw [if_pos halive]
        rw [if_pos (Or.inr (hlive.not.mp halive))] at hverdict
        rw [hverdict, ← hsize]
        exact .bind (does_remove (hentry ▸ hmay.unlinked _)) fun _ => .pure fun w _ h => ⟨rfl, Or.inl ⟨trivial, h⟩⟩
  · refine .imp fun hkind => .imp fun hr => ?_
    subst hr
    rw [if_pos (hkind i node hx)] at hverdict
    rw [hverdict]
    exact .pure fun w _ h => ⟨rfl, Or.inl ⟨trivial, h⟩⟩

open Classical in
/-- What goes with a name in the first pass. -/
noncomputable def Scene.goes (v : Scene A) (codec : Codec T) (inner : Inner) (now : ℕ) (name : Name) : Set Path :=
  if (v.verdict codec inner now name).Goes then v.extent (entries ++ [name]) else ∅

lemma Scene.goes_eq_extent {codec : Codec T} {inner : Inner} (h : (v.verdict codec inner now name).Goes) :
    v.goes codec inner now name = v.extent (entries ++ [name]) :=
  if_pos h

lemma Scene.goes_eq_empty {codec : Codec T} {inner : Inner} (h : ¬(v.verdict codec inner now name).Goes) :
    v.goes codec inner now name = ∅ :=
  if_neg h

/-- One name of the first pass is judged as it was found. -/
lemma does_pruneName {codec : Codec T} {inner : Inner} {pass : Pass} (hswept : v.Swept) (hthere : v.find (entries ++ [name]) ≠ none)
    (hmay : ℓ.Prunes (entries ++ [name])) :
    Does tick a (Sees a v ℓ) (pruneName codec inner now pass name : M V Pass) fun pass' w =>
      pass' = pass.judge v name (v.verdict codec inner now name) ∧ Sees a (v.less (v.goes codec inner now name)) ℓ w := by
  unfold pruneName
  by_cases htemp : isTemporary (entries ++ [name]) = true
  · rw [if_pos htemp]
    refine (does_pruneTemporary hswept hmay).post fun pass' w _ h => ?_
    rcases h with ⟨hw, rfl, h⟩ | ⟨hw, rfl, h⟩
    · have hverdict : v.verdict codec inner now name = .skip := by
        unfold Scene.verdict
        rw [if_pos htemp, if_pos hw]
      rw [Scene.goes_eq_empty (hverdict ▸ id), hverdict, Scene.less_empty]
      exact ⟨rfl, h⟩
    · have hverdict : v.verdict codec inner now name = .temporary := by
        unfold Scene.verdict
        rw [if_pos htemp, if_neg hw]
      rw [Scene.goes_eq_extent (hverdict ▸ trivial), hverdict]
      exact ⟨rfl, h⟩
  · rw [if_neg htemp]
    cases hdigest : entryDigest (entries ++ [name]) with
    | none =>
      have hverdict : v.verdict codec inner now name = .skip := by
        unfold Scene.verdict
        rw [if_neg htemp, hdigest]
      rw [Scene.goes_eq_empty (hverdict ▸ id), hverdict, Scene.less_empty]
      exact .pure fun w _ h => ⟨rfl, h⟩
    | some digest =>
      have hchild := childOf_lockPath digest
      have hne : entries ++ [name] ≠ lockPath digest := fun heq => ChildOf.not_locks ⟨name, rfl⟩ (heq.symm ▸ hchild)
      obtain ⟨⟨i, node⟩, hfind⟩ := Option.ne_none_iff_exists'.mp hthere
      refine (does_underKey (T := fun pass' u => pass' = pass.judge v name (v.verdict codec inner now name) ∧
        u = v.less (v.goes codec inner now name)) hswept.dir (hswept.regular hchild) (hmay.linked digest)
          (hmay.released digest) (fun ht => ?_) fun ht held j since node' hpath hnew hkind => ?_).post ?_
      · have hverdict : v.verdict codec inner now name = .skip := by
          unfold Scene.verdict
          rw [if_neg htemp, hdigest]
          simp [ht]
        rw [Scene.goes_eq_empty (hverdict ▸ id), hverdict, Scene.less_empty]
        exact .pure fun w _ h => ⟨v, ⟨rfl, rfl⟩, h⟩
      · refine (does_pruneEntry (by simpa using htemp) hdigest ht hfind ?_ hmay).post fun pass' w _ h => ?_
        · rw [Scene.find_hold_of_ne (hpath ▸ hne), hfind]
        · obtain ⟨rfl, h⟩ := h
          refine ⟨v.less (v.goes codec inner now name), ⟨rfl, ?_⟩, hnew, ?_⟩
          · rw [Scene.less_less, hswept.less_lock ht]
          · rcases h with ⟨hgoes, h⟩ | ⟨hstays, h⟩
            · rw [Scene.goes_eq_extent hgoes]
              rwa [Scene.hold_extent (hpath ▸ hne), Scene.hold_less (hpath ▸ lockPath_not_mem_extent)] at h
            · rwa [Scene.goes_eq_empty hstays, Scene.less_empty]
      · rintro pass' w - ⟨u, ⟨hp, rfl⟩, h⟩
        exact ⟨hp, h⟩

namespace Scene

/-- A verdict depends on the entry and on who has its key. -/
lemma verdict_congr {codec : Codec T} {inner : Inner} (hfind : u.find (entries ++ [name]) = v.find (entries ++ [name]))
    (htaken : ∀ digest, u.Taken (lockPath digest) ↔ v.Taken (lockPath digest)) :
    u.verdict codec inner now name = v.verdict codec inner now name := by
  have heq : ∀ digest, u.Taken (lockPath digest) = v.Taken (lockPath digest) := fun digest => propext (htaken digest)
  unfold verdict Writes used
  rw [hfind]
  by_cases htemp : isTemporary (entries ++ [name]) = true
  · rw [if_pos htemp, if_pos htemp]
    congr 1
    simp only [htaken]
  · rw [if_neg htemp, if_neg htemp]
    cases entryDigest (entries ++ [name]) with
    | none => rfl
    | some digest =>
      dsimp only
      rw [heq]

lemma judge_congr {pass : Pass} {verdict : Judgement} (hfind : u.find (entries ++ [name]) = v.find (entries ++ [name])) :
    pass.judge u name verdict = pass.judge v name verdict := by
  unfold Pass.judge used size
  rw [hfind]

lemma goes_congr {codec : Codec T} {inner : Inner} (hfind : u.find (entries ++ [name]) = v.find (entries ++ [name]))
    (htaken : ∀ digest, u.Taken (lockPath digest) ↔ v.Taken (lockPath digest)) :
    u.goes codec inner now name = v.goes codec inner now name := by
  unfold goes
  rw [verdict_congr hfind htaken, extent_congr hfind]

lemma prefix_of_mem_goes {codec : Codec T} {inner : Inner} {p : Path} (h : p ∈ v.goes codec inner now name) :
    entries ++ [name] <+: p := by
  unfold goes at h
  split at h
  · exact prefix_of_mem_extent h
  · exact h.elim

lemma taken_less (hgone : path ∉ gone) : (v.less gone).Taken path ↔ v.Taken path := by
  unfold Taken
  rw [find_less_of_not_mem hgone]
  rfl

lemma taken_setFile_iff (hnew : v.files a f = none) (hlock : o.lock ≠ none → ∀ node, v.find path ≠ some (o.ino, node)) :
    (v.setFile a f (some o)).Taken path ↔ v.Taken path := by
  refine ⟨fun h => h.of_setFile hlock, ?_⟩
  rintro ⟨i, node, b, g, o', hfind, ho, hino, hl⟩
  refine ⟨i, node, b, g, o', hfind, ?_, hino, hl⟩
  rw [files_setFile_other _ ?_, ho]
  rintro ⟨rfl, rfl⟩
  rw [hnew] at ho
  cases ho

lemma taken_setFile (hnew : v.files a f = none) (hlock : o.lock = none) : (v.setFile a f (some o)).Taken path ↔ v.Taken path :=
  taken_setFile_iff hnew fun hl => absurd hlock hl

lemma Swept.setFile (h : v.Swept) (hnew : v.files a f = none) (hlock : o.lock = none) : (v.setFile a f (some o)).Swept :=
  ⟨h.dir, fun hchild => h.regular hchild, fun hchild hfind => (taken_setFile hnew hlock).mpr (h.taken hchild hfind)⟩

/-- What goes that is no lock file leaves the lock files as they are. -/
lemma Swept.less (h : v.Swept) (hgone : ∀ p ∈ gone, ¬ChildOf locks p ∧ p ≠ locks) : (v.less gone).Swept := by
  have hchild : ∀ {p}, ChildOf locks p → p ∉ gone := fun hc hmem => (hgone _ hmem).1 hc
  have hdir : locks ∉ gone := fun hmem => (hgone _ hmem).2 rfl
  refine ⟨?_, fun hc i node hfind => ?_, fun hc hfind => ?_⟩
  · obtain ⟨i, node, hfind, hkind⟩ := h.dir
    exact ⟨i, node, (find_less_of_not_mem hdir).trans hfind, hkind⟩
  · rw [find_less_of_not_mem (hchild hc)] at hfind
    exact h.regular hc i node hfind
  · rw [find_less_of_not_mem (hchild hc)] at hfind
    exact (taken_less (hchild hc)).mpr (h.taken hc hfind)

/-- What goes in the first pass. -/
def passes (v : Scene A) (codec : Codec T) (inner : Inner) (now : ℕ) : Set Path :=
  {p | ∃ name, v.find (entries ++ [name]) ≠ none ∧ p ∈ v.goes codec inner now name}

end Scene

lemma not_locks_of_prefix {p : Path} (h : entries ++ [name] <+: p) : ¬ChildOf locks p ∧ p ≠ locks := by
  obtain ⟨t, rfl⟩ := h
  refine ⟨?_, by simp [entries, locks]⟩
  rintro ⟨x, hx⟩
  simp [entries, locks] at hx

lemma entries_injective {name name' : Name} (h : entries ++ [name] = entries ++ [name']) : name = name' := by
  simpa using h

lemma Margin.prunes_during {j : List (Event A V)} {seen : List Name} (hmay : ∀ what, ℓ.may what) :
    (ℓ.during j entries (name :: seen)).Prunes (entries ++ [name]) := by
  have hlock : ∀ digest n, lockPath digest ≠ entries ++ [n] := fun digest n heq =>
    ChildOf.not_locks ⟨n, rfl⟩ (heq ▸ childOf_lockPath digest)
  refine ⟨fun digest => ⟨hmay _, fun n => ⟨fun ht => absurd ht (hlock digest n), fun hl => hlock digest n hl⟩⟩,
    fun digest => ⟨hmay _, fun n => ⟨fun ht => absurd ht (hlock digest n), id⟩⟩, fun reason => ⟨hmay _, fun n => ⟨fun ht => ?_, id⟩⟩⟩
  rw [← entries_injective ht]
  exact List.mem_cons_self

/-- The first pass, over the names in some order. -/
lemma does_pass {codec : Codec T} {inner : Inner} {pass : Pass} (hentries : v.OwnDir entries) (hswept : v.Swept)
    (hmay : ∀ what, ℓ.may what) :
    Does tick a (Sees a v ℓ) (forDir entries pass (pruneName codec inner now) : M V Pass) fun pass' w =>
      (∃ order : List Name, order.Nodup ∧ (∀ name, name ∈ order ↔ v.find (entries ++ [name]) ≠ none) ∧
        pass' = order.foldr (fun name p => p.judge v name (v.verdict codec inner now name)) pass) ∧
          Sees a (v.less (v.passes codec inner now)) ℓ w := by
  refine (does_forDir (I := fun seen pass' u =>
    pass' = seen.foldr (fun name p => p.judge v name (v.verdict codec inner now name)) pass ∧
      u = v.less {p | ∃ name ∈ seen, p ∈ v.goes codec inner now name}) hentries ⟨rfl, ?_⟩ ?_ ?_).post ?_
  · have hempty : {p | ∃ name ∈ ([] : List Name), p ∈ v.goes codec inner now name} = ∅ := by
      ext p
      simp
    rw [hempty, Scene.less_empty]
  · rintro seen pass' u ⟨-, rfl⟩ name hname
    refine Scene.find_less_of_not_mem ?_
    rintro ⟨n, hn, hmem⟩
    have hp := (Scene.prefix_of_mem_goes hmem).eq_of_length (by simp)
    exact hname (entries_injective hp ▸ hn)
  · rintro j seen pass' u name f o ⟨rfl, rfl⟩ hname hthere hnew hlock
    set gone := {p | ∃ name ∈ seen, p ∈ v.goes codec inner now name} with hgone
    have hout : ∀ p ∈ gone, ¬ChildOf locks p ∧ p ≠ locks := by
      rintro p ⟨n, -, hmem⟩
      exact not_locks_of_prefix (Scene.prefix_of_mem_goes hmem)
    have hfresh : entries ++ [name] ∉ gone := by
      rintro ⟨n, hn, hmem⟩
      have hp := (Scene.prefix_of_mem_goes hmem).eq_of_length (by simp)
      exact hname (entries_injective hp ▸ hn)
    have hfind : ((v.less gone).setFile a f (some o)).find (entries ++ [name]) = v.find (entries ++ [name]) :=
      Scene.find_less_of_not_mem hfresh
    have htaken : ∀ digest, ((v.less gone).setFile a f (some o)).Taken (lockPath digest) ↔ v.Taken (lockPath digest) := by
      intro digest
      rw [Scene.taken_setFile hnew hlock, Scene.taken_less fun hmem => (hout _ hmem).1 (childOf_lockPath digest)]
    refine (does_pruneName ((hswept.less hout).setFile hnew hlock) hthere (Margin.prunes_during hmay)).post ?_
    rintro pass' w - ⟨rfl, h⟩
    rw [Scene.verdict_congr hfind htaken, Scene.judge_congr hfind]
    rw [Scene.goes_congr hfind htaken, Scene.less_setFile, Scene.less_less] at h
    refine ⟨_, ⟨rfl, rfl⟩, hnew, ?_⟩
    have hsets : gone ∪ v.goes codec inner now name = {p | ∃ n ∈ name :: seen, p ∈ v.goes codec inner now n} := by
      ext p
      simp [hgone, or_comm]
    rwa [hsets] at h
  · rintro pass' w - ⟨u, ⟨seen, ⟨rfl, rfl⟩, hnodup, hnames⟩, h⟩
    refine ⟨⟨seen, hnodup, hnames, rfl⟩, ?_⟩
    have hsets : {p | ∃ name ∈ seen, p ∈ v.goes codec inner now name} = v.passes codec inner now := by
      ext p
      simp only [Set.mem_setOf_eq, Scene.passes, hnames]
    rwa [hsets] at h

/-- Those that the second pass removes. -/
def evict (targetEntries targetBytes : ℕ) : List Kept → Usage → List Kept
  | [], _ => []
  | x :: kept, left =>
    if left.entries ≤ targetEntries ∧ left.bytes ≤ targetBytes then []
    else x :: evict targetEntries targetBytes kept (left.remove x.2.2)

/-- A file that the second pass finds as the first one left it. -/
def Scene.Keeps (v : Scene A) (x : Kept) : Prop :=
  isDigest x.2.1 = true ∧ ¬v.Taken (lockPath x.2.1) ∧
    ∃ i node, v.find (entryPath x.2.1) = some (i, node) ∧ node.kind = .file ∧ modifiedMs (node.metadata i) = x.1

lemma does_pruneOldest {targetEntries targetBytes : ℕ} {kept : List Kept} {pass : Pass} (hswept : v.Swept)
    (hkeeps : ∀ x ∈ kept, v.Keeps x) (hnodup : (kept.map fun x => x.2.1).Nodup) (hmay : ∀ what, ℓ.may what) :
    Does tick a (Sees a v ℓ) (pruneOldest targetEntries targetBytes kept pass : M V Pass) fun pass' w =>
      pass' = (evict targetEntries targetBytes kept pass.left).foldl (fun p x => p.removeOldest x.2.2) pass ∧
        Sees a (v.less {p | ∃ x ∈ evict targetEntries targetBytes kept pass.left, p = entryPath x.2.1}) ℓ w := by
  induction kept generalizing v pass with
  | nil =>
    refine .pure fun w _ h => ⟨rfl, ?_⟩
    have hempty : {p | ∃ x ∈ evict targetEntries targetBytes [] pass.left, p = entryPath x.2.1} = ∅ := by
      ext p
      simp [evict]
    rwa [hempty, Scene.less_empty]
  | cons x kept ih =>
    obtain ⟨usedMs, digest, size⟩ := x
    unfold pruneOldest
    by_cases hdone : pass.left.entries ≤ targetEntries ∧ pass.left.bytes ≤ targetBytes
    · rw [if_pos hdone]
      refine .pure fun w _ h => ?_
      rw [evict, if_pos hdone]
      have hempty : {p | ∃ x ∈ ([] : List Kept), p = entryPath x.2.1} = ∅ := by
        ext p
        simp
      rw [hempty, Scene.less_empty]
      exact ⟨rfl, h⟩
    · rw [if_neg hdone, evict, if_neg hdone]
      obtain ⟨hd, hfree, i, node, hfind, hkind, hused⟩ := hkeeps _ List.mem_cons_self
      rw [List.map_cons, List.nodup_cons] at hnodup
      have hchild := childOf_lockPath digest
      have hne : entryPath digest ≠ lockPath digest := fun heq => (childOf_entryPath digest).not_locks (heq ▸ hchild)
      have hremoved : v.extent (entryPath digest) = {entryPath digest} := by
        refine Scene.extent_of_ne_dir fun j x hx => ?_
        rw [hfind, Option.some_inj, Prod.mk.injEq] at hx
        rw [← hx.2, hkind]
        simp
      have hlock : lockPath digest ∉ ({entryPath digest} : Set Path) := fun hmem => hne hmem.symm
      have hunlinked : ∀ why, ℓ.may (.unlinked (entryPath digest) why) := fun _ => hmay _
      refine .bind (does_tryLockExclusive (lockPath_dropLast digest ▸ hswept.dir) (hswept.regular hchild)
        fun _ => hmay _) fun r => .or (.imp fun ht => absurd ht hfree) ?_
      refine .imp fun _ => .of_exists fun held => .of_exists fun j => .of_exists fun node' => .of_exists fun since =>
        .imp fun hr => .imp fun hpath => .imp fun hlocks => .imp fun hnew => ?_
      subst hr
      have hheld : (v.hold a held j since node' .prune).find (entryPath digest) = some (i, node) :=
        (Scene.find_hold_of_ne (hpath ▸ hne)).trans hfind
      dsimp only
      refine Runs.bind (U := fun pass' w => pass' = pass.removeOldest size ∧ Sees a (v.less {entryPath digest}) ℓ w) ?_ fun pass' =>
        .imp fun hp => ?_
      · refine does_after (U := fun pass' w => pass' = pass.removeOldest size ∧
          Sees a ((v.less {entryPath digest}).hold a held j since node' .prune) ℓ w) ?_ fun pass' => .imp fun hp => ?_
        · refine .bind (does_regular (hunlinked _)) fun r => .or ?_ (.imp fun hno => absurd hkind (hno i node hheld))
          refine .of_exists fun j' => .of_exists fun x => .imp fun hx => .imp fun _ => .imp fun hr => ?_
          rw [hheld, Option.some_inj, Prod.mk.injEq] at hx
          obtain ⟨rfl, rfl⟩ := hx
          subst hr
          dsimp only
          rw [if_neg (not_not.mpr hused)]
          refine .bind (does_remove (hunlinked _)) fun _ => .pure fun w _ h => ⟨rfl, ?_⟩
          rwa [Scene.hold_extent (hpath ▸ hne), hremoved, Scene.hold_less (hpath ▸ hlock)] at h
        · refine (does_drop (u := (v.less {entryPath digest}).hold a held j since node' .prune) (Scene.files_setFile_self _) ?_
            (hmay _)).post fun _ w _ h => ⟨hp, ?_⟩
          · intro k x hx
            unfold Scene.hold at hx
            rw [Scene.find_setFile, Scene.find_put_self, Option.some_inj, Prod.mk.injEq] at hx
            exact hx.2 ▸ ⟨hlocks.kind, hlocks.owned⟩
          · unfold Scene.hold at h
            rw [Scene.put_setFile, Scene.setFile_setFile, Scene.put_put, Scene.setFile_eq_self (v := (v.less {entryPath digest}).put held.path none) hnew,
              Scene.put_none, hpath, Scene.less_less, hswept.less_lock hfree] at h
            exact h
      · subst hp
        refine (ih (hswept.less ?_) (fun x hx => ?_) hnodup.2).post ?_
        · rintro p rfl
          exact ⟨(childOf_entryPath digest).not_locks, by simp [entryPath, entries, locks]⟩
        · obtain ⟨hdx, hfreex, k, y, hy, hrest⟩ := hkeeps x (List.mem_cons_of_mem _ hx)
          have hother : entryPath x.2.1 ∉ ({entryPath digest} : Set Path) := by
            intro heq
            refine hnodup.1 (List.mem_map.mpr ⟨x, hx, ?_⟩)
            simpa [entryPath] using heq
          refine ⟨hdx, ?_, k, y, (Scene.find_less_of_not_mem hother).trans hy, hrest⟩
          rw [Scene.taken_less]
          · exact hfreex
          · intro hmem
            exact (childOf_entryPath digest).not_locks (Set.mem_singleton_iff.mp hmem ▸ childOf_lockPath _)
        · rintro pass' w - ⟨rfl, h⟩
          rw [Scene.less_less] at h
          refine ⟨rfl, ?_⟩
          have hsets : {entryPath digest} ∪ {p | ∃ x ∈ evict targetEntries targetBytes kept (pass.left.remove size), p = entryPath x.2.1} =
              {p | ∃ x ∈ (usedMs, digest, size) :: evict targetEntries targetBytes kept (pass.left.remove size),
                p = entryPath x.2.1} := by
            ext p
            simp
          rwa [← hsets]

/-- The names of a directory, each once, in some order. -/
structure Scene.Lists (v : Scene A) (path : Path) (order : List Name) : Prop where
  nodup : order.Nodup
  mem : ∀ name, name ∈ order ↔ v.find (path ++ [name]) ≠ none

namespace Scene

/-- Whether a name counts in the usage. -/
def Counts (v : Scene A) (name : Name) : Prop :=
  entryDigest (entries ++ [name]) ≠ none ∧ ∃ i node, v.find (entries ++ [name]) = some (i, node) ∧ node.kind = .file

open Classical in
noncomputable def tally (v : Scene A) (names : List Name) : Usage :=
  names.foldr (fun name usage => if v.Counts name then usage.add (v.size name) else usage) ⟨0, 0⟩

/-- The lock files that nobody has the lock of. -/
def freeLocks (v : Scene A) : Set Path :=
  {p | ChildOf locks p ∧ ¬v.Taken p}

end Scene

lemma does_usage (hentries : v.OwnDir entries) :
    Does tick a (Sees a v ℓ) (usage : M V Usage) fun r w =>
      (∃ order, v.Lists entries order ∧ r = v.tally order) ∧ Sees a v ℓ w := by
  refine .bind (Does.of_solo (solo_ensureDir hentries)) fun _ => ?_
  refine (does_forDir (I := fun seen r u => r = v.tally seen ∧ u = v) hentries ⟨rfl, rfl⟩ ?_ ?_).post ?_
  · rintro seen r u ⟨-, rfl⟩ name -
    rfl
  · rintro j seen r u name f o ⟨rfl, rfl⟩ - hthere hnew -
    obtain ⟨⟨i, node⟩, hfind⟩ := Option.ne_none_iff_exists'.mp hthere
    have htally : u.tally (name :: seen) = open Classical in
        if u.Counts name then (u.tally seen).add (u.size name) else u.tally seen := rfl
    by_cases hdigest : entryDigest (entries ++ [name]) = none
    · rw [if_pos hdigest]
      rw [if_neg fun hc => hc.1 hdigest] at htally
      exact .pure fun w _ h => ⟨u, ⟨htally.symm, rfl⟩, hnew, h⟩
    · rw [if_neg hdigest]
      refine .bind (Does.sure solo_lstat) fun r => .imp fun hr => ?_
      subst hr
      rw [Scene.lstat_some (v := u.setFile a f (some o)) hfind]
      dsimp only
      by_cases hkind : (node.metadata i).kind = .file
      · rw [if_pos hkind]
        rw [if_pos ⟨hdigest, i, node, hfind, hkind⟩] at htally
        refine .pure fun w _ h => ⟨u, ⟨?_, rfl⟩, hnew, h⟩
        rw [htally, Scene.size, hfind]
        rfl
      · rw [if_neg hkind]
        rw [if_neg ?_] at htally
        · exact .pure fun w _ h => ⟨u, ⟨htally.symm, rfl⟩, hnew, h⟩
        · rintro ⟨-, j, x, hx, hfile⟩
          rw [hfind, Option.some_inj, Prod.mk.injEq] at hx
          exact hkind (hx.2 ▸ hfile)
  · rintro r w - ⟨u, ⟨seen, ⟨rfl, rfl⟩, hnodup, hmem⟩, h⟩
    exact ⟨⟨seen, ⟨hnodup, hmem⟩, rfl⟩, h⟩

open Classical in
lemma does_removeUnheldLocks (hlocks : v.OwnDir locks) (hreg : ∀ {path}, ChildOf locks path → v.Regular path)
    (hmay : ∀ what, ℓ.may what) :
    Does tick a (Sees a v ℓ) (removeUnheldLocks : M V ℕ) fun r w =>
      (∃ order, v.Lists locks order ∧ r = order.countP fun name => ¬v.Taken (locks ++ [name])) ∧
        Sees a (v.less v.freeLocks) ℓ w := by
  refine .bind (Does.of_solo (solo_ensureDir hlocks)) fun _ => ?_
  refine .bind (does_forDir (I := fun seen r u => r = seen.countP (fun name => ¬v.Taken (locks ++ [name])) ∧
    u = v.less {p | ∃ name ∈ seen, p = locks ++ [name] ∧ ¬v.Taken p}) hlocks ⟨rfl, ?_⟩ ?_ ?_) fun removed => ?_
  · have hempty : {p | ∃ name ∈ ([] : List Name), p = locks ++ [name] ∧ ¬v.Taken p} = ∅ := by
      ext p
      simp
    rw [hempty, Scene.less_empty]
  · rintro seen r u ⟨-, rfl⟩ name hname
    refine Scene.find_less_of_not_mem ?_
    rintro ⟨n, hn, heq, -⟩
    obtain rfl : name = n := by simpa using heq
    exact hname hn
  · rintro j seen r u name f o ⟨rfl, rfl⟩ hname hthere hnew hlock
    set gone := {p | ∃ name ∈ seen, p = locks ++ [name] ∧ ¬v.Taken p} with hgone
    have hfresh : locks ++ [name] ∉ gone := by
      rintro ⟨n, hn, heq, -⟩
      obtain rfl : name = n := by simpa using heq
      exact hname hn
    have hfind : ((v.less gone).setFile a f (some o)).find (locks ++ [name]) = v.find (locks ++ [name]) :=
      Scene.find_less_of_not_mem hfresh
    have hthere' : v.find (locks ++ [name]) ≠ none := hfind ▸ hthere
    have htaken : ((v.less gone).setFile a f (some o)).Taken (locks ++ [name]) ↔ v.Taken (locks ++ [name]) := by
      rw [Scene.taken_setFile hnew hlock, Scene.taken_less hfresh]
    have hreg' : ((v.less gone).setFile a f (some o)).Regular (locks ++ [name]) := by
      intro i node hnode
      rw [hfind] at hnode
      exact hreg ⟨name, rfl⟩ i node hnode
    have hdir : ((v.less gone).setFile a f (some o)).OwnDir (locks ++ [name]).dropLast := by
      obtain ⟨i, node, hdir, hkind⟩ := hlocks
      rw [List.dropLast_concat]
      refine ⟨i, node, (Scene.find_less_of_not_mem ?_).trans hdir, hkind⟩
      rintro ⟨n, -, heq, -⟩
      simp [locks] at heq
    have hremoves : ∀ what : What V, (∀ n, (what.Touches (locks ++ [n]) → n = name) ∧ ¬what.Links (locks ++ [n])) →
        (ℓ.during j locks (name :: seen)).may what := fun what h =>
      ⟨hmay _, fun n => ⟨fun ht => (h n).1 ht ▸ List.mem_cons_self, (h n).2⟩⟩
    refine .bind (does_regular (hremoves _ fun n => ⟨fun ht => ?_, id⟩)) fun r => .or ?_ (.imp fun hno => ?_)
    · have heq : locks ++ [name] = locks ++ [n] := ht
      simpa using heq.symm
    · refine .of_exists fun i => .of_exists fun node => .imp fun _ => .imp fun _ => .imp fun hr => ?_
      subst hr
      refine .bind (does_tryLockExclusive hdir hreg' fun hnone => absurd hnone hthere) fun r => .or ?_ ?_
      · refine .imp fun ht => .imp fun hr => ?_
        subst hr
        refine .pure fun w _ h => ⟨v.less gone, ⟨?_, ?_⟩, hnew, h⟩
        · rw [List.countP_cons_of_neg (by simpa using htaken.mp ht)]
        · congr 1
          ext p
          simp only [hgone, Set.mem_setOf_eq, List.mem_cons, exists_eq_or_imp]
          refine ⟨Or.inr, fun h => h.resolve_left ?_⟩
          rintro ⟨rfl, hno⟩
          exact hno (htaken.mp ht)
      · refine .imp fun ht => .of_exists fun held => .of_exists fun i' => .of_exists fun node' => .of_exists fun since =>
          .imp fun hr => .imp fun hpath => .imp fun hl => .imp fun hheld => ?_
        subst hr
        refine .bind (does_drop (Scene.files_setFile_self _) ?_ (hremoves _ fun n => ⟨fun ht => ?_, id⟩)) fun _ => .pure fun w _ h => ?_
        · intro k x hx
          unfold Scene.hold at hx
          rw [Scene.find_setFile, Scene.find_put_self, Option.some_inj, Prod.mk.injEq] at hx
          exact hx.2 ▸ ⟨hl.kind, hl.owned⟩
        · have heq : held.path = locks ++ [n] := ht
          rw [hpath] at heq
          simpa using heq.symm
        · refine ⟨v.less (gone ∪ {locks ++ [name]}), ⟨?_, ?_⟩, hnew, ?_⟩
          · rw [List.countP_cons_of_pos (by simpa using htaken.not.mp ht)]
          · congr 1
            ext p
            simp only [hgone, Set.mem_union, Set.mem_setOf_eq, Set.mem_singleton_iff, List.mem_cons, exists_eq_or_imp]
            constructor
            · rintro (h | rfl)
              · exact Or.inr h
              · exact Or.inl ⟨rfl, htaken.not.mp ht⟩
            · rintro (⟨rfl, -⟩ | h)
              · exact Or.inr rfl
              · exact Or.inl h
          · unfold Scene.hold at h
            rw [Scene.put_setFile, Scene.setFile_setFile, Scene.put_put,
              Scene.setFile_eq_self (v := ((v.less gone).setFile a f (some o)).put held.path none) hheld, Scene.put_none, hpath,
              Scene.less_setFile, Scene.less_less] at h
            exact h
    · obtain ⟨⟨i, node⟩, hnode⟩ := Option.ne_none_iff_exists'.mp hthere
      exact absurd (hreg' i node hnode).1 (hno i node hnode)
  · refine .of_exists fun u => .imp ?_
    rintro ⟨seen, ⟨rfl, rfl⟩, hnodup, hmem⟩
    have hless : v.less {p | ∃ name ∈ seen, p = locks ++ [name] ∧ ¬v.Taken p} = v.less v.freeLocks := by
      refine Scene.less_congr fun p hp => ⟨?_, ?_⟩
      · rintro ⟨name, -, rfl, hfree⟩
        exact ⟨⟨name, rfl⟩, hfree⟩
      · rintro ⟨⟨name, rfl⟩, hfree⟩
        exact ⟨name, (hmem name).mpr hp, rfl, hfree⟩
    rw [hless]
    have hdir : (v.less v.freeLocks).OwnDir locks := by
      obtain ⟨i, node, hdir, hkind⟩ := hlocks
      refine ⟨i, node, (Scene.find_less_of_not_mem ?_).trans hdir, hkind⟩
      rintro ⟨⟨n, heq⟩, -⟩
      simp [locks] at heq
    refine .bind (Does.of_solo (solo_syncDir hdir)) fun _ => .pure fun w _ h => ⟨⟨seen, ⟨hnodup, hmem⟩, rfl⟩, h⟩

/-- What the second pass knows of an entry. -/
def Scene.item (v : Scene A) (name : Name) : Kept :=
  (v.used name, digestOf name, v.size name)

namespace Scene

lemma verdict_eq_keep {codec : Codec T} {inner : Inner} (h : v.verdict codec inner now name = .keep) :
    ∃ digest i node, entryDigest (entries ++ [name]) = some digest ∧ ¬v.Taken (lockPath digest) ∧
      v.find (entries ++ [name]) = some (i, node) ∧ node.kind = .file := by
  unfold verdict at h
  by_cases htemp : isTemporary (entries ++ [name]) = true
  · rw [if_pos htemp] at h
    split at h <;> cases h
  · rw [if_neg htemp] at h
    cases hdigest : entryDigest (entries ++ [name]) with
    | none =>
      rw [hdigest] at h
      cases h
    | some digest =>
      rw [hdigest] at h
      dsimp only at h
      by_cases ht : v.Taken (lockPath digest)
      · rw [if_pos ht] at h
        cases h
      · rw [if_neg ht] at h
        cases hfind : v.find (entries ++ [name]) with
        | none =>
          rw [hfind] at h
          cases h
        | some x =>
          obtain ⟨i, node⟩ := x
          rw [hfind] at h
          dsimp only at h
          by_cases hkind : node.kind ≠ .file
          · rw [if_pos hkind] at h
            cases h
          · exact ⟨digest, i, node, rfl, ht, rfl, not_not.mp hkind⟩

lemma keeps_item {codec : Codec T} {inner : Inner} (h : v.verdict codec inner now name = .keep) : v.Keeps (v.item name) := by
  obtain ⟨digest, i, node, hdigest, hfree, hfind, hkind⟩ := verdict_eq_keep h
  obtain ⟨hname, hd⟩ := entryDigest_eq_some.mp hdigest
  have hof : digestOf name = digest := by rw [digestOf, hdigest, Option.getD_some]
  refine ⟨?_, ?_, i, node, ?_, hkind, ?_⟩
  · rw [item, hof]
    exact hd
  · rw [item, hof]
    exact hfree
  · rw [item, hof, ← hfind, hname]
    rfl
  · rw [item, used, hfind]
    rfl

/-- The first pass over the names in an order. -/
noncomputable def firstPass (v : Scene A) (codec : Codec T) (inner : Inner) (order : List Name) (pass : Pass) : Pass :=
  order.foldr (fun name p => p.judge v name (v.verdict codec inner v.clock name)) pass

lemma firstPass_kept (codec : Codec T) (inner : Inner) (order : List Name) (pass : Pass) :
    (v.firstPass codec inner order pass).kept =
      pass.kept ++ ((order.filter fun name => v.verdict codec inner v.clock name = .keep).map v.item).reverse := by
  induction order with
  | nil => simp [firstPass]
  | cons name order ih =>
    change (Pass.judge (v.firstPass codec inner order pass) v name (v.verdict codec inner v.clock name)).kept = _
    cases hverdict : v.verdict codec inner v.clock name with
    | keep =>
      rw [List.filter_cons_of_pos (by simp [hverdict]), List.map_cons, List.reverse_cons, ← List.append_assoc, ← ih]
      rfl
    | _ =>
      rw [List.filter_cons_of_neg (by simp [hverdict]), ← ih]
      rfl

end Scene

end Unixd.Cache
