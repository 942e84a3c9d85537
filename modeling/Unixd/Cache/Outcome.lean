import Mathlib.Data.List.Nodup
import Unixd.Cache.Pruned

/-!
# The outcome of a prune, alone

A whole prune of a known scene: the lock files that nobody holds go, the first pass judges every name, the second one
removes the least recently used, and `prune.lock` keeps the time.
-/

namespace Unixd.Cache

open Unixd.Lib Protocol.Scope

set_option linter.unusedSectionVars false

variable {A V T α : Type} [DecidableEq A] {tick : ℕ → ℕ → Prop} {a : A} {u v : Scene A} {ℓ : Margin A V} {path : Path}
  {i f now : ℕ} {node : Node} {o : Open} {name digest : Name} {gone : Set Path} {codec : Codec T} {inner : Inner}
  {order : List Name}

namespace Scene

/-- The result before the first pass. -/
noncomputable def begun (v : Scene A) (order : List Name) (locksRemoved : ℕ) : Pass :=
  ⟨⟨(v.tally order).entries, (v.tally order).bytes, 0, 0, 0, 0, 0, 0, locksRemoved⟩, v.tally order, []⟩

/-- Whether the usage before was over a cap. -/
def Over (v : Scene A) (inner : Inner) (order : List Name) : Prop :=
  inner.limits.hardEntries < (v.tally order).entries ∨ inner.limits.hardBytes < (v.tally order).bytes

open Classical in
/-- What the second pass removes. -/
noncomputable def evicted (v : Scene A) (codec : Codec T) (inner : Inner) (order : List Name) : List Kept :=
  let pass := v.firstPass codec inner order (v.begun order 0)
  if v.Over inner order then
    evict (min inner.limits.targetEntries inner.limits.hardEntries) (min inner.limits.targetBytes inner.limits.hardBytes)
      (pass.kept.mergeSort Kept.le) pass.left
  else []

/-- All that a prune removes. -/
noncomputable def removes (v : Scene A) (codec : Codec T) (inner : Inner) (order : List Name) : Set Path :=
  v.freeLocks ∪ v.passes codec inner v.clock ∪ {p | ∃ x ∈ v.evicted codec inner order, p = entryPath x.2.1}

noncomputable def outcome (v : Scene A) (codec : Codec T) (inner : Inner) (order : List Name) (locksRemoved : ℕ) : Prune :=
  let pass := (v.evicted codec inner order).foldl (fun p x => p.removeOldest x.2.2)
    (v.firstPass codec inner order (v.begun order locksRemoved))
  { pass.outcome with afterEntries := pass.left.entries, afterBytes := pass.left.bytes }

lemma firstPass_congr {pass : Pass} (hfind : ∀ name, u.find (entries ++ [name]) = v.find (entries ++ [name]))
    (htaken : ∀ digest, u.Taken (lockPath digest) ↔ v.Taken (lockPath digest)) (hclock : u.clock = v.clock) :
    u.firstPass codec inner order pass = v.firstPass codec inner order pass := by
  unfold firstPass
  congr 1
  funext name p
  rw [verdict_congr (hfind name) htaken, judge_congr (hfind name), hclock]

/-- The number of lock files that went has no part in what else goes. -/
lemma firstPass_left (n : ℕ) :
    (v.firstPass codec inner order (v.begun order n)).kept = (v.firstPass codec inner order (v.begun order 0)).kept ∧
      (v.firstPass codec inner order (v.begun order n)).left = (v.firstPass codec inner order (v.begun order 0)).left := by
  refine ⟨by rw [firstPass_kept, firstPass_kept]; rfl, ?_⟩
  suffices h : ∀ l : List Name, (v.firstPass codec inner l (v.begun order n)).left =
      (v.firstPass codec inner l (v.begun order 0)).left from h order
  intro l
  induction l with
  | nil => rfl
  | cons name l ih =>
    change (Pass.judge (v.firstPass codec inner l _) v name _).left = (Pass.judge (v.firstPass codec inner l _) v name _).left
    cases v.verdict codec inner v.clock name with
    | skip => exact ih
    | temporary => exact ih
    | irregular => exact ih
    | expired => exact congrArg (Usage.remove · _) ih
    | unused => exact congrArg (Usage.remove · _) ih
    | keep => exact ih

lemma taken_cleared (hchild : ChildOf locks path) : (v.less v.freeLocks).Taken path ↔ v.Taken path := by
  by_cases h : v.Taken path
  · rw [taken_less fun hmem => hmem.2 h]
  · refine ⟨fun ht => absurd ht ?_, fun ht => absurd ht h⟩
    rintro ⟨i, node, b, g, o, hfind, -⟩
    rw [find_less_of_mem (show path ∈ v.freeLocks from ⟨hchild, h⟩)] at hfind
    cases hfind

lemma find_cleared (h : ¬ChildOf locks path) : (v.less v.freeLocks).find path = v.find path :=
  find_less_of_not_mem fun hmem => h hmem.1

lemma swept_cleared (hlocks : v.OwnDir locks) (hreg : ∀ {path}, ChildOf locks path → v.Regular path) :
    (v.less v.freeLocks).Swept := by
  refine ⟨?_, fun hc i node hfind => ?_, fun hc hfind => ?_⟩
  · obtain ⟨i, node, hfind, hkind⟩ := hlocks
    exact ⟨i, node, (find_cleared fun ⟨n, heq⟩ => by simp [locks] at heq).trans hfind, hkind⟩
  · exact hreg hc i node (find_less_eq_some.mp hfind).2
  · obtain ⟨x, hx⟩ := Option.ne_none_iff_exists'.mp hfind
    have hnot := (find_less_eq_some.mp hx).1
    exact (taken_cleared hc).mpr (by_contra fun ht => hnot ⟨hc, ht⟩)

lemma Lists.congr {order : List Name} (h : u.Lists path order) (hfind : ∀ name, u.find (path ++ [name]) = v.find (path ++ [name])) :
    v.Lists path order :=
  ⟨h.nodup, fun name => hfind name ▸ h.mem name⟩

lemma Lists.perm {order' : List Name} (h : v.Lists path order) (h' : v.Lists path order') : order.Perm order' :=
  (List.perm_ext_iff_of_nodup h.nodup h'.nodup).mpr fun name => (h.mem name).trans (h'.mem name).symm

end Scene

lemma Usage.add_comm (usage : Usage) (m n : ℕ) : (usage.add m).add n = (usage.add n).add m := by
  simp only [Usage.add, satAdd, Usage.mk.injEq, true_and]
  omega

lemma Scene.tally_perm {order' : List Name} (h : order.Perm order') : v.tally order = v.tally order' := by
  refine h.foldr_eq' (fun x _ y _ usage => ?_) _
  by_cases hx : v.Counts x <;> by_cases hy : v.Counts y <;> simp [hx, hy, Usage.add_comm usage]

lemma Scene.tally_congr (hfind : ∀ name, u.find (entries ++ [name]) = v.find (entries ++ [name])) :
    u.tally order = v.tally order := by
  have hcounts : u.Counts = v.Counts := by
    funext name
    simp only [Counts, hfind]
  have hsize : u.size = v.size := by
    funext name
    simp only [size, hfind]
  unfold tally
  rw [hcounts, hsize]

/-- The second pass of a scene whose lock files are swept and whose first pass is done. -/
lemma Scene.keeps_kept (hnodup : order.Nodup) :
    (∀ x ∈ (v.firstPass codec inner order (v.begun order 0)).kept, v.Keeps x) ∧
      ((v.firstPass codec inner order (v.begun order 0)).kept.map fun x => x.2.1).Nodup := by
  rw [firstPass_kept, show (v.begun order 0).kept = [] from rfl, List.nil_append]
  constructor
  · intro x hx
    rw [List.mem_reverse, List.mem_map] at hx
    obtain ⟨name, hname, rfl⟩ := hx
    rw [List.mem_filter, decide_eq_true_eq] at hname
    exact keeps_item hname.2
  · rw [List.map_reverse, List.nodup_reverse, List.map_map]
    refine (hnodup.filter _).map_on ?_
    intro name hname name' hname' heq
    rw [List.mem_filter, decide_eq_true_eq] at hname hname'
    obtain ⟨digest, -, -, hdigest, -⟩ := verdict_eq_keep hname.2
    obtain ⟨digest', -, -, hdigest', -⟩ := verdict_eq_keep hname'.2
    simp only [Function.comp_apply, item, digestOf, hdigest, hdigest', Option.getD_some] at heq
    rw [(entryDigest_eq_some.mp hdigest).1, (entryDigest_eq_some.mp hdigest').1, heq]

/-- What the first pass keeps is there after it. -/
lemma Scene.Keeps.less {x : Kept} (h : v.Keeps x) (hentry : entryPath x.2.1 ∉ gone) : (v.less gone).Keeps x := by
  obtain ⟨hd, hfree, i, node, hfind, hrest⟩ := h
  refine ⟨hd, fun ht => hfree ?_, i, node, (find_less_of_not_mem hentry).trans hfind, hrest⟩
  obtain ⟨j, x', b, g, o, hlock, ho⟩ := ht
  exact ⟨j, x', b, g, o, (find_less_eq_some.mp hlock).2, ho⟩

lemma Scene.entry_not_mem_passes {x : Kept} (hx : x ∈ (v.firstPass codec inner order (v.begun order 0)).kept) :
    entryPath x.2.1 ∉ v.passes codec inner v.clock := by
  rw [firstPass_kept, show (v.begun order 0).kept = [] from rfl, List.nil_append, List.mem_reverse, List.mem_map] at hx
  obtain ⟨name, hname, rfl⟩ := hx
  rw [List.mem_filter, decide_eq_true_eq] at hname
  obtain ⟨digest, -, -, hdigest, -⟩ := verdict_eq_keep hname.2
  have hof : (v.item name).2.1 = digest := by rw [item, digestOf, hdigest, Option.getD_some]
  rintro ⟨name', -, hmem⟩
  rw [hof, show entryPath digest = entries ++ [name] by rw [(entryDigest_eq_some.mp hdigest).1]; rfl] at hmem
  have heq := (prefix_of_mem_goes hmem).eq_of_length (by simp)
  obtain rfl := entries_injective heq
  rw [goes_eq_empty (by rw [hname.2]; exact id)] at hmem
  exact hmem

/-- What a prune leaves, with its time in `prune.lock`. -/
noncomputable def Scene.pruned (v : Scene A) (codec : Codec T) (inner : Inner) (order : List Name) (i : ℕ) (node : Node) : Scene A :=
  (v.less (v.removes codec inner order)).put pruneLock (some (i, { node with modified := millisecond v.clock }))

/-- The names that a prune removes are below `entries` or in `locks`. -/
lemma Scene.removes_below {p : Path} (h : p ∈ v.removes codec inner order) : ChildOf locks p ∨ ∃ name, entries ++ [name] <+: p := by
  rcases h with (⟨hchild, -⟩ | ⟨name, -, hmem⟩) | ⟨x, -, rfl⟩
  · exact Or.inl hchild
  · exact Or.inr ⟨name, prefix_of_mem_goes hmem⟩
  · exact Or.inr ⟨_, List.prefix_rfl⟩

lemma Scene.ownDir_less (h : v.OwnDir path) (hgone : path ∉ gone) : (v.less gone).OwnDir path := by
  obtain ⟨i, node, hfind, hrest⟩ := h
  exact ⟨i, node, (find_less_of_not_mem hgone).trans hfind, hrest⟩

open Classical in
/-- A prune that holds its locks. -/
lemma does_pruneLocked {pruning : ℕ} (hentries : v.OwnDir entries) (hlocks : v.OwnDir locks)
    (hreg : ∀ {path}, ChildOf locks path → v.Regular path) (hf : v.files a pruning = some o)
    (hfind : v.find pruneLock = some (o.ino, node)) (hone : ∀ p x, v.find p = some (o.ino, x) → p = pruneLock)
    (hmay : ∀ what, ℓ.may what) :
    Does tick a (Sees a v ℓ) (pruneLocked codec inner pruning : M V Prune) fun r w => ∃ order names, v.Lists entries order ∧
      v.Lists locks names ∧ r = v.outcome codec inner order (names.countP fun name => ¬v.Taken (locks ++ [name])) ∧
        Sees a (v.pruned codec inner order o.ino node) ℓ w := by
  refine .bind (Does.of_solo (solo_ensureDir hentries)) fun _ => ?_
  refine .bind (does_removeUnheldLocks hlocks hreg hmay) fun removed => .imp ?_
  rintro ⟨names, hnames, hremoved⟩
  have hswept := Scene.swept_cleared hlocks hreg
  have hnot : ∀ name, ¬ChildOf locks (entries ++ [name]) := fun name => ChildOf.not_locks ⟨name, rfl⟩
  have hsame : ∀ name, (v.less v.freeLocks).find (entries ++ [name]) = v.find (entries ++ [name]) :=
    fun name => Scene.find_cleared (hnot name)
  have htaken : ∀ digest, (v.less v.freeLocks).Taken (lockPath digest) ↔ v.Taken (lockPath digest) :=
    fun digest => Scene.taken_cleared (childOf_lockPath digest)
  have hentries' : (v.less v.freeLocks).OwnDir entries := by
    refine Scene.ownDir_less hentries ?_
    rintro ⟨⟨n, heq⟩, -⟩
    simp [entries, locks] at heq
  refine .bind (does_usage hentries') fun before => .imp ?_
  rintro ⟨order, horder, hbefore⟩
  replace horder := horder.congr hsame
  rw [Scene.tally_congr hsame] at hbefore
  refine .bind solo_now fun now => .imp fun hnow => ?_
  rw [Scene.clock_less] at hnow
  subst hnow
  have hpasses : (v.less v.freeLocks).passes codec inner v.clock = v.passes codec inner v.clock := by
    unfold Scene.passes
    simp only [hsame, Scene.goes_congr (hsame _) htaken]
  refine .bind (does_pass hentries' hswept hmay) fun pass => .imp ?_
  rintro ⟨order', hnodup', hmem', hpass⟩
  have horder' : v.Lists entries order' := Scene.Lists.congr ⟨hnodup', hmem'⟩ hsame
  have htally := Scene.tally_perm (v := v) (horder.perm horder')
  have hfirst : pass = v.firstPass codec inner order' (v.begun order' removed) := by
    rw [hpass, hbefore, htally]
    exact Scene.firstPass_congr hsame htaken rfl
  rw [hpasses, Scene.less_less]
  have hremoves : ∀ p ∈ v.removes codec inner order', ChildOf locks p ∨ ∃ name, entries ++ [name] <+: p :=
    fun p hp => Scene.removes_below hp
  have hclear : ∀ {p : Path}, p.length ≤ 1 → p ∉ v.removes codec inner order' := by
    intro p hp hmem
    rcases hremoves p hmem with ⟨n, rfl⟩ | ⟨n, hstarts⟩
    · simp [locks] at hp
    · have hle := hstarts.length_le
      simp only [entries, List.length_append, List.length_cons, List.length_nil] at hle
      omega
  have hlocksRemoved : removed = names.countP fun name => ¬v.Taken (locks ++ [name]) := hremoved
  have hrest : ∀ pass', pass' = (v.evicted codec inner order').foldl (fun p x => p.removeOldest x.2.2) pass →
      Does tick a (Sees a (v.less (v.removes codec inner order')) ℓ) (do
        syncDir entries
        ofResult (← Sys.setModified pruning v.clock)
        return { pass'.outcome with afterEntries := pass'.left.entries, afterBytes := pass'.left.bytes } : M V Prune)
          fun r w => ∃ order names, v.Lists entries order ∧ v.Lists locks names ∧
            r = v.outcome codec inner order (names.countP fun name => ¬v.Taken (locks ++ [name])) ∧
              Sees a (v.pruned codec inner order o.ino node) ℓ w := by
    rintro pass' rfl
    refine .bind (Does.of_solo (solo_syncDir (Scene.ownDir_less hentries (hclear (by decide))))) fun _ => ?_
    refine .bind (Does.sure (@solo_setModified _ _ _ _ _ _ _ _ pruneLock _ node _ _ _ hf ?_ ?_)) fun r => .imp fun hr => ?_
    · rw [Scene.find_less_of_not_mem (hclear (by decide)), hfind]
    · exact fun p x hx => hone p x (Scene.find_less_eq_some.mp hx).2
    subst hr
    refine .pure fun w _ h => ⟨order', names, horder', hnames, ?_, h⟩
    rw [hfirst, hlocksRemoved]
    rfl
  dsimp only
  by_cases hover : inner.limits.hardEntries < before.entries ∨ inner.limits.hardBytes < before.bytes
  · rw [if_pos hover]
    have hover' : v.Over inner order' := by
      rw [Scene.Over, ← htally, ← hbefore]
      exact hover
    have hevicted : v.evicted codec inner order' = evict (min inner.limits.targetEntries inner.limits.hardEntries)
        (min inner.limits.targetBytes inner.limits.hardBytes) (pass.kept.mergeSort Kept.le) pass.left := by
      rw [Scene.evicted, if_pos hover', hfirst, (Scene.firstPass_left removed).1, (Scene.firstPass_left removed).2]
    obtain ⟨hkeeps, hdigests⟩ := Scene.keeps_kept (v := v) horder'.nodup
    have hkept : pass.kept = (v.firstPass codec inner order' (v.begun order' 0)).kept := by
      rw [hfirst, (Scene.firstPass_left removed).1]
    have hperm := List.mergeSort_perm pass.kept Kept.le
    refine .bind (does_pruneOldest (v := v.less (v.freeLocks ∪ v.passes codec inner v.clock)) ?_ (fun x hx => ?_) ?_ hmay) fun pass' => .imp fun hp => ?_
    · rw [← Scene.less_less]
      refine hswept.less ?_
      rintro p ⟨name, -, hmem⟩
      exact not_locks_of_prefix (Scene.prefix_of_mem_goes hmem)
    · rw [hperm.mem_iff, hkept] at hx
      refine (hkeeps x hx).less ?_
      rintro (⟨hchild, -⟩ | hmem)
      · exact (childOf_entryPath _).not_locks hchild
      · exact Scene.entry_not_mem_passes hx hmem
    · rw [(hperm.map _).nodup_iff, hkept]
      exact hdigests
    · rw [← hevicted, Scene.less_less]
      exact hrest pass' (hp.trans (by rw [hevicted]))
  · rw [if_neg hover]
    have hover' : ¬v.Over inner order' := by
      rw [Scene.Over, ← htally, ← hbefore]
      exact hover
    have hevicted : v.evicted codec inner order' = [] := by
      rw [Scene.evicted, if_neg hover']
    refine .bind (.pure fun w _ h => (⟨rfl, h⟩ : pass = pass ∧ _)) fun pass' => .imp fun hp => ?_
    have hsets : v.removes codec inner order' = v.freeLocks ∪ v.passes codec inner v.clock := by
      unfold Scene.removes
      rw [hevicted]
      simp
    rw [← hsets]
    exact hrest pass' (by rw [hevicted, hp]; rfl)

namespace Scene

/-- Nothing of a prune depends on files but on who has which lock. -/
structure Alike (u v : Scene A) : Prop where
  find : u.find = v.find
  taken : ∀ {path}, ChildOf locks path → (u.Taken path ↔ v.Taken path)
  clock : u.clock = v.clock

variable (h : u.Alike v)

include h

lemma Alike.tally (order : List Name) : u.tally order = v.tally order :=
  tally_congr fun name => congrFun h.find _

lemma Alike.firstPass (codec : Codec T) (inner : Inner) (order : List Name) (n : ℕ) :
    u.firstPass codec inner order (u.begun order n) = v.firstPass codec inner order (v.begun order n) := by
  rw [firstPass_congr (fun name => congrFun h.find _) (fun digest => h.taken (childOf_lockPath digest)) h.clock]
  unfold begun
  rw [h.tally]

lemma Alike.evicted (codec : Codec T) (inner : Inner) (order : List Name) :
    u.evicted codec inner order = v.evicted codec inner order := by
  unfold Scene.evicted Over
  rw [h.firstPass, h.tally]

lemma Alike.outcome (codec : Codec T) (inner : Inner) (order : List Name) (n : ℕ) :
    u.outcome codec inner order n = v.outcome codec inner order n := by
  unfold Scene.outcome
  rw [h.firstPass, h.evicted]

lemma Alike.removes (codec : Codec T) (inner : Inner) (order : List Name) :
    u.removes codec inner order = v.removes codec inner order := by
  have hfree : u.freeLocks = v.freeLocks := by
    ext p
    exact and_congr_right fun hchild => (h.taken hchild).not
  have hpasses : u.passes codec inner u.clock = v.passes codec inner v.clock := by
    unfold passes
    simp only [h.find, h.clock, goes_congr (congrFun h.find _) fun digest => h.taken (childOf_lockPath digest)]
  unfold Scene.removes
  rw [hfree, hpasses, h.evicted]

end Scene

lemma does_takeLock {mode : LockMode} {wait : Wait} (hf : v.files a f = some o) (hfree : ¬v.Conflict a f o.ino mode) :
    Does tick a (Sees a v ℓ) (takeLock f mode wait : M V Unit) fun _ =>
      Sees a (v.setFile a f (some { o with lock := some mode })) ℓ := by
  cases wait with
  | block =>
    refine .bind (Does.sure (solo_flock hf hfree)) fun r => .imp fun hr => ?_
    subst hr
    exact .pure fun _ _ h => h
  | skip =>
    refine .bind (Does.sure (solo_flock hf hfree)) fun r => .imp fun hr => ?_
    subst hr
    exact .pure fun _ _ h => h

open Classical in
/-- What a prune answers and leaves when nothing else moves. -/
theorem does_prune {wait : Wait} (hfit : v.Fit) (hone : v.Distinct) (hshare : v.Shareable) (hfree : ¬v.Taken pruneLock)
    (hmay : ∀ what, ℓ.may what) :
    Does tick a (Sees a v ℓ) (prune codec inner wait : M V Prune) fun r w => ∃ order names i node, v.Lists entries order ∧
      v.Lists locks names ∧ v.find pruneLock = some (i, node) ∧
        r = v.outcome codec inner order (names.countP fun name => ¬v.Taken (locks ++ [name])) ∧
          Sees a (v.pruned codec inner order i node) ℓ w := by
  refine .bind (Does.of_solo (solo_validateRoot hfit.root)) fun _ => ?_
  refine .bind (does_openPinned hfit (Or.inl rfl)) fun m => .of_exists fun i => .of_exists fun mnode => .of_exists fun since =>
    .imp fun hm => .imp fun _ => .imp fun hnew => ?_
  let R : Prune → Scene A → Prop := fun r u => ∃ order names i node, v.Lists entries order ∧ v.Lists locks names ∧
    v.find pruneLock = some (i, node) ∧
      r = v.outcome codec inner order (names.countP fun name => ¬v.Taken (locks ++ [name])) ∧ u = v.pruned codec inner order i node
  suffices h : Does tick a (Sees a (v.setFile a m (some (.at maintenanceLock i since))) ℓ) (do
      let pruning ← openLock pruneLock
      closing pruning do
        takeLock m .shared wait
        takeLock pruning .exclusive wait
        pruneLocked codec inner pruning : M V Prune) fun r w =>
          ∃ u o, R r u ∧ u.files a m = none ∧ Sees a (u.setFile a m (some o)) ℓ w by
    refine (does_closing h).post fun r w _ h => ?_
    obtain ⟨u, ⟨order, names, j, node, hl, hn, hp, hr, rfl⟩, h⟩ := h
    exact ⟨order, names, j, node, hl, hn, hp, hr, h⟩
  refine .bind (does_openPinned (hfit.setFile _) (Or.inr rfl)) fun p => .of_exists fun j => .of_exists fun pnode =>
    .of_exists fun since' => .imp fun hp => .imp fun _ => .imp fun hpnew => ?_
  rw [Scene.find_setFile] at hp
  have hmp : m ≠ p := by
    rintro rfl
    rw [Scene.files_setFile_self] at hpnew
    cases hpnew
  have hij : i ≠ j := by
    rintro rfl
    exact absurd (hone (Or.inl rfl) hm hp) (by decide)
  have hpv : v.files a p = none := (Scene.files_setFile_of_ne _ hmp.symm).symm.trans hpnew
  let M' : Open := .withLock maintenanceLock i since .shared
  let P' : Open := .withLock pruneLock j since' .exclusive
  let v₄ : Scene A := (v.setFile a m (some M')).setFile a p (some P')
  suffices h : Does tick a (Sees a ((v.setFile a m (some (.at maintenanceLock i since))).setFile a p (some (.at pruneLock j since'))) ℓ) (do
        takeLock m .shared wait
        takeLock p .exclusive wait
        pruneLocked codec inner p : M V Prune) fun r w => ∃ u, R r u ∧ u.files = v.files ∧
          Sees a ((u.setFile a m (some M')).setFile a p (some P')) ℓ w by
    refine Runs.post (does_closing (ℓ := ℓ) (T := fun r u => ∃ u', R r u' ∧ u'.files = v.files ∧ u = u'.setFile a m (some M'))
      (h.post fun r w _ h => ?_)) fun r w _ h => ?_
    · obtain ⟨u, hR, hfiles, h⟩ := h
      refine ⟨_, P', ⟨u, hR, hfiles, rfl⟩, ?_, h⟩
      rw [Scene.files_setFile_of_ne _ hmp.symm, hfiles, hpv]
    · obtain ⟨u, ⟨u', hR, hfiles, rfl⟩, h⟩ := h
      exact ⟨u', M', hR, by rw [hfiles, hnew], h⟩
  have hmfile : ((v.setFile a m (some (.at maintenanceLock i since))).setFile a p (some (.at pruneLock j since'))).files a m =
      some (.at maintenanceLock i since) := by
    rw [Scene.files_setFile_of_ne _ hmp, Scene.files_setFile_self]
  refine .bind (does_takeLock hmfile ?_) fun _ => ?_
  · rintro ⟨b, g, o, hne, ho, hino, hlock | ⟨hmode, -⟩⟩
    · rw [Scene.setFile_comm _ _ hmp, Scene.files_setFile_other _ hne] at ho
      by_cases hself : b = a ∧ g = p
      · obtain ⟨rfl, rfl⟩ := hself
        rw [Scene.files_setFile_self, Option.some_inj] at ho
        subst ho
        cases hlock
      · rw [Scene.files_setFile_other _ hself] at ho
        exact hshare i mnode b g o hm ho hino hlock
    · cases hmode
  rw [Scene.setFile_comm _ _ hmp.symm, Scene.setFile_setFile]
  refine .bind (does_takeLock (Scene.files_setFile_self _) ?_) fun _ => ?_
  · rintro ⟨b, g, o, hne, ho, hino, hlock⟩
    rw [Scene.files_setFile_other _ hne] at ho
    by_cases hself : b = a ∧ g = m
    · obtain ⟨rfl, rfl⟩ := hself
      rw [Scene.files_setFile_self, Option.some_inj] at ho
      subst ho
      exact hij hino
    · rw [Scene.files_setFile_other _ hself] at ho
      refine hfree ⟨j, pnode, b, g, o, hp, ho, hino, ?_⟩
      rcases hlock with hl | ⟨-, hl⟩ <;> simp [hl]
  rw [Scene.setFile_setFile]
  have halike : v₄.Alike v := by
    refine ⟨rfl, fun {path} hchild => ?_, rfl⟩
    rw [Scene.taken_setFile_iff ((Scene.files_setFile_of_ne _ hmp.symm).trans hpv), Scene.taken_setFile_iff hnew]
    · intro _ node hfind
      exact hchild.ne (by decide) (hone (Or.inl rfl) hm hfind)
    · intro _ node hfind
      exact hchild.ne (by decide) (hone (Or.inr (Or.inl rfl)) hp hfind)
  refine (does_pruneLocked (v := v₄) hfit.entries hfit.locks
    (fun hchild => hfit.regular (Lockish.of_child hchild)) (Scene.files_setFile_self _) (o := P') hp
      (fun q x hx => hone (Or.inr (Or.inl rfl)) hp hx) hmay).post fun r w _ h => ?_
  obtain ⟨order, names, hl, hn, hr, h⟩ := h
  refine ⟨_, ⟨order, names, j, pnode, hl.congr fun _ => rfl, hn.congr fun _ => rfl, hp, ?_, rfl⟩, rfl, ?_⟩
  · rw [hr, halike.outcome]
    congr 1
    refine List.countP_congr fun name _ => ?_
    simp only [halike.taken ⟨name, rfl⟩]
  · unfold Scene.pruned at h ⊢
    rw [halike.removes] at h
    exact h

end Unixd.Cache
