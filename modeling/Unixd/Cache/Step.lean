import Unixd.Cache.Invariant

/-!
# Every step keeps the invariant

One lemma for each kind of call, and the protocol that they make.
-/

namespace Unixd.Cache

open Unixd.Lib

variable {A V : Type} {σ : Setting A V} {w w' : World A V} {a : A} {f : ℕ} {o : Open}

set_option linter.unusedSectionVars false

lemma ChildOf.ne {dir path other : Path} (h : ChildOf dir path) (hlen : other.length ≠ dir.length + 1) :
    path ≠ other := by
  rintro rfl
  exact hlen h.length

/-- A step that only logs. -/
lemma Core.log (hi : Core σ w) {what : What V} (hcontent : ∀ digest content, what.change digest content = content)
    (hpermits : what.Guarded → σ.permits w.journal a what) : Core σ (w.log a what) := by
  refine hi.renames rfl rfl rfl rfl (fun _ _ _ _ _ _ => id) rfl (fun _ _ _ _ _ => rfl) ?_ hpermits
  intro digest hd
  rw [contents_append, hcontent]
  exact hi.content hd

/-- A step that takes a name away. -/
lemma Core.unnamed (hi : Core σ w) {path : Path} {what : What V} (hfiles : w'.files = w.files)
    (hnodes : w'.nodes = w.nodes) (hjournal : w'.journal = w.journal ++ [⟨a, what⟩])
    (hclock : w'.clock = w.clock)
    (hnames : ∀ q, q ≠ path → w'.names q = w.names q ∨ w'.names q = none ∧ path.length < q.length)
    (hpath : w'.names path = none) (hchild : ChildOf entries path ∨ ChildOf locks path)
    (hspares : ∀ b f o, w.files b f = some o → o.held ≠ none ∨ o.temp ≠ none → o.path ≠ path)
    (hcontent : ∀ digest, isDigest digest = true → ∀ content,
      what.change digest content = if path = entryPath digest then none else content)
    (hpermits : what.Guarded → σ.permits w.journal a what) : Core σ w' := by
  have hlen : path.length = 2 := by
    rcases hchild with h | h <;> exact h.length
  have hshort : ∀ q, q ≠ path → q.length ≤ 2 → w'.names q = w.names q := by
    intro q hq hle
    rcases hnames q hq with h | ⟨-, h⟩
    · exact h
    · omega
  have hsub : ∀ {q i}, w'.names q = some i → w.names q = some i := by
    intro q i h
    by_cases hq : q = path
    · rw [hq, hpath] at h
      cases h
    · rcases hnames q hq with hsame | ⟨hnone, -⟩
      · rwa [← hsame]
      · rw [hnone] at h
        cases h
  have hfixed : ∀ q : Path, q.length = 1 → w'.names q = w.names q := by
    intro q hq
    refine hshort q ?_ (by omega)
    rintro rfl
    omega
  refine hi.renames hfiles hnodes hjournal hclock (fun _ _ _ _ _ _ => hsub) (hfixed entries rfl) ?_ ?_ hpermits
  · rintro b f o ho (hp | hp | hp)
    · rw [hp]
      exact hfixed maintenanceLock rfl
    · rw [hp]
      exact hfixed pruneLock rfl
    · refine hshort o.path (hspares b f o ho hp) ?_
      rcases hp with hheld | htemp
      · obtain ⟨x, hx⟩ := Option.ne_none_iff_exists'.mp hheld
        exact Nat.le_of_eq ((hi.file ho).held hx).2.1.length
      · obtain ⟨x, hx⟩ := Option.ne_none_iff_exists'.mp htemp
        obtain ⟨-, -, -, -, -, digest, -, hof, -⟩ := (hi.file ho).temp hx
        exact Nat.le_of_eq hof.child.length
  · intro digest hd
    rw [contents_append, hcontent digest hd, ← hi.content hd]
    unfold World.content
    split
    · rename_i heq
      rw [← heq, hpath]
      rfl
    · rename_i hne
      rw [hshort (entryPath digest) (Ne.symm hne) (Nat.le_of_eq (childOf_entryPath digest).length), hnodes]

lemma Core.unlink (hi : Core σ w) {path : Path} {why : Why} (hallowed : Allowed σ a (.unlink path why) w) :
    Core σ ((w.setName path none).log a (.unlinked path why)) := by
  refine hi.unnamed rfl rfl rfl rfl ?_ (by simp) hallowed.1.child ?_ (fun _ _ _ => rfl)
    fun _ => hallowed.2
  · intro q hq
    exact Or.inl (by simp [hq])
  · rintro b f o ho hkept rfl
    exact hi.spares ho hkept hallowed.1

lemma Core.removeTree (hi : Core σ w) {path : Path} {why : Why} (hallowed : Allowed σ a (.removeTree path why) w) :
    Core σ ((w.dropTree path).log a (.unlinked path why)) := by
  refine hi.unnamed rfl rfl rfl rfl ?_ (by simp [World.dropTree]) hallowed.1.child ?_ (fun _ _ _ => rfl)
    fun _ => hallowed.2
  · intro q hq
    by_cases hp : path <+: q
    · refine Or.inr ⟨by simp [World.dropTree, hp], ?_⟩
      refine Nat.lt_of_le_of_ne hp.length_le fun hlen => hq ?_
      exact (hp.eq_of_length hlen).symm
    · exact Or.inl (by simp [World.dropTree, hp])
  · rintro b f o ho hkept rfl
    exact hi.spares ho hkept hallowed.1

section

variable [DecidableEq A]

lemma Core.release (hi : Core σ w) {by' : HeldBy} (ho : w.files a f = some o) (hheld : o.held = some by')
    (hallowed : Allowed σ a (.release f) w) :
    Core σ (((w.setName o.path none).log a (.released o.path by')).setFile a f (some { o with held := none })) ∧
      Core σ ((w.log a (.released o.path by')).setFile a f (some { o with held := none })) := by
  have hset : Core σ (w.setFile a f (some { o with held := none })) :=
    hi.update ho rfl rfl rfl (Or.inl rfl) (Or.inr ⟨rfl, hallowed⟩)
  have hne : o.held ≠ none := by simp [hheld]
  have hback : ∀ {b g o'}, (w.setFile a f (some { o with held := none })).files b g = some o' →
      o'.held ≠ none ∨ o'.temp ≠ none → ¬(b = a ∧ g = f) ∧ w.files b g = some o' := by
    intro b g o' h hkept
    rcases (w.files_setFile_eq_some a f _).mp h with ⟨⟨rfl, rfl⟩, heq⟩ | h
    · rw [Option.some_inj] at heq
      subst heq
      simp [hallowed g o ho] at hkept
    · exact h
  obtain ⟨-, hchild, -⟩ := (hi.file ho).held hheld
  constructor
  · refine hset.unnamed rfl rfl rfl rfl ?_ (by simp) (Or.inr hchild) ?_ ?_ (by simp [What.Guarded])
    · intro q hq
      exact Or.inl (by simp [hq])
    · rintro b g o' h hkept hpath
      obtain ⟨hother, h'⟩ := hback h hkept
      rcases hkept with hh | ht
      · exact hother (hi.held_unique ho h' hne hh hpath.symm)
      · obtain ⟨x, hx⟩ := Option.ne_none_iff_exists'.mp ht
        obtain ⟨-, -, -, -, -, digest, -, hof, -⟩ := (hi.file h').temp hx
        rw [hpath] at hof
        exact hof.child.not_locks hchild
    · intro digest _ content
      rw [if_neg ?_]
      · rfl
      · rintro hp
        rw [hp] at hchild
        exact (childOf_entryPath digest).not_locks hchild
  · exact hset.log (fun _ _ => rfl) (by simp [What.Guarded])

/-- Where a temporary file is once it no longer counts as one. -/
lemma Core.clearTemp (hi : Core σ w) {written : Bytes} (ho : w.files a f = some o) (htemp : o.temp = some written) :
    Core σ (w.setFile a f (some { o with temp := none })) ∧
      ∀ b g o', (w.setFile a f (some { o with temp := none })).files b g = some o' →
        o'.held ≠ none ∨ o'.temp ≠ none → o'.path ≠ o.path := by
  refine ⟨hi.update ho rfl rfl rfl (Or.inr rfl) (Or.inl rfl), ?_⟩
  obtain ⟨hname, -, -, -, hsole, digest, -, hof, -⟩ := (hi.file ho).temp htemp
  rintro b g o' h hkept hpath
  have hheldNot : ∀ {c k o₁}, w.files c k = some o₁ → o₁.held ≠ none → o₁.path ≠ o.path := by
    intro c k o₁ h₁ hh hp
    obtain ⟨x, hx⟩ := Option.ne_none_iff_exists'.mp hh
    obtain ⟨-, hchild, -⟩ := (hi.file h₁).held hx
    rw [hp] at hchild
    exact hof.child.not_locks hchild
  rcases (w.files_setFile_eq_some a f _).mp h with ⟨⟨rfl, rfl⟩, heq⟩ | ⟨hne, h'⟩
  · rw [Option.some_inj] at heq
    subst heq
    rcases hkept with hh | ht
    · exact hheldNot ho hh rfl
    · simp at ht
  · rcases hkept with hh | ht
    · exact hheldNot h' hh hpath
    · obtain ⟨x, hx⟩ := Option.ne_none_iff_exists'.mp ht
      obtain ⟨hname', -⟩ := (hi.file h').temp hx
      rw [hpath, hname, Option.some_inj] at hname'
      exact hne (hsole b g o' h' hname'.symm)

lemma Core.dropTemp (hi : Core σ w) {written : Bytes} (ho : w.files a f = some o) (htemp : o.temp = some written) :
    Core σ (((w.setName o.path none).log a (.dropped o.path)).setFile a f (some { o with temp := none })) := by
  obtain ⟨hset, hother⟩ := hi.clearTemp ho htemp
  obtain ⟨-, -, -, -, -, digest, hd, hof, -⟩ := (hi.file ho).temp htemp
  refine hset.unnamed rfl rfl rfl rfl ?_ (by simp) (Or.inl hof.child) hother ?_ (by simp [What.Guarded])
  · intro q hq
    exact Or.inl (by simp [hq])
  · intro digest' hd' content
    rw [if_neg ?_]
    · rfl
    · intro hp
      have hentry := not_temporary_of_entryDigest (childOf_entryPath digest') (entryDigest_entryPath hd')
      rw [← hp, hof.isTemporary] at hentry
      cases hentry

lemma Core.persist (hi : Core σ w) {written : Bytes} {dst : Path} {i : ℕ} (ho : w.files a f = some o)
    (htemp : o.temp = some written) (hsrc : w.names o.path = some i)
    (hallowed : Allowed σ a (.persist f dst) w) :
    Core σ ((((w.setName o.path none).setName dst (some i)).log a
      (.renamed o.path dst (w.nodes i).bytes)).setFile a f (some { o with path := dst, temp := none })) := by
  obtain ⟨hlock, hheld, written', digest, htemp', hd, hof, rfl, hpermits, -⟩ := hallowed o ho
  obtain rfl : written = written' := by simpa [htemp] using htemp'
  obtain ⟨hset, hother⟩ := hi.clearTemp ho htemp
  obtain ⟨hname, honly, hkind, hbytes, hsole, -⟩ := (hi.file ho).temp htemp
  obtain rfl : o.ino = i := by simpa [hname] using hsrc
  have hne : ∀ {digest'}, isDigest digest' = true → entryPath digest' ≠ o.path := by
    intro digest' hd' hp
    have hentry := not_temporary_of_entryDigest (childOf_entryPath digest') (entryDigest_entryPath hd')
    rw [hp, hof.isTemporary] at hentry
    cases hentry
  have hrenamed : Core σ (((((w.setFile a f (some { o with temp := none })).setName o.path none).setName
      (entryPath digest) (some o.ino)).log a (.renamed o.path (entryPath digest) (w.nodes o.ino).bytes))) := by
    have hold : ∀ {q i}, Function.update (Function.update w.names o.path none) (entryPath digest) (some o.ino) q
        = some i → q = entryPath digest ∧ i = o.ino ∨ q ≠ entryPath digest ∧ q ≠ o.path ∧ w.names q = some i := by
      intro q i h
      by_cases hq : q = entryPath digest
      · subst hq
        exact Or.inl ⟨rfl, by simpa [eq_comm] using h⟩
      · rw [Function.update_of_ne hq] at h
        by_cases hp : q = o.path
        · simp [hp] at h
        · exact Or.inr ⟨hq, hp, by rwa [Function.update_of_ne hp] at h⟩
    refine hset.renames rfl rfl rfl rfl ?_ ?_ ?_ ?_ ?_
    · intro b g o' h ht q hq
      rcases hold hq with ⟨-, hino⟩ | ⟨-, -, hq⟩
      · rcases (w.files_setFile_eq_some a f _).mp h with ⟨-, heq⟩ | ⟨hne, h⟩
        · rw [Option.some_inj] at heq
          simp [← heq] at ht
        · exact absurd (hsole b g o' h hino) hne
      · exact hq
    · change Function.update (Function.update w.names o.path none) (entryPath digest) (some o.ino) entries = _
      rw [Function.update_of_ne ((childOf_entryPath digest).ne (by decide)).symm,
        Function.update_of_ne (hof.child.ne (by decide)).symm]
      rfl
    · rintro b g o' h hkept
      have hne₁ : o'.path ≠ entryPath digest ∧ o'.path ≠ o.path := by
        rcases hkept with hp | hp | hp
        · rw [hp]
          exact ⟨((childOf_entryPath digest).ne (by decide)).symm, (hof.child.ne (by decide)).symm⟩
        · rw [hp]
          exact ⟨((childOf_entryPath digest).ne (by decide)).symm, (hof.child.ne (by decide)).symm⟩
        · refine ⟨fun heq => ?_, hother b g o' h hp⟩
          have hok := hset.file h
          rcases hp with hh | ht
          · obtain ⟨x, hx⟩ := Option.ne_none_iff_exists'.mp hh
            obtain ⟨-, hchild, -⟩ := hok.held hx
            rw [heq] at hchild
            exact (childOf_entryPath digest).not_locks hchild
          · obtain ⟨x, hx⟩ := Option.ne_none_iff_exists'.mp ht
            obtain ⟨-, -, -, -, -, digest', -, hof', -⟩ := hok.temp hx
            have hentry := not_temporary_of_entryDigest (childOf_entryPath digest) (entryDigest_entryPath hd)
            rw [← heq, hof'.isTemporary] at hentry
            cases hentry
      change Function.update (Function.update w.names o.path none) (entryPath digest) (some o.ino) o'.path = _
      rw [Function.update_of_ne hne₁.1, Function.update_of_ne hne₁.2]
      rfl
    · intro digest' hd'
      rw [contents_append]
      unfold World.content What.change
      by_cases heq : entryPath digest = entryPath digest'
      · simp [heq, hkind]
      · simp only [World.names_log, World.names_setName, Ne.symm heq, ne_eq, not_false_eq_true,
          Function.update_of_ne, hne hd', if_neg heq]
        exact hi.content hd'
    · intro _
      rwa [hbytes]
  rw [← World.setFile_setFile _ a f (some { o with temp := none })]
  refine hrenamed.plain ?_ ⟨hlock, hheld, rfl⟩ ?_ ?_ ?_
  · rintro o₁ h₁
    obtain rfl : { o with temp := none } = o₁ := by simpa using h₁
    exact ⟨hlock, hheld⟩
  · rintro (hp | hp)
    · exact absurd hp ((childOf_entryPath digest).ne (by decide))
    · exact absurd hp ((childOf_entryPath digest).ne (by decide))
  · exact fun hchild => absurd hchild (childOf_entryPath digest).not_locks
  · rintro b g o₁ hne₁ h₁ hino
    have h₂ : w.files b g = some o₁ := by
      rcases (w.files_setFile_eq_some a f _).mp h₁ with ⟨heq, -⟩ | ⟨-, h₂⟩
      · exact absurd heq hne₁
      · exact h₂
    exact absurd (hsole b g o₁ h₂ hino) hne₁

/-- A file opened under a name that no temporary file has. -/
lemma Core.open (hi : Core σ w) {path : Path} {i since : ℕ} (h : w.names path = some i) (new : w.files a f = none)
    (hregular : ChildOf locks path → (w.nodes i).kind = .file)
    (hpath : ∀ digest, ¬TemporaryOf digest path) :
    Core σ (w.setFile a f (some (.at path i since))) := by
  refine hi.plain (by simp [new]) ⟨rfl, rfl, rfl⟩ (fun _ => h) hregular ?_
  intro b g o _ ho hino
  by_contra hne
  obtain ⟨written, ht⟩ := Option.ne_none_iff_exists'.mp hne
  obtain ⟨-, honly, -, -, -, digest, -, hof, -⟩ := (hi.file ho).temp ht
  have heq : path = o.path := honly path (by rw [hino, h]; rfl)
  exact hpath digest (heq ▸ hof)

/-- A new inode under a new name. -/
lemma Core.link (hi : Core σ w) {path : Path} {i : ℕ} {node : Node} (h : w.names path = none) (free : w.Free i)
    (hpath : ∀ digest, isDigest digest = true → path ≠ entryPath digest) :
    Core σ (((w.setName path (some i)).setNode i node).log a (.linked path)) := by
  have hnode : Core σ (w.setNode i node) := by
    refine hi.renode ?_ ?_ ?_
    · exact fun b g o ho hino => absurd hino (free.2 b g o ho)
    · exact fun hname => absurd hname (free.1 entries)
    · exact fun digest _ hname => absurd hname (free.1 (entryPath digest))
  have hother : ∀ {q j}, w.names q = some j → Function.update w.names path (some i) q = w.names q := by
    intro q j hq
    rw [Function.update_of_ne]
    rintro rfl
    simp [h] at hq
  refine hnode.renames rfl rfl rfl rfl ?_ ?_ ?_ ?_ (by simp [What.Guarded])
  · intro b g o ho _ q hq
    change Function.update w.names path (some i) q = some o.ino at hq
    by_cases hqq : q = path
    · subst hqq
      obtain rfl : i = o.ino := by simpa using hq
      exact absurd rfl (free.2 b g o ho)
    · rwa [Function.update_of_ne hqq] at hq
  · obtain ⟨j, hj, -⟩ := hi.entriesDir
    exact hother hj
  · rintro b g o ho (hp | hp | hp | hp)
    · exact hother ((hi.file ho).pinned (Or.inl hp))
    · exact hother ((hi.file ho).pinned (Or.inr hp))
    · obtain ⟨x, hx⟩ := Option.ne_none_iff_exists'.mp hp
      exact hother ((hi.file ho).held hx).2.2.1
    · obtain ⟨x, hx⟩ := Option.ne_none_iff_exists'.mp hp
      exact hother ((hi.file ho).temp hx).1
  · intro digest hd
    rw [contents_append]
    change _ = contents σ.start (w.setNode i node).journal digest
    rw [← hnode.content hd]
    unfold World.content
    change (Function.update w.names path (some i) (entryPath digest)).map _ = _
    rw [Function.update_of_ne (hpath digest hd).symm]
    rfl

lemma Core.tempfile (hi : Core σ w) {start suffix random : Name} {dir : Path} {i : ℕ} {modified : ℤ}
    (h : w.names (dir ++ [start ++ random ++ suffix]) = none) (free : w.Free i) (new : w.files a f = none)
    (hallowed : Allowed σ a (.tempfile dir start suffix) w) :
    Core σ ((((w.setName (dir ++ [start ++ random ++ suffix]) (some i)).setNode i
      (.empty .file 0o600 modified)).log a (.linked (dir ++ [start ++ random ++ suffix]))).setFile a f
        (some { Open.at (dir ++ [start ++ random ++ suffix]) i (w.journal.length + 1) with temp := some [] })) := by
  obtain ⟨digest, hd, rfl, rfl, rfl, g, o, ho, hp, hheld⟩ := hallowed
  have hof : TemporaryOf digest (entries ++ [temporaryStart digest ++ random ++ temporarySuffix]) := ⟨random, rfl⟩
  generalize entries ++ [temporaryStart digest ++ random ++ temporarySuffix] = path at h hof
  have hlink : Core σ (((w.setName path (some i)).setNode i (.empty .file 0o600 modified)).log a (.linked path)) := by
    refine hi.link h free ?_
    rintro digest' hd' rfl
    have hentry := not_temporary_of_entryDigest (childOf_entryPath digest') (entryDigest_entryPath hd')
    rw [hof.isTemporary] at hentry
    cases hentry
  have hother : ∀ b k o₁, w.files b k = some o₁ → o₁.ino ≠ i := free.2
  have honly : ∀ q, Function.update w.names path (some i) q = some i → q = path := by
    intro q hq
    by_contra hne
    rw [Function.update_of_ne hne] at hq
    exact free.1 q hq
  rw [← World.setFile_setFile _ a f (some (.at path i (w.journal.length + 1)))]
  refine (hlink.plain (by simp [new]) ⟨rfl, rfl, rfl⟩ ?_ ?_ ?_).grow
    (o := .at path i (w.journal.length + 1)) (by simp) rfl rfl (Or.inl rfl) (Or.inl rfl) (by simp [Open.at]) (by simp [Open.at]) ?_
  · intro _
    simp [Open.at]
  · exact fun hchild => absurd hchild hof.child.not_locks
  · exact fun b k o₁ _ h₁ hino => absurd hino (hother b k o₁ h₁)
  · rintro written ⟨⟩
    refine ⟨by simp [Open.at], honly, by simp [Open.at, Node.empty], by simp [Open.at, Node.empty], ?_, digest, hd, hof, ?_⟩
    · intro b k o₁ h₁ hino
      rcases (World.files_setFile_eq_some _ a f _).mp h₁ with ⟨heq, -⟩ | ⟨-, h₁⟩
      · exact heq
      · exact absurd hino (hother b k o₁ h₁)
    · have hg : g ≠ f := by
        rintro rfl
        simp [new] at ho
      exact ⟨g, o, by simpa [hg] using ho, hp, hheld⟩

lemma Core.write (hi : Core σ w) {written bytes : Bytes} {modified : ℤ} (ho : w.files a f = some o)
    (htemp : o.temp = some written) :
    Core σ ((w.setNode o.ino { w.nodes o.ino with
      bytes := (w.nodes o.ino).bytes ++ bytes, modified := modified }).setFile a f
        (some { o with temp := some (written ++ bytes) })) := by
  obtain ⟨hname, honly, hkind, rfl, hsole, digest, hd, hof, hholds⟩ := (hi.file ho).temp htemp
  obtain ⟨hset, -⟩ := hi.clearTemp ho htemp
  have hback : ∀ {b g o₁}, (w.setFile a f (some { o with temp := none })).files b g = some o₁ →
      o₁.ino = o.ino → b = a ∧ g = f := by
    intro b g o₁ h₁ hino
    rcases (w.files_setFile_eq_some a f _).mp h₁ with ⟨heq, -⟩ | ⟨-, h₁⟩
    · exact heq
    · exact hsole b g o₁ h₁ hino
  have hnode : Core σ ((w.setFile a f (some { o with temp := none })).setNode o.ino
      { w.nodes o.ino with bytes := (w.nodes o.ino).bytes ++ bytes, modified := modified }) := by
    refine hset.renode ?_ ?_ ?_
    · intro b g o₁ h₁ hino
      obtain ⟨rfl, rfl⟩ := hback h₁ hino
      obtain rfl : { o with temp := none } = o₁ := by simpa using h₁
      exact ⟨rfl, by simp⟩
    · exact fun _ => ⟨rfl, rfl⟩
    · intro digest' hd' hentry
      have hpath : entryPath digest' = o.path := honly _ hentry
      have hnot := not_temporary_of_entryDigest (childOf_entryPath digest') (entryDigest_entryPath hd')
      rw [hpath, hof.isTemporary] at hnot
      cases hnot
  have hok := hnode.file (a := a) (f := f) (o := { o with temp := none }) (by simp)
  rw [← World.setFile_setFile _ a f (some { o with temp := none })]
  refine hnode.grow (o := { o with temp := none }) (by simp) rfl rfl (Or.inr rfl) (Or.inr (Or.inl rfl)) ?_ ?_ ?_
  · exact fun _ b g o₁ hne h₁ hino => absurd (hback h₁ hino) hne
  · intro by' hb
    exact hok.held hb
  · rintro _ ⟨⟩
    refine ⟨hname, honly, by simp [hkind], by simp, fun b g o₁ h₁ hino => hback h₁ hino, digest, hd, hof, ?_⟩
    obtain ⟨g, o₁, h₁, hp₁, hk₁⟩ := hholds
    by_cases hg : g = f
    · subst hg
      obtain rfl : o = o₁ := by simpa [ho] using h₁
      exact ⟨g, { o with temp := some ((w.nodes o.ino).bytes ++ bytes) }, by simp, hp₁, hk₁⟩
    · exact ⟨g, o₁, by simpa [hg] using h₁, hp₁, hk₁⟩

lemma Core.flock (hi : Core σ w) {mode : LockMode} (ho : w.files a f = some o) (hlock : o.lock = none)
    (free : ¬w.Conflict a f o.ino mode) : Core σ (w.setFile a f (some { o with lock := some mode })) := by
  have hold := hi.file ho
  refine hi.grow ho rfl rfl (Or.inl hlock) (Or.inr (Or.inl rfl)) ?_ ?_ ?_
  · intro _ b g o₁ hne h₁ hino
    constructor
    · exact fun hexcl => free ⟨b, g, o₁, hne, h₁, hino, Or.inl hexcl⟩
    · intro hmode
      cases hl : o₁.lock with
      | none => rfl
      | some x =>
        refine absurd ⟨b, g, o₁, hne, h₁, hino, ?_⟩ free
        cases x with
        | shared => exact Or.inr ⟨by simpa using hmode, hl⟩
        | exclusive => exact Or.inl hl
  · intro by' hb
    obtain ⟨hexcl, -⟩ := hold.held hb
    simp [hlock] at hexcl
  · intro written ht
    obtain ⟨hname, honly, hk, hbytes, hsole, digest, hd, hof, hholds⟩ := hold.temp ht
    exact ⟨hname, honly, hk, hbytes, hsole, digest, hd, hof, hholds.setFile ho rfl rfl⟩

lemma Core.hold (hi : Core σ w) {by' : HeldBy} (ho : w.files a f = some o) (hallowed : Allowed σ a (.hold f by') w) :
    Core σ (w.setFile a f (some { o with held := some by' })) := by
  obtain ⟨hshares, hprunes, -, hfile⟩ := hallowed
  obtain ⟨hheld, hexcl, hchild, hname⟩ := hfile o ho
  have hold := hi.file ho
  refine hi.grow ho rfl rfl (Or.inr rfl) (Or.inl hheld) ?_ ?_ ?_
  · intro _ b g o₁ hne h₁ hino
    have hnone : o₁.lock = none := by
      by_contra hl
      exact hne (hold.flock h₁ hino hexcl hl)
    simp [hnone]
  · rintro by'' ⟨⟩
    exact ⟨hexcl, hchild, hname, hshares, hprunes⟩
  · intro written ht
    obtain ⟨-, -, -, -, -, digest, -, hof, -⟩ := hold.temp ht
    exact absurd hchild hof.child.not_locks

lemma not_entry_of_lock {path : Path} (h : path = maintenanceLock ∨ path = pruneLock ∨ ChildOf locks path) :
    ¬ChildOf entries path := by
  rintro hchild
  rcases h with rfl | rfl | h
  · exact hchild.ne (by decide) rfl
  · exact hchild.ne (by decide) rfl
  · exact hchild.not_locks h

/-- The call that follows a symlink out of the root is the one that is not allowed. -/
theorem Core.step {faults : Op V → Prop} {op : Op V} {r : op.Ret} (hi : Core σ w) (hallowed : Allowed σ a op w)
    (hsem : Sem faults a op w r w') : Core σ w' := by
  cases hsem with
  | fault => exact hi.log (fun _ _ => rfl) (by simp [What.Guarded])
  | lstat | fstat => exact hi
  | openLockOther | openLockNoDir | openReadMissing | openReadOther | openDirMissing | openDirOther => exact hi
  | chmodMissing | mkdirExists | mkdirNoDir | wouldBlock | unlinkMissing | unlinkDir => exact hi
  | removeTreeMissing | removeTreeOther | tempfileNoDir | fsync | persistMissing | persistOther => exact hi
  | nextEnd => exact hi
  | openLock h kind new =>
    have hentry := not_entry_of_lock (hallowed.imp_right fun h => h.imp_right And.left)
    exact hi.open h new (fun _ => kind) fun digest hof => hentry hof.child
  | @createLock path i f modified _ h dir free new =>
    have hentry := not_entry_of_lock (hallowed.imp_right fun h => h.imp_right And.left)
    have hlink := @Core.link _ _ _ _ a _ hi _ _ (.empty .file 0o600 modified) h free
      fun digest _ hp => hentry (hp ▸ childOf_entryPath digest)
    exact hlink.open (by simp) (by simpa using new) (fun _ => by simp [Node.empty])
      fun digest hof => hentry hof.child
  | openRead h kind new =>
    refine hi.open h new ?_ ?_
    · intro hchild
      rcases hallowed.1 with rfl | rfl | rfl | ⟨digest, -, rfl⟩
      · exact absurd rfl (hchild.ne (by decide))
      · exact absurd rfl (hchild.ne (by decide))
      · exact absurd rfl (hchild.ne (by decide))
      · exact absurd hchild (childOf_entryPath digest).not_locks
    · intro digest hof
      rcases hallowed.1 with rfl | rfl | rfl | ⟨digest', hd, rfl⟩
      · exact hof.child.ne (by decide) rfl
      · exact hof.child.ne (by decide) rfl
      · exact hof.child.ne (by decide) rfl
      · have hnot := not_temporary_of_entryDigest (childOf_entryPath digest') (entryDigest_entryPath hd)
        rw [hof.isTemporary] at hnot
        cases hnot
  | followed h kind new => exact absurd kind (hallowed.2 rfl _ h)
  | openDir h kind new =>
    refine hi.open h new ?_ ?_
    · intro hchild
      rcases hallowed with rfl | rfl
      · exact absurd rfl (hchild.ne (by decide))
      · exact absurd rfl (hchild.ne (by decide))
    · intro digest hof
      rcases hallowed with rfl | rfl
      · exact hof.child.ne (by decide) rfl
      · exact hof.child.ne (by decide) rfl
  | chmod h => exact hi.renode (fun _ _ _ _ _ => ⟨rfl, fun _ => rfl⟩) (fun _ => ⟨rfl, rfl⟩) fun _ _ _ => ⟨rfl, rfl⟩
  | fchmod h => exact hi.renode (fun _ _ _ _ _ => ⟨rfl, fun _ => rfl⟩) (fun _ => ⟨rfl, rfl⟩) fun _ _ _ => ⟨rfl, rfl⟩
  | setModified h =>
    exact hi.renode (fun _ _ _ _ _ => ⟨rfl, fun _ => rfl⟩) (fun _ => ⟨rfl, rfl⟩) fun _ _ _ => ⟨rfl, rfl⟩
  | mkdir h dir free =>
    refine hi.link h free fun digest _ hp => ?_
    rcases hallowed with rfl | rfl
    · exact (childOf_entryPath digest).ne (by decide) hp.symm
    · exact (childOf_entryPath digest).ne (by decide) hp.symm
  | flock h free => exact hi.flock h (hallowed _ h).1 free
  | close h => exact hi.close h hallowed
  | hold h => exact hi.hold h hallowed
  | release h held => exact (hi.release h held hallowed).1
  | releaseFails h held why => exact (hi.release h held hallowed).2
  | unlink h kind => exact hi.unlink hallowed
  | removeTree h => exact hi.removeTree hallowed
  | tempfile h isDir free new => exact hi.tempfile h free new hallowed
  | write h temp le pos => exact hi.write h temp
  | persist h temp src file => exact hi.persist h temp src hallowed
  | dropTemp h temp => exact hi.dropTemp h temp
  | dropTempFails h temp why => exact (hi.clearTemp h temp).1
  | next h shown once => exact hi.update h rfl rfl rfl (Or.inl rfl) (Or.inl rfl)
  | read h le pos => exact hi.update h rfl rfl rfl (Or.inl rfl) (Or.inl rfl)
  | now => exact hi.log (fun _ _ => rfl) (by simp [What.Guarded])
  | note => exact hi.log (fun _ _ => rfl) fun _ => hallowed.1

lemma Core.setClock (hi : Core σ w) {clock : ℕ} (h : clock ≤ u64Max) : Core σ (w.setClock clock) :=
  ⟨fun ho => ⟨(hi.file ho).flock, (hi.file ho).pinned, (hi.file ho).regular, (hi.file ho).held,
    (hi.file ho).temp⟩, hi.entriesDir, hi.content, hi.said, h⟩

end

end Unixd.Cache
