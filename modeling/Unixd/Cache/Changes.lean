import Unixd.Cache.Step

/-!
# What one call changes

One call inverted field by field: the files and the journal, the inodes, and the names.
-/

namespace Unixd.Cache

open Unixd.Lib

set_option linter.unusedSectionVars false

variable {A V : Type} {σ : Setting A V} {w w' : World A V} {a b : A} {f : ℕ} {o : Open}

section

variable [DecidableEq A] {faults : Op V → Prop} {op : Op V} {r : op.Ret}

lemma Sem.files (h : Sem faults b op w r w') (hne : a ≠ b) : w'.files a = w.files a := by
  cases h
  all_goals first
    | rfl
    | exact World.files_setFile_of_ne _ b _ _ hne

lemma Sem.clock (h : Sem faults b op w r w') : w'.clock = w.clock := by
  cases h <;> rfl

lemma Sem.journal (h : Sem faults b op w r w') :
    w'.journal = w.journal ∨ ∃ what, w'.journal = w.journal ++ [⟨b, what⟩] := by
  cases h
  all_goals first
    | exact Or.inl rfl
    | exact Or.inr ⟨_, rfl⟩

/-- The kind of an inode in use stays. -/
lemma Sem.kind (h : Sem faults b op w r w') (i : ℕ) :
    w.Free i ∨ (w'.nodes i).kind = (w.nodes i).kind ∧ (w'.nodes i).owned = (w.nodes i).owned := by
  have hset : ∀ {j : ℕ} {node : Node}, node.kind = (w.nodes j).kind → node.owned = (w.nodes j).owned →
      (Function.update w.nodes j node i).kind = (w.nodes i).kind ∧
        (Function.update w.nodes j node i).owned = (w.nodes i).owned := by
    rintro j node hk ho
    by_cases hij : i = j
    · subst hij
      simp [hk, ho]
    · simp [hij]
  have hnew : ∀ {j : ℕ} {node : Node}, w.Free j → w.Free i ∨
      (Function.update w.nodes j node i).kind = (w.nodes i).kind ∧
        (Function.update w.nodes j node i).owned = (w.nodes i).owned := by
    rintro j node hfree
    by_cases hij : i = j
    · exact Or.inl (hij ▸ hfree)
    · simp [hij]
  cases h with
  | createLock _ _ free _ => exact hnew free
  | mkdir _ _ free => exact hnew free
  | tempfile _ _ free _ => exact hnew free
  | chmod | fchmod | write | setModified => exact Or.inr (hset rfl rfl)
  | _ => exact Or.inr ⟨rfl, rfl⟩

/-- The bytes of an inode in use change only by a write to a temporary file. -/
lemma Sem.bytes (h : Sem faults b op w r w') (i : ℕ) :
    w.Free i ∨ (w'.nodes i).bytes = (w.nodes i).bytes ∨
      ∃ f o, w.files b f = some o ∧ o.temp ≠ none ∧ o.ino = i := by
  have hset : ∀ {j : ℕ} {node : Node}, node.bytes = (w.nodes j).bytes →
      (Function.update w.nodes j node i).bytes = (w.nodes i).bytes := by
    rintro j node hb
    by_cases hij : i = j
    · subst hij
      simp [hb]
    · simp [hij]
  have hnew : ∀ {j : ℕ} {node : Node}, w.Free j → w.Free i ∨
      (Function.update w.nodes j node i).bytes = (w.nodes i).bytes ∨
        ∃ f o, w.files b f = some o ∧ o.temp ≠ none ∧ o.ino = i := by
    rintro j node hfree
    by_cases hij : i = j
    · exact Or.inl (hij ▸ hfree)
    · simp [hij]
  cases h with
  | createLock _ _ free _ => exact hnew free
  | mkdir _ _ free => exact hnew free
  | tempfile _ _ free _ => exact hnew free
  | chmod | fchmod | setModified => exact Or.inr (Or.inl (hset rfl))
  | @write f bytes n o written modified _ h temp le pos =>
    by_cases hij : i = o.ino
    · exact Or.inr (Or.inr ⟨f, o, h, by simp [temp], hij.symm⟩)
    · exact Or.inr (Or.inl (by simp [hij]))
  | _ => exact Or.inr (Or.inl rfl)

/-- The time of an inode in use changes only by a write to a temporary file, or where it is set. -/
lemma Sem.modified (h : Sem faults b op w r w') (i : ℕ) :
    w.Free i ∨ (w'.nodes i).modified = (w.nodes i).modified ∨ ∃ f o, w.files b f = some o ∧ o.ino = i ∧
      (o.temp ≠ none ∨ ∃ ms, op = .setModified f ms ∧ w' = w.setNode i { w.nodes i with modified := millisecond ms }) := by
  have hnew : ∀ {j : ℕ} {node : Node}, w.Free j → w.Free i ∨
      (Function.update w.nodes j node i).modified = (w.nodes i).modified := by
    rintro j node hfree
    by_cases hij : i = j
    · exact Or.inl (hij ▸ hfree)
    · simp [hij]
  have hset : ∀ {j mode : ℕ},
      (Function.update w.nodes j { w.nodes j with mode := mode } i).modified = (w.nodes i).modified := by
    intro j mode
    by_cases hij : i = j
    · subst hij
      simp
    · simp [hij]
  cases h with
  | createLock _ _ free _ => exact (hnew free).imp_right Or.inl
  | mkdir _ _ free => exact (hnew free).imp_right Or.inl
  | tempfile _ _ free _ => exact (hnew free).imp_right Or.inl
  | chmod | fchmod => exact Or.inr (Or.inl hset)
  | @setModified f ms o _ h =>
    by_cases hij : i = o.ino
    · subst hij
      exact Or.inr (Or.inr ⟨f, o, h, rfl, Or.inr ⟨ms, rfl, rfl⟩⟩)
    · exact Or.inr (Or.inl (by simp [hij]))
  | @write f bytes n o written modified _ h temp le pos =>
    by_cases hij : i = o.ino
    · exact Or.inr (Or.inr ⟨f, o, h, hij.symm, Or.inl (by simp [temp])⟩)
    · exact Or.inr (Or.inl (by simp [hij]))
  | _ => exact Or.inr (Or.inl rfl)

end

/-- How a call of `b` changes what the name `path` stands for. -/
inductive Changed (σ : Setting A V) (w : World A V) (b : A) (path : Path) : Option ℕ → Prop where
  | linked {i : ℕ} (h : w.names path = none) (free : w.Free i)
      (where' : path = maintenanceLock ∨ path = pruneLock ∨ path = entries ∨ path = locks ∨ ChildOf locks path ∨
        ∃ digest, isDigest digest = true ∧ TemporaryOf digest path ∧ w.Holds b (lockPath digest) .key) :
      Changed σ w b path (some i)
  | released {by' : HeldBy} (h : w.Holds b path by') : Changed σ w b path none
  | unlinked {p : Path} {why : Why} (h : w.MayRemove b p why) (below : p <+: path) : Changed σ w b path none
  | dropped {f : ℕ} {o : Open} (h : w.files b f = some o) (temp : o.temp ≠ none) (hp : o.path = path) :
      Changed σ w b path none
  | renamed {f : ℕ} {o : Open} {digest : Name} (h : w.files b f = some o) (temp : o.temp ≠ none)
      (hd : isDigest digest = true) (hp : path = entryPath digest)
      (holds : w.Holds b (lockPath digest) .key) : Changed σ w b path (some o.ino)

lemma Sem.changed [DecidableEq A] {faults : Op V → Prop} {op : Op V} {r : op.Ret} (hi : Core σ w)
    (hallowed : Allowed σ b op w) (h : Sem faults b op w r w') (path : Path) :
    w'.names path = w.names path ∨ Changed σ w b path (w'.names path) := by
  have hset : ∀ {p : Path} {i : Option ℕ}, (p = path → Changed σ w b path i) →
      Function.update w.names p i path = w.names path ∨ Changed σ w b path (Function.update w.names p i path) := by
    intro p i hp
    by_cases heq : path = p
    · subst heq
      exact Or.inr (by simpa using hp rfl)
    · exact Or.inl (by simp [heq])
  cases h with
  | createLock hnone dir free new =>
    refine hset ?_
    rintro rfl
    refine .linked hnone free ?_
    rcases hallowed with h | h | ⟨h, -⟩
    · exact Or.inl h
    · exact Or.inr (Or.inl h)
    · exact Or.inr (Or.inr (Or.inr (Or.inr (Or.inl h))))
  | mkdir hnone dir free =>
    refine hset ?_
    rintro rfl
    refine .linked hnone free ?_
    rcases hallowed with h | h
    · exact Or.inr (Or.inr (Or.inl h))
    · exact Or.inr (Or.inr (Or.inr (Or.inl h)))
  | tempfile hnone isDir free new =>
    obtain ⟨digest, hd, rfl, rfl, rfl, hholds⟩ := hallowed
    refine hset ?_
    rintro rfl
    exact .linked hnone free (Or.inr (Or.inr (Or.inr (Or.inr (Or.inr ⟨digest, hd, ⟨_, rfl⟩, hholds⟩)))))
  | @release f o by' _ h held =>
    refine hset ?_
    rintro rfl
    exact .released ⟨f, o, h, rfl, held⟩
  | unlink h kind =>
    refine hset ?_
    rintro rfl
    exact .unlinked hallowed.1 List.prefix_rfl
  | @removeTree p why _ h =>
    by_cases hp : p <+: path
    · exact Or.inr (by simpa [World.dropTree, hp] using Changed.unlinked hallowed.1 hp)
    · exact Or.inl (by simp [World.dropTree, hp])
  | @persist f dst o i written _ h temp src file =>
    obtain ⟨-, -, -, digest, -, hd, hof, rfl, -⟩ := hallowed o h
    obtain ⟨hname, -, -, -, -, digest', hd', hof', hholds⟩ := (hi.file h).temp temp
    obtain rfl : o.ino = i := by simpa [hname] using src
    obtain rfl : digest' = digest := by
      have heq := hof.temporaryDigest hd
      rw [hof'.temporaryDigest hd', Option.some_inj] at heq
      exact heq
    have hne : o.temp ≠ none := by simp [temp]
    by_cases heq : path = entryPath digest'
    · subst heq
      exact Or.inr (by simpa using Changed.renamed h hne hd rfl hholds)
    · change Function.update (Function.update w.names o.path none) _ _ path = _ ∨
        Changed σ w b path (Function.update (Function.update w.names o.path none) _ _ path)
      rw [Function.update_of_ne heq]
      exact hset fun hp => .dropped h hne hp
  | dropTemp h temp => exact hset fun hp => .dropped h (by simp [temp]) hp
  | _ => exact Or.inl rfl

lemma Covers.unique {digest digest' : Name} {path : Path} (h : Covers digest path) (h' : Covers digest' path) :
    digest = digest' := by
  obtain ⟨hchild, h⟩ := h
  obtain ⟨-, h'⟩ := h'
  rcases h with h | ⟨ht, h⟩
  · rcases h' with h' | ⟨ht', h'⟩
    · rw [h, Option.some_inj] at h'
      exact h'
    · rw [not_temporary_of_entryDigest hchild h] at ht'
      cases ht'
  · rcases h' with h' | ⟨-, h'⟩
    · rw [not_temporary_of_entryDigest hchild h'] at ht
      cases ht
    · rw [h, Option.some_inj] at h'
      exact h'

lemma covers_entryPath {digest : Name} (hd : isDigest digest = true) : Covers digest (entryPath digest) :=
  ⟨childOf_entryPath digest, Or.inl (entryDigest_entryPath hd)⟩

lemma TemporaryOf.covers {digest : Name} {path : Path} (h : TemporaryOf digest path) (hd : isDigest digest = true) :
    Covers digest path :=
  ⟨h.child, Or.inr ⟨h.isTemporary, h.temporaryDigest hd⟩⟩

lemma World.MayRemove.eq_of_prefix {p path : Path} {why : Why} (h : w.MayRemove b p why) (hp : p <+: path)
    (hlen : path.length ≤ 2) : p = path := by
  refine hp.eq_of_length_le ?_
  rcases h.child with h | h
  · rw [h.length]
    exact hlen
  · rw [h.length]
    exact hlen

/-- Who may change the entry or a temporary file of a key. -/
lemma Changed.covers (hi : Core σ w) {digest : Name} {path : Path} {i : Option ℕ} (h : Changed σ w b path i)
    (hp : Covers digest path) : (∃ x, w.Holds b (lockPath digest) x) ∨ w.Excludes b := by
  have hchild := hp.1
  cases h with
  | linked _ _ hwhere =>
    rcases hwhere with rfl | rfl | rfl | rfl | hlock | ⟨digest', hd, hof, hholds⟩
    · exact absurd rfl (hchild.ne (by decide))
    · exact absurd rfl (hchild.ne (by decide))
    · exact absurd rfl (hchild.ne (by decide))
    · exact absurd rfl (hchild.ne (by decide))
    · exact absurd hlock hchild.not_locks
    · rw [hp.unique (hof.covers hd)]
      exact Or.inl ⟨_, hholds⟩
  | released h =>
    obtain ⟨f, o, ho, rfl, hheld⟩ := h
    exact absurd ((hi.file ho).held hheld).2.1 hchild.not_locks
  | @unlinked p why hmay below =>
    obtain rfl := hmay.eq_of_prefix below (Nat.le_of_eq hchild.length)
    cases why with
    | clear => exact Or.inr hmay.1
    | prune =>
      obtain ⟨-, -, ⟨digest', hcovers, hholds⟩ | ⟨-, htemp, hnone⟩ | ⟨hlock, -⟩⟩ := hmay
      · rw [hp.unique hcovers]
        exact Or.inl ⟨_, hholds⟩
      · rcases hp.2 with hentry | ⟨-, hdigest⟩
        · rw [not_temporary_of_entryDigest hchild hentry] at htemp
          cases htemp
        · simp [hnone] at hdigest
      · exact absurd hlock hchild.not_locks
    | discard =>
      obtain ⟨digest', hd, rfl, hholds⟩ := hmay
      rw [hp.unique (covers_entryPath hd)]
      exact Or.inl ⟨_, hholds⟩
  | dropped ho temp hpath =>
    obtain ⟨written, ht⟩ := Option.ne_none_iff_exists'.mp temp
    obtain ⟨-, -, -, -, -, digest', hd, hof, hholds⟩ := (hi.file ho).temp ht
    rw [hpath] at hof
    rw [hp.unique (hof.covers hd)]
    exact Or.inl ⟨_, hholds⟩
  | renamed ho temp hd hpath hholds =>
    subst hpath
    rw [hp.unique (covers_entryPath hd)]
    exact Or.inl ⟨_, hholds⟩

/-- A directory at the top stays. -/
lemma Changed.not_top (hi : Core σ w) {path : Path} {i : Option ℕ} (h : Changed σ w b path i)
    (hp : path.length = 1) : w.names path = none := by
  have hne : ∀ {dir : Path}, dir.length = 1 → ¬ChildOf dir path := by
    intro dir hdir hchild
    have hlen := hchild.length
    omega
  cases h with
  | linked h => exact h
  | released h =>
    obtain ⟨f, o, ho, rfl, hheld⟩ := h
    exact absurd ((hi.file ho).held hheld).2.1 (hne rfl)
  | unlinked hmay below =>
    obtain rfl := hmay.eq_of_prefix below (by omega)
    rcases hmay.child with h | h
    · exact absurd h (hne rfl)
    · exact absurd h (hne rfl)
  | dropped ho temp hpath =>
    obtain ⟨written, ht⟩ := Option.ne_none_iff_exists'.mp temp
    obtain ⟨-, -, -, -, -, digest, -, hof, -⟩ := (hi.file ho).temp ht
    rw [hpath] at hof
    exact absurd hof.child (hne rfl)
  | renamed ho temp hd hpath hholds =>
    subst hpath
    exact absurd (childOf_entryPath _) (hne rfl)

/-- Who may change a lock file that is there. -/
lemma Changed.lock (hi : Core σ w) {path : Path} {i : ℕ} {x : Option ℕ} (h : Changed σ w b path x)
    (hchild : ChildOf locks path) (hname : w.names path = some i) :
    (∃ by', w.Holds b path by') ∨ w.Excludes b ∨ w.Prunes b ∧ w.Shares b ∧ (w.nodes i).kind ≠ .file := by
  cases h with
  | linked h => simp [hname] at h
  | released h => exact Or.inl ⟨_, h⟩
  | @unlinked p why hmay below =>
    obtain rfl := hmay.eq_of_prefix below (Nat.le_of_eq hchild.length)
    cases why with
    | clear => exact Or.inr (Or.inl hmay.1)
    | prune =>
      obtain ⟨hprunes, hshares, ⟨digest, hcovers, -⟩ | ⟨hentry, -⟩ | ⟨-, hkind⟩⟩ := hmay
      · exact absurd hchild hcovers.1.not_locks
      · exact absurd hchild hentry.not_locks
      · exact Or.inr (Or.inr ⟨hprunes, hshares, hkind i hname⟩)
    | discard =>
      obtain ⟨digest, -, rfl, -⟩ := hmay
      exact absurd hchild (childOf_entryPath digest).not_locks
  | dropped ho temp hpath =>
    obtain ⟨written, ht⟩ := Option.ne_none_iff_exists'.mp temp
    obtain ⟨-, -, -, -, -, digest, -, hof, -⟩ := (hi.file ho).temp ht
    rw [hpath] at hof
    exact absurd hchild hof.child.not_locks
  | renamed ho temp hd hpath hholds =>
    subst hpath
    exact absurd hchild (childOf_entryPath _).not_locks

/-- How one call changes the names. -/
inductive Renaming (w w' : World A V) (b : A) : Prop where
  | same (h : w'.names = w.names)
  | linked {path : Path} {i : ℕ} (h : w.names path = none) (free : w.Free i)
      (names : w'.names = Function.update w.names path (some i))
      (regular : ChildOf locks path → ((w'.nodes i).kind = .file ∧ (w'.nodes i).owned = true) ∧
        ∃ f o, w'.files b f = some o ∧ o.path = path ∧ o.ino = i ∧ o.since = w'.journal.length)
  | removed (h : ∀ p, w'.names p = w.names p ∨ w'.names p = none)
  | renamed {f : ℕ} {o : Open} {digest : Name} (h : w.files b f = some o) (temp : o.temp ≠ none)
      (of : TemporaryOf digest o.path)
      (names : w'.names = Function.update (Function.update w.names o.path none) (entryPath digest) (some o.ino))

/-- What a call of `b` leaves of an open file that was there before. -/
structure Open.Kept (o o' : Open) : Prop where
  path : o'.path = o.path
  ino : o'.ino = o.ino
  since : o'.since = o.since
  lock : o'.lock = o.lock ∨ o.lock = none

section

variable [DecidableEq A] {faults : Op V → Prop} {op : Op V} {r : op.Ret}

lemma Sem.renaming (hi : Core σ w) (hallowed : Allowed σ b op w) (h : Sem faults b op w r w') :
    Renaming w w' b := by
  have hremoved : ∀ {path : Path} {names' : Path → Option ℕ}, names' = Function.update w.names path none →
      ∀ p, names' p = w.names p ∨ names' p = none := by
    rintro path names' rfl p
    by_cases hp : p = path
    · exact Or.inr (by simp [hp])
    · exact Or.inl (by simp [hp])
  cases h with
  | @createLock path i f modified _ hnone dir free new =>
    refine .linked hnone free rfl fun _ => ⟨by simp [Node.empty], f, .at path i (w.journal.length + 1), ?_⟩
    simp [Open.at]
  | mkdir hnone dir free =>
    refine .linked hnone free rfl fun hchild => ?_
    rcases hallowed with rfl | rfl
    · exact absurd rfl (hchild.ne (by decide))
    · exact absurd rfl (hchild.ne (by decide))
  | tempfile hnone isDir free new =>
    obtain ⟨digest, hd, rfl, rfl, rfl, -⟩ := hallowed
    refine .linked hnone free rfl fun hchild => ?_
    exact absurd hchild (ChildOf.not_locks ⟨_, rfl⟩)
  | release h held => exact .removed (hremoved rfl)
  | unlink h kind => exact .removed (hremoved rfl)
  | dropTemp h temp => exact .removed (hremoved rfl)
  | @removeTree path why _ h =>
    refine .removed fun p => ?_
    by_cases hp : path <+: p
    · exact Or.inr (by simp [World.dropTree, hp])
    · exact Or.inl (by simp [World.dropTree, hp])
  | @persist f dst o i written _ h temp src file =>
    obtain ⟨-, -, written, digest, -, -, hof, rfl, -⟩ := hallowed _ h
    have hne : o.temp ≠ none := by simp [temp]
    obtain ⟨hname, -⟩ := (hi.file h).temp temp
    rw [src, Option.some_inj] at hname
    subst hname
    exact .renamed h hne hof rfl
  | _ => exact .same rfl

/-- An open file after a call was open before, or was just opened or moved to the place that it names. -/
lemma Sem.opened (hi : Core σ w) (hallowed : Allowed σ b op w) (h : Sem faults b op w r w') {c : A} {g : ℕ} {o' : Open}
    (ho' : w'.files c g = some o') :
    (∃ o, w.files c g = some o ∧ o.Kept o' ∧ (o'.held = o.held ∨ o'.held = none ∨ ∃ x, op = .hold g x ∧ c = b)) ∨
      c = b ∧ o'.held = none ∧ w'.names o'.path = some o'.ino ∧
        (o'.since = w'.journal.length ∨ ChildOf entries o'.path) := by
  have hset : ∀ {w₁ : World A V} {f : ℕ} {o₁ : Open}, w₁.files = w.files →
      (w₁.setFile b f (some o₁)).files c g = some o' →
      (c = b ∧ g = f) ∧ o₁ = o' ∨ w.files c g = some o' := by
    intro w₁ f o₁ hfiles hset
    rcases (w₁.files_setFile_eq_some b f _).mp hset with ⟨heq, hsome⟩ | ⟨-, hold⟩
    · exact Or.inl ⟨heq, by simpa using hsome⟩
    · exact Or.inr (hfiles ▸ hold)
  have hold : w.files c g = some o' → (∃ o, w.files c g = some o ∧ o.Kept o' ∧
      (o'.held = o.held ∨ o'.held = none ∨ ∃ x, op = .hold g x ∧ c = b)) := by
    exact fun h => ⟨o', h, ⟨rfl, rfl, rfl, Or.inl rfl⟩, Or.inl rfl⟩
  cases h with
  | openLock hname kind new =>
    rcases hset rfl ho' with ⟨⟨rfl, rfl⟩, rfl⟩ | h
    · exact Or.inr ⟨rfl, rfl, hname, Or.inl rfl⟩
    · exact Or.inl (hold h)
  | createLock hname dir free new =>
    rcases hset rfl ho' with ⟨⟨rfl, rfl⟩, rfl⟩ | h
    · exact Or.inr ⟨rfl, rfl, by simp [Open.at], Or.inl (by simp [Open.at])⟩
    · exact Or.inl (hold h)
  | openRead hname kind new =>
    rcases hset rfl ho' with ⟨⟨rfl, rfl⟩, rfl⟩ | h
    · exact Or.inr ⟨rfl, rfl, hname, Or.inl rfl⟩
    · exact Or.inl (hold h)
  | followed hname kind new => exact absurd kind (hallowed.2 rfl _ hname)
  | openDir hname kind new =>
    rcases hset rfl ho' with ⟨⟨rfl, rfl⟩, rfl⟩ | h
    · exact Or.inr ⟨rfl, rfl, hname, Or.inl rfl⟩
    · exact Or.inl (hold h)
  | tempfile hname dir free new =>
    rcases hset rfl ho' with ⟨⟨rfl, rfl⟩, rfl⟩ | h
    · exact Or.inr ⟨rfl, rfl, by simp [Open.at], Or.inl (by simp [Open.at])⟩
    · exact Or.inl (hold h)
  | flock h free =>
    rcases hset rfl ho' with ⟨⟨rfl, rfl⟩, rfl⟩ | h'
    · exact Or.inl ⟨_, h, ⟨rfl, rfl, rfl, Or.inr (hallowed _ h).1⟩, Or.inl rfl⟩
    · exact Or.inl (hold h')
  | close h =>
    rcases (w.files_setFile_eq_some b _ _).mp ho' with ⟨-, hsome⟩ | ⟨-, h'⟩
    · cases hsome
    · exact Or.inl (hold h')
  | hold h =>
    rcases hset rfl ho' with ⟨⟨rfl, rfl⟩, rfl⟩ | h'
    · exact Or.inl ⟨_, h, ⟨rfl, rfl, rfl, Or.inl rfl⟩, Or.inr (Or.inr ⟨_, rfl, rfl⟩)⟩
    · exact Or.inl (hold h')
  | release h held =>
    rcases hset rfl ho' with ⟨⟨rfl, rfl⟩, rfl⟩ | h'
    · exact Or.inl ⟨_, h, ⟨rfl, rfl, rfl, Or.inl rfl⟩, Or.inr (Or.inl rfl)⟩
    · exact Or.inl (hold h')
  | releaseFails h held why =>
    rcases hset rfl ho' with ⟨⟨rfl, rfl⟩, rfl⟩ | h'
    · exact Or.inl ⟨_, h, ⟨rfl, rfl, rfl, Or.inl rfl⟩, Or.inr (Or.inl rfl)⟩
    · exact Or.inl (hold h')
  | write h temp le pos =>
    rcases hset rfl ho' with ⟨⟨rfl, rfl⟩, rfl⟩ | h'
    · exact Or.inl ⟨_, h, ⟨rfl, rfl, rfl, Or.inl rfl⟩, Or.inl rfl⟩
    · exact Or.inl (hold h')
  | persist h temp src file =>
    obtain ⟨-, hheld, written, digest, -, -, -, rfl, -⟩ := hallowed _ h
    obtain ⟨hname, -⟩ := (hi.file h).temp temp
    rw [src, Option.some_inj] at hname
    subst hname
    rcases hset rfl ho' with ⟨⟨rfl, rfl⟩, rfl⟩ | h'
    · exact Or.inr ⟨rfl, hheld, by simp, Or.inr (childOf_entryPath digest)⟩
    · exact Or.inl (hold h')
  | dropTemp h temp =>
    rcases hset rfl ho' with ⟨⟨rfl, rfl⟩, rfl⟩ | h'
    · exact Or.inl ⟨_, h, ⟨rfl, rfl, rfl, Or.inl rfl⟩, Or.inl rfl⟩
    · exact Or.inl (hold h')
  | dropTempFails h temp why =>
    rcases hset rfl ho' with ⟨⟨rfl, rfl⟩, rfl⟩ | h'
    · exact Or.inl ⟨_, h, ⟨rfl, rfl, rfl, Or.inl rfl⟩, Or.inl rfl⟩
    · exact Or.inl (hold h')
  | next h shown once =>
    rcases hset rfl ho' with ⟨⟨rfl, rfl⟩, rfl⟩ | h'
    · exact Or.inl ⟨_, h, ⟨rfl, rfl, rfl, Or.inl rfl⟩, Or.inl rfl⟩
    · exact Or.inl (hold h')
  | read h le pos =>
    rcases hset rfl ho' with ⟨⟨rfl, rfl⟩, rfl⟩ | h'
    · exact Or.inl ⟨_, h, ⟨rfl, rfl, rfl, Or.inl rfl⟩, Or.inl rfl⟩
    · exact Or.inl (hold h')
  | _ => exact Or.inl (hold ho')

/-- An open file stays until it is closed. -/
lemma Sem.stays (hallowed : Allowed σ b op w) (h : Sem faults b op w r w') {c : A} {g : ℕ} {o : Open}
    (ho : w.files c g = some o) (hlocks : ChildOf locks o.path) (htemp : o.temp = none) :
    (∃ o', w'.files c g = some o' ∧ o.Kept o') ∨ op = .close g ∧ c = b := by
  have hset : ∀ {w₁ : World A V} {f : ℕ} {o₁ o₂ : Open}, w₁.files = w.files → w.files b f = some o₁ → o₁.Kept o₂ →
      ∃ o', (w₁.setFile b f (some o₂)).files c g = some o' ∧ o.Kept o' := by
    intro w₁ f o₁ o₂ hfiles h₁ hkept
    by_cases heq : c = b ∧ g = f
    · obtain ⟨rfl, rfl⟩ := heq
      obtain rfl : o = o₁ := by simpa [ho] using h₁
      exact ⟨o₂, by simp, hkept⟩
    · refine ⟨o, (w₁.files_setFile_eq_some b f _).mpr (Or.inr ⟨heq, by rw [hfiles, ho]⟩), rfl, rfl, rfl, Or.inl rfl⟩
  have hnew : ∀ {w₁ : World A V} {f : ℕ} {o₂ : Open}, w₁.files = w.files → w.files b f = none →
      ∃ o', (w₁.setFile b f (some o₂)).files c g = some o' ∧ o.Kept o' := by
    intro w₁ f o₂ hfiles hnone
    have heq : ¬(c = b ∧ g = f) := by
      rintro ⟨rfl, rfl⟩
      simp [hnone] at ho
    refine ⟨o, (w₁.files_setFile_eq_some b f _).mpr (Or.inr ⟨heq, by rw [hfiles, ho]⟩), rfl, rfl, rfl, Or.inl rfl⟩
  have hplain : ∀ {o₁ o₂ : Open}, o₂.path = o₁.path → o₂.ino = o₁.ino → o₂.since = o₁.since → o₂.lock = o₁.lock →
      o₁.Kept o₂ := fun h₁ h₂ h₃ h₄ => ⟨h₁, h₂, h₃, Or.inl h₄⟩
  cases h with
  | openLock hname kind new => exact Or.inl (hnew rfl new)
  | createLock hname dir free new => exact Or.inl (hnew rfl new)
  | openRead hname kind new => exact Or.inl (hnew rfl new)
  | followed hname kind new => exact Or.inl (hnew rfl new)
  | openDir hname kind new => exact Or.inl (hnew rfl new)
  | tempfile hname dir free new => exact Or.inl (hnew rfl new)
  | flock h free => exact Or.inl (hset rfl h ⟨rfl, rfl, rfl, Or.inr (hallowed _ h).1⟩)
  | @close f o₁ _ h =>
    by_cases heq : c = b ∧ g = f
    · exact Or.inr ⟨by rw [heq.2], heq.1⟩
    · exact Or.inl ⟨o, (w.files_setFile_eq_some b f _).mpr (Or.inr ⟨heq, ho⟩), rfl, rfl, rfl, Or.inl rfl⟩
  | persist h temp src file =>
    refine Or.inl ⟨o, (World.files_setFile_eq_some _ b _ _).mpr (Or.inr ⟨?_, ho⟩), rfl, rfl, rfl, Or.inl rfl⟩
    rintro ⟨rfl, rfl⟩
    rw [ho, Option.some_inj] at h
    subst h
    simp [htemp] at temp
  | hold h | release h | releaseFails h | write h | dropTemp h | dropTempFails h | next h | read h =>
    exact Or.inl (hset rfl h (hplain rfl rfl rfl rfl))
  | _ => exact Or.inl ⟨o, ho, rfl, rfl, rfl, Or.inl rfl⟩

/-- Only the release of a live key lock says so. -/
lemma Sem.releases (h : Sem faults b op w r w') {c : A} (hreleased : w'.Released c) :
    w.Released c ∨ c = b ∧ ∃ f o, op = .release f ∧ w.files b f = some o ∧ o.held = some .key := by
  obtain ⟨e, he, hagent, path, hwhat⟩ := hreleased
  have hcase : e ∈ w.journal ∨ ∃ what, w'.journal = w.journal ++ [⟨b, what⟩] ∧ e = ⟨b, what⟩ := by
    rcases h.journal with hj | ⟨what, hj⟩
    · exact Or.inl (hj ▸ he)
    · rw [hj] at he
      rcases List.mem_append.mp he with he | he
      · exact Or.inl he
      · exact Or.inr ⟨what, hj, List.mem_singleton.mp he⟩
  rcases hcase with he | ⟨what, hj, rfl⟩
  · exact Or.inl ⟨e, he, hagent, path, hwhat⟩
  · obtain rfl : b = c := hagent
    obtain rfl : what = .released path .key := hwhat
    refine Or.inr ⟨rfl, ?_⟩
    cases h with
    | @release f o by' _ h held =>
      obtain ⟨-, rfl⟩ : o.path = path ∧ by' = .key := by simpa using hj
      exact ⟨f, o, rfl, h, held⟩
    | @releaseFails f o by' _ h held why =>
      obtain ⟨-, rfl⟩ : o.path = path ∧ by' = .key := by simpa using hj
      exact ⟨f, o, rfl, h, held⟩
    | _ => simp at hj

end

end Unixd.Cache
