import Unixd.Cache.Upkeep

/-!
# What the others leave alone

What no other agent can change while a lock is held.
-/

namespace Unixd.Cache

open Unixd.Lib

set_option linter.unusedSectionVars false

variable {A V : Type} {σ : Setting A V} {w w' : World A V} {a b : A} {f : ℕ} {o : Open}

section

variable [DecidableEq A]

/-- A step of anything but `a`. -/
abbrev Other (σ : Setting A V) (a : A) (w w' : World A V) : Prop :=
  (protocol σ).Other a w w'

lemma Other.files (h : Other σ a w w') : w'.files a = w.files a := by
  cases h with
  | step ne allowed sem => exact sem.files (Ne.symm ne)
  | env h =>
    obtain ⟨clock, -, -, rfl⟩ := h
    rfl
  | kill dead alive =>
    funext f
    simp [machine, World.kill, alive]

lemma Other.journal (h : Other σ a w w') :
    w'.journal = w.journal ∨ ∃ b what, b ≠ a ∧ w'.journal = w.journal ++ [⟨b, what⟩] := by
  cases h with
  | step ne allowed sem =>
    rcases sem.journal with h | ⟨what, h⟩
    · exact Or.inl h
    · exact Or.inr ⟨_, what, ne, h⟩
  | env h =>
    obtain ⟨clock, -, -, rfl⟩ := h
    exact Or.inl rfl
  | kill dead alive =>
    rcases w.journal_kill dead with ⟨-, h⟩ | ⟨b, hb, h⟩
    · exact Or.inl h
    · refine Or.inr ⟨b, .died, ?_, h⟩
      rintro rfl
      exact alive hb

lemma Other.changed (hi : Inv σ w) (h : Other σ a w w') (path : Path) :
    w'.names path = w.names path ∨ ∃ b, b ≠ a ∧ Changed σ w b path (w'.names path) := by
  cases h with
  | step ne allowed sem =>
    rcases sem.changed hi.toCore allowed path with h | h
    · exact Or.inl h
    · exact Or.inr ⟨_, ne, h⟩
  | env h =>
    obtain ⟨clock, -, -, rfl⟩ := h
    exact Or.inl rfl
  | kill dead alive => exact Or.inl rfl

lemma Other.kind (h : Other σ a w w') (i : ℕ) :
    w.Free i ∨ (w'.nodes i).kind = (w.nodes i).kind ∧ (w'.nodes i).owned = (w.nodes i).owned := by
  cases h with
  | step ne allowed sem => exact sem.kind i
  | env h =>
    obtain ⟨clock, -, -, rfl⟩ := h
    exact Or.inr ⟨rfl, rfl⟩
  | kill dead alive => exact Or.inr ⟨rfl, rfl⟩

lemma Other.bytes (h : Other σ a w w') (i : ℕ) :
    w.Free i ∨ (w'.nodes i).bytes = (w.nodes i).bytes ∨
      ∃ b f o, b ≠ a ∧ w.files b f = some o ∧ o.temp ≠ none ∧ o.ino = i := by
  cases h with
  | step ne allowed sem =>
    rcases sem.bytes i with h | h | ⟨f, o, ho, ht, hino⟩
    · exact Or.inl h
    · exact Or.inr (Or.inl h)
    · exact Or.inr (Or.inr ⟨_, f, o, ne, ho, ht, hino⟩)
  | env h =>
    obtain ⟨clock, -, -, rfl⟩ := h
    exact Or.inr (Or.inl rfl)
  | kill dead alive => exact Or.inr (Or.inl rfl)

lemma Other.modified (h : Other σ a w w') (i : ℕ) :
    w.Free i ∨ (w'.nodes i).modified = (w.nodes i).modified ∨ ∃ b f o, b ≠ a ∧ w.files b f = some o ∧ o.ino = i := by
  cases h with
  | step ne allowed sem =>
    rcases sem.modified i with h | h | ⟨f, o, ho, hino, -⟩
    · exact Or.inl h
    · exact Or.inr (Or.inl h)
    · exact Or.inr (Or.inr ⟨_, f, o, ne, ho, hino⟩)
  | env h =>
    obtain ⟨clock, -, -, rfl⟩ := h
    exact Or.inr (Or.inl rfl)
  | kill dead alive => exact Or.inr (Or.inl rfl)

/-- While `a` holds the lock of a key, nobody else changes the key's files. -/
theorem Other.covered (hi : Inv σ w) (h : Other σ a w w') {digest : Name} {path : Path} {x : HeldBy}
    (hp : Covers digest path) (hholds : w.Holds a (lockPath digest) x) :
    w'.names path = w.names path ∧ w'.content path = w.content path := by
  have hfalse : ∀ {b i}, b ≠ a → Changed σ w b path i → False := by
    intro b i hne hchanged
    rcases hchanged.covers hi.toCore hp with ⟨y, hb⟩ | hb
    · exact hne (hi.holds_unique hb hholds).1
    · exact hi.excludes hb (hholds.shares hi.toCore)
  have hname : w'.names path = w.names path := by
    rcases h.changed hi path with heq | ⟨b, hne, hchanged⟩
    · exact heq
    · exact (hfalse hne hchanged).elim
  refine ⟨hname, ?_⟩
  unfold World.content
  rw [hname]
  cases hi' : w.names path with
  | none => rfl
  | some i =>
    have hused : ¬w.Free i := fun hfree => hfree.1 path hi'
    have hkind := (h.kind i).resolve_left hused
    rcases (h.bytes i).resolve_left hused with hbytes | ⟨b, f, o, hne, ho, ht, rfl⟩
    · simp [hkind, hbytes]
    · obtain ⟨written, hw⟩ := Option.ne_none_iff_exists'.mp ht
      have honly := ((hi.file ho).temp hw).2.1 path hi'
      exact (hfalse hne (.dropped ho ht honly.symm : Changed σ w b path none)).elim

/-- The entry of a key whose lock `a` holds. -/
lemma Other.contents (hi : Inv σ w) (h : Other σ a w w') {digest : Name} {x : HeldBy}
    (hd : isDigest digest = true) (hholds : w.Holds a (lockPath digest) x) :
    contents σ.start w'.journal digest = contents σ.start w.journal digest := by
  have hi' : Inv σ w' := Lib.Protocol.Other.inv h hi
  rw [← hi'.content hd, ← hi.content hd]
  exact (h.covered hi (covers_entryPath hd) hholds).2

end

section

variable [DecidableEq A]

lemma Other.ownDir (hi : Inv σ w) (h : Other σ a w w') {path : Path} (hp : path.length = 1)
    (hdir : w.OwnDir path) : w'.OwnDir path := by
  obtain ⟨i, hname, hkind, howned⟩ := hdir
  rcases h.changed hi path with heq | ⟨b, -, hchanged⟩
  · obtain ⟨hk, ho⟩ := (h.kind i).resolve_left fun hfree => hfree.1 path hname
    exact ⟨i, by rw [heq, hname], by rw [hk, hkind], by rw [ho, howned]⟩
  · have hnone := hchanged.not_top hi.toCore hp
    simp [hname] at hnone

/-- The path that an exclusive lock was found to name, under the maintenance lock. -/
lemma Other.locked (hi : Inv σ w) (h : Other σ a w w') (ho : w.files a f = some o)
    (hlock : o.lock = some .exclusive) (hchild : ChildOf locks o.path) (hshares : w.Shares a)
    (hname : w.names o.path = some o.ino) : w'.names o.path = some o.ino := by
  rcases h.changed hi o.path with heq | ⟨b, hne, hchanged⟩
  · rw [heq, hname]
  · exfalso
    rcases hchanged.lock hi.toCore hchild hname with ⟨by', g, o', ho', hp, hheld⟩ | hexcl | ⟨-, -, hkind⟩
    · obtain ⟨hlock', -, hname', -⟩ := (hi.file ho').held hheld
      rw [hp, hname, Option.some_inj] at hname'
      exact hne ((hi.file ho).flock ho' hname'.symm hlock (by simp [hlock'])).1
    · exact hi.excludes hexcl hshares
    · exact hkind ((hi.file ho).regular hchild)

/-- A path that does not name an open lock file will not name it again. -/
lemma Other.misnamed (hi : Inv σ w) (h : Other σ a w w') (ho : w.files a f = some o) (hchild : ChildOf locks o.path)
    (hname : w.names o.path ≠ some o.ino) : w'.names o.path ≠ some o.ino := by
  rcases h.changed hi o.path with heq | ⟨b, hne, hchanged⟩
  · rwa [heq]
  · generalize hx : w'.names o.path = x at hchanged
    cases hchanged with
    | linked hnone free =>
      rintro ⟨⟩
      exact free.2 a f o ho rfl
    | renamed h₁ temp hd hp =>
      exact absurd (hp ▸ hchild) (childOf_entryPath _).not_locks
    | _ => simp

/-- Whoever keeps `a` from a lock file goes on to, gives the path up, or dies. -/
lemma Other.blocked (hi : Inv σ w) (h : Other σ a w w') (hclean : σ.clean) (ho : w.files a f = some o)
    (hchild : ChildOf locks o.path)
    (hb : w.names o.path ≠ some o.ino ∨ w.Locked a f o ∨ w.DiedSince o.since) :
    w'.names o.path ≠ some o.ino ∨ w'.Locked a f o ∨ w'.DiedSince o.since := by
  have hdied : ∀ {n}, w.DiedSince n → w'.DiedSince n := by
    rintro n ⟨e, he, hd⟩
    rcases h.journal with hj | ⟨b, what, -, hj⟩
    · exact ⟨e, hj ▸ he, hd⟩
    · refine ⟨e, ?_, hd⟩
      rw [hj, List.drop_append]
      exact List.mem_append_left _ he
  rcases hb with hname | ⟨b, g, o', hne, ho', hp, hino, hl⟩ | hd
  · exact Or.inl (h.misnamed hi ho hchild hname)
  · have htemp : o'.temp = none := by
      by_contra hsome
      obtain ⟨written, ht⟩ := Option.ne_none_iff_exists'.mp hsome
      obtain ⟨-, -, -, -, -, digest, -, hof, -⟩ := (hi.file ho').temp ht
      rw [hp] at hof
      exact hof.child.not_locks hchild
    cases h with
    | @step c op r _ hc allowed sem =>
      rcases sem.stays allowed ho' (hp ▸ hchild) htemp with ⟨o₂, ho₂, hkept⟩ | ⟨rfl, rfl⟩
      · refine Or.inr (Or.inl ⟨b, g, o₂, hne, ho₂, by rw [hkept.path, hp], by rw [hkept.ino, hino], ?_⟩)
        rcases hkept.lock with h | h
        · rwa [h]
        · exact absurd h hl
      · obtain ⟨-, -, -, hfree⟩ := allowed o' ho'
        rcases hfree hclean (hp ▸ hchild) with hname | ⟨hnone, -⟩
        · refine Or.inl (Other.misnamed hi (.step hc allowed sem) ho hchild ?_)
          rwa [← hp, ← hino]
        · exact absurd hnone hl
    | env h =>
      obtain ⟨clock, -, -, rfl⟩ := h
      exact Or.inr (Or.inl ⟨b, g, o', hne, ho', hp, hino, hl⟩)
    | kill dead alive =>
      by_cases hb : dead b
      · refine Or.inr (Or.inr ?_)
        rcases w.journal_kill dead with ⟨hnone, -⟩ | ⟨c, -, hj⟩
        · exact absurd hb (hnone b)
        · refine ⟨⟨c, .died⟩, ?_, rfl⟩
          change _ ∈ List.drop o.since (w.kill dead).journal
          rw [hj, List.drop_append_of_le_length ((hi.tidy hclean).since ho hchild)]
          simp
      · refine Or.inr (Or.inl ⟨b, g, o', hne, ?_, hp, hino, hl⟩)
        simp [machine, World.kill, hb, ho']
  · exact Or.inr (Or.inr (hdied hd))

/-- What is no lock file stays in its place for the one prune that runs. -/
lemma Other.irregular (hi : Inv σ w) (h : Other σ a w w') {path : Path} {i : ℕ}
    (hchild : ChildOf locks path) (hprunes : w.Prunes a) (hshares : w.Shares a) (hname : w.names path = some i)
    (hkind : (w.nodes i).kind ≠ .file) : w'.names path = some i ∧ (w'.nodes i).kind ≠ .file := by
  have hname' : w'.names path = some i := by
    rcases h.changed hi path with heq | ⟨b, hne, hchanged⟩
    · rw [heq, hname]
    · exfalso
      rcases hchanged.lock hi.toCore hchild hname with ⟨by', g, o', ho', rfl, hheld⟩ | hexcl | ⟨hp, -, -⟩
      · obtain ⟨-, -, hname', -⟩ := (hi.file ho').held hheld
        rw [hname, Option.some_inj] at hname'
        subst hname'
        exact hkind ((hi.file ho').regular hchild)
      · exact hi.excludes hexcl hshares
      · exact hne (hi.prunes_unique hp hprunes)
  refine ⟨hname', ?_⟩
  rcases h.kind i with hfree | ⟨hk, -⟩
  · exact absurd hname (hfree.1 path)
  · rwa [hk]

end

end Unixd.Cache
