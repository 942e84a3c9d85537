import Unixd.Cache.Changes

/-!
# Lock files and times

The parts of the invariant that only some settings ask for, each with its own step, and the
protocol that all of them make.
-/

namespace Unixd.Cache

open Unixd.Lib

set_option linter.unusedSectionVars false

variable {A V : Type} {σ : Setting A V} {w w' : World A V} {a b : A} {f : ℕ} {o : Open}

lemma Lockish.not_entries {path : Path} (h : Lockish path) : ¬ChildOf entries path :=
  not_entry_of_lock h

lemma Lockish.of_child {path : Path} (h : ChildOf locks path) : Lockish path :=
  Or.inr (Or.inr h)

section

variable [DecidableEq A] {op : Op V} {r : op.Ret}

/-- After a call an inode that a lock file has is named as it was before. -/
lemma Renaming.named (h : Renaming w w' b) (hi : Core σ w) {c : A} {g : ℕ} (ho : w.files c g = some o)
    (hlock : Lockish o.path) {q : Path} (hq : w'.names q = some o.ino) : w.names q = some o.ino := by
  cases h with
  | same h => exact h ▸ hq
  | @linked p j h free names regular =>
    rw [names] at hq
    by_cases hqp : q = p
    · subst hqp
      obtain rfl : j = o.ino := by simpa using hq
      exact absurd rfl (free.2 c g o ho)
    · rwa [Function.update_of_ne hqp] at hq
  | removed h =>
    rcases h q with h | h
    · exact h ▸ hq
    · simp [h] at hq
  | @renamed f₁ o₁ digest h₁ temp hof names =>
    obtain ⟨written, ht⟩ := Option.ne_none_iff_exists'.mp temp
    obtain ⟨hname, honly, -, -, hsole, -⟩ := (hi.file h₁).temp ht
    rw [names] at hq
    by_cases hqd : q = entryPath digest
    · subst hqd
      have hino : o.ino = o₁.ino := by simpa [eq_comm] using hq
      obtain ⟨rfl, rfl⟩ := hsole c g o ho hino
      obtain rfl : o = o₁ := by simpa [ho] using h₁
      exact absurd hof.child hlock.not_entries
    · rw [Function.update_of_ne hqd] at hq
      by_cases hqo : q = o₁.path
      · simp [hqo] at hq
      · rwa [Function.update_of_ne hqo] at hq

lemma Single.names_step (hs : Single w) (h : Renaming w w' b) (hi : Core σ w) {path q : Path} {i : ℕ}
    (hlock : Lockish path) (hpath : w'.names path = some i) (hq : w'.names q = some i) : q = path := by
  cases h with
  | same h => exact hs.name hlock (h ▸ hpath) (h ▸ hq)
  | @linked p j h free names regular =>
    rw [names] at hpath hq
    by_cases hqp : q = p
    · by_cases hpp : path = p
      · rw [hqp, hpp]
      · subst hqp
        obtain rfl : j = i := by simpa using hq
        rw [Function.update_of_ne hpp] at hpath
        exact absurd hpath (free.1 path)
    · rw [Function.update_of_ne hqp] at hq
      by_cases hpp : path = p
      · subst hpp
        obtain rfl : j = i := by simpa using hpath
        exact absurd hq (free.1 q)
      · rw [Function.update_of_ne hpp] at hpath
        exact hs.name hlock hpath hq
  | removed h =>
    rcases h q with h₁ | h₁
    · rcases h path with h₂ | h₂
      · exact hs.name hlock (h₂ ▸ hpath) (h₁ ▸ hq)
      · simp [h₂] at hpath
    · simp [h₁] at hq
  | @renamed f₁ o₁ digest h₁ temp hof names =>
    obtain ⟨written, ht⟩ := Option.ne_none_iff_exists'.mp temp
    obtain ⟨hname, honly, -⟩ := (hi.file h₁).temp ht
    have hpath' : w.names path = some i := by
      rw [names, Function.update_of_ne, Function.update_of_ne] at hpath
      · exact hpath
      · rintro rfl
        exact hlock.not_entries hof.child
      · rintro rfl
        exact hlock.not_entries (childOf_entryPath digest)
    rw [names] at hq
    by_cases hqd : q = entryPath digest
    · subst hqd
      obtain rfl : o₁.ino = i := by simpa using hq
      exact absurd (honly path hpath' ▸ hof.child) hlock.not_entries
    · rw [Function.update_of_ne hqd] at hq
      by_cases hqo : q = o₁.path
      · simp [hqo] at hq
      · rw [Function.update_of_ne hqo] at hq
        exact hs.name hlock hpath' hq

/-- A name of a lock file that was there before, or that the call made. -/
lemma Renaming.before (h : Renaming w w' b) (hi : Core σ w) {path : Path} {i : ℕ} (hlock : Lockish path)
    (hname : w'.names path = some i) : w.names path = some i ∨ w.Free i := by
  cases h with
  | same h => exact Or.inl (h ▸ hname)
  | @linked p j h free names regular =>
    rw [names] at hname
    by_cases hp : path = p
    · subst hp
      obtain rfl : j = i := by simpa using hname
      exact Or.inr free
    · rw [Function.update_of_ne hp] at hname
      exact Or.inl hname
  | removed h =>
    rcases h path with h | h
    · exact Or.inl (h ▸ hname)
    · simp [h] at hname
  | @renamed f₁ o₁ digest h₁ temp hof names =>
    rw [names, Function.update_of_ne, Function.update_of_ne] at hname
    · exact Or.inl hname
    · rintro rfl
      exact hlock.not_entries hof.child
    · rintro rfl
      exact hlock.not_entries (childOf_entryPath digest)

theorem Single.step (hs : Single w) (hi : Core σ w) (hallowed : Allowed σ b op w)
    (h : Sem σ.fails b op w r w') : Single w' := by
  have hnames := h.renaming hi hallowed
  have hnamed : ∀ {path q i}, Lockish path → w'.names path = some i → w'.names q = some i → q = path :=
    fun hlock hpath hq => hs.names_step hnames hi hlock hpath hq
  refine ⟨hnamed, fun {c g o'} ho' hlock => ?_, fun {c g o' path} ho' hlock hpath => ?_⟩
  swap
  · rcases h.opened hi hallowed ho' with ⟨o, ho, hkept, -⟩ | ⟨-, -, hname, -⟩
    · rw [hkept.ino] at hpath
      rw [hkept.path]
      rcases hnames.before hi hlock hpath with hpath | hfree
      · exact hs.other ho hlock hpath
      · exact absurd rfl (hfree.2 c g o ho)
    · exact hnamed hlock hpath hname
  have hfirst : ∀ q, w'.names q = some o'.ino → q = o'.path := by
    intro q hq
    rcases h.opened hi hallowed ho' with ⟨o, ho, hkept, -⟩ | ⟨-, -, hname, -⟩
    · rw [hkept.path] at hlock ⊢
      rw [hkept.ino] at hq
      exact (hs.file ho hlock).1 q (hnames.named hi ho hlock hq)
    · exact hnamed hlock hname hq
  refine ⟨hfirst, fun d k o'' ho'' hino => ?_⟩
  rcases h.opened hi hallowed ho'' with ⟨o₂, ho₂, hkept₂, -⟩ | ⟨-, -, hname₂, -⟩
  · rcases h.opened hi hallowed ho' with ⟨o, ho, hkept, -⟩ | ⟨-, -, hname, -⟩
    · rw [hkept.path] at hlock ⊢
      rw [hkept₂.path]
      exact (hs.file ho hlock).2 d k o₂ ho₂ (by rw [← hkept₂.ino, hino, hkept.ino])
    · rw [hkept₂.ino] at hino
      rw [hkept₂.path]
      rcases hnames.before hi hlock hname with hname | hfree
      · exact hs.other ho₂ hlock (by rw [hname, hino])
      · exact absurd hino (hfree.2 d k o₂ ho₂)
  · exact hfirst _ (by rw [hname₂, hino])

theorem Once.step (hone : Once w) (hi : Core σ w) (hσ : σ.once) (hallowed : Allowed σ b op w)
    (h : Sem σ.fails b op w r w') : Once w' := by
  have hback : ∀ {c g o'}, w'.files c g = some o' → o'.held = some .key →
      (∃ o, w.files c g = some o ∧ o.held = some .key) ∨ c = b ∧ op = .hold g .key := by
    intro c g o' ho' hheld
    rcases h.opened hi hallowed ho' with ⟨o, ho, -, hsame | hnone | ⟨x, rfl, rfl⟩⟩ | ⟨-, hnone, -⟩
    · exact Or.inl ⟨o, ho, by rw [← hsame, hheld]⟩
    · simp [hnone] at hheld
    · cases h with
      | fault => exact Or.inl ⟨o, ho, by simpa [ho', hheld] using congrArg (Option.map Open.held) (ho.symm.trans ho')⟩
      | hold =>
        refine Or.inr ⟨rfl, ?_⟩
        simp only [World.files_setFile_self, Function.update_self, Option.some_inj] at ho'
        subst ho'
        cases hheld
        rfl
    · simp [hnone] at hheld
  intro c g o' ho' hheld
  rcases hback ho' hheld with ⟨o, ho, hkey⟩ | ⟨rfl, rfl⟩
  · obtain ⟨hnot, hunique⟩ := hone c g o ho hkey
    constructor
    · intro hreleased
      rcases h.releases hreleased with hreleased | ⟨rfl, k, o₁, rfl, ho₁, hkey₁⟩
      · exact hnot hreleased
      · obtain rfl := hunique k o₁ ho₁ hkey₁
        cases h with
        | fault hf hr => exact hr.elim
        | release h held =>
          simp only [World.files_setFile_self, Function.update_self, Option.some_inj] at ho'
          simp [← ho'] at hheld
        | releaseFails h held why =>
          simp only [World.files_setFile_self, Function.update_self, Option.some_inj] at ho'
          simp [← ho'] at hheld
    · intro k o₂ ho₂ hkey₂
      rcases hback ho₂ hkey₂ with ⟨o₃, ho₃, hkey₃⟩ | ⟨rfl, rfl⟩
      · exact hunique k o₃ ho₃ hkey₃
      · exact absurd hkey ((hallowed.2.2.1 rfl hσ).2 g o ho)
  · obtain ⟨hnot, hnone⟩ := hallowed.2.2.1 rfl hσ
    constructor
    · intro hreleased
      rcases h.releases hreleased with hreleased | ⟨-, k, o₁, hop, -⟩
      · exact hnot hreleased
      · cases hop
    · intro k o₂ ho₂ hkey₂
      rcases hback ho₂ hkey₂ with ⟨o₃, ho₃, hkey₃⟩ | ⟨-, hop⟩
      · exact absurd hkey₃ (hnone k o₃ ho₃)
      · cases hop
        rfl

/-- Nobody died in the step that a call takes. -/
lemma Sem.diedSince (h : Sem σ.fails b op w r w') {n : ℕ} (hd : w'.DiedSince n) : w.DiedSince n := by
  obtain ⟨e, he, hdied⟩ := hd
  rcases h.journal with hj | ⟨what, hj⟩
  · exact ⟨e, hj ▸ he, hdied⟩
  · rw [hj] at he
    rcases Nat.le_total n w.journal.length with hn | hn
    · rw [List.drop_append_of_le_length hn] at he
      rcases List.mem_append.mp he with he | he
      · exact ⟨e, he, hdied⟩
      · obtain rfl := List.mem_singleton.mp he
        obtain rfl : what = .died := hdied
        exfalso
        clear he
        cases h <;> simp at hj
    · have hmem := List.mem_of_mem_drop he
      rw [List.drop_append, List.drop_of_length_le hn, List.nil_append] at he
      obtain rfl := List.mem_singleton.mp (List.mem_of_mem_drop he)
      obtain rfl : what = .died := hdied
      exfalso
      clear he hmem
      cases h <;> simp at hj

variable {path : Path} {i : ℕ}

/-- Whoever sees to a lock file goes on to until the file is gone. -/
lemma World.Kept.step (hkept : w.Kept path i) (hclean : σ.clean) (hi : Core σ w) (hallowed : Allowed σ b op w)
    (h : Sem σ.fails b op w r w') (hchild : ChildOf locks path) (hname : w.names path = some i) : w'.Kept path i := by
  obtain ⟨c, g, o, ho, rfl, rfl, hlock⟩ := hkept
  have htemp : o.temp = none := by
    by_contra hne
    obtain ⟨written, ht⟩ := Option.ne_none_iff_exists'.mp hne
    obtain ⟨-, -, -, -, -, digest, -, hof, -⟩ := (hi.file ho).temp ht
    exact hof.child.not_locks hchild
  have hstays : ∀ {d k o₁}, w.files d k = some o₁ → o₁.temp = none → o₁.path = o.path → o₁.ino = o.ino →
      (o₁.lock ≠ none ∨ ¬w.DiedSince o₁.since) → ¬(op = .close k ∧ d = b) → w'.Kept o.path o.ino := by
    intro d k o₁ ho₁ ht hp hino hl hclose
    rcases h.stays hallowed ho₁ (hp ▸ hchild) ht with ⟨o₂, ho₂, hsame⟩ | hclosed
    · refine ⟨d, k, o₂, ho₂, by rw [hsame.path, hp], by rw [hsame.ino, hino], ?_⟩
      rcases hl with hl | hl
      · rcases hsame.lock with hl' | hl'
        · exact Or.inl (by rwa [hl'])
        · exact absurd hl' hl
      · rw [hsame.since]
        exact Or.inr fun hd => hl (h.diedSince hd)
    · exact absurd hclosed hclose
  by_cases hclose : op = .close g ∧ c = b
  · obtain ⟨rfl, rfl⟩ := hclose
    obtain ⟨-, -, -, hfree⟩ := hallowed o ho
    rcases hfree hclean hchild with hne | ⟨hnone, ⟨d, k, o₁, hne, ho₁, hp, hino, hl⟩ | hdied⟩
    · exact absurd hname hne
    · refine hstays ho₁ ?_ hp hino (Or.inl hl) ?_
      · by_contra hsome
        obtain ⟨written, ht⟩ := Option.ne_none_iff_exists'.mp hsome
        obtain ⟨-, -, -, -, -, digest, -, hof, -⟩ := (hi.file ho₁).temp ht
        rw [hp] at hof
        exact hof.child.not_locks hchild
      · rintro ⟨hop, rfl⟩
        cases hop
        exact hne ⟨rfl, rfl⟩
    · rcases hlock with hlock | hlock
      · exact absurd hnone hlock
      · exact absurd hdied hlock
  · exact hstays ho htemp rfl rfl hlock hclose

/-- A lock file that was just made has its maker. -/
lemma Renaming.kept (h : Renaming w w' b) (hchild : ChildOf locks path) (hne : w'.names path ≠ w.names path)
    (hname : w'.names path = some i) :
    ((w'.nodes i).kind = .file ∧ (w'.nodes i).owned = true) ∧ w'.Kept path i := by
  cases h with
  | same h => exact absurd (by rw [h]) hne
  | @linked p j h free names regular =>
    rw [names] at hname hne
    by_cases hp : path = p
    · subst hp
      obtain rfl : j = i := by simpa using hname
      obtain ⟨hregular, f, o, ho, hpath, hino, hsince⟩ := regular hchild
      refine ⟨hregular, b, f, o, ho, hpath, hino, Or.inr ?_⟩
      rintro ⟨e, he, -⟩
      simp [hsince] at he
    · simp [hp] at hne
  | removed h =>
    rcases h path with h | h
    · exact absurd h hne
    · simp [h] at hname
  | @renamed f o digest h temp hof names =>
    refine absurd ?_ hne
    rw [names, Function.update_of_ne, Function.update_of_ne]
    · rintro rfl
      exact hof.child.not_locks hchild
    · rintro rfl
      exact (childOf_entryPath digest).not_locks hchild

/-- A call that takes a lock file away, or that makes one, says so and leaves it as it says. -/
lemma Sem.touches (h : Sem σ.fails b op w r w') (hclean : σ.clean) (hi : Core σ w) (ht : Tidy σ w)
    (hallowed : Allowed σ b op w) {what : What V} (hj : w'.journal = w.journal ++ [⟨b, what⟩])
    (hchild : ChildOf locks path) (htouches : what.Touches path) (hname : w'.names path = some i) :
    w'.names path ≠ w.names path := by
  have hlog : ∀ {e : What V}, w.journal ++ [⟨b, e⟩] = w.journal ++ [⟨b, what⟩] → e = what := by
    intro e heq
    simpa using heq
  cases h with
  | createLock hnone dir free new =>
    obtain rfl := hlog hj
    obtain rfl := htouches
    rw [hname, hnone]
    simp
  | mkdir hnone dir free =>
    obtain rfl := hlog hj
    obtain rfl := htouches
    rw [hname, hnone]
    simp
  | tempfile hnone isDir free new =>
    obtain rfl := hlog hj
    obtain rfl := htouches
    rw [hname, hnone]
    simp
  | release h held =>
    obtain rfl := hlog hj
    obtain rfl := htouches
    simp at hname
  | releaseFails h held why =>
    obtain rfl := hlog hj
    obtain rfl := htouches
    rcases why with hf | ⟨j, hj', hkind⟩
    · exact absurd ⟨_, hf⟩ hclean.2
    · rw [(ht.regular hchild hj').1] at hkind
      cases hkind
  | unlink h kind =>
    obtain rfl := hlog hj
    obtain rfl := htouches
    simp at hname
  | removeTree h =>
    obtain rfl := hlog hj
    obtain rfl := htouches
    simp [World.dropTree] at hname
  | dropTemp h temp =>
    obtain rfl := hlog hj
    obtain rfl := htouches
    simp at hname
  | persist h temp src file =>
    obtain rfl := hlog hj
    obtain ⟨-, -, written, digest, -, -, hof, rfl, -⟩ := hallowed _ h
    rcases htouches with rfl | rfl
    · exact absurd hchild hof.child.not_locks
    · exact absurd hchild (childOf_entryPath digest).not_locks
  | now | note | fault =>
    obtain rfl := hlog hj
    exact htouches.elim
  | _ => simp at hj

/-- Only a note is noted. -/
lemma Sem.notes (h : Sem σ.fails b op w r w') {v : V} {now : ℕ}
    (hj : w'.journal = w.journal ++ [⟨b, .noted v now⟩]) : op = .note v ∧ now = w.clock := by
  cases h with
  | note =>
    obtain ⟨rfl, rfl⟩ : _ = v ∧ w.clock = now := by simpa using hj
    exact ⟨rfl, rfl⟩
  | _ => simp at hj

lemma Sem.clocks (h : Sem σ.fails b op w r w') {now : ℕ} (hj : w'.journal = w.journal ++ [⟨b, .clock now⟩]) :
    op = .now ∧ now = w.clock := by
  cases h with
  | now =>
    obtain rfl : w.clock = now := by simpa using hj
    exact ⟨rfl, rfl⟩
  | _ => simp at hj

/-- The last event of a journal is new, or the journal is as it was before it. -/
lemma append_split {j before after : List (Event A V)} {e e' : Event A V} (h : j ++ [e'] = before ++ e :: after) :
    after = [] ∧ before = j ∧ e = e' ∨ ∃ after', after = after' ++ [e'] ∧ j = before ++ e :: after' := by
  rcases List.eq_nil_or_concat after with rfl | ⟨after', last, rfl⟩
  · obtain ⟨rfl, hlast⟩ := List.append_inj' h rfl
    exact Or.inl ⟨rfl, rfl, by simpa [eq_comm] using hlast⟩
  · rw [List.concat_eq_append, ← List.cons_append, ← List.append_assoc] at h
    obtain ⟨rfl, hlast⟩ := List.append_inj' h rfl
    obtain rfl : e' = last := by simpa using hlast
    exact Or.inr ⟨after', by simp, rfl⟩

/-- What one call leaves of a lock file that is there. -/
lemma Sem.keeps (h : Sem σ.fails b op w r w') (hclean : σ.clean) (hi : Core σ w) (hallowed : Allowed σ b op w)
    (hchild : ChildOf locks path) (hname : w'.names path = some i)
    (hkept : w.names path = some i → w.Kept path i) : w'.Kept path i := by
  by_cases hsame : w'.names path = w.names path
  · rw [hsame] at hname
    exact (hkept hname).step hclean hi hallowed h hchild hname
  · exact ((h.renaming hi hallowed).kept hchild hsame hname).2

lemma World.Clean.step (hall : w.Clean) (hclean : σ.clean) (hi : Core σ w) (hallowed : Allowed σ b op w)
    (h : Sem σ.fails b op w r w') : w'.Clean :=
  fun _ _ hchild hname => h.keeps hclean hi hallowed hchild hname fun hold => hall _ _ hchild hold

theorem Tidy.step (ht : Tidy σ w) (hclean : σ.clean) (hi : Core σ w) (hallowed : Allowed σ b op w)
    (h : Sem σ.fails b op w r w') : Tidy σ w' := by
  constructor
  · obtain ⟨i, hname, hkind, howned⟩ := ht.locksDir
    obtain ⟨hk, ho⟩ := (h.kind i).resolve_left fun hfree => hfree.1 locks hname
    rcases h.changed hi hallowed locks with hsame | hchanged
    · exact ⟨i, by rw [hsame, hname], by rw [hk, hkind], by rw [ho, howned]⟩
    · have hnone := hchanged.not_top hi rfl
      simp [hname] at hnone
  · intro path i hchild hname
    by_cases hsame : w'.names path = w.names path
    · rw [hsame] at hname
      obtain ⟨hk, ho⟩ := (h.kind i).resolve_left fun hfree => hfree.1 path hname
      rw [hk, ho]
      exact ht.regular hchild hname
    · exact ((h.renaming hi hallowed).kept hchild hsame hname).1
  · intro c g o' ho' hchild
    have hgrows : w.journal.length ≤ w'.journal.length := by
      rcases h.journal with hj | ⟨what, hj⟩
      · rw [hj]
      · rw [hj, List.length_append]
        exact Nat.le_add_right _ _
    rcases h.opened hi hallowed ho' with ⟨o, ho, hkept, -⟩ | ⟨-, -, -, hsince | hentry⟩
    · rw [hkept.since]
      exact Nat.le_trans (ht.since ho (hkept.path ▸ hchild)) hgrows
    · exact Nat.le_of_eq hsince
    · exact absurd hchild hentry.not_locks
  · intro path i before e after hchild hname hj htouches hlive
    by_cases hsame : w'.names path = w.names path
    · refine h.keeps hclean hi hallowed hchild hname fun hold => ?_
      rcases h.journal with hj' | ⟨what, hj'⟩
      · exact ht.kept hchild hold (hj' ▸ hj) htouches hlive
      · rw [hj'] at hj
        rcases append_split hj with ⟨rfl, rfl, rfl⟩ | ⟨after', rfl, hj₀⟩
        · exact absurd hsame (h.touches hclean hi ht hallowed hj' hchild htouches hname)
        · exact ht.kept hchild hold hj₀ htouches fun d hd => hlive d (List.mem_append_left _ hd)
    · exact ((h.renaming hi hallowed).kept hchild hsame hname).2
  · intro c v v₀ before now middle now' after hsweeps hj hlive
    refine World.Clean.step ?_ hclean hi hallowed h
    rcases h.journal with hj' | ⟨what, hj'⟩
    · exact ht.swept hsweeps (hj' ▸ hj) hlive
    · rw [hj'] at hj
      rcases append_split hj with ⟨rfl, hbefore, heq⟩ | ⟨after', rfl, hj₀⟩
      · obtain ⟨rfl, rfl⟩ : c = b ∧ .noted v now' = what := by simpa using heq
        obtain ⟨rfl, -⟩ := h.notes hj'
        exact hallowed.2 hclean v₀ before now middle hsweeps hbefore.symm fun e he => hlive e (by simp [he])
      · refine ht.swept hsweeps hj₀ fun e he => hlive e ?_
        rw [← List.append_assoc]
        exact List.mem_append_left _ he

lemma World.files_kill_of_none {dead : A → Prop} (h : ∀ a, ¬dead a) : (w.kill dead).files = w.files := by
  funext a f
  simp [World.kill, h a]

lemma World.files_of_kill {dead : A → Prop} (h : (w.kill dead).files a f = some o) : w.files a f = some o := by
  by_cases hd : dead a
  · simp [World.kill, hd] at h
  · simpa [World.kill, hd] using h

lemma Tidy.kill (ht : Tidy σ w) (dead : A → Prop) : Tidy σ (w.kill dead) := by
  refine ⟨ht.locksDir, ht.regular, ?_, ?_, ?_⟩
  · intro a f o ho hchild
    refine Nat.le_trans (ht.since (World.files_of_kill ho) hchild) ?_
    rcases w.journal_kill dead with ⟨-, hj⟩ | ⟨b, -, hj⟩
    · rw [hj]
    · rw [hj, List.length_append]
      exact Nat.le_add_right _ _
  · intro path i before e after hchild hname hj htouches hlive
    rcases w.journal_kill dead with ⟨hnone, hj'⟩ | ⟨c, -, hj'⟩
    · have hkept := ht.kept hchild hname (hj' ▸ hj) htouches hlive
      obtain ⟨a, f, o, ho, hp, hino, hl⟩ := hkept
      refine ⟨a, f, o, by rw [World.files_kill_of_none hnone, ho], hp, hino, ?_⟩
      unfold World.DiedSince
      rwa [hj']
    · rw [hj'] at hj
      rcases append_split hj with ⟨rfl, -, rfl⟩ | ⟨after', rfl, -⟩
      · exact htouches.elim
      · exact absurd rfl (hlive ⟨c, .died⟩ (by simp))
  · intro c v v₀ before now middle now' after hsweeps hj hlive
    rcases w.journal_kill dead with ⟨hnone, hj'⟩ | ⟨d, -, hj'⟩
    · intro path i hchild hname
      obtain ⟨a, f, o, ho, hp, hino, hl⟩ := ht.swept hsweeps (hj' ▸ hj) hlive path i hchild hname
      refine ⟨a, f, o, by rw [World.files_kill_of_none hnone, ho], hp, hino, ?_⟩
      unfold World.DiedSince
      rwa [hj']
    · rw [hj'] at hj
      rcases append_split hj with ⟨-, -, heq⟩ | ⟨after', rfl, -⟩
      · simp at heq
      · exact absurd rfl (hlive ⟨d, .died⟩ (by simp))

/-- One more event at the present time. -/
lemma Timely.append (ht : Timely w) {e : Event A V} (hj : w'.journal = w.journal ++ [e]) (hclock : w'.clock = w.clock)
    (htime : ∀ n, e.what.time = some n → n = w.clock) : Timely w' := by
  have hmap : (w'.journal.filterMap fun e => e.what.time) =
      (w.journal.filterMap fun e => e.what.time) ++ e.what.time.toList := by
    rw [hj, List.filterMap_append]
    cases htime : e.what.time with
    | none => simp [htime]
    | some n => simp [htime]
  constructor
  · rw [hmap, List.pairwise_append]
    refine ⟨ht.sorted, ?_, fun n hn m hm => ?_⟩
    · cases e.what.time with
      | none => exact List.Pairwise.nil
      | some n => exact List.pairwise_singleton _ n
    · rw [htime m (by simpa using hm)]
      exact ht.past n hn
  · intro n hn
    rw [hmap] at hn
    rw [hclock]
    rcases List.mem_append.mp hn with hn | hn
    · exact ht.past n hn
    · exact Nat.le_of_eq (htime n (by simpa using hn))

lemma Timely.step (ht : Timely w) (h : Sem σ.fails b op w r w') : Timely w' := by
  rcases h.journal with hj | ⟨what, hj⟩
  · exact ⟨by rw [hj]; exact ht.sorted, by rw [hj, h.clock]; exact ht.past⟩
  · refine ht.append hj h.clock fun n hn => ?_
    cases what with
    | clock m =>
      obtain rfl : m = n := by simpa [What.time] using hn
      cases h with
      | now => simpa [eq_comm] using hj
      | _ => simp at hj
    | noted v m =>
      obtain rfl : m = n := by simpa [What.time] using hn
      exact (h.notes hj).2
    | _ => simp [What.time] at hn

lemma Timely.kill (ht : Timely w) (dead : A → Prop) : Timely (w.kill dead) := by
  rcases w.journal_kill dead with ⟨-, hj⟩ | ⟨c, -, hj⟩
  · exact ⟨by rw [hj]; exact ht.sorted, by rw [hj]; exact ht.past⟩
  · exact ht.append hj rfl (by simp [What.time])

theorem Inv.step (hi : Inv σ w) (hallowed : Allowed σ a op w) (h : Sem σ.fails a op w r w') : Inv σ w' :=
  ⟨hi.toCore.step hallowed h, fun hσ => (hi.single hσ).step hi.toCore hallowed h,
    fun hσ => (hi.once hσ).step hi.toCore hσ hallowed h, fun hσ => (hi.tidy hσ).step hσ hi.toCore hallowed h,
    fun hσ => (hi.timely hσ).step h⟩

lemma Inv.setClock (hi : Inv σ w) {clock : ℕ} (h : clock ≤ u64Max) (htick : σ.tick w.clock clock) :
    Inv σ (w.setClock clock) := by
  refine ⟨hi.toCore.setClock h, fun hσ => ?_, fun hσ => hi.once hσ, fun hσ => ?_, fun hσ => ?_⟩
  · exact ⟨(hi.single hσ).name, (hi.single hσ).file, (hi.single hσ).other⟩
  · exact ⟨(hi.tidy hσ).locksDir, (hi.tidy hσ).regular, (hi.tidy hσ).since, (hi.tidy hσ).kept, (hi.tidy hσ).swept⟩
  · exact ⟨(hi.timely hσ).sorted, fun n hn => Nat.le_trans ((hi.timely hσ).past n hn) (hσ htick)⟩

lemma Inv.kill (hi : Inv σ w) (dead : A → Prop) : Inv σ (w.kill dead) := by
  refine ⟨hi.toCore.kill dead, fun hσ => ?_, fun hσ => ?_, fun hσ => (hi.tidy hσ).kill dead,
    fun hσ => (hi.timely hσ).kill dead⟩
  · refine ⟨(hi.single hσ).name, fun ho hlock => ?_, fun ho => (hi.single hσ).other (World.files_of_kill ho)⟩
    obtain ⟨hnames, hfiles⟩ := (hi.single hσ).file (World.files_of_kill ho) hlock
    exact ⟨hnames, fun b g o' ho' => hfiles b g o' (World.files_of_kill ho')⟩
  · intro b g o ho hheld
    obtain ⟨hnot, hunique⟩ := hi.once hσ b g o (World.files_of_kill ho) hheld
    refine ⟨fun hreleased => hnot ?_, fun k o' ho' => hunique k o' (World.files_of_kill ho')⟩
    obtain ⟨e, he, hagent, path, hwhat⟩ := hreleased
    rcases w.journal_kill dead with ⟨-, hj⟩ | ⟨c, -, hj⟩
    · exact ⟨e, hj ▸ he, hagent, path, hwhat⟩
    · rw [hj] at he
      rcases List.mem_append.mp he with he | he
      · exact ⟨e, he, hagent, path, hwhat⟩
      · rw [List.mem_singleton.mp he] at hwhat
        cases hwhat

/-- The protocol of one root. -/
noncomputable def protocol (σ : Setting A V) : Protocol (machine A V σ.fails σ.tick) where
  inv := Inv σ
  allowed := Allowed σ
  inv_step hi hallowed hsem := hi.step hallowed hsem
  inv_env hi henv := by
    obtain ⟨clock, hclock, htick, rfl⟩ := henv
    exact hi.setClock hclock htick
  inv_kill dead hi := hi.kill dead

end

end Unixd.Cache
