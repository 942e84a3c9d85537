import Unixd.Cache.KeyLock
import Unixd.Cache.Storing

/-!
# Sweeping the lock files

A prune and a clear go through all lock files. Once they have, every lock file has somebody who
sees to it, unless a process died since they began.
-/

namespace Unixd.Cache

open Unixd.Lib

set_option linter.unusedSectionVars false

variable {A V : Type} {σ : Setting A V} {w w' : World A V} {a : A} {n : ℕ} {path : Path} {i : ℕ}

/-- Since `n` events somebody sees to the lock file at `path`, if there is one. -/
def World.Seen (σ : Setting A V) (w : World A V) (n : ℕ) (path : Path) : Prop :=
  n ≤ w.journal.length ∧ (σ.clean → ¬w.DiedSince n → ∀ i, w.names path = some i → w.Kept path i)

/-- Since `n` events somebody sees to every lock file. -/
def World.Swept (σ : Setting A V) (w : World A V) (n : ℕ) : Prop :=
  ∀ path, ChildOf locks path → w.Seen σ n path

/-- The lock file that was at `path` is there, or somebody sees to its successor. -/
def World.Watched (σ : Setting A V) (w : World A V) (n : ℕ) (path : Path) (i : ℕ) : Prop :=
  n ≤ w.journal.length ∧ (w.names path = some i ∨ w.Seen σ n path)

lemma World.DiedSince.append (h : w.DiedSince n) {es : List (Event A V)} (hj : w'.journal = w.journal ++ es) :
    w'.DiedSince n := by
  obtain ⟨e, he, hd⟩ := h
  refine ⟨e, ?_, hd⟩
  rw [hj, List.drop_append]
  exact List.mem_append_left _ he

lemma World.DiedSince.mono {m : ℕ} (h : w.DiedSince n) (hle : m ≤ n) : w.DiedSince m := by
  obtain ⟨e, he, hd⟩ := h
  exact ⟨e, List.drop_subset_drop_left _ hle he, hd⟩

lemma World.Seen.mono {m : ℕ} (h : w.Seen σ n path) (hle : m ≤ n) : w.Seen σ m path :=
  ⟨Nat.le_trans hle h.1, fun hclean hd => h.2 hclean fun hd' => hd (hd'.mono hle)⟩

lemma World.Seen.of_none (hn : n ≤ w.journal.length) (hnone : σ.clean → w.names path = none) : w.Seen σ n path := by
  refine ⟨hn, fun hclean _ i hname => ?_⟩
  rw [hnone hclean] at hname
  cases hname

section

variable [DecidableEq A] {op : Op V} {r : op.Ret} {b : A}

lemma Sem.grows (h : Sem σ.fails b op w r w') : ∃ es, w'.journal = w.journal ++ es := by
  rcases h.journal with hj | ⟨what, hj⟩
  · exact ⟨[], by rw [hj, List.append_nil]⟩
  · exact ⟨_, hj⟩

lemma Other.grows (h : Other σ a w w') : ∃ es, w'.journal = w.journal ++ es := by
  rcases h.journal with hj | ⟨b, what, -, hj⟩
  · exact ⟨[], by rw [hj, List.append_nil]⟩
  · exact ⟨_, hj⟩

lemma World.Seen.step (h : w.Seen σ n path) (hchild : ChildOf locks path) (hi : Inv σ w) (hallowed : Allowed σ b op w)
    (hsem : Sem σ.fails b op w r w') : w'.Seen σ n path := by
  obtain ⟨es, hj⟩ := hsem.grows
  refine ⟨?_, fun hclean hd i hname => ?_⟩
  · rw [hj, List.length_append]
    exact Nat.le_add_right_of_le h.1
  · refine hsem.keeps hclean hi.toCore hallowed hchild hname fun hold => h.2 hclean ?_ i hold
    exact fun hdied => hd (hdied.append hj)

lemma World.Watched.step (h : w.Watched σ n path i) (hchild : ChildOf locks path) (hi : Inv σ w)
    (hallowed : Allowed σ b op w) (hsem : Sem σ.fails b op w r w') : w'.Watched σ n path i := by
  obtain ⟨es, hj⟩ := hsem.grows
  have hn : n ≤ w'.journal.length := by
    rw [hj, List.length_append]
    exact Nat.le_add_right_of_le h.1
  refine ⟨hn, ?_⟩
  rcases h.2 with hname | hseen
  · by_cases hsame : w'.names path = w.names path
    · exact Or.inl (hsame.trans hname)
    · exact Or.inr ⟨hn, fun _ _ j hj => ((hsem.renaming hi.toCore hallowed).kept hchild hsame hj).2⟩
  · exact Or.inr (hseen.step hchild hi hallowed hsem)

/-- What stays under every call stays under a death too, once it allows for deaths. -/
lemma lasting_of_step {P : World A V → Prop} (hstep : ∀ {b op} {r : Op.Ret op} {w w'}, Inv σ w → P w →
      Allowed σ b op w → Sem σ.fails b op w r w' → P w')
    (hclock : ∀ {w} clock, P w → P (w.setClock clock))
    (hkill : ∀ {w} dead, Inv σ w → P w → P (w.kill dead)) : Lasting σ a P := by
  constructor
  · intro w w' hi hP ho
    cases ho with
    | step hne hallowed hsem => exact hstep hi hP hallowed hsem
    | env h =>
      obtain ⟨clock, -, -, rfl⟩ := h
      exact hclock clock hP
    | kill dead alive => exact hkill dead hi hP
  · rintro w w' hi hP ⟨op, r, -, hallowed, hsem⟩
    exact hstep hi hP hallowed hsem

lemma World.Seen.kill (h : w.Seen σ n path) (dead : A → Prop) : (w.kill dead).Seen σ n path := by
  rcases w.journal_kill dead with ⟨hnone, hj⟩ | ⟨c, hc, hj⟩
  · refine ⟨by rw [hj]; exact h.1, fun hclean hd i hname => ?_⟩
    have hfiles := World.files_kill_of_none (w := w) hnone
    unfold World.DiedSince at hd
    rw [hj] at hd
    obtain ⟨b, f, o, ho, hp, hino, hl⟩ := h.2 hclean hd i hname
    refine ⟨b, f, o, by rw [hfiles]; exact ho, hp, hino, hl.imp_right fun hl => ?_⟩
    unfold World.DiedSince
    rwa [hj]
  · refine ⟨?_, fun _ hd => absurd ⟨⟨c, .died⟩, ?_, rfl⟩ hd⟩
    · rw [hj, List.length_append]
      exact Nat.le_add_right_of_le h.1
    · rw [hj, List.drop_append_of_le_length h.1]
      simp

lemma lasting_seen (hchild : ChildOf locks path) : Lasting σ a fun w => w.Seen σ n path :=
  lasting_of_step (fun hi h hallowed hsem => h.step hchild hi hallowed hsem) (fun _ h => h) fun dead _ h => h.kill dead

lemma lasting_swept : Lasting σ a fun w => w.Swept σ n :=
  .all fun _ => .of_imp lasting_seen

lemma World.Swept.read (h : w.Swept σ n) (hi : Inv σ w) (a : A) : (w.log a (.clock w.clock)).Swept σ n :=
  fun path hchild => (h path hchild).step hchild hi (show Allowed σ a .now w from trivial) .now

lemma lasting_watched (hchild : ChildOf locks path) : Lasting σ a fun w => w.Watched σ n path i := by
  refine lasting_of_step (fun hi h hallowed hsem => h.step hchild hi hallowed hsem) (fun _ h => h) ?_
  intro w dead _ h
  refine ⟨?_, h.2.imp_right fun hseen => hseen.kill dead⟩
  rcases w.journal_kill dead with ⟨-, hj⟩ | ⟨c, -, hj⟩
  · rw [hj]
    exact h.1
  · rw [hj, List.length_append]
    exact Nat.le_add_right_of_le h.1

lemma lasting_length : Lasting σ a fun w : World A V => n ≤ w.journal.length :=
  lasting_journal (J := fun j => n ≤ j.length) fun j e _ _ h => by
    rw [List.length_append]
    exact Nat.le_add_right_of_le h

/-- A watched lock file that is another's to hold is seen to. -/
lemma World.Watched.of_conflict (h : w.Watched σ n path i) (hi : Inv σ w) (hchild : ChildOf locks path) {f : ℕ}
    (hc : w.Conflict a f i .exclusive) : w.Seen σ n path := by
  rcases h.2 with hname | hseen
  · refine ⟨h.1, fun hclean _ j hj => ?_⟩
    obtain ⟨b, g, o, -, ho, hino, hl⟩ := hc
    obtain rfl : i = j := by simpa [hname] using hj
    refine ⟨b, g, o, ho, ?_, hino, Or.inl ?_⟩
    · exact (hi.single hclean.1.1).other ho (.of_child hchild) (by rw [hname, hino])
    · rcases hl with hl | ⟨-, hl⟩
      · simp [hl]
      · simp [hl]
  · exact hseen

/-- All that a stream showed is seen to, and all that it did not show is new. -/
lemma World.swept_of_seen (hi : Inv σ w) (hn : n ≤ w.journal.length) {seen : List Name}
    (hseen : ∀ name ∈ seen, w.Seen σ n (locks ++ [name]))
    (hall : ∀ name, w.names (locks ++ [name]) ≠ none → (∀ e ∈ w.journal.drop n, ¬e.what.Touches (locks ++ [name])) →
      name ∈ seen) : w.Swept σ n := by
  rintro path ⟨name, rfl⟩
  refine ⟨hn, fun hclean hd i hname => ?_⟩
  by_cases htouched : ∀ e ∈ w.journal.drop n, ¬e.what.Touches (locks ++ [name])
  · exact (hseen name (hall name (by simp [hname]) htouched)).2 hclean hd i hname
  · simp only [not_forall, not_not] at htouched
    obtain ⟨e, he, htouches⟩ := htouched
    obtain ⟨before, after, hsplit⟩ := List.append_of_mem he
    have hj : w.journal = (w.journal.take n ++ before) ++ e :: after := by
      rw [List.append_assoc, ← hsplit, List.take_append_drop]
    refine (hi.tidy hclean).kept ⟨name, rfl⟩ hname hj htouches fun d hd' hdied => hd ⟨d, ?_, hdied⟩
    rw [hsplit]
    simp [hd']

end

/-- Partial correctness among all that the others may do. -/
abbrev Safely [DecidableEq A] {α : Type} (σ : Setting A V) (a : A) (S : World A V → Prop) (p : M V α)
    (T : α → World A V → Prop) (X : Error → World A V → Prop) : Prop :=
  (protocol σ).Triple a S p T X

/-- `p` leaves the open files of `a` and what it knows as they are. -/
abbrev Keeps [DecidableEq A] {α : Type} (σ : Setting A V) (a : A) (L : Ledger) (F : World A V → Prop) (p : M V α) :
    Prop :=
  Safely σ a (Has a L F) p (fun _ => Has a L F) fun _ => Has a L F

/-- `L` with one more open file that stands for nothing. -/
def Ledger.Plus (L L' : Ledger) : Prop :=
  ∃ f o, L f = none ∧ L' = Function.update L f (some o) ∧ o.lock = none ∧ o.held = none ∧ o.temp = none

variable {L L' : Ledger} {F : World A V → Prop} {α β : Type}

lemma Ledger.Plus.below (h : L.Plus L') : L.Below L' := by
  obtain ⟨f, o, hf, rfl, -⟩ := h
  exact Ledger.below_update hf o

/-- No temporary file is open. -/
def Ledger.Whole (L : Ledger) : Prop :=
  ∀ g o, L g = some o → o.temp = none

lemma Ledger.Whole.update (h : L.Whole) (f : ℕ) {o : Open} (ho : o.temp = none) :
    Ledger.Whole (Function.update L f (some o)) := by
  intro g o' hg
  by_cases hgf : g = f
  · subst hgf
    rw [Function.update_self, Option.some_inj] at hg
    exact hg ▸ ho
  · rw [Function.update_of_ne hgf] at hg
    exact h g o' hg

lemma Ledger.Plus.whole (h : L.Plus L') (hL : L.Whole) : L'.Whole := by
  obtain ⟨f, o, -, rfl, -, -, ht⟩ := h
  exact hL.update f ht

section

variable [DecidableEq A] {C : (protocol σ).Scope a}

lemma safe_closing {f : ℕ} {p : M V α} {S : World A V → Prop} {E : α → World A V → Prop} {Y : World A V → Prop}
    (hnew : L f = none) (hE : ∀ x, Calm ((protocol σ).whole a) L (E x)) (hY : Calm ((protocol σ).whole a) L Y)
    (hp : Safely σ a S p (fun x w => ∃ o, Closable σ L o ∧ Has a (Function.update L f (some o)) (E x) w)
      (fun _ w => ∃ o, Closable σ L o ∧ Has a (Function.update L f (some o)) Y w)) :
    Safely σ a S (closing f p) (fun x => Has a L (E x)) (fun _ => Has a L Y) := by
  refine safe_after hp (fun x => ?_) fun e => ?_
  · exact .of_exists fun o => .imp fun hclose => (sys_close (hE x) hnew hclose).triple
  · exact .of_exists fun o => .imp fun hclose => (sys_close hY hnew hclose).triple

/-- The names that a stream shows, with `I` of its beginning, the loop's state and the names so far, and
`E` at its end. -/
lemma safe_forDir {init : β} {body : β → Name → M V β} {I : ℕ → β → List Name → World A V → Prop}
    {E : β → World A V → Prop} (hpath : path = entries ∨ path = locks) (hF : Calm ((protocol σ).whole a) L F)
    (hI : ∀ since s seen, Calm ((protocol σ).whole a) L (I since s seen))
    (hE : ∀ s, Calm ((protocol σ).whole a) L (E s)) (hIF : ∀ since s seen w, I since s seen w → F w)
    (hstart : ∀ w, Inv σ w → F w → I w.journal.length init [] w)
    (hbody : ∀ L' since s seen name, L.Plus L' → Safely σ a (Has a L' (I since s seen)) (body s name)
      (fun s' => Has a L' (I since s' (name :: seen))) fun _ => Has a L' F)
    (hend : ∀ w since s seen, Inv σ w → I since s seen w → (∀ name, w.names (path ++ [name]) ≠ none →
      (∀ e ∈ w.journal.drop since, ¬e.what.Touches (path ++ [name])) → name ∈ seen) → E s w) :
    Safely σ a (Has a L F) (forDir path init body) (fun s => Has a L (E s)) (fun _ => Has a L F) := by
  have hnot : ¬ChildOf locks path := by
    intro hchild
    rcases hpath with rfl | rfl
    · exact hchild.ne (by decide) rfl
    · exact hchild.ne (by decide) rfl
  refine safe_ofResult_bind (T := fun f w => L f = none ∧ ∃ i since,
    Has a (Function.update L f (some (.at path i since))) (I since init []) w)
      (sys_openDir hF hpath ?_ ?_).triple fun f => .imp fun hnew => .of_exists fun i => .of_exists fun since => ?_
  · exact fun w f i hi hnew h _ => ⟨hnew, i, _, h.1, hstart w hi h.2⟩
  · exact fun w e _ h _ => h
  · refine safe_closing hnew hE hF (.pre (.iterate (J := fun s w => ∃ seen, Has a (Function.update L f
      (some (.streaming path i since seen))) (I since s seen) w) (fun s => .of_exists fun seen => ?_) init)
        fun w _ h => ⟨[], h⟩)
    have hplus : ∀ seen, L.Plus (Function.update L f (some (.streaming path i since seen))) :=
      fun seen => ⟨f, _, hnew, rfl, rfl, rfl, rfl⟩
    have hclosable : ∀ seen, Closable σ L (.streaming path i since seen) :=
      fun _ => ⟨rfl, rfl, fun _ h => absurd rfl h, fun _ => hnot⟩
    have ho : Function.update L f (some (Open.streaming path i since seen)) f = some (.streaming path i since seen) := by
      simp
    refine safe_ofResult_bind (T := Sought
      (fun name w => Has a (Function.update L f (some (.streaming path i since (name :: seen)))) (I since s seen) w)
      (fun w => Has a (Function.update L f (some (.streaming path i since seen))) (E s) w))
        (sys_next ((hI since s seen).below (hplus seen).below) ho ?_ ?_ ?_).triple ?_
    · intro w name _ _ _ h
      rwa [Function.update_idem] at h
    · intro w hi h hall
      refine ⟨h.1, hend w since s seen hi h.2 fun name hname huntouched => hall name hname ?_⟩
      rintro ⟨e, he, ht⟩
      exact huntouched e he ht
    · exact fun w e _ h _ => ⟨_, hclosable seen, h.1, hIF _ _ _ _ h.2⟩
    · rintro (_ | name)
      · exact .pure fun w _ h => ⟨_, hclosable seen, h⟩
      · refine .bind ((hbody _ since s seen name (hplus (name :: seen))).mono (fun _ _ => id) (fun _ _ _ => id) ?_)
          fun s' => .pure fun w _ h => ⟨_, h⟩
        exact fun _ w _ h => ⟨_, hclosable _, h⟩

/-- What a prune may remove whatever it is. -/
def Setting.Sweeps (σ : Setting A V) (a : A) : Prop :=
  ∀ j path, σ.permits j a (.unlinked path (.prune .irregular))

lemma World.Removed.names {why : Why} (h : w.Removed a path why w') : w'.names path = none := by
  cases h with
  | unlink => simp
  | removeTree => simp [World.dropTree]

lemma World.Removed.aside {why : Why} (h : w.Removed a path why w') (hchild : ChildOf locks path) : Aside w w' := by
  cases h with
  | unlink =>
    refine ⟨fun p _ hp => Function.update_of_ne ?_ _ _, rfl⟩
    rintro rfl
    exact hp hchild
  | removeTree =>
    refine ⟨fun p hlen hp => if_neg fun hbelow => hp ?_, rfl⟩
    rwa [← hbelow.eq_of_length_le (by rw [hchild.length]; exact hlen)]

/-- One lock file of a prune: afterwards somebody else sees to it. -/
lemma runs_sweepLock (hF : Steady C F) (hshares : L.Shares) (hprunes : L.Prunes) (hwhole : L.Whole)
    (hpermits : σ.Sweeps a) (hchild : ChildOf locks path) (hn : ∀ w, F w → n ≤ w.journal.length) (removed : ℕ) :
    C.Runs (Has a L F) (do
        match ← regular path with
        | none => return removed
        | some _ =>
          match ← tryLockExclusive path with
          | none => return removed
          | some held =>
            held.drop
            return removed + 1 : M V ℕ)
      (fun _ => Has a L fun w => F w ∧ w.Seen σ n path) fun _ => Has a L F := by
  have hseen := hF.and (lasting_seen (σ := σ) (a := a) (n := n) hchild).steady
  obtain ⟨g, m, hm, hmp, hml⟩ := hshares
  obtain ⟨h, p, hp, hpp, hpl⟩ := hprunes
  refine .bind (U := Regular σ a L F (fun w => F w ∧ w.Seen σ n path) path) ((runs_regular
    (G := fun kind w => F w ∧ ∃ i, w.names path = some i ∧ (w.nodes i).kind ≠ .file) hF.calm ?_ ?_ ?_ ?_ ?_ ?_).mono
      (fun _ _ => id) (fun _ _ _ => id) fun _ _ _ h => ⟨h.1, h.2.1⟩) ?_
  · exact fun _ => hF.calm.and (.of_exists fun i => calm_irregular hchild hm hmp hml hp hpp hpl)
  · exact fun w kind _ hFw hne ⟨i, hname, hk⟩ => ⟨hFw, i, hname, hk ▸ hne⟩
  · exact fun _ _ h => h.1
  · rintro kind w - hi ⟨hfiles, hFw, i, hname, hkind⟩
    have hw : Has a L F w := ⟨hfiles, hFw⟩
    refine ⟨⟨hw.prunes ⟨h, p, hp, hpp, hpl⟩, hw.shares ⟨g, m, hm, hmp, hml⟩, Or.inr (Or.inr ⟨hchild, fun j hj => ?_⟩)⟩,
      hpermits _ _⟩
    rw [hname, Option.some_inj] at hj
    exact hj ▸ hkind
  · intro kind w w' _ hi hw hcall hr
    have hF' := hF.aside hi hw.2.1 hcall (hr.aside hchild)
    exact ⟨hF', .of_none (hn w' hF') fun _ => hr.names⟩
  · exact fun w _ hFw hnone => ⟨hFw, .of_none (hn w hFw) fun _ => hnone⟩
  · rintro (_ | metadata)
    · exact .pure fun w _ hw => hw
    · refine .imp fun _ => .bind (U := Sought (fun held w => held.path = path ∧ L held.file = none ∧ ∃ i since,
            Has a (Function.update L held.file (some (.holding path i since .prune)))
              (fun w => F w ∧ w.Watched σ n path i) w)
        (fun w => Has a L (fun w => F w ∧ w.Seen σ n path) w)) ((runs_tryLockExclusive (G := fun i w => F w ∧ w.Watched σ n path i)
        (E := fun w => F w ∧ w.Seen σ n path) hF.calm hchild ⟨g, m, hm, hmp, hml⟩ ⟨h, p, hp, hpp, hpl⟩ ?_ ?_ ?_ hseen.calm ?_
          ?_).mono (fun _ _ => id) (by rintro (_ | held) _ _ h <;> exact h) fun _ _ _ h => ⟨h.1, h.2.1⟩) ?_
      · exact fun i => (hF.and (lasting_watched hchild).steady).calm
      · exact fun w i _ hFw hname => ⟨hFw, hn w hFw, Or.inl hname⟩
      · exact fun _ _ h => h.1
      · exact fun w f i hi hw _ hc => ⟨hw.1, hw.2.of_conflict hi hchild hc⟩
      · exact fun w i _ hw hne => ⟨hw.1, hw.2.2.resolve_left hne⟩
      · rintro (_ | held)
        · exact .pure fun w _ hw => hw
        · refine .imp fun hpath => .imp fun hnew => .of_exists fun i => .of_exists fun since => ?_
          obtain ⟨path, file⟩ := held
          obtain rfl : path = _ := hpath
          refine .bind (U := fun _ => Has a L fun w => F w ∧ w.Seen σ n path) ((runs_drop hnew
            (hF.and (lasting_watched hchild).steady).calm hseen.calm hchild hwhole ?_)) fun _ => .pure fun w _ hw => hw
          intro w w' hi hw hcall haside _ hne
          obtain ⟨hFw, hwatched⟩ := (hF.and (lasting_watched hchild).steady).aside hi hw.2 hcall haside
          refine ⟨hFw, hwatched.1, fun hclean => ?_⟩
          exact (hwatched.2.resolve_left (hne hclean)).2 hclean

/-- A directory at the top of the root. -/
lemma lasting_ownDir (hp : path.length = 1) : Lasting σ a fun w => w.OwnDir path := by
  refine ⟨fun hi hdir ho => ho.ownDir hi hp hdir, ?_⟩
  rintro w w' hi ⟨i, hname, hkind, howned⟩ ⟨op, r, -, hallowed, hsem⟩
  obtain ⟨hk, ho⟩ := (hsem.kind i).resolve_left fun hfree => hfree.1 path hname
  rcases hsem.changed hi.toCore hallowed path with hsame | hchanged
  · exact ⟨i, by rw [hsame, hname], by rw [hk, hkind], by rw [ho, howned]⟩
  · have hnone := hchanged.not_top hi.toCore hp
    simp [hname] at hnone

theorem safe_removeUnheldLocks (hF : Lasting σ a F) (hshares : L.Shares) (hprunes : L.Prunes) (hwhole : L.Whole)
    (hpermits : σ.Sweeps a) (hn : ∀ w, F w → n ≤ w.journal.length) :
    Safely σ a (Has a L F) (removeUnheldLocks : M V ℕ) (fun _ => Has a L fun w => F w ∧ w.Swept σ n)
      fun _ => Has a L F := by
  unfold removeUnheldLocks
  have hFd : Lasting σ a fun w => F w ∧ w.OwnDir locks := hF.and (lasting_ownDir rfl)
  have hswept := hFd.and (lasting_swept (σ := σ) (a := a) (n := n))
  have hI : ∀ since (seen : List Name), Lasting σ a fun w => (F w ∧ w.OwnDir locks) ∧ since ≤ w.journal.length ∧
      ∀ name, name ∈ seen → w.Seen σ since (locks ++ [name]) :=
    fun since seen => hFd.and (lasting_length.and (.all fun name => .of_imp (p := name ∈ seen) fun _ =>
      lasting_seen ⟨name, rfl⟩))
  refine .bind (U := fun _ => Has a L fun w => F w ∧ w.OwnDir locks) ((runs_ensureDir hF.calm (Or.inr rfl)).triple.mono
    (fun _ _ => id) (fun _ _ _ h => h) fun _ _ _ h => ⟨h.1, h.2.1⟩) fun _ => ?_
  refine .bind (U := fun _ => Has a L fun w => (F w ∧ w.OwnDir locks) ∧ w.Swept σ n) ((safe_forDir
    (I := fun since _ seen w => n ≤ since ∧ (F w ∧ w.OwnDir locks) ∧ since ≤ w.journal.length ∧
      ∀ name, name ∈ seen → w.Seen σ since (locks ++ [name])) (Or.inr rfl) hFd.calm ?_ ?_ ?_ ?_ ?_ ?_).mono
        (fun _ _ => id) (fun _ _ _ => id) fun _ _ _ h => ⟨h.1, h.2.1⟩) fun removed => ?_
  · exact fun since _ seen => (calm_const _).and (hI since seen).calm
  · exact fun _ => hswept.calm
  · exact fun _ _ _ _ h => h.2.1
  · exact fun w _ h => ⟨hn w h.1, h, Nat.le_refl _, by simp⟩
  · intro L' since s seen name hplus
    refine .pre (S := fun w => n ≤ since ∧ Has a L' (fun w => (F w ∧ w.OwnDir locks) ∧ since ≤ w.journal.length ∧
      ∀ name, name ∈ seen → w.Seen σ since (locks ++ [name])) w) (.imp fun hle => ?_) fun w _ h => ⟨h.2.1, h.1, h.2.2⟩
    refine (runs_sweepLock (hI since seen).steady (hshares.below hplus.below) (hprunes.below hplus.below)
      (hplus.whole hwhole) hpermits ⟨name, rfl⟩ (fun w h => h.2.1) s).triple.mono (fun _ _ => id) ?_ fun _ _ _ h => ⟨h.1, h.2.1⟩
    rintro _ w _ ⟨hfiles, ⟨hFw, hsince, hseen⟩, hnow⟩
    refine ⟨hfiles, hle, hFw, hsince, fun name' hmem => ?_⟩
    rcases List.mem_cons.mp hmem with rfl | hmem
    · exact hnow
    · exact hseen name' hmem
  · rintro w since s seen hi ⟨hle, hFw, hsince, hseen⟩ hall
    exact ⟨hFw, fun path hchild => (World.swept_of_seen hi hsince hseen hall path hchild).mono hle⟩
  · exact .bind (U := fun _ => Has a L fun w => (F w ∧ w.OwnDir locks) ∧ w.Swept σ n) ((runs_syncDir hswept.calm
      (Or.inr rfl) fun w _ h => h.1.2).triple.mono (fun _ _ => id) (fun _ _ _ => id) fun _ _ _ h => ⟨h.1, h.2.1.1.1⟩)
        fun _ => .pure fun w _ h => ⟨h.1, h.2.1.1, h.2.2⟩

/-- A ledger with the maintenance lock alone. -/
def Ledger.Excludes (L : Ledger) : Prop :=
  ∃ g m, L g = some m ∧ m.path = maintenanceLock ∧ m.lock = some .exclusive

lemma Has.excludes (h : Has a L F w) (hL : L.Excludes) : w.Excludes a := by
  obtain ⟨g, m, hm, hp, hl⟩ := hL
  exact ⟨g, m, h.lookup hm, hp, hl⟩

lemma Ledger.Excludes.below (h : L.Excludes) (hL : L.Below L') : L'.Excludes := by
  obtain ⟨g, m, hm, hp, hl⟩ := h
  exact ⟨g, m, hL g m hm, hp, hl⟩

/-- What a clear may remove. -/
def Setting.Clears (σ : Setting A V) (a : A) : Prop :=
  ∀ j path, σ.permits j a (.unlinked path .clear)

lemma safe_clearDir (hF : Lasting σ a F) (hexcludes : L.Excludes) (hpermits : σ.Clears a)
    (hpath : path = entries ∨ path = locks) (hn : ∀ w, F w → n ≤ w.journal.length) :
    Safely σ a (Has a L F) (clearDir path : M V Unit) (fun _ => Has a L fun w => F w ∧ (path = locks → w.Swept σ n))
      fun _ => Has a L F := by
  have hlen : path.length = 1 := by
    rcases hpath with rfl | rfl <;> rfl
  have hFd : Lasting σ a fun w => F w ∧ w.OwnDir path := hF.and (lasting_ownDir hlen)
  have hswept := hFd.and (.of_imp (p := path = locks) fun _ => lasting_swept (σ := σ) (a := a) (n := n))
  have hI : ∀ since (seen : List Name), Lasting σ a fun w => (F w ∧ w.OwnDir path) ∧ since ≤ w.journal.length ∧
      ∀ name, name ∈ seen → path = locks → w.Seen σ since (locks ++ [name]) :=
    fun since seen => hFd.and (lasting_length.and (.all fun name => .of_imp (p := name ∈ seen) fun _ => .of_imp fun _ =>
      lasting_seen ⟨name, rfl⟩))
  refine .bind (U := fun _ => Has a L fun w => F w ∧ w.OwnDir path) ((runs_ensureDir hF.calm hpath).triple.mono
    (fun _ _ => id) (fun _ _ _ h => h) fun _ _ _ h => ⟨h.1, h.2.1⟩) fun _ => ?_
  refine .bind (U := fun _ => Has a L fun w => (F w ∧ w.OwnDir path) ∧ (path = locks → w.Swept σ n)) ((safe_forDir
    (I := fun since _ seen w => n ≤ since ∧ (F w ∧ w.OwnDir path) ∧ since ≤ w.journal.length ∧
      ∀ name, name ∈ seen → path = locks → w.Seen σ since (locks ++ [name])) hpath hFd.calm ?_ ?_ ?_ ?_ ?_ ?_).mono
        (fun _ _ => id) (fun _ _ _ => id) fun _ _ _ h => ⟨h.1, h.2.1⟩) fun _ => ?_
  · exact fun since _ seen => (calm_const _).and (hI since seen).calm
  · exact fun _ => hswept.calm
  · exact fun _ _ _ _ h => h.2.1
  · exact fun w _ h => ⟨hn w h.1, h, Nat.le_refl _, by simp⟩
  · intro L' since s seen name hplus
    refine .pre (S := fun w => n ≤ since ∧ Has a L' (fun w => (F w ∧ w.OwnDir path) ∧ since ≤ w.journal.length ∧
      ∀ name, name ∈ seen → path = locks → w.Seen σ since (locks ++ [name])) w) (.imp fun hle => ?_) fun w _ h => ⟨h.2.1,
        h.1, h.2.2⟩
    have hnow := fun w (hw : (F w ∧ w.OwnDir path) ∧ since ≤ w.journal.length ∧
        ∀ name, name ∈ seen → path = locks → w.Seen σ since (locks ++ [name])) (hnone : w.names (path ++ [name]) = none) =>
      show n ≤ since ∧ (F w ∧ w.OwnDir path) ∧ since ≤ w.journal.length ∧
          ∀ name', name' ∈ name :: seen → path = locks → w.Seen σ since (locks ++ [name']) from by
        refine ⟨hle, hw.1, hw.2.1, fun name' hmem hlocks => ?_⟩
        rcases List.mem_cons.mp hmem with rfl | hmem
        · exact .of_none hw.2.1 fun _ => hlocks ▸ hnone
        · exact hw.2.2 name' hmem hlocks
    refine (runs_remove (hI since seen).calm ?_ ?_ ?_).triple.mono (fun _ _ => id) (fun _ _ _ => id)
      fun _ _ _ h => ⟨h.1, h.2.1.1⟩
    · refine fun w _ h => ⟨⟨h.excludes (hexcludes.below hplus.below), ?_⟩, hpermits _ _⟩
      exact hpath.imp (fun hp => ⟨name, by rw [hp]⟩) fun hp => ⟨name, by rw [hp]⟩
    · intro w w' hi h hcall hr
      exact hnow w' ((hI since seen).own hi h.2 hcall) hr.names
    · exact fun w _ h hnone => hnow w h hnone
  · rintro w since s seen hi ⟨hle, hFw, hsince, hseen⟩ hall
    refine ⟨hFw, ?_⟩
    rintro rfl child hchild
    exact (World.swept_of_seen hi hsince (fun name hmem => hseen name hmem rfl) hall child hchild).mono hle
  · exact (runs_syncDir hswept.calm hpath fun w _ h => h.1.2).triple.mono (fun _ _ => id)
      (fun _ w _ h => ⟨h.1, h.2.1.1, h.2.2⟩) fun _ _ _ h => ⟨h.1, h.2.1.1.1⟩

lemma closable_pinned {o : Open} (hpath : o.path = maintenanceLock ∨ o.path = pruneLock) (hheld : o.held = none)
    (htemp : o.temp = none) (hbacked : L.Backed) : Closable σ L o := by
  refine ⟨hheld, htemp, fun _ _ => hbacked, fun _ hchild => ?_⟩
  rcases hpath with hp | hp
  · exact (hp ▸ hchild).ne (by decide) rfl
  · exact (hp ▸ hchild).ne (by decide) rfl

/-- Opens the maintenance lock for the rest of a scope. -/
lemma safe_openPinned (hF : Calm ((protocol σ).whole a) L F) (hpath : path = maintenanceLock ∨ path = pruneLock) :
    Safely σ a (Has a L F) (openLock path : M V ℕ)
      (fun f w => L f = none ∧ ∃ i since, Has a (Function.update L f (some (.at path i since))) F w)
      fun _ => Has a L F :=
  (runs_openLock (G := fun _ => F) hF (fun _ _ _ => hpath.imp_right Or.inl) (fun _ => hF) (fun _ _ _ h _ => h)
    fun _ _ h => h).triple.mono (fun _ _ => id) (fun _ _ _ => id) fun _ _ _ h => ⟨h.1, h.2.1⟩

/-- A clear waits for everybody and leaves no lock file that nobody sees to. -/
theorem safe_clear (hF : Lasting σ a F) (hbacked : L.Backed) (hpermits : σ.Clears a)
    (hordered : σ.ordered → ∀ g o, L g = some o → o.lock = none) (hn : ∀ w, F w → n ≤ w.journal.length) :
    Safely σ a (Has a L F) (clear : M V Unit) (fun _ => Has a L fun w => F w ∧ w.Swept σ n) fun _ => Has a L F := by
  have hswept := hF.and (lasting_swept (σ := σ) (a := a) (n := n))
  refine .bind (U := fun _ => Has a L F) ((runs_validateRoot hF.calm).triple.mono (fun _ _ => id) (fun _ _ _ => id)
    fun _ _ _ h => ⟨h.1, h.2.1⟩) fun _ => ?_
  refine .bind (safe_openPinned hF.calm (Or.inl rfl)) fun f => .imp fun hnew => .of_exists fun i => .of_exists fun since => ?_
  have ho : Function.update L f (some (Open.at maintenanceLock i since)) f = some (.at maintenanceLock i since) := by simp
  have hclosable : ∀ {o : Open}, o.path = maintenanceLock → o.held = none → o.temp = none → Closable σ L o :=
    fun hp hheld htemp => closable_pinned (Or.inl hp) hheld htemp hbacked
  refine safe_closing hnew (fun _ => hswept.calm) hF.calm (.bind (safe_flock hF.calm ho rfl (T := Upshot
    (fun _ w => Has a (Function.update L f (some (.withLock maintenanceLock i since .exclusive))) F w)
    (fun _ w => Has a (Function.update L f (some (.at maintenanceLock i since))) F w)) ?_ ?_ ?_) ?_)
  · intro _ hσ w _ h
    have hnone : ∀ g o, w.files a g = some o → o.lock = none := by
      intro g o hg
      rw [h.1] at hg
      by_cases hgf : g = f
      · subst hgf
        rw [Function.update_self, Option.some_inj] at hg
        exact hg ▸ rfl
      · rw [Function.update_of_ne hgf] at hg
        exact hordered hσ g o hg
    exact ⟨fun g o hg hl => absurd (hnone g o hg) hl, Or.inl ⟨rfl, Or.inl hnone⟩⟩
  · intro w _ h
    rwa [Function.update_idem] at h
  · exact fun w e _ h _ => h
  · rintro (e | ⟨⟩)
    · exact .throw fun w _ h => ⟨_, hclosable rfl rfl rfl, h⟩
    · have hexcludes : Ledger.Excludes (Function.update L f (some (.withLock maintenanceLock i since .exclusive))) :=
        ⟨f, _, Function.update_self _ _ _, rfl, rfl⟩
      refine .bind (U := fun _ => Has a (Function.update L f (some (.withLock maintenanceLock i since .exclusive))) F)
        ((safe_clearDir (n := n) hF hexcludes hpermits (Or.inl rfl) hn).mono (fun _ _ => id) (fun _ _ _ h => ⟨h.1, h.2.1⟩)
          fun _ w _ h => ⟨_, hclosable rfl rfl rfl, h⟩) fun _ => ?_
      exact (safe_clearDir hF hexcludes hpermits (Or.inr rfl) hn).mono (fun _ _ => id)
        (fun _ w _ h => ⟨_, hclosable rfl rfl rfl, h.1, h.2.1, h.2.2 rfl⟩) fun _ w _ h => ⟨_, hclosable rfl rfl rfl, h⟩

end

end Unixd.Cache
