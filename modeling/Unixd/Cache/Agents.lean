import Unixd.Cache.Pruning

/-!
# The operations among all others

Every operation of the cache as one agent runs it while all others do what the protocol lets them:
it does only what is allowed, and what the agent knows for good is still known afterwards.
-/

namespace Unixd.Cache

open Unixd.Lib

set_option linter.unusedSectionVars false

variable {A V T : Type} [DecidableEq A] {σ : Setting A V} {a : A} {L : Ledger} {F : World A V → Prop} {n : ℕ}
  {K P : ℕ → World A V → Prop} {codec : Codec T} {inner : Inner}

/-- What `a` knows for good: `F`, and `K now` once it has read the time `now`. -/
structure Knows (σ : Setting A V) (a : A) (F : World A V → Prop) (K : ℕ → World A V → Prop) : Prop where
  lasting : Lasting σ a F
  later : ∀ now, Lasting σ a (K now)
  clock : ∀ w, Inv σ w → F w → K w.clock (w.log a (.clock w.clock))
  known : ∀ now w, K now w → F w
  recent : ∀ now w, K now w → ⟨a, .clock now⟩ ∈ w.journal

lemma safe_usage (hF : Lasting σ a F) : Keeps σ a L F (usage : M V Usage) := by
  have hFd : Lasting σ a fun w => F w ∧ w.OwnDir entries := hF.and (lasting_ownDir rfl)
  refine .bind (U := fun _ => Has a L F) ((runs_ensureDir hF.calm (Or.inl rfl)).triple.mono (fun _ _ => id)
    (fun _ _ _ h => ⟨h.1, h.2.1⟩) fun _ _ _ h => ⟨h.1, h.2.1⟩) fun _ => ?_
  refine safe_forDir (I := fun _ _ _ => F) (Or.inl rfl) hF.calm (fun _ _ _ => hF.calm) (fun _ => hF.calm)
    (fun _ _ _ _ h => h) (fun _ _ h => h) ?_ fun _ _ _ _ _ h _ => h
  intro L' _ usage _ name _
  by_cases hdigest : entryDigest (entries ++ [name]) = none
  · simp only [if_pos hdigest]
    exact .pure fun _ _ h => h
  · simp only [if_neg hdigest]
    refine .bind (U := fun _ => Has a L' F) (sys_lstat hF.calm fun _ _ _ h _ => h).triple ?_
    rintro (e | metadata)
    · cases e with
      | notFound => exact .pure fun _ _ h => h
      | _ => exact .throw fun _ _ h => h
    · dsimp only
      split
      · exact .pure fun _ _ h => h
      · exact .pure fun _ _ h => h

/-- What is known outlasts a look at the clock. -/
lemma Knows.read (h : Knows σ a F K) {w : World A V} (hi : Inv σ w) (hF : F w) : F (w.log a (.clock w.clock)) :=
  h.known _ _ (h.clock w hi hF)

lemma safe_sweepDue (h : Knows σ a F K) : Keeps σ a L F (sweepDue inner : M V Bool) := by
  refine .bind (U := fun _ => Has a L F) (sys_lstat h.lasting.calm fun _ _ _ h _ => h).triple ?_
  rintro (e | metadata)
  · exact .pure fun _ _ h => h
  · refine .bind (U := fun _ => Has a L F) (sys_now h.lasting.calm fun w hi hw => ⟨hw.1, h.read hi hw.2⟩).triple fun now => ?_
    exact .pure fun _ _ h => h

/-- What a prune sets aside for its second pass are entries. -/
def Pass.Sound (pass : Pass) : Prop :=
  ∀ entry ∈ pass.kept, isDigest entry.2.1 = true

/-- The first pass among all others. -/
lemma safe_firstPass {now : ℕ} (hF : Lasting σ a F) (hn : ∀ w, F w → n ≤ w.journal.length) (hclock : ∀ w, F w → K now w) (hL : L.Pruning)
    (hprunes : σ.Prunes a codec inner n K) {pass : Pass} (hpass : pass.Sound) :
    Safely σ a (Has a L F) (forDir entries pass (pruneName codec inner now))
      (fun pass => Has a L fun w => F w ∧ pass.Sound) fun _ => Has a L F := by
  have hI : ∀ pass : Pass, Lasting σ a fun w => F w ∧ pass.Sound := fun pass => hF.and (lasting_const _)
  refine safe_forDir (I := fun _ pass _ w => F w ∧ pass.Sound) (Or.inl rfl) hF.calm (fun _ pass _ => (hI pass).calm)
    (fun pass => (hI pass).calm) (fun _ _ _ _ h => h.1) (fun _ _ h => ⟨h, hpass⟩) ?_ fun _ _ _ _ _ h _ => h
  intro L' _ pass _ name hplus
  refine (runs_pruneName (hplus.pruning hL) hprunes (I := fun pass w => F w ∧ pass.Sound) ?_).triple.mono
    (fun _ _ => id) (fun _ _ _ => id) fun _ _ _ h => ⟨h.1, h.2.1.1⟩
  refine ⟨(hI pass).steady, fun pass => (hI pass).steady, fun _ _ _ _ h => h, fun digest _ =>
    ⟨_, Tries.plain (hI pass).calm digest⟩, ?_, ?_, ?_⟩
  · exact fun _ w w' hi h _ hcall _ => (hI pass).own hi h hcall
  · exact fun _ w _ h _ => h
  · intro digest _ hdigest _
    obtain ⟨-, hd⟩ := entryDigest_eq_some.mp hdigest
    refine ⟨fun w h => hclock w h.1, fun w h => hn w h.1, ?_, fun _ _ h _ => h, ?_, ?_, ?_⟩
    · exact fun _ w w' _ hi h _ hcall _ => (hI pass).own hi h hcall
    · exact fun w w' _ _ _ _ hi h hcall _ => (hI pass).own hi h hcall
    · exact fun w w' _ _ _ _ _ _ hi h hcall _ => (hI pass).own hi h hcall
    · refine fun w metadata _ _ _ _ _ _ h => ⟨h.1, fun entry hentry => ?_⟩
      rcases List.mem_append.mp hentry with hentry | hentry
      · exact h.2 entry hentry
      · rw [List.mem_singleton] at hentry
        exact hentry ▸ hd

/-- The second pass among all others. -/
lemma safe_secondPass (hF : Lasting σ a F) (hL : L.Pruning) (hprunes : σ.Prunes a codec inner n K) {pass : Pass}
    {targetEntries targetBytes : ℕ} {isOver : Prop} [Decidable isOver] {α : Type} {next : Pass → M V α}
    {U : α → World A V → Prop} {X : Error → World A V → Prop} (hX : ∀ e w, Has a L F w → X e w)
    (hnext : ∀ pass, Safely σ a (Has a L F) (next pass) U X) :
    Safely σ a (Has a L fun w => F w ∧ pass.Sound) (if isOver then do
        let pass ← pruneOldest targetEntries targetBytes (pass.kept.mergeSort Kept.le) pass
        next pass
      else do
        let pass ← pure pass
        next pass) U X := by
  by_cases hover : isOver
  · simp only [if_pos hover]
    have hJ : ∀ kept : List Kept, Lasting σ a fun w => F w ∧ ∀ entry ∈ kept, isDigest entry.2.1 = true :=
      fun kept => hF.and (lasting_const _)
    have htail : ∀ {entry : Kept} {kept : List Kept} {w : World A V},
        (F w ∧ ∀ e ∈ entry :: kept, isDigest e.2.1 = true) → F w ∧ ∀ e ∈ kept, isDigest e.2.1 = true :=
      fun h => ⟨h.1, fun e he => h.2 e (List.mem_cons_of_mem _ he)⟩
    have hold : Evicts ((protocol σ).whole a) L targetEntries targetBytes
        fun kept _ w => F w ∧ ∀ entry ∈ kept, isDigest entry.2.1 = true := by
      refine ⟨fun kept _ => (hJ kept).steady, fun h => h.2 _ (List.mem_cons_self ..), ?_, ?_, ?_, ?_, ?_, ?_⟩
      · intro used digest size kept pass _
        exact ⟨_, fun _ => (hJ _).calm, (hJ kept).calm, fun _ _ _ h _ => h, fun _ _ h => h,
          fun _ _ _ _ h _ _ => htail h, fun _ _ _ h _ => htail h⟩
      · exact fun _ hi h _ hcall _ => htail ((hJ _).own hi h hcall)
      · exact fun _ h _ => htail h
      · exact fun _ h _ _ => htail h
      · exact fun _ hi h _ hcall _ => htail ((hJ _).own hi h hcall)
      · exact fun _ h _ => htail h
    refine .bind (U := fun _ => Has a L F) ((runs_pruneOldest hL hprunes hold (pass.kept.mergeSort Kept.le) pass).triple.mono
      ?_ ?_ ?_) hnext
    · exact fun w _ h => ⟨h.1, h.2.1, fun entry hentry => h.2.2 entry (List.mem_mergeSort.mp hentry)⟩
    · exact fun _ w _ ⟨_, _, h⟩ => ⟨h.1, h.2.1⟩
    · exact fun e w _ ⟨_, _, h⟩ => hX e w ⟨h.1, h.2.1.1⟩
  · simp only [if_neg hover]
    exact .bind (U := fun _ => Has a L F) (.pure fun _ _ h => ⟨h.1, h.2.1⟩) hnext

/-- A prune that has its locks leaves no lock file that nobody sees to. -/
lemma safe_pruneLocked (hF : Knows σ a F K) (hL : L.Pruning) (hprunes : σ.Prunes a codec inner n K) {pruning : ℕ} {p : Open}
    (hp : L pruning = some p) (hpath : p.path = pruneLock) (hn : ∀ w, F w → n ≤ w.journal.length) :
    Safely σ a (Has a L F) (pruneLocked codec inner pruning) (fun _ => Has a L fun w => F w ∧ w.Swept σ n)
      fun _ => Has a L F := by
  have hdone : Lasting σ a fun w => w.OwnDir entries ∧ w.Swept σ n := (lasting_ownDir rfl).and lasting_swept
  unfold pruneLocked
  have hd : Lasting σ a fun w => F w ∧ w.OwnDir entries := hF.lasting.and (lasting_ownDir rfl)
  refine .bind (U := fun _ => Has a L fun w => F w ∧ w.OwnDir entries) ((runs_ensureDir hF.lasting.calm
    (Or.inl rfl)).triple.mono (fun _ _ => id) (fun _ _ _ h => h) fun _ _ _ h => ⟨h.1, h.2.1⟩) fun _ => ?_
  refine .bind (U := fun _ => Has a L fun w => F w ∧ w.OwnDir entries ∧ w.Swept σ n) ((safe_removeUnheldLocks hd hL.shares
    hL.prunes hL.whole hprunes.irregular fun w h => hn w h.1).mono (fun _ _ => id) (fun _ _ _ h => ⟨h.1, h.2.1.1, h.2.1.2, h.2.2⟩)
      fun _ _ _ h => ⟨h.1, h.2.1⟩) fun removed => ?_
  refine .bind ((safe_usage (hF.lasting.and hdone)).mono (fun _ _ => id) (fun _ _ _ => id) fun _ _ _ h => ⟨h.1, h.2.1⟩)
    fun before => ?_
  have hnow : ∀ now, Lasting σ a fun w => K now w ∧ w.OwnDir entries ∧ w.Swept σ n := fun now => (hF.later now).and hdone
  refine .bind (sys_now (hF.lasting.and hdone).calm (T := fun now => Has a L fun w => K now w ∧ w.OwnDir entries ∧ w.Swept σ n)
    fun w hi h => ⟨h.1, hF.clock w hi h.2.1, h.2.2.1, h.2.2.2.read hi a⟩).triple fun now => ?_
  refine .bind ((safe_firstPass (hnow now) (fun w h => hn w (hF.known _ _ h.1)) (fun _ h => h.1) hL hprunes (by simp [Pass.Sound])).mono (fun _ _ => id)
    (fun _ _ _ => id) fun _ _ _ h => ⟨h.1, hF.known _ _ h.2.1⟩) fun pass => ?_
  refine safe_secondPass (hnow now) hL hprunes (fun _ _ h => ⟨h.1, hF.known _ _ h.2.1⟩) fun pass => ?_
  refine .bind (U := fun _ => Has a L fun w => K now w ∧ w.OwnDir entries ∧ w.Swept σ n) ((runs_syncDir (hnow now).calm
    (Or.inl rfl) fun w _ h => h.2.1).triple.mono (fun _ _ => id) (fun _ _ _ h => h) fun _ _ _ h =>
      ⟨h.1, hF.known _ _ h.2.1.1⟩) fun _ => ?_
  refine safe_ofResult_bind (T := fun _ => Has a L fun w => K now w ∧ w.OwnDir entries ∧ w.Swept σ n) (sys_setModified
    (G := fun w => K now w ∧ w.OwnDir entries ∧ w.Swept σ n) (hnow now).calm hp (fun w _ h => hF.recent now w h.1)
      (Or.inr (Or.inr hpath)) ?_ ?_ ?_).triple
      fun _ => .pure fun _ _ h => ⟨h.1, hF.known _ _ h.2.1, h.2.2.2⟩
  · exact fun w w' hi h hcall _ _ => (hnow now).own hi h.2 hcall
  · exact fun _ _ h => h
  · exact fun _ _ _ h _ => ⟨h.1, hF.known _ _ h.2.1⟩

lemma safe_takeLock (hF : Lasting σ a F) {f : ℕ} {mode : LockMode} {wait : Wait} {o : Open} (ho : L f = some o)
    (hlock : o.lock = none) (hwait : σ.ordered → ∀ w, Inv σ w → Has a L F w → w.MayWait a o.path mode) :
    Safely σ a (Has a L F) (takeLock f mode wait : M V Unit)
      (fun _ => Has a (Function.update L f (some { o with lock := some mode })) F) fun _ => Has a L F := by
  have hT : ∀ {b}, Safely σ a (Has a L F) (Sys.flock f mode b : M V (Except ErrorKind Unit)) (Upshot
      (fun _ w => Has a (Function.update L f (some { o with lock := some mode })) F w)
      (fun _ w => Has a L F w)) fun _ => Has a L F :=
    safe_flock hF.calm ho hlock (fun _ => hwait) (fun _ _ h => h) fun _ _ _ h _ => h
  cases wait with
  | block =>
    refine .bind hT ?_
    rintro (e | ⟨⟩)
    · exact .throw fun _ _ h => h
    · exact .pure fun _ _ h => h
  | skip =>
    refine .bind hT ?_
    rintro (e | ⟨⟩)
    · exact .throw fun _ _ h => h
    · exact .pure fun _ _ h => h

/-- The open files with which an agent may begin a prune. -/
structure Ledger.Ready (σ : Setting A V) (L : Ledger) : Prop where
  backed : L.Backed
  whole : L.Whole
  ordered : σ.ordered → (∀ g o, L g = some o → o.lock ≠ none → o.path ≠ pruneLock) ∧
    ((∀ g o, L g = some o → o.lock = none) ∨ L.Shares)

lemma Ledger.update_cases {L : Ledger} {f : ℕ} {o : Open} {P : ℕ → Open → Prop} (hf : P f o)
    (hL : ∀ g o, L g = some o → P g o) : ∀ g o', Function.update L f (some o) g = some o' → P g o' := by
  intro g o' ho
  by_cases hg : g = f
  · subst hg
    rw [Function.update_self, Option.some_inj] at ho
    exact ho ▸ hf
  · rw [Function.update_of_ne hg] at ho
    exact hL g o' ho

theorem safe_prune (h : Knows σ a F K) (hL : L.Ready σ) (hprunes : σ.Prunes a codec inner n K)
    (hn : ∀ w, F w → n ≤ w.journal.length) (wait : Wait) :
    Safely σ a (Has a L F) (prune codec inner wait) (fun _ => Has a L fun w => F w ∧ w.Swept σ n)
      fun _ => Has a L F := by
  have hF := h.lasting
  have hswept := hF.and (lasting_swept (σ := σ) (a := a) (n := n))
  refine .bind (U := fun _ => Has a L F) ((runs_validateRoot hF.calm).triple.mono (fun _ _ => id) (fun _ _ _ => id)
    fun _ _ _ h => ⟨h.1, h.2.1⟩) fun _ => ?_
  refine .bind (safe_openPinned hF.calm (Or.inl rfl)) fun m => .imp fun hm => .of_exists fun i => .of_exists fun since => ?_
  have hclosable : ∀ {o : Open}, o.path = maintenanceLock → o.held = none → o.temp = none → Closable σ L o :=
    fun hp hheld htemp => closable_pinned (Or.inl hp) hheld htemp hL.backed
  let M : Option LockMode → Ledger := fun lock =>
    Function.update L m (some { Open.at maintenanceLock i since with lock := lock })
  have hback : ∀ lock, (M lock).Backed := by
    intro lock g o by' ho hheld
    have hbelow : L.Below (M lock) := Ledger.below_update hm _
    have hb := Ledger.update_cases (P := fun _ o => o.held = some by' → L.Shares ∧ (by' = .prune → L.Prunes))
      (fun h => by cases h) (fun g o ho => hL.backed g o by' ho) g o ho hheld
    exact ⟨hb.1.below hbelow, fun hp => (hb.2 hp).below hbelow⟩
  refine safe_closing hm (fun _ => hswept.calm) hF.calm (.bind (U := fun p w => M none p = none ∧ ∃ j since',
    Has a (Function.update (M none) p (some (.at pruneLock j since'))) F w) ((safe_openPinned hF.calm (Or.inr rfl)).mono
      (fun _ _ => id) (fun _ _ _ => id) fun _ w _ h => ⟨_, hclosable rfl rfl rfl, h⟩) fun p => .imp fun hp => .of_exists
        fun j => .of_exists fun since' => ?_)
  have hne : p ≠ m := by
    rintro rfl
    rw [show M none p = _ from Function.update_self _ _ _] at hp
    cases hp
  have hLp : L p = none := (Function.update_of_ne hne _ _).symm.trans hp
  have hMp : ∀ lock, M lock p = none := fun lock => (Function.update_of_ne hne _ _).trans hLp
  have hpruning : Ledger.Pruning (Function.update (M (some .shared)) p (some (.withLock pruneLock j since' .exclusive))) := by
    refine ⟨Ledger.Shares.below ⟨m, _, Function.update_self _ _ _, rfl, rfl⟩ (Ledger.below_update (hMp _) _),
      ⟨p, _, Function.update_self _ _ _, rfl, rfl⟩, ?_⟩
    exact Ledger.Whole.update (Ledger.Whole.update hL.whole m rfl) p rfl
  have hcloses : ∀ lock o, o.path = pruneLock ∧ o.held = none ∧ o.temp = none → ∀ G : World A V → Prop, Lasting σ a G →
      ∀ X : Error → World A V → Prop, Safely σ a (Has a (Function.update (M lock) p (some o)) G) (Sys.close p)
        (fun _ w => ∃ o, Closable σ L o ∧ Has a (Function.update L m (some o)) G w) X := by
    rintro lock o ⟨hpath, hheld, htemp⟩ G hG X
    exact (sys_close hG.calm (hMp lock) (closable_pinned (Or.inr hpath) hheld htemp (hback lock))).triple.post
      fun _ _ _ h => ⟨_, hclosable rfl rfl rfl, h⟩
  refine safe_after (U := fun _ => Has a (Function.update (M (some .shared)) p (some (.withLock pruneLock j since' .exclusive)))
    fun w => F w ∧ w.Swept σ n) (Y := fun _ w => ∃ lock o, (o.path = pruneLock ∧ o.held = none ∧ o.temp = none) ∧
      Has a (Function.update (M lock) p (some o)) F w) ?_ (fun _ => hcloses _ _ ⟨rfl, rfl, rfl⟩ _ hswept _) fun _ =>
        .of_exists fun lock => .of_exists fun o => .imp fun ho => hcloses lock o ho _ hF _
  have hm' : Function.update (M none) p (some (Open.at pruneLock j since')) m = some (.at maintenanceLock i since) :=
    (Function.update_of_ne hne.symm _ _).trans (Function.update_self _ _ _)
  have hfirst : Function.update (Function.update (M none) p (some (Open.at pruneLock j since'))) m
      (some (.withLock maintenanceLock i since .shared)) =
        Function.update (M (some .shared)) p (some (.at pruneLock j since')) := by
    rw [Function.update_comm hne.symm, Function.update_idem, Function.update_comm hne]
    rfl
  have hp' : Function.update (M (some .shared)) p (some (Open.at pruneLock j since')) p = some (.at pruneLock j since') :=
    Function.update_self _ _ _
  refine .bind (U := fun _ => Has a (Function.update (M (some .shared)) p (some (.at pruneLock j since'))) F)
    ((safe_takeLock hF hm' rfl ?_).mono (fun _ _ => id) ?_ ?_) fun _ => .bind (U := fun _ => Has a (Function.update
      (M (some .shared)) p (some (.withLock pruneLock j since' .exclusive))) F) ((safe_takeLock hF hp' rfl ?_).mono
        (fun _ _ => id) ?_ ?_) fun _ => (safe_pruneLocked h hpruning hprunes (Function.update_self _ _ _) rfl hn).mono
          (fun _ _ => id) (fun _ _ _ => id) ?_
  · intro hσ w _ h
    obtain ⟨hnone, hlocks⟩ := hL.ordered hσ
    refine ⟨fun g o hg => ?_, Or.inl ⟨rfl, ?_⟩⟩
    · rw [h.1] at hg
      exact Ledger.update_cases (P := fun _ o => o.lock ≠ none → o.path ≠ pruneLock) (fun h => absurd rfl h)
        (Ledger.update_cases (fun h => absurd rfl h) hnone) g o hg
    · refine hlocks.imp (fun hlocks g o hg => ?_) fun hshares => ⟨rfl, h.shares (hshares.below ?_)⟩
      · rw [h.1] at hg
        exact Ledger.update_cases (P := fun _ o => o.lock = none) rfl (Ledger.update_cases rfl hlocks) g o hg
      · exact fun g o hg => Ledger.below_update (hMp none) _ g o (Ledger.below_update hm _ g o hg)
  · intro _ w _ h
    exact hfirst ▸ h
  · exact fun _ w _ h => ⟨none, _, ⟨rfl, rfl, rfl⟩, h⟩
  · intro hσ w _ h
    refine ⟨fun g o hg => ?_, Or.inr (Or.inl ⟨rfl, h.shares (Ledger.Shares.below ⟨m, _, Function.update_self _ _ _, rfl, rfl⟩
      (Ledger.below_update (hMp _) _))⟩)⟩
    rw [h.1] at hg
    exact Ledger.update_cases (P := fun _ o => o.lock ≠ none → o.path ≠ pruneLock) (fun h => absurd rfl h)
      (Ledger.update_cases (fun _ => show maintenanceLock ≠ pruneLock by decide) (hL.ordered hσ).1) g o hg
  · intro _ w _ h
    rwa [Function.update_idem] at h
  · exact fun _ w _ h => ⟨some .shared, _, ⟨rfl, rfl, rfl⟩, h⟩
  · exact fun _ w _ h => ⟨some .shared, _, ⟨rfl, rfl, rfl⟩, h⟩

/-- `L'` is `L` with the open files of a key lock. -/
def Ledger.Locked (L : Ledger) (lock : KeyLock) (L' : Ledger) : Prop :=
  (lock.held.path = lockPath lock.key.digest ∧ L lock.maintenance = none ∧ L lock.held.file = none ∧
    lock.held.file ≠ lock.maintenance) ∧
  ∃ i since j since', L' = Function.update (Function.update L lock.maintenance
    (some (.withLock maintenanceLock i since .shared))) lock.held.file
      (some (.holding (lockPath lock.key.digest) j since' .key))

theorem safe_lock (hF : Lasting σ a F) (hbacked : L.Backed) (hmay : MayHold σ a L F .key)
    (hordered : σ.ordered → ∀ g o, L g = some o → o.lock = none) (key : Key) :
    Safely σ a (Has a L F) (lock key : M V KeyLock)
      (fun lock w => lock.key = key ∧ ∃ L', L.Locked lock L' ∧ Has a L' F w) fun _ => Has a L F := by
  refine .bind (U := fun _ => Has a L F) ((runs_validateRoot hF.calm).triple.mono (fun _ _ => id) (fun _ _ _ => id)
    fun _ _ _ h => ⟨h.1, h.2.1⟩) fun _ => ?_
  refine .bind (U := fun _ => Has a L F) ((runs_ensureDir hF.calm (Or.inr rfl)).triple.mono (fun _ _ => id)
    (fun _ _ _ h => ⟨h.1, h.2.1⟩) fun _ _ _ h => ⟨h.1, h.2.1⟩) fun _ => ?_
  refine .bind (safe_openPinned hF.calm (Or.inl rfl)) fun m => .imp fun hm => .of_exists fun i => .of_exists fun since => ?_
  have hbelow := Ledger.below_update hm (Open.at maintenanceLock i since)
  have ho : Function.update L m (some (Open.at maintenanceLock i since)) m = some (.at maintenanceLock i since) :=
    Function.update_self _ _ _
  refine safe_orElseDrop (Y := fun _ w => ∃ o, Closable σ L o ∧ Has a (Function.update L m (some o)) F w) ?_ fun _ =>
    .of_exists fun o => .imp fun hclosable => (sys_close hF.calm hm hclosable).triple
  have hclosable : ∀ {o : Open}, o.path = maintenanceLock → o.held = none → o.temp = none → Closable σ L o :=
    fun hp hheld htemp => closable_pinned (Or.inl hp) hheld htemp hbacked
  refine .bind (safe_flock hF.calm ho rfl (T := Upshot
    (fun _ w => Has a (Function.update L m (some (.withLock maintenanceLock i since .shared))) F w)
    (fun _ w => Has a (Function.update L m (some (.at maintenanceLock i since))) F w)) ?_ ?_ ?_) ?_
  · intro _ hσ w _ h
    have hnone : ∀ g o, w.files a g = some o → o.lock = none := by
      rw [h.1]
      exact Ledger.update_cases rfl (hordered hσ)
    exact ⟨fun g o hg hl => absurd (hnone g o hg) hl, Or.inl ⟨rfl, Or.inl hnone⟩⟩
  · intro w _ h
    rwa [Function.update_idem] at h
  · exact fun _ _ _ h _ => h
  rintro (e | ⟨⟩)
  · exact .throw fun w _ h => ⟨_, hclosable rfl rfl rfl, h⟩
  refine .bind ((safe_lockExclusive hF.calm (childOf_lockPath key.digest) ⟨m, _, Function.update_self _ _ _, rfl, rfl⟩ ?_
    ?_).mono (fun _ _ => id) (fun _ _ _ => id) fun _ w _ h => ⟨_, hclosable rfl rfl rfl, h⟩) ?_
  · exact fun hσ => ⟨(hmay hσ).1, Ledger.update_cases (fun h => by cases h) (hmay hσ).2⟩
  · intro hσ
    exact Ledger.update_cases (P := fun _ o => o.lock ≠ none → o.path = maintenanceLock ∧ o.lock = some .shared)
      (fun _ => ⟨rfl, rfl⟩) fun g o hg hl => absurd (hordered hσ g o hg) hl
  · rintro ⟨path, f⟩
    refine .pure fun w _ h => ⟨rfl, ?_⟩
    obtain ⟨rfl, hf, j, since', hw⟩ := h
    have hne : f ≠ m := by
      rintro rfl
      rw [show Function.update L f _ f = _ from Function.update_self _ _ _] at hf
      cases hf
    exact ⟨_, ⟨⟨rfl, hm, (Function.update_of_ne hne _ _).symm.trans hf, hne⟩, i, since, j, since', rfl⟩, hw⟩

lemma safe_dropLock (hF : Lasting σ a F) (hbacked : L.Backed) (hwhole : L.Whole) {lock : KeyLock} {L' : Ledger}
    (h : L.Locked lock L') {X : Error → World A V → Prop} :
    Safely σ a (Has a L' F) (lock.drop : M V Unit) (fun _ => Has a L F) X := by
  obtain ⟨key, ⟨path, f⟩, m⟩ := lock
  obtain ⟨⟨hpath, hm, hf, hne⟩, i, since, j, since', rfl⟩ := h
  dsimp only at hpath
  subst hpath
  refine .bind (runs_drop ((Function.update_of_ne hne _ _).trans hf) hF.calm hF.calm (childOf_lockPath key.digest)
    (Ledger.Whole.update hwhole m rfl) fun w w' hi hw hcall _ _ _ => hF.own hi hw.2 hcall).triple fun _ => ?_
  exact (sys_close hF.calm hm (closable_pinned (Or.inl rfl) rfl rfl hbacked)).triple

/-- A prune whose failure is put off. -/
lemma safe_deferring (h : Knows σ a F K) (hL : L.Ready σ) (hprunes : σ.Prunes a codec inner n K)
    (hn : ∀ w, F w → n ≤ w.journal.length) :
    Keeps σ a L F (do
      match ← Prog.attempt (prune codec inner .skip) with
      | .ok prune => return .pruned prune
      | .error e => return .deferred e : M V Maintenance) := by
  refine .bind (.attempt (T := fun _ => Has a L F) ((safe_prune h hL hprunes hn .skip).post
    fun _ _ _ h => ⟨h.1, h.2.1⟩)) ?_
  rintro (e | pruned)
  · exact .pure fun _ _ h => h
  · exact .pure fun _ _ h => h

lemma safe_pruneIfDue (h : Knows σ a F K) (hL : L.Ready σ) (hprunes : σ.Prunes a codec inner n K)
    (hn : ∀ w, F w → n ≤ w.journal.length) (due : Bool) :
    Keeps σ a L F (if due = true then do
        match ← Prog.attempt (prune codec inner .skip) with
        | .ok prune => return .pruned prune
        | .error e => return .deferred e
      else
        return .notNeeded : M V Maintenance) := by
  split
  · exact safe_deferring h hL hprunes hn
  · exact .pure fun _ _ h => h

lemma safe_maintain (h : Knows σ a F K) (hL : L.Ready σ) (hprunes : σ.Prunes a codec inner n K)
    (hn : ∀ w, F w → n ≤ w.journal.length) :
    Keeps σ a L F (maintain codec inner) := by
  refine .bind (.attempt (T := fun _ => Has a L F) (safe_usage h.lasting)) ?_
  rintro (e | usage)
  · exact .pure fun _ _ h => h
  have hrest := safe_pruneIfDue h hL hprunes hn
  dsimp only
  split
  · exact .bind (U := fun _ => Has a L F) (.pure fun _ _ h => h) hrest
  · exact .bind (U := fun _ => Has a L F) (safe_sweepDue h) hrest

lemma Ledger.Locked.holds {L L' : Ledger} {lock : KeyLock} (h : L.Locked lock L') : L'.Holds lock.key.digest := by
  obtain ⟨-, i, since, j, since', rfl⟩ := h
  exact ⟨_, _, Function.update_self _ _ _, rfl, rfl⟩

/-- What is known for good is known through a store. -/
lemma Lasting.stores {K : World A V → Prop} {digest : Name} {bytes : Bytes} {now : ℕ} (hK : Lasting σ a K)
    (hread : ∀ w, Inv σ w → K w → K (w.log a (.clock w.clock))) (hnow : ∀ w, K w → ⟨a, .clock now⟩ ∈ w.journal)
    (hborn : ∀ w, K w → ∀ s, σ.born bytes = some s → s = now)
    (hpermits : ∀ w path, Inv σ w → K w → σ.permits w.journal a (.renamed path (entryPath digest) bytes)) :
    Stores ((protocol σ).whole a) L digest bytes K (fun _ _ => K) (fun _ _ ms w => K w ∧ (σ.forward → now ≤ ms)) K K where
  calm := hK.calm
  calmM _ _ := hK.calm
  calmN _ _ _ := hK.calm.and (calm_const _)
  calm' := hK.calm
  calmY := hK.calm
  failed h := h
  unsynced _ _ h _ _ := h
  created hi h hcall _ _ _ _ _ _ _ := hK.own hi h hcall
  written hi h hcall _ _ _ := hK.own hi h hcall
  clock hi h := hread _ hi h
  stamped := by
    intro w w₁ w' path i hi₁ h₁ hi h hcall _
    refine ⟨hK.own hi h hcall, fun hforward => (hi₁.timely hforward).past now ?_⟩
    exact List.mem_filterMap.mpr ⟨_, hnow w₁ h₁, rfl⟩
  permits hi h := hpermits _ _ hi h.1
  born _ h hforward s hs := hborn _ h.1 s hs ▸ h.2 hforward
  renamed hi h hcall _ _ _ _ _ _ _ _ := hK.own hi h.1 hcall
  dropped hi h hcall _ _ _ _ := hK.own hi (h.elim id fun ⟨_, h⟩ => h.1) hcall

/-- A store ends without the key lock, however it ends; `K now` is what is known from the time `now` on. -/
theorem safe_store (hF : Knows σ a F K) (hread : ∀ now w, Inv σ w → K now w → K now (w.log a (.clock w.clock)))
    (hP : Knows σ a F P) (hL : L.Ready σ) (hprunes : σ.Prunes a codec inner n P) (hn : ∀ w, F w → n ≤ w.journal.length)
    {lock : KeyLock} {L' : Ledger} (h : L.Locked lock L') {value : T} {policy : Policy} (hborn : ∀ now bytes w s,
      codec.encode (.at inner lock.key now value policy) = some bytes → K now w → σ.born bytes = some s → s = now) (hpermits : ∀ now bytes w path,
      codec.encode (.at inner lock.key now value policy) = some bytes → bytes.length ≤ inner.limits.maxEntryBytes →
        Inv σ w → K now w →
        σ.permits w.journal a (.renamed path (entryPath lock.key.digest) bytes)) :
    Safely σ a (Has a L' F) (lock.store codec inner value policy) (fun _ => Has a L F) fun _ => Has a L F := by
  have hdrop : ∀ {X : Error → World A V → Prop}, Safely σ a (Has a L' F) (lock.drop : M V Unit) (fun _ => Has a L F) X :=
    safe_dropLock hF.lasting hL.backed hL.whole h
  refine .bind (safe_orElseDrop (T := fun _ => Has a L' F) (Y := fun _ => Has a L' F) ?_ fun _ => hdrop) fun written =>
    .bind hdrop fun _ => ?_
  · refine .bind (sys_now hF.lasting.calm (T := fun now => Has a L' (K now)) fun w hi hw =>
      ⟨hw.1, hF.clock w hi hw.2⟩).triple fun now => ?_
    cases hencode : codec.encode (.at inner lock.key now value policy) with
    | none => exact .throw fun _ _ hw => ⟨hw.1, hF.known _ _ hw.2⟩
    | some bytes =>
      dsimp only
      by_cases hlarge : inner.limits.maxEntryBytes < bytes.length
      · simp only [if_pos hlarge]
        exact .pure fun _ _ hw => ⟨hw.1, hF.known _ _ hw.2⟩
      · simp only [if_neg hlarge]
        refine .bind (U := fun _ => Has a L' F) ((runs_writeAtomic ((hF.later now).stores (hread now)
          (hF.recent now) (fun w hw s => hborn now bytes w s hencode hw) fun w path hi hw => hpermits now bytes w path hencode
            (Nat.not_lt.mp hlarge) hi hw) lock.key.wf h.holds).triple.mono (fun _ _ => id)
            (fun _ _ _ hw => ⟨hw.1, hF.known _ _ hw.2⟩) fun _ _ _ hw => ⟨hw.1, hF.known _ _ hw.2.1⟩) fun _ =>
              .pure fun _ _ hw => hw
  · cases written with
    | some size => exact .pure fun _ _ hw => hw
    | none => exact .bind (U := fun _ => Has a L F) (safe_maintain hP hL hprunes hn) fun _ => .pure fun _ _ hw => hw

end Unixd.Cache
