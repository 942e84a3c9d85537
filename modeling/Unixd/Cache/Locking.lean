import Unixd.Cache.Calls

/-!
# The functions of `private.rs` in triples

Each function is total in every scope, except that a blocking lock waits. What `F` says of the
rest of the world passes through, and an error without a fault has its cause in a state where `F`
held.
-/

namespace Unixd.Cache

open Unixd.Lib

set_option linter.unusedSectionVars false

variable {A V : Type} [DecidableEq A] {σ : Setting A V} {a : A} {C : (protocol σ).Scope a} {L : Ledger}
  {F : World A V → Prop} {α β : Type} {S : World A V → Prop} {T : α → World A V → Prop}
  {X Y : Error → World A V → Prop}

lemma runs_ofResult {p : M V (Except ErrorKind α)} (h : C.Runs S p (fun r w => match r with
    | .ok x => T x w
    | .error e => X (.io e) w) X) : C.Runs S (p >>= fun r => ofResult r) T X := by
  refine h.bind ?_
  rintro (e | x)
  · exact .throw fun _ _ h => h
  · exact .pure fun _ _ h => h

lemma runs_ofResult_bind {p : M V (Except ErrorKind α)} {f : α → M V β} {U : β → World A V → Prop}
    (h : C.Runs S p (fun r w => match r with
      | .ok x => T x w
      | .error e => X (.io e) w) X) (hf : ∀ x, C.Runs (T x) (f x) U X) :
    C.Runs S (p >>= fun r => ofResult r >>= f) U X := by
  refine h.bind ?_
  rintro (e | x)
  · exact .throw fun _ _ h => h
  · exact hf x

lemma runs_after {p : M V α} {drop : M V Unit} {U : α → World A V → Prop} (hp : C.Runs S p U Y)
    (hok : ∀ x, C.Runs (U x) drop (fun _ => T x) X) (herr : ∀ e, C.Runs (Y e) drop (fun _ => X e) X) :
    C.Runs S (after p drop) T X :=
  hp.handle (fun x => (hok x).bind fun _ => .pure fun _ _ h => h)
    fun e => (herr e).bind fun _ => .throw fun _ _ h => h

lemma runs_orElseDrop {p : M V α} {drop : M V Unit} (hp : C.Runs S p T Y)
    (herr : ∀ e, C.Runs (Y e) drop (fun _ => X e) X) : C.Runs S (orElseDrop drop p) T X :=
  hp.handle (fun _ => .pure fun _ _ h => h) fun e => (herr e).bind fun _ => .throw fun _ _ h => h

/-- `F` and `G` in one. -/
lemma Has.and {G : World A V → Prop} {w : World A V} (h : Has a L F w) (hG : G w) :
    Has a L (fun w => F w ∧ G w) w :=
  ⟨h.1, h.2, hG⟩

/-- Failing without a fault needs a state of the world in which `F` held and `good` did not. -/
def Blamed (σ : Setting A V) (F good : World A V → Prop) : Prop :=
  (∀ w, Inv σ w → F w → good w) → σ.faults

lemma Blamed.of_faults {F good : World A V → Prop} (h : σ.faults) : Blamed σ F good :=
  fun _ => h

lemma Blamed.of_not {F good : World A V → Prop} {w : World A V} (hi : Inv σ w) (hF : F w) (h : ¬good w) :
    Blamed σ F good :=
  fun hall => absurd (hall w hi hF) h

lemma Has.blamed {w : World A V} {good : World A V → Prop} (h : Has a L F w) (hb : Blamed σ F good) :
    Has a L (fun w => F w ∧ Blamed σ F good) w :=
  h.and hb

lemma runs_setMode (hF : Calm C L F) {path : Path} {mode : ℕ} :
    C.Runs (Has a L F) (setMode path mode) (fun _ => Has a L F)
      (fun _ => Has a L fun w => F w ∧ Blamed σ F (·.OwnDir path)) := by
  refine runs_ofResult (sys_chmod hF ?_)
  rintro w r hi h (rfl | ⟨hf, code, rfl⟩ | hnone)
  · exact h
  · exact h.and (.of_faults hf)
  · have hb : Blamed σ F (·.OwnDir path) := by
      refine .of_not hi h.2 ?_
      rintro ⟨i, hi, -⟩
      simp [hnone] at hi
    cases r with
    | ok x => exact h
    | error e => exact h.and hb

lemma lstat_ok {w : World A V} {path : Path} {metadata : Metadata} (h : w.lstat path = .ok metadata) :
    ∃ i, w.names path = some i ∧ metadata = (w.nodes i).metadata i := by
  unfold World.lstat at h
  split at h
  · cases h
  · rename_i i hname
    cases h
    exact ⟨i, hname, rfl⟩

lemma lstat_error {w : World A V} {path : Path} {e : ErrorKind} (h : w.lstat path = .error e) :
    w.names path = none ∧ e = .notFound := by
  unfold World.lstat at h
  split at h
  · cases h
    exact ⟨by assumption, rfl⟩
  · cases h

lemma runs_validateRoot (hF : Calm C L F) :
    C.Runs (Has a L F) validateRoot (fun _ => Has a L F)
      (fun _ => Has a L fun w => F w ∧ Blamed σ F (·.OwnDir root)) := by
  refine .bind (sys_lstat hF (T := Upshot (fun metadata => Has a L fun w => F w ∧
        (metadata.kind ≠ .dir ∨ ¬metadata.owned → Blamed σ F (·.OwnDir root)))
    (fun _ => Has a L fun w => F w ∧ Blamed σ F (·.OwnDir root))) ?_) ?_
  · rintro w r hi h (rfl | ⟨hf, code, rfl⟩)
    · cases hl : w.lstat root with
      | error e =>
        refine h.and (.of_not hi h.2 ?_)
        rintro ⟨i, hname, -⟩
        simp [(lstat_error hl).1] at hname
      | ok metadata =>
        obtain ⟨i, hname, rfl⟩ := lstat_ok hl
        refine h.and fun hbad => .of_not hi h.2 ?_
        rintro ⟨j, hj, hkind, howned⟩
        rw [hname, Option.some_inj] at hj
        subst hj
        simp [Node.metadata, hkind, howned] at hbad
    · exact h.and (.of_faults hf)
  · rintro (e | metadata)
    · exact .throw fun _ _ h => h
    · by_cases hbad : metadata.kind ≠ .dir ∨ ¬metadata.owned
      · simp only [if_pos hbad]
        exact .throw fun _ _ h => ⟨h.1, h.2.1, h.2.2 hbad⟩
      · simp only [if_neg hbad]
        exact (runs_setMode hF).pre fun w _ h => ⟨h.1, h.2.1⟩

/-- The name at the top of the root stays. -/
lemma calm_named {path : Path} (hp : path.length = 1) : Calm C L fun w => w.names path ≠ none := by
  refine .of_other ?_ ?_
  · intro w w' hi _ hname hother
    rcases hother.changed hi path with heq | ⟨b, -, hchanged⟩
    · rwa [heq]
    · exact absurd (hchanged.not_top hi.toCore hp) hname
  · intro w w' hi _ hname hn
    rwa [hn.names path hname]

/-- At most the second turn of the loop finds the directory. -/
lemma runs_ensureDir (hF : Calm C L F) {path : Path} (hpath : path = entries ∨ path = locks) :
    C.Runs (Has a L F) (ensureDir path) (fun _ => Has a L fun w => F w ∧ w.OwnDir path)
      (fun _ => Has a L fun w => F w ∧ Blamed σ F (·.OwnDir path)) := by
  have hlen : path.length = 1 := by
    rcases hpath with rfl | rfl <;> rfl
  have hok : ∀ {G : World A V → Prop}, Calm C L G → (∀ w, G w → F w ∧ w.OwnDir path) →
      C.Runs (Has a L G) (do
        setMode path 0o700
        return .inr ()) (fun (r : Unit ⊕ Unit) w => r = .inr () ∧ Has a L (fun w => F w ∧ w.OwnDir path) w)
        fun _ => Has a L fun w => F w ∧ Blamed σ F (·.OwnDir path) := by
    intro G hG hGF
    refine .bind ((runs_setMode hG).mono (fun _ _ => id) (fun _ _ _ => id) ?_) fun _ => .pure ?_
    · intro _ w _ h
      refine ⟨h.1, (hGF w h.2.1).1, fun _ => h.2.2 fun w _ hw => (hGF w hw).2⟩
    · exact fun w _ h => ⟨rfl, h.1, hGF w h.2⟩
  unfold ensureDir
  refine .pre (.iterate (J := fun n _ => Has a L fun w => F w ∧ (n = 0 → w.names path ≠ none)) ?_ 1 ())
    fun w _ h => h.and (by simp)
  intro n _
  have hJ : Calm C L fun w => F w ∧ (n = 0 → w.names path ≠ none) := hF.and (calm_named hlen).of_imp
  refine .bind (sys_lstat hJ (T := Upshot (fun metadata => Has a L fun w => F w ∧
        if metadata.kind = .dir ∧ metadata.owned then w.OwnDir path else Blamed σ F (·.OwnDir path))
    (fun e => Has a L fun w => (F w ∧ Blamed σ F (·.OwnDir path)) ∧ (e = .notFound → n ≠ 0))) ?_) ?_
  · rintro w r hi ⟨hfiles, hFw, hseen⟩ (rfl | ⟨hf, code, rfl⟩)
    · cases hl : w.lstat path with
      | ok metadata =>
        obtain ⟨i, hname, rfl⟩ := lstat_ok hl
        refine ⟨hfiles, hFw, ?_⟩
        split
        · rename_i hdir
          exact ⟨i, hname, hdir.1, by simpa [Node.metadata] using hdir.2⟩
        · rename_i hdir
          refine .of_not hi hFw ?_
          rintro ⟨j, hj, hkind, howned⟩
          rw [hname, Option.some_inj] at hj
          subst hj
          exact hdir ⟨hkind, howned⟩
      | error e =>
        obtain ⟨hnone, rfl⟩ := lstat_error hl
        refine ⟨hfiles, ⟨hFw, .of_not hi hFw ?_⟩, fun _ hn => hseen hn hnone⟩
        rintro ⟨i, hname, -⟩
        simp [hnone] at hname
    · exact ⟨hfiles, ⟨hFw, .of_faults hf⟩, by simp⟩
  · rintro (e | metadata)
    · cases e with
      | notFound =>
        refine .bind (sys_mkdir ((hF.and (calm_const _)).and (calm_const _)) (T := Upshot
          (fun _ => Has a L fun w => F w ∧ w.OwnDir path)
          (fun e => Has a L fun w => (F w ∧ Blamed σ F (·.OwnDir path)) ∧
              (e = .alreadyExists → n ≠ 0 ∧ w.names path ≠ none))) hpath ?_ ?_) ?_
        · exact fun w _ h hdir => ⟨h.1, h.2.1.1, hdir⟩
        · rintro w e _ ⟨hfiles, hFw, hn⟩ (⟨-, code, ⟨⟩⟩ | ⟨rfl, hname⟩ | ⟨rfl, -⟩)
          · exact ⟨hfiles, hFw, by simp⟩
          · exact ⟨hfiles, hFw, fun _ => ⟨hn rfl, hname⟩⟩
          · exact ⟨hfiles, hFw, by simp⟩
        · rintro (e | ⟨⟩)
          · cases e with
            | alreadyExists =>
              refine .pure ?_
              rintro w _ ⟨hfiles, ⟨hFw, -⟩, hn⟩
              obtain ⟨hn, hname⟩ := hn rfl
              exact ⟨0, Nat.pos_of_ne_zero hn, hfiles, hFw, fun _ => hname⟩
            | _ => exact .throw fun w _ h => ⟨h.1, h.2.1⟩
          · exact (hok (hF.and (calm_ownDir hlen)) fun _ h => h).post (by rintro _ w _ ⟨rfl, h⟩; exact h)
      | _ => exact .throw fun w _ h => ⟨h.1, h.2.1⟩
    · by_cases hdir : metadata.kind = .dir ∧ metadata.owned
      · simp only [Upshot, if_pos hdir]
        exact (hok (hF.and (calm_ownDir hlen)) fun _ h => h).post (by rintro _ w _ ⟨rfl, h⟩; exact h)
      · simp only [Upshot, if_neg hdir]
        exact .throw fun _ _ h => h

/-- A lock file can be opened at `path`. -/
def World.Lockable (w : World A V) (path : Path) : Prop :=
  (∀ i, w.names path = some i → (w.nodes i).kind = .file ∧ (w.nodes i).owned = true) ∧
    (w.names path = none → w.IsDir path.dropLast)

lemma Inv.lockable {w : World A V} (hi : Inv σ w) (hclean : σ.clean) {path : Path} (hchild : ChildOf locks path) :
    w.Lockable path := by
  have ht := hi.tidy hclean
  refine ⟨fun i hname => ht.regular hchild hname, fun _ => ?_⟩
  obtain ⟨name, rfl⟩ := hchild
  obtain ⟨i, hname, hkind, -⟩ := ht.locksDir
  exact ⟨i, by rwa [List.dropLast_concat], hkind⟩

/-- Where lock files can be accounted for, they can be opened. -/
lemma Blamed.not_clean {path : Path} (hb : Blamed σ F (·.Lockable path)) (hchild : ChildOf locks path) : ¬σ.clean :=
  fun hclean => hclean.2 (hb fun _ hi _ => hi.lockable hclean hchild)

/-- `G` is what is known of the inode that the path named when it was opened. -/
lemma runs_openLock (hF : Calm C L F) {path : Path} {G : ℕ → World A V → Prop}
    (hallowed : ∀ w, Inv σ w → Has a L F w → Allowed σ a (.openLock path) w) (hG : ∀ i, Calm C L (G i))
    (hFG : ∀ w i, Inv σ w → F w → w.names path = some i → G i w) (hGF : ∀ i w, G i w → F w) :
    C.Runs (Has a L F) (openLock path)
      (fun f w => L f = none ∧ ∃ i since, Has a (Function.update L f (some (.at path i since))) (G i) w)
      (fun _ => Has a L fun w => F w ∧ Blamed σ F (·.Lockable path)) := by
  refine .bind (sys_openLock hF (T := Upshot
    (fun f w => L f = none ∧ ∃ i since node, (node.kind = .file ∧ (node.owned = true ∨ Blamed σ F (·.Lockable path))) ∧
        Has a (Function.update L f (some (.at path i since))) (fun w => G i w ∧ w.Keeps i node) w)
    (fun _ w => Has a L (fun w => F w ∧ Blamed σ F (·.Lockable path)) w)) hallowed ?_ ?_) ?_
  · intro w f i since hi hnew h hname hkind
    refine ⟨hnew, i, since, w.nodes i, ⟨hkind, ?_⟩, h.1, hFG w i hi h.2 hname, rfl, rfl, rfl⟩
    by_cases howned : (w.nodes i).owned = true
    · exact Or.inl howned
    · exact Or.inr (.of_not hi h.2 fun hgood => howned (hgood.1 i hname).2)
  · rintro w e hi h (hf | ⟨i, hname, hkind⟩ | ⟨hname, hdir⟩)
    · exact h.and (.of_faults hf)
    · exact h.and (.of_not hi h.2 fun hgood => hkind (hgood.1 i hname).1)
    · exact h.and (.of_not hi h.2 fun hgood => hdir (hgood.2 hname))
  · rintro (e | f)
    · have hFb : Calm C L fun w => F w ∧ Blamed σ F (·.Lockable path) := hF.and (calm_const _)
      refine .bind (sys_lstat hFb fun w r _ h _ => h) ?_
      rintro (e' | metadata)
      · exact .throw fun _ _ h => h
      · dsimp only
        split
        · exact .throw fun _ _ h => h
        · exact .throw fun _ _ h => h
    · refine .imp fun hnew => .of_exists fun i => .of_exists fun since => .of_exists fun node => .imp fun hnode => ?_
      have ho : Function.update L f (some (Open.at path i since)) f = some (.at path i since) := by simp
      have hbelow := Ledger.below_update hnew (Open.at path i since)
      have hGi : Calm C (Function.update L f (some (.at path i since))) fun w => G i w ∧ w.Keeps i node :=
        ((hG i).below hbelow).and (calm_keeps ho node)
      refine runs_orElseDrop (Y := fun _ => Has a (Function.update L f (some (.at path i since)))
        fun w => F w ∧ Blamed σ F (·.Lockable path)) ?_ fun _ => ?_
      · refine runs_ofResult_bind (T := fun metadata w => (metadata.kind = .file ∧ metadata.owned = node.owned) ∧
          Has a (Function.update L f (some (.at path i since))) (G i) w) (sys_fstat hGi ho ?_) fun metadata => .imp ?_
        · rintro w r _ h (rfl | ⟨hf, code, rfl⟩)
          · exact ⟨⟨h.2.2.1.trans hnode.1, h.2.2.2.1⟩, h.1, h.2.1⟩
          · exact ⟨h.1, hGF i w h.2.1, .of_faults hf⟩
        · rintro ⟨hkind, howned⟩
          by_cases hbad : metadata.kind ≠ .file ∨ ¬metadata.owned
          · simp only [if_pos hbad]
            refine .throw fun w _ h => ⟨h.1, hGF i w h.2, ?_⟩
            refine hnode.2.resolve_left fun hyes => ?_
            simp [hkind, howned, hyes] at hbad
          · simp only [if_neg hbad]
            refine runs_ofResult_bind (T := fun _ => Has a (Function.update L f (some (.at path i since))) (G i))
              (sys_fchmod ((hG i).below hbelow) ho ?_) fun _ => .pure fun w _ h => ⟨hnew, i, since, h⟩
            rintro w r _ h (rfl | ⟨hf, code, rfl⟩)
            · exact h
            · exact ⟨h.1, hGF i w h.2, .of_faults hf⟩
      · refine .pre (S := fun w => Blamed σ F (·.Lockable path) ∧
          Has a (Function.update L f (some (.at path i since))) (fun w => F w ∧ Blamed σ F (·.Lockable path)) w)
            (.imp fun hb => ?_) fun w _ h => ⟨h.2.2, h⟩
        exact sys_close (hF.and (calm_const _)) hnew ⟨rfl, rfl, by simp [Open.at], fun hclean hchild =>
          hb.not_clean hchild hclean⟩

/-- Whether a path still names the inode of an open file. -/
lemma runs_names (hF : Calm C L F) {path : Path} {f : ℕ} {o : Open} (ho : L f = some o) :
    C.Runs (Has a L F) (names path f) (fun named w => Has a L F w ∧ (named = true ↔ w.names path = some o.ino))
      (fun _ => Has a L fun w => F w ∧ σ.faults) := by
  refine runs_ofResult_bind (T := fun metadata w => metadata.ino = o.ino ∧ Has a L F w) (sys_fstat hF ho ?_)
    fun metadata => .imp fun hino => ?_
  · rintro w r _ h (rfl | ⟨hf, code, rfl⟩)
    · exact ⟨rfl, h⟩
    · exact h.and hf
  · refine .bind (sys_lstat hF (T := fun r => Has a L fun w => F w ∧ (r = w.lstat path ∨ Fault σ r)) ?_) ?_
    · exact fun w r _ h hr => h.and hr
    · rintro (e | named)
      · cases e with
        | notFound =>
          refine .pure ?_
          rintro w _ ⟨hfiles, hFw, hr | ⟨-, code, ⟨⟩⟩⟩
          refine ⟨⟨hfiles, hFw⟩, ?_⟩
          simp [(lstat_error hr.symm).1]
        | _ =>
          refine .throw ?_
          rintro w _ ⟨hfiles, hFw, hr | ⟨hf, -⟩⟩
          · cases (lstat_error hr.symm).2
          · exact ⟨hfiles, hFw, hf⟩
      · refine .pure ?_
        rintro w _ ⟨hfiles, hFw, hr | ⟨-, code, ⟨⟩⟩⟩
        obtain ⟨i, hname, rfl⟩ := lstat_ok hr.symm
        refine ⟨⟨hfiles, hFw⟩, ?_⟩
        simp [hino, hname, Node.metadata]

/-- What an agent needs before it may hold a lock. -/
def MayHold (σ : Setting A V) (a : A) (L : Ledger) (F : World A V → Prop) : HeldBy → Prop
  | .key => σ.once → (∀ w, F w → ¬w.Released a) ∧ ∀ g o, L g = some o → o.held ≠ some .key
  | .prune => L.Prunes

/-- The open file `f` of `a` is not what its path names. -/
def World.Misnamed (w : World A V) (a : A) (f : ℕ) (o : Open) : Prop :=
  w.files a f = some o ∧ (σ.clean → ChildOf locks o.path → w.names o.path ≠ some o.ino)

lemma stable_misnamed {f : ℕ} {o : Open} : C.Stable fun w => w.Misnamed (σ := σ) a f o :=
  stable_of_other fun hi h ho => ⟨(congrFun ho.files f).trans h.1, fun hclean hchild =>
    ho.misnamed hi h.1 hchild (h.2 hclean hchild)⟩

/-- Somebody else sees to the file of the open file `f` of `a`. -/
def World.Blocked (w : World A V) (a : A) (f : ℕ) (o : Open) : Prop :=
  w.files a f = some o ∧ (σ.clean → ChildOf locks o.path →
    w.names o.path ≠ some o.ino ∨ w.Locked a f o ∨ w.DiedSince o.since)

lemma stable_blocked {f : ℕ} {o : Open} : C.Stable fun w => w.Blocked (σ := σ) a f o :=
  stable_of_other fun hi h ho => ⟨(congrFun ho.files f).trans h.1, fun hclean hchild =>
    ho.blocked hi hclean h.1 hchild (h.2 hclean hchild)⟩

/-- A lock that was not to be had is another's. -/
lemma World.Conflict.blocked {w : World A V} {path : Path} {f i since : ℕ} (hi : Inv σ w)
    (ho : w.files a f = some (.at path i since)) (h : w.Conflict a f i .exclusive) :
    w.Blocked (σ := σ) a f (.at path i since) := by
  refine ⟨ho, fun hclean hchild => Or.inr (Or.inl ?_)⟩
  obtain ⟨b, g, o', hne, ho', hino, hl⟩ := h
  refine ⟨b, g, o', hne, ho', ?_, hino, ?_⟩
  · exact ((hi.single hclean.1.1).file ho (.of_child hchild)).2 b g o' ho' hino
  · rcases hl with hl | ⟨-, hl⟩
    · simp [hl]
    · simp [hl]

lemma ChildOf.not_pinned {path : Path} (hchild : ChildOf locks path) {p : Prop} :
    path = maintenanceLock ∨ path = pruneLock → p := by
  rintro (rfl | rfl)
  · exact absurd rfl (hchild.ne (by decide))
  · exact absurd rfl (hchild.ne (by decide))

/-- The end of both ways to lock: a path that still names the locked inode is held. -/
lemma runs_holdIfNamed {G E : World A V → Prop} (hG : Calm C L G) (hE : Calm C L E) {path : Path} {f i since : ℕ}
    {by' : HeldBy} {yes no : β} (hnew : L f = none) (hchild : ChildOf locks path) (hshares : L.Shares)
    (hmay : MayHold σ a L G by') (hmissed : ∀ w, Inv σ w → G w → w.names path ≠ some i → E w) :
    C.Runs (Has a (Function.update L f (some (.locked path i since))) G) (do
        if ← names path f then
          Sys.hold f by'
          return yes
        else
          Sys.close f
          return no)
      (fun r w => r = yes ∧ Has a (Function.update L f (some (.holding path i since by'))) G w ∨ r = no ∧ Has a L E w)
      (fun _ => Has a (Function.update L f (some (.locked path i since))) fun w => G w ∧ σ.faults) := by
  have ho : Function.update L f (some (Open.locked path i since)) f = some (.locked path i since) := by simp
  have hbelow := Ledger.below_update hnew (Open.locked path i since)
  have hG' := hG.below hbelow
  refine .bind (runs_names hG' ho) fun named => ?_
  cases named with
  | true =>
    obtain ⟨g, m, hm, hmp, hml⟩ := hshares
    have hnamed : Calm C (Function.update L f (some (.locked path i since))) fun w =>
        G w ∧ w.names path = some i :=
      hG'.and (calm_locked ho rfl hchild (hbelow g m hm) hmp hml)
    refine .bind (.pre (sys_hold hnamed ho ?_ (T := fun _ =>
      Has a (Function.update L f (some (.holding path i since by'))) G) ?_) ?_) fun _ => ?_
    · intro w _ h
      refine ⟨h.shares ⟨g, m, hbelow g m hm, hmp, hml⟩, ?_, ?_, ?_⟩
      · rintro rfl
        exact h.prunes (Ledger.Prunes.below hmay hbelow)
      · rintro rfl hσ
        refine ⟨(hmay hσ).1 w h.2.1, fun k o hk => ?_⟩
        rw [h.1] at hk
        by_cases hkf : k = f
        · subst hkf
          rw [Function.update_self, Option.some_inj] at hk
          simp [← hk, Open.locked, Open.at]
        · rw [Function.update_of_ne hkf] at hk
          exact (hmay hσ).2 k o hk
      · intro o hf
        rw [h.lookup ho, Option.some_inj] at hf
        subst hf
        exact ⟨rfl, rfl, hchild, h.2.2⟩
    · rintro w _ ⟨hfiles, hGw, -⟩
      refine ⟨?_, hGw⟩
      rw [hfiles, Function.update_idem]
      rfl
    · exact fun w _ h => h.1.and (h.2.mp rfl)
    · exact .pure fun _ _ h => Or.inl ⟨rfl, h⟩
  | false =>
    refine .pre (S := fun w => Has a (Function.update L f (some (.locked path i since))) E w ∧
      w.Misnamed (σ := σ) a f (.locked path i since)) ?_ ?_
    · refine .bind (sys_closeOf (stable_and (hE.below hbelow).stable stable_misnamed) hE hnew rfl rfl
        hchild.not_pinned (fun w _ h => h.1) ?_) fun _ => .pure fun _ _ h => Or.inr ⟨rfl, h⟩
      exact fun w _ h hclean hc => Or.inl (h.2.2 hclean hc)
    · rintro w hi ⟨h, hnamed⟩
      have hname : w.names path ≠ some i := fun hname => by simpa using hnamed.mpr hname
      exact ⟨⟨h.1, hmissed w hi h.2 hname⟩, h.lookup ho, fun _ _ => hname⟩

/-- `G i` is known of the inode `i` that was opened, and `E` where the lock was not to be had. -/
lemma runs_tryLockExclusive (hF : Calm C L F) {path : Path} {G : ℕ → World A V → Prop} {E : World A V → Prop}
    (hchild : ChildOf locks path) (hshares : L.Shares) (hprunes : L.Prunes) (hG : ∀ i, Calm C L (G i))
    (hFG : ∀ w i, Inv σ w → F w → w.names path = some i → G i w) (hGF : ∀ i w, G i w → F w) (hE : Calm C L E)
    (hconflict : ∀ w f i, Inv σ w → G i w → L f = none → w.Conflict a f i .exclusive → E w)
    (hmissed : ∀ w i, Inv σ w → G i w → w.names path ≠ some i → E w) :
    C.Runs (Has a L F) (tryLockExclusive path) (fun r w => match r with
        | none => Has a L E w
        | some held => held.path = path ∧ L held.file = none ∧
            ∃ i since, Has a (Function.update L held.file (some (.holding path i since .prune))) (G i) w)
      (fun _ => Has a L fun w => F w ∧ Blamed σ F (·.Lockable path)) := by
  refine .bind (runs_openLock hF ?_ hG hFG hGF) fun f => .imp fun hnew => .of_exists fun i => .of_exists fun since => ?_
  · exact fun w _ h => Or.inr (Or.inr ⟨hchild, fun _ => Or.inr (h.prunes hprunes)⟩)
  have ho : Function.update L f (some (Open.at path i since)) f = some (.at path i since) := by simp
  have hbelow := Ledger.below_update hnew (Open.at path i since)
  have hclosable : σ.faults → Closable σ L (.at path i since) ∧ Closable σ L (.locked path i since) :=
    fun hf => ⟨⟨rfl, rfl, hchild.not_pinned, fun hclean => absurd hf hclean.2⟩,
      rfl, rfl, hchild.not_pinned, fun hclean => absurd hf hclean.2⟩
  refine runs_orElseDrop (Y := fun _ w => ∃ o, Closable σ L o ∧ Has a (Function.update L f (some o))
    (fun w => F w ∧ Blamed σ F (·.Lockable path)) w) ?_ fun _ => ?_
  · refine .bind (sys_tryLock ((hG i).below hbelow) ho rfl (T := Upshot
      (fun _ w => Has a (Function.update L f (some (.locked path i since))) (G i) w)
      (fun e w => (e ≠ .wouldBlock → σ.faults) ∧ Has a (Function.update L f (some (.at path i since))) (G i) w ∧
          (e = .wouldBlock → E w ∧ w.Blocked (σ := σ) a f (.at path i since)))) ?_ ?_) ?_
    · intro w _ h
      rwa [Function.update_idem] at h
    · rintro w e hi h (⟨hf, code, ⟨⟩⟩ | ⟨rfl, hc⟩)
      · exact ⟨fun _ => hf, h, by simp⟩
      · exact ⟨by simp, h, fun _ => ⟨hconflict w f i hi h.2 hnew hc, hc.blocked hi (h.lookup ho)⟩⟩
    · rintro (e | ⟨⟩)
      · refine .imp fun hfaults => ?_
        cases e with
        | wouldBlock =>
          refine .bind (.pre (sys_closeOf (S := fun w => Has a (Function.update L f (some (.at path i since))) E w ∧
            w.Blocked (σ := σ) a f (.at path i since)) (stable_and (hE.below hbelow).stable stable_blocked) hE hnew rfl
              rfl hchild.not_pinned (fun w _ h => h.1) ?_) fun w _ h => ⟨⟨h.1.1, (h.2 rfl).1⟩, (h.2 rfl).2⟩) fun _ =>
                .pure fun w _ h => h
          exact fun w _ h hclean hc => (h.2.2 hclean hc).imp_right fun hb => ⟨rfl, hb⟩
        | _ =>
          exact .throw fun w _ h => ⟨_, (hclosable (hfaults (by simp))).1, h.1.1, hGF i w h.1.2,
            .of_faults (hfaults (by simp))⟩
      · refine (@runs_holdIfNamed _ _ _ _ _ _ _ _ _ _ (hG i) hE _ _ _ _ .prune _ _ hnew hchild hshares hprunes
          fun w hi h hne => hmissed w i hi h hne).mono (fun _ _ => id) ?_ ?_
        · rintro r w _ (⟨rfl, h⟩ | ⟨rfl, h⟩)
          · exact ⟨rfl, hnew, i, since, h⟩
          · exact h
        · exact fun _ w _ h => ⟨_, (hclosable h.2.2).2, h.1, hGF i w h.2.1, .of_faults h.2.2⟩
  · refine .of_exists fun o => .imp fun hclose => ?_
    exact sys_close (hF.and (calm_const _)) hnew hclose

/-- Dropping a `Held` leaves what `F'` says of a world without the lock file. -/
lemma runs_drop {path : Path} {f i since : ℕ} {by' : HeldBy} {F' : World A V → Prop} (hnew : L f = none)
    (hF : Calm C (Function.update L f (some (.holding path i since by'))) F) (hF' : Calm C L F')
    (hchild : ChildOf locks path) (htemp : ∀ g o, L g = some o → o.temp = none)
    (hdrop : ∀ w w', Inv σ w → Has a (Function.update L f (some (.holding path i since by'))) F w →
      Called σ a w w' → Aside w w' → Inv σ w' → (σ.clean → w'.names path ≠ some i) → F' w') :
    C.Runs (Has a (Function.update L f (some (.holding path i since by'))) F) (Held.drop ⟨path, f⟩)
      (fun _ => Has a L F') X := by
  have ho : Function.update L f (some (Open.holding path i since by')) f = some (.holding path i since by') := by simp
  have ho' : Function.update L f (some (Open.locked path i since)) f = some (.locked path i since) := by simp
  have hallowed : ∀ w, Inv σ w → Has a (Function.update L f (some (.holding path i since by'))) F w →
      Allowed σ a (.release f) w := by
    intro w _ h g o hg
    rw [h.1] at hg
    by_cases hgf : g = f
    · subst hgf
      rw [Function.update_self, Option.some_inj] at hg
      rw [← hg]
      rfl
    · rw [Function.update_of_ne hgf] at hg
      exact htemp g o hg
  refine .bind (T := fun _ => Has a L F') (U := fun _ w => Has a (Function.update L f (some (.locked path i since))) F' w ∧
    w.Misnamed (σ := σ) a f (.locked path i since)) (sys_call hF hallowed ?_ ?_) fun _ => ?_
  · exact fun w _ h => ⟨_, _, .release (h.lookup ho) rfl⟩
  · intro w r w' hi h hi' hsem
    have hcalled : Called σ a w w' := ⟨_, r, by simp [Op.Plain], hallowed w hi h, hsem⟩
    have hfiles : Function.update (w.files a) f (some (Open.locked path i since)) =
        Function.update L f (some (.locked path i since)) := by
      rw [h.1, Function.update_idem]
    have hafter : w'.files a = Function.update (w.files a) f (some (.locked path i since)) → Aside w w' →
        (σ.clean → w'.names path ≠ some i) →
        Has a (Function.update L f (some (.locked path i since))) F' w' ∧
          w'.Misnamed (σ := σ) a f (.locked path i since) := by
      intro hw' haside hname
      have hhas : Has a (Function.update L f (some (.locked path i since))) F' w' :=
        ⟨by rw [hw', hfiles], hdrop w w' hi h hcalled haside hi' hname⟩
      exact ⟨hhas, hhas.lookup ho', fun hclean _ => hname hclean⟩
    cases hsem with
    | fault hf hr => exact hr.elim
    | release ho₁ held =>
      rw [h.lookup ho, Option.some_inj] at ho₁
      subst ho₁
      refine hafter (World.files_setFile_self _ _ _ _) ⟨fun p _ hp => ?_, rfl⟩ fun _ => by simp [Open.holding, Open.at]
      refine Function.update_of_ne ?_ _ _
      rintro rfl
      exact hp hchild
    | releaseFails ho₁ held why =>
      rw [h.lookup ho, Option.some_inj] at ho₁
      subst ho₁
      refine hafter (World.files_setFile_self _ _ _ _) ⟨fun _ _ _ => rfl, rfl⟩ fun hclean => ?_
      rcases why with hf | ⟨j, hj, hkind⟩
      · exact absurd ⟨_, hf⟩ hclean.2
      · rw [((hi.tidy hclean).regular hchild hj).1] at hkind
        cases hkind
  · refine sys_closeOf (stable_and (hF'.below (Ledger.below_update hnew _)).stable stable_misnamed) hF' hnew rfl rfl
      hchild.not_pinned (fun w _ h => h.1) ?_
    exact fun w _ h hclean hc => Or.inl (h.2.2 hclean hc)

section

variable {L : Ledger} {F : World A V → Prop} {X Y : Error → World A V → Prop}

lemma safe_orElseDrop {p : M V α} {drop : M V Unit} (hp : (protocol σ).Triple a S p T Y)
    (herr : ∀ e, (protocol σ).Triple a (Y e) drop (fun _ => X e) X) :
    (protocol σ).Triple a S (orElseDrop drop p) T X :=
  hp.handle (fun _ => .pure fun _ _ h => h) fun e => (herr e).bind fun _ => .throw fun _ _ h => h

lemma safe_after {p : M V α} {drop : M V Unit} {U : α → World A V → Prop} (hp : (protocol σ).Triple a S p U Y)
    (hok : ∀ x, (protocol σ).Triple a (U x) drop (fun _ => T x) X)
    (herr : ∀ e, (protocol σ).Triple a (Y e) drop (fun _ => X e) X) : (protocol σ).Triple a S (after p drop) T X :=
  hp.handle (fun x => (hok x).bind fun _ => .pure fun _ _ h => h)
    fun e => (herr e).bind fun _ => .throw fun _ _ h => h

lemma safe_ofResult_bind {S : World A V → Prop} {T : α → World A V → Prop} {U : β → World A V → Prop}
    {p : M V (Except ErrorKind α)} {f : α → M V β} (h : (protocol σ).Triple a S p (fun r w => match r with
      | .ok x => T x w
      | .error e => X (.io e) w) X) (hf : ∀ x, (protocol σ).Triple a (T x) (f x) U X) :
    (protocol σ).Triple a S (p >>= fun r => ofResult r >>= f) U X := by
  refine h.bind ?_
  rintro (e | x)
  · exact .throw fun _ _ h => h
  · exact hf x

/-- A lock that waits, or not. -/
lemma safe_flock (hF : Calm ((protocol σ).whole a) L F) {f : ℕ} {mode : LockMode} {wait : Bool} {o : Open}
    (ho : L f = some o) (hlock : o.lock = none) {T : Except ErrorKind Unit → World A V → Prop}
    (hwait : wait = true → σ.ordered → ∀ w, Inv σ w → Has a L F w → w.MayWait a o.path mode)
    (hok : ∀ w, Inv σ w → Has a (Function.update L f (some { o with lock := some mode })) F w → T (.ok ()) w)
    (herr : ∀ w e, Inv σ w → Has a L F w → (σ.faults ∨ wait = false) → T (.error e) w) :
    (protocol σ).Triple a (Has a L F) (Sys.flock f mode wait) T X := by
  have hallowed : ∀ w, Inv σ w → Has a L F w → Allowed σ a (.flock f mode wait) w := by
    intro w hi h o' ho'
    rw [h.lookup ho, Option.some_inj] at ho'
    subst ho'
    exact ⟨hlock, fun hw hσ => hwait hw hσ w hi h⟩
  refine .op hF.stable.step hallowed ?_
  · intro w r w' hi h hi' hsem
    have hF' : F w' := by
      refine hF.own hi ?_ h.2 ⟨_, r, Or.inl trivial, hallowed w hi h, hsem⟩
      rw [h.1]
      exact Ledger.Below.refl L
    cases hsem with
    | fault hf hr =>
      obtain ⟨code, rfl⟩ := hr
      exact herr _ _ hi' ⟨h.1, hF'⟩ (Or.inl ⟨_, hf⟩)
    | flock ho' free =>
      rw [h.lookup ho, Option.some_inj] at ho'
      subst ho'
      exact hok _ hi' (h.setFile hF')
    | wouldBlock ho' held => exact herr w _ hi h (Or.inr rfl)

/-- A ledger whose only locks are shared maintenance locks. -/
def Ledger.Light (L : Ledger) : Prop :=
  ∀ g o, L g = some o → o.lock ≠ none → o.path = maintenanceLock ∧ o.lock = some .shared

lemma safe_lockExclusive (hF : Calm ((protocol σ).whole a) L F) {path : Path} (hchild : ChildOf locks path)
    (hshares : L.Shares) (hmay : MayHold σ a L F .key) (hlight : σ.ordered → L.Light) :
    (protocol σ).Triple a (Has a L F) (lockExclusive path) (fun held w => held.path = path ∧ L held.file = none ∧
        ∃ i since, Has a (Function.update L held.file (some (.holding path i since .key))) F w)
      (fun _ => Has a L F) := by
  refine Protocol.Triple.iterate (J := fun _ => Has a L F) (fun _ => ?_) ()
  refine .bind (((runs_openLock (G := fun _ => F) hF ?_ (fun _ => hF) (fun _ _ _ h _ => h) (fun _ _ h => h)).triple.mono
    (fun _ _ => id) (fun _ _ _ => id) fun _ _ _ h => ⟨h.1, h.2.1⟩)) fun f => .imp fun hnew => .of_exists fun i =>
      .of_exists fun since => ?_
  · exact fun w _ h => Or.inr (Or.inr ⟨hchild, fun hσ => Or.inl ((hmay hσ).1 w h.2)⟩)
  have ho : Function.update L f (some (Open.at path i since)) f = some (.at path i since) := by simp
  have hbelow := Ledger.below_update hnew (Open.at path i since)
  have hclosable : σ.faults → Closable σ L (.at path i since) ∧ Closable σ L (.locked path i since) :=
    fun hf => ⟨⟨rfl, rfl, hchild.not_pinned, fun hclean => absurd hf hclean.2⟩,
      rfl, rfl, hchild.not_pinned, fun hclean => absurd hf hclean.2⟩
  refine safe_orElseDrop (Y := fun _ w => ∃ o, Closable σ L o ∧ Has a (Function.update L f (some o)) F w) ?_ fun _ => ?_
  · refine .bind (safe_flock (hF.below hbelow) ho rfl (T := Upshot
      (fun _ w => Has a (Function.update L f (some (.locked path i since))) F w)
      (fun _ w => σ.faults ∧ Has a (Function.update L f (some (.at path i since))) F w)) ?_ ?_ ?_) ?_
    · intro _ hσ w _ h
      have hall : ∀ g o, w.files a g = some o → o.lock ≠ none → o.path = maintenanceLock ∧ o.lock = some .shared := by
        intro g o hg hl
        rw [h.1] at hg
        by_cases hgf : g = f
        · subst hgf
          rw [Function.update_self, Option.some_inj] at hg
          exact absurd (by rw [← hg]; rfl) hl
        · rw [Function.update_of_ne hgf] at hg
          exact hlight hσ g o hg hl
      refine ⟨fun g o hg hl => ?_, Or.inr (Or.inr ⟨hchild, hall⟩)⟩
      rw [(hall g o hg hl).1]
      decide
    · intro w _ h
      rwa [Function.update_idem] at h
    · rintro w e _ h (hf | hw)
      · exact ⟨hf, h⟩
      · cases hw
    · rintro (e | ⟨⟩)
      · exact .throw fun w _ h => ⟨_, (hclosable h.1).1, h.2⟩
      · refine (runs_holdIfNamed hF hF hnew hchild hshares hmay fun _ _ h _ => h).triple.mono (fun _ _ => id) ?_ ?_
        · rintro r w _ (⟨rfl, h⟩ | ⟨rfl, h⟩)
          · exact ⟨rfl, hnew, i, since, h⟩
          · exact h
        · exact fun _ w _ h => ⟨_, (hclosable h.2.2).2, h.1, h.2.1⟩
  · refine .of_exists fun o => .imp fun hclose => ?_
    exact (sys_close hF hnew hclose).triple

end

end Unixd.Cache
