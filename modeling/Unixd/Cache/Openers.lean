import Unixd.Cache.Opened
import Unixd.Cache.Opening
import Unixd.Lib.Fair

/-!
# Any number of callers open one root

Whatever the others have made meanwhile, each call of a caller finds what it needs or makes it, and what it has seen to
stays so: every call returns, and the root is then complete.
-/

namespace Unixd.Cache.Opening

open Unixd.Lib

set_option linter.unusedSectionVars false

variable {A V : Type} [DecidableEq A] {root path : Path} {tick : ℕ → ℕ → Prop} {w w' : World A V} {a b : A} {L : Ledger}
  {S S' : World A V → Prop} {α : Type} {X : Error → World A V → Prop}

/-- The protocol of those who open the cache at `root`. -/
noncomputable def protocol (root : Path) (tick : ℕ → ℕ → Prop) : Protocol (machine A V tick) where
  inv := Inv root
  allowed := Allowed root
  inv_step := inv_step
  inv_env h he := by
    obtain ⟨clock, -, -, rfl⟩ := he
    exact h.congr rfl rfl rfl
  inv_kill {w} dead h := by
    refine ⟨h.top, h.good, fun a f o ho => h.file a f o (World.files_of_kill ho), fun a f o written ho ht => ?_⟩
    obtain ⟨hname, honly, hmode, hbytes, halone, hplace⟩ := h.temp a f o written (World.files_of_kill ho) ht
    exact ⟨hname, honly, hmode, hbytes, fun b g o' ho' => halone b g o' (World.files_of_kill ho'), hplace⟩

/-- What no call of anybody takes away. -/
structure Lasting (root : Path) (S : World A V → Prop) : Prop where
  step : ∀ {b : A} {op : Op V} {r : Ret op} {w w'}, Inv root w → Allowed root b op w → Sem b op w r w' → S w → S w'
  congr : ∀ {w w' : World A V}, w'.names = w.names → w'.nodes = w.nodes → S w → S w'

/-- Something is at `path`. -/
def There (path : Path) (w : World A V) : Prop :=
  w.names path ≠ none

/-- What is at `path` has the mode `mode`. -/
def Sealed (path : Path) (mode : ℕ) (w : World A V) : Prop :=
  ∃ i, w.names path = some i ∧ (w.nodes i).mode = mode

lemma Lasting.and (h : Lasting root S) (h' : Lasting root S') : Lasting root fun w => S w ∧ S' w :=
  ⟨fun hi hallowed hsem hs => ⟨h.step hi hallowed hsem hs.1, h'.step hi hallowed hsem hs.2⟩,
    fun hnames hnodes hs => ⟨h.congr hnames hnodes hs.1, h'.congr hnames hnodes hs.2⟩⟩

lemma lasting_const (p : Prop) : Lasting root fun _ : World A V => p :=
  ⟨fun _ _ _ => id, fun _ _ => id⟩

/-- A name that is not a temporary file's stays. -/
lemma Sem.stays {op : Op V} {r : Ret op} {i : ℕ} (h : Inv root w) (hallowed : Allowed root b op w) (hsem : Sem b op w r w')
    (hpath : ¬Temporary root path) (hname : w.names path = some i) : w'.names path = some i := by
  have hset : ∀ {q : Path} {x : Option ℕ}, q ≠ path → Function.update w.names q x path = some i :=
    fun hne => (Function.update_of_ne hne.symm _ _).trans hname
  have hnew : ∀ {q : Path}, w.names q = none → q ≠ path := by
    rintro q hnone rfl
    cases hnone.symm.trans hname
  have hloose : ∀ {f o written}, w.files b f = some o → o.temp = some written → o.path ≠ path := by
    rintro f o written ho ht rfl
    exact hpath (h.temp b f o written ho ht).place
  cases hsem with
  | call hsem =>
    cases hsem with
    | createLock hnone dir free new => exact hset (hnew hnone)
    | mkdir hnone dir free => exact hset (hnew hnone)
    | tempfile hnone isDir free new => exact hset (hnew hnone)
    | dropTemp ho ht => exact hset (hloose ho ht)
    | release | unlink | removeTree | persist => exact hallowed.elim
    | _ => exact hname
  | @link f dst o j written _ ho ht src dir new =>
    exact (Function.update_of_ne (hnew new).symm _ _).trans (hset (hloose ho ht))
  | _ => exact hname

/-- The mode of a file that has a name changes to what it must be. -/
lemma Sem.mode {op : Op V} {r : Ret op} {i : ℕ} (h : Inv root w) (hallowed : Allowed root b op w) (hsem : Sem b op w r w')
    (hname : w.names path = some i) : (w'.nodes i).mode = (w.nodes i).mode ∨ (w.nodes i).kind = .dir ∧ (w'.nodes i).mode = 0o700 ∨
      (w.nodes i).kind = .file ∧ (w'.nodes i).mode = 0o600 := by
  have hnew : ∀ {j : ℕ} {node : Node}, w.Free j → (Function.update w.nodes j node i).mode = (w.nodes i).mode := by
    intro j node hfree
    rw [Function.update_of_ne]
    rintro rfl
    exact hfree.1 path hname
  have hset : ∀ {j : ℕ} {node : Node}, node.mode = (w.nodes j).mode → (Function.update w.nodes j node i).mode = (w.nodes i).mode := by
    intro j node hmode
    by_cases hij : i = j
    · rw [hij, Function.update_self, hmode]
    · rw [Function.update_of_ne hij]
  cases hsem with
  | call hsem =>
    cases hsem with
    | createLock hnone dir free new => exact Or.inl (hnew free)
    | mkdir hnone dir free => exact Or.inl (hnew free)
    | tempfile hnone isDir free new => exact Or.inl (hnew free)
    | @chmod p mode j _ hp =>
      by_cases hij : i = j
      · subst hij
        have hmode : mode = 0o700 := hallowed.2
        refine Or.inr (Or.inl ⟨((h.good p i hp).own hallowed.1).1, ?_⟩)
        rw [World.nodes_setNode, Function.update_self, hmode]
      · exact Or.inl (by rw [World.nodes_setNode, Function.update_of_ne hij])
    | @fchmod f mode o _ ho =>
      by_cases hij : i = o.ino
      · subst hij
        have hmode : mode = 0o600 := hallowed
        refine Or.inr (Or.inr ⟨(h.file b f o ho).1, ?_⟩)
        rw [World.nodes_setNode, Function.update_self, hmode]
      · exact Or.inl (by rw [World.nodes_setNode, Function.update_of_ne hij])
    | write | setModified => exact Or.inl (hset rfl)
    | _ => exact Or.inl rfl
  | _ => exact Or.inl rfl

lemma not_temporary_above (h : path <+: root) : ¬Temporary root path := by
  intro htemp
  have hlen := htemp.child.length ▸ h.length_le
  omega

lemma not_temporary_child {name : Name} (h : name.head? ≠ some '.') : ¬Temporary root (root ++ [name]) :=
  fun htemp => htemp.ne h rfl

lemma Own.not_temporary (h : Own root path) : ¬Temporary root path := by
  rcases h with rfl | rfl | rfl
  · exact not_temporary_above List.prefix_rfl
  · exact not_temporary_child (by decide)
  · exact not_temporary_child (by decide)

lemma lasting_there (h : ¬Temporary root path) : Lasting root (There path : World A V → Prop) where
  step hi hallowed hsem hs := by
    obtain ⟨i, hname⟩ := Option.ne_none_iff_exists'.mp hs
    rw [There, hsem.stays hi hallowed h hname]
    simp
  congr hnames _ hs := by
    rw [There, hnames]
    exact hs

lemma lasting_sealed {mode : ℕ} (h : ¬Temporary root path) (hgood : ∀ node, Good root path node →
    node.kind = .dir ∧ mode = 0o700 ∨ node.kind = .file ∧ mode = 0o600) : Lasting root (Sealed path mode : World A V → Prop) where
  step {b op r w w'} hi hallowed hsem hs := by
    obtain ⟨i, hname, hmode⟩ := hs
    refine ⟨i, hsem.stays hi hallowed h hname, ?_⟩
    rcases hsem.mode hi hallowed hname with hsame | ⟨hdir, hmode'⟩ | ⟨hfile, hmode'⟩
    · exact hsame.trans hmode
    · rcases hgood _ (hi.good path i hname) with ⟨-, rfl⟩ | ⟨hkind, -⟩
      · exact hmode'
      · cases hkind.symm.trans hdir
    · rcases hgood _ (hi.good path i hname) with ⟨hkind, -⟩ | ⟨-, rfl⟩
      · cases hkind.symm.trans hfile
      · exact hmode'
  congr hnames hnodes hs := by
    obtain ⟨i, hname, hmode⟩ := hs
    exact ⟨i, hnames ▸ hname, hnodes ▸ hmode⟩

lemma lasting_own (h : Own root path) : Lasting root (Sealed path 0o700 : World A V → Prop) :=
  lasting_sealed h.not_temporary fun _ hgood => Or.inl ⟨(hgood.own h).1, rfl⟩

lemma lasting_maintenance : Lasting root (Sealed (root ++ maintenanceLock) 0o600 : World A V → Prop) :=
  lasting_sealed (not_temporary_child (by decide)) fun _ hgood => Or.inr ⟨(hgood.maintenance rfl).1, rfl⟩

/-- `a` has these open files, and `S` holds. -/
def At (a : A) (L : Ledger) (S : World A V → Prop) (w : World A V) : Prop :=
  w.files a = L ∧ S w

lemma Sem.files {op : Op V} {r : Ret op} (h : Sem b op w r w') (hne : a ≠ b) : w'.files a = w.files a := by
  cases h with
  | call h => exact Cache.Sem.files h hne
  | link => exact World.files_setFile_of_ne _ b _ _ hne
  | _ => rfl

lemma Lasting.calm (h : Lasting root S) : ((protocol root tick).whole a).Stable (At a L S) := by
  intro w w' hi hs hr
  refine Protocol.Stable.rely (S := At a L S) ?_ hs hr
  rintro w w' hi ⟨hfiles, hs⟩ ho
  cases ho with
  | step ne allowed sem => exact ⟨(Sem.files sem ne.symm).trans hfiles, h.step hi allowed sem hs⟩
  | env he =>
    obtain ⟨clock, -, -, rfl⟩ := he
    exact ⟨hfiles, h.congr (w := w) rfl rfl hs⟩
  | kill dead alive =>
    refine ⟨?_, h.congr (w := w) rfl rfl hs⟩
    funext f
    rw [← hfiles]
    exact if_neg alive

/-- What a call of `a` does, among all others. -/
lemma runs_call (op : Op V) {T : Ret op → World A V → Prop} (hS : Lasting root S)
    (hallowed : ∀ w, Inv root w → At a L S w → Allowed root a op w) (hlive : ∀ w, Inv root w → At a L S w → ∃ r w', Sem a op w r w')
    (hsem : ∀ w r w', Inv root w → w.files a = L → S w → S w' → Sem a op w r w' → T r w') :
    ((protocol root tick).whole a).Runs (At a L S) (call op) T X :=
  .op hS.calm hallowed hlive fun w r w' hi hs _ h => hsem w r w' hi hs.1 hs.2 (hS.step hi (hallowed w hi hs) h hs.2) h

/-- What is at a path is what it must be. -/
def Stat (root path : Path) (metadata : Metadata) : Prop :=
  ∃ node i, Good root path node ∧ metadata = node.metadata i

lemma runs_lstat (hS : Lasting root S) (hpath : ¬Temporary root path) :
    ((protocol root tick).whole a).Runs (At a L S) (Sys.lstat path).lift (fun r w => r = .error .notFound ∧ At a L S w ∨
      ∃ m, r = .ok m ∧ Stat root path m ∧ At a L (fun w => S w ∧ There path w) w) X := by
  refine runs_call (.inl (.lstat path)) hS (fun _ _ _ => trivial) (fun w _ _ => ⟨_, w, .call .lstat⟩) fun w r w' hi hfiles hs hs' h => ?_
  cases h with
  | call h =>
    cases h with
    | fault hf => exact hf.elim
    | lstat =>
      unfold World.lstat
      cases hname : w.names path with
      | none => exact Or.inl ⟨rfl, hfiles, hs⟩
      | some i => exact Or.inr ⟨_, rfl, ⟨_, i, hi.good path i hname, rfl⟩, hfiles, hs, by simp [There, hname]⟩

lemma runs_lstat_there (hS : Lasting root S) (hthere : ∀ w, S w → There path w) :
    ((protocol root tick).whole a).Runs (At a L S) (Sys.lstat path).lift (fun r w => ∃ m, r = .ok m ∧ Stat root path m ∧ At a L S w) X := by
  refine runs_call (.inl (.lstat path)) hS (fun _ _ _ => trivial) (fun w _ _ => ⟨_, w, .call .lstat⟩) fun w r w' hi hfiles hs hs' h => ?_
  obtain ⟨i, hname⟩ := Option.ne_none_iff_exists'.mp (hthere w hs)
  cases h with
  | call h =>
    cases h with
    | fault hf => exact hf.elim
    | lstat =>
      unfold World.lstat
      rw [hname]
      exact ⟨_, rfl, ⟨_, i, hi.good path i hname, rfl⟩, hfiles, hs⟩

lemma runs_chmod (hS : Lasting root S) (hown : Own root path) (hthere : ∀ w, S w → There path w) :
    ((protocol root tick).whole a).Runs (At a L S) (setMode path 0o700).lift (fun _ => At a L fun w => S w ∧ Sealed path 0o700 w) X := by
  refine .bind (runs_call (.inl (.chmod path 0o700)) (T := fun r w => r = .ok () ∧ At a L (fun w => S w ∧ Sealed path 0o700 w) w)
    hS (fun _ _ _ => ⟨hown, rfl⟩) (fun w _ hs => ?_) fun w r w' hi hfiles hs hs' h => ?_) fun r => .imp fun hr => ?_
  · obtain ⟨i, hname⟩ := Option.ne_none_iff_exists'.mp (hthere w hs.2)
    exact ⟨_, _, .call (.chmod hname)⟩
  · obtain ⟨i, hname⟩ := Option.ne_none_iff_exists'.mp (hthere w hs)
    cases h with
    | call h =>
      cases h with
      | fault hf => exact hf.elim
      | chmod hname => exact ⟨rfl, hfiles, hs', _, hname, by rw [World.nodes_setNode, Function.update_self]⟩
      | chmodMissing hnone => cases hnone.symm.trans hname
  · subst hr
    exact .pure fun _ _ h => h

lemma Inv.isDir (h : Inv root w) (hpath : path <+: root) (hthere : There path w) : w.IsDir path := by
  obtain ⟨i, hname⟩ := Option.ne_none_iff_exists'.mp hthere
  exact ⟨i, hname, (h.good path i hname).above hpath⟩

lemma not_temporary_made (h : path <+: root ∨ Own root path) : ¬Temporary root path :=
  h.elim not_temporary_above Own.not_temporary

lemma runs_mkdir (hS : Lasting root S) (hpath : path <+: root ∨ Own root path) :
    ((protocol root tick).whole a).Runs (At a L S) (Sys.mkdir path).lift (fun r w =>
      (r = .ok () ∨ r = .error .alreadyExists) ∧ At a L (fun w => S w ∧ There path w) w ∨
      r = .error .notFound ∧ ¬w.IsDir path.dropLast ∧ w.names path = none ∧ At a L S w) X := by
  refine runs_call (.inl (.mkdir path)) hS (fun _ _ _ => hpath) (fun w _ _ => ?_) fun w r w' hi hfiles hs hs' h => ?_
  · cases hname : w.names path with
    | some i => exact ⟨_, _, .call (.mkdirExists hname)⟩
    | none =>
      by_cases hdir : w.IsDir path.dropLast
      · obtain ⟨i, hfree⟩ := w.exists_free
        exact ⟨_, _, .call (@Cache.Sem.mkdir A V _ _ a path i 0 w hname hdir hfree)⟩
      · exact ⟨_, _, .call (.mkdirNoDir hname hdir)⟩
  · cases h with
    | call h =>
      cases h with
      | fault hf => exact hf.elim
      | mkdir hnone dir free => exact Or.inl ⟨Or.inl rfl, hfiles, hs', by simp [There]⟩
      | mkdirExists hname => exact Or.inl ⟨Or.inr rfl, hfiles, hs, by simp [There, hname]⟩
      | mkdirNoDir hname dir => exact Or.inr ⟨rfl, dir, hname, hfiles, hs⟩

lemma runs_isDir (hS : Lasting root S) (hpath : path <+: root) (hthere : ∀ w, S w → There path w) :
    ((protocol root tick).whole a).Runs (At a L S) (isDir path) (fun r w => r = true ∧ At a L S w) X := by
  refine runs_call (.inr (.isDir path)) hS (fun _ _ _ => trivial) (fun w _ _ => ?_) fun w r w' hi hfiles hs hs' h => ?_
  · classical
    exact ⟨decide (w.IsDir path), w, .isDir (by simp)⟩
  · have hdir := hi.isDir hpath (hthere w hs)
    cases h with
    | isDir hr => exact ⟨hr.mpr hdir, hfiles, hs⟩
    | isDirLink hname hkind =>
      obtain ⟨i, hname', hdir⟩ := hdir
      cases hname.symm.trans hname'
      cases hkind.symm.trans hdir

/-- What is at a path is the inode `i`. -/
def Names (path : Path) (i : ℕ) (w : World A V) : Prop :=
  w.names path = some i

lemma lasting_names {i : ℕ} (h : ¬Temporary root path) : Lasting root (Names path i : World A V → Prop) where
  step hi hallowed hsem hs := hsem.stays hi hallowed h hs
  congr hnames _ hs := by
    rw [Names, hnames]
    exact hs

/-- The lock files of the root itself. -/
def Lock (root path : Path) : Prop :=
  path = root ++ maintenanceLock ∨ path = root ++ pruneLock

lemma Lock.not_temporary (h : Lock root path) : ¬Temporary root path := by
  rcases h with rfl | rfl
  · exact not_temporary_child (by decide)
  · exact not_temporary_child (by decide)

lemma Lock.dropLast (h : Lock root path) : path.dropLast = root := by
  rcases h with rfl | rfl
  · exact List.dropLast_concat
  · exact List.dropLast_concat

lemma Lock.good {node : Node} (h : Lock root path) (hgood : Good root path node) : node.kind = .file ∧ node.owned = true := by
  rcases h with rfl | rfl
  · exact hgood.maintenance rfl
  · exact ⟨(hgood.pruning rfl).1, (hgood.pruning rfl).2.1⟩

lemma runs_sysOpenLock (hS : Lasting root S) (hlock : Lock root path) (hroot : ∀ w, S w → There root w) :
    ((protocol root tick).whole a).Runs (At a L S) (Sys.openLock path).lift (fun r w => ∃ f i since, r = .ok f ∧ L f = none ∧
      At a (Function.update L f (some (.at path i since))) (fun w => S w ∧ Names path i w) w) X := by
  refine runs_call (.inl (.openLock path)) hS (fun _ _ _ => hlock) (fun w hi hs => ?_) fun w r w' hi hfiles hs hs' h => ?_
  · obtain ⟨f, hnew⟩ := w.exists_fd a
    cases hname : w.names path with
    | some i => exact ⟨_, _, .call (.openLock hname (hlock.good (hi.good path i hname)).1 hnew)⟩
    | none =>
      obtain ⟨i, hfree⟩ := w.exists_free
      refine ⟨_, _, .call (@Cache.Sem.createLock A V _ _ a path i f 0 w hname ?_ hfree hnew)⟩
      rw [hlock.dropLast]
      exact hi.isDir List.prefix_rfl (hroot w hs.2)
  · have hopened : ∀ {f : ℕ} {o : Open} {w₁ : World A V}, w₁.files = w.files → (w₁.setFile a f (some o)).files a = Function.update L f (some o) := by
      intro f o w₁ hw₁
      rw [World.files_setFile_self, hw₁, hfiles]
    cases h with
    | call h =>
      cases h with
      | fault hf => exact hf.elim
      | openLock hname hkind new => exact ⟨_, _, _, rfl, hfiles ▸ new, hopened rfl, hs', hname⟩
      | openLockOther hname hkind => exact absurd (hlock.good (hi.good path _ hname)).1 hkind
      | openLockNoDir hname hdir =>
        rw [hlock.dropLast] at hdir
        exact absurd (hi.isDir List.prefix_rfl (hroot w hs)) hdir
      | createLock hname dir free new => exact ⟨_, _, _, rfl, hfiles ▸ new, hopened rfl, hs', by simp [Names]⟩

section

variable {f : ℕ} {o : Open}

lemma files_setFile {w : World A V} (hfiles : w.files a = L) (file : Option Open) : (w.setFile a f file).files a = Function.update L f file := by
  rw [World.files_setFile_self, hfiles]

lemma runs_fstat (hS : Lasting root S) (ho : L f = some o) : ((protocol root tick).whole a).Runs (At a L S) (Sys.fstat f).lift
    (fun r w => ∃ m : Metadata, r = .ok m ∧ m.kind = .file ∧ m.owned = true ∧ At a L S w) X := by
  refine runs_call (.inl (.fstat f)) hS (fun _ _ _ => trivial) (fun w _ hs => ?_) fun w r w' hi hfiles hs hs' h => ?_
  · exact ⟨_, _, .call (.fstat ((congrFun hs.1 f).trans ho))⟩
  · cases h with
    | call h =>
      cases h with
      | fault hf => exact hf.elim
      | fstat ho' =>
        obtain ⟨hkind, howned⟩ := hi.file a f _ ho'
        exact ⟨_, rfl, hkind, howned, hfiles, hs⟩

lemma runs_fchmod (hS : Lasting root S) (ho : L f = some o) (hnames : ∀ w, S w → Names path o.ino w) :
    ((protocol root tick).whole a).Runs (At a L S) (Sys.fchmod f 0o600).lift
      (fun r w => r = .ok () ∧ At a L (fun w => S w ∧ Sealed path 0o600 w) w) X := by
  refine runs_call (.inl (.fchmod f 0o600)) hS (fun _ _ _ => rfl) (fun w _ hs => ?_) fun w r w' hi hfiles hs hs' h => ?_
  · exact ⟨_, _, .call (.fchmod ((congrFun hs.1 f).trans ho))⟩
  · cases h with
    | call h =>
      cases h with
      | fault hf => exact hf.elim
      | @fchmod _ _ o' _ ho' =>
        obtain rfl : o = o' := Option.some_inj.mp (ho.symm.trans ((congrFun hfiles f).symm.trans ho'))
        exact ⟨rfl, hfiles, hs', o.ino, hnames w hs, by rw [World.nodes_setNode, Function.update_self]⟩

lemma runs_close (hS : Lasting root S) (ho : L f = some o) (ht : o.temp = none) :
    ((protocol root tick).whole a).Runs (At a L S) (Sys.close f).lift (fun _ => At a (Function.update L f none) S) X := by
  refine runs_call (.inl (.close f)) hS (fun w _ hs o' ho' => ?_) (fun w _ hs => ?_) fun w r w' hi hfiles hs hs' h => ?_
  · obtain rfl : o = o' := Option.some_inj.mp (ho.symm.trans ((congrFun hs.1 f).symm.trans ho'))
    exact ht
  · exact ⟨_, _, .call (.close ((congrFun hs.1 f).trans ho))⟩
  · cases h with
    | call h =>
      cases h with
      | fault hf hr => exact hr.elim
      | close ho' => exact ⟨files_setFile hfiles none, hs'⟩

lemma runs_tempfile (hS : Lasting root S) (hroot : ∀ w, S w → There root w) :
    ((protocol root tick).whole a).Runs (At a L S) (Sys.tempfile root temporaryStart []).lift (fun r w => ∃ f o, r = .ok f ∧ L f = none ∧
      o.temp = some [] ∧ At a (Function.update L f (some o)) S w) X := by
  refine runs_call (.inl (.tempfile root temporaryStart [])) hS (fun _ _ _ => ⟨rfl, rfl, rfl⟩) (fun w hi hs => ?_)
    fun w r w' hi hfiles hs hs' h => ?_
  · obtain ⟨f, hnew⟩ := w.exists_fd a
    obtain ⟨i, hfree⟩ := w.exists_free
    obtain ⟨random, hnone⟩ := w.exists_name root temporaryStart []
    exact ⟨_, _, .call (@Cache.Sem.tempfile A V _ _ a root temporaryStart random [] i f 0 w hnone (hi.isDir List.prefix_rfl (hroot w hs.2))
      hfree hnew)⟩
  · cases h with
    | call h =>
      cases h with
      | fault hf => exact hf.elim
      | tempfile hnone dir free new => exact ⟨_, _, rfl, hfiles ▸ new, rfl, files_setFile hfiles _, hs'⟩
      | tempfileNoDir hdir => exact absurd (hi.isDir List.prefix_rfl (hroot w hs)) hdir

lemma runs_write {written bytes : Bytes} (hS : Lasting root S) (ho : L f = some o) (ht : o.temp = some written) :
    ((protocol root tick).whole a).Runs (At a L S) (Sys.write f bytes).lift (fun r w => ∃ n, r = .ok n ∧ (bytes ≠ [] → 0 < n) ∧
      n ≤ bytes.length ∧ At a (Function.update L f (some { o with temp := some (written ++ bytes.take n) })) S w) X := by
  refine runs_call (.inl (.write f bytes)) hS (fun _ _ _ => trivial) (fun w _ hs => ?_) fun w r w' hi hfiles hs hs' h => ?_
  · exact ⟨_, _, .call (@Cache.Sem.write A V _ _ a f bytes bytes.length o written 0 w ((congrFun hs.1 f).trans ho) ht (Nat.le_refl _)
      List.length_pos_iff.mpr)⟩
  · cases h with
    | call h =>
      cases h with
      | fault hf => exact hf.elim
      | @write _ _ n o' written' _ _ ho' ht' le pos =>
        obtain rfl : o = o' := Option.some_inj.mp (ho.symm.trans ((congrFun hfiles f).symm.trans ho'))
        obtain rfl : written = written' := Option.some_inj.mp (ht.symm.trans ht')
        exact ⟨n, rfl, pos, le, files_setFile hfiles _, hs'⟩

/-- The tag is linked into place, or is there. -/
lemma runs_link (hS : Lasting root S) (ho : L f = some o) (ht : o.temp = some cachedirTagText) (hroot : ∀ w, S w → There root w) :
    ((protocol root tick).whole a).Runs (At a L S) (link f (root ++ [cachedirTag])) (fun r w =>
      r = .ok () ∧ (∃ o', o'.temp = none ∧ At a (Function.update L f (some o')) (fun w => S w ∧ There (root ++ [cachedirTag]) w) w) ∨
      r = .error .alreadyExists ∧ At a L (fun w => S w ∧ There (root ++ [cachedirTag]) w) w) X := by
  have hdir : ∀ {w : World A V}, Inv root w → S w → w.IsDir (root ++ [cachedirTag]).dropLast := by
    intro w hi hs
    rw [List.dropLast_concat]
    exact hi.isDir List.prefix_rfl (hroot w hs)
  refine runs_call (.inr (.link f (root ++ [cachedirTag]))) hS (fun w _ hs => ⟨rfl, fun o' ho' => ?_⟩) (fun w hi hs => ?_)
    fun w r w' hi hfiles hs hs' h => ?_
  · obtain rfl : o = o' := Option.some_inj.mp (ho.symm.trans ((congrFun hs.1 f).symm.trans ho'))
    exact ht
  · have hfile : w.files a f = some o := (congrFun hs.1 f).trans ho
    cases hname : w.names (root ++ [cachedirTag]) with
    | some i => exact ⟨_, _, .linkExists hname⟩
    | none => exact ⟨_, _, .link hfile ht (hi.temp a f o _ hfile ht).name (hdir hi hs.2) hname⟩
  · cases h with
    | link ho' ht' src dir new =>
      refine Or.inl ⟨rfl, _, ?_, files_setFile hfiles _, hs', by simp [There]⟩
      rfl
    | linkExists hname => exact Or.inr ⟨rfl, hfiles, hs, by simp [There, hname]⟩
    | @linkMissing _ _ o' _ ho' src =>
      obtain rfl : o = o' := Option.some_inj.mp (ho.symm.trans ((congrFun hfiles f).symm.trans ho'))
      rcases src with hnone | hnodir
      · cases hnone.symm.trans (hi.temp a f o _ ho' ht).name
      · exact absurd (hdir hi hs) hnodir

lemma runs_dropTemp {written : Bytes} (hS : Lasting root S) (ho : L f = some o) (ht : o.temp = some written) :
    ((protocol root tick).whole a).Runs (At a L S) (Sys.dropTemp f).lift
      (fun _ => At a (Function.update L f (some { o with temp := none })) S) X := by
  refine runs_call (.inl (.dropTemp f)) hS (fun _ _ _ => trivial) (fun w _ hs => ?_) fun w r w' hi hfiles hs hs' h => ?_
  · exact ⟨_, _, .call (.dropTemp ((congrFun hs.1 f).trans ho) ht)⟩
  · cases h with
    | call h =>
      cases h with
      | fault hf hr => exact hr.elim
      | @dropTemp _ o' _ _ ho' ht' =>
        obtain rfl : o = o' := Option.some_inj.mp (ho.symm.trans ((congrFun hfiles f).symm.trans ho'))
        exact ⟨files_setFile hfiles _, hs'⟩
      | @dropTempFails _ o' _ _ ho' ht' why =>
        obtain rfl : o = o' := Option.some_inj.mp (ho.symm.trans ((congrFun hfiles f).symm.trans ho'))
        exact ⟨files_setFile hfiles _, hs'⟩

lemma runs_openRead (hS : Lasting root S) (hthere : ∀ w, S w → There (root ++ pruneLock) w) :
    ((protocol root tick).whole a).Runs (At a L S) (Sys.openRead (root ++ pruneLock) false).lift (fun r w => ∃ f o, r = .ok f ∧ L f = none ∧
      o.temp = none ∧ At a (Function.update L f (some o)) S w) X := by
  refine runs_call (.inl (.openRead (root ++ pruneLock) false)) hS (fun _ _ _ => ⟨rfl, rfl⟩) (fun w hi hs => ?_)
    fun w r w' hi hfiles hs hs' h => ?_
  · obtain ⟨f, hnew⟩ := w.exists_fd a
    obtain ⟨i, hname⟩ := Option.ne_none_iff_exists'.mp (hthere w hs.2)
    refine ⟨_, _, .call (.openRead hname ?_ hnew)⟩
    rw [((hi.good _ i hname).pruning rfl).1]
    decide
  · obtain ⟨i, hname⟩ := Option.ne_none_iff_exists'.mp (hthere w hs)
    have hkind := ((hi.good _ i hname).pruning rfl).1
    cases h with
    | call h =>
      cases h with
      | fault hf => exact hf.elim
      | openRead hname' hkind' new => exact ⟨_, _, rfl, hfiles ▸ new, rfl, files_setFile hfiles _, hs'⟩
      | openReadMissing hnone => cases hnone.symm.trans hname
      | openReadOther hname' hkind' =>
        cases hname'.symm.trans hname
        rw [hkind] at hkind'
        rcases hkind' with heq | heq
        · cases heq
        · cases heq

lemma runs_setModified {ms : ℕ} (hS : Lasting root S) (ho : L f = some o) :
    ((protocol root tick).whole a).Runs (At a L S) (Sys.setModified f ms).lift (fun r w => r = .ok () ∧ At a L S w) X := by
  refine runs_call (.inl (.setModified f ms)) hS (fun _ _ _ => trivial) (fun w _ hs => ?_) fun w r w' hi hfiles hs hs' h => ?_
  · exact ⟨_, _, .call (.setModified ((congrFun hs.1 f).trans ho))⟩
  · cases h with
    | call h =>
      cases h with
      | fault hf => exact hf.elim
      | setModified ho' => exact ⟨rfl, hfiles, hs'⟩

lemma runs_now (hS : Lasting root S) : ((protocol root tick).whole a).Runs (At a L S) Sys.now.lift (fun _ => At a L S) X := by
  refine runs_call (.inl .now) hS (fun _ _ _ => trivial) (fun w _ _ => ⟨_, _, .call .now⟩) fun w r w' hi hfiles hs hs' h => ?_
  cases h with
  | call h =>
    cases h with
    | fault hf hr => exact hr.elim
    | now => exact ⟨hfiles, hs'⟩

end

/-- How a program of the cache's own goes on, among more operations. -/
lemma runs_lift_handle {β : Type} {C : (protocol root tick (A := A) (V := V)).Scope a} {S : World A V → Prop} {U : β → World A V → Prop}
    {T : α → World A V → Prop} {Y : Error → World A V → Prop} {p : Cache.M V β} {f : Except Error β → Cache.M V α}
    (h : C.Runs S p.lift U Y) (hok : ∀ x, C.Runs (U x) (f (.ok x)).lift T X) (herr : ∀ e, C.Runs (Y e) (f (.error e)).lift T X) :
    C.Runs S (p.handle f).lift T X := by
  rw [Prog.lift_handle]
  exact .handle h hok herr

lemma runs_lift_bind {β : Type} {C : (protocol root tick (A := A) (V := V)).Scope a} {S : World A V → Prop} {U : β → World A V → Prop}
    {T : α → World A V → Prop} {p : Cache.M V β} {f : β → Cache.M V α} (h : C.Runs S p.lift U X) (hf : ∀ x, C.Runs (U x) (f x).lift T X) :
    C.Runs S (p >>= f).lift T X := by
  rw [Prog.lift_bind]
  exact .bind h hf

/-- What does not fail drops nothing. -/
lemma runs_lift_orElseDrop {C : (protocol root tick (A := A) (V := V)).Scope a} {S : World A V → Prop} {T : α → World A V → Prop}
    {drop : Cache.M V Unit} {p : Cache.M V α} (h : C.Runs S p.lift T fun _ _ => False) : C.Runs S (orElseDrop drop p).lift T X :=
  runs_lift_handle h (fun _ => .pure fun _ _ h => h) fun _ _ _ h => h.elim

lemma At.and {w : World A V} (h : At a L S w) (hs : S' w) : At a L (fun w => S w ∧ S' w) w :=
  ⟨h.1, h.2, hs⟩

lemma runs_createOr (hS : Lasting root S) (hpath : path <+: root) {missing : M V Unit}
    (hmissing : ((protocol root tick).whole a).Runs (fun w => w.names path = none ∧ At a L S w) missing
      (fun _ => At a L fun w => S w ∧ There path w) X) :
    ((protocol root tick).whole a).Runs (At a L S) (createOr path missing) (fun _ => At a L fun w => S w ∧ There path w) X := by
  have hthere := hS.and (lasting_there (not_temporary_above hpath))
  refine .bind (runs_mkdir hS (Or.inl hpath)) fun r => .or (.imp fun hr => ?_) (.imp fun hr => ?_)
  · rcases hr with rfl | rfl
    · exact .pure fun _ _ h => h
    · refine .bind (runs_isDir hthere hpath fun _ hs => hs.2) fun r => .imp fun hr => ?_
      subst hr
      exact .pure fun _ _ h => h
  · subst hr
    exact hmissing.pre fun _ _ h => h.2

/-- The directories of the path are there. -/
lemma runs_createDirAll (hS : Lasting root S) (path : List Name) (hpath : path.reverse <+: root) :
    ((protocol root tick).whole a).Runs (At a L S) (createDirAll path) (fun _ => At a L fun w => S w ∧ There path.reverse w) X := by
  induction path generalizing S with
  | nil => exact runs_createOr hS hpath fun w hi h => absurd h.1 hi.top
  | cons name parents ih =>
    have habove : parents.reverse <+: root := by
      rw [List.reverse_cons] at hpath
      exact (List.prefix_append _ _).trans hpath
    have hparent := hS.and (lasting_there (not_temporary_above habove))
    have hthere := hS.and (lasting_there (not_temporary_above hpath))
    refine runs_createOr hS hpath (.bind ((ih hS habove).pre fun _ _ h => h.2) fun _ => ?_)
    refine .bind (runs_mkdir hparent (Or.inl hpath)) fun r => .or (.imp fun hr => ?_) (.imp fun hr => ?_)
    · have hdone : ∀ w : World A V, At a L (fun w => (S w ∧ There parents.reverse w) ∧ There (name :: parents).reverse w) w →
          At a L (fun w => S w ∧ There (name :: parents).reverse w) w := fun _ h => ⟨h.1, h.2.1.1, h.2.2⟩
      rcases hr with rfl | rfl
      · exact .pure fun _ _ h => hdone _ h
      · refine .bind ((runs_isDir hthere hpath fun _ hs => hs.2).pre fun _ _ h => hdone _ h) fun r => .imp fun hr => ?_
        subst hr
        exact .pure fun _ _ h => h
    · intro w hi h
      refine absurd (hi.isDir habove h.2.2.2.2) ?_
      have hlast : (name :: parents).reverse.dropLast = parents.reverse := by simp
      exact hlast ▸ h.1

lemma Sealed.there {mode : ℕ} {w : World A V} (h : Sealed path mode w) : There path w := by
  obtain ⟨i, hname, -⟩ := h
  simp [There, hname]

lemma runs_validateRoot (hS : Lasting root S) (hthere : ∀ w, S w → There root w) :
    ((protocol root tick).whole a).Runs (At a L S) (validateRoot root) (fun _ => At a L fun w => S w ∧ Sealed root 0o700 w) X := by
  refine .bind (runs_lstat_there hS hthere) fun r => .of_exists fun metadata => .imp fun hr => .imp fun hstat => ?_
  subst hr
  obtain ⟨node, i, hgood, rfl⟩ := hstat
  obtain ⟨hkind, howned⟩ := hgood.own (Or.inl rfl)
  have hok : ¬((node.metadata i).kind ≠ .dir ∨ ¬(node.metadata i).owned) := by simp [Node.metadata, hkind, howned]
  change ((protocol root tick).whole a).Runs _ (if _ then _ else _) _ _
  rw [if_neg hok]
  exact runs_chmod hS (Or.inl rfl) hthere

lemma runs_ensureRoot (hS : Lasting root S) :
    ((protocol root tick).whole a).Runs (At a L S) (ensureRoot root) (fun _ => At a L fun w => S w ∧ Sealed root 0o700 w) X := by
  have hthere := hS.and (lasting_there (V := V) (A := A) (not_temporary_above (List.prefix_rfl (l := root))))
  have hvalidate : ((protocol root tick).whole a).Runs (At a L fun w => S w ∧ There root w) (validateRoot root)
      (fun _ => At a L fun w => S w ∧ Sealed root 0o700 w) X :=
    (runs_validateRoot hthere fun _ hs => hs.2).post fun _ _ _ h => ⟨h.1, h.2.1.1, h.2.2⟩
  refine .bind (runs_lstat hS (not_temporary_above List.prefix_rfl)) fun r => .or (.imp fun hr => ?_)
    (.of_exists fun metadata => .imp fun hr => .imp fun _ => ?_)
  · subst hr
    refine .bind (runs_createDirAll hS root.reverse ?_) fun _ => ?_
    · simp
    · rw [List.reverse_reverse]
      exact hvalidate
  · subst hr
    exact hvalidate

lemma Lasting.imp (p : Prop) (h : Lasting root S) : Lasting root fun w => p → S w :=
  ⟨fun hi hallowed hsem hs hp => h.step hi hallowed hsem (hs hp), fun hnames hnodes hs hp => h.congr hnames hnodes (hs hp)⟩

/-- At most one directory more has to be looked at. -/
lemma runs_ensureDir (hS : Lasting root S) (hown : Own root path) (hdir : ∀ w, Inv root w → S w → w.IsDir path.dropLast) :
    ((protocol root tick).whole a).Runs (At a L S) (ensureDir path).lift (fun _ => At a L fun w => S w ∧ Sealed path 0o700 w) X := by
  have hthere : Lasting root (There path : World A V → Prop) := lasting_there hown.not_temporary
  have hJ : ∀ n : ℕ, Lasting root fun w : World A V => S w ∧ (n = 0 → There path w) := fun n => hS.and (hthere.imp _)
  have hmode : ((protocol root tick).whole a).Runs (At a L fun w => S w ∧ There path w) (setMode path 0o700).lift
      (fun _ => At a L fun w => S w ∧ Sealed path 0o700 w) X :=
    (runs_chmod (hS.and hthere) hown fun _ hs => hs.2).post fun _ _ _ h => ⟨h.1, h.2.1.1, h.2.2⟩
  have hfound : ∀ {m : Metadata}, Stat root path m → m.kind = .dir ∧ m.owned = true := by
    rintro _ ⟨node, i, hgood, rfl⟩
    exact hgood.own hown
  unfold ensureDir
  rw [Prog.lift_iterate]
  refine (Protocol.Scope.Runs.iterate (J := fun n _ => At a L fun w => S w ∧ (n = 0 → There path w)) (fun n _ => ?_) 1 ()).pre
    fun w _ h => ⟨h.1, h.2, fun h => absurd h one_ne_zero⟩
  refine runs_lift_bind (U := fun r w => (0 < n ∧ r = .error .notFound) ∧ At a L S w ∨
    ∃ m, r = .ok m ∧ Stat root path m ∧ At a L (fun w => S w ∧ There path w) w) ?_ fun r => .or (.imp fun hr => ?_)
    (.of_exists fun metadata => .imp fun hr => .imp fun hstat => ?_)
  · rcases Nat.eq_zero_or_pos n with hn | hn
    · exact (runs_lstat_there (hJ n) fun _ hs => hs.2 hn).post fun r w _ h =>
        Or.inr (h.imp fun m h => ⟨h.1, h.2.1, h.2.2.1, h.2.2.2.1, h.2.2.2.2 hn⟩)
    · exact (runs_lstat (hJ n) hown.not_temporary).post fun r w _ h => h.imp (fun h => ⟨⟨hn, h.1⟩, h.2.1, h.2.2.1⟩)
        fun h => h.imp fun m h => ⟨h.1, h.2.1, h.2.2.1, h.2.2.2.1.1, h.2.2.2.2⟩
  · obtain ⟨hn, rfl⟩ := hr
    refine runs_lift_bind (runs_mkdir hS (Or.inr hown)) fun r => .or (.imp fun hr => ?_) (.imp fun _ => ?_)
    · rcases hr with rfl | rfl
      · exact runs_lift_bind hmode fun _ => .pure fun _ _ h => h
      · exact .pure fun w _ h => ⟨0, hn, h.1, h.2.1, fun _ => h.2.2⟩
    · exact fun w hi h => absurd (hdir w hi h.2.2.2) h.1
  · subst hr
    change ((protocol root tick).whole a).Runs _ (Prog.lift (if _ then _ else _)) _ _
    rw [if_pos (hfound hstat)]
    exact runs_lift_bind hmode fun _ => .pure fun _ _ h => h

lemma Lock.lasting (h : Lock root path) : Lasting root (Sealed path 0o600 : World A V → Prop) :=
  lasting_sealed h.not_temporary fun _ hgood => Or.inr ⟨(h.good hgood).1, rfl⟩

/-- A lock file is opened, made if it has to be, and closed. -/
lemma runs_touchLock (hS : Lasting root S) (hlock : Lock root path) (hroot : ∀ w, S w → There root w) :
    ((protocol root tick).whole a).Runs (At a L S) (touchLock path) (fun _ => At a L fun w => S w ∧ Sealed path 0o600 w) X := by
  refine .bind (U := fun f w => ∃ o, o.temp = none ∧ L f = none ∧
    At a (Function.update L f (some o)) (fun w => S w ∧ Sealed path 0o600 w) w) ?_ fun f => .of_exists fun o => .imp fun ht => .imp fun hnone => ?_
  · refine runs_lift_bind (runs_sysOpenLock hS hlock hroot) fun r => .of_exists fun f => .of_exists fun i => .of_exists fun since =>
      .imp fun hr => .imp fun hnone => ?_
    subst hr
    have hself : Function.update L f (some (Open.at path i since)) f = some (Open.at path i since) := Function.update_self _ _ _
    have hnames : Lasting root fun w : World A V => S w ∧ Names path i w := hS.and (lasting_names hlock.not_temporary)
    refine runs_lift_orElseDrop ?_
    refine runs_lift_bind (runs_fstat hnames hself) fun r => .of_exists fun metadata => .imp fun hr => .imp fun hkind => .imp fun howned => ?_
    subst hr
    refine runs_lift_bind (U := fun m w => m = metadata ∧ At a (Function.update L f (some (.at path i since))) (fun w => S w ∧ Names path i w) w)
      (.pure fun _ _ h => ⟨rfl, h⟩) fun m => .imp fun hm => ?_
    subst hm
    have hok : ¬(m.kind ≠ .file ∨ ¬m.owned) := by simp [hkind, howned]
    change ((protocol root tick).whole a).Runs _ (Prog.lift (if _ then _ else _)) _ _
    rw [if_neg hok]
    refine runs_lift_bind (runs_fchmod hnames hself fun _ hs => hs.2) fun r => .imp fun hr => ?_
    subst hr
    refine runs_lift_bind (U := fun _ => At a (Function.update L f (some (.at path i since))) fun w => (S w ∧ Names path i w) ∧ Sealed path 0o600 w)
      (.pure fun _ _ h => h) fun _ => .pure fun w _ h => ⟨.at path i since, rfl, hnone, h.1, h.2.1.1, h.2.2⟩
  · refine (runs_close (hS.and hlock.lasting) (Function.update_self _ _ _) ht).post fun _ w _ h => ?_
    rw [Function.update_idem, ← hnone, Function.update_eq_self] at h
    exact h

lemma runs_touchLock_there (hS : Lasting root S) (hlock : Lock root path) (hroot : ∀ w, S w → There root w) :
    ((protocol root tick).whole a).Runs (At a L S) (touchLock path) (fun _ => At a L fun w => S w ∧ There path w) X :=
  (runs_touchLock hS hlock hroot).post fun _ _ _ h => ⟨h.1, h.2.1, h.2.2.there⟩

/-- What is left to write gets less with every call. -/
lemma runs_writeAll (hS : Lasting root S) {f : ℕ} {bytes : Bytes} :
    ((protocol root tick).whole a).Runs (fun w => ∃ o, o.temp = some [] ∧ At a (Function.update L f (some o)) S w) (writeAll f bytes).lift
      (fun _ w => ∃ o, o.temp = some bytes ∧ At a (Function.update L f (some o)) S w) X := by
  unfold writeAll
  rw [Prog.lift_iterate]
  refine (Protocol.Scope.Runs.iterate (J := fun n left w => n = left.length ∧ ∃ written, written ++ left = bytes ∧
    ∃ o, o.temp = some written ∧ At a (Function.update L f (some o)) S w) (fun n left => ?_) bytes.length bytes).pre
    fun w _ h => ⟨rfl, [], rfl, h⟩
  refine .imp fun hn => .of_exists fun written => .imp fun hall => .of_exists fun o => .imp fun ht => ?_
  change ((protocol root tick).whole a).Runs _ (Prog.lift (if _ then _ else _)) _ _
  by_cases hleft : left = []
  · rw [if_pos hleft]
    rw [hleft, List.append_nil] at hall
    exact .pure fun w _ h => ⟨o, hall ▸ ht, h⟩
  · rw [if_neg hleft]
    refine runs_lift_bind (runs_write hS (Function.update_self _ _ _) ht) fun r => .of_exists fun k => .imp fun hr => .imp fun hpos =>
      .imp fun hle => ?_
    subst hr
    refine runs_lift_bind (U := fun m w => m = k ∧
      At a (Function.update (Function.update L f (some o)) f (some { o with temp := some (written ++ left.take k) })) S w)
      (.pure fun _ _ h => ⟨rfl, h⟩) fun m => .imp fun hm => ?_
    subst hm
    refine .pure fun w _ h => ⟨(left.drop m).length, ?_, rfl, written ++ left.take m, ?_, { o with temp := some (written ++ left.take m) }, rfl, ?_⟩
    · have := hpos hleft
      rw [List.length_drop, hn]
      omega
    · rw [List.append_assoc, List.take_append_drop, hall]
    · rw [Function.update_idem] at h
      exact h

/-- The tag is put in place whole, or is there. -/
lemma runs_createPrivate (hS : Lasting root S) (hroot : ∀ w, S w → There root w) :
    ((protocol root tick).whole a).Runs (At a L S) (createPrivate root cachedirTag cachedirTagText)
      (fun _ => At a L fun w => S w ∧ There (root ++ [cachedirTag]) w) X := by
  have htag : ¬Temporary root (root ++ [cachedirTag]) := not_temporary_child (by decide)
  have hthere : Lasting root fun w : World A V => S w ∧ There (root ++ [cachedirTag]) w := hS.and (lasting_there htag)
  refine .bind (runs_lstat hS htag) fun r => .or (.imp fun hr => ?_) (.of_exists fun metadata => .imp fun hr => .imp fun _ => ?_)
  · subst hr
    refine .bind (runs_tempfile hS hroot) fun r => .of_exists fun f => .of_exists fun o => .imp fun hr => .imp fun hnone => .imp fun ht => ?_
    subst hr
    refine .bind (U := fun g w => g = f ∧ At a (Function.update L f (some o)) S w) (.pure fun _ _ h => ⟨rfl, h⟩) fun g => .imp fun hg => ?_
    subst hg
    refine .bind (runs_lift_orElseDrop ((runs_writeAll hS (L := L)).pre fun w _ h => ⟨o, ht, h⟩)) fun _ => .of_exists fun o => .imp fun ht => ?_
    have hself : Function.update L g (some o) g = some o := Function.update_self _ _ _
    refine .bind (runs_link hS hself ht hroot) fun r => .or (.imp fun hr => .of_exists fun o' => .imp fun ht' => ?_) (.imp fun hr => ?_)
    · subst hr
      refine (runs_close hthere (Function.update_self _ _ _) ht').post fun _ w _ h => ?_
      rw [Function.update_idem, Function.update_idem, ← hnone, Function.update_eq_self] at h
      exact h
    · subst hr
      refine .bind (runs_dropTemp hthere hself ht) fun _ => .bind (runs_close hthere (Function.update_self _ _ _) rfl) fun _ => ?_
      refine .pure fun w _ h => ?_
      rw [Function.update_idem, Function.update_idem, ← hnone, Function.update_eq_self] at h
      exact h
  · subst hr
    exact .pure fun _ _ h => h

lemma runs_touch (hS : Lasting root S) (hthere : ∀ w, S w → There (root ++ pruneLock) w) {ms : ℕ} :
    ((protocol root tick).whole a).Runs (At a L S) (touch (root ++ pruneLock) ms).lift (fun _ => At a L S) X := by
  refine runs_lift_bind (runs_openRead hS hthere) fun r => .of_exists fun f => .of_exists fun o => .imp fun hr => .imp fun hnone =>
    .imp fun ht => ?_
  subst hr
  refine runs_lift_bind (U := fun g w => g = f ∧ At a (Function.update L f (some o)) S w) (.pure fun _ _ h => ⟨rfl, h⟩) fun g => .imp fun hg => ?_
  subst hg
  have hself : Function.update L g (some o) g = some o := Function.update_self _ _ _
  refine runs_lift_handle (Y := fun _ _ => False) (U := fun _ => At a (Function.update L g (some o)) S) ?_ (fun _ => ?_) fun _ _ _ h => h.elim
  · refine runs_lift_bind (runs_setModified hS hself) fun r => .imp fun hr => ?_
    subst hr
    exact .pure fun _ _ h => h
  · refine runs_lift_bind (runs_close hS hself ht) fun _ => .pure fun w _ h => ?_
    rw [Function.update_idem, ← hnone, Function.update_eq_self] at h
    exact h

/-- What an open cache is. -/
structure Complete (root : Path) (w : World A V) : Prop where
  own : ∀ path, Own root path → ∃ i, w.names path = some i ∧ (w.nodes i).kind = .dir ∧ (w.nodes i).owned = true ∧ (w.nodes i).mode = 0o700
  file : ∀ path, Lock root path ∨ path = root ++ [cachedirTag] →
    ∃ i, w.names path = some i ∧ (w.nodes i).kind = .file ∧ (w.nodes i).owned = true ∧ (w.nodes i).mode = 0o600
  tag : ∀ i, w.names (root ++ [cachedirTag]) = some i → (w.nodes i).bytes = cachedirTagText

/-- What an opener has seen to when it is done. -/
structure Seen (root : Path) (w : World A V) : Prop where
  own : ∀ path, Own root path → Sealed path 0o700 w
  maintenance : Sealed (root ++ maintenanceLock) 0o600 w
  pruning : There (root ++ pruneLock) w
  tag : There (root ++ [cachedirTag]) w

lemma Seen.complete (h : Seen root w) (hi : Inv root w) : Complete root w := by
  refine ⟨fun path hown => ?_, ?_, fun i hname => ((hi.good _ i hname).tag rfl).2.2.2⟩
  · obtain ⟨i, hname, hmode⟩ := h.own path hown
    obtain ⟨hkind, howned⟩ := (hi.good path i hname).own hown
    exact ⟨i, hname, hkind, howned, hmode⟩
  · rintro path ((rfl | rfl) | rfl)
    · obtain ⟨i, hname, hmode⟩ := h.maintenance
      obtain ⟨hkind, howned⟩ := (hi.good _ i hname).maintenance rfl
      exact ⟨i, hname, hkind, howned, hmode⟩
    · obtain ⟨i, hname⟩ := Option.ne_none_iff_exists'.mp h.pruning
      exact ⟨i, hname, (hi.good _ i hname).pruning rfl⟩
    · obtain ⟨i, hname⟩ := Option.ne_none_iff_exists'.mp h.tag
      obtain ⟨hkind, howned, hmode, -⟩ := (hi.good _ i hname).tag rfl
      exact ⟨i, hname, hkind, howned, hmode⟩

lemma lasting_seen : Lasting root (Seen root : World A V → Prop) where
  step hi hallowed hsem hs := ⟨fun path hown => (lasting_own hown).step hi hallowed hsem (hs.own path hown),
    lasting_maintenance.step hi hallowed hsem hs.maintenance,
    (lasting_there (not_temporary_child (by decide))).step hi hallowed hsem hs.pruning,
    (lasting_there (not_temporary_child (by decide))).step hi hallowed hsem hs.tag⟩
  congr hnames hnodes hs := ⟨fun path hown => (lasting_own hown).congr hnames hnodes (hs.own path hown),
    lasting_maintenance.congr hnames hnodes hs.maintenance,
    (lasting_there (not_temporary_child (by decide))).congr hnames hnodes hs.pruning,
    (lasting_there (not_temporary_child (by decide))).congr hnames hnodes hs.tag⟩

/-- An opener returns without an error, and then the root is complete. -/
lemma runs_withClock (inner : Inner) :
    ((protocol root tick).whole a).Runs (At a L fun _ : World A V => True) (withClock root inner)
      (fun r w => r = inner ∧ At a L (Seen root) w) (fun _ _ => False) := by
  have hroot : Lasting root fun w : World A V => True ∧ Sealed root 0o700 w := (lasting_const _).and (lasting_own (Or.inl rfl))
  have hentries := hroot.and (lasting_own (Or.inr (Or.inl (Eq.refl (root ++ entries)))))
  have hlocks := hentries.and (lasting_own (Or.inr (Or.inr (Eq.refl (root ++ locks)))))
  have hmaintenance := hlocks.and lasting_maintenance
  have htag := hmaintenance.and (lasting_there (show ¬Temporary root (root ++ [cachedirTag]) from not_temporary_child (by decide)))
  have hprune := htag.and (lasting_there (show ¬Temporary root (root ++ pruneLock) from not_temporary_child (by decide)))
  have hdir : ∀ {name : Name} {w : World A V}, Inv root w → Sealed root 0o700 w → w.IsDir (root ++ [name]).dropLast := by
    intro name w hi hs
    rw [List.dropLast_concat]
    exact hi.isDir List.prefix_rfl hs.there
  refine .bind (runs_ensureRoot (lasting_const _)) fun _ => ?_
  refine .bind (runs_ensureDir hroot (Or.inr (Or.inl rfl)) fun w hi hs => hdir hi hs.2) fun _ => ?_
  refine .bind (runs_ensureDir hentries (Or.inr (Or.inr rfl)) fun w hi hs => hdir hi hs.1.2) fun _ => ?_
  refine .bind (runs_touchLock hlocks (Or.inl rfl) fun w hs => hs.1.1.2.there) fun _ => ?_
  refine .bind (runs_createPrivate hmaintenance fun w hs => hs.1.1.1.2.there) fun _ => ?_
  have hdone : ∀ w : World A V, ((((((True ∧ Sealed root 0o700 w) ∧ Sealed (root ++ entries) 0o700 w) ∧ Sealed (root ++ locks) 0o700 w) ∧
      Sealed (root ++ maintenanceLock) 0o600 w) ∧ There (root ++ [cachedirTag]) w) ∧ There (root ++ pruneLock) w) → Seen root w := by
    rintro w ⟨⟨⟨⟨⟨⟨-, hroot⟩, hentries⟩, hlocks⟩, hmaintenance⟩, htag⟩, hprune⟩
    refine ⟨?_, hmaintenance, hprune, htag⟩
    rintro path (rfl | rfl | rfl)
    · exact hroot
    · exact hentries
    · exact hlocks
  refine .bind (runs_lstat htag (not_temporary_child (by decide))) fun r => .or (.imp fun hr => ?_)
    (.of_exists fun metadata => .imp fun hr => .imp fun _ => ?_)
  · subst hr
    refine .bind (runs_touchLock_there htag (Or.inr rfl) fun w hs => hs.1.1.1.1.2.there) fun _ => ?_
    refine .bind (runs_now hprune) fun now => .bind (runs_touch hprune fun w hs => hs.2) fun _ => ?_
    exact .pure fun w _ h => ⟨rfl, h.1, hdone w h.2⟩
  · subst hr
    exact .pure fun w _ h => ⟨rfl, h.1, hdone w h.2⟩

/-- Any number of callers open `root` in a world where what is there already is what it must be. -/
structure Opens (root : Path) (inner : A → Inner) (s : Pool A (World A V) Error (Op V) Ret Inner) : Prop where
  progs : ∀ a p, s.progs a = some p → p = withClock root (inner a)
  top : s.world.names [] ≠ none
  good : ∀ p i, s.world.names p = some i → Good root p (s.world.nodes i)
  files : ∀ a f, s.world.files a f = none

/-- How a call of `a` ends. -/
def Returned (root : Path) (inner : A → Inner) (a : A) (r : Except Error Inner) (w : World A V) : Prop :=
  r = .ok (inner a) ∧ At a (fun _ => none) (Seen root) w

variable {inner : A → Inner}

lemma stable_returned (a : A) (r : Except Error Inner) : (protocol root tick (V := V)).Stable a (Returned root inner a r) :=
  (Protocol.stable_const _).and lasting_seen.calm.step

lemma Opens.live {s : Pool A (World A V) Error (Op V) Ret Inner} (h : Opens root inner s) :
    Pool.Live (protocol root tick) (Returned root inner) s := by
  have hi : Inv root s.world := by
    refine ⟨h.top, h.good, fun a f o ho => ?_, fun a f o written ho _ => ?_⟩
    · cases ho.symm.trans (h.files a f)
    · cases ho.symm.trans (h.files a f)
  refine ⟨hi, fun a p hp => ?_⟩
  obtain rfl := h.progs a p hp
  refine (runs_withClock (inner a) s.world hi ⟨funext fun f => h.files a f, trivial⟩).mono hi ?_
  rintro (e | r) w _ hr
  · exact hr.elim
  · exact ⟨congrArg Except.ok hr.1, hr.2⟩

/-- However the steps of any number of callers that open `root` interleave, none is ever stuck or fails, each that is not
forgotten returns, and from then on the cache is complete. -/
theorem openers_succeed {inner : A → Inner} :
    (∀ s, (Pool.system (machine A V tick) (Opens root inner)).Reachable s → ∀ a p, s.progs a = some p →
      (∀ r, p = .ret r → r = .ok (inner a) ∧ Complete root s.world) ∧
        ((∀ r, p ≠ .ret r) → ∃ l t, Pool.Label.Of a l ∧ Pool.Step (machine A V tick) s l t)) ∧
    ∀ run labels, Opens root inner (run 0) → ∀ a, (run 0).progs a ≠ none → Pool.Fair (machine A V tick) a run labels →
      ∃ n, (run n).progs a = some (.ret (.ok (inner a))) ∧ Complete root (run n).world := by
  refine ⟨fun s hs a p hp => ?_, fun run labels h a ha hfair => ?_⟩
  · have hlive : Pool.Live (protocol root tick) (Returned root inner) s :=
      Pool.live_of_reachable stable_returned (fun s h => h.live) hs
    rcases hlive.moves hp with ⟨r, rfl, hr⟩ | hmoves
    · refine ⟨fun r' heq => ?_, fun hne => absurd rfl (hne r)⟩
      cases heq
      exact ⟨hr.1, hr.2.2.complete hlive.inv⟩
    · refine ⟨?_, fun _ => hmoves⟩
      rintro r rfl
      exact ⟨(hlive.ret hp).1, (hlive.ret hp).2.2.complete hlive.inv⟩
  · obtain ⟨p, hp⟩ := Option.ne_none_iff_exists'.mp ha
    obtain ⟨n, r, hn, hr⟩ := hfair.returns stable_returned h.live hp
    have hlive : Pool.Live (protocol root tick) (Returned root inner) (run n) := hfair.live stable_returned h.live n
    exact ⟨n, hr.1 ▸ hn, hr.2.2.complete hlive.inv⟩

/-- Two callers open a cache of which nothing is there yet. -/
def unopened (inner : Bool → Inner) : Pool Bool (World Bool Unit) Error (Op Unit) Ret Inner where
  progs a := some (withClock ["srv".toList, "cache".toList] (inner a))
  world := World.of [([], .directory)] 0

lemma opens_unopened (inner : Bool → Inner) : Opens ["srv".toList, "cache".toList] inner (unopened inner) := by
  refine ⟨fun a p hp => (Option.some_inj.mp hp).symm, ?_, fun p i hname => ?_, fun _ _ => rfl⟩
  · simp [unopened, World.of]
  · obtain ⟨rfl, rfl⟩ : [] = p ∧ 0 = i := by simpa [unopened, World.of, List.findIdx?_cons] using hname
    exact ⟨fun _ => rfl, fun _ => ⟨rfl, rfl⟩, (fun heq => by cases heq), (fun heq => by cases heq), fun heq => by cases heq⟩

lemma kill_nobody (w : World A V) : w.kill (fun _ => False) = w := by
  cases w
  simp [World.kill]

theorem openers_succeed_unopened : ∃ (inner : Bool → Inner) (run : ℕ → Pool Bool (World Bool Unit) Error (Op Unit) Ret Inner)
    (labels : ℕ → Pool.Label Bool), (run 0).world.names ["srv".toList] = none ∧ (∀ a, Pool.Fair (machine Bool Unit fun _ _ => True) a run labels) ∧
      ∀ a, ∃ n, (run n).progs a = some (.ret (.ok (inner a))) ∧ Complete ["srv".toList, "cache".toList] (run n).world := by
  obtain ⟨run, labels, h0, hfair⟩ := Pool.Live.exists_fair (M := machine Bool Unit fun _ _ => True) kill_nobody stable_returned [true, false]
    (opens_unopened fun _ => roomy).live fun a _ => by simp [unopened]
  have hall : ∀ a, Pool.Fair (machine Bool Unit fun _ _ => True) a run labels := fun a => hfair a (by cases a <;> simp)
  refine ⟨_, run, labels, ?_, hall, fun a => openers_succeed.2 run labels (h0 ▸ opens_unopened _) a ?_ (hall a)⟩
  · rw [h0]
    simp [unopened, World.of, List.findIdx?_cons]
  · rw [h0]
    simp [unopened]

end Unixd.Cache.Opening
