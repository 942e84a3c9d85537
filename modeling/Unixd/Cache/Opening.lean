import Unixd.Cache.Calls
import Unixd.Lib.Utf8

/-!
# Opening a root

`Cache::with_clock` and what it calls, on absolute paths: the root and the directories above it are made when they are
missing, the tag is linked into place without replacing anything, and each step may find that another caller was first.
-/

namespace Unixd.Cache

open Unixd.Lib

set_option linter.unusedSectionVars false

/-- Two more calls: what `Path::is_dir` asks, and a temporary file that is given a name that nothing has. -/
inductive Call where
  | isDir (path : Path)
  | link (f : ℕ) (dst : Path)

def Call.Ret : Call → Type
  | .isDir _ => Bool
  | .link _ _ => Except ErrorKind Unit

namespace Opening

abbrev Op (V : Type) := Cache.Op V ⊕ Call

abbrev Ret {V : Type} : Op V → Type :=
  Sum.elim Cache.Op.Ret Call.Ret

/-- Programs that open a root. -/
abbrev M (V : Type) := Prog Error (Op V) Ret

variable {V A : Type}

/-- One call of `a`. What `is_dir` says of a symlink depends on what it points to. -/
inductive Sem [DecidableEq A] (a : A) : (op : Op V) → World A V → Ret op → World A V → Prop where
  | call {op : Cache.Op V} {r : op.Ret} {w w'} (h : Cache.Sem (fun _ => False) a op w r w') : Sem a (.inl op) w r w'
  | isDir {path w} {r : Bool} (h : r = true ↔ w.IsDir path) : Sem a (.inr (.isDir path)) w r w
  | isDirLink {path i w} {r : Bool} (h : w.names path = some i) (kind : (w.nodes i).kind = .symlink) :
      Sem a (.inr (.isDir path)) w r w
  | link {f dst o i written w} (h : w.files a f = some o) (temp : o.temp = some written) (src : w.names o.path = some i)
      (dir : w.IsDir dst.dropLast) (new : w.names dst = none) :
      Sem a (.inr (.link f dst)) w (.ok ())
        ((((w.setName o.path none).setName dst (some i)).log a (.renamed o.path dst (w.nodes i).bytes)).setFile a f
          (some { o with path := dst, temp := none }))
  | linkExists {f dst i w} (h : w.names dst = some i) : Sem a (.inr (.link f dst)) w (.error .alreadyExists) w
  | linkMissing {f dst o w} (h : w.files a f = some o) (src : w.names o.path = none ∨ ¬w.IsDir dst.dropLast) :
      Sem a (.inr (.link f dst)) w (.error .notFound) w

noncomputable def machine (A V : Type) [DecidableEq A] (tick : ℕ → ℕ → Prop) : Machine A (World A V) (Op V) Ret where
  sem := Sem
  env w w' := ∃ clock, clock ≤ u64Max ∧ tick w.clock clock ∧ w' = w.setClock clock
  kill := World.kill

def call (op : Op V) : M V (Ret op) :=
  Prog.op op

def isDir (path : Path) : M V Bool :=
  call (Sum.inr (.isDir path))

def link (f : ℕ) (dst : Path) : M V (Except ErrorKind Unit) :=
  call (Sum.inr (.link f dst))

def ofResult {α : Type} : Except ErrorKind α → M V α
  | .ok a => pure a
  | .error e => throw (.io e)

/-- What `mkdir` does for `create_dir_all` where the parent may have to be made first. -/
def createOr (path : Path) (missing : M V Unit) : M V Unit := do
  match ← (Sys.mkdir path).lift with
  | .ok () => return ()
  | .error .notFound => missing
  | .error e => if ← isDir path then return () else throw (.io e)

/-- `create_dir_all`; the names of the path come last first. -/
def createDirAll : List Name → M V Unit
  | [] => createOr [] (throw (.io (.other 0)))
  | name :: parents => createOr (name :: parents).reverse do
    createDirAll parents
    match ← (Sys.mkdir (name :: parents).reverse).lift with
    | .ok () => return ()
    | .error e => if ← isDir (name :: parents).reverse then return () else throw (.io e)

/-- Refuses a symlink or another user's directory, then sets `0700`. -/
def validateRoot (root : Path) : M V Unit := do
  match ← (Sys.lstat root).lift with
  | .error _ => throw .unsafeRoot
  | .ok metadata =>
    if metadata.kind ≠ .dir ∨ ¬metadata.owned then
      throw .unsafeRoot
    else
      (setMode root 0o700).lift

def ensureRoot (root : Path) : M V Unit := do
  match ← (Sys.lstat root).lift with
  | .ok _ => validateRoot root
  | .error .notFound =>
    createDirAll root.reverse
    validateRoot root
  | .error e => throw (.io e)

def temporaryStart : Name := ".tmp".toList

/-- Writes a new file in `dir`, leaving an existing one as it is. The file appears whole or not at all. -/
def createPrivate (dir : Path) (name : Name) (bytes : Bytes) : M V Unit := do
  let target := dir ++ [name]
  match ← (Sys.lstat target).lift with
  | .ok _ => return ()
  | .error _ =>
    let file ← ofResult (← (Sys.tempfile dir temporaryStart []).lift)
    (orElseDrop (Sys.dropTemp file >>= fun _ => Sys.close file) (writeAll file bytes)).lift
    match ← link file target with
    | .ok () => (Sys.close file).lift
    | .error e =>
      (Sys.dropTemp file).lift
      (Sys.close file).lift
      if e = .alreadyExists then return () else throw (.io e)

def cachedirTag : Name := "CACHEDIR.TAG".toList

def cachedirTagText : Bytes :=
  utf8 "Signature: 8a477f597d28d172789f06886806bc55
# This file is a cache directory tag created by unixd-cache.
# For information about cache directory tags, see https://bford.info/cachedir/
".toList

/-- Opens a lock file and closes it. -/
def touchLock (path : Path) : M V Unit := do
  let file ← (openLock path).lift
  (Sys.close file).lift

def withClock (root : Path) (inner : Inner) : M V Inner := do
  ensureRoot root
  (ensureDir (root ++ entries)).lift
  (ensureDir (root ++ locks)).lift
  touchLock (root ++ maintenanceLock)
  createPrivate root cachedirTag cachedirTagText
  match ← (Sys.lstat (root ++ pruneLock)).lift with
  | .ok _ => return inner
  | .error _ =>
    touchLock (root ++ pruneLock)
    let now ← Sys.now.lift
    (touch (root ++ pruneLock) now).lift
    return inner

/-- The directories of the cache itself. -/
def Own (root path : Path) : Prop :=
  path = root ∨ path = root ++ entries ∨ path = root ++ locks

/-- What the inode at a path must be, whoever made it. -/
structure Good (root path : Path) (node : Node) : Prop where
  above : path <+: root → node.kind = .dir
  own : Own root path → node.kind = .dir ∧ node.owned = true
  maintenance : path = root ++ maintenanceLock → node.kind = .file ∧ node.owned = true
  pruning : path = root ++ pruneLock → node.kind = .file ∧ node.owned = true ∧ node.mode = 0o600
  tag : path = root ++ [cachedirTag] → node.kind = .file ∧ node.owned = true ∧ node.mode = 0o600 ∧ node.bytes = cachedirTagText

/-- The name of a temporary file in the root. -/
def Temporary (root path : Path) : Prop :=
  ∃ random, path = root ++ [temporaryStart ++ random ++ []]

/-- A temporary file that still has its own name. -/
structure Loose (root : Path) (w : World A V) (a : A) (f : ℕ) (o : Open) (written : Bytes) : Prop where
  name : w.names o.path = some o.ino
  only : ∀ q, w.names q = some o.ino → q = o.path
  mode : (w.nodes o.ino).mode = 0o600
  bytes : (w.nodes o.ino).bytes = written
  alone : ∀ b g o', w.files b g = some o' → o'.ino = o.ino → b = a ∧ g = f
  place : Temporary root o.path

/-- What holds while any number of callers open the cache at `root`. -/
structure Inv (root : Path) (w : World A V) : Prop where
  top : w.names [] ≠ none
  good : ∀ p i, w.names p = some i → Good root p (w.nodes i)
  file : ∀ a f o, w.files a f = some o → (w.nodes o.ino).kind = .file ∧ (w.nodes o.ino).owned = true
  temp : ∀ a f o written, w.files a f = some o → o.temp = some written → Loose root w a f o written

/-- What a caller does. -/
def Allowed (root : Path) (a : A) : Op V → World A V → Prop
  | .inl (.lstat _), _ | .inl (.fstat _), _ | .inl .now, _ | .inr (.isDir _), _ => True
  | .inl (.openLock path), _ => path = root ++ maintenanceLock ∨ path = root ++ pruneLock
  | .inl (.openRead path follow), _ => path = root ++ pruneLock ∧ follow = false
  | .inl (.chmod path mode), _ => Own root path ∧ mode = 0o700
  | .inl (.fchmod _ mode), _ => mode = 0o600
  | .inl (.mkdir path), _ => path <+: root ∨ Own root path
  | .inl (.close f), w => ∀ o, w.files a f = some o → o.temp = none
  | .inl (.tempfile dir start suffix), _ => dir = root ∧ start = temporaryStart ∧ suffix = []
  | .inl (.write _ _), _ | .inl (.setModified _ _), _ | .inl (.dropTemp _), _ => True
  | .inr (.link f dst), w => dst = root ++ [cachedirTag] ∧ ∀ o, w.files a f = some o → o.temp = some cachedirTagText
  | _, _ => False

section

variable {root path : Path} {node : Node} {w w' : World A V} {a b : A}

lemma Temporary.child (h : Temporary root path) : ChildOf root path := by
  obtain ⟨random, rfl⟩ := h
  exact ⟨_, rfl⟩

lemma Temporary.ne {name : Name} (h : Temporary root path) (hname : name.head? ≠ some '.') : path ≠ root ++ [name] := by
  obtain ⟨random, rfl⟩ := h
  intro heq
  rw [List.append_cancel_left_eq, List.cons.injEq] at heq
  rw [← heq.1] at hname
  exact hname rfl

/-- Nothing is said of a file with a name of its own. -/
lemma Temporary.good (h : Temporary root path) : Good root path node := by
  refine ⟨fun hprefix => ?_, ?_, fun heq => absurd heq (h.ne (by decide)), fun heq => absurd heq (h.ne (by decide)),
    fun heq => absurd heq (h.ne (by decide))⟩
  · have hlen := h.child.length ▸ hprefix.length_le
    omega
  · rintro (heq | heq | heq)
    · have hlen := h.child.length
      rw [heq] at hlen
      omega
    · exact absurd heq (h.ne (by decide))
    · exact absurd heq (h.ne (by decide))

lemma not_prefix {name : Name} : ¬root ++ [name] <+: root := by
  intro h
  have hlen := h.length_le
  simp at hlen

/-- A directory that is made. -/
lemma Good.dir {mode : ℕ} {modified : ℤ} (h : path <+: root ∨ Own root path) : Good root path (.empty .dir mode modified) := by
  have hne : ∀ {name : Name}, name ≠ "entries".toList → name ≠ "locks".toList → path ≠ root ++ [name] := by
    rintro name hentries hlocks rfl
    rcases h with h | h | h | h
    · exact not_prefix h
    · simp at h
    · exact hentries (by simpa [entries] using h)
    · exact hlocks (by simpa [locks] using h)
  exact ⟨fun _ => rfl, fun _ => ⟨rfl, rfl⟩, fun heq => absurd heq (hne (by decide) (by decide)),
    fun heq => absurd heq (hne (by decide) (by decide)), fun heq => absurd heq (hne (by decide) (by decide))⟩

/-- A lock file that is made. -/
lemma Good.lock {modified : ℤ} (h : path = root ++ maintenanceLock ∨ path = root ++ pruneLock) :
    Good root path (.empty .file 0o600 modified) := by
  have hne : ∀ {name : Name}, name ≠ "maintenance.lock".toList → name ≠ "prune.lock".toList → path ≠ root ++ [name] := by
    rintro name hmaintenance hprune rfl
    rcases h with h | h
    · exact hmaintenance (by simpa [maintenanceLock] using h)
    · exact hprune (by simpa [pruneLock] using h)
  refine ⟨fun hprefix => ?_, ?_, fun _ => ⟨rfl, rfl⟩, fun _ => ⟨rfl, rfl, rfl⟩, fun heq => absurd heq (hne (by decide) (by decide))⟩
  · rcases h with rfl | rfl
    · exact absurd hprefix not_prefix
    · exact absurd hprefix not_prefix
  · rintro (heq | heq | heq)
    · rcases h with rfl | rfl
      · simp [maintenanceLock] at heq
      · simp [pruneLock] at heq
    · exact absurd heq (hne (by decide) (by decide))
    · exact absurd heq (hne (by decide) (by decide))

/-- The tag that is put in place. -/
lemma Good.tagged (hkind : node.kind = .file) (howned : node.owned = true) (hmode : node.mode = 0o600)
    (hbytes : node.bytes = cachedirTagText) : Good root (root ++ [cachedirTag]) node := by
  have hne : ∀ {name : Name}, name ≠ cachedirTag → root ++ [cachedirTag] ≠ root ++ [name] := by
    intro name hname heq
    exact hname (by simpa using heq.symm)
  refine ⟨fun h => absurd h not_prefix, ?_, fun heq => absurd heq (hne (by decide)), fun heq => absurd heq (hne (by decide)),
    fun _ => ⟨hkind, howned, hmode, hbytes⟩⟩
  rintro (heq | heq | heq)
  · simp at heq
  · exact absurd heq (hne (by decide))
  · exact absurd heq (hne (by decide))

lemma Good.mode {mode : ℕ} (h : Good root path node) (hmode : node.kind = .dir ∨ mode = 0o600) : Good root path { node with mode := mode } := by
  have hfile : node.kind = .file → mode = 0o600 := fun hkind => hmode.resolve_left fun hdir => by cases hkind.symm.trans hdir
  exact ⟨h.above, h.own, h.maintenance, fun heq => ⟨(h.pruning heq).1, (h.pruning heq).2.1, hfile (h.pruning heq).1⟩,
    fun heq => ⟨(h.tag heq).1, (h.tag heq).2.1, hfile (h.tag heq).1, (h.tag heq).2.2.2⟩⟩

variable {i f : ℕ} {o : Open}

lemma Inv.congr (h : Inv root w) (hnames : w'.names = w.names) (hnodes : w'.nodes = w.nodes) (hfiles : w'.files = w.files) : Inv root w' := by
  refine ⟨hnames ▸ h.top, fun p i hp => ?_, fun a f o ho => ?_, fun a f o written ho ht => ?_⟩
  · rw [hnodes]
    exact h.good p i (hnames ▸ hp)
  · rw [hnodes]
    exact h.file a f o (hfiles ▸ ho)
  · obtain ⟨hname, honly, hmode, hbytes, halone, hplace⟩ := h.temp a f o written (hfiles ▸ ho) ht
    refine ⟨hnames ▸ hname, fun q hq => honly q (hnames ▸ hq), hnodes ▸ hmode, hnodes ▸ hbytes, fun b g o' ho' => ?_, hplace⟩
    exact halone b g o' (hfiles ▸ ho')

/-- A new inode with a name of its own. -/
lemma Inv.make (h : Inv root w) (hnone : w.names path = none) (hfree : w.Free i) (hgood : Good root path node) :
    Inv root ((w.setName path (some i)).setNode i node) := by
  have hne : ∀ {b g o}, w.files b g = some o → o.ino ≠ i := fun ho => hfree.2 _ _ _ ho
  refine ⟨?_, fun p j hp => ?_, fun b g o ho => ?_, fun b g o written ho ht => ?_⟩
  · change Function.update w.names path (some i) [] ≠ none
    by_cases heq : [] = path
    · rw [heq, Function.update_self]
      simp
    · rw [Function.update_of_ne heq]
      exact h.top
  · change Good root p (Function.update w.nodes i node j)
    change Function.update w.names path (some i) p = some j at hp
    by_cases heq : p = path
    · subst heq
      rw [Function.update_self, Option.some_inj] at hp
      subst hp
      rwa [Function.update_self]
    · rw [Function.update_of_ne heq] at hp
      have hij : j ≠ i := fun hij => hfree.1 p (hij ▸ hp)
      rw [Function.update_of_ne hij]
      exact h.good p j hp
  · change (Function.update w.nodes i node o.ino).kind = _ ∧ (Function.update w.nodes i node o.ino).owned = _
    rw [Function.update_of_ne (hne ho)]
    exact h.file b g o ho
  · obtain ⟨hname, honly, hmode, hbytes, halone, hplace⟩ := h.temp b g o written ho ht
    have hpath : o.path ≠ path := by
      rintro rfl
      cases hnone.symm.trans hname
    refine ⟨(Function.update_of_ne hpath _ _).trans hname, fun q hq => ?_, ?_, ?_, halone, hplace⟩
    · change Function.update w.names path (some i) q = some o.ino at hq
      by_cases heq : q = path
      · rw [heq, Function.update_self, Option.some_inj] at hq
        exact absurd hq.symm (hne ho)
      · exact honly q ((Function.update_of_ne heq _ _).symm.trans hq)
    · rw [World.nodes_setNode, Function.update_of_ne (hne ho)]
      exact hmode
    · rw [World.nodes_setNode, Function.update_of_ne (hne ho)]
      exact hbytes

/-- An inode that stays what it must be. -/
lemma Inv.setNode (h : Inv root w) (hkind : node.kind = (w.nodes i).kind) (howned : node.owned = (w.nodes i).owned)
    (hgood : ∀ p, w.names p = some i → Good root p node)
    (htemp : ∀ b g o written, w.files b g = some o → o.temp = some written → o.ino = i → node.mode = 0o600 ∧ node.bytes = written) :
    Inv root (w.setNode i node) := by
  refine ⟨h.top, fun p j hp => ?_, fun b g o ho => ?_, fun b g o written ho ht => ?_⟩
  · change Good root p (Function.update w.nodes i node j)
    by_cases hij : j = i
    · rw [hij, Function.update_self]
      exact hgood p (hij ▸ hp)
    · rw [Function.update_of_ne hij]
      exact h.good p j hp
  · rw [World.nodes_setNode]
    by_cases hij : o.ino = i
    · rw [hij, Function.update_self, hkind, howned, ← hij]
      exact h.file b g o ho
    · rw [Function.update_of_ne hij]
      exact h.file b g o ho
  · obtain ⟨hname, honly, hmode, hbytes, halone, hplace⟩ := h.temp b g o written ho ht
    by_cases hij : o.ino = i
    · obtain ⟨hmode', hbytes'⟩ := htemp b g o written ho ht hij
      refine ⟨hname, honly, ?_, ?_, halone, hplace⟩
      · rw [World.nodes_setNode, hij, Function.update_self]
        exact hmode'
      · rw [World.nodes_setNode, hij, Function.update_self]
        exact hbytes'
    · refine ⟨hname, honly, ?_, ?_, halone, hplace⟩
      · rw [World.nodes_setNode, Function.update_of_ne hij]
        exact hmode
      · rw [World.nodes_setNode, Function.update_of_ne hij]
        exact hbytes

variable [DecidableEq A]

/-- An open file comes, goes or changes. -/
lemma Inv.setFile (h : Inv root w) {file : Option Open} (hfile : ∀ o, file = some o →
    ((w.nodes o.ino).kind = .file ∧ (w.nodes o.ino).owned = true) ∧
      (∀ b g o', w.files b g = some o' → o'.temp ≠ none → o'.ino = o.ino → b = a ∧ g = f) ∧
      ∀ written, o.temp = some written → Loose root (w.setFile a f file) a f o written) :
    Inv root (w.setFile a f file) := by
  have hcase : ∀ {b g o}, (w.setFile a f file).files b g = some o → file = some o ∧ b = a ∧ g = f ∨ w.files b g = some o := by
    intro b g o ho
    rcases (w.files_setFile_eq_some a f file).mp ho with ⟨heq, hsome⟩ | ⟨-, hold⟩
    · exact Or.inl ⟨hsome, heq⟩
    · exact Or.inr hold
  refine ⟨h.top, h.good, fun b g o ho => ?_, fun b g o written ho ht => ?_⟩
  · rcases hcase ho with ⟨hnew, -⟩ | hold
    · exact (hfile o hnew).1
    · exact h.file b g o hold
  · rcases hcase ho with ⟨hnew, rfl, rfl⟩ | hold
    · exact (hfile o hnew).2.2 written ht
    · obtain ⟨hname, honly, hmode, hbytes, halone, hplace⟩ := h.temp b g o written hold ht
      refine ⟨hname, honly, hmode, hbytes, fun c k o' ho' hino => ?_, hplace⟩
      rcases hcase ho' with ⟨hnew, rfl, rfl⟩ | hold'
      · obtain ⟨rfl, rfl⟩ := (hfile o' hnew).2.1 b g o hold (by simp [ht]) hino.symm
        exact ⟨rfl, rfl⟩
      · exact halone c k o' hold' hino

/-- A temporary file gives its name up, for the tag or for nothing. -/
lemma Inv.settle (h : Inv root w) {written : Bytes} {dst : Path} {x : Option ℕ} (ho : w.files a f = some o) (ht : o.temp = some written)
    (hx : x = none ∧ dst = o.path ∨ x = some o.ino ∧ dst = root ++ [cachedirTag] ∧ w.names dst = none ∧ written = cachedirTagText) {o' : Open}
    (hino : o'.ino = o.ino) (htemp : o'.temp = none) : Inv root (((w.setName o.path none).setName dst x).setFile a f (some o')) := by
  obtain ⟨hname, honly, hmode, hbytes, halone, hplace⟩ := h.temp a f o written ho ht
  have hnames : ∀ q, q ≠ o.path → q ≠ dst → ((w.setName o.path none).setName dst x).names q = w.names q := by
    intro q hq hq'
    exact (Function.update_of_ne hq' _ _).trans (Function.update_of_ne hq _ _)
  have hself : ((w.setName o.path none).setName dst x).names o.path ≠ some o.ino := by
    rcases hx with ⟨rfl, rfl⟩ | ⟨rfl, rfl, hnone, -⟩
    · simp
    · have hne : o.path ≠ root ++ [cachedirTag] := by
        intro heq
        cases hnone.symm.trans (heq ▸ hname)
      simp [Function.update_of_ne hne]
  have hback : ∀ q j, ((w.setName o.path none).setName dst x).names q = some j →
      w.names q = some j ∨ x = some j ∧ q = dst ∧ j = o.ino ∧ dst = root ++ [cachedirTag] ∧ written = cachedirTagText := by
    intro q j hq
    by_cases hdst : q = dst
    · subst hdst
      rw [World.names_setName, Function.update_self] at hq
      rcases hx with ⟨rfl, -⟩ | ⟨rfl, hdst, -, hwritten⟩
      · cases hq
      · exact Or.inr ⟨hq, rfl, (Option.some_inj.mp hq).symm, hdst, hwritten⟩
    · rw [World.names_setName, Function.update_of_ne hdst, World.names_setName] at hq
      by_cases hpath : q = o.path
      · rw [hpath, Function.update_self] at hq
        cases hq
      · exact Or.inl ((Function.update_of_ne hpath _ _).symm.trans hq)
  have hother : ∀ {b g o₁}, (((w.setName o.path none).setName dst x).setFile a f (some o')).files b g = some o₁ →
      o₁ = o' ∧ b = a ∧ g = f ∨ w.files b g = some o₁ ∧ ¬(b = a ∧ g = f) := by
    intro b g o₁ ho₁
    rcases (World.files_setFile_eq_some _ a f _).mp ho₁ with ⟨heq, hsome⟩ | ⟨hne, hold⟩
    · exact Or.inl ⟨(Option.some_inj.mp hsome).symm, heq⟩
    · exact Or.inr ⟨hold, hne⟩
  have hfile := h.file a f o ho
  refine ⟨?_, fun p j hp => ?_, fun b g o₁ ho₁ => ?_, fun b g o₁ written₁ ho₁ ht₁ => ?_⟩
  · have htop : ([] : Path) ≠ o.path := by
      intro heq
      have hlen := hplace.child.length
      rw [← heq] at hlen
      simp at hlen
    have hdst : ([] : Path) ≠ dst := by
      rcases hx with ⟨-, rfl⟩ | ⟨-, rfl, -⟩
      · exact htop
      · simp
    change ((w.setName o.path none).setName dst x).names [] ≠ none
    rw [hnames [] htop hdst]
    exact h.top
  · rcases hback p j hp with hold | ⟨-, rfl, rfl, rfl, hwritten⟩
    · exact h.good p j hold
    · exact Good.tagged hfile.1 hfile.2 hmode (hbytes.trans hwritten)
  · rcases hother ho₁ with ⟨rfl, -⟩ | ⟨hold, -⟩
    · exact hino ▸ hfile
    · exact h.file b g o₁ hold
  · rcases hother ho₁ with ⟨rfl, -⟩ | ⟨hold, hne⟩
    · cases ht₁.symm.trans htemp
    · obtain ⟨hname₁, honly₁, hmode₁, hbytes₁, halone₁, hplace₁⟩ := h.temp b g o₁ written₁ hold ht₁
      have hdiff : o₁.ino ≠ o.ino := fun heq => hne (halone b g o₁ hold heq)
      have hpath : o₁.path ≠ o.path := by
        intro heq
        rw [heq, hname, Option.some_inj] at hname₁
        exact hdiff hname₁.symm
      have hdst : o₁.path ≠ dst := by
        rcases hx with ⟨-, rfl⟩ | ⟨-, rfl, hnone, -⟩
        · exact hpath
        · intro heq
          cases hnone.symm.trans (heq ▸ hname₁)
      refine ⟨(hnames _ hpath hdst).trans hname₁, fun q hq => ?_, hmode₁, hbytes₁, fun c k o₂ ho₂ hino₂ => ?_, hplace₁⟩
      · rcases hback q o₁.ino hq with hold' | ⟨-, -, heq, -⟩
        · exact honly₁ q hold'
        · exact absurd heq hdiff
      · rcases hother ho₂ with ⟨rfl, -⟩ | ⟨hold', -⟩
        · exact absurd (hino₂.symm.trans hino) hdiff
        · exact halone₁ c k o₂ hold' hino₂

/-- The file that a lock's path names is opened. -/
lemma Inv.openFile (h : Inv root w) {since : ℕ} (hpath : path = root ++ maintenanceLock ∨ path = root ++ pruneLock)
    (hname : w.names path = some i) : Inv root (w.setFile a f (some (.at path i since))) := by
  have hgood := h.good path i hname
  have hfile : (w.nodes i).kind = .file ∧ (w.nodes i).owned = true := by
    rcases hpath with rfl | rfl
    · exact hgood.maintenance rfl
    · exact ⟨(hgood.pruning rfl).1, (hgood.pruning rfl).2.1⟩
  refine h.setFile fun o ho => ?_
  obtain rfl := Option.some_inj.mp ho
  refine ⟨hfile, fun b g o' ho' ht hino => ?_, fun written ht => by cases ht⟩
  exfalso
  obtain ⟨written, ht⟩ := Option.ne_none_iff_exists'.mp ht
  obtain ⟨-, honly, -, -, -, hplace⟩ := h.temp b g o' written ho' ht
  have heq : path = o'.path := honly path (hino ▸ hname)
  rcases hpath with rfl | rfl
  · exact hplace.ne (by decide) heq.symm
  · exact hplace.ne (by decide) heq.symm

/-- A temporary file is opened. -/
lemma Inv.openTemporary (h : Inv root w) {modified : ℤ} {random : Name} {since : ℕ}
    (hnone : w.names (root ++ [temporaryStart ++ random ++ []]) = none) (hfree : w.Free i) (hnew : w.files a f = none) :
    Inv root (((w.setName (root ++ [temporaryStart ++ random ++ []]) (some i)).setNode i (.empty .file 0o600 modified)).setFile a f
      (some { Open.at (root ++ [temporaryStart ++ random ++ []]) i since with temp := some [] })) := by
  have hplace : Temporary root (root ++ [temporaryStart ++ random ++ []]) := ⟨random, rfl⟩
  generalize root ++ [temporaryStart ++ random ++ []] = path at hnone hplace
  have hmade : Inv root ((w.setName path (some i)).setNode i (.empty .file 0o600 modified)) := h.make hnone hfree hplace.good
  refine hmade.setFile fun o ho => ?_
  obtain rfl := Option.some_inj.mp ho
  have hnode : ((w.setName path (some i)).setNode i (.empty .file 0o600 modified)).nodes i = .empty .file 0o600 modified :=
    Function.update_self _ _ _
  refine ⟨⟨congrArg Node.kind hnode, congrArg Node.owned hnode⟩, fun b g o' ho' _ hino => absurd hino (hfree.2 b g o' ho'), fun written ht => ?_⟩
  obtain rfl := Option.some_inj.mp ht
  refine ⟨Function.update_self _ _ _, fun q hq => ?_, congrArg Node.mode hnode, congrArg Node.bytes hnode,
    fun b g o' ho' hino => ?_, hplace⟩
  · by_contra hne
    exact hfree.1 q ((Function.update_of_ne hne _ _).symm.trans hq)
  · rcases (World.files_setFile_eq_some _ a f _).mp ho' with ⟨heq, -⟩ | ⟨-, hold⟩
    · exact heq
    · exact absurd hino (hfree.2 b g o' hold)

/-- More is written to a temporary file. -/
lemma Inv.write (h : Inv root w) {written more : Bytes} {modified : ℤ} (ho : w.files a f = some o) (ht : o.temp = some written) :
    Inv root ((w.setNode o.ino { w.nodes o.ino with bytes := (w.nodes o.ino).bytes ++ more, modified := modified }).setFile a f
      (some { o with temp := some (written ++ more) })) := by
  obtain ⟨hname, honly, hmode, hbytes, halone, hplace⟩ := h.temp a f o written ho ht
  have hfile := h.file a f o ho
  have hclosed : Inv root (w.setFile a f none) := h.setFile fun o ho => by cases ho
  have hother : ∀ {b g o'}, (w.setFile a f none).files b g = some o' → o'.ino ≠ o.ino := by
    intro b g o' ho' hino
    rcases (World.files_setFile_eq_some _ a f _).mp ho' with ⟨-, hnone⟩ | ⟨hne, hold⟩
    · cases hnone
    · exact hne (halone b g o' hold hino)
  have hwritten : Inv root ((w.setFile a f none).setNode o.ino
      { w.nodes o.ino with bytes := (w.nodes o.ino).bytes ++ more, modified := modified }) :=
    hclosed.setNode rfl rfl (fun p hp => (honly p hp ▸ hplace).good) fun b g o' _ ho' _ hino => absurd hino (hother ho')
  have hnode : ((w.setFile a f none).setNode o.ino { w.nodes o.ino with bytes := (w.nodes o.ino).bytes ++ more, modified := modified }).nodes o.ino =
      { w.nodes o.ino with bytes := (w.nodes o.ino).bytes ++ more, modified := modified } := Function.update_self _ _ _
  suffices hdone : Inv root (((w.setFile a f none).setNode o.ino { w.nodes o.ino with bytes := (w.nodes o.ino).bytes ++ more, modified := modified }).setFile
      a f (some { o with temp := some (written ++ more) })) by
    refine hdone.congr rfl rfl ?_
    simp [World.files_setFile]
  refine hwritten.setFile fun o' ho' => ?_
  obtain rfl := Option.some_inj.mp ho'
  refine ⟨⟨(congrArg Node.kind hnode).trans hfile.1, (congrArg Node.owned hnode).trans hfile.2⟩,
    fun b g o' ho' _ hino => absurd hino (hother ho'), fun written' ht' => ?_⟩
  obtain rfl := Option.some_inj.mp ht'
  refine ⟨hname, honly, (congrArg Node.mode hnode).trans hmode, (congrArg Node.bytes hnode).trans (congrArg (· ++ more) hbytes),
    fun b g o' ho' hino => ?_, hplace⟩
  rcases (World.files_setFile_eq_some _ a f _).mp ho' with ⟨heq, -⟩ | ⟨-, hold⟩
  · exact heq
  · exact absurd hino (hother hold)

/-- Every call that is allowed keeps the invariant. -/
theorem inv_step {op : Op V} {r : Ret op} (h : Inv root w) (hallowed : Allowed root a op w) (hsem : Sem a op w r w') : Inv root w' := by
  cases hsem with
  | call hsem =>
    cases hsem with
    | fault hf hr => exact hf.elim
    | lstat | fstat | openLockOther | openLockNoDir | openReadMissing | openReadOther | chmodMissing | mkdirExists | mkdirNoDir | tempfileNoDir =>
      exact h
    | openLock hname kind new => exact h.openFile hallowed hname
    | @createLock path i f modified _ hnone dir free new =>
      have hmade : Inv root ((w.setName path (some i)).setNode i (.empty .file 0o600 modified)) := h.make hnone free (Good.lock hallowed)
      have hname : ((w.setName path (some i)).setNode i (.empty .file 0o600 modified)).names path = some i := Function.update_self _ _ _
      exact (hmade.openFile hallowed hname).congr rfl rfl rfl
    | @openRead path follow i f _ hname kind new =>
      obtain ⟨rfl, -⟩ := hallowed
      exact h.openFile (Or.inr rfl) hname
    | followed hname kind new => cases hallowed.2
    | @chmod path mode i _ hname =>
      have hdir := ((h.good path i hname).own hallowed.1).1
      refine h.setNode rfl rfl (fun p hp => (h.good p i hp).mode (Or.inl hdir)) fun b g o written ho _ hino => ?_
      rw [← hino, (h.file b g o ho).1] at hdir
      cases hdir
    | @fchmod f mode o _ ho =>
      obtain rfl : mode = 0o600 := hallowed
      refine h.setNode rfl rfl (fun p hp => (h.good p o.ino hp).mode (Or.inr rfl)) fun b g o' written ho' ht hino => ?_
      exact ⟨rfl, hino ▸ (h.temp b g o' written ho' ht).bytes⟩
    | @mkdir path i modified _ hnone dir free => exact (h.make hnone free (Good.dir hallowed)).congr rfl rfl rfl
    | @close f o _ ho => exact h.setFile fun o ho => by cases ho
    | @tempfile dir start random suffix i f modified _ hnone isDir free new =>
      obtain ⟨rfl, rfl, rfl⟩ := hallowed
      exact (h.openTemporary hnone free new).congr rfl rfl rfl
    | @write f bytes n o written modified _ ho temp le pos => exact h.write ho temp
    | @setModified f ms o _ ho =>
      refine h.setNode rfl rfl (fun p hp => ?_) fun b g o' written ho' ht hino => ?_
      · have hgood := h.good p o.ino hp
        exact ⟨hgood.above, hgood.own, hgood.maintenance, hgood.pruning, hgood.tag⟩
      · have hloose := h.temp b g o' written ho' ht
        exact ⟨hino ▸ hloose.mode, hino ▸ hloose.bytes⟩
    | @dropTemp f o written _ ho temp =>
      have hsettled : Inv root (((w.setName o.path none).setName o.path none).setFile a f (some { o with temp := none })) :=
        h.settle ho temp (Or.inl ⟨rfl, rfl⟩) rfl rfl
      refine hsettled.congr ?_ rfl rfl
      exact (Function.update_idem _ _ _).symm
    | @dropTempFails f o written _ ho temp why =>
      obtain ⟨i, hname, hdir⟩ := why.resolve_left id
      have hloose := h.temp a f o written ho temp
      obtain rfl := Option.some_inj.mp (hname.symm.trans hloose.name)
      rw [(h.file a f o ho).1] at hdir
      cases hdir
    | now => exact h.congr rfl rfl rfl
    | _ => exact hallowed.elim
  | isDir => exact h
  | isDirLink => exact h
  | @link f dst o i written _ ho temp src dir new =>
    obtain ⟨rfl, hwritten⟩ := hallowed
    have htext : written = cachedirTagText := Option.some_inj.mp (temp.symm.trans (hwritten o ho))
    have hino : o.ino = i := Option.some_inj.mp ((h.temp a f o _ ho temp).name.symm.trans src)
    subst hino
    have hsettled : Inv root (((w.setName o.path none).setName (root ++ [cachedirTag]) (some o.ino)).setFile a f
        (some { o with path := root ++ [cachedirTag], temp := none })) :=
      h.settle ho temp (Or.inr ⟨rfl, rfl, new, htext⟩) rfl rfl
    exact hsettled.congr rfl rfl rfl
  | linkExists => exact h
  | linkMissing => exact h

end

end Opening

end Unixd.Cache
