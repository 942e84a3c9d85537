import Unixd.Lib.Alone
import Mathlib.Data.Set.Insert
import Unixd.Cache.Private

/-!
# The scene of one agent

A scene is the world without modes, without what no name leads to, and without its journal. While an agent is on its
own it knows the scene exactly, and of the journal what it added itself.
-/

namespace Unixd.Cache

open Unixd.Lib

set_option linter.unusedSectionVars false

variable {A V : Type} [DecidableEq A]

/-- What is at `path`, without its mode. -/
def World.find (w : World A V) (path : Path) : Option (ℕ × Node) :=
  (w.names path).map fun i => (i, { w.nodes i with mode := 0 })

structure Scene (A : Type) where
  find : Path → Option (ℕ × Node)
  files : A → ℕ → Option Open
  clock : ℕ

def World.scene (w : World A V) : Scene A :=
  ⟨w.find, w.files, w.clock⟩

namespace Scene

variable (v : Scene A)

def setFile (a : A) (f : ℕ) (file : Option Open) : Scene A :=
  { v with files := Function.update v.files a (Function.update (v.files a) f file) }

def put (path : Path) (x : Option (ℕ × Node)) : Scene A :=
  { v with find := Function.update v.find path x }

open Classical in
/-- Without the names in `gone`. -/
noncomputable def less (gone : Set Path) : Scene A :=
  { v with find := fun p => if p ∈ gone then none else v.find p }

/-- What goes when `path` is removed: all that is below a directory too. -/
def extent (path : Path) : Set Path :=
  {p | p = path ∨ path <+: p ∧ ∃ i node, v.find path = some (i, node) ∧ node.kind = .dir}

def lstat (path : Path) : Except ErrorKind Metadata :=
  match v.find path with
  | none => .error .notFound
  | some (i, node) => .ok (node.metadata i)

/-- A directory of the user's own at `path`. -/
def OwnDir (path : Path) : Prop :=
  ∃ i node, v.find path = some (i, node) ∧ node.kind = .dir ∧ node.owned = true

def Conflict (a : A) (f ino : ℕ) (mode : LockMode) : Prop :=
  ∃ b g o, ¬(b = a ∧ g = f) ∧ v.files b g = some o ∧ o.ino = ino ∧
    (o.lock = some .exclusive ∨ mode = .exclusive ∧ o.lock = some .shared)

def Free (i : ℕ) : Prop :=
  (∀ p node, v.find p ≠ some (i, node)) ∧ ∀ a f o, v.files a f = some o → o.ino ≠ i

end Scene

namespace Scene

variable {v : Scene A} {a : A} {path : Path} {f : ℕ}

lemma lstat_none (h : v.find path = none) : v.lstat path = .error .notFound := by
  rw [lstat, h]

lemma lstat_some {i : ℕ} {node : Node} (h : v.find path = some (i, node)) : v.lstat path = .ok (node.metadata i) := by
  rw [lstat, h]

@[simp] lemma find_setFile (file : Option Open) : (v.setFile a f file).find = v.find := rfl
@[simp] lemma clock_setFile (file : Option Open) : (v.setFile a f file).clock = v.clock := rfl
@[simp] lemma files_put (x : Option (ℕ × Node)) : (v.put path x).files = v.files := rfl
@[simp] lemma clock_put (x : Option (ℕ × Node)) : (v.put path x).clock = v.clock := rfl

lemma find_put (x : Option (ℕ × Node)) : (v.put path x).find = Function.update v.find path x := rfl

@[simp] lemma find_put_self (x : Option (ℕ × Node)) : (v.put path x).find path = x :=
  Function.update_self ..

lemma find_put_of_ne {p : Path} (x : Option (ℕ × Node)) (h : p ≠ path) : (v.put path x).find p = v.find p :=
  Function.update_of_ne h ..

@[simp] lemma files_setFile_self (file : Option Open) : (v.setFile a f file).files a f = file := by
  simp [setFile]

lemma files_setFile_of_ne {g : ℕ} (file : Option Open) (h : g ≠ f) : (v.setFile a f file).files a g = v.files a g := by
  simp [setFile, h]

lemma files_setFile_other {b : A} {g : ℕ} (file : Option Open) (h : ¬(b = a ∧ g = f)) :
    (v.setFile a f file).files b g = v.files b g := by
  unfold setFile
  by_cases hb : b = a
  · subst hb
    simp only [true_and] at h
    simp [h]
  · simp [hb]

@[simp] lemma setFile_setFile (file file' : Option Open) : (v.setFile a f file).setFile a f file' = v.setFile a f file' := by
  simp [setFile]

lemma setFile_comm {g : ℕ} (file file' : Option Open) (h : f ≠ g) :
    (v.setFile a f file).setFile a g file' = (v.setFile a g file').setFile a f file := by
  simp [setFile, Function.update_comm h]

@[simp] lemma put_put (x y : Option (ℕ × Node)) : (v.put path x).put path y = v.put path y := by
  simp [put]

lemma put_setFile (file : Option Open) (x : Option (ℕ × Node)) :
    (v.setFile a f file).put path x = (v.put path x).setFile a f file := rfl

lemma setFile_eq_self {file : Option Open} (h : v.files a f = file) : v.setFile a f file = v := by
  simp [setFile, ← h]

lemma put_eq_self {x : Option (ℕ × Node)} (h : v.find path = x) : v.put path x = v := by
  simp [put, ← h]

@[simp] lemma files_less (gone : Set Path) : (v.less gone).files = v.files := rfl
@[simp] lemma clock_less (gone : Set Path) : (v.less gone).clock = v.clock := rfl

lemma find_less_of_mem {gone : Set Path} (h : path ∈ gone) : (v.less gone).find path = none :=
  if_pos h

lemma find_less_of_not_mem {gone : Set Path} (h : path ∉ gone) : (v.less gone).find path = v.find path :=
  if_neg h

lemma find_less_eq_some {gone : Set Path} {x : ℕ × Node} :
    (v.less gone).find path = some x ↔ path ∉ gone ∧ v.find path = some x := by
  by_cases h : path ∈ gone
  · simp [find_less_of_mem h, h]
  · simp [find_less_of_not_mem h, h]

/-- Only the names that are there count. -/
lemma less_congr {gone gone' : Set Path} (h : ∀ p, v.find p ≠ none → (p ∈ gone ↔ p ∈ gone')) : v.less gone = v.less gone' := by
  unfold less
  congr 1
  funext p
  by_cases hp : v.find p = none
  · rw [hp, ite_self, ite_self]
  · by_cases hg : p ∈ gone
    · rw [if_pos hg, if_pos ((h p hp).mp hg)]
    · rw [if_neg hg, if_neg fun hg' => hg ((h p hp).mpr hg')]

lemma less_less (gone gone' : Set Path) : (v.less gone).less gone' = v.less (gone ∪ gone') := by
  unfold less
  congr 1
  funext p
  by_cases hp : p ∈ gone <;> by_cases hp' : p ∈ gone' <;> simp [hp, hp']

@[simp] lemma less_empty : v.less ∅ = v := by
  simp [less]

lemma put_none : v.put path none = v.less {path} := by
  unfold put less
  congr 1
  funext p
  by_cases hp : p = path
  · subst hp
    rw [Function.update_self, if_pos (Set.mem_singleton p)]
  · rw [Function.update_of_ne hp, if_neg fun hmem => hp (Set.mem_singleton_iff.mp hmem)]

lemma less_put {gone : Set Path} (x : Option (ℕ × Node)) (h : path ∉ gone) :
    (v.put path x).less gone = (v.less gone).put path x := by
  unfold put less
  congr 1
  funext p
  dsimp only
  by_cases hp : p = path
  · subst hp
    rw [if_neg h, Function.update_self, Function.update_self]
  · rw [Function.update_of_ne hp, Function.update_of_ne hp]

lemma less_setFile (file : Option Open) (gone : Set Path) : (v.setFile a f file).less gone = (v.less gone).setFile a f file :=
  rfl

lemma extent_of_ne_dir (h : ∀ i node, v.find path = some (i, node) → node.kind ≠ .dir) : v.extent path = {path} := by
  ext p
  refine ⟨fun hp => hp.resolve_right ?_, Or.inl⟩
  rintro ⟨-, i, node, hfind, hkind⟩
  exact h i node hfind hkind

lemma extent_of_dir {i : ℕ} {node : Node} (hfind : v.find path = some (i, node)) (hkind : node.kind = .dir) :
    v.extent path = {p | path <+: p} := by
  ext p
  refine ⟨?_, fun hp => Or.inr ⟨hp, i, node, hfind, hkind⟩⟩
  rintro (rfl | ⟨hp, -⟩)
  · exact List.prefix_rfl
  · exact hp

lemma less_extent_of_none (h : v.find path = none) : v.less (v.extent path) = v := by
  rw [extent_of_ne_dir (by simp [h]), ← put_none, put_eq_self h]

lemma extent_congr {u : Scene A} (h : u.find path = v.find path) : u.extent path = v.extent path := by
  simp only [extent, h]

lemma prefix_of_mem_extent {p : Path} (h : p ∈ v.extent path) : path <+: p := by
  rcases h with rfl | ⟨hp, -⟩
  · exact List.prefix_rfl
  · exact hp

lemma put_comm {p : Path} (x y : Option (ℕ × Node)) (h : p ≠ path) : (v.put path x).put p y = (v.put p y).put path x := by
  unfold put
  rw [Function.update_comm h]

end Scene

namespace World

variable (w : World A V) (a : A)

lemma find_eq_some {path : Path} {i : ℕ} {node : Node} :
    w.find path = some (i, node) ↔ w.names path = some i ∧ { w.nodes i with mode := 0 } = node := by
  unfold find
  rw [Option.map_eq_some_iff]
  constructor
  · rintro ⟨j, hname, heq⟩
    rw [Prod.mk.injEq] at heq
    obtain ⟨rfl, rfl⟩ := heq
    exact ⟨hname, rfl⟩
  · rintro ⟨hname, rfl⟩
    exact ⟨i, hname, rfl⟩

@[simp] lemma find_eq_none {path : Path} : w.find path = none ↔ w.names path = none := by
  simp [find]

lemma scene_find (path : Path) : w.scene.find path = w.find path := rfl

@[simp] lemma scene_log (what : What V) : (w.log a what).scene = w.scene := rfl

@[simp] lemma scene_setFile (f : ℕ) (file : Option Open) : (w.setFile a f file).scene = w.scene.setFile a f file := rfl

lemma scene_lstat (path : Path) : w.lstat path = w.scene.lstat path := by
  unfold lstat Scene.lstat
  rw [scene_find]
  unfold find
  cases w.names path <;> rfl

lemma scene_free (i : ℕ) : w.Free i ↔ w.scene.Free i := by
  refine and_congr ⟨fun h p node hfind => ?_, fun h p hname => ?_⟩ Iff.rfl
  · exact h p (w.find_eq_some.mp hfind).1
  · exact h p _ (w.find_eq_some.mpr ⟨hname, rfl⟩)

lemma scene_chmod (i mode : ℕ) : (w.setNode i { w.nodes i with mode := mode }).scene = w.scene := by
  unfold scene
  congr 1
  funext p
  unfold find
  rw [names_setNode, nodes_setNode]
  congr 1
  funext j
  by_cases hj : j = i
  · subst hj
    rw [Function.update_self]
  · rw [Function.update_of_ne hj]

lemma scene_setName_none (path : Path) : (w.setName path none).scene = w.scene.put path none := by
  unfold scene Scene.put
  congr 1
  funext p
  unfold find
  rw [names_setName, nodes_setName]
  by_cases hp : p = path
  · subst hp
    rw [Function.update_self, Function.update_self]
    rfl
  · rw [Function.update_of_ne hp, Function.update_of_ne hp]

lemma scene_dropTree (path : Path) : (w.dropTree path).scene = w.scene.less {p | path <+: p} := by
  unfold scene Scene.less
  congr 1
  funext p
  unfold find dropTree
  by_cases hp : path <+: p <;> simp [hp]

/-- An inode that only `path` names changes. -/
lemma scene_setNode {path : Path} {i : ℕ} (node : Node) (hname : w.names path = some i)
    (hone : ∀ p, w.names p = some i → p = path) :
    (w.setNode i node).scene = w.scene.put path (some (i, { node with mode := 0 })) := by
  unfold scene Scene.put
  congr 1
  funext p
  unfold find
  rw [names_setNode, nodes_setNode]
  by_cases hp : p = path
  · subst hp
    rw [hname, Function.update_self, Option.map_some, Function.update_self]
  · rw [Function.update_of_ne hp]
    show _ = (w.names p).map _
    cases hq : w.names p with
    | none => rfl
    | some j =>
      have hj : j ≠ i := fun hj => hp (hone p (hj ▸ hq))
      rw [Option.map_some, Option.map_some, Function.update_of_ne hj]

lemma scene_setName_some {path : Path} {i : ℕ} :
    (w.setName path (some i)).scene = w.scene.put path (some (i, { w.nodes i with mode := 0 })) := by
  unfold scene Scene.put
  congr 1
  funext p
  unfold find
  rw [names_setName, nodes_setName]
  by_cases hp : p = path
  · subst hp
    rw [Function.update_self, Function.update_self]
    rfl
  · rw [Function.update_of_ne hp, Function.update_of_ne hp]

/-- A new inode gets a name. -/
lemma scene_create {path : Path} {i : ℕ} (node : Node) (hfree : w.Free i) :
    ((w.setName path (some i)).setNode i node).scene = w.scene.put path (some (i, { node with mode := 0 })) := by
  have hone : ∀ p, (w.setName path (some i)).names p = some i → p = path := by
    intro p hp
    by_contra hne
    rw [names_setName, Function.update_of_ne hne] at hp
    exact hfree.1 p hp
  rw [scene_setNode _ node (Function.update_self ..) hone, scene_setName_some]
  unfold Scene.put
  rw [Function.update_idem]

end World

/-- What an agent may add to a journal; its readings of the clock it always may. -/
structure Margin (A V : Type) where
  before : List (Event A V)
  may : What V → Prop
  clock : ∀ n, may (.clock n)

def Margin.Holds (ℓ : Margin A V) (a : A) (j : List (Event A V)) : Prop :=
  ∃ added, j = ℓ.before ++ added ∧ ∀ e ∈ added, e.agent = a ∧ ℓ.may e.what

/-- The world is as in the scene, and its journal within the margin. -/
structure Sees (a : A) (v : Scene A) (ℓ : Margin A V) (w : World A V) : Prop where
  scene : w.scene = v
  journal : ℓ.Holds a w.journal

/-- Nothing is known of what an agent adds to the journal of `w`. -/
def World.margin (w : World A V) : Margin A V :=
  ⟨w.journal, fun _ => True, fun _ => trivial⟩

lemma World.sees (w : World A V) (a : A) : Sees a w.scene w.margin w :=
  ⟨rfl, [], (List.append_nil _).symm, fun _ he => (nomatch he)⟩

/-- A call fails for a reason of its own. -/
def Fails {β : Type} (faults : Op V → Prop) (op : Op V) (a : A) (v : Scene A) (ℓ : Margin A V) (r : Except ErrorKind β)
    (w : World A V) : Prop :=
  faults op ∧ (∃ code, r = .error (.other code)) ∧ ∃ w₀, Sees a v ℓ w₀ ∧ w = w₀.log a (.failed op)

section

variable {a : A} {v : Scene A} {ℓ ℓ' : Margin A V} {w w' : World A V} {path : Path} {i f : ℕ} {node : Node} {o : Open}

lemma Margin.Holds.add {j : List (Event A V)} (h : ℓ.Holds a j) {what : What V} (hmay : ℓ.may what) :
    ℓ.Holds a (j ++ [⟨a, what⟩]) := by
  obtain ⟨added, rfl, hadded⟩ := h
  refine ⟨added ++ [⟨a, what⟩], by rw [List.append_assoc], fun e he => ?_⟩
  rcases List.mem_append.mp he with hmem | hmem
  · exact hadded e hmem
  · rw [List.mem_singleton] at hmem
    exact hmem ▸ ⟨rfl, hmay⟩

/-- Calls that fail may be added as well. -/
def Margin.lax (ℓ : Margin A V) : Margin A V where
  before := ℓ.before
  may what := ℓ.may what ∨ ∃ op, what = .failed op
  clock n := Or.inl (ℓ.clock n)

/-- The same margin, from a later journal on. -/
def Margin.later (ℓ : Margin A V) (j : List (Event A V)) : Margin A V :=
  { ℓ with before := j }

lemma Margin.Holds.trans {j j' : List (Event A V)} (h : ℓ.Holds a j) (h' : (ℓ.later j).Holds a j') : ℓ.Holds a j' := by
  obtain ⟨added, rfl, hadded⟩ := h
  obtain ⟨added', rfl, hadded'⟩ := h'
  refine ⟨added ++ added', List.append_assoc .., fun e he => ?_⟩
  rcases List.mem_append.mp he with hmem | hmem
  · exact hadded e hmem
  · exact hadded' e hmem

namespace Sees

lemma later (h : Sees a v ℓ w) : Sees a v (ℓ.later w.journal) w :=
  ⟨h.scene, [], (List.append_nil _).symm, fun _ he => (nomatch he)⟩

lemma of_later {j : List (Event A V)} (h : Sees a v (ℓ.later j) w) (hj : ℓ.Holds a j) : Sees a v ℓ w :=
  ⟨h.scene, hj.trans h.journal⟩

lemma log (h : Sees a v ℓ w) {what : What V} (hmay : ℓ.may what) : Sees a v ℓ (w.log a what) :=
  ⟨h.scene, h.journal.add hmay⟩

lemma fails {β : Type} {faults : Op V → Prop} {op : Op V} {r : Except ErrorKind β} (h : Sees a v ℓ w) (hf : faults op)
    (hr : ∃ code, r = .error (.other code)) : Fails faults op a v ℓ r (w.log a (.failed op)) :=
  ⟨hf, hr, w, h, rfl⟩

lemma setFile (h : Sees a v ℓ w) (file : Option Open) : Sees a (v.setFile a f file) ℓ (w.setFile a f file) :=
  ⟨by rw [World.scene_setFile, h.scene], h.journal⟩

lemma files (h : Sees a v ℓ w) : w.files = v.files :=
  h.scene ▸ rfl

lemma clock (h : Sees a v ℓ w) : w.clock = v.clock :=
  h.scene ▸ rfl

lemma find (h : Sees a v ℓ w) : w.find = v.find :=
  h.scene ▸ rfl

lemma lstat (h : Sees a v ℓ w) : w.lstat path = v.lstat path := by
  rw [World.scene_lstat, h.scene]

lemma free (h : Sees a v ℓ w) : w.Free i ↔ v.Free i := by
  rw [World.scene_free, h.scene]

lemma named (h : Sees a v ℓ w) (hfind : v.find path = some (i, node)) :
    w.names path = some i ∧ { w.nodes i with mode := 0 } = node := by
  rw [← h.find] at hfind
  exact w.find_eq_some.mp hfind

lemma unnamed (h : Sees a v ℓ w) (hfind : v.find path = none) : w.names path = none := by
  rw [← h.find] at hfind
  exact w.find_eq_none.mp hfind

lemma isDir (h : Sees a v ℓ w) : w.IsDir path ↔ ∃ i node, v.find path = some (i, node) ∧ node.kind = .dir := by
  constructor
  · rintro ⟨i, hname, hkind⟩
    refine ⟨i, { w.nodes i with mode := 0 }, ?_, hkind⟩
    rw [← h.find]
    exact w.find_eq_some.mpr ⟨hname, rfl⟩
  · rintro ⟨i, node, hfind, hkind⟩
    obtain ⟨hname, rfl⟩ := h.named hfind
    exact ⟨i, hname, hkind⟩

lemma chmod (h : Sees a v ℓ w) (i mode : ℕ) : Sees a v ℓ (w.setNode i { w.nodes i with mode := mode }) :=
  ⟨by rw [World.scene_chmod, h.scene], h.journal⟩

lemma mono (h : Sees a v ℓ w) (hbefore : ℓ'.before = ℓ.before) (hmay : ∀ what, ℓ.may what → ℓ'.may what) :
    Sees a v ℓ' w := by
  obtain ⟨added, hj, hadded⟩ := h.journal
  exact ⟨h.scene, added, hbefore ▸ hj, fun e he => ⟨(hadded e he).1, hmay _ (hadded e he).2⟩⟩

lemma lax (h : Sees a v ℓ w) : Sees a v ℓ.lax w :=
  h.mono rfl fun _ => Or.inl

end Sees

lemma Fails.lax {β : Type} {faults : Op V → Prop} {op : Op V} {r : Except ErrorKind β} (h : Fails faults op a v ℓ r w) :
    Sees a v ℓ.lax w := by
  obtain ⟨-, -, w₀, h, rfl⟩ := h
  exact h.lax.log (Or.inr ⟨op, rfl⟩)

end

/-- `p` on its own, where the calls of `faults` may fail. -/
abbrev Solo {α : Type} (faults : Op V → Prop) (tick : ℕ → ℕ → Prop) (a : A) (S : World A V → Prop) (p : M V α)
    (T : α → World A V → Prop) (X : Error → World A V → Prop) : Prop :=
  Lone (machine A V faults tick) a S p T X

section

variable {faults : Op V → Prop} {tick : ℕ → ℕ → Prop} {a : A} {v : Scene A} {ℓ : Margin A V} {path : Path} {i f : ℕ}
  {node : Node} {o : Open} {X : Error → World A V → Prop}

lemma solo_lstat : Solo faults tick a (Sees a v ℓ) (Sys.lstat path)
    (fun r w => r = (v.lstat path) ∧ Sees a v ℓ w ∨ Fails faults (.lstat path) a v ℓ r w) X := by
  refine Lone.op (fun w _ => ⟨_, _, .lstat⟩) fun w r w' h hsem => ?_
  cases hsem with
  | fault hf hr => exact Or.inr (h.fails hf hr)
  | lstat => exact Or.inl ⟨h.lstat, h⟩

lemma solo_fstat (hf : v.files a f = some o) (hfind : v.find path = some (o.ino, node)) :
    Solo faults tick a (Sees a v ℓ) (Sys.fstat f)
      (fun r w => r = (.ok (node.metadata o.ino)) ∧ Sees a v ℓ w ∨ Fails faults (.fstat f) a v ℓ r w) X := by
  refine Lone.op (fun w h => ⟨_, _, .fstat (h.files ▸ hf)⟩) fun w r w' h hsem => ?_
  cases hsem with
  | fault hf hr => exact Or.inr (h.fails hf hr)
  | fstat ho =>
    rw [h.files, hf, Option.some_inj] at ho
    obtain ⟨-, rfl⟩ := h.named hfind
    exact Or.inl ⟨(ho ▸ rfl), h⟩

lemma solo_openLock (hfind : v.find path = some (i, node)) (hkind : node.kind = .file) :
    Solo faults tick a (Sees a v ℓ) (Sys.openLock path) (fun r w =>
      (∃ f since, r = .ok f ∧ v.files a f = none ∧ Sees a (v.setFile a f (some (.at path i since))) ℓ w) ∨
        Fails faults (.openLock path) a v ℓ r w) X := by
  refine Lone.op (fun w h => ?_) fun w r w' h hsem => ?_
  · obtain ⟨hname, rfl⟩ := h.named hfind
    obtain ⟨f, hf⟩ := w.exists_fd a
    exact ⟨_, _, .openLock hname hkind hf⟩
  · obtain ⟨hname, rfl⟩ := h.named hfind
    cases hsem with
    | fault hf hr => exact Or.inr (h.fails hf hr)
    | openLock hi kind new =>
      rw [hname, Option.some_inj] at hi
      subst hi
      exact Or.inl ⟨_, _, rfl, h.files ▸ new, h.setFile _⟩
    | openLockOther hi kind =>
      rw [hname, Option.some_inj] at hi
      subst hi
      exact absurd hkind kind
    | openLockNoDir hi => exact absurd (hname.symm.trans hi) (by simp)
    | createLock hi => exact absurd (hname.symm.trans hi) (by simp)

lemma solo_createLock (hfind : v.find path = none) (hdir : v.OwnDir path.dropLast) (hlinked : ℓ.may (.linked path)) :
    Solo faults tick a (Sees a v ℓ) (Sys.openLock path) (fun r w =>
      (∃ f i node since, r = .ok f ∧ v.Free i ∧ v.files a f = none ∧ node.kind = .file ∧ node.owned = true ∧
        Sees a ((v.put path (some (i, node))).setFile a f (some (.at path i since))) ℓ w) ∨
        Fails faults (.openLock path) a v ℓ r w) X := by
  obtain ⟨d, dir, hd, hdkind, -⟩ := hdir
  refine Lone.op (fun w h => ?_) fun w r w' h hsem => ?_
  · obtain ⟨f, hf⟩ := w.exists_fd a
    obtain ⟨i, hi⟩ := w.exists_free
    exact ⟨_, _, @Sem.createLock _ _ _ _ _ path i f 0 w (h.unnamed hfind) (h.isDir.mpr ⟨d, dir, hd, hdkind⟩) hi hf⟩
  · have hname := h.unnamed hfind
    cases hsem with
    | fault hf hr => exact Or.inr (h.fails hf hr)
    | openLock hi => exact absurd (hname.symm.trans hi) (by simp)
    | openLockOther hi => exact absurd (hname.symm.trans hi) (by simp)
    | openLockNoDir hi hno => exact absurd (h.isDir.mpr ⟨d, dir, hd, hdkind⟩) hno
    | @createLock path i f modified w hi hdir hfree hnew =>
      refine Or.inl ⟨f, i, { Node.empty .file 0o600 modified with mode := 0 }, w.journal.length + 1, rfl, h.free.mp hfree, h.files ▸ hnew,
        rfl, rfl, ?_, h.journal.add hlinked⟩
      rw [World.scene_setFile, World.scene_log, World.scene_create _ _ hfree, h.scene]

lemma solo_openRead {follow : Bool} (hfind : v.find path = some (i, node)) (hkind : node.kind = .file ∨ node.kind = .dir) :
    Solo faults tick a (Sees a v ℓ) (Sys.openRead path follow) (fun r w =>
      (∃ f since, r = .ok f ∧ v.files a f = none ∧ Sees a (v.setFile a f (some (.at path i since))) ℓ w) ∨
        Fails faults (.openRead path follow) a v ℓ r w) X := by
  refine Lone.op (fun w h => ?_) fun w r w' h hsem => ?_
  · obtain ⟨hname, rfl⟩ := h.named hfind
    obtain ⟨f, hf⟩ := w.exists_fd a
    refine ⟨_, _, .openRead hname (fun hsym => ?_) hf⟩
    rcases hkind with hk | hk <;> exact absurd (hk.symm.trans hsym) (by simp)
  · obtain ⟨hname, rfl⟩ := h.named hfind
    cases hsem with
    | fault hf hr => exact Or.inr (h.fails hf hr)
    | openRead hi kind new =>
      rw [hname, Option.some_inj] at hi
      subst hi
      exact Or.inl ⟨_, _, rfl, h.files ▸ new, h.setFile _⟩
    | openReadMissing hi => exact absurd (hname.symm.trans hi) (by simp)
    | openReadOther hi kind =>
      rw [hname, Option.some_inj] at hi
      subst hi
      rcases hkind with hk | hk <;> rcases kind with hs | hs <;> exact absurd (hk.symm.trans hs) (by simp)
    | followed hi kind =>
      rw [hname, Option.some_inj] at hi
      subst hi
      rcases hkind with hk | hk <;> exact absurd (hk.symm.trans kind) (by simp)

lemma solo_openRead_missing {follow : Bool} (hfind : v.find path = none) :
    Solo faults tick a (Sees a v ℓ) (Sys.openRead path follow)
      (fun r w => r = (.error .notFound) ∧ Sees a v ℓ w ∨ Fails faults (.openRead path follow) a v ℓ r w) X := by
  refine Lone.op (fun w h => ⟨_, _, .openReadMissing (h.unnamed hfind)⟩) fun w r w' h hsem => ?_
  have hname := h.unnamed hfind
  cases hsem with
  | fault hf hr => exact Or.inr (h.fails hf hr)
  | openReadMissing hi => exact Or.inl ⟨rfl, h⟩
  | openRead hi => exact absurd (hname.symm.trans hi) (by simp)
  | openReadOther hi => exact absurd (hname.symm.trans hi) (by simp)
  | followed hi => exact absurd (hname.symm.trans hi) (by simp)

lemma solo_openDir (hfind : v.find path = some (i, node)) (hkind : node.kind = .dir) :
    Solo faults tick a (Sees a v ℓ) (Sys.openDir path) (fun r w =>
      (∃ f since, r = .ok f ∧ v.files a f = none ∧ since = w.journal.length ∧
        Sees a (v.setFile a f (some (.at path i since))) ℓ w) ∨
        Fails faults (.openDir path) a v ℓ r w) X := by
  refine Lone.op (fun w h => ?_) fun w r w' h hsem => ?_
  · obtain ⟨hname, rfl⟩ := h.named hfind
    obtain ⟨f, hf⟩ := w.exists_fd a
    exact ⟨_, _, .openDir hname hkind hf⟩
  · obtain ⟨hname, rfl⟩ := h.named hfind
    cases hsem with
    | fault hf hr => exact Or.inr (h.fails hf hr)
    | openDir hi kind new =>
      rw [hname, Option.some_inj] at hi
      subst hi
      exact Or.inl ⟨_, _, rfl, h.files ▸ new, rfl, h.setFile _⟩
    | openDirMissing hi => exact absurd (hname.symm.trans hi) (by simp)
    | openDirOther hi kind =>
      rw [hname, Option.some_inj] at hi
      subst hi
      exact absurd hkind kind

lemma solo_chmod {mode : ℕ} (hfind : v.find path = some (i, node)) :
    Solo faults tick a (Sees a v ℓ) (Sys.chmod path mode)
      (fun r w => r = (.ok ()) ∧ Sees a v ℓ w ∨ Fails faults (.chmod path mode) a v ℓ r w) X := by
  refine Lone.op (fun w h => ⟨_, _, .chmod (h.named hfind).1⟩) fun w r w' h hsem => ?_
  cases hsem with
  | fault hf hr => exact Or.inr (h.fails hf hr)
  | chmod hi => exact Or.inl ⟨rfl, h.chmod _ _⟩
  | chmodMissing hi => exact absurd ((h.named hfind).1.symm.trans hi) (by simp)

lemma solo_fchmod {mode : ℕ} (hf : v.files a f = some o) :
    Solo faults tick a (Sees a v ℓ) (Sys.fchmod f mode)
      (fun r w => r = (.ok ()) ∧ Sees a v ℓ w ∨ Fails faults (.fchmod f mode) a v ℓ r w) X := by
  refine Lone.op (fun w h => ⟨_, _, .fchmod (h.files ▸ hf)⟩) fun w r w' h hsem => ?_
  cases hsem with
  | fault hf hr => exact Or.inr (h.fails hf hr)
  | fchmod ho => exact Or.inl ⟨rfl, h.chmod _ _⟩

/-- A lock that nobody else's excludes. -/
lemma solo_flock {mode : LockMode} {wait : Bool} (hf : v.files a f = some o) (hfree : ¬v.Conflict a f o.ino mode) :
    Solo faults tick a (Sees a v ℓ) (Sys.flock f mode wait) (fun r w =>
      r = .ok () ∧ Sees a (v.setFile a f (some { o with lock := some mode })) ℓ w ∨
        Fails faults (.flock f mode wait) a v ℓ r w) X := by
  refine Lone.op (fun w h => ?_) fun w r w' h hsem => ?_
  · refine ⟨_, _, .flock (h.files ▸ hf) ?_⟩
    rw [← h.scene] at hfree
    exact hfree
  · have hfree' : ¬w.Conflict a f o.ino mode := by
      rw [← h.scene] at hfree
      exact hfree
    cases hsem with
    | fault hf hr => exact Or.inr (h.fails hf hr)
    | flock ho free =>
      rw [h.files, hf, Option.some_inj] at ho
      exact ho ▸ Or.inl ⟨rfl, h.setFile _⟩
    | wouldBlock ho held =>
      rw [h.files, hf, Option.some_inj] at ho
      exact absurd (ho ▸ held) hfree'

lemma solo_wouldBlock {mode : LockMode} (hf : v.files a f = some o) (hheld : v.Conflict a f o.ino mode) :
    Solo faults tick a (Sees a v ℓ) (Sys.flock f mode false)
      (fun r w => r = (.error .wouldBlock) ∧ Sees a v ℓ w ∨ Fails faults (.flock f mode false) a v ℓ r w) X := by
  refine Lone.op (fun w h => ?_) fun w r w' h hsem => ?_
  · refine ⟨_, _, .wouldBlock (h.files ▸ hf) ?_⟩
    rw [← h.scene] at hheld
    exact hheld
  · have hheld' : w.Conflict a f o.ino mode := by
      rw [← h.scene] at hheld
      exact hheld
    cases hsem with
    | fault hf hr => exact Or.inr (h.fails hf hr)
    | flock ho free =>
      rw [h.files, hf, Option.some_inj] at ho
      exact absurd (ho ▸ hheld') free
    | wouldBlock ho held => exact Or.inl ⟨rfl, h⟩

lemma solo_close (hf : v.files a f = some o) :
    Solo faults tick a (Sees a v ℓ) (Sys.close f) (fun _ => Sees a (v.setFile a f none) ℓ) X := by
  refine Lone.op (fun w h => ⟨_, _, .close (h.files ▸ hf)⟩) fun w r w' h hsem => ?_
  cases hsem with
  | fault hf hr => exact hr.elim
  | close ho => exact h.setFile _

lemma solo_hold {by' : HeldBy} (hf : v.files a f = some o) :
    Solo faults tick a (Sees a v ℓ) (Sys.hold f by') (fun _ => Sees a (v.setFile a f (some { o with held := some by' })) ℓ)
      X := by
  refine Lone.op (fun w h => ⟨_, _, .hold (h.files ▸ hf)⟩) fun w r w' h hsem => ?_
  cases hsem with
  | fault hf hr => exact hr.elim
  | hold ho =>
    rw [h.files, hf, Option.some_inj] at ho
    exact ho ▸ h.setFile _

/-- A `Held` ends, and its lock file goes unless that fails. -/
lemma solo_released {by' : HeldBy} (hf : v.files a f = some o) (hheld : o.held = some by')
    (hdir : ∀ i node, v.find o.path = some (i, node) → node.kind ≠ .dir) :
    Solo faults tick a (Sees a v ℓ) (Sys.release f) (fun _ w => ∃ j, ℓ.Holds a j ∧
      (Sees a ((v.put o.path none).setFile a f (some { o with held := none })) (ℓ.later (j ++ [⟨a, .released o.path by'⟩])) w ∨
        faults (.release f) ∧ Sees a (v.setFile a f (some { o with held := none })) (ℓ.later (j ++ [⟨a, .released o.path by'⟩])) w)) X := by
  refine Lone.op (fun w h => ⟨_, _, .release (h.files ▸ hf) hheld⟩) fun w r w' h hsem => ?_
  cases hsem with
  | fault hf hr => exact hr.elim
  | release ho held =>
    rw [h.files, hf, Option.some_inj] at ho
    subst ho
    rw [hheld, Option.some_inj] at held
    subst held
    refine ⟨w.journal, h.journal, Or.inl ⟨?_, [], (List.append_nil _).symm, fun _ he => (nomatch he)⟩⟩
    rw [World.scene_setFile, World.scene_log, World.scene_setName_none, h.scene]
  | releaseFails ho held why =>
    rw [h.files, hf, Option.some_inj] at ho
    subst ho
    rw [hheld, Option.some_inj] at held
    subst held
    rcases why with hfault | hd
    · refine ⟨w.journal, h.journal, Or.inr ⟨hfault, ?_, [], (List.append_nil _).symm, fun _ he => (nomatch he)⟩⟩
      rw [World.scene_setFile, World.scene_log, h.scene]
    · obtain ⟨i, node, hfind, hkind⟩ := h.isDir.mp hd
      exact absurd hkind (hdir i node hfind)

lemma solo_release {by' : HeldBy} (hf : v.files a f = some o) (hheld : o.held = some by')
    (hdir : ∀ i node, v.find o.path = some (i, node) → node.kind ≠ .dir) (hmay : ℓ.may (.released o.path by')) :
    Solo faults tick a (Sees a v ℓ) (Sys.release f) (fun _ w =>
      Sees a ((v.put o.path none).setFile a f (some { o with held := none })) ℓ w ∨
        faults (.release f) ∧ Sees a (v.setFile a f (some { o with held := none })) ℓ w) X := by
  refine (solo_released hf hheld hdir).post fun _ w _ h => ?_
  obtain ⟨j, hj, h⟩ := h
  exact h.imp (fun h => h.of_later (hj.add hmay)) (And.imp_right fun h => h.of_later (hj.add hmay))

lemma solo_unlink {why : Why} (hfind : v.find path = some (i, node)) (hkind : node.kind ≠ .dir)
    (hmay : ℓ.may (.unlinked path why)) :
    Solo faults tick a (Sees a v ℓ) (Sys.unlink path why) (fun r w =>
      r = .ok () ∧ Sees a (v.less (v.extent path)) ℓ w ∨
        Fails faults (.unlink path why) a v ℓ r w) X := by
  refine Lone.op (fun w h => ?_) fun w r w' h hsem => ?_
  · obtain ⟨hname, rfl⟩ := h.named hfind
    exact ⟨_, _, .unlink hname hkind⟩
  · cases hsem with
    | fault hf hr => exact Or.inr (h.fails hf hr)
    | unlink hi kind =>
      refine Or.inl ⟨rfl, ?_, h.journal.add hmay⟩
      rw [World.scene_log, World.scene_setName_none, h.scene, Scene.put_none, Scene.extent_of_ne_dir ]
      intro j x hx
      rw [hfind, Option.some_inj, Prod.mk.injEq] at hx
      exact hx.2 ▸ hkind
    | unlinkMissing hi => exact absurd ((h.named hfind).1.symm.trans hi) (by simp)
    | unlinkDir hd =>
      obtain ⟨j, node', hfind', hkind'⟩ := h.isDir.mp hd
      rw [hfind] at hfind'
      cases hfind'
      exact absurd hkind' hkind

lemma solo_removeTree {why : Why} (hfind : v.find path = some (i, node)) (hkind : node.kind = .dir)
    (hmay : ℓ.may (.unlinked path why)) :
    Solo faults tick a (Sees a v ℓ) (Sys.removeTree path why) (fun r w =>
      r = .ok () ∧ Sees a (v.less (v.extent path)) ℓ w ∨ Fails faults (.removeTree path why) a v ℓ r w) X := by
  refine Lone.op (fun w h => ⟨_, _, .removeTree (h.isDir.mpr ⟨i, node, hfind, hkind⟩)⟩) fun w r w' h hsem => ?_
  cases hsem with
  | fault hf hr => exact Or.inr (h.fails hf hr)
  | removeTree hd =>
    refine Or.inl ⟨rfl, ?_, h.journal.add hmay⟩
    rw [World.scene_log, World.scene_dropTree, h.scene, Scene.extent_of_dir hfind hkind]
  | removeTreeMissing hi => exact absurd ((h.named hfind).1.symm.trans hi) (by simp)
  | removeTreeOther hi kind =>
    obtain ⟨hname, rfl⟩ := h.named hfind
    rw [hname, Option.some_inj] at hi
    subst hi
    exact absurd hkind kind

lemma solo_fsync : Solo faults tick a (Sees a v ℓ) (Sys.fsync f)
    (fun r w => r = (.ok ()) ∧ Sees a v ℓ w ∨ Fails faults (.fsync f) a v ℓ r w) X := by
  refine Lone.op (fun w h => ⟨_, _, .fsync⟩) fun w r w' h hsem => ?_
  cases hsem with
  | fault hf hr => exact Or.inr (h.fails hf hr)
  | fsync => exact Or.inl ⟨rfl, h⟩

lemma solo_now : Solo faults tick a (Sees a v ℓ) Sys.now (fun r w => r = v.clock ∧ Sees a v ℓ w) X := by
  refine Lone.op (fun w h => ⟨_, _, .now⟩) fun w r w' h hsem => ?_
  cases hsem with
  | fault hf hr => exact hr.elim
  | now => exact ⟨h.clock, h.log (ℓ.clock _)⟩

lemma solo_read {size : ℕ} (hf : v.files a f = some o) (hfind : v.find path = some (o.ino, node)) :
    Solo faults tick a (Sees a v ℓ) (Sys.read f size) (fun r w =>
      (∃ n ≤ size, (n = 0 → size = 0 ∨ node.bytes.length ≤ o.pos) ∧ r = .ok ((node.bytes.drop o.pos).take n) ∧
        Sees a (v.setFile a f (some { o with pos := o.pos + ((node.bytes.drop o.pos).take n).length })) ℓ w) ∨
        Fails faults (.read f size) a v ℓ r w) X := by
  refine Lone.op (fun w h => ?_) fun w r w' h hsem => ?_
  · exact ⟨_, _, .read (h.files ▸ hf) (Nat.le_refl size) fun hsize => Or.inl hsize⟩
  · obtain ⟨-, rfl⟩ := h.named hfind
    cases hsem with
    | fault hf hr => exact Or.inr (h.fails hf hr)
    | @read f size n o w ho le pos =>
      rw [h.files, hf, Option.some_inj] at ho
      subst ho
      exact Or.inl ⟨n, le, pos, rfl, h.setFile _⟩

/-- The modification time of a file with one name is set. -/
lemma solo_setModified {ms : ℕ} (hf : v.files a f = some o) (hfind : v.find path = some (o.ino, node))
    (hone : ∀ p x, v.find p = some (o.ino, x) → p = path) :
    Solo faults tick a (Sees a v ℓ) (Sys.setModified f ms) (fun r w =>
      r = .ok () ∧ Sees a (v.put path (some (o.ino, { node with modified := millisecond ms }))) ℓ w ∨
        Fails faults (.setModified f ms) a v ℓ r w) X := by
  refine Lone.op (fun w h => ⟨_, _, .setModified (h.files ▸ hf)⟩) fun w r w' h hsem => ?_
  cases hsem with
  | fault hf hr => exact Or.inr (h.fails hf hr)
  | setModified ho =>
    rw [h.files, hf, Option.some_inj] at ho
    subst ho
    obtain ⟨hname, rfl⟩ := h.named hfind
    refine Or.inl ⟨rfl, ?_, h.journal⟩
    rw [World.scene_setNode _ _ hname fun p hp => hone p _ (h.find ▸ w.find_eq_some.mpr ⟨hp, rfl⟩), h.scene]

/-- A name of a directory stream whose beginning is that of the margin. -/
lemma solo_next (hf : v.files a f = some o) (hsince : ℓ.before.length = o.since) :
    Solo faults tick a (Sees a v ℓ) (Sys.next f) (fun r w =>
      ((∃ name, r = .ok (some name) ∧
          (v.find (o.path ++ [name]) ≠ none ∨ ∃ what, ℓ.may what ∧ what.Touches (o.path ++ [name])) ∧
          (name ∈ o.seen → ∃ what, ℓ.may what ∧ what.Links (o.path ++ [name])) ∧
          Sees a (v.setFile a f (some { o with seen := name :: o.seen })) ℓ w) ∨
        r = .ok none ∧ (∀ name, v.find (o.path ++ [name]) ≠ none →
          (∀ what, ℓ.may what → ¬what.Touches (o.path ++ [name])) → name ∈ o.seen) ∧ Sees a v ℓ w) ∨
        Fails faults (.next f) a v ℓ r w) X := by
  have hmay : ∀ {w : World A V}, Sees a v ℓ w → ∀ e ∈ w.journal.drop o.since, ℓ.may e.what := by
    intro w h e he
    obtain ⟨added, hj, hadded⟩ := h.journal
    rw [hj, ← hsince, List.drop_left] at he
    exact (hadded e he).2
  have hnames : ∀ {w : World A V} {p}, Sees a v ℓ w → (w.names p ≠ none ↔ v.find p ≠ none) := by
    intro w p h
    rw [← h.find]
    exact not_congr w.find_eq_none.symm
  refine Lone.op (fun w h => ?_) fun w r w' h hsem => ?_
  · have ho : w.files a f = some o := h.files ▸ hf
    by_cases hmore : ∃ name, w.names (o.path ++ [name]) ≠ none ∧ name ∉ o.seen
    · obtain ⟨name, hname, hseen⟩ := hmore
      exact ⟨_, _, .next ho (Or.inl hname) fun hs => absurd hs hseen⟩
    · push Not at hmore
      exact ⟨_, _, .nextEnd ho fun name hname _ => hmore name hname⟩
  · cases hsem with
    | fault hf hr => exact Or.inr (h.fails hf hr)
    | @next f o name w ho shown once =>
      rw [h.files, hf, Option.some_inj] at ho
      subst ho
      refine Or.inl (Or.inl ⟨name, rfl, ?_, fun hs => ?_, h.setFile _⟩)
      · refine shown.imp (hnames h).mp ?_
        rintro ⟨e, he, htouch⟩
        exact ⟨e.what, hmay h e he, htouch⟩
      · obtain ⟨e, he, hlink⟩ := once hs
        exact ⟨e.what, hmay h e he, hlink⟩
    | nextEnd ho all =>
      rw [h.files, hf, Option.some_inj] at ho
      subst ho
      refine Or.inl (Or.inr ⟨rfl, fun name hname hnone => all name ((hnames h).mpr hname) ?_, h⟩)
      rintro ⟨e, he, htouch⟩
      exact hnone e.what (hmay h e he) htouch

/-- What the name of a temporary file may be. -/
def Temporary (dir : Path) (start suffix : Name) (path : Path) : Prop :=
  ∃ random, path = dir ++ [start ++ random ++ suffix]

lemma solo_tempfile {dir : Path} {start suffix : Name} (hdir : v.OwnDir dir)
    (hmay : ∀ path, Temporary dir start suffix path → ℓ.may (.linked path)) :
    Solo faults tick a (Sees a v ℓ) (Sys.tempfile dir start suffix) (fun r w =>
      (∃ f path i node since, r = .ok f ∧ Temporary dir start suffix path ∧ v.find path = none ∧ v.Free i ∧ v.files a f = none ∧
        node.kind = .file ∧ node.owned = true ∧ node.bytes = [] ∧
          Sees a ((v.put path (some (i, node))).setFile a f (some (.temporary path i since []))) ℓ w) ∨
        Fails faults (.tempfile dir start suffix) a v ℓ r w) X := by
  obtain ⟨d, dnode, hd, hdkind, -⟩ := hdir
  refine Lone.op (fun w h => ?_) fun w r w' h hsem => ?_
  · obtain ⟨f, hf⟩ := w.exists_fd a
    obtain ⟨i, hi⟩ := w.exists_free
    obtain ⟨random, hname⟩ := w.exists_name dir start suffix
    exact ⟨_, _, @Sem.tempfile _ _ _ _ _ dir start random suffix i f 0 w hname (h.isDir.mpr ⟨d, dnode, hd, hdkind⟩) hi hf⟩
  · cases hsem with
    | fault hf hr => exact Or.inr (h.fails hf hr)
    | tempfileNoDir hno => exact absurd (h.isDir.mpr ⟨d, dnode, hd, hdkind⟩) hno
    | @tempfile dir start random suffix i f modified w hname hisdir hfree hnew =>
      have htemp : Temporary dir start suffix (dir ++ [start ++ random ++ suffix]) := ⟨random, rfl⟩
      refine Or.inl ⟨f, _, i, { Node.empty .file 0o600 modified with mode := 0 }, w.journal.length + 1, rfl, htemp, ?_,
        h.free.mp hfree, h.files ▸ hnew, rfl, rfl, rfl, ?_, h.journal.add (hmay _ htemp)⟩
      · rw [← h.find]
        exact (World.find_eq_none _).mpr hname
      · rw [World.scene_setFile, World.scene_log, World.scene_create _ _ hfree, h.scene]
        rfl

/-- A write to a temporary file moves some of the bytes. -/
lemma solo_write {bytes written : Bytes} {since : ℕ} (hf : v.files a f = some (.temporary path i since written))
    (hfind : v.find path = some (i, node)) (hone : ∀ p x, v.find p = some (i, x) → p = path) :
    Solo faults tick a (Sees a v ℓ) (Sys.write f bytes) (fun r w =>
      (∃ n node', r = .ok n ∧ n ≤ bytes.length ∧ (bytes ≠ [] → 0 < n) ∧ node'.kind = node.kind ∧ node'.owned = node.owned ∧
        node'.bytes = node.bytes ++ bytes.take n ∧ Sees a ((v.put path (some (i, node'))).setFile a f
          (some (.temporary path i since (written ++ bytes.take n)))) ℓ w) ∨
        Fails faults (.write f bytes) a v ℓ r w) X := by
  refine Lone.op (fun w h => ?_) fun w r w' h hsem => ?_
  · refine ⟨_, _, @Sem.write _ _ _ _ _ f bytes bytes.length _ written 0 w (h.files ▸ hf) rfl (Nat.le_refl _) fun hne => ?_⟩
    exact List.length_pos_of_ne_nil hne
  · cases hsem with
    | fault hf hr => exact Or.inr (h.fails hf hr)
    | @write f bytes n o written' modified w ho temp le pos =>
      rw [h.files, hf, Option.some_inj] at ho
      subst ho
      obtain rfl : written = written' := Option.some_inj.mp temp
      obtain ⟨hname, rfl⟩ := h.named hfind
      refine Or.inl ⟨n, { w.nodes i with mode := 0, bytes := (w.nodes i).bytes ++ bytes.take n, modified := modified }, rfl, le, pos,
        rfl, rfl, rfl, ?_, h.journal⟩
      have hsame : ∀ p, w.names p = some i → p = path := fun p hp => hone p _ (h.find ▸ w.find_eq_some.mpr ⟨hp, rfl⟩)
      rw [World.scene_setFile]
      change ((w.setNode i _).scene).setFile a f _ = _
      rw [World.scene_setNode _ _ hname hsame, h.scene]
      rfl

/-- A temporary file gets the name for good, in place of what had it. -/
lemma solo_persist {written : Bytes} {since : ℕ} {dst : Path} (hf : v.files a f = some (.temporary path i since written))
    (hfind : v.find path = some (i, node)) (hdst : ∀ j x, v.find dst = some (j, x) → x.kind ≠ .dir) :
    Solo faults tick a (Sees a v ℓ) (Sys.persist f dst) (fun r w =>
      r = .ok () ∧ (∃ j, ℓ.Holds a j ∧ Sees a (((v.put path none).put dst (some (i, node))).setFile a f
        (some (.at dst i since))) (ℓ.later (j ++ [⟨a, .renamed path dst node.bytes⟩])) w) ∨
        Fails faults (.persist f dst) a v ℓ r w) X := by
  have hnodir : ∀ {w : World A V}, Sees a v ℓ w → ¬w.IsDir dst := by
    intro w h hd
    obtain ⟨j, x, hx, hkind⟩ := h.isDir.mp hd
    exact hdst j x hx hkind
  refine Lone.op (fun w h => ⟨_, _, .persist (h.files ▸ hf) rfl (h.named hfind).1 (hnodir h)⟩) fun w r w' h hsem => ?_
  cases hsem with
  | fault hf hr => exact Or.inr (h.fails hf hr)
  | @persist f dst o j written' w ho temp src file =>
    rw [h.files, hf, Option.some_inj] at ho
    subst ho
    obtain ⟨hname, rfl⟩ := h.named hfind
    obtain rfl : j = i := Option.some_inj.mp (src.symm.trans hname)
    refine Or.inl ⟨rfl, w.journal, h.journal, ?_, [], (List.append_nil _).symm, fun _ he => (nomatch he)⟩
    rw [World.scene_setFile, World.scene_log, World.scene_setName_some, World.scene_setName_none, h.scene]
    rfl
  | persistMissing ho src =>
    rw [h.files, hf, Option.some_inj] at ho
    subst ho
    exact absurd ((h.named hfind).1.symm.trans src) (by simp)
  | persistOther file => exact absurd file (hnodir h)

/-- A temporary file that is dropped goes, unless that fails. -/
lemma solo_dropTemp {written : Bytes} {since : ℕ} (hf : v.files a f = some (.temporary path i since written))
    (hkind : ∀ j x, v.find path = some (j, x) → x.kind ≠ .dir) (hmay : ℓ.may (.dropped path)) (hfault : ¬faults (.dropTemp f)) :
    Solo faults tick a (Sees a v ℓ) (Sys.dropTemp f)
      (fun _ => Sees a ((v.put path none).setFile a f (some (.at path i since))) ℓ) X := by
  refine Lone.op (fun w h => ⟨_, _, .dropTemp (h.files ▸ hf) rfl⟩) fun w r w' h hsem => ?_
  cases hsem with
  | fault hf hr => exact hr.elim
  | dropTemp ho temp =>
    rw [h.files, hf, Option.some_inj] at ho
    subst ho
    refine ⟨?_, h.journal.add hmay⟩
    rw [World.scene_setFile, World.scene_log, World.scene_setName_none, h.scene]
    rfl
  | dropTempFails ho temp why =>
    rcases why with hf' | hdir
    · exact absurd hf' hfault
    · rw [h.files, hf, Option.some_inj] at ho
      subst ho
      obtain ⟨j, x, hx, hxkind⟩ := h.isDir.mp hdir
      exact absurd hxkind (hkind j x hx)

end

end Unixd.Cache
