import Mathlib.Data.List.Nodup
import Unixd.Cache.Codec
import Unixd.Cache.Alone

/-!
# Roots

Worlds in which some files are there and nothing is open, as the first thread finds them, and the root that a cache
was opened on.
-/

namespace Unixd.Cache

open Unixd.Lib

variable {A V : Type} [DecidableEq A] {present extra : List (Path × Node)} {clock i : ℕ} {path : Path} {node : Node}

/-- The world in which `present` is there, an inode for each. -/
def World.of (present : List (Path × Node)) (clock : ℕ) : World A V where
  names p := present.findIdx? fun x => x.1 = p
  nodes i := (present[i]?.map Prod.snd).getD (.empty .file 0 0)
  files _ _ := none
  clock := clock
  journal := []
  inos := by
    refine ⟨present.length, fun i hi => ⟨fun p hp => ?_, fun a f o ho => by cases ho⟩⟩
    have hlt := (List.findIdx?_eq_some_iff_findIdx_eq.mp hp).1
    omega
  fds _ := ⟨0, fun _ _ => rfl⟩
  paths := by
    refine ⟨present.map Prod.fst, fun p hp => ?_⟩
    obtain ⟨i, hi⟩ := Option.ne_none_iff_exists'.mp hp
    obtain ⟨hlt, hat, -⟩ := List.findIdx?_eq_some_iff_getElem.mp hi
    rw [decide_eq_true_eq] at hat
    exact hat ▸ List.mem_map_of_mem (List.getElem_mem hlt)

namespace World

lemma find_of (h : (World.of present clock : World A V).find path = some (i, node)) :
    ∃ x, present[i]? = some (path, x) ∧ node = { x with mode := 0 } := by
  obtain ⟨hname, rfl⟩ := (find_eq_some _).mp h
  obtain ⟨hlt, hat, -⟩ := List.findIdx?_eq_some_iff_getElem.mp hname
  rw [decide_eq_true_eq] at hat
  refine ⟨present[i].2, ?_, ?_⟩
  · rw [List.getElem?_eq_getElem hlt, ← hat]
  · change ({ (present[i]?.map Prod.snd).getD _ with mode := 0 } : Node) = _
    rw [List.getElem?_eq_getElem hlt]
    rfl

lemma mem_of_find_of (h : (World.of present clock : World A V).find path = some (i, node)) :
    ∃ x, (path, x) ∈ present ∧ node = { x with mode := 0 } := by
  obtain ⟨x, hx, hnode⟩ := find_of h
  exact ⟨x, List.mem_of_getElem? hx, hnode⟩

/-- What is in the list is there. -/
lemma find_of_mem (hnodup : (present.map Prod.fst).Nodup) (h : (path, node) ∈ present) :
    ∃ i, (World.of present clock : World A V).find path = some (i, { node with mode := 0 }) := by
  cases hfind : (World.of present clock : World A V).find path with
  | none =>
    rw [find_eq_none] at hfind
    have hnot := List.findIdx?_eq_none_iff.mp hfind _ h
    simp at hnot
  | some x =>
    obtain ⟨i, found⟩ := x
    obtain ⟨x, hx, rfl⟩ := mem_of_find_of hfind
    have hsame := List.inj_on_of_nodup_map hnodup hx h rfl
    rw [Prod.mk.injEq] at hsame
    exact ⟨i, by rw [hsame.2]⟩

/-- Each file has one name. -/
lemma distinct_of : (World.of present clock : World A V).scene.Distinct := by
  intro path q i node node' _ hpath hq
  obtain ⟨x, hx, -⟩ := find_of hpath
  obtain ⟨y, hy, -⟩ := find_of hq
  rw [hx, Option.some_inj, Prod.mk.injEq] at hy
  exact hy.1.symm

lemma shareable_of : (World.of present clock : World A V).scene.Shareable :=
  fun _ _ _ _ _ _ h => (nomatch h)

lemma not_taken_of : ¬(World.of present clock : World A V).scene.Taken path := by
  rintro ⟨_, _, _, _, _, _, h, _⟩
  cases h

end World

def Node.directory : Node :=
  .empty .dir 0o700 0

/-- A file of the user's own. -/
def Node.holding (bytes : Bytes) (ms : ℕ) : Node :=
  ⟨.file, true, 0o600, bytes, millisecond ms⟩

/-- An open root with `extra` files. -/
def rootWith (extra : List (Path × Node)) : List (Path × Node) :=
  [(root, .directory), (entries, .directory), (locks, .directory), (maintenanceLock, .holding [] 0),
    (pruneLock, .holding [] 0)] ++ extra

/-- The other files are regular and in `entries` or `locks`. -/
structure Extra (extra : List (Path × Node)) : Prop where
  nodup : (extra.map Prod.fst).Nodup
  below : ∀ x ∈ extra, ChildOf entries x.1 ∨ ChildOf locks x.1
  kind : ∀ x ∈ extra, x.2.kind = .file
  owned : ∀ x ∈ extra, x.2.owned = true

lemma rootWith_nodup (h : Extra extra) : ((rootWith extra).map Prod.fst).Nodup := by
  rw [rootWith, List.map_append]
  refine List.Nodup.append (by decide) h.nodup ?_
  intro p hfixed hextra
  obtain ⟨x, hx, rfl⟩ := List.mem_map.mp hextra
  have hlength : x.1.length = 2 := by
    rcases h.below x hx with ⟨name, heq⟩ | ⟨name, heq⟩
    · rw [heq]
      rfl
    · rw [heq]
      rfl
  have hshort : ∀ q ∈ [root, entries, locks, maintenanceLock, pruneLock], q.length ≠ 2 := by decide
  exact hshort x.1 hfixed hlength

lemma fit_rootWith (h : Extra extra) : (World.of (rootWith extra) clock : World A V).scene.Fit := by
  have hnodup := rootWith_nodup h
  have hdir : ∀ p, (p, Node.directory) ∈ rootWith extra → (World.of (rootWith extra) clock : World A V).scene.OwnDir p := by
    intro p hp
    obtain ⟨i, hfind⟩ := World.find_of_mem (A := A) (V := V) hnodup hp
    exact ⟨i, _, hfind, rfl, rfl⟩
  have hthere : ∀ p node, (p, node) ∈ rootWith extra → (World.of (rootWith extra) clock : World A V).scene.find p ≠ none := by
    intro p node hp
    obtain ⟨i, hfind⟩ := World.find_of_mem (A := A) (V := V) hnodup hp
    exact Option.ne_none_iff_exists'.mpr ⟨_, hfind⟩
  refine ⟨hdir _ (by simp [rootWith]), hdir _ (by simp [rootWith]), hdir _ (by simp [rootWith]), ?_,
    hthere _ (.holding [] 0) (by simp [rootWith]), hthere _ (.holding [] 0) (by simp [rootWith])⟩
  intro path hlock i node hfind
  obtain ⟨x, hx, rfl⟩ := World.mem_of_find_of hfind
  rcases List.mem_append.mp hx with hfixed | hextra
  · have hnot : path ≠ root ∧ path ≠ entries ∧ path ≠ locks := by
      rcases hlock with rfl | rfl | ⟨name, rfl⟩
      · decide
      · decide
      · simp [root, entries, locks]
    simp only [List.mem_cons, Prod.mk.injEq, hnot, false_and, false_or, List.not_mem_nil, or_false] at hfixed
    rcases hfixed with ⟨-, rfl⟩ | ⟨-, rfl⟩
    · exact ⟨rfl, rfl⟩
    · exact ⟨rfl, rfl⟩
  · exact ⟨h.kind _ hextra, h.owned _ hextra⟩

/-- A file below a directory of an open root is one of the others. -/
lemma mem_extra (h : Extra extra) {dir : Name} {name : Name} (hfind : (World.of (rootWith extra) clock : World A V).find [dir, name] =
    some (i, node)) : ∃ x, ([dir, name], x) ∈ extra ∧ node = { x with mode := 0 } := by
  obtain ⟨x, hx, rfl⟩ := World.mem_of_find_of hfind
  refine ⟨x, (List.mem_append.mp hx).resolve_left fun hfixed => ?_, rfl⟩
  have hshort : ∀ y ∈ [(root, Node.directory), (entries, .directory), (locks, .directory), (maintenanceLock, .holding [] 0),
      (pruneLock, .holding [] 0)], y.1.length ≠ 2 := by simp [root, entries, locks, maintenanceLock, pruneLock]
  exact hshort _ hfixed rfl

def digestA : Name := List.replicate 64 'a'

def keyA : Key :=
  ⟨[], digestA, by decide⟩

/-- A cache with room for small entries. -/
def roomy : Inner :=
  ⟨1, by decide, ⟨1000, by decide, 10, 1000, 10, 1000, 0, 0, 0⟩⟩

def briefly : Policy :=
  ⟨0, 0, .callerDefault⟩

/-- A value of no interest. -/
def Serde.unit : Serde Unit where
  toJson _ := some .null
  ofJson _ := some ()
  numbers _ json h := by
    rw [Option.some_inj] at h
    rw [← h]
    rfl

lemma unit_roundTrips : Serde.unit.RoundTrips () := by
  rintro json ⟨⟩
  rw [@Serde.valueOfBytes_obj _ Serde.unit [(valueMember, .null)] .null rfl rfl]
  rfl

/-- An open root with entries and lock files. -/
def stored (found : List (Name × Node)) (locked : List Name) : List (Path × Node) :=
  found.map (fun x => (entryPath x.1, x.2)) ++ locked.map fun digest => (lockPath digest, .holding [] 0)

lemma mem_stored {found : List (Name × Node)} {locked : List Name} {x : Path × Node} : x ∈ stored found locked ↔
    (∃ y ∈ found, x = (entryPath y.1, y.2)) ∨ ∃ digest ∈ locked, x = (lockPath digest, .holding [] 0) := by
  simp only [stored, List.mem_append, List.mem_map, eq_comm]

lemma extra_stored {found : List (Name × Node)} {locked : List Name} (hfound : (found.map Prod.fst).Nodup) (hlocked : locked.Nodup)
    (hkind : ∀ x ∈ found, x.2.kind = .file ∧ x.2.owned = true) : Extra (stored found locked) := by
  refine ⟨?_, fun x hx => ?_, fun x hx => ?_, fun x hx => ?_⟩
  · rw [stored, List.map_append, List.map_map, List.map_map]
    have hentries : Function.Injective entryPath := fun d d' h => by simpa [entryPath] using h
    have hlocks : Function.Injective lockPath := fun d d' h => by simpa [lockPath] using h
    refine List.Nodup.append ?_ (hlocked.map hlocks) ?_
    · rw [show (Prod.fst ∘ fun x : Name × Node => (entryPath x.1, x.2)) = entryPath ∘ Prod.fst from rfl, ← List.map_map]
      exact hfound.map hentries
    · intro p hp hp'
      obtain ⟨x, -, rfl⟩ := List.mem_map.mp hp
      obtain ⟨digest, -, heq⟩ := List.mem_map.mp hp'
      refine (childOf_entryPath x.1).not_locks ?_
      rw [show entryPath x.1 = lockPath digest from heq.symm]
      exact childOf_lockPath digest
  all_goals rcases mem_stored.mp hx with ⟨y, hy, rfl⟩ | ⟨digest, -, rfl⟩
  · exact Or.inl (childOf_entryPath _)
  · exact Or.inr (childOf_lockPath _)
  · exact (hkind y hy).1
  · rfl
  · exact (hkind y hy).2
  · rfl

end Unixd.Cache
