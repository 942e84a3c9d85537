import Unixd.Cache.Locking

/-!
# Removing, reading and looking up

`remove`, `regular` and the reads of `private.rs` in triples, and over them `read`: what it answers
is a function of what the entry's path held at some moment of the call and of the time it read.
-/

namespace Unixd.Cache

open Unixd.Lib

set_option linter.unusedSectionVars false

variable {A V : Type} [DecidableEq A] {σ : Setting A V} {a : A} {C : (protocol σ).Scope a} {L : Ledger}
  {F : World A V → Prop} {α : Type} {S : World A V → Prop} {T : α → World A V → Prop}
  {X Y : Error → World A V → Prop}

/-- The world after one agent took a name away. -/
inductive World.Removed (w : World A V) (a : A) (path : Path) (why : Why) : World A V → Prop where
  | unlink {i : ℕ} (h : w.names path = some i) (kind : (w.nodes i).kind ≠ .dir) :
      Removed w a path why ((w.setName path none).log a (.unlinked path why))
  | removeTree (h : w.IsDir path) : Removed w a path why ((w.dropTree path).log a (.unlinked path why))

/-- At `path` is an inode of this kind. -/
def World.KindAt (w : World A V) (path : Path) (kind : Kind) : Prop :=
  ∃ i, w.names path = some i ∧ (w.nodes i).kind = kind

/-- Two states of `F` differ in the kind of what is at `path`. -/
def Fickle (σ : Setting A V) (F : World A V → Prop) (path : Path) : Prop :=
  ∃ kind w₁ w₂, Inv σ w₁ ∧ F w₁ ∧ w₁.KindAt path kind ∧ Inv σ w₂ ∧ F w₂ ∧ ¬w₂.KindAt path kind

/-- How a removal ends: in `F'`, or in an error. -/
def Removal (σ : Setting A V) (a : A) (L : Ledger) (F F' : World A V → Prop) (path : Path) :
    Except ErrorKind Unit → World A V → Prop
  | .ok () => Has a L F'
  | .error e => fun w => (e = .notFound → Has a L F' w) ∧
      (e ≠ .notFound → Has a L (fun w => F w ∧ (σ.faults ∨ Fickle σ F path)) w)

section

variable {path : Path} {why : Why} {F' : World A V → Prop}

lemma sys_removeTree (hF : Calm C L F) (hallowed : ∀ w, Inv σ w → Has a L F w → Allowed σ a (.removeTree path why) w)
    (hremoved : ∀ w w', Inv σ w → Has a L F w → Called σ a w w' → w.Removed a path why w' → F' w')
    (hnone : ∀ w, Inv σ w → F w → w.names path = none → F' w)
    (hdir : ∃ w, Inv σ w ∧ F w ∧ w.KindAt path .dir) :
    C.Runs (Has a L F) (Sys.removeTree path why) (Removal σ a L F F' path) X := by
  obtain ⟨w₁, hi₁, hF₁, hk₁⟩ := hdir
  refine sys_call hF hallowed ?_ ?_
  · intro w _ _
    by_cases hd : w.IsDir path
    · exact ⟨_, _, .removeTree hd⟩
    · cases hname : w.names path with
      | none => exact ⟨_, w, .removeTreeMissing hname⟩
      | some i => exact ⟨_, w, @Sem.removeTreeOther _ _ _ _ _ _ _ _ _ 0 hname fun hk => hd ⟨i, hname, hk⟩⟩
  · intro w r w' hi h hi' hsem
    have hcall := hsem
    cases hsem with
    | fault hf hr =>
      obtain ⟨code, rfl⟩ := hr
      exact ⟨by simp, fun _ => (hF.failed hi h (hallowed w hi h) hf ⟨code, rfl⟩).and (Or.inl ⟨_, hf⟩)⟩
    | removeTree hd => exact ⟨h.1, hremoved w _ hi h ⟨_, _, by simp [Op.Plain], hallowed w hi h, hcall⟩ (.removeTree hd)⟩
    | removeTreeMissing hname => exact ⟨fun _ => ⟨h.1, hnone w hi h.2 hname⟩, by simp⟩
    | removeTreeOther hname hk =>
      refine ⟨by simp, fun _ => h.and (Or.inr ⟨.dir, w₁, w, hi₁, hF₁, hk₁, hi, h.2, ?_⟩)⟩
      rintro ⟨j, hj, hdir⟩
      rw [hname, Option.some_inj] at hj
      exact hk (hj ▸ hdir)

lemma sys_unlink (hF : Calm C L F) (hallowed : ∀ w, Inv σ w → Has a L F w → Allowed σ a (.unlink path why) w)
    (hremoved : ∀ w w', Inv σ w → Has a L F w → Called σ a w w' → w.Removed a path why w' → F' w')
    (hnone : ∀ w, Inv σ w → F w → w.names path = none → F' w) {kind : Kind} (hkind : kind ≠ .dir)
    (hat : ∃ w, Inv σ w ∧ F w ∧ w.KindAt path kind) :
    C.Runs (Has a L F) (Sys.unlink path why) (Removal σ a L F F' path) X := by
  obtain ⟨w₁, hi₁, hF₁, hk₁⟩ := hat
  refine sys_call hF hallowed ?_ ?_
  · intro w _ _
    by_cases hd : w.IsDir path
    · exact ⟨_, w, @Sem.unlinkDir _ _ _ _ _ _ _ _ 0 hd⟩
    · cases hname : w.names path with
      | none => exact ⟨_, w, .unlinkMissing hname⟩
      | some i => exact ⟨_, _, .unlink hname fun hk => hd ⟨i, hname, hk⟩⟩
  · intro w r w' hi h hi' hsem
    have hcall := hsem
    cases hsem with
    | fault hf hr =>
      obtain ⟨code, rfl⟩ := hr
      exact ⟨by simp, fun _ => (hF.failed hi h (hallowed w hi h) hf ⟨code, rfl⟩).and (Or.inl ⟨_, hf⟩)⟩
    | unlink hname hk => exact ⟨h.1, hremoved w _ hi h ⟨_, _, by simp [Op.Plain], hallowed w hi h, hcall⟩ (.unlink hname hk)⟩
    | unlinkMissing hname => exact ⟨fun _ => ⟨h.1, hnone w hi h.2 hname⟩, by simp⟩
    | unlinkDir hd =>
      obtain ⟨i, hname, hk⟩ := hd
      refine ⟨by simp, fun _ => h.and (Or.inr ⟨kind, w₁, w, hi₁, hF₁, hk₁, hi, h.2, ?_⟩)⟩
      rintro ⟨j, hj, hkj⟩
      rw [hname, Option.some_inj] at hj
      exact hkind (by rw [← hkj, ← hj, hk])

lemma runs_removal {r : Except ErrorKind Unit} :
    C.Runs (Removal σ a L F F' path r)
      (match r with
        | .ok () => pure ()
        | .error .notFound => pure ()
        | .error e => throw (.io e) : M V Unit) (fun _ => Has a L F')
      (fun _ => Has a L fun w => F w ∧ (σ.faults ∨ Fickle σ F path)) := by
  rcases r with e | ⟨⟩
  · cases e with
    | notFound => exact .pure fun w _ h => h.1 rfl
    | _ => exact .throw fun w _ h => h.2 (by simp)
  · exact .pure fun w _ h => h

lemma runs_remove (hF : Calm C L F)
    (hallowed : ∀ w, Inv σ w → Has a L F w → w.MayRemove a path why ∧ σ.permits w.journal a (.unlinked path why))
    (hremoved : ∀ w w', Inv σ w → Has a L F w → Called σ a w w' → w.Removed a path why w' → F' w')
    (hnone : ∀ w, Inv σ w → F w → w.names path = none → F' w) :
    C.Runs (Has a L F) (remove path why) (fun _ => Has a L F')
      (fun _ => Has a L fun w => F w ∧ (σ.faults ∨ Fickle σ F path)) := by
  unfold remove
  refine .bind (sys_lstat hF (T := Upshot
    (fun metadata w => (∃ w, Inv σ w ∧ F w ∧ w.KindAt path metadata.kind) ∧ Has a L F w)
    (fun e => Removal σ a L F F' path (.error e))) ?_) ?_
  · rintro w r hi h (rfl | ⟨hf, code, rfl⟩)
    · cases hl : w.lstat path with
      | ok metadata =>
        obtain ⟨i, hname, rfl⟩ := lstat_ok hl
        exact ⟨⟨w, hi, h.2, i, hname, rfl⟩, h⟩
      | error e =>
        obtain ⟨hname, rfl⟩ := lstat_error hl
        exact ⟨fun _ => ⟨h.1, hnone w hi h.2 hname⟩, by simp⟩
    · exact ⟨by simp, fun _ => h.and (Or.inl hf)⟩
  · rintro (e | metadata)
    · exact .bind (.pure fun _ _ h => h) fun _ => runs_removal
    · refine .imp fun hat => ?_
      by_cases hdir : metadata.kind = .dir
      · simp only [hdir, if_true]
        rw [hdir] at hat
        exact .bind (sys_removeTree hF hallowed hremoved hnone hat) fun _ => runs_removal
      · simp only [if_neg hdir]
        exact .bind (sys_unlink hF hallowed hremoved hnone hdir hat) fun _ => runs_removal

/-- What `regular` answers, with `metadata` from a moment at which `F` held. -/
def Regular (σ : Setting A V) (a : A) (L : Ledger) (F F' : World A V → Prop) (path : Path) :
    Option Metadata → World A V → Prop
  | none => Has a L F'
  | some metadata => fun w => (∃ w₁ i, Inv σ w₁ ∧ F w₁ ∧ w₁.names path = some i ∧
      (w₁.nodes i).kind = .file ∧ metadata = (w₁.nodes i).metadata i) ∧ Has a L F w

/-- `G` is what is known of a path that holds something other than a file. -/
lemma runs_regular {G : Kind → World A V → Prop} (hF : Calm C L F) (hG : ∀ kind, Calm C L (G kind))
    (hFG : ∀ w kind, Inv σ w → F w → kind ≠ .file → w.KindAt path kind → G kind w) (hGF : ∀ kind w, G kind w → F w)
    (hallowed : ∀ kind w, kind ≠ .file → Inv σ w → Has a L (G kind) w →
      w.MayRemove a path (.prune .irregular) ∧ σ.permits w.journal a (.unlinked path (.prune .irregular)))
    (hremoved : ∀ kind w w', kind ≠ .file → Inv σ w → Has a L (G kind) w → Called σ a w w' →
      w.Removed a path (.prune .irregular) w' → F' w')
    (hnone : ∀ w, Inv σ w → F w → w.names path = none → F' w) :
    C.Runs (Has a L F) (regular path) (Regular σ a L F F' path)
      (fun _ => Has a L fun w => F w ∧ (σ.faults ∨ ∃ kind, Fickle σ (G kind) path)) := by
  refine .bind (sys_lstat hF (T := Upshot
    (fun metadata w => if metadata.kind = .file then Regular σ a L F F' path (some metadata) w
        else Has a L (G metadata.kind) w)
    (fun e w => (e = .notFound → Has a L F' w) ∧ (e ≠ .notFound → Has a L (fun w => F w ∧ σ.faults) w)))
      ?_) ?_
  · rintro w r hi h (rfl | ⟨hf, code, rfl⟩)
    · cases hl : w.lstat path with
      | ok metadata =>
        obtain ⟨i, hname, rfl⟩ := lstat_ok hl
        dsimp only [Upshot]
        split
        · rename_i hfile
          exact ⟨⟨w, i, hi, h.2, hname, hfile, rfl⟩, h⟩
        · rename_i hfile
          exact ⟨h.1, hFG w _ hi h.2 hfile ⟨i, hname, rfl⟩⟩
      | error e =>
        obtain ⟨hname, rfl⟩ := lstat_error hl
        exact ⟨fun _ => ⟨h.1, hnone w hi h.2 hname⟩, by simp⟩
    · exact ⟨by simp, fun _ => h.and hf⟩
  · rintro (e | metadata)
    · cases e with
      | notFound => exact .pure fun w _ h => h.1 rfl
      | _ => exact .throw fun w _ h => ⟨(h.2 (by simp)).1, (h.2 (by simp)).2.1, Or.inl (h.2 (by simp)).2.2⟩
    · by_cases hfile : metadata.kind = .file
      · simp only [Upshot, if_pos hfile]
        exact .pure fun w _ h => h
      · simp only [Upshot, if_neg hfile]
        refine .bind ((runs_remove (hG metadata.kind) (fun w hi h => hallowed _ w hfile hi h) ?_ ?_).mono
          (fun _ _ => id) (fun _ _ _ => id) ?_) fun _ => .pure fun w _ h => h
        · exact fun w w' hi h hcall hr => hremoved _ w w' hfile hi h hcall hr
        · exact fun w hi h hn => hnone w hi (hGF _ w h) hn
        · rintro _ w _ ⟨hfiles, hGw, hf | hfickle⟩
          · exact ⟨hfiles, hGF _ w hGw, Or.inl hf⟩
          · exact ⟨hfiles, hGF _ w hGw, Or.inr ⟨_, hfickle⟩⟩

end

lemma closable_reading {path : Path} {i since pos : ℕ} (hpath : ¬ChildOf locks path) :
    Closable σ L (.reading path i since pos) :=
  ⟨rfl, rfl, fun _ h => absurd rfl h, fun _ => hpath⟩

/-- The loop has read `bytes`, and `limit - bytes.length` may follow. -/
lemma runs_readToEnd (hF : Calm C L F) {path : Path} {f i since limit : ℕ} {node : Node} (hnew : L f = none) :
    C.Runs (Has a (Function.update L f (some (.reading path i since 0))) fun w => F w ∧ w.Keeps i node)
      (readToEnd f limit) (fun bytes w => bytes = node.bytes.take limit ∧
        ∃ pos, Has a (Function.update L f (some (.reading path i since pos))) F w)
      (fun _ w => ∃ pos, Has a (Function.update L f (some (.reading path i since pos))) (fun w => F w ∧ σ.faults) w) := by
  unfold readToEnd
  refine .pre (.iterate (J := fun n bytes w => (bytes = node.bytes.take bytes.length ∧ bytes.length ≤ limit ∧
    n = limit - bytes.length) ∧ Has a (Function.update L f (some (.reading path i since bytes.length)))
      (fun w => F w ∧ w.Keeps i node) w) (fun n bytes => .imp fun hbytes => ?_) limit []) ?_
  · obtain ⟨hstarts, hle, rfl⟩ := hbytes
    by_cases hfull : limit ≤ bytes.length
    · simp only [if_pos hfull]
      refine .pure fun w _ h => ⟨?_, _, h.1, h.2.1⟩
      rw [hstarts, Nat.le_antisymm hfull hle]
    · simp only [if_neg hfull]
      have ho : Function.update L f (some (Open.reading path i since bytes.length)) f =
          some (.reading path i since bytes.length) := by simp
      have hcalm : Calm C (Function.update L f (some (.reading path i since bytes.length)))
          fun w => F w ∧ w.Keeps i node :=
        (hF.below (Ledger.below_update hnew _)).and (calm_keeps ho node)
      refine runs_ofResult_bind (T := fun chunk w => (chunk = [] → node.bytes.length ≤ bytes.length) ∧
        (∃ n, n ≤ limit - bytes.length ∧ chunk = (node.bytes.drop bytes.length).take n) ∧
        Has a (Function.update L f (some (.reading path i since (bytes.length + chunk.length))))
          (fun w => F w ∧ w.Keeps i node) w) (sys_read hcalm ho ?_ ?_) fun chunk => .imp fun hend => .imp ?_
      · intro w n hi hn hpos h
        rw [Function.update_idem] at h
        have hb : (w.nodes (Open.reading path i since bytes.length).ino).bytes = node.bytes := h.2.2.2.2
        rw [hb] at h hpos ⊢
        refine ⟨fun hnil => ?_, ⟨n, hn, rfl⟩, h⟩
        rcases Nat.eq_zero_or_pos n with h0 | h0
        · exact (hpos h0).resolve_left (by omega)
        · have hzero := congrArg List.length hnil
          simp only [Open.reading, List.length_take, List.length_drop, List.length_nil] at hzero
          omega
      · intro w e _ h hf
        exact ⟨_, h.1, h.2.1, hf.faults⟩
      · rintro ⟨n, hn, rfl⟩
        by_cases hnil : (node.bytes.drop bytes.length).take n = []
        · simp only [if_pos hnil]
          refine .pure fun w _ h => ⟨?_, _, h.1, h.2.1⟩
          have hlen := hend hnil
          rw [hstarts, List.take_of_length_le hlen, List.take_of_length_le (by omega)]
        · simp only [if_neg hnil]
          have hpos : 0 < ((node.bytes.drop bytes.length).take n).length := List.length_pos_of_ne_nil hnil
          refine .pure fun w _ h => ⟨limit - (bytes ++ (node.bytes.drop bytes.length).take n).length, ?_, ⟨?_, ?_, rfl⟩, ?_⟩
          · simp only [List.length_append]
            omega
          · have hsplit : bytes ++ (node.bytes.drop bytes.length).take n = node.bytes.take (bytes.length + n) := by
              rw [List.take_add, ← hstarts]
            rw [hsplit, List.length_take, List.take_eq_take_iff]
            omega
          · simp only [List.length_append, List.length_take]
            omega
          · rwa [List.length_append]
  · rintro w _ h
    exact ⟨⟨by simp, by simp, by simp⟩, h⟩

/-- Dropping an open file at the end of a scope. -/
lemma runs_closing {f : ℕ} {p : M V α} (hnew : L f = none) {E : α → World A V → Prop}
    (hE : ∀ x, Calm C L (E x)) (hF : Calm C L F)
    (hp : C.Runs S p (fun x w => ∃ o, Closable σ L o ∧ Has a (Function.update L f (some o)) (E x) w)
      (fun _ w => ∃ o, Closable σ L o ∧ Has a (Function.update L f (some o)) F w)) :
    C.Runs S (closing f p) (fun x => Has a L (E x)) (fun _ => Has a L F) := by
  refine runs_after hp (fun x => ?_) fun e => ?_
  · exact .of_exists fun o => .imp fun hclose => sys_close (hE x) hnew hclose
  · exact .of_exists fun o => .imp fun hclose => sys_close hF hnew hclose

/-- The inode at `path` with its kind and its bytes. -/
def World.view (w : World A V) (path : Path) : Option (ℕ × Kind × Bytes) :=
  (w.names path).map fun i => (i, (w.nodes i).kind, (w.nodes i).bytes)

lemma World.map_view (w : World A V) (path : Path) : (w.view path).map Prod.snd = w.content path := by
  rw [World.view, Option.map_map]
  rfl

/-- What is known of an entry's path: `D` of what was seen there at some moment. -/
structure Observed (C : (protocol σ).Scope a) (L : Ledger) (F : World A V → Prop) (path : Path)
    (D : Option (ℕ × Kind × Bytes) → World A V → Prop) : Prop where
  calm : ∀ view, Calm C L (D view)
  now : ∀ {w}, Inv σ w → F w → D (w.view path) w

/-- Whether `readFile` gives the bytes of what is at a path. -/
def readable (limit : ℕ) : Option (Kind × Bytes) → Option Bytes
  | some (.file, bytes) => if bytes.length ≤ limit then some bytes else none
  | _ => none

lemma readable_eq_none {limit : ℕ} {kind : Kind} {bytes : Bytes} (h : kind ≠ .file ∨ limit < bytes.length) :
    readable limit (some (kind, bytes)) = none := by
  cases kind with
  | file => exact if_neg (by simpa using h)
  | _ => rfl

lemma readable_file {limit : ℕ} {bytes : Bytes} (h : bytes.length ≤ limit) :
    readable limit (some (.file, bytes)) = some bytes :=
  if_pos h

/-- A read fails only by a fault or where something other than a file was seen. -/
def Excused (σ : Setting A V) (D : Option (ℕ × Kind × Bytes) → World A V → Prop) (w : World A V) : Prop :=
  σ.faults ∨ ∃ i kind bytes, kind ≠ .file ∧ D (some (i, kind, bytes)) w

variable {D : Option (ℕ × Kind × Bytes) → World A V → Prop}

lemma Observed.excused {path : Path} (hD : Observed C L F path D) : Calm C L (Excused σ D) :=
  (calm_const _).or (.of_exists fun _ => .of_exists fun _ => .of_exists fun _ => (calm_const _).and (hD.calm _))

lemma Observed.named {path : Path} (hD : Observed C L F path D) {w : World A V} (hi : Inv σ w) (hF : F w) {i : ℕ}
    (hname : w.names path = some i) : D (some (i, (w.nodes i).kind, (w.nodes i).bytes)) w := by
  have hnow := hD.now hi hF
  rwa [World.view, hname] at hnow

lemma Observed.unnamed {path : Path} (hD : Observed C L F path D) {w : World A V} (hi : Inv σ w) (hF : F w)
    (hname : w.names path = none) : D none w := by
  have hnow := hD.now hi hF
  rwa [World.view, hname] at hnow

/-- The metadata of what was seen, from a moment at which `F` held. -/
def Stated (σ : Setting A V) (F : World A V → Prop) (D : Option (ℕ × Kind × Bytes) → World A V → Prop)
    (metadata : Metadata) : Prop :=
  ∃ w i kind bytes, Inv σ w ∧ F w ∧ D (some (i, kind, bytes)) w ∧ metadata = (w.nodes i).metadata i

/-- What is left of a read whose file was not to be had. -/
lemma runs_missed {digest : Name} {limit : ℕ} (hF : Calm C L F) (hD : Observed C L F (entryPath digest) D) (e : ErrorKind) :
    C.Runs (Has a L fun w => F w ∧ Excused σ D w) (do
      match ← (Sys.lstat (entryPath digest) : M V _) with
      | .ok metadata => if metadata.kind ≠ .file then return none else throw (.io e)
      | .error .notFound => return none
      | .error _ => throw (.io e))
      (fun (r : Option (Bytes × Metadata)) w => ∃ view, r.map Prod.fst = readable limit (view.map Prod.snd) ∧
        (∀ bytes metadata, r = some (bytes, metadata) → Stated σ F D metadata) ∧ Has a L (fun w => F w ∧ D view w) w)
      (fun _ => Has a L fun w => F w ∧ Excused σ D w) := by
  refine .bind (sys_lstat (hF.and hD.excused) (T := fun r w => Has a L (fun w => F w ∧ Excused σ D w) w ∧
    (r = .error .notFound → D none w) ∧
    ∀ metadata, r = .ok metadata → ∃ i bytes, D (some (i, metadata.kind, bytes)) w) ?_) ?_
  · rintro w r hi h (rfl | ⟨hf, code, rfl⟩)
    · cases hl : w.lstat (entryPath digest) with
      | ok metadata =>
        obtain ⟨i, hname, rfl⟩ := lstat_ok hl
        refine ⟨h, by simp, ?_⟩
        rintro _ ⟨⟩
        exact ⟨_, _, hD.named hi h.2.1 hname⟩
      | error e' => exact ⟨h, fun _ => hD.unnamed hi h.2.1 (lstat_error hl).1, by simp⟩
    · exact ⟨h, by simp, by simp⟩
  · rintro (e' | metadata)
    · cases e' with
      | notFound => exact .pure fun w _ h => ⟨none, rfl, by simp, h.1.1, h.1.2.1, h.2.1 rfl⟩
      | _ => exact .throw fun w _ h => h.1
    · dsimp only
      split
      · rename_i hkind
        refine .pure ?_
        rintro w _ ⟨h, -, hbytes⟩
        obtain ⟨i, bytes, hb⟩ := hbytes metadata rfl
        exact ⟨some (i, metadata.kind, bytes), (readable_eq_none (Or.inl hkind)).symm, by simp, h.1, h.2.1, hb⟩
      · exact .throw fun w _ h => h.1

lemma runs_readFile {digest : Name} {limit : ℕ} (hF : Calm C L F) (hD : Observed C L F (entryPath digest) D)
    (hd : isDigest digest = true) (hlimit : limit ≤ u64Max) :
    C.Runs (Has a L F) (readFile (entryPath digest) limit)
      (fun r w => ∃ view, r.map Prod.fst = readable limit (view.map Prod.snd) ∧
        (∀ bytes metadata, r = some (bytes, metadata) → Stated σ F D metadata) ∧ Has a L (fun w => F w ∧ D view w) w)
      (fun _ => Has a L fun w => F w ∧ Excused σ D w) := by
  have hallowed : ∀ w, Inv σ w → Has a L F w → Allowed σ a (.openRead (entryPath digest) false) w :=
    fun w _ _ => ⟨Or.inr (Or.inr (Or.inr ⟨digest, hd, rfl⟩)), by simp⟩
  refine .bind (sys_openRead hF hallowed (T := Upshot
    (fun f w => L f = none ∧ ∃ i since node, Has a (Function.update L f (some (.reading (entryPath digest) i since 0)))
        (fun w => (F w ∧ D (some (i, node.kind, node.bytes)) w) ∧ w.Keeps i node) w)
    (fun e w => Has a L (fun w => F w ∧ (e = .notFound → D none w) ∧ (e ≠ .notFound → Excused σ D w)) w)) ?_ ?_) ?_
  · exact fun w f i since hi hnew h hname _ =>
      ⟨hnew, i, since, w.nodes i, h.1, ⟨h.2, hD.named hi h.2 hname⟩, rfl, rfl, rfl⟩
  · intro w e hi h hwhy
    rcases hwhy with hf | ⟨i, hname, hkind, hne⟩ | ⟨hname, rfl⟩
    · obtain ⟨code, ⟨⟩⟩ := hf.1.2
      exact h.and ⟨by simp, fun _ => Or.inl hf.faults⟩
    · refine h.and ⟨fun he => absurd he hne, fun _ => Or.inr ⟨i, _, _, ?_, hD.named hi h.2 hname⟩⟩
      rcases hkind with hk | hk <;> simp [hk]
    · exact h.and ⟨fun _ => hD.unnamed hi h.2 hname, by simp⟩
  · rintro (e | f)
    · cases e with
      | notFound => exact .pure fun w _ h => ⟨none, rfl, by simp, h.1, h.2.1, h.2.2.1 rfl⟩
      | _ => exact (runs_missed hF hD _).pre fun w _ h => ⟨h.1, h.2.1, h.2.2.2 (by simp)⟩
    · refine .imp fun hnew => .of_exists fun i => .of_exists fun since => .of_exists fun node => ?_
      have ho : Function.update L f (some (Open.reading (entryPath digest) i since 0)) f =
          some (.reading (entryPath digest) i since 0) := by simp
      have hclosable : ∀ pos, Closable σ L (.reading (entryPath digest) i since pos) :=
        fun _ => closable_reading (childOf_entryPath digest).not_locks
      have hFD : Calm C L fun w => F w ∧ D (some (i, node.kind, node.bytes)) w := hF.and (hD.calm _)
      have hfile := (hFD.below (Ledger.below_update hnew (.reading (entryPath digest) i since 0))).and (calm_keeps ho node)
      refine (runs_closing hnew (E := fun r w => (r.map Prod.fst = readable limit (some (node.kind, node.bytes)) ∧
        ∀ bytes metadata, r = some (bytes, metadata) → Stated σ F D metadata) ∧
          (F w ∧ D (some (i, node.kind, node.bytes)) w)) (F := fun w => F w ∧ Excused σ D w)
            (fun _ => (calm_const _).and hFD) (hF.and hD.excused) ?_).post ?_
      · refine runs_ofResult_bind (T := fun metadata w => (metadata.kind = node.kind ∧
          metadata.len = node.bytes.length ∧ Stated σ F D metadata) ∧
            Has a (Function.update L f (some (.reading (entryPath digest) i since 0)))
              (fun w => (F w ∧ D (some (i, node.kind, node.bytes)) w) ∧ w.Keeps i node) w) (sys_fstat hfile ho ?_)
                fun metadata => .imp ?_
        · rintro w r hi h (rfl | ⟨hf, code, rfl⟩)
          · obtain ⟨hk, -, hb⟩ := h.2.2
            exact ⟨⟨hk, congrArg List.length hb, w, i, _, _, hi, h.2.1.1, h.2.1.2, rfl⟩, h⟩
          · exact ⟨_, hclosable 0, h.1, h.2.1.1, Or.inl hf⟩
        · rintro ⟨hkind, hlen, hstated⟩
          by_cases hbad : metadata.kind ≠ .file ∨ limit < metadata.len
          · simp only [if_pos hbad]
            rw [hkind, hlen] at hbad
            exact .pure fun w _ h => ⟨_, hclosable 0, h.1, ⟨(readable_eq_none hbad).symm, by simp⟩, h.2.1⟩
          · simp only [if_neg hbad]
            refine .bind ((runs_readToEnd hFD hnew).mono (fun _ _ => id) (fun _ _ _ => id) ?_) fun bytes => .imp ?_
            · rintro _ w _ ⟨pos, h⟩
              exact ⟨_, hclosable pos, h.1, h.2.1.1, Or.inl h.2.2⟩
            · rintro rfl
              rw [hkind, hlen, not_or, not_not, not_lt] at hbad
              have hwhole : node.bytes.take (satAdd limit 1) = node.bytes := by
                refine List.take_of_length_le (hbad.2.trans ?_)
                unfold satAdd
                omega
              rw [hwhole, if_neg (by omega), hbad.1]
              refine .pure ?_
              rintro w _ ⟨pos, h⟩
              refine ⟨_, hclosable pos, h.1, ⟨(readable_file hbad.2).symm, ?_⟩, hbad.1 ▸ h.2⟩
              rintro _ _ ⟨⟩
              exact hstated
      · rintro r w _ ⟨hfiles, ⟨hr, hstated⟩, h⟩
        exact ⟨some (i, node.kind, node.bytes), hr, hstated, hfiles, h⟩

/-- The time of use of a file that `a` may set: `U` holds once it is set. -/
lemma runs_touch {digest : Name} {ms : ℕ} {U : World A V → Prop} (hF : Calm C L F)
    (hD : Observed C L F (entryPath digest) D) (hU : Calm C L U) (hd : isDigest digest = true) (hreader : σ.reader a)
    (hread : ∀ w, Inv σ w → F w → ⟨a, .clock ms⟩ ∈ w.journal)
    (htouched : ∀ w w' i kind bytes, Inv σ w → F w → D (some (i, kind, bytes)) w → Called σ a w w' → Inv σ w' →
      w' = w.setNode i { w.nodes i with modified := millisecond ms } → U w') :
    C.Runs (Has a L F) (touch (entryPath digest) ms) (fun _ => Has a L U)
      (fun _ => Has a L fun w => F w ∧ (Excused σ D w ∨ D none w)) := by
  have hmissing : Calm C L fun w => F w ∧ (Excused σ D w ∨ D none w) := hF.and (hD.excused.or (hD.calm none))
  refine runs_ofResult_bind (T := fun f w => L f = none ∧ ∃ i since kind bytes,
    Has a (Function.update L f (some (.reading (entryPath digest) i since 0))) (fun w => F w ∧ D (some (i, kind, bytes)) w) w)
      (sys_openRead hF ?_ ?_ ?_) fun f => .imp fun hnew => .of_exists fun i => .of_exists fun since => .of_exists fun kind =>
        .of_exists fun bytes => ?_
  · exact fun w _ _ => ⟨Or.inr (Or.inr (Or.inr ⟨digest, hd, rfl⟩)), by simp⟩
  · exact fun w f i since hi hnew h hname _ => ⟨hnew, i, since, _, _, h.1, h.2, hD.named hi h.2 hname⟩
  · rintro w e hi h (hf | ⟨i, hname, hkind, -⟩ | ⟨hname, -⟩)
    · exact h.and (Or.inl (Or.inl hf.faults))
    · refine h.and (Or.inl (Or.inr ⟨i, _, _, ?_, hD.named hi h.2 hname⟩))
      rcases hkind with hk | hk <;> simp [hk]
    · exact h.and (Or.inr (hD.unnamed hi h.2 hname))
  · have hbelow := Ledger.below_update hnew (Open.reading (entryPath digest) i since 0)
    have ho : Function.update L f (some (Open.reading (entryPath digest) i since 0)) f =
        some (.reading (entryPath digest) i since 0) := by simp
    have hclosable : Closable σ L (.reading (entryPath digest) i since 0) :=
      closable_reading (childOf_entryPath digest).not_locks
    refine runs_closing hnew (E := fun _ => U) (fun _ => hU) hmissing (runs_ofResult (sys_setModified (G := U)
      ((hF.and (hD.calm _)).below hbelow) ho (fun w hi h => hread w hi h.1) (Or.inl hreader) ?_ ?_ ?_))
    · exact fun w w' hi h hcall hi' hw' => htouched w w' i kind bytes hi h.2.1 h.2.2 hcall hi' hw'
    · exact fun w _ h => ⟨_, hclosable, h⟩
    · exact fun w e _ h hf => ⟨_, hclosable, h.1, h.2.1, Or.inl (Or.inl hf.1)⟩

/-- `Y` is what a failed sync leaves: the call that failed decides it. -/
lemma runs_syncDirOf {Y : World A V → Prop} (hF : Calm C L F) (hY : Calm C L Y) {path : Path}
    (hpath : path = entries ∨ path = locks) (hdir : ∀ w, Inv σ w → F w → w.OwnDir path)
    (hfailed : ∀ w op, Inv σ w → F w → F (w.log a (.failed op)) → σ.fails op →
      (op = .openRead path true ∨ ∃ f, op = .fsync f) → Y (w.log a (.failed op))) :
    C.Runs (Has a L F) (syncDir path) (fun _ => Has a L F) (fun _ => Has a L Y) := by
  have hnot : ¬ChildOf locks path := by
    intro hchild
    rcases hpath with rfl | rfl
    · exact hchild.ne (by decide) rfl
    · exact hchild.ne (by decide) rfl
  refine runs_ofResult_bind (T := fun f w => L f = none ∧ ∃ i since,
    Has a (Function.update L f (some (.reading path i since 0))) F w)
      (sys_openRead hF ?_ ?_ ?_) fun f => .imp fun hnew => .of_exists fun i => .of_exists fun since => ?_
  · intro w hi h
    refine ⟨?_, fun _ j hj => ?_⟩
    · rcases hpath with hp | hp
      · exact Or.inr (Or.inl hp)
      · exact Or.inr (Or.inr (Or.inl hp))
    · obtain ⟨k, hk, hkind, -⟩ := hdir w hi h.2
      rw [hj, Option.some_inj] at hk
      simp [hk, hkind]
  · exact fun w f i since _ hnew h _ _ => ⟨hnew, i, since, h⟩
  · rintro w e hi h (hf | ⟨i, hname, hkind, -⟩ | ⟨hname, -⟩)
    · obtain ⟨⟨hfails, -⟩, w₀, hi₀, hF₀, rfl⟩ := hf
      exact ⟨h.1, hfailed w₀ _ hi₀ hF₀ h.2 hfails (Or.inl rfl)⟩
    · obtain ⟨k, hk, hd, -⟩ := hdir w hi h.2
      rw [hname, Option.some_inj] at hk
      rw [hk, hd] at hkind
      rcases hkind with hk | hk <;> cases hk
    · obtain ⟨k, hk, -⟩ := hdir w hi h.2
      simp [hname] at hk
  · refine runs_closing hnew (E := fun _ => F) (fun _ => hF) hY (runs_ofResult (sys_fsync
      (hF.below (Ledger.below_update hnew _)) ?_))
    rintro w r _ h (rfl | hf)
    · exact ⟨_, closable_reading hnot, h⟩
    · obtain ⟨⟨hfails, code, rfl⟩, w₀, hi₀, hF₀, rfl⟩ := hf
      exact ⟨_, closable_reading hnot, h.1, hfailed w₀ _ hi₀ hF₀ h.2 hfails (Or.inr ⟨f, rfl⟩)⟩

lemma runs_syncDir (hF : Calm C L F) {path : Path} (hpath : path = entries ∨ path = locks)
    (hdir : ∀ w, Inv σ w → F w → w.OwnDir path) :
    C.Runs (Has a L F) (syncDir path) (fun _ => Has a L F) (fun _ => Has a L fun w => F w ∧ σ.faults) :=
  runs_syncDirOf hF (hF.and (calm_const _)) hpath hdir fun _ op _ _ hF' hfails _ => ⟨hF', op, hfails⟩

section

variable {V T : Type}

/-- What an entry's bytes are worth to a lookup. -/
inductive Verdict (T : Type) where
  | newer
  | useless
  | hit (lookup : Lookup T)

def verdict (codec : Codec T) (inner : Inner) (key : Key) (bytes : Bytes) (now : ℕ) : Verdict T :=
  match codec.header bytes with
  | none => .useless
  | some header =>
    if inner.schema < header.schema then
      .newer
    else if (¬header.consistent ∨ header.digest ≠ key.digest ∨ header.space ≠ key.space) ∨
        header.staleUntilMs < now then
      .useless
    else
      match codec.value bytes with
      | none => .useless
      | some value =>
        let cached := ⟨value, header.storedAtMs, now - header.storedAtMs, header.source⟩
        if header.schema = inner.schema ∧ now ≤ header.freshUntilMs then .hit (.fresh cached) else .hit (.stale cached)

/-- What a lookup answers at time `now` when the entry's path holds `content`. -/
def answer (codec : Codec T) (inner : Inner) (key : Key) (content : Option (Kind × Bytes)) (now : ℕ) : Lookup T :=
  match readable inner.limits.maxEntryBytes content with
  | none => .miss
  | some bytes =>
    match verdict codec inner key bytes now with
    | .hit lookup => lookup
    | _ => .miss

/-- Whether a locked lookup removes `content` at time `now`. -/
def Discards (codec : Codec T) (inner : Inner) (key : Key) (content : Option (Kind × Bytes)) (now : ℕ) : Prop :=
  match readable inner.limits.maxEntryBytes content with
  | none => True
  | some bytes => verdict codec inner key bytes now = .useless

end

/-- What `a` knows through a lookup: `F n` once it has read the time `n`, `D view` of what it saw, `E n` after it
has removed the entry and `U n` after it has set the entry's time of use. -/
structure Looks {T : Type} (C : (protocol σ).Scope a) (L : Ledger) (codec : Codec T) (inner : Inner) (key : Key)
    (locked : Bool) (F E U : ℕ → World A V → Prop) (D : Option (ℕ × Kind × Bytes) → World A V → Prop) : Prop where
  calm : ∀ n, Calm C L (F n)
  calmU : ∀ n, Calm C L (U n)
  observed : ∀ n, Observed C L (F n) (entryPath key.digest) D
  clock : ∀ {n w}, Inv σ w → F n w → F w.clock (w.log a (.clock w.clock))
  clockD : ∀ {view w}, D view w → D view (w.log a (.clock w.clock))
  keeps : ∀ {n w}, F n w → E n w
  allowed : locked = true → ∀ {n view w}, Inv σ w → Has a L (F n) w → D view w →
    Discards codec inner key (view.map Prod.snd) n →
      w.MayRemove a (entryPath key.digest) .discard ∧ σ.permits w.journal a (.unlinked (entryPath key.digest) .discard)
  removed : locked = true → ∀ {n view w w'}, Inv σ w → Has a L (F n) w → D view w →
    Called σ a w w' → w.Removed a (entryPath key.digest) .discard w' → E n w' ∧ D view w'
  touched : ∀ {n view i kind bytes w w'}, Inv σ w → F n w → D view w → D (some (i, kind, bytes)) w →
    Called σ a w w' → Inv σ w' → w' = w.setNode i { w.nodes i with modified := millisecond n } → U n w' ∧ D view w'
  reader : σ.reader a

section

variable {T : Type} {codec : Codec T} {inner : Inner} {key : Key} {locked : Bool} {F E U : ℕ → World A V → Prop}
  {D : Option (ℕ × Kind × Bytes) → World A V → Prop}

/-- A hit at time `n` leaves the time of use as it is: it is recent, or it cannot be set. -/
def Idle (σ : Setting A V) (inner : Inner) (F : ℕ → World A V → Prop)
    (D : Option (ℕ × Kind × Bytes) → World A V → Prop) (r : Lookup T) (n : ℕ) (w : World A V) : Prop :=
  r = .miss ∨ (∃ m metadata, Stated σ (F m) D metadata ∧ n - modifiedMs metadata ≤ millis inner.limits.touchAfter) ∨
    Excused σ D w ∨ D none w

/-- What holds after a lookup has answered. -/
def Looked (codec : Codec T) (inner : Inner) (key : Key) (locked : Bool) (σ : Setting A V) (a : A) (L : Ledger)
    (F E U : ℕ → World A V → Prop) (D : Option (ℕ × Kind × Bytes) → World A V → Prop) (r : Lookup T) (w : World A V) :
    Prop :=
  ∃ n view, r = answer codec inner key (view.map Prod.snd) n ∧ D view w ∧
    (Idle σ inner F D r n w ∧ Has a L (F n) w ∨
      (locked = true ∧ Discards codec inner key (view.map Prod.snd) n) ∧ Has a L (E n) w ∨
      r ≠ .miss ∧ Has a L (U n) w)

lemma runs_discard (h : Looks C L codec inner key locked F E U D) {n : ℕ} {view : Option (ℕ × Kind × Bytes)}
    (hdiscards : Discards codec inner key (view.map Prod.snd) n) :
    C.Runs (Has a L fun w => F n w ∧ D view w) (discard (entryPath key.digest) locked)
      (Looked codec inner key locked σ a L F E U D) X := by
  have hmiss : answer codec inner key (view.map Prod.snd) n = .miss := by
    unfold Discards at hdiscards
    unfold answer
    split
    · rfl
    · rename_i bytes hr
      rw [hr] at hdiscards
      dsimp only at hdiscards
      rw [hdiscards]
  unfold discard
  cases locked with
  | false =>
    exact .pure fun w _ hw => ⟨n, view, hmiss.symm, hw.2.2, Or.inl ⟨Or.inl rfl, hw.1, hw.2.1⟩⟩
  | true =>
    refine .bind (.attempt (T := fun _ => Has a L fun w => E n w ∧ D view w) ((runs_remove ((h.calm n).and
      ((h.observed n).calm view)) ?_ ?_ ?_).mono (fun _ _ => id) (fun _ _ _ => id) ?_)) fun _ => .pure ?_
    · exact fun w hi hw => h.allowed rfl hi ⟨hw.1, hw.2.1⟩ hw.2.2 hdiscards
    · exact fun w w' hi hw hcall hr => h.removed rfl hi ⟨hw.1, hw.2.1⟩ hw.2.2 hcall hr
    · exact fun w _ hw _ => ⟨h.keeps hw.1, hw.2⟩
    · exact fun _ w _ hw => ⟨hw.1, h.keeps hw.2.1.1, hw.2.1.2⟩
    · exact fun w _ hw => ⟨n, view, hmiss.symm, hw.2.2, Or.inr (Or.inl ⟨⟨rfl, hdiscards⟩, hw.1, hw.2.1⟩)⟩

/-- The end of a lookup that hits. -/
lemma runs_hit (h : Looks C L codec inner key locked F E U D) {n now : ℕ} {view : Option (ℕ × Kind × Bytes)}
    {metadata : Metadata} (hstated : Stated σ (F n) D metadata) {header : Header} {value : T}
    (hanswer : answer codec inner key (view.map Prod.snd) now =
      if header.schema = inner.schema ∧ now ≤ header.freshUntilMs then
        .fresh ⟨value, header.storedAtMs, now - header.storedAtMs, header.source⟩
      else .stale ⟨value, header.storedAtMs, now - header.storedAtMs, header.source⟩) :
    C.Runs (Has a L fun w => (F now w ∧ ⟨a, .clock now⟩ ∈ w.journal) ∧ D view w) (do
        if millis inner.limits.touchAfter < now - modifiedMs metadata then
          let _ ← Prog.attempt (touch (entryPath key.digest) now)
        let cached := ⟨value, header.storedAtMs, now - header.storedAtMs, header.source⟩
        if header.schema = inner.schema ∧ now ≤ header.freshUntilMs then
          return .fresh cached
        else
          return .stale cached)
      (Looked codec inner key locked σ a L F E U D)
      (fun _ w => ∃ n, Has a L (fun w => F n w ∧ Excused σ D w) w) := by
  have hlast : ∀ {S : World A V → Prop}, (∀ r w, r = answer codec inner key (view.map Prod.snd) now → r ≠ .miss →
      S w → Looked codec inner key locked σ a L F E U D r w) → C.Runs S (if header.schema = inner.schema ∧
        now ≤ header.freshUntilMs then
      pure (.fresh ⟨value, header.storedAtMs, now - header.storedAtMs, header.source⟩)
    else pure (.stale ⟨value, header.storedAtMs, now - header.storedAtMs, header.source⟩) : M V _)
      (Looked codec inner key locked σ a L F E U D) (fun _ w => ∃ n, Has a L (fun w => F n w ∧ Excused σ D w) w) := by
    intro S hS
    split
    · rename_i hfresh
      rw [if_pos hfresh] at hanswer
      exact .pure fun w _ hw => hS _ w hanswer.symm (by simp) hw
    · rename_i hfresh
      rw [if_neg hfresh] at hanswer
      exact .pure fun w _ hw => hS _ w hanswer.symm (by simp) hw
  dsimp only
  split
  · refine .bind (.attempt (T := fun r w => (r = .ok () ∧ Has a L (fun w => U now w ∧ D view w) w) ∨
      Has a L (fun w => (F now w ∧ D view w) ∧ (Excused σ D w ∨ D none w)) w)
        ((runs_touch (((h.calm now).and (calm_read now)).and ((h.observed now).calm view)) ⟨(h.observed now).calm,
          fun hi hF => (h.observed now).now hi hF.1.1⟩ ((h.calmU now).and ((h.observed now).calm view)) key.wf h.reader
            (fun _ _ hF => hF.1.2) ?_).mono (fun _ _ => id) (fun _ _ _ hw => Or.inl ⟨rfl, hw⟩)
              fun _ _ _ hw => Or.inr ⟨hw.1, ⟨hw.2.1.1.1, hw.2.1.2⟩, hw.2.2⟩)) fun r => hlast ?_
    · exact fun w w' i kind bytes hi hF hD hcall hi' hw' => h.touched hi hF.1.1 hF.2 hD hcall hi' hw'
    · rintro r w hr hhit (⟨-, hfiles, hU, hD⟩ | ⟨hfiles, ⟨hF, hD⟩, hwhy⟩)
      · exact ⟨now, view, hr, hD, Or.inr (Or.inr ⟨hhit, hfiles, hU⟩)⟩
      · exact ⟨now, view, hr, hD, Or.inl ⟨Or.inr (Or.inr hwhy), hfiles, hF⟩⟩
  · rename_i hrecent
    refine hlast fun r w hr _ hw => ⟨now, view, hr, hw.2.2, Or.inl ⟨Or.inr (Or.inl ⟨n, metadata, hstated, ?_⟩), hw.1,
      hw.2.1.1⟩⟩
    exact Nat.not_lt.mp hrecent

/-- What `read` answers is what the content that it saw is worth at the time that it read. -/
theorem runs_lookup (h : Looks C L codec inner key locked F E U D) {n : ℕ} :
    C.Runs (Has a L (F n)) (read codec inner key locked) (Looked codec inner key locked σ a L F E U D)
      (fun _ w => ∃ n, Has a L (fun w => F n w ∧ Excused σ D w) w) := by
  have hentries : Blamed σ (F n) (·.OwnDir entries) → σ.faults := fun hb => hb fun w hi _ => hi.entriesDir
  refine .bind (U := fun _ => Has a L (F n)) ((runs_ensureDir (h.calm n) (Or.inl rfl)).mono (fun _ _ => id)
    (fun _ _ _ hw => ⟨hw.1, hw.2.1⟩) ?_) fun _ => ?_
  · exact fun _ w _ hw => ⟨n, hw.1, hw.2.1, Or.inl (hentries hw.2.2)⟩
  refine .bind ((runs_readFile (h.calm n) (h.observed n) key.wf inner.limits.maxEntry).mono (fun _ _ => id)
    (fun _ _ _ => id) fun _ w _ hw => ⟨n, hw⟩) fun r => .of_exists fun view => .imp fun hread => .imp fun hstated => ?_
  have hseen : ∀ n, Calm C L fun w => F n w ∧ D view w := fun n => (h.calm n).and ((h.observed n).calm view)
  have hout : ∀ {bytes}, readable inner.limits.maxEntryBytes (view.map Prod.snd) = some bytes → ∀ n,
      (verdict codec inner key bytes n = .useless → Discards codec inner key (view.map Prod.snd) n) ∧
        ∀ l, (verdict codec inner key bytes n = .newer ∧ l = .miss ∨ verdict codec inner key bytes n = .hit l) →
          l = answer codec inner key (view.map Prod.snd) n := by
    intro bytes hb n
    unfold Discards answer
    rw [hb]
    refine ⟨id, ?_⟩
    rintro l (⟨hv, rfl⟩ | hv)
    · simp only [hv]
    · simp only [hv]
  rcases r with _ | ⟨bytes, metadata⟩
  · refine runs_discard h ?_
    unfold Discards
    rw [← hread]
    trivial
  · specialize hout hread.symm
    specialize hstated bytes metadata rfl
    unfold verdict at hout
    dsimp only
    cases hheader : codec.header bytes with
    | none =>
      simp only [hheader] at hout ⊢
      exact runs_discard h ((hout n).1 trivial)
    | some header =>
      simp only [hheader] at hout ⊢
      by_cases hnewer : inner.schema < header.schema
      · simp only [if_pos hnewer] at hout ⊢
        refine .pure fun w _ hw => ⟨n, view, (hout n).2 _ (Or.inl ⟨trivial, rfl⟩), hw.2.2, Or.inl ⟨Or.inl rfl, hw.1,
          hw.2.1⟩⟩
      · simp only [if_neg hnewer] at hout ⊢
        by_cases hbad : ¬header.consistent ∨ header.digest ≠ key.digest ∨ header.space ≠ key.space
        · simp only [if_pos hbad]
          exact runs_discard h ((hout n).1 (by rw [if_pos (Or.inl hbad)]))
        · simp only [if_neg hbad]
          refine .bind (sys_now (hseen n) (T := fun now => Has a L fun w => (F now w ∧ ⟨a, .clock now⟩ ∈ w.journal) ∧
            D view w) ?_) fun now => ?_
          · exact fun w hi hw => ⟨hw.1, ⟨h.clock hi hw.2.1, by simp⟩, h.clockD hw.2.2⟩
          have hforget : ∀ w, Inv σ w → Has a L (fun w => (F now w ∧ ⟨a, .clock now⟩ ∈ w.journal) ∧ D view w) w →
              Has a L (fun w => F now w ∧ D view w) w := fun _ _ hw => ⟨hw.1, hw.2.1.1, hw.2.2⟩
          by_cases hstale : header.staleUntilMs < now
          · simp only [if_pos hstale]
            refine .pre ?_ hforget
            exact runs_discard h ((hout now).1 (by rw [if_pos (Or.inr hstale)]))
          · simp only [if_neg hstale]
            have hgood : ¬((¬header.consistent ∨ header.digest ≠ key.digest ∨ header.space ≠ key.space) ∨
                header.staleUntilMs < now) := by
              rintro (hc | hc)
              · exact hbad hc
              · exact hstale hc
            specialize hout now
            rw [if_neg hgood] at hout
            cases hvalue : codec.value bytes with
            | none =>
              simp only [hvalue] at hout ⊢
              exact (runs_discard h (hout.1 trivial)).pre hforget
            | some value =>
              simp only [hvalue] at hout ⊢
              refine runs_hit h hstated (hout.2 _ (Or.inr ?_)).symm
              split
              · rfl
              · rfl

end

end Unixd.Cache
