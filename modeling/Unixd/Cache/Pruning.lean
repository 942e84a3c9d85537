import Unixd.Cache.Scan
import Unixd.Cache.Sweeping

/-!
# Pruning

One name of each loop of a prune in triples, over whatever is known of the rest of the world, and
from them that a prune among all others does only what is allowed.
-/

namespace Unixd.Cache

open Unixd.Lib

set_option linter.unusedSectionVars false

variable {A V T : Type} [DecidableEq A] {σ : Setting A V} {a : A} {C : (protocol σ).Scope a} {L : Ledger}
  {F : World A V → Prop} {X : Error → World A V → Prop} {codec : Codec T} {inner : Inner} {n : ℕ}

/-- The calls of `readHeader`. -/
def Op.Scans : Op V → Prop
  | .openRead path true => ∃ digest, path = entryPath digest
  | .read _ _ => True
  | _ => False

/-- A call of `readHeader` by `a` failed in `j`. -/
def Unread (a : A) (j : List (Event A V)) : Prop :=
  ∃ op : Op V, ⟨a, .failed op⟩ ∈ j ∧ op.Scans

lemma Unread.append {j j' : List (Event A V)} (h : Unread a j) : Unread a (j ++ j') := by
  obtain ⟨op, hmem, hop⟩ := h
  exact ⟨op, List.mem_append_left _ hmem, hop⟩

lemma lasting_unread : Lasting σ a fun w => Unread a (w.journal.drop n) :=
  lasting_journal (J := fun j => Unread a (j.drop n)) fun j e _ _ h => by
    rw [List.drop_append]
    exact h.append

lemma FaultOf.unread {α : Type} {op : Op V} {r : Except ErrorKind α} {w : World A V} (h : FaultOf σ a F op r w)
    (hop : op.Scans) (hn : ∀ w, F w → n ≤ w.journal.length) : Unread a (w.journal.drop n) := by
  obtain ⟨-, w₀, -, hF, rfl⟩ := h
  rw [World.journal_log, List.drop_append_of_le_length (hn w₀ hF)]
  exact ⟨op, by simp, hop⟩

/-- The loop has read `read`, which has no `value` key, and `limit - read.length` may follow. -/
lemma runs_scan (hF : Calm C L F) (hn : ∀ w, F w → n ≤ w.journal.length) {path : Path} {f i since limit : ℕ} {node : Node}
    (hnew : L f = none) :
    C.Runs (Has a (Function.update L f (some (.reading path i since 0))) fun w => F w ∧ w.Keeps i node)
      (Prog.iterate (fun read : Bytes => do
        if limit ≤ read.length then
          return .inr none
        else
          match ← Sys.read f (min 8192 (limit - read.length)) with
          | .error _ => return .inr none
          | .ok chunk =>
            if chunk = [] then
              return .inr none
            else
              let start := read.length - (valueKey.length - 1)
              let read := read ++ chunk
              match position valueKey (read.drop start) with
              | some at' => return .inr (codec.header (read.take (start + at') ++ [0x7d]))
              | none => return .inl read) [] : M V (Option Header))
      (fun r w => ∃ pos, Has a (Function.update L f (some (.reading path i since pos))) (fun w =>
        (r = scanHeader codec limit node.bytes ∨ r = none ∧ Unread a (w.journal.drop n)) ∧ F w) w) X := by
  refine .pre (.iterate (J := fun n read w => ((read = node.bytes.take read.length ∧ read.length ≤ limit ∧
    n = limit - read.length) ∧ position valueKey read = none) ∧
      Has a (Function.update L f (some (.reading path i since read.length))) (fun w => F w ∧ w.Keeps i node) w)
        (fun n read => .imp fun hread => ?_) limit []) ?_
  · obtain ⟨⟨hread, hle, rfl⟩, hnone⟩ := hread
    have hwhole : node.bytes.take limit = read → scanHeader codec limit node.bytes = none := by
      intro heq
      rw [scanHeader, heq, hnone]
      rfl
    by_cases hfull : limit ≤ read.length
    · simp only [if_pos hfull]
      refine .pure fun w _ h => ⟨_, h.1, Or.inl (hwhole ?_).symm, h.2.1⟩
      rw [hread, Nat.le_antisymm hle hfull]
    · simp only [if_neg hfull]
      have ho : Function.update L f (some (Open.reading path i since read.length)) f =
          some (.reading path i since read.length) := by simp
      have hcalm : Calm C (Function.update L f (some (.reading path i since read.length)))
          fun w => F w ∧ w.Keeps i node :=
        (hF.below (Ledger.below_update hnew _)).and (calm_keeps ho node)
      refine .bind (sys_read hcalm ho (T := Upshot
        (fun chunk w => (chunk = [] → node.bytes.length ≤ read.length) ∧
          (∃ n, n ≤ limit - read.length ∧ chunk = (node.bytes.drop read.length).take n) ∧
            Has a (Function.update L f (some (.reading path i since (read.length + chunk.length))))
              (fun w => F w ∧ w.Keeps i node) w)
        (fun _ w => Has a (Function.update L f (some (.reading path i since read.length)))
          (fun w => Unread a (w.journal.drop n) ∧ F w) w)) ?_ ?_) ?_
      · intro w n hi hn hpos h
        rw [Function.update_idem] at h
        have hb : (w.nodes (Open.reading path i since read.length).ino).bytes = node.bytes := h.2.2.2.2
        rw [hb] at h hpos ⊢
        refine ⟨fun hnil => ?_, ⟨n, by omega, rfl⟩, h⟩
        rcases Nat.eq_zero_or_pos n with h0 | h0
        · exact (hpos h0).resolve_left (by omega)
        · have hzero := congrArg List.length hnil
          simp only [Open.reading, List.length_take, List.length_drop, List.length_nil] at hzero
          omega
      · exact fun w e _ h hf => ⟨h.1, hf.unread trivial fun w h => hn w h.1, h.2.1⟩
      · rintro (e | chunk)
        · exact .pure fun w _ h => ⟨_, h.1, Or.inr ⟨rfl, h.2.1⟩, h.2.2⟩
        · refine .imp fun hend => .imp ?_
          rintro ⟨n, hn, rfl⟩
          by_cases hnil : (node.bytes.drop read.length).take n = []
          · simp only [if_pos hnil]
            refine .pure fun w _ h => ⟨_, h.1, Or.inl (hwhole ?_).symm, h.2.1⟩
            have hlen := hend hnil
            rw [hread, List.take_of_length_le hlen, List.take_of_length_le (by omega)]
          · simp only [if_neg hnil]
            have hpos : 0 < ((node.bytes.drop read.length).take n).length := List.length_pos_of_ne_nil hnil
            have hsplit : read ++ (node.bytes.drop read.length).take n = node.bytes.take (read.length + n) := by
              rw [List.take_add, ← hread]
            have hoverlap := @position_overlap _ _ ((node.bytes.drop read.length).take n) (by decide) hnone
            cases hfound : position valueKey ((read ++ (node.bytes.drop read.length).take n).drop
                (read.length - (valueKey.length - 1))) with
            | some at' =>
              simp only [hfound]
              refine .pure fun w _ h => ⟨_, h.1, Or.inl ?_, h.2.1⟩
              rw [hfound, hsplit, Option.map_some] at hoverlap
              have hlen := position_length hoverlap
              have hlimit : node.bytes.take limit = node.bytes.take (read.length + n) ++
                  (node.bytes.drop (read.length + n)).take (limit - (read.length + n)) := by
                rw [← List.take_add]
                congr 1
                omega
              rw [scanHeader, hlimit, position_append hoverlap, Option.bind_some, hsplit, List.take_take, Nat.min_eq_left]
              rw [List.length_take] at hlen
              omega
            | none =>
              simp only [hfound]
              rw [hfound] at hoverlap
              refine .pure fun w _ h => ⟨limit - (read ++ (node.bytes.drop read.length).take n).length, ?_,
                ⟨⟨?_, ?_, rfl⟩, hoverlap⟩, ?_⟩
              · simp only [List.length_append]
                omega
              · rw [hsplit, List.length_take, List.take_eq_take_iff]
                omega
              · simp only [List.length_append, List.length_take]
                omega
              · rwa [List.length_append]
  · rintro w _ h
    exact ⟨⟨⟨by simp, by simp, by simp⟩, rfl⟩, h⟩

/-- A header from an entry that stays as it is. -/
lemma runs_readHeader (hF : Calm C L F) (hn : ∀ w, F w → n ≤ w.journal.length) {digest : Name} {limit : ℕ} {bytes : Bytes} (hd : isDigest digest = true)
    (hcontent : ∀ w, Inv σ w → F w → w.content (entryPath digest) = some (.file, bytes)) :
    C.Runs (Has a L F) (readHeader codec (entryPath digest) limit : M V _)
      (fun r => Has a L fun w => (r = scanHeader codec limit bytes ∨ r = none ∧ Unread a (w.journal.drop n)) ∧ F w) X := by
  have hname : ∀ w, Inv σ w → F w → ∃ i, w.names (entryPath digest) = some i ∧ (w.nodes i).kind = .file ∧
      (w.nodes i).bytes = bytes := by
    intro w hi hFw
    have hc := hcontent w hi hFw
    rw [World.content, Option.map_eq_some_iff] at hc
    obtain ⟨i, hname, hnode⟩ := hc
    exact ⟨i, hname, congrArg Prod.fst hnode, congrArg Prod.snd hnode⟩
  refine .bind (sys_openRead hF ?_ (T := Upshot (fun f w => L f = none ∧ ∃ i since node, node.bytes = bytes ∧
        Has a (Function.update L f (some (.reading (entryPath digest) i since 0))) (fun w => F w ∧ w.Keeps i node) w)
    (fun _ w => Has a L (fun w => Unread a (w.journal.drop n) ∧ F w) w)) ?_ ?_) ?_
  · intro w hi h
    obtain ⟨i, hi', hkind, -⟩ := hname w hi h.2
    refine ⟨Or.inr (Or.inr (Or.inr ⟨digest, hd, rfl⟩)), fun _ j hj => ?_⟩
    rw [hi', Option.some_inj] at hj
    simp [← hj, hkind]
  · intro w f i since hi hnew h hnamed _
    obtain ⟨j, hj, -, hbytes⟩ := hname w hi h.2
    rw [hnamed, Option.some_inj] at hj
    exact ⟨hnew, i, since, w.nodes i, hj ▸ hbytes, h.1, h.2, rfl, rfl, rfl⟩
  · rintro w e hi h (hf | ⟨i, hnamed, hkind, -⟩ | ⟨hnamed, -⟩)
    · exact ⟨h.1, hf.unread ⟨digest, rfl⟩ hn, h.2⟩
    · obtain ⟨j, hj, hfile, -⟩ := hname w hi h.2
      rw [hnamed, Option.some_inj] at hj
      rw [hj, hfile] at hkind
      rcases hkind with hk | hk <;> cases hk
    · obtain ⟨j, hj, -⟩ := hname w hi h.2
      simp [hnamed] at hj
  · rintro (e | f)
    · exact .pure fun w _ h => ⟨h.1, Or.inr ⟨rfl, h.2.1⟩, h.2.2⟩
    · refine .imp fun hnew => .of_exists fun i => .of_exists fun since => .of_exists fun node => .imp fun hbytes => ?_
      have hscanned : ∀ r : Option Header, Calm C L fun w =>
          (r = scanHeader codec limit bytes ∨ r = none ∧ Unread a (w.journal.drop n)) ∧ F w := fun _ =>
        ((calm_const _).or ((calm_const _).and lasting_unread.calm)).and hF
      refine (runs_closing hnew (F := fun _ => False) hscanned (calm_const False) ((runs_scan hF hn hnew
        (X := fun _ _ => False)).mono (fun _ _ => id) ?_ fun _ _ _ h => h.elim)).mono (fun _ _ => id) (fun _ _ _ => id)
          fun _ _ _ h => h.2.elim
      rintro r w _ ⟨pos, h⟩
      exact ⟨_, closable_reading (childOf_entryPath digest).not_locks, h.1, hbytes ▸ h.2⟩

/-- Whether an entry that stays as it is is live; a call that failed makes it dead. -/
lemma runs_live (hF : Calm C L F) (hn : ∀ w, F w → n ≤ w.journal.length) {digest : Name} {now limit : ℕ} {bytes : Bytes} (hd : isDigest digest = true)
    (hcontent : ∀ w, Inv σ w → F w → w.content (entryPath digest) = some (.file, bytes)) :
    C.Runs (Has a L F) (live codec (entryPath digest) now limit : M V _)
      (fun r => Has a L fun w => ((r = true ↔ Live codec digest now limit bytes) ∨ r = false ∧ Unread a (w.journal.drop n)) ∧
        F w) X := by
  refine .bind (runs_readHeader hF hn hd hcontent) ?_
  rintro (_ | header)
  · refine .pure ?_
    rintro w _ ⟨hfiles, hr | ⟨-, hs⟩, h⟩
    · refine ⟨hfiles, Or.inl ⟨by simp, ?_⟩, h⟩
      rintro ⟨header, hh, -⟩
      rw [← hr] at hh
      cases hh
    · exact ⟨hfiles, Or.inr ⟨rfl, hs⟩, h⟩
  · refine .pure ?_
    rintro w _ ⟨hfiles, hr, h⟩
    refine ⟨hfiles, Or.inl ?_, h⟩
    have hh := hr.resolve_right (by simp)
    rw [entryDigest_entryPath hd]
    simp only [Live, ← hh, Option.some_inj, exists_eq_left', Bool.decide_and, Bool.and_eq_true, decide_eq_true_eq,
      Bool.decide_eq_true]
    exact and_congr_right fun _ => and_congr_left fun _ => eq_comm

/-- Where `F` holds, only a fault keeps a prune from a file and from the lock of its key. -/
structure Smooth (σ : Setting A V) (F : World A V → Prop) (path : Path) : Prop where
  kind : ¬Fickle σ F path
  lockable : ∀ digest w, Inv σ w → F w → w.Lockable (lockPath digest)

lemma Fickle.mono {G : World A V → Prop} {path : Path} (h : Fickle σ G path) (hGF : ∀ w, G w → F w) : Fickle σ F path := by
  obtain ⟨kind, w₁, w₂, hi₁, hG₁, hk₁, hi₂, hG₂, hk₂⟩ := h
  exact ⟨kind, w₁, w₂, hi₁, hGF w₁ hG₁, hk₁, hi₂, hGF w₂ hG₂, hk₂⟩

/-- A ledger that may remove files, under the locks of a prune. -/
structure Ledger.Pruning (L : Ledger) : Prop where
  shares : L.Shares
  prunes : L.Prunes
  whole : L.Whole

lemma Ledger.Plus.pruning {L' : Ledger} (h : L.Plus L') (hL : L.Pruning) : L'.Pruning :=
  ⟨hL.shares.below h.below, hL.prunes.below h.below, h.whole hL.whole⟩

lemma Ledger.Pruning.mayRemove {L' : Ledger} (hL : L.Pruning) (hbelow : L.Below L') {w : World A V} (hw : Has a L' F w)
    {path : Path} {reason : Reason} (h : (∃ digest, Covers digest path ∧ w.Holds a (lockPath digest) .prune) ∨
      (ChildOf entries path ∧ isTemporary path = true ∧ temporaryDigest path = none)) :
    w.MayRemove a path (.prune reason) :=
  ⟨hw.prunes (hL.prunes.below hbelow), hw.shares (hL.shares.below hbelow), h.imp_right Or.inl⟩

/-- What `a` knows around an attempt to lock a key: `G i` of the lock file `i`, and `E` where the key was another's. -/
structure Tries (C : (protocol σ).Scope a) (L : Ledger) (F : World A V → Prop) (digest : Name)
    (G : ℕ → World A V → Prop) (E : World A V → Prop) : Prop where
  calm : ∀ i, Calm C L (G i)
  calmE : Calm C L E
  named : ∀ w i, Inv σ w → F w → w.names (lockPath digest) = some i → G i w
  known : ∀ i w, G i w → F w
  conflict : ∀ w f i, Inv σ w → G i w → L f = none → w.Conflict a f i .exclusive → E w
  missed : ∀ w i, Inv σ w → G i w → w.names (lockPath digest) ≠ some i → E w

/-- Where nothing is to be told from who has the key. -/
lemma Tries.plain (hF : Calm C L F) (digest : Name) : Tries C L F digest (fun _ => F) F :=
  ⟨fun _ => hF, hF, fun _ _ _ h _ => h, fun _ _ h => h, fun _ _ _ _ h _ _ => h, fun _ _ _ h _ => h⟩

lemma runs_tryKey {digest : Name} {G : ℕ → World A V → Prop} {E : World A V → Prop} (hF : Calm C L F)
    (h : Tries C L F digest G E) (hL : L.Pruning) :
    C.Runs (Has a L F) (tryKey digest) (fun r w => match r with
        | none => Has a L E w
        | some held => held.path = lockPath digest ∧ L held.file = none ∧
            ∃ i since, Has a (Function.update L held.file (some (.holding (lockPath digest) i since .prune))) F w)
      (fun _ => Has a L fun w => F w ∧ Blamed σ F (·.Lockable (lockPath digest))) := by
  refine (runs_tryLockExclusive hF (childOf_lockPath digest) hL.shares hL.prunes h.calm h.named h.known h.calmE h.conflict
    h.missed).post ?_
  rintro (_ | held) w _ hr
  · exact hr
  · obtain ⟨hpath, hnew, i, since, hw⟩ := hr
    exact ⟨hpath, hnew, i, since, hw.1, h.known i w hw.2⟩

lemma runs_withHeld {α : Type} {p : M V α} {S Y : World A V → Prop} {K : α → World A V → Prop} {path : Path} {f i since : ℕ}
    (hnew : L f = none) (hchild : ChildOf locks path) (hwhole : L.Whole) (hK : ∀ x, Steady C (K x)) (hY : Steady C Y)
    (hp : C.Runs S p (fun x => Has a (Function.update L f (some (.holding path i since .prune))) (K x))
      fun _ => Has a (Function.update L f (some (.holding path i since .prune))) Y) :
    C.Runs S (withHeld ⟨path, f⟩ p) (fun x => Has a L (K x)) (fun _ => Has a L Y) := by
  refine runs_after hp (fun x => ?_) fun _ => ?_
  · exact runs_drop hnew (hK x).calm (hK x).calm hchild hwhole fun w w' hi hw hcall haside _ _ =>
      (hK x).aside hi hw.2 hcall haside
  · exact runs_drop hnew hY.calm hY.calm hchild hwhole fun w w' hi hw hcall haside _ _ => hY.aside hi hw.2 hcall haside

section

variable {path : Path} {I : Pass → World A V → Prop} {pass : Pass} {K : ℕ → World A V → Prop}

lemma steady_const (p : Prop) : Steady C fun _ => p :=
  ⟨calm_const p, fun _ h _ _ => h⟩

/-- One temporary file: the key is another's, or the file goes. -/
lemma runs_pruneTemporary (hL : L.Pruning) (hF : Steady C F) (hI : ∀ pass, Steady C (I pass)) (hchild : ChildOf entries path)
    (htemp : isTemporary path = true) (hpermits : ∀ j, σ.permits j a (.unlinked path (.prune .temporary)))
    (htries : ∀ digest, temporaryDigest path = some digest → ∃ G, Tries C L F digest G (I pass))
    (hremoved : ∀ w w', Inv σ w → F w → (∀ digest, temporaryDigest path = some digest →
      w.Holds a (lockPath digest) .prune) → Called σ a w w' → w.Removed a path (.prune .temporary) w' →
        I pass.removeTemporary w')
    (hnone : ∀ w, Inv σ w → F w → w.names path = none → I pass.removeTemporary w) :
    C.Runs (Has a L F) (pruneTemporary path pass) (fun pass' => Has a L (I pass'))
      (fun _ => Has a L fun w => F w ∧ (Smooth σ F path → σ.faults)) := by
  have hsmooth : σ.faults ∨ Fickle σ F path → Smooth σ F path → σ.faults := fun h hs => h.resolve_right hs.kind
  unfold pruneTemporary
  cases hdigest : temporaryDigest path with
  | none =>
    refine .bind ((runs_remove hF.calm ?_ ?_ hnone).mono (fun _ _ => id) (fun _ _ _ => id)
      fun _ w _ h => ⟨h.1, h.2.1, hsmooth h.2.2⟩) fun _ => .pure fun w _ h => h
    · exact fun w _ h => ⟨hL.mayRemove (Ledger.Below.refl L) h (Or.inr ⟨hchild, htemp, hdigest⟩), hpermits _⟩
    · exact fun w w' hi h hcall hr => hremoved w w' hi h.2 (by simp [hdigest]) hcall hr
  | some digest =>
    obtain ⟨G, hG⟩ := htries digest hdigest
    refine .bind ((runs_tryKey hF.calm hG hL).mono (fun _ _ => id) (fun _ _ _ => id) ?_) ?_
    · exact fun _ w _ h => ⟨h.1, h.2.1, fun hs => h.2.2 fun w hi hFw => hs.lockable digest w hi hFw⟩
    · rintro (_ | ⟨lock, f⟩)
      · exact .pure fun w _ h => h
      · refine .imp ?_
        rintro rfl
        refine .imp fun hnew => .of_exists fun i => .of_exists fun since => ?_
        have hbelow := Ledger.below_update hnew (Open.holding (lockPath digest) i since .prune)
        have hholds : ∀ w, Has a (Function.update L f (some (.holding (lockPath digest) i since .prune))) F w →
            w.Holds a (lockPath digest) .prune := fun w h => ⟨f, _, h.lookup (Function.update_self _ _ _), rfl, rfl⟩
        refine runs_withHeld hnew (childOf_lockPath digest) hL.whole hI (hF.and (steady_const _)) (.bind
          (U := fun _ => Has a (Function.update L f (some (.holding (lockPath digest) i since .prune)))
            (I pass.removeTemporary)) ((runs_remove hF.calm ?_ ?_ hnone).mono (fun _ _ => id) (fun _ _ _ => id)
              fun _ w _ h => ⟨h.1, h.2.1, hsmooth h.2.2⟩) fun _ => .pure fun w _ h => h)
        · exact fun w _ h => ⟨hL.mayRemove hbelow h (Or.inl ⟨digest, ⟨hchild, Or.inr ⟨htemp, hdigest⟩⟩, hholds w h⟩),
            hpermits _⟩
        · refine fun w w' hi h hcall hr => hremoved w w' hi h.2 ?_ hcall hr
          rintro digest' hdigest'
          rw [hdigest, Option.some_inj] at hdigest'
          exact hdigest' ▸ hholds w h

/-- The metadata of an entry with `bytes`, from a moment at which `F` held. -/
def Told (σ : Setting A V) (F : World A V → Prop) (digest : Name) (metadata : Metadata) (bytes : Bytes) : Prop :=
  ∃ w i, Inv σ w ∧ F w ∧ w.names (entryPath digest) = some i ∧ (w.nodes i).kind = .file ∧ (w.nodes i).bytes = bytes ∧
    metadata = (w.nodes i).metadata i

/-- What a prune may remove, where `j` is the journal before it and `K now` is known from the time `now` on; its calls are
in the journal after `n` events. -/
structure Setting.Prunes (σ : Setting A V) (a : A) (codec : Codec T) (inner : Inner) (n : ℕ) (K : ℕ → World A V → Prop) :
    Prop where
  temporary : ∀ j path, σ.permits j a (.unlinked path (.prune .temporary))
  irregular : σ.Sweeps a
  expired : ∀ w digest now bytes, isDigest digest = true → K now w →
    contents σ.start w.journal digest = some (.file, bytes) → (inner.limits.maxEntryBytes < bytes.length ∨
      ¬Live codec digest now inner.limits.maxEntryBytes bytes ∨ Unread a (w.journal.drop n)) →
        σ.permits w.journal a (.unlinked (entryPath digest) (.prune .expired))
  unused : ∀ j digest, isDigest digest = true → σ.permits j a (.unlinked (entryPath digest) (.prune .unused))
  oldest : ∀ j digest, isDigest digest = true → σ.permits j a (.unlinked (entryPath digest) (.prune .oldest))

/-- What `a` knows around one entry of the first pass: `F` before it and `I` of its result. -/
structure Judges (σ : Setting A V) (a : A) (codec : Codec T) (inner : Inner) (n : ℕ) (K : ℕ → World A V → Prop) (now : ℕ)
    (digest : Name) (pass : Pass) (F : World A V → Prop) (I : Pass → World A V → Prop) : Prop where
  clock : ∀ w, F w → K now w
  since : ∀ w, F w → n ≤ w.journal.length
  irregular : ∀ kind w w', kind ≠ .file → Inv σ w → F w → w.KindAt (entryPath digest) kind → Called σ a w w' →
    w.Removed a (entryPath digest) (.prune .irregular) w' → I pass w'
  missing : ∀ w, Inv σ w → F w → w.names (entryPath digest) = none → I pass w
  expired : ∀ w w' metadata bytes, Told σ F digest metadata bytes → (inner.limits.maxEntryBytes < bytes.length ∨
    ¬Live codec digest now inner.limits.maxEntryBytes bytes ∨ Unread a (w.journal.drop n)) → Inv σ w → F w → Called σ a w w' →
      w.Removed a (entryPath digest) (.prune .expired) w' → I (pass.removeExpired metadata.len) w'
  unused : ∀ w w' metadata bytes, Told σ F digest metadata bytes → bytes.length ≤ inner.limits.maxEntryBytes →
    Live codec digest now inner.limits.maxEntryBytes bytes →
      millis inner.limits.unusedAfter < now - modifiedMs metadata → Inv σ w → F w → Called σ a w w' →
        w.Removed a (entryPath digest) (.prune .unused) w' → I (pass.removeUnused metadata.len) w'
  keep : ∀ w metadata bytes, Told σ F digest metadata bytes → bytes.length ≤ inner.limits.maxEntryBytes →
    Live codec digest now inner.limits.maxEntryBytes bytes →
      now - modifiedMs metadata ≤ millis inner.limits.unusedAfter → Inv σ w → F w →
        I { pass with kept := pass.kept ++ [(modifiedMs metadata, digest, metadata.len)] } w

/-- Less is known at a time. -/
lemma Judges.mono {now : ℕ} {digest : Name} {G : World A V → Prop} (h : Judges σ a codec inner n K now digest pass F I)
    (hGF : ∀ w, G w → F w) : Judges σ a codec inner n K now digest pass G I := by
  have htold : ∀ {metadata bytes}, Told σ G digest metadata bytes → Told σ F digest metadata bytes := by
    rintro metadata bytes ⟨w, i, hi, hG, hrest⟩
    exact ⟨w, i, hi, hGF w hG, hrest⟩
  exact ⟨fun w hG => h.clock w (hGF w hG), fun w hG => h.since w (hGF w hG), fun kind w w' hk hi hG => h.irregular kind w w' hk hi (hGF w hG),
    fun w hi hG => h.missing w hi (hGF w hG), fun w w' m b ht hwhy hi hG => h.expired w w' m b (htold ht) hwhy hi (hGF w hG),
    fun w w' m b ht hle hl hu hi hG => h.unused w w' m b (htold ht) hle hl hu hi (hGF w hG),
    fun w m b ht hle hl hu hi hG => h.keep w m b (htold ht) hle hl hu hi (hGF w hG)⟩

/-- One entry, whose content stays as it is. -/
lemma runs_pruneEntry {L' : Ledger} (hL : L.Pruning) (hbelow : L.Below L') {digest : Name} (hd : isDigest digest = true)
    {now : ℕ} {c : Option (Kind × Bytes)} (hF : Calm C L' F) (hI : ∀ pass, Calm C L' (I pass))
    (hprunes : σ.Prunes a codec inner n K) (h : Judges σ a codec inner n K now digest pass F I)
    (hc : ∀ w, Inv σ w → F w → w.content (entryPath digest) = c)
    (hholds : ∀ w, Has a L' F w → w.Holds a (lockPath digest) .prune) :
    C.Runs (Has a L' F) (pruneEntry codec inner now (entryPath digest) digest pass) (fun pass' => Has a L' (I pass'))
      (fun _ => Has a L' fun w => F w ∧ (Smooth σ F (entryPath digest) → σ.faults)) := by
  have hmay : ∀ {w reason}, Has a L' F w → w.MayRemove a (entryPath digest) (.prune reason) := fun hw =>
    hL.mayRemove hbelow hw (Or.inl ⟨digest, covers_entryPath hd, hholds _ hw⟩)
  have hsmooth : ∀ {G : World A V → Prop}, (∀ w, G w → F w) → σ.faults ∨ Fickle σ G (entryPath digest) →
      Smooth σ F (entryPath digest) → σ.faults := fun hGF h hs => h.resolve_right fun hf => hs.kind (hf.mono hGF)
  have hkind : ∀ {w kind bytes}, Inv σ w → F w → c = some (kind, bytes) → w.KindAt (entryPath digest) kind := by
    intro w kind bytes hi hFw heq
    have hcontent := hc w hi hFw
    rw [heq, World.content, Option.map_eq_some_iff] at hcontent
    obtain ⟨i, hname, hnode⟩ := hcontent
    exact ⟨i, hname, congrArg Prod.fst hnode⟩
  unfold pruneEntry
  refine .bind ((runs_regular (G := fun kind w => F w ∧ ∃ bytes, c = some (kind, bytes)) hF ?_ ?_
    (fun _ _ hG => hG.1) ?_ ?_ h.missing).mono (fun _ _ => id) (fun _ _ _ => id) ?_) ?_
  · exact fun _ => hF.and (calm_const _)
  · rintro w kind hi hFw - ⟨i, hname, rfl⟩
    have hcontent := hc w hi hFw
    rw [World.content, hname] at hcontent
    exact ⟨hFw, _, hcontent.symm⟩
  · exact fun kind w _ _ hw => ⟨hmay ⟨hw.1, hw.2.1⟩, hprunes.irregular _ _⟩
  · rintro kind w w' hk hi ⟨-, hFw, bytes, heq⟩ hcall hr
    exact h.irregular kind w w' hk hi hFw (hkind hi hFw heq) hcall hr
  · rintro _ w _ ⟨hfiles, hFw, hwhy⟩
    refine ⟨hfiles, hFw, ?_⟩
    rcases hwhy with hf | ⟨kind, hf⟩
    · exact fun _ => hf
    · exact hsmooth (fun _ hG => hG.1) (Or.inr hf)
  rintro (_ | metadata)
  · exact .pure fun w _ hw => hw
  refine .imp fun ⟨w₁, i, hi₁, hF₁, hname₁, hkind₁, hmetadata⟩ => ?_
  have htold : Told σ F digest metadata (w₁.nodes i).bytes := ⟨w₁, i, hi₁, hF₁, hname₁, hkind₁, rfl, hmetadata⟩
  generalize hbytes : (w₁.nodes i).bytes = bytes at htold
  have hceq : c = some (.file, bytes) := by
    rw [← hc w₁ hi₁ hF₁, World.content, hname₁, Option.map_some, hkind₁, hbytes]
  have hlen : metadata.len = bytes.length := by
    rw [hmetadata, ← hbytes]
    rfl
  have hcontents : ∀ w, Inv σ w → F w → contents σ.start w.journal digest = some (.file, bytes) := fun w hi hFw => by
    rw [← hi.content hd, hc w hi hFw, hceq]
  have hremove : ∀ reason pass' (G : World A V → Prop), Calm C L' G → (∀ w, G w → F w) →
      (∀ w, Inv σ w → G w → σ.permits w.journal a (.unlinked (entryPath digest) (.prune reason))) →
      (∀ w w', Inv σ w → G w → Called σ a w w' → w.Removed a (entryPath digest) (.prune reason) w' → I pass' w') →
      C.Runs (Has a L' G) (do
        remove (entryPath digest) (.prune reason)
        return pass' : M V Pass) (fun pass' => Has a L' (I pass'))
          fun _ => Has a L' fun w => F w ∧ (Smooth σ F (entryPath digest) → σ.faults) := by
    intro reason pass' G hG hGF hpermits hremoved
    refine .bind (U := fun _ => Has a L' (I pass')) ((runs_remove hG (fun w hi hw => ⟨hmay ⟨hw.1, hGF w hw.2⟩,
      hpermits w hi hw.2⟩) (fun w w' hi hw hcall hr => hremoved w w' hi hw.2 hcall hr) ?_).mono (fun _ _ => id)
        (fun _ _ _ => id) ?_) fun _ => .pure fun w _ hw => hw
    · intro w hi hGw hnone
      obtain ⟨j, hj, -⟩ := hkind hi (hGF w hGw) hceq
      simp [hnone] at hj
    · exact fun _ w _ hw => ⟨hw.1, hGF w hw.2.1, hsmooth hGF hw.2.2⟩
  dsimp only
  by_cases hlarge : inner.limits.maxEntryBytes < metadata.len
  · simp only [if_pos hlarge]
    rw [hlen] at hlarge
    exact hremove .expired _ F hF (fun _ => id) (fun w hi hFw => hprunes.expired _ _ now bytes hd (h.clock w hFw)
      (hcontents w hi hFw) (Or.inl hlarge)) fun w w' hi hFw hcall hr => h.expired w w' metadata bytes htold (Or.inl hlarge) hi hFw hcall hr
  · simp only [if_neg hlarge]
    have hfits : bytes.length ≤ inner.limits.maxEntryBytes := by
      rw [← hlen]
      exact Nat.not_lt.mp hlarge
    refine .bind (runs_live hF h.since hd fun w hi hFw => (hc w hi hFw).trans hceq) fun live => ?_
    cases live with
    | false =>
      simp only [Bool.false_eq_true, not_false_eq_true, if_true]
      have hdead : Calm C L' fun w => (¬Live codec digest now inner.limits.maxEntryBytes bytes ∨
          Unread a (w.journal.drop n)) ∧ F w := ((calm_const _).or lasting_unread.calm).and hF
      refine (hremove .expired (pass.removeExpired metadata.len) _ hdead (fun _ hG => hG.2) (fun w hi hG => hprunes.expired _ _ now bytes hd
        (h.clock w hG.2) (hcontents w hi hG.2) (Or.inr hG.1)) fun w w' hi hG hcall hr => h.expired w w' metadata bytes htold
          (Or.inr hG.1) hi hG.2 hcall hr).pre ?_
      rintro w _ ⟨hfiles, hlive, hFw⟩
      exact ⟨hfiles, hlive.imp (fun hl hL => by simpa using hl.mpr hL) And.right, hFw⟩
    | true =>
      refine .pre (S := fun w => Live codec digest now inner.limits.maxEntryBytes bytes ∧ Has a L' F w) (.imp fun halive => ?_)
        fun w _ hw => ⟨(hw.2.1.resolve_right (by simp)).mp rfl, hw.1, hw.2.2⟩
      simp only [not_true_eq_false, if_false]
      by_cases hunused : millis inner.limits.unusedAfter < now - modifiedMs metadata
      · simp only [if_pos hunused]
        exact hremove .unused _ F hF (fun _ => id) (fun w _ _ => hprunes.unused _ _ hd) fun w w' hi hFw hcall hr =>
          h.unused w w' metadata bytes htold hfits halive hunused hi hFw hcall hr
      · simp only [if_neg hunused]
        exact .pure fun w hi hw => ⟨hw.1, h.keep w metadata bytes htold hfits halive (Nat.not_lt.mp hunused) hi hw.2⟩

/-- What `a` knows around one name of the first pass. -/
structure Passes (C : (protocol σ).Scope a) (L : Ledger) (codec : Codec T) (inner : Inner) (n : ℕ) (K : ℕ → World A V → Prop)
    (now : ℕ) (path : Path) (pass : Pass) (F : World A V → Prop) (I : Pass → World A V → Prop) : Prop where
  steady : Steady C F
  steady' : ∀ pass, Steady C (I pass)
  skipped : isTemporary path = false → entryDigest path = none → ∀ w, Inv σ w → F w → I pass w
  tried : ∀ digest, (if isTemporary path then temporaryDigest path else entryDigest path) = some digest →
    ∃ G, Tries C L F digest G (I pass)
  removed : isTemporary path = true → ∀ w w', Inv σ w → F w → (∀ digest, temporaryDigest path = some digest →
    w.Holds a (lockPath digest) .prune) → Called σ a w w' → w.Removed a path (.prune .temporary) w' →
      I pass.removeTemporary w'
  vanished : isTemporary path = true → ∀ w, Inv σ w → F w → w.names path = none → I pass.removeTemporary w
  judged : ∀ digest, isTemporary path = false → entryDigest path = some digest →
    (∃ w, Inv σ w ∧ F w ∧ w.Holds a (lockPath digest) .prune) → Judges σ a codec inner n K now digest pass F I

theorem runs_pruneName (hL : L.Pruning) (hprunes : σ.Prunes a codec inner n K) {now : ℕ} {name : Name}
    (h : Passes C L codec inner n K now (entries ++ [name]) pass F I) :
    C.Runs (Has a L F) (pruneName codec inner now pass name) (fun pass' => Has a L (I pass'))
      (fun _ => Has a L fun w => F w ∧ (Smooth σ F (entries ++ [name]) → σ.faults)) := by
  unfold pruneName
  by_cases htemp : isTemporary (entries ++ [name]) = true
  · simp only [if_pos htemp]
    refine runs_pruneTemporary hL h.steady h.steady' ⟨name, rfl⟩ htemp (fun _ => hprunes.temporary _ _) ?_ (h.removed htemp)
      (h.vanished htemp)
    exact fun digest hdigest => h.tried digest (by rw [if_pos htemp, hdigest])
  · simp only [if_neg htemp]
    rw [Bool.not_eq_true] at htemp
    cases hdigest : entryDigest (entries ++ [name]) with
    | none => exact .pure fun w hi hw => ⟨hw.1, h.skipped htemp hdigest w hi hw.2⟩
    | some digest =>
      obtain ⟨rfl, hd⟩ := entryDigest_eq_some.mp hdigest
      obtain ⟨G, hG⟩ := h.tried digest (by rw [htemp]; exact hdigest)
      refine .bind ((runs_tryKey h.steady.calm hG hL).mono (fun _ _ => id) (fun _ _ _ => id) ?_) ?_
      · exact fun _ w _ hw => ⟨hw.1, hw.2.1, fun hs => hw.2.2 fun w hi hFw => hs.lockable digest w hi hFw⟩
      · rintro (_ | ⟨lock, f⟩)
        · exact .pure fun w _ hw => hw
        · refine .imp ?_
          rintro rfl
          refine .imp fun hnew => .of_exists fun i => .of_exists fun since => ?_
          have hbelow := Ledger.below_update hnew (Open.holding (lockPath digest) i since .prune)
          have hself : Function.update L f (some (Open.holding (lockPath digest) i since .prune)) f =
            some (.holding (lockPath digest) i since .prune) := Function.update_self _ _ _
          refine .pre (S := fun w => (∃ w, Inv σ w ∧ F w ∧ w.Holds a (lockPath digest) .prune) ∧
            ∃ c, Has a (Function.update L f (some (.holding (lockPath digest) i since .prune)))
              (fun w => F w ∧ contents σ.start w.journal digest = c) w) (.imp fun hheld => .of_exists fun c => ?_) ?_
          · refine runs_withHeld hnew (childOf_lockPath digest) hL.whole h.steady' (h.steady.and (steady_const _))
              ((runs_pruneEntry (c := c) hL hbelow hd (h.steady.calm.and (calm_contents hd hself rfl (by simp [Open.holding]) c))
                (fun pass => (h.steady' pass).calm) hprunes ((h.judged digest htemp hdigest hheld).mono fun _ hw => hw.1) ?_
                  ?_).mono (fun _ _ => id) (fun _ _ _ => id) ?_)
            · exact fun w hi hw => (hi.content hd).trans hw.2
            · exact fun w hw => ⟨f, _, hw.lookup hself, rfl, rfl⟩
            · refine fun _ w _ hw => ⟨hw.1, hw.2.1.1, fun hs => hw.2.2 ⟨fun hf => ?_, fun digest w hi hw => ?_⟩⟩
              · exact hs.kind (hf.mono fun _ hw => hw.1)
              · exact hs.lockable digest w hi hw.1
          · exact fun w hi hw => ⟨⟨w, hi, hw.2, f, _, hw.lookup hself, rfl, rfl⟩, _, hw.1, hw.2, rfl⟩

/-- What `a` knows around one entry of the second pass, where `J kept pass` is known with `kept` still to come. -/
structure Evicts (C : (protocol σ).Scope a) (L : Ledger) (targetEntries targetBytes : ℕ)
    (J : List Kept → Pass → World A V → Prop) : Prop where
  steady : ∀ kept pass, Steady C (J kept pass)
  digest : ∀ {used digest size kept pass w}, J ((used, digest, size) :: kept) pass w → isDigest digest = true
  tried : ∀ {used digest size kept pass},
    ¬(pass.left.entries ≤ targetEntries ∧ pass.left.bytes ≤ targetBytes) →
      ∃ G, Tries C L (J ((used, digest, size) :: kept) pass) digest G (J kept pass)
  irregular : ∀ {used digest size kept pass kind w w'}, kind ≠ .file → Inv σ w →
    J ((used, digest, size) :: kept) pass w → w.KindAt (entryPath digest) kind → Called σ a w w' →
      w.Removed a (entryPath digest) (.prune .irregular) w' → J kept pass w'
  missing : ∀ {used digest size kept pass w}, Inv σ w → J ((used, digest, size) :: kept) pass w →
    w.names (entryPath digest) = none → J kept pass w
  used : ∀ {used digest size kept pass w metadata bytes}, Inv σ w → J ((used, digest, size) :: kept) pass w →
    Told σ (J ((used, digest, size) :: kept) pass) digest metadata bytes → modifiedMs metadata ≠ used → J kept pass w
  removed : ∀ {used digest size kept pass w w'}, ¬(pass.left.entries ≤ targetEntries ∧ pass.left.bytes ≤ targetBytes) →
    Inv σ w → J ((used, digest, size) :: kept) pass w → w.Holds a (lockPath digest) .prune → Called σ a w w' →
      w.Removed a (entryPath digest) (.prune .oldest) w' → J kept (pass.removeOldest size) w'
  vanished : ∀ {used digest size kept pass w}, Inv σ w → J ((used, digest, size) :: kept) pass w →
    w.names (entryPath digest) = none → J kept (pass.removeOldest size) w

/-- One entry of the second pass under its key's lock, whose content stays as it is. -/
lemma runs_evict {L' : Ledger} (hL : L.Pruning) (hbelow : L.Below L') (hprunes : σ.Prunes a codec inner n K)
    {targetEntries targetBytes : ℕ} {J : List Kept → Pass → World A V → Prop} (h : Evicts C L targetEntries targetBytes J)
    {used : ℕ} {digest : Name} {size : ℕ} {kept : List Kept} (hd : isDigest digest = true)
    (hmet : ¬(pass.left.entries ≤ targetEntries ∧ pass.left.bytes ≤ targetBytes)) {c : Option (Kind × Bytes)}
    (hF : Calm C L' F) (hFJ : ∀ w, F w → J ((used, digest, size) :: kept) pass w)
    (hc : ∀ w, Inv σ w → F w → w.content (entryPath digest) = c)
    (hholds : ∀ w, Has a L' F w → w.Holds a (lockPath digest) .prune) :
    C.Runs (Has a L' F) (do
        match ← regular (entryPath digest) with
        | none => return pass
        | some metadata =>
          if modifiedMs metadata ≠ used then
            return pass
          else
            remove (entryPath digest) (.prune .oldest)
            return pass.removeOldest size : M V Pass)
      (fun pass' => Has a L' (J kept pass'))
      (fun _ => Has a L' fun w => F w ∧ (Smooth σ F (entryPath digest) → σ.faults)) := by
  have hmay : ∀ {w reason}, Has a L' F w → w.MayRemove a (entryPath digest) (.prune reason) := fun hw =>
    hL.mayRemove hbelow hw (Or.inl ⟨digest, covers_entryPath hd, hholds _ hw⟩)
  refine .bind ((@runs_regular _ _ _ _ _ _ _ _ _ (J kept pass) (fun kind w => F w ∧ ∃ bytes, c = some (kind, bytes)) hF ?_ ?_
    (fun _ _ hG => hG.1) ?_ ?_ ?_).mono (fun _ _ => id) (fun _ _ _ => id) ?_) ?_
  · exact fun _ => hF.and (calm_const _)
  · rintro w kind hi hFw - ⟨i, hname, rfl⟩
    have hcontent := hc w hi hFw
    rw [World.content, hname] at hcontent
    exact ⟨hFw, _, hcontent.symm⟩
  · exact fun kind w _ _ hw => ⟨hmay ⟨hw.1, hw.2.1⟩, hprunes.irregular _ _⟩
  · rintro kind w w' hk hi ⟨-, hFw, bytes, heq⟩ hcall hr
    refine h.irregular hk hi (hFJ w hFw) ?_ hcall hr
    have hcontent := hc w hi hFw
    rw [heq, World.content, Option.map_eq_some_iff] at hcontent
    obtain ⟨i, hname, hnode⟩ := hcontent
    exact ⟨i, hname, congrArg Prod.fst hnode⟩
  · exact fun w hi hFw hnone => h.missing hi (hFJ w hFw) hnone
  · rintro _ w _ ⟨hfiles, hFw, hwhy⟩
    refine ⟨hfiles, hFw, fun hs => ?_⟩
    rcases hwhy with hf | ⟨kind, hf⟩
    · exact hf
    · exact absurd (hf.mono fun _ hG => hG.1) hs.kind
  · rintro (_ | metadata)
    · exact .pure fun w _ hw => hw
    · refine .imp fun ⟨w₁, i, hi₁, hF₁, hname₁, hkind₁, hmetadata⟩ => ?_
      dsimp only
      by_cases hused : modifiedMs metadata ≠ used
      · simp only [if_pos hused]
        exact .pure fun w hi hw => ⟨hw.1, h.used hi (hFJ w hw.2)
          ⟨w₁, i, hi₁, hFJ w₁ hF₁, hname₁, hkind₁, rfl, hmetadata⟩ hused⟩
      · simp only [if_neg hused]
        refine .bind (U := fun _ => Has a L' (J kept (pass.removeOldest size))) ((runs_remove hF
          (fun w _ hw => ⟨hmay hw, hprunes.oldest _ _ hd⟩) ?_ ?_).mono (fun _ _ => id) (fun _ _ _ => id) ?_)
            fun _ => .pure fun w _ hw => hw
        · exact fun w w' hi hw hcall hr => h.removed hmet hi (hFJ w hw.2) (hholds w hw) hcall hr
        · exact fun w hi hFw hnone => h.vanished hi (hFJ w hFw) hnone
        · exact fun _ w _ hw => ⟨hw.1, hw.2.1, fun hs => hw.2.2.resolve_right hs.kind⟩

/-- The second pass ends with nothing left to come or with both targets met. -/
theorem runs_pruneOldest (hL : L.Pruning) (hprunes : σ.Prunes a codec inner n K) {targetEntries targetBytes : ℕ}
    {J : List Kept → Pass → World A V → Prop} (h : Evicts C L targetEntries targetBytes J) (kept : List Kept) (pass : Pass) :
    C.Runs (Has a L (J kept pass)) (pruneOldest targetEntries targetBytes kept pass)
      (fun pass' w => ∃ rest, (rest = [] ∨ pass'.left.entries ≤ targetEntries ∧ pass'.left.bytes ≤ targetBytes) ∧
        Has a L (J rest pass') w)
      (fun _ w => ∃ rest pass', Has a L (fun w => J rest pass' w ∧
        ((∀ digest, Smooth σ (J rest pass') (entryPath digest)) → σ.faults)) w) := by
  induction kept generalizing pass with
  | nil => exact .pure fun w _ hw => ⟨[], Or.inl rfl, hw⟩
  | cons entry kept ih =>
    obtain ⟨used, digest, size⟩ := entry
    unfold pruneOldest
    by_cases hmet : pass.left.entries ≤ targetEntries ∧ pass.left.bytes ≤ targetBytes
    · simp only [if_pos hmet]
      exact .pure fun w _ hw => ⟨_, Or.inr hmet, hw⟩
    · simp only [if_neg hmet]
      refine .pre (S := fun w => isDigest digest = true ∧ Has a L (J ((used, digest, size) :: kept) pass) w)
        (.imp fun hd => ?_) fun w _ hw => ⟨h.digest hw.2, hw⟩
      obtain ⟨G, hG⟩ := h.tried hmet
      refine .bind ((runs_tryKey (h.steady _ _).calm hG hL).mono (fun _ _ => id) (fun _ _ _ => id) ?_) ?_
      · exact fun _ w _ hw => ⟨_, pass, hw.1, hw.2.1, fun hs => hw.2.2 fun w hi hJ => (hs digest).lockable digest w hi hJ⟩
      · rintro (_ | ⟨lock, f⟩)
        · exact ih pass
        · refine .imp ?_
          rintro rfl
          refine .imp fun hnew => .of_exists fun i => .of_exists fun since => ?_
          have hbelow := Ledger.below_update hnew (Open.holding (lockPath digest) i since .prune)
          have hself : Function.update L f (some (Open.holding (lockPath digest) i since .prune)) f =
            some (.holding (lockPath digest) i since .prune) := Function.update_self _ _ _
          refine .bind (.pre (S := fun w => ∃ c, Has a (Function.update L f
            (some (.holding (lockPath digest) i since .prune))) (fun w => J ((used, digest, size) :: kept) pass w ∧
              contents σ.start w.journal digest = c) w) (.of_exists fun c => ?_) fun w _ hw => ⟨_, hw.1, hw.2, rfl⟩) ih
          have hY : Steady C fun w => J ((used, digest, size) :: kept) pass w ∧
              ((∀ digest', Smooth σ (J ((used, digest, size) :: kept) pass) (entryPath digest')) → σ.faults) :=
            (h.steady _ pass).and (steady_const _)
          refine (runs_withHeld hnew (childOf_lockPath digest) hL.whole (h.steady kept) hY ((runs_evict (c := c) hL hbelow
            hprunes h hd hmet ((h.steady _ _).calm.and (calm_contents hd hself rfl (by simp [Open.holding]) c))
              (fun _ hw => hw.1) ?_ ?_).mono (fun _ _ => id) (fun _ _ _ => id) ?_)).mono (fun _ _ => id)
                (fun _ _ _ => id) ?_
          · exact fun w hi hw => (hi.content hd).trans hw.2
          · exact fun w hw => ⟨f, _, hw.lookup hself, rfl, rfl⟩
          · refine fun _ w _ hw => ⟨hw.1, hw.2.1.1, fun hs => hw.2.2 ⟨fun hf => ?_, fun digest' w hi hw => ?_⟩⟩
            · exact (hs digest).kind (hf.mono fun _ hw => hw.1)
            · exact (hs digest').lockable digest' w hi hw.1
          · exact fun _ w _ hw => ⟨_, pass, hw⟩

end

end Unixd.Cache
