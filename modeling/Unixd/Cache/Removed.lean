import Mathlib.Algebra.Order.Ring.Nat
import Mathlib.Algebra.BigOperators.Group.List.Basic
import Unixd.Cache.Opened
import Unixd.Cache.Outcome

/-!
# What a prune removes

The outcome of a prune against the directory that it found: which entries went and why, which were the least recently
used, and that the counts are those of the files.
-/

namespace Unixd.Cache

open Unixd.Lib Protocol.Scope

set_option linter.unusedSectionVars false

variable {A V T : Type} [DecidableEq A] {tick : ℕ → ℕ → Prop} {a : A} {u v : Scene A} {ℓ : Margin A V} {path : Path}
  {i now : ℕ} {node : Node} {name digest : Name} {codec : Codec T} {inner : Inner} {order : List Name} {pass : Pass}

/-- What is left of a usage without files of these sizes. -/
def Usage.without (usage : Usage) (sizes : List ℕ) : Usage :=
  ⟨usage.entries - sizes.length, usage.bytes - sizes.sum⟩

@[simp] lemma Usage.without_nil (usage : Usage) : usage.without [] = usage := rfl

lemma Usage.remove_without (usage : Usage) (size : ℕ) (sizes : List ℕ) :
    (usage.remove size).without sizes = usage.without (size :: sizes) := by
  simp only [without, remove, List.length_cons, List.sum_cons, Usage.mk.injEq]
  omega

lemma Usage.without_remove (usage : Usage) (size : ℕ) (sizes : List ℕ) :
    (usage.without sizes).remove size = usage.without (size :: sizes) := by
  simp only [without, remove, List.length_cons, List.sum_cons, Usage.mk.injEq]
  omega

lemma Usage.without_append (usage : Usage) (sizes sizes' : List ℕ) :
    (usage.without sizes).without sizes' = usage.without (sizes ++ sizes') := by
  simp only [without, List.length_append, List.sum_append, Usage.mk.injEq]
  omega

/-- Both targets hold. -/
def Usage.Fits (usage : Usage) (targetEntries targetBytes : ℕ) : Prop :=
  usage.entries ≤ targetEntries ∧ usage.bytes ≤ targetBytes

section Evict

variable {targetEntries targetBytes : ℕ} {kept : List Kept} {left : Usage}

lemma evict_prefix : evict targetEntries targetBytes kept left <+: kept := by
  induction kept generalizing left with
  | nil => exact List.nil_prefix
  | cons x kept ih =>
    unfold evict
    split
    · exact List.nil_prefix
    · exact (List.prefix_cons_inj x).mpr ih

/-- What is removed is enough, or it is all there is. -/
lemma evict_enough : (left.without ((evict targetEntries targetBytes kept left).map fun x => x.2.2)).Fits targetEntries targetBytes ∨
    evict targetEntries targetBytes kept left = kept := by
  induction kept generalizing left with
  | nil => exact Or.inr rfl
  | cons x kept ih =>
    unfold evict
    split
    · rename_i hfits
      exact Or.inl hfits
    · rcases ih with hfits | hall
      · rw [Usage.remove_without] at hfits
        exact Or.inl hfits
      · rw [hall]
        exact Or.inr rfl

/-- Nothing shorter is enough. -/
lemma evict_least {j : ℕ} (hj : j < (evict targetEntries targetBytes kept left).length) :
    ¬(left.without ((kept.take j).map fun x => x.2.2)).Fits targetEntries targetBytes := by
  induction kept generalizing left j with
  | nil => exact absurd hj (Nat.not_lt_zero j)
  | cons x kept ih =>
    unfold evict at hj
    split at hj
    · exact absurd hj (Nat.not_lt_zero j)
    · rename_i hnot
      cases j with
      | zero => exact hnot
      | succ j =>
        rw [List.length_cons] at hj
        rw [List.take_succ_cons, List.map_cons, ← Usage.remove_without]
        exact ih (by omega)

end Evict

lemma Pass.foldl_removeOldest (evicted : List Kept) (pass : Pass) :
    evicted.foldl (fun p x => p.removeOldest x.2.2) pass =
      { pass with
        outcome := { pass.outcome with capacityRemoved := pass.outcome.capacityRemoved + evicted.length }
        left := pass.left.without (evicted.map fun x => x.2.2) } := by
  induction evicted generalizing pass with
  | nil => rfl
  | cons x evicted ih =>
    rw [List.foldl_cons, ih, List.map_cons, ← Usage.remove_without, List.length_cons]
    simp only [Pass.removeOldest, Pass.mk.injEq, Prune.mk.injEq, true_and, and_true]
    omega

namespace Scene

/-- The names of a verdict. -/
noncomputable def judged (v : Scene A) (codec : Codec T) (inner : Inner) (order : List Name) (verdict : Judgement) : List Name :=
  order.filter fun name => v.verdict codec inner v.clock name = verdict

lemma judged_cons_of_eq {verdict : Judgement} (h : v.verdict codec inner v.clock name = verdict) :
    v.judged codec inner (name :: order) verdict = name :: v.judged codec inner order verdict :=
  List.filter_cons_of_pos (by simpa using h)

lemma judged_cons_of_ne {verdict : Judgement} (h : v.verdict codec inner v.clock name ≠ verdict) :
    v.judged codec inner (name :: order) verdict = v.judged codec inner order verdict :=
  List.filter_cons_of_neg (by simpa using h)

/-- The counts of the first pass are those of the names of each verdict. -/
lemma firstPass_counts (codec : Codec T) (inner : Inner) (order : List Name) (pass : Pass) :
    let p := v.firstPass codec inner order pass
    p.outcome = { pass.outcome with
      expiredRemoved := pass.outcome.expiredRemoved + (v.judged codec inner order .expired).length
      unusedRemoved := pass.outcome.unusedRemoved + (v.judged codec inner order .unused).length
      temporaryRemoved := pass.outcome.temporaryRemoved + (v.judged codec inner order .temporary).length } ∧
    p.left = (pass.left.without ((v.judged codec inner order .expired).map v.size)).without
      ((v.judged codec inner order .unused).map v.size) := by
  induction order with
  | nil => exact ⟨rfl, rfl⟩
  | cons name order ih =>
    obtain ⟨hout, hleft⟩ := ih
    have hstep : v.firstPass codec inner (name :: order) pass =
        (v.firstPass codec inner order pass).judge v name (v.verdict codec inner v.clock name) := rfl
    dsimp only
    rw [hstep]
    cases hverdict : v.verdict codec inner v.clock name with
    | expired =>
      rw [judged_cons_of_eq hverdict, judged_cons_of_ne (by simp [hverdict]), judged_cons_of_ne (by simp [hverdict])]
      refine ⟨?_, ?_⟩
      · simp only [Pass.judge, Pass.removeExpired, hout, List.length_cons, Prune.mk.injEq, true_and, and_true]
        omega
      · simp only [Pass.judge, Pass.removeExpired, hleft, List.map_cons]
        rw [Usage.without_append, Usage.without_append, Usage.without_remove, List.cons_append]
    | unused =>
      rw [judged_cons_of_eq hverdict, judged_cons_of_ne (by simp [hverdict]), judged_cons_of_ne (by simp [hverdict])]
      refine ⟨?_, ?_⟩
      · simp only [Pass.judge, Pass.removeUnused, hout, List.length_cons, Prune.mk.injEq, true_and, and_true]
        omega
      · simp only [Pass.judge, Pass.removeUnused, hleft, List.map_cons]
        rw [Usage.without_remove]
    | temporary =>
      rw [judged_cons_of_eq hverdict, judged_cons_of_ne (by simp [hverdict]), judged_cons_of_ne (by simp [hverdict])]
      refine ⟨?_, hleft⟩
      simp only [Pass.judge, Pass.removeTemporary, hout, List.length_cons, Prune.mk.injEq, true_and, and_true]
      omega
    | _ =>
      rw [judged_cons_of_ne (by simp [hverdict]), judged_cons_of_ne (by simp [hverdict]), judged_cons_of_ne (by simp [hverdict])]
      exact ⟨hout, hleft⟩

/-- Entry files, as a prune finds them, are regular files. -/
def Plain (v : Scene A) : Prop :=
  ∀ {name}, entryDigest (entries ++ [name]) ≠ none → ∀ i node, v.find (entries ++ [name]) = some (i, node) → node.kind = .file

/-- An entry whose key is held. -/
def Held (v : Scene A) (name : Name) : Prop :=
  v.Taken (lockPath (digestOf name))

def bytesOf (v : Scene A) (name : Name) : Bytes :=
  (v.find (entries ++ [name])).elim [] fun x => x.2.bytes

/-- An entry that is too large or not live. -/
def Outdated (v : Scene A) (codec : Codec T) (inner : Inner) (name : Name) : Prop :=
  inner.limits.maxEntryBytes < v.size name ∨
    ¬Live codec (digestOf name) v.clock inner.limits.maxEntryBytes (v.bytesOf name)

/-- An entry that was not used for too long. -/
def Idle (v : Scene A) (inner : Inner) (name : Name) : Prop :=
  millis inner.limits.unusedAfter < v.clock - v.used name

open Classical in
/-- What is judged of an entry file. -/
lemma verdict_of_entry (hplain : v.Plain) (hdigest : entryDigest (entries ++ [name]) ≠ none)
    (hthere : v.find (entries ++ [name]) ≠ none) : v.verdict codec inner v.clock name =
      if v.Held name then .skip else if v.Outdated codec inner name then .expired
      else if v.Idle inner name then .unused else .keep := by
  obtain ⟨digest, hd⟩ := Option.ne_none_iff_exists'.mp hdigest
  obtain ⟨⟨i, node⟩, hfind⟩ := Option.ne_none_iff_exists'.mp hthere
  have htemp := not_temporary_of_entryDigest ⟨name, rfl⟩ hd
  have hof : digestOf name = digest := by rw [digestOf, hd, Option.getD_some]
  have hkind := hplain hdigest i node hfind
  by_cases hheld : v.Held name
  · rw [if_pos hheld]
    unfold verdict
    rw [if_neg (by simp [htemp]), hd]
    dsimp only
    rw [if_pos (hof ▸ hheld)]
  · rw [if_neg hheld, verdict_entry htemp hd (hof ▸ hheld) hfind, if_neg (not_not.mpr hkind)]
    have hsize : v.size name = node.bytes.length := by rw [size, hfind]; rfl
    have hbytes : v.bytesOf name = node.bytes := by rw [bytesOf, hfind]; rfl
    unfold Outdated Idle
    rw [hof, hsize, hbytes]
    congr

/-- The names of the entries. -/
structure Entries (v : Scene A) (names : List Name) : Prop where
  nodup : names.Nodup
  mem : ∀ {name}, name ∈ names ↔ entryDigest (entries ++ [name]) ≠ none ∧ v.find (entries ++ [name]) ≠ none

def usage (v : Scene A) (names : List Name) : Usage :=
  ⟨names.length, (names.map v.size).sum⟩

lemma tally_eq (names : List Name) : open Classical in
    v.tally names = ⟨(names.filter v.Counts).length, min ((names.filter v.Counts).map v.size).sum u64Max⟩ := by
  classical
  induction names with
  | nil => rfl
  | cons name names ih =>
    have hstep : v.tally (name :: names) = if v.Counts name then (v.tally names).add (v.size name) else v.tally names := rfl
    rw [hstep, ih]
    by_cases hc : v.Counts name
    · rw [if_pos hc, List.filter_cons_of_pos (by simpa using hc)]
      simp only [Usage.add, satAdd, List.length_cons, List.map_cons, List.sum_cons, Usage.mk.injEq, true_and]
      omega
    · rw [if_neg hc, List.filter_cons_of_neg (by simpa using hc)]

lemma counts_iff (hplain : v.Plain) (hthere : v.find (entries ++ [name]) ≠ none) :
    v.Counts name ↔ entryDigest (entries ++ [name]) ≠ none := by
  refine ⟨And.left, fun hd => ⟨hd, ?_⟩⟩
  obtain ⟨⟨i, node⟩, hfind⟩ := Option.ne_none_iff_exists'.mp hthere
  exact ⟨i, node, hfind, hplain hd i node hfind⟩

/-- The entries among the names of the directory. -/
def entriesOf (order : List Name) : List Name :=
  order.filter fun name => entryDigest (entries ++ [name]) ≠ none

lemma entries_entriesOf (h : v.Lists entries order) : v.Entries (entriesOf order) := by
  refine ⟨h.nodup.filter _, fun {name} => ?_⟩
  rw [entriesOf, List.mem_filter, h.mem, decide_eq_true_eq, and_comm]

lemma tally_lists (hplain : v.Plain) (h : v.Lists entries order) :
    v.tally order = ⟨(v.usage (entriesOf order)).entries, min (v.usage (entriesOf order)).bytes u64Max⟩ := by
  classical
  have hfilter : order.filter v.Counts = entriesOf order := by
    refine List.filter_congr fun name hname => ?_
    rw [decide_eq_decide]
    exact counts_iff hplain ((h.mem name).mp hname)
  rw [tally_eq, hfilter]
  rfl

/-- What was judged of a name tells whether it is an entry. -/
lemma entry_of_verdict {verdict : Judgement} (h : v.verdict codec inner now name = verdict)
    (hv : verdict = .expired ∨ verdict = .unused ∨ verdict = .keep) : entryDigest (entries ++ [name]) ≠ none := by
  intro hnone
  unfold Scene.verdict at h
  rw [hnone] at h
  subst h
  by_cases htemp : isTemporary (entries ++ [name]) = true
  · rw [if_pos htemp] at hv
    by_cases hw : v.Writes name
    · rw [if_pos hw] at hv
      simp at hv
    · rw [if_neg hw] at hv
      simp at hv
  · rw [if_neg htemp] at hv
    simp at hv

open Classical in
/-- The entries that go as expired, the entries that go as unused, and the others whose keys are free. -/
noncomputable def expired (v : Scene A) (codec : Codec T) (inner : Inner) (names : List Name) : List Name :=
  names.filter fun name => ¬v.Held name ∧ v.Outdated codec inner name

open Classical in
noncomputable def unused (v : Scene A) (codec : Codec T) (inner : Inner) (names : List Name) : List Name :=
  names.filter fun name => ¬v.Held name ∧ ¬v.Outdated codec inner name ∧ v.Idle inner name

open Classical in
noncomputable def rest (v : Scene A) (codec : Codec T) (inner : Inner) (names : List Name) : List Name :=
  names.filter fun name => ¬v.Held name ∧ ¬v.Outdated codec inner name ∧ ¬v.Idle inner name

open Classical in
lemma judged_eq_filter (hplain : v.Plain) (h : v.Lists entries order) {verdict : Judgement}
    (hv : verdict = .expired ∨ verdict = .unused ∨ verdict = .keep) :
    v.judged codec inner order verdict = (entriesOf order).filter fun name =>
      (if v.Held name then Judgement.skip else if v.Outdated codec inner name then .expired
        else if v.Idle inner name then .unused else .keep) = verdict := by
  rw [entriesOf, List.filter_filter]
  refine List.filter_congr fun name hname => ?_
  rw [← Bool.decide_and, decide_eq_decide]
  constructor
  · intro heq
    have hd := entry_of_verdict heq hv
    rw [verdict_of_entry hplain hd ((h.mem name).mp hname)] at heq
    exact ⟨heq, hd⟩
  · rintro ⟨heq, hd⟩
    rw [verdict_of_entry hplain hd ((h.mem name).mp hname)]
    exact heq

lemma judged_expired (hplain : v.Plain) (h : v.Lists entries order) :
    v.judged codec inner order .expired = v.expired codec inner (entriesOf order) := by
  classical
  rw [judged_eq_filter hplain h (Or.inl rfl)]
  refine List.filter_congr fun name _ => ?_
  rw [decide_eq_decide]
  by_cases hh : v.Held name <;> by_cases ho : v.Outdated codec inner name <;> by_cases hi : v.Idle inner name <;> simp [hh, ho, hi]

lemma judged_unused (hplain : v.Plain) (h : v.Lists entries order) :
    v.judged codec inner order .unused = v.unused codec inner (entriesOf order) := by
  classical
  rw [judged_eq_filter hplain h (Or.inr (Or.inl rfl))]
  refine List.filter_congr fun name _ => ?_
  rw [decide_eq_decide]
  by_cases hh : v.Held name <;> by_cases ho : v.Outdated codec inner name <;> by_cases hi : v.Idle inner name <;> simp [hh, ho, hi]

lemma judged_keep (hplain : v.Plain) (h : v.Lists entries order) :
    v.judged codec inner order .keep = v.rest codec inner (entriesOf order) := by
  classical
  rw [judged_eq_filter hplain h (Or.inr (Or.inr rfl))]
  refine List.filter_congr fun name _ => ?_
  rw [decide_eq_decide]
  by_cases hh : v.Held name <;> by_cases ho : v.Outdated codec inner name <;> by_cases hi : v.Idle inner name <;> simp [hh, ho, hi]

end Scene

lemma Kept.le_iff (x y : Kept) : Kept.le x y = true ↔ toLex (x.1, toLex (x.2.1, x.2.2)) ≤ toLex (y.1, toLex (y.2.1, y.2.2)) :=
  decide_eq_true_iff

lemma Kept.sorted (kept : List Kept) : (kept.mergeSort Kept.le).Pairwise fun x y => Kept.le x y = true := by
  refine List.pairwise_mergeSort (fun x y z hxy hyz => ?_) (fun x y => ?_) kept
  · rw [Kept.le_iff] at *
    exact le_trans hxy hyz
  · rw [Bool.or_eq_true, Kept.le_iff, Kept.le_iff]
    exact le_total _ _

/-- The name of a kept entry. -/
def nameOf (x : Kept) : Name :=
  x.2.1 ++ ".json".toList

namespace Scene

/-- `m` was used before `n`, or at the same time and its digest is first. -/
def Older (v : Scene A) (m n : Name) : Prop :=
  toLex (v.used m, digestOf m) ≤ toLex (v.used n, digestOf n)

lemma name_item (hd : entryDigest (entries ++ [name]) ≠ none) : nameOf (v.item name) = name := by
  obtain ⟨digest, hdigest⟩ := Option.ne_none_iff_exists'.mp hd
  rw [nameOf, item, digestOf, hdigest, Option.getD_some]
  exact (entryDigest_eq_some.mp hdigest).1.symm

lemma older_of_le {m n : Name} (h : Kept.le (v.item m) (v.item n) = true) : v.Older m n := by
  rw [Kept.le_iff, Prod.Lex.toLex_le_toLex] at h
  unfold Older
  rw [Prod.Lex.toLex_le_toLex]
  refine h.imp id fun ⟨hused, hrest⟩ => ⟨hused, ?_⟩
  rw [Prod.Lex.toLex_le_toLex] at hrest
  rcases hrest with hlt | ⟨heq, -⟩
  · exact le_of_lt hlt
  · exact le_of_eq heq

/-- What a prune does to the entries and the temporary files, and what it answers: `oldest` went to make room, and
`later` stayed although their keys were free. -/
structure PruneResult (v : Scene A) (codec : Codec T) (inner : Inner) (names oldest later : List Name) (r : Prune)
    (v' : Scene A) : Prop where
  free : (oldest ++ later).Perm (v.rest codec inner names)
  sorted : (oldest ++ later).Pairwise v.Older
  within : (v.usage names).Fits inner.limits.hardEntries inner.limits.hardBytes → oldest = []
  enough : ¬(v.usage names).Fits inner.limits.hardEntries inner.limits.hardBytes →
    ((v.usage names).without ((v.expired codec inner names ++ v.unused codec inner names ++ oldest).map v.size)).Fits
      (min inner.limits.targetEntries inner.limits.hardEntries) (min inner.limits.targetBytes inner.limits.hardBytes) ∨
        later = []
  least : ∀ {first : List Name}, first <+: oldest → first ≠ oldest →
    ¬((v.usage names).without ((v.expired codec inner names ++ v.unused codec inner names ++ first).map v.size)).Fits
      (min inner.limits.targetEntries inner.limits.hardEntries) (min inner.limits.targetBytes inner.limits.hardBytes)
  gone : ∀ name ∈ v.expired codec inner names ++ v.unused codec inner names ++ oldest, v'.find (entries ++ [name]) = none
  stays : ∀ name ∈ names, name ∉ v.expired codec inner names ++ v.unused codec inner names ++ oldest →
    v'.find (entries ++ [name]) = v.find (entries ++ [name])
  held : ∀ name ∈ names, v.Held name → v'.find (entries ++ [name]) = v.find (entries ++ [name])
  temporary : ∀ {name}, isTemporary (entries ++ [name]) = true →
    (v.Writes name → v'.find (entries ++ [name]) = v.find (entries ++ [name])) ∧
      (¬v.Writes name → v'.find (entries ++ [name]) = none)
  expiredRemoved : r.expiredRemoved = (v.expired codec inner names).length
  unusedRemoved : r.unusedRemoved = (v.unused codec inner names).length
  capacityRemoved : r.capacityRemoved = oldest.length
  before : ⟨r.beforeEntries, r.beforeBytes⟩ = v.usage names
  after : ∃ left, v'.Entries left ∧ ⟨r.afterEntries, r.afterBytes⟩ = v'.usage left
  accounted : r.beforeEntries = r.afterEntries + r.expiredRemoved + r.unusedRemoved + r.capacityRemoved
  bytes : r.beforeBytes = r.afterBytes +
    ((v.expired codec inner names ++ v.unused codec inner names ++ oldest).map v.size).sum

/-- The names that the second pass removes, and those that it could have gone on to. -/
noncomputable def oldest (v : Scene A) (codec : Codec T) (inner : Inner) (order : List Name) : List Name :=
  (v.evicted codec inner order).map nameOf

noncomputable def queue (v : Scene A) (codec : Codec T) (inner : Inner) (order : List Name) : List Kept :=
  (v.firstPass codec inner order (v.begun order 0)).kept.mergeSort Kept.le

lemma mem_queue {x : Kept} (h : x ∈ v.queue codec inner order) :
    ∃ name ∈ order, v.verdict codec inner v.clock name = .keep ∧ x = v.item name ∧ nameOf x = name := by
  rw [queue, List.mem_mergeSort, firstPass_kept, show (v.begun order 0).kept = [] from rfl, List.nil_append,
    List.mem_reverse, List.mem_map] at h
  obtain ⟨name, hname, rfl⟩ := h
  rw [List.mem_filter, decide_eq_true_eq] at hname
  exact ⟨name, hname.1, hname.2, rfl, name_item (entry_of_verdict hname.2 (Or.inr (Or.inr rfl)))⟩

lemma queue_perm (hplain : v.Plain) (h : v.Lists entries order) :
    ((v.queue codec inner order).map nameOf).Perm (v.rest codec inner (entriesOf order)) := by
  have hitems : ((v.judged codec inner order .keep).map v.item).map nameOf = v.judged codec inner order .keep := by
    rw [List.map_map]
    refine (List.map_congr_left fun name hname => ?_).trans (List.map_id _)
    rw [judged, List.mem_filter, decide_eq_true_eq] at hname
    exact name_item (entry_of_verdict hname.2 (Or.inr (Or.inr rfl)))
  rw [← judged_keep hplain h, ← hitems]
  refine ((List.mergeSort_perm _ _).map _).trans ?_
  rw [firstPass_kept, show (v.begun order 0).kept = [] from rfl, List.nil_append]
  exact (List.reverse_perm _).map _

lemma queue_sorted : ((v.queue codec inner order).map nameOf).Pairwise v.Older := by
  rw [List.pairwise_map]
  refine List.Pairwise.imp_of_mem ?_ (Kept.sorted _)
  intro x y hx hy hle
  obtain ⟨m, -, -, hxm, hm⟩ := mem_queue hx
  obtain ⟨n, -, -, hyn, hn⟩ := mem_queue hy
  rw [hm, hn]
  exact older_of_le (hxm ▸ hyn ▸ hle)

/-- The sizes of kept entries are those of their files. -/
lemma sizes_queue {l : List Kept} (h : ∀ x ∈ l, x ∈ v.queue codec inner order) :
    (l.map fun x => x.2.2) = (l.map nameOf).map v.size := by
  rw [List.map_map]
  refine List.map_congr_left fun x hx => ?_
  obtain ⟨name, -, -, rfl, hname⟩ := mem_queue (h x hx)
  rw [Function.comp_apply, hname]
  rfl

lemma evicted_queue : v.evicted codec inner order <+: v.queue codec inner order := by
  unfold evicted
  dsimp only
  split
  · exact evict_prefix
  · exact List.nil_prefix

/-- What is left of the usage after the first pass. -/
lemma left_firstPass (hplain : v.Plain) (h : v.Lists entries order) (n : ℕ) :
    (v.firstPass codec inner order (v.begun order n)).left = (v.tally order).without
      ((v.expired codec inner (entriesOf order) ++ v.unused codec inner (entriesOf order)).map v.size) := by
  obtain ⟨-, hleft⟩ := firstPass_counts (v := v) codec inner order (v.begun order n)
  rw [hleft, Usage.without_append, judged_expired hplain h, judged_unused hplain h, List.map_append]
  rfl

lemma outcome_eq (hplain : v.Plain) (h : v.Lists entries order) (n : ℕ) :
    let r := v.outcome codec inner order n
    let names := entriesOf order
    (r.beforeEntries = (v.tally order).entries ∧ r.beforeBytes = (v.tally order).bytes) ∧
      (⟨r.afterEntries, r.afterBytes⟩ = (v.tally order).without
        ((v.expired codec inner names ++ v.unused codec inner names ++ v.oldest codec inner order).map v.size)) ∧
      r.expiredRemoved = (v.expired codec inner names).length ∧ r.unusedRemoved = (v.unused codec inner names).length ∧
      r.capacityRemoved = (v.oldest codec inner order).length := by
  obtain ⟨hout, -⟩ := firstPass_counts (v := v) codec inner order (v.begun order n)
  have hsizes := @sizes_queue _ _ _ v codec inner order _ fun x hx => List.IsPrefix.subset evicted_queue hx
  dsimp only
  unfold outcome
  dsimp only
  rw [Pass.foldl_removeOldest]
  dsimp only
  rw [hout]
  refine ⟨⟨rfl, rfl⟩, ?_, ?_, ?_, ?_⟩
  · rw [left_firstPass hplain h, hsizes, Usage.without_append, ← List.map_append]
    rfl
  · rw [← judged_expired hplain h]
    exact Nat.zero_add _
  · rw [← judged_unused hplain h]
    exact Nat.zero_add _
  · rw [oldest, List.length_map]
    exact Nat.zero_add _

/-- A name in the directory is gone after a prune if it was judged to go or was among the oldest. -/
lemma find_pruned : (v.pruned codec inner order i node).find (entries ++ [name]) =
    open Classical in
    if (v.find (entries ++ [name]) ≠ none ∧ (v.verdict codec inner v.clock name).Goes) ∨
      (∃ x ∈ v.evicted codec inner order, entries ++ [name] = entryPath x.2.1) then none
    else v.find (entries ++ [name]) := by
  have hne : entries ++ [name] ≠ pruneLock := by simp [entries, pruneLock]
  rw [pruned, find_put_of_ne _ hne]
  have hmem : entries ++ [name] ∈ v.removes codec inner order ↔
      (v.find (entries ++ [name]) ≠ none ∧ (v.verdict codec inner v.clock name).Goes) ∨
        ∃ x ∈ v.evicted codec inner order, entries ++ [name] = entryPath x.2.1 := by
    constructor
    · rintro ((⟨hchild, -⟩ | ⟨name', hthere, hgoes⟩) | hevicted)
      · exact absurd hchild (ChildOf.not_locks ⟨name, rfl⟩)
      · obtain rfl := entries_injective ((prefix_of_mem_goes hgoes).eq_of_length (by simp))
        refine Or.inl ⟨hthere, by_contra fun hno => ?_⟩
        rw [goes_eq_empty hno] at hgoes
        exact hgoes
      · exact Or.inr hevicted
    · rintro (⟨hthere, hgoes⟩ | hevicted)
      · exact Or.inl (Or.inr ⟨name, hthere, goes_eq_extent hgoes ▸ Or.inl rfl⟩)
      · exact Or.inr hevicted
  by_cases hgone : entries ++ [name] ∈ v.removes codec inner order
  · rw [find_less_of_mem hgone, if_pos (hmem.mp hgone)]
  · rw [find_less_of_not_mem hgone, if_neg (hmem.not.mp hgone)]

/-- Which entries are gone after a prune. -/
lemma find_pruned_entry (hplain : v.Plain) (h : v.Lists entries order) (hname : name ∈ entriesOf order) :
    (name ∈ v.expired codec inner (entriesOf order) ++ v.unused codec inner (entriesOf order) ++ v.oldest codec inner order →
      (v.pruned codec inner order i node).find (entries ++ [name]) = none) ∧
    (name ∉ v.expired codec inner (entriesOf order) ++ v.unused codec inner (entriesOf order) ++ v.oldest codec inner order →
      (v.pruned codec inner order i node).find (entries ++ [name]) = v.find (entries ++ [name])) := by
  classical
  obtain ⟨hd, hthere⟩ := (entries_entriesOf h).mem.mp hname
  have hgoes : (v.verdict codec inner v.clock name).Goes ↔
      name ∈ v.expired codec inner (entriesOf order) ++ v.unused codec inner (entriesOf order) := by
    rw [verdict_of_entry hplain hd hthere, expired, unused, List.mem_append, List.mem_filter, List.mem_filter, decide_eq_true_eq,
      decide_eq_true_eq]
    by_cases hh : v.Held name <;> by_cases ho : v.Outdated codec inner name <;> by_cases hi : v.Idle inner name <;>
      simp [hh, ho, hi, hname, Judgement.Goes]
  have hevicted : (∃ x ∈ v.evicted codec inner order, entries ++ [name] = entryPath x.2.1) ↔ name ∈ v.oldest codec inner order := by
    rw [oldest, List.mem_map]
    refine exists_congr fun x => and_congr_right fun _ => ?_
    constructor
    · exact fun heq => (entries_injective heq).symm
    · rintro rfl
      rfl
  rw [find_pruned]
  constructor
  · intro hmem
    refine if_pos ?_
    rcases List.mem_append.mp hmem with hfirst | hold
    · exact Or.inl ⟨hthere, hgoes.mpr hfirst⟩
    · exact Or.inr (hevicted.mpr hold)
  · intro hmem
    refine if_neg ?_
    rintro (⟨-, hg⟩ | he)
    · exact hmem (List.mem_append_left _ (hgoes.mp hg))
    · exact hmem (List.mem_append_right _ (hevicted.mp he))

/-- The entries that the second pass could have gone on to. -/
noncomputable def spared (v : Scene A) (codec : Codec T) (inner : Inner) (order : List Name) : List Name :=
  ((v.queue codec inner order).drop (v.evicted codec inner order).length).map nameOf

lemma oldest_append_spared (codec : Codec T) (inner : Inner) (order : List Name) :
    v.oldest codec inner order ++ v.spared codec inner order = (v.queue codec inner order).map nameOf := by
  have hstarts := List.prefix_iff_eq_take.mp (@evicted_queue _ _ _ v codec inner order)
  rw [oldest, spared, ← List.map_append]
  nth_rewrite 1 [hstarts]
  rw [List.take_append_drop]

variable {names : List Name}

lemma mem_expired : name ∈ v.expired codec inner names ↔ name ∈ names ∧ ¬v.Held name ∧ v.Outdated codec inner name := by
  classical
  unfold expired
  rw [List.mem_filter, decide_eq_true_eq]

lemma mem_unused :
    name ∈ v.unused codec inner names ↔ name ∈ names ∧ ¬v.Held name ∧ ¬v.Outdated codec inner name ∧ v.Idle inner name := by
  classical
  unfold unused
  rw [List.mem_filter, decide_eq_true_eq]

lemma mem_rest :
    name ∈ v.rest codec inner names ↔ name ∈ names ∧ ¬v.Held name ∧ ¬v.Outdated codec inner name ∧ ¬v.Idle inner name := by
  classical
  unfold rest
  rw [List.mem_filter, decide_eq_true_eq]

/-- All the entries that a prune removes. -/
noncomputable def removed (v : Scene A) (codec : Codec T) (inner : Inner) (order : List Name) : List Name :=
  v.expired codec inner (entriesOf order) ++ v.unused codec inner (entriesOf order) ++ v.oldest codec inner order

lemma mem_rest_of_oldest (hplain : v.Plain) (h : v.Lists entries order) (hname : name ∈ v.oldest codec inner order) :
    name ∈ v.rest codec inner (entriesOf order) := by
  rw [← (queue_perm hplain h).mem_iff, ← oldest_append_spared]
  exact List.mem_append_left _ hname

lemma removed_subset (hplain : v.Plain) (h : v.Lists entries order) : v.removed codec inner order ⊆ entriesOf order := by
  intro name hname
  rcases List.mem_append.mp hname with hfirst | hold
  · rcases List.mem_append.mp hfirst with he | hu
    · exact (mem_expired.mp he).1
    · exact (mem_unused.mp hu).1
  · exact (mem_rest.mp (mem_rest_of_oldest hplain h hold)).1

/-- An entry whose key is held is not among them. -/
lemma not_mem_removed (hplain : v.Plain) (h : v.Lists entries order) (hheld : v.Held name) :
    name ∉ v.removed codec inner order := by
  intro hname
  rcases List.mem_append.mp hname with hfirst | hold
  · rcases List.mem_append.mp hfirst with he | hu
    · exact (mem_expired.mp he).2.1 hheld
    · exact (mem_unused.mp hu).2.1 hheld
  · exact (mem_rest.mp (mem_rest_of_oldest hplain h hold)).2.1 hheld

lemma removed_nodup (hplain : v.Plain) (h : v.Lists entries order) : (v.removed codec inner order).Nodup := by
  have hnames := (entries_entriesOf h).nodup
  have hold : (v.oldest codec inner order).Nodup := by
    have hall : (v.oldest codec inner order ++ v.spared codec inner order).Nodup := by
      rw [oldest_append_spared, (queue_perm hplain h).nodup_iff]
      exact hnames.filter _
    exact hall.of_append_left
  refine (List.Nodup.append (hnames.filter _) (hnames.filter _) ?_).append hold ?_
  · exact fun name he hu => (mem_unused.mp hu).2.2.1 (mem_expired.mp he).2.2
  · intro name hfirst hold
    have hrest := (mem_rest.mp (mem_rest_of_oldest hplain h hold)).2.2
    rcases List.mem_append.mp hfirst with he | hu
    · exact hrest.1 (mem_expired.mp he).2.2
    · exact hrest.2 (mem_unused.mp hu).2.2.2

open Classical in
/-- The entries are those that go and those that stay. -/
lemma removed_perm (hplain : v.Plain) (h : v.Lists entries order) :
    (entriesOf order).Perm (v.removed codec inner order ++ (entriesOf order).filter fun name => name ∉ v.removed codec inner order) := by
  have hnames := (entries_entriesOf h).nodup
  refine (List.perm_ext_iff_of_nodup hnames ((removed_nodup hplain h).append (hnames.filter _) ?_)).mpr fun name => ?_
  · intro name hr hs
    rw [List.mem_filter, decide_eq_true_eq] at hs
    exact hs.2 hr
  · rw [List.mem_append, List.mem_filter, decide_eq_true_eq]
    constructor
    · intro hname
      by_cases hr : name ∈ v.removed codec inner order
      · exact Or.inl hr
      · exact Or.inr ⟨hname, hr⟩
    · rintro (hr | hs)
      · exact removed_subset hplain h hr
      · exact hs.1

lemma usage_perm {names names' : List Name} (h : names.Perm names') : v.usage names = v.usage names' := by
  rw [usage, usage, h.length_eq, (h.map v.size).sum_eq]

lemma usage_append_without (gone names : List Name) : (v.usage (gone ++ names)).without (gone.map v.size) = v.usage names := by
  simp only [usage, Usage.without, List.length_append, List.length_map, List.map_append, List.sum_append, Usage.mk.injEq]
  omega

lemma usage_congr {names : List Name} (h : ∀ name ∈ names, u.find (entries ++ [name]) = v.find (entries ++ [name])) :
    u.usage names = v.usage names := by
  have hsizes : names.map u.size = names.map v.size := by
    refine List.map_congr_left fun name hname => ?_
    rw [size, size, h name hname]
  rw [usage, usage, hsizes]

open Classical in
/-- The entries that a prune leaves are the others. -/
lemma entries_pruned (hplain : v.Plain) (h : v.Lists entries order) : (v.pruned codec inner order i node).Entries
    ((entriesOf order).filter fun name => name ∉ v.removed codec inner order) := by
  have hnames := entries_entriesOf h
  refine ⟨hnames.nodup.filter _, fun {name} => ?_⟩
  rw [List.mem_filter, decide_eq_true_eq]
  constructor
  · rintro ⟨hmem, hr⟩
    rw [(find_pruned_entry hplain h hmem).2 hr]
    exact hnames.mem.mp hmem
  · rintro ⟨hd, hthere⟩
    have hold : v.find (entries ++ [name]) ≠ none := by
      rw [find_pruned] at hthere
      exact fun hnone => hthere (ite_eq_left_iff.mpr fun _ => hnone)
    have hmem := hnames.mem.mpr ⟨hd, hold⟩
    exact ⟨hmem, fun hr => hthere ((find_pruned_entry hplain h hmem).1 hr)⟩

open Classical in
/-- The counts of a prune are those of the files that it leaves. -/
lemma usage_pruned (hplain : v.Plain) (h : v.Lists entries order) :
    (v.pruned codec inner order i node).usage ((entriesOf order).filter fun name => name ∉ v.removed codec inner order) =
      (v.usage (entriesOf order)).without ((v.removed codec inner order).map v.size) := by
  have hstay : ∀ name ∈ (entriesOf order).filter fun name => name ∉ v.removed codec inner order,
      (v.pruned codec inner order i node).find (entries ++ [name]) = v.find (entries ++ [name]) := by
    intro name hname
    rw [List.mem_filter, decide_eq_true_eq] at hname
    exact (find_pruned_entry hplain h hname.1).2 hname.2
  rw [usage_congr hstay, usage_perm (removed_perm hplain h), usage_append_without]

/-- A temporary file is judged by its key alone. -/
lemma judgement_of_temporary (htemp : isTemporary (entries ++ [name]) = true) :
    (v.verdict codec inner now name).Goes ↔ ¬v.Writes name := by
  unfold verdict
  rw [if_pos htemp]
  by_cases hw : v.Writes name
  · rw [if_pos hw]
    exact ⟨fun h => h.elim, fun h => h hw⟩
  · rw [if_neg hw]
    exact ⟨fun _ => hw, fun _ => trivial⟩

lemma find_pruned_temporary (htemp : isTemporary (entries ++ [name]) = true) :
    (v.Writes name → (v.pruned codec inner order i node).find (entries ++ [name]) = v.find (entries ++ [name])) ∧
      (¬v.Writes name → (v.pruned codec inner order i node).find (entries ++ [name]) = none) := by
  classical
  have hnot : ¬∃ x ∈ v.evicted codec inner order, entries ++ [name] = entryPath x.2.1 := by
    rintro ⟨x, hx, heq⟩
    obtain ⟨name', -, hverdict, -, hname'⟩ := mem_queue (evicted_queue.subset hx)
    have hsame : entries ++ [name] = entries ++ [name'] := by
      rw [heq, ← hname']
      rfl
    obtain ⟨digest, hd⟩ := Option.ne_none_iff_exists'.mp (entry_of_verdict hverdict (Or.inr (Or.inr rfl)))
    rw [hsame, not_temporary_of_entryDigest ⟨name', rfl⟩ hd] at htemp
    cases htemp
  rw [find_pruned, judgement_of_temporary htemp]
  constructor
  · intro hw
    refine if_neg ?_
    rintro (⟨-, hgoes⟩ | hevicted)
    · exact hgoes hw
    · exact hnot hevicted
  · intro hw
    by_cases hthere : v.find (entries ++ [name]) = none
    · rw [hthere, ite_self]
    · exact if_pos (Or.inl ⟨hthere, hw⟩)

lemma over_iff {names : List Name} (htally : v.tally order = v.usage names) :
    v.Over inner order ↔ ¬(v.usage names).Fits inner.limits.hardEntries inner.limits.hardBytes := by
  rw [Over, htally, Usage.Fits]
  omega

/-- The result of a prune is what its limits ask for. -/
theorem pruneResult (hplain : v.Plain) (h : v.Lists entries order) (hbytes : (v.usage (entriesOf order)).bytes ≤ u64Max) (n : ℕ) :
    v.PruneResult codec inner (entriesOf order) (v.oldest codec inner order) (v.spared codec inner order)
      (v.outcome codec inner order n) (v.pruned codec inner order i node) := by
  classical
  have htally : v.tally order = v.usage (entriesOf order) := by
    rw [tally_lists hplain h, min_eq_left hbytes]
  obtain ⟨⟨hbeforeEntries, hbeforeBytes⟩, hafter, hexpired, hunused, holdest⟩ := outcome_eq hplain h n
  rw [htally] at hbeforeEntries hbeforeBytes hafter
  have hall := oldest_append_spared (v := v) codec inner order
  have hover := @over_iff _ _ _ inner _ _ htally
  have hpass := @left_firstPass _ _ _ _ codec inner _ hplain h 0
  rw [htally] at hpass
  have hevicted : v.Over inner order → v.evicted codec inner order =
      evict (min inner.limits.targetEntries inner.limits.hardEntries) (min inner.limits.targetBytes inner.limits.hardBytes)
        (v.queue codec inner order) (v.firstPass codec inner order (v.begun order 0)).left := fun ho => if_pos ho
  have hcount := (@removed_perm _ _ _ _ codec inner _ hplain h).length_eq
  have hsum := ((@removed_perm _ _ _ _ codec inner _ hplain h).map v.size).sum_eq
  rw [List.length_append] at hcount
  rw [List.map_append, List.sum_append] at hsum
  rw [Usage.mk.injEq] at hafter
  refine {
    free := by
      rw [hall]
      exact queue_perm hplain h
    sorted := by
      rw [hall]
      exact queue_sorted
    within := fun hfits => ?_
    enough := fun hfits => ?_
    least := ?_
    gone := fun name hname => (find_pruned_entry hplain h (removed_subset hplain h hname)).1 hname
    stays := fun name hmem hname => (find_pruned_entry hplain h hmem).2 hname
    held := fun name hmem hheld => (find_pruned_entry hplain h hmem).2 (not_mem_removed hplain h hheld)
    temporary := find_pruned_temporary
    expiredRemoved := hexpired
    unusedRemoved := hunused
    capacityRemoved := holdest
    before := Usage.mk.injEq .. ▸ ⟨hbeforeEntries, hbeforeBytes⟩
    after := ⟨_, entries_pruned hplain h, ?_⟩
    accounted := ?_
    bytes := ?_ }
  · have hnot : ¬v.Over inner order := fun ho => hover.mp ho hfits
    rw [oldest, evicted, if_neg hnot]
    rfl
  · have ho := hover.mpr hfits
    rcases evict_enough with hfit | heq
    · refine Or.inl ?_
      rw [← hevicted ho, hpass, Usage.without_append, sizes_queue fun x hx => evicted_queue.subset hx, ← List.map_append] at hfit
      exact hfit
    · refine Or.inr ?_
      rw [← hevicted ho] at heq
      rw [spared, heq, List.drop_length]
      rfl
  · intro first hfirst hne hfit
    have hlt : first.length < (v.evicted codec inner order).length := by
      have hle := hfirst.length_le
      rw [oldest, List.length_map] at hle
      refine lt_of_le_of_ne hle fun heq => hne (hfirst.eq_of_length ?_)
      rw [heq, oldest, List.length_map]
    have ho : v.Over inner order := by
      by_contra hnot
      rw [evicted, if_neg hnot] at hlt
      exact absurd hlt (Nat.not_lt_zero _)
    have htake : first = ((v.queue codec inner order).take first.length).map nameOf := by
      rw [List.map_take, ← hall]
      exact List.prefix_iff_eq_take.mp (hfirst.trans (List.prefix_append _ _))
    rw [hevicted ho] at hlt
    refine evict_least hlt ?_
    rw [hpass, Usage.without_append, sizes_queue fun x hx => List.mem_of_mem_take hx, ← List.map_append, ← htake]
    exact hfit
  · rw [usage_pruned hplain h, hafter.1, hafter.2]
    rfl
  · rw [hbeforeEntries, hafter.1, hexpired, hunused, holdest]
    simp only [Usage.without, usage, removed, List.length_append, List.length_map, List.map_append] at hcount ⊢
    omega
  · rw [hbeforeBytes, hafter.2]
    simp only [Usage.without, usage, removed] at hsum ⊢
    omega

end Scene

lemma Scene.Entries.perm {names names' : List Name} (h : v.Entries names) (h' : v.Entries names') : names.Perm names' :=
  (List.perm_ext_iff_of_nodup h.nodup h'.nodup).mpr fun _ => h.mem.trans h'.mem.symm

section

variable {found : List (Name × Node)} {locked : List Name} {clock : ℕ}

lemma plain_rootWith {extra : List (Path × Node)} (h : Extra extra) : (World.of (rootWith extra) clock : World A V).scene.Plain := by
  intro name _ i node hfind
  obtain ⟨x, hx, rfl⟩ := mem_extra h hfind
  exact h.kind _ hx

lemma entries_stored (hfound : (found.map Prod.fst).Nodup) (hlocked : locked.Nodup)
    (hkind : ∀ x ∈ found, x.2.kind = .file ∧ x.2.owned = true) (hdigest : ∀ x ∈ found, isDigest x.1 = true) :
    (World.of (rootWith (stored found locked)) clock : World A V).scene.Entries (found.map fun x => x.1 ++ ".json".toList) := by
  have hextra := extra_stored hfound hlocked hkind
  refine ⟨?_, fun {name} => ?_⟩
  · have happend : Function.Injective fun digest : Name => digest ++ ".json".toList := fun d d' h => List.append_cancel_right h
    rw [show (fun x : Name × Node => x.1 ++ ".json".toList) = (fun digest : Name => digest ++ ".json".toList) ∘ Prod.fst from rfl,
      ← List.map_map]
    exact hfound.map happend
  · rw [List.mem_map]
    constructor
    · rintro ⟨x, hx, rfl⟩
      refine ⟨?_, ?_⟩
      · rw [show entryDigest (entries ++ [x.1 ++ ".json".toList]) = some x.1 from entryDigest_eq_some.mpr ⟨rfl, hdigest x hx⟩]
        simp
      · have hmem : (entryPath x.1, x.2) ∈ rootWith (stored found locked) :=
          List.mem_append_right _ (mem_stored.mpr (Or.inl ⟨x, hx, rfl⟩))
        obtain ⟨i, hfind⟩ := World.find_of_mem (A := A) (V := V) (rootWith_nodup hextra) hmem
        rw [show (World.of (rootWith (stored found locked)) clock : World A V).scene.find (entries ++ [x.1 ++ ".json".toList]) =
          some (i, { x.2 with mode := 0 }) from hfind]
        simp
    · rintro ⟨-, hthere⟩
      obtain ⟨⟨i, node⟩, hfind⟩ := Option.ne_none_iff_exists'.mp hthere
      obtain ⟨x, hx, -⟩ := mem_extra hextra hfind
      rcases mem_stored.mp hx with ⟨y, hy, heq⟩ | ⟨digest, -, heq⟩
      · rw [Prod.mk.injEq] at heq
        exact ⟨y, hy, (entries_injective heq.1).symm⟩
      · rw [Prod.mk.injEq] at heq
        exact absurd (childOf_lockPath digest) (heq.1 ▸ ChildOf.not_locks ⟨name, rfl⟩)

lemma size_stored (hfound : (found.map Prod.fst).Nodup) (hlocked : locked.Nodup)
    (hkind : ∀ x ∈ found, x.2.kind = .file ∧ x.2.owned = true) {x : Name × Node} (hx : x ∈ found) :
    (World.of (rootWith (stored found locked)) clock : World A V).scene.size (x.1 ++ ".json".toList) = x.2.bytes.length := by
  have hmem : (entryPath x.1, x.2) ∈ rootWith (stored found locked) :=
    List.mem_append_right _ (mem_stored.mpr (Or.inl ⟨x, hx, rfl⟩))
  obtain ⟨i, hfind⟩ := World.find_of_mem (A := A) (V := V)
    (rootWith_nodup (extra_stored hfound hlocked hkind)) hmem
  rw [Scene.size, show (World.of (rootWith (stored found locked)) clock : World A V).scene.find (entries ++ [x.1 ++ ".json".toList]) =
    some (i, { x.2 with mode := 0 }) from hfind]
  rfl

lemma usage_stored (hfound : (found.map Prod.fst).Nodup) (hlocked : locked.Nodup)
    (hkind : ∀ x ∈ found, x.2.kind = .file ∧ x.2.owned = true) :
    (World.of (rootWith (stored found locked)) clock : World A V).scene.usage (found.map fun x => x.1 ++ ".json".toList) =
      ⟨found.length, (found.map fun x => x.2.bytes.length).sum⟩ := by
  rw [Scene.usage, List.length_map, List.map_map]
  congr 2
  exact List.map_congr_left fun x hx => size_stored hfound hlocked hkind hx

end

/-- What is asked of a prune of `w`. -/
def PrunesExactly (tick : ℕ → ℕ → Prop) (a : A) (codec : Codec T) (inner : Inner) (wait : Wait) (w : World A V) : Prop :=
  ∀ r w', (prune codec inner wait : M V Prune).Ends (machine A V (fun _ => False) tick) a w r w' →
    ∃ result names oldest later, r = .ok result ∧ w.scene.Entries names ∧
      w.scene.PruneResult codec inner names oldest later result w'.scene

/-- A prune that nothing disturbs ends, with the result that its limits ask for, unless the sizes of the entries add
up to more than a `u64` holds. -/
theorem prune_removes {w : World A V} {wait : Wait} (hfit : w.scene.Fit) (hone : w.scene.Distinct) (hshare : w.scene.Shareable)
    (hfree : ¬w.scene.Taken pruneLock) (hplain : w.scene.Plain)
    (hbytes : ∀ names, w.scene.Entries names → (w.scene.usage names).bytes ≤ u64Max) :
    (∃ r w', (prune codec inner wait : M V Prune).Ends (machine A V (fun _ => False) tick) a w r w') ∧
      PrunesExactly tick a codec inner wait w := by
  obtain ⟨hrun, hends⟩ := (does_prune (a := a) hfit hone hshare hfree
    fun _ => trivial).ends
  refine ⟨hrun, fun r w' hr => ?_⟩
  obtain ⟨result, rfl, order, names, i, node, horder, -, -, rfl, hsees⟩ := hends r w' hr
  have hnames := Scene.entries_entriesOf horder
  refine ⟨_, _, w.scene.oldest codec inner order, w.scene.spared codec inner order, rfl, hnames, ?_⟩
  rw [hsees.scene]
  exact Scene.pruneResult hplain horder (hbytes _ hnames) _

/-- A cache that keeps next to nothing. -/
def tight : Inner :=
  ⟨1, roomy.fits, ⟨0, Nat.zero_le _, 0, 0, 0, 0, 0, 0, 0⟩⟩

theorem prune_removes_one : PrunesExactly (V := Unit) (fun _ _ => True) () Serde.unit.codec tight .block
    (World.of (rootWith (stored [(List.replicate 64 'a', .holding [0x7b] 5)] [])) 7) := by
  have hfound : (([(List.replicate 64 'a', Node.holding [0x7b] 5)] : List (Name × Node)).map Prod.fst).Nodup := List.nodup_singleton _
  have hkind : ∀ x ∈ ([(List.replicate 64 'a', .holding [0x7b] 5)] : List (Name × Node)), x.2.kind = .file ∧ x.2.owned = true := by
    simp [Node.holding]
  have hextra := extra_stored hfound List.nodup_nil hkind
  refine (prune_removes (fit_rootWith hextra) World.distinct_of World.shareable_of World.not_taken_of (plain_rootWith hextra) ?_).2
  intro names hnames
  rw [Scene.usage_perm (hnames.perm (entries_stored hfound List.nodup_nil hkind (by simp [isDigest, isHexDigit]))),
    usage_stored hfound List.nodup_nil hkind]
  decide

def digestB : Name := List.replicate 64 'b'
def digestC : Name := List.replicate 64 'c'

/-- Three entries of the same bytes; the key of the last is held. -/
def crowded (bytes : Bytes) : World Bool Unit :=
  (World.of (rootWith (stored ([digestA, digestB, digestC].map fun digest => (digest, .holding bytes 0)) [digestC])) 0).setFile
    true 0 (some (.holding (lockPath digestC) 8 0 .key))

section

variable {bytes : Bytes}

lemma nodup_crowded : (([digestA, digestB, digestC].map fun digest => (digest, Node.holding bytes 0)).map Prod.fst).Nodup :=
  show [digestA, digestB, digestC].Nodup by decide

lemma kind_crowded : ∀ x ∈ [digestA, digestB, digestC].map fun digest => (digest, Node.holding bytes 0),
    x.2.kind = .file ∧ x.2.owned = true := by
  intro x hx
  obtain ⟨digest, -, rfl⟩ := List.mem_map.mp hx
  exact ⟨rfl, rfl⟩

lemma digests_crowded : ∀ digest ∈ [digestA, digestB, digestC], isDigest digest = true := by
  decide

lemma entries_crowded :
    (crowded bytes).scene.Entries ([digestA, digestB, digestC].map fun digest => digest ++ ".json".toList) := by
  have h := @entries_stored Bool Unit _ _ _ 0 nodup_crowded (List.nodup_singleton digestC)
    (@kind_crowded bytes) fun x hx => by
      obtain ⟨digest, hd, rfl⟩ := List.mem_map.mp hx
      exact digests_crowded digest hd
  exact ⟨h.nodup, h.mem⟩

lemma size_crowded (h : digest ∈ [digestA, digestB, digestC]) :
    (crowded bytes).scene.size (digest ++ ".json".toList) = bytes.length :=
  @size_stored Bool Unit _ _ _ 0 nodup_crowded (List.nodup_singleton digestC) kind_crowded
    (x := (digest, .holding bytes 0)) (List.mem_map_of_mem h)

lemma distinct_crowded : (crowded bytes).scene.Distinct :=
  @World.distinct_of Bool Unit _ _ 0

lemma find_crowded : (crowded bytes).scene.find (lockPath digestC) = some (8, { Node.holding [] 0 with mode := 0 }) :=
  rfl

lemma file_crowded {b : Bool} {g : ℕ} {o : Open} (h : (crowded bytes).scene.files b g = some o) :
    o = .holding (lockPath digestC) 8 0 .key := by
  rcases ((World.files_setFile_eq_some _ _ _ _).mp h) with ⟨-, heq⟩ | ⟨-, hnone⟩
  · exact (Option.some_inj.mp heq).symm
  · cases hnone

/-- Only the key of the last entry is held. -/
lemma taken_crowded : (crowded bytes).scene.Taken path ↔ path = lockPath digestC := by
  constructor
  · rintro ⟨i, node, b, g, o, hpath, ho, rfl, -⟩
    rw [file_crowded ho] at hpath
    exact distinct_crowded (Or.inr (Or.inr (childOf_lockPath _))) find_crowded hpath
  · rintro rfl
    refine ⟨8, _, true, 0, .holding (lockPath digestC) 8 0 .key, find_crowded, ?_, rfl, by simp [Open.holding]⟩
    exact Scene.files_setFile_self (v := (World.of _ 0 : World Bool Unit).scene) _

lemma digestOf_entry (h : isDigest digest = true) : digestOf (digest ++ ".json".toList) = digest := by
  rw [digestOf, show entryDigest (entries ++ [digest ++ ".json".toList]) = some digest from entryDigest_eq_some.mpr ⟨rfl, h⟩]
  rfl

lemma held_crowded (h : digest ∈ [digestA, digestB, digestC]) :
    (crowded bytes).scene.Held (digest ++ ".json".toList) ↔ digest = digestC := by
  rw [Scene.Held, digestOf_entry (digests_crowded digest h), taken_crowded]
  simp [lockPath]

lemma fit_crowded : (crowded bytes).scene.Fit :=
  (fit_rootWith (A := Bool) (V := Unit) (extra_stored nodup_crowded (List.nodup_singleton digestC) kind_crowded)).setFile _

lemma plain_crowded : (crowded bytes).scene.Plain :=
  @plain_rootWith Bool Unit _ 0 _ (extra_stored nodup_crowded (List.nodup_singleton digestC) kind_crowded)

lemma shareable_crowded : (crowded bytes).scene.Shareable := by
  intro i node b g o hfind ho hino _
  rw [file_crowded ho] at hino
  subst hino
  exact absurd (distinct_crowded (Or.inl rfl) hfind find_crowded) (by decide)

/-- The prune removes the first two entries. -/
lemma removed_crowded {order : List Name} (hbytes : bytes ≠ []) (h : (crowded bytes).scene.Lists entries order) :
    ((crowded bytes).scene.removed Serde.unit.codec tight order).Perm
      ([digestA, digestB].map fun digest => digest ++ ".json".toList) := by
  have hplain : (crowded bytes).scene.Plain := plain_crowded
  have hnames := (Scene.entries_entriesOf h).perm entries_crowded
  refine (List.perm_ext_iff_of_nodup (Scene.removed_nodup hplain h) (by decide)).mpr fun name => ?_
  constructor
  · intro hname
    have hmem := hnames.mem_iff.mp (Scene.removed_subset hplain h hname)
    obtain ⟨digest, hd, rfl⟩ := List.mem_map.mp hmem
    have hnot : digest ≠ digestC := fun heq => Scene.not_mem_removed hplain h ((held_crowded hd).mpr heq) hname
    refine List.mem_map_of_mem ?_
    simpa [hnot] using hd
  · intro hname
    obtain ⟨digest, hd, rfl⟩ := List.mem_map.mp hname
    have hall : digest ∈ [digestA, digestB, digestC] := by
      simp only [List.mem_cons, List.not_mem_nil, or_false] at hd ⊢
      exact hd.imp_right Or.inl
    have hnot : digest ≠ digestC := by
      rintro rfl
      revert hd
      decide
    refine List.mem_append_left _ (List.mem_append_left _ (Scene.mem_expired.mpr ⟨hnames.mem_iff.mpr (List.mem_map_of_mem hall),
      (held_crowded hall).not.mpr hnot, Or.inl ?_⟩))
    rw [size_crowded hall]
    exact List.length_pos_of_ne_nil hbytes

/-- Both counts of bytes after a prune of a crowded root. -/
lemma prune_crowded (hbytes : bytes ≠ []) :
    (∃ r w', (prune Serde.unit.codec tight .skip : M Unit Prune).Ends (machine Bool Unit (fun _ => False) fun _ _ => True) false
      (crowded bytes) r w') ∧
    ∀ r w', (prune Serde.unit.codec tight .skip : M Unit Prune).Ends (machine Bool Unit (fun _ => False) fun _ _ => True) false
      (crowded bytes) r w' → ∃ result, r = .ok result ∧ result.afterBytes = min (3 * bytes.length) u64Max - 2 * bytes.length ∧
        ∀ left, w'.scene.Entries left → (w'.scene.usage left).bytes = bytes.length := by
  have hfree : ¬(crowded bytes).scene.Taken pruneLock := by
    rw [taken_crowded]
    exact fun heq => absurd (heq ▸ childOf_lockPath digestC : ChildOf locks pruneLock) (by rintro ⟨n, hn⟩; simp [pruneLock, locks] at hn)
  obtain ⟨hrun, hends⟩ := (does_prune (a := false)
    (fit_crowded) distinct_crowded shareable_crowded hfree fun _ => trivial).ends
  refine ⟨hrun, fun r w' hr => ?_⟩
  obtain ⟨result, rfl, order, names, i, node, horder, -, -, rfl, hsees⟩ := hends r w' hr
  have hplain : (crowded bytes).scene.Plain := plain_crowded
  have hremoved := removed_crowded hbytes horder
  have hsizes : ∀ {digests : List Name}, digests ⊆ [digestA, digestB, digestC] →
      ((digests.map fun digest => digest ++ ".json".toList).map (crowded bytes).scene.size).sum = digests.length * bytes.length := by
    intro digests hsub
    have hsame : ∀ digest ∈ digests, ((crowded bytes).scene.size ∘ fun digest => digest ++ ".json".toList) digest = bytes.length :=
      fun digest hd => size_crowded (hsub hd)
    rw [List.map_map, List.map_congr_left hsame]
    simp
  have hgone : (((crowded bytes).scene.removed Serde.unit.codec tight order).map (crowded bytes).scene.size).sum = 2 * bytes.length := by
    rw [(hremoved.map _).sum_eq]
    exact hsizes (by simp)
  have hbefore : ((crowded bytes).scene.usage (Scene.entriesOf order)).bytes = 3 * bytes.length := by
    rw [Scene.usage_perm ((Scene.entries_entriesOf horder).perm entries_crowded)]
    exact hsizes (List.Subset.refl _)
  refine ⟨_, rfl, ?_, fun left hleft => ?_⟩
  · classical
    obtain ⟨-, hafter, -⟩ := Scene.outcome_eq hplain horder
      (names.countP fun name => decide (¬(crowded bytes).scene.Taken (locks ++ [name])))
    rw [Usage.mk.injEq] at hafter
    rw [hafter.2, Scene.tally_lists hplain horder]
    simp only [Usage.without, hbefore]
    rw [← hgone]
    rfl
  · rw [hsees.scene] at hleft ⊢
    rw [Scene.usage_perm (hleft.perm (Scene.entries_pruned hplain horder)), Scene.usage_pruned hplain horder]
    simp only [Usage.without, hbefore, hgone]
    omega

end

/-- The sizes of the entries add up to more than a `u64` holds, and the bytes that a prune says are left are not those
of the file that is left. -/
theorem prune_miscounts :
    (∃ r w', (prune Serde.unit.codec tight .skip : M Unit Prune).Ends (machine Bool Unit (fun _ => False) fun _ _ => True) false
      (crowded (List.replicate (2 ^ 63 - 1) 0)) r w') ∧
    ∀ r w', (prune Serde.unit.codec tight .skip : M Unit Prune).Ends (machine Bool Unit (fun _ => False) fun _ _ => True) false
      (crowded (List.replicate (2 ^ 63 - 1) 0)) r w' → ∃ result, r = .ok result ∧ result.afterBytes = 1 ∧
        ∀ left, w'.scene.Entries left → (w'.scene.usage left).bytes = 2 ^ 63 - 1 := by
  have hlength : (List.replicate (2 ^ 63 - 1) (0 : UInt8)).length = 2 ^ 63 - 1 := List.length_replicate
  generalize List.replicate (2 ^ 63 - 1) (0 : UInt8) = bytes at hlength ⊢
  have hne : bytes ≠ [] := by
    rintro rfl
    simp at hlength
  obtain ⟨hrun, hends⟩ := prune_crowded hne
  refine ⟨hrun, fun r w' hr => ?_⟩
  obtain ⟨result, hresult, hafter, hleft⟩ := hends r w' hr
  rw [hlength] at hafter
  exact ⟨result, hresult, hafter, fun left h => hlength ▸ hleft left h⟩

end Unixd.Cache
