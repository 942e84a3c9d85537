import Unixd.Cache.Served

/-!
# The age of entries

An entry says when it was stored, and its file when it was last used. A lookup reads the clock and sets the time of
use later, through the path; what keeps the second time from falling behind the first is that no store puts a newer
entry there in between.
-/

namespace Unixd.Cache

open Unixd.Lib

set_option linter.unusedSectionVars false

section

variable {A V : Type} {σ : Setting A V} {w w' : World A V} {b : A} {digest : Name} {i n ms : ℕ} {node : Node}

/-- No entry looks older than it says it is. -/
def World.Aged (born : Bytes → Option ℕ) (w : World A V) : Prop :=
  ∀ digest i n, isDigest digest = true → w.names (entryPath digest) = some i → born (w.nodes i).bytes = some n →
    n ≤ modifiedMs ((w.nodes i).metadata i)

/-- Since `a` read the time `ms`, a store of `digest` read a later one and put its file in place. -/
def Overtaken (born : Bytes → Option ℕ) (journal : List (Event A V)) (a : A) (digest : Name) (ms : ℕ) : Prop :=
  ∃ before since b src bytes after n, journal = before ++ ⟨a, .clock ms⟩ :: since ++ ⟨b, .renamed src (entryPath digest) bytes⟩ :: after ∧
    ⟨b, .clock n⟩ ∈ since ∧ born bytes = some n ∧ ms < n ∧ ∀ e ∈ after, ¬e.what.Replaces digest

lemma le_modifiedMs (h : millisecond n ≤ node.modified) (hn : n ≤ u64Max) : n ≤ modifiedMs (node.metadata i) := by
  have hle : (n : ℤ) * 1000000 ≤ node.modified := h
  have hpos : ¬(node.metadata i).modified < 0 := by
    change ¬node.modified < 0
    omega
  rw [modifiedMs, if_neg hpos]
  refine Nat.le_min.mpr ⟨?_, hn⟩
  rw [Nat.le_div_iff_mul_le (by omega)]
  change n * 1000000 ≤ node.modified.toNat
  omega

variable [DecidableEq A] {faults : Op V → Prop} {op : Op V} {r : op.Ret}

/-- What the path of an entry names after a call was there before, or was just renamed. -/
lemma Sem.placed (hi : Core σ w) (hallowed : Allowed σ b op w) (h : Sem faults b op w r w') (hd : isDigest digest = true)
    (hname : w'.names (entryPath digest) = some i) : w.names (entryPath digest) = some i ∨
      w'.nodes = w.nodes ∧ ∃ f o, op = .persist f (entryPath digest) ∧ w.files b f = some o ∧ o.ino = i ∧
        ∀ written, o.temp = some written → written = (w.nodes i).bytes := by
  have hset : ∀ {p : Path} {x : Option ℕ}, (p = entryPath digest → x = none) →
      Function.update w.names p x (entryPath digest) = some i → w.names (entryPath digest) = some i := by
    intro p x hp hnamed
    by_cases heq : entryPath digest = p
    · rw [heq, Function.update_self, hp heq.symm] at hnamed
      cases hnamed
    · rwa [Function.update_of_ne heq] at hnamed
  have hchild := childOf_entryPath digest
  cases h with
  | createLock hnone dir free new =>
    refine Or.inl (hset (fun heq => ?_) hname)
    rcases hallowed with hpath | hpath | ⟨hlock, -⟩
    · exact absurd (heq.symm.trans hpath) (hchild.ne (by decide))
    · exact absurd (heq.symm.trans hpath) (hchild.ne (by decide))
    · exact absurd (heq ▸ hlock) hchild.not_locks
  | mkdir hnone dir free =>
    refine Or.inl (hset (fun heq => ?_) hname)
    rcases hallowed with hpath | hpath
    · exact absurd (heq.symm.trans hpath) (hchild.ne (by decide))
    · exact absurd (heq.symm.trans hpath) (hchild.ne (by decide))
  | tempfile hnone isDir free new =>
    obtain ⟨digest', hd', rfl, rfl, rfl, -⟩ := hallowed
    refine Or.inl (hset (fun heq => ?_) hname)
    have htemp : isTemporary (entryPath digest) = true := TemporaryOf.isTemporary ⟨_, heq.symm⟩
    rw [not_temporary_of_entryDigest hchild (entryDigest_entryPath hd)] at htemp
    cases htemp
  | release h held => exact Or.inl (hset (fun _ => rfl) hname)
  | unlink h kind => exact Or.inl (hset (fun _ => rfl) hname)
  | dropTemp h temp => exact Or.inl (hset (fun _ => rfl) hname)
  | @removeTree path why _ h =>
    by_cases hp : path <+: entryPath digest
    · simp [World.dropTree, hp] at hname
    · exact Or.inl (by simpa [World.dropTree, hp] using hname)
  | @persist f dst o j written _ h temp src file =>
    obtain ⟨-, -, written', digest', -, -, hof, rfl, -⟩ := hallowed o h
    obtain ⟨hpath, -, -, hbytes, -⟩ := (hi.file h).temp temp
    obtain rfl : o.ino = j := by simpa [hpath] using src
    by_cases heq : entryPath digest = entryPath digest'
    · obtain rfl : o.ino = i := by simpa [heq] using hname
      refine Or.inr ⟨rfl, f, o, by rw [heq], h, rfl, fun written'' htemp => ?_⟩
      rw [temp, Option.some_inj] at htemp
      exact htemp.symm.trans hbytes.symm
    · change Function.update (Function.update w.names o.path none) _ _ _ = _ at hname
      rw [Function.update_of_ne heq] at hname
      exact Or.inl (hset (fun _ => rfl) hname)
  | _ => exact Or.inl hname

/-- A call keeps the entries from looking older than they are, unless it sets a time of use that is too early. -/
lemma Sem.keeps_aged (hi : Core σ w) (hallowed : Allowed σ b op w) (h : Sem faults b op w r w') (hforward : σ.forward) (haged : w.Aged σ.born)
    (hborn : ∀ bytes n, σ.born bytes = some n → n ≤ u64Max)
    (hset : ∀ f ms o digest n, op = .setModified f ms → w.files b f = some o → o.temp = none → isDigest digest = true →
      w.names (entryPath digest) = some o.ino → σ.born (w.nodes o.ino).bytes = some n → n ≤ ms) : w'.Aged σ.born := by
  intro digest i n hd hname hn
  rcases h.placed hi hallowed hd hname with hold | ⟨hnodes, f, o, rfl, ho, rfl, hbytes⟩
  · have htemp : ∀ {f o}, w.files b f = some o → o.temp ≠ none → o.ino ≠ i := by
      rintro f o ho hne rfl
      obtain ⟨written, ht⟩ := Option.ne_none_iff_exists'.mp hne
      obtain ⟨-, honly, -, -, -, digest', hd', hof, -⟩ := (hi.file ho).temp ht
      have htemporary := hof.isTemporary
      rw [← honly _ hold, not_temporary_of_entryDigest (childOf_entryPath digest) (entryDigest_entryPath hd)] at htemporary
      cases htemporary
    have hfree : ¬w.Free i := fun hfree => hfree.1 _ hold
    have hsame : (w'.nodes i).bytes = (w.nodes i).bytes := by
      rcases h.bytes i with hf | hsame | ⟨f, o, ho, hne, hino⟩
      · exact absurd hf hfree
      · exact hsame
      · exact absurd hino (htemp ho hne)
    rw [hsame] at hn
    have hle := haged digest i n hd hold hn
    rcases h.modified i with hf | hmodified | ⟨f, o, ho, rfl, hne | ⟨ms, rfl, rfl⟩⟩
    · exact absurd hf hfree
    · have hms : modifiedMs ((w'.nodes i).metadata i) = modifiedMs ((w.nodes i).metadata i) := by
        unfold modifiedMs
        rw [show ((w'.nodes i).metadata i).modified = ((w.nodes i).metadata i).modified from hmodified]
      exact hms ▸ hle
    · exact absurd rfl (htemp ho hne)
    · have hplain : o.temp = none := by
        by_contra hne
        exact htemp ho hne rfl
      have hms := hset f ms o digest n rfl ho hplain hd hold hn
      refine le_modifiedMs ?_ (hborn _ _ hn)
      simp only [World.setNode, Function.update_self, millisecond]
      omega
  · obtain ⟨-, -, written, digest', htemp, -, -, -, -, hmodified⟩ := hallowed o ho
    rw [hnodes] at hn ⊢
    obtain rfl := hbytes _ htemp
    exact le_modifiedMs (hmodified hforward n hn) (hborn _ _ hn)

/-- Of two times in the journal the later one is not less. -/
lemma Timely.le_of_append (h : Timely w) {before after : List (Event A V)} {e d : Event A V} {m : ℕ} (hj : w.journal = before ++ e :: after)
    (he : e.what.time = some n) (hd : d ∈ after) (hm : d.what.time = some m) : n ≤ m := by
  have hsorted := h.sorted
  have hcons : (e :: after).filterMap (fun e => e.what.time) = n :: after.filterMap fun e => e.what.time := List.filterMap_cons_some he
  rw [hj, List.filterMap_append, hcons, List.pairwise_append] at hsorted
  exact (List.pairwise_cons.mp hsorted.2.1).1 m (List.mem_filterMap.mpr ⟨d, hd, hm⟩)

end

lemma Scene.AtRest.later {A V : Type} [DecidableEq A] {w : World A V} {clock : ℕ} (h : w.scene.AtRest) : (w.setClock clock).scene.AtRest :=
  ⟨⟨h.fit.root, h.fit.entries, h.fit.locks, h.fit.regular, h.fit.maintenance, h.fit.pruning⟩, h.distinct, h.closed⟩

namespace Rules

variable {ι : Type} {T : ι → Type} {A : Type} [DecidableEq A] {R : Rules A ι T} {s t : State A ι T} {a : A} {digest : Name} {n ms : ℕ}

/-- The next call of `a` sets the time of use of an entry that it was overtaken at. -/
def Overtakes (R : Rules A ι T) (s : State A ι T) (a : A) : Prop :=
  ∃ f ms next o digest, s.progs a = some (.call (.setModified f ms) next) ∧ s.world.files a f = some o ∧ o.temp = none ∧
    isDigest digest = true ∧ s.world.names (entryPath digest) = some o.ino ∧ Overtaken R.setting.born s.world.journal a digest ms

/-- The entries that are there were stored in the past, and none looks older than it is. -/
def Past (R : Rules A ι T) (s : State A ι T) : Prop :=
  s.world.Aged R.setting.born ∧
    ∀ digest kind bytes n, R.start digest = some (kind, bytes) → R.setting.born bytes = some n → n ≤ s.world.clock

/-- The runs in which no lookup is overtaken. -/
noncomputable def undisturbed (R : Rules A ι T) : System (State A ι T) (Pool.Label A) :=
  R.system.restrict R.Past fun s l => ∀ a, l = .call a → ¬R.Overtakes s a

lemma born_le {bytes : Bytes} (h : R.setting.born bytes = some n) : n ≤ u64Max := by
  obtain ⟨header, hheader, rfl⟩ := Option.map_eq_some_iff.mp h
  have hlt := (headerOfBytes_fits hheader).stored
  unfold u64Max
  omega

/-- An entry that says a later time than a lookup read has overtaken it. -/
lemma overtaken_of_lt (h : R.system.Reachable s) (hforward : R.setting.forward) (hd : isDigest digest = true) {i : ℕ}
    (hstart : ∀ kind bytes n, R.start digest = some (kind, bytes) → R.setting.born bytes = some n →
      ∀ e ∈ s.world.journal, ∀ m, e.what.time = some m → n ≤ m)
    (hname : s.world.names (entryPath digest) = some i) (hn : R.setting.born (s.world.nodes i).bytes = some n)
    (hread : ⟨a, .clock ms⟩ ∈ s.world.journal) (hlt : ms < n) : Overtaken R.setting.born s.world.journal a digest ms := by
  have hcontent : contents R.start s.world.journal digest = some ((s.world.nodes i).kind, (s.world.nodes i).bytes) := by
    refine ((inv h).content hd).symm.trans ?_
    rw [World.content, hname]
    rfl
  rcases contents_eq_some hcontent with ⟨hstored, -⟩ | ⟨pre, b, src, bytes, post, hj, hx, hnone⟩
  · exact absurd (hstart _ _ n hstored hn _ hread ms rfl) (Nat.not_le.mpr hlt)
  · have hbytes : (s.world.nodes i).bytes = bytes := (Prod.mk.inj hx).2
    rw [hbytes] at hn
    obtain ⟨p, t₀, j, inner, key, value, policy, now, ⟨rest, rfl, -, hclocked⟩, -, -, hencode, -⟩ := (inv h).said hj trivial
    have hborn := congrArg (Option.map Header.storedAtMs) (Serde.header_encode hencode (fits_at hclocked.2))
    obtain rfl : now = n := Option.some_inj.mp (hborn.symm.trans hn)
    obtain ⟨u, v, rfl⟩ := List.append_of_mem hclocked.1
    -- The lookup read the clock before the store did.
    have hsplit : s.world.journal = (p ++ ⟨b, .noted (.storing j inner key value policy) t₀⟩ :: u) ++ ⟨b, .clock now⟩ ::
        (v ++ ⟨b, .renamed src (entryPath digest) bytes⟩ :: post) := by
      rw [hj]
      simp only [List.append_assoc, List.cons_append]
    have hbefore : (⟨a, .clock ms⟩ : Event A (Note ι T)) ∈ p ++ ⟨b, .noted (.storing j inner key value policy) t₀⟩ :: u := by
      rw [hsplit, List.mem_append, List.mem_cons] at hread
      rcases hread with hmem | heq | hmem
      · exact hmem
      · cases heq
        exact absurd hlt (Nat.lt_irrefl _)
      · exact absurd (((inv h).timely hforward).le_of_append hsplit rfl hmem rfl) (Nat.not_le.mpr hlt)
    obtain ⟨before, since, hbefore⟩ := List.append_of_mem hbefore
    refine ⟨before, since ++ ⟨b, .clock now⟩ :: v, b, src, bytes, post, now, ?_, by simp, hn, hlt, hnone⟩
    rw [hsplit, hbefore]
    simp only [List.append_assoc, List.cons_append]

/-- All times that were read are after the start. -/
def After (w : World A (Note ι T)) (c : ℕ) : Prop :=
  c ≤ w.clock ∧ ∀ e ∈ w.journal, ∀ m, e.what.time = some m → c ≤ m

lemma clock_le_of_step (hforward : R.setting.forward) {l : Pool.Label A} (hstep : R.system.step s l t) : s.world.clock ≤ t.world.clock := by
  cases hstep with
  | call ha sem => exact Nat.le_of_eq sem.clock.symm
  | turn ha => exact Nat.le_refl _
  | env he =>
    obtain ⟨clock, -, htick, rfl⟩ := he
    exact hforward htick
  | kill dead progs hdead halive => exact Nat.le_refl _

lemma After.step {c : ℕ} (h : After s.world c) (hforward : R.setting.forward) {l : Pool.Label A} (hstep : R.system.step s l t) :
    After t.world c := by
  refine ⟨h.1.trans (clock_le_of_step hforward hstep), ?_⟩
  cases hstep with
  | @call a op next r w ha sem =>
    intro e he m hm
    cases sem with
    | now =>
      rcases List.mem_append.mp he with hmem | hmem
      · exact h.2 e hmem m hm
      · obtain rfl := List.mem_singleton.mp hmem
        exact Option.some_inj.mp hm ▸ h.1
    | note =>
      rcases List.mem_append.mp he with hmem | hmem
      · exact h.2 e hmem m hm
      · obtain rfl := List.mem_singleton.mp hmem
        exact Option.some_inj.mp hm ▸ h.1
    | _ =>
      first
        | exact h.2 e he m hm
        | rcases List.mem_append.mp he with hmem | hmem
          · exact h.2 e hmem m hm
          · obtain rfl := List.mem_singleton.mp hmem
            cases hm
  | turn ha => exact h.2
  | @env w he =>
    obtain ⟨clock, -, -, rfl⟩ := he
    exact h.2
  | kill dead progs hdead halive =>
    intro e he m hm
    change e ∈ (World.kill dead s.world).journal at he
    rcases World.journal_kill dead s.world with ⟨-, hj⟩ | ⟨b, -, hj⟩
    · exact h.2 e (hj ▸ he) m hm
    · rw [hj] at he
      rcases List.mem_append.mp he with hmem | hmem
      · exact h.2 e hmem m hm
      · obtain rfl := List.mem_singleton.mp hmem
        cases hm

/-- While the clock stands still nobody is overtaken. -/
lemma undisturbed_of_clock (hforward : R.setting.forward) (hpast : ∀ s, R.Starts s → R.Past s) (h : R.system.Reachable s)
    (hclock : s.world.clock = 0) : R.undisturbed.Reachable s := by
  obtain ⟨s₀, ls, hs₀, hrun⟩ := h
  refine ⟨s₀, ls, ⟨hs₀, hpast s₀ hs₀⟩, ?_⟩
  induction hrun with
  | nil => exact .nil _
  | @snoc t u ls l hrun hstep ih =>
    have hzero : t.world.clock = 0 := Nat.le_zero.mp (hclock ▸ clock_le_of_step hforward hstep)
    refine (ih hzero).snoc ⟨hstep, ?_⟩
    rintro a - ⟨f, ms, next, o, digest, -, -, -, -, -, before, since, b, src, bytes, after, n, hj, hn, -, hlt, -⟩
    have hreach : R.system.Reachable t := ⟨s₀, ls, hs₀, hrun⟩
    have hle := ((inv hreach).timely hforward).past n (List.mem_filterMap.mpr ⟨⟨b, .clock n⟩, by rw [hj]; simp [hn], rfl⟩)
    omega

section

variable {ι : Type} {T : ι → Type} {A : Type} [DecidableEq A] {R : Rules A ι T} {s : State A ι T} {a : A} {i : ι} {inner inner' : Inner}
  {key : Key} {locked : Bool} {n : ℕ} {value : T i} {policy : Policy} {k : ℕ} {node : Node}

/-- A lookup that hits runs to where it is to record its use. -/
lemma exec_pause (hsound : R.fails = fun _ => False) (h : R.system.Reachable s) {f : Except Error (Lookup (T i)) → M (Note ι T) Unit}
    (hprog : s.progs a = some (looking i inner key locked (read (R.codec i) inner key locked) >>= f))
    (hentries : s.world.scene.OwnDir entries) (hfind : s.world.find (entryPath key.digest) = some (k, node)) (hkind : node.kind = .file)
    (hencode : (R.codec i).encode (.at inner' key n value policy) = some node.bytes) (hn : n ≤ u64Max)
    (hvalue : (R.serde i).RoundTrips value) (hsize : node.bytes.length ≤ inner.limits.maxEntryBytes)
    (hschema : inner'.schema ≤ inner.schema) (hstale : s.world.clock ≤ staleUntil n policy)
    (hdue : millis inner.limits.touchAfter < s.world.clock - modifiedMs (node.metadata k)) :
    ∃ t g, R.system.Reachable t ∧ t.progs a = some ((touch (entryPath key.digest) s.world.clock).handle g) ∧
      (∀ b, b ≠ a → t.progs b = s.progs b) ∧ t.world.scene = s.world.scene := by
  rw [looking_handle] at hprog
  obtain ⟨t₁, ht₁, hprogs₁, hworld₁⟩ := exec_note h hprog
  have hscene₁ : t₁.world.scene = s.world.scene := by rw [hworld₁, World.scene_log]
  have hprog₁ : t₁.progs a = some ((read (R.codec i) inner key locked).handle fun result =>
      Sys.note (.looked i inner key locked result) >>= fun _ => f result) := by
    rw [hprogs₁, Function.update_self]
  have hfind₁ : t₁.world.scene.find (entryPath key.digest) = some (k, node) := hscene₁ ▸ (World.scene_find s.world _).trans hfind
  have hdir : Does R.tick a (Sees a t₁.world.scene t₁.world.plainly) (ensureDir entries : M (Note ι T) Unit) _ :=
    Does.of_solo (solo_ensureDir (hscene₁ ▸ hentries))
  obtain ⟨t₂, _, ht₂, hprogs₂, hsees₂⟩ := exec hsound ht₁
    (hprog₁.trans (congrArg some (Prog.handle_handle (ensureDir entries) _ _))) hdir (t₁.world.sees_plainly a)
  have hprog₂ := (congrFun hprogs₂ a).trans ((Function.update_self _ _ _).trans
    (congrArg some (Prog.handle_handle (readFile (entryPath key.digest) inner.limits.maxEntryBytes) _ _)))
  have hread : Does R.tick a (Sees a t₁.world.scene t₁.world.plainly)
      (readFile (entryPath key.digest) inner.limits.maxEntryBytes : M (Note ι T) _) _ :=
    Lone.mono (solo_readFile hfind₁ hkind inner.limits.maxEntry) (fun _ => id) (fun _ _ => id)
      fun e w hw => hw.2.elim fun _ hf => hf.1.elim fun _ hop => hop.1
  obtain ⟨t₃, found, ht₃, hprogs₃, hfound, hsees₃⟩ := exec hsound ht₂ hprog₂ hread hsees₂
  rw [if_neg (Nat.not_lt.mpr hsize)] at hfound
  subst hfound
  have hprog₃ := (congrFun hprogs₃ a).trans (Function.update_self _ _ _)
  have hheader : (R.codec i).header node.bytes = some (Written.at inner' key n value policy).header := Serde.header_encode hencode (fits_at hn)
  have hnewer : ¬inner.schema < (Written.at inner' key n value policy).header.schema := Nat.not_lt.mpr hschema
  have hbad : ¬(¬(Written.at inner' key n value policy).header.consistent = true ∨ (Written.at inner' key n value policy).header.digest ≠ key.digest ∨
      (Written.at inner' key n value policy).header.space ≠ key.space) := by
    rw [consistent_at hn]
    exact not_or.mpr ⟨fun h => h rfl, not_or.mpr ⟨fun h => h rfl, fun h => h rfl⟩⟩
  simp only [hheader, if_neg hnewer, if_neg hbad] at hprog₃
  have hnow : Does R.tick a (Sees a t₁.world.scene t₁.world.plainly) (Sys.now : M (Note ι T) ℕ) _ := solo_now
  obtain ⟨t₄, now, ht₄, hprogs₄, rfl, hsees₄⟩ := exec hsound ht₃ (hprog₃.trans (congrArg some (Prog.handle_handle Sys.now _ _))) hnow hsees₃
  have hclock : t₁.world.scene.clock = s.world.clock := by rw [hscene₁]; rfl
  have hlate : ¬(Written.at inner' key n value policy).header.staleUntilMs < s.world.clock := Nat.not_lt.mpr hstale
  obtain ⟨json, hjson, -⟩ := Serde.encode_eq_some.mp hencode
  have hread' : (R.codec i).value node.bytes = some value := (Serde.value_encode hencode hjson).trans (hvalue json hjson)
  have hprog₄ := (congrFun hprogs₄ a).trans (Function.update_self _ _ _)
  simp only [hclock, if_neg hlate, hread', if_pos hdue] at hprog₄
  have hprog₅ := hprog₄.trans (congrArg some ((Prog.handle_handle (Prog.attempt (touch (entryPath key.digest) s.world.clock)) _ _).trans
    (Prog.handle_handle (touch (entryPath key.digest) s.world.clock) _ _)))
  refine ⟨t₄, _, ht₄, hprog₅, fun b hb => ?_, hsees₄.scene.trans hscene₁⟩
  rw [hprogs₄, hprogs₃, hprogs₂, hprogs₁]
  simp only [Function.update_of_ne hb]

end

/-- No key is locked on a root with entries alone. -/
lemma find_lockPath {A V : Type} [DecidableEq A] {found : List (Name × Node)} {clock : ℕ} {digest : Name} (h : Extra (stored found [])) :
    (World.of (rootWith (stored found [])) clock : World A V).find (lockPath digest) = none := by
  cases hlock : (World.of (rootWith (stored found [])) clock : World A V).find (lockPath digest) with
  | none => rfl
  | some x =>
    obtain ⟨x, hx, -⟩ := mem_extra h hlock
    rcases mem_stored.mp hx with ⟨y, -, heq⟩ | ⟨_, h, -⟩
    · have hpath : lockPath digest = entryPath y.1 := (Prod.mk.inj heq).1
      exact absurd (hpath ▸ childOf_lockPath digest) (childOf_entryPath y.1).not_locks
    · cases h

/-- Fresh for three milliseconds. -/
def awhile : Policy :=
  ⟨3000000, 0, .callerDefault⟩

lemma exists_awhile {n : ℕ} (h : n = 0 ∨ n = 2) : ∃ bytes, Serde.unit.codec.encode (.at roomy keyA n () awhile) = some bytes ∧
    bytes.length ≤ roomy.limits.maxEntryBytes := by
  have hlength : (Serde.unit.codec.encode (.at roomy keyA n () awhile)).map List.length = some 208 := by
    rcases h with rfl | rfl
    · decide +kernel
    · decide +kernel
  obtain ⟨bytes, hencode, hbytes⟩ := Option.map_eq_some_iff.mp hlength
  refine ⟨bytes, hencode, ?_⟩
  rw [hbytes]
  decide

abbrev rivals (bytes : Bytes) : Rules Bool Unit fun _ => Unit :=
  holding Bool [(digestA, .holding bytes 0)]

/-- One thread is to look up an entry, and another to store it again. -/
def meeting (bytes : Bytes) : State Bool Unit fun _ => Unit :=
  ⟨fun b => some ((if b then Session.lock keyA fun _ => .store 0 () roomy () awhile fun _ => .done
    else .lookup () roomy keyA fun _ => .done).run (rivals bytes).codec []),
      World.of (rootWith (stored [(digestA, .holding bytes 0)] [])) 1⟩

lemma starts_meeting (bytes : Bytes) : (rivals bytes).Starts (meeting bytes) := by
  refine starts_holding (by simp) (by simp [Node.holding]) (by decide) fun b p hp => ⟨_, ?_, (Option.some_inj.mp hp).symm⟩
  cases b with
  | false => exact fun _ => trivial
  | true => exact ⟨fun _ => rfl, fun _ => ⟨fun _ _ => trivial, fun _ => trivial⟩, fun _ _ => trivial, fun _ => trivial⟩

lemma past_meeting {bytes : Bytes} {s : State Bool Unit fun _ => Unit}
    (hencode : Serde.unit.codec.encode (.at roomy keyA 0 () awhile) = some bytes)
    (h : (rivals bytes).Starts s) : (rivals bytes).Past s := by
  have hborn : ∀ {digest kind bytes' n}, (rivals bytes).start digest = some (kind, bytes') →
      (rivals bytes).setting.born bytes' = some n → n = 0 := by
    intro digest kind bytes' n hstart hn
    obtain ⟨node, hnode, heq⟩ := Option.map_eq_some_iff.mp hstart
    obtain ⟨before, after, hmem, -⟩ := List.lookup_eq_some_iff.mp hnode
    have hin : (digest, node) ∈ [(digestA, Node.holding bytes 0)] := by
      rw [hmem]
      simp
    rw [List.mem_singleton, Prod.mk.injEq] at hin
    obtain ⟨rfl, rfl⟩ := hin
    obtain rfl : bytes = bytes' := (Prod.mk.inj heq).2
    have hzero := congrArg (Option.map Header.storedAtMs) (Serde.header_encode hencode (fits_at (Nat.zero_le _)))
    exact (Option.some_inj.mp (hzero.symm.trans hn)).symm
  refine ⟨fun digest i n hd hname hn => ?_, fun digest kind bytes' n hstart hn => hborn hstart hn ▸ Nat.zero_le _⟩
  have hcontent := h.content digest hd
  rw [World.content, hname] at hcontent
  exact hborn hcontent.symm hn ▸ Nat.zero_le _

theorem aged_overtaken : ∃ bytes s₀ ls s, (rivals bytes).Starts s₀ ∧
    (rivals bytes).Past s₀ ∧ (rivals bytes).system.Run s₀ ls s ∧
    ¬s.world.Aged (rivals bytes).setting.born := by
  obtain ⟨bytes, hencode, hsize⟩ := exists_awhile (Or.inl rfl)
  obtain ⟨bytes', hencode', hsize'⟩ := exists_awhile (Or.inr rfl)
  have hreach : (rivals bytes).system.Reachable (meeting bytes) := ⟨_, [], starts_meeting bytes, .nil _⟩
  have hextra := @extra_stored [(digestA, .holding bytes 0)] [] (by simp) List.nodup_nil (by simp [Node.holding])
  have hrest : (meeting bytes).world.scene.AtRest := ⟨fit_rootWith hextra, World.distinct_of, fun _ _ => rfl⟩
  have hmem : (entryPath digestA, Node.holding bytes 0) ∈ rootWith (stored [(digestA, .holding bytes 0)] []) :=
    List.mem_append_right _ (List.mem_singleton.mpr rfl)
  obtain ⟨i, hfind⟩ := @World.find_of_mem Bool (Note Unit fun _ => Unit) _ _ 1 _ _ (rootWith_nodup hextra) hmem
  have hunused : modifiedMs (Metadata.mk .file true i bytes.length 0) = 0 := show (if (0 : ℤ) < 0 then 0 else millis 0) = 0 by decide
  -- The lookup reads the clock.
  obtain ⟨t₁, g, ht₁, hprog₁, hothers, hscene₁⟩ := @exec_pause _ _ _ _ (rivals bytes) _ false () roomy roomy keyA
    false 0 () awhile i _ rfl hreach _ rfl hrest.fit.entries hfind rfl hencode (Nat.zero_le _) unit_roundTrips hsize (Nat.le_refl _)
      (show 1 ≤ staleUntil 0 awhile by decide) (show millis 0 < 1 - modifiedMs (Metadata.mk .file true i bytes.length 0) by rw [hunused]; decide)
  -- The clock moves on, and the other thread stores.
  have hclock₁ : t₁.world.clock ≤ 2 := (congrArg Scene.clock hscene₁).trans_le (show 1 ≤ 2 by decide)
  have htick : (rivals bytes).system.step t₁ .env ⟨t₁.progs, t₁.world.setClock 2⟩ :=
    .env ⟨2, by decide, hclock₁, rfl⟩
  have ht₂ := ht₁.run (.single htick)
  have hrest₂ : (t₁.world.setClock 2).scene.AtRest := (hscene₁ ▸ hrest).later
  obtain ⟨t₃, ⟨key, held, m⟩, ht₃, hprogs₃, hkey, hlocking₃, -⟩ := exec_lock (a := true) rfl ht₂ (hothers true (by simp)) hrest₂
  obtain rfl : key = keyA := hkey
  have hfind₂ : ∀ path, (t₁.world.setClock 2).scene.find path = (meeting bytes).world.find path :=
    fun path => congrArg (fun v : Scene Bool => v.find path) hscene₁
  have hmissing : (t₁.world.setClock 2).scene.find held.path = none := by
    rw [show held.path = lockPath keyA.digest from hlocking₃.holding.path, hfind₂]
    exact find_lockPath hextra
  have hfile : ∀ j x, (t₁.world.setClock 2).scene.find (entryPath keyA.digest) = some (j, x) → x.kind ≠ .dir := by
    intro j x hx
    rw [hfind₂] at hx
    obtain ⟨-, rfl⟩ := Prod.mk.inj (Option.some_inj.mp (hfind.symm.trans hx))
    exact fun hdir => by cases hdir
  obtain ⟨t₄, p, src, x, y, k, node, ht₄, hprogs₄, ⟨hfree, hkind, howned, rfl, -⟩, hscene₄, -⟩ :=
    exec_store rfl ht₃ (by rw [hprogs₃, Function.update_self]) hlocking₃ hrest₂ hmissing hfile hencode' hsize'
  -- The lookup goes on with the time that it read before.
  have hprog₄ : t₄.progs false = some ((touch (entryPath keyA.digest) 1).handle g) := by
    rw [hprogs₄, Function.update_of_ne (by simp), hprogs₃, Function.update_of_ne (by simp)]
    exact hprog₁
  have htouch := @solo_touch Bool (Note Unit fun _ => Unit) _ (fun _ => False) (rivals bytes).tick false
    t₄.world.scene t₄.world.plainly (entryPath keyA.digest) k node 1 (hscene₄ ▸ Scene.find_put_self _) hkind fun p x hp =>
      hfree.only (hscene₄ ▸ hp)
  obtain ⟨t₅, _, ht₅, -, hsees⟩ := exec rfl ht₄ hprog₄ (Does.of_solo htouch) (t₄.world.sees_plainly false)
  obtain ⟨s₀, ls, hs₀, hrun⟩ := ht₅
  refine ⟨bytes, s₀, ls, t₅, hs₀, past_meeting hencode hs₀, hrun, fun haged => ?_⟩
  have hfind₅ : t₅.world.find (entryPath keyA.digest) = some (k, { node with modified := millisecond 1 }) := by
    rw [← World.scene_find, hsees.scene]
    exact Scene.find_put_self _
  obtain ⟨hname, hnode⟩ := (World.find_eq_some _).mp hfind₅
  have hbytes := congrArg Node.bytes hnode
  have hmodified := congrArg Node.modified hnode
  change (t₅.world.nodes k).bytes = node.bytes at hbytes
  change (t₅.world.nodes k).modified = millisecond 1 at hmodified
  have hborn := congrArg (Option.map Header.storedAtMs) (Serde.header_encode hencode' (fits_at (by decide)))
  have hle := haged digestA k 2 keyA.wf hname (hbytes ▸ hborn)
  revert hle
  rw [modifiedMs]
  change ¬2 ≤ if (t₅.world.nodes k).modified < 0 then 0 else millis (t₅.world.nodes k).modified.toNat
  rw [hmodified]
  decide

end Rules

end Unixd.Cache
