import Unixd.Cache.Others
import Unixd.Lib.Total

/-!
# Triples for the calls

An agent knows its open files exactly. What else it knows must outlast the others' steps and its
own calls that take nothing away, which is what `Calm` says.
-/

namespace Unixd.Cache

open Unixd.Lib

set_option linter.unusedSectionVars false

variable {A V : Type} {σ : Setting A V} {w w' : World A V} {a : A}

/-- The open files of one agent. -/
abbrev Ledger := ℕ → Option Open

/-- `L'` has the files of `L`. -/
def Ledger.Below (L L' : Ledger) : Prop :=
  ∀ f o, L f = some o → L' f = some o

lemma Ledger.Below.refl (L : Ledger) : L.Below L :=
  fun _ _ => id

lemma Ledger.below_update {L : Ledger} {f : ℕ} (h : L f = none) (o : Open) :
    L.Below (Function.update L f (some o)) := by
  intro g o' hg
  have hne : g ≠ f := by
    rintro rfl
    simp [h] at hg
  rwa [Function.update_of_ne hne]

lemma Ledger.update_none {L : Ledger} {f : ℕ} (h : L f = none) (o : Option Open) :
    Function.update (Function.update L f o) f none = L := by
  rw [Function.update_idem, ← h, Function.update_eq_self]

/-- The events of an own step that takes nothing away. -/
def What.Mild : What V → Prop
  | .linked _ | .failed _ => True
  | _ => False

/-- An own step that takes nothing away. -/
structure Neutral (a : A) (w w' : World A V) : Prop where
  names : ∀ p, w.names p ≠ none → w'.names p = w.names p
  fresh : ∀ p, w.names p = none → ChildOf entries p → w'.names p = none
  kind : ∀ i, ¬w.Free i → (w'.nodes i).kind = (w.nodes i).kind ∧ (w'.nodes i).owned = (w.nodes i).owned
  bytes : ∀ i, ¬w.Free i → (w'.nodes i).bytes = (w.nodes i).bytes ∧ (w'.nodes i).modified = (w.nodes i).modified
  journal : w'.journal = w.journal ∨ ∃ what, w'.journal = w.journal ++ [⟨a, what⟩] ∧ what.Mild

/-- The calls whose every answer is neutral. -/
def Op.Neutral : Op V → Prop
  | .lstat _ | .fstat _ | .openLock _ | .openRead _ _ | .openDir _ | .chmod _ _ | .fchmod _ _ | .mkdir _ => True
  | .flock _ _ _ | .close _ | .hold _ _ | .fsync _ | .next _ | .read _ _ => True
  | _ => False

section

variable [DecidableEq A]

lemma Sem.neutral {op : Op V} {r : op.Ret} (h : Sem σ.fails a op w r w') (hallowed : Allowed σ a op w)
    (hop : op.Neutral) : Neutral a w w' := by
  refine ⟨?_, ?_, fun i hi => (h.kind i).resolve_left hi, ?_, ?_⟩
  · intro p hp
    have hset : ∀ {q : Path} {i : ℕ}, w.names q = none →
        Function.update w.names q (some i) p = w.names p := by
      intro q i hq
      rw [Function.update_of_ne]
      rintro rfl
      exact hp hq
    cases h with
    | createLock hq dir free new => exact hset hq
    | mkdir hq dir free => exact hset hq
    | release | releaseFails | unlink | removeTree | tempfile | persist | dropTemp => exact hop.elim
    | _ => rfl
  · intro p hp hchild
    have hset : ∀ {q : Path} {i : ℕ}, (q = p → False) → Function.update w.names q (some i) p = none := by
      intro q i hq
      rwa [Function.update_of_ne fun h => hq h.symm]
    cases h with
    | createLock hq dir free new =>
      refine hset ?_
      rintro rfl
      exact not_entry_of_lock (hallowed.imp_right fun h => h.imp_right And.left) hchild
    | mkdir hq dir free =>
      refine hset ?_
      rintro rfl
      rcases hallowed with h | h
      · exact hchild.ne (by decide) h
      · exact hchild.ne (by decide) h
    | release | releaseFails | unlink | removeTree | tempfile | persist | dropTemp => exact hop.elim
    | _ => exact hp
  · intro i hi
    have hnew : ∀ {j : ℕ} {node : Node}, w.Free j → Function.update w.nodes j node i = w.nodes i := by
      intro j node hj
      rw [Function.update_of_ne]
      rintro rfl
      exact hi hj
    have hmode : ∀ {j mode : ℕ}, (Function.update w.nodes j { w.nodes j with mode := mode } i).bytes = (w.nodes i).bytes ∧
        (Function.update w.nodes j { w.nodes j with mode := mode } i).modified = (w.nodes i).modified := by
      intro j mode
      by_cases hij : i = j
      · subst hij
        simp
      · simp [hij]
    cases h with
    | createLock hq dir free new =>
      change (Function.update w.nodes _ _ i).bytes = _ ∧ (Function.update w.nodes _ _ i).modified = _
      rw [hnew free]
      exact ⟨rfl, rfl⟩
    | mkdir hq dir free =>
      change (Function.update w.nodes _ _ i).bytes = _ ∧ (Function.update w.nodes _ _ i).modified = _
      rw [hnew free]
      exact ⟨rfl, rfl⟩
    | chmod | fchmod => exact hmode
    | tempfile | write | setModified => exact hop.elim
    | _ => exact ⟨rfl, rfl⟩
  · cases h with
    | createLock | mkdir | fault => exact Or.inr ⟨_, rfl, trivial⟩
    | release | releaseFails | unlink | removeTree | tempfile | persist | dropTemp | now | note => exact hop.elim
    | _ => exact Or.inl rfl

variable {C : (protocol σ).Scope a}

/-- An own call that takes nothing away, or that failed. -/
def OwnCall (σ : Setting A V) (a : A) (w w' : World A V) : Prop :=
  ∃ (op : Op V) (r : op.Ret), (op.Neutral ∨ w' = w.log a (.failed op)) ∧ Allowed σ a op w ∧ Sem σ.fails a op w r w'

lemma OwnCall.neutral (h : OwnCall σ a w w') : Neutral a w w' := by
  obtain ⟨op, r, hop | rfl, hallowed, hsem⟩ := h
  · exact hsem.neutral hallowed hop
  · exact ⟨fun _ _ => rfl, fun _ h _ => h, fun _ _ => ⟨rfl, rfl⟩, fun _ _ => ⟨rfl, rfl⟩, Or.inr ⟨_, rfl, trivial⟩⟩

/-- Knowledge of `a` that stays as long as `a` has the files of `L`. -/
structure Calm (C : (protocol σ).Scope a) (L : Ledger) (F : World A V → Prop) : Prop where
  other : ∀ {w w'}, Inv σ w → L.Below (w.files a) → F w → C.rely w w' → F w'
  own : ∀ {w w'}, Inv σ w → L.Below (w.files a) → F w → OwnCall σ a w w' → F w'

lemma files_of_rely (hi : Inv σ w) (h : C.rely w w') : w'.files a = w.files a := by
  have hr := C.within hi h
  clear h
  induction hr with
  | refl => rfl
  | tail _ h ih => exact (Other.files h.2).trans ih

variable {L L' : Ledger} {F G : World A V → Prop}

lemma stable_of_other {S : World A V → Prop} (h : ∀ {w w'}, Inv σ w → S w → Other σ a w w' → S w') : C.Stable S := by
  intro w w' hi hs hr
  have hwithin := C.within hi hr
  clear hr
  induction hwithin with
  | refl => exact hs
  | tail _ hstep ih => exact h hstep.1 ih hstep.2

lemma stable_and {S S' : World A V → Prop} (h : C.Stable S) (h' : C.Stable S') : C.Stable fun w => S w ∧ S' w :=
  fun w w' hi hs hr => ⟨h w w' hi hs.1 hr, h' w w' hi hs.2 hr⟩

/-- Knowledge that outlasts every step of the others, in any scope. -/
lemma Calm.of_other (hother : ∀ {w w'}, Inv σ w → L.Below (w.files a) → F w → Other σ a w w' → F w')
    (hown : ∀ {w w'}, Inv σ w → L.Below (w.files a) → F w → Neutral a w w' → F w') : Calm C L F := by
  refine ⟨fun {w w'} hi hf hF h => ?_, fun hi hf hF h => hown hi hf hF h.neutral⟩
  have hr := C.within hi h
  clear h
  have hboth : L.Below (w'.files a) ∧ F w' := by
    induction hr with
    | refl => exact ⟨hf, hF⟩
    | tail _ h ih =>
      refine ⟨?_, hother h.1 ih.1 ih.2 h.2⟩
      rw [Other.files h.2]
      exact ih.1
  exact hboth.2

lemma Calm.below (h : Calm C L F) (hL : L.Below L') : Calm C L' F :=
  ⟨fun hi hf => h.other hi fun f o ho => hf f o (hL f o ho), fun hi hf => h.own hi fun f o ho => hf f o (hL f o ho)⟩

lemma Calm.and (h : Calm C L F) (h' : Calm C L G) : Calm C L fun w => F w ∧ G w :=
  ⟨fun hi hf hs ho => ⟨h.other hi hf hs.1 ho, h'.other hi hf hs.2 ho⟩,
    fun hi hf hs hn => ⟨h.own hi hf hs.1 hn, h'.own hi hf hs.2 hn⟩⟩

lemma Calm.of_exists {ι : Type*} {F : ι → World A V → Prop} (h : ∀ i, Calm C L (F i)) :
    Calm C L fun w => ∃ i, F i w := by
  constructor
  · rintro w w' hi hf ⟨i, hs⟩ ho
    exact ⟨i, (h i).other hi hf hs ho⟩
  · rintro w w' hi hf ⟨i, hs⟩ hn
    exact ⟨i, (h i).own hi hf hs hn⟩

lemma calm_const (p : Prop) : Calm C L fun _ => p :=
  ⟨fun _ _ h _ => h, fun _ _ h _ => h⟩

lemma Calm.or (h : Calm C L F) (h' : Calm C L G) : Calm C L fun w => F w ∨ G w :=
  ⟨fun hi hf hs ho => hs.imp (h.other hi hf · ho) (h'.other hi hf · ho),
    fun hi hf hs hn => hs.imp (h.own hi hf · hn) (h'.own hi hf · hn)⟩

lemma Calm.of_imp {p : Prop} (h : Calm C L F) : Calm C L fun w => p → F w :=
  ⟨fun hi hf hF ho hp => h.other hi hf (hF hp) ho, fun hi hf hF hn hp => h.own hi hf (hF hp) hn⟩

/-- Neither a note nor a look at the clock. -/
def Op.Plain (op : Op V) : Prop :=
  (∀ v, op ≠ .note v) ∧ op ≠ .now

/-- An own call that is plain. -/
def Called (σ : Setting A V) (a : A) (w w' : World A V) : Prop :=
  ∃ (op : Op V) (r : op.Ret), op.Plain ∧ Allowed σ a op w ∧ Sem σ.fails a op w r w'

lemma OwnCall.called (h : OwnCall σ a w w') : Called σ a w w' := by
  obtain ⟨op, r, hop, hallowed, hsem⟩ := h
  refine ⟨op, r, ⟨?_, ?_⟩, hallowed, hsem⟩
  · rintro v rfl
    rcases hop with hop | rfl
    · exact hop
    · generalize hw : w.log a (.failed (.note v)) = w' at hsem
      cases hsem with
      | fault hf hr => exact hr
      | note => simpa using congrArg World.journal hw
  · rintro rfl
    rcases hop with hop | rfl
    · exact hop
    · generalize hw : w.log a (.failed .now) = w' at hsem
      cases hsem with
      | fault hf hr => exact hr
      | now => simpa using congrArg World.journal hw

/-- Knowledge that outlasts every step but an own note and an own look at the clock. -/
structure Lasting (σ : Setting A V) (a : A) (F : World A V → Prop) : Prop where
  other : ∀ {w w'}, Inv σ w → F w → Other σ a w w' → F w'
  own : ∀ {w w'}, Inv σ w → F w → Called σ a w w' → F w'

lemma Lasting.calm (h : Lasting σ a F) : Calm C L F := by
  refine ⟨?_, fun hi _ hF hcall => h.own hi hF hcall.called⟩
  intro w w' hi _ hF hr
  have hwithin := C.within hi hr
  clear hr
  induction hwithin with
  | refl => exact hF
  | tail _ hstep ih => exact h.other hstep.1 ih hstep.2

/-- What is not below the directory of lock files stays as it is. -/
structure Aside (w w' : World A V) : Prop where
  names : ∀ p : Path, p.length ≤ 2 → ¬ChildOf locks p → w'.names p = w.names p
  nodes : w'.nodes = w.nodes

/-- Knowledge that outlasts what `a` does to lock files. -/
structure Steady (C : (protocol σ).Scope a) (F : World A V → Prop) : Prop where
  calm : ∀ {L}, Calm C L F
  aside : ∀ {w w'}, Inv σ w → F w → Called σ a w w' → Aside w w' → F w'

lemma Lasting.steady (h : Lasting σ a F) : Steady C F :=
  ⟨h.calm, fun hi hF hcall _ => h.own hi hF hcall⟩

lemma Steady.and (h : Steady C F) (h' : Steady C G) : Steady C fun w => F w ∧ G w :=
  ⟨h.calm.and h'.calm, fun hi hF hcall haside => ⟨h.aside hi hF.1 hcall haside, h'.aside hi hF.2 hcall haside⟩⟩

lemma Lasting.and (h : Lasting σ a F) (h' : Lasting σ a G) : Lasting σ a fun w => F w ∧ G w :=
  ⟨fun hi hF ho => ⟨h.other hi hF.1 ho, h'.other hi hF.2 ho⟩,
    fun hi hF hcall => ⟨h.own hi hF.1 hcall, h'.own hi hF.2 hcall⟩⟩

lemma Lasting.all {ι : Type*} {F : ι → World A V → Prop} (h : ∀ i, Lasting σ a (F i)) :
    Lasting σ a fun w => ∀ i, F i w :=
  ⟨fun hi hF ho i => (h i).other hi (hF i) ho, fun hi hF hcall i => (h i).own hi (hF i) hcall⟩

lemma Lasting.of_imp {p : Prop} (h : p → Lasting σ a F) : Lasting σ a fun w => p → F w :=
  ⟨fun hi hF ho hp => (h hp).other hi (hF hp) ho, fun hi hF hcall hp => (h hp).own hi (hF hp) hcall⟩

lemma lasting_const (p : Prop) : Lasting σ a fun _ => p :=
  ⟨fun _ h _ => h, fun _ h _ => h⟩

/-- What a journal says for good. -/
lemma lasting_journal {J : List (Event A V) → Prop}
    (h : ∀ j e, (∀ v now, e ≠ ⟨a, .noted v now⟩) → (∀ now, e ≠ ⟨a, .clock now⟩) → J j → J (j ++ [e])) :
    Lasting σ a fun w => J w.journal := by
  constructor
  · intro w w' hi hJ ho
    rcases ho.journal with hj | ⟨b, what, hne, hj⟩
    · rwa [hj]
    · rw [hj]
      refine h _ _ ?_ ?_ hJ
      · rintro v now ⟨⟩
        exact hne rfl
      · rintro now ⟨⟩
        exact hne rfl
  · rintro w w' hi hJ ⟨op, r, ⟨hnote, hnow⟩, -, hsem⟩
    rcases hsem.journal with hj | ⟨what, hj⟩
    · rwa [hj]
    · rw [hj]
      refine h _ _ ?_ ?_ hJ
      · rintro v now ⟨⟩
        exact hnote v (hsem.notes hj).1
      · rintro now ⟨⟩
        exact hnow (hsem.clocks hj).1

/-- A directory at the top of the root. -/
lemma calm_ownDir {path : Path} (hp : path.length = 1) : Calm C L fun w => w.OwnDir path := by
  refine .of_other (fun hi _ hdir ho => ho.ownDir hi hp hdir) ?_
  rintro w w' hi _ ⟨i, hname, hkind, howned⟩ hn
  obtain ⟨hk, ho⟩ := hn.kind i fun hfree => hfree.1 path hname
  exact ⟨i, by rw [hn.names path (by simp [hname]), hname], by rw [hk, hkind], by rw [ho, howned]⟩

/-- The entry of a key whose lock `a` has. -/
lemma calm_contents {digest : Name} (hd : isDigest digest = true) {f : ℕ} {o : Open} (ho : L f = some o)
    (hpath : o.path = lockPath digest) (hheld : o.held ≠ none) (content : Option (Kind × Bytes)) :
    Calm C L fun w => contents σ.start w.journal digest = content := by
  obtain ⟨x, hx⟩ := Option.ne_none_iff_exists'.mp hheld
  refine .of_other ?_ ?_
  · intro w w' hi hf hc hother
    rw [hother.contents hi hd ⟨f, o, hf f o ho, hpath, hx⟩, hc]
  · rintro w w' hi _ hc hn
    rcases hn.journal with h | ⟨what, h, hmild⟩
    · rw [h, hc]
    · rw [h, contents_append, hc]
      cases what <;> first | rfl | exact hmild.elim

/-- The inode `i` has the kind, the owner and the bytes of `node`. -/
def World.Keeps (w : World A V) (i : ℕ) (node : Node) : Prop :=
  (w.nodes i).kind = node.kind ∧ (w.nodes i).owned = node.owned ∧ (w.nodes i).bytes = node.bytes

/-- The inode of an open file. -/
lemma calm_keeps {f : ℕ} {o : Open} (ho : L f = some o) (node : Node) : Calm C L fun w => w.Keeps o.ino node := by
  have hused : ∀ {w : World A V}, L.Below (w.files a) → ¬w.Free o.ino :=
    fun hf hfree => hfree.2 a f o (hf f o ho) rfl
  refine .of_other ?_ ?_
  · rintro w w' hi hf ⟨hk, hown, hb⟩ hother
    obtain ⟨hk', hown'⟩ := (hother.kind o.ino).resolve_left (hused hf)
    refine ⟨by rw [hk', hk], by rw [hown', hown], ?_⟩
    rcases (hother.bytes o.ino).resolve_left (hused hf) with hsame | ⟨b, g, o', hne, ho', ht, hino⟩
    · rw [hsame, hb]
    · obtain ⟨written, hw⟩ := Option.ne_none_iff_exists'.mp ht
      obtain ⟨-, -, -, -, hsole, -⟩ := (hi.file ho').temp hw
      exact absurd (hsole a f o (hf f o ho) hino.symm).1.symm hne
  · rintro w w' hi hf ⟨hk, hown, hb⟩ hn
    obtain ⟨hk', hown'⟩ := hn.kind o.ino (hused hf)
    exact ⟨by rw [hk', hk], by rw [hown', hown], by rw [(hn.bytes o.ino (hused hf)).1, hb]⟩

/-- The time of a temporary file, which nobody else has open. -/
lemma calm_modified {f : ℕ} {o : Open} (ho : L f = some o) (htemp : o.temp ≠ none) (modified : ℤ) :
    Calm C L fun w => (w.nodes o.ino).modified = modified := by
  have hused : ∀ {w : World A V}, L.Below (w.files a) → ¬w.Free o.ino :=
    fun hf hfree => hfree.2 a f o (hf f o ho) rfl
  refine .of_other ?_ fun hi hf hm hn => by rw [(hn.bytes o.ino (hused hf)).2, hm]
  intro w w' hi hf hm hother
  rcases (hother.modified o.ino).resolve_left (hused hf) with hsame | ⟨b, g, o', hne, ho', hino⟩
  · rw [hsame, hm]
  · obtain ⟨written, hw⟩ := Option.ne_none_iff_exists'.mp htemp
    obtain ⟨-, -, -, -, hsole, -⟩ := (hi.file (hf f o ho)).temp hw
    exact absurd (hsole b g o' ho' hino).1 hne

/-- The path that an exclusive lock was found to name. -/
lemma calm_locked {f g : ℕ} {o m : Open} (ho : L f = some o) (hlock : o.lock = some .exclusive)
    (hchild : ChildOf locks o.path) (hm : L g = some m) (hpath : m.path = maintenanceLock)
    (hshared : m.lock = some .shared) : Calm C L fun w => w.names o.path = some o.ino := by
  refine .of_other ?_ ?_
  · intro w w' hi hf hname hother
    exact hother.locked hi (hf f o ho) hlock hchild ⟨g, m, hf g m hm, hpath, hshared⟩ hname
  · intro w w' hi _ hname hn
    rw [hn.names o.path (by simp [hname]), hname]

/-- What a prune found in the place of a lock file. -/
lemma calm_irregular {path : Path} {i g h : ℕ} {m p : Open} (hchild : ChildOf locks path) (hm : L g = some m)
    (hpath : m.path = maintenanceLock) (hshared : m.lock = some .shared) (hp : L h = some p)
    (hpath' : p.path = pruneLock) (hexclusive : p.lock = some .exclusive) :
    Calm C L fun w => w.names path = some i ∧ (w.nodes i).kind ≠ .file := by
  refine .of_other ?_ ?_
  · intro w w' hi hf ⟨hname, hkind⟩ hother
    exact hother.irregular hi hchild ⟨h, p, hf h p hp, hpath', hexclusive⟩ ⟨g, m, hf g m hm, hpath, hshared⟩ hname
      hkind
  · rintro w w' hi _ ⟨hname, hkind⟩ hn
    refine ⟨by rw [hn.names path (by simp [hname]), hname], ?_⟩
    rwa [(hn.kind i fun hfree => hfree.1 path hname).1]

/-- Knowledge of the journal that the others' events and own new names do not change. -/
lemma calm_journal {F : List (Event A V) → Prop} (hother : ∀ j b what, b ≠ a → F j → F (j ++ [⟨b, what⟩]))
    (hown : ∀ j what, what.Mild → F j → F (j ++ [⟨a, what⟩])) : Calm C L fun w => F w.journal := by
  refine .of_other ?_ ?_
  · intro w w' hi _ hF ho
    rcases ho.journal with h | ⟨b, what, hne, h⟩
    · rwa [h]
    · rw [h]
      exact hother _ _ _ hne hF
  · intro w w' hi _ hF hn
    rcases hn.journal with h | ⟨what, h, hmild⟩
    · rwa [h]
    · rw [h]
      exact hown _ _ hmild hF

/-- A time that an agent has read. -/
lemma calm_read (n : ℕ) : Calm C L fun w => ⟨a, .clock n⟩ ∈ w.journal :=
  calm_journal (F := fun j => ⟨a, .clock n⟩ ∈ j) (fun _ _ _ _ => List.mem_append_left _)
    fun _ _ _ => List.mem_append_left _

/-- The open files of `a` are `L`, and `F` is known. -/
def Has (a : A) (L : Ledger) (F : World A V → Prop) (w : World A V) : Prop :=
  w.files a = L ∧ F w

lemma Calm.stable (h : Calm C L F) : C.Stable (Has a L F) := by
  rintro w w' hi ⟨hfiles, hF⟩ ho
  refine ⟨(files_of_rely hi ho).trans hfiles, h.other hi ?_ hF ho⟩
  rw [hfiles]
  exact Ledger.Below.refl L

variable {X : Error → World A V → Prop}

lemma sys_call (hF : Calm C L F) {op : Op V} {T : op.Ret → World A V → Prop}
    (hallowed : ∀ w, Inv σ w → Has a L F w → Allowed σ a op w)
    (hlive : ∀ w, Inv σ w → Has a L F w → ∃ r w', Sem σ.fails a op w r w')
    (hT : ∀ w r w', Inv σ w → Has a L F w → Inv σ w' → Sem σ.fails a op w r w' → T r w') :
    C.Runs (Has a L F) (Prog.op op) T X :=
  .op hF.stable hallowed hlive hT

lemma sys_neutral (hF : Calm C L F) {op : Op V} {T : op.Ret → World A V → Prop} (hop : op.Neutral)
    (hallowed : ∀ w, Inv σ w → Has a L F w → Allowed σ a op w)
    (hlive : ∀ w, Inv σ w → Has a L F w → ∃ r w', Sem σ.fails a op w r w')
    (hT : ∀ w r w', Inv σ w → Has a L F w → Inv σ w' → F w' → Sem σ.fails a op w r w' → T r w') :
    C.Runs (Has a L F) (Prog.op op) T X := by
  refine sys_call hF hallowed hlive fun w r w' hi h hi' hsem => hT w r w' hi h hi' ?_ hsem
  refine hF.own hi ?_ h.2 ⟨op, r, Or.inl hop, hallowed w hi h, hsem⟩
  rw [h.1]
  exact Ledger.Below.refl L

/-- What a call answers when it fails for a reason of its own. -/
def Fault {α : Type} (σ : Setting A V) (r : Except ErrorKind α) : Prop :=
  σ.faults ∧ ∃ code, r = .error (.other code)

/-- `op` has just failed for a reason of its own, where `F` held. -/
def FaultOf {α : Type} (σ : Setting A V) (a : A) (F : World A V → Prop) (op : Op V) (r : Except ErrorKind α)
    (w : World A V) : Prop :=
  (σ.fails op ∧ ∃ code, r = .error (.other code)) ∧ ∃ w₀, Inv σ w₀ ∧ F w₀ ∧ w = w₀.log a (.failed op)

lemma FaultOf.fault {α : Type} {op : Op V} {r : Except ErrorKind α} (h : FaultOf σ a F op r w) : Fault σ r :=
  ⟨⟨op, h.1.1⟩, h.1.2⟩

lemma FaultOf.faults {α : Type} {op : Op V} {r : Except ErrorKind α} (h : FaultOf σ a F op r w) : σ.faults :=
  ⟨op, h.1.1⟩

/-- What is known outlasts a call that fails. -/
lemma Calm.failed (hF : Calm C L F) {op : Op V} {r : op.Ret} (hi : Inv σ w) (h : Has a L F w)
    (hallowed : Allowed σ a op w) (hf : σ.fails op) (hr : op.IsFault r) : Has a L F (w.log a (.failed op)) := by
  refine ⟨h.1, hF.own hi ?_ h.2 ⟨op, r, Or.inr rfl, hallowed, .fault hf hr⟩⟩
  rw [h.1]
  exact Ledger.Below.refl L

lemma sys_lstat (hF : Calm C L F) {path : Path} {T : Except ErrorKind Metadata → World A V → Prop}
    (hT : ∀ w r, Inv σ w → Has a L F w → r = w.lstat path ∨ Fault σ r → T r w) :
    C.Runs (Has a L F) (Sys.lstat path) T X := by
  refine sys_neutral hF trivial (fun _ _ _ => trivial) (fun w _ _ => ⟨_, w, .lstat⟩) ?_
  intro w r w' hi h hi' hF' hsem
  cases hsem with
  | fault hf hr => exact hT _ r hi' ⟨h.1, hF'⟩ (Or.inr ⟨⟨_, hf⟩, hr⟩)
  | lstat => exact hT w _ hi h (Or.inl rfl)

lemma sys_fstat (hF : Calm C L F) {f : ℕ} {o : Open} (ho : L f = some o)
    {T : Except ErrorKind Metadata → World A V → Prop}
    (hT : ∀ w r, Inv σ w → Has a L F w → r = .ok ((w.nodes o.ino).metadata o.ino) ∨ Fault σ r → T r w) :
    C.Runs (Has a L F) (Sys.fstat f) T X := by
  refine sys_neutral hF trivial (fun _ _ _ => trivial) ?_ ?_
  · rintro w - ⟨hfiles, -⟩
    exact ⟨_, w, .fstat (show w.files a f = some o by rw [hfiles, ho])⟩
  · intro w r w' hi h hi' hF' hsem
    cases hsem with
    | fault hf hr => exact hT _ r hi' ⟨h.1, hF'⟩ (Or.inr ⟨⟨_, hf⟩, hr⟩)
    | fstat ho' =>
      rw [h.1, ho, Option.some_inj] at ho'
      subst ho'
      exact hT w _ hi h (Or.inl rfl)

lemma Has.setFile {f : ℕ} {file : Option Open} (h : Has a L F w) (hF : F (w.setFile a f file)) :
    Has a (Function.update L f file) F (w.setFile a f file) := by
  refine ⟨?_, hF⟩
  rw [World.files_setFile_self, h.1]

lemma Has.lookup {f : ℕ} {o : Open} (h : Has a L F w) (ho : L f = some o) : w.files a f = some o := by
  rw [h.1, ho]

lemma sys_openLock (hF : Calm C L F) {path : Path} {T : Except ErrorKind ℕ → World A V → Prop}
    (hallowed : ∀ w, Inv σ w → Has a L F w → Allowed σ a (.openLock path) w)
    (hok : ∀ w f i since, Inv σ w → L f = none → Has a (Function.update L f (some (.at path i since))) F w →
      w.names path = some i → (w.nodes i).kind = .file → T (.ok f) w)
    (herr : ∀ w e, Inv σ w → Has a L F w → (σ.faults ∨ (∃ i, w.names path = some i ∧ (w.nodes i).kind ≠ .file) ∨
      w.names path = none ∧ ¬w.IsDir path.dropLast) → T (.error e) w) :
    C.Runs (Has a L F) (Sys.openLock path) T X := by
  refine sys_neutral hF trivial hallowed ?_ ?_
  · intro w _ _
    obtain ⟨f, hf⟩ := w.exists_fd a
    cases hname : w.names path with
    | none =>
      by_cases hdir : w.IsDir path.dropLast
      · obtain ⟨i, hi⟩ := w.exists_free
        exact ⟨_, _, @Sem.createLock _ _ _ _ _ _ _ _ 0 _ hname hdir hi hf⟩
      · exact ⟨_, w, .openLockNoDir hname hdir⟩
    | some i =>
      by_cases hkind : (w.nodes i).kind = .file
      · exact ⟨_, _, .openLock hname hkind hf⟩
      · exact ⟨_, w, @Sem.openLockOther _ _ _ _ _ _ _ _ 0 hname hkind⟩
  · intro w r w' hi h hi' hF' hsem
    cases hsem with
    | fault hf hr =>
      obtain ⟨code, rfl⟩ := hr
      exact herr _ _ hi' ⟨h.1, hF'⟩ (Or.inl ⟨_, hf⟩)
    | openLock hname hkind new => exact hok _ _ _ _ hi' (by rw [← h.1, new]) (h.setFile hF') hname hkind
    | openLockOther hname hkind => exact herr w _ hi h (Or.inr (Or.inl ⟨_, hname, hkind⟩))
    | openLockNoDir hname hdir => exact herr w _ hi h (Or.inr (Or.inr ⟨hname, hdir⟩))
    | @createLock path i f modified _ hname hdir free new =>
      refine hok _ f i (w.journal.length + 1) hi' (by rw [← h.1, new]) ⟨?_, hF'⟩ (by simp) (by simp [Node.empty])
      rw [World.files_setFile_self, ← h.1]
      rfl

lemma sys_openRead (hF : Calm C L F) {path : Path} {follow : Bool} {T : Except ErrorKind ℕ → World A V → Prop}
    (hallowed : ∀ w, Inv σ w → Has a L F w → Allowed σ a (.openRead path follow) w)
    (hok : ∀ w f i since, Inv σ w → L f = none → Has a (Function.update L f (some (.at path i since))) F w →
      w.names path = some i → (w.nodes i).kind ≠ .symlink → T (.ok f) w)
    (herr : ∀ w e, Inv σ w → Has a L F w → (FaultOf σ a F (.openRead path follow) (.error e : Except ErrorKind ℕ) w ∨
      (∃ i, w.names path = some i ∧ ((w.nodes i).kind = .symlink ∨ (w.nodes i).kind = .special) ∧ e ≠ .notFound) ∨
      w.names path = none ∧ e = .notFound) → T (.error e) w) :
    C.Runs (Has a L F) (Sys.openRead path follow) T X := by
  refine sys_neutral hF trivial hallowed ?_ ?_
  · intro w _ _
    obtain ⟨f, hf⟩ := w.exists_fd a
    cases hname : w.names path with
    | none => exact ⟨_, w, .openReadMissing hname⟩
    | some i =>
      by_cases hkind : (w.nodes i).kind = .symlink
      · exact ⟨_, w, @Sem.openReadOther _ _ _ _ _ _ _ _ _ 0 hname (Or.inl hkind)⟩
      · exact ⟨_, _, .openRead hname hkind hf⟩
  · intro w r w' hi h hi' hF' hsem
    cases hsem with
    | fault hf hr =>
      obtain ⟨code, rfl⟩ := hr
      exact herr _ _ hi' ⟨h.1, hF'⟩ (Or.inl ⟨⟨hf, code, rfl⟩, w, hi, h.2, rfl⟩)
    | openRead hname hkind new => exact hok _ _ _ _ hi' (by rw [← h.1, new]) (h.setFile hF') hname hkind
    | openReadMissing hname => exact herr w _ hi h (Or.inr (Or.inr ⟨hname, rfl⟩))
    | openReadOther hname hkind =>
      exact herr w _ hi h (Or.inr (Or.inl ⟨_, hname, hkind, by simp⟩))
    | followed hname hkind new => exact absurd hkind ((hallowed w hi h).2 rfl _ hname)

lemma sys_openDir (hF : Calm C L F) {path : Path} {T : Except ErrorKind ℕ → World A V → Prop}
    (hpath : path = entries ∨ path = locks)
    (hok : ∀ w f i, Inv σ w → L f = none →
      Has a (Function.update L f (some (.at path i w.journal.length))) F w → w.names path = some i → T (.ok f) w)
    (herr : ∀ w e, Inv σ w → Has a L F w → (σ.faults ∨ ¬w.IsDir path) → T (.error e) w) :
    C.Runs (Has a L F) (Sys.openDir path) T X := by
  refine sys_neutral hF trivial (fun _ _ _ => hpath) ?_ ?_
  · intro w _ _
    obtain ⟨f, hf⟩ := w.exists_fd a
    cases hname : w.names path with
    | none => exact ⟨_, w, .openDirMissing hname⟩
    | some i =>
      by_cases hkind : (w.nodes i).kind = .dir
      · exact ⟨_, _, .openDir hname hkind hf⟩
      · exact ⟨_, w, @Sem.openDirOther _ _ _ _ _ _ _ _ 0 hname hkind⟩
  · intro w r w' hi h hi' hF' hsem
    cases hsem with
    | fault hf hr =>
      obtain ⟨code, rfl⟩ := hr
      exact herr _ _ hi' ⟨h.1, hF'⟩ (Or.inl ⟨_, hf⟩)
    | openDir hname hkind new => exact hok _ _ _ hi' (by rw [← h.1, new]) (h.setFile hF') hname
    | openDirMissing hname =>
      refine herr w _ hi h (Or.inr ?_)
      rintro ⟨i, hi, -⟩
      simp [hname] at hi
    | openDirOther hname hkind =>
      refine herr w _ hi h (Or.inr ?_)
      rintro ⟨i, hi, hdir⟩
      rw [hname, Option.some_inj] at hi
      exact hkind (hi ▸ hdir)

/-- A call on a name or an open file that leaves the open files as they are. -/
lemma sys_chmod (hF : Calm C L F) {path : Path} {mode : ℕ} {T : Except ErrorKind Unit → World A V → Prop}
    (hT : ∀ w r, Inv σ w → Has a L F w → (r = .ok () ∨ Fault σ r ∨ w.names path = none) → T r w) :
    C.Runs (Has a L F) (Sys.chmod path mode) T X := by
  refine sys_neutral hF trivial (fun _ _ _ => trivial) ?_ ?_
  · intro w _ _
    cases hname : w.names path with
    | none => exact ⟨_, w, .chmodMissing hname⟩
    | some i => exact ⟨_, _, .chmod hname⟩
  · intro w r w' hi h hi' hF' hsem
    cases hsem with
    | fault hf hr => exact hT _ r hi' ⟨h.1, hF'⟩ (Or.inr (Or.inl ⟨⟨_, hf⟩, hr⟩))
    | chmod hname => exact hT _ _ hi' ⟨h.1, hF'⟩ (Or.inl rfl)
    | chmodMissing hname => exact hT w _ hi' h (Or.inr (Or.inr hname))

lemma sys_fchmod (hF : Calm C L F) {f mode : ℕ} {o : Open} (ho : L f = some o)
    {T : Except ErrorKind Unit → World A V → Prop}
    (hT : ∀ w r, Inv σ w → Has a L F w → (r = .ok () ∨ Fault σ r) → T r w) :
    C.Runs (Has a L F) (Sys.fchmod f mode) T X := by
  refine sys_neutral hF trivial (fun _ _ _ => trivial) (fun w _ h => ⟨_, _, .fchmod (h.lookup ho)⟩) ?_
  intro w r w' hi h hi' hF' hsem
  cases hsem with
  | fault hf hr => exact hT _ r hi' ⟨h.1, hF'⟩ (Or.inr ⟨⟨_, hf⟩, hr⟩)
  | fchmod ho' => exact hT _ _ hi' ⟨h.1, hF'⟩ (Or.inl rfl)

lemma sys_mkdir (hF : Calm C L F) {path : Path} {T : Except ErrorKind Unit → World A V → Prop}
    (hpath : path = entries ∨ path = locks)
    (hok : ∀ w, Inv σ w → Has a L F w → w.OwnDir path → T (.ok ()) w)
    (herr : ∀ w e, Inv σ w → Has a L F w → Fault σ (.error e : Except ErrorKind Unit) ∨
      (e = .alreadyExists ∧ w.names path ≠ none) ∨ e = .notFound ∧ ¬w.IsDir path.dropLast → T (.error e) w) :
    C.Runs (Has a L F) (Sys.mkdir path) T X := by
  refine sys_neutral hF trivial (fun _ _ _ => hpath) ?_ ?_
  · intro w _ _
    cases hname : w.names path with
    | none =>
      by_cases hdir : w.IsDir path.dropLast
      · obtain ⟨i, hi⟩ := w.exists_free
        exact ⟨_, _, @Sem.mkdir _ _ _ _ _ _ _ 0 _ hname hdir hi⟩
      · exact ⟨_, w, .mkdirNoDir hname hdir⟩
    | some i => exact ⟨_, w, .mkdirExists hname⟩
  · intro w r w' hi h hi' hF' hsem
    cases hsem with
    | fault hf hr =>
      obtain ⟨code, rfl⟩ := hr
      exact herr _ _ hi' ⟨h.1, hF'⟩ (Or.inl ⟨⟨_, hf⟩, code, rfl⟩)
    | @mkdir path i modified _ hname hdir free =>
      exact hok _ hi' ⟨h.1, hF'⟩ ⟨i, by simp, by simp [Node.empty], by simp [Node.empty]⟩
    | mkdirExists hname => exact herr w _ hi h (Or.inr (Or.inl ⟨rfl, by simp [hname]⟩))
    | mkdirNoDir hname hdir => exact herr w _ hi h (Or.inr (Or.inr ⟨rfl, hdir⟩))

/-- Setting a time leaves what `G` says of the world with it. -/
lemma sys_setModified (hF : Calm C L F) {f ms : ℕ} {o : Open} {G : World A V → Prop} (ho : L f = some o)
    (hread : ∀ w, Inv σ w → F w → ⟨a, .clock ms⟩ ∈ w.journal) (hallowed : σ.reader a ∨ o.temp ≠ none ∨ o.path = pruneLock)
    (hset : ∀ w w', Inv σ w → Has a L F w → Called σ a w w' → Inv σ w' →
      w' = w.setNode o.ino { w.nodes o.ino with modified := millisecond ms } → G w')
    {T : Except ErrorKind Unit → World A V → Prop} (hok : ∀ w, Inv σ w → Has a L G w → T (.ok ()) w)
    (herr : ∀ w e, Inv σ w → Has a L F w → Fault σ (.error e : Except ErrorKind Unit) → T (.error e) w) :
    C.Runs (Has a L F) (Sys.setModified f ms) T X := by
  have hall : ∀ w, Inv σ w → Has a L F w → Allowed σ a (.setModified f ms) w := by
    refine fun w hi h => ⟨hread w hi h.2, fun o' ho' => ?_⟩
    rw [h.lookup ho, Option.some_inj] at ho'
    exact ho' ▸ hallowed
  refine sys_call hF hall (fun w _ h => ⟨_, _, .setModified (h.lookup ho)⟩) ?_
  intro w r w' hi h hi' hsem
  have hcall : Called σ a w w' := ⟨_, r, by simp [Op.Plain], hall w hi h, hsem⟩
  cases hsem with
  | fault hf hr =>
    obtain ⟨code, rfl⟩ := hr
    exact herr _ _ hi' (hF.failed hi h (hall w hi h) hf ⟨code, rfl⟩) ⟨⟨_, hf⟩, code, rfl⟩
  | setModified ho' =>
    rw [h.lookup ho, Option.some_inj] at ho'
    subst ho'
    exact hok _ hi' ⟨h.1, hset w _ hi h hcall hi' rfl⟩

lemma sys_fsync (hF : Calm C L F) {f : ℕ} {T : Except ErrorKind Unit → World A V → Prop}
    (hT : ∀ w r, Inv σ w → Has a L F w → (r = .ok () ∨ FaultOf σ a F (.fsync f) r w) → T r w) :
    C.Runs (Has a L F) (Sys.fsync f) T X := by
  refine sys_neutral hF trivial (fun _ _ _ => trivial) (fun w _ _ => ⟨_, w, .fsync⟩) ?_
  intro w r w' hi h hi' hF' hsem
  cases hsem with
  | fault hf hr => exact hT _ r hi' ⟨h.1, hF'⟩ (Or.inr ⟨⟨hf, hr⟩, w, hi, h.2, rfl⟩)
  | fsync => exact hT w _ hi h (Or.inl rfl)

lemma sys_tryLock (hF : Calm C L F) {f : ℕ} {mode : LockMode} {o : Open} (ho : L f = some o)
    (hlock : o.lock = none) {T : Except ErrorKind Unit → World A V → Prop}
    (hok : ∀ w, Inv σ w → Has a (Function.update L f (some { o with lock := some mode })) F w → T (.ok ()) w)
    (herr : ∀ w e, Inv σ w → Has a L F w → Fault σ (.error e : Except ErrorKind Unit) ∨
      e = .wouldBlock ∧ w.Conflict a f o.ino mode → T (.error e) w) :
    C.Runs (Has a L F) (Sys.flock f mode false) T X := by
  refine sys_neutral hF trivial ?_ ?_ ?_
  · intro w _ h o' ho'
    rw [h.lookup ho, Option.some_inj] at ho'
    exact ⟨ho' ▸ hlock, by simp⟩
  · intro w _ h
    by_cases hc : w.Conflict a f o.ino mode
    · exact ⟨_, w, .wouldBlock (h.lookup ho) hc⟩
    · exact ⟨_, _, .flock (h.lookup ho) hc⟩
  · intro w r w' hi h hi' hF' hsem
    cases hsem with
    | fault hf hr =>
      obtain ⟨code, rfl⟩ := hr
      exact herr _ _ hi' ⟨h.1, hF'⟩ (Or.inl ⟨⟨_, hf⟩, code, rfl⟩)
    | flock ho' free =>
      rw [h.lookup ho, Option.some_inj] at ho'
      subst ho'
      exact hok _ hi' (h.setFile hF')
    | wouldBlock ho' held =>
      rw [h.lookup ho, Option.some_inj] at ho'
      subst ho'
      exact herr w _ hi h (Or.inr ⟨rfl, held⟩)

/-- A ledger with the maintenance lock shared. -/
def Ledger.Shares (L : Ledger) : Prop :=
  ∃ g m, L g = some m ∧ m.path = maintenanceLock ∧ m.lock = some .shared

/-- A ledger with `prune.lock`. -/
def Ledger.Prunes (L : Ledger) : Prop :=
  ∃ g p, L g = some p ∧ p.path = pruneLock ∧ p.lock = some .exclusive

/-- A ledger whose every `Held` has the locks that it needs. -/
def Ledger.Backed (L : Ledger) : Prop :=
  ∀ g o by', L g = some o → o.held = some by' → L.Shares ∧ (by' = .prune → L.Prunes)

lemma Has.shares (h : Has a L F w) (hL : L.Shares) : w.Shares a := by
  obtain ⟨g, m, hm, hp, hl⟩ := hL
  exact ⟨g, m, h.lookup hm, hp, hl⟩

lemma Has.prunes (h : Has a L F w) (hL : L.Prunes) : w.Prunes a := by
  obtain ⟨g, p, hp, hpath, hl⟩ := hL
  exact ⟨g, p, h.lookup hp, hpath, hl⟩

lemma Ledger.Shares.below (h : L.Shares) (hL : L.Below L') : L'.Shares := by
  obtain ⟨g, m, hm, hp, hl⟩ := h
  exact ⟨g, m, hL g m hm, hp, hl⟩

lemma Ledger.Prunes.below (h : L.Prunes) (hL : L.Below L') : L'.Prunes := by
  obtain ⟨g, p, hp, hpath, hl⟩ := h
  exact ⟨g, p, hL g p hp, hpath, hl⟩

lemma Has.backed {f : ℕ} {o : Open} (h : Has a (Function.update L f (some o)) F w) (hnew : L f = none)
    (hheld : o.held = none) (hL : L.Backed) : w.Backed a f := by
  have hstill : ∀ {g o'}, L g = some o' → g ≠ f ∧ w.files a g = some o' := by
    intro g o' hg
    have hne : g ≠ f := by
      rintro rfl
      simp [hnew] at hg
    exact ⟨hne, by rw [h.1, Function.update_of_ne hne, hg]⟩
  intro g o' by' hg hb
  rw [h.1] at hg
  by_cases hgf : g = f
  · subst hgf
    rw [Function.update_self, Option.some_inj] at hg
    simp [← hg, hheld] at hb
  · rw [Function.update_of_ne hgf] at hg
    obtain ⟨⟨k, m, hm, hmaintenance⟩, hprunes⟩ := hL g o' by' hg hb
    refine ⟨⟨k, m, (hstill hm).1, (hstill hm).2, hmaintenance⟩, fun hp => ?_⟩
    obtain ⟨k, p, hp, hprune⟩ := hprunes hp
    exact ⟨k, p, (hstill hp).1, (hstill hp).2, hprune⟩

/-- An open file that an agent may close and be left with `L`. -/
structure Closable (σ : Setting A V) (L : Ledger) (o : Open) : Prop where
  held : o.held = none
  temp : o.temp = none
  backed : (o.path = maintenanceLock ∨ o.path = pruneLock) → o.lock ≠ none → L.Backed
  free : σ.clean → ¬ChildOf locks o.path

/-- Closing gives the open files of before, from an assertion that says why a lock file may be closed. -/
lemma sys_closeOf {S : World A V → Prop} (hS : C.Stable S) (hF : Calm C L F) {f : ℕ} {o : Open} (hnew : L f = none)
    (hheld : o.held = none) (htemp : o.temp = none)
    (hbacked : (o.path = maintenanceLock ∨ o.path = pruneLock) → o.lock ≠ none → L.Backed)
    (hhas : ∀ w, Inv σ w → S w → Has a (Function.update L f (some o)) F w)
    (hfree : ∀ w, Inv σ w → S w → σ.clean → ChildOf locks o.path →
      w.names o.path ≠ some o.ino ∨ o.lock = none ∧ (w.Locked a f o ∨ w.DiedSince o.since)) :
    C.Runs S (Sys.close f) (fun _ => Has a L F) X := by
  have hF' := hF.below (Ledger.below_update hnew o)
  have ho : Function.update L f (some o) f = some o := by simp
  have hallowed : ∀ w, Inv σ w → S w → Allowed σ a (.close f) w := by
    intro w hi hs o' ho'
    have h := hhas w hi hs
    rw [h.lookup ho, Option.some_inj] at ho'
    subst ho'
    exact ⟨hheld, htemp, fun hp hl => h.backed hnew hheld (hbacked hp hl), hfree w hi hs⟩
  refine .op hS hallowed (fun w hi hs => ⟨_, _, .close ((hhas w hi hs).lookup ho)⟩) ?_
  intro w r w' hi hs hi' hsem
  have h := hhas w hi hs
  have hFw : F w' := by
    refine hF'.own hi ?_ h.2 ⟨_, r, Or.inl trivial, hallowed w hi hs, hsem⟩
    rw [h.1]
    exact Ledger.Below.refl _
  cases hsem with
  | fault hf hr => exact hr.elim
  | close ho' =>
    have hhas' := h.setFile hFw
    rwa [Ledger.update_none hnew] at hhas'

lemma sys_close (hF : Calm C L F) {f : ℕ} {o : Open} (hnew : L f = none) (hclosable : Closable σ L o) :
    C.Runs (Has a (Function.update L f (some o)) F) (Sys.close f) (fun _ => Has a L F) X :=
  sys_closeOf (hF.below (Ledger.below_update hnew o)).stable hF hnew hclosable.held hclosable.temp hclosable.backed
    (fun _ _ h => h) fun _ _ _ hclean hchild => absurd hchild (hclosable.free hclean)

lemma sys_hold (hF : Calm C L F) {f : ℕ} {by' : HeldBy} {o : Open} (ho : L f = some o)
    (hallowed : ∀ w, Inv σ w → Has a L F w → Allowed σ a (.hold f by') w)
    {T : Unit → World A V → Prop}
    (hT : ∀ w, Inv σ w → Has a (Function.update L f (some { o with held := some by' })) F w → T () w) :
    C.Runs (Has a L F) (Sys.hold f by') T X := by
  refine sys_neutral hF trivial hallowed (fun w _ h => ⟨_, _, .hold (h.lookup ho)⟩) ?_
  intro w r w' hi h hi' hF' hsem
  cases hsem with
  | fault hf hr => exact hr.elim
  | hold ho' =>
    rw [h.lookup ho, Option.some_inj] at ho'
    subst ho'
    exact hT _ hi' (h.setFile hF')

lemma sys_read (hF : Calm C L F) {f size : ℕ} {o : Open} (ho : L f = some o)
    {T : Except ErrorKind Bytes → World A V → Prop}
    (hok : ∀ w n, Inv σ w → n ≤ size → (n = 0 → size = 0 ∨ (w.nodes o.ino).bytes.length ≤ o.pos) →
      Has a (Function.update L f (some { o with
        pos := o.pos + (((w.nodes o.ino).bytes.drop o.pos).take n).length })) F w →
      T (.ok (((w.nodes o.ino).bytes.drop o.pos).take n)) w)
    (herr : ∀ w e, Inv σ w → Has a L F w → FaultOf σ a F (.read f size) (.error e : Except ErrorKind Bytes) w →
      T (.error e) w) :
    C.Runs (Has a L F) (Sys.read f size) T X := by
  refine sys_neutral hF trivial (fun _ _ _ => trivial) ?_ ?_
  · intro w _ h
    exact ⟨_, _, .read (h.lookup ho) (Nat.le_refl size) Or.inl⟩
  · intro w r w' hi h hi' hF' hsem
    cases hsem with
    | fault hf hr =>
      obtain ⟨code, rfl⟩ := hr
      exact herr _ _ hi' ⟨h.1, hF'⟩ ⟨⟨hf, code, rfl⟩, w, hi, h.2, rfl⟩
    | read ho' le pos =>
      rw [h.lookup ho, Option.some_inj] at ho'
      subst ho'
      exact hok _ _ hi' le pos (h.setFile hF')

lemma sys_next (hF : Calm C L F) {f : ℕ} {o : Open} (ho : L f = some o)
    {T : Except ErrorKind (Option Name) → World A V → Prop}
    (hok : ∀ w name, Inv σ w → (w.names (o.path ++ [name]) ≠ none ∨ w.Touched o name) →
      (name ∈ o.seen → w.Linked o name) →
      Has a (Function.update L f (some { o with seen := name :: o.seen })) F w → T (.ok (some name)) w)
    (hend : ∀ w, Inv σ w → Has a L F w → (∀ name, w.names (o.path ++ [name]) ≠ none → ¬w.Touched o name →
      name ∈ o.seen) → T (.ok none) w)
    (herr : ∀ w e, Inv σ w → Has a L F w → Fault σ (.error e : Except ErrorKind (Option Name)) → T (.error e) w) :
    C.Runs (Has a L F) (Sys.next f) T X := by
  refine sys_neutral hF trivial (fun _ _ _ => trivial) ?_ ?_
  · intro w _ h
    by_cases hall : ∀ name, w.names (o.path ++ [name]) ≠ none → ¬w.Touched o name → name ∈ o.seen
    · exact ⟨_, w, .nextEnd (h.lookup ho) hall⟩
    · simp only [not_forall] at hall
      obtain ⟨name, hname, -, hseen⟩ := hall
      exact ⟨_, _, .next (h.lookup ho) (Or.inl hname) fun hs => absurd hs hseen⟩
  · intro w r w' hi h hi' hF' hsem
    cases hsem with
    | fault hf hr =>
      obtain ⟨code, rfl⟩ := hr
      exact herr _ _ hi' ⟨h.1, hF'⟩ ⟨⟨_, hf⟩, code, rfl⟩
    | next ho' shown once =>
      rw [h.lookup ho, Option.some_inj] at ho'
      subst ho'
      exact hok _ _ hi' shown once (h.setFile hF')
    | nextEnd ho' all =>
      rw [h.lookup ho, Option.some_inj] at ho'
      subst ho'
      exact hend w hi h all

lemma sys_now (hF : Calm C L F) {T : ℕ → World A V → Prop}
    (hT : ∀ w, Inv σ w → Has a L F w → T w.clock (w.log a (.clock w.clock))) :
    C.Runs (Has a L F) Sys.now T X := by
  refine sys_call hF (fun _ _ _ => trivial) (fun w _ _ => ⟨_, _, .now⟩) ?_
  intro w r w' hi h hi' hsem
  cases hsem with
  | fault hf hr => exact hr.elim
  | now => exact hT w hi h

end

end Unixd.Cache
