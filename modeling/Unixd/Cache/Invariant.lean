import Unixd.Cache.Protocol

/-!
# The invariant

Every allowed call, the clock and every death keep the invariant of a cache root.
-/

namespace Unixd.Cache

open Unixd.Lib

variable {A V : Type} {σ : Setting A V} {w w' : World A V} {a : A} {f : ℕ} {o : Open}

namespace World

lemma Shares.of_files (h : w.Shares a) (hfiles : w'.files a = w.files a) : w'.Shares a := by
  unfold Shares
  rwa [hfiles]

lemma Prunes.of_files (h : w.Prunes a) (hfiles : w'.files a = w.files a) : w'.Prunes a := by
  unfold Prunes
  rwa [hfiles]

lemma Holds.of_files {path : Path} {by' : HeldBy} (h : w.Holds a path by') (hfiles : w'.files a = w.files a) :
    w'.Holds a path by' := by
  unfold Holds
  rwa [hfiles]

end World

/-- A step that leaves every open file alone. -/
lemma FileOk.of_files (h : FileOk w a f o) (hfiles : w'.files = w.files)
    (hnames : (o.path = maintenanceLock ∨ o.path = pruneLock ∨ o.held ≠ none ∨ o.temp ≠ none) →
      w'.names o.path = w.names o.path)
    (hkind : (w'.nodes o.ino).kind = (w.nodes o.ino).kind)
    (hbytes : o.temp ≠ none → (w'.nodes o.ino).bytes = (w.nodes o.ino).bytes)
    (hfresh : o.temp ≠ none → ∀ q, w'.names q = some o.ino → w.names q = some o.ino) : FileOk w' a f o := by
  have hfile : w'.files a = w.files a := congrFun hfiles a
  constructor
  · rw [hfiles]
    exact h.flock
  · intro hp
    rw [hnames (hp.imp_right Or.inl)]
    exact h.pinned hp
  · rw [hkind]
    exact h.regular
  · intro by' hheld
    obtain ⟨hlock, hchild, hname, hshares, hprunes⟩ := h.held hheld
    refine ⟨hlock, hchild, ?_, hshares.of_files hfile, fun hb => (hprunes hb).of_files hfile⟩
    rw [hnames (by simp [hheld]), hname]
  · intro written htemp
    obtain ⟨hname, honly, hk, hb, hsole, digest, hdigest, hof, hholds⟩ := h.temp htemp
    have hne : o.temp ≠ none := by simp [htemp]
    rw [hnames (Or.inr (Or.inr (Or.inr hne))), hkind, hbytes hne, hfiles]
    exact ⟨hname, fun q hq => honly q (hfresh hne q hq), hk, hb, hsole, digest, hdigest, hof,
      hholds.of_files hfile⟩

lemma contents_append {start : Name → Option (Kind × Bytes)} {journal : List (Event A V)} {e : Event A V}
    {digest : Name} :
    contents start (journal ++ [e]) digest = e.what.change digest (contents start journal digest) := by
  simp [contents, List.foldl_append]

/-- One more event that was permitted. -/
lemma Core.said_append (hi : Core σ w) {e : Event A V} (hpermits : e.what.Guarded → σ.permits w.journal e.agent e.what)
    {before after : List (Event A V)} {e' : Event A V} (hsplit : w.journal ++ [e] = before ++ e' :: after)
    (hguarded : e'.what.Guarded) : σ.permits before e'.agent e'.what := by
  rcases List.eq_nil_or_concat after with rfl | ⟨after, last, rfl⟩
  · obtain ⟨rfl, hlast⟩ := List.append_inj' hsplit rfl
    obtain rfl : e = e' := by simpa using hlast
    exact hpermits hguarded
  · rw [List.concat_eq_append, ← List.cons_append, ← List.append_assoc] at hsplit
    exact hi.said (List.append_inj' hsplit rfl).1 hguarded

/-- A step that changes names and logs it. -/
lemma Core.renames (hi : Core σ w) {what : What V} (hfiles : w'.files = w.files) (hnodes : w'.nodes = w.nodes)
    (hjournal : w'.journal = w.journal ++ [⟨a, what⟩]) (hclock : w'.clock = w.clock)
    (hfresh : ∀ b f o, w.files b f = some o → o.temp ≠ none → ∀ q, w'.names q = some o.ino →
      w.names q = some o.ino)
    (hentries : w'.names entries = w.names entries)
    (hkept : ∀ b f o, w.files b f = some o → (o.path = maintenanceLock ∨ o.path = pruneLock ∨
      o.held ≠ none ∨ o.temp ≠ none) → w'.names o.path = w.names o.path)
    (hcontent : ∀ digest, isDigest digest = true →
      w'.content (entryPath digest) = contents σ.start (w.journal ++ [⟨a, what⟩]) digest)
    (hpermits : what.Guarded → σ.permits w.journal a what) : Core σ w' := by
  constructor
  · intro b f o ho
    rw [hfiles] at ho
    exact (hi.file ho).of_files hfiles (hkept b f o ho) (by rw [hnodes]) (fun _ => by rw [hnodes]) (hfresh b f o ho)
  · unfold World.OwnDir
    rw [hentries, hnodes]
    exact hi.entriesDir
  · intro digest hd
    rw [hjournal]
    exact hcontent digest hd
  · intro before e after hsplit hguarded
    rw [hjournal] at hsplit
    exact hi.said_append hpermits hsplit hguarded
  · rw [hclock]
    exact hi.clock

section

variable [DecidableEq A]

/-- A step that changes one open file. -/
lemma Core.setFile (hi : Core σ w) {file : Option Open}
    (hok : ∀ o, file = some o → FileOk (w.setFile a f file) a f o)
    (hlock : ∀ o, file = some o → o.lock ≠ none → ∀ b g o', ¬(b = a ∧ g = f) → w.files b g = some o' →
      o'.ino = o.ino → o'.lock ≠ some .exclusive)
    (hsole : ∀ o, file = some o → ∀ b g o', ¬(b = a ∧ g = f) → w.files b g = some o' → o'.ino = o.ino →
      o'.temp = none)
    (hsupport : ∀ g o' by', g ≠ f → w.files a g = some o' → o'.held = some by' →
      (w.setFile a f file).Shares a ∧ (by' = .prune → w.Prunes a → (w.setFile a f file).Prunes a))
    (hholds : ∀ g o' path, g ≠ f → w.files a g = some o' → o'.temp ≠ none → w.Holds a path .key →
      (w.setFile a f file).Holds a path .key) : Core σ (w.setFile a f file) := by
  refine ⟨?_, hi.entriesDir, hi.content, hi.said, hi.clock⟩
  intro b g o ho
  rcases (w.files_setFile_eq_some a f file).mp ho with ⟨⟨rfl, rfl⟩, hfile⟩ | ⟨hne, hw⟩
  · exact hok o hfile
  have hold := hi.file hw
  refine ⟨?_, hold.pinned, hold.regular, ?_, ?_⟩
  · intro c h o' ho' hino hexcl hlocked
    rcases (w.files_setFile_eq_some a f file).mp ho' with ⟨⟨rfl, rfl⟩, hfile⟩ | ⟨-, ho'⟩
    · exact absurd hexcl (hlock o' hfile hlocked b g o hne hw hino.symm)
    · exact hold.flock ho' hino hexcl hlocked
  · intro by' hheld
    obtain ⟨hexcl, hchild, hname, hshares, hprunes⟩ := hold.held hheld
    by_cases hb : b = a
    · subst hb
      have hg : g ≠ f := fun hg => hne ⟨rfl, hg⟩
      have hkeep := hsupport g o by' hg hw hheld
      exact ⟨hexcl, hchild, hname, hkeep.1, fun hp => hkeep.2 hp (hprunes hp)⟩
    · have hfiles := w.files_setFile_of_ne a f file hb
      exact ⟨hexcl, hchild, hname, hshares.of_files hfiles, fun hp => (hprunes hp).of_files hfiles⟩
  · intro written htemp
    obtain ⟨hname, honly, hk, hbytes, hsole', digest, hdigest, hof, hholds'⟩ := hold.temp htemp
    refine ⟨hname, honly, hk, hbytes, ?_, digest, hdigest, hof, ?_⟩
    · intro c h o' ho' hino
      rcases (w.files_setFile_eq_some a f file).mp ho' with ⟨⟨rfl, rfl⟩, hfile⟩ | ⟨-, ho'⟩
      · have hnone := hsole o' hfile b g o hne hw hino.symm
        simp [htemp] at hnone
      · exact hsole' c h o' ho' hino
    · by_cases hb : b = a
      · subst hb
        exact hholds g o _ (fun hg => hne ⟨rfl, hg⟩) hw (by simp [htemp]) hholds'
      · exact hholds'.of_files (w.files_setFile_of_ne a f file hb)

lemma World.Holds.setFile {path : Path} {by' : HeldBy} (h : w.Holds a path by') {o' : Open}
    (ho : w.files a f = some o) (hpath : o'.path = o.path) (hheld : o'.held = o.held) :
    (w.setFile a f (some o')).Holds a path by' := by
  obtain ⟨g, o₁, ho₁, hp, hl⟩ := h
  by_cases hg : g = f
  · subst hg
    obtain rfl : o = o₁ := by simpa [ho] using ho₁
    exact ⟨g, o', by simp, by rw [hpath, hp], by rw [hheld, hl]⟩
  · exact ⟨g, o₁, by simpa [hg] using ho₁, hp, hl⟩

lemma Core.close (hi : Core σ w) (ho : w.files a f = some o) (hallowed : Allowed σ a (.close f) w) :
    Core σ (w.setFile a f none) := by
  obtain ⟨hheld, htemp, hsupport, -⟩ := hallowed o ho
  have hstill : ∀ {g o'}, g ≠ f → w.files a g = some o' → (w.setFile a f none).files a g = some o' := by
    intro g o' hg h
    simpa [hg] using h
  refine hi.setFile (by simp) (by simp) (by simp) ?_ ?_
  · rintro g o' by' hg h hb
    by_cases hfree : (o.path = maintenanceLock ∨ o.path = pruneLock) ∧ o.lock ≠ none
    · obtain ⟨⟨k, m, hk, hm, hmaintenance⟩, hpruning⟩ := hsupport hfree.1 hfree.2 g o' by' h hb
      refine ⟨⟨k, m, hstill hk hm, hmaintenance⟩, fun hp _ => ?_⟩
      obtain ⟨k, p, hk, hp, hprune⟩ := hpruning hp
      exact ⟨k, p, hstill hk hp, hprune⟩
    · constructor
      · obtain ⟨-, -, -, ⟨k, o₁, h₁, hp₁, hl₁⟩, -⟩ := (hi.file h).held hb
        have hk : k ≠ f := by
          rintro rfl
          obtain rfl : o = o₁ := by simpa [ho] using h₁
          exact hfree ⟨Or.inl hp₁, by simp [hl₁]⟩
        exact ⟨k, o₁, hstill hk h₁, hp₁, hl₁⟩
      · rintro - ⟨k, o₁, h₁, hp₁, hl₁⟩
        have hk : k ≠ f := by
          rintro rfl
          obtain rfl : o = o₁ := by simpa [ho] using h₁
          exact hfree ⟨Or.inr hp₁, by simp [hl₁]⟩
        exact ⟨k, o₁, hstill hk h₁, hp₁, hl₁⟩
  · rintro g o' path hg h hsome ⟨k, o₁, h₁, hp₁, hk₁⟩
    have hk : k ≠ f := by
      rintro rfl
      obtain rfl : o = o₁ := by simpa [ho] using h₁
      simp [hheld] at hk₁
    exact ⟨k, o₁, hstill hk h₁, hp₁, hk₁⟩

/-- An open file without a lock, in a place that had none. -/
lemma Core.plain (hi : Core σ w) {o' : Open}
    (hold : ∀ o, w.files a f = some o → o.lock = none ∧ o.held = none)
    (hplain : o'.lock = none ∧ o'.held = none ∧ o'.temp = none)
    (hpinned : (o'.path = maintenanceLock ∨ o'.path = pruneLock) → w.names o'.path = some o'.ino)
    (hregular : ChildOf locks o'.path → (w.nodes o'.ino).kind = .file)
    (hsole : ∀ b g o, ¬(b = a ∧ g = f) → w.files b g = some o → o.ino = o'.ino → o.temp = none) :
    Core σ (w.setFile a f (some o')) := by
  obtain ⟨hlock, hheld, htemp⟩ := hplain
  have hstill : ∀ {g o₁}, w.files a g = some o₁ → o₁.lock ≠ none ∨ o₁.held ≠ none →
      (w.setFile a f (some o')).files a g = some o₁ := by
    intro g o₁ h hne
    have hg : g ≠ f := by
      rintro rfl
      obtain ⟨hl, hh⟩ := hold o₁ h
      simp [hl, hh] at hne
    simpa [hg] using h
  refine hi.setFile ?_ (by simp [hlock]) ?_ ?_ ?_
  · rintro o₁ heq
    obtain rfl : o' = o₁ := by simpa using heq
    exact ⟨by simp [hlock], hpinned, hregular, by simp [hheld], by simp [htemp]⟩
  · rintro o₁ heq
    obtain rfl : o' = o₁ := by simpa using heq
    exact hsole
  · rintro g o₁ by' hg h hb
    obtain ⟨-, -, -, ⟨k, o₂, h₂, hp₂, hl₂⟩, -⟩ := (hi.file h).held hb
    refine ⟨⟨k, o₂, hstill h₂ (by simp [hl₂]), hp₂, hl₂⟩, ?_⟩
    rintro - ⟨k, o₂, h₂, hp₂, hl₂⟩
    exact ⟨k, o₂, hstill h₂ (by simp [hl₂]), hp₂, hl₂⟩
  · rintro g o₁ path hg h hsome ⟨k, o₂, h₂, hp₂, hk₂⟩
    exact ⟨k, o₂, hstill h₂ (by simp [hk₂]), hp₂, hk₂⟩

/-- An open file that had no lock takes one, or stands for more than before. -/
lemma Core.grow (hi : Core σ w) {o' : Open} (ho : w.files a f = some o) (hpath : o'.path = o.path)
    (hino : o'.ino = o.ino) (hlock : o.lock = none ∨ o'.lock = o.lock)
    (hheld : o.held = none ∨ o'.held = o.held ∨ ∀ g o, w.files a g = some o → o.temp = none)
    (hfree : o'.lock ≠ none → ∀ b g o₁, ¬(b = a ∧ g = f) → w.files b g = some o₁ → o₁.ino = o.ino →
      o₁.lock ≠ some .exclusive ∧ (o'.lock = some .exclusive → o₁.lock = none))
    (hholds : ∀ by', o'.held = some by' → o'.lock = some .exclusive ∧ ChildOf locks o.path ∧
      w.names o.path = some o.ino ∧ w.Shares a ∧ (by' = .prune → w.Prunes a))
    (htemp : ∀ written, o'.temp = some written → w.names o.path = some o.ino ∧
      (∀ q, w.names q = some o.ino → q = o.path) ∧ (w.nodes o.ino).kind = .file ∧ (w.nodes o.ino).bytes = written ∧
      (∀ b g o₁, w.files b g = some o₁ → o₁.ino = o.ino → b = a ∧ g = f) ∧
      ∃ digest, isDigest digest = true ∧ TemporaryOf digest o.path ∧
        (w.setFile a f (some o')).Holds a (lockPath digest) .key) :
    Core σ (w.setFile a f (some o')) := by
  have hold := hi.file ho
  have hshares : w.Shares a → (w.setFile a f (some o')).Shares a := by
    rintro ⟨k, o₁, h₁, hp₁, hl₁⟩
    by_cases hk : k = f
    · subst hk
      obtain rfl : o = o₁ := by simpa [ho] using h₁
      refine ⟨k, o', by simp, by rw [hpath, hp₁], ?_⟩
      rcases hlock with hl | hl
      · simp [hl] at hl₁
      · rw [hl, hl₁]
    · exact ⟨k, o₁, by simpa [hk] using h₁, hp₁, hl₁⟩
  have hprunes : w.Prunes a → (w.setFile a f (some o')).Prunes a := by
    rintro ⟨k, o₁, h₁, hp₁, hl₁⟩
    by_cases hk : k = f
    · subst hk
      obtain rfl : o = o₁ := by simpa [ho] using h₁
      refine ⟨k, o', by simp, by rw [hpath, hp₁], ?_⟩
      rcases hlock with hl | hl
      · simp [hl] at hl₁
      · rw [hl, hl₁]
    · exact ⟨k, o₁, by simpa [hk] using h₁, hp₁, hl₁⟩
  have hkeeps : ∀ {path g o₂}, w.files a g = some o₂ → o₂.temp ≠ none → w.Holds a path .key →
      (w.setFile a f (some o')).Holds a path .key := by
    rintro path g o₂ h₂ ht ⟨k, o₁, h₁, hp₁, hk₁⟩
    by_cases hk : k = f
    · subst hk
      obtain rfl : o = o₁ := by simpa [ho] using h₁
      refine ⟨k, o', by simp, by rw [hpath, hp₁], ?_⟩
      rcases hheld with hl | hl | hl
      · simp [hl] at hk₁
      · rw [hl, hk₁]
      · exact absurd (hl g o₂ h₂) ht
    · exact ⟨k, o₁, by simpa [hk] using h₁, hp₁, hk₁⟩
  refine hi.setFile ?_ ?_ ?_ ?_ ?_
  · rintro o₁ heq
    obtain rfl : o' = o₁ := by simpa using heq
    refine ⟨?_, ?_, ?_, ?_, ?_⟩
    · intro b g o₁ h₁ hino₁ hexcl hlocked
      rcases (w.files_setFile_eq_some a f _).mp h₁ with ⟨heq, -⟩ | ⟨hne, h₁⟩
      · exact heq
      · exact absurd ((hfree (by simp [hexcl]) b g o₁ hne h₁ (by rw [hino₁, hino])).2 hexcl) hlocked
    · rw [hpath, hino]
      exact hold.pinned
    · rw [hpath, hino]
      exact hold.regular
    · intro by' hb
      obtain ⟨hexcl, hchild, hname, hs, hp⟩ := hholds by' hb
      exact ⟨hexcl, by rwa [hpath], by rwa [hpath, hino], hshares hs, fun h => hprunes (hp h)⟩
    · intro written ht
      obtain ⟨hname, honly, hk, hbytes, hsole, digest, hdigest, hof, hh⟩ := htemp written ht
      refine ⟨by rwa [hpath, hino], by rwa [hpath, hino], by rwa [hino], by rwa [hino], ?_, digest, hdigest, by rwa [hpath],
        hh⟩
      intro b g o₁ h₁ hino₁
      rcases (w.files_setFile_eq_some a f _).mp h₁ with ⟨heq, -⟩ | ⟨-, h₁⟩
      · exact heq
      · exact hsole b g o₁ h₁ (by rw [hino₁, hino])
  · rintro o₁ heq hlocked b g o₂ hne h₂ hino₂
    obtain rfl : o' = o₁ := by simpa using heq
    exact (hfree hlocked b g o₂ hne h₂ (by rw [hino₂, hino])).1
  · rintro o₁ heq b g o₂ hne h₂ hino₂
    obtain rfl : o' = o₁ := by simpa using heq
    by_contra hsome
    obtain ⟨written, ht⟩ := Option.ne_none_iff_exists'.mp hsome
    obtain ⟨-, -, -, -, hsole, -⟩ := (hi.file h₂).temp ht
    obtain ⟨rfl, rfl⟩ := hsole a f o ho (by rw [hino₂, hino])
    exact hne ⟨rfl, rfl⟩
  · rintro g o₂ by' hg h₂ hb
    obtain ⟨-, -, -, hs, -⟩ := (hi.file h₂).held hb
    exact ⟨hshares hs, fun _ => hprunes⟩
  · exact fun g o₂ path hg h₂ hsome hh => hkeeps h₂ hsome hh

/-- A step that keeps the lock of one open file and at most ends what it stands for. -/
lemma Core.update (hi : Core σ w) {o' : Open} (ho : w.files a f = some o) (hpath : o'.path = o.path)
    (hino : o'.ino = o.ino) (hlock : o'.lock = o.lock) (htemp : o'.temp = o.temp ∨ o'.temp = none)
    (hheld : o'.held = o.held ∨ o'.held = none ∧ ∀ g o, w.files a g = some o → o.temp = none) :
    Core σ (w.setFile a f (some o')) := by
  have hold := hi.file ho
  refine hi.grow ho hpath hino (Or.inr hlock) (Or.inr (hheld.imp_right And.right)) ?_ ?_ ?_
  · intro hlocked b g o₁ hne h₁ hino₁
    rw [hlock] at hlocked ⊢
    constructor
    · intro hexcl
      obtain ⟨rfl, rfl⟩ := (hi.file h₁).flock ho hino₁.symm hexcl hlocked
      exact hne ⟨rfl, rfl⟩
    · intro hexcl
      by_contra hl
      exact hne (hold.flock h₁ hino₁ hexcl hl)
  · intro by' hb
    have hsame : o.held = some by' := by
      rcases hheld with hh | ⟨hh, -⟩
      · rw [← hh, hb]
      · simp [hh] at hb
    obtain ⟨hexcl, hchild, hname, hshares, hprunes⟩ := hold.held hsame
    exact ⟨by rw [hlock, hexcl], hchild, hname, hshares, hprunes⟩
  · intro written ht
    have hsame : o.temp = some written := by
      rcases htemp with hh | hh
      · rw [← hh, ht]
      · simp [hh] at ht
    obtain ⟨hname, honly, hk, hbytes, hsole, digest, hdigest, hof, hholds⟩ := hold.temp hsame
    refine ⟨hname, honly, hk, hbytes, hsole, digest, hdigest, hof, ?_⟩
    rcases hheld with hh | ⟨-, hnone⟩
    · exact hholds.setFile ho hpath hh
    · simp [hnone f o ho] at hsame

end

/-- A step that changes one inode. -/
lemma Core.renode (hi : Core σ w) {i : ℕ} {node : Node}
    (hfile : ∀ b g o, w.files b g = some o → o.ino = i → node.kind = (w.nodes i).kind ∧
      (o.temp ≠ none → node.bytes = (w.nodes i).bytes))
    (hdir : w.names entries = some i → node.kind = (w.nodes i).kind ∧ node.owned = (w.nodes i).owned)
    (hcontent : ∀ digest, isDigest digest = true → w.names (entryPath digest) = some i →
      node.kind = (w.nodes i).kind ∧ node.bytes = (w.nodes i).bytes) : Core σ (w.setNode i node) := by
  refine ⟨?_, ?_, ?_, hi.said, hi.clock⟩
  · intro b g o ho
    refine (hi.file ho).of_files rfl (fun _ => rfl) ?_ ?_ fun _ _ => id
    · by_cases hino : o.ino = i
      · subst hino
        simpa using (hfile b g o ho rfl).1
      · simp [hino]
    · intro ht
      by_cases hino : o.ino = i
      · subst hino
        simpa using (hfile b g o ho rfl).2 ht
      · simp [hino]
  · obtain ⟨j, hj, hk, hown⟩ := hi.entriesDir
    refine ⟨j, hj, ?_⟩
    by_cases hji : j = i
    · subst hji
      obtain ⟨hk', hown'⟩ := hdir hj
      simp [hk', hown', hk, hown]
    · simp [hji, hk, hown]
  · intro digest hd
    rw [World.journal_setNode, ← hi.content hd]
    unfold World.content
    rw [World.names_setNode]
    cases hname : w.names (entryPath digest) with
    | none => rfl
    | some j =>
      by_cases hji : j = i
      · subst hji
        obtain ⟨hk, hb⟩ := hcontent digest hd hname
        simp [hk, hb]
      · simp [hji]

lemma Core.kill (hi : Core σ w) (dead : A → Prop) : Core σ (w.kill dead) := by
  have hfiles : ∀ {b}, ¬dead b → (w.kill dead).files b = w.files b := by
    intro b hb
    funext g
    simp [World.kill, hb]
  have hback : ∀ {b g o}, (w.kill dead).files b g = some o → ¬dead b ∧ w.files b g = some o := by
    intro b g o h
    by_cases hb : dead b
    · simp [World.kill, hb] at h
    · exact ⟨hb, by rwa [← hfiles hb]⟩
  have hfile : ∀ {b g o}, (w.kill dead).files b g = some o → FileOk (w.kill dead) b g o := by
    intro b g o ho
    obtain ⟨hb, ho⟩ := hback ho
    have hold := hi.file ho
    refine ⟨fun h => hold.flock (hback h).2, hold.pinned, hold.regular, fun h => ?_, fun h => ?_⟩
    · obtain ⟨hexcl, hchild, hname, hshares, hprunes⟩ := hold.held h
      exact ⟨hexcl, hchild, hname, hshares.of_files (hfiles hb), fun hp => (hprunes hp).of_files (hfiles hb)⟩
    · obtain ⟨hname, honly, hk, hbytes, hsole, digest, hdigest, hof, hholds⟩ := hold.temp h
      exact ⟨hname, honly, hk, hbytes, fun c k o' h' => hsole c k o' (hback h').2, digest, hdigest, hof,
        hholds.of_files (hfiles hb)⟩
  refine ⟨hfile, hi.entriesDir, fun {digest} hd => ?_, fun {before e after} hsplit hguarded => ?_, hi.clock⟩
  · change w.content (entryPath digest) = _
    rw [hi.content hd]
    rcases w.journal_kill dead with ⟨-, h⟩ | ⟨b, -, h⟩
    · rw [h]
    · rw [h, contents_append]
      rfl
  · rcases w.journal_kill dead with ⟨-, h⟩ | ⟨b, -, h⟩
    · rw [h] at hsplit
      exact hi.said hsplit hguarded
    · rw [h] at hsplit
      exact hi.said_append (by simp [What.Guarded]) hsplit hguarded

/-- A `Held` is the only one of its path. -/
lemma Core.held_unique (hi : Core σ w) {b : A} {g : ℕ} {o' : Open} (ho : w.files a f = some o)
    (ho' : w.files b g = some o') (hheld : o.held ≠ none) (hheld' : o'.held ≠ none) (hpath : o.path = o'.path) :
    b = a ∧ g = f := by
  obtain ⟨x, hx⟩ := Option.ne_none_iff_exists'.mp hheld
  obtain ⟨y, hy⟩ := Option.ne_none_iff_exists'.mp hheld'
  obtain ⟨hexcl, -, hname, -⟩ := (hi.file ho).held hx
  obtain ⟨hexcl', -, hname', -⟩ := (hi.file ho').held hy
  rw [hpath, hname', Option.some_inj] at hname
  exact (hi.file ho).flock ho' hname hexcl (by simp [hexcl'])

lemma Core.holds_unique (hi : Core σ w) {b : A} {path : Path} {x y : HeldBy} (h : w.Holds a path x)
    (h' : w.Holds b path y) : a = b ∧ x = y := by
  obtain ⟨f, o, ho, hp, hx⟩ := h
  obtain ⟨g, o', ho', hp', hy⟩ := h'
  obtain ⟨rfl, rfl⟩ := hi.held_unique ho ho' (by simp [hx]) (by simp [hy]) (by rw [hp, hp'])
  obtain rfl : o = o' := by simpa [ho] using ho'
  exact ⟨rfl, by simpa [hx] using hy⟩

/-- Nobody shares the maintenance lock while one holds it alone. -/
lemma Core.excludes (hi : Core σ w) {b : A} (h : w.Excludes a) (h' : w.Shares b) : False := by
  obtain ⟨f, o, ho, hp, hl⟩ := h
  obtain ⟨g, o', ho', hp', hl'⟩ := h'
  have hname := (hi.file ho).pinned (Or.inl hp)
  have hname' := (hi.file ho').pinned (Or.inl hp')
  rw [hp', ← hp, hname, Option.some_inj] at hname'
  obtain ⟨rfl, rfl⟩ := (hi.file ho).flock ho' hname'.symm hl (by simp [hl'])
  obtain rfl : o = o' := by simpa [ho] using ho'
  simp [hl] at hl'

lemma Core.prunes_unique (hi : Core σ w) {b : A} (h : w.Prunes a) (h' : w.Prunes b) : a = b := by
  obtain ⟨f, o, ho, hp, hl⟩ := h
  obtain ⟨g, o', ho', hp', hl'⟩ := h'
  have hname := (hi.file ho).pinned (Or.inr hp)
  have hname' := (hi.file ho').pinned (Or.inr hp')
  rw [hp', ← hp, hname, Option.some_inj] at hname'
  exact ((hi.file ho).flock ho' hname'.symm hl (by simp [hl'])).1.symm

lemma World.Holds.shares (hi : Core σ w) {path : Path} {by' : HeldBy} (h : w.Holds a path by') : w.Shares a := by
  obtain ⟨f, o, ho, -, hheld⟩ := h
  exact ((hi.file ho).held hheld).2.2.2.1

lemma World.MayRemove.child {path : Path} {why : Why} (h : w.MayRemove a path why) :
    ChildOf entries path ∨ ChildOf locks path := by
  cases why with
  | clear => exact h.2
  | prune _ =>
    obtain ⟨-, -, ⟨digest, hcovers, -⟩ | ⟨hchild, -⟩ | ⟨hchild, -⟩⟩ := h
    · exact Or.inl hcovers.1
    · exact Or.inl hchild
    · exact Or.inr hchild
  | discard =>
    obtain ⟨digest, -, rfl, -⟩ := h
    exact Or.inl (childOf_entryPath digest)

/-- Nobody may remove the lock file of a `Held`, nor the temporary file of a running store. -/
lemma Core.spares (hi : Core σ w) {b : A} {why : Why} (ho : w.files b f = some o)
    (hkept : o.held ≠ none ∨ o.temp ≠ none) : ¬w.MayRemove a o.path why := by
  intro h
  have hshares : w.Shares b := by
    rcases hkept with hheld | htemp
    · obtain ⟨x, hx⟩ := Option.ne_none_iff_exists'.mp hheld
      exact ((hi.file ho).held hx).2.2.2.1
    · obtain ⟨x, hx⟩ := Option.ne_none_iff_exists'.mp htemp
      obtain ⟨-, -, -, -, -, digest, -, -, hholds⟩ := (hi.file ho).temp hx
      exact hholds.shares hi
  have hlocks : o.held ≠ none → ChildOf locks o.path ∧ w.names o.path = some o.ino := by
    intro hheld
    obtain ⟨x, hx⟩ := Option.ne_none_iff_exists'.mp hheld
    obtain ⟨-, hchild, hname, -⟩ := (hi.file ho).held hx
    exact ⟨hchild, hname⟩
  have htemporary : o.temp ≠ none → ∃ digest, isDigest digest = true ∧ TemporaryOf digest o.path ∧
      w.Holds b (lockPath digest) .key := by
    intro htemp
    obtain ⟨x, hx⟩ := Option.ne_none_iff_exists'.mp htemp
    exact ((hi.file ho).temp hx).2.2.2.2.2
  cases why with
  | clear => exact hi.excludes h.1 hshares
  | prune _ =>
    obtain ⟨-, -, ⟨digest, ⟨hchild, hcovers⟩, hholds⟩ | ⟨hchild, -, hnone⟩ | ⟨hchild, hother⟩⟩ := h
    · rcases hkept with hheld | htemp
      · exact hchild.not_locks (hlocks hheld).1
      · obtain ⟨digest', hd', hof, hholds'⟩ := htemporary htemp
        rcases hcovers with hentry | ⟨-, hdigest⟩
        · have hnot := not_temporary_of_entryDigest hchild hentry
          rw [hof.isTemporary] at hnot
          cases hnot
        · rw [hof.temporaryDigest hd', Option.some_inj] at hdigest
          subst hdigest
          cases (hi.holds_unique hholds hholds').2
    · rcases hkept with hheld | htemp
      · exact hchild.not_locks (hlocks hheld).1
      · obtain ⟨digest', hd', hof, -⟩ := htemporary htemp
        simp [hof.temporaryDigest hd'] at hnone
    · rcases hkept with hheld | htemp
      · obtain ⟨hlock, hname⟩ := hlocks hheld
        exact hother _ hname ((hi.file ho).regular hlock)
      · obtain ⟨digest', -, hof, -⟩ := htemporary htemp
        exact hof.child.not_locks hchild
  | discard =>
    obtain ⟨digest, hd, hpath, -⟩ := h
    rcases hkept with hheld | htemp
    · have hchild := (hlocks hheld).1
      rw [hpath] at hchild
      exact (childOf_entryPath digest).not_locks hchild
    · obtain ⟨digest', -, hof, -⟩ := htemporary htemp
      have hentry := not_temporary_of_entryDigest (childOf_entryPath digest) (entryDigest_entryPath hd)
      rw [← hpath, hof.isTemporary] at hentry
      cases hentry

end Unixd.Cache
