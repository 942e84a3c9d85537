import Unixd.Cache.History
import Unixd.Cache.Turns

/-!
# What a lookup serves

Every lookup answers for one moment of its own, and what it answers then comes whole from one store. A lookup under
the key lock finds what was last stored.
-/

namespace Unixd.Cache

open Unixd.Lib

set_option linter.unusedSectionVars false

section

variable {T T' : Type} {serde : Serde T} {serde' : Serde T'} {inner inner' : Inner} {key key' : Key} {n t : ℕ} {value : T}
  {policy : Policy} {bytes : Bytes}

/-- A lookup of any key at any type gets nothing of an entry, or what is due of all of it. -/
lemma answer_whole (h : serde.codec.encode (.at inner key n value policy) = some bytes) (hn : n ≤ u64Max) :
    answer serde'.codec inner' key' (some (.file, bytes)) t = .miss ∨ key.digest = key'.digest ∧ key.space = key'.space ∧
      ∃ value', serde'.codec.value bytes = some value' ∧
        answer serde'.codec inner' key' (some (.file, bytes)) t = due inner'.schema inner.schema n value' policy t := by
  have hheader : serde'.codec.header bytes = some (Written.at inner key n value policy).header := Serde.header_encode h (fits_at hn)
  have hconsistent := @consistent_at _ inner key _ value policy hn
  generalize hfields : (Written.at inner key n value policy).header = header at hheader hconsistent
  by_cases hsize : bytes.length ≤ inner'.limits.maxEntryBytes
  · rw [answer, readable_file hsize]
    simp only [verdict, hheader, hconsistent, not_true_eq_false, false_or]
    have hschema : header.schema = inner.schema := hfields ▸ rfl
    have hstale : header.staleUntilMs = staleUntil n policy := hfields ▸ rfl
    by_cases hnewer : inner'.schema < header.schema
    · exact Or.inl (by rw [if_pos hnewer])
    by_cases hkey : (header.digest ≠ key'.digest ∨ header.space ≠ key'.space) ∨ header.staleUntilMs < t
    · exact Or.inl (by rw [if_neg hnewer, if_pos hkey])
    rw [if_neg hnewer, if_neg hkey]
    cases hvalue : serde'.codec.value bytes with
    | none => exact Or.inl rfl
    | some value' =>
      obtain ⟨hkey, hlate⟩ := not_or.mp hkey
      obtain ⟨hdigest, hspace⟩ := not_or.mp hkey
      subst hfields
      refine Or.inr ⟨not_not.mp hdigest, not_not.mp hspace, value', rfl, ?_⟩
      rw [due, if_neg (hschema ▸ hnewer), if_neg (hstale ▸ hlate)]
      by_cases hfresh : inner'.schema = inner.schema ∧ t ≤ freshUntil n policy
      · dsimp only
        rw [if_pos hfresh, if_pos ⟨hschema.trans hfresh.1.symm, hfresh.2⟩]
        rfl
      · dsimp only
        rw [if_neg hfresh, if_neg fun hboth => hfresh ⟨hboth.1.symm.trans hschema, hboth.2⟩]
        rfl
  · left
    rw [answer, readable_eq_none (Or.inr (Nat.lt_of_not_le hsize))]

end

lemma Key.eq_of_parts {key key' : Key} (hdigest : key.digest = key'.digest) (hspace : key.space = key'.space) : key = key' := by
  obtain ⟨space, digest, hwf⟩ := key
  obtain ⟨space', digest', hwf'⟩ := key'
  obtain rfl : digest = digest' := hdigest
  obtain rfl : space = space' := hspace
  rfl

lemma What.Replaces.guarded {V : Type} {digest : Name} {what : What V} (h : what.Replaces digest) : what.Guarded := by
  cases what with
  | renamed src dst bytes => trivial
  | unlinked path why => trivial
  | _ => exact h.elim

namespace Rules

variable {ι : Type} {T : ι → Type} {A : Type} [DecidableEq A] {R : Rules A ι T}
  {s : Pool A (World A (Note ι T)) Error (Op (Note ι T)) Op.Ret Unit} {a b : A} {i : ι} {inner inner' : Inner} {key : Key}
  {locked : Bool}

/-- One store of `key` wrote `bytes`, and `r` is what is due of all of it at the time `t`. -/
def Gives (R : Rules A ι T) (i : ι) (inner : Inner) (key : Key) (bytes : Bytes) (t : ℕ) (r : Lookup (T i)) : Prop :=
  ∃ j inner' n value policy, n ≤ u64Max ∧ (R.codec j).encode (.at inner' key n value policy) = some bytes ∧
    ∃ value', (R.codec i).value bytes = some value' ∧ r = due inner.schema inner'.schema n value' policy t

section

/-- One thread is to store under a key lock, and another to look up under it. -/
def handing : State Bool Unit fun _ => Unit :=
  ⟨fun b => some ((Session.lock keyA fun _ => if b then .store 0 () roomy () briefly fun _ => .done
    else .lockedLookup 0 () roomy fun _ => .done).run (holding Bool []).codec []), World.of (rootWith (stored [] [])) 0⟩

lemma starts_handing : (holding Bool []).Starts handing := by
  refine starts_holding List.nodup_nil (by simp) (Nat.zero_le _) fun b p hp => ⟨_, ?_, (Option.some_inj.mp hp).symm⟩
  refine ⟨fun _ => rfl, fun _ => ?_, ?_⟩
  all_goals cases b
  all_goals exact ⟨fun _ _ => trivial, fun _ => trivial⟩

/-- The one thread stores and is about to look whether to prune; the other one has looked up. -/
lemma exists_handed : ∃ s x₁ x₂ y x₃ x₄ src bytes r, (holding Bool []).system.Reachable s ∧ s.world.clock = 0 ∧
    s.world.journal = ((x₁ ++ ⟨true, .noted (.storing () roomy keyA () briefly) 0⟩ :: x₂) ++
      ⟨true, .renamed src (entryPath keyA.digest) bytes⟩ :: (y ++ x₃) ++ ⟨false, .noted (.looking () roomy keyA true) 0⟩ :: x₄) ++
        [⟨false, .noted (.looked () roomy keyA true (.ok r)) 0⟩] ∧
      (∀ e ∈ x₁ ++ x₂ ++ y ++ x₃ ++ x₄, ¬e.what.Guarded) ∧ bytes.length ≤ roomy.limits.maxEntryBytes ∧ r ≠ .miss := by
  have hidle : handing.world.scene.AtRest := ⟨fit_rootWith extra_nil, World.distinct_of, fun _ _ => rfl⟩
  have hreach : (holding Bool []).system.Reachable handing := ⟨_, [], starts_handing, .nil _⟩
  obtain ⟨bytes, hencode, hsize⟩ := exists_briefly
  obtain ⟨t₁, ⟨key, held, m⟩, ht₁, hprogs₁, hkey, hlocking₁, x₁, hj₁, hx₁⟩ := exec_lock (a := true) rfl hreach rfl hidle
  obtain rfl : key = keyA := hkey
  have hnone : handing.world.scene.find (entryPath keyA.digest) = none := find_empty (childOf_entryPath _)
  have hmissing : handing.world.scene.find held.path = none := by
    rw [show held.path = lockPath keyA.digest from hlocking₁.holding.path]
    exact find_empty (childOf_lockPath _)
  obtain ⟨t₂, p, src, x₂, y, k, node, ht₂, hprogs₂, ⟨hfree, hkind, howned, rfl, -⟩, hscene₂, hj₂, hx₂⟩ :=
    exec_store rfl ht₁ (by rw [hprogs₁, Function.update_self]; rfl) hlocking₁ hidle hmissing
      (fun j x hx => absurd (hx.symm.trans hnone) (by simp)) hencode hsize
  have hidle₂ : t₂.world.scene.AtRest := hscene₂ ▸ hidle.put (Or.inl hfree) hkind howned
  obtain ⟨t₃, ⟨key, held', m'⟩, ht₃, hprogs₃, hkey, hlocking₃, x₃, hj₃, hx₃⟩ :=
    exec_lock (a := false) rfl ht₂ (by rw [hprogs₂, Function.update_of_ne (by simp), hprogs₁, Function.update_of_ne (by simp)]; rfl) hidle₂
  obtain rfl : key = keyA := hkey
  have hfind₂ : t₂.world.scene.find (entryPath keyA.digest) = some (k, node) := by
    rw [hscene₂]
    exact Scene.find_put_self _
  have hne : entryPath keyA.digest ≠ held'.path := hlocking₃.holding.entry_ne
  have hfind₃ : t₃.world.scene.find (entryPath keyA.digest) = some (k, node) := (hlocking₃.find hne).trans hfind₂
  have hone : ∀ p x, t₂.world.scene.find p = some (k, x) → p = entryPath keyA.digest := by
    intro p x hp
    rw [hscene₂] at hp
    exact hfree.only hp
  have hclock : t₃.world.clock = 0 := by
    refine hlocking₃.clock.trans ?_
    rw [hscene₂]
    rfl
  have hanswer : answer Serde.unit.codec roomy keyA (some (.file, node.bytes)) 0 = due 1 1 0 () briefly 0 :=
    @answer_encode _ Serde.unit roomy roomy keyA 0 () briefly _ 0 hencode (Nat.zero_le _) unit_roundTrips hsize
  have hkeep : ¬Discards Serde.unit.codec roomy keyA (some (.file, node.bytes)) t₃.world.clock := by
    rw [hclock, @discards_encode _ Serde.unit roomy roomy keyA 0 () briefly _ 0 hencode (Nat.zero_le _) unit_roundTrips hsize]
    exact fun hd => absurd hd.2 (Nat.not_lt_zero _)
  obtain ⟨t₄, x₄, r, ht₄, -, hr, hscene₄, hj₄, hx₄⟩ := @exec_looking _ _ _ _ _ _ false () roomy keyA true rfl ht₃ _ _ _
    (by rw [hprogs₃, Function.update_self]; rfl) (hlocking₃.entries hidle₂.fit.entries) hfind₃ hkind
      (hlocking₃.one hidle₂.distinct hfind₂ hne hone) hkeep
  have hclock₄ : t₄.world.clock = 0 := ((congrArg Scene.clock hscene₄).trans Scene.clock_looked).trans hclock
  refine ⟨t₄, x₁, x₂, y, x₃, x₄, src, node.bytes, r, ht₄, hclock₄, ?_, ?_, hsize, ?_⟩
  · rw [hj₄, hclock, hj₃, hj₂, hj₁, show handing.world.scene.clock = 0 from rfl, show handing.world.journal = [] from rfl]
    simp only [List.append_assoc, List.cons_append, List.nil_append]
  · simp only [List.mem_append] at hx₂ ⊢
    rintro e ((((he | he) | he) | he) | he)
    · exact (hx₁ e he).2
    · exact (hx₂ e (Or.inl he)).2
    · exact (hx₂ e (Or.inr he)).2
    · exact (hx₃ e he).2
    · exact (hx₄ e he).2
  · rw [hr, hclock]
    exact hanswer ▸ by simp [due, freshUntil, staleUntil, briefly]

end

end Rules

end Unixd.Cache
