import Recurrence.Proofs.Memo.Ledger

/-!
# Results that are dropped by hand

A manual cache holds a result from the success of its computation up to the next drop that is meant
for it. Drops may come at any moment, also out of the computation of the key itself: what happens
before a success does not count against it, and the mark is not a result that could be dropped.
-/

namespace Recurrence.Memo

open Cache (Slot Lookup)

variable {n : Nat} {K V W : Type}

/-! ## The last success -/

/-- No success for the key, and no drop that is meant for it. -/
def Act.Spares (key : K) (a : Act K V) : Prop :=
  (∀ v, a ≠ .succeeded key v) ∧ a ≠ .cleared ∧ a ≠ .invalidated key

/-- A computation of the key has succeeded with this value, and since the last such success the key
has not been dropped. -/
def Undropped (key : K) (v : V) (acts : List (Act K V)) : Prop :=
  ∃ since before, acts = since ++ .succeeded key v :: before ∧ ∀ a ∈ since, a.Spares key

theorem undropped_cons {key : K} {v : V} {a : Act K V} {acts : List (Act K V)} :
    Undropped key v (a :: acts)
      ↔ a = .succeeded key v ∨ a.Spares key ∧ Undropped key v acts := by
  constructor
  · rintro ⟨_ | ⟨b, since⟩, before, hacts, hsince⟩
    · exact .inl (List.cons.inj hacts).1
    · obtain ⟨rfl, hrest⟩ := List.cons.inj hacts
      obtain ⟨hspares, hsince⟩ := List.forall_mem_cons.mp hsince
      exact .inr ⟨hspares, since, before, hrest, hsince⟩
  · rintro (rfl | ⟨hspares, since, before, rfl, hsince⟩)
    · exact ⟨[], acts, rfl, by simp⟩
    · exact ⟨a :: since, before, rfl, List.forall_mem_cons.mpr ⟨hspares, hsince⟩⟩

variable [DecidableEq K]

/-- What a ledger with drops by hand holds is the last success that has not been dropped. -/
theorem held_eq_resolved_iff {acts : List (Act K V)} (h : Lawful true acts) {key : K} {v : V} :
    held true acts key = some (.resolved v) ↔ Undropped key v acts := by
  induction acts with
  | nil => simp [held, Undropped]
  | cons a acts ih =>
    rw [undropped_cons, ← ih h.2]
    cases h.turns key with
    | started ha hbefore hafter | failed ha hbefore hafter | succeeded ha hbefore hafter =>
      rw [hbefore, hafter, ha]
      simp
    | dropped _ hdrops _ hafter =>
      have hspares : ¬ a.Spares key := fun hspares => hdrops.elim hspares.2.1 hspares.2.2
      simp [hafter, hdrops.ne_succeeded, hspares]
    | kept hno hdrop hsame =>
      rw [hsame]
      constructor
      · intro hheld
        have hdrops : ¬ a.Drops key := fun hdrops => hdrop rfl hdrops v hheld
        exact .inr ⟨⟨hno, fun h => hdrops (.inl h), fun h => hdrops (.inr h)⟩, hheld⟩
      · rintro (ha | ⟨-, hheld⟩)
        · exact absurd ha (hno v)
        · exact hheld

/-! ## What can be found out about a key -/

/-- What is held for a key, what a call finds, and whether the key is cached. -/
structure Status (V : Type) where
  held : Option (Slot V)
  found : Lookup V
  cached : Bool

def State.status (s : State n K V W) (m : Fin n) (key : K) : Status V :=
  ⟨s.slot? m key, (s.lookup m key).1, s.isCached m key⟩

section

variable {s : State n K V W} {m m' : Fin n} {key : K}

/-- A change of a cache is noticed only at the keys for which something else is held. -/
theorem State.status_setCache (hlasting : (s.policy m).Lasting) {c : Cache K V}
    (hpolicy : c.policy = (s.memo m).cache.policy)
    (hslot : m' = m → c.slot? key = (s.memo m).cache.slot? key) :
    (s.setCache m c).status m' key = s.status m' key := by
  by_cases hm : m' = m
  · subst hm
    have hlasting' : c.policy.Lasting := by
      rw [hpolicy]
      exact hlasting
    have hcached : c.contains s.clock key = (s.memo m').cache.contains s.clock key := by
      rw [Bool.eq_iff_iff, Cache.contains_iff_slot? (Cache.fresh_of_lasting hlasting' _),
        Cache.contains_iff_slot? (Cache.fresh_of_lasting hlasting _), hslot rfl]
    have hfound : (c.lookup s.clock key).1 = ((s.memo m').cache.lookup s.clock key).1 := by
      rw [Cache.lookup_of_lasting hlasting', Cache.lookup_of_lasting hlasting, hslot rfl]
    have hmemo : ((s.setCache m' c).memo m').cache = c := by
      rw [setCache, memo_setMemo, if_pos rfl]
    simp only [status, slot?, lookup_fst, isCached, hmemo]
    exact congr (congrArg₂ Status.mk (hslot rfl) hfound) hcached
  · have hmemo : (s.setCache m c).memo m' = s.memo m' := by
      rw [setCache, memo_setMemo, if_neg hm]
    simp only [status, slot?, lookup_fst, isCached, hmemo]
    rfl

/-- A drop of one key is not noticed at any other. -/
theorem State.status_invalidate_of_ne (h : s.policy m = .manual) {k : K}
    (hne : (m', key) ≠ (m, k)) : (s.invalidate m k).status m' key = s.status m' key := by
  have hlasting : (s.policy m).Lasting := by rw [h]; trivial
  refine State.status_setCache (c := ((s.memo m).cache.invalidate k).1) hlasting
    (Cache.policy_invalidate _ k) ?_
  rintro rfl
  have hk : k ≠ key := by
    rintro rfl
    exact hne rfl
  rw [Cache.slot?_invalidate, if_neg fun h => hk h.2]

/-- A drop is not noticed at a key that is being computed. -/
theorem State.status_invalidate_of_inFlight (h : s.policy m = .manual)
    (hmark : s.InFlight m' key) (k : K) :
    (s.invalidate m k).status m' key = s.status m' key := by
  have hlasting : (s.policy m).Lasting := by rw [h]; trivial
  refine State.status_setCache (c := ((s.memo m).cache.invalidate k).1) hlasting
    (Cache.policy_invalidate _ k) ?_
  rintro rfl
  have hslot : (s.memo m').cache.slot? key = some .inFlight := hmark
  rw [Cache.slot?_invalidate, hslot]
  exact ite_self _

theorem State.status_clear_of_inFlight (h : s.policy m = .manual) (hmark : s.InFlight m' key) :
    (s.clear m).status m' key = s.status m' key := by
  have hlasting : (s.policy m).Lasting := by rw [h]; trivial
  refine State.status_setCache (c := (s.memo m).cache.clear.1) hlasting (Cache.policy_clear _) ?_
  rintro rfl
  have hslot : (s.memo m').cache.slot? key = some .inFlight := hmark
  rw [Cache.slot?_clear, hslot]
  exact ite_self _

end

variable {body : Fin n → K → Computation n K V W}

/--
**A manual cache is never stale after a drop.** Whatever the computations do, and whatever they
drop meanwhile, a key is cached if and only if one of its computations has succeeded and since the
last time there has been no drop that is meant for it. A call is then answered with that result and
nothing is computed; without such a success the call has the key computed, unless it is being
computed already.

A drop of one key changes nothing for another key, and no drop changes anything for a key that is
being computed.
-/
theorem manual_answers_last_success {program : Computation n K V W}
    {policies : Vector Cache.Policy n} {outside : W} {x : Tale n K V W}
    (h : Told body (.start program policies outside) x) {m : Fin n}
    (hmanual : policies.get m = .manual) :
    (∀ key, x.now.state.isCached m key = true ↔ ∃ v, Undropped key v (actsOf m x.past))
    ∧ (∀ key v, Undropped key v (actsOf m x.past) → ∀ fuel,
        call body (fuel + 1) m key x.now.state
          = .returned (.ok v) { x.now.state with log := .hit key :: x.now.state.log })
    ∧ (∀ key, ¬ x.now.state.InFlight m key → (¬ ∃ v, Undropped key v (actsOf m x.past)) →
        ∀ fuel, call body (fuel + 1) m key x.now.state
          = finish m key (run (call body fuel) (body m key)
              (State.begin { x.now.state with log := .missed key :: x.now.state.log } m key)))
    ∧ (∀ key m' k, (m', k) ≠ (m, key) →
        (x.now.state.invalidate m key).status m' k = x.now.state.status m' k)
    ∧ ∀ m' k, x.now.state.InFlight m' k →
        (x.now.state.clear m).status m' k = x.now.state.status m' k
        ∧ ∀ key, (x.now.state.invalidate m key).status m' k = x.now.state.status m' k := by
  have hpolicy : x.now.state.policy m = .manual := (policy_told h m).trans hmanual
  have hsteady : Steady m x := steady_told h (by rw [hmanual]; trivial)
  have hslot (key : K) : x.now.state.slot? m key = held true (actsOf m x.past) key := by
    rw [hsteady.booked.holds, hpolicy]
    rfl
  have hlawful : Lawful true (actsOf m x.past) := by
    have hbooked := hsteady.booked.lawful
    rwa [hpolicy] at hbooked
  have hresolved (key : K) (v : V) :
      x.now.state.slot? m key = some (.resolved v) ↔ Undropped key v (actsOf m x.past) := by
    rw [hslot, held_eq_resolved_iff hlawful]
  refine ⟨fun key => ?_, fun key v hv fuel => ?_, fun key hfree hnever fuel => ?_, ?_, ?_⟩
  · rw [State.isCached_iff hsteady.retains.fresh]
    exact exists_congr (hresolved key)
  · exact call_of_resolved hsteady.lasting ((hresolved key v).mpr hv) fuel
  · refine call_of_none hsteady.lasting ?_ fuel
    cases hkey : x.now.state.slot? m key with
    | none => rfl
    | some slot =>
      cases slot with
      | inFlight => exact absurd hkey hfree
      | resolved v => exact absurd ⟨v, (hresolved key v).mp hkey⟩ hnever
  · exact fun key m' k => State.status_invalidate_of_ne hpolicy
  · intro m' k hmark
    exact ⟨State.status_clear_of_inFlight hpolicy hmark,
      State.status_invalidate_of_inFlight hpolicy hmark⟩

/-- Drops all it can, first of all what it is about to be. -/
def dropAll (m : Fin 1) (key : Bool) : Computation 1 Bool Nat Unit :=
  .invalidate m key <| .clear m <| .done (.ok 1)

/-- Asks for a key, and then drops it. -/
def askAndDrop (m : Fin 1) : Computation 1 Bool Nat Unit :=
  .call m true fun _ => .invalidate m true <| .done (.ok 0)

theorem told_askAndDrop : ∃ x y : Tale 1 Bool Nat Unit,
    Told dropAll (.start (askAndDrop 0) #v[.manual] ()) x ∧ Tells dropAll x y
    ∧ actsOf 0 x.past = [.succeeded true 1, .cleared, .invalidated true, .started true]
    ∧ actsOf 0 y.past = .invalidated true :: actsOf 0 x.past := by
  have hx : Told dropAll (.start (askAndDrop 0) #v[.manual] ()) _ :=
    (((Relation.ReflTransGen.single
      (.worked (.started (by decide +kernel)) (not_waits_of_stack_ne (List.cons_ne_nil _ _)))).tail
      (.worked .invalidate (not_waits_of_left .invalidate))).tail
      (.worked .clear (not_waits_of_left .clear))).tail
      (.worked .succeeded (not_waits_of_stack_ne (List.cons_ne_nil _ _).symm))
  exact ⟨_, _, hx, .worked .invalidate (not_waits_of_left .invalidate), by decide +kernel,
    by decide +kernel⟩

/-- What is dropped before a success does not count against it; what is dropped after it does. -/
theorem manual_answers_last_success_askAndDrop : ∃ x y : Tale 1 Bool Nat Unit,
    Told dropAll (.start (askAndDrop 0) #v[.manual] ()) x ∧ Tells dropAll x y
    ∧ x.now.state.isCached 0 true = true
    ∧ (∀ fuel, ∃ s, call dropAll (fuel + 1) 0 true x.now.state = .returned (.ok 1) s)
    ∧ y.now.state.isCached 0 true ≠ true := by
  obtain ⟨x, y, hx, hy, hacts, hdrop⟩ := told_askAndDrop
  obtain ⟨hcached, hcall, -⟩ := manual_answers_last_success hx (m := 0) rfl
  obtain ⟨hcached', -⟩ := manual_answers_last_success (hx.tail hy) (m := 0) rfl
  have hlast : Undropped true 1 (actsOf 0 x.past) := by
    rw [hacts]
    exact undropped_cons.mpr (.inl rfl)
  refine ⟨x, y, hx, hy, (hcached true).mpr ⟨1, hlast⟩, fun fuel => ⟨_, hcall true 1 hlast fuel⟩, ?_⟩
  intro h
  obtain ⟨v, hv⟩ := (hcached' true).mp h
  rw [hdrop] at hv
  rcases undropped_cons.mp hv with heq | ⟨hspares, -⟩
  · cases heq
  · exact hspares.2.2 rfl

end Recurrence.Memo
