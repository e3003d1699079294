import Recurrence.Proofs.Memo.History

/-!
# Ledgers

The acts at a memoizer are its ledger. As long as a memoizer loses no result of its own accord, what
it holds is what the ledger says, act by act (`held`), and no act is entered that would not fit what
is held (`Lawful`): a computation begins where nothing is held and ends where there is a mark, and
an answer comes from a result. So an act can make only a few things of the slot of a key (`Turns`).

`booked_tells` takes each memoizer that retains its results to its ledger. From there on neither
the stack nor the four policies come up again: a policy shows only in whether drops by hand count.
-/

namespace Recurrence.Memo

open Cache (Slot)

variable {n : Nat} {K V W : Type} [DecidableEq K]

/-! ## Reading a ledger -/

/-- What an act makes of the slot of a key; drops by hand do not count everywhere. -/
def Act.turn (byHand : Bool) (key : K) (slot : Option (Slot V)) : Act K V → Option (Slot V)
  | .answered _ _ | .refused _ => slot
  | .started k => if k = key then some .inFlight else slot
  | .succeeded k v => if k = key then some (.resolved v) else slot
  | .failed k _ => if k = key then none else slot
  | .cleared => if byHand then slot.filter Slot.isInFlight else slot
  | .invalidated k => if byHand ∧ k = key then slot.filter Slot.isInFlight else slot

/-- What is held for a key after some acts, the latest first. -/
def held (byHand : Bool) : List (Act K V) → K → Option (Slot V)
  | [], _ => none
  | a :: acts, key => a.turn byHand key (held byHand acts key)

/-- An act can be done only where this is held. -/
def Act.Allowed (slot? : K → Option (Slot V)) : Act K V → Prop
  | .answered k v => slot? k = some (.resolved v)
  | .refused k => slot? k = some .inFlight
  | .started k => slot? k = none
  | .succeeded k _ | .failed k _ => slot? k = some .inFlight
  | .cleared | .invalidated _ => True

/-- Each act was done where it is allowed. -/
def Lawful (byHand : Bool) : List (Act K V) → Prop
  | [] => True
  | a :: acts => a.Allowed (held byHand acts) ∧ Lawful byHand acts

/-- A drop by hand that is meant for a key. -/
def Act.Drops (key : K) (a : Act K V) : Prop := a = .cleared ∨ a = .invalidated key

/-- All that an act can make of the slot of a key. -/
inductive Turns (byHand : Bool) (key : K) (a : Act K V) (before after : Option (Slot V)) : Prop
  | started : a = .started key → before = none → after = some .inFlight →
      Turns byHand key a before after
  | succeeded {v : V} : a = .succeeded key v → before = some .inFlight →
      after = some (.resolved v) → Turns byHand key a before after
  | failed {e : MemoError K} : a = .failed key e → before = some .inFlight → after = none →
      Turns byHand key a before after
  | dropped {v : V} : byHand = true → a.Drops key → before = some (.resolved v) → after = none →
      Turns byHand key a before after
  | kept : (∀ v, a ≠ .succeeded key v) →
      (byHand = true → a.Drops key → ∀ v, before ≠ some (.resolved v)) → after = before →
      Turns byHand key a before after

section

variable {byHand : Bool} {key : K} {a : Act K V}

omit [DecidableEq K] in
theorem Act.Drops.ne_succeeded (h : a.Drops key) (v : V) : a ≠ .succeeded key v := by
  rintro rfl
  rcases h with h | h <;> cases h

omit [DecidableEq K] in
/-- A drop that counts takes a result away, and leaves a mark. -/
theorem Act.Drops.turns (h : a.Drops key) (hbyHand : byHand = true) (slot : Option (Slot V)) :
    Turns byHand key a slot (slot.filter Slot.isInFlight) := by
  rcases slot with _ | _ | v
  · exact .kept h.ne_succeeded (by simp) rfl
  · exact .kept h.ne_succeeded (by simp) rfl
  · exact .dropped hbyHand h rfl rfl

/-- **An act that is allowed does nothing else.** -/
theorem Act.Allowed.turns {slot? : K → Option (Slot V)} (h : a.Allowed slot?) :
    Turns byHand key a (slot? key) (a.turn byHand key (slot? key)) := by
  cases a with
  | answered | refused => exact .kept (by simp) (by simp [Act.Drops]) rfl
  | started k =>
    by_cases hk : k = key
    · subst hk
      exact .started rfl h (if_pos rfl)
    · exact .kept (by simp) (by simp [Act.Drops]) (if_neg hk)
  | succeeded k v =>
    by_cases hk : k = key
    · subst hk
      exact .succeeded rfl h (if_pos rfl)
    · exact .kept (by simp [hk]) (by simp [Act.Drops]) (if_neg hk)
  | failed k e =>
    by_cases hk : k = key
    · subst hk
      exact .failed rfl h (if_pos rfl)
    · exact .kept (by simp) (by simp [Act.Drops]) (if_neg hk)
  | cleared =>
    by_cases hbyHand : byHand = true
    · rw [Act.turn, if_pos hbyHand]
      exact Act.Drops.turns (.inl rfl) hbyHand _
    · exact .kept (by simp) (fun h => absurd h hbyHand) (if_neg hbyHand)
  | invalidated k =>
    by_cases hdrop : byHand = true ∧ k = key
    · obtain ⟨hbyHand, rfl⟩ := hdrop
      rw [Act.turn, if_pos ⟨hbyHand, rfl⟩]
      exact Act.Drops.turns (.inr rfl) hbyHand _
    · refine .kept (by simp) (fun hbyHand hdrops => ?_) (if_neg hdrop)
      have hk : k = key := by simpa [Act.Drops] using hdrops
      exact absurd ⟨hbyHand, hk⟩ hdrop

/-- What each act of a ledger has made of a slot. -/
theorem Lawful.turns {acts : List (Act K V)} (h : Lawful byHand (a :: acts)) (key : K) :
    Turns byHand key a (held byHand acts key) (held byHand (a :: acts) key) :=
  Act.Allowed.turns h.1

end

/-- For what is held, there has been a call. -/
theorem mem_calledKeys_of_held {byHand : Bool} {acts : List (Act K V)} (h : Lawful byHand acts)
    {key : K} (hheld : held byHand acts key ≠ none) : key ∈ calledKeys acts := by
  induction acts with
  | nil => exact absurd rfl hheld
  | cons a acts ih =>
    have hlater (hkey : held byHand acts key ≠ none) : key ∈ calledKeys (a :: acts) := by
      have hmem := ih h.2 hkey
      rw [calledKeys, List.mem_toFinset] at hmem ⊢
      exact ((List.suffix_cons a acts).sublist.filterMap _).subset hmem
    cases h.turns key with
    | started ha => simp [calledKeys, ha, Act.called?]
    | succeeded _ hmark => exact hlater (by simp [hmark])
    | failed _ _ hnone | dropped _ _ _ hnone => exact absurd hnone hheld
    | kept _ _ hsame => exact hlater (hsame ▸ hheld)

/-! ## Keeping a ledger -/

/-- Nothing that the memoizer holds has expired, and there is room for all keys that have been
called for. -/
structure Retains (m : Fin n) (x : Tale n K V W) : Prop where
  fresh : (x.now.state.memo m).cache.Fresh x.now.state.clock
  room : (x.now.state.policy m).HasRoom (calledKeys (actsOf m x.past)).card

theorem retains_of_lasting {m : Fin n} {x : Tale n K V W}
    (h : (x.now.state.policy m).Lasting) : Retains m x :=
  ⟨Cache.fresh_of_lasting h _, h.hasRoom _⟩

/-- The memoizer holds what its ledger says. -/
structure Booked (m : Fin n) (x : Tale n K V W) : Prop where
  holds : ∀ key, x.now.state.slot? m key
    = held (x.now.state.policy m).byHand (actsOf m x.past) key
  lawful : Lawful (x.now.state.policy m).byHand (actsOf m x.past)

theorem booked_start (program : Computation n K V W) (policies : Vector Cache.Policy n)
    (outside : W) (m : Fin n) : Booked m (.start program policies outside) where
  holds key := State.slot?_start policies outside m key
  lawful := trivial

/-- Nothing has happened at a memoizer. -/
theorem Booked.of_same {m : Fin n} {x y : Tale n K V W} (h : Booked m x)
    (hpolicy : y.now.state.policy m = x.now.state.policy m) (hpast : y.past = x.past)
    (hslot : ∀ key, y.now.state.slot? m key = x.now.state.slot? m key) : Booked m y where
  holds key := by
    rw [hslot, hpolicy, hpast]
    exact h.holds key
  lawful := by
    rw [hpolicy, hpast]
    exact h.lawful

/-- An act is done, at the memoizer or at another one. -/
theorem Booked.act {m m' : Fin n} {a : Act K V} {x y : Tale n K V W} (h : Booked m x)
    (hpolicy : y.now.state.policy m = x.now.state.policy m) (hpast : y.past = ⟨m', a⟩ :: x.past)
    (hallowed : m = m' → a.Allowed (x.now.state.slot? m))
    (hslot : ∀ key, y.now.state.slot? m key
      = if m = m' then a.turn (x.now.state.policy m).byHand key (x.now.state.slot? m key)
        else x.now.state.slot? m key) : Booked m y := by
  have hheld : x.now.state.slot? m = held (x.now.state.policy m).byHand (actsOf m x.past) :=
    funext h.holds
  by_cases hm : m = m'
  · have hacts : actsOf m y.past = a :: actsOf m x.past := by
      rw [hpast, actsOf, if_pos hm.symm]
    constructor
    · intro key
      rw [hslot, if_pos hm, hpolicy, hacts, held, hheld]
    · rw [hpolicy, hacts]
      exact ⟨hheld ▸ hallowed hm, h.lawful⟩
  · have hacts : actsOf m y.past = actsOf m x.past := by
      rw [hpast, actsOf, if_neg (Ne.symm hm)]
    constructor
    · intro key
      rw [hslot, if_neg hm, hpolicy, hacts]
      exact h.holds key
    · rw [hpolicy, hacts]
      exact h.lawful

/-! ## What the operations of a call do -/

section

variable {s : State n K V W} {m m' : Fin n}

/-- The lookup of a memoizer with nothing expired answers what stands in the slot. -/
theorem State.lookup_eq_ofSlot (hfresh : (s.memo m).cache.Fresh s.clock) (key : K) :
    (s.lookup m key).1 = .ofSlot (s.slot? m key) := by
  rw [lookup_fst]
  exact Cache.lookup_eq_ofSlot hfresh key

theorem State.isCached_iff (hfresh : (s.memo m).cache.Fresh s.clock) {key : K} :
    s.isCached m key = true ↔ ∃ v, s.slot? m key = some (.resolved v) :=
  Cache.contains_iff_slot? hfresh

theorem State.slot?_eq_none_of_absent (hfresh : (s.memo m).cache.Fresh s.clock) {key : K}
    (h : (s.lookup m key).1 = .absent) : s.slot? m key = none := by
  rw [State.lookup_eq_ofSlot hfresh] at h
  cases hslot : s.slot? m key with
  | none => rfl
  | some slot =>
    rw [hslot] at h
    cases slot <;> cases h

/-- A change of one cache, seen at each memoizer. -/
theorem State.slot?_setCache_eq {c : Cache K V} {key : K} {slot : Option (Slot V)}
    (h : m = m' → c.slot? key = slot) :
    (s.setCache m' c).slot? m key = if m = m' then slot else s.slot? m key := by
  rw [slot?_setCache]
  by_cases hm : m = m'
  · rw [if_pos hm, if_pos hm, h hm]
  · rw [if_neg hm, if_neg hm]

variable {byHand : Bool} (k : K)

theorem State.slot?_started (key : K) :
    ((s.lookup m' key).2.begin m' key).slot? m k
      = if m = m' then Act.turn byHand k (s.slot? m k) (.started key) else s.slot? m k := by
  rw [slot?_begin, slot?_lookup, Act.turn]
  by_cases hm : m = m' <;> simp [hm, eq_comm]

theorem State.slot?_succeeded {key : K} (v : V)
    (hfresh : m = m' → (s.memo m).cache.Fresh s.clock)
    (hroom : m = m' → (s.policy m).HasRoom (insert key (s.memo m).cache.keys).card) :
    (s.resolve m' key v).slot? m k
      = if m = m' then Act.turn byHand k (s.slot? m k) (.succeeded key v) else s.slot? m k := by
  refine slot?_setCache_eq (c := ((s.memo m').cache.resolve s.clock key v).1) ?_
  rintro rfl
  rw [Cache.slot?_resolve (hfresh rfl) (hroom rfl), Act.turn]
  rfl

theorem State.slot?_failed {key : K} (e : MemoError K) (hmark : m = m' → s.InFlight m key) :
    (s.abandon m' key).slot? m k
      = if m = m' then Act.turn byHand k (s.slot? m k) (.failed key e) else s.slot? m k := by
  refine slot?_setCache_eq (c := (s.memo m').cache.abandon key) ?_
  rintro rfl
  rw [Cache.slot?_abandon, Act.turn]
  by_cases hk : key = k
  · subst hk
    have hslot : (s.memo m).cache.slot? key = some .inFlight := hmark rfl
    rw [if_pos rfl, if_pos rfl, hslot]
    rfl
  · rw [if_neg hk, if_neg hk]
    rfl

theorem State.slot?_cleared :
    (s.clear m').slot? m k
      = if m = m' then Act.turn (s.policy m).byHand k (s.slot? m k) .cleared else s.slot? m k := by
  refine slot?_setCache_eq (c := (s.memo m').cache.clear.1) ?_
  rintro rfl
  rw [Cache.slot?_clear, Act.turn]
  simp only [Cache.Policy.byHand, decide_eq_true_eq]
  rfl

theorem State.slot?_invalidated (key : K) :
    (s.invalidate m' key).slot? m k
      = if m = m' then Act.turn (s.policy m).byHand k (s.slot? m k) (.invalidated key)
        else s.slot? m k := by
  refine slot?_setCache_eq (c := ((s.memo m').cache.invalidate key).1) ?_
  rintro rfl
  rw [Cache.slot?_invalidate, Act.turn]
  simp only [Cache.Policy.byHand, decide_eq_true_eq]
  rfl

end

variable {body : Fin n → K → Computation n K V W}

/-- With a result that arrives, there is still nothing held that has not been called for. -/
theorem Booked.room {m : Fin n} {x : Tale n K V W} (h : Booked m x) (hretains : Retains m x)
    {key : K} (hcalled : (m, key) ∈ calls x.past) :
    (x.now.state.policy m).HasRoom (insert key (x.now.state.memo m).cache.keys).card := by
  refine hretains.room.mono (Finset.card_le_card ?_)
  intro k hk
  rcases Finset.mem_insert.mp hk with rfl | hk
  · exact mem_calledKeys_actsOf.mpr hcalled
  · refine mem_calledKeys_of_held h.lawful ?_
    rw [← h.holds]
    exact Cache.mem_keys.mp hk

/-- **Kept by every step**, where the memoizer retains its results. -/
theorem booked_tells {m : Fin n} {x y : Tale n K V W} (ht : Tells body x y)
    (hguarded : Guarded (calls x.past) x.now) (hretains : Retains m x) (h : Booked m x) :
    Booked m y := by
  have hpolicy := policy_tells ht m
  cases ht with
  | @worked a b past hs hwork =>
    cases hs with
    | @hit m' key next stack s v hl =>
      have hpast : Moment.deeds ⟨.call m' key next, stack, s⟩ = [⟨m', .answered key v⟩] := by
        rw [deeds_call, hl, Act.called]
      refine h.act hpolicy (congrArg (· ++ past) hpast) ?_ fun k => ?_
      · rintro rfl
        exact State.slot?_of_lookup_hit hl
      · exact (State.slot?_lookup s m' m key k).trans (ite_self _).symm
    | @refused m' key next stack s hl =>
      have hpast : Moment.deeds ⟨.call m' key next, stack, s⟩ = [⟨m', .refused key⟩] := by
        rw [deeds_call, hl, Act.called]
      refine h.act hpolicy (congrArg (· ++ past) hpast) ?_ fun k => ?_
      · rintro rfl
        exact State.lookup_eq_inFlight_iff.mp hl
      · exact (State.slot?_lookup s m' m key k).trans (ite_self _).symm
    | @started m' key next stack s hl =>
      have hpast : Moment.deeds ⟨.call m' key next, stack, s⟩ = [⟨m', .started key⟩] := by
        rw [deeds_call, hl, Act.called]
      refine h.act hpolicy (congrArg (· ++ past) hpast) ?_ fun k => State.slot?_started k key
      rintro rfl
      exact State.slot?_eq_none_of_absent hretains.fresh hl
    | @succeeded f stack s v =>
      have hmark : s.InFlight f.memo f.key := hguarded.marked _ List.mem_cons_self
      have hcalled : (f.memo, f.key) ∈ calls past := hguarded.within _ List.mem_cons_self
      refine h.act hpolicy rfl ?_ fun k => State.slot?_succeeded k v ?_ ?_
      · rintro rfl
        exact hmark
      · exact fun _ => hretains.fresh
      · rintro rfl
        exact h.room hretains hcalled
    | @failed f stack s e =>
      have hmark : s.InFlight f.memo f.key := hguarded.marked _ List.mem_cons_self
      have hallowed : m = f.memo → s.InFlight m f.key := by
        rintro rfl
        exact hmark
      exact h.act hpolicy rfl hallowed fun k => State.slot?_failed k e hallowed
    | clear => exact h.act hpolicy rfl (fun _ => trivial) State.slot?_cleared
    | @invalidate _ key _ _ _ =>
      exact h.act hpolicy rfl (fun _ => trivial) fun k => State.slot?_invalidated k key
    | advance hd => exact h.of_same hpolicy rfl fun key => State.slot?_advance hd m key
    | probe | runs | look | leave => exact h.of_same hpolicy rfl fun _ => rfl
    | wait _ => exact absurd ⟨_, rfl⟩ hwork
  | waited _ hwait =>
    obtain ⟨t, rfl⟩ := hwait
    exact h.of_same hpolicy rfl fun _ => rfl
  | caught _ => exact h.of_same hpolicy rfl fun _ => rfl

/-! ## Memoizers that time and room take nothing away from -/

/-- A result that is held is the answer to a call, and nothing but the log tells of it. -/
theorem call_of_resolved {s : State n K V W} {m : Fin n} (h : (s.policy m).Lasting) {key : K}
    {v : V} (hslot : s.slot? m key = some (.resolved v)) (fuel : Nat) :
    call body (fuel + 1) m key s
      = .returned (.ok v) { s with log := .hit key :: s.log } := by
  have hsame : s.setCache m (s.memo m).cache = s := State.setMemo_memo s m
  have hslot' : (s.memo m).cache.slot? key = some (.resolved v) := hslot
  rw [call, State.lookup, Cache.lookup_of_lasting h, hslot']
  simp [hsame, State.note, Cache.Lookup.ofSlot]

/-- Where nothing is held a call has the key computed. -/
theorem call_of_none {s : State n K V W} {m : Fin n} (h : (s.policy m).Lasting) {key : K}
    (hslot : s.slot? m key = none) (fuel : Nat) :
    call body (fuel + 1) m key s
      = finish m key (run (call body fuel) (body m key)
          (State.begin { s with log := .missed key :: s.log } m key)) := by
  have hsame : s.setCache m (s.memo m).cache = s := State.setMemo_memo s m
  have hslot' : (s.memo m).cache.slot? key = none := hslot
  rw [call, State.lookup, Cache.lookup_of_lasting h, hslot']
  simp [hsame, State.note, Cache.Lookup.ofSlot]

/-- A result that arrives is held. -/
theorem State.slot?_resolve_self {s : State n K V W} {m : Fin n} (h : (s.policy m).Lasting)
    (key : K) (v : V) : (s.resolve m key v).slot? m key = some (.resolved v) := by
  have hcache : ((s.memo m).cache.resolve s.clock key v).1.slot? key = some (.resolved v) := by
    rw [Cache.slot?_resolve (Cache.fresh_of_lasting h _) (h.hasRoom _), if_pos rfl]
  exact (slot?_setCache s m m _ key).trans ((if_pos rfl).trans hcache)

/-- What a call returns is held when it returns. -/
theorem slot?_of_call_returned {s s' : State n K V W} {m : Fin n} (h : (s.policy m).Lasting)
    {fuel : Nat} {key : K} {v : V} (hcall : call body fuel m key s = .returned (.ok v) s') :
    s'.slot? m key = some (.resolved v) := by
  cases fuel with
  | zero => cases hcall
  | succ fuel =>
    rw [call_succ] at hcall
    cases hl : (s.lookup m key).1 with
    | hit w =>
      rw [hl] at hcall
      cases hcall
      rw [State.slot?_lookup]
      exact State.slot?_of_lookup_hit hl
    | inFlight =>
      rw [hl] at hcall
      cases hcall
    | absent =>
      rw [hl] at hcall
      have hleads := run_leadsTo
        (fun m key next stack s => call_leadsTo body fuel m key next stack s) (body m key)
        [⟨m, key, .done⟩] ((s.lookup m key).2.begin m key)
      cases hrun : run (call body fuel) (body m key) ((s.lookup m key).2.begin m key) with
      | returned result t =>
        rw [hrun] at hcall hleads
        cases result with
        | error e => cases hcall
        | ok w =>
          cases hcall
          -- whatever the computation has done, the policy is still the same
          have hreach : Reaches body ⟨.call m key .done, [], s⟩ ⟨.done (.ok v), _, t⟩ :=
            .head (.started hl) hleads
          have hlasting : (t.policy m).Lasting := by
            rw [policy_reached hreach m]
            exact h
          exact State.slot?_resolve_self hlasting key v
      | unwound cause t =>
        rw [hrun] at hcall
        cases hcall
      | exhausted =>
        rw [hrun] at hcall
        cases hcall

/-- A memoizer that time and room take nothing away from, in a tale whose stack is guarded. -/
structure Steady (m : Fin n) (x : Tale n K V W) : Prop where
  guarded : Guarded (calls x.past) x.now
  lasting : (x.now.state.policy m).Lasting
  booked : Booked m x

theorem Steady.retains {m : Fin n} {x : Tale n K V W} (h : Steady m x) : Retains m x :=
  retains_of_lasting h.lasting

/-- It is no matter what comes next. -/
theorem Steady.of_same {m : Fin n} {x : Tale n K V W} (h : Steady m x)
    {c : Computation n K V W} : Steady m ⟨⟨c, x.now.stack, x.now.state⟩, x.past⟩ :=
  ⟨⟨h.guarded.nodup, h.guarded.within, h.guarded.marked⟩, h.lasting,
    ⟨h.booked.holds, h.booked.lawful⟩⟩

theorem steady_tells {m : Fin n} {x y : Tale n K V W} (ht : Tells body x y) (h : Steady m x) :
    Steady m y where
  guarded := guarded_tells ht h.guarded
  lasting := by
    rw [policy_tells ht m]
    exact h.lasting
  booked := booked_tells ht h.guarded h.retains h.booked

theorem steady_told {program : Computation n K V W} {policies : Vector Cache.Policy n}
    {outside : W} {x : Tale n K V W} (h : Told body (.start program policies outside) x)
    {m : Fin n} (hlasting : (policies.get m).Lasting) : Steady m x := by
  refine h.keeps (fun _ _ => steady_tells) ⟨guarded_start _ _, ?_, booked_start _ _ _ _⟩
  show ((State.start policies outside : State n K V W).policy m).Lasting
  rw [State.policy_start]
  exact hlasting

end Recurrence.Memo
