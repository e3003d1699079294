import Recurrence.Proofs.Cache.Retention
import Recurrence.Proofs.Memo.Termination

/-!
# Histories

A moment does not show what has happened before it: which computations have begun and how they have
ended, which calls were answered from a cache, what was dropped by hand. A tale is a moment together
with all that, the latest first. What belongs to one memoizer can be read off it by itself.

Where a step cannot be done, the moments of a run come to a halt, but its tale need not: the program
outside may catch the unwinding and go on, with all that the computations left behind, their marks
included.
-/

namespace Recurrence.Memo

variable {n : Nat} {K V W : Type}

/-- What happens at a memoizer. -/
inductive Act (K V : Type) where
  /-- A call was answered with the result that was held. -/
  | answered (key : K) (v : V)
  /-- A call was refused, since the key was being computed. -/
  | refused (key : K)
  /-- A call had the key computed. -/
  | started (key : K)
  /-- A computation came to an end, and with it its call. -/
  | succeeded (key : K) (v : V)
  | failed (key : K) (e : MemoError K)
  | cleared
  | invalidated (key : K)
deriving DecidableEq

/-- What happens at one of the memoizers. -/
structure Deed (n : Nat) (K V : Type) where
  memo : Fin n
  act : Act K V

/-- A moment, and all that has happened before it, the latest first. -/
structure Tale (n : Nat) (K V W : Type) where
  now : Moment n K V W
  past : List (Deed n K V)

/-- The key that is called for, in an act that is the beginning of a call. -/
def Act.called? : Act K V → Option K
  | .answered key _ | .refused key | .started key => some key
  | .succeeded _ _ | .failed _ _ | .cleared | .invalidated _ => none

def Deed.called? (d : Deed n K V) : Option (Fin n × K) := d.act.called?.map fun key => (d.memo, key)

/-- What has happened at a memoizer. -/
def actsOf (m : Fin n) : List (Deed n K V) → List (Act K V)
  | [] => []
  | d :: past => if d.memo = m then d.act :: actsOf m past else actsOf m past

theorem mem_actsOf {m : Fin n} {a : Act K V} {past : List (Deed n K V)} :
    a ∈ actsOf m past ↔ ⟨m, a⟩ ∈ past := by
  induction past with
  | nil => simp [actsOf]
  | cons d past ih =>
    obtain ⟨m', b⟩ := d
    rw [actsOf, List.mem_cons, Deed.mk.injEq, ← ih]
    split
    · simp_all
    · simp_all [eq_comm]

theorem actsOf_append (m : Fin n) (later past : List (Deed n K V)) :
    actsOf m (later ++ past) = actsOf m later ++ actsOf m past := by
  induction later with
  | nil => rfl
  | cons d later ih =>
    rw [List.cons_append, actsOf, actsOf]
    split
    · rw [ih, List.cons_append]
    · exact ih

theorem actsOf_suffix {m : Fin n} {past past' : List (Deed n K V)} (h : past <:+ past') :
    actsOf m past <:+ actsOf m past' := by
  obtain ⟨later, rfl⟩ := h
  rw [actsOf_append]
  exact List.suffix_append _ _

variable [DecidableEq K]

/-- The keys that have been called for, at a memoizer and at all of them. -/
def calledKeys (acts : List (Act K V)) : Finset K := (acts.filterMap Act.called?).toFinset

def calls (past : List (Deed n K V)) : Finset (Fin n × K) :=
  (past.filterMap Deed.called?).toFinset

theorem mem_calledKeys_actsOf {m : Fin n} {key : K} {past : List (Deed n K V)} :
    key ∈ calledKeys (actsOf m past) ↔ (m, key) ∈ calls past := by
  rw [calledKeys, calls, List.mem_toFinset, List.mem_toFinset]
  induction past with
  | nil => simp [actsOf]
  | cons d past ih =>
    obtain ⟨m', a⟩ := d
    rw [List.filterMap_cons, actsOf]
    by_cases hm : m' = m
    · subst hm
      rw [if_pos rfl, List.filterMap_cons]
      cases a <;> simp [Deed.called?, Act.called?, ih]
    · rw [if_neg hm, ih]
      cases a <;> simp [Deed.called?, Act.called?, Ne.symm hm]

theorem calls_mono {past past' : List (Deed n K V)} (h : past <:+ past') :
    calls past ⊆ calls past' := by
  intro x hx
  rw [calls, List.mem_toFinset] at *
  exact (h.sublist.filterMap _).subset hx

/-! ## Telling a run -/

omit [DecidableEq K] in
theorem not_waits_of_stack_ne {a b : Moment n K V W} (h : b.stack ≠ a.stack) : ¬ a.Waits b := by
  rintro ⟨t, rfl⟩
  exact h rfl

/-- What a call is, by what it finds. -/
def Act.called (key : K) : Cache.Lookup V → Act K V
  | .hit v => .answered key v
  | .inFlight => .refused key
  | .absent => .started key

/-- What the next step of a program does, if it is done at a memoizer. -/
def Moment.deeds (now : Moment n K V W) : List (Deed n K V) :=
  match now.doing, now.stack with
  | .call m key _, _ => [⟨m, .called key (now.state.lookup m key).1⟩]
  | .done (.ok v), f :: _ => [⟨f.memo, .succeeded f.key v⟩]
  | .done (.error e), f :: _ => [⟨f.memo, .failed f.key e⟩]
  | .clear m _, _ => [⟨m, .cleared⟩]
  | .invalidate m key _, _ => [⟨m, .invalidated key⟩]
  | _, _ => []

theorem deeds_call (m : Fin n) (key : K) (next : MemoResult K V → Computation n K V W)
    (stack : List (Frame n K V W)) (s : State n K V W) :
    Moment.deeds ⟨.call m key next, stack, s⟩ = [⟨m, .called key (s.lookup m key).1⟩] := rfl

/-- Nothing has happened before a program sets out. -/
def Tale.start (program : Computation n K V W) (policies : Vector Cache.Policy n) (outside : W) :
    Tale n K V W :=
  ⟨.start program policies outside, []⟩

variable {body : Fin n → K → Computation n K V W}

/-- One moment of a tale and the next. -/
inductive Tells (body : Fin n → K → Computation n K V W) : Tale n K V W → Tale n K V W → Prop
  | worked {a b past} : Step body a b → ¬ a.Waits b → Tells body ⟨a, past⟩ ⟨b, a.deeds ++ past⟩
  | waited {a b past} : Step body a b → a.Waits b → Tells body ⟨a, past⟩ ⟨b, past⟩
  /-- The program outside catches an unwinding, and goes on in its own way. -/
  | caught {now cause program past} : now.Unwinds cause →
      Tells body ⟨now, past⟩ ⟨⟨program, [], now.state⟩, past⟩

/-- A later moment of the same tale. -/
abbrev Told (body : Fin n → K → Computation n K V W) : Tale n K V W → Tale n K V W → Prop :=
  Relation.ReflTransGen (Tells body)

theorem Tells.look {next : W → Computation n K V W} {stack : List (Frame n K V W)}
    {s : State n K V W} {past : List (Deed n K V)} :
    Tells body ⟨⟨.look next, stack, s⟩, past⟩ ⟨⟨next s.outside, stack, s⟩, past⟩ :=
  .worked .look (not_waits_of_left (.look _))

/-- What every step keeps is kept throughout. -/
theorem Told.keeps {P : Tale n K V W → Prop} {x y : Tale n K V W} (h : Told body x y)
    (hstep : ∀ x y, Tells body x y → P x → P y) (hx : P x) : P y := by
  induction h with
  | refl => exact hx
  | tail _ ht ih => exact hstep _ _ ht ih

theorem Tells.past_suffix {x y : Tale n K V W} (h : Tells body x y) : x.past <:+ y.past := by
  cases h with
  | worked _ _ => exact List.suffix_append _ _
  | waited _ _ | caught _ => exact List.suffix_refl _

theorem Told.past_suffix {x y : Tale n K V W} (h : Told body x y) : x.past <:+ y.past :=
  h.keeps (P := fun z => x.past <:+ z.past) (fun _ _ ht hs => hs.trans ht.past_suffix)
    (List.suffix_refl _)

/-- Every run can be told. -/
theorem Reaches.told {a b : Moment n K V W} (h : Reaches body a b) (past : List (Deed n K V)) :
    ∃ past', Told body ⟨a, past⟩ ⟨b, past'⟩ := by
  induction h with
  | refl => exact ⟨past, .refl⟩
  | @tail b c _ hs ih =>
    obtain ⟨past', htold⟩ := ih
    by_cases hwait : b.Waits c
    · exact ⟨past', htold.tail (.waited hs hwait)⟩
    · exact ⟨b.deeds ++ past', htold.tail (.worked hs hwait)⟩

/-- A call that returns is told. -/
theorem told_of_call_returned {fuel : Nat} {m : Fin n} {key : K} {s s' : State n K V W}
    {result : MemoResult K V} (h : call body fuel m key s = .returned result s')
    (next : MemoResult K V → Computation n K V W) (stack : List (Frame n K V W))
    (past : List (Deed n K V)) :
    ∃ past', Told body ⟨⟨.call m key next, stack, s⟩, past⟩ ⟨⟨next result, stack, s'⟩, past'⟩ := by
  have hleads := call_leadsTo body fuel m key next stack s
  rw [h] at hleads
  exact Reaches.told hleads past

/-- What is called for is told. -/
theorem mem_calls_deeds {m : Fin n} {key : K} {next : MemoResult K V → Computation n K V W}
    {now : Moment n K V W} (h : now.doing = .call m key next) (past : List (Deed n K V)) :
    (m, key) ∈ calls (now.deeds ++ past) := by
  obtain ⟨doing, stack, s⟩ := now
  cases h
  have hcalled : (Act.called key (s.lookup m key).1).called? = some key := by
    cases (s.lookup m key).1 <;> rfl
  rw [calls, List.mem_toFinset, List.filterMap_append, List.mem_append]
  left
  simp [Moment.deeds, Deed.called?, hcalled]

/-! ## The stack of a tale -/

theorem Guarded.mono {S T : Finset (Fin n × K)} {now : Moment n K V W} (h : Guarded S now)
    (hST : S ⊆ T) : Guarded T now :=
  ⟨h.nodup, fun x hx => hST (h.within x hx), h.marked⟩

theorem Guarded.doing {S : Finset (Fin n × K)} {now : Moment n K V W} (h : Guarded S now)
    (c : Computation n K V W) : Guarded S ⟨c, now.stack, now.state⟩ :=
  ⟨h.nodup, h.within, h.marked⟩

/-- The computations on the stack are of different keys, which are marked and have been called
for. -/
theorem guarded_tells {x y : Tale n K V W} (ht : Tells body x y)
    (h : Guarded (calls x.past) x.now) : Guarded (calls y.past) y.now := by
  have h' := h.mono (calls_mono ht.past_suffix)
  cases ht with
  | @worked a b past hs _ =>
    exact guarded_step hs (fun m key next hcall => mem_calls_deeds hcall past) h'
  | waited _ hwait =>
    obtain ⟨t, rfl⟩ := hwait
    exact h'.of_same fun _ _ hmark => hmark
  | caught _ => exact guarded_start _ _

theorem Guarded.told {x y : Tale n K V W} (hx : Guarded (calls x.past) x.now)
    (h : Told body x y) : Guarded (calls y.past) y.now :=
  h.keeps (P := fun z => Guarded (calls z.past) z.now) (fun _ _ => guarded_tells) hx

theorem guarded_told {program : Computation n K V W} {policies : Vector Cache.Policy n}
    {outside : W} {x : Tale n K V W} (h : Told body (.start program policies outside) x) :
    Guarded (calls x.past) x.now :=
  (guarded_start _ _).told h

/-! ## The policies of a tale -/

/-- The policy of a memoizer. -/
def State.policy (s : State n K V W) (m : Fin n) : Cache.Policy := (s.memo m).cache.policy

theorem State.memo_start (policies : Vector Cache.Policy n) (outside : W) (m : Fin n) :
    (start policies outside : State n K V W).memo m = ⟨(policies.get m).cache, 0⟩ := by
  show (policies.map _)[m.val] = _
  rw [Vector.getElem_map]
  rfl

theorem State.policy_start (policies : Vector Cache.Policy n) (outside : W) (m : Fin n) :
    (start policies outside : State n K V W).policy m = policies.get m := by
  rw [policy, memo_start, Cache.policy_cache]

omit [DecidableEq K] in
theorem State.cache_setMemo {P : Cache K V → Prop} {s : State n K V W} {m k : Fin n}
    {x : Memo K V} (h : k = m → P x.cache) (hs : P (s.memo k).cache) :
    P ((s.setMemo m x).memo k).cache := by
  rw [memo_setMemo]
  split
  · exact h ‹k = m›
  · exact hs

/-- **Kept by every step**: what the operations of a cache keep. -/
theorem cache_step {P : Cache K V → Prop} (hP : Cache.Kept P) {a b : Moment n K V W}
    (hs : Step body a b) {m : Fin n} (h : P (a.state.memo m).cache) :
    P (b.state.memo m).cache := by
  cases hs with
  | @hit m' key _ _ s _ _ | @refused m' key _ _ s _ =>
    refine State.cache_setMemo ?_ h
    rintro rfl
    exact hP.lookup _ s.clock key h
  | @started m' key _ _ s _ =>
    have hlookup : P ((s.lookup m' key).2.memo m).cache := by
      refine State.cache_setMemo ?_ h
      rintro rfl
      exact hP.lookup _ s.clock key h
    refine State.cache_setMemo ?_ hlookup
    rintro rfl
    exact hP.begin _ key hlookup
  | @succeeded f _ s v =>
    refine State.cache_setMemo ?_ h
    rintro rfl
    exact hP.resolve _ s.clock f.key v h
  | @failed f _ _ _ =>
    refine State.cache_setMemo ?_ h
    rintro rfl
    exact hP.abandon _ f.key h
  | clear =>
    refine State.cache_setMemo ?_ h
    rintro rfl
    exact hP.clear _ h
  | @invalidate _ key _ _ _ =>
    refine State.cache_setMemo ?_ h
    rintro rfl
    exact hP.invalidate _ key h
  | advance hd =>
    obtain ⟨clock, -, rfl⟩ := Option.map_eq_some_iff.mp hd
    exact h
  | probe | runs | look | leave | wait => exact h

theorem cache_tells {P : Cache K V → Prop} (hP : Cache.Kept P) {x y : Tale n K V W}
    (ht : Tells body x y) {m : Fin n} (h : P (x.now.state.memo m).cache) :
    P (y.now.state.memo m).cache := by
  cases ht with
  | worked hs _ | waited hs _ => exact cache_step hP hs h
  | caught _ => exact h

/-- A memoizer keeps its policy. -/
theorem policy_reached {a b : Moment n K V W} (h : Reaches body a b) (m : Fin n) :
    b.state.policy m = a.state.policy m :=
  h.keeps (P := fun now => now.state.policy m = a.state.policy m)
    (fun _ _ hs hb => cache_step (Cache.kept_policy _) hs hb) rfl

theorem policy_tells {x y : Tale n K V W} (ht : Tells body x y) (m : Fin n) :
    y.now.state.policy m = x.now.state.policy m :=
  cache_tells (Cache.kept_policy _) ht rfl

theorem policy_told {program : Computation n K V W} {policies : Vector Cache.Policy n}
    {outside : W} {x : Tale n K V W} (h : Told body (.start program policies outside) x)
    (m : Fin n) : x.now.state.policy m = policies.get m :=
  h.keeps (P := fun x => x.now.state.policy m = policies.get m)
    (fun _ _ ht hx => (policy_tells ht m).trans hx) (State.policy_start policies outside m)

/-- Where no expiry can be represented, nothing ever expires. -/
theorem fresh_told {program : Computation n K V W} {policies : Vector Cache.Policy n}
    {outside : W} {x : Tale n K V W} (h : Told body (.start program policies outside) x)
    {m : Fin n}
    (hendless : ∀ hand ttl, policies.get m = .ttl hand ttl → Instant.limit ≤ ttl.nanos) :
    (x.now.state.memo m).cache.Fresh x.now.state.clock := by
  have hx : (x.now.state.memo m).cache.Endless := by
    refine h.keeps (P := fun x => (x.now.state.memo m).cache.Endless)
      (fun _ _ ht hx => cache_tells Cache.kept_endless ht hx) ?_
    show ((State.start policies outside : State n K V W).memo m).cache.Endless
    rw [State.memo_start]
    exact Cache.endless_cache hendless
  exact hx.fresh _

end Recurrence.Memo
