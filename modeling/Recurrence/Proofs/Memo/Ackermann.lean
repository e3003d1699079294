import Mathlib.Computability.Ackermann
import Recurrence.Memo.Ackermann
import Recurrence.Proofs.Memo.Evaluation

/-!
# Ackermann's function

The recursion on unsigned words evaluates to the mathematical function wherever that fits a word.
The values on the way are smaller than the last one, so none of them can overflow first.
-/

namespace Recurrence

/-! ## Words that hold natural numbers -/

namespace Overflow

theorem word_natCast (operation : Overflow) {a : Nat} (h : a < 2 ^ 64) :
    (word operation a : Except Overflow UInt64) = .ok (.ofNat a) := by
  have hword : Word.least UInt64 ≤ a ∧ (a : Int) ≤ Word.greatest UInt64 :=
    ⟨Int.natCast_nonneg a, by show (a : Int) ≤ 18446744073709551615; omega⟩
  rw [word, if_pos hword]
  rfl

theorem toInt_ofNat {a : Nat} (h : a < 2 ^ 64) : Word.toInt (UInt64.ofNat a) = a :=
  congrArg Int.ofNat (UInt64.toNat_ofNat_of_lt' h)

theorem sum_ofNat {a b : Nat} (h : a + b < 2 ^ 64) :
    sum (UInt64.ofNat a) (.ofNat b) = .ok (.ofNat (a + b)) := by
  rw [sum, toInt_ofNat (by omega), toInt_ofNat (by omega)]
  exact word_natCast .add h

theorem difference_ofNat {a b : Nat} (h : a < 2 ^ 64) (hba : b ≤ a) :
    difference (UInt64.ofNat a) (.ofNat b) = .ok (.ofNat (a - b)) := by
  rw [difference, toInt_ofNat h, toInt_ofNat (by omega), ← Int.ofNat_sub hba]
  exact word_natCast .subtract (by omega)

end Overflow

theorem ofNat_succ_ne_zero {a : Nat} (h : a + 1 < 2 ^ 64) : UInt64.ofNat (a + 1) ≠ 0 := by
  intro he
  have htoNat := congrArg UInt64.toNat he
  rw [UInt64.toNat_ofNat_of_lt' h] at htoNat
  exact absurd htoNat (Nat.succ_ne_zero a)

/-! ## The recursion -/

/-- The computation calls no memoizer but its own, and keeps its hands off the clock and off what
memoizers hold. -/
def Computation.KeepsTo {n : Nat} {K V W : Type} (self : Fin n) : Computation n K V W → Prop
  | .done _ | .unwind _ => True
  | .call m _ next => m = self ∧ ∀ answer, (next answer).KeepsTo self
  | .look next => ∀ w, (next w).KeepsTo self
  | .leave _ next => next.KeepsTo self
  | _ => False

section

variable {n : Nat} {K V W : Type} {self : Fin n}

theorem keepsTo_checked {A : Type} {result : Except Overflow A} {next : A → Computation n K V W}
    (hnext : ∀ a, (next a).KeepsTo self) : (Computation.checked result next).KeepsTo self := by
  cases result with
  | ok a => exact hnext a
  | error cause => trivial

theorem keepsTo_value {key : K} {next : V → Computation n K V W}
    (hnext : ∀ v, (next v).KeepsTo self) : (Computation.value self key next).KeepsTo self := by
  refine ⟨rfl, fun answer => ?_⟩
  cases answer with
  | ok v => exact hnext v
  | error e => trivial

/-- A call for a key that has a value goes on with it. -/
theorem evaluates_value {body : Fin n → K → Computation n K V W} {key : K} {v : V}
    (h : Evaluates body (body self key) (.ok v)) {next : V → Computation n K V W}
    {r : MemoResult K V} (hnext : Evaluates body (next v) r) :
    Evaluates body (.value self key next) r :=
  .call h hnext

end

namespace Ackermann

variable {n : Nat} {W : Type}

/-- The memoizer computes Ackermann's function, and may count, or otherwise note outside, the
computations that begin. -/
def ComputedBy (body : Fin n → Arguments → Computation n Arguments UInt64 W) (self : Fin n) : Prop :=
  body self = computation self
    ∨ ∃ change, body self = fun arguments => (computation self arguments).after change

theorem keepsTo_computation (self : Fin n) (arguments : Arguments) :
    (computation self arguments : Computation n Arguments UInt64 W).KeepsTo self := by
  have hpure (v : UInt64) : (Computation.pure v : Computation n Arguments UInt64 W).KeepsTo self :=
    trivial
  unfold computation step
  split
  · refine keepsTo_checked ?_
    exact hpure
  split
  · refine keepsTo_checked fun below => ?_
    exact keepsTo_value hpure
  · refine keepsTo_checked fun left => keepsTo_value fun inner => ?_
    refine keepsTo_checked fun below => ?_
    exact keepsTo_value hpure

theorem computation_zero (self : Fin n) {b : Nat} (hb : b + 1 < 2 ^ 64) :
    (computation self (.ofNat 0, .ofNat b) : Computation n Arguments UInt64 W)
      = .pure (.ofNat (b + 1)) := by
  have hsum : Overflow.sum (UInt64.ofNat b) 1 = .ok (.ofNat (b + 1)) := Overflow.sum_ofNat hb
  rw [computation, step, if_pos (show UInt64.ofNat 0 = 0 from rfl), hsum]
  rfl

theorem computation_succ_zero (self : Fin n) {a : Nat} (ha : a + 1 < 2 ^ 64) :
    (computation self (.ofNat (a + 1), .ofNat 0) : Computation n Arguments UInt64 W)
      = .value self (.ofNat a, .ofNat 1) .pure := by
  have hbelow : Overflow.difference (UInt64.ofNat (a + 1)) 1 = .ok (.ofNat a) :=
    Overflow.difference_ofNat (b := 1) ha (by omega)
  rw [computation, step, if_neg (ofNat_succ_ne_zero ha),
    if_pos (show UInt64.ofNat 0 = 0 from rfl), hbelow]
  rfl

theorem computation_succ_succ (self : Fin n) {a b : Nat} (ha : a + 1 < 2 ^ 64)
    (hb : b + 1 < 2 ^ 64) :
    (computation self (.ofNat (a + 1), .ofNat (b + 1)) : Computation n Arguments UInt64 W)
      = .value self (.ofNat (a + 1), .ofNat b) fun inner => .value self (.ofNat a, inner) .pure := by
  have hbelow : Overflow.difference (UInt64.ofNat (a + 1)) 1 = .ok (.ofNat a) :=
    Overflow.difference_ofNat (b := 1) ha (by omega)
  have hleft : Overflow.difference (UInt64.ofNat (b + 1)) 1 = .ok (.ofNat b) :=
    Overflow.difference_ofNat (b := 1) hb (by omega)
  rw [computation, step, if_neg (ofNat_succ_ne_zero ha), if_neg (ofNat_succ_ne_zero hb), hbelow,
    hleft]
  rfl

section

variable {body : Fin n → Arguments → Computation n Arguments UInt64 W} {self : Fin n}

theorem ComputedBy.keepsTo (h : ComputedBy body self) (arguments : Arguments) :
    (body self arguments).KeepsTo self := by
  rcases h with h | ⟨change, h⟩
  · rw [h]
    exact keepsTo_computation self arguments
  · rw [h]
    exact fun _ => keepsTo_computation self arguments

theorem ComputedBy.evaluates (h : ComputedBy body self) {arguments : Arguments}
    {r : MemoResult Arguments UInt64} (hr : Evaluates body (computation self arguments) r) :
    Evaluates body (body self arguments) r := by
  rcases h with h | ⟨change, h⟩
  · rw [h]
    exact hr
  · rw [h]
    exact .look fun _ => .leave hr

theorem ComputedBy.evaluates_ofNat (h : ComputedBy body self) (a b : Nat)
    (hfits : ack a b < 2 ^ 64) :
    Evaluates body (body self (.ofNat a, .ofNat b)) (.ok (.ofNat (ack a b))) := by
  induction a generalizing b with
  | zero =>
    rw [ack_zero] at hfits ⊢
    refine h.evaluates ?_
    rw [computation_zero self hfits]
    exact .done
  | succ a iha =>
    have ha : a + 1 < 2 ^ 64 := (lt_ack_left (a + 1) b).trans hfits
    induction b with
    | zero =>
      rw [ack_succ_zero] at hfits ⊢
      refine h.evaluates ?_
      rw [computation_succ_zero self ha]
      exact evaluates_value (iha 1 hfits) .done
    | succ b ihb =>
      have hb : b + 1 < 2 ^ 64 := (lt_ack_right (a + 1) (b + 1)).trans hfits
      rw [ack_succ_succ] at hfits ⊢
      -- the inner value is an argument of the outer one, and so below it
      have hinner := (lt_ack_right a (ack (a + 1) b)).trans hfits
      refine h.evaluates ?_
      rw [computation_succ_succ self ha hb]
      exact evaluates_value (ihb hinner) (evaluates_value (iha _ hfits) .done)

/-- **The recursion is Ackermann's function**, for every word that is a value of it. -/
theorem ComputedBy.evaluates_word (h : ComputedBy body self) {a b v : UInt64}
    (hv : ack a.toNat b.toNat = v.toNat) : Evaluates body (body self (a, b)) (.ok v) := by
  have hvalue := h.evaluates_ofNat a.toNat b.toNat (hv ▸ v.toNat_lt)
  rwa [hv, UInt64.ofNat_toNat, UInt64.ofNat_toNat, UInt64.ofNat_toNat] at hvalue

end

end Ackermann

end Recurrence
