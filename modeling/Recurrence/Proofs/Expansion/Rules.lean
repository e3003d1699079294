import Mathlib.Dynamics.PeriodicPts.Defs
import Recurrence.Proofs.Expansion.Exact

/-!
# The rules of writing digits

Division never writes a zero behind the last digit that counts, it writes a period only once and as
early as it begins, and it knows no period of zeros or of nines. These rules can be checked by
looking at the digits. Each of them says something about remainders: a remainder that comes back is
known from the digits in between (`eq_of_digitsOf_eq`), so one that comes back too early shows in
the digits as a period that is a repetition, or as one that could have begun earlier.

Therefore the rules are enough: where the digits of a division are cut according to the rules, there
the division finds its period.
-/

namespace Recurrence

namespace Digits

/-! ## Digit strings and their values -/

/-- Of the digit strings of one length each has its own value. -/
theorem eq_of_value_eq {as bs : List Digit} (hlength : as.length = bs.length)
    (hvalue : value as = value bs) : as = bs := by
  induction as using List.reverseRecOn generalizing bs with
  | nil => exact (List.length_eq_zero_iff.mp hlength.symm).symm
  | append_singleton as a ih =>
    rcases List.eq_nil_or_concat bs with rfl | ⟨bs, b, rfl⟩
    · simp at hlength
    · rw [List.concat_eq_append] at *
      rw [value_append_singleton, value_append_singleton] at hvalue
      have ha := a.isLt
      have hb := b.isLt
      have hfront : as = bs := ih (by simpa using hlength) (by omega)
      have hlast : a = b := Fin.ext (by omega)
      rw [hfront, hlast]

theorem value_replicate_zero (k : Nat) : value (List.replicate k 0) = 0 := by
  induction k with
  | zero => rfl
  | succ k ih => rw [List.replicate_succ', value_append_singleton, ih]; rfl

theorem value_replicate_nine (k : Nat) : value (List.replicate k 9) + 1 = 10 ^ k := by
  induction k with
  | zero => rfl
  | succ k ih =>
    have hnine : (9 : Digit).val = 9 := rfl
    rw [List.replicate_succ', value_append_singleton, hnine, Nat.pow_succ, ← ih]
    omega

theorem value_eq_zero_iff {ds : List Digit} : value ds = 0 ↔ ∀ digit ∈ ds, digit = 0 := by
  constructor
  · intro h
    have hzeros : ds = List.replicate ds.length 0 :=
      eq_of_value_eq (by rw [List.length_replicate]) (by rw [h, value_replicate_zero])
    exact (List.eq_replicate_iff.mp hzeros).2
  · intro h
    rw [List.eq_replicate_iff.mpr ⟨rfl, h⟩, value_replicate_zero]

theorem value_eq_nines_iff {ds : List Digit} :
    value ds + 1 = 10 ^ ds.length ↔ ∀ digit ∈ ds, digit = 9 := by
  have hnines := value_replicate_nine ds.length
  constructor
  · intro h
    have hall : ds = List.replicate ds.length 9 :=
      eq_of_value_eq (by rw [List.length_replicate]) (by omega)
    exact (List.eq_replicate_iff.mp hall).2
  · intro h
    rwa [← List.eq_replicate_iff.mpr ⟨rfl, h⟩] at hnines

/-- A repetition begins with what is repeated. -/
theorem exists_rest_of_repetition {ds group : List Digit} {count : Nat} (hne : ds ≠ [])
    (h : ds = (List.replicate count group).flatten) :
    0 < group.length ∧ ∃ rest, ds = group ++ rest := by
  cases count with
  | zero => exact absurd h hne
  | succ count =>
    rw [List.replicate_succ, List.flatten_cons] at h
    refine ⟨?_, _, h⟩
    rw [List.length_pos_iff]
    intro hnil
    exact hne (h.trans (by simp [hnil]))

/-- One more time in front is one more time behind. -/
theorem repetition_append (group : List Digit) (count : Nat) :
    (List.replicate count group).flatten ++ group
      = group ++ (List.replicate count group).flatten := by
  have hcons : (List.replicate count group ++ [group]).flatten
      = (group :: List.replicate count group).flatten := by
    rw [← List.replicate_succ', List.replicate_succ]
  rwa [List.flatten_append, List.flatten_singleton, List.flatten_cons] at hcons

/--
The digits behind the point are written by the rules. Without a period there is no zero at the end.
A period is not all zeros and not all nines, it is no repetition of a shorter one, and it cannot
begin one digit earlier.
-/
structure Canonical (preperiod period : List Digit) : Prop where
  terminating : period = [] → preperiod.getLast? ≠ some 0
  notZeros : period ≠ [] → ¬ ∀ digit ∈ period, digit = 0
  notNines : period ≠ [] → ¬ ∀ digit ∈ period, digit = 9
  primitive : ∀ group count, period = (List.replicate count group).flatten →
    period.length ≤ group.length
  parted : period ≠ [] → preperiod.getLast? ≠ period.getLast?

/-- Whether a period is a repetition shows in its beginnings. -/
theorem primitive_iff_take (period : List Digit) :
    (∀ group count, period = (List.replicate count group).flatten →
        period.length ≤ group.length)
      ↔ ∀ k < period.length,
        period ≠ (List.replicate (period.length / k) (period.take k)).flatten := by
  constructor
  · intro h k hk hrepetition
    have hle := h _ _ hrepetition
    rw [List.length_take] at hle
    omega
  · intro h group count hrepetition
    by_contra hlt
    have hne : period ≠ [] := List.length_pos_iff.mp (by omega)
    obtain ⟨hgroup, rest, hrest⟩ := exists_rest_of_repetition hne hrepetition
    have htake : period.take group.length = group := by rw [hrest, List.take_left' rfl]
    have hcount : period.length = count * group.length := by simp [hrepetition]
    refine h group.length (by omega) ?_
    rw [htake, hcount, Nat.mul_div_cancel _ hgroup]
    exact hrepetition

instance (preperiod period : List Digit) : Decidable (Canonical preperiod period) :=
  decidable_of_iff
    ((period = [] → preperiod.getLast? ≠ some 0)
      ∧ (period ≠ [] → ¬ ∀ digit ∈ period, digit = 0)
      ∧ (period ≠ [] → ¬ ∀ digit ∈ period, digit = 9)
      ∧ (∀ k < period.length,
        period ≠ (List.replicate (period.length / k) (period.take k)).flatten)
      ∧ (period ≠ [] → preperiod.getLast? ≠ period.getLast?))
    ⟨fun ⟨ht, hz, hn, hp, hl⟩ => ⟨ht, hz, hn, (primitive_iff_take period).mpr hp, hl⟩,
      fun h => ⟨h.terminating, h.notZeros, h.notNines, (primitive_iff_take period).mp h.primitive,
        h.parted⟩⟩

end Digits

namespace LongDivision

variable {divisor numerator start length : Nat}

/-! ## Digits and remainders -/

theorem digitsOf_add (i j : Nat) :
    digitsOf divisor numerator (i + j)
      = digitsOf divisor numerator i ++ digitsOf divisor (remainderAt divisor numerator i) j := by
  rw [← digitsOf_drop, ← digitsOf_take (Nat.le_add_right i j), List.take_append_drop]

theorem getLast?_digitsOf (k : Nat) :
    (digitsOf divisor numerator (k + 1)).getLast? = some (stepAt divisor numerator k).digit := by
  simp [digitsOf, List.range_succ]

theorem digitsOf_eq_nil_iff : digitsOf divisor numerator length = [] ↔ length = 0 := by
  rw [← List.length_eq_zero_iff, digitsOf_length]

/-- A remainder is known from its digit and the next remainder. -/
theorem remainderAt_eq_of_step (hpos : 0 < divisor) {i j : Nat}
    (hdigit : (stepAt divisor numerator i).digit = (stepAt divisor numerator j).digit)
    (hnext : remainderAt divisor numerator (i + 1) = remainderAt divisor numerator (j + 1)) :
    remainderAt divisor numerator i = remainderAt divisor numerator j := by
  have hi := Nat.div_add_mod (remainderAt divisor numerator i * 10) divisor
  have hj := Nat.div_add_mod (remainderAt divisor numerator j * 10) divisor
  rw [← stepAt_digit hpos, ← remainderAt_succ] at hi hj
  rw [hdigit, hnext] at hi
  omega

/-- What comes back once does so from there on. -/
theorem remainderAt_shift {i k : Nat}
    (h : remainderAt divisor numerator (i + k) = remainderAt divisor numerator i) {j : Nat}
    (hle : i ≤ j) : remainderAt divisor numerator (j + k) = remainderAt divisor numerator j := by
  obtain ⟨m, rfl⟩ := Nat.exists_eq_add_of_le hle
  rw [show i + m + k = i + k + m by omega, ← remainderAt_remainderAt, h, remainderAt_remainderAt]

/-- Nothing comes after a zero. -/
theorem remainderAt_eq_zero_of_le {i j : Nat} (hle : i ≤ j)
    (h : remainderAt divisor numerator i = 0) : remainderAt divisor numerator j = 0 := by
  obtain ⟨k, rfl⟩ := Nat.exists_eq_add_of_le hle
  rw [← remainderAt_remainderAt, h, remainderAt, Nat.zero_mul, Nat.zero_mod]

theorem nines_pos (hlength : 0 < length) : 0 < 10 ^ length - 1 := by
  have hpow : 1 < 10 ^ length := Nat.one_lt_pow hlength.ne' (by decide)
  omega

/-- A remainder that comes back gives the same digits over and over. -/
theorem digitsOf_mul {x : Nat} (hreturns : remainderAt divisor x length = x) (count : Nat) :
    digitsOf divisor x (length * count)
      = (List.replicate count (digitsOf divisor x length)).flatten := by
  induction count with
  | zero => rfl
  | succ count ih =>
    rw [Nat.mul_succ, Nat.add_comm, digitsOf_add, hreturns, ih, List.replicate_succ,
      List.flatten_cons]

/-- The remainders are the iterates of one step. -/
theorem iterate_eq_remainderAt {x : Nat} (hx : x < divisor) (i : Nat) :
    (fun r => r * 10 % divisor)^[i] x = remainderAt divisor x i := by
  induction i with
  | zero => exact (remainderAt_zero hx).symm
  | succ i ih => rw [Function.iterate_succ_apply', ih, remainderAt_succ]

theorem isPeriodicPt_iff {x : Nat} (hx : x < divisor) (i : Nat) :
    Function.IsPeriodicPt (fun r => r * 10 % divisor) i x ↔ remainderAt divisor x i = x := by
  rw [Function.IsPeriodicPt, Function.IsFixedPt, iterate_eq_remainderAt hx]

/-! ## What a rule says of the remainders -/

/-- A zero at the end is a digit that need not have been written. -/
theorem getLast?_eq_zero_iff (hpos : 0 < divisor) {k : Nat}
    (hzero : remainderAt divisor numerator (k + 1) = 0) :
    (digitsOf divisor numerator (k + 1)).getLast? = some 0
      ↔ remainderAt divisor numerator k = 0 := by
  have hstep := Nat.div_add_mod (remainderAt divisor numerator k * 10) divisor
  rw [← stepAt_digit hpos, ← remainderAt_succ, hzero, Nat.add_zero] at hstep
  rw [getLast?_digitsOf, Option.some.injEq, ← Fin.val_eq_zero_iff]
  constructor
  · intro hdigit
    rw [hdigit, Nat.mul_zero] at hstep
    omega
  · intro hprevious
    rw [hprevious, Nat.zero_mul, Nat.mul_eq_zero] at hstep
    omega

/-- A period can begin earlier if the remainder in front of it comes back as well. -/
theorem getLast?_eq_getLast?_iff (hpos : 0 < divisor) {i k : Nat}
    (hreturns : remainderAt divisor numerator (i + 1 + (k + 1))
      = remainderAt divisor numerator (i + 1)) :
    (digitsOf divisor numerator (i + 1)).getLast?
        = (digitsOf divisor (remainderAt divisor numerator (i + 1)) (k + 1)).getLast?
      ↔ remainderAt divisor numerator (i + (k + 1)) = remainderAt divisor numerator i := by
  have hshift : i + (k + 1) = i + 1 + k := by omega
  rw [getLast?_digitsOf, getLast?_digitsOf, stepAt_remainderAt, Option.some.injEq, hshift]
  constructor
  · intro hdigit
    exact remainderAt_eq_of_step hpos hdigit.symm hreturns
  · intro hsame
    rw [stepAt, stepAt, hsame]

section Period

variable {x : Nat} (hx : x < divisor) (hreturns : remainderAt divisor x length = x)

include hx hreturns

/-- A remainder that comes back is as many nines of the divisor as its digits say. -/
theorem mul_value_of_returns :
    divisor * Digits.value (digitsOf divisor x length) = x * (10 ^ length - 1) := by
  have hvalue := value_digitsOf hx length
  rw [hreturns] at hvalue
  rw [Nat.mul_sub, Nat.mul_one, ← hvalue, Nat.add_sub_cancel]

theorem zeros_iff (hlength : 0 < length) :
    (∀ digit ∈ digitsOf divisor x length, digit = 0) ↔ x = 0 := by
  have hvalue := mul_value_of_returns hx hreturns
  have hnines := nines_pos hlength
  rw [← Digits.value_eq_zero_iff]
  constructor
  · intro hzero
    rw [hzero, Nat.mul_zero, eq_comm, Nat.mul_eq_zero] at hvalue
    omega
  · rintro rfl
    rw [Nat.zero_mul, Nat.mul_eq_zero] at hvalue
    omega

theorem not_nines (hlength : 0 < length) :
    ¬ ∀ digit ∈ digitsOf divisor x length, digit = 9 := by
  intro hall
  have hvalue := mul_value_of_returns hx hreturns
  have hnines := Digits.value_eq_nines_iff.mpr hall
  rw [digitsOf_length] at hnines
  rw [← hnines, Nat.add_sub_cancel] at hvalue
  have hpos := nines_pos hlength
  have := Nat.eq_of_mul_eq_mul_right (by omega) hvalue
  omega

/-- A remainder that comes back is known from the digits in between. -/
theorem eq_of_digitsOf_eq (hlength : 0 < length) {y : Nat} (hy : y < divisor)
    (hreturns' : remainderAt divisor y length = y)
    (hdigits : digitsOf divisor x length = digitsOf divisor y length) : x = y := by
  apply Nat.eq_of_mul_eq_mul_right (nines_pos hlength)
  rw [← mul_value_of_returns hx hreturns, hdigits, mul_value_of_returns hy hreturns']

/-- If the digits are a repetition then so are the remainders. -/
theorem returns_of_repetition (hlength : 0 < length) {group : List Digit} {count : Nat}
    (hgroup : digitsOf divisor x length = (List.replicate count group).flatten) :
    0 < group.length ∧ remainderAt divisor x group.length = x := by
  obtain ⟨hpos, rest, hrest⟩ :=
    Digits.exists_rest_of_repetition (mt digitsOf_eq_nil_iff.mp hlength.ne') hgroup
  have hle : group.length ≤ length := by
    have hcount := congrArg List.length hrest
    rw [digitsOf_length, List.length_append] at hcount
    omega
  have hfirst : digitsOf divisor x group.length = group := by
    rw [← digitsOf_take hle, hrest, List.take_left' rfl]
  refine ⟨hpos, ?_⟩
  -- from the end of the first group on the digits are the same as from its beginning
  have hsplit : digitsOf divisor x group.length
        ++ digitsOf divisor (remainderAt divisor x group.length) length
      = digitsOf divisor x length ++ digitsOf divisor x group.length := by
    rw [← digitsOf_add, Nat.add_comm, digitsOf_add, hreturns]
  rw [hfirst, hgroup, Digits.repetition_append, ← hgroup] at hsplit
  have hreturns' : remainderAt divisor (remainderAt divisor x group.length) length
      = remainderAt divisor x group.length := by
    rw [remainderAt_remainderAt, Nat.add_comm, ← remainderAt_remainderAt, hreturns]
  have hlt := remainderAt_lt (by omega : 0 < divisor) x group.length
  have hdigits := List.append_cancel_left hsplit
  exact eq_of_digitsOf_eq hlt hreturns' hlength hx hreturns hdigits

/-- The digits are no repetition if the remainder does not come back earlier. -/
theorem primitive_iff (hlength : 0 < length) :
    (∀ group count, digitsOf divisor x length = (List.replicate count group).flatten →
        length ≤ group.length)
      ↔ ∀ k, 0 < k → remainderAt divisor x k = x → length ≤ k := by
  constructor
  · intro hprimitive k hk hearly
    -- where it comes back at all is a multiple of where it comes back first
    have hgcd : remainderAt divisor x (k.gcd length) = x := by
      rw [← isPeriodicPt_iff hx] at hearly hreturns ⊢
      exact hearly.gcd hreturns
    obtain ⟨count, hcount⟩ := Nat.gcd_dvd_right k length
    have hrepetition := digitsOf_mul hgcd count
    rw [← hcount] at hrepetition
    have hle := hprimitive _ _ hrepetition
    rw [digitsOf_length] at hle
    exact hle.trans (Nat.gcd_le_left length hk)
  · intro hfirst group count hgroup
    obtain ⟨hpos, hearly⟩ := returns_of_repetition hx hreturns hlength hgroup
    exact hfirst _ hpos hearly

end Period

/-! ## The rules are those of the division -/

/-- The digits of a division are written by the rules. -/
theorem Repeats.canonical (h : Repeats divisor numerator start length) (hpos : 0 < divisor) :
    Digits.Canonical (digitsOf divisor numerator start)
      (digitsOf divisor (remainderAt divisor numerator start) length) := by
  have hx := remainderAt_lt hpos numerator start
  have hreturns := (remainderAt_remainderAt start length).trans h.returns
  constructor
  case terminating =>
    intro hperiod hlast
    obtain rfl := digitsOf_eq_nil_iff.mp hperiod
    cases start with
    | zero => simp [digitsOf] at hlast
    | succ k =>
      exact h.nonzero k (by omega) ((getLast?_eq_zero_iff hpos (h.stops rfl)).mp hlast)
  case notZeros =>
    intro hperiod hzeros
    have hlength := Nat.pos_of_ne_zero (mt digitsOf_eq_nil_iff.mpr hperiod)
    exact h.nonzero start (by omega) ((zeros_iff hx hreturns hlength).mp hzeros)
  case notNines =>
    intro hperiod
    exact not_nines hx hreturns (Nat.pos_of_ne_zero (mt digitsOf_eq_nil_iff.mpr hperiod))
  case primitive =>
    rw [digitsOf_length]
    rcases Nat.eq_zero_or_pos length with rfl | hlength
    · exact fun _ _ _ => Nat.zero_le _
    rw [primitive_iff hx hreturns hlength]
    intro k hk hearly
    by_contra hlt
    rw [remainderAt_remainderAt] at hearly
    have := h.distinct (start + k) (by omega) start (by omega) hearly
    omega
  case parted =>
    intro hperiod hlast
    obtain ⟨l, rfl⟩ := Nat.exists_eq_succ_of_ne_zero (mt digitsOf_eq_nil_iff.mpr hperiod)
    cases start with
    | zero =>
      rw [Nat.succ_eq_add_one, getLast?_digitsOf] at hlast
      simp [digitsOf] at hlast
    | succ k =>
      have hearly := (getLast?_eq_getLast?_iff hpos h.returns).mp hlast
      have := h.distinct (k + (l + 1)) (by omega) k (by omega) hearly
      omega

section Rules

variable (hpos : 0 < divisor)
  (hreturns : remainderAt divisor numerator (start + length)
    = remainderAt divisor numerator start)
  (hstops : length = 0 → remainderAt divisor numerator start = 0)
  (hcanonical : Digits.Canonical (digitsOf divisor numerator start)
    (digitsOf divisor (remainderAt divisor numerator start) length))

include hpos hreturns hstops hcanonical

/-- By the rules the digits end as soon as nothing is left. -/
theorem remainderAt_ne_zero_of_canonical {i : Nat} (hi : i < start + length) :
    remainderAt divisor numerator i ≠ 0 := by
  intro hzero
  rcases Nat.eq_zero_or_pos length with rfl | hlength
  · obtain ⟨k, rfl⟩ := Nat.exists_eq_succ_of_ne_zero (by omega : start ≠ 0)
    exact hcanonical.terminating (digitsOf_eq_nil_iff.mpr rfl)
      ((getLast?_eq_zero_iff hpos (hstops rfl)).mpr (remainderAt_eq_zero_of_le (by omega) hzero))
  · have hend := remainderAt_eq_zero_of_le hi.le hzero
    rw [hreturns] at hend
    have hreturns' := (remainderAt_remainderAt start length).trans hreturns
    exact hcanonical.notZeros (mt digitsOf_eq_nil_iff.mp hlength.ne')
      ((zeros_iff (remainderAt_lt hpos _ _) hreturns' hlength).mpr hend)

/-- By the rules the period begins with the first remainder that comes back, and it ends when that
one does. -/
theorem remainderAt_add_ne_of_canonical {i k : Nat} (hk : 0 < k) (hlt : i + k < start + length) :
    remainderAt divisor numerator (i + k) ≠ remainderAt divisor numerator i := by
  intro hearly
  rcases Nat.eq_zero_or_pos length with rfl | hlength
  · -- there would be a zero in front of the last one
    have hzero := remainderAt_shift hearly (j := start - k) (by omega)
    rw [show start - k + k = start by omega, hstops rfl] at hzero
    exact remainderAt_ne_zero_of_canonical hpos hreturns hstops hcanonical (by omega) hzero.symm
  rcases Nat.lt_or_ge i start with hbefore | hwithin
  · -- the remainder in front of the period would come back as well
    obtain ⟨m, rfl⟩ := Nat.exists_eq_succ_of_ne_zero (by omega : start ≠ 0)
    obtain ⟨l, rfl⟩ := Nat.exists_eq_succ_of_ne_zero hlength.ne'
    have hfront := remainderAt_shift hearly (j := m) (by omega)
    have hback := remainderAt_shift hearly (j := m + (l + 1)) (by omega)
    have hround := remainderAt_shift hreturns (j := m + k) (by omega)
    rw [Nat.add_right_comm, hround, hfront] at hback
    exact hcanonical.parted (mt digitsOf_eq_nil_iff.mp (by omega))
      ((getLast?_eq_getLast?_iff hpos hreturns).mpr hback.symm)
  · -- the period would be a repetition
    have hback := remainderAt_shift hearly (j := start + length) (by omega)
    have hround := remainderAt_shift hreturns (j := start + k) (by omega)
    rw [Nat.add_right_comm, hround, hreturns, ← remainderAt_remainderAt] at hback
    have hreturns' := (remainderAt_remainderAt start length).trans hreturns
    have hprimitive := hcanonical.primitive
    rw [digitsOf_length, primitive_iff (remainderAt_lt hpos _ _) hreturns' hlength] at hprimitive
    have := hprimitive k hk hback
    omega

/-- What is written by the rules is found by the division. -/
theorem repeats_of_canonical : Repeats divisor numerator start length := by
  refine ⟨hreturns, hstops,
    fun i => remainderAt_ne_zero_of_canonical hpos hreturns hstops hcanonical, ?distinct⟩
  case distinct =>
    have hlater {i j : Nat} (hlt : i < j) (hj : j < start + length) :
        remainderAt divisor numerator i ≠ remainderAt divisor numerator j := by
      obtain ⟨k, rfl⟩ := Nat.exists_eq_add_of_le hlt.le
      exact (remainderAt_add_ne_of_canonical hpos hreturns hstops hcanonical (by omega) hj).symm
    intro i hi j hj hsame
    rcases Nat.lt_trichotomy i j with hlt | heq | hgt
    · exact absurd hsame (hlater hlt hj)
    · exact heq
    · exact absurd hsame.symm (hlater hgt hi)

end Rules

end LongDivision

end Recurrence
