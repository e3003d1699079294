import Recurrence.Proofs.Expansion.Invariance
import Recurrence.Proofs.Expansion.Rules
import Recurrence.Proofs.Expansion.Shape

/-!
# The two modes of a division

A division that refuses repetition goes through the same remainders as one that describes it. The
two detectors hold the same positions all the way and differ in the answer to a remainder that comes
back, which is the last thing either of them is asked. So the refusal is known from the expansion
that the other mode finds: it names the start of the repetition, and the number of digits that were
written down when the remainder came back.
-/

namespace Recurrence

namespace LongDivision

/-! ## Two runs side by side -/

/-- Two divisions, one in each mode, come to the same end: both come out even, or the same remainder
has come back at the same position. -/
inductive Ending.Corresponds (mode mode' : Detector.Mode) : Ending → Ending → Prop where
  | exact : Corresponds mode mode' .exact .exact
  | recurred (start position : Nat) :
    Corresponds mode mode' (.recurred (mode.verdict start position))
      (.recurred (mode'.verdict start position))

/-- What a detector notes does not depend on its mode; what it answers does. -/
theorem observe_mode (mode mode' : Detector.Mode) (seen : Std.HashMap Nat Nat)
    (remainder position : Nat) :
    (∃ seen', Detector.observe ⟨mode, seen⟩ remainder position = (⟨mode, seen'⟩, none)
        ∧ Detector.observe ⟨mode', seen⟩ remainder position = (⟨mode', seen'⟩, none))
      ∨ ∃ start,
        Detector.observe ⟨mode, seen⟩ remainder position
            = (⟨mode, seen⟩, some (mode.verdict start position))
          ∧ Detector.observe ⟨mode', seen⟩ remainder position
            = (⟨mode', seen⟩, some (mode'.verdict start position)) := by
  unfold Detector.observe
  cases hseen : seen[remainder]? with
  | none => exact .inl ⟨_, rfl, rfl⟩
  | some start => exact .inr ⟨start, rfl, rfl⟩

/-- **Two loops from the same positions take the same steps**, whatever their modes. -/
theorem run_corresponds (mode mode' : Detector.Mode) (divisor fuel : Nat)
    (seen : Std.HashMap Nat Nat) (done : List Step) (position remainder : Nat) :
    (run divisor fuel ⟨mode, seen⟩ done position remainder).1
        = (run divisor fuel ⟨mode', seen⟩ done position remainder).1
      ∧ Ending.Corresponds mode mode'
          (run divisor fuel ⟨mode, seen⟩ done position remainder).2
          (run divisor fuel ⟨mode', seen⟩ done position remainder).2 := by
  induction fuel generalizing seen done position remainder with
  | zero => exact ⟨rfl, .exact⟩
  | succ fuel ih =>
    rw [run, run]
    by_cases hzero : remainder = 0
    · rw [if_pos hzero, if_pos hzero]
      exact ⟨rfl, .exact⟩
    rw [if_neg hzero, if_neg hzero]
    rcases observe_mode mode mode' seen remainder position with
      ⟨seen', hobserve, hobserve'⟩ | ⟨start, hobserve, hobserve'⟩
    · rw [hobserve, hobserve']
      exact ih seen' _ _ _
    · rw [hobserve, hobserve']
      exact ⟨rfl, .recurred start position⟩

/-- A division that comes out even does so in both modes. -/
theorem Ending.Corresponds.of_exact {mode mode' : Detector.Mode} {ending : Ending}
    (h : Corresponds mode mode' .exact ending) : ending = .exact := by
  cases h
  rfl

/-- A cycle of one mode is a refusal of the other, at the position where it is complete. -/
theorem Ending.Corresponds.of_cycle {start length : Nat} {ending : Ending}
    (h : Corresponds .describe .fail (.recurred (.cycle start length)) ending) :
    ending = .recurred (.refused start (start + length)) := by
  generalize hcycle : Ending.recurred (.cycle start length) = described at h
  cases h with
  | exact => exact absurd hcycle (by simp)
  | recurred start' position =>
    unfold Detector.Mode.verdict at hcycle
    by_cases hle : start' ≤ position
    · rw [if_pos hle] at hcycle
      obtain ⟨hstart, hlength⟩ : start = start' ∧ length = position - start' := by
        simpa using hcycle
      have hposition : start + length = position := by omega
      rw [hposition, hstart]
      rfl
    · rw [if_neg hle] at hcycle
      exact absurd hcycle (by simp)

end LongDivision

namespace Expansion

open LongDivision

variable {n d : Int} {e : Expansion} {start position : Nat}

/-! ## The one mode as a function of the other -/

/-- What a division makes of an expansion that it must not repeat. -/
def refusingRepetition (e : Expansion) : Except DivisionError Expansion :=
  match e.repeatStart with
  | none => .ok e
  | some start => .error (.repeating start e.digits.length)

theorem repeatStart_eq_none_iff : e.repeatStart = none ↔ e.isRepeating = false := by
  unfold repeatStart isRepeating
  cases e.period.isEmpty <;> simp

theorem isRepeating_of_repeatStart (h : e.repeatStart = some start) : e.isRepeating = true := by
  by_contra hnot
  rw [repeatStart_eq_none_iff.mpr (Bool.not_eq_true _ ▸ hnot)] at h
  exact absurd h (by simp)

theorem refusingRepetition_eq_ok_iff {e' : Expansion} :
    e.refusingRepetition = .ok e' ↔ e = e' ∧ e.isRepeating = false := by
  rw [← repeatStart_eq_none_iff]
  unfold refusingRepetition
  cases e.repeatStart <;> simp

theorem refusingRepetition_eq_error_iff {error : DivisionError} :
    e.refusingRepetition = .error error
      ↔ ∃ start, e.repeatStart = some start ∧ error = .repeating start e.digits.length := by
  unfold refusingRepetition
  cases e.repeatStart <;> simp [eq_comm]

/-- A division by nothing is refused in every mode. -/
theorem ofFraction_zero (mode : Detector.Mode) (n : Int) :
    ofFraction mode n 0 = .error (.divisionByZero n) := by
  rw [ofFraction, if_pos rfl]

/-- **Refusing repetition is describing it first**: the division that refuses finds what the other
one finds, and turns it down if it repeats. -/
theorem ofFraction_fail (n d : Int) :
    ofFraction .fail n d = (ofFraction .describe n d).bind refusingRepetition := by
  by_cases hd : d = 0
  · subst hd
    rw [ofFraction_zero, ofFraction_zero]
    rfl
  have hpos : 0 < d.natAbs := Int.natAbs_pos.mpr hd
  have hended := ofFraction_ended .describe (Nat.mod_lt n.natAbs hpos)
  obtain ⟨hsteps, hcorresponds⟩ :=
    run_corresponds .describe .fail d.natAbs d.natAbs {} [] 0 (n.natAbs % d.natAbs)
  rw [ofFraction, ofFraction, if_neg hd, if_neg hd]
  change (LongDivision.ofFraction .describe _ _).1 = (LongDivision.ofFraction .fail _ _).1 at hsteps
  change Ending.Corresponds .describe .fail (LongDivision.ofFraction .describe _ _).2
    (LongDivision.ofFraction .fail _ _).2 at hcorresponds
  generalize LongDivision.ofFraction .describe (n.natAbs % d.natAbs) d.natAbs = described at *
  generalize LongDivision.ofFraction .fail (n.natAbs % d.natAbs) d.natAbs = refused at *
  obtain ⟨steps, ending⟩ := described
  obtain ⟨steps', ending'⟩ := refused
  obtain rfl : steps = steps' := hsteps
  rcases hended.repeats with ⟨rfl, -⟩ | ⟨start, length, hlength, hpositive, rfl, -⟩
  · obtain rfl : ending' = .exact := hcorresponds.of_exact
    rfl
  · have hverdict : Detector.Mode.describe.verdict start (start + length)
        = .cycle start length := by
      simp [Detector.Mode.verdict]
    rw [hverdict] at hcorresponds ⊢
    obtain rfl : ending' = .recurred (.refused start (start + length)) := hcorresponds.of_cycle
    -- the digits are cut inside, so there are some that repeat
    have hdigits : (steps.map (·.digit)).length = start + length := by
      rw [List.length_map]
      exact hlength
    have hrepeats : (ofDigits (isNegativeQuotient n d) (n.natAbs / d.natAbs)
        (steps.map (·.digit)) (some start)).repeatStart = some start := by
      unfold ofDigits repeatStart
      rw [List.isEmpty_eq_false_iff.mpr, List.length_take, hdigits]
      · simp
      · rw [← List.length_pos_iff, List.length_drop, hdigits]
        omega
    show Except.error (.repeating start (start + length)) = refusingRepetition (ofDigits _ _ _ _)
    rw [refusingRepetition, hrepeats, digits_ofDigits, hdigits]

/-! ## Which fractions terminate -/

/-- A division that describes repetition fails on a zero divisor only. -/
theorem ofFraction_describe_ne_repeating (n d : Int) (start position : Nat) :
    ofFraction .describe n d ≠ .error (.repeating start position) := by
  by_cases hd : d = 0
  · subst hd
    rw [ofFraction_zero]
    simp
  · obtain ⟨_, _, _, he⟩ := ofFraction_describe n hd
    rw [he]
    simp

theorem ofFraction_describe_eq_divisionByZero_iff {k : Int} :
    ofFraction .describe n d = .error (.divisionByZero k) ↔ d = 0 ∧ k = n := by
  by_cases hd : d = 0
  · subst hd
    rw [ofFraction_zero]
    simp [eq_comm]
  · obtain ⟨_, _, _, he⟩ := ofFraction_describe n hd
    rw [he]
    simp [hd]

/-- An expansion terminates when some power of ten makes the fraction whole. -/
theorem isRepeating_eq_false_iff (he : ofFraction .describe n d = .ok e) :
    e.isRepeating = false ↔ ∃ k, d ∣ n * 10 ^ k := by
  obtain ⟨-, start, length, hrepeats, rfl⟩ := exists_repeats_of_ofFraction he
  have hwhole (k : Nat) : d ∣ n * 10 ^ k ↔ remainderAt d.natAbs n.natAbs k = 0 := by
    rw [← Int.natAbs_dvd_natAbs, Int.natAbs_mul, Int.natAbs_pow, Nat.dvd_iff_mod_eq_zero]
    rfl
  rw [isRepeating, Bool.not_eq_false', List.isEmpty_iff, digitsOf_eq_nil_iff]
  simp only [hwhole]
  constructor
  · intro hzero
    exact ⟨start, hrepeats.of_mod.stops hzero⟩
  · rintro ⟨k, hk⟩
    by_contra hne
    -- the remainder at the start of the period would come round to a zero
    have hback := hrepeats.of_mod.remainderAt_mod (k * length)
    rw [Nat.mul_mod_left, Nat.add_zero] at hback
    have hle : k ≤ start + k * length :=
      (Nat.le_mul_of_pos_right k (Nat.pos_of_ne_zero hne)).trans (Nat.le_add_left _ _)
    rw [remainderAt_eq_zero_of_le hle hk] at hback
    exact hrepeats.of_mod.nonzero start (by omega) hback

/-! ## The modes compared -/

theorem ofFraction_fail_eq_ok_iff :
    ofFraction .fail n d = .ok e ↔ ofFraction .describe n d = .ok e ∧ e.isRepeating = false := by
  rw [ofFraction_fail]
  cases ofFraction .describe n d with
  | error error => simp [Except.bind]
  | ok described =>
    show described.refusingRepetition = .ok e ↔ Except.ok described = .ok e ∧ _
    rw [refusingRepetition_eq_ok_iff, Except.ok.injEq]
    constructor
    · intro h
      obtain ⟨rfl, hterminates⟩ := h
      exact ⟨rfl, hterminates⟩
    · intro h
      obtain ⟨rfl, hterminates⟩ := h
      exact ⟨rfl, hterminates⟩

theorem ofFraction_fail_eq_error_iff {error : DivisionError} :
    ofFraction .fail n d = .error error
      ↔ ofFraction .describe n d = .error error
        ∨ ∃ e start, ofFraction .describe n d = .ok e ∧ e.repeatStart = some start
            ∧ error = .repeating start e.digits.length := by
  rw [ofFraction_fail]
  cases ofFraction .describe n d with
  | error error' => simp [Except.bind]
  | ok described =>
    show described.refusingRepetition = .error error ↔ _
    rw [refusingRepetition_eq_error_iff]
    simp

/--
**The two modes agree.** A division that refuses repetition gives what the other one gives if that
is an error or an expansion that terminates. It gives a refusal exactly where the other one finds an
expansion that repeats, with the start of the repetition and the number of digits. The fractions
that it accepts are those that a power of ten makes whole.
-/
theorem ofFraction_modes_agree (n d : Int) :
    (∀ k, ofFraction .fail n d = .error (.divisionByZero k)
        ↔ ofFraction .describe n d = .error (.divisionByZero k))
      ∧ (∀ k, ofFraction .describe n d = .error (.divisionByZero k) ↔ d = 0 ∧ k = n)
      ∧ (∀ start position, ofFraction .describe n d ≠ .error (.repeating start position))
      ∧ (∀ e, ofFraction .fail n d = .ok e
          ↔ ofFraction .describe n d = .ok e ∧ e.isRepeating = false)
      ∧ (∀ start position, ofFraction .fail n d = .error (.repeating start position)
          ↔ ∃ e, ofFraction .describe n d = .ok e ∧ e.isRepeating = true
              ∧ e.repeatStart = some start ∧ position = e.digits.length)
      ∧ ((∃ e, ofFraction .fail n d = .ok e) ↔ d ≠ 0 ∧ ∃ k, d ∣ n * 10 ^ k)
      ∧ ((∃ start position, ofFraction .fail n d = .error (.repeating start position))
          ↔ d ≠ 0 ∧ ∀ k, ¬ d ∣ n * 10 ^ k) := by
  have hrefused (start position : Nat) :
      ofFraction .fail n d = .error (.repeating start position)
        ↔ ∃ e, ofFraction .describe n d = .ok e ∧ e.isRepeating = true
            ∧ e.repeatStart = some start ∧ position = e.digits.length := by
    rw [ofFraction_fail_eq_error_iff]
    constructor
    · intro h
      rcases h with h | ⟨e, start', he, hstart, herror⟩
      · exact absurd h (ofFraction_describe_ne_repeating n d start position)
      · obtain ⟨rfl, hposition⟩ : start = start' ∧ position = e.digits.length := by
          simpa using herror
        exact ⟨e, he, isRepeating_of_repeatStart hstart, hstart, hposition⟩
    · intro h
      obtain ⟨e, he, -, hstart, rfl⟩ := h
      exact .inr ⟨e, start, he, hstart, rfl⟩
  refine ⟨?zero, fun k => ofFraction_describe_eq_divisionByZero_iff,
    ofFraction_describe_ne_repeating n d, fun e => ofFraction_fail_eq_ok_iff, hrefused, ?whole,
    ?fractional⟩
  case zero =>
    intro k
    rw [ofFraction_fail_eq_error_iff]
    simp
  case whole =>
    constructor
    · intro h
      obtain ⟨e, he⟩ := h
      obtain ⟨hdescribe, hterminates⟩ := ofFraction_fail_eq_ok_iff.mp he
      exact ⟨(exists_repeats_of_ofFraction hdescribe).1,
        (isRepeating_eq_false_iff hdescribe).mp hterminates⟩
    · intro h
      obtain ⟨hd, hwhole⟩ := h
      obtain ⟨_, _, -, hdescribe⟩ := ofFraction_describe n hd
      have hterminates := (isRepeating_eq_false_iff hdescribe).mpr hwhole
      exact ⟨_, ofFraction_fail_eq_ok_iff.mpr ⟨hdescribe, hterminates⟩⟩
  case fractional =>
    constructor
    · intro h
      obtain ⟨start, position, hfail⟩ := h
      obtain ⟨e, hdescribe, hrepeating, -, -⟩ := (hrefused start position).mp hfail
      refine ⟨(exists_repeats_of_ofFraction hdescribe).1, fun k hk => ?_⟩
      have hterminates := (isRepeating_eq_false_iff hdescribe).mpr ⟨k, hk⟩
      rw [hrepeating] at hterminates
      exact absurd hterminates (by simp)
    · intro h
      obtain ⟨hd, hnever⟩ := h
      obtain ⟨_, _, -, hdescribe⟩ := ofFraction_describe n hd
      generalize Expansion.mk _ _ _ _ = e at hdescribe
      cases hstart : e.repeatStart with
      | none =>
        have hterminates := repeatStart_eq_none_iff.mp hstart
        obtain ⟨k, hk⟩ := (isRepeating_eq_false_iff hdescribe).mp hterminates
        exact absurd hk (hnever k)
      | some start =>
        exact ⟨start, _, (hrefused start _).mpr
          ⟨e, hdescribe, isRepeating_of_repeatStart hstart, hstart, rfl⟩⟩

end Expansion

end Recurrence
