import Recurrence.Proofs.Expansion.Exact

/-!
# Long division in words

A machine divides in words, where a product can overflow, a conversion can lose digits and a
difference can fall below zero, and nothing tells the loop when to stop. This module has the division
done that way, turn by turn, with all that can go wrong as an ending of its own.

None of it happens, and the loop ends with the expansion that the division of numbers finds. The
reason for everything is that the remainders it goes on from lie between zero and the divisor and are
all different: being small they leave room for the zero brought down and for the digit, and being
different they are used up in fewer turns than the divisor. So the loop is compared with
`LongDivision.run`, turn by turn, and the invariant `Underway` of that loop is carried along.
-/

namespace Recurrence

namespace LongDivision

/-! ## The division of words -/

/-- An expansion in words: its digits as bytes, and where they start to repeat. -/
structure Words where
  negative : Bool
  integerPart : UInt64
  digits : List UInt8
  repeatStart : Option Nat
deriving DecidableEq, Repr

/-- The expansion that words stand for. -/
def Words.expansion (w : Words) : Expansion :=
  .ofDigits w.negative w.integerPart.toNat (w.digits.map fun b => .ofNat b.toNat) w.repeatStart

/-- What can go wrong. -/
inductive Breakdown where
  | overflow (operation : Overflow)
  /-- The digits would start to repeat behind the last one. -/
  | misplacedStart
deriving DecidableEq, Repr

/-- What does not change during a division. -/
structure Frame where
  negative : Bool
  integerPart : UInt64
  divisor : BitVec 128

/-- What the loop holds between two digits. -/
structure Loop where
  seen : Detector (BitVec 128)
  digits : List UInt8
  remainder : BitVec 128

/-- What comes of a turn of the loop. -/
inductive Turn where
  | onward (next : Loop)
  | over (result : Except DivisionError Words)
  | broken (breakdown : Breakdown)

/-- A number without its sign. It need not fit the signed words. -/
def magnitude (n : Int64) : BitVec 128 := n.toBitVec.abs.setWidth 128

/-- The division of two words. The integer part is cut to its word. -/
def Frame.ofWords (n d : Int64) : Frame :=
  ⟨n != 0 && (n < 0) != (d < 0), .ofBitVec ((magnitude n / magnitude d).setWidth 64), magnitude d⟩

/-- The loop before its first turn. -/
def Loop.start (mode : Detector.Mode) (n d : Int64) : Loop :=
  ⟨.new mode, [], magnitude n % magnitude d⟩

namespace Frame

/-- Puts the expansion together, if its digits can start to repeat there. -/
def conclude (f : Frame) (digits : List UInt8) (repeatStart : Option Nat) : Turn :=
  if repeatStart.all (· < digits.length) then
    .over (.ok ⟨f.negative, f.integerPart, digits, repeatStart⟩)
  else .broken .misplacedStart

/-- One turn of the loop. A digit is cut to its byte. -/
def turn (f : Frame) (l : Loop) : Turn :=
  if l.remainder = 0 then f.conclude l.digits none
  else
    match l.seen.observe l.remainder l.digits.length with
    | (_, some (.cycle start _)) => f.conclude l.digits (some start)
    | (_, some (.refused start position)) => .over (.error (.repeating start position))
    | (_, some (.backwards _ _)) => .broken (.overflow .subtract)
    | (seen, none) =>
      if l.remainder.umulOverflow 10 then .broken (.overflow .multiply)
      else
        let scaled := l.remainder * 10
        .onward ⟨seen, l.digits ++ [.ofBitVec ((scaled / f.divisor).setWidth 8)],
          scaled % f.divisor⟩

/-- At most `k` turns of the loop. -/
def turns (f : Frame) : (k : Nat) → Loop → Turn
  | 0, l => .onward l
  | k + 1, l =>
    match f.turn l with
    | .onward next => f.turns k next
    | ending => ending

end Frame

/-! ## Words and numbers -/

theorem toNat_magnitude (n : Int64) : (magnitude n).toNat = n.toInt.natAbs := by
  have habs : n.toBitVec.abs.toNat = n.toInt.natAbs := by
    rw [← Int64.toInt_toBitVec, BitVec.toNat_abs, BitVec.toInt_eq_msb_cond]
    have hlt := n.toBitVec.isLt
    split <;> omega
  have hlt := n.toBitVec.abs.isLt
  rw [magnitude, BitVec.toNat_setWidth, habs, Nat.mod_eq_of_lt]
  omega

theorem natAbs_toInt_le (n : Int64) : n.toInt.natAbs ≤ 2 ^ 63 := by
  have hupper := n.toInt_lt
  have hlower := n.le_toInt
  omega

theorem negative_ofWords (n d : Int64) :
    (Frame.ofWords n d).negative = Expansion.isNegativeQuotient n.toInt d.toInt := by
  have hzero : (n != 0) = (n.toInt != 0) := by
    rw [Bool.eq_iff_iff, bne_iff_ne, bne_iff_ne, ne_eq, ne_eq, ← Int64.toInt_inj]
    rfl
  have hneg (m : Int64) : decide (m < 0) = decide (m.toInt < 0) := by
    rw [decide_eq_decide, Int64.lt_iff_toInt_lt]
    rfl
  rw [Frame.ofWords, Expansion.isNegativeQuotient, hzero, hneg, hneg]

/-- The integer part fits its word. -/
theorem integerPart_ofWords (n d : Int64) :
    (Frame.ofWords n d).integerPart.toNat = n.toInt.natAbs / d.toInt.natAbs := by
  have hle := natAbs_toInt_le n
  have hdiv := Nat.div_le_self n.toInt.natAbs d.toInt.natAbs
  show ((magnitude n / magnitude d).setWidth 64).toNat = _
  rw [BitVec.toNat_setWidth, BitVec.toNat_udiv, toNat_magnitude, toNat_magnitude, Nat.mod_eq_of_lt]
  omega

/-- The byte of a digit. -/
def Step.byte (s : Step) : UInt8 := .ofNat s.digit.val

theorem Step.toNat_byte (s : Step) : s.byte.toNat = s.digit.val := by
  have hlt := s.digit.isLt
  exact UInt8.toNat_ofNat_of_lt' (by show _ < 256; omega)

theorem Step.digit_byte (s : Step) : Digit.ofNat s.byte.toNat = s.digit := by
  rw [s.toNat_byte]
  exact Fin.ext (Nat.mod_eq_of_lt s.digit.isLt)

/-! ## One turn -/

/-- The expansion of steps that are written down. -/
def Frame.words (f : Frame) (steps : List Step) (repeatStart : Option Nat) : Words :=
  ⟨f.negative, f.integerPart, steps.map Step.byte, repeatStart⟩

/-- What a division of numbers comes to in words. -/
def Frame.outcome (f : Frame) : List Step × Ending → Except DivisionError Words
  | (steps, .exact) => .ok (f.words steps none)
  | (steps, .recurred (.cycle start _)) => .ok (f.words steps (some start))
  | (_, .recurred (.refused start position)) | (_, .recurred (.backwards start position)) =>
    .error (.repeating start position)

/-- The loop of words holds what the loop of numbers holds. -/
structure Loop.Mirrors (l : Loop) (seen : Detector Nat) (done : List Step) (remainder : Nat) :
    Prop where
  mode : l.seen.mode = seen.mode
  seen : ∀ r : BitVec 128, l.seen.seen[r]? = seen.seen[r.toNat]?
  digits : l.digits = done.reverse.map Step.byte
  remainder : l.remainder.toNat = remainder

variable {f : Frame} {mode : Detector.Mode} {divisor numerator position : Nat} {l : Loop}
  {seen : Detector Nat} {done : List Step}

theorem mirrors_start (mode : Detector.Mode) (n d : Int64) :
    (Loop.start mode n d).Mirrors (.new mode) [] (n.toInt.natAbs % d.toInt.natAbs) where
  mode := rfl
  seen r := by simp [Loop.start, Detector.new]
  digits := rfl
  remainder := by
    show (magnitude n % magnitude d).toNat = _
    rw [BitVec.toNat_umod, toNat_magnitude, toNat_magnitude]

/-- A remainder that is noted is noted in both. -/
theorem Loop.Mirrors.insert {remainder : Nat} (h : l.Mirrors seen done remainder) (position : Nat)
    (r : BitVec 128) :
    (l.seen.seen.insert l.remainder position)[r]?
      = (seen.seen.insert remainder position)[r.toNat]? := by
  rw [Std.HashMap.getElem?_insert, Std.HashMap.getElem?_insert, h.seen, ← h.remainder]
  simp only [beq_iff_eq, BitVec.toNat_inj]

theorem Loop.Mirrors.length (h : l.Mirrors seen done (remainderAt divisor numerator position))
    (hunderway : Underway mode divisor numerator seen done position) :
    l.digits.length = position := by
  rw [h.digits, List.length_map, hunderway.steps_length]

/-- The zero that is brought down has room in the word, and the digit in its byte. -/
theorem Loop.Mirrors.scaled (h : l.Mirrors seen done (remainderAt divisor numerator position))
    (hdivisor : f.divisor.toNat = divisor) (hd : 0 < divisor) (hle : divisor ≤ 2 ^ 63) :
    l.remainder.toNat * 10 < 2 ^ 128
      ∧ (l.remainder * 10 % f.divisor).toNat = remainderAt divisor numerator (position + 1)
      ∧ UInt8.ofBitVec ((l.remainder * 10 / f.divisor).setWidth 8)
          = (stepAt divisor numerator position).byte := by
  have hlt := remainderAt_lt hd numerator position
  have hroom : l.remainder.toNat * 10 < 2 ^ 128 := by
    rw [h.remainder]
    omega
  have hscaled : (l.remainder * 10).toNat = remainderAt divisor numerator position * 10 := by
    rw [BitVec.toNat_mul]
    show l.remainder.toNat * 10 % 2 ^ 128 = _
    rw [Nat.mod_eq_of_lt hroom, h.remainder]
  refine ⟨hroom, ?_, ?_⟩
  · rw [BitVec.toNat_umod, hscaled, hdivisor, remainderAt_succ]
  · rw [← UInt8.toNat_inj, Step.toNat_byte, stepAt_digit hd]
    show ((l.remainder * 10 / f.divisor).setWidth 8).toNat = _
    rw [BitVec.toNat_setWidth, BitVec.toNat_udiv, hscaled, hdivisor, ← stepAt_digit hd,
      Nat.mod_eq_of_lt]
    have hdigit := (stepAt divisor numerator position).digit.isLt
    omega

/-- **A turn of words is a turn of numbers.** The loop is over with what the other loop comes to, or
both go on; nothing breaks. -/
theorem turn_eq (hdivisor : f.divisor.toNat = divisor) (hd : 0 < divisor) (hle : divisor ≤ 2 ^ 63)
    (hunderway : Underway mode divisor numerator seen done position)
    (h : l.Mirrors seen done (remainderAt divisor numerator position)) (fuel : Nat) :
    f.turn l = .over (f.outcome
        (run divisor (fuel + 1) seen done position (remainderAt divisor numerator position)))
      ∨ ∃ next seen' done', f.turn l = .onward next
          ∧ Underway mode divisor numerator seen' done' (position + 1)
          ∧ next.Mirrors seen' done' (remainderAt divisor numerator (position + 1))
          ∧ run divisor (fuel + 1) seen done position (remainderAt divisor numerator position)
              = run divisor fuel seen' done' (position + 1)
                  (remainderAt divisor numerator (position + 1)) := by
  have hlength := h.length hunderway
  rw [Frame.turn, run]
  by_cases hzero : remainderAt divisor numerator position = 0
  · have hremainder : l.remainder = 0 := BitVec.eq_of_toNat_eq (h.remainder.trans hzero)
    left
    rw [if_pos hremainder, if_pos hzero]
    simp [Frame.conclude, Frame.outcome, Frame.words, h.digits]
  have hremainder : l.remainder ≠ 0 := by
    intro heq
    exact hzero (by rw [← h.remainder, heq]; rfl)
  rw [if_neg hremainder, if_neg hzero, Detector.observe, Detector.observe, h.seen, h.remainder]
  cases hseen : seen.seen[remainderAt divisor numerator position]? with
  | none =>
    right
    obtain ⟨hroom, hnext, hdigit⟩ := h.scaled hdivisor hd hle
    have hoverflow : l.remainder.umulOverflow 10 = false := by
      unfold BitVec.umulOverflow
      rw [decide_eq_false_iff_not, ge_iff_le, Nat.not_le]
      exact hroom
    refine ⟨_, _, _, if_neg (by rw [hoverflow]; exact Bool.false_ne_true),
      hunderway.step hseen hzero, ?_, ?_⟩
    · constructor
      case mode => exact h.mode
      case seen =>
        rw [hlength]
        exact h.insert position
      case digits =>
        rw [List.reverse_cons, List.map_append, ← h.digits, List.map_singleton, ← hdigit]
      case remainder => exact hnext
    · rw [← stepAt_remainder]
      rfl
  | some start =>
    left
    -- the remainder came back, so its first position lies behind
    obtain ⟨hlt, -⟩ := (hunderway.seen _ start).mp hseen
    rw [h.mode, hunderway.mode, hlength]
    cases mode with
    | fail => rfl
    | describe =>
      simp only [Detector.Mode.verdict, if_pos hlt.le]
      simp [Frame.conclude, Frame.outcome, Frame.words, hlength, hlt, ← h.digits]

/-! ## All turns -/

/-- The loop of words has done `position` turns and has come as far as the loop of numbers. -/
def Loop.At (mode : Detector.Mode) (divisor numerator position : Nat) (l : Loop) : Prop :=
  ∃ seen done, Underway mode divisor numerator seen done position
    ∧ l.Mirrors seen done (remainderAt divisor numerator position)

/-- **The loop ends**, at the latest when all remainders are used up, with what the other loop
comes to. -/
theorem turns_run (hdivisor : f.divisor.toNat = divisor) (hd : 0 < divisor) (hle : divisor ≤ 2 ^ 63)
    (hunderway : Underway mode divisor numerator seen done position)
    (h : l.Mirrors seen done (remainderAt divisor numerator position)) (fuel : Nat)
    (hfuel : fuel + position = divisor) :
    f.turns fuel l = .over (f.outcome
      (run divisor fuel seen done position (remainderAt divisor numerator position))) := by
  induction fuel generalizing l seen done position with
  | zero =>
    have hlt := hunderway.position_lt hd
    omega
  | succ fuel ih =>
    rw [Frame.turns]
    rcases turn_eq hdivisor hd hle hunderway h fuel with
      hover | ⟨next, seen', done', honward, hunderway', h', hrun⟩
    · rw [hover]
    · rw [honward, hrun]
      exact ih hunderway' h' (by omega)

/-- Whatever the number of turns, the loop is over or on its way. -/
theorem Loop.At.turns (hdivisor : f.divisor.toNat = divisor) (hd : 0 < divisor)
    (hle : divisor ≤ 2 ^ 63) (h : l.At mode divisor numerator position) (k : Nat) :
    (∃ result, f.turns k l = .over result)
      ∨ ∃ later, f.turns k l = .onward later
          ∧ later.At mode divisor numerator (position + k) := by
  induction k generalizing l position with
  | zero => exact .inr ⟨l, rfl, h⟩
  | succ k ih =>
    obtain ⟨seen, done, hunderway, hmirrors⟩ := h
    rw [Frame.turns]
    rcases turn_eq hdivisor hd hle hunderway hmirrors 0 with
      hover | ⟨next, seen', done', honward, hunderway', hmirrors', -⟩
    · rw [hover]
      exact .inl ⟨_, rfl⟩
    · rw [honward, show position + (k + 1) = position + 1 + k by omega]
      exact ih ⟨seen', done', hunderway', hmirrors'⟩

/-- Going on from a remainder means that it was none of the earlier ones, and not zero. -/
theorem Loop.At.digit {next : Loop} (hdivisor : f.divisor.toNat = divisor) (hd : 0 < divisor)
    (hle : divisor ≤ 2 ^ 63) (h : l.At mode divisor numerator position)
    (hnext : f.turn l = .onward next) :
    position + 1 < divisor ∧ l.remainder ≠ 0 ∧ l.remainder < f.divisor
      ∧ (∀ (earlier : Loop) j, j < position → earlier.At mode divisor numerator j →
          earlier.remainder ≠ l.remainder)
      ∧ l.remainder.toNat * 10 < 2 ^ 128
      ∧ ∃ b : UInt8, next.digits = l.digits ++ [b] ∧ b.toNat < 10
          ∧ b.toNat = l.remainder.toNat * 10 / divisor
          ∧ next.remainder.toNat = l.remainder.toNat * 10 % divisor := by
  obtain ⟨seen, done, hunderway, hmirrors⟩ := h
  rcases turn_eq hdivisor hd hle hunderway hmirrors 0 with
    hover | ⟨next', seen', done', honward, hunderway', hmirrors', -⟩
  · rw [hover] at hnext
    cases hnext
  obtain rfl : next' = next := by
    rw [honward] at hnext
    exact Turn.onward.inj hnext
  have hremainder := hmirrors.remainder
  refine ⟨hunderway'.position_lt hd, ?nonzero, ?small, ?new, (hmirrors.scaled hdivisor hd hle).1,
    (stepAt divisor numerator position).byte, ?digits, ?digit, ?quotient, ?rest⟩
  case nonzero =>
    intro hzero
    refine hunderway'.nonzero position (by omega) ?_
    rw [← hremainder, hzero]
    rfl
  case small =>
    rw [BitVec.lt_def, hdivisor, hremainder]
    exact remainderAt_lt hd numerator position
  case new =>
    intro earlier j hj hearlier heq
    obtain ⟨_, _, -, hmirrors''⟩ := hearlier
    have hsame : remainderAt divisor numerator j = remainderAt divisor numerator position := by
      rw [← hmirrors''.remainder, heq, hremainder]
    have hposition := hunderway'.distinct (by omega) (by omega) hsame
    omega
  case digits =>
    rw [hmirrors'.digits, hunderway'.done, List.range_succ, List.map_append, ← hunderway.done,
      List.map_append, ← hmirrors.digits, List.map_singleton, List.map_singleton]
  case digit =>
    rw [Step.toNat_byte]
    exact (stepAt divisor numerator position).digit.isLt
  case quotient => rw [Step.toNat_byte, stepAt_digit hd, hremainder]
  case rest => rw [hmirrors'.remainder, remainderAt_succ, hremainder]

/-! ## The result -/

theorem expansion_words (n d : Int64) (steps : List Step) (repeatStart : Option Nat) :
    ((Frame.ofWords n d).words steps repeatStart).expansion
      = .ofDigits (Expansion.isNegativeQuotient n.toInt d.toInt)
          (n.toInt.natAbs / d.toInt.natAbs) (steps.map (·.digit)) repeatStart := by
  have hdigits : (steps.map Step.byte).map (fun b => Digit.ofNat b.toNat)
      = steps.map (·.digit) := by
    rw [List.map_map]
    exact List.map_congr_left fun s _ => s.digit_byte
  rw [Frame.words, Words.expansion, negative_ofWords, integerPart_ofWords, hdigits]

/-- The result stands for what the division of numbers finds. -/
theorem expansion_outcome (mode : Detector.Mode) (n : Int64) {d : Int64} (hd : d.toInt ≠ 0) :
    ((Frame.ofWords n d).outcome (LongDivision.ofFraction mode
        (n.toInt.natAbs % d.toInt.natAbs) d.toInt.natAbs)).map Words.expansion
      = Expansion.ofFraction mode n.toInt d.toInt := by
  rw [Expansion.ofFraction, if_neg hd]
  generalize LongDivision.ofFraction mode _ _ = result
  obtain ⟨steps, ending⟩ := result
  cases ending with
  | exact => exact congrArg Except.ok (expansion_words n d steps none)
  | recurred verdict =>
    cases verdict with
    | cycle start length => exact congrArg Except.ok (expansion_words n d steps (some start))
    | refused | backwards => rfl

theorem Frame.words_digits_lt (f : Frame) (steps : List Step) (repeatStart : Option Nat) :
    ∀ b ∈ (f.words steps repeatStart).digits, b.toNat < 10 := by
  intro b hb
  obtain ⟨step, -, rfl⟩ := List.mem_map.mp hb
  rw [Step.toNat_byte]
  exact step.digit.isLt

/-- The integer part is handed on, the digits are below ten, and they start to repeat at one of
them. -/
theorem Ended.words {result : List Step × Ending} (h : Ended mode divisor numerator result)
    {w : Words} (hw : f.outcome result = .ok w) :
    w.integerPart = f.integerPart ∧ (∀ b ∈ w.digits, b.toNat < 10)
      ∧ ∀ start, w.repeatStart = some start → start < w.digits.length := by
  obtain ⟨steps, ending⟩ := result
  rcases h.ending with ⟨hexact, -⟩ | ⟨start, hlt, -, hrecurred⟩
  · obtain rfl : ending = .exact := hexact
    obtain rfl := Except.ok.inj hw
    exact ⟨rfl, f.words_digits_lt steps none, nofun⟩
  · obtain rfl : ending = .recurred (mode.verdict start steps.length) := hrecurred
    cases mode with
    | fail => cases hw
    | describe =>
      simp only [Detector.Mode.verdict, if_pos hlt.le] at hw
      obtain rfl := Except.ok.inj hw
      refine ⟨rfl, f.words_digits_lt steps (some start), fun start' hstart => ?_⟩
      obtain rfl := Option.some.inj hstart
      rw [Frame.words, List.length_map]
      exact hlt

/-- Before the first turn no remainder has been noted. -/
theorem at_start (mode : Detector.Mode) (n : Int64) {d : Int64} (hd : 0 < d.toInt.natAbs) :
    (Loop.start mode n d).At mode d.toInt.natAbs (n.toInt.natAbs % d.toInt.natAbs) 0 := by
  refine ⟨_, _, underway_start mode _ _, ?_⟩
  rw [remainderAt_zero (Nat.mod_lt _ hd)]
  exact mirrors_start mode n d

/--
**The division of words is safe and ends.** After at most as many turns as the divisor the loop is
over, and its result stands for the one of `Expansion.ofFraction`: nothing of the integer part is cut
off, the digits are below ten, and they start to repeat at one of them. No number of turns breaks the
loop. It goes on only from a remainder that is not zero, below the divisor and none of the earlier
ones, so there are fewer steps than the divisor; the zero brought down has room in the word, and the
digit in its byte.
-/
theorem divides_in_words (mode : Detector.Mode) (n d : Int64) (hd : d ≠ 0) :
    (∃ result, (Frame.ofWords n d).turns d.toInt.natAbs (.start mode n d) = .over result
        ∧ result.map Words.expansion = Expansion.ofFraction mode n.toInt d.toInt
        ∧ ∀ w, result = .ok w →
            w.integerPart.toNat = n.toInt.natAbs / d.toInt.natAbs ∧ (∀ b ∈ w.digits, b.toNat < 10)
              ∧ ∀ start, w.repeatStart = some start → start < w.digits.length)
      ∧ (∀ k b, (Frame.ofWords n d).turns k (.start mode n d) ≠ .broken b)
      ∧ ∀ k l next, (Frame.ofWords n d).turns k (.start mode n d) = .onward l →
          (Frame.ofWords n d).turn l = .onward next →
          k + 1 ≤ d.toInt.natAbs - 1 ∧ l.remainder ≠ 0 ∧ l.remainder.toNat < d.toInt.natAbs
            ∧ (∀ j earlier, j < k →
                (Frame.ofWords n d).turns j (.start mode n d) = .onward earlier →
                earlier.remainder ≠ l.remainder)
            ∧ l.remainder.toNat * 10 < 2 ^ 128
            ∧ ∃ b : UInt8, next.digits = l.digits ++ [b] ∧ b.toNat < 10
                ∧ b.toNat = l.remainder.toNat * 10 / d.toInt.natAbs
                ∧ next.remainder.toNat = l.remainder.toNat * 10 % d.toInt.natAbs := by
  have hne : d.toInt ≠ 0 := fun h => hd (Int64.toInt_inj.mp h)
  have hpos : 0 < d.toInt.natAbs := Int.natAbs_pos.mpr hne
  have hle := natAbs_toInt_le d
  have hdivisor : (Frame.ofWords n d).divisor.toNat = d.toInt.natAbs := toNat_magnitude d
  have hway := (at_start mode n hpos).turns hdivisor hpos hle
  refine ⟨?ends, ?unbroken, ?steps⟩
  case ends =>
    have hproper := Nat.mod_lt n.toInt.natAbs hpos
    have hmirrors := mirrors_start mode n d
    rw [← remainderAt_zero hproper] at hmirrors
    have hturns := turns_run hdivisor hpos hle (underway_start mode _ _) hmirrors _ (Nat.add_zero _)
    rw [remainderAt_zero hproper] at hturns
    refine ⟨_, hturns, expansion_outcome mode n hne, fun w hw => ?_⟩
    obtain ⟨hinteger, hdigits, hrepeat⟩ := (ofFraction_ended mode hproper).words hw
    exact ⟨hinteger ▸ integerPart_ofWords n d, hdigits, hrepeat⟩
  case unbroken =>
    intro k b hbroken
    rcases hway k with ⟨result, hover⟩ | ⟨later, honward, -⟩
    · rw [hover] at hbroken
      cases hbroken
    · rw [honward] at hbroken
      cases hbroken
  case steps =>
    have hreached {k : Nat} {l : Loop}
        (hl : (Frame.ofWords n d).turns k (.start mode n d) = .onward l) :
        l.At mode d.toInt.natAbs (n.toInt.natAbs % d.toInt.natAbs) k := by
      rcases hway k with ⟨result, hover⟩ | ⟨later, honward, hlater⟩
      · rw [hover] at hl
        cases hl
      · rw [honward] at hl
        obtain rfl := Turn.onward.inj hl
        rwa [Nat.zero_add] at hlater
    intro k l next hl hnext
    obtain ⟨hk, hnonzero, hsmall, hnew, hroom, hdigit⟩ :=
      (hreached hl).digit hdivisor hpos hle hnext
    rw [BitVec.lt_def, hdivisor] at hsmall
    exact ⟨by omega, hnonzero, hsmall,
      fun j earlier hj hearlier => hnew earlier j hj (hreached hearlier), hroom, hdigit⟩

/-- The quotient of the smallest word by seven is `-1317624576693539401.(142857)`: the seventh turn
ends it, and the first one goes on. -/
theorem divides_in_words_sevenths :
    (7 : Int64) ≠ 0
      ∧ (∃ next, (Frame.ofWords .minValue 7).turn (.start .describe .minValue 7) = .onward next
          ∧ next.digits = [1] ∧ next.remainder.toNat = 3)
      ∧ (Frame.ofWords .minValue 7).turns 7 (.start .describe .minValue 7)
          = .over (.ok ⟨true, 1317624576693539401, [1, 4, 2, 8, 5, 7], some 0⟩)
      ∧ Expansion.ofFraction .describe (-9223372036854775808) 7
          = .ok ⟨true, 1317624576693539401, [], [1, 4, 2, 8, 5, 7]⟩ := by
  have hnonzero : (7 : Int64) ≠ 0 := by decide
  have hturns : (Frame.ofWords .minValue 7).turns 7 (.start .describe .minValue 7)
      = .over (.ok ⟨true, 1317624576693539401, [1, 4, 2, 8, 5, 7], some 0⟩) := by cbv
  obtain ⟨next, hnext, hdigits⟩ : ∃ next,
      (Frame.ofWords .minValue 7).turn (.start .describe .minValue 7) = .onward next
        ∧ next.digits = [1] := by
    have hfirst : (match (Frame.ofWords .minValue 7).turn (.start .describe .minValue 7) with
      | .onward next => next.digits
      | _ => []) = [1] := by cbv
    split at hfirst
    · exact ⟨_, ‹_›, hfirst⟩
    · cases hfirst
  obtain ⟨⟨result, hover, hexpansion, -⟩, -, hsteps⟩ :=
    divides_in_words .describe .minValue 7 hnonzero
  refine ⟨hnonzero, ⟨next, hnext, hdigits, ?_⟩, hturns, ?_⟩
  · obtain ⟨-, -, -, -, -, b, -, -, -, hremainder⟩ := hsteps 0 _ next rfl hnext
    exact hremainder.trans (by decide)
  · obtain rfl := Turn.over.inj (hover.symm.trans hturns)
    exact hexpansion.symm.trans (congrArg Except.ok (by decide))

end LongDivision

end Recurrence
