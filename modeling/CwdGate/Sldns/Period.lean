import Mathlib

namespace CwdGate.Sldns
open List

/-- The value, the overflow flag and what is left of the string at the end pointer. -/
structure Period where
  seconds : UInt32
  overflow : Bool
  endptr : List Char
  deriving DecidableEq

def maxint : UInt32 := 0xffffffff

def unitSeconds (c : Char) : Option UInt32 :=
  match c with
  | 's' | 'S' => some 1
  | 'm' | 'M' => some 60
  | 'h' | 'H' => some (60 * 60)
  | 'd' | 'D' => some (60 * 60 * 24)
  | 'w' | 'W' => some (60 * 60 * 24 * 7)
  | _ => none

def isBlank (c : Char) : Bool := c = ' ' ∨ c = '\t'

def digitOf (c : Char) : UInt32 := c.val - '0'.val

def periodEnd (endptr : List Char) (i seconds : UInt32) : Period :=
  if seconds > maxint - i then ⟨0, true, endptr⟩ else ⟨seconds + i, false, endptr⟩

/-- The loop of `sldns_str2period`; `sign`: there was a sign. For `s` the source leaves out the
first test, which a division by 1 cannot meet. -/
def sldnsStr2periodLoop : List Char → Bool → UInt32 → UInt32 → Period
  | [], _, i, seconds => periodEnd [] i seconds
  | c :: s, sign, i, seconds =>
    if isBlank c then sldnsStr2periodLoop s sign i seconds
    else if c = '-' ∨ c = '+' then
      if sign then ⟨seconds, false, c :: s⟩ else sldnsStr2periodLoop s true i seconds
    else
      match unitSeconds c with
      | some unit =>
        if i > maxint / unit ∨ seconds > maxint - i * unit then ⟨0, true, c :: s⟩
        else sldnsStr2periodLoop s sign 0 (seconds + i * unit)
      | none =>
        if c.isDigit then
          if i > maxint / 10 ∨ i * 10 > maxint - digitOf c then ⟨0, true, c :: s⟩
          else sldnsStr2periodLoop s sign (i * 10 + digitOf c) seconds
        else periodEnd (c :: s) i seconds

def sldnsStr2period (nptr : List Char) : Period := sldnsStr2periodLoop nptr false 0 0

def number (digits : List Char) : Nat := digits.foldl (fun n c => n * 10 + (digitOf c).toNat) 0

/-- The numbers of a string without blanks, each times its unit, behind the digits of the first; a
last number without unit counts seconds. -/
def periodSum : List Char → List Char → Nat
  | digits, [] => number digits
  | digits, c :: s =>
    match unitSeconds c with
    | some unit => number digits * unit.toNat + periodSum [] s
    | none => periodSum (digits ++ [c]) s

def periodChar (c : Char) : Bool := c.isDigit || (unitSeconds c).isSome || isBlank c

def Exact (r : Period) (v : Nat) : Prop :=
  (r.overflow = true ↔ 2 ^ 32 - 1 < v) ∧ (r.overflow = false → r.seconds.toNat = v)

theorem number_concat : number (digits ++ [c]) = number digits * 10 + (digitOf c).toNat := by
  rw [number, foldl_concat]
  rfl

theorem unitSeconds_pos (h : unitSeconds c = some unit) : 0 < unit.toNat := by
  unfold unitSeconds at h
  split at h <;> cases h <;> decide

theorem number_le_periodSum (digits s : List Char) : number digits ≤ periodSum digits s := by
  induction s generalizing digits with
  | nil => exact le_rfl
  | cons c s ih =>
    rw [periodSum]
    split
    case h_1 unit hunit =>
      have := Nat.le_mul_of_pos_right (number digits) (unitSeconds_pos hunit)
      omega
    case h_2 =>
      have := ih (digits ++ [c])
      rw [number_concat] at this
      omega

theorem tooLarge_iff (i unit seconds : UInt32) (hu : 0 < unit.toNat) :
    (i > maxint / unit ∨ seconds > maxint - i * unit) ↔
      2 ^ 32 - 1 < seconds.toNat + i.toNat * unit.toNat := by
  have hmax : maxint.toNat = 2 ^ 32 - 1 := rfl
  have hdiv : i > maxint / unit ↔ 2 ^ 32 - 1 < i.toNat * unit.toNat := by
    rw [gt_iff_lt, UInt32.lt_iff_toNat_lt, UInt32.toNat_div, Nat.div_lt_iff_lt_mul hu, hmax]
  rw [hdiv]
  by_cases hbig : 2 ^ 32 - 1 < i.toNat * unit.toNat
  · exact iff_of_true (.inl hbig) (by omega)
  · have hmul : (i * unit).toNat = i.toNat * unit.toNat := by
      rw [UInt32.toNat_mul]
      exact Nat.mod_eq_of_lt (by omega)
    rw [or_iff_right hbig, gt_iff_lt, UInt32.lt_iff_toNat_lt, UInt32.toNat_sub_of_le, hmul, hmax]
    · omega
    · rw [UInt32.le_iff_toNat_le, hmul, hmax]
      omega

theorem toNat_add_mul (i unit seconds : UInt32)
    (h : ¬ 2 ^ 32 - 1 < seconds.toNat + i.toNat * unit.toNat) :
    (seconds + i * unit).toNat = seconds.toNat + i.toNat * unit.toNat := by
  rw [UInt32.toNat_add, UInt32.toNat_mul, Nat.add_mod_mod]
  exact Nat.mod_eq_of_lt (by omega)

theorem periodEnd_exact : Exact (periodEnd endptr i seconds) (seconds.toNat + i.toNat) := by
  have hlarge : seconds > maxint - i ↔ 2 ^ 32 - 1 < seconds.toNat + i.toNat := by
    have := i.toNat_lt
    simp only [maxint, gt_iff_lt, UInt32.lt_iff_toNat_lt, UInt32.toNat_sub, UInt32.toNat_ofNat]
    omega
  rw [periodEnd]
  split
  case isTrue h => exact ⟨iff_of_true rfl (hlarge.1 h), nofun⟩
  case isFalse h =>
    rw [hlarge] at h
    refine ⟨iff_of_false nofun h, fun _ => ?_⟩
    rw [UInt32.toNat_add]
    exact Nat.mod_eq_of_lt (by omega)

theorem digit_tooLarge_iff (hd : c.isDigit) (i : UInt32) :
    (i > maxint / 10 ∨ i * 10 > maxint - digitOf c) ↔
      2 ^ 32 - 1 < i.toNat * 10 + (digitOf c).toNat := by
  have hc : (digitOf c).toNat < 10 := by
    simp only [Char.isDigit, Bool.and_eq_true, decide_eq_true_eq] at hd
    exact UInt32.lt_iff_toNat_lt.1 (show c.val - 48 < 10 by grind)
  rw [show maxint / 10 = 429496729 by decide]
  simp only [maxint, gt_iff_lt, UInt32.lt_iff_toNat_lt, UInt32.toNat_sub, UInt32.toNat_ofNat,
    UInt32.toNat_mul]
  omega

theorem sldnsStr2periodLoop_exact (hs : ∀ c ∈ s, periodChar c) (hi : i.toNat = number digits) :
    Exact (sldnsStr2periodLoop s sign i seconds)
      (seconds.toNat + periodSum digits (s.filter fun c => ¬ isBlank c)) := by
  induction s generalizing digits i seconds with
  | nil =>
    rw [filter_nil, periodSum, ← hi]
    exact periodEnd_exact
  | cons c s ih =>
    obtain ⟨hc, hs⟩ := forall_mem_cons.1 hs
    rw [sldnsStr2periodLoop]
    split
    case isTrue hb =>
      rw [filter_cons_of_neg (by simpa using hb)]
      exact ih hs hi
    case isFalse hb =>
    rw [filter_cons_of_pos (by simpa using hb), periodSum]
    split
    case isTrue hsign => rcases hsign with rfl | rfl <;> cases hc
    split
    case h_1 unit hunit =>
      have hlarge := tooLarge_iff i unit seconds (unitSeconds_pos hunit)
      rw [hi] at hlarge
      split
      case isTrue h =>
        rw [hlarge] at h
        exact ⟨iff_of_true rfl (by omega), nofun⟩
      case isFalse h =>
        have hadd := toNat_add_mul i unit seconds (hi ▸ hlarge.not.1 h)
        have hrest := @ih [] 0 (seconds + i * unit) hs rfl
        rwa [hadd, hi, Nat.add_assoc] at hrest
    case h_2 hunit =>
      have hdigit : c.isDigit := by
        simpa [periodChar, hunit, hb] using hc
      have hlarge := digit_tooLarge_iff hdigit i
      rw [if_pos hdigit]
      split
      case isTrue h =>
        have hle := number_le_periodSum (digits ++ [c]) (s.filter fun c => ¬ isBlank c)
        rw [hlarge, hi, ← number_concat] at h
        exact ⟨iff_of_true rfl (by omega), nofun⟩
      case isFalse h =>
        rw [hlarge] at h
        apply ih hs
        rw [number_concat, ← hi, UInt32.add_comm, toNat_add_mul i 10 _ (by rwa [Nat.add_comm]),
          Nat.add_comm]
        rfl

/-- The exact value of a period, with an overflow just when it does not fit into 32 bits. -/
theorem sldns_str2period_exact (nptr : List Char) (hs : ∀ c ∈ nptr, periodChar c) :
    let v := periodSum [] (nptr.filter fun c => ¬ isBlank c)
    ((sldnsStr2period nptr).overflow = true ↔ 2 ^ 32 - 1 < v) ∧
      ((sldnsStr2period nptr).overflow = false → (sldnsStr2period nptr).seconds.toNat = v) := by
  rw [← Nat.zero_add (periodSum _ _)]
  exact sldnsStr2periodLoop_exact hs rfl

theorem sldns_str2period_exact_hours :
    let r := sldnsStr2period ['1', 'h', ' ', '3', '0']
    let v := periodSum [] (['1', 'h', ' ', '3', '0'].filter fun c => ¬ isBlank c)
    (r.overflow = true ↔ 2 ^ 32 - 1 < v) ∧ (r.overflow = false → r.seconds.toNat = v) :=
  sldns_str2period_exact ['1', 'h', ' ', '3', '0'] (all_eq_true.1 (by decide))

end CwdGate.Sldns
