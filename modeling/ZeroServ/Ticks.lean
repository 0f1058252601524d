import Mathlib.Data.BitVec

/-!
# Dates in milliseconds

`common/ticks.h`: a date is a C `int` of 32 bits that wraps around after 49 days, and zero is the date that is not
set. Two dates are compared by the sign of their difference.
-/

namespace ZeroServ

/-- A date, or an interval, in milliseconds. -/
abbrev Tick := BitVec 32

namespace Tick

/-- `tick_isset` -/
def isSet (expire : Tick) : Bool := expire != 0

/-- `tick_add` -/
def add (now timeout : Tick) : Tick := if now + timeout = 0 then 1 else now + timeout

/-- `tick_is_lt` -/
def isLt (t₁ t₂ : Tick) : Bool := (t₁ - t₂).toInt < 0

/-- `tick_is_le` -/
def isLe (t₁ t₂ : Tick) : Bool := (t₁ - t₂).toInt ≤ 0

/-- `tick_is_expired` -/
def isExpired (timer now : Tick) : Bool := timer.isSet && isLe timer now

/-- `tick_first_2nz`: the second date is set. -/
def firstTwoNz (t₁ t₂ : Tick) : Tick := if t₁.isSet then if isLe t₁ t₂ then t₁ else t₂ else t₂

/-- `tick_first`: either date may not be set. -/
def first (t₁ t₂ : Tick) : Tick :=
  if !t₁.isSet then t₂
  else if !t₂.isSet then t₁
  else if isLe t₁ t₂ then t₁
  else t₂

/-- `tick_remain`: the milliseconds left until a date that is set. -/
def remain (now exp : Tick) : Tick := if isExpired exp now then 0 else exp - now

/-! ## Dates seen from now -/

variable {now exp t₁ t₂ : Tick}

theorem isSet_iff : exp.isSet = true ↔ exp ≠ 0 := bne_iff_ne

/-- The signed distance of a date, by the unsigned one. -/
theorem toInt_cases (d : Tick) : d.toNat < 2147483648 ∧ d.toInt = d.toNat ∨ 2147483648 ≤ d.toNat ∧
    d.toInt = d.toNat - 4294967296 := by
  have h := BitVec.toInt_eq_toNat_cond d
  split at h
  · exact .inl ⟨by omega, h⟩
  · exact .inr ⟨by omega, h⟩

/-- The milliseconds left are those up to the date, or none. -/
theorem toInt_remain (h : exp ≠ 0) : (remain now exp).toInt = max 0 (exp - now).toInt := by
  unfold remain isExpired isLe
  rw [isSet_iff.mpr h, Bool.true_and]
  by_cases hle : (exp - now).toInt ≤ 0
  · rw [if_pos (decide_eq_true hle), max_eq_left hle]
    rfl
  · rw [if_neg (by rwa [decide_eq_true_eq]), max_eq_right (by omega)]

/-- A date that is not after now is before now, or now. -/
theorem isLe_of_not_isLt (h : isLt now exp = false) : isLe exp now = true := by
  unfold isLt at h
  unfold isLe
  rw [decide_eq_false_iff_not] at h
  rw [decide_eq_true_eq]
  have h₁ := BitVec.toNat_sub now exp
  have h₂ := BitVec.toNat_sub exp now
  have hnow := now.isLt
  have hexp := exp.isLt
  rcases toInt_cases (now - exp) with ⟨hr, he⟩ | ⟨hr, he⟩
    <;> rcases toInt_cases (exp - now) with ⟨hr', he'⟩ | ⟨hr', he'⟩ <;> omega

/-- Two dates after now are as far from each other as their distances from now say. -/
theorem toInt_sub_of_future (h₁ : 0 < (t₁ - now).toInt) (h₂ : 0 < (t₂ - now).toInt) :
    (t₁ - t₂).toInt = (t₁ - now).toInt - (t₂ - now).toInt := by
  have e₁ := BitVec.toNat_sub t₁ now
  have e₂ := BitVec.toNat_sub t₂ now
  have e₃ := BitVec.toNat_sub t₁ t₂
  have hnow := now.isLt
  have ht₁ := t₁.isLt
  have ht₂ := t₂.isLt
  rcases toInt_cases (t₁ - now) with ⟨r₁, c₁⟩ | ⟨r₁, c₁⟩ <;> rcases toInt_cases (t₂ - now) with ⟨r₂, c₂⟩ | ⟨r₂, c₂⟩ <;>
    rcases toInt_cases (t₁ - t₂) with ⟨r₃, c₃⟩ | ⟨r₃, c₃⟩ <;> omega

end Tick

end ZeroServ
