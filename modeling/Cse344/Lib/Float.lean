import Cse344.Lib.CString

/-!
# Floats as C reads and prints them

A `float` of C is a `Float32`, whose arithmetic is that of IEEE 754.

* `Float32` has one NaN, while `printf` also writes the sign of a NaN, which no sum or product with
  a number changes: `CFloat` keeps it beside the value.
* `%.2f` (`text`) and `%f` of `sscanf` (`scanFloat`) are exact: what is printed is the nearest
  number of hundredths, and what is read the nearest `float`, ties to even.
* `scanFloat` reads what `strtof` reads: a decimal or hexadecimal number, with an exponent if there
  is a whole one, or an infinity or a NaN, in letters of either case.

Results:
* **`length_text_le`**: the longest text there is, that of the largest number.
* `plain_text`: a price stands in a line as it is.

Out of scope: other rounding modes and locales, and what `%f` leaves of its input.
-/

namespace Cse344.Lib

/-- A `float`; `negNan` is the sign it has as a NaN. -/
structure CFloat where
  value : Float32
  negNan : Bool
  deriving DecidableEq

namespace CFloat

open Float.Model (UnpackedFloat Format)

/-- An operation that makes no NaN of a number. -/
def map (f : Float32 → Float32) (x : CFloat) : CFloat := { x with value := f x.value }

/-- `m * 2 ^ e` in hundredths, rounded to the nearest integer, ties to even. -/
def hundredths (m : ℕ) (e : ℤ) : ℕ :=
  match e with
  | .ofNat e => 100 * (m * 2 ^ e)
  | .negSucc e =>
    let q := 100 * m / 2 ^ (e + 1)
    let r := 100 * m % 2 ^ (e + 1)
    if 2 ^ (e + 1) < 2 * r ∨ 2 * r = 2 ^ (e + 1) ∧ q % 2 = 1 then q + 1 else q

/-- A number of hundredths, with two digits after the point. -/
def fixed (n : ℕ) : CStr :=
  decimal (n / 100 : ℕ) ++ cstr "." ++ decimal (n / 10 % 10 : ℕ) ++ decimal (n % 10 : ℕ)

def minus (sign : UnpackedFloat.Sign) : CStr :=
  match sign with
  | .positive => []
  | .negative => cstr "-"

/-- `%.2f`. -/
def text (x : CFloat) : CStr :=
  match x.value.toModel.unpack with
  | .infinity sign => minus sign ++ cstr "inf"
  | .notANumber => if x.negNan then cstr "-nan" else cstr "nan"
  | .zero sign => minus sign ++ fixed 0
  | .finite sign m e _ => minus sign ++ fixed (hundredths m e)

/-! ## What is read -/

/-- A sign that may be there: whether it is a `-`, and what is left. -/
def scanSign (s : CStr) : Bool × CStr :=
  match s with
  | [] => (false, [])
  | c :: rest => if c = 45 then (true, rest) else (false, if c = 43 then rest else c :: rest)

/-- Digits with a point that may be there: those before it, those after it, and what is left. -/
def scanPoint (digit : UInt8 → Bool) (s : CStr) : CStr × CStr × CStr :=
  let whole := s.takeWhile digit
  let rest := s.dropWhile digit
  if rest.head? = some 46 then
    (whole, rest.tail.takeWhile digit, rest.tail.dropWhile digit)
  else (whole, [], rest)

/-- The exponent after the letter `mark`, 0 when there is none. -/
def scanExponent (mark : UInt8) (s : CStr) : ℤ :=
  if s.head? = some mark then
    let t := scanSign s.tail
    let e : ℤ := digitsValue (t.2.takeWhile isdigit)
    if t.1 then -e else e
  else 0

/-- `isxdigit`, of a lower-case letter. -/
def isxdigit (c : UInt8) : Bool := isdigit c || (97 ≤ c && c ≤ 102)

/-- The value of a run of such digits. -/
def xdigitsValue (l : CStr) : ℕ :=
  l.foldl (fun v c => 16 * v + if isdigit c then c.toNat - 48 else c.toNat - 87) 0

/-- `m * 10 ^ e`, rounded. -/
def ofDecimal (m : ℕ) (e : ℤ) : Float32 := Float32.ofScientific m (decide (e < 0)) e.natAbs

/-- `m * 2 ^ e`, rounded. -/
def ofBinary (m : ℕ) (e : ℤ) : Float32 :=
  .ofModel (.pack (UnpackedFloat.round Format.binary32 .positive m e))

/-- A decimal number. -/
def scanDecimal (s : CStr) : Option Float32 :=
  let r := scanPoint isdigit s
  let digits := r.1 ++ r.2.1
  if digits = [] then none
  else some (ofDecimal (digitsValue digits) (scanExponent 101 r.2.2 - r.2.1.length))

/-- A hexadecimal number, after its `0x`. -/
def scanHex (s : CStr) : Option Float32 :=
  let r := scanPoint isxdigit s
  let digits := r.1 ++ r.2.1
  if digits = [] then none
  else some (ofBinary (xdigitsValue digits) (scanExponent 112 r.2.2 - 4 * r.2.1.length))

/-- A number or an infinity, without a sign; an `infinity` that is cut short is none. -/
def scanMagnitude (s : CStr) : Option Float32 :=
  if (cstr "infinity").isPrefixOf s then some (1 / 0)
  else if (cstr "infi").isPrefixOf s then none
  else if (cstr "inf").isPrefixOf s then some (1 / 0)
  else if (cstr "0x").isPrefixOf s then scanHex (s.drop 2)
  else scanDecimal s

/-- `%f` of `sscanf`, `none` when there is no number. -/
def scanFloat (s : CStr) : Option CFloat :=
  let t := scanSign (s.dropWhile isspace)
  let s := t.2.map tolower
  if (cstr "nan").isPrefixOf s then some ⟨0 / 0, t.1⟩
  else (scanMagnitude s).map fun x => ⟨if t.1 then -x else x, false⟩

/-! ## What is printed -/

/-- A finite `float` is less than `2 ^ 129`. -/
theorem unpack_bounds {f : Float32} {sign : UnpackedFloat.Sign} {m : ℕ} {e : ℤ} {hm : 0 < m}
    (h : f.toModel.unpack = .finite sign m e hm) : m < 2 ^ 24 ∧ e ≤ 105 := by
  have hbias : Format.binary32.exponentBias = 127 := rfl
  obtain ⟨b, hb⟩ : ∃ b : BitVec Format.binary32.numBits, b = f.toModel.toBits.toBitVec := ⟨_, rfl⟩
  have hmantissa := (UnpackedFloat.unpackMantissa b).isLt
  have hexponent := (UnpackedFloat.unpackExponent b).isLt
  unfold Float32.Model.unpack UnpackedFloat.unpack at h
  dsimp only at h hmantissa hexponent
  rw [← hb] at h
  by_cases hmax : UnpackedFloat.unpackExponent b = -1#_
  · rw [if_pos hmax] at h
    by_cases hzero : UnpackedFloat.unpackMantissa b = 0#_
    · rw [if_pos hzero] at h
      cases h
    · rw [if_neg hzero] at h
      cases h
  rw [if_neg hmax] at h
  by_cases hsub : UnpackedFloat.unpackExponent b = 0#_
  · rw [if_pos hsub] at h
    by_cases hzero : UnpackedFloat.unpackMantissa b = 0#_
    · rw [dif_pos hzero] at h
      cases h
    · rw [dif_neg hzero] at h
      injection h with _ hm he -- a subnormal number
      rw [hsub, hbias] at he
      rw [← hm, ← he]
      exact ⟨by omega, by decide⟩
  · rw [if_neg hsub] at h
    injection h with _ hm he
    rw [hbias] at he
    exact ⟨hm ▸ BitVec.isLt _, by omega⟩

theorem hundredths_le {m : ℕ} {e : ℤ} (hm : m < 2 ^ 24) (he : e ≤ 105) :
    hundredths m e ≤ 100 * 2 ^ 129 := by
  unfold hundredths
  split
  · rename_i e
    have he : e ≤ 105 := Int.ofNat_le.mp he
    have hpow : 2 ^ e ≤ 2 ^ 105 := Nat.pow_le_pow_right (by decide) he
    calc 100 * (m * 2 ^ e) ≤ 100 * (2 ^ 24 * 2 ^ 105) :=
          Nat.mul_le_mul_left _ (Nat.mul_le_mul hm.le hpow)
      _ = 100 * 2 ^ 129 := by decide
  · rename_i e
    have hq : 100 * m / 2 ^ (e + 1) ≤ 100 * m := Nat.div_le_self _ _
    dsimp only
    split_ifs <;> omega

theorem length_fixed_le {n : ℕ} (h : n ≤ 100 * 2 ^ 129) : (fixed n).length ≤ 42 := by
  have hwhole : (decimal (n / 100 : ℕ)).length ≤ 39 :=
    length_decimal_natCast_le (by decide) (by
      have : n / 100 ≤ 2 ^ 129 := Nat.div_le_of_le_mul h
      have : 2 ^ 129 < 10 ^ 39 := by decide
      omega)
  have htenth : (decimal (n / 10 % 10 : ℕ)).length ≤ 1 :=
    length_decimal_natCast_le (by decide) (Nat.mod_lt _ (by decide))
  have hhundredth : (decimal (n % 10 : ℕ)).length ≤ 1 :=
    length_decimal_natCast_le (by decide) (Nat.mod_lt _ (by decide))
  have hpoint : (cstr ".").length = 1 := rfl
  unfold fixed
  simp only [List.length_append]
  omega

theorem length_minus_le (sign : UnpackedFloat.Sign) : (minus sign).length ≤ 1 := by
  cases sign <;> decide

/-- **How long a price may be.** -/
theorem length_text_le (x : CFloat) : x.text.length ≤ 43 := by
  unfold text
  split
  · rename_i sign _
    have hminus := length_minus_le sign
    have hinf : (cstr "inf").length = 3 := rfl
    rw [List.length_append]
    omega
  · split_ifs <;> decide
  · rename_i sign _
    have hminus := length_minus_le sign
    have hfixed : (fixed 0).length ≤ 42 := length_fixed_le (Nat.zero_le _)
    rw [List.length_append]
    omega
  · rename_i sign m e _ hx
    obtain ⟨hm, he⟩ := unpack_bounds hx
    have hminus := length_minus_le sign
    have hfixed : (fixed (hundredths m e)).length ≤ 42 := length_fixed_le (hundredths_le hm he)
    rw [List.length_append]
    omega

theorem plain_fixed (n : ℕ) : Plain (fixed n) :=
  (((plain_decimal _).append (by decide)).append (plain_decimal _)).append (plain_decimal _)

theorem plain_minus (sign : UnpackedFloat.Sign) : Plain (minus sign) := by
  cases sign <;> decide

theorem plain_text (x : CFloat) : Plain x.text := by
  unfold text
  split
  · exact (plain_minus _).append (by decide)
  · split_ifs <;> decide
  · exact (plain_minus _).append (plain_fixed _)
  · exact (plain_minus _).append (plain_fixed _)

end CFloat

end Cse344.Lib
