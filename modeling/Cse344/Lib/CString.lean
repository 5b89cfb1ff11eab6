import Mathlib.Algebra.Group.Int.Defs
import Mathlib.Algebra.Group.Nat.Defs
import Mathlib.Data.Int.Notation
import Mathlib.Data.List.Basic
import Mathlib.Data.List.TakeWhile

/-!
# C strings

A NUL-terminated string of C is the list of its bytes before the NUL. What the programs use of the C
library for strings and numbers is here, as the standard has it for the C locale, two's complement,
a 32-bit `int` and a 64-bit `long`.

* `strtok` returns the token and what the next call goes on with; `tokensOf` are all of them.
* `strtol` returns the value, which it keeps in the range of a `long`, and what is left. `wrap32` is
  what an `int` keeps of a value: `atoi` and `%d` of `sscanf` cut the `long` they read.
* `scanString`, `scanInt`, `scanLong` and `scanLiteral` are directives of `sscanf`; each returns
  what it read and what is left.
* `snprintf` is given the text it would write; `decimal` is `%d` and `%ld`.
* `lineString` is what all the servers and clients here make of a line that ends in `\r\n`.

Results:
* `wrap32_eq_self_iff`: an `int` keeps exactly the values in its range (`IsInt`).
* `tokensOf_fields`: the tokens of fields that are separated by delimiters are the fields.
* `strtol_decimal`, `scanInt_decimal`, `scanLong_decimal`: a number that is written is read back.
* `Plain` texts stand in a line as they are, and numbers are written so (`plain_decimal`).

Out of scope: `errno`, other locales and bases, and the padding and precision of formats.
-/

namespace Cse344.Lib

/-- The bytes of a C string, the terminating NUL left out. -/
abbrev CStr := List UInt8

/-- The bytes of a string literal. -/
def cstr (s : String) : CStr := s.toList.map Char.toUInt8

/-- The string that starts a buffer with the bytes `l`. -/
def ofBuffer (l : List UInt8) : CStr := l.takeWhile fun c => c != 0

theorem ofBuffer_eq_self {buf : List UInt8} (h : ∀ b ∈ buf, b ≠ 0) : ofBuffer buf = buf :=
  List.takeWhile_eq_self_iff.mpr fun b hb => by simpa using h b hb

/-- A text that is cut at its first separator. -/
theorem append_separator_inj {c : UInt8} {a b x y : CStr} (ha : c ∉ a) (hb : c ∉ b)
    (h : a ++ c :: x = b ++ c :: y) : a = b ∧ x = y := by
  have hhead : ∀ l r : CStr, c ∉ l → (l ++ c :: r).takeWhile (fun b => b != c) = l := by
    intro l r hl
    have hne : ∀ b ∈ l, (b != c) = true := fun b hb => by
      have : b ≠ c := fun hbc => hl (hbc ▸ hb)
      simpa using this
    rw [List.takeWhile_append_of_pos hne, List.takeWhile_cons_of_neg (by simp), List.append_nil]
  have hab : a = b := by rw [← hhead a x ha, h, hhead b y hb]
  subst hab
  exact ⟨rfl, (List.cons.inj (List.append_cancel_left h)).2⟩

/-- `strtok`: the next maximal run of bytes that are not in `delim`, `none` when there is none. -/
def strtok (delim : List UInt8) (s : CStr) : Option CStr × CStr :=
  match s.dropWhile fun c => delim.contains c with
  | [] => (none, [])
  | c :: s =>
    (some ((c :: s).takeWhile fun c => !delim.contains c),
      ((c :: s).dropWhile fun c => !delim.contains c).tail)

/-- A token has no separators, and comes from the string, as what is left does. -/
theorem strtok_spec {delim : List UInt8} {s token rest : CStr}
    (h : strtok delim s = (some token, rest)) :
    token ≠ [] ∧ (∀ b ∈ token, b ∉ delim ∧ b ∈ s) ∧ ∀ b ∈ rest, b ∈ s := by
  unfold strtok at h
  split at h
  · cases h
  · rename_i c t ht
    obtain ⟨htoken, rfl⟩ := Prod.mk.inj h
    obtain rfl := Option.some.inj htoken
    have hmem : ∀ b ∈ c :: t, b ∈ s := fun b hb => (List.dropWhile_suffix _).mem (ht ▸ hb)
    have hc := List.head?_dropWhile_not (fun c => delim.contains c) s
    rw [ht] at hc
    refine ⟨?_, fun b hb => ⟨?_, ?_⟩, fun b hb => ?_⟩
    · rw [List.takeWhile_cons, if_pos (by simpa using hc)]
      exact List.cons_ne_nil _ _
    · simpa using List.mem_takeWhile_imp hb
    · exact hmem b ((List.takeWhile_prefix _).mem hb)
    · exact hmem b ((List.dropWhile_suffix _).mem (List.mem_of_mem_tail hb))

/-- A token that a separator ends, and what the next call goes on with. -/
theorem strtok_token {delim : List UInt8} {token rest : CStr} {c : UInt8} (hne : token ≠ [])
    (h : ∀ b ∈ token, b ∉ delim) (hc : c ∈ delim) :
    strtok delim (token ++ c :: rest) = (some token, rest) := by
  have hall : ∀ b ∈ token, (!delim.contains b) = true := fun b hb => by simpa using h b hb
  have hstop : ¬(!delim.contains c) = true := by simpa using hc
  obtain ⟨b, bs, rfl⟩ := List.exists_cons_of_ne_nil hne
  have hstart : ((b :: bs) ++ c :: rest).dropWhile (fun c => delim.contains c) =
      b :: (bs ++ c :: rest) :=
    List.dropWhile_cons_of_neg (by simpa using h b List.mem_cons_self)
  rw [strtok, hstart]
  dsimp only
  rw [← List.cons_append, List.takeWhile_append_of_pos hall, List.dropWhile_append_of_pos hall,
    List.takeWhile_cons_of_neg (p := fun c => !delim.contains c) hstop,
    List.dropWhile_cons_of_neg (p := fun c => !delim.contains c) hstop, List.append_nil]
  rfl

/-- The last token. -/
theorem strtok_last {delim : List UInt8} {token : CStr} (hne : token ≠ [])
    (h : ∀ b ∈ token, b ∉ delim) : strtok delim token = (some token, []) := by
  have hall : ∀ b ∈ token, (!delim.contains b) = true := fun b hb => by simpa using h b hb
  obtain ⟨b, bs, rfl⟩ := List.exists_cons_of_ne_nil hne
  have hstart : (b :: bs).dropWhile (fun c => delim.contains c) = b :: bs :=
    List.dropWhile_cons_of_neg (by simpa using h b List.mem_cons_self)
  rw [strtok, hstart]
  dsimp only
  rw [List.takeWhile_eq_self_iff.mpr hall, List.dropWhile_eq_nil_iff.mpr hall]
  rfl

/-- All tokens of a string. -/
def tokensOf (delim : List UInt8) (s : CStr) : List CStr :=
  (s.splitOnP fun c => delim.contains c).filter fun token => !token.isEmpty

theorem tokensOf_nil (delim : List UInt8) : tokensOf delim [] = [] := rfl

/-- Separators at the start make no token. -/
theorem tokensOf_dropWhile (delim : List UInt8) (s : CStr) :
    tokensOf delim (s.dropWhile fun c => delim.contains c) = tokensOf delim s := by
  induction s with
  | nil => rfl
  | cons c s ih =>
    cases hc : delim.contains c with
    | true =>
      rw [List.dropWhile_cons_of_pos (p := fun c => delim.contains c) hc, ih, tokensOf, tokensOf,
        List.splitOnP_cons_eq_if_modifyHead, if_pos hc]
      rfl
    | false =>
      rw [List.dropWhile_cons_of_neg (p := fun c => delim.contains c) (by simpa using hc)]

theorem tokensOf_of_none {delim : List UInt8} {s : CStr} (h : (strtok delim s).1 = none) :
    tokensOf delim s = [] := by
  rw [← tokensOf_dropWhile]
  unfold strtok at h
  split at h
  · rename_i hnil
    rw [hnil, tokensOf_nil]
  · cases h

/-- **A call of `strtok`** gives the first token, and goes on with the others. -/
theorem tokensOf_of_some {delim : List UInt8} {s token rest : CStr}
    (h : strtok delim s = (some token, rest)) :
    tokensOf delim s = token :: tokensOf delim rest := by
  rw [← tokensOf_dropWhile]
  unfold strtok at h
  split at h
  · cases h
  · rename_i c t hstart
    obtain ⟨htoken, rfl⟩ := Prod.mk.inj h
    obtain rfl := Option.some.inj htoken
    have hc := List.head?_dropWhile_not (fun c => delim.contains c) s
    rw [hstart] at hc
    have hne : (!((c :: t).takeWhile fun c => !delim.contains c).isEmpty) = true := by
      rw [List.takeWhile_cons, if_pos (by simpa using hc)]
      rfl
    have hplain : ∀ b ∈ (c :: t).takeWhile fun c => !delim.contains c,
        delim.contains b = false := fun b hb => by simpa using List.mem_takeWhile_imp hb
    have hsplit : c :: t = ((c :: t).takeWhile fun c => !delim.contains c) ++
        (c :: t).dropWhile fun c => !delim.contains c := List.takeWhile_append_dropWhile.symm
    rw [hstart]
    generalize ((c :: t).takeWhile fun c => !delim.contains c) = token at *
    cases hrest : (c :: t).dropWhile fun c => !delim.contains c with
    | nil =>
      rw [hrest, List.append_nil] at hsplit
      rw [hsplit, tokensOf, List.splitOnP_eq_singleton hplain,
        List.filter_cons_of_pos (p := fun token : CStr => !token.isEmpty) hne]
      rfl
    | cons d rest =>
      have hd := List.head?_dropWhile_not (fun c => !delim.contains c) (c :: t)
      rw [hrest] at hd hsplit
      rw [hsplit, tokensOf, List.splitOnP_append_cons_of_forall_mem hplain d (by simpa using hd),
        List.filter_cons_of_pos (p := fun token : CStr => !token.isEmpty) hne]
      rfl

/-- Separators make no token. -/
theorem tokensOf_pad {delim : List UInt8} {pad : CStr} (h : ∀ b ∈ pad, b ∈ delim) (s : CStr) :
    tokensOf delim (pad ++ s) = tokensOf delim s := by
  have hall : ∀ b ∈ pad, delim.contains b = true := fun b hb => by simpa using h b hb
  rw [← tokensOf_dropWhile, List.dropWhile_append_of_pos hall, tokensOf_dropWhile]

/-- The first token, where a separator or the end comes behind it. -/
theorem tokensOf_token {delim : List UInt8} {token rest : CStr} (hne : token ≠ [])
    (h : ∀ b ∈ token, b ∉ delim) (hrest : ∀ c ∈ rest.head?, c ∈ delim) :
    tokensOf delim (token ++ rest) = token :: tokensOf delim rest := by
  cases rest with
  | nil => rw [List.append_nil, tokensOf_of_some (strtok_last hne h)]
  | cons c rest =>
    have hc : c ∈ delim := hrest c rfl
    have hpad : tokensOf delim ([c] ++ rest) = tokensOf delim rest :=
      tokensOf_pad (List.forall_mem_singleton.mpr hc) rest
    rw [tokensOf_of_some (strtok_token hne h hc), ← hpad, List.singleton_append]

/-- Tokens with separators in front of each of them. -/
theorem tokensOf_fields {delim : List UInt8} {tail : CStr} (htail : ∀ b ∈ tail, b ∈ delim) :
    ∀ {fields : List (CStr × CStr)},
      (∀ f ∈ fields, f.1 ≠ [] ∧ (∀ b ∈ f.1, b ∈ delim) ∧ f.2 ≠ [] ∧ ∀ b ∈ f.2, b ∉ delim) →
        tokensOf delim ((fields.flatMap fun f => f.1 ++ f.2) ++ tail) = fields.map Prod.snd ∧
          ∀ c ∈ ((fields.flatMap fun f => f.1 ++ f.2) ++ tail).head?, c ∈ delim
  | [], _ => by
    refine ⟨?_, fun c hc => htail c (List.mem_of_mem_head? hc)⟩
    rw [List.flatMap_nil, List.nil_append, ← List.append_nil tail, tokensOf_pad htail]
    rfl
  | f :: fields, h => by
    obtain ⟨hpad, hsep, hne, htoken⟩ := h f List.mem_cons_self
    obtain ⟨htokens, hhead⟩ := tokensOf_fields htail fun g hg => h g (List.mem_cons_of_mem _ hg)
    rw [List.flatMap_cons, List.append_assoc, List.append_assoc]
    refine ⟨?_, fun c hc => ?_⟩
    · rw [tokensOf_pad hsep, tokensOf_token hne htoken hhead, htokens, List.map_cons]
    · rw [List.head?_append_of_ne_nil _ hpad] at hc
      exact hsep c (List.mem_of_mem_head? hc)

/-- Tokens have no separators, and are made of the string. -/
theorem mem_of_mem_tokensOf {delim : List UInt8} {s token : CStr} (h : token ∈ tokensOf delim s) :
    ∀ b ∈ token, b ∉ delim ∧ b ∈ s := by
  replace h := (List.mem_filter.mp h).1
  induction s generalizing token with
  | nil =>
    intro b hb
    rw [List.mem_singleton.mp h] at hb
    cases hb
  | cons c s ih =>
    have htail : ∀ {token : CStr}, (token ∈ s.splitOnP fun c => delim.contains c) →
        ∀ b ∈ token, b ∉ delim ∧ b ∈ c :: s := fun h b hb =>
      ⟨(ih h b hb).1, List.mem_cons_of_mem c (ih h b hb).2⟩
    rw [List.splitOnP_cons_eq_if_modifyHead] at h
    split_ifs at h with hc
    · rcases List.mem_cons.mp h with rfl | h
      · intro b hb
        cases hb
      · exact htail h
    · obtain ⟨x, xs, hsplit⟩ :=
        List.exists_cons_of_ne_nil (List.splitOnP_ne_nil (fun c => delim.contains c) s)
      rw [hsplit, List.modifyHead_cons] at h
      rw [hsplit] at htail
      rcases List.mem_cons.mp h with rfl | h
      · intro b hb
        rcases List.mem_cons.mp hb with rfl | hb
        · exact ⟨by simpa using hc, List.mem_cons_self⟩
        · exact htail List.mem_cons_self b hb
      · exact htail (List.mem_cons_of_mem x h)

/-- `isspace` in the C locale. -/
def isspace (c : UInt8) : Bool := c == 32 || (9 ≤ c && c ≤ 13)

/-- `isdigit`. -/
def isdigit (c : UInt8) : Bool := 48 ≤ c && c ≤ 57

/-- `tolower` in the C locale. -/
def tolower (b : UInt8) : UInt8 := if 65 ≤ b ∧ b ≤ 90 then b + 32 else b

/-- The value of a byte stored in a `char`, which is signed. -/
def toChar (b : UInt8) : ℤ := if b < 128 then b.toNat else (b.toNat : ℤ) - 256

/-- `tolower((unsigned char)x) == c`, for a `char c`. -/
def sameLetter (x : UInt8) (c : ℤ) : Bool := decide (((tolower x).toNat : ℤ) = c)

/-- The value of a run of decimal digits. -/
def digitsValue (l : CStr) : ℕ := l.foldl (fun v c => 10 * v + (c.toNat - 48)) 0

/-- `LONG_MIN` of a 64-bit `long`. -/
def longMin : ℤ := -9223372036854775808

/-- `LONG_MAX` of a 64-bit `long`. -/
def longMax : ℤ := 9223372036854775807

/-- `strtol` in base 10: the value and the rest of the string; all of it when there is no number. -/
def strtol (s : CStr) : ℤ × CStr :=
  let t := s.dropWhile isspace
  let (sign, t) : ℤ × CStr :=
    match t with
    | 45 :: t => (-1, t)
    | 43 :: t => (1, t)
    | t => (1, t)
  match t.takeWhile isdigit with
  | [] => (0, s)
  | d :: ds =>
    (max longMin (min (sign * digitsValue (d :: ds)) longMax), t.dropWhile isdigit)

/-- `INT_MAX`. -/
def intMax : ℤ := 2147483647

/-- The low 32 bits of a value, as an `int`. -/
def wrap32 (v : ℤ) : ℤ := (v + 2 ^ 31) % 2 ^ 32 - 2 ^ 31

/-- `atoi`, which is `strtol` cast to `int`. -/
def atoi (s : CStr) : ℤ := wrap32 (strtol s).1

/-- A value that an `int` holds. -/
def IsInt (v : ℤ) : Prop := -intMax - 1 ≤ v ∧ v ≤ intMax

instance (v : ℤ) : Decidable (IsInt v) := inferInstanceAs (Decidable (_ ∧ _))

theorem isInt_of_nonneg {v : ℤ} (h : 0 ≤ v) (hle : v ≤ intMax) : IsInt v :=
  ⟨by unfold intMax; omega, hle⟩

theorem isInt_wrap32 (v : ℤ) : IsInt (wrap32 v) := by
  unfold IsInt wrap32 intMax
  omega

theorem wrap32_le (v : ℤ) : wrap32 v ≤ intMax := (isInt_wrap32 v).2

theorem wrap32_of_mem {v : ℤ} (h : -intMax - 1 ≤ v) (h' : v ≤ intMax) : wrap32 v = v := by
  unfold wrap32
  unfold intMax at h h'
  omega

/-- An `int` keeps the values it holds, and no others. -/
theorem wrap32_eq_self_iff {v : ℤ} : wrap32 v = v ↔ IsInt v :=
  ⟨fun h => h ▸ isInt_wrap32 v, fun h => wrap32_of_mem h.1 h.2⟩

theorem isdigit_iff {c : UInt8} : isdigit c = true ↔ 48 ≤ c.toNat ∧ c.toNat ≤ 57 := by
  simp [isdigit, UInt8.le_iff_toNat_le]

theorem isspace_of_isdigit {c : UInt8} (h : isdigit c = true) : isspace c = false := by
  have hrange := isdigit_iff.mp h
  rw [isspace, Bool.or_eq_false_iff, Bool.and_eq_false_iff]
  refine ⟨beq_eq_false_iff_ne.mpr ?_, .inr (decide_eq_false ?_)⟩
  · rintro rfl
    exact absurd hrange (by decide)
  · rw [UInt8.le_iff_toNat_le]
    exact fun hle => absurd (hrange.1.trans hle) (by decide)

/-- What `strtol` makes of a number between white space and what is no digit. -/
theorem strtol_number {pad l rest : CStr} (hpad : ∀ b ∈ pad, isspace b = true) (hne : l ≠ [])
    (h : ∀ b ∈ l, isdigit b = true) (hrest : ∀ b ∈ rest.head?, isdigit b = false) :
    strtol (pad ++ (l ++ rest)) = (min (digitsValue l : ℤ) longMax, rest) := by
  obtain ⟨d, ds, rfl⟩ := List.exists_cons_of_ne_nil hne
  have hd := isdigit_iff.mp (h d List.mem_cons_self)
  have hdrop : (pad ++ (d :: ds ++ rest)).dropWhile isspace = d :: ds ++ rest := by
    rw [List.dropWhile_append_of_pos hpad]
    exact List.dropWhile_cons_of_neg (by simp [isspace_of_isdigit (h d List.mem_cons_self)])
  have htail : rest.takeWhile isdigit = [] ∧ rest.dropWhile isdigit = rest := by
    cases rest with
    | nil => exact ⟨rfl, rfl⟩
    | cons c rest =>
      have hc : ¬isdigit c = true := by rw [hrest c rfl]; decide
      exact ⟨List.takeWhile_cons_of_neg hc, List.dropWhile_cons_of_neg hc⟩
  have htake : (d :: ds ++ rest).takeWhile isdigit = d :: ds := by
    rw [List.takeWhile_append_of_pos h, htail.1, List.append_nil]
  have hleft : (d :: ds ++ rest).dropWhile isdigit = rest := by
    rw [List.dropWhile_append_of_pos h, htail.2]
  have hvalue : (0 : ℤ) ≤ digitsValue (d :: ds) := Int.natCast_nonneg _
  have hminus : d ≠ 45 := by
    rintro rfl
    exact absurd hd (by decide)
  have hplus : d ≠ 43 := by
    rintro rfl
    exact absurd hd (by decide)
  have hmax : max longMin (min (digitsValue (d :: ds) : ℤ) longMax) =
      min (digitsValue (d :: ds) : ℤ) longMax := by
    unfold longMin longMax
    omega
  simp only [List.cons_append] at htake hleft hdrop ⊢
  simp [strtol, hdrop, htake, hleft, hminus, hplus, hmax]

/-- What `strtol` makes of digits alone. -/
theorem strtol_digits {l : CStr} (hne : l ≠ []) (h : ∀ b ∈ l, isdigit b = true) :
    strtol l = (min (digitsValue l : ℤ) longMax, []) := by
  have hnumber : strtol ([] ++ (l ++ [])) = _ :=
    strtol_number (List.forall_mem_nil _) hne h (by intro b hb; cases hb)
  rwa [List.nil_append, List.append_nil] at hnumber

theorem atoi_digits {l : CStr} (hne : l ≠ []) (h : ∀ b ∈ l, isdigit b = true) :
    atoi l = wrap32 (min (digitsValue l : ℤ) longMax) := by
  rw [atoi, strtol_digits hne h]

/-- `%<width>s`: a field without white space. -/
def scanString (width : ℕ) (s : CStr) : Option (CStr × CStr) :=
  let t := s.dropWhile isspace
  match (t.takeWhile fun c => !isspace c).take width with
  | [] => none
  | c :: field => some (c :: field, t.drop (field.length + 1))

/-- A field has no white space, fits its width, and comes from the input, as what is left does. -/
theorem scanString_spec {width : ℕ} {s field rest : CStr}
    (h : scanString width s = some (field, rest)) :
    field.length ≤ width ∧ (∀ b ∈ field, isspace b = false ∧ b ∈ s) ∧ ∀ b ∈ rest, b ∈ s := by
  unfold scanString at h
  dsimp only at h
  split at h
  · cases h
  · rename_i c field' hfield
    obtain ⟨rfl, rfl⟩ := Prod.mk.inj (Option.some.inj h)
    refine ⟨?_, fun b hb => ?_, fun b hb => ?_⟩
    · rw [← hfield]
      exact List.length_take_le _ _
    · rw [← hfield] at hb
      have hmem := List.mem_of_mem_take hb
      exact ⟨by simpa using List.mem_takeWhile_imp hmem,
        (List.dropWhile_suffix _).mem ((List.takeWhile_prefix _).mem hmem)⟩
    · exact (List.dropWhile_suffix _).mem (List.mem_of_mem_drop hb)

theorem scanString_ne_nil {width : ℕ} {s field rest : CStr}
    (h : scanString width s = some (field, rest)) : field ≠ [] := by
  unfold scanString at h
  dsimp only at h
  split at h
  · cases h
  · obtain ⟨rfl, -⟩ := Prod.mk.inj (Option.some.inj h)
    exact List.cons_ne_nil _ _

/-- `%d`: a `long`, of which an `int` keeps the low bits. -/
def scanInt (s : CStr) : Option (ℤ × CStr) :=
  let r := strtol s
  if r.2 = s then none else some (wrap32 r.1, r.2)

/-- `%ld`. -/
def scanLong (s : CStr) : Option (ℤ × CStr) :=
  let r := strtol s
  if r.2 = s then none else some r

/-- A literal part of a format. -/
def scanLiteral (text s : CStr) : Option CStr :=
  if text.isPrefixOf s then some (s.drop text.length) else none

theorem scanLiteral_append (text rest : CStr) : scanLiteral text (text ++ rest) = some rest := by
  rw [scanLiteral, if_pos (List.isPrefixOf_iff_prefix.mpr (List.prefix_append text rest)),
    List.drop_left]

/-- `%d`. -/
def decimal (v : ℤ) : CStr := cstr (toString v)

/-- A newline. -/
def newline : CStr := [10]

/-- A separating blank. -/
def sp : CStr := [32]

/-- What `snprintf` leaves of `text` in a buffer of `size` bytes. -/
def snprintf (size : ℕ) (text : CStr) : CStr := text.take (size - 1)

/-- A text that is cut off starts as it did. -/
theorem isPrefixOf_snprintf {size : ℕ} {head text : CStr} (hlen : head.length ≤ size - 1)
    (h : head.isPrefixOf text) : head.isPrefixOf (snprintf size text) := by
  obtain ⟨rest, rfl⟩ := List.isPrefixOf_iff_prefix.mp h
  rw [List.isPrefixOf_iff_prefix]
  unfold snprintf
  refine List.prefix_of_prefix_length_le (List.prefix_append _ _) (List.take_prefix _ _) ?_
  rw [List.length_take, List.length_append]
  omega

/-! ## Lines -/

/-- A line without its `\r`, as a string: `line[len - 1] = '\0'` where a `\r` is there. -/
def lineString (line : List UInt8) : CStr :=
  ofBuffer (if line.getLast? = some 13 then line.dropLast else line)

theorem lineString_eq_self {line : CStr} (hzero : ∀ b ∈ line, b ≠ 0)
    (hcr : line.getLast? ≠ some 13) : lineString line = line := by
  unfold lineString
  rw [if_neg hcr]
  exact ofBuffer_eq_self hzero

/-- A `\r` at the end is not part of the string. -/
theorem lineString_eq_self_iff {line : CStr} (hzero : ∀ b ∈ line, b ≠ 0) :
    lineString line = line ↔ line.getLast? ≠ some 13 := by
  refine ⟨fun hself hcr => ?_, lineString_eq_self hzero⟩
  unfold lineString at hself
  rw [if_pos hcr] at hself
  have hle : line.length ≤ line.dropLast.length := by
    rw [← congrArg List.length hself]
    exact (List.takeWhile_prefix _).length_le
  have hne : line ≠ [] := by
    rintro rfl
    cases hcr
  rw [List.length_dropLast] at hle
  have := List.length_pos_of_ne_nil hne
  omega

theorem lineString_isPrefix (line : List UInt8) : lineString line <+: line := by
  refine (List.takeWhile_prefix _).trans ?_
  split_ifs
  · exact List.dropLast_prefix line
  · exact List.prefix_refl line

/-! ## Texts of one line -/

/-- Bytes that stand in a line as they are: no NUL, newline or carriage return. -/
def Plain (text : CStr) : Prop := ∀ b ∈ text, b ≠ 0 ∧ b ≠ 10 ∧ b ≠ 13

theorem Plain.append {a b : CStr} (ha : Plain a) (hb : Plain b) : Plain (a ++ b) := by
  rintro c hc
  rcases List.mem_append.mp hc with hc | hc
  · exact ha c hc
  · exact hb c hc

instance (text : CStr) : Decidable (Plain text) := List.decidableBAll _ text

theorem Plain.ne_zero {text : CStr} (h : Plain text) : ∀ b ∈ text, b ≠ 0 := fun b hb => (h b hb).1

theorem Plain.ne_newline {text : CStr} (h : Plain text) : ∀ b ∈ text, b ≠ 10 :=
  fun b hb => (h b hb).2.1

theorem Plain.bytes {text : CStr} (h : Plain text) : ∀ b ∈ text, b ≠ 0 ∧ b ≠ 10 :=
  fun b hb => ⟨h.ne_zero b hb, h.ne_newline b hb⟩

theorem Plain.noReturn {text : CStr} (h : Plain text) : text.getLast? ≠ some 13 :=
  fun hlast => (h 13 (List.mem_of_getLast? hlast)).2.2 rfl

theorem decimal_natCast (n : ℕ) : decimal n = (Nat.toDigits 10 n).map Char.toUInt8 := by
  show cstr (toString n) = _
  rw [cstr, Nat.toString_eq_ofList_toDigits]
  simp

theorem decimal_negSucc (n : ℕ) : decimal (Int.negSucc n) = cstr "-" ++ decimal (n + 1 : ℕ) := by
  show cstr ("-" ++ toString (n + 1)) = cstr "-" ++ cstr (toString (n + 1))
  simp [cstr]

/-- A digit is written as one byte. -/
theorem toNat_digit {n : ℕ} {c : Char} (h : c ∈ Nat.toDigits 10 n) :
    c.toUInt8.toNat = c.toNat ∧ 48 ≤ c.toNat ∧ c.toNat ≤ 57 := by
  have hdigit := Nat.isDigit_of_mem_toDigits (by decide) (by decide) h
  have hrange : 48 ≤ c.toNat ∧ c.toNat ≤ 57 := by
    simpa [Char.isDigit, UInt32.le_iff_toNat_le] using hdigit
  have hbyte : c.toUInt8.toNat = c.toNat % 256 := by
    rw [← Char.toUInt8_val, UInt32.toNat_toUInt8, Char.toNat_val]
  omega

theorem mem_decimal_natCast {n : ℕ} {b : UInt8} (hb : b ∈ decimal n) :
    48 ≤ b.toNat ∧ b.toNat ≤ 57 := by
  rw [decimal_natCast] at hb
  obtain ⟨c, hc, rfl⟩ := List.mem_map.mp hb
  obtain ⟨hbyte, hrange⟩ := toNat_digit hc
  rw [hbyte]
  exact hrange

/-- Reading back what was written. -/
theorem digitsValue_decimal (n : ℕ) : digitsValue (decimal n) = n := by
  rw [decimal_natCast, digitsValue, List.foldl_map]
  have hback := Nat.ofDigitChars_ten_toDigits (n := n)
  rw [Nat.ofDigitChars_eq_foldl] at hback
  refine (List.foldl_ext _ _ _ fun v c hc => ?_).trans hback
  rw [(toNat_digit hc).1]
  rfl

/-- A number that is written like a natural number is that number. -/
theorem eq_of_decimal_eq {v : ℤ} {n : ℕ} (h : decimal v = decimal n) : v = n := by
  cases v with
  | ofNat m =>
    have hvalue := congrArg digitsValue (show decimal (m : ℤ) = decimal n from h)
    rw [digitsValue_decimal, digitsValue_decimal] at hvalue
    exact congrArg Int.ofNat hvalue
  | negSucc m =>
    rw [decimal_negSucc] at h
    have hminus : (45 : UInt8) ∈ decimal n :=
      h ▸ List.mem_append_left _ (List.mem_singleton.mpr rfl)
    exact absurd (mem_decimal_natCast hminus) (by decide)

/-- A number is written with digits and a sign. -/
theorem mem_decimal {v : ℤ} {b : UInt8} (hb : b ∈ decimal v) :
    b = 45 ∨ 48 ≤ b.toNat ∧ b.toNat ≤ 57 := by
  cases v with
  | ofNat n => exact .inr (mem_decimal_natCast hb)
  | negSucc n =>
    rw [decimal_negSucc] at hb
    rcases List.mem_append.mp hb with hb | hb
    · exact .inl (List.mem_singleton.mp hb)
    · exact .inr (mem_decimal_natCast hb)

theorem decimal_ne_nil (v : ℤ) : decimal v ≠ [] := by
  cases v with
  | ofNat n =>
    show decimal (n : ℤ) ≠ []
    rw [decimal_natCast, Ne, List.map_eq_nil_iff]
    exact Nat.toDigits_ne_nil
  | negSucc n =>
    rw [decimal_negSucc]
    exact List.append_ne_nil_of_left_ne_nil (by decide) _

/-- `strtol` reads a written number back. -/
theorem strtol_decimal {pad rest : CStr} {n : ℕ} (hpad : ∀ b ∈ pad, isspace b = true)
    (hn : (n : ℤ) ≤ longMax) (hrest : ∀ b ∈ rest.head?, isdigit b = false) :
    strtol (pad ++ (decimal n ++ rest)) = ((n : ℤ), rest) := by
  have hdigits : ∀ b ∈ decimal n, isdigit b = true := fun b hb =>
    isdigit_iff.mpr (mem_decimal_natCast hb)
  rw [strtol_number hpad (decimal_ne_nil n) hdigits hrest, digitsValue_decimal,
    Int.min_eq_left hn]

/-- `%ld` reads a written number back. -/
theorem scanLong_decimal {pad rest : CStr} {n : ℕ} (hpad : ∀ b ∈ pad, isspace b = true)
    (hn : (n : ℤ) ≤ longMax) (hrest : ∀ b ∈ rest.head?, isdigit b = false) :
    scanLong (pad ++ (decimal n ++ rest)) = some ((n : ℤ), rest) := by
  have hmoved : rest ≠ pad ++ (decimal n ++ rest) := fun heq => by
    have hlen := congrArg List.length heq
    have hpos := List.length_pos_iff.mpr (decimal_ne_nil n)
    rw [List.length_append, List.length_append] at hlen
    omega
  rw [scanLong, strtol_decimal hpad hn hrest]
  exact if_neg hmoved

/-- `%d` reads a written number back. -/
theorem scanInt_decimal {rest : CStr} {n : ℕ} (hn : (n : ℤ) ≤ intMax)
    (hrest : ∀ b ∈ rest.head?, isdigit b = false) :
    scanInt (decimal n ++ rest) = some ((n : ℤ), rest) := by
  have hlong : (n : ℤ) ≤ longMax := Int.le_trans hn (by decide)
  have hscan := scanLong_decimal (List.forall_mem_nil _) hlong hrest
  rw [List.nil_append] at hscan
  unfold scanLong at hscan
  dsimp only at hscan
  split_ifs at hscan with hmoved
  rw [scanInt, if_neg hmoved, Option.some.inj hscan, wrap32_of_mem (by unfold intMax; omega) hn]

theorem plain_decimal (v : ℤ) : Plain (decimal v) := by
  intro b hb
  rcases mem_decimal hb with rfl | hrange
  · decide
  · refine ⟨?_, ?_, ?_⟩
    · rintro rfl
      exact absurd hrange (by decide)
    · rintro rfl
      exact absurd hrange (by decide)
    · rintro rfl
      exact absurd hrange (by decide)

/-- A number below `10 ^ k` has at most `k` digits. -/
theorem length_decimal_natCast_le {n k : ℕ} (hk : 0 < k) (h : n < 10 ^ k) :
    (decimal n).length ≤ k := by
  rw [decimal_natCast, List.length_map]
  exact (Nat.length_toDigits_le_iff (by decide) hk).mpr h

theorem length_decimal_le {v : ℤ} {k : ℕ} (hk : 0 < k) (h : v.natAbs < 10 ^ k) :
    (decimal v).length ≤ k + 1 := by
  cases v with
  | ofNat n => exact (length_decimal_natCast_le hk h).trans (Nat.le_succ k)
  | negSucc n =>
    have hle : (decimal ((n + 1 : ℕ) : ℤ)).length ≤ k := length_decimal_natCast_le hk h
    rw [decimal_negSucc, List.length_append]
    have hminus : (cstr "-").length = 1 := rfl
    omega

end Cse344.Lib
