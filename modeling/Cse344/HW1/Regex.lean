import Cse344.Lib.CString
import Cse344.Lib.Pattern

/-!
# The pattern of a file name

Model of `regex_match` (`HW1/src/regex.c` 4-35). `char` is signed, as on x86-64, and the locale is
`C`.

* `elements` reads a pattern as its author means it: a character before a `+` is taken once or more,
  any other character once. `Language` is the set of file names it stands for.
* `regex_match` tries the rest of the pattern after each of the bytes that it may take for a `+`.
  Elements and what they stand for are those of `Cse344.Lib.Pattern`.
* It compares a byte of the file name, which is unsigned, with a `char`, which is not: a byte of the
  pattern from 128 on is equal to no byte at all.

Results:
* **`regexMatch_iff_language`**: a pattern without such bytes matches exactly its language, and any
  other pattern nothing.
* **`accepts_language`**: of each pattern, and of each pattern and name, whether the matcher accepts
  exactly what it should.

Out of scope: a `+` at the start of a pattern, which is a character like any other here as in the
code.
-/

namespace Cse344.HW1

open Cse344.Lib

/-- The loop of the `+` branch: `next` is the match of the rest of the pattern. -/
def matchPlus (next : CStr → Bool) (c : ℤ) : CStr → Bool
  | [] => false
  | x :: xs => if sameLetter x c then next xs || matchPlus next c xs else false

def regexMatch : CStr → CStr → Bool
  | [], filename => filename.isEmpty
  | [p], filename =>
    match filename with
    | [] => false
    | x :: xs => if sameLetter x (toChar (tolower p)) then regexMatch [] xs else false
  | p :: q :: pattern, filename =>
    if q = 43 then
      -- the test before the loop; the byte there is the NUL when the name is empty
      if !sameLetter (filename.headD 0) (toChar (tolower p)) then false
      else matchPlus (regexMatch pattern) (toChar (tolower p)) filename
    else
      match filename with
      | [] => false
      | x :: xs => if sameLetter x (toChar (tolower p)) then regexMatch (q :: pattern) xs else false

/-! ## The language of a pattern -/

/-- A pattern read from left to right. -/
def elements : CStr → List (Element UInt8)
  | [] => []
  | [p] => [⟨p, false⟩]
  | p :: q :: pattern =>
    if q = 43 then ⟨p, true⟩ :: elements pattern else ⟨p, false⟩ :: elements (q :: pattern)

/-- Equal up to the case of ASCII letters. -/
def equalLetter (c x : UInt8) : Bool := tolower x == tolower c

/-- The file names a pattern stands for. -/
def Language (pattern filename : CStr) : Prop := Accepts equalLetter (elements pattern) filename

/-- A letter of the pattern takes this byte, as the code compares them. -/
def takesByte (c x : UInt8) : Bool := sameLetter x (toChar (tolower c))

theorem letter_mem {pattern : CStr} {e : Element UInt8} (he : e ∈ elements pattern) :
    e.letter ∈ pattern := by
  induction pattern using elements.induct with
  | case1 => cases he
  | case2 p =>
    rw [elements, List.mem_singleton] at he
    subst he
    exact List.mem_cons_self
  | case3 p pattern ih =>
    rw [elements, if_pos rfl] at he
    rcases List.mem_cons.mp he with rfl | he
    · exact List.mem_cons_self
    · exact List.mem_cons_of_mem _ (List.mem_cons_of_mem _ (ih he))
  | case4 p q pattern hq ih =>
    rw [elements, if_neg hq] at he
    rcases List.mem_cons.mp he with rfl | he
    · exact List.mem_cons_self
    · exact List.mem_cons_of_mem _ (ih he)

/-- Every byte but a `+` is a letter. -/
theorem exists_letter {pattern : CStr} {b : UInt8} (hb : b ∈ pattern) (hne : b ≠ 43) :
    ∃ e ∈ elements pattern, e.letter = b := by
  induction pattern using elements.induct with
  | case1 => cases hb
  | case2 p => exact ⟨⟨p, false⟩, List.mem_cons_self, (List.mem_singleton.mp hb).symm⟩
  | case3 p pattern ih =>
    rw [elements, if_pos rfl]
    rcases List.mem_cons.mp hb with rfl | hb
    · exact ⟨_, List.mem_cons_self, rfl⟩
    · obtain ⟨e, he, heq⟩ := ih ((List.mem_cons.mp hb).resolve_left hne)
      exact ⟨e, List.mem_cons_of_mem _ he, heq⟩
  | case4 p q pattern hq ih =>
    rw [elements, if_neg hq]
    rcases List.mem_cons.mp hb with rfl | hb
    · exact ⟨_, List.mem_cons_self, rfl⟩
    · obtain ⟨e, he, heq⟩ := ih hb
      exact ⟨e, List.mem_cons_of_mem _ he, heq⟩

/-- A pattern without a `+` is its own letters. -/
theorem letters_of_plain {pattern : CStr} (h : 43 ∉ pattern) :
    (elements pattern).map Element.letter = pattern := by
  induction pattern using elements.induct with
  | case1 => rfl
  | case2 p => rfl
  | case3 p pattern => exact absurd (List.mem_cons_of_mem _ List.mem_cons_self) h
  | case4 p q pattern hq ih =>
    rw [elements, if_neg hq, List.map_cons, ih fun hmem => h (List.mem_cons_of_mem _ hmem)]

/-- No language is empty: the letters of a pattern, each once. -/
theorem language_letters (pattern : CStr) :
    Language pattern ((elements pattern).map Element.letter) :=
  accepts_letters (fun c => by simp [equalLetter]) _

/-! ## The bytes from 128 on -/

theorem tolower_lt {c : UInt8} (hc : c < 128) : tolower c < 128 := by
  unfold tolower
  split
  · rename_i h
    rw [UInt8.lt_iff_toNat_lt, UInt8.toNat_add]
    have h90 : c.toNat ≤ 90 := UInt8.le_iff_toNat_le.mp h.2
    have h32 : (32 : UInt8).toNat = 32 := rfl
    have h128 : (128 : UInt8).toNat = 128 := rfl
    omega
  · exact hc

theorem tolower_of_le {c : UInt8} (hc : 128 ≤ c) : tolower c = c := by
  refine if_neg fun h => ?_
  have h128 : 128 ≤ c.toNat := UInt8.le_iff_toNat_le.mp hc
  have h90 : c.toNat ≤ 90 := UInt8.le_iff_toNat_le.mp h.2
  omega

/-- What the comparison of an `unsigned char` with a `char` finds. -/
theorem takesByte_iff {c x : UInt8} :
    takesByte c x = true ↔ c < 128 ∧ equalLetter c x = true := by
  rw [takesByte, sameLetter, decide_eq_true_eq, equalLetter, beq_iff_eq]
  by_cases hc : c < 128
  · rw [toChar, if_pos (tolower_lt hc)]
    constructor
    · exact fun h => ⟨hc, UInt8.toNat_inj.mp (Int.ofNat.inj h)⟩
    · rintro ⟨-, h⟩
      rw [h]
  · have hle : 128 ≤ c := UInt8.not_lt.mp hc
    rw [tolower_of_le hle, toChar, if_neg hc]
    have hlt : c.toNat < 256 := UInt8.toNat_lt c
    constructor
    · intro h
      omega
    · exact fun h => absurd h.1 hc

/-! ## What a pattern matches -/

theorem matchPlus_eq_many (next : CStr → Bool) (c : UInt8) (filename : CStr) :
    matchPlus next (toChar (tolower c)) filename = many (takesByte c) next filename := by
  induction filename with
  | nil => rfl
  | cons x xs ih =>
    rw [matchPlus, many, ih, takesByte]
    cases sameLetter x (toChar (tolower c)) <;> rfl

theorem regexMatch_plus (p : UInt8) (pattern filename : CStr) :
    regexMatch (p :: 43 :: pattern) filename =
      if !sameLetter (filename.headD 0) (toChar (tolower p)) then false
      else matchPlus (regexMatch pattern) (toChar (tolower p)) filename := by
  cases filename <;> rfl

/-- The code is the matcher of the elements, at the end of the name. -/
theorem regexMatch_eq (pattern filename : CStr) :
    regexMatch pattern filename =
      matchElements takesByte List.isEmpty (elements pattern) filename := by
  induction pattern using elements.induct generalizing filename with
  | case1 => rw [regexMatch, elements, matchElements]
  | case2 p =>
    rw [elements, matchElements, if_neg Bool.false_ne_true]
    cases filename with
    | nil => rfl
    | cons x xs =>
      rw [regexMatch, one, takesByte, matchElements, regexMatch]
      cases sameLetter x (toChar (tolower p)) <;> rfl
  | case3 p pattern ih =>
    have hnext : regexMatch pattern = matchElements takesByte List.isEmpty (elements pattern) :=
      funext ih
    rw [regexMatch_plus, elements, if_pos rfl, matchElements, if_pos rfl, matchPlus_eq_many, hnext]
    cases filename with
    | nil => split <;> rfl
    | cons x xs =>
      rw [many, List.headD_cons, takesByte]
      cases sameLetter x (toChar (tolower p)) <;> rfl
  | case4 p q pattern hq ih =>
    rw [elements, if_neg hq, matchElements, if_neg Bool.false_ne_true]
    cases filename with
    | nil =>
      rw [regexMatch, if_neg hq]
      rfl
    | cons x xs =>
      rw [regexMatch, if_neg hq, one, takesByte, ← ih]
      cases sameLetter x (toChar (tolower p)) <;> rfl

theorem regexMatch_iff_accepts {pattern filename : CStr} :
    regexMatch pattern filename = true ↔ Accepts takesByte (elements pattern) filename := by
  rw [regexMatch_eq, matchElements_iff]
  constructor
  · rintro ⟨x, rest, rfl, hx, hrest⟩
    rw [List.isEmpty_iff.mp hrest, List.append_nil]
    exact hx
  · exact fun h => ⟨filename, [], (List.append_nil _).symm, h, rfl⟩

/-- **What `regex_match` matches**: the language of the pattern, unless a byte of the pattern is
negative as a `char`. -/
theorem regexMatch_iff_language {pattern filename : CStr} : regexMatch pattern filename = true ↔
    (∀ b ∈ pattern, b < 128) ∧ Language pattern filename := by
  rw [regexMatch_iff_accepts]
  constructor
  · intro h
    refine ⟨fun b hb => ?_, h.imp fun e _ x hx => (takesByte_iff.mp hx).2⟩
    by_cases hplus : b = 43
    · rw [hplus]
      decide
    · obtain ⟨e, he, rfl⟩ := exists_letter hb hplus
      obtain ⟨x, -, hx⟩ := h.exists_letter he
      exact (takesByte_iff.mp hx).1
  · rintro ⟨hascii, h⟩
    exact h.imp fun e he x hx => takesByte_iff.mpr ⟨hascii _ (letter_mem he), hx⟩

/-- **When the matcher accepts exactly its language**: a pattern does for every file name if and
only if it has no byte from 128 on, any pattern does for the names that are not in its language, and
a pattern without a `+` matches itself only without such bytes. -/
theorem accepts_language (pattern : CStr) :
    ((∀ filename, (regexMatch pattern filename = true ↔ Language pattern filename)) ↔
      ∀ b ∈ pattern, b < 128) ∧
    (∀ filename, ((regexMatch pattern filename = true ↔ Language pattern filename) ↔
      (∀ b ∈ pattern, b < 128) ∨ ¬Language pattern filename)) ∧
    (43 ∉ pattern → (regexMatch pattern pattern = true ↔ ∀ b ∈ pattern, b < 128)) := by
  refine ⟨⟨fun h => ?_, fun h filename => ?_⟩, fun filename => ?_, fun hplain => ?_⟩
  · exact (regexMatch_iff_language.mp ((h _).mpr (language_letters pattern))).1
  · rw [regexMatch_iff_language, and_iff_right h]
  · rw [regexMatch_iff_language]
    tauto
  · have hself : Language pattern pattern := by
      have h := language_letters pattern
      rwa [letters_of_plain hplain] at h
    rw [regexMatch_iff_language, and_iff_left hself]

/-- A pattern of ASCII letters, with and without a `+`. -/
theorem accepts_language_ascii :
    Language (cstr "Ab+") (cstr "abB") ∧ regexMatch (cstr "a.txt") (cstr "a.txt") = true := by
  have hb : ∀ b ∈ cstr "Ab+", b < 128 := by
    simpa using List.all_eq_true.mp
      (show (cstr "Ab+").all (fun b => decide (b < 128)) = true by decide)
  have ht : ∀ b ∈ cstr "a.txt", b < 128 := by
    simpa using List.all_eq_true.mp
      (show (cstr "a.txt").all (fun b => decide (b < 128)) = true by decide)
  exact ⟨((accepts_language _).1.mpr hb _).mp (by decide),
    ((accepts_language _).2.2 (by decide)).mpr ht⟩

/-- A letter that is not ASCII: a file of the very name that the pattern spells is not found. -/
theorem accepts_language_cedilla :
    regexMatch [195, 167] [195, 167] = false ∧ Language [195, 167] [195, 167] :=
  ⟨by decide, language_letters [195, 167]⟩

end Cse344.HW1
