import Cse344.HW1.Filters

/-!
# What the options mean

`options` reads a command line that `parse_arguments` (`HW1/src/parse_arguments.c` 104-133) accepts
as pairs of a letter and a value, and `Satisfies` is what they ask of a file. The code differs from
it where a value does not survive on its way into `t_file`:

* a number goes through `atoi`, and may come back as another one, or as the `-1` of no number;
* a link count is cast to `int` before it is compared;
* of a type only the first letter counts, and a letter that is not known excludes nothing;
* an option that is given again takes the place of the one before.

`Faithful` are the values to which nothing of this happens: numbers that an `int` holds, types of
one known letter, each option once.

Results:
* `parseArguments_spec`: what gets into the criteria, and `compare_iff`: what is made of it.
* `passes_iff_satisfies`: faithful values mean what was written.
* **`filters_mean`**: the code finds exactly the files that were asked for if the values are
  `Faithful`, and otherwise only where neither the code nor the command line leaves any file.

Out of scope: command lines that are refused, and the target directory.
-/

namespace Cse344.HW1

open Cse344.Lib

/-! ## The command line as it is written -/

/-- The letters and values of the options. -/
def options : List CStr → List (UInt8 × CStr)
  | [45, flag] :: value :: args => (flag, value) :: options args
  | _ => []

/-- The values that an option is given, first to last. -/
def values (flag : UInt8) (args : List CStr) : List CStr :=
  ((options args).filter fun o => o.1 == flag).map Prod.snd

/-- The type that an argument names. -/
def typeNamed : CStr → Option FileType
  | [100] => some .directory
  | [102] => some .regular
  | [108] => some .symlink
  | [98] => some .block
  | [99] => some .character
  | [112] => some .fifo
  | [115] => some .socket
  | _ => none

/-- The file meets every criterion of the command line. -/
structure Satisfies (args : List CStr) (st : Stat) (name : CStr) : Prop where
  size : ∀ n ∈ values 98 args, st.size = digitsValue n
  links : ∀ n ∈ values 108 args, st.nlink = digitsValue n
  type : ∀ x ∈ values 116 args, typeNamed x = some st.type
  permissions : ∀ p ∈ values 112 args, modeToPermissionString st = p
  name : ∀ f ∈ values 102 args, regexMatch f name = true

/-! ## What the code reads -/

/-- What the parser makes of a command line: of every option the last value, or what there was
before. -/
structure Parsed (start : Criteria) (args : List CStr) (criteria : Criteria) : Prop where
  size : criteria.fileSize = ((values 98 args).getLast?.map atoi).getD start.fileSize
  links : criteria.linkCount = ((values 108 args).getLast?.map atoi).getD start.linkCount
  type : criteria.fileType = (values 116 args).getLast?.or start.fileType
  permissions : criteria.permissions = (values 112 args).getLast?.or start.permissions
  name : criteria.filename = (values 102 args).getLast?.or start.filename
  sizes_digits : ∀ n ∈ values 98 args, ∀ b ∈ n, isdigit b = true
  links_digits : ∀ n ∈ values 108 args, ∀ b ∈ n, isdigit b = true

/-- What one option does. -/
structure Takes (flag : UInt8) (value : CStr) (criteria criteria' : Criteria) : Prop where
  size : criteria'.fileSize = if flag = 98 then atoi value else criteria.fileSize
  links : criteria'.linkCount = if flag = 108 then atoi value else criteria.linkCount
  type : criteria'.fileType = if flag = 116 then some value else criteria.fileType
  permissions : criteria'.permissions = if flag = 112 then some value else criteria.permissions
  name : criteria'.filename = if flag = 102 then some value else criteria.filename
  digits : flag = 98 ∨ flag = 108 → ∀ b ∈ value, isdigit b = true

theorem isCorrectFlags_takes {flag : UInt8} {value : CStr} {criteria criteria' : Criteria}
    {counts : Bool} (h : isCorrectFlags flag value criteria = .ok (criteria', counts)) :
    Takes flag value criteria criteria' := by
  unfold isCorrectFlags at h
  split_ifs at h with hw hf hb hdigits ht hp hl hdigits <;>
    obtain ⟨rfl, -⟩ := Prod.mk.inj (Except.ok.inj h)
  · subst hw
    exact ⟨rfl, rfl, rfl, rfl, rfl, fun h => absurd h (by decide)⟩
  · subst hf
    exact ⟨rfl, rfl, rfl, rfl, rfl, fun h => absurd h (by decide)⟩
  · subst hb
    exact ⟨rfl, rfl, rfl, rfl, rfl, fun _ => by simpa using hdigits⟩
  · subst ht
    exact ⟨rfl, rfl, rfl, rfl, rfl, fun h => absurd h (by decide)⟩
  · subst hp
    exact ⟨rfl, rfl, rfl, rfl, rfl, fun h => absurd h (by decide)⟩
  · subst hl
    exact ⟨rfl, rfl, rfl, rfl, rfl, fun _ => by simpa using hdigits⟩

theorem values_cons (k flag : UInt8) (value : CStr) (args : List CStr) :
    values k ([45, flag] :: value :: args) =
      if flag = k then value :: values k args else values k args := by
  rw [values, options]
  split_ifs with h
  · rw [List.filter_cons_of_pos (by simpa using h)]
    rfl
  · rw [List.filter_cons_of_neg (by simpa using h)]
    rfl

/-- The last of some values, with one before them. -/
theorem getLast?_map_getD (l : List CStr) (value : CStr) (v : ℤ) :
    ((value :: l).getLast?.map atoi).getD v = (l.getLast?.map atoi).getD (atoi value) := by
  rw [List.getLast?_cons]
  cases l.getLast? <;> rfl

theorem getLast?_or (l : List CStr) (value : CStr) (o : Option CStr) :
    (value :: l).getLast?.or o = l.getLast?.or (some value) := by
  rw [List.getLast?_cons]
  cases l.getLast? <;> rfl

theorem Parsed.nil (criteria : Criteria) : Parsed criteria [] criteria :=
  ⟨rfl, rfl, rfl, rfl, rfl, fun _ h => absurd h List.not_mem_nil,
    fun _ h => absurd h List.not_mem_nil⟩

theorem Parsed.cons {flag : UInt8} {value : CStr} {args : List CStr}
    {start next criteria : Criteria} (htakes : Takes flag value start next)
    (h : Parsed next args criteria) : Parsed start ([45, flag] :: value :: args) criteria := by
  constructor
  · rw [h.size, htakes.size, values_cons]
    split_ifs
    · rw [getLast?_map_getD]
    · rfl
  · rw [h.links, htakes.links, values_cons]
    split_ifs
    · rw [getLast?_map_getD]
    · rfl
  · rw [h.type, htakes.type, values_cons]
    split_ifs
    · rw [getLast?_or]
    · rfl
  · rw [h.permissions, htakes.permissions, values_cons]
    split_ifs
    · rw [getLast?_or]
    · rfl
  · rw [h.name, htakes.name, values_cons]
    split_ifs
    · rw [getLast?_or]
    · rfl
  · rw [values_cons]
    split_ifs with hflag
    · exact List.forall_mem_cons.mpr ⟨htakes.digits (.inl hflag), h.sizes_digits⟩
    · exact h.sizes_digits
  · rw [values_cons]
    split_ifs with hflag
    · exact List.forall_mem_cons.mpr ⟨htakes.digits (.inr hflag), h.links_digits⟩
    · exact h.links_digits

theorem parseLoop_spec {args : List CStr} {start criteria : Criteria} {has has' : Bool}
    (h : parseLoop start has args = .ok (criteria, has')) : Parsed start args criteria := by
  fun_induction parseLoop start has args with
  | case1 =>
    obtain ⟨rfl, -⟩ := Prod.mk.inj (Except.ok.inj h)
    exact .nil _
  | case2 => cases h
  | case3 => cases h
  | case4 start has flag value args next counts hflags ih =>
    exact .cons (isCorrectFlags_takes hflags) (ih h)
  | case5 => cases h

theorem parseArguments_spec {args : List CStr} {criteria : Criteria}
    (h : parseArguments args = .ok criteria) : Parsed {} args criteria := by
  unfold parseArguments at h
  split at h
  · cases h
  · rename_i criteria' has hloop
    split_ifs at h
    obtain rfl := Except.ok.inj h
    exact parseLoop_spec hloop

/-- What `compare` asks of a file. -/
structure Passes (criteria : Criteria) (st : Stat) (name : CStr) : Prop where
  name : ∀ f ∈ criteria.filename, regexMatch f name = true
  size : criteria.fileSize = -1 ∨ (st.size : ℤ) = criteria.fileSize
  links : criteria.linkCount = -1 ∨ wrap32 st.nlink = criteria.linkCount
  type : ∀ x ∈ criteria.fileType, isCorrectType (x.headD 0) st = true
  permissions : ∀ p ∈ criteria.permissions, p = modeToPermissionString st

theorem any_not_iff {o : Option CStr} {p : CStr → Bool} :
    (o.any fun a => !p a) = true ↔ ¬∀ a ∈ o, p a = true := by
  cases o <;> simp

theorem compare_iff {st : Stat} {criteria : Criteria} {name : CStr} :
    compare st criteria name = true ↔ Passes criteria st name := by
  have hperms : ∀ o : Option CStr, (o.any fun p => decide (p ≠ modeToPermissionString st)) = true ↔
      ¬∀ p ∈ o, p = modeToPermissionString st := by
    intro o
    cases o <;> simp
  have hname := any_not_iff (o := criteria.filename) (p := fun f => regexMatch f name)
  have htype := any_not_iff (o := criteria.fileType) (p := fun x => isCorrectType (x.headD 0) st)
  have hperm := hperms criteria.permissions
  unfold compare
  constructor
  · intro h
    split_ifs at h with hn hs hl ht hp
    exact ⟨not_not.mp (mt hname.mpr hn), or_iff_not_imp_left.mpr (by simpa using hs),
      or_iff_not_imp_left.mpr (by simpa using hl), not_not.mp (mt htype.mpr ht),
      not_not.mp (mt hperm.mpr hp)⟩
  · intro h
    rw [if_neg fun hn => hname.mp hn h.name, if_neg fun hs => h.size.elim hs.1 hs.2,
      if_neg fun hl => h.links.elim hl.1 hl.2, if_neg fun ht => htype.mp ht h.type,
      if_neg fun hp => hperm.mp hp h.permissions]

/-! ## Numbers and types -/

/-- A number of the command line, as `atoi` reads it. -/
def asInt (n : ℕ) : ℤ := wrap32 (min n longMax)

theorem atoi_eq {l : CStr} (h : ∀ b ∈ l, isdigit b = true) : atoi l = asInt (digitsValue l) := by
  by_cases hnil : l = []
  · subst hnil
    decide
  · exact atoi_digits hnil h

theorem asInt_of_le {n : ℕ} (h : n ≤ 2147483647) : asInt n = n := by
  unfold asInt wrap32 longMax
  omega

/-- A size that is read as it was written is an `int`. -/
theorem le_of_asInt_eq {n : ℕ} (h : (n : ℤ) = asInt n) : n ≤ 2147483647 := by
  have hle := wrap32_le (min n longMax)
  rw [← asInt, ← h] at hle
  exact Int.ofNat_le.mp hle

/-- The link counts that one number is read as. -/
theorem wrap32_eq_asInt_iff {m n : ℕ} (hn : n < 2 ^ 32) :
    wrap32 m = asInt n ↔ m % 2 ^ 32 = n := by
  unfold asInt wrap32 longMax
  omega

theorem asInt_eq_neg_one_iff {n : ℕ} (hn : n < 2 ^ 32) : asInt n = -1 ↔ n = 2 ^ 32 - 1 := by
  unfold asInt wrap32 longMax
  omega

theorem isCorrectType_iff {c : UInt8} {st : Stat} :
    isCorrectType c st = true ↔ ∀ type, typeNamed [c] = some type → st.type = type := by
  by_cases hknown : c ∈ [100, 102, 108, 98, 99, 112, 115]
  · simp only [List.mem_cons, List.not_mem_nil, or_false] at hknown
    rcases hknown with rfl | rfl | rfl | rfl | rfl | rfl | rfl <;>
      simp [isCorrectType, typeNamed]
  · simp only [List.mem_cons, List.not_mem_nil, or_false, not_or] at hknown
    have hnone : typeNamed [c] = none := by
      unfold typeNamed
      split <;> simp_all
    rw [hnone]
    simp [isCorrectType, hknown]

/-- An argument that names a type is a letter. -/
theorem eq_letter {x : CStr} {type : FileType} (h : typeNamed x = some type) :
    x = [x.headD 0] := by
  unfold typeNamed at h
  split at h <;> first | rfl | cases h

/-! ## Faithful values -/

/-- Every value is read as what was written. -/
structure Faithful (args : List CStr) : Prop where
  size : ∃ v ≤ 2147483647, ∀ n ∈ values 98 args, digitsValue n = v
  links : ∃ v < 2 ^ 32 - 1, ∀ n ∈ values 108 args, digitsValue n = v
  type : ∃ type, ∀ x ∈ values 116 args, typeNamed x = some type
  permissions : ∃ perm, ∀ p ∈ values 112 args, p = perm
  name : ∀ f ∈ (values 102 args).getLast?, ∀ name, regexMatch f name = true →
    ∀ f' ∈ values 102 args, regexMatch f' name = true

/-- No file passes: a size is read as a negative number, the permissions are none a file can have,
or the pattern has a byte that matches nothing. -/
def ReadsNone (args : List CStr) : Prop :=
  (∃ n ∈ (values 98 args).getLast?, atoi n < -1) ∨
  (∃ p ∈ (values 112 args).getLast?, ∀ st, modeToPermissionString st ≠ p) ∨
  ∃ f ∈ (values 102 args).getLast?, ∃ b ∈ f, 128 ≤ b

/-- The code finds what was asked for, among the files with fewer links than `limit`. -/
def Means (limit : ℕ) (args : List CStr) (criteria : Criteria) : Prop :=
  ∀ st name, st.nlink < limit → (compare st criteria name = true ↔ Satisfies args st name)

/-- Some file was asked for. -/
def AsksForSome (limit : ℕ) (args : List CStr) : Prop :=
  ∃ st name, st.nlink < limit ∧ Satisfies args st name

variable {args : List CStr} {criteria : Criteria}

/-- The last of some values is one of them, and there is one if there are values. -/
theorem getLast?_cases (l : List CStr) :
    (l = [] ∧ l.getLast? = none) ∨ ∃ n ∈ l, l.getLast? = some n := by
  cases h : l.getLast? with
  | none => exact .inl ⟨List.getLast?_eq_none_iff.mp h, rfl⟩
  | some n => exact .inr ⟨n, List.mem_of_getLast? h, rfl⟩

/-- Values that are all one number, which the code reads so that it accepts the same files. -/
theorem numbers_iff {l : List CStr} (hdigits : ∀ n ∈ l, ∀ b ∈ n, isdigit b = true) {v m : ℕ}
    {r : ℤ} (hv : ∀ n ∈ l, digitsValue n = v)
    (hread : l ≠ [] → asInt v ≠ -1 ∧ (r = asInt v ↔ m = v)) :
    ((l.getLast?.map atoi).getD (-1) = -1 ∨ r = (l.getLast?.map atoi).getD (-1)) ↔
      ∀ n ∈ l, m = digitsValue n := by
  rcases getLast?_cases l with ⟨rfl, -⟩ | ⟨n, hn, hlast⟩
  · simp
  · obtain ⟨hnone, hiff⟩ := hread (List.ne_nil_of_mem hn)
    rw [hlast, Option.map_some, Option.getD_some, atoi_eq (hdigits n hn), hv n hn,
      or_iff_right hnone, hiff]
    constructor
    · intro hm n' hn'
      rw [hm, hv n' hn']
    · intro hm
      rw [hm n hn, hv n hn]

/-- A type that is named is the type that its letter tests for. -/
theorem isCorrectType_headD {x : CStr} {type : FileType} (h : typeNamed x = some type) {st : Stat} :
    isCorrectType (x.headD 0) st = true ↔ st.type = type := by
  rw [isCorrectType_iff, ← eq_letter h, h]
  constructor
  · exact fun hst => hst type rfl
  · rintro rfl type' htype'
    exact Option.some.inj htype'

section FaithfulValues

variable {st : Stat}

/-- The last pattern accepts what all of them accept. -/
theorem name_iff (h : Parsed {} args criteria) (hfaithful : Faithful args) (name : CStr) :
    (∀ f ∈ criteria.filename, regexMatch f name = true) ↔
      ∀ f ∈ values 102 args, regexMatch f name = true := by
  rw [h.name, Option.or_none]
  constructor
  · intro hlast f hf
    rcases getLast?_cases (values 102 args) with ⟨hnil, -⟩ | ⟨f', -, hf'⟩
    · rw [hnil] at hf
      cases hf
    · exact hfaithful.name f' hf' name (hlast f' hf') f hf
  · exact fun hall f hf => hall f (List.mem_of_getLast? hf)

theorem size_iff (h : Parsed {} args criteria) (hfaithful : Faithful args) :
    (criteria.fileSize = -1 ∨ (st.size : ℤ) = criteria.fileSize) ↔
      ∀ n ∈ values 98 args, st.size = digitsValue n := by
  obtain ⟨v, hv, hvalues⟩ := hfaithful.size
  rw [h.size]
  refine numbers_iff h.sizes_digits hvalues fun _ => ?_
  rw [asInt_of_le hv]
  omega

theorem links_iff (h : Parsed {} args criteria) (hfaithful : Faithful args)
    (hlinks : st.nlink < 2 ^ 32 ∨ values 108 args = []) :
    (criteria.linkCount = -1 ∨ wrap32 st.nlink = criteria.linkCount) ↔
      ∀ n ∈ values 108 args, st.nlink = digitsValue n := by
  obtain ⟨v, hv, hvalues⟩ := hfaithful.links
  rw [h.links]
  refine numbers_iff h.links_digits hvalues fun hne => ?_
  have hlt := hlinks.resolve_right hne
  rw [Ne, asInt_eq_neg_one_iff (by omega), wrap32_eq_asInt_iff (by omega)]
  omega

theorem type_iff (h : Parsed {} args criteria) (hfaithful : Faithful args) :
    (∀ x ∈ criteria.fileType, isCorrectType (x.headD 0) st = true) ↔
      ∀ x ∈ values 116 args, typeNamed x = some st.type := by
  obtain ⟨type, htypes⟩ := hfaithful.type
  rw [h.type, Option.or_none]
  rcases getLast?_cases (values 116 args) with ⟨hnil, hnone⟩ | ⟨x, hx, hlast⟩
  · simp [hnil]
  · have hiff : (∀ x' ∈ (values 116 args).getLast?, isCorrectType (x'.headD 0) st = true) ↔
        st.type = type := by
      rw [hlast]
      simpa using isCorrectType_headD (htypes x hx)
    rw [hiff]
    constructor
    · rintro rfl x' hx'
      exact htypes x' hx'
    · intro hall
      exact Option.some.inj ((hall x hx).symm.trans (htypes x hx))

theorem permissions_iff (h : Parsed {} args criteria) (hfaithful : Faithful args) :
    (∀ p ∈ criteria.permissions, p = modeToPermissionString st) ↔
      ∀ p ∈ values 112 args, modeToPermissionString st = p := by
  obtain ⟨perm, hperms⟩ := hfaithful.permissions
  rw [h.permissions, Option.or_none]
  constructor
  · intro hlast p hp
    rcases getLast?_cases (values 112 args) with ⟨hnil, -⟩ | ⟨p', hp', hp''⟩
    · rw [hnil] at hp
      cases hp
    · rw [hperms p hp, ← hperms p' hp', hlast p' hp'']
  · exact fun hall p hp => (hall p (List.mem_of_getLast? hp)).symm

/-- **Faithful values mean what was written.** -/
theorem passes_iff_satisfies (h : Parsed {} args criteria) (hfaithful : Faithful args)
    (hlinks : st.nlink < 2 ^ 32 ∨ values 108 args = []) (name : CStr) :
    Passes criteria st name ↔ Satisfies args st name := by
  constructor
  · intro hp
    exact ⟨(size_iff h hfaithful).mp hp.size, (links_iff h hfaithful hlinks).mp hp.links,
      (type_iff h hfaithful).mp hp.type, (permissions_iff h hfaithful).mp hp.permissions,
      (name_iff h hfaithful name).mp hp.name⟩
  · intro hs
    exact ⟨(name_iff h hfaithful name).mpr hs.name, (size_iff h hfaithful).mpr hs.size,
      (links_iff h hfaithful hlinks).mpr hs.links, (type_iff h hfaithful).mpr hs.type,
      (permissions_iff h hfaithful).mpr hs.permissions⟩

end FaithfulValues

/-! ## What else the code finds -/

section Agreeing

variable {limit : ℕ} {st : Stat} {name : CStr}

/-- A file that differs in size alone from one that was asked for. -/
theorem size_unique (hmeans : Means limit args criteria) (hlt : st.nlink < limit)
    (hpasses : Passes criteria st name) {n : CStr} (hn : n ∈ values 98 args) (size : ℕ)
    (hsize : size < 2 ^ 63)
    (hread : criteria.fileSize = -1 ∨ (size : ℤ) = criteria.fileSize) : size = digitsValue n := by
  have hpasses' : Passes criteria { st with size := size, size_lt := hsize } name :=
    ⟨hpasses.name, hread, hpasses.links, hpasses.type, hpasses.permissions⟩
  exact ((hmeans { st with size := size, size_lt := hsize } name hlt).mp
    (compare_iff.mpr hpasses')).size n hn

/-- A file that differs in its links alone from one that was asked for. -/
theorem links_unique (hmeans : Means limit args criteria) (hpasses : Passes criteria st name)
    {n : CStr} (hn : n ∈ values 108 args) (nlink : ℕ) (hlt : nlink < limit)
    (hnlink : nlink < 2 ^ 64)
    (hread : criteria.linkCount = -1 ∨ wrap32 nlink = criteria.linkCount) :
    nlink = digitsValue n := by
  have hpasses' : Passes criteria { st with nlink := nlink, nlink_lt := hnlink } name :=
    ⟨hpasses.name, hpasses.size, hread, hpasses.type, hpasses.permissions⟩
  exact ((hmeans _ name hlt).mp (compare_iff.mpr hpasses')).links n hn

/-- The sizes are faithful if some file was asked for. -/
theorem faithful_size (h : Parsed {} args criteria) (hmeans : Means limit args criteria)
    (hlt : st.nlink < limit) (hsat : Satisfies args st name) :
    ∃ v ≤ 2147483647, ∀ n ∈ values 98 args, digitsValue n = v := by
  have hpasses := compare_iff.mp ((hmeans st name hlt).mpr hsat)
  rcases getLast?_cases (values 98 args) with ⟨hnil, -⟩ | ⟨n, hn, hlast⟩
  · exact ⟨0, Nat.zero_le _, by simp [hnil]⟩
  · refine ⟨st.size, ?_, fun n' hn' => (hsat.size n' hn').symm⟩
    rcases hpasses.size with hnone | heq
    · have h0 := size_unique hmeans hlt hpasses hn 0 (by simp) (.inl hnone)
      have h1 := size_unique hmeans hlt hpasses hn 1 (by simp) (.inl hnone)
      omega
    · rw [h.size, hlast, Option.map_some, Option.getD_some, atoi_eq (h.sizes_digits n hn),
        ← hsat.size n hn] at heq
      exact le_of_asInt_eq heq

/-- The link counts are faithful if some file was asked for. -/
theorem faithful_links (h : Parsed {} args criteria) (hmeans : Means limit args criteria)
    (hlimit : 2 ^ 32 ≤ limit) (hlt : st.nlink < limit) (hsat : Satisfies args st name) :
    ∃ v < 2 ^ 32 - 1, ∀ n ∈ values 108 args, digitsValue n = v := by
  have hpasses := compare_iff.mp ((hmeans st name hlt).mpr hsat)
  rcases getLast?_cases (values 108 args) with ⟨hnil, -⟩ | ⟨n, hn, hlast⟩
  · exact ⟨0, by simp, by simp [hnil]⟩
  · refine ⟨st.nlink, ?_, fun n' hn' => (hsat.links n' hn').symm⟩
    have hsome : criteria.linkCount ≠ -1 := by
      intro hnone
      have h0 := links_unique hmeans hpasses hn 0 (by omega) (by simp) (.inl hnone)
      have h1 := links_unique hmeans hpasses hn 1 (by omega) (by simp) (.inl hnone)
      omega
    have hread := hpasses.links.resolve_left hsome
    have hmod : wrap32 (st.nlink % 2 ^ 32 : ℕ) = criteria.linkCount := by
      rw [← hread]
      unfold wrap32
      omega
    have hsmall := links_unique hmeans hpasses hn (st.nlink % 2 ^ 32) (by omega) (by omega)
      (.inr hmod)
    rw [← hsat.links n hn] at hsmall
    have hvalue : criteria.linkCount = asInt st.nlink := by
      rw [h.links, hlast, Option.map_some, Option.getD_some, atoi_eq (h.links_digits n hn),
        ← hsat.links n hn]
    rw [hvalue, Ne, asInt_eq_neg_one_iff (by omega)] at hsome
    omega

/-- If the code finds what was asked for, and that is some file, then the values are faithful. -/
theorem faithful_of_means (h : Parsed {} args criteria) (hmeans : Means limit args criteria)
    (hlimit : 2 ^ 32 ≤ limit) (hsome : AsksForSome limit args) : Faithful args := by
  obtain ⟨st, name, hlt, hsat⟩ := hsome
  have hpasses := compare_iff.mp ((hmeans st name hlt).mpr hsat)
  refine ⟨faithful_size h hmeans hlt hsat, faithful_links h hmeans hlimit hlt hsat,
    ⟨st.type, hsat.type⟩, ⟨_, fun p hp => (hsat.permissions p hp).symm⟩,
    fun f hf name' hmatch => ?_⟩
  have hpasses' : Passes criteria st name' := by
    refine ⟨fun f' hf' => ?_, hpasses.size, hpasses.links, hpasses.type, hpasses.permissions⟩
    rw [h.name, Option.or_none] at hf'
    rwa [Option.mem_unique hf' hf]
  exact ((hmeans st name' hlt).mp (compare_iff.mpr hpasses')).name

/-- A link count is one of many that are the same `int`. -/
theorem no_links_of_means (hmeans : Means (2 ^ 64) args criteria)
    (hsome : AsksForSome (2 ^ 64) args) : values 108 args = [] := by
  obtain ⟨st, name, hlt, hsat⟩ := hsome
  have hpasses := compare_iff.mp ((hmeans st name hlt).mpr hsat)
  refine List.eq_nil_iff_forall_not_mem.mpr fun n hn => ?_
  have hread : ∀ m : ℕ, (m : ℤ) % 2 ^ 32 = st.nlink % 2 ^ 32 →
      criteria.linkCount = -1 ∨ wrap32 m = criteria.linkCount := by
    intro m hm
    refine hpasses.links.imp_right fun heq => ?_
    rw [← heq]
    unfold wrap32
    omega
  have hlow := links_unique hmeans hpasses hn (st.nlink % 2 ^ 32) (by omega) (by omega)
    (hread _ (by omega))
  have hhigh := links_unique hmeans hpasses hn (st.nlink % 2 ^ 32 + 2 ^ 32) (by omega)
    (by omega) (hread _ (by omega))
  omega

end Agreeing

/-! ## No file -/

/-- The criteria leave no file. -/
theorem not_passes_of_readsNone (h : Parsed {} args criteria) (hnone : ReadsNone args) (st : Stat)
    (name : CStr) : ¬Passes criteria st name := by
  intro hpasses
  rcases hnone with ⟨n, hn, hneg⟩ | ⟨p, hp, hno⟩ | ⟨f, hf, b, hb, hlarge⟩
  · have hsize : criteria.fileSize = atoi n := by
      rw [h.size, Option.mem_def.mp hn]
      rfl
    have := hpasses.size
    omega
  · refine hno st (hpasses.permissions p ?_).symm
    rwa [h.permissions, Option.or_none]
  · have hmatch := hpasses.name f (by rwa [h.name, Option.or_none])
    have hsmall := (regexMatch_iff_language.mp hmatch).1 b hb
    exact absurd hlarge (UInt8.not_le.mpr hsmall)

/-- A size that is not read as a negative number is some file's. -/
theorem exists_size (h : Parsed {} args criteria)
    (hsize : ¬∃ n ∈ (values 98 args).getLast?, atoi n < -1) :
    ∃ size : ℕ, size < 2 ^ 63 ∧ (criteria.fileSize = -1 ∨ (size : ℤ) = criteria.fileSize) := by
  rw [h.size]
  cases hlast : (values 98 args).getLast? with
  | none => exact ⟨0, by simp, .inl rfl⟩
  | some n =>
    have hge : -1 ≤ atoi n := Int.not_lt.mp fun hneg => hsize ⟨n, hlast, hneg⟩
    have hle : atoi n ≤ 2147483647 := wrap32_le _
    refine ⟨(atoi n).toNat, by omega, ?_⟩
    rw [Option.map_some, Option.getD_some]
    omega

/-- An `int` is the low bits of some link count. -/
theorem exists_links (h : Parsed {} args criteria) : ∃ nlink : ℕ, nlink < 2 ^ 32 ∧
    (criteria.linkCount = -1 ∨ wrap32 nlink = criteria.linkCount) := by
  have hwrap : ∀ v : ℤ, ∃ nlink : ℕ, nlink < 2 ^ 32 ∧ wrap32 nlink = wrap32 v := fun v =>
    ⟨(v % 2 ^ 32).toNat, by omega, by unfold wrap32; omega⟩
  rw [h.links]
  cases (values 108 args).getLast? with
  | none => exact ⟨0, by simp, .inl rfl⟩
  | some n =>
    obtain ⟨nlink, hnlink, heq⟩ := hwrap (strtol n).1
    exact ⟨nlink, hnlink, .inr heq⟩

/-- A letter tests for one type, or for none. -/
theorem exists_type (criteria : Criteria) : ∃ type, ∀ x ∈ criteria.fileType,
    ∀ type', typeNamed [x.headD 0] = some type' → type = type' := by
  cases criteria.fileType with
  | none => exact ⟨.regular, fun x hx => by cases hx⟩
  | some x =>
    refine ⟨(typeNamed [x.headD 0]).getD .regular, fun x' hx' type' htype' => ?_⟩
    rw [Option.mem_some.mp hx', htype', Option.getD_some]

theorem exists_permissions (h : Parsed {} args criteria)
    (hperms : ¬∃ p ∈ (values 112 args).getLast?, ∀ st, modeToPermissionString st ≠ p) :
    ∃ st, ∀ p ∈ criteria.permissions, p = modeToPermissionString st := by
  rw [h.permissions, Option.or_none]
  cases hlast : (values 112 args).getLast? with
  | none =>
    let none : Access := ⟨false, false, false⟩
    exact ⟨⟨.regular, none, none, none, 0, 0, by simp, by simp⟩, fun p hp => by cases hp⟩
  | some p =>
    obtain ⟨st, hst⟩ := not_forall_not.mp fun hno => hperms ⟨p, hlast, hno⟩
    refine ⟨st, fun p' hp' => ?_⟩
    rw [hst, Option.mem_some.mp hp']

/-- A pattern of ASCII bytes accepts its own letters. -/
theorem exists_name (h : Parsed {} args criteria)
    (hpattern : ¬∃ f ∈ (values 102 args).getLast?, ∃ b ∈ f, 128 ≤ b) :
    ∃ name, ∀ f ∈ criteria.filename, regexMatch f name = true := by
  rw [h.name, Option.or_none]
  cases hlast : (values 102 args).getLast? with
  | none => exact ⟨[], fun f hf => by cases hf⟩
  | some f =>
    have hascii : ∀ b ∈ f, b < 128 := fun b hb =>
      UInt8.not_le.mp fun hlarge => hpattern ⟨f, hlast, b, hb, hlarge⟩
    refine ⟨(elements f).map Element.letter, fun f' hf' => ?_⟩
    rw [← Option.mem_some.mp hf']
    exact regexMatch_iff_language.mpr ⟨hascii, language_letters f⟩

/-- They leave one for any other reading of the values. -/
theorem exists_passes (h : Parsed {} args criteria) (hsome : ¬ReadsNone args) :
    ∃ st name, st.nlink < 2 ^ 32 ∧ Passes criteria st name := by
  obtain ⟨hsize, hperms, hpattern⟩ : (¬∃ n ∈ (values 98 args).getLast?, atoi n < -1) ∧
      (¬∃ p ∈ (values 112 args).getLast?, ∀ st, modeToPermissionString st ≠ p) ∧
      ¬∃ f ∈ (values 102 args).getLast?, ∃ b ∈ f, 128 ≤ b := by
    simpa only [ReadsNone, not_or] using hsome
  obtain ⟨size, hlt, hreads⟩ := exists_size h hsize
  obtain ⟨nlink, hnlink, hlinks⟩ := exists_links h
  obtain ⟨type, htype⟩ := exists_type criteria
  obtain ⟨st, hst⟩ := exists_permissions h hperms
  obtain ⟨name, hname⟩ := exists_name h hpattern
  have hnlink_lt : nlink < 2 ^ 64 := by omega
  refine ⟨{ st with type, size, nlink, size_lt := hlt, nlink_lt := hnlink_lt }, name, hnlink, hname,
    hreads, hlinks, fun x hx => ?_, hst⟩
  exact isCorrectType_iff.mpr (htype x hx)

/-- Where the code finds what was asked for, and that is nothing, no file passes. -/
theorem readsNone_of_means {limit : ℕ} (h : Parsed {} args criteria) (hlimit : 2 ^ 32 ≤ limit)
    (hmeans : Means limit args criteria) (hask : ¬AsksForSome limit args) : ReadsNone args := by
  by_contra hsome
  obtain ⟨st, name, hlt, hpasses⟩ := exists_passes h hsome
  have hlt' : st.nlink < limit := by omega
  exact hask ⟨st, name, hlt', (hmeans st name hlt').mp (compare_iff.mpr hpasses)⟩

theorem means_of_readsNone {limit : ℕ} (h : Parsed {} args criteria) (hreads : ReadsNone args)
    (hask : ¬AsksForSome limit args) : Means limit args criteria := by
  intro st name hlt
  constructor
  · intro hcompare
    exact absurd (compare_iff.mp hcompare) (not_passes_of_readsNone h hreads st name)
  · intro hsat
    exact absurd ⟨st, name, hlt, hsat⟩ hask

/-- **Exactly the files that were asked for**, for a command line that is accepted: its values are
faithful, or neither the code finds a file nor was one asked for. A link count above the `int`s is
the same `int` as a small one, so with `-l` the first part is about files that have at most as many
links as an inode can count. -/
theorem filters_mean (h : parseArguments args = .ok criteria) :
    (Means (2 ^ 32) args criteria ↔
      Faithful args ∨ ReadsNone args ∧ ¬AsksForSome (2 ^ 32) args) ∧
    (Means (2 ^ 64) args criteria ↔
      Faithful args ∧ values 108 args = [] ∨ ReadsNone args ∧ ¬AsksForSome (2 ^ 64) args) := by
  have hparsed := parseArguments_spec h
  constructor
  · constructor
    · intro hmeans
      by_cases hask : AsksForSome (2 ^ 32) args
      · exact .inl (faithful_of_means hparsed hmeans (by omega) hask)
      · exact .inr ⟨readsNone_of_means hparsed (by omega) hmeans hask, hask⟩
    · rintro (hfaithful | ⟨hreads, hask⟩)
      · intro st name hlt
        rw [compare_iff]
        exact passes_iff_satisfies hparsed hfaithful (.inl hlt) name
      · exact means_of_readsNone hparsed hreads hask
  · constructor
    · intro hmeans
      by_cases hask : AsksForSome (2 ^ 64) args
      · exact .inl ⟨faithful_of_means hparsed hmeans (by omega) hask,
          no_links_of_means hmeans hask⟩
      · exact .inr ⟨readsNone_of_means hparsed (by omega) hmeans hask, hask⟩
    · rintro (⟨hfaithful, hnil⟩ | ⟨hreads, hask⟩)
      · intro st name _
        rw [compare_iff]
        exact passes_iff_satisfies hparsed hfaithful (.inr hnil) name
      · exact means_of_readsNone hparsed hreads hask

/-- A file of 5 bytes. -/
def five : Stat where
  type := .regular
  user := ⟨true, true, false⟩
  group := ⟨true, false, false⟩
  other := ⟨true, false, false⟩
  size := 5
  nlink := 1
  size_lt := by decide
  nlink_lt := by decide

/-- A size that is an `int`. -/
theorem filters_mean_five :
    compare five { targetDir := some (cstr "d"), fileSize := 5 } (cstr "notes") = true := by
  have hfaithful : Faithful [cstr "-w", cstr "d", cstr "-b", cstr "5"] := by
    refine ⟨⟨5, by simp, fun n hn => ?_⟩, ⟨0, by simp, fun n hn => absurd hn List.not_mem_nil⟩,
      ⟨.regular, fun x hx => absurd hx List.not_mem_nil⟩,
      ⟨[], fun p hp => absurd hp List.not_mem_nil⟩, fun f hf => absurd hf (Option.not_mem_none f)⟩
    rw [List.mem_singleton.mp (show n ∈ [cstr "5"] from hn)]
    decide
  have hparse : parseArguments [cstr "-w", cstr "d", cstr "-b", cstr "5"] =
      .ok { targetDir := some (cstr "d"), fileSize := 5 } := by decide +kernel
  have hmeans := (filters_mean hparse).1.mpr (.inl hfaithful)
  refine (hmeans five (cstr "notes") (by simp [five])).mpr
    ⟨fun n hn => ?_, fun n hn => absurd hn List.not_mem_nil,
      fun x hx => absurd hx List.not_mem_nil, fun p hp => absurd hp List.not_mem_nil,
      fun f hf => absurd hf List.not_mem_nil⟩
  rw [List.mem_singleton.mp (show n ∈ [cstr "5"] from hn)]
  rfl

/-- A size of 2^32 - 1 is read as no size, and a letter that names no type as no type. -/
theorem filters_lose_values :
    (∃ criteria, parseArguments [cstr "-w", cstr "d", cstr "-b", cstr "4294967295"] = .ok criteria ∧
      compare five criteria (cstr "notes") = true) ∧
    ¬Satisfies [cstr "-w", cstr "d", cstr "-b", cstr "4294967295"] five (cstr "notes") ∧
    (∃ criteria, parseArguments [cstr "-w", cstr "d", cstr "-t", cstr "x"] = .ok criteria ∧
      compare five criteria (cstr "notes") = true) ∧
    ¬Satisfies [cstr "-w", cstr "d", cstr "-t", cstr "x"] five (cstr "notes") := by
  refine ⟨⟨{ targetDir := some (cstr "d") }, by decide +kernel, rfl⟩, fun h => ?_, ⟨_, rfl, rfl⟩,
    fun h => ?_⟩
  · exact absurd (h.size (cstr "4294967295") List.mem_cons_self) (by decide)
  · exact absurd (h.type (cstr "x") List.mem_cons_self) (by decide)

end Cse344.HW1
