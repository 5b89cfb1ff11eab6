import Cse344.HW1.Regex

/-!
# The criteria of a search

Model of `is_correct_flags` and `parse_arguments` (`HW1/src/parse_arguments.c` 60-133), of `compare`
and its helpers (`HW1/src/compare.c`) and of `init_program` (`HW1/src/main.c` 8-16).

* An argument is a C string; the program name is left out.
* `st_mode` is the type of the file and the three times three permission bits, the part of it that
  the code looks at; sizes are not negative.
* `-1` stands for a number that was not given, as in the code. A number goes through `atoi`, which
  is glibc's: `strtol`, of which an `int` keeps the low bits.
* `compare` casts the link count to `int` before it compares it, and of a type it looks at the first
  letter (`isCorrectType`).
* What goes wrong with a command line is an `Error`; the program ends with the first.

The definitions are all there is here. What they come to is in `Cse344.HW1.Options`.

Out of scope: the texts of `print_error`, and the check of the target directory that `main` makes
afterwards.
-/

namespace Cse344.HW1

open Cse344.Lib

/-! ## Files -/

inductive FileType
  | directory | regular | symlink | block | character | fifo | socket
  deriving DecidableEq, Repr

structure Access where
  read : Bool
  write : Bool
  exec : Bool
  deriving DecidableEq, Repr

/-- What `lstat` says of a file. -/
structure Stat where
  type : FileType
  user : Access
  group : Access
  other : Access
  size : ℕ
  nlink : ℕ
  size_lt : size < 2 ^ 63
  nlink_lt : nlink < 2 ^ 64

def Access.toString (a : Access) : CStr :=
  [if a.read then 114 else 45, if a.write then 119 else 45, if a.exec then 120 else 45]

/-- `mode_to_permission_string`. -/
def modeToPermissionString (st : Stat) : CStr :=
  st.user.toString ++ st.group.toString ++ st.other.toString

/-! ## The criteria -/

/-- `t_file`, as `init_program` sets it up. -/
structure Criteria where
  linkCount : ℤ := -1
  fileSize : ℤ := -1
  targetDir : Option CStr := none
  filename : Option CStr := none
  fileType : Option CStr := none
  permissions : Option CStr := none
  deriving DecidableEq, Repr

/-- `is_correct_type`: one test for each of the letters d, f, l, b, c, p and s. -/
def isCorrectType (type : UInt8) (st : Stat) : Bool :=
  if type = 100 ∧ st.type ≠ .directory then false
  else if type = 102 ∧ st.type ≠ .regular then false
  else if type = 108 ∧ st.type ≠ .symlink then false
  else if type = 98 ∧ st.type ≠ .block then false
  else if type = 99 ∧ st.type ≠ .character then false
  else if type = 112 ∧ st.type ≠ .fifo then false
  else if type = 115 ∧ st.type ≠ .socket then false
  else true

def compare (st : Stat) (criteria : Criteria) (fileName : CStr) : Bool :=
  if criteria.filename.any fun pattern => !regexMatch pattern fileName then false
  else if criteria.fileSize ≠ -1 ∧ (st.size : ℤ) ≠ criteria.fileSize then false
  else if criteria.linkCount ≠ -1 ∧ wrap32 st.nlink ≠ criteria.linkCount then false
  else if criteria.fileType.any fun type => !isCorrectType (type.headD 0) st then false
  else if criteria.permissions.any fun perm => perm ≠ modeToPermissionString st then false
  else true

/-! ## The command line -/

/-- Why the program ends before it searches, with what `print_error` prints of it. -/
inductive Error
  | noValue (flag : UInt8)
  | invalidParam (flag : UInt8)
  | badFormat (arg : CStr)
  | noTargetDir
  | noCriteria
  | mustInt
  deriving DecidableEq, Repr

/-- `is_correct_flags`: the criteria with the value of an option, and whether the option is one that
files are searched by. The letters are w, f, b, t, p and l. -/
def isCorrectFlags (flag : UInt8) (value : CStr) (criteria : Criteria) :
    Except Error (Criteria × Bool) :=
  if flag = 119 then .ok ({ criteria with targetDir := some value }, false)
  else if flag = 102 then .ok ({ criteria with filename := some value }, true)
  else if flag = 98 then
    if value.any fun c => !isdigit c then .error .mustInt
    else .ok ({ criteria with fileSize := atoi value }, true)
  else if flag = 116 then .ok ({ criteria with fileType := some value }, true)
  else if flag = 112 then .ok ({ criteria with permissions := some value }, true)
  else if flag = 108 then
    if value.any fun c => !isdigit c then .error .mustInt
    else .ok ({ criteria with linkCount := atoi value }, true)
  else .error (.invalidParam flag)

/-- The loop of `parse_arguments`. -/
def parseLoop (criteria : Criteria) (hasCriteria : Bool) :
    List CStr → Except Error (Criteria × Bool)
  | [] => .ok (criteria, hasCriteria)
  | [45, flag] :: args =>
    match args with
    | [] => .error (.noValue flag)
    | value :: args =>
      match isCorrectFlags flag value criteria with
      | .error e => .error e
      | .ok (criteria, counts) => parseLoop criteria (hasCriteria || counts) args
  | arg :: _ => .error (.badFormat arg)

/-- `parse_arguments`, on the criteria of `init_program`. -/
def parseArguments (args : List CStr) : Except Error Criteria :=
  match parseLoop {} false args with
  | .error e => .error e
  | .ok (criteria, hasCriteria) =>
    if criteria.targetDir = none then .error .noTargetDir
    else if !hasCriteria then .error .noCriteria
    else .ok criteria

end Cse344.HW1
