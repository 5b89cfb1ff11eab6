import Cse344.HW5.PriorityQueue
import Cse344.Lib.FirstWins
import Cse344.Lib.TextFile
import Mathlib.Data.List.DropRight

/-!
# The orders file of HW5

Model of `parse_orders_file` and its helpers (`HW5/src/parser.c` 15-152) and of
`priority_from_string` (`HW5/src/order.c` 4-20). The file can be opened, and every allocation
succeeds.

* A line of the file is read in pieces if it does not fit the buffer, and each piece ends for the
  code at its first NUL.
* `lineOrder` is the order of a line as it stands in the file, `pieceOrder` what the code makes of
  one reading. They differ where a token is cut, and where `strtol` skips white space that is no
  delimiter.
* `Readable` says of a line that it fits, has no NUL and no other white space; `Harmless` that what
  its pieces make is known already, or is its order.

Results:
* **`pieceOrder_eq`**: what the code makes of a piece is the order of the piece.
* **`Readable.cutOrders_eq`**: a line that is readable gives its order.
* **`parse_orders_iff`**: the orders are those of the lines, in order, the first of each id, exactly
  if every line is `Readable` or its pieces are `Harmless`.
* **`long_line_makes_order`**: the end of a long line is an order.

Out of scope: a read that fails, and a `realloc` that does, after which the file is read no further.
-/

namespace Cse344.HW5

open Cse344.Lib

/-- `LINE_BUF_SIZE`. -/
def lineBufSize : ℕ := 1024

/-- `MAX_NAME_LEN`. -/
def maxNameLen : ℕ := 32

/-- `isalnum` in the C locale. -/
def isalnum (c : UInt8) : Bool := isdigit c || (65 ≤ c && c ≤ 90) || (97 ≤ c && c ≤ 122)

/-- The delimiters of `parse_one_line`. -/
def delim : List UInt8 := cstr " \t"

def priorityFromString (s : CStr) : Option Priority :=
  if s = cstr "EXPRESS" then some .express
  else if s = cstr "STANDARD" then some .standard
  else if s = cstr "ECONOMY" then some .economy
  else none

def isValidName (s : CStr) : Bool :=
  !s.isEmpty && decide (s.length ≤ maxNameLen) && s.all fun c => isalnum c || c == 95

/-- `parse_int`. Where `strtol` sets `errno`, its value is no `int` either. -/
def parseInt (s : CStr) : Option ℤ :=
  if s = [] then none
  else
    let r := strtol s
    if r.2 = s ∨ r.2 ≠ [] then none
    else if r.1 < -intMax - 1 ∨ intMax < r.1 then none
    else some r.1

def rstripNewline (line : CStr) : CStr := line.rdropWhile fun c => c == lf || c == cr

def isBlank (s : CStr) : Bool := s.all isspace

def hasDuplicateId (orders : List Order) (id : ℤ) : Bool := orders.any fun o => o.id = id

def parseOneLine (line : CStr) : Option Order :=
  let id := strtok delim line
  let name := strtok delim id.2
  let priority := strtok delim name.2
  let duration := strtok delim priority.2
  let extra := strtok delim duration.2
  match id.1, name.1, priority.1, duration.1 with
  | some id, some name, some priority, some duration =>
    if extra.1 ≠ none then none
    else
      match parseInt id with
      | none => none
      | some id =>
        if id < 0 then none
        else if !isValidName name then none
        else
          match priorityFromString priority with
          | none => none
          | some prio =>
            match parseInt duration with
            | none => none
            | some duration =>
              if duration ≤ 0 then none
              else some ⟨id, name.take maxNameLen, prio, duration⟩
  | _, _, _, _ => none

/-- The body of the loop of `parse_orders_file`, for what `fgets` has read. -/
def addLine (orders : List Order) (line : CStr) : List Order :=
  let line := rstripNewline (ofBuffer line)
  if isBlank line then orders
  else
    match parseOneLine line with
    | none => orders
    | some parsed => if hasDuplicateId orders parsed.id then orders else orders ++ [parsed]

/-- The orders that `parse_orders_file` gives out. -/
def parseOrdersFile (fp : CStr) : List Order := (reads lineBufSize fp).foldl addLine []

/-! ## The orders of the lines -/

/-- A sign, as a factor, and what follows it. -/
def splitSign : CStr → ℤ × CStr
  | 45 :: digits => (-1, digits)
  | 43 :: digits => (1, digits)
  | digits => (1, digits)

/-- The value of an `int`: digits, with a sign or without one. -/
def intValue (token : CStr) : Option ℤ :=
  let r := splitSign token
  if r.2 ≠ [] ∧ r.2.all isdigit ∧ -intMax - 1 ≤ r.1 * digitsValue r.2 ∧
      r.1 * digitsValue r.2 ≤ intMax then
    some (r.1 * digitsValue r.2)
  else none

/-- The order that four tokens are. -/
def tokensOrder : List CStr → Option Order
  | [id, name, priority, duration] =>
    match intValue id, priorityFromString priority, intValue duration with
    | some id, some priority, some duration =>
      if 0 ≤ id ∧ isValidName name ∧ 0 < duration then some ⟨id, name, priority, duration⟩ else none
    | _, _, _ => none
  | _ => none

/-- The order of a line, which ends in its line feed and what carriage returns stand before it. -/
def lineOrder (line : CStr) : Option Order := tokensOrder (tokensOf delim (rstripNewline line))

/-- The orders of the lines of a file with their numbers, the first of each id. -/
def keptOrders (fp : CStr) : List (ℕ × Order) :=
  firstWins (fun x => x.2.id) [] (numbered (fun l => (lineOrder l).toList) 0 (lines fp))

/-! ## What the code reads -/

/-- What is made of one reading. -/
def pieceOrder (piece : CStr) : Option Order :=
  let line := rstripNewline (ofBuffer piece)
  if isBlank line then none else parseOneLine line

/-- The orders that are read of a line. -/
def readOrders (line : CStr) : List Order := (reads lineBufSize line).filterMap pieceOrder

/-- The orders that the code makes, with the numbers of the lines they are read of. -/
def madeOrders (fp : CStr) : List (ℕ × Order) :=
  firstWins (fun x => x.2.id) [] (numbered readOrders 0 (lines fp))

theorem addLine_eq (orders : List Order) (line : CStr) : addLine orders line =
    match pieceOrder line with
    | none => orders
    | some o => if hasDuplicateId orders o.id then orders else orders ++ [o] := by
  unfold addLine pieceOrder
  dsimp only
  split_ifs <;> rfl

theorem hasDuplicateId_iff {orders : List Order} {id : ℤ} :
    hasDuplicateId orders id = true ↔ id ∈ orders.map Order.id := by
  rw [hasDuplicateId, List.any_eq_true, List.mem_map]
  simp only [decide_eq_true_eq]

/-- The loop keeps the first of each id. -/
theorem foldl_addLine (orders : List Order) (pieces : List CStr) :
    pieces.foldl addLine orders =
      orders ++ firstWins Order.id (orders.map Order.id) (pieces.filterMap pieceOrder) := by
  induction pieces generalizing orders with
  | nil => exact (List.append_nil orders).symm
  | cons piece pieces ih =>
    rw [List.foldl_cons, ih, addLine_eq, List.filterMap_cons]
    cases pieceOrder piece with
    | none => rfl
    | some o =>
      dsimp only
      rw [firstWins]
      by_cases hdup : o.id ∈ orders.map Order.id
      · rw [if_pos (hasDuplicateId_iff.mpr hdup), if_pos hdup]
      · rw [if_neg fun h => hdup (hasDuplicateId_iff.mp h), if_neg hdup, List.append_assoc,
          List.map_append]
        rfl

/-- The numbers of the lines aside, these are the orders that are given out. -/
theorem madeOrders_map (fp : CStr) : (madeOrders fp).map Prod.snd = parseOrdersFile fp := by
  have hreads : (lines fp).flatMap readOrders = (reads lineBufSize fp).filterMap pieceOrder := by
    rw [reads_eq_flatMap (by decide), List.filterMap_flatMap]
    rfl
  rw [parseOrdersFile, foldl_addLine, List.nil_append, List.map_nil, ← hreads,
    ← map_snd_numbered readOrders 0, firstWins_map, madeOrders]

/-! ## What a piece of a line gives -/

/-- The order that four tokens are if white space before their numbers is let pass. -/
def spacedOrder : List CStr → Option Order
  | [id, name, priority, duration] =>
    tokensOrder [id.dropWhile isspace, name, priority, duration.dropWhile isspace]
  | _ => none

/-- The order of a piece of a line, up to its first NUL. -/
def cutOrder (piece : CStr) : Option Order :=
  spacedOrder (tokensOf delim (rstripNewline (ofBuffer piece)))

theorem strtol_eq (s : CStr) : strtol s =
    match (splitSign (s.dropWhile isspace)).2.takeWhile isdigit with
    | [] => (0, s)
    | d :: ds =>
      (max longMin (min ((splitSign (s.dropWhile isspace)).1 * digitsValue (d :: ds)) longMax),
        (splitSign (s.dropWhile isspace)).2.dropWhile isdigit) := by
  unfold strtol
  rfl

/-- `parse_int` lets white space pass, as `strtol` does. -/
theorem parseInt_eq (s : CStr) : parseInt s = intValue (s.dropWhile isspace) := by
  by_cases hnil : s = []
  · subst hnil
    rfl
  rw [parseInt, if_neg hnil, strtol_eq, intValue]
  generalize splitSign (s.dropWhile isspace) = r
  have hsplit : r.2 = r.2.takeWhile isdigit ++ r.2.dropWhile isdigit :=
    List.takeWhile_append_dropWhile.symm
  have hall : r.2.all isdigit = true ↔ r.2.dropWhile isdigit = [] := by
    rw [List.all_eq_true, List.dropWhile_eq_nil_iff]
  cases hdigits : r.2.takeWhile isdigit with
  | nil =>
    rw [hdigits, List.nil_append] at hsplit
    dsimp only
    rw [if_pos (.inl rfl), if_neg]
    rintro ⟨hne, hd, -⟩
    rw [hall.mp hd] at hsplit
    exact hne hsplit
  | cons d ds =>
    dsimp only
    by_cases hrest : r.2.dropWhile isdigit = []
    · rw [hdigits, hrest, List.append_nil] at hsplit
      have hself : ¬(([] : CStr) = s ∨ ([] : CStr) ≠ []) := by
        rintro (heq | hne)
        · exact hnil heq.symm
        · exact hne rfl
      rw [hrest, if_neg hself, ← hsplit]
      generalize r.1 * (digitsValue r.2 : ℤ) = v
      have hne : r.2 ≠ [] := hsplit ▸ List.cons_ne_nil d ds
      -- a value that `strtol` clamps is no `int`
      have hclamp : (max longMin (min v longMax) < -intMax - 1 ∨
          intMax < max longMin (min v longMax)) ↔ ¬(-intMax - 1 ≤ v ∧ v ≤ intMax) := by
        unfold longMin longMax intMax
        omega
      by_cases hv : -intMax - 1 ≤ v ∧ v ≤ intMax
      · rw [if_neg fun hout => hclamp.mp hout hv, if_pos ⟨hne, hall.mpr hrest, hv⟩]
        congr 1
        unfold longMin longMax
        unfold intMax at hv
        omega
      · rw [if_pos (hclamp.mpr hv), if_neg fun hin => hv hin.2.2]
    · rw [if_pos (.inr hrest), if_neg fun hin => hrest (hall.mp hin.2.1)]

theorem isValidName_length {s : CStr} (h : isValidName s = true) : s.length ≤ maxNameLen := by
  rw [isValidName, Bool.and_eq_true, Bool.and_eq_true, decide_eq_true_eq] at h
  exact h.1.2

/-- Four tokens, as the code looks at them. -/
theorem parseTokens_eq (id name priority duration : CStr) :
    (match parseInt id with
      | none => none
      | some id =>
        if id < 0 then none
        else if !isValidName name then none
        else
          match priorityFromString priority with
          | none => none
          | some prio =>
            match parseInt duration with
            | none => none
            | some duration =>
              if duration ≤ 0 then none
              else some (⟨id, name.take maxNameLen, prio, duration⟩ : Order)) =
      spacedOrder [id, name, priority, duration] := by
  rw [parseInt_eq, parseInt_eq, spacedOrder, tokensOrder]
  cases intValue (id.dropWhile isspace) with
  | none => rfl
  | some id =>
    cases priorityFromString priority with
    | none =>
      dsimp only
      split_ifs <;> rfl
    | some prio =>
      cases intValue (duration.dropWhile isspace) with
      | none =>
        dsimp only
        split_ifs <;> rfl
      | some duration =>
        dsimp only
        by_cases hname : isValidName name = true
        · rw [List.take_of_length_le (isValidName_length hname)]
          simp only [hname, Bool.not_true, Bool.false_eq_true, if_false, true_and]
          split_ifs <;> first | rfl | omega
        · simp [hname]

theorem parseOneLine_eq (line : CStr) : parseOneLine line = spacedOrder (tokensOf delim line) := by
  unfold parseOneLine
  dsimp only
  -- one call of `strtok` after the other; a missing token ends both sides
  rcases h₁ : strtok delim line with ⟨_ | id, r₁⟩
  · rw [tokensOf_of_none (by rw [h₁])]
    rfl
  rcases h₂ : strtok delim r₁ with ⟨_ | name, r₂⟩
  · rw [tokensOf_of_some h₁, tokensOf_of_none (by rw [h₂])]
    rfl
  rcases h₃ : strtok delim r₂ with ⟨_ | priority, r₃⟩
  · rw [tokensOf_of_some h₁, tokensOf_of_some h₂, tokensOf_of_none (by rw [h₃])]
    rfl
  rcases h₄ : strtok delim r₃ with ⟨_ | duration, r₄⟩
  · rw [tokensOf_of_some h₁, tokensOf_of_some h₂, tokensOf_of_some h₃,
      tokensOf_of_none (by rw [h₄])]
    rfl
  rw [tokensOf_of_some h₁, tokensOf_of_some h₂, tokensOf_of_some h₃, tokensOf_of_some h₄]
  dsimp only
  rcases h₅ : strtok delim r₄ with ⟨_ | extra, r₅⟩
  · rw [tokensOf_of_none (by rw [h₅]), if_neg (not_not.mpr rfl)]
    exact parseTokens_eq id name priority duration
  · rw [tokensOf_of_some h₅, if_pos (fun hnone => nomatch hnone)]
    rfl

/-- The tokens of white space are no order. -/
theorem spacedOrder_of_isBlank {line : CStr} (h : isBlank line = true) :
    spacedOrder (tokensOf delim line) = none := by
  rw [isBlank, List.all_eq_true] at h
  have hspace : ∀ token ∈ tokensOf delim line, token.dropWhile isspace = [] := fun token htoken =>
    List.dropWhile_eq_nil_iff.mpr fun b hb => h b (mem_of_mem_tokensOf htoken b hb).2
  unfold spacedOrder
  split
  · rename_i id name priority duration htokens
    rw [htokens] at hspace
    rw [hspace id List.mem_cons_self]
    rfl
  · rfl

/-- **What the code makes of a piece** is the order of the piece. -/
theorem pieceOrder_eq (piece : CStr) : pieceOrder piece = cutOrder piece := by
  rw [pieceOrder, cutOrder]
  split_ifs with hblank
  · exact (spacedOrder_of_isBlank hblank).symm
  · exact parseOneLine_eq _

/-! ## Lines that are read as they are -/

/-- The line fits the buffer, has no NUL, and no white space but delimiters before its end. -/
structure Readable (line : CStr) : Prop where
  fits : line.length ≤ lineBufSize - 1
  bytes : ∀ b ∈ rstripNewline line, b ≠ 0 ∧ (isspace b = true → b ∈ delim)

theorem Readable.ne_zero {line : CStr} (h : Readable line) : ∀ b ∈ line, b ≠ 0 := by
  intro b hb hzero
  have hsplit : rstripNewline line ++ line.rtakeWhile (fun c => c == lf || c == cr) = line :=
    List.rdropWhile_append_rtakeWhile
  rw [← hsplit] at hb
  rcases List.mem_append.mp hb with hb | hb
  · exact (h.bytes b hb).1 hzero
  · have hend := List.mem_rtakeWhile_imp hb
    rw [hzero] at hend
    exact absurd hend (by decide)

theorem Readable.cutOrder_eq {line : CStr} (h : Readable line) :
    cutOrder line = lineOrder line := by
  rw [cutOrder, ofBuffer_eq_self h.ne_zero, lineOrder]
  have hplain : ∀ token ∈ tokensOf delim (rstripNewline line),
      token.dropWhile isspace = token := by
    intro token htoken
    rw [List.dropWhile_eq_self_iff]
    intro hlength hspace
    obtain ⟨hdelim, hline⟩ := mem_of_mem_tokensOf htoken _ (List.getElem_mem hlength)
    exact hdelim ((h.bytes _ hline).2 hspace)
  unfold spacedOrder
  split
  · rename_i id name priority duration htokens
    rw [htokens] at hplain
    rw [hplain id (by simp), hplain duration (by simp), htokens]
  · rename_i hfour
    unfold tokensOrder
    split
    · rename_i id name priority duration htokens
      exact absurd htokens (hfour id name priority duration)
    · rfl

/-! ## The specification -/

/-- The orders of the pieces that a line is read in. -/
def cutOrders (line : CStr) : List Order := (reads lineBufSize line).filterMap cutOrder

theorem readOrders_eq (line : CStr) : readOrders line = cutOrders line :=
  List.filterMap_congr fun piece _ => pieceOrder_eq piece

/-- **A line that is readable gives its order**, and nothing else. -/
theorem Readable.cutOrders_eq {line : CStr} (h : Readable line) (hline : Line line []) :
    cutOrders line = (lineOrder line).toList := by
  have hreads := hline.reads_short (by decide) h.fits
  rw [List.append_nil, reads_nil] at hreads
  rw [cutOrders, hreads, List.filterMap_cons, h.cutOrder_eq]
  cases lineOrder line <;> rfl

/-- The pieces of the line do no harm where the ids `seen` are known: a new id is that of the order
of the line, and the first piece with that id is that order. -/
def Harmless (seen : List ℤ) (line : CStr) : Prop :=
  (∀ a ∈ cutOrders line, a.id ∈ seen ∨ ∃ b ∈ lineOrder line, a.id = b.id) ∧
    ∀ b ∈ lineOrder line, b.id ∉ seen → ((cutOrders line).find? fun a => a.id = b.id) = some b

/-- The ids of the orders that some lines have. -/
def idsOf (ls : List CStr) : List ℤ :=
  seenAfter Order.id [] (ls.flatMap fun l => (lineOrder l).toList)

/-- **The orders of a file.** No two have one id, and they are those of the lines, in order and read
of the very lines that have them, if and only if every line is readable or does no harm after the
lines before it. -/
theorem parse_orders_iff (fp : CStr) :
    (madeOrders fp).map Prod.snd = parseOrdersFile fp ∧
    ((parseOrdersFile fp).map Order.id).Nodup ∧
    (madeOrders fp = keptOrders fp ↔ ∀ before line after, lines fp = before ++ line :: after →
      Readable line ∨ Harmless (idsOf before) line) := by
  have hparse : parseOrdersFile fp =
      firstWins Order.id [] ((reads lineBufSize fp).filterMap pieceOrder) :=
    foldl_addLine [] _
  refine ⟨madeOrders_map fp, ?_, ?_⟩
  · rw [hparse]
    exact (firstWins_nodup [] _).1
  · rw [madeOrders, keptOrders, firstWins_numbered_iff]
    refine forall_congr' fun before => forall_congr' fun line => forall_congr' fun after =>
      forall_congr' fun hlines => ?_
    rw [readOrders_eq, firstWins_eq_option_iff]
    constructor
    · exact .inr
    · rintro (hreadable | hharmless)
      · have hline : Line line [] := by
          obtain ⟨x, hx, rfl⟩ := exists_offset 0
            (hlines ▸ List.mem_append_right before List.mem_cons_self)
          exact (mem_offsets_lines hx).1
        rw [← firstWins_eq_option_iff, hreadable.cutOrders_eq hline]
      · exact hharmless

/-- Three lines that are read as they are, two of them with one id. -/
theorem parse_orders_iff_three :
    madeOrders (cstr "1 a EXPRESS 3\n1 b ECONOMY 4\n2 c STANDARD 5\n") =
      keptOrders (cstr "1 a EXPRESS 3\n1 b ECONOMY 4\n2 c STANDARD 5\n") := by
  refine (parse_orders_iff _).2.2.mpr fun before line after hlines => .inl ?_
  have hline : line ∈ lines (cstr "1 a EXPRESS 3\n1 b ECONOMY 4\n2 c STANDARD 5\n") :=
    hlines ▸ List.mem_append_right before List.mem_cons_self
  have hall : ((lines (cstr "1 a EXPRESS 3\n1 b ECONOMY 4\n2 c STANDARD 5\n")).all fun l =>
      Nat.ble l.length (lineBufSize - 1) &&
        (rstripNewline l).all fun b => b != 0 && (!isspace b || delim.contains b)) = true := by
    decide +kernel
  obtain ⟨hfits, hbytes⟩ := Bool.and_eq_true_iff.mp (List.all_eq_true.mp hall line hline)
  refine ⟨Nat.le_of_ble_eq_true hfits, fun b hb => ?_⟩
  have hb := List.all_eq_true.mp hbytes b hb
  simp only [Bool.and_eq_true, bne_iff_ne, ne_eq, Bool.or_eq_true, Bool.not_eq_true',
    List.contains_iff_mem] at hb
  exact ⟨hb.1, fun hspace => hb.2.resolve_left (by simp [hspace])⟩

/-- **The end of a long line is an order**: a token that starts in the first 1023 bytes is cut, and
the rest of the line is read as a line. -/
theorem long_line_makes_order :
    parseOrdersFile (List.replicate 1023 120 ++ cstr "7 a EXPRESS 3\n") =
        [⟨7, cstr "a", .express, 3⟩] ∧
      keptOrders (List.replicate 1023 120 ++ cstr "7 a EXPRESS 3\n") = [] := by
  decide +kernel

end Cse344.HW5
