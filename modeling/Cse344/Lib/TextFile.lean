import Cse344.Lib.CString

/-!
# Text files

A text file is the list of its bytes; a position in it is what is left to read there. `firstLine`
and `fgets` read from a position, `lines` are the lines of a file, each with its line feed, and
`reads` are all calls of `fgets` to the end.

* `line_induction` is the rule for what is said of a file line by line: a file is empty, or a line
  (`Line`) and a file.
* `offsets` numbers the lines by the positions they start at; `StartsLine` tells these positions by
  the byte before them.
* The last line may have no line feed. A NUL is a byte like any other here.

Results:
* **`line_induction`**, with `Line.lines_eq`, `Line.fgets_eq` and the like for its step.
* **`reads_eq`**: one call; **`Line.reads_append`**, `reads_eq_flatMap`: the calls, line by line.
* `mem_offsets_lines`, `exists_offset`: the positions of the lines.

Out of scope: reads that fail, and files that change.
-/

namespace Cse344.Lib

/-- `'\n'`. -/
def lf : UInt8 := 10

/-- `'\r'`. -/
def cr : UInt8 := 13

/-- The bytes up to the first line feed, with it. -/
def firstLine : CStr → CStr
  | [] => []
  | c :: l => if c = lf then [c] else c :: firstLine l

/-- What `fgets` reads into a buffer of `size` bytes; nothing at the end of the file. -/
def fgets (size : ℕ) (l : CStr) : CStr := (firstLine l).take (size - 1)

/-- The lines of a file. -/
def lines : CStr → List CStr
  | [] => []
  | c :: l =>
    if c = lf then [c] :: lines l
    else match lines l with
      | [] => [[c]]
      | x :: xs => (c :: x) :: xs

/-- Lines with the positions they start at, the first at `p`. -/
def offsets : ℕ → List CStr → List (ℕ × CStr)
  | _, [] => []
  | p, l :: ls => (p, l) :: offsets (p + l.length) ls

/-- In front of `rest`, `l` is a line. -/
structure Line (l rest : CStr) : Prop where
  ne_nil : l ≠ []
  firstLine_eq : firstLine (l ++ rest) = l

theorem firstLine_prefix (l : CStr) : firstLine l <+: l := by
  induction l with
  | nil => exact List.prefix_refl _
  | cons c l ih =>
    rw [firstLine]
    split_ifs
    · exact (List.prefix_cons_inj c).mpr (List.nil_prefix)
    · exact (List.prefix_cons_inj c).mpr ih

@[simp] theorem firstLine_eq_nil {l : CStr} : firstLine l = [] ↔ l = [] := by
  cases l with
  | nil => exact Iff.rfl
  | cons c l =>
    rw [firstLine]
    split_ifs <;> simp

/-- What has been read has the whole of the first line. -/
theorem firstLine_append {l rest : CStr} (h : lf ∈ l ∨ rest = []) :
    firstLine (l ++ rest) = firstLine l := by
  induction l with
  | nil =>
    rcases h with h | rfl
    · cases h
    · rfl
  | cons c l ih =>
    rw [List.cons_append, firstLine, firstLine]
    split_ifs with hc
    · rfl
    · rw [ih (h.imp_left fun hmem => (List.mem_cons.mp hmem).resolve_left (Ne.symm hc))]

/-- A line feed in the first line is its last byte. -/
theorem firstLine_inner {l : CStr} : ∀ {k : ℕ}, k + 1 < (firstLine l).length →
    l[k]? ≠ some lf := by
  induction l with
  | nil => intro k hk; cases hk
  | cons c l ih =>
    intro k hk
    rw [firstLine] at hk
    split_ifs at hk with hc
    · exact absurd hk (by rw [List.length_singleton]; omega)
    · cases k with
      | zero => exact fun heq => hc (Option.some.inj heq)
      | succ k => exact ih (Nat.lt_of_succ_lt_succ hk)

/-- A first line that is not all there is ends in a line feed. -/
theorem firstLine_last {l : CStr} (h : (firstLine l).length < l.length) :
    l[(firstLine l).length - 1]? = some lf := by
  induction l with
  | nil => cases h
  | cons c l ih =>
    rw [firstLine] at h ⊢
    split_ifs at h ⊢ with hc
    · rw [hc]
      rfl
    · rw [List.length_cons, List.length_cons, Nat.add_lt_add_iff_right] at h
      have hne : l ≠ [] := by
        rintro rfl
        cases h
      have hpos := List.length_pos_iff.mpr fun hnil => hne (firstLine_eq_nil.mp hnil)
      have hidx : (c :: firstLine l).length - 1 = (firstLine l).length - 1 + 1 := by
        rw [List.length_cons]
        omega
      rw [hidx, List.getElem?_cons_succ]
      exact ih h

/-- A line of the file starts at `p`. -/
def StartsLine (fp : CStr) (p : ℕ) : Prop :=
  p < fp.length ∧ (p = 0 ∨ fp[p - 1]? = some lf)

theorem fgets_eq_nil {size : ℕ} (h : 1 < size) {l : CStr} : fgets size l = [] ↔ l = [] := by
  obtain ⟨n, rfl⟩ : ∃ n, size = n + 2 := ⟨size - 2, by omega⟩
  rw [fgets, List.take_eq_nil_iff, firstLine_eq_nil]
  simp

/-- A file that is not empty starts with a line. -/
theorem exists_line {l : CStr} (h : l ≠ []) : ∃ x rest, l = x ++ rest ∧ Line x rest := by
  obtain ⟨rest, hrest⟩ := firstLine_prefix l
  refine ⟨firstLine l, rest, hrest.symm, fun hnil => h (firstLine_eq_nil.mp hnil), ?_⟩
  rw [hrest]

/-- **The rule for files, line by line.** -/
theorem line_induction {P : CStr → Prop} (nil : P [])
    (line : ∀ l rest, Line l rest → P rest → P (l ++ rest)) (l : CStr) : P l := by
  by_cases hl : l = []
  · exact hl ▸ nil
  · obtain ⟨x, rest, heq, hx⟩ := exists_line hl
    have hpos : 0 < x.length := List.length_pos_iff.mpr hx.ne_nil
    have hlt : rest.length < l.length := by
      rw [heq, List.length_append]
      omega
    exact heq ▸ line x rest hx (line_induction nil line rest)
termination_by l.length

/-- A line from its middle on is a line. -/
theorem Line.drop {l rest : CStr} (h : Line l rest) {k : ℕ} (hk : k < l.length) :
    Line (l.drop k) rest := by
  refine ⟨fun hnil => absurd (List.drop_eq_nil_iff.mp hnil) (Nat.not_le.mpr hk), ?_⟩
  have heq := h.firstLine_eq
  clear h
  induction k generalizing l with
  | zero => exact heq
  | succ k ih =>
    cases l with
    | nil => cases hk
    | cons c l =>
      rw [List.length_cons] at hk
      rw [List.cons_append, firstLine] at heq
      split_ifs at heq with hc
      · rw [← List.cons.inj heq |>.2] at hk
        cases Nat.lt_of_succ_lt_succ hk
      · exact ih (Nat.lt_of_succ_lt_succ hk) (List.cons.inj heq).2

/-- What is left of a line after some pieces. -/
theorem Line.drop_or_nil {l : CStr} (h : Line l []) (k : ℕ) :
    l.drop k = [] ∨ Line (l.drop k) [] := by
  by_cases hk : k < l.length
  · exact Or.inr (h.drop hk)
  · exact Or.inl (List.drop_eq_nil_iff.mpr (Nat.not_lt.mp hk))

/-- A line is a line where nothing follows. -/
theorem Line.alone {l rest : CStr} (h : Line l rest) : Line l [] := by
  obtain ⟨hne, heq⟩ := h
  refine ⟨hne, ?_⟩
  rw [List.append_nil]
  clear hne
  induction l with
  | nil => rfl
  | cons c l ih =>
    rw [List.cons_append, firstLine] at heq
    rw [firstLine]
    split_ifs at heq ⊢ with hc
    · exact heq
    · rw [ih (List.cons.inj heq).2]

/-- What `fgets` reads of a line. -/
theorem Line.fgets_eq {l rest : CStr} (h : Line l rest) (size : ℕ) :
    fgets size (l ++ rest) = l.take (size - 1) := by
  rw [fgets, h.firstLine_eq]

theorem Line.lines_eq {l rest : CStr} (h : Line l rest) : lines (l ++ rest) = l :: lines rest := by
  obtain ⟨hne, heq⟩ := h
  induction l with
  | nil => exact absurd rfl hne
  | cons c l ih =>
    rw [List.cons_append, firstLine] at heq
    rw [List.cons_append, lines]
    split_ifs at heq ⊢ with hc
    · obtain rfl : l = [] := ((List.cons.inj heq).2).symm
      rfl
    · have htail := (List.cons.inj heq).2
      by_cases hl : l = []
      · subst hl
        obtain rfl : rest = [] := firstLine_eq_nil.mp htail
        rfl
      · rw [ih hl htail]

@[simp] theorem flatten_lines (l : CStr) : (lines l).flatten = l := by
  induction l using line_induction with
  | nil => rfl
  | line l rest h ih => rw [h.lines_eq, List.flatten_cons, ih]

/-- A line ends in its only line feed, or has none and ends the file. -/
theorem Line.exists_body {l rest : CStr} (h : Line l rest) :
    (∃ body, lf ∉ body ∧ l = body ++ [lf]) ∨ lf ∉ l ∧ rest = [] := by
  obtain ⟨hne, heq⟩ := h
  induction l with
  | nil => exact absurd rfl hne
  | cons c l ih =>
    rw [List.cons_append, firstLine] at heq
    split_ifs at heq with hc
    · obtain rfl : l = [] := ((List.cons.inj heq).2).symm
      exact .inl ⟨[], List.not_mem_nil, by rw [hc, List.nil_append]⟩
    · have htail := (List.cons.inj heq).2
      have hlf : ∀ {x : CStr}, lf ∉ x → lf ∉ c :: x := fun hx =>
        List.not_mem_cons_of_ne_of_not_mem (Ne.symm hc) hx
      by_cases hl : l = []
      · subst hl
        exact .inr ⟨hlf List.not_mem_nil, firstLine_eq_nil.mp htail⟩
      · rcases ih hl htail with ⟨body, hbody, rfl⟩ | ⟨hnone, hrest⟩
        · exact .inl ⟨c :: body, hlf hbody, rfl⟩
        · exact .inr ⟨hlf hnone, hrest⟩

/-- Every line but the last ends in its only line feed. -/
theorem exists_body_of_mem_dropLast {fp : CStr} : ∀ l ∈ (lines fp).dropLast,
    ∃ body, lf ∉ body ∧ l = body ++ [lf] := by
  induction fp using line_induction with
  | nil => exact fun l hl => absurd hl List.not_mem_nil
  | line x rest hx ih =>
    rw [hx.lines_eq]
    by_cases hrest : rest = []
    · subst hrest
      exact fun l hl => absurd hl List.not_mem_nil
    · obtain ⟨y, rest', rfl, hy⟩ := exists_line hrest
      rw [hy.lines_eq] at ih ⊢
      rw [List.dropLast_cons_cons]
      refine List.forall_mem_cons.mpr ⟨?_, ih⟩
      exact hx.exists_body.resolve_right fun h => hrest h.2

theorem Line.of_body {body rest : CStr} (h : lf ∉ body) : Line (body ++ [lf]) rest := by
  refine ⟨List.append_ne_nil_of_right_ne_nil _ (List.cons_ne_nil _ _), ?_⟩
  rw [firstLine_append (.inl (List.mem_append_right _ List.mem_cons_self))]
  induction body with
  | nil => rfl
  | cons c body ih =>
    rw [List.mem_cons, not_or] at h
    rw [List.cons_append, firstLine, if_neg (Ne.symm h.1), ih h.2]

/-- The first lines of a file, where they are written line by line. -/
theorem lines_append {ls : List CStr} (h : ∀ l ∈ ls, lf ∉ l) (rest : CStr) :
    lines ((ls.map (· ++ [lf])).flatten ++ rest) = ls.map (· ++ [lf]) ++ lines rest := by
  induction ls with
  | nil => rfl
  | cons l ls ih =>
    rw [List.map_cons, List.flatten_cons, List.append_assoc,
      (Line.of_body (h l List.mem_cons_self)).lines_eq,
      ih fun x hx => h x (List.mem_cons_of_mem _ hx), List.cons_append]

/-- The lines of a file that is written line by line. -/
theorem lines_flatten {ls : List CStr} (h : ∀ l ∈ ls, ∃ body, lf ∉ body ∧ l = body ++ [lf]) :
    lines ls.flatten = ls := by
  induction ls with
  | nil => rfl
  | cons l ls ih =>
    obtain ⟨body, hbody, hl⟩ := h l List.mem_cons_self
    have hline : Line l ls.flatten := hl ▸ Line.of_body hbody
    rw [List.flatten_cons, hline.lines_eq, ih fun x hx => h x (List.mem_cons_of_mem _ hx)]

theorem le_of_mem_offsets {p : ℕ} {ls : List CStr} {x : ℕ × CStr} (h : x ∈ offsets p ls) :
    p ≤ x.1 := by
  induction ls generalizing p with
  | nil => cases h
  | cons l ls ih =>
    rcases List.mem_cons.mp h with rfl | h
    · exact Nat.le_refl _
    · exact Nat.le_trans (Nat.le_add_right _ _) (ih h)

theorem offsets_line {l rest : CStr} (h : Line l rest) (p : ℕ) :
    offsets p (lines (l ++ rest)) = (p, l) :: offsets (p + l.length) (lines rest) := by
  rw [h.lines_eq]
  rfl

/-- A line of a file is a line, and inside the file. -/
theorem mem_offsets_lines {fp : CStr} : ∀ {p : ℕ} {x : ℕ × CStr}, x ∈ offsets p (lines fp) →
    Line x.2 [] ∧ x.1 + x.2.length ≤ p + fp.length := by
  induction fp using line_induction with
  | nil =>
    intro p x hx
    cases hx
  | line l rest h ih =>
    intro p x hx
    rw [offsets_line h] at hx
    rw [List.length_append]
    rcases List.mem_cons.mp hx with rfl | hx
    · exact ⟨h.alone, by dsimp only; omega⟩
    · obtain ⟨hline, hle⟩ := ih hx
      exact ⟨hline, by omega⟩

theorem map_snd_offsets (p : ℕ) (ls : List CStr) : (offsets p ls).map Prod.snd = ls := by
  induction ls generalizing p with
  | nil => rfl
  | cons l ls ih => exact congrArg (l :: ·) (ih _)

/-- A line has a position. -/
theorem exists_offset (p : ℕ) {ls : List CStr} {l : CStr} (h : l ∈ ls) :
    ∃ x ∈ offsets p ls, x.2 = l := by
  rw [← map_snd_offsets p ls] at h
  exact List.mem_map.mp h

/-! ## Reading to the end -/

/-- The calls of `fgets` until it finds the end of the file, at most `fuel` of them. -/
def readsLoop (size : ℕ) : ℕ → CStr → List CStr
  | 0, _ => []
  | fuel + 1, rest =>
    match fgets size rest with
    | [] => []
    | c :: line => (c :: line) :: readsLoop size fuel (rest.drop (c :: line).length)

/-- What they read; each reads a byte, so `fp.length` of them are enough. -/
def reads (size : ℕ) (fp : CStr) : List CStr := readsLoop size fp.length fp

theorem readsLoop_fuel (size : ℕ) : ∀ (fuel fuel' : ℕ) (rest : CStr), rest.length ≤ fuel →
    rest.length ≤ fuel' → readsLoop size fuel rest = readsLoop size fuel' rest := by
  have hnil : ∀ fuel, readsLoop size fuel [] = [] := by
    intro fuel
    cases fuel with
    | zero => rfl
    | succ => simp [readsLoop, fgets, firstLine]
  intro fuel
  induction fuel with
  | zero =>
    intro fuel' rest hf _
    obtain rfl := List.length_eq_zero_iff.mp (Nat.le_zero.mp hf)
    rw [hnil, hnil]
  | succ fuel ih =>
    intro fuel' rest hf hf'
    cases fuel' with
    | zero =>
      obtain rfl := List.length_eq_zero_iff.mp (Nat.le_zero.mp hf')
      rw [hnil, hnil]
    | succ fuel' =>
      rw [readsLoop, readsLoop]
      split
      · rfl
      · rename_i c line _
        have hdrop : (rest.drop (c :: line).length).length = rest.length - (line.length + 1) :=
          List.length_drop
        rw [ih fuel' _ (by omega) (by omega)]

@[simp] theorem reads_nil (size : ℕ) : reads size [] = [] := rfl

/-- **One call.** -/
theorem reads_eq {size : ℕ} (hsize : 1 < size) {rest : CStr} (hne : rest ≠ []) :
    reads size rest = fgets size rest :: reads size (rest.drop (fgets size rest).length) := by
  obtain ⟨b, bs, rfl⟩ := List.exists_cons_of_ne_nil hne
  have hread : fgets size (b :: bs) ≠ [] := by
    rw [Ne, fgets_eq_nil hsize]
    exact hne
  rw [reads, List.length_cons, readsLoop]
  split
  · rename_i hnil
    exact absurd hnil hread
  · rename_i c line hline
    rw [hline]
    congr 1
    refine readsLoop_fuel size _ _ _ ?_ (Nat.le_refl _)
    rw [List.length_drop, List.length_cons, List.length_cons]
    omega

/-- A line that fits in the buffer takes one call. -/
theorem Line.reads_short {size : ℕ} (hsize : 1 < size) {l rest : CStr} (h : Line l rest)
    (hl : l.length ≤ size - 1) : reads size (l ++ rest) = l :: reads size rest := by
  have hread : fgets size (l ++ rest) = l := by
    rw [h.fgets_eq, List.take_of_length_le hl]
  rw [reads_eq hsize (List.append_ne_nil_of_left_ne_nil h.ne_nil rest), hread, List.drop_left]

/-- A longer one goes on behind what the buffer takes of it. -/
theorem Line.reads_long {size : ℕ} (hsize : 1 < size) {l rest : CStr} (h : Line l rest)
    (hl : size - 1 < l.length) : reads size (l ++ rest) =
      l.take (size - 1) :: reads size (l.drop (size - 1) ++ rest) := by
  have hlen : (l.take (size - 1)).length = size - 1 := List.length_take_of_le (Nat.le_of_lt hl)
  rw [reads_eq hsize (List.append_ne_nil_of_left_ne_nil h.ne_nil rest), h.fgets_eq, hlen,
    List.drop_append_of_le_length (Nat.le_of_lt hl)]

/-- **The calls, line by line.** -/
theorem Line.reads_append {size : ℕ} (hsize : 1 < size) {l rest : CStr} (h : Line l rest) :
    reads size (l ++ rest) = reads size l ++ reads size rest := by
  by_cases hl : l.length ≤ size - 1
  · have hone := h.alone.reads_short hsize hl
    rw [List.append_nil, reads_nil] at hone
    rw [h.reads_short hsize hl, hone]
    rfl
  · have hlong : size - 1 < l.length := Nat.not_le.mp hl
    have hone := h.alone.reads_long hsize hlong
    rw [List.append_nil, List.append_nil] at hone
    have hdrop : Line (l.drop (size - 1)) rest := h.drop hlong
    rw [h.reads_long hsize hlong, hone, hdrop.reads_append hsize]
    rfl
termination_by l.length
decreasing_by
  rw [List.length_drop]
  omega

theorem reads_eq_flatMap {size : ℕ} (hsize : 1 < size) (fp : CStr) :
    reads size fp = (lines fp).flatMap (reads size) := by
  induction fp using line_induction with
  | nil => rfl
  | line l rest h ih => rw [h.reads_append hsize, ih, h.lines_eq, List.flatMap_cons]

end Cse344.Lib
