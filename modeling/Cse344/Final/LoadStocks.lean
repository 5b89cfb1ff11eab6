import Cse344.Final.Server

/-!
# The stock table of the final

Model of `load_stocks` (`Final/ServerTrd.c` 81-115): the lines of the file become the stocks of a
`Table`, which is what `main` starts the server with.

* The file is given as the lines `fgets` returns: of at most 255 bytes, a longer line of the file in
  several.
* `%8s` cuts a symbol at 8 bytes, and the price starts where it was cut: `ABCDEFGH5` is the symbol
  `ABCDEFGH` at 5. `price <= 0.0f` is false of a NaN, so that `nan` is a price.
* A line that is no symbol and price, has no positive price or a byte in its symbol that is neither
  an upper-case letter nor a digit is skipped. A symbol may be there already.
* At `MAX_STOCKS` the next such line ends the loop.

Results:
* **`loadStocks_eq`**: `load_stocks` keeps the first 128 of the lines it does not skip.
* `scanStock_spec`: what it keeps of a line is a valid symbol and a price that is not `<= 0.0f`.
* **`loadTable`**: unless it keeps nothing, and `main` ends, it makes a `Table` of the file.

Out of scope: a file that cannot be opened (`main` ends then), and reads that fail.
-/

namespace Cse344.Final

open Cse344.Lib

/-- The bytes `load_stocks` allows in a symbol. -/
def symbolBytes (sym : CStr) : Bool := sym.all fun c => (65 ≤ c && c ≤ 90) || (48 ≤ c && c ≤ 57)

/-- The stock that `load_stocks` reads from a line, `none` when it goes on with the next. -/
def scanStock (line : CStr) : Option Stock :=
  match scanString (symbolLen - 1) line with
  | none => none
  | some (sym, rest) =>
    match CFloat.scanFloat rest with
    | none => none
    | some price =>
      if price.value ≤ 0 then none
      else if !symbolBytes sym then none
      else some ⟨sym.take (symbolLen - 1), price⟩

def loadStocks : List Stock → List CStr → List Stock
  | stocks, [] => stocks
  | stocks, line :: lines =>
    match scanStock line with
    | none => loadStocks stocks lines
    | some stock =>
      if maxStocks ≤ stocks.length then stocks else loadStocks (stocks ++ [stock]) lines

variable {line : CStr} {lines : List CStr} {stocks : List Stock} {stock : Stock}

/-! ## Lines -/

theorem isValidSymbol_of_scan {sym rest : CStr}
    (hscan : scanString (symbolLen - 1) line = some (sym, rest)) (hbytes : symbolBytes sym = true) :
    isValidSymbol sym = true := by
  have hlen : sym.length ≤ symbolLen - 1 := (scanString_spec hscan).1
  have hpos : 0 < sym.length := List.length_pos_of_ne_nil (scanString_ne_nil hscan)
  rw [isValidSymbol, Bool.and_eq_true, decide_eq_true_iff]
  exact ⟨⟨hpos, Nat.lt_of_le_pred (by decide) hlen⟩, hbytes⟩

/-- **What is kept of a line.** -/
theorem scanStock_spec (h : scanStock line = some stock) :
    isValidSymbol stock.symbol = true ∧ ¬ stock.price.value ≤ 0 := by
  unfold scanStock at h
  split at h
  · cases h
  · rename_i sym rest hscan
    split at h
    · cases h
    · rename_i price hprice
      split_ifs at h with hpos hbytes
      obtain rfl := Option.some.inj h
      have hbytes : symbolBytes sym = true := by simpa using hbytes
      have hwhole : sym.take (symbolLen - 1) = sym :=
        List.take_of_length_le (scanString_spec hscan).1
      exact ⟨by rw [hwhole]; exact isValidSymbol_of_scan hscan hbytes, hpos⟩

/-! ## The file -/

/-- **The first 128 stocks of the file** are kept. -/
theorem loadStocks_eq : ∀ (lines : List CStr) (stocks : List Stock), stocks.length ≤ maxStocks →
    loadStocks stocks lines = (stocks ++ lines.filterMap scanStock).take maxStocks
  | [], stocks, hle => by
    rw [loadStocks, List.filterMap_nil, List.append_nil, List.take_of_length_le hle]
  | line :: lines, stocks, hle => by
    unfold loadStocks
    split
    · rename_i hskip
      rw [loadStocks_eq lines stocks hle, List.filterMap_cons_none hskip]
    · rename_i stock hkeep
      rw [List.filterMap_cons_some hkeep]
      split_ifs with hfull
      · have hlen : stocks.length = maxStocks := le_antisymm hle hfull
        rw [List.take_append_of_le_length hlen.ge, List.take_of_length_le hle]
      · have hroom : (stocks ++ [stock]).length ≤ maxStocks := by
          rw [List.length_append, List.length_singleton]
          exact not_le.mp hfull
        rw [loadStocks_eq lines _ hroom, List.append_assoc, List.singleton_append]

theorem length_loadStocks_le (lines : List CStr) : (loadStocks [] lines).length ≤ maxStocks := by
  rw [loadStocks_eq lines [] (Nat.zero_le _)]
  exact List.length_take_le _ _

/-- Every stock comes from a line. -/
theorem exists_line_of_mem (h : stock ∈ loadStocks [] lines) :
    ∃ line ∈ lines, scanStock line = some stock := by
  rw [loadStocks_eq lines [] (Nat.zero_le _), List.nil_append] at h
  exact List.mem_filterMap.mp (List.mem_of_mem_take h)

theorem loaded_spec (h : stock ∈ loadStocks [] lines) :
    isValidSymbol stock.symbol = true ∧ ¬ stock.price.value ≤ 0 := by
  obtain ⟨line, -, hline⟩ := exists_line_of_mem h
  exact scanStock_spec hline

/-- **What `load_stocks` makes of a file**, from which it reads some stock. -/
def loadTable (lines : List CStr) (h : 0 < (loadStocks [] lines).length) :
    Table (loadStocks [] lines).length where
  stocks := (loadStocks [] lines).get
  pos := h
  le_max := length_loadStocks_le lines
  valid := fun k => (loaded_spec (List.get_mem _ k)).1
  price_pos := fun k => (loaded_spec (List.get_mem _ k)).2

/-- A symbol twice, one that is cut, and lines that are skipped: a bad byte, no price, a price of 0,
one that is too small for a `float`. -/
example : (loadStocks [] [cstr "AAPL 150.00\r\n", cstr "AAPL 1e2\n", cstr "ABCDEFGH5\n",
    cstr "aapl 3\n", cstr "IBM\n", cstr "GE 0\n", cstr "GM 1e-50\n", cstr "HP nan\n"]).map
      Stock.text =
    [cstr "AAPL:150.00", cstr "AAPL:100.00", cstr "ABCDEFGH:5.00", cstr "HP:nan"] := by
  decide +kernel

end Cse344.Final
