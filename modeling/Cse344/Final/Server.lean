import Cse344.Lib.Float
import Cse344.Lib.Ledger
import Cse344.Lib.Machine
import Mathlib.Data.Fintype.Basic

/-!
# The server of the final

Model of `Final/ServerTrd.c`: the stocks, the client slots, `process_line` (182-378), and the loop
of `main` (458-616) as a machine. Its actions are a periodic broadcast, an `accept`, a `recv` of
`client_read` (400-440), and one round of the `while (1)` that follows that `recv`: while the server
is in that loop (`reading`), it does nothing else. What arrives on a socket, and when, is the
environment's.

* `stock_count` does not change after `load_stocks`, so the stocks are a family over `Fin m`.
  `clients` is one over `Fin maxClients`; a `line_buf` is its first `buf_len` bytes, a portfolio its
  first `port_count` entries.
* Prices are `Float32`, quantities `int`s: `wrap32` is what the code keeps of a sum.
* A text that is built in a buffer too small for it is written past the end, and C says nothing
  about what follows: there the model has no step (`built`).
* `sent` is the history of what `safe_send` was given, and for which descriptor, `broadcasts` that
  of the texts sent by UDP. `trades` is the history of a session: the quantities it bought, and
  those it sold as negative numbers.
* `Table` is a stock table as `load_stocks` may leave it (`Cse344.Final.LoadStocks`).

Out of scope: the log, the peers' addresses, failing sends, `client_count`, which only the log
shows, and the ending of `select` with `EINTR`.
-/

namespace Cse344.Final

open Cse344.Lib

/-- `MAX_STOCKS`. -/
def maxStocks : ℕ := 128

/-- `MAX_CLIENTS`. -/
def maxClients : ℕ := 10

/-- `MAX_LINE`. -/
def maxLine : ℕ := 512

/-- `SYMBOL_LEN`. -/
def symbolLen : ℕ := 9

/-- `stock_t`. -/
structure Stock where
  symbol : CStr
  price : CFloat
  deriving DecidableEq

/-- `holding_t`. -/
structure Holding where
  symbol : CStr
  qty : ℤ
  deriving DecidableEq, Repr

/-- An accepted `BUY`, or an accepted `SELL` with its quantity negated. -/
structure Trade where
  symbol : CStr
  qty : ℤ
  deriving DecidableEq, Repr

/-- `client_t`. -/
structure Client where
  fd : ℤ
  username : CStr
  type : CStr
  lineBuf : List UInt8
  joined : Bool
  portfolio : List Holding
  trades : List Trade
  deriving DecidableEq, Repr

/-- A slot that `alloc_client` has cleared. -/
def Client.empty : Client where
  fd := -1
  username := []
  type := []
  lineBuf := []
  joined := false
  portfolio := []
  trades := []

/-- The state of a server of `m` stocks. -/
structure Server (m : ℕ) where
  stocks : Fin m → Stock
  clients : Fin maxClients → Client
  reading : Option (Fin maxClients)
  running : Bool
  sent : List (ℤ × CStr)
  broadcasts : List CStr

/-- The check of `load_stocks`, for what `%8s` reads. -/
def isValidSymbol (sym : CStr) : Bool :=
  decide (0 < sym.length ∧ sym.length < symbolLen) &&
    sym.all fun c => (65 ≤ c && c ≤ 90) || (48 ≤ c && c ≤ 57)

/-- What `load_stocks` may leave: up to `MAX_STOCKS` stocks, with valid symbols, not all different,
and prices that are not `<= 0.0f`. -/
structure Table (m : ℕ) where
  stocks : Fin m → Stock
  pos : 0 < m
  le_max : m ≤ maxStocks
  valid : ∀ k, isValidSymbol (stocks k).symbol = true
  price_pos : ∀ k, ¬ (stocks k).price.value ≤ 0

variable {m : ℕ}

def Server.setClient (s : Server m) (idx : Fin maxClients) (c : Client) : Server m :=
  { s with clients := Function.update s.clients idx c }

def Server.setPrice (s : Server m) (k : Fin m) (price : CFloat) : Server m :=
  { s with stocks := Function.update s.stocks k ⟨(s.stocks k).symbol, price⟩ }

/-- `safe_send(c->fd, text)` for client `idx`. -/
def Server.safeSend (s : Server m) (idx : Fin maxClients) (text : CStr) : Server m :=
  { s with sent := s.sent ++ [((s.clients idx).fd, text)] }

@[simp] theorem setClient_clients (s : Server m) (idx : Fin maxClients) (c : Client) :
    (s.setClient idx c).clients = Function.update s.clients idx c := rfl

@[simp] theorem setClient_stocks (s : Server m) (idx : Fin maxClients) (c : Client) :
    (s.setClient idx c).stocks = s.stocks := rfl

@[simp] theorem setPrice_clients (s : Server m) (k : Fin m) (price : CFloat) :
    (s.setPrice k price).clients = s.clients := rfl

@[simp] theorem safeSend_clients (s : Server m) (idx : Fin maxClients) (text : CStr) :
    (s.safeSend idx text).clients = s.clients := rfl

@[simp] theorem safeSend_stocks (s : Server m) (idx : Fin maxClients) (text : CStr) :
    (s.safeSend idx text).stocks = s.stocks := rfl

/-! ## Slots and symbols -/

def findStock (s : Server m) (sym : CStr) : Option (Fin m) :=
  (List.finRange m).find? fun k => (s.stocks k).symbol = sym

/-- The slot `alloc_client` returns. -/
def allocClient (s : Server m) : Option (Fin maxClients) :=
  (List.finRange maxClients).find? fun i => (s.clients i).fd = -1

def usernameTaken (s : Server m) (name : CStr) : Bool :=
  (List.finRange maxClients).any fun i =>
    decide (0 ≤ (s.clients i).fd) && (s.clients i).joined && decide ((s.clients i).username = name)

def disconnectClient (s : Server m) (idx : Fin maxClients) : Server m :=
  if (s.clients idx).fd < 0 then s
  else s.setClient idx
    { s.clients idx with fd := -1, joined := false, username := [], lineBuf := [] }

/-! ## Texts -/

/-- A text and its newline, built in a buffer of `size` bytes; `none` when they do not fit. -/
def built (size : ℕ) (body : CStr) : Option CStr :=
  if body.length + 2 ≤ size then some (body ++ newline) else none

/-- `%s:%.2f`. -/
def Stock.text (st : Stock) : CStr := st.symbol ++ cstr ":" ++ st.price.text

/-- `%s:%d`. -/
def Holding.text (h : Holding) : CStr := h.symbol ++ cstr ":" ++ decimal h.qty

def reportText (s : Server m) : CStr :=
  cstr "OK REPORT " ++ (cstr ",").intercalate ((List.ofFn s.stocks).map Stock.text)

/-- The names `LIST` lists. -/
def joinedNames (s : Server m) : List CStr :=
  ((List.ofFn s.clients).filter fun c => decide (0 ≤ c.fd) && c.joined).map Client.username

def listText (s : Server m) : CStr := cstr "OK LIST " ++ (cstr ",").intercalate (joinedNames s)

def portfolioText (portfolio : List Holding) : CStr :=
  cstr "OK PORTFOLIO " ++ (cstr ",").intercalate (portfolio.map Holding.text)

def broadcastText (s : Server m) : CStr :=
  cstr "PRICE_UPDATE " ++ sp.intercalate ((List.ofFn s.stocks).map Stock.text)

/-- What `process_line` builds in `resp`. -/
def resp (text : CStr) : CStr := snprintf (maxLine + 64) (text ++ newline)

def sendPriceBroadcast (s : Server m) : Option (Server m) :=
  (built 4096 (broadcastText s)).map fun text => { s with broadcasts := s.broadcasts ++ [text] }

/-! ## Commands -/

def cmdJoin (s : Server m) (idx : Fin maxClients) (args : CStr) : Server m :=
  let c := s.clients idx
  if c.joined then s.safeSend idx (cstr "ERR ALREADY_JOINED\n")
  else
    match scanString 15 args with
    | none => s.safeSend idx (cstr "ERR UNKNOWN JOIN\n")
    | some (typeStr, args) =>
      match scanString 31 args with
      | none => s.safeSend idx (cstr "ERR UNKNOWN JOIN\n")
      | some (uname, _) =>
        if typeStr ≠ cstr "TRADER" ∧ typeStr ≠ cstr "ANALYST" then
          s.safeSend idx (cstr "ERR UNKNOWN JOIN\n")
        else if usernameTaken s uname then s.safeSend idx (cstr "ERR JOIN name_taken\n")
        else
          (s.setClient idx
            { c with username := uname, type := typeStr, joined := true }).safeSend idx
            (resp (cstr "OK JOIN " ++ uname))

def cmdPrice (s : Server m) (idx : Fin maxClients) (args : CStr) : Server m :=
  match scanString (symbolLen - 1) args with
  | none => s.safeSend idx (cstr "ERR UNKNOWN_SYMBOL\n")
  | some (sym, _) =>
    match findStock s sym with
    | none => s.safeSend idx (cstr "ERR UNKNOWN_SYMBOL\n")
    | some k =>
      s.safeSend idx
        (resp (cstr "OK PRICE " ++ (s.stocks k).symbol ++ sp ++ (s.stocks k).price.text))

def cmdReport (s : Server m) (idx : Fin maxClients) : Option (Server m) :=
  (built 4096 (reportText s)).map (s.safeSend idx)

def cmdList (s : Server m) (idx : Fin maxClients) : Option (Server m) :=
  (built 2048 (listText s)).map (s.safeSend idx)

/-- `sscanf(args, "%8s %d", sym, &qty)`, where it returns 2 and `qty` is positive. -/
def scanTrade (args : CStr) : Option (CStr × ℤ) :=
  match scanString (symbolLen - 1) args with
  | none => none
  | some (sym, args) =>
    match scanInt args with
    | none => none
    | some (qty, _) => if qty ≤ 0 then none else some (sym, qty)

def findHolding (portfolio : List Holding) (sym : CStr) : Option (Fin portfolio.length) :=
  portfolio.findFinIdx? fun h => h.symbol = sym

/-- The portfolio after a `BUY`. -/
def addHolding (portfolio : List Holding) (sym : CStr) (qty : ℤ) : List Holding :=
  match findHolding portfolio sym with
  | some i => portfolio.set i ⟨(portfolio.get i).symbol, wrap32 ((portfolio.get i).qty + qty)⟩
  | none => if portfolio.length < maxStocks then portfolio ++ [⟨sym, qty⟩] else portfolio

/-- The portfolio after a `SELL` from entry `i`. -/
def subHolding (portfolio : List Holding) (i : Fin portfolio.length) (qty : ℤ) : List Holding :=
  let left := wrap32 ((portfolio.get i).qty - qty)
  if left = 0 then swapRemove (portfolio.set i ⟨(portfolio.get i).symbol, left⟩) i
  else portfolio.set i ⟨(portfolio.get i).symbol, left⟩

def buyPrice (old : CFloat) (qty : ℤ) : CFloat := old.map fun p => p + Float32.ofInt qty * 0.01

def sellPrice (old : CFloat) (qty : ℤ) : CFloat :=
  old.map fun p =>
    let new := p - Float32.ofInt qty * 0.01
    if new < 0.01 then 0.01 else new

/-- How `process_line` ends: it returns 0, or -1 for `QUIT`, or has a trade to broadcast before it
returns 0. -/
inductive Outcome
  | stay
  | quit
  | traded
  deriving DecidableEq, Repr

def cmdBuy (s : Server m) (idx : Fin maxClients) (args : CStr) : Server m × Outcome :=
  match scanTrade args with
  | none => (s.safeSend idx (cstr "ERR UNKNOWN_SYMBOL\n"), .stay)
  | some (sym, qty) =>
    match findStock s sym with
    | none => (s.safeSend idx (cstr "ERR UNKNOWN_SYMBOL\n"), .stay)
    | some k =>
      let new := buyPrice (s.stocks k).price qty
      let c := s.clients idx
      let c := { c with
        portfolio := addHolding c.portfolio sym qty
        trades := c.trades ++ [⟨sym, qty⟩] }
      (((s.setPrice k new).setClient idx c).safeSend idx
        (resp (cstr "OK BUY " ++ sym ++ sp ++ decimal qty ++ sp ++ new.text)), .traded)

def cmdSell (s : Server m) (idx : Fin maxClients) (args : CStr) : Server m × Outcome :=
  match scanTrade args with
  | none => (s.safeSend idx (cstr "ERR UNKNOWN_SYMBOL\n"), .stay)
  | some (sym, qty) =>
    match findStock s sym with
    | none => (s.safeSend idx (cstr "ERR UNKNOWN_SYMBOL\n"), .stay)
    | some k =>
      let c := s.clients idx
      match findHolding c.portfolio sym with
      | none => (s.safeSend idx (cstr "ERR INSUFFICIENT_SHARES\n"), .stay) -- `held` is 0
      | some i =>
        if (c.portfolio.get i).qty < qty then
          (s.safeSend idx (cstr "ERR INSUFFICIENT_SHARES\n"), .stay)
        else
          let new := sellPrice (s.stocks k).price qty
          let c := { c with
            portfolio := subHolding c.portfolio i qty
            trades := c.trades ++ [⟨sym, -qty⟩] }
          (((s.setPrice k new).setClient idx c).safeSend idx
            (resp (cstr "OK SELL " ++ sym ++ sp ++ decimal qty ++ sp ++ new.text)), .traded)

def cmdPortfolio (s : Server m) (idx : Fin maxClients) : Option (Server m) :=
  match (s.clients idx).portfolio with
  | [] => some (s.safeSend idx (cstr "OK PORTFOLIO EMPTY\n"))
  | portfolio => (built 2048 (portfolioText portfolio)).map (s.safeSend idx)

/-- `ERR UNKNOWN` for a line. -/
def cmdUnknown (s : Server m) (idx : Fin maxClients) (line : CStr) : Server m :=
  s.safeSend idx (resp (cstr "ERR UNKNOWN " ++ line))

def analystLine (s : Server m) (idx : Fin maxClients) (line : CStr) : Option (Server m × Outcome) :=
  if (cstr "PRICE ").isPrefixOf line then some (cmdPrice s idx (line.drop 6), .stay)
  else if line = cstr "REPORT" then (cmdReport s idx).map (·, .stay)
  else if line = cstr "LIST" then (cmdList s idx).map (·, .stay)
  else if (cstr "BUY ").isPrefixOf line ∨ (cstr "SELL ").isPrefixOf line then
    some (s.safeSend idx (cstr "ERR UNAUTHORIZED\n"), .stay)
  else some (cmdUnknown s idx line, .stay)

def traderLine (s : Server m) (idx : Fin maxClients) (line : CStr) : Option (Server m × Outcome) :=
  if (cstr "BUY ").isPrefixOf line then some (cmdBuy s idx (line.drop 4))
  else if (cstr "SELL ").isPrefixOf line then some (cmdSell s idx (line.drop 5))
  else if line = cstr "PORTFOLIO" then (cmdPortfolio s idx).map (·, .stay)
  else if (cstr "PRICE ").isPrefixOf line ∨ line = cstr "REPORT" ∨ line = cstr "LIST" then
    some (s.safeSend idx (cstr "ERR UNAUTHORIZED\n"), .stay)
  else some (cmdUnknown s idx line, .stay)

/-- `process_line`, up to the broadcast of a trade. -/
def processLine (s : Server m) (idx : Fin maxClients) (line : CStr) : Option (Server m × Outcome) :=
  let c := s.clients idx
  if (cstr "JOIN ").isPrefixOf line then some (cmdJoin s idx (line.drop 5), .stay)
  else if c.joined = false then some (s.safeSend idx (cstr "ERR NOT_JOINED\n"), .stay)
  else if line = cstr "QUIT" then some (s.safeSend idx (cstr "OK QUIT\n"), .quit)
  else if c.type = cstr "ANALYST" then analystLine s idx line
  else if c.type = cstr "TRADER" then traderLine s idx line
  else some (s.safeSend idx (cstr "ERR UNKNOWN\n"), .stay)

/-! ## Steps -/

/-- What `recv` finds on a socket. -/
inductive Input
  | error
  | hangup
  | data (bytes : List UInt8)
  deriving DecidableEq, Repr

inductive Act
  | periodic
  | accept (fd : ℕ)
  | input (idx : Fin maxClients) (input : Input)
  | line
  | shutdown
  deriving DecidableEq, Repr

def acceptClient (s : Server m) (cliFd : ℕ) : Server m :=
  match allocClient s with
  | none => s
  | some i => s.setClient i { Client.empty with fd := cliFd }

/-- `client_read` up to its loop; `none` where `recv` returns no such thing. -/
def readInput (s : Server m) (idx : Fin maxClients) (input : Input) : Option (Server m) :=
  let c := s.clients idx
  let space := maxLine - 1 - c.lineBuf.length
  if space = 0 then
    some ((s.safeSend idx (cstr "ERR TOOLONG\n")).setClient idx { c with lineBuf := [] })
  else
    match input with
    | .error => some (disconnectClient s idx)
    | .hangup => some (disconnectClient s idx)
    | .data bytes =>
      if 0 < bytes.length ∧ bytes.length ≤ space then
        some { s.setClient idx { c with lineBuf := c.lineBuf ++ bytes } with reading := some idx }
      else none

/-- The first `consumed` bytes leave the buffer. -/
def consume (s : Server m) (idx : Fin maxClients) (consumed : ℕ) : Server m :=
  s.setClient idx { s.clients idx with lineBuf := (s.clients idx).lineBuf.drop consumed }

/-- One round of the loop of `client_read`. -/
def handleLine (s : Server m) (idx : Fin maxClients) : Option (Server m) :=
  let c := s.clients idx
  let line := c.lineBuf.takeWhile fun b => b != 10
  if line.length = c.lineBuf.length then some { s with reading := none }
  else if maxLine - 1 ≤ line.length then
    some (consume (s.safeSend idx (cstr "ERR TOOLONG\n")) idx (line.length + 1))
  else
    match processLine s idx (lineString line) with
    | none => none
    | some (s, .quit) => some { disconnectClient s idx with reading := none }
    | some (s, .stay) => some (consume s idx (line.length + 1))
    | some (s, .traded) => (sendPriceBroadcast s).map fun s => consume s idx (line.length + 1)

/-- The end of `main` for client `idx`. -/
def shutdownClient (s : Server m) (idx : Fin maxClients) : Server m :=
  if 0 ≤ (s.clients idx).fd then
    (s.safeSend idx (cstr "SERVER SHUTDOWN\n")).setClient idx { s.clients idx with fd := -1 }
  else s

def serverStep (s : Server m) (act : Act) : Option (Server m) :=
  if s.running then
    match s.reading, act with
    | some idx, .line => handleLine s idx
    | some _, _ => none
    | none, .line => none
    | none, .periodic => sendPriceBroadcast s
    | none, .accept fd => some (acceptClient s fd)
    | none, .input idx input => if 0 ≤ (s.clients idx).fd then readInput s idx input else none
    | none, .shutdown =>
      some { (List.finRange maxClients).foldl shutdownClient s with running := false }
  else none

/-- The server as `main` starts it. -/
def initial (t : Table m) : Server m where
  stocks := t.stocks
  clients := fun _ => .empty
  reading := none
  running := true
  sent := []
  broadcasts := []

/-- A server with the table `t`. -/
def serverTrd (t : Table m) : Machine (Server m) Act where
  init := initial t
  step := serverStep

end Cse344.Final
