import Fos.Lib.Reach
import Fos.Str.Split
import Fos.Str.Text
import Fos.Types

/-! The line editor of the command prompt (`command_prompt_readline` in `kern/cmd/command_readline.c`): the line, the history of
    commands and the completions of the Tab key. What it prints is left out. -/

namespace Fos
open Lib Str

namespace Cmd

/-- `BUFLEN` -/
def bufLen : Nat := 1024

/-- `HISTORY_MAX` -/
def historyMax : Nat := 19

/-- The rows of `PrefixList` -/
def prefixRows : Nat := 100

/-- The arrays of characters that the keys read and write. -/
inductive Block where
  | buf
  | commandHistory (k : Nat)
  deriving DecidableEq

def Block.size : Block → Nat
  | .buf => bufLen
  | .commandHistory k => if k ≤ historyMax then bufLen else 0

/-- The static variables, with the buffer of the caller. A row of `PrefixList` is its characters up to the first zero. -/
structure Shared where
  memory : Blocks Block
  lastCommandIdx : Int
  prefixList : Nat → List UInt8

/-- The variables of a call that a turn of its loop leaves to the next. -/
structure Line where
  i : Int
  lastIndex : Int
  commandidx : Int
  prefixListIdx : Nat
  prefixListSize : Int
  lastC : Int
  isRunCmd : Bool
  isTstCmd : Bool

/-- `buf + k`; `none`, here and below, for an access outside an array. -/
def bufPtr (k : Int) : Option (Ptr Block) := if 0 ≤ k then some ⟨.buf, k.toNat⟩ else none

/-- `command_history[k]` -/
def historyPtr (k : Int) : Option (Ptr Block) := if 0 ≤ k then some ⟨.commandHistory k.toNat, 0⟩ else none

/-- `buf[k]` -/
def loadBuf (m : Blocks Block) (k : Int) : Option UInt8 := (bufPtr k).bind m.load

/-- `buf[k] = c` -/
def storeBuf (m : Blocks Block) (k : Int) (c : UInt8) : Option (Blocks Block) := (bufPtr k).bind fun p => m.store p c

/-- `for (j = 0; j < len; j++) buf[j] = l[j]` -/
def writeBuf (m : Blocks Block) (l : List UInt8) : Option (Blocks Block) :=
  if l.length ≤ m.size .buf then some (m.put ⟨.buf, 0⟩ l) else none

/-- `memcpy(dst, src, n)`, for two places that do not overlap -/
def memcpy (m : Blocks Block) (dst src : Ptr Block) (n : Nat) : Option (Blocks Block) :=
  if src.offset + n ≤ m.size src.block ∧ dst.offset + n ≤ m.size dst.block then some (m.put dst (m.bytes src n)) else none

/-! ### History -/

/-- The line is emptied, as by `memcpy(buf, empty_buf, BUFLEN)`, and `l` written with the cursor behind it. -/
def Shared.rewrite (g : Shared) (line : Line) (l : List UInt8) : Option (Shared × Line) :=
  (writeBuf g.memory (List.replicate bufLen 0)).bind fun m =>
    (writeBuf m l).map fun m => ({ g with memory := m }, { line with i := l.length, lastIndex := l.length })

/-- `clearandwritecommand(&i, commandidx, buf, &lastIndex)` -/
def Shared.clearAndWriteCommand (g : Shared) (line : Line) : Option (Shared × Line) :=
  (historyPtr line.commandidx).bind fun p => (text g.memory p).bind (g.rewrite line)

/-- The key 226 -/
def Shared.upArrow (g : Shared) (line : Line) : Option (Shared × Line) :=
  g.clearAndWriteCommand { line with commandidx := if line.commandidx ≠ 0 then line.commandidx - 1 else line.commandidx }

/-- The key 227 -/
def Shared.downArrow (g : Shared) (line : Line) : Option (Shared × Line) :=
  let line := { line with
    commandidx := if line.commandidx < g.lastCommandIdx then line.commandidx + 1 else line.commandidx }
  if g.lastCommandIdx ≥ 0 then g.clearAndWriteCommand line else some (g, line)

/-- The rows from `idx` on take over the `n` rows behind them. -/
def shiftHistory (m : Blocks Block) (idx : Nat) : Nat → Option (Blocks Block)
  | 0 => some m
  | n + 1 =>
    (memcpy m ⟨.commandHistory idx, 0⟩ ⟨.commandHistory (idx + 1), 0⟩ bufLen).bind fun m => shiftHistory m (idx + 1) n

/-- The keys `'\n'` and `'\r'`, which end the call -/
def Shared.enter (g : Shared) (line : Line) : Option Shared :=
  (storeBuf g.memory line.lastIndex 0).bind fun m =>
    if g.lastCommandIdx = historyMax then
      (shiftHistory m 0 historyMax).bind fun m =>
        (memcpy m ⟨.commandHistory historyMax, 0⟩ ⟨.buf, 0⟩ bufLen).map fun m => { g with memory := m }
    else
      (historyPtr g.lastCommandIdx).bind fun p =>
        (strcmp m p ⟨.buf, 0⟩).bind fun z =>
          if z ≠ 0 then
            (historyPtr (g.lastCommandIdx + 1)).bind fun q =>
              (memcpy m q ⟨.buf, 0⟩ bufLen).map fun m => { g with memory := m, lastCommandIdx := g.lastCommandIdx + 1 }
          else some { g with memory := m }

/-! ### Completion -/

/-- The names of the commands, of the user programs and of the tests -/
structure Tables where
  commands : List (List UInt8)
  userPrograms : List (List UInt8)
  tests : List (List UInt8)

/-- `WHITESPACE` -/
def isWhitespace (c : UInt8) : Bool := c = 9 ∨ c = 13 ∨ c = 10 ∨ c = 32

/-- `"run"` -/
def run : List UInt8 := [114, 117, 110]

/-- `"load"` -/
def load : List UInt8 := [108, 111, 97, 100]

/-- `"tst"` -/
def tst : List UInt8 := [116, 115, 116]

/-- The arguments that `strsplit` finds in `temp_buf` -/
def arguments (l : List UInt8) : List (List UInt8) :=
  ((l.splitOnP isWhitespace).filter (· ≠ [])).take (maxArguments - 1)

/-- What is to be completed: `word`, behind the arguments that are kept. -/
structure Request where
  numberOfArguments : Nat
  isRunCmd : Bool
  isTstCmd : Bool
  kept : Option (List UInt8)
  word : List UInt8

/-- The request of a line with the text `l`; `none` where the key is given up by a `continue`. -/
def Line.request (line : Line) (l : List UInt8) : Option Request :=
  if l = [] ∨ line.lastC = 255 ∨ l.getLast? = some 32 then none
  else
    let args := arguments l
    if args.length > 1 then
      if args.head? ≠ some run ∧ args.head? ≠ some load ∧ args.head? ≠ some tst then none
      else
        let isTst := args.head? == some tst
        let last := args.getLast?.getD []
        some ⟨args.length, line.isRunCmd || !isTst, line.isTstCmd || isTst, some (l.take (l.length - last.length)), last⟩
    else
      -- `strsplit` has overwritten the first separator in `temp_buf`
      some ⟨args.length, line.isRunCmd, line.isTstCmd, none, l.takeWhile fun c => !isWhitespace c⟩

/-- The texts for `PrefixList` -/
def Tables.found (tables : Tables) (r : Request) : List (List UInt8) :=
  let names :=
    if r.numberOfArguments = 1 then tables.commands
    else if r.isRunCmd then tables.userPrograms
    else if r.isTstCmd then tables.tests
    else []
  (names.filter fun name => r.word.isPrefixOf name).map fun name => r.kept.getD [] ++ name

/-- `PrefixList` is filled through `string`, which has as many characters as a row. -/
def fillPrefixList (found : List (List UInt8)) : Option (Nat → List UInt8) :=
  if found.length ≤ prefixRows ∧ ∀ l ∈ found, l.length ≤ bufLen then some fun k => found[k]?.getD [] else none

/-- The characters that a loop over `strlen(PrefixList[k])` reads -/
def prefixRow (rows : Nat → List UInt8) (k : Nat) : Option (List UInt8) :=
  if k < prefixRows ∧ (rows k).length < bufLen then some (rows k) else none

/-- `strcpy(buf, temp)` -/
def cutBuf (m : Blocks Block) : Option (List UInt8) → Option (Blocks Block)
  | none => some m
  | some l => writeBuf m (l ++ [0])

/-- The key 9, when the last one was another -/
def Tables.firstTab (tables : Tables) (g : Shared) (line : Line) : Option (Shared × Line) :=
  let g := { g with prefixList := fun _ => [] }
  (text g.memory ⟨.buf, 0⟩).bind fun l =>
    match line.request l with
    | none => some (g, { line with prefixListSize := if l = [] ∨ line.lastC = 255 then line.prefixListSize else 0 })
    | some r =>
      let found := tables.found r
      (cutBuf g.memory r.kept).bind fun m =>
        (fillPrefixList found).bind fun rows =>
          let g := { g with memory := m, prefixList := rows }
          let line := { line with
            prefixListSize := found.length, lastC := 9, isRunCmd := r.isRunCmd, isTstCmd := r.isTstCmd }
          if found = [] then some (g, line)
          else
            (prefixRow rows 0).bind fun first =>
              (writeBuf m first).bind fun m =>
                (strlen m ⟨.buf, 0⟩).map fun (n : Nat) =>
                  ({ g with memory := m }, { line with prefixListIdx := 0, i := n, lastIndex := n })

/-- The row that follows the one shown -/
def Line.nextRow (line : Line) : Nat := (line.prefixListIdx + 1) % line.prefixListSize.toNat

/-- The key 9 again, with `RoundAutoCompleteCommandWithTheSamePrefix` -/
def Shared.nextTab (g : Shared) (line : Line) : Option (Shared × Line) :=
  if line.prefixListSize > 0 then
    (prefixRow g.prefixList line.prefixListIdx).bind fun _ =>
      (prefixRow g.prefixList line.nextRow).bind (g.rewrite { line with prefixListIdx := line.nextRow })
  else some (g, line)

def Tables.tab (tables : Tables) (g : Shared) (line : Line) : Option (Shared × Line) :=
  if line.lastC ≠ 9 then tables.firstTab g line else g.nextTab line

/-! ### The line -/

/-- `n` turns of the loop of the Delete key -/
def shiftBuf (m : Blocks Block) (var : Int) : Nat → Option (Blocks Block)
  | 0 => some m
  | n + 1 => (loadBuf m (var + 1)).bind fun c => (storeBuf m var c).bind fun m => shiftBuf m (var + 1) n

/-- The key 228 -/
def Line.leftArrow (line : Line) : Line := if line.i > 0 then { line with i := line.i - 1 } else line

/-- The key 229 -/
def Line.rightArrow (line : Line) : Line := if line.i < line.lastIndex then { line with i := line.i + 1 } else line

/-- The key `0xE9` -/
def Shared.delete (g : Shared) (line : Line) : Option (Shared × Line) :=
  (shiftBuf g.memory line.i (line.lastIndex + 1 - line.i).toNat).map fun m =>
    ({ g with memory := m }, { line with lastIndex := line.lastIndex - 1 })

/-- A character of the line -/
def Shared.type (g : Shared) (line : Line) (c : Int) : Option (Shared × Line) :=
  (storeBuf g.memory line.i (UInt8.ofInt c)).map fun m =>
    ({ g with memory := m }, { line with i := line.i + 1, lastIndex := int32 (line.lastIndex + 1) })

/-- The key `'\b'` -/
def Shared.backspace (g : Shared) (line : Line) : Option (Shared × Line) :=
  (loadBuf g.memory line.i).bind fun c =>
    (storeBuf g.memory (line.i - 1) c).map fun m => ({ g with memory := m }, { line with i := line.i - 1 })

/-- The start of a turn, after the key is read -/
def Line.extend (line : Line) : Line := { line with lastIndex := if line.i > line.lastIndex then line.i else line.lastIndex }

/-! ### The loop -/

/-- The variables between two calls, or within one -/
structure State where
  shared : Shared
  line : Option Line

/-- A turn that ends with `last_c = c` -/
def endTurn (c : Int) (turn : Option (Shared × Line)) : Option State :=
  turn.map fun (g, line) => ⟨g, some { line with lastC := c }⟩

/-- A turn of the loop of `command_prompt_readline` with the key `c` -/
def Tables.readKey (tables : Tables) (g : Shared) (line : Line) (c : Int) : Option State :=
  let line := line.extend
  if c < 0 then some ⟨g, none⟩
  else if c = 226 then endTurn c (g.upArrow line)
  else if c = 227 then endTurn c (g.downArrow line)
  else if c = 9 then (tables.tab g line).map fun (g, line) => ⟨g, some line⟩
  else if c = 228 then endTurn c (some (g, line.leftArrow))
  else if c = 229 then endTurn c (some (g, line.rightArrow))
  else if c = 0xE9 ∧ line.i > 0 then endTurn c (g.delete line)
  else if c ≥ 32 ∧ line.i < bufLen - 1 ∧ c ≠ 229 ∧ c ≠ 228 then endTurn c (g.type line c)
  else if c = 8 ∧ line.i > 0 then endTurn c (g.backspace line)
  else if c = 10 ∨ c = 13 then (g.enter line).map fun g => ⟨g, none⟩
  else endTurn c (some (g, line))

/-- `memset(command_line, 0, sizeof(command_line))` and the start of a call; `last_c` and `prefix_list_size` are not set. -/
def Shared.call (g : Shared) (lastC prefixListSize : Int) : Option State :=
  (writeBuf g.memory (List.replicate bufLen 0)).map fun m =>
    ⟨{ g with memory := m }, some ⟨0, 0, g.lastCommandIdx + 1, 0, prefixListSize, lastC, false, false⟩⟩

inductive Event where
  | call (lastC prefixListSize : Int)
  | key (c : Int)

def Tables.step (tables : Tables) (s : State) : Event → Option State
  | .call lastC prefixListSize => if s.line.isNone then s.shared.call lastC prefixListSize else none
  | .key c => s.line.bind fun line => tables.readKey s.shared line c

end Cmd

end Fos
