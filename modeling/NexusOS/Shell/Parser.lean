import NexusOS.Lib.Loop

namespace NexusOS.Shell

open Lib

inductive ShellOp
  | opEnd
  | opSeq
  | opAnd
  | opPipe
  deriving DecidableEq, Repr

/-- A parsed command; every string is a position in the line buffer. -/
structure ShellParsedCommand where
  argv : List ℕ
  next : ShellOp
  redirectIn : Option ℕ
  redirectOut : Option ℕ
  append : Bool
  deriving DecidableEq, Repr

def shellMaxTokens : ℕ := 32

def shellMaxCommands : ℕ := 8

def nul : Char := Char.ofNat 0

def tab : Char := Char.ofNat 9

def doubleQuote : Char := Char.ofNat 34

def singleQuote : Char := Char.ofNat 39

def backslash : Char := Char.ofNat 92

/-- The character at a position; behind the buffer there is nothing but terminators. -/
def charAt (buf : List Char) (p : ℕ) : Char := buf.getD p nul

def space (c : Char) : Bool := c == ' ' || c == tab

def skip (f : Char → Bool) (buf : List Char) (p : ℕ) : ℕ := p + ((buf.drop p).takeWhile f).length

def endsWord (buf : List Char) (p : ℕ) : Bool :=
  space (charAt buf p) || charAt buf p == ';' || charAt buf p == '|' ||
    (charAt buf p == '&' && charAt buf (p + 1) == '&')

structure WordState where
  buf : List Char
  p : ℕ
  w : ℕ
  quote : Char
  deriving DecidableEq

/-- `*w++ = *p++`, after `skipped` characters. -/
def WordState.copy (s : WordState) (skipped : ℕ) : WordState :=
  { s with
    buf := s.buf.set s.w (charAt s.buf (s.p + skipped))
    p := s.p + skipped + 1
    w := s.w + 1 }

def WordState.escaped (s : WordState) : Bool :=
  charAt s.buf s.p == backslash && charAt s.buf (s.p + 1) != nul

/-- One round of the loop that copies a word over itself, without its quotes and backslashes. -/
def wordBody (s : WordState) : Except ℤ (ForInStep WordState) :=
  let c := charAt s.buf s.p
  if c = nul then .ok (.done s)
  else if s.quote ≠ nul then
    if c = s.quote then .ok (.yield { s with p := s.p + 1, quote := nul })
    else if s.escaped then .ok (.yield (s.copy 1))
    else .ok (.yield (s.copy 0))
  else if c = singleQuote ∨ c = doubleQuote then .ok (.yield { s with p := s.p + 1, quote := c })
  else if s.escaped then .ok (.yield (s.copy 1))
  else if endsWord s.buf s.p then .ok (.done s)
  else .ok (.yield (s.copy 0))

inductive Redirect
  | none
  | input
  | output (append : Bool)
  deriving DecidableEq

/-- The redirection sign at `p`, if there is one, and where its word or the plain word starts. -/
def redirection (buf : List Char) (p : ℕ) : Redirect × ℕ :=
  if charAt buf p = '<' then (.input, skip space buf (p + 1))
  else if charAt buf p = '>' then
    if charAt buf (p + 1) = '>' then (.output true, skip space buf (p + 2))
    else (.output false, skip space buf (p + 1))
  else (.none, p)

/-- Store the word at `start`; the codes are those of the source. -/
def storeWord (buf : List Char) (start : ℕ) (c : ShellParsedCommand) :
    Redirect → Except ℤ ShellParsedCommand
  | .none =>
    if c.argv.length ≥ shellMaxTokens - 1 then .error (-1)
    else .ok { c with argv := c.argv ++ [start] }
  | .input => if charAt buf start = nul then .error (-3) else .ok { c with redirectIn := some start }
  | .output append =>
    if charAt buf start = nul then .error (-3)
    else .ok { c with redirectOut := some start, append := append }

structure CommandState where
  buf : List Char
  p : ℕ
  cmd : ShellParsedCommand

def commandWord (buf : List Char) (p : ℕ) (c : ShellParsedCommand) : Except ℤ CommandState := do
  let start := (redirection buf p).2
  let word ← loop wordBody (buf.length + 1) ⟨buf, start, start, nul⟩
  if word.quote ≠ nul then .error (-2)
  else
    let buf' := word.buf.set word.w nul
    let cmd ← storeWord buf' start c (redirection buf p).1
    .ok ⟨buf', word.p, cmd⟩

def commandBody (s : CommandState) : Except ℤ (ForInStep CommandState) :=
  let buf := s.buf
  let p := skip space buf s.p
  if charAt buf s.p = nul then .ok (.done s)
  else if charAt buf p = nul then .ok (.done { s with p := p })
  else if charAt buf p = ';' then .ok (.done ⟨buf, p + 1, { s.cmd with next := .opSeq }⟩)
  else if charAt buf p = '&' ∧ charAt buf (p + 1) = '&' then
    .ok (.done ⟨buf, p + 2, { s.cmd with next := .opAnd }⟩)
  else if charAt buf p = '|' then .ok (.done ⟨buf, p + 1, { s.cmd with next := .opPipe }⟩)
  else do
    let s' ← commandWord buf p s.cmd
    .ok (.yield s')

def noCommand : ShellParsedCommand := ⟨[], .opEnd, none, none, false⟩

def ShellParsedCommand.isEmpty (c : ShellParsedCommand) : Bool :=
  c.argv.isEmpty && c.redirectIn.isNone && c.redirectOut.isNone

structure LineState where
  buf : List Char
  p : ℕ
  out : List ShellParsedCommand

def lineBody (max : ℕ) (s : LineState) : Except ℤ (ForInStep LineState) :=
  let p := skip (fun c ↦ space c || c == ';') s.buf s.p
  if charAt s.buf s.p = nul then .ok (.done s)
  else if charAt s.buf p = nul then .ok (.done { s with p := p })
  else if s.out.length ≥ max then .error (-1)
  else do
    let c ← loop commandBody (s.buf.length + 1) ⟨s.buf, p, noCommand⟩
    if c.cmd.isEmpty then .error (-3) else .ok (.yield ⟨c.buf, c.p, s.out ++ [c.cmd]⟩)

/-- Parse a line in place: a negative code, or the buffer as the parser leaves it with the commands
found in it, whose number is what the source returns. -/
def shellParseLine (line : List Char) (max : ℕ) : Except ℤ LineState :=
  loop (lineBody max) (line.length + 2) ⟨line ++ [nul], 0, []⟩

end NexusOS.Shell
