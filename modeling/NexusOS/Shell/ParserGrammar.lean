import NexusOS.Shell.Parser

namespace NexusOS.Shell

def isPlain (c : Char) : Bool :=
  !(space c || c == nul || c == singleQuote || c == doubleQuote || c == backslash ||
    c == ';' || c == '|' || c == '&' || c == '<' || c == '>')

structure Word where
  chars : List Char
  ne_nil : chars ≠ []
  plain : ∀ c ∈ chars, isPlain c = true

inductive Item
  | word (w : Word)
  | input (w : Word)
  | output (append : Bool) (w : Word)

namespace Item

def sign : Item → List (List Char)
  | word _ => []
  | input _ => [['<']]
  | output false _ => [['>']]
  | output true _ => [['>', '>']]

def target : Item → Word
  | word w => w
  | input w => w
  | output _ w => w

def tokens (i : Item) : List (List Char) := i.sign ++ [i.target.chars]

def arg? : Item → Option (List Char)
  | word w => some w.chars
  | _ => none

def input? : Item → Option (List Char)
  | input w => some w.chars
  | _ => none

def output? : Item → Option (Bool × List Char)
  | output append w => some (append, w.chars)
  | _ => none

end Item

/-- A command of the grammar: at least one argument and at most one redirection each way. -/
structure Command where
  items : List Item
  has_arg : items.filterMap Item.arg? ≠ []
  few_args : (items.filterMap Item.arg?).length ≤ shellMaxTokens - 1
  one_input : (items.filterMap Item.input?).length ≤ 1
  one_output : (items.filterMap Item.output?).length ≤ 1

inductive Joiner
  | semicolon
  | ampersands
  | bar

def Joiner.token : Joiner → List Char
  | semicolon => [';']
  | ampersands => ['&', '&']
  | bar => ['|']

def Joiner.op : Joiner → ShellOp
  | semicolon => .opSeq
  | ampersands => .opAnd
  | bar => .opPipe

structure CommandList where
  first : Command
  rest : List (Joiner × Command)
  length_le : rest.length + 1 ≤ shellMaxCommands

def Command.tokens (c : Command) : List (List Char) := c.items.flatMap Item.tokens

def CommandList.tokens (l : CommandList) : List (List Char) :=
  l.first.tokens ++ l.rest.flatMap fun x ↦ x.1.token :: x.2.tokens

/-- `line` has the tokens in order, with at least one blank between two of them and any number of
blanks at the ends. -/
def Renders : List (List Char) → List Char → Prop
  | [], line => ∀ c ∈ line, space c = true
  | t :: ts, line => ∃ gap rest, (∀ c ∈ gap, space c = true) ∧ line = gap ++ t ++ rest ∧
      (ts ≠ [] → ∃ c ∈ rest.head?, space c = true) ∧ Renders ts rest

@[ext]
structure Resolved where
  argv : List (List Char)
  next : ShellOp
  redirectIn : Option (List Char)
  redirectOut : Option (List Char)
  append : Bool

def cString (buf : List Char) (p : ℕ) : List Char := (buf.drop p).takeWhile (· != nul)

def ShellParsedCommand.resolve (buf : List Char) (c : ShellParsedCommand) : Resolved :=
  ⟨c.argv.map (cString buf), c.next, c.redirectIn.map (cString buf),
    c.redirectOut.map (cString buf), c.append⟩

def parse (line : List Char) : Except ℤ (List Resolved) :=
  (shellParseLine line shellMaxCommands).map fun s ↦ s.out.map (ShellParsedCommand.resolve s.buf)

def Command.meaning (c : Command) (next : ShellOp) : Resolved :=
  ⟨c.items.filterMap Item.arg?, next, (c.items.filterMap Item.input?).head?,
    (c.items.filterMap Item.output?).head?.map Prod.snd,
    ((c.items.filterMap Item.output?).head?.map Prod.fst).getD false⟩

def meanings : Command → List (Joiner × Command) → List Resolved
  | c, [] => [c.meaning .opEnd]
  | c, (j, d) :: rest => c.meaning j.op :: meanings d rest

def CommandList.meaning (l : CommandList) : List Resolved := meanings l.first l.rest

end NexusOS.Shell
