import Shortlist.Command.Argument

/-!
# Invocations

A command line names a command and fills in its slots: the output to explain, the path of a
configuration, and pairs. The words between two options fill the open slots in order. Once a word
is taken for the output, the configuration has to follow at once, or it is taken as missing.
-/

namespace Shortlist.Command

inductive Slot
  | output
  | config
deriving DecidableEq, Repr

structure Form where
  output : Option String
  config : Option String
  /-- The pairs in order. One that is written as the separator is missing. -/
  pairs : List (Option String)
  /-- Whether there is an argument that no slot takes and no option explains. -/
  leftover : Bool
deriving DecidableEq, Repr

namespace Form

def empty : Form := ⟨none, none, [], false⟩

def put (form : Form) (slot : Slot) (word : Option String) : Form :=
  match slot with
  | .output => { form with output := word }
  | .config => { form with config := word }

def addPair (form : Form) (pair : String) : Form :=
  { form with pairs := form.pairs ++ [if pair = separatorText then none else some pair] }

def addLeftover (form : Form) : Form := { form with leftover := true }

def useFlag (form : Form) : Flag → Except Stop Form
  | .help => .error .help
  | .verbose => .ok form
  | .set => .error .misuse

/-- Uses options by their letters, all of which have to be known. -/
def useLetters (form : Form) (known : List Flag) (letters : List Char) : Except Stop Form :=
  match letters.mapM (Flag.ofLetter? known) with
  | some flags => flags.foldlM useFlag form
  | none => .error .misuse

/-- Uses an option by its name. Only a pair may be attached to an option. -/
def useNamed (form : Form) (flag : Flag) : Option String → Except Stop Form
  | none => form.useFlag flag
  | some attached => if flag = .set then .ok (form.addPair attached) else .error .misuse

end Form

def Argument.isBare (a : Argument) : Bool :=
  match a.role with
  | .word | .separator => true
  | _ => false

def Argument.isSeparator (a : Argument) : Bool := a.role = .separator

/-- The word of a slot among the arguments that were taken for it: they are the separator, if it is
next to the word, and the word. One argument written as the separator is dropped. -/
def wordOf (taken : List Argument) : Option String :=
  ((taken.map (·.text)).erase separatorText).head?

/-- Takes the word of a slot off the front of words, and the separator on either side of it. The
configuration may be missing. -/
def Slot.take? (slot : Slot) (words : List Argument) :
    Option (Option String × List Argument) :=
  let before := words.takeWhile Argument.isSeparator
  match words.dropWhile Argument.isSeparator with
  | word :: rest =>
    let after := rest.takeWhile Argument.isSeparator
    some (wordOf (before ++ word :: after), rest.dropWhile Argument.isSeparator)
  | [] => if slot = .config then some (none, []) else none

/-- Fills open slots from words. The slots that stay open are returned; words that no slot takes
are left over. -/
def fillSlots (form : Form) (words : List Argument) : List Slot → Form × List Slot
  | [] => (if words = [] then form else form.addLeftover, [])
  | slot :: more =>
    match slot.take? words with
    | some (word, rest) => fillSlots (form.put slot word) rest more
    | none => (form.addLeftover, slot :: more)

/-- Fills a form with the arguments of a command. The output has to be filled in. -/
def fill (known : List Flag) (form : Form) (slots : List Slot) (arguments : List Argument) :
    Except Stop Form :=
  match arguments with
  | [] => if slots.contains .output then .error .misuse else .ok form
  | ⟨_, .letters letters⟩ :: rest => do
    let form ← form.useLetters known letters
    fill known form slots rest
  | ⟨_, .named .set none⟩ :: ⟨pair, .word⟩ :: rest => fill known (form.addPair pair) slots rest
  | ⟨_, .named flag attached⟩ :: rest => do
    let form ← form.useNamed flag attached
    fill known form slots rest
  | ⟨_, .unknown⟩ :: rest => fill known form.addLeftover slots rest
  | word :: rest =>
    let (form, slots) := fillSlots form (word :: rest.takeWhile Argument.isBare) slots
    have : (rest.dropWhile Argument.isBare).length ≤ rest.length :=
      (List.dropWhile_suffix _).length_le
    fill known form slots (rest.dropWhile Argument.isBare)
termination_by arguments.length

inductive Invocation
  | check (config : Option String)
  | evaluate (config : Option String) (pairs : List (Option String))
  | explain (output : String) (config : Option String) (pairs : List (Option String))
deriving DecidableEq, Repr

namespace Invocation

def ofCommand (command : String) (arguments : List String) : Except Stop (Invocation × Form) :=
  match command with
  | "check" => do
    let form ← fill [.help] .empty [.config] (← readArguments [.help] arguments)
    return (.check form.config, form)
  | "evaluate" => do
    let form ← fill [.help, .set] .empty [.config] (← readArguments [.help, .set] arguments)
    return (.evaluate form.config form.pairs, form)
  | "explain" => do
    let form ← fill [.help, .set] .empty [.output, .config]
      (← readArguments [.help, .set] arguments)
    return (.explain (form.output.getD "") form.config form.pairs, form)
  | _ => .error .misuse

/-- Reads the arguments in front of the command. A command line without a command asks for help. -/
def ofArguments (known : List Flag) (form : Form) : List Argument → Except Stop Invocation
  | [] => .error (if form.leftover then .misuse else .help)
  | a :: rest =>
    match a.role with
    | .word => do
      let (invocation, filled) ← ofCommand a.text (rest.map (·.text))
      if form.leftover || filled.leftover then throw .misuse
      return invocation
    | .separator => .error .misuse
    | .letters letters => do ofArguments known (← form.useLetters known letters) rest
    | .named flag attached => do ofArguments known (← form.useNamed flag attached) rest
    | .unknown => ofArguments known form.addLeftover rest

def read (arguments : List String) : Except Stop Invocation := do
  ofArguments [.help, .verbose] .empty (← readArguments [.help, .verbose] arguments)

end Invocation

end Shortlist.Command
