import ScriptLang.Number.Numeral

/-!
# Arguments of the command line

What the words after the name of the program ask for: `ArgumentParser.parse_args` of `argparse`, with
the options that `run_cli` declares. Options and the one positional argument come in any order. A word
with a dash at its start is an option: by its full name, by a beginning of one that is not shared by
others, with its value after `=`, or, for names of one letter, with its value right after the letter.
Letters attached to an option of one letter that takes no value are options too. After `--` every word
is positional. A single dash, a negative number and a word with a blank in it that names no option are
positional too.

`argparse` has changed in what may be attached to an option, and its rules are a parameter here:
* `Rules.current`, as in the releases 3.11.10 and 3.12.3: an attached `--` is a value like any other, a
  text after `=` is wrong for an option that takes no value, and a letter that names no option is a word
  without a place;
* `Rules.early`, as in the releases from 3.11.5 to 3.11.9: an attached `--` is dropped, so that the
  option has a value without a text, a text after `=` is read as letters if the option has one dash,
  and a letter that names no option is wrong.
-/
namespace ScriptLang

/-- What is to be done, as the options say. -/
structure Arguments where
  program : String
  sourceMode : Bool
  /-- The place for an artifact, if one is asked for; by the early rules the place may have no text. -/
  output : Option (Option String)
  root : Option String
  verbose : Bool
  tracebackJson : Bool
  deriving DecidableEq, Repr

namespace Arguments

/-- The rules for what is attached to an option. -/
inductive Rules where
  | early
  | current
  deriving DecidableEq, Repr

inductive Setting where
  | help
  | source
  | output
  | root
  | verbose
  | tracebackJson
  deriving DecidableEq, Repr

def Setting.takesValue : Setting → Bool
  | .output | .root => true
  | _ => false

/-- The names of the settings, as `run_cli` declares them. -/
def names : List (String × Setting) :=
  [("-h", .help), ("--help", .help), ("-source", .source), ("--source", .source), ("-o", .output),
    ("--output", .output), ("--root", .root), ("-verbose", .verbose), ("--verbose", .verbose),
    ("--traceback-json", .tracebackJson)]

inductive Attached where
  | afterEquals (text : String)
  | afterLetter (text : String)
  deriving DecidableEq, Repr

def Attached.text : Attached → String
  | .afterEquals text | .afterLetter text => text

/-- How a word names an option: with two dashes or one, and with what attached to it. -/
structure Match where
  setting : Setting
  long : Bool
  attached : Option Attached
  deriving DecidableEq, Repr

/-- What a word is before `--`. -/
inductive Word where
  | positional
  | option (found : Match)
  | unknown
  | ambiguous
  deriving DecidableEq, Repr

/-- The text before the first `=`, and the one after it if there is one. -/
def splitEquals (word : String) : String × Option String :=
  let cs := word.toList
  let name := cs.takeWhile (· != '=')
  if name.length = cs.length then (word, none)
  else (String.ofList name, some (String.ofList (cs.drop (name.length + 1))))

def isLong (name : String) : Bool := name.toList.take 2 == ['-', '-']

/-- The first text is a beginning of the second. -/
def starts (beginning text : String) : Bool := beginning.toList.isPrefixOf text.toList

/-- All options that a word may be short for (`_get_option_tuples`). -/
def abbreviated (word : String) : List Match :=
  if isLong word then
    let (name, value) := splitEquals word
    (names.filter fun entry => starts name entry.1).map fun entry =>
      ⟨entry.2, isLong entry.1, value.map .afterEquals⟩
  else
    let letter := String.ofList (word.toList.take 2)
    let rest := String.ofList (word.toList.drop 2)
    names.filterMap fun entry =>
      if entry.1 == letter then some ⟨entry.2, false, some (.afterLetter rest)⟩
      else if starts word entry.1 then some ⟨entry.2, isLong entry.1, none⟩
      else none

/-- A decimal digit of any writing system. -/
def isDigit (c : Char) : Bool := IntText.isDigit (Numeral.plain c)

/-- A negative number: digits, or a point before the last of them. A line break after it does not
matter. -/
def isNegativeNumber (word : String) : Bool :=
  match word.toList with
  | '-' :: rest =>
    let rest := if rest.getLast? = some '\n' then rest.dropLast else rest
    let whole := rest.takeWhile isDigit
    match rest.drop whole.length with
    | [] => !whole.isEmpty
    | '.' :: fraction => !fraction.isEmpty && fraction.all isDigit
    | _ => false
  | _ => false

/-- What a word is before `--` (`_parse_optional`). -/
def classify (word : String) : Word :=
  if !starts "-" word then .positional
  else
    match names.lookup word with
    | some setting => .option ⟨setting, isLong word, none⟩
    | none =>
      if word == "-" then .positional
      else
        let (name, value) := splitEquals word
        match names.lookup name, value with
        | some setting, some value => .option ⟨setting, isLong name, some (.afterEquals value)⟩
        | _, _ =>
          match abbreviated word with
          | [found] => .option found
          | _ :: _ => .ambiguous
          | [] =>
            if isNegativeNumber word || word.toList.contains ' ' then .positional else .unknown

/-! ## What an option asks for -/

/-- What a word asks for. A value that is not attached is the next word. -/
inductive Request where
  | flag (setting : Setting)
  | value (setting : Setting) (attached : Option String)
  /-- The letter has no place. -/
  | stray
  deriving DecidableEq, Repr

namespace Rules

variable (rules : Rules)

/-- The value that comes right after the letter of an option, if any does. -/
def valueAfter : List Char → Option String
  | [] => none
  | '=' :: text => some (String.ofList (if rules = .current then text else '=' :: text))
  | text => some (String.ofList text)

/-- What letters attached to a flag ask for (the loop of `consume_optional`): each is a flag, up to one
that takes what comes after it as its value. -/
def letters : List Char → Option (List Request)
  | [] => some []
  | c :: rest =>
    match names.lookup (String.ofList ['-', c]) with
    | none => if rules = .early ∨ c = '-' then none else some [.stray]
    | some setting =>
      if setting.takesValue then some [.value setting (rules.valueAfter rest)]
      else if rules = .current ∧ rest.head? = some '=' then none
      else (letters rest).map (.flag setting :: ·)

/-- What an option word asks for, unless something is attached to a flag that cannot have it. -/
def requests (found : Match) : Option (List Request) :=
  if found.setting.takesValue then some [.value found.setting (found.attached.map Attached.text)]
  else
    match found.attached with
    | none => some [.flag found.setting]
    | some (.afterEquals text) =>
      if rules = .current ∨ found.long ∨ text.isEmpty then none
      else (rules.letters text.toList).map (.flag found.setting :: ·)
    | some (.afterLetter text) => (rules.letters text.toList).map (.flag found.setting :: ·)

/-- The text that a value is kept as, if it is kept (`_get_values`). -/
def kept (value : String) : Option String :=
  if rules = .early ∧ value = "--" then none else some value

end Rules

/-! ## Reading the words -/

/-- Why there is nothing to do: wrong usage, or a request for help. -/
inductive Stop where
  | usage
  | help
  deriving DecidableEq, Repr

/-- What the words so far ask for; `strays` says that some of them have no place. -/
structure Reading where
  program : Option String
  sourceMode : Bool
  output : Option (Option String)
  root : Option String
  verbose : Bool
  tracebackJson : Bool
  strays : Bool
  deriving DecidableEq, Repr

def Reading.empty : Reading := ⟨none, false, none, none, false, false, false⟩

def Reading.flag (r : Reading) : Setting → Except Stop Reading
  | .help => .error .help
  | .source => .ok { r with sourceMode := true }
  | .verbose => .ok { r with verbose := true }
  | .tracebackJson => .ok { r with tracebackJson := true }
  | .output | .root => .error .usage

/-- Takes a positional word: the first one is the program. -/
def Reading.positional (r : Reading) (word : String) : Reading :=
  match r.program with
  | none => { r with program := some word }
  | some _ => { r with strays := true }

section

variable (rules : Rules)

/-- Applies a setting with a value. A root without a text is the empty text. -/
def Reading.setValue (r : Reading) (setting : Setting) (value : String) : Reading :=
  match setting with
  | .output => { r with output := some (rules.kept value) }
  | .root => { r with root := some ((rules.kept value).getD "") }
  | _ => r

/-- Applies requests in order; `next` is the value of one that has none attached. -/
def Reading.apply (r : Reading) (next : String) : List Request → Except Stop Reading
  | [] => .ok r
  | .flag setting :: requests =>
    match r.flag setting with
    | .ok r => r.apply next requests
    | .error stop => .error stop
  | .value setting attached :: requests =>
    (r.setValue rules setting (attached.getD next)).apply next requests
  | .stray :: requests => { r with strays := true }.apply next requests

def needNext (requests : List Request) : Bool :=
  requests.any fun
    | .value _ none => true
    | _ => false

/-- The words from one of them on (`_parse_known_args`); `justRead` says that the one before was taken as
the program. -/
def readWords (r : Reading) (justRead : Bool) : List String → Except Stop Reading
  | [] => .ok r
  | word :: words =>
    if word == "--" then
      match r.program, words with
      | none, [] => .ok r
      | none, program :: rest =>
        .ok { r with program := some program, strays := r.strays || !rest.isEmpty }
      | some _, rest => .ok { r with strays := r.strays || !justRead || !rest.isEmpty }
    else
      match classify word with
      | .ambiguous => .error .usage
      | .positional => readWords (r.positional word) r.program.isNone words
      | .unknown => readWords { r with strays := true } false words
      | .option found =>
        match rules.requests found with
        | none => .error .usage
        | some requests =>
          if needNext requests then
            match words with
            | [] => .error .usage
            | value :: words =>
              if value != "--" && classify value == .positional then
                match r.apply rules value requests with
                | .ok r => readWords r false words
                | .error stop => .error stop
              else .error .usage
          else
            match r.apply rules "" requests with
            | .ok r => readWords r false words
            | .error stop => .error stop

/-- What the words ask for (`parse_args`). A word that may be short for several options is wrong
wherever it stands before `--`, and so it is found first. -/
def parse (words : List String) : Except Stop Arguments :=
  if ((words.takeWhile (· != "--")).any fun w => classify w == .ambiguous) then .error .usage
  else
    match readWords rules .empty false words with
    | .error stop => .error stop
    | .ok r =>
      match r.program, r.strays with
      | some program, false =>
        .ok ⟨program, r.sourceMode, r.output, r.root, r.verbose, r.tracebackJson⟩
      | _, _ => .error .usage

end

end Arguments

end ScriptLang
