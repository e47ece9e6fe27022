import MicroAsm.CommandLine.Command
/-!
Command-line arguments. A grammar names the options of a command and says what they and the
operands do to its settings; a refused step, an unknown option or a missing value is a misuse. An
option takes its value from the same word or from the next one, which must not look like an option.
-/
namespace MicroAsm

inductive OptionAction (σ : Type) where
  | flag (apply : σ → Option σ)
  | value (apply : σ → Text → Option σ)
  | help

structure OptionRule (σ : Type) where
  long : Text
  short : Option Char := none
  action : OptionAction σ

structure Grammar (σ : Type) where
  options : List (OptionRule σ)
  operand : σ → Text → Option σ := fun _ _ => none
  /-- Words in the place of an operand that hand the rest over to a subcommand. -/
  subcommands : List Text := []

inductive Argument where
  | operand (word : Text)
  | long (name : Text) (attached : Option Text)
  | short (letter : Char) (attached : Text)
  | endOfOptions
  deriving DecidableEq, Repr

/-- A single hyphen is an operand. -/
def Argument.ofWord : Text → Argument
  | ['-', '-'] => endOfOptions
  | '-' :: '-' :: s =>
    match s.dropWhile (· != '=') with
    | [] => long s none
    | _ :: value => long (s.takeWhile (· != '=')) (some value)
  | ['-'] => operand ['-']
  | '-' :: c :: s => short c s
  | word => operand word

namespace Grammar

variable {σ : Type}

/-- The action of an option with the value that is attached to it. -/
def option? (g : Grammar σ) : Argument → Option (OptionAction σ × Option Text)
  | .long name attached =>
    (g.options.find? fun r => r.long == name).map fun r => (r.action, attached)
  | .short letter attached =>
    (g.options.find? fun r => r.short == some letter).map fun r =>
      match r.action, attached with
      | .help, _ => (.help, none)
      | action, [] => (action, none)
      | action, '=' :: value => (action, some value)
      | action, value => (action, some value)
  | _ => none

def accept : Option σ → Except Stop σ
  | some settings => .ok settings
  | none => .error (.misuse [])

/-- The settings after all arguments, or up to the name of a subcommand, which is then returned
with the arguments behind it. -/
def parse (g : Grammar σ) (settings : σ) :
    List Text → Except Stop (σ × Option (Text × List Text))
  | [] => .ok (settings, none)
  | word :: words =>
    match Argument.ofWord word with
    | .endOfOptions => do
      return (← words.foldlM (fun settings w => accept (g.operand settings w)) settings, none)
    | .operand w =>
      if g.subcommands.contains w then .ok (settings, some (w, words))
      else do g.parse (← accept (g.operand settings w)) words
    | argument =>
      match g.option? argument with
      | none => .error (.misuse [])
      | some (.help, none) => .error (.help [])
      | some (.flag apply, none) => do g.parse (← accept (apply settings)) words
      | some (.value apply, some value) => do g.parse (← accept (apply settings value)) words
      | some (.value apply, none) =>
        match words with
        | [] => .error (.misuse [])
        | next :: words =>
          match Argument.ofWord next with
          | .operand value => do g.parse (← accept (apply settings value)) words
          | _ => .error (.misuse [])
      | some _ => .error (.misuse [])

end Grammar

/-- A setting that may be given once. -/
def once {α : Type} (old new : Option α) : Option (Option α) :=
  if old.isNone && new.isSome then some new else none

/-- A path has at least one character. -/
def pathValue (word : Text) : Option Text := if word.isEmpty then none else some word

end MicroAsm
