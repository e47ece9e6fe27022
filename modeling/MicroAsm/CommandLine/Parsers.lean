import MicroAsm.CommandLine.Arguments
import MicroAsm.CommandLine.Assembler
import MicroAsm.CommandLine.Disassembler
/-!
Parsers for the arguments of both commands. They leave their messages to others.
-/
namespace MicroAsm

namespace Assembler

def Format.ofWord? (word : Text) : Option Format :=
  if word = "bin".toList then some .bin
  else if word = "verilog".toList then some .verilog
  else if word = "json".toList then some .json
  else none

structure Settings where
  source : Option Text := none
  output : Option Text := none
  format : Option Format := none
  listing : Bool := false
  deriving DecidableEq, Repr

namespace Settings

def withSource (s : Settings) (word : Text) : Option Settings :=
  (once s.source (pathValue word)).map fun source => { s with source }

def withOutput (s : Settings) (word : Text) : Option Settings :=
  (once s.output (pathValue word)).map fun output => { s with output }

def withFormat (s : Settings) (word : Text) : Option Settings :=
  (once s.format (Format.ofWord? word)).map fun format => { s with format }

def withListing (s : Settings) : Option Settings :=
  if s.listing then none else some { s with listing := true }

end Settings

def grammar : Grammar Settings where
  options := [
    { long := "output".toList, short := some 'o', action := .value Settings.withOutput },
    { long := "format".toList, action := .value Settings.withFormat },
    { long := "listing".toList, action := .flag Settings.withListing },
    { long := "help".toList, short := some 'h', action := .help },
    { long := "version".toList, short := some 'V', action := .help }]
  operand := Settings.withSource

def parse (args : List Text) : Except Stop Request := do
  let (s, _) ← grammar.parse {} args
  match s.source with
  | some source =>
    return ⟨source, s.output.getD "a.out".toList, s.format.getD .bin, s.listing⟩
  | none => .error (.misuse [])

end Assembler

namespace Disassembler

def View.ofFormat? (word : Text) : Option View :=
  if word = "text".toList then some .edges
  else if word = "json".toList then some .report
  else none

structure Settings where
  image : Option Text := none
  source : Option Text := none
  deriving DecidableEq, Repr

def Settings.withImage (s : Settings) (word : Text) : Option Settings :=
  (once s.image (pathValue word)).map fun image => { s with image }

def Settings.withSource (s : Settings) (word : Text) : Option Settings :=
  (once s.source (pathValue word)).map fun source => { s with source }

structure ViewSettings where
  view : Option View := none
  output : Option Text := none
  deriving DecidableEq, Repr

def ViewSettings.withFormat (s : ViewSettings) (word : Text) : Option ViewSettings :=
  (once s.view (View.ofFormat? word)).map fun view => { s with view }

def ViewSettings.withOutput (s : ViewSettings) (word : Text) : Option ViewSettings :=
  (once s.output (pathValue word)).map fun output => { s with output }

def grammar : Grammar Settings where
  options := [
    { long := "source".toList, action := .value Settings.withSource },
    { long := "help".toList, short := some 'h', action := .help },
    { long := "version".toList, short := some 'V', action := .help }]
  operand := Settings.withImage
  subcommands := ["list".toList, "analyze".toList, "help".toList]

def listGrammar : Grammar ViewSettings where
  options := [
    { long := "out".toList, action := .value ViewSettings.withOutput },
    { long := "help".toList, short := some 'h', action := .help }]

def analyzeGrammar : Grammar ViewSettings where
  options := { long := "format".toList, action := .value ViewSettings.withFormat } ::
    listGrammar.options

/-- The view that a subcommand and its arguments ask for, and the path to write it to. -/
def parseView (subcommand : Text) (args : List Text) : Except Stop (View × Option Text) :=
  if subcommand = "list".toList then do
    let (s, _) ← listGrammar.parse {} args
    return (.listing, s.output)
  else if subcommand = "analyze".toList then do
    let (s, _) ← analyzeGrammar.parse {} args
    return (s.view.getD .edges, s.output)
  else
    match args with
    | [] => .error (.help [])
    | [topic] => .error (if grammar.subcommands.contains topic then .help [] else .misuse [])
    | _ => .error (.misuse [])

def parse (args : List Text) : Except Stop Request := do
  let (s, rest) ← grammar.parse {} args
  match rest with
  | none => .error (.misuse [])
  | some (subcommand, rest) =>
    let (view, output) ← parseView subcommand rest
    match s.image with
    | some image => return ⟨image, s.source, view, output⟩
    | none => .error (.misuse [])

end Disassembler
end MicroAsm
