import MicroAsm.CommandLine.Assembler
import MicroAsm.CommandLine.Disassembler
import MicroAsm.Proofs.PlainNames
/-!
Options among the words of a command line, and what is relied on from the parsers of both commands:
where the path of an output comes from, and which requests words without options of their own make.
-/
namespace MicroAsm

/-- A word with an option, and the value that is attached to it. -/
inductive WritesOption (long : Text) (short : Option Char) : Text → Option Text → Prop where
  | long : WritesOption long short ("--".toList ++ long) none
  | longAttached (value : Text) :
      WritesOption long short ("--".toList ++ long ++ '=' :: value) (some value)
  | short (c : Char) (h : short = some c) : WritesOption long short ['-', c] none
  | shortAttached (c : Char) (h : short = some c) (d : Char) (hd : d ≠ '=') (value : Text) :
      WritesOption long short ('-' :: c :: d :: value) (some (d :: value))
  | shortEquals (c : Char) (h : short = some c) (value : Text) :
      WritesOption long short ('-' :: c :: '=' :: value) (some value)

/-- Words that give an option a value, up to the end of the options. A value in a word of its own
does not look like an option; a single hyphen does not. -/
inductive Given (long : Text) (short : Option Char) (value : Text) : List Text → Prop where
  | attached {word : Text} {words : List Text} (h : WritesOption long short word (some value)) :
      Given long short value (word :: words)
  | separate {word : Text} {words : List Text} (h : WritesOption long short word none)
      (hvalue : ∀ c s, value ≠ '-' :: c :: s) : Given long short value (word :: value :: words)
  | later {word : Text} {words : List Text} (hword : word ≠ "--".toList)
      (h : Given long short value words) : Given long short value (word :: words)

/-- The parser of the assembler takes the output from its option, which has a default, and a source
and an image by plain names. -/
structure Assembler.Parses (parse : List Text → Except Stop Request) : Prop where
  given : ∀ {args request value}, parse args = .ok request →
    Given "output".toList (some 'o') value args → request.output = value
  output : ∀ {args request}, parse args = .ok request →
    request.output = "a.out".toList ∨ Given "output".toList (some 'o') request.output args
  plain : ∀ {src img}, PlainName src → PlainName img →
    parse [src, "-o".toList, img] = .ok ⟨src, img, .bin, false⟩

def Disassembler.subcommands : List Text := ["list".toList, "analyze".toList, "help".toList]

/-- The parser of the disassembler takes an output from the option of a subcommand, and the names of
an image and a source from the words before it. -/
structure Disassembler.Parses (parse : List Text → Except Stop Request) : Prop where
  output : ∀ {args request path}, parse args = .ok request → request.output = some path →
    ∃ front subcommand behind, args = front ++ subcommand :: behind ∧
      (subcommand = "list".toList ∨ subcommand = "analyze".toList) ∧
      Given "out".toList none path behind
  named : ∀ {src img}, PlainName src → PlainName img → img ∉ subcommands →
    parse [img, "--source".toList, src, "list".toList] = .ok ⟨img, some src, .listing, none⟩
  list : ∀ {img}, img ≠ [] → img.head? ≠ some '-' → img ∉ subcommands →
    parse [img, "list".toList] = .ok ⟨img, none, .listing, none⟩
  analyze : ∀ {img}, img ≠ [] → img.head? ≠ some '-' → img ∉ subcommands →
    parse [img, "analyze".toList] = .ok ⟨img, none, .edges, none⟩

end MicroAsm
