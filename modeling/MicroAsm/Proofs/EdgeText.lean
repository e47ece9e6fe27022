import MicroAsm.Proofs.CommandRuns
import MicroAsm.Proofs.Exports
import MicroAsm.Proofs.Parsers
import MicroAsm.Proofs.TargetNames
/-!
The edges of an image as text, one on a line, from which they are all read back. With names made up
for branch targets, a run without a source prints the listing or these lines for every image.
-/
namespace MicroAsm
open Text

def readNumber? (s : Text) : Option Address :=
  match Json.readNat s with
  | some (n, []) => if n < 256 then some (UInt8.ofNat n) else none
  | _ => none

/-- An address by its number, or by the name that is made up from it. -/
def readAddress? : Text → Option Address
  | 'L' :: digits => readNumber? digits
  | digits => readNumber? digits

def readKind? (s : Text) : Option EdgeKind :=
  [EdgeKind.fallthrough, .branch, .condBranch].find? fun kind => kind.name ++ [')'] == s

def readEdge? (line : Text) : Option Edge := do
  let (source, s) := line.span (· != ' ')
  let (target, s) := (← " -> ".toList.isPrefixOf? s).span (· != ' ')
  let kind ← " (".toList.isPrefixOf? s
  return ⟨← readAddress? source, ← readAddress? target, ← readKind? kind⟩

def readEdges? (s : Text) : Option (List Edge) := (lines s).mapM readEdge?

/-- The line of an edge. -/
def Program.edgeLine (p : Program) (e : Edge) : Text :=
  p.shownAddress e.source ++ " -> ".toList ++ p.shownAddress e.target ++ " (".toList ++
    e.kind.name ++ [')']

section Edges
variable {p : Program} {image : Image}

theorem readNumber?_decimal (pc : Address) : readNumber? (decimal pc.toNat) = some pc := by
  have hend : ([] : Text).head?.all (!·.isDigit) = true := rfl
  have hread := Json.readNat_decimal pc.toNat hend
  rw [List.append_nil] at hread
  rw [readNumber?, hread]
  simp [pc.toNat_lt]

theorem readAddress?_shownAddress (p : Program) (pc : Address) :
    readAddress? (p.shownAddress pc) = some pc := by
  unfold Program.shownAddress
  split
  · exact readNumber?_decimal pc
  · have hname : ∀ s, decimal pc.toNat ≠ 'L' :: s := by
      intro s hs
      exact notMem_decimal (show 'L'.isDigit = false by decide) _ (hs ▸ List.mem_cons_self)
    rw [readAddress?.eq_2 _ hname]
    exact readNumber?_decimal pc

theorem blank_notMem_shownAddress (p : Program) (pc : Address) : ' ' ∉ p.shownAddress pc := by
  have hdecimal : ' ' ∉ decimal pc.toNat := notMem_decimal (by decide) _
  unfold Program.shownAddress
  split
  · exact fun hm => (List.mem_cons.1 hm).elim (by decide) hdecimal
  · exact hdecimal

theorem span_blank {s : Text} (h : ' ' ∉ s) (t : Text) :
    (s ++ ' ' :: t).span (· != ' ') = (s, ' ' :: t) := by
  rw [List.span_eq_takeWhile_dropWhile, takeWhile_append_cons h, dropWhile_append_cons h]

theorem readKind?_name (kind : EdgeKind) : readKind? (kind.name ++ [')']) = some kind := by
  cases kind <;> decide

theorem readEdge?_edgeLine (p : Program) (e : Edge) : readEdge? (p.edgeLine e) = some e := by
  have hprefix (front rest : Text) : front.isPrefixOf? (front ++ rest) = some rest :=
    isPrefixOf?_eq_some_iff.2 rfl
  have hsource (rest : Text) :
      (p.shownAddress e.source ++ (" -> ".toList ++ rest)).span (· != ' ') =
        (p.shownAddress e.source, " -> ".toList ++ rest) :=
    span_blank (blank_notMem_shownAddress p e.source) _
  have htarget (rest : Text) : (p.shownAddress e.target ++ (" (".toList ++ rest)).span (· != ' ') =
      (p.shownAddress e.target, " (".toList ++ rest) :=
    span_blank (blank_notMem_shownAddress p e.target) _
  unfold readEdge? Program.edgeLine
  simp only [List.append_assoc, hsource, htarget, hprefix, readAddress?_shownAddress,
    readKind?_name, Option.bind_eq_bind, Option.bind_some]
  rfl

theorem edgeRow_nameTargets (h : image.labels = {}) (e : Edge) :
    image.nameTargets.edgeRow e = image.program.edgeLine e ++ ['\n'] := by
  unfold Image.edgeRow Program.edgeLine
  rw [Image.nameOf_nameTargets h, Image.nameOf_nameTargets h]
  simp only [List.append_assoc]
  rfl

theorem oneLine_edgeLine (p : Program) (e : Edge) : OneLine (p.edgeLine e) := by
  have hshown (pc : Address) : OneLine (p.shownAddress pc) := by
    unfold Program.shownAddress
    split
    · exact oneLine_targetName _
    · exact oneLine_decimal _
  have harrow : OneLine " -> ".toList := by decide
  have hopen : OneLine " (".toList := by decide
  have hkind : OneLine (e.kind.name ++ [')']) := by cases e.kind <;> decide
  rw [Program.edgeLine, List.append_assoc _ e.kind.name]
  exact ((((hshown e.source).append harrow).append (hshown e.target)).append hopen).append hkind

theorem lines_edgeText (h : image.labels = {}) :
    lines image.nameTargets.edgeText = image.program.edges.map image.program.edgeLine := by
  rw [Image.edgeText, List.map_eq_flatMap]
  refine lines_flatMap (fun e _ => ?_) fun e _ s hs => ?_
  · rw [edgeRow_nameTargets h]
    simp
  · rw [List.mem_singleton.1 hs]
    exact oneLine_edgeLine image.program e

/-- All edges are read back from their text. -/
theorem readEdges?_edgeText (h : image.labels = {}) :
    readEdges? image.nameTargets.edgeText = some image.program.edges := by
  rw [readEdges?, lines_edgeText h]
  exact mapM_map_eq_some (readEdge?_edgeLine image.program) image.program.edges

end Edges

/-- A run ends well, and a text is printed, or written where the run is asked to. -/
structure Command.Emits {Request : Type} (command : Command Request) (args : List Text)
    (files : Files) (output : Option Text) (text : Text) : Prop where
  printed : output = none → command.run args files = ⟨0, text, [], files⟩
  written : ∀ path files', output = some path → files.write path (toUtf8 text) = .ok files' →
    command.run args files = ⟨0, [], [], files'⟩

theorem Disassembler.emits_view {parse : List Text → Except Stop Request} {writeJson : Json → Text}
    {args : List Text} {files : Files} {request : Request} {bytes : Bytes} {image : Image}
    (hparse : parse args = .ok request) (hsource : request.source = none)
    (hread : files.read request.image = .ok bytes) (hload : Image.ofBytes bytes = .ok image) :
    (command parse writeJson).Emits args files request.output
      (request.view.render writeJson image.nameTargets) := by
  have hname : (nameImage image request.source).perform { files } =
      (.ok image.nameTargets, { files }) := by
    rw [hsource]
    rfl
  constructor
  · intro houtput
    exact run_of_named hparse hread hload hname houtput
  · intro path files' houtput hwrite
    exact run_of_written hparse hread hload hname houtput hwrite

/-- What the runs without a source print of an image that is loaded. The listing has the rows of the
instructions in the order of their addresses, and above a row the line of its name if and only if
some instruction branches there; a row has the text of its instruction, with the name in the place
of the number of a branch target. The edges show an address by its name if and only if some
instruction branches there, and otherwise by its number, so that they can be read back. -/
theorem made_up_names_exact {parse : List Text → Except Stop Disassembler.Request}
    (hdis : Disassembler.Parses parse) (writeJson : Json → Text) {bytes : Bytes} {image : Image}
    (hload : Image.ofBytes bytes = .ok image) : ∃ listing edges : Text,
    (∀ args files request, parse args = .ok request → request.source = none →
      files.read request.image = .ok bytes →
      (request.view = .listing →
        (Disassembler.command parse writeJson).Emits args files request.output listing) ∧
      (request.view = .edges →
        (Disassembler.command parse writeJson).Emits args files request.output edges)) ∧
    (∀ (img : Text) (files : Files), img ≠ [] → img.head? ≠ some '-' →
      img ∉ ["list".toList, "analyze".toList, "help".toList] → files.read img = .ok bytes →
      (Disassembler.command parse writeJson).run [img, "list".toList] files =
        ⟨0, listing, [], files⟩ ∧
      (Disassembler.command parse writeJson).run [img, "analyze".toList] files =
        ⟨0, edges, [], files⟩) ∧
    lines listing = image.program.instructions.zipIdx.flatMap (fun (i, pc) =>
      (if image.program.BranchesTo pc then ['L' :: decimal pc ++ [':']] else []) ++
        [i.rowLine pc i.namedText]) ∧
    (∀ i ∈ image.program.instructions, (i.jumpTarget? = none → i.namedText = i.text) ∧
      ∀ t, i.jumpTarget? = some t → ∃ front,
        i.text = front ++ ", L=".toList ++ decimal t.toNat ∧
        i.namedText = front ++ ", L=".toList ++ 'L' :: decimal t.toNat) ∧
    lines edges = image.program.edges.map image.program.edgeLine ∧
    Function.Injective image.program.shownAddress ∧
    readEdges? edges = some image.program.edges := by
  obtain ⟨hp, hnone⟩ := Image.ofBytes_eq_ok_iff.1 hload
  obtain ⟨hfits, -⟩ := Program.ofBytes_eq_ok_iff.1 hp
  refine ⟨image.nameTargets.listing, image.nameTargets.edgeText, ?_, ?_,
    lines_nameTargets_listing hnone hfits, ?_, lines_edgeText hnone, shownAddress_injective _,
    readEdges?_edgeText hnone⟩
  · intro args files request hparse hsource hread
    have hemits : (Disassembler.command parse writeJson).Emits args files request.output _ :=
      Disassembler.emits_view hparse hsource hread hload
    constructor
    · intro hview
      rwa [hview] at hemits
    · intro hview
      rwa [hview] at hemits
  · intro img files hne hhyphen hsub hread
    constructor
    · exact (Disassembler.emits_view (hdis.list hne hhyphen hsub) rfl hread hload).printed rfl
    · exact (Disassembler.emits_view (hdis.analyze hne hhyphen hsub) rfl hread hload).printed rfl
  · intro i hi
    refine ⟨fun ht => textWith_of_no_target ht _, fun t ht => ?_⟩
    obtain ⟨front, hfront⟩ := exists_textWith_eq (hfits.inRange i hi) ht
    exact ⟨front, hfront fun _ => none, hfront fun t => some (targetName t.toNat)⟩

/-- A directory with the image of two branches, one of which leads behind the image. -/
def twoBranches : Files := ⟨[("i".toList, [1, 16, 192, 0, 7, 144, 0, 0])]⟩

/-- Both runs on this image. -/
theorem branches_within_and_behind : ∃ listing edges : Text,
    (Disassembler.command Disassembler.parse Json.pretty).run ["i".toList, "list".toList]
      twoBranches = ⟨0, listing, [], twoBranches⟩ ∧
    lines listing = ["    0: 00c01001  DECNZ, L=L1".toList, "L1:".toList,
      "    1: 00009007  JMP, L=L7".toList] ∧
    (Disassembler.command Disassembler.parse Json.pretty).run ["i".toList, "analyze".toList]
      twoBranches = ⟨0, edges, [], twoBranches⟩ ∧
    lines edges = ["0 -> L1 (CondBranch)".toList, "0 -> L1 (Fallthrough)".toList,
      "L1 -> L7 (Branch)".toList] ∧
    readEdges? edges = some [⟨0, 1, .condBranch⟩, ⟨0, 1, .fallthrough⟩, ⟨1, 7, .branch⟩] := by
  have hload : Image.ofBytes [1, 16, 192, 0, 7, 144, 0, 0] =
      .ok { program := ⟨[{ c := 3, value := 1 }, { j := 1, value := 7 }]⟩ } := by
    decide +kernel
  have hread : twoBranches.read "i".toList = .ok [1, 16, 192, 0, 7, 144, 0, 0] := by decide +kernel
  obtain ⟨listing, edges, -, hruns, hlisting, -, hedges, -, hback⟩ :=
    made_up_names_exact Disassembler.parses Json.pretty hload
  obtain ⟨hlist, hanalyze⟩ := hruns "i".toList twoBranches (by decide) (by decide) (by decide) hread
  refine ⟨listing, edges, hlist, hlisting.trans ?_, hanalyze, hedges.trans ?_, hback.trans ?_⟩
  · decide +kernel
  · decide +kernel
  · decide +kernel

end MicroAsm
