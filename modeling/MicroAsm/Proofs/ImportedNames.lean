import MicroAsm.Disassembly
import MicroAsm.Proofs.ImageFormat
/-!
The names that an image takes from sources. Whatever is imported, an address keeps the first name
that it was offered, and an import tells whether its source assembles to the bytes of the image.
-/
namespace MicroAsm
open Text

/-- The labels of a source in the order of their definition. One that does not assemble has none to
offer. -/
def offers (source : Text) : List (Text × Address) :=
  match assemble source with
  | .ok a => a.labels.entries
  | .error _ => []

namespace Image

def importAll (image : Image) (sources : List Text) : Image :=
  sources.foldl (fun image source => (image.importSource source).2) image

section Import
variable {image : Image} {source : Text} {a : Assembly} {d : Diagnostic}

theorem importSource_of_ok (h : assemble source = .ok a) : image.importSource source =
    (.ok (a.program == image.program),
      { image with labels := image.labels.offerLabels a.labels }) := by
  simp [importSource, h]

theorem importSource_of_error (h : assemble source = .error d) :
    image.importSource source = (.error d, image) := by
  simp [importSource, h]

theorem program_importSource : (image.importSource source).2.program = image.program := by
  cases h : assemble source with
  | ok a => rw [importSource_of_ok h]
  | error d => rw [importSource_of_error h]

/-- One step: only an address without a name takes a new one. -/
theorem get?_importSource (pc : Address) : (image.importSource source).2.labels.get? pc =
    (image.labels.get? pc).or (LabelTable.nameAt? ⟨offers source⟩ pc) := by
  unfold offers
  cases h : assemble source with
  | ok a =>
    rw [importSource_of_ok h]
    exact AddressNames.get?_offerLabels image.labels pc a.labels
  | error d =>
    rw [importSource_of_error h]
    exact Option.or_none.symm

end Import

section Run
variable (image : Image) (sources : List Text)

theorem program_importAll : (image.importAll sources).program = image.program := by
  induction sources generalizing image with
  | nil => rfl
  | cons source sources ih => exact (ih _).trans program_importSource

/-- A whole run: the offers of all sources count in their order. -/
theorem get?_importAll (pc : Address) : (image.importAll sources).labels.get? pc =
    (image.labels.get? pc).or (LabelTable.nameAt? ⟨sources.flatMap offers⟩ pc) := by
  induction sources generalizing image with
  | nil => exact Option.or_none.symm
  | cons source sources ih =>
    have hoffers : LabelTable.nameAt? ⟨(source :: sources).flatMap offers⟩ pc =
        (LabelTable.nameAt? ⟨offers source⟩ pc).or
          (LabelTable.nameAt? ⟨sources.flatMap offers⟩ pc) :=
      LabelTable.nameAt?_append ⟨offers source⟩ ⟨sources.flatMap offers⟩ pc
    rw [hoffers, ← Option.or_assoc, ← get?_importSource]
    exact ih _

end Run
end Image

theorem mem_offers_iff {source : Text} {e : Text × Address} :
    e ∈ offers source ↔ ∃ a, assemble source = .ok a ∧ e ∈ a.labels.entries := by
  unfold offers
  cases assemble source with
  | ok a => simp
  | error d => simp

theorem Program.toBytes_eq_iff_words (p q : Program) :
    p.toBytes = q.toBytes ↔ p.words = q.words := by
  constructor
  · intro h
    have hwords := congrArg wordsOfBytes h
    unfold Program.toBytes at hwords
    rwa [wordsOfBytes_flatMap, wordsOfBytes_flatMap] at hwords
  · exact congrArg (List.flatMap Word.toBytes)

/-- Programs that images can hold are told apart by their words. -/
theorem Program.Fits.eq_iff_words {p q : Program} (hp : p.Fits) (hq : q.Fits) :
    p = q ↔ p.words = q.words := by
  constructor
  · exact congrArg Program.words
  · intro h
    have hload := Program.ofBytes_eq_ok_iff.2 ⟨hp, (p.toBytes_eq_iff_words q).2 h⟩
    rw [Program.ofBytes_eq_ok_iff.2 ⟨hq, rfl⟩] at hload
    exact (Except.ok.inj hload).symm

theorem Image.ofBytes_eq_ok_iff {bytes : Bytes} {image : Image} :
    Image.ofBytes bytes = .ok image ↔
      Program.ofBytes bytes = .ok image.program ∧ image.labels = {} := by
  unfold Image.ofBytes
  rw [bind_eq_ok_iff]
  constructor
  · rintro ⟨p, hp, h⟩
    obtain rfl := Except.ok.inj h
    exact ⟨hp, rfl⟩
  · rintro ⟨hp, hnone⟩
    exact ⟨_, hp, by rw [← hnone]; rfl⟩

/-- Importing sources one after the other into a loaded image. A source that does not assemble is
reported and changes nothing; any other one is found to match if and only if it assembles to the
very bytes of the image. In the end the image shows, for each address, the first name that any of
the sources defines there, in the order of the sources and of the definitions in them. -/
theorem imports_keep_first_names {bytes : Bytes} {image : Image}
    (hload : Image.ofBytes bytes = .ok image) (sources : List Text) :
    (∀ before source after, sources = before ++ source :: after →
      (∀ d, assemble source = .error d →
        (image.importAll before).importSource source = (.error d, image.importAll before)) ∧
      ∀ a, assemble source = .ok a → ∃ same named,
        (image.importAll before).importSource source = (.ok same, named) ∧
        (same = true ↔ a.program.toBytes = bytes) ∧
        (a.program = image.program ↔ a.program.words = image.program.words)) ∧
    (∀ pc name, (pc, name) ∈ (image.importAll sources).labels.shown ↔ ∃ earlier later,
      sources.flatMap offers = earlier ++ (name, pc) :: later ∧ ∀ e ∈ earlier, e.2 ≠ pc) ∧
    ∀ pc name, (pc, name) ∈ (image.importAll sources).labels.shown →
      ∃ source ∈ sources, ∃ a, assemble source = .ok a ∧ (name, pc) ∈ a.labels.entries := by
  obtain ⟨hp, hnone⟩ := Image.ofBytes_eq_ok_iff.1 hload
  obtain ⟨hfits, hbytes⟩ := Program.ofBytes_eq_ok_iff.1 hp
  have hfirst (pc : Address) (name : Text) :
      (pc, name) ∈ (image.importAll sources).labels.shown ↔ ∃ earlier later,
        sources.flatMap offers = earlier ++ (name, pc) :: later ∧ ∀ e ∈ earlier, e.2 ≠ pc := by
    rw [AddressNames.mem_shown_iff, Image.get?_importAll, hnone]
    exact LabelTable.nameAt?_eq_some_iff
  refine ⟨?_, hfirst, ?_⟩
  · intro before source after _
    refine ⟨fun d h => Image.importSource_of_error h, ?_⟩
    intro a h
    have heq := (fits_of_assemble h).eq_iff_words hfits
    refine ⟨_, _, Image.importSource_of_ok h, ?_, heq⟩
    rw [Image.program_importAll, beq_iff_eq, heq, ← hbytes]
    exact (Program.toBytes_eq_iff_words _ _).symm
  · intro pc name h
    obtain ⟨earlier, later, hsplit, -⟩ := (hfirst pc name).1 h
    have hmem : (name, pc) ∈ sources.flatMap offers := by
      rw [hsplit]
      exact List.mem_append_right earlier List.mem_cons_self
    obtain ⟨source, hsource, he⟩ := List.mem_flatMap.1 hmem
    exact ⟨source, hsource, mem_offers_iff.1 he⟩

/-- The second source has no colon; the third one is of another image, and names one address. -/
theorem three_sources_imported : ∃ image, Image.ofBytes [0, 16, 128, 0] = .ok image ∧
    (∃ named, image.importSource "a: DEC\n".toList = (.ok true, named)) ∧
    (image.importAll ["a: DEC\n".toList]).importSource "b".toList =
      (.error ⟨some 1, .malformedLabel⟩, image.importAll ["a: DEC\n".toList]) ∧
    (∃ named, (image.importAll ["a: DEC\n".toList, "b".toList]).importSource
      "c: A=D\nd:\n".toList = (.ok false, named)) ∧
    (0, "A".toList) ∈ (image.importAll
      ["a: DEC\n".toList, "b".toList, "c: A=D\nd:\n".toList]).labels.shown ∧
    (1, "D".toList) ∈ (image.importAll
      ["a: DEC\n".toList, "b".toList, "c: A=D\nd:\n".toList]).labels.shown := by
  have hload : Image.ofBytes [0, 16, 128, 0] = .ok { program := ⟨[{ c := 2 }]⟩ } := by
    decide +kernel
  have hown : assemble "a: DEC\n".toList = .ok ⟨⟨[("A".toList, 0)]⟩, ⟨[{ c := 2 }]⟩⟩ := by
    decide +kernel
  have hbad : assemble "b".toList = .error ⟨some 1, .malformedLabel⟩ := by decide +kernel
  have hstale : assemble "c: A=D\nd:\n".toList =
      .ok ⟨⟨[("C".toList, 0), ("D".toList, 1)]⟩, ⟨[{ a := 1 }]⟩⟩ := by
    decide +kernel
  have hoffers : ["a: DEC\n".toList, "b".toList, "c: A=D\nd:\n".toList].flatMap offers =
      [("A".toList, 0), ("C".toList, 0), ("D".toList, 1)] := by
    decide +kernel
  obtain ⟨hsteps, hshown, -⟩ := imports_keep_first_names hload
    ["a: DEC\n".toList, "b".toList, "c: A=D\nd:\n".toList]
  refine ⟨_, hload, ?_, (hsteps _ _ _ rfl).1 _ hbad, ?_, (hshown _ _).2 ?_, (hshown _ _).2 ?_⟩
  · obtain ⟨same, named, hnext, hsame, -⟩ := (hsteps [] _ _ rfl).2 _ hown
    obtain rfl : same = true := hsame.2 (by decide +kernel)
    exact ⟨named, hnext⟩
  · obtain ⟨same, named, hnext, hsame, -⟩ := (hsteps [_, _] _ _ rfl).2 _ hstale
    have hfalse : same = false := by
      rw [← Bool.not_eq_true, hsame]
      decide +kernel
    subst hfalse
    exact ⟨named, hnext⟩
  · exact ⟨[], _, hoffers, by simp⟩
  · exact ⟨[("A".toList, 0), ("C".toList, 0)], [], hoffers, by decide⟩

end MicroAsm
