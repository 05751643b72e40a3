import Lintel.Proofs.Linter.Blank
import Lintel.Proofs.Text.Places

/-!
# Plain output and its lines

A finding of plain output is a longest stretch of it without line ends that holds something else
than white space, word for word. A line end is a line feed, a carriage return or the one behind the
other, and none of them is told from the rest: cut or joined at any of them, or with some of them
replaced, the output has the same findings.
-/
namespace Lintel.Linter

open Text (Blank PieceAt placedFrom)

def lineEnds : List String := ["\n", "\r", "\r\n"]

/-- Two texts that differ in their line ends at most. -/
inductive Respelled : List Char → List Char → Prop
  | nil : Respelled [] []
  | keep (c : Char) {as bs : List Char} (hrest : Respelled as bs) : Respelled (c :: as) (c :: bs)
  | swap {s t : String} {as bs : List Char} (hs : s ∈ lineEnds) (ht : t ∈ lineEnds)
      (hrest : Respelled as bs) : Respelled (s.toList ++ as) (t.toList ++ bs)

def isLoud (line : List Char) : Bool := ! (Text.trim line).isEmpty

theorem isLoud_iff {line : List Char} : isLoud line = true ↔ ¬ Blank line := by
  rw [isLoud, Bool.not_eq_true', ← Bool.not_eq_true, List.isEmpty_iff, Text.trim_eq_nil_iff]

def loudLines (cs : List Char) : List (List Char) := (Text.pieces isLineEnd cs).filter isLoud

theorem plainFindings_eq (text : String) (file : Path) :
    plainFindings text file =
      (loudLines text.toList).map fun line => .plain file (String.ofList line) := rfl

theorem loudLines_append_cons {c : Char} (hc : isLineEnd c = true) (as bs : List Char) :
    loudLines (as ++ c :: bs) = loudLines as ++ loudLines bs := by
  rw [loudLines, Text.pieces_append_sep hc, List.filter_append]
  rfl

theorem loudLines_append {s : String} (hs : s ∈ lineEnds) (as bs : List Char) :
    loudLines (as ++ (s.toList ++ bs)) = loudLines as ++ loudLines bs := by
  simp only [lineEnds, List.mem_cons, List.not_mem_nil, or_false] at hs
  rcases hs with rfl | rfl | rfl
  · exact loudLines_append_cons rfl as bs
  · exact loudLines_append_cons rfl as bs
  · -- between the two characters stands an empty line
    have hpair : "\r\n".toList ++ bs = '\r' :: ([] ++ '\n' :: bs) := rfl
    have hempty : loudLines [] = [] := rfl
    rw [hpair, loudLines_append_cons rfl, loudLines_append_cons rfl, hempty, List.nil_append]

theorem loudLines_of_respelled {as bs : List Char} (h : Respelled as bs) (front : List Char) :
    loudLines (front ++ bs) = loudLines (front ++ as) := by
  -- a line end is a cut, so what is in front of it has no say in what follows
  induction h generalizing front with
  | nil => rfl
  | keep c _ ih => rw [List.append_cons, ih, ← List.append_cons]
  | swap hs ht _ ih =>
    have hrest := ih []
    rw [List.nil_append, List.nil_append] at hrest
    rw [loudLines_append hs, loudLines_append ht, hrest]

theorem unbroken_of_mem_loudLines {cs line : List Char} (h : line ∈ loudLines cs) :
    (∀ c ∈ line, isLineEnd c = false) ∧ isLoud line = true := by
  obtain ⟨hpiece, hloud⟩ := List.mem_filter.1 h
  exact ⟨Text.no_sep_of_mem_pieces hpiece, hloud⟩

theorem loudLines_intercalate {ls : List (List Char)}
    (h : ∀ line ∈ ls, (∀ c ∈ line, isLineEnd c = false) ∧ isLoud line = true) :
    loudLines (['\n'].intercalate ls) = ls := by
  have hone {line : List Char} (hline : (∀ c ∈ line, isLineEnd c = false) ∧ isLoud line = true) :
      loudLines line = [line] := by
    rw [loudLines, Text.pieces_of_no_sep hline.1, List.filter_cons_of_pos hline.2, List.filter_nil]
  induction ls with
  | nil => rfl
  | cons line ls ih =>
    rw [List.forall_mem_cons] at h
    cases ls with
    | nil => rw [List.intercalate_singleton, hone h.1]
    | cons next ls =>
      rw [List.intercalate_cons_cons, List.append_assoc, List.singleton_append,
        loudLines_append_cons rfl, hone h.1, ih h.2, List.singleton_append]

theorem messages_plainFindings (text : String) (file : Path) :
    ((plainFindings text file).map (·.message)).map String.toList = loudLines text.toList := by
  rw [plainFindings_eq, List.map_map, List.map_map]
  simp [Function.comp_def, Finding.plain]

/-- The findings of plain output are, in order and word for word, its longest stretches without line
ends that are not blank. So any of the three line ends divides the findings, each may stand for
another, and the messages, one to a line, have the same findings again. -/
theorem plainFindings_lossless (file : Path) :
    (∀ text, ∃ placed : List (Nat × List Char), placed.Pairwise (fun s t => s.1 < t.1) ∧
      (∀ i line, (i, line) ∈ placed ↔ PieceAt isLineEnd text.toList i line ∧ ¬ Blank line) ∧
      plainFindings text file =
        placed.map fun s => ⟨file, String.ofList s.2, none, none, none, none, none⟩) ∧
    (∀ a b, ∀ s ∈ lineEnds,
      plainFindings (a ++ s ++ b) file = plainFindings a file ++ plainFindings b file) ∧
    (∀ text text' : String, Respelled text.toList text'.toList →
      plainFindings text' file = plainFindings text file) ∧
    ∀ text, plainFindings ("\n".intercalate ((plainFindings text file).map (·.message))) file =
      plainFindings text file := by
  refine ⟨fun text => ?_, fun a b s hs => ?_, fun text text' h => ?_, fun text => ?_⟩
  · refine ⟨(placedFrom 0 (Text.pieces isLineEnd text.toList)).filter (isLoud ·.2),
      (Text.pairwise_placedFrom 0 _).filter _, fun i line => ?_, ?_⟩
    · rw [List.mem_filter, Text.mem_placedFrom_pieces, isLoud_iff]
      simp
    · have hlines := Text.map_snd_placedFrom 0 (Text.pieces isLineEnd text.toList)
      rw [plainFindings_eq, loudLines, ← hlines, List.filter_map, List.map_map, hlines]
      rfl
  · rw [plainFindings_eq, plainFindings_eq, plainFindings_eq, String.toList_append,
      String.toList_append, List.append_assoc, loudLines_append hs, List.map_append]
  · have hlines := loudLines_of_respelled h []
    rw [List.nil_append, List.nil_append] at hlines
    rw [plainFindings_eq, plainFindings_eq, hlines]
  · have hlines : loudLines (['\n'].intercalate (loudLines text.toList)) = loudLines text.toList :=
      loudLines_intercalate fun _ hline => unbroken_of_mem_loudLines hline
    rw [plainFindings_eq, String.toList_intercalate, messages_plainFindings]
    exact congrArg _ hlines

theorem plainFindings_lossless_mixed :
    let file := Path.ofString "/a"
    let found := fun text => plainFindings text file
    found "x \r\n\t\n y\r" = [.plain file "x ", .plain file " y"] ∧
    found ("x \r" ++ "\r\n" ++ "\t\n y\r") = found "x \r" ++ found "\t\n y\r" ∧
    Respelled "x \r\n\t\n y\r".toList "x \n\t\r\n y\r".toList ∧
    found "x \n\t\r\n y\r" = found "x \r\n\t\n y\r" ∧
    found ("\n".intercalate ((found "x \r\n\t\n y\r").map (·.message))) =
      found "x \r\n\t\n y\r" := by
  intro file found
  obtain ⟨-, happend, hrespelled, hagain⟩ := plainFindings_lossless file
  have hswap : Respelled "x \r\n\t\n y\r".toList "x \n\t\r\n y\r".toList := by
    apply Respelled.keep 'x'
    apply Respelled.keep ' '
    apply Respelled.swap (s := "\r\n") (t := "\n") (by decide) (by decide)
    apply Respelled.keep '\t'
    apply Respelled.swap (s := "\n") (t := "\r\n") (by decide) (by decide)
    exact .keep ' ' (.keep 'y' (.keep '\r' .nil))
  exact ⟨by decide +kernel, happend _ _ "\r\n" (by decide), hswap, hrespelled _ _ hswap, hagain _⟩

end Lintel.Linter
