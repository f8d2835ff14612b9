import JgreAnalysis.DetectionReports
import JgreAnalysis.IndentedBlocks

/-! The text of the summary. It has a block for each class with findings and a
last one for the helpers, and where no name breaks a line or begins one like an
item the blocks can be read back, with every finding once. -/
namespace JgreAnalysis.SummaryText
open SootModel FrameworkScene ServiceApi ServiceRegistry VulnerabilitiesDetecting DetectionReports
open IndentedBlocks

def readSummary (text : String) : List (String × List String) :=
  (readBlocks '\n' '\t' text.toList).map fun block => (String.ofList block.1, block.2.map String.ofList)

def kHelperTitle : String := "Vulnerabilities in Helper Class:"

def blockTitle (title : String) (count : ℕ) : String := title ++ " (" ++ toString count ++ ")"

/-- No signature of a finding breaks a line, and neither does the title of its
class, which does not begin like an item either. -/
structure Legible (f : Framework) (apis : List ServiceApiClass) (d : Detection) : Prop where
  signatures : ∀ mtd ∈ d.vulSet ++ d.helperVulSet, '\n' ∉ (f.signature mtd).toList
  titles : ∀ mtd ∈ d.vulSet, '\n' ∉ (summaryTitle apis mtd.declaringClass).toList ∧
    (summaryTitle apis mtd.declaringClass).toList.head? ≠ some '\t'

/-- The block of a title and its items. -/
def textBlock (part : String × List String) : Block Char := (part.1.toList, part.2.map String.toList)

theorem block_toList (title : String) (items : List String) :
    (title ++ "\n" ++ String.join (items.map fun it => "\t" ++ it ++ "\n")).toList =
      writeBlocks '\n' '\t' [textBlock (title, items)] := by
  have lines : (String.join (items.map fun it => "\t" ++ it ++ "\n")).toList =
      writeLines '\n' ((items.map String.toList).map ('\t' :: ·)) := by
    rw [String.toList_join, writeLines, List.flatMap_map, List.flatMap_map, List.flatMap_map]
    exact List.flatMap_congr fun it _ => by simp
  rw [String.toList_append, lines]
  simp [writeBlocks, blockLines, textBlock, writeLines]

theorem summaryBlock_toList (title : String) (count : ℕ) (items : List String) :
    (summaryBlock title count items).toList = writeBlocks '\n' '\t' [textBlock (blockTitle title count, items)] := by
  have closing : ")\n" = ")" ++ "\n" := by decide
  rw [← block_toList, summaryBlock, blockTitle, closing, ← String.append_assoc]

theorem helperSummary_toList (f : Framework) (d : Detection) : (helperSummary f d).toList =
    writeBlocks '\n' '\t' [textBlock (kHelperTitle, (f.hashOrder.arrange d.helperVulSet).map f.signature)] := by
  have title : "Vulnerabilities in Helper Class:\n" = kHelperTitle ++ "\n" := by simp [kHelperTitle]
  unfold helperSummary
  simp only [← block_toList, title, List.map_map, Function.comp_def]

/-- A summary is its blocks, written. -/
theorem summary_toList (parts : List (String × ℕ × List String)) (f : Framework) (d : Detection) :
    (String.join (parts.map fun part => summaryBlock part.1 part.2.1 part.2.2) ++ helperSummary f d).toList =
      writeBlocks '\n' '\t' ((parts.map fun part => textBlock (blockTitle part.1 part.2.1, part.2.2)) ++
        [textBlock (kHelperTitle, (f.hashOrder.arrange d.helperVulSet).map f.signature)]) := by
  rw [String.toList_append, helperSummary_toList, writeBlocks_append, String.toList_join]
  refine congrArg (· ++ _) ?_
  induction parts with
  | nil => rfl
  | cons part parts ih =>
    simp only [List.map_cons, List.flatMap_cons, summaryBlock_toList]
    rw [ih, ← writeBlocks_append]
    rfl

theorem number_unbroken (count : ℕ) : '\n' ∉ Nat.toDigits 10 count := by
  intro broken
  have digit := Nat.isDigit_of_mem_toDigits (by decide) (by decide) broken
  revert digit
  decide

theorem blockTitle_legible (count : ℕ) (unbroken : '\n' ∉ title.toList) (plain : title.toList.head? ≠ some '\t') :
    '\n' ∉ (blockTitle title count).toList ∧ (blockTitle title count).toList.head? ≠ some '\t' := by
  have number := number_unbroken count
  constructor
  · simp [blockTitle, unbroken, number]
  · cases text : title.toList with
    | nil => simp [blockTitle, text]
    | cons c rest => simpa [blockTitle, text] using plain

theorem read_textBlock (part : String × List String) :
    (String.ofList (textBlock part).1, (textBlock part).2.map String.ofList) = part := by
  simp [textBlock, Function.comp_def]

/-- A summary with unbroken lines can be read back. -/
theorem readSummary_text (parts : List (String × ℕ × List String)) (f : Framework) (d : Detection)
    (titled : ∀ part ∈ parts, '\n' ∉ part.1.toList ∧ part.1.toList.head? ≠ some '\t')
    (unbroken : ∀ part ∈ parts, ∀ item ∈ part.2.2, '\n' ∉ item.toList)
    (signatures : ∀ mtd ∈ d.helperVulSet, '\n' ∉ (f.signature mtd).toList) :
    readSummary (String.join (parts.map fun part => summaryBlock part.1 part.2.1 part.2.2) ++ helperSummary f d) =
      (parts.map fun part => (blockTitle part.1 part.2.1, part.2.2)) ++
        [(kHelperTitle, (f.hashOrder.arrange d.helperVulSet).map f.signature)] := by
  rw [readSummary, summary_toList, readBlocks_writeBlocks (by decide)]
  · simp only [List.map_append, List.map_map, Function.comp_def, read_textBlock, List.map_singleton]
  · intro block member
    rcases List.mem_append.mp member with found | last
    · obtain ⟨part, listed, rfl⟩ := List.mem_map.mp found
      exact blockTitle_legible _ (titled part listed).1 (titled part listed).2
    · obtain rfl := List.mem_singleton.mp last
      simp only [textBlock]
      decide
  · intro block member item within
    rcases List.mem_append.mp member with found | last
    · obtain ⟨part, listed, rfl⟩ := List.mem_map.mp found
      obtain ⟨text, inside, rfl⟩ := List.mem_map.mp within
      exact unbroken part listed text inside
    · obtain rfl := List.mem_singleton.mp last
      obtain ⟨text, inside, rfl⟩ := List.mem_map.mp within
      obtain ⟨mtd, led, rfl⟩ := List.mem_map.mp inside
      exact signatures mtd (f.hashOrder.mem_arrange.mp led)

/-- The summary of a run can be read back: a block for each class with findings,
titled with their number, and a last one for the helpers, together with every
finding once. -/
theorem summary_read_back (differ : SignaturesDiffer f) (ran : runDetecting f machine orders allApi = .ok result)
    (legible : Legible f ((machine.nodeOrder.arrange allApi).map (·.object.value)) result.detection) :
    ∃ (sections : List (SootClass × List String)) (helpers : List String),
      readSummary result.resultsTxt = (sections.map fun part =>
        (blockTitle (summaryTitle ((machine.nodeOrder.arrange allApi).map (·.object.value)) part.1) part.2.length, part.2)) ++
        [("Vulnerabilities in Helper Class:", helpers)] ∧
      (sections.map Prod.fst).Nodup ∧
      (∀ part ∈ sections,
        part.2.Perm ((result.detection.vulSet.filter fun mtd => mtd.declaringClass = part.1).map f.signature)) ∧
      (sections.flatMap Prod.snd).Perm (result.detection.vulSet.map f.signature) ∧
      helpers.Perm (result.detection.helperVulSet.map f.signature) := by
  obtain ⟨detected, summary, _, _⟩ := runDetecting_ok ran
  obtain ⟨sections, saved, distinct, blocks, together⟩ :=
    saveSummary_ok differ (detection_recorded detected)
  rw [summary] at saved
  have counted (part : SootClass × List String) (listed : part ∈ sections) :
      (result.detection.vulSet.countP fun mtd => mtd.declaringClass = part.1) = part.2.length := by
    rw [List.countP_eq_length_filter, (blocks part listed).2.length_eq, List.length_map]
  have found (part : SootClass × List String) (listed : part ∈ sections) (item : String) (inside : item ∈ part.2) :
      ∃ mtd ∈ result.detection.vulSet, mtd.declaringClass = part.1 ∧ f.signature mtd = item := by
    obtain ⟨mtd, filtered, spelled⟩ := List.mem_map.mp ((blocks part listed).2.mem_iff.mp inside)
    obtain ⟨member, declared⟩ := List.mem_filter.mp filtered
    exact ⟨mtd, member, by simpa using declared, spelled⟩
  have read := readSummary_text
    (sections.map fun part => (summaryTitle ((machine.nodeOrder.arrange allApi).map (·.object.value)) part.1,
      (result.detection.vulSet.countP fun mtd => mtd.declaringClass = part.1), part.2)) f result.detection ?_ ?_
    fun mtd led => legible.signatures mtd (List.mem_append_right _ led)
  · rw [List.map_map, List.map_map] at read
    refine ⟨sections, _, ?_, distinct, fun part listed => (blocks part listed).2, together,
      (f.hashOrder.arrange_perm _).map f.signature⟩
    rw [Except.ok.inj saved]
    refine read.trans (congrArg (· ++ _) (List.map_congr_left fun part listed => ?_))
    rw [Function.comp_apply, counted part listed]
  · rw [List.forall_mem_map]
    intro part listed
    obtain ⟨item, inside⟩ := List.exists_mem_of_ne_nil _ (blocks part listed).1
    obtain ⟨mtd, member, declared, _⟩ := found part listed item inside
    exact declared ▸ legible.titles mtd member
  · rw [List.forall_mem_map]
    intro part listed item inside
    obtain ⟨mtd, member, _, rfl⟩ := found part listed item inside
    exact legible.signatures mtd (List.mem_append_left _ member)

theorem summary_read_back_listening : ∃ result,
    runDetecting listening sampleMachine sampleOrders listeningApis = .ok result ∧
    Legible listening ((sampleMachine.nodeOrder.arrange listeningApis).map (·.object.value)) result.detection ∧
    ∃ (sections : List (SootClass × List String)) (helpers : List String),
      readSummary result.resultsTxt = (sections.map fun part =>
        (blockTitle (summaryTitle ((sampleMachine.nodeOrder.arrange listeningApis).map (·.object.value)) part.1)
          part.2.length, part.2)) ++ [("Vulnerabilities in Helper Class:", helpers)] ∧
      (sections.map Prod.fst).Nodup ∧
      (∀ part ∈ sections,
        part.2.Perm ((result.detection.vulSet.filter fun mtd => mtd.declaringClass = part.1).map listening.signature)) ∧
      (sections.flatMap Prod.snd).Perm (result.detection.vulSet.map listening.signature) ∧
      helpers.Perm (result.detection.helperVulSet.map listening.signature) := by
  obtain ⟨result, ran, found, led⟩ : ∃ result, runDetecting listening sampleMachine sampleOrders listeningApis = .ok result ∧
      result.detection.vulSet = [sampleMethod "listen", sampleMethod "target"] ∧ result.detection.helperVulSet = [] :=
    ⟨_, rfl, rfl, rfl⟩
  have legible : Legible listening ((sampleMachine.nodeOrder.arrange listeningApis).map (·.object.value)) result.detection := by
    constructor
    · rw [found, led]
      decide +kernel
    · rw [found]
      decide +kernel
  exact ⟨result, ran, legible, summary_read_back listening_differ ran legible⟩

end JgreAnalysis.SummaryText
