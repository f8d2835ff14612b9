import Mathlib.Data.List.Basic

/-! Texts in blocks. A block is a title and the items below it, each on a line of
its own that begins with a mark. Where no title begins with the mark and no line
is broken, the blocks can be read back from the text. -/
namespace JgreAnalysis.IndentedBlocks

variable {α : Type}

/-- A title and its items. -/
abbrev Block (α : Type) := List α × List (List α)

def blockLines (mark : α) (block : Block α) : List (List α) := block.1 :: block.2.map (mark :: ·)

/-- Every line is ended by a stop. -/
def writeLines (stop : α) (lines : List (List α)) : List α := lines.flatMap (· ++ [stop])

def writeBlocks (stop mark : α) (blocks : List (Block α)) : List α := writeLines stop (blocks.flatMap (blockLines mark))

theorem writeLines_eq (stop : α) (lines : List (List α)) : writeLines stop lines = [stop].intercalate (lines ++ [[]]) := by
  induction lines with
  | nil => simp [writeLines]
  | cons line lines ih =>
    rw [writeLines, List.flatMap_cons, ← writeLines, ih, List.cons_append, List.intercalate_cons_of_ne_nil (by simp)]

theorem writeBlocks_append (stop mark : α) (first rest : List (Block α)) :
    writeBlocks stop mark (first ++ rest) = writeBlocks stop mark first ++ writeBlocks stop mark rest := by
  simp [writeBlocks, writeLines]

variable [DecidableEq α]

def readLines (stop : α) (text : List α) : List (List α) := (text.splitOn stop).dropLast

/-- One line in front of others: an item for the block that is still open, or the
title of that block. -/
def readLine (mark : α) (line : List α) (read : List (List α) × List (Block α)) : List (List α) × List (Block α) :=
  if line.head? = some mark then (line.tail :: read.1, read.2) else ([], (line, read.1) :: read.2)

/-- The blocks of a text, without the items in front of the first title. -/
def readBlocks (stop mark : α) (text : List α) : List (Block α) := ((readLines stop text).foldr (readLine mark) ([], [])).2

/-! ## Round trips -/

theorem readLines_writeLines {stop : α} {lines : List (List α)} (unbroken : ∀ line ∈ lines, stop ∉ line) :
    readLines stop (writeLines stop lines) = lines := by
  rw [readLines, writeLines_eq, List.splitOn_intercalate, List.dropLast_concat]
  · simpa [or_imp, forall_and] using unbroken
  · simp

theorem readLine_items (mark : α) (items pending : List (List α)) (blocks : List (Block α)) :
    (items.map (mark :: ·)).foldr (readLine mark) (pending, blocks) = (items ++ pending, blocks) := by
  induction items with
  | nil => rfl
  | cons item items ih => simp [ih, readLine]

theorem readLine_blocks {mark : α} {blocks : List (Block α)} (titled : ∀ block ∈ blocks, block.1.head? ≠ some mark) :
    (blocks.flatMap (blockLines mark)).foldr (readLine mark) ([], []) = ([], blocks) := by
  induction blocks with
  | nil => rfl
  | cons block blocks ih =>
    obtain ⟨title, rest⟩ := List.forall_mem_cons.mp titled
    rw [List.flatMap_cons, List.foldr_append, ih rest, blockLines, List.foldr_cons, readLine_items, readLine, if_neg title,
      List.append_nil]

/-- Blocks that are written can be read back. -/
theorem readBlocks_writeBlocks {stop mark : α} {blocks : List (Block α)} (apart : mark ≠ stop)
    (titled : ∀ block ∈ blocks, stop ∉ block.1 ∧ block.1.head? ≠ some mark)
    (unbroken : ∀ block ∈ blocks, ∀ item ∈ block.2, stop ∉ item) :
    readBlocks stop mark (writeBlocks stop mark blocks) = blocks := by
  rw [readBlocks, writeBlocks, readLines_writeLines, readLine_blocks fun block member => (titled block member).2]
  intro line member
  obtain ⟨block, inside, listed⟩ := List.mem_flatMap.mp member
  rcases List.mem_cons.mp listed with rfl | below
  · exact (titled block inside).1
  · obtain ⟨item, among, rfl⟩ := List.mem_map.mp below
    simpa [apart.symm] using unbroken block inside item among

end JgreAnalysis.IndentedBlocks
