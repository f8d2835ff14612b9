import JgreAnalysis.NativeMain
import JgreAnalysis.SeparatedNames

/-! The report of a native run. Every line is an entry point and the names on the
way to a global reference, and where no name can be mistaken for two the report
can be read back. -/
namespace JgreAnalysis.NativeReport
open SootModel ClangCursor NativeCallGraph NativeChainSearch NativeMain SeparatedNames

/-- The names that an edge stands for in a report. An exit is written with the
call that it makes behind it. -/
def printedEdge (e : Edge) : List String :=
  getMethodSimpleName e.node :: if e.isExitPoint then [jgrMethodSignature] else []

def printedNames (path : List Edge) : List String := path.flatMap printedEdge

/-- The lines of a report: an entry point and the names behind it. -/
def printedLines (callChains : CallChains) : List (String × List String) :=
  (foundChains callChains).map fun item => (item.1, printedNames item.2)

def lineText (line : String × List String) : String := line.1 ++ ": " ++ " -> ".intercalate line.2

/-- No name breaks a line, no entry point and a colon begin another entry point,
and no name and a blank begin another name. -/
structure Legible (lines : List (String × List String)) : Prop where
  unbroken : ∀ line ∈ lines, '\n' ∉ (lineText line).toList
  entries : Unmistakable ':' (lines.map (·.1.toList)) (lines.map (·.1.toList))
  names : Unmistakable ' ' ((lines.flatMap (·.2)).map String.toList) ((lines.flatMap (·.2)).map String.toList)

theorem simpleName_eq (e : Edge) : e.simpleName = " -> ".intercalate (printedEdge e) := by
  unfold Edge.simpleName printedEdge
  split <;> simp

theorem intercalate_printed (path : List Edge) :
    " -> ".intercalate (path.map Edge.simpleName) = " -> ".intercalate (printedNames path) := by
  induction path with
  | nil => rfl
  | cons e path ih =>
    cases path with
    | nil => simp [printedNames, simpleName_eq]
    | cons next path =>
      have filled : printedNames (next :: path) ≠ [] := by simp [printedNames, printedEdge]
      have here : printedEdge e ≠ [] := by simp [printedEdge]
      rw [List.map_cons, String.intercalate_cons_of_ne_nil (by simp), ih, simpleName_eq,
        show printedNames (e :: next :: path) = printedEdge e ++ printedNames (next :: path) from rfl,
        String.intercalate_append_of_ne_nil here filled]

theorem savedText_eq (callChains : CallChains) :
    savedText callChains = "\n".intercalate ((printedLines callChains).map lineText) := by
  rw [savedText, printedLines, List.map_map]
  refine congrArg _ (List.map_congr_left fun item _ => ?_)
  simp only [savedItem, Function.comp_apply, lineText, intercalate_printed]

theorem lineText_toList (line : String × List String) : (lineText line).toList =
    line.1.toList ++ ':' :: ' ' :: [' ', '-', '>', ' '].intercalate (line.2.map String.toList) := by
  simp [lineText]

/-! ## Reading a report -/

theorem mem_names {lines : List (String × List String)} (line : String × List String) (member : line ∈ lines) :
    line.2.map String.toList ⊆ (lines.flatMap (·.2)).map String.toList := by
  intro text written
  obtain ⟨name, listed, rfl⟩ := List.mem_map.mp written
  exact List.mem_map_of_mem (List.mem_flatMap.mpr ⟨line, member, listed⟩)

/-- The text of a line determines its entry point and its names. -/
theorem lineText_injective {lines : List (String × List String)} (legible : Legible lines)
    (filled : ∀ line ∈ lines, line.2 ≠ []) (member : line ∈ lines) (otherMember : other ∈ lines)
    (same : lineText line = lineText other) : line = other := by
  have written := congrArg String.toList same
  rw [lineText_toList, lineText_toList] at written
  have entry : line.1.toList = other.1.toList := word_eq_of_marked written
    (legible.entries _ (List.mem_map_of_mem member) _ (List.mem_map_of_mem otherMember))
    (legible.entries _ (List.mem_map_of_mem otherMember) _ (List.mem_map_of_mem member))
  rw [entry] at written
  have joined := (List.cons.inj (List.cons.inj (List.append_cancel_left written)).2).2
  have names : line.2.map String.toList = other.2.map String.toList := by
    refine intercalate_injective (by simp [filled line member]) (by simp [filled other otherMember]) ?_ ?_ joined
    · exact legible.names.mono (mem_names line member) (mem_names other otherMember)
    · exact legible.names.mono (mem_names other otherMember) (mem_names line member)
  exact Prod.ext (String.toList_inj.mp entry) (List.map_injective_iff.mpr (fun _ _ => String.toList_inj.mp) names)

theorem lineText_filled (line : String × List String) : (lineText line).toList ≠ [] := by
  rw [lineText_toList]
  simp

/-- A map that tells the elements of two lists apart tells the lists apart. -/
theorem map_inj_of_mem {f : α → β} (xs ys : List α) (apart : ∀ x ∈ xs, ∀ y ∈ ys, f x = f y → x = y)
    (same : xs.map f = ys.map f) : xs = ys := by
  induction xs generalizing ys with
  | nil => exact (List.map_eq_nil_iff.mp same.symm).symm
  | cons x xs ih =>
    cases ys with
    | nil => simp at same
    | cons y ys =>
      obtain ⟨first, rest⟩ := List.cons.inj same
      rw [apart x List.mem_cons_self y List.mem_cons_self first,
        ih ys (fun x member y within => apart x (by simp [member]) y (by simp [within])) rest]

/-- The text of some lines determines them. -/
theorem linesText_injective {lines others : List (String × List String)} (legible : Legible (lines ++ others))
    (filled : ∀ line ∈ lines ++ others, line.2 ≠ [])
    (same : "\n".intercalate (lines.map lineText) = "\n".intercalate (others.map lineText)) : lines = others := by
  have written : ['\n'].intercalate ((lines.map lineText).map String.toList) =
      ['\n'].intercalate ((others.map lineText).map String.toList) := by
    simpa using congrArg String.toList same
  have texts (some_ : List (String × List String)) (within : some_ ⊆ lines ++ others) :
      ∀ text ∈ (some_.map lineText).map String.toList, '\n' ∉ text := by
    intro text member
    simp only [List.map_map, List.mem_map, Function.comp_apply] at member
    obtain ⟨line, listed, rfl⟩ := member
    exact legible.unbroken line (within listed)
  have apart : ∀ line ∈ lines, ∀ other ∈ others, lineText line = lineText other → line = other := by
    intro line member other within
    exact lineText_injective legible filled (List.mem_append_left _ member) (List.mem_append_right _ within)
  have blank (some_ : List (String × List String)) (empty : ['\n'].intercalate ((some_.map lineText).map String.toList) = []) :
      some_ = [] := by
    cases some_ with
    | nil => rfl
    | cons line rest =>
      cases rest with
      | nil => exact absurd (by simpa using empty) (lineText_filled line)
      | cons next rest => simp at empty
  by_cases none : lines = []
  · subst none
    exact (blank others written.symm).symm
  by_cases alone : others = []
  · subst alone
    exact blank lines written
  refine map_inj_of_mem lines others apart (List.map_injective_iff.mpr (fun _ _ => String.toList_inj.mp) ?_)
  refine intercalate_injective (by simpa using none) (by simpa using alone) ?_ ?_ written
  · exact unmistakable_of_free _ (texts others (List.subset_append_right _ _))
  · exact unmistakable_of_free _ (texts lines (List.subset_append_left _ _))

/-! ## The reports of runs -/

theorem printedNames_exit (path : List Edge) (last : Edge) (ends : path.getLast? = some last) (exit : IsExit last) :
    (printedNames path).getLast? = some "_JNIEnv::NewGlobalRef" := by
  obtain ⟨way, rfl⟩ := List.getLast?_eq_some_iff.mp ends
  have final : (printedEdge last).getLast? = some "_JNIEnv::NewGlobalRef" := by
    unfold printedEdge
    by_cases flagged : last.isExitPoint = true
    · simp [flagged, jgrMethodSignature]
    · have named := exit.resolve_left flagged
      rw [Edge.simpleName, if_neg flagged] at named
      simp [flagged, named]
  rw [printedNames, List.flatMap_append, List.flatMap_singleton, List.getLast?_append, final]
  rfl

theorem printed_exit (ran : main machine order entryOrder limit options = .ok (chains, text)) :
    ∀ line ∈ printedLines chains, line.2.getLast? = some "_JNIEnv::NewGlobalRef" := by
  obtain ⟨source, allFiles, entryPoints, _, _, _, _, searched, _⟩ := (main_ok_iff options _).mp ran
  intro line member
  obtain ⟨_, found, rfl⟩ := List.mem_map.mp member
  obtain ⟨⟨name, path⟩, entry, rfl⟩ := List.mem_map.mp found
  have bound : chains.lookup name = some path := AList.mem_lookup_iff.mpr (List.mem_reverse.mp entry)
  obtain ⟨_, last, ends, exit⟩ := walk_found ((chain_of_walk _ searched).2 name path bound)
  exact printedNames_exit path last ends exit

/-- Two runs save the same text exactly when they print the same lines, where no
name in them can be mistaken. Every line ends with the call that makes global
references. -/
theorem report_read_back (ran : main machine order entryOrder limit options = .ok (first, text))
    (again : main other edgeOrder nameOrder depth others = .ok (second, otherText))
    (legible : Legible (printedLines first ++ printedLines second)) :
    (text = otherText ↔ printedLines first = printedLines second) ∧
    ∀ line ∈ printedLines first ++ printedLines second, line.2.getLast? = some "_JNIEnv::NewGlobalRef" := by
  have ends : ∀ line ∈ printedLines first ++ printedLines second, line.2.getLast? = some "_JNIEnv::NewGlobalRef" :=
    List.forall_mem_append.mpr ⟨printed_exit ran, printed_exit again⟩
  obtain ⟨_, _, _, _, _, _, _, searched, _⟩ := (main_ok_iff options _).mp ran
  obtain ⟨_, _, _, _, _, _, _, searchedToo, _⟩ := (main_ok_iff others _).mp again
  refine ⟨?_, ends⟩
  rw [saved_of_run _ searched, saved_of_run _ searchedToo, savedText_eq, savedText_eq]
  constructor
  · refine linesText_injective legible fun line member empty => ?_
    have last := ends line member
    rw [empty] at last
    cases last
  · intro same
    rw [same]

/-- Running twice with more stack prints the line again. -/
theorem retainingTree_lines (limit : ℕ) (enough : limit = 3 ∨ limit = 9) :
    (main retainingTree insertionOrder insertionOrder limit ⟨some "aosp", none⟩).map (fun reply => printedLines reply.1) =
      .ok [("android_retain", ["android_retain", "_JNIEnv::NewGlobalRef"])] := by
  rcases enough with rfl | rfl <;> decide +kernel

theorem retain_legible : Legible ([("android_retain", ["android_retain", "_JNIEnv::NewGlobalRef"])] ++
    [("android_retain", ["android_retain", "_JNIEnv::NewGlobalRef"])]) where
  unbroken := by decide +kernel
  entries := by
    unfold Unmistakable
    decide +kernel
  names := by
    unfold Unmistakable
    decide +kernel

theorem report_read_back_retainingTree : ∃ first text second otherText,
    main retainingTree insertionOrder insertionOrder 3 ⟨some "aosp", none⟩ = .ok (first, text) ∧
    main retainingTree insertionOrder insertionOrder 9 ⟨some "aosp", none⟩ = .ok (second, otherText) ∧
    Legible (printedLines first ++ printedLines second) ∧
    (text = otherText ↔ printedLines first = printedLines second) ∧
    ∀ line ∈ printedLines first ++ printedLines second, line.2.getLast? = some "_JNIEnv::NewGlobalRef" := by
  have ended (limit : ℕ) (enough : limit = 3 ∨ limit = 9) : ∃ chains text,
      main retainingTree insertionOrder insertionOrder limit ⟨some "aosp", none⟩ = .ok (chains, text) ∧
      printedLines chains = [("android_retain", ["android_retain", "_JNIEnv::NewGlobalRef"])] := by
    have lines := retainingTree_lines limit enough
    cases ran : main retainingTree insertionOrder insertionOrder limit ⟨some "aosp", none⟩ with
    | error problem => simp [ran, Except.map] at lines
    | ok reply => exact ⟨reply.1, reply.2, rfl, by simpa [ran, Except.map] using lines⟩
  obtain ⟨first, text, ran, printed⟩ := ended 3 (.inl rfl)
  obtain ⟨second, otherText, again, printedToo⟩ := ended 9 (.inr rfl)
  have legible : Legible (printedLines first ++ printedLines second) := by
    rw [printed, printedToo]
    exact retain_legible
  exact ⟨first, text, second, otherText, ran, again, legible, report_read_back ran again legible⟩

end JgreAnalysis.NativeReport
