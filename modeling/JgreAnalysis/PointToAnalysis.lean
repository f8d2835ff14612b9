import Mathlib.Data.Finset.Card
import Mathlib.Data.Finset.SDiff
import Mathlib.Data.List.AList
import JgreAnalysis.BinderClasses

/-! The points-to facts of one method body: which class each local holds, which
locals were allocated here, and which local was copied from which. -/
namespace JgreAnalysis.PointToAnalysis
open SootModel BinderClasses

def kAsBinder : String := "asBinder"

/-- The three collections that a run of the analysis fills. -/
structure PointTo where
  localValues : Finset Local
  valueDefines : AList fun _ : Local => SootClass
  pointToSet : AList fun _ : Local => Local

variable (p : Program)

/-- Parameters of a binder class, from the identity statements of the body. -/
def parseMethodBinderParameters (mtd : SootMethod) : AList fun _ : Local => SootClass :=
  (p.units mtd).foldl (fun valueTypes u =>
    match u with
    | .identity (.immediate (.loc left)) (.parameterRef _ (.refType sootClass)) =>
      if isBinderClass p sootClass then valueTypes.insert left sootClass else valueTypes
    | _ => valueTypes) ∅

def resolveInterfaceInvoke (inv : InvokeExpr) : Option SootClass :=
  if inv.methodRef.name = kAsBinder then some inv.methodRef.declaringClass
  else match inv.methodRef.returnType with
    | .refType sootClass => some sootClass
    | .other _ => none

def findValueDefines (facts : PointTo) (leftOp rightOp : Value) : PointTo :=
  match leftOp, rightOp with
  | .immediate (.loc left), .instanceFieldRef _ field =>
    match field.type with
    | .refType sootClass => { facts with valueDefines := facts.valueDefines.insert left sootClass }
    | .other _ => facts
  | .immediate (.loc left), .immediate (.loc right) =>
    { facts with pointToSet := facts.pointToSet.insert left right }
  | .immediate (.loc left), .newExpr sootClass =>
    { facts with
      valueDefines := facts.valueDefines.insert left sootClass
      localValues := insert left facts.localValues }
  | .immediate (.loc left), .invoke inv =>
    if inv.isInterface then
      match resolveInterfaceInvoke inv with
      | some sootClass => { facts with valueDefines := facts.valueDefines.insert left sootClass }
      | none => facts
    else facts
  | _, _ => facts

/-- `run`, from the empty collections of a new analysis. -/
def run (mtd : SootMethod) : PointTo :=
  (p.units mtd).foldl (fun facts u =>
    match u with
    | .assign leftOp rightOp => findValueDefines facts leftOp rightOp
    | _ => facts) ⟨∅, parseMethodBinderParameters p mtd, ∅⟩

theorem fewer_left {keys visitSet : Finset Local} (key : cur ∈ keys) (new : cur ∉ visitSet) :
    (keys \ insert cur visitSet).card < (keys \ visitSet).card := by
  apply Finset.card_lt_card
  refine Finset.ssubset_iff_of_subset (Finset.sdiff_subset_sdiff subset_rfl (Finset.subset_insert _ _)) |>.mpr ?_
  exact ⟨cur, Finset.mem_sdiff.mpr ⟨key, new⟩, by simp⟩

/-- The loop of `getLocalPointTo`. Every turn visits one more key of the map.
A key always has a value, so the loop leaves through its test and the local
asked for is what comes back. -/
def chase (pointToSet : AList fun _ : Local => Local) (loc : Local) (visitSet : Finset Local)
    (cur : Local) : Local :=
  if _turn : cur ∈ pointToSet ∧ cur ∉ visitSet then
    match pointToSet.lookup cur with
    | none => cur
    | some nxt => chase pointToSet loc (insert cur visitSet) nxt
  else loc
termination_by (pointToSet.keys.toFinset \ visitSet).card
decreasing_by exact fewer_left (List.mem_toFinset.mpr _turn.1) _turn.2

def getLocalPointTo (facts : PointTo) (loc : Local) : Local := chase facts.pointToSet loc ∅ loc

def getLocalDefine (facts : PointTo) (loc : Local) : Option SootClass :=
  facts.valueDefines.lookup (getLocalPointTo facts loc)

def isLocalValue (facts : PointTo) (loc : Local) : Bool :=
  decide (getLocalPointTo facts loc ∈ facts.localValues)

end JgreAnalysis.PointToAnalysis
