import JgreAnalysis.SootModel

/-! How a class is recognised as a binder class: by what it extends and
implements, looked up a fixed number of levels up. -/
namespace JgreAnalysis.BinderClasses
open SootModel

def kServiceImplInterface : String := "android.os.IInterface"

variable (p : Program)

/-- A class or interface names another one directly among its interfaces. -/
def namesInterface (name : String) (sc : SootClass) : Bool :=
  (p.interfaces sc).any fun inf => inf.name == name

/-- `SootTool.isIInterface`. -/
def isIInterface (sc : SootClass) : Bool := namesInterface p "android.os.IInterface" sc

/-- `ServiceImplExtractor.isBinderInterface`. -/
def isBinderInterface (sc : SootClass) : Bool := namesInterface p kServiceImplInterface sc

/-- `ServiceImplExtractor.isBinderClass`. The loops only set a flag, so the
jump out of them is the shortcut of `any`. -/
def isBinderClass (sc : SootClass) : Bool :=
  if p.isInterface sc then isBinderInterface p sc
  else (p.getSuperclassesOf sc).any fun sup =>
    (p.interfaces sup).any fun inf => namesInterface p kServiceImplInterface inf

end JgreAnalysis.BinderClasses
