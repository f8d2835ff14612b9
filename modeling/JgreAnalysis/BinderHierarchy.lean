import Mathlib.Logic.Relation
import JgreAnalysis.FrameworkScene

/-! Binder classes against the class hierarchy. The check looks at fixed levels
of the hierarchy, so what it finds is always above the class, but not everything
above the class is where it looks. -/
namespace JgreAnalysis.BinderHierarchy
open SootModel BinderClasses FrameworkScene
open Relation

variable (f : Framework)

def Extends (sc sup : SootClass) : Prop := f.superclass sc = some sup

/-- One class or interface names the other as its superclass or among its
interfaces. -/
def DirectSupertype (sc sup : SootClass) : Prop := Extends f sc sup ∨ sup ∈ f.interfaces sc

def IInterface : SootClass := ⟨"android.os.IInterface"⟩

/-- `IInterface` is above the class, through superclasses and interfaces. -/
def BinderSubtype (sc : SootClass) : Prop := TransGen (DirectSupertype f) sc IInterface

/-- `Hierarchy.getSuperclassesOf` returns the proper superclasses of a class. -/
def ProperSuperclasses : Prop :=
  ∀ sc sup, f.isInterface sc = false → (sup ∈ f.getSuperclassesOf sc ↔ TransGen (Extends f) sc sup)

variable {f}

theorem namesInterface_iff (sc : SootClass) :
    namesInterface f.toProgram kServiceImplInterface sc = true ↔ IInterface ∈ f.interfaces sc := by
  rw [namesInterface, List.any_eq_true]
  constructor
  · rintro ⟨inf, member, named⟩
    have same : inf = IInterface := by
      cases inf
      simpa [IInterface, kServiceImplInterface] using named
    exact same ▸ member
  · intro member
    exact ⟨IInterface, member, by simp [IInterface, kServiceImplInterface]⟩

/-- Where the check looks: at the interfaces of an interface, and at those of
the interfaces of a class's proper superclasses. -/
theorem isBinderClass_iff (proper : ProperSuperclasses f) (sc : SootClass) : isBinderClass f.toProgram sc = true ↔
    (f.isInterface sc = true ∧ IInterface ∈ f.interfaces sc) ∨
    (f.isInterface sc = false ∧ ∃ sup, TransGen (Extends f) sc sup ∧
      ∃ inf ∈ f.interfaces sup, IInterface ∈ f.interfaces inf) := by
  unfold isBinderClass
  cases interface : f.isInterface sc with
  | true => simpa [isBinderInterface] using namesInterface_iff sc
  | false => simp [List.any_eq_true, namesInterface_iff, proper sc _ interface]

/-- A class that passes the check is below `IInterface`. -/
theorem binderSubtype_of_check (proper : ProperSuperclasses f) (passes : isBinderClass f.toProgram sc = true) :
    BinderSubtype f sc := by
  rcases (isBinderClass_iff proper sc).mp passes with ⟨_, direct⟩ | ⟨_, sup, above, inf, member, direct⟩
  · exact .single (.inr direct)
  · have toSup : TransGen (DirectSupertype f) sc sup := above.lift id fun _ _ => .inl
    exact (toSup.tail (.inr member)).tail (.inr direct)

/-- The check agrees with subtyping on a class exactly when `IInterface` is not
above the class, or is above it where the check looks. -/
theorem binderClass_agrees_iff (proper : ProperSuperclasses f) (sc : SootClass) :
    (isBinderClass f.toProgram sc = true ↔ BinderSubtype f sc) ↔
    (BinderSubtype f sc → (f.isInterface sc = true ∧ IInterface ∈ f.interfaces sc) ∨
      (f.isInterface sc = false ∧ ∃ sup, TransGen (Extends f) sc sup ∧
        ∃ inf ∈ f.interfaces sup, IInterface ∈ f.interfaces inf)) := by
  rw [← isBinderClass_iff proper]
  exact ⟨Iff.mpr, fun complete => ⟨binderSubtype_of_check proper, complete⟩⟩

/-- A service interface and a proxy that implements it and extends nothing but
the root. -/
def proxyHierarchy : Framework :=
  { sampleFramework { sampleProgram fun _ => [] with
      isInterface := fun sc => decide (sc = ⟨"IService"⟩ ∨ sc = IInterface)
      interfaces := fun sc =>
        if sc = ⟨"IService"⟩ then [IInterface] else if sc = ⟨"IService$Stub$Proxy"⟩ then [⟨"IService"⟩] else []
      getSuperclassesOf := fun sc => if sc = ⟨"IService$Stub$Proxy"⟩ then [OBJECT] else [] } with
    superclass := fun sc => if sc = ⟨"IService$Stub$Proxy"⟩ then some OBJECT else none }

theorem proxyHierarchy_proper : ProperSuperclasses proxyHierarchy := by
  have nothing (sc sup : SootClass) (top : proxyHierarchy.superclass sc = none) : ¬ TransGen (Extends proxyHierarchy) sc sup := by
    intro above
    obtain ⟨_, step, _⟩ := TransGen.head'_iff.mp above
    rw [Extends, top] at step
    cases step
  intro sc sup _
  by_cases proxy : sc = ⟨"IService$Stub$Proxy"⟩
  · subst proxy
    constructor
    · intro listed
      exact .single (List.mem_singleton.mp listed ▸ rfl)
    · intro above
      obtain ⟨next, step, rest⟩ := TransGen.head'_iff.mp above
      cases step
      rcases reflTransGen_iff_eq_or_transGen.mp rest with same | further
      · exact List.mem_singleton.mpr same
      · exact absurd further (nothing OBJECT sup rfl)
  · have top : proxyHierarchy.superclass sc = none := if_neg proxy
    have unlisted : proxyHierarchy.getSuperclassesOf sc = [] := if_neg proxy
    simp [unlisted, nothing sc sup top]

theorem binderClass_agrees_iff_proxy : ProperSuperclasses proxyHierarchy ∧
    ((isBinderClass proxyHierarchy.toProgram ⟨"IService"⟩ = true ↔ BinderSubtype proxyHierarchy ⟨"IService"⟩) ↔
    (BinderSubtype proxyHierarchy ⟨"IService"⟩ →
      (proxyHierarchy.isInterface ⟨"IService"⟩ = true ∧ IInterface ∈ proxyHierarchy.interfaces ⟨"IService"⟩) ∨
      (proxyHierarchy.isInterface ⟨"IService"⟩ = false ∧ ∃ sup, TransGen (Extends proxyHierarchy) ⟨"IService"⟩ sup ∧
        ∃ inf ∈ proxyHierarchy.interfaces sup, IInterface ∈ proxyHierarchy.interfaces inf))) :=
  ⟨proxyHierarchy_proper, binderClass_agrees_iff proxyHierarchy_proper ⟨"IService"⟩⟩

/-- The proxy implements the interface of the service itself, which is not where
the check looks. -/
theorem proxy_not_recognised : ProperSuperclasses proxyHierarchy ∧
    BinderSubtype proxyHierarchy ⟨"IService$Stub$Proxy"⟩ ∧
    isBinderClass proxyHierarchy.toProgram ⟨"IService$Stub$Proxy"⟩ = false := by
  have implements_ : DirectSupertype proxyHierarchy ⟨"IService$Stub$Proxy"⟩ ⟨"IService"⟩ := .inr (by decide)
  have extends_ : DirectSupertype proxyHierarchy ⟨"IService"⟩ IInterface := .inr (by decide)
  exact ⟨proxyHierarchy_proper, .tail (.single implements_) extends_, by decide⟩

end JgreAnalysis.BinderHierarchy
