import JgreAnalysis.SootModel

/-! The entries of the API registry: a service, or a helper class in front of
one. -/
namespace JgreAnalysis.ServiceApi
open SootModel

structure ServiceApiClass where
  helperClass : Option SootClass := none
  inf : Option SootClass := none
  implClass : Option SootClass := none
  managerName : Option String := none
  serviceName : Option String := none
  deriving DecidableEq, Repr

def ServiceApiClass.isHelperClass (api : ServiceApiClass) : Bool := api.helperClass.isSome

end JgreAnalysis.ServiceApi
